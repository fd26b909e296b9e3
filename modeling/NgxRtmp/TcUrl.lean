import NgxRtmp.CStrings

namespace NgxRtmp.TcUrl
open Connect CStrings List

-- ngx_rtmp_relay_parse_tcurl has the text of ngx_rtmp_cmd_parse_tcurl.
def relayParseTcurl (memory : List UInt8) : Option Connect.Url := parseTcurl memory

inductive Side where
  | session
  | relay

def Side.parse : Side → List UInt8 → Option Connect.Url
  | .session => parseTcurl
  | .relay => relayParseTcurl

structure Inbound where
  host : List UInt8
  port : List UInt8
  deriving DecidableEq, Repr

def Side.set (side : Side) (s : Inbound) (memory : List UInt8) : Inbound :=
  match side.parse memory with
  | none => s
  | some url => ⟨url.host,url.port.getD s.port⟩

theorem prepare_inbound {next : Session} (prepared : prepare cfg s v = some next) :
    ⟨next.hostIn,next.portIn⟩ = Side.session.set ⟨s.hostIn,s.portIn⟩ v.memory := by
  unfold prepare at prepared
  cases parsed : parseTcurl v.memory with
  | none =>
    rw [parsed] at prepared
    cases prepared
    simp [Side.set,Side.parse,parsed]
  | some url =>
    rw [parsed] at prepared
    simp only [setVirtualServer] at prepared
    cases chosen : select cfg url.host v.flashver with
    | ok server =>
      rw [chosen] at prepared
      cases prepared
      simp [Side.set,Side.parse,parsed]
    | declined =>
      rw [chosen] at prepared
      cases prepared
      simp [Side.set,Side.parse,parsed]
    | error =>
      rw [chosen] at prepared
      cases prepared
      simp [Side.set,Side.parse,parsed,Session.finalize]
    | fault =>
      rw [chosen] at prepared
      cases prepared

-- scheme://host[:port]/app, path segments and a query. Only a host in brackets has colons.
structure Url where
  scheme : List UInt8
  host : List UInt8
  port : Option (List UInt8)
  app : List UInt8
  segments : List (List UInt8)
  query : Option (List (List UInt8))
  schemeText : ∀ b ∈ scheme, b ≠ 58 ∧ b ≠ 0
  hostText : ∀ b ∈ host, b ≠ 47 ∧ b ≠ 63 ∧ b ≠ 0
  bracketed : 58 ∈ host → host.head? = some 91 ∧ host.getLast? = some 93
  portText : ∀ digits ∈ port, ∀ b ∈ digits, 48 ≤ b ∧ b ≤ 57
  named : app ≠ []
  appText : ∀ b ∈ app, b ≠ 47 ∧ b ≠ 63 ∧ b ≠ 0
  segmentsText : ∀ segment ∈ segments, ∀ b ∈ segment, b ≠ 47 ∧ b ≠ 63 ∧ b ≠ 0
  queryText : ∀ params ∈ query, ∀ param ∈ params, ∀ b ∈ param, b ≠ 38 ∧ b ≠ 0

def Url.path (u : Url) : List UInt8 := u.app ++ u.segments.flatMap (47::·)

def queryString : Option (List (List UInt8)) → List UInt8
  | none => []
  | some params => 63::[38].intercalate params

def Url.beyond (u : Url) : List UInt8 := u.path ++ queryString u.query

def portString : Option (List UInt8) → List UInt8
  | none => []
  | some digits => 58::digits

def Url.text (u : Url) : List UInt8 :=
  u.scheme ++ (schemeEnd ++ (u.host ++ (portString u.port ++ 47::u.beyond)))

def Url.upTo (u : Url) (before : List (List UInt8)) : List UInt8 :=
  u.scheme ++ (schemeEnd ++ (u.host ++ (portString u.port ++ 47::(u.path ++ 63::before.flatMap (· ++ [38])))))

def Holds (port before more : List UInt8) : Prop :=
  (∃ tail, more = port ++ 47::tail) ∨ 47 ∉ more.takeWhile (· ≠ 0) ∧ before = port

-- Without "vhost=" in it, and without a port no colon and no further slash; or a "vhost=" that is no
-- parameter's repeats host and port.
def Legible (u : Url) (before behind : List UInt8) : Prop :=
  (¬ vhostArg <:+: u.text ∧ 58 ∉ u.host ∧ (u.port.isSome ∨ 58 ∉ u.beyond ∧ 47 ∉ u.beyond ∧ before = [])) ∨
  ∃ lead stop more, u.text ++ 0::behind = lead ++ (vhostArg ++ (u.host ++ stop::more)) ∧
    ¬ vhostArg <:+: lead ∧ 0 ∉ lead ∧ 38 ∉ u.host ∧ (stop = 38 ∨ stop = 0) ∧ Holds (u.port.getD []) before more

-- The first "vhost=" is the parameter's, or has the same name behind it.
def Foremost (front name : List UInt8) : Prop :=
  ¬ vhostArg <:+: front ∨ ∃ lead tail, front = lead ++ (vhostArg ++ (name ++ 38::tail)) ∧ ¬ vhostArg <:+: lead

section
variable {lead rest text : List UInt8}

theorem value_ends (plain : 0 ∉ rest) :
    ∃ value stop more, rest ++ 0::behind = value ++ stop::more ∧ 38 ∉ value ∧ 0 ∉ value ∧ (stop = 38 ∨ stop = 0) := by
  by_cases joined : 38 ∈ rest
  · obtain ⟨value,more,rfl,clear⟩ := eq_append_cons_of_mem joined
    exact ⟨value,38,more ++ 0::behind,by simp,clear,fun zero => plain (mem_append_left _ zero),.inl rfl⟩
  · exact ⟨rest,0,behind,rfl,joined,plain,.inr rfl⟩

theorem parse_vhost (clear : ¬ vhostArg <:+: lead) (plain : 0 ∉ lead) (apart : 38 ∉ value) (text : 0 ∉ value)
    (ends : stop = 38 ∨ stop = 0) (more : List UInt8) : parseTcurl (lead ++ (vhostArg ++ (value ++ stop::more))) =
      some ⟨value,(strchr 47 more).map (between more)⟩ := by
  have found : strstr vhostArg (lead ++ (vhostArg ++ (value ++ stop::more))) = some (vhostArg ++ (value ++ stop::more)) :=
    strstr_found (by decide) clear plain
  have halt : (strstr [38] (value ++ stop::more)).getD ((value ++ stop::more).drop (strlen (value ++ stop::more))) =
      stop::more := by
    rw [← strchr_strstr]
    rcases ends with rfl | rfl
    · rw [strchr_found apart text]
      rfl
    · rw [strchr_none 38 (by decide) apart text,strlen_text text]
      simp
  simp [parseTcurl,found,halt,withPort]

theorem parse_plain (absent : ¬ vhostArg <:+: text) (plain : 0 ∉ text) (scheme rest behind : List UInt8)
    (known : ∀ b ∈ scheme, b ≠ 58 ∧ b ≠ 0) (same : text = scheme ++ (schemeEnd ++ rest)) :
    parseTcurl (text ++ 0::behind) = some (withPort (rest ++ 0::behind)
      (((strchr 58 (rest ++ 0::behind)).orElse fun _ => strchr 47 (rest ++ 0::behind)).getD
        ((rest ++ 0::behind).drop (strlen (rest ++ 0::behind)+1)))) := by
  have none : strstr vhostArg (text ++ 0::behind) = none :=
    strstr_none (by decide) absent plain (by decide)
  have found : strstr schemeEnd (text ++ 0::behind) = some (schemeEnd ++ (rest ++ 0::behind)) := by
    have clear : ¬ schemeEnd <:+: scheme := fun inside => (known 58 (inside.subset (by decide))).1 rfl
    rw [same,append_assoc,append_assoc]
    exact strstr_found (by decide) clear fun zero => (known 0 zero).2 rfl
  simp [parseTcurl,none,found]

theorem holds_iff {before : List UInt8} (inner : 47 ∉ port) (text : 0 ∉ port) :
    ((strchr 47 more).map (between more)).getD before = port ↔ Holds port before more := by
  rcases strchr_cases 47 (by decide) more with ⟨lead,tail,rfl,clear,plain,found⟩ | ⟨absent,none⟩
  · rw [found]
    simp only [Option.map_some,between_append,Option.getD_some]
    constructor
    · rintro rfl
      exact .inl ⟨tail,rfl⟩
    · rintro (⟨other,same⟩ | ⟨absent,_⟩)
      · exact (Texts.split_unique clear inner same).1
      · refine absurd ?_ absent
        rw [takeWhile_append_of_pos (text_visible plain)]
        simp
  · rw [none]
    simp only [Option.map_none,Option.getD_none]
    constructor
    · exact fun same => .inr ⟨absent,same⟩
    · rintro (⟨other,rfl⟩ | ⟨_,same⟩)
      · rw [strchr_found inner text] at none
        cases none
      · exact same

end

theorem queryString_text (known : ∀ params ∈ query, ∀ param ∈ params, ∀ b ∈ param, b ≠ 38 ∧ b ≠ 0) : 0 ∉ queryString query := by
  cases query with
  | none => simp [queryString]
  | some params =>
    intro zero
    rcases mem_cons.mp zero with mark | inside
    · cases mark
    · rcases Texts.mem_intercalate 38 0 params inside with mark | ⟨param,member,here⟩
      · cases mark
      · exact (known params rfl param member 0 here).2 rfl

theorem Url.beyond_text (u : Url) : 0 ∉ u.beyond := by
  intro zero
  simp only [Url.beyond,Url.path,mem_append,mem_flatMap,mem_cons] at zero
  rcases zero with (here | ⟨segment,member,mark | inside⟩) | asked
  · exact (u.appText 0 here).2.2 rfl
  · cases mark
  · exact (u.segmentsText segment member 0 inside).2.2 rfl
  · exact queryString_text u.queryText asked

theorem Url.port_plain (u : Url) : 47 ∉ u.port.getD [] ∧ 0 ∉ u.port.getD [] := by
  cases shape : u.port with
  | none => simp
  | some digits =>
    have known := u.portText digits shape
    refine ⟨?_,?_⟩
    · exact fun inside => absurd (known _ inside).1 (by decide)
    · exact fun inside => absurd (known _ inside).1 (by decide)

theorem Url.host_plain (u : Url) : 47 ∉ u.host ∧ 0 ∉ u.host :=
  ⟨fun inside => (u.hostText 47 inside).1 rfl,fun inside => (u.hostText 0 inside).2.2 rfl⟩

theorem portString_text {u : Url} : 0 ∉ portString u.port := by
  have digits := u.port_plain.2
  cases shape : u.port with
  | none => simp [portString]
  | some port => simpa [portString,shape] using digits

def Url.authority (u : Url) : List UInt8 := u.host ++ (portString u.port ++ 47::u.beyond)

theorem Url.authority_text (u : Url) : 0 ∉ u.authority := by
  simp [Url.authority,u.host_plain.2,portString_text,u.beyond_text]

theorem Url.text_plain (u : Url) : 0 ∉ u.text := by
  have scheme : 0 ∉ u.scheme := fun inside => (u.schemeText 0 inside).2 rfl
  change 0 ∉ u.scheme ++ (schemeEnd ++ u.authority)
  simp [scheme,schemeEnd,u.authority_text]

theorem set_parsed {side : Side} (parsed : parseTcurl memory = some url) :
    side.set s memory = ⟨url.host,url.port.getD s.port⟩ := by
  cases side <;> simp [Side.set,Side.parse,relayParseTcurl,parsed]

@[simp] theorem withPort_append : withPort (host ++ stop::more) (stop::more) = ⟨host,(strchr 47 more).map (between more)⟩ := by
  simp [withPort]

section
variable (side : Side) (u : Url) (s : Inbound) (behind : List UInt8)

theorem read_to (absent : ¬ vhostArg <:+: u.text) (lead : List UInt8) (stop : UInt8) (more : List UInt8)
    (split : u.authority ++ 0::behind = lead ++ stop::more) (inner : 58 ∉ lead) (text : 0 ∉ lead)
    (ends : stop = 58 ∨ stop = 47 ∧ 47 ∉ lead ∧ 58 ∉ u.authority) :
    side.set s (u.text ++ 0::behind) = ⟨lead,((strchr 47 more).map (between more)).getD s.port⟩ := by
  have halt : ((strchr 58 (lead ++ stop::more)).orElse fun _ => strchr 47 (lead ++ stop::more)) = some (stop::more) := by
    rcases ends with rfl | ⟨rfl,first,none⟩
    · rw [strchr_found inner text]
      rfl
    · rw [strchr_found first text,← split,strchr_none 58 (by decide) none u.authority_text]
      rfl
  have parsed := parse_plain absent u.text_plain u.scheme u.authority behind u.schemeText rfl
  rw [split,halt,Option.getD_some,withPort_append] at parsed
  exact set_parsed parsed

theorem read_legible (legible : Legible u s.port behind) : side.set s (u.text ++ 0::behind) = ⟨u.host,u.port.getD []⟩ := by
  obtain ⟨slashes,visible⟩ := u.port_plain
  rcases legible with ⟨absent,inner,bare⟩ | ⟨lead,stop,more,same,clear,plain,apart,ends,holds⟩
  · cases shape : u.port with
    | some port =>
      rw [shape,Option.getD_some] at slashes visible
      have split : u.authority ++ 0::behind = u.host ++ 58::(port ++ 47::(u.beyond ++ 0::behind)) := by
        simp [Url.authority,portString,shape]
      rw [read_to side u s behind absent u.host 58 _ split inner u.host_plain.2 (.inl rfl),strchr_found slashes visible]
      simp
    | none =>
      obtain ⟨noColon,noSlash,empty⟩ := bare.resolve_left (by simp [shape])
      have split : u.authority ++ 0::behind = u.host ++ 47::(u.beyond ++ 0::behind) := by
        simp [Url.authority,portString,shape]
      have colons : 58 ∉ u.authority := by
        simp [Url.authority,portString,shape,inner,noColon]
      rw [read_to side u s behind absent u.host 47 _ split inner u.host_plain.2 (.inr ⟨rfl,u.host_plain.1,colons⟩),
        strchr_none 47 (by decide) noSlash u.beyond_text]
      simp [empty]
  · rw [same,set_parsed (parse_vhost clear plain apart u.host_plain.2 ends more)]
    simp only [(holds_iff slashes visible).mpr holds]

theorem legible_plain (absent : ¬ vhostArg <:+: u.text)
    (right : side.set s (u.text ++ 0::behind) = ⟨u.host,u.port.getD []⟩) : Legible u s.port behind := by
  have inner : 58 ∉ u.host := by
    intro inside
    obtain ⟨lead,rest,same,clear⟩ := eq_append_cons_of_mem inside
    have split : u.authority ++ 0::behind = lead ++ 58::(rest ++ (portString u.port ++ 47::u.beyond) ++ 0::behind) := by
      simp [Url.authority,same]
    have text : 0 ∉ lead := fun zero => u.host_plain.2 (same ▸ mem_append_left _ zero)
    rw [read_to side u s behind absent lead 58 _ split clear text (.inl rfl)] at right
    have whole : lead = u.host := congrArg Inbound.host right
    simp [whole] at same
  refine .inl ⟨absent,inner,?_⟩
  cases shape : u.port with
  | some port => exact .inl rfl
  | none =>
    have noColon : 58 ∉ u.beyond := by
      intro inside
      obtain ⟨lead,rest,same,clear⟩ := eq_append_cons_of_mem inside
      have split : u.authority ++ 0::behind = (u.host ++ 47::lead) ++ 58::(rest ++ 0::behind) := by
        simp [Url.authority,portString,shape,same]
      have text : 0 ∉ lead := fun zero => u.beyond_text (same ▸ mem_append_left _ zero)
      rw [read_to side u s behind absent (u.host ++ 47::lead) 58 _ split (by simp [inner,clear]) (by simp [u.host_plain.2,text])
        (.inl rfl)] at right
      have whole : u.host ++ 47::lead = u.host := congrArg Inbound.host right
      simp at whole
    have split : u.authority ++ 0::behind = u.host ++ 47::(u.beyond ++ 0::behind) := by
      simp [Url.authority,portString,shape]
    have colons : 58 ∉ u.authority := by
      simp [Url.authority,portString,shape,inner,noColon]
    rw [read_to side u s behind absent u.host 47 _ split inner u.host_plain.2 (.inr ⟨rfl,u.host_plain.1,colons⟩)] at right
    have port := congrArg Inbound.port right
    have noSlash : 47 ∉ u.beyond := by
      intro inside
      -- the port would be all of the path up to this slash, and the application is not empty
      obtain ⟨lead,rest,same,clear⟩ := eq_append_cons_of_mem inside
      have text : 0 ∉ lead := fun zero => u.beyond_text (same ▸ mem_append_left _ zero)
      rw [same,append_assoc,cons_append,strchr_found clear text] at port
      obtain ⟨b,app,first⟩ := exists_cons_of_ne_nil u.named
      have empty : lead = [] := by simpa [shape] using port
      have start : b = 47 := by
        simp only [Url.beyond,Url.path,first,empty,cons_append,nil_append] at same
        exact (List.cons.inj same).1
      exact (u.appText b (by simp [first])).1 start
    rw [strchr_none 47 (by decide) noSlash u.beyond_text] at port
    exact .inr ⟨noColon,noSlash,by simpa [shape] using port⟩

theorem legible_read (right : side.set s (u.text ++ 0::behind) = ⟨u.host,u.port.getD []⟩) : Legible u s.port behind := by
  by_cases occurs : vhostArg <:+: u.text
  · obtain ⟨lead,rest,same,clear⟩ := Texts.earliest occurs
    have plain := u.text_plain
    rw [same] at plain
    simp only [mem_append,not_or] at plain
    obtain ⟨value,stop,more,split,apart,text,ends⟩ := value_ends plain.2.2
    have memory : u.text ++ 0::behind = lead ++ (vhostArg ++ (value ++ stop::more)) := by
      rw [same,append_assoc,append_assoc,split]
      rfl
    rw [memory,set_parsed (parse_vhost clear plain.1 apart text ends more)] at right
    obtain ⟨host,port⟩ := Inbound.mk.inj right
    cases host
    obtain ⟨slashes,visible⟩ := u.port_plain
    exact .inr ⟨lead,stop,more,memory,clear,plain.1,apart,ends,(holds_iff slashes visible).mp port⟩
  · exact legible_plain side u s behind occurs right

theorem text_upTo (before after : List (List UInt8)) (name : List UInt8)
    (asked : u.query = some (before ++ (vhostArg ++ name)::after)) :
    u.text = u.upTo before ++ (vhostArg ++ (name ++ after.flatMap (38::·))) := by
  simp [Url.text,Url.upTo,Url.beyond,queryString,asked,Texts.intercalate_split]

theorem after_param (after : List (List UInt8)) :
    ∃ stop more, after.flatMap (38::·) ++ 0::behind = stop::more ∧ (stop = 38 ∨ stop = 0) := by
  cases after with
  | nil => exact ⟨0,behind,rfl,.inr rfl⟩
  | cons param after => exact ⟨38,param ++ after.flatMap (38::·) ++ 0::behind,by simp,.inl rfl⟩

theorem host_named_iff (before after : List (List UInt8)) (name : List UInt8)
    (asked : u.query = some (before ++ (vhostArg ++ name)::after)) :
    (side.set s (u.text ++ 0::behind)).host = name ↔ Foremost (u.upTo before) name := by
  have same := text_upTo u before after name asked
  have plain := u.text_plain
  rw [same] at plain
  simp only [mem_append,not_or] at plain
  have apart : 38 ∉ name := fun inside =>
    (u.queryText _ asked (vhostArg ++ name) (by simp) 38 (mem_append_right _ inside)).1 rfl
  obtain ⟨stop,more,tail,ends⟩ := after_param behind after
  have memory : u.text ++ 0::behind = u.upTo before ++ (vhostArg ++ (name ++ stop::more)) := by
    rw [same,← tail]
    simp only [append_assoc]
  by_cases occurs : vhostArg <:+: u.upTo before
  · obtain ⟨lead,rest,front,clear⟩ := Texts.earliest occurs
    change _ = lead ++ (vhostArg ++ rest) at front
    have inner : 0 ∉ lead ∧ 0 ∉ rest := by
      have known := plain.1
      rw [front] at known
      simp only [mem_append,not_or] at known
      exact ⟨known.1,known.2.2⟩
    constructor
    · intro right
      by_cases joined : 38 ∈ rest
      · obtain ⟨value,others,rfl,first⟩ := eq_append_cons_of_mem joined
        have text : 0 ∉ value := fun zero => inner.2 (mem_append_left _ zero)
        have found := parse_vhost clear inner.1 first text (.inl rfl) (others ++ (vhostArg ++ (name ++ stop::more)))
        rw [memory,front] at right
        simp only [append_assoc,cons_append] at right found
        rw [set_parsed found] at right
        have host : value = name := right
        exact .inr ⟨lead,others,host ▸ front,clear⟩
      · -- the value runs on through the parameter, and is longer than its name
        have long : 38 ∉ rest ++ (vhostArg ++ name) := by simp [joined,apart,vhostArg]
        have text : 0 ∉ rest ++ (vhostArg ++ name) := by simp [inner.2,plain.2.2.1,vhostArg]
        have found := parse_vhost clear inner.1 long text ends more
        rw [memory,front] at right
        simp only [append_assoc] at right found
        rw [set_parsed found] at right
        have lengths := congrArg List.length right
        simp only [length_append,vhostArg,length_cons,length_nil] at lengths
        omega
    · rintro (absent | ⟨lead,others,other,clear⟩)
      · exact absurd occurs absent
      · have text : 0 ∉ lead := by
          have known := plain.1
          rw [other] at known
          exact fun zero => known (mem_append_left _ zero)
        have found := parse_vhost clear text apart plain.2.2.1 (.inl rfl) (others ++ (vhostArg ++ (name ++ stop::more)))
        rw [memory,other]
        simp only [append_assoc,cons_append] at found ⊢
        rw [set_parsed found]
  · have found := parse_vhost occurs plain.1 apart plain.2.2.1 ends more
    rw [memory,set_parsed found]
    exact ⟨fun _ => .inl occurs,fun _ => rfl⟩

-- Host and port of the legible URLs, and a vhost parameter that no other "vhost=" precedes.
theorem tcurl_read_iff :
    (side.set s (u.text ++ 0::behind) = ⟨u.host,u.port.getD []⟩ ↔ Legible u s.port behind) ∧
    ∀ before name after, u.query = some (before ++ (vhostArg ++ name)::after) →
      ((side.set s (u.text ++ 0::behind)).host = name ↔ Foremost (u.upTo before) name) := by
  refine ⟨⟨legible_read side u s behind,read_legible side u s behind⟩,?_⟩
  intro before name after asked
  exact host_named_iff side u s behind before after name asked

end

-- rtmp://h/a/b: the application becomes the port.
theorem segment_makes_port :
    ∃ u : Url, u.scheme = [114,116,109,112] ∧ u.host = [104] ∧ u.port = none ∧ u.app = [97] ∧ u.segments = [[98]] ∧
      u.query = none ∧ ∀ side : Side, side.set ⟨[],[]⟩ (u.text ++ [0]) = ⟨[104],[97]⟩ := by
  refine ⟨⟨[114,116,109,112],[104],none,[97],[[98]],none,by simp,by simp,by simp,by simp,by simp,by simp,by simp,
    by simp⟩,rfl,rfl,rfl,rfl,rfl,rfl,?_⟩
  intro side
  cases side <;> rfl

end NgxRtmp.TcUrl
