import NgxRtmp.ConnectSelection
import NgxRtmp.TcUrl

namespace NgxRtmp.VhostCheck
open Connect CStrings Search TcUrl List

def Digits (part : List UInt8) : Prop := part ≠ [] ∧ ∀ c ∈ part, 48 ≤ c ∧ c ≤ 57

def number (part : List UInt8) : Nat := part.foldl (fun value c => value*10+(c.toNat-48)) 0

instance (part : List UInt8) : Decidable (Digits part) := by unfold Digits; infer_instance

-- A dotted address: four numbers from 0 to 255
def Dotted (host : List UInt8) : Prop :=
  (host.splitOn 46).length = 4 ∧ ∀ part ∈ host.splitOn 46, Digits part ∧ number part ≤ 255

-- What ngx_is_valid_ip takes for one: up to four numbers, each modulo 2^64
def Numeric (host : List UInt8) : Prop :=
  (host.splitOn 46).length ≤ 4 ∧ ∀ part ∈ host.splitOn 46, Digits part ∧ number part%2^64 ≤ 255

instance (host : List UInt8) : Decidable (Dotted host) := by unfold Dotted; infer_instance
instance (host : List UInt8) : Decidable (Numeric host) := by unfold Numeric; infer_instance

def firstArg (args : List UInt8) : List UInt8 := args.takeWhile (· ≠ 38)

def Permitted (vhost args : List UInt8) (u : TcUrl.Url) : Prop :=
  u.host = vhost ∨ Dotted u.host ∧ firstArg args = vhostArg ++ vhost

def Decided (s : Session) (v : Command) (permitted : Prop) : Prop :=
  (permitted → ∃ next, vhostConnect .call s v = .call next v) ∧ (¬ permitted → ∃ next, vhostConnect .call s v = .done next false)

-- The domain is compared with its port; a host of numbers is let in by the whole of the arguments.
def Sound (auto : Bool) (vhost args : List UInt8) (u : TcUrl.Url) : Prop :=
  if auto then Permitted vhost args u
  else match u.port with
    | some port => if u.host ++ 58::port = vhost then Dotted u.host ∧ firstArg args = vhostArg ++ vhost else ¬ Permitted vhost args u
    | none => ¬ Numeric u.host ∨
      (38 ∉ args ∨ args.head? = some 38) ∧ (u.host = vhost → args = vhostArg ++ vhost) ∧
        (args = vhostArg ++ vhost → u.host = vhost ∨ Dotted u.host)

theorem fold_number (part : List UInt8) (value : UInt64) (all : ∀ c ∈ part, 48 ≤ c ∧ c ≤ 57) (total : Nat)
    (same : value.toNat = total%2^64) :
    (part.foldl (fun value c => value*10+(c.toUInt64-48)) value).toNat =
      part.foldl (fun value c => value*10+(c.toNat-48)) total%2^64 := by
  induction part generalizing value total with
  | nil => exact same
  | cons c part ih =>
    rw [foldl_cons,foldl_cons]
    apply ih
    · exact fun d inside => all d (mem_cons_of_mem _ inside)
    · obtain ⟨low,high⟩ := all c mem_cons_self
      have small : (c.toUInt64-48).toNat = c.toNat-48 := by
        have least : (48 : UInt64) ≤ c.toUInt64 := by
          rw [UInt64.le_iff_toNat_le]
          simpa using UInt8.le_iff_toNat_le.mp low
        rw [UInt64.toNat_sub_of_le _ _ least]
        simp
      rw [UInt64.toNat_add,UInt64.toNat_mul,same,small]
      simp

theorem octet_iff : octet part = true ↔ Digits part ∧ number part%2^64 ≤ 255 := by
  simp only [octet,Bool.and_eq_true,Bool.not_eq_true',isEmpty_eq_false_iff,all_eq_true,decide_eq_true_eq,Digits]
  constructor
  · rintro ⟨⟨filled,all⟩,small⟩
    have same := fold_number part 0 all 0 rfl
    refine ⟨⟨filled,all⟩,?_⟩
    rw [number,← same]
    exact UInt64.le_iff_toNat_le.mp small
  · rintro ⟨⟨filled,all⟩,small⟩
    have same := fold_number part 0 all 0 rfl
    refine ⟨⟨filled,all⟩,UInt64.le_iff_toNat_le.mpr ?_⟩
    rw [same]
    exact small

theorem isValidIp_iff : isValidIp domain = true ↔ Numeric domain := by
  simp only [isValidIp,Bool.and_eq_true,decide_eq_true_eq,all_eq_true,octet_iff,Numeric]

theorem Dotted.numeric (dotted : Dotted host) : Numeric host := by
  refine ⟨le_of_eq dotted.1,?_⟩
  intro part member
  obtain ⟨digits,small⟩ := dotted.2 part member
  exact ⟨digits,le_trans (Nat.mod_le _ _) small⟩

theorem Numeric.letters (numeric : Numeric host) (inside : c ∈ host) : c = 46 ∨ 48 ≤ c ∧ c ≤ 57 := by
  have joined : [46].intercalate (host.splitOn 46) = host := intercalate_splitOn 46
  rw [← joined] at inside
  rcases Texts.mem_intercalate 46 c _ inside with dot | ⟨part,member,here⟩
  · exact .inl dot
  · exact .inr ((numeric.2 part member).1.2 c here)

section
variable {v : Command} {u : TcUrl.Url} {vhost args : List UInt8}

def asked (vhost args : List UInt8) : Hit Unit :=
  if 38 ∈ args ∧ args.head? ≠ some 38 then .fault else if args = vhostArg ++ vhost then .hit () else .miss

theorem vhost_split (apart : 61 ∉ lead) (tail : List UInt8) :
    lead = vhostParam ∧ tail = vhost ↔ lead ++ 61::tail = vhostArg ++ vhost := by
  constructor
  · rintro ⟨rfl,rfl⟩
    rfl
  · intro same
    have named : (61 : UInt8) ∉ vhostParam := by decide
    exact Texts.split_unique apart named same

theorem asked_args (plain : 0 ∉ args) :
    (if args = [] then Hit.miss
      else match strchr 38 args with
        | some found => if found.length = args.length then .miss else .fault
        | none => match strchr 61 args with
          | none => .miss
          | some equal => if between args equal = vhostParam ∧ equal.drop 1 = vhost then .hit () else .miss) = asked vhost args := by
  by_cases empty : args = []
  · simp [empty,asked,vhostArg]
  · rw [if_neg empty]
    rcases strchr_cases 38 (by decide) args with ⟨lead,tail,rfl,clear,_,found⟩ | ⟨absent,none⟩
    · rw [found]
      cases lead with
      | nil => simp [asked,vhostArg]
      | cons b lead =>
        have other : b ≠ 38 := fun same => clear (by simp [same])
        have shorter : (38::tail).length ≠ (b::lead ++ 38::tail).length := by simp; omega
        rw [asked,if_pos ⟨by simp,by simp [other]⟩]
        exact if_neg shorter
    · have single : 38 ∉ args := by
        rwa [takeWhile_eq_self_iff.mpr (text_visible plain)] at absent
      rw [none,asked,if_neg fun both => single both.1]
      rcases strchr_cases 61 (by decide) args with ⟨lead,tail,rfl,clear,_,found⟩ | ⟨absent,none⟩
      · simp only [found,between_append,drop_succ_cons,drop_zero,vhost_split clear tail]
      · rw [none]
        have other : args ≠ vhostArg ++ vhost := by
          rintro rfl
          rw [takeWhile_eq_self_iff.mpr (text_visible plain)] at absent
          exact absent (by simp [vhostArg])
        exact (if_neg other).symm

def domain (u : TcUrl.Url) : List UInt8 := u.host ++ portString u.port

theorem domain_plain : 47 ∉ domain u ∧ 0 ∉ domain u := by
  have port := u.port_plain
  have host := u.host_plain
  cases shape : u.port with
  | none => simpa [domain,portString,shape] using host
  | some digits =>
    rw [shape,Option.getD_some] at port
    simp [domain,portString,shape,host,port]

theorem check_domain (set : vhost ≠ []) (scheme : u.scheme = [114,116,109,112]) (url : v.tcUrl = u.text) (plain : 0 ∉ v.args) :
    vhostCheck vhost v =
      if Numeric (domain u) then asked vhost v.args else if domain u = vhost then .hit () else .miss := by
  have behind : v.memory.drop 7 = domain u ++ 47::(u.beyond ++ 0::v.behind) := by
    simp [Command.memory,url,Url.text,scheme,schemeEnd,domain]
  have slash : strchr 47 (domain u ++ 47::(u.beyond ++ 0::v.behind)) = some (47::(u.beyond ++ 0::v.behind)) :=
    strchr_found domain_plain.1 domain_plain.2
  simp only [vhostCheck,if_neg set,behind,slash,between_append,isValidIp_iff]
  by_cases numeric : Numeric (domain u)
  · rw [if_pos numeric,if_pos numeric]
    exact asked_args plain
  · rw [if_neg numeric,if_neg numeric]

theorem connect_checked (own : s.autoPushed = false)
    (found : (s.join v.app).appConf = some conf) :
    vhostConnect .call s v = match vhostCheck conf.vhost v with
      | .hit _ => .call (s.join v.app) v
      | .miss => .done (s.join v.app) false
      | .fault => .crash := by
  cases checked : vhostCheck conf.vhost v <;> simp only [vhostConnect,own,Bool.false_eq_true,if_false,found,checked]

theorem decided_check (own : s.autoPushed = false)
    (found : (s.join v.app).appConf = some conf) :
    Decided s v permitted ↔
      (permitted → vhostCheck conf.vhost v = .hit ()) ∧ (¬ permitted → vhostCheck conf.vhost v = .miss) := by
  rw [Decided,connect_checked own found]
  cases vhostCheck conf.vhost v <;> simp

theorem ported_named (shape : u.port = some port) : ¬ Numeric (domain u) := by
  intro numeric
  have inside : (58 : UInt8) ∈ domain u := by simp [domain,portString,shape]
  rcases numeric.letters inside with dot | ⟨_,high⟩
  · cases dot
  · exact absurd high (by decide)

theorem ported_sound (shape : u.port = some port) :
    ((Permitted vhost args u → domain u = vhost) ∧ (¬ Permitted vhost args u → domain u ≠ vhost)) ↔
      Sound false vhost args u := by
  have whole : domain u = u.host ++ 58::port := by simp [domain,portString,shape]
  simp only [Sound,shape,Bool.false_eq_true,if_false,whole]
  by_cases same : u.host ++ 58::port = vhost
  · have longer : u.host ≠ vhost := by
      rw [← same]
      simp
    simp [same,Permitted,longer]
  · simp [same]

theorem bare_sound (shape : u.port = none) (numeric : Numeric u.host) :
    ((Permitted vhost args u → asked vhost args = .hit ()) ∧ (¬ Permitted vhost args u → asked vhost args = .miss)) ↔
      Sound false vhost args u := by
  simp only [Sound,shape,Bool.false_eq_true,if_false,numeric,not_true_eq_false,false_or]
  by_cases joined : 38 ∈ args
  · by_cases first : args.head? = some 38
    · -- no argument in front of the ampersand: the connect is refused
      obtain ⟨tail,rfl⟩ := List.head?_eq_some_iff.mp first
      simp [asked,Permitted,firstArg,vhostArg]
    · have spoilt : asked vhost args = .fault := if_pos ⟨joined,first⟩
      by_cases permitted : Permitted vhost args u <;> simp [spoilt,permitted,joined,first]
  · have whole : firstArg args = args := by
      apply takeWhile_eq_self_iff.mpr
      exact fun b inside => decide_eq_true fun same => joined (same ▸ inside)
    have answer : asked vhost args = if args = vhostArg ++ vhost then .hit () else .miss := if_neg fun both => joined both.1
    rw [answer]
    by_cases same : args = vhostArg ++ vhost
    · simp only [Permitted,whole,joined,eq_true same,if_true]
      simpa using or_iff_not_imp_left.symm
    · simp only [Permitted,whole,joined,eq_false same,if_false]
      simp

-- vhost_connect decides right exactly on the sound connects.
theorem vhost_decided_iff (s : Session) (v : Command) (u : TcUrl.Url) (conf : AppConf)
    (found : (s.join v.app).appConf = some conf) (set : conf.vhost ≠ []) (scheme : u.scheme = [114,116,109,112])
    (url : v.tcUrl = u.text) (plain : 0 ∉ v.args) :
    Decided s v (Permitted conf.vhost v.args u) ↔ Sound s.autoPushed conf.vhost v.args u := by
  cases own : s.autoPushed with
  | true =>
    have passed : vhostConnect .call s v = .call s v := if_pos own
    simp [Decided,passed,Sound]
  | false =>
    rw [decided_check own found,check_domain set scheme url plain]
    cases shape : u.port with
    | some port =>
      rw [← ported_sound shape,if_neg (ported_named shape)]
      by_cases same : domain u = conf.vhost <;> simp [same]
    | none =>
      have bare : domain u = u.host := by simp [domain,portString,shape]
      rw [bare]
      by_cases numeric : Numeric u.host
      · rw [← bare_sound shape numeric,if_pos numeric]
      · have never : ¬ Dotted u.host := fun dotted => numeric dotted.numeric
        have sound : Sound false conf.vhost v.args u := by
          simp only [Sound,shape,Bool.false_eq_true,if_false]
          exact .inl numeric
        rw [if_neg numeric]
        by_cases same : u.host = conf.vhost <;> simp [Permitted,never,same,sound]

end

def vhostServer : ServerNames.Server := ⟨1,[],[⟨2,live,live⟩],[],false⟩

def liveUrl : TcUrl.Url :=
  ⟨[114,116,109,112],live,none,live,[],none,by simp,by simp [live],by simp [live],by simp,by simp [live],by simp [live],by simp,by simp⟩

def portUrl : TcUrl.Url :=
  {liveUrl with port:=some [49,57,51,53],portText:=by simp}

def numberUrl : TcUrl.Url :=
  {liveUrl with host:=[49,46,50,46,51,46,52],hostText:=by simp,bracketed:=by simp}

theorem vhost_decided_live : Decided (freshSession vhostServer) (connectTo live live) (Permitted live [] liveUrl) :=
  (vhost_decided_iff (freshSession vhostServer) (connectTo live live) liveUrl (.application ⟨2,live,live⟩) rfl (by decide) rfl rfl
    (by decide)).mpr (.inl (by decide +kernel))

-- The vhost's own name with a port is refused, and a second argument is never survived.
theorem port_refused :
    (Permitted live [] portUrl ∧
      ∃ next, vhostConnect .call (freshSession vhostServer) {connectTo live live with tcUrl:=portUrl.text} = .done next false) ∧
    (Permitted live (vhostArg ++ live ++ [38,97]) numberUrl ∧
      vhostConnect .call (freshSession vhostServer)
        {connectTo live live with tcUrl:=numberUrl.text,args:=vhostArg ++ live ++ [38,97]} = .crash) := by
  refine ⟨⟨.inl rfl,?_⟩,.inr (by decide +kernel),?_⟩
  · have refused : vhostCheck live {connectTo live live with tcUrl:=portUrl.text} = .miss := by
      apply (check_domain (by decide) (u:=portUrl) rfl rfl (by decide)).trans
      decide +kernel
    rw [connect_checked rfl rfl]
    exact ⟨_,by rw [AppConf.vhost,refused]⟩
  · have spoilt : vhostCheck live {connectTo live live with tcUrl:=numberUrl.text,args:=vhostArg ++ live ++ [38,97]} = .fault := by
      apply (check_domain (by decide) (u:=numberUrl) rfl rfl (by decide)).trans
      decide +kernel
    rw [connect_checked rfl rfl,AppConf.vhost,spoilt]

end NgxRtmp.VhostCheck
