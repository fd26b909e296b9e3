import NgxRtmp.Lib.Lines
import NgxRtmp.Lib.Paths

namespace NgxRtmp.BillingDaemon
open Lines Paths List

def newline : UInt8 := 10
def tab : UInt8 := 9

def maxVhost : Nat := 20000

def isSpace (b : UInt8) : Bool := b = 32 ∨ 9 ≤ b ∧ b ≤ 13
def isDigit (b : UInt8) : Bool := 48 ≤ b ∧ b ≤ 57

-- The sign and the magnitude that strtol and strtoul take from a text in base 10.
def number (text : List UInt8) : Bool × Nat :=
  let text := text.dropWhile isSpace
  let unsigned := if text.head? = some 43 ∨ text.head? = some 45 then text.tail else text
  (text.head? = some 45,(unsigned.takeWhile isDigit).foldl (fun n b => 10*n+(b.toNat-48)) 0)

def strtoul (text : List UInt8) : UInt64 :=
  let (negative,value) := number text
  if 2^64 ≤ value then UInt64.ofNat (2^64-1)
  else if negative then -UInt64.ofNat value else UInt64.ofNat value

-- (int) strtol, kept in an unsigned int
def atoi (text : List UInt8) : UInt32 :=
  let (negative,value) := number text
  if negative then -UInt32.ofNat (min value (2^63)) else UInt32.ofNat (min value (2^63-1))

structure BillingData where
  timestamp : UInt32
  interval : UInt32
  channelName : List UInt8
  bytesFromClient : UInt64
  bytesToClient : UInt64
  deriving DecidableEq, Repr

def lineData : List (List UInt8) → Option BillingData
  | [timestamp,interval,channel,fromClient,toClient] =>
    some ⟨atoi timestamp,atoi interval,channel.takeWhile (· ≠ 0),strtoul fromClient,strtoul toClient⟩
  | _ => none

-- The outer loop of parse_billingd at ps1 = ps2. Without a tab or a line end the inner loops run past
-- what was read: none.
def scan : Nat → List UInt8 → List (List UInt8) → Nat → Option (List (List UInt8) × Nat)
  | 0,_,_,_ => none
  | fuel+1,text,ps,bufsize =>
    match text with
    | [] => none
    | c::_ =>
      if c = newline then some (ps,bufsize)
      else
        let tabs := text.takeWhile (· = tab)
        let text := text.dropWhile (· = tab)
        let field := text.takeWhile fun b => b ≠ tab ∧ b ≠ newline
        scan fuel (text.dropWhile fun b => b ≠ tab ∧ b ≠ newline) (ps ++ [field]) (bufsize+tabs.length+field.length)

-- A line without five texts leaves billing_data as it was.
def parseBillingd (buf : List UInt8) (data : BillingData) : Option (BillingData × Nat) :=
  match scan (buf.length+1) buf [] 0 with
  | none => none
  | some (ps,bufsize) => some ((lineData ps).getD data,bufsize+1)

-- The loop over m_b_data. A slot with timestamp zero counts as free, and memcpy leaves the rest of the
-- name it had.
def enter (data : BillingData) : Nat → List BillingData → List BillingData
  | 0,slots => slots
  | _+1,[] => [data]
  | left+1,slot::slots =>
    if slot.timestamp = 0 then
      {data with channelName:=data.channelName ++ slot.channelName.drop data.channelName.length}::slots
    else if data.channelName = slot.channelName then
      {data with
        bytesFromClient:=slot.bytesFromClient+data.bytesFromClient
        bytesToClient:=slot.bytesToClient+data.bytesToClient}::slots
    else slot::enter data left slots

def readLoop : Nat → List UInt8 → BillingData → List BillingData → Option (List BillingData)
  | 0,_,_,_ => none
  | fuel+1,buf,data,slots =>
    if buf.length ≤ 1 then some slots
    else match parseBillingd buf data with
      | none => none
      | some (data,bufsize) => readLoop fuel (buf.drop bufsize) data (enter data maxVhost slots)

structure ReadResult where
  bytes : List UInt8
  uninitialised : BillingData

def readBillingInfo (got : ReadResult) (slots : List BillingData) : Option (List BillingData) :=
  readLoop (got.bytes.length+1) got.bytes got.uninitialised slots

def readAll : List ReadResult → List BillingData → Option (List BillingData)
  | [],slots => some slots
  | got::more,slots => (readBillingInfo got slots).bind (readAll more)

def totalFrom (slots : List BillingData) (channel : List UInt8) : UInt64 :=
  ((slots.filter (·.channelName = channel)).map (·.bytesFromClient)).sum

def totalTo (slots : List BillingData) (channel : List UInt8) : UInt64 :=
  ((slots.filter (·.channelName = channel)).map (·.bytesToClient)).sum

-- What the lines say: each tab separates two fields, and a line of five fields is well formed.
def reading (line : List UInt8) : Option BillingData := lineData (components tab line)

def readings (lines : List (List UInt8)) : List BillingData := lines.filterMap reading

-- Only the last field may be empty, and the timestamp does not mark the slot as free.
def Plain (line : List UInt8) : Prop :=
  newline ∉ line ∧ (∀ field ∈ (components tab line).dropLast, field ≠ []) ∧
    ∃ data, reading line = some data ∧ data.timestamp ≠ 0

theorem takeWhile_field (rest : List UInt8) (clean : tab ∉ field ∧ newline ∉ field)
    (stops : stop = tab ∨ stop = newline) :
    (field ++ stop::rest).takeWhile (fun b => b ≠ tab ∧ b ≠ newline) = field ∧
      (field ++ stop::rest).dropWhile (fun b => b ≠ tab ∧ b ≠ newline) = stop::rest := by
  have inner : ∀ b ∈ field, decide (b ≠ tab ∧ b ≠ newline) = true := by
    intro b inside
    exact decide_eq_true ⟨fun same => clean.1 (same ▸ inside),fun same => clean.2 (same ▸ inside)⟩
  have last : decide (stop ≠ tab ∧ stop ≠ newline) = false := by
    rcases stops with rfl | rfl <;> decide
  rw [takeWhile_append_of_pos inner,dropWhile_append_of_pos inner,takeWhile_cons,dropWhile_cons,last]
  simp

def tail (fields : List (List UInt8)) (rest : List UInt8) : List UInt8 :=
  fields.flatMap (fun field => tab::field) ++ newline::rest

theorem tail_stops (fields : List (List UInt8)) (rest : List UInt8) :
    ∃ stop more, tail fields rest = stop::more ∧ (stop = tab ∨ stop = newline) := by
  cases fields with
  | nil => exact ⟨newline,rest,rfl,.inr rfl⟩
  | cons field fields => exact ⟨tab,field ++ tail fields rest,by simp [tail],.inl rfl⟩

theorem scan_field (onlyTabs : ∀ b ∈ tabs, b = tab)
    (clean : tab ∉ field ∧ newline ∉ field) (some_ : tabs ≠ [] ∨ field ≠ [])
    (ending : field = [] → fields = []) :
    scan (fuel+1) (tabs ++ field ++ tail fields rest) ps bufsize =
      scan fuel (tail fields rest) (ps ++ [field]) (bufsize+tabs.length+field.length) := by
  obtain ⟨stop,more,shape,stops⟩ := tail_stops fields rest
  have tabbed : ∀ b ∈ tabs, decide (b = tab) = true := fun b inside => decide_eq_true (onlyTabs b inside)
  have next : (field ++ stop::more).takeWhile (· = tab) = [] ∧ (field ++ stop::more).dropWhile (· = tab) = field ++ stop::more := by
    cases field with
    | cons c field =>
      have other : c ≠ tab := fun same => clean.1 (by rw [same]; exact mem_cons_self)
      simp [other]
    | nil =>
      have none := ending rfl
      rw [none] at shape
      obtain ⟨rfl,_⟩ := List.cons.inj (show newline::rest = stop::more from shape)
      simp [newline,tab]
  have first : ∃ c others, tabs ++ field ++ stop::more = c::others ∧ c ≠ newline := by
    cases tabs with
    | cons t tabs =>
      have same := onlyTabs t mem_cons_self
      exact ⟨t,_,rfl,by rw [same]; decide⟩
    | nil =>
      cases field with
      | nil => simp at some_
      | cons c field => exact ⟨c,_,rfl,fun same => clean.2 (by rw [same]; exact mem_cons_self)⟩
  obtain ⟨c,others,begins,visible⟩ := first
  have taken := takeWhile_field more clean stops
  rw [shape,begins,scan]
  simp only [if_neg visible]
  rw [← begins,append_assoc,takeWhile_append_of_pos tabbed,dropWhile_append_of_pos tabbed,next.1,next.2,
    taken.1,taken.2,append_nil]

theorem scan_tail (enough : fields.length < fuel) (clean : ∀ field ∈ fields, tab ∉ field ∧ newline ∉ field)
    (filled : ∀ field ∈ fields.dropLast, field ≠ []) :
    scan fuel (tail fields rest) ps bufsize = some (ps ++ fields,bufsize+(fields.flatMap fun field => tab::field).length) := by
  induction fields generalizing fuel ps bufsize with
  | nil =>
    obtain ⟨fuel,rfl⟩ := Nat.exists_eq_succ_of_ne_zero (Nat.pos_iff_ne_zero.mp (lt_of_le_of_lt (Nat.zero_le _) enough))
    simp [tail,scan]
  | cons field fields ih =>
    obtain ⟨fuel,rfl⟩ := Nat.exists_eq_succ_of_ne_zero (Nat.pos_iff_ne_zero.mp (lt_of_le_of_lt (Nat.zero_le _) enough))
    have ending : field = [] → fields = [] := by
      intro empty
      cases fields with
      | nil => rfl
      | cons other fields => exact absurd empty (filled field mem_cons_self)
    have shape : tail (field::fields) rest = [tab] ++ field ++ tail fields rest := by simp [tail]
    rw [shape,scan_field (by simp) (clean field mem_cons_self) (.inl (by simp)) ending]
    rw [ih (by simpa using enough) (fun other inside => clean other (mem_cons_of_mem _ inside)) ?_]
    · simp
      omega
    · intro other inside
      cases fields with
      | nil => cases inside
      | cons one fields => exact filled other (mem_cons_of_mem _ inside)

theorem lineData_five (read : lineData fields = some data) : fields.length = 5 := by
  unfold lineData at read
  split at read
  · rfl
  · cases read

theorem parseBillingd_plain (plain : Plain line)
    (read : reading line = some data) : parseBillingd (line ++ newline::rest) old = some (data,line.length+1) := by
  obtain ⟨oneLine,filled,_⟩ := plain
  cases split : components tab line with
  | nil => exact absurd split components_ne_nil
  | cons field fields =>
    obtain ⟨text,clean,cleans⟩ := components_text split
    have five := lineData_five read
    rw [split] at five filled
    have some_ : fields ≠ [] := by
      intro none
      simp [none] at five
    have begins : field ≠ [] := by
      apply filled
      cases fields with
      | nil => exact absurd rfl some_
      | cons other fields => exact mem_cons_self
    have filled' : ∀ other ∈ fields.dropLast, other ≠ [] := by
      intro other inside
      apply filled
      cases fields with
      | nil => cases inside
      | cons one fields => exact mem_cons_of_mem _ inside
    have inLine : ∀ other ∈ field::fields, newline ∉ other := by
      intro other inside bad
      apply oneLine
      rw [text]
      rcases mem_cons.mp inside with rfl | inside
      · exact mem_append_left _ bad
      · exact mem_append_right _ (mem_flatMap.mpr ⟨other,inside,mem_cons_of_mem _ bad⟩)
    have shape : line ++ newline::rest = [] ++ field ++ tail fields rest := by rw [text]; simp [tail]
    have size : line.length = field.length+(fields.flatMap fun field => tab::field).length := by
      rw [text,length_append]
    have short : fields.length ≤ (fields.flatMap fun field => tab::field).length :=
      length_le_flatMap (fun field => cons_ne_nil tab field)
    have scanned : scan ((line ++ newline::rest).length+1) (line ++ newline::rest) [] 0 =
        some (field::fields,line.length) := by
      rw [shape,scan_field (by simp) ⟨clean,inLine field mem_cons_self⟩ (.inr begins)
        (fun empty => absurd empty begins)]
      rw [scan_tail ?_ ?_ filled',size]
      · simp
      · rw [← shape,length_append,length_cons]
        omega
      · intro other inside
        exact ⟨cleans other inside,inLine other (mem_cons_of_mem _ inside)⟩
    unfold parseBillingd
    rw [scanned]
    simp only [reading,split] at read
    simp [read]

def enterAll (slots : List BillingData) (datas : List BillingData) : List BillingData :=
  datas.foldl (fun slots data => enter data maxVhost slots) slots

theorem plain_reading (plain : Plain line) : ∃ data, reading line = some data ∧ data.timestamp ≠ 0 := plain.2.2

theorem readLoop_plain (plain : ∀ line ∈ lines, Plain line) (enough : lines.length < fuel) :
    readLoop fuel (join newline lines) old slots = some (enterAll slots (readings lines)) := by
  induction lines generalizing fuel old slots with
  | nil =>
    cases fuel with
    | zero => cases enough
    | succ fuel => rfl
  | cons line lines ih =>
    cases fuel with
    | zero => cases enough
    | succ fuel =>
      have own := plain line mem_cons_self
      obtain ⟨data,read,_⟩ := plain_reading own
      have long : ¬(line ++ newline::join newline lines).length ≤ 1 := by
        intro short
        have empty : line = [] := by
          cases line with
          | nil => rfl
          | cons c line => simp at short
        rw [empty] at read
        cases read
      have rest : (line ++ newline::join newline lines).drop (line.length+1) = join newline lines := by
        rw [show line ++ newline::join newline lines = (line ++ [newline]) ++ join newline lines by simp]
        exact drop_left' (by simp)
      rw [join_cons,readLoop,if_neg long,parseBillingd_plain own read]
      simp only [rest]
      rw [ih (fun other inside => plain other (mem_cons_of_mem _ inside)) (by simpa using enough)]
      simp [readings,enterAll,read]

theorem readAll_plain (groups : List (List (List UInt8))) (got : List ReadResult)
    (shape : got.map (·.bytes) = groups.map (join newline)) (plain : ∀ line ∈ groups.flatten, Plain line)
    (slots : List BillingData) : readAll got slots = some (enterAll slots (readings groups.flatten)) := by
  induction groups generalizing got slots with
  | nil =>
    obtain rfl := map_eq_nil_iff.mp shape
    rfl
  | cons lines groups ih =>
    cases got with
    | nil => cases shape
    | cons first got =>
      obtain ⟨bytes,shape⟩ := List.cons.inj (show first.bytes::got.map (·.bytes) = join newline lines::groups.map (join newline) from shape)
      have enough : lines.length < (join newline lines).length+1 :=
        Nat.lt_succ_of_le (length_le_flatMap (fun line => by simp))
      rw [readAll,readBillingInfo,bytes,readLoop_plain (fun line inside => plain line (by simp [inside])) enough,
        Option.bind_some,ih got shape (fun line inside => plain line (by rw [flatten_cons]; exact mem_append_right _ inside))]
      simp [readings,enterAll]

structure InUse (slots : List BillingData) : Prop where
  dated : ∀ slot ∈ slots, slot.timestamp ≠ 0
  once : (slots.map (·.channelName)).Nodup

theorem enter_names (data : BillingData) (left : Nat) (slots : List BillingData)
    (dated : ∀ slot ∈ slots, slot.timestamp ≠ 0) :
    ∀ name ∈ (enter data left slots).map (·.channelName), name ∈ slots.map (·.channelName) ∨ name = data.channelName := by
  induction slots generalizing left with
  | nil =>
    cases left with
    | zero => intro name inside; cases inside
    | succ left => simp [enter]
  | cons slot slots ih =>
    cases left with
    | zero => intro name inside; exact .inl inside
    | succ left =>
      have used := dated slot mem_cons_self
      unfold enter
      rw [if_neg used]
      split
      · intro name inside
        rcases mem_cons.mp inside with same | inside
        · exact .inr same
        · exact .inl (mem_cons_of_mem _ inside)
      · intro name inside
        rcases mem_cons.mp inside with same | inside
        · exact .inl (by rw [same]; exact mem_cons_self)
        · rcases ih left (fun other inside => dated other (mem_cons_of_mem _ inside)) name inside with old | new
          · exact .inl (mem_cons_of_mem _ old)
          · exact .inr new

theorem enter_inUse (used : InUse slots) (dated : data.timestamp ≠ 0) (left : Nat) : InUse (enter data left slots) := by
  induction slots generalizing left with
  | nil =>
    cases left with
    | zero => exact used
    | succ left => exact ⟨by simpa [enter] using dated,by simp [enter]⟩
  | cons slot slots ih =>
    cases left with
    | zero => exact used
    | succ left =>
      obtain ⟨here,once⟩ := nodup_cons.mp (show (slot.channelName::slots.map (·.channelName)).Nodup from used.once)
      have rest : InUse slots := ⟨fun other inside => used.dated other (mem_cons_of_mem _ inside),once⟩
      have own := used.dated slot mem_cons_self
      unfold enter
      rw [if_neg own]
      split
      · rename_i same
        refine ⟨?_,?_⟩
        · intro other inside
          rcases mem_cons.mp inside with rfl | inside
          · exact dated
          · exact rest.dated other inside
        · rw [map_cons]
          exact nodup_cons.mpr ⟨by rw [same]; exact here,once⟩
      · rename_i other
        have after := ih rest left
        refine ⟨?_,?_⟩
        · intro one inside
          rcases mem_cons.mp inside with rfl | inside
          · exact own
          · exact after.dated one inside
        · rw [map_cons]
          refine nodup_cons.mpr ⟨?_,after.once⟩
          intro twice
          rcases enter_names data left slots rest.dated _ twice with old | new
          · exact here old
          · exact other new.symm

theorem enter_total (field : BillingData → UInt64)
    (adds : ∀ slot : BillingData, field {data with
      bytesFromClient:=slot.bytesFromClient+data.bytesFromClient
      bytesToClient:=slot.bytesToClient+data.bytesToClient} = field slot+field data)
    (used : ∀ slot ∈ slots, slot.timestamp ≠ 0) (left : Nat)
    (held : slots.length ≤ left) (room : data.channelName ∈ slots.map (·.channelName) ∨ slots.length < left)
    (channel : List UInt8) :
    (((enter data left slots).filter (·.channelName = channel)).map field).sum =
      ((slots.filter (·.channelName = channel)).map field).sum+if data.channelName = channel then field data else 0 := by
  induction slots generalizing left with
  | nil =>
    cases left with
    | zero => simp at room
    | succ left => by_cases own : data.channelName = channel <;> simp [enter,own]
  | cons slot slots ih =>
    cases left with
    | zero => cases held
    | succ left =>
      unfold enter
      rw [if_neg (used slot mem_cons_self)]
      split
      · rename_i same
        by_cases own : data.channelName = channel
        · simp only [filter_cons,← same,own,decide_true,if_true,map_cons,sum_cons]
          rw [← own,adds]
          ac_rfl
        · simp [own,← same]
      · rename_i other
        have inner : data.channelName ∈ slots.map (·.channelName) ∨ slots.length < left := by
          rcases room with inside | short
          · rcases mem_cons.mp inside with same | inside
            · exact absurd same other
            · exact .inl inside
          · exact .inr (by simpa using short)
        have step := ih (fun one inside => used one (mem_cons_of_mem _ inside)) left (by simpa using held) inner
        by_cases own : slot.channelName = channel
        · simp only [filter_cons,own,decide_true,if_true,map_cons,sum_cons,step]
          ac_rfl
        · simp only [filter_cons,own,decide_false,Bool.false_eq_true,if_false,step]

theorem room_of_names {data : BillingData} {names : List (List UInt8)} (used : InUse slots) (few : names.length ≤ maxVhost)
    (known : ∀ slot ∈ slots, slot.channelName ∈ names) (own : data.channelName ∈ names) :
    slots.length ≤ maxVhost ∧ (data.channelName ∈ slots.map (·.channelName) ∨ slots.length < maxVhost) := by
  have inside : slots.map (·.channelName) ⊆ names := by
    intro name there
    obtain ⟨slot,present,rfl⟩ := mem_map.mp there
    exact known slot present
  have size : slots.length ≤ names.length := by
    simpa using (subperm_of_subset used.once inside).length_le
  refine ⟨le_trans size few,?_⟩
  by_cases there : data.channelName ∈ slots.map (·.channelName)
  · exact .inl there
  · have more : slots.length+1 ≤ names.length := by
      simpa using (subperm_of_subset (nodup_cons.mpr ⟨there,used.once⟩)
        (cons_subset.mpr ⟨own,inside⟩)).length_le
    exact .inr (by omega)

theorem enterAll_total {field : BillingData → UInt64}
    (adds : ∀ data slot : BillingData, field {data with
      bytesFromClient:=slot.bytesFromClient+data.bytesFromClient
      bytesToClient:=slot.bytesToClient+data.bytesToClient} = field slot+field data)
    {names : List (List UInt8)} (few : names.length ≤ maxVhost) (used : InUse slots)
    (known : ∀ slot ∈ slots, slot.channelName ∈ names) (given : ∀ data ∈ datas, data.channelName ∈ names ∧ data.timestamp ≠ 0) :
      (((enterAll slots datas).filter (·.channelName = channel)).map field).sum =
        ((slots.filter (·.channelName = channel)).map field).sum+((datas.filter (·.channelName = channel)).map field).sum := by
  induction datas generalizing slots with
  | nil => simp [enterAll]
  | cons data datas ih =>
    obtain ⟨own,dated⟩ := given data mem_cons_self
    obtain ⟨held,room⟩ := room_of_names used few known own
    have known' : ∀ slot ∈ enter data maxVhost slots, slot.channelName ∈ names := by
      intro slot inside
      rcases enter_names data maxVhost slots used.dated _ (mem_map_of_mem inside) with old | new
      · obtain ⟨other,present,same⟩ := mem_map.mp old
        rw [← same]
        exact known other present
      · rw [new]
        exact own
    have step := ih (enter_inUse used dated maxVhost) known'
      (fun other inside => given other (mem_cons_of_mem _ inside))
    change (((enterAll (enter data maxVhost slots) datas).filter (·.channelName = channel)).map field).sum = _
    rw [step,enter_total field (adds data) used.dated maxVhost held room channel]
    by_cases same : data.channelName = channel
    · simp [same]
      ac_rfl
    · simp [same]

def saidFrom (lines : List (List UInt8)) (channel : List UInt8) : Nat :=
  (((readings lines).filter (·.channelName = channel)).map (·.bytesFromClient.toNat)).sum

def saidTo (lines : List (List UInt8)) (channel : List UInt8) : Nat :=
  (((readings lines).filter (·.channelName = channel)).map (·.bytesToClient.toNat)).sum

theorem sum_toNat {field : BillingData → UInt64} {datas : List BillingData}
    (small : (datas.map fun data => (field data).toNat).sum < 2^64) :
    ((datas.map field).sum).toNat = (datas.map fun data => (field data).toNat).sum := by
  induction datas with
  | nil => rfl
  | cons data datas ih =>
    simp only [map_cons,sum_cons] at small ⊢
    rw [UInt64.toNat_add,ih (by omega)]
    exact Nat.mod_eq_of_lt small

theorem readings_known (plain : ∀ line ∈ lines, Plain line) :
    ∀ data ∈ readings lines, data.channelName ∈ ((readings lines).map (·.channelName)).dedup ∧ data.timestamp ≠ 0 := by
  intro data inside
  refine ⟨mem_dedup.mpr (mem_map_of_mem inside),?_⟩
  obtain ⟨line,present,read⟩ := mem_filterMap.mp inside
  obtain ⟨other,same,dated⟩ := plain_reading (plain line present)
  rw [read] at same
  cases same
  exact dated

theorem totals_of_plain_lines (lines : List (List UInt8)) (got : List ReadResult)
    (stream : (got.map (·.bytes)).flatten = join newline lines)
    (whole : ∀ result ∈ got, result.bytes.getLast? = some newline)
    (plain : ∀ line ∈ lines, Plain line)
    (few : ((readings lines).map (·.channelName)).dedup.length ≤ maxVhost)
    (small : ∀ channel, saidFrom lines channel < 2^64 ∧ saidTo lines channel < 2^64) :
    ∃ slots, readAll got [] = some slots ∧ ∀ channel,
      (totalFrom slots channel).toNat = saidFrom lines channel ∧ (totalTo slots channel).toNat = saidTo lines channel := by
  have ends : ∀ piece ∈ got.map (·.bytes), piece.getLast? = some newline := by
    intro piece inside
    obtain ⟨result,present,rfl⟩ := mem_map.mp inside
    exact whole result present
  obtain ⟨groups,shape,flat⟩ := groups_of_pieces (fun line inside => (plain line inside).1) stream ends
  have known := readings_known plain
  subst flat
  refine ⟨_,readAll_plain groups got shape plain [],?_⟩
  intro channel
  have empty : InUse [] := ⟨by simp,by simp⟩
  have summed : ∀ field : BillingData → UInt64, (∀ data slot : BillingData, field {data with
      bytesFromClient:=slot.bytesFromClient+data.bytesFromClient
      bytesToClient:=slot.bytesToClient+data.bytesToClient} = field slot+field data) →
      (((enterAll [] (readings groups.flatten)).filter (·.channelName = channel)).map field).sum =
        (((readings groups.flatten).filter (·.channelName = channel)).map field).sum := by
    intro field adds
    rw [enterAll_total adds few empty (by simp) known]
    simp
  unfold totalFrom totalTo
  rw [summed _ (fun _ _ => rfl),summed _ (fun _ _ => rfl)]
  exact ⟨sum_toNat (small channel).1,sum_toNat (small channel).2⟩

-- "1\t1\tc\t5\t7", and the same in two reads of a line each
def sampleLine : List UInt8 := [49,9,49,9,99,9,53,9,55]
def noData : BillingData := ⟨0,0,[],0,0⟩

theorem sampleLine_plain : Plain sampleLine :=
  ⟨by decide,by decide,⟨1,1,[99],5,7⟩,by decide,by decide⟩

theorem totals_of_two_reads :
    ∃ slots, readAll [⟨sampleLine ++ [newline],noData⟩,⟨sampleLine ++ [newline],noData⟩] [] = some slots ∧ ∀ channel,
      (totalFrom slots channel).toNat = saidFrom [sampleLine,sampleLine] channel ∧
        (totalTo slots channel).toNat = saidTo [sampleLine,sampleLine] channel := by
  refine totals_of_plain_lines [sampleLine,sampleLine] _ (by decide) (by decide) ?_ (by decide) ?_
  · intro line inside
    have same : line = sampleLine := by simpa using inside
    rw [same]
    exact sampleLine_plain
  · intro channel
    have read : readings [sampleLine,sampleLine] = [⟨1,1,[99],5,7⟩,⟨1,1,[99],5,7⟩] := by decide
    unfold saidFrom saidTo
    rw [read]
    by_cases own : [99] = channel <;> simp [own]

-- A line "x" behind it adds it once more, and a read that ends inside it runs past the buffer.
theorem malformed_line_counts_again :
    readAll [⟨sampleLine ++ [newline] ++ [120,newline],noData⟩] [] = some [⟨1,1,[99],10,14⟩] ∧
      saidFrom [sampleLine,[120]] [99] = 5 ∧ saidTo [sampleLine,[120]] [99] = 7 ∧
      readAll [⟨sampleLine.take 8,noData⟩,⟨sampleLine.drop 8 ++ [newline],noData⟩] [] = none := by
  decide +kernel

end NgxRtmp.BillingDaemon
