import NgxRtmp.ServerNames

namespace NgxRtmp.Billing
open List

def colon : UInt8 := 0x3a

inductive Side where
  | incoming
  | outgoing
  deriving DecidableEq, Repr

def Side.pick (incoming outgoing : α) : Side → α
  | .incoming => incoming
  | .outgoing => outgoing

-- ngx_rtmp_live_stream_t, with host_in and port_in of the session its ctx points to
structure Stream where
  host : List UInt8
  port : List UInt8
  billingIn : UInt64
  billingOut : UInt64
  deriving DecidableEq, Repr

def Stream.bytes (s : Stream) : Side → UInt64 := Side.pick s.billingIn s.billingOut

def Stream.text (s : Stream) : List UInt8 := s.host ++ colon::s.port

def Stream.clear (s : Stream) : Stream := {s with billingIn:=0,billingOut:=0}

-- ngx_rtmp_billing_bandwidth_t; the zero behind 128 bytes of `text` lies outside name[128].
structure Entry where
  bdIn : UInt64
  bdOut : UInt64
  text : List UInt8
  bounded : text.length ≤ 128
  deriving DecidableEq, Repr

def Entry.bytes (e : Entry) : Side → UInt64 := Side.pick e.bdIn e.bdOut

-- The name of an entry is a string when the array holds its end.
def Entry.name (e : Entry) : Option (List UInt8) :=
  if e.text.length < 128 ∨ 0 ∈ e.text then some (e.text.takeWhile (· ≠ 0)) else none

-- The byte at an offset from the name; `beyond` is the memory behind the array.
def Entry.memory (e : Entry) (beyond : Nat → UInt8) (i : Nat) : UInt8 :=
  if i < 128 then e.text.getD i 0 else beyond i

def pushed (s : Stream) : Entry := ⟨s.billingIn,s.billingOut,s.text.take 128,length_take_le _ _⟩

def add (e : Entry) (s : Stream) : Entry := {e with bdIn:=e.bdIn+s.billingIn,bdOut:=e.bdOut+s.billingOut}

def Stream.name (s : Stream) : List UInt8 := (s.text.take 256).takeWhile (· ≠ 0)

-- ngx_strncmp over strlen(name) bytes: the entry's name may go on.
def hit (beyond : Nat → Nat → UInt8) (s : Stream) (m : Nat) (e : Entry) : Bool :=
  ServerNames.compare id s.name (e.memory (beyond m))

-- The loop over bd->elts from m on. It has no break, so a later match adds the cleared counters.
def creditLoop (beyond : Nat → Nat → UInt8) (s : Stream) : Nat → List Entry → Bool → List Entry × Stream × Bool
  | _,[],mark => ([],s,mark)
  | m,e::entries,mark =>
    if hit beyond s m e then
      let rest := creditLoop beyond s.clear (m+1) entries true
      (add e s::rest.1,rest.2)
    else
      let rest := creditLoop beyond s (m+1) entries mark
      (e::rest.1,rest.2)

def credit (beyond : Nat → Nat → UInt8) (entries : List Entry) (s : Stream) : List Entry × Stream :=
  if entries = [] then ([pushed s],s.clear)
  else
    let (entries,left,mark) := creditLoop beyond s 0 entries false
    if mark then (entries,left) else (entries ++ [pushed s],s.clear)

def creditAll (beyond : Nat → Nat → UInt8) (entries : List Entry) (streams : List Stream) : List Entry :=
  streams.foldl (fun entries s => (credit beyond entries s).1) entries

def target (beyond : Nat → Nat → UInt8) (s : Stream) : Nat → List Entry → Nat
  | m,[] => m
  | m,e::entries => if hit beyond s m e then m else target beyond s (m+1) entries

def Credited (before after : List Entry) (s : Stream) (k : Nat) : Prop :=
  (∃ e, before[k]? = some e ∧ after = before.set k (add e s)) ∨ k = before.length ∧ after = before ++ [pushed s]

theorem add_clear {s : Stream} : add e s.clear = e := by
  simp [add,Stream.clear]

theorem clear_clear {s : Stream} : s.clear.clear = s.clear := rfl

theorem creditLoop_clear {s : Stream} : creditLoop beyond s.clear m entries true = (entries,s.clear,true) := by
  induction entries generalizing m with
  | nil => rfl
  | cons e entries ih =>
    unfold creditLoop
    rw [clear_clear,ih,add_clear]
    simp

theorem creditLoop_eq (beyond : Nat → Nat → UInt8) (s : Stream) (entries : List Entry) (m : Nat) :
    (target beyond s m entries = m+entries.length ∧ creditLoop beyond s m entries false = (entries,s,false)) ∨
      ∃ k e, target beyond s m entries = m+k ∧ entries[k]? = some e ∧ hit beyond s (m+k) e = true ∧
        creditLoop beyond s m entries false = (entries.set k (add e s),s.clear,true) := by
  induction entries generalizing m with
  | nil => exact .inl ⟨rfl,rfl⟩
  | cons e entries ih =>
    by_cases same : hit beyond s m e = true
    · refine .inr ⟨0,e,by simp [target,same],rfl,same,?_⟩
      simp [creditLoop,same,creditLoop_clear]
    · rcases ih (m+1) with ⟨last,kept⟩ | ⟨k,found,place,there,matched,result⟩
      · refine .inl ⟨?_,by simp [creditLoop,same,kept]⟩
        rw [target,if_neg same,last,length_cons]
        omega
      · refine .inr ⟨k+1,found,?_,there,?_,by simp [creditLoop,same,result]⟩
        · rw [target,if_neg same,place]
          omega
        · rwa [show m+(k+1) = m+1+k by omega]

theorem credit_clears : (credit beyond entries s).2 = s.clear := by
  unfold credit
  split
  · rfl
  · rcases creditLoop_eq beyond s entries 0 with ⟨_,kept⟩ | ⟨k,e,_,_,_,result⟩
    · simp [kept]
    · simp [result]

theorem credit_target (beyond : Nat → Nat → UInt8) (entries : List Entry) (s : Stream) :
    Credited entries (credit beyond entries s).1 s (target beyond s 0 entries) := by
  unfold credit
  split
  · rename_i none
    rw [none]
    exact .inr ⟨rfl,rfl⟩
  · rcases creditLoop_eq beyond s entries 0 with ⟨last,kept⟩ | ⟨k,e,place,there,_,result⟩
    · refine .inr ⟨by rw [last]; omega,by simp [kept]⟩
    · refine .inl ⟨e,?_,?_⟩ <;> rw [place,zero_add]
      · exact there
      · simp [result]

def Fits (s : Stream) : Prop := s.text.length < 128 ∧ 0 ∉ s.text

theorem takeWhile_clean {text : List UInt8} (clean : 0 ∉ text) : text.takeWhile (· ≠ 0) = text := by
  have nonzero : ∀ b ∈ text, decide (b ≠ 0) = true := fun b inside => decide_eq_true fun same => clean (same ▸ inside)
  have taken : (text ++ []).takeWhile (· ≠ 0) = text ++ [].takeWhile (· ≠ 0) := takeWhile_append_of_pos nonzero
  simpa using taken

theorem takeWhile_nonzero {text : List UInt8} : 0 ∉ text.takeWhile (· ≠ 0) := by
  intro inside
  have nonzero := mem_takeWhile_imp inside
  simp at nonzero

theorem name_of_fit (fits : Fits s) : s.name = s.text := by
  have whole : s.text.take 256 = s.text := take_of_length_le (by have short := fits.1; omega)
  rw [Stream.name,whole,takeWhile_clean fits.2]

theorem text_of_fit (fits : Fits s) : s.text.take 128 = s.text :=
  take_of_length_le (le_of_lt fits.1)

theorem entryName_of_fit {e : Entry} (fits : Fits s) (same : e.text = s.text) : e.name = some s.text := by
  unfold Entry.name
  rw [same,if_pos (.inl fits.1),takeWhile_clean fits.2]

theorem fits_of_entryName {e : Entry} (named : e.name = some s.text) : Fits s := by
  unfold Entry.name at named
  split at named
  · rename_i ended
    have same := Option.some.inj named
    unfold Fits
    rw [← same]
    refine ⟨?_,takeWhile_nonzero⟩
    have least := (show e.text.takeWhile (fun b => decide (b ≠ 0)) <+: e.text from takeWhile_prefix _).length_le
    have bounded := e.bounded
    rcases ended with short | zero
    · omega
    · apply Nat.lt_of_le_of_ne (by omega)
      intro full
      have whole : e.text.takeWhile (· ≠ 0) = e.text :=
        (List.takeWhile_prefix _).eq_of_length (by omega)
      exact takeWhile_nonzero (by rwa [whole])
  · cases named

theorem compare_prefix (name text : List UInt8) (beyond : Nat → UInt8) (clean : 0 ∉ name) (short : name.length ≤ width) :
    ServerNames.compare id name (fun i => if i < width then text.getD i 0 else beyond i) = true ↔ name <+: text := by
  induction name generalizing width text beyond with
  | nil => simp [ServerNames.compare]
  | cons c name ih =>
    obtain ⟨width,rfl⟩ := Nat.exists_eq_succ_of_ne_zero (Nat.ne_of_gt (lt_of_lt_of_le (Nat.succ_pos _) short))
    have visible : c ≠ 0 := fun zero => clean (by rw [zero]; exact mem_cons_self)
    cases text with
    | nil => simp [ServerNames.compare,visible]
    | cons d text =>
      have shifted := ih text (fun i => beyond (i+1)) (fun inside => clean (mem_cons_of_mem _ inside))
        (Nat.le_of_succ_le_succ short)
      simp only [ServerNames.compare,id_eq,Nat.zero_lt_succ,if_true,getD_cons_zero,if_neg visible,Nat.succ_lt_succ_iff,
        Nat.succ_eq_add_one,getD_cons_succ,cons_prefix_cons]
      by_cases same : c = d
      · rw [if_pos same,shifted]
        simp [same]
      · simp [same]

theorem hit_iff (fits : Fits s) (beyond : Nat → Nat → UInt8) (m : Nat) : hit beyond s m e = true ↔ s.text <+: e.text := by
  unfold hit
  rw [name_of_fit fits]
  exact compare_prefix s.text e.text (beyond m) fits.2 (le_of_lt fits.1)

def firstHit (s : Stream) (texts : List (List UInt8)) : Option (List UInt8) := texts.find? (s.text.isPrefixOf ·)

theorem target_firstHit (fits : Fits s) (m : Nat) :
    (firstHit s (entries.map (·.text)) = none ∧ target beyond s m entries = m+entries.length) ∨
      ∃ k e, entries[k]? = some e ∧ firstHit s (entries.map (·.text)) = some e.text ∧ target beyond s m entries = m+k := by
  induction entries generalizing m with
  | nil => exact .inl ⟨rfl,rfl⟩
  | cons e entries ih =>
    by_cases same : s.text.isPrefixOf e.text = true
    · have matched := (hit_iff fits beyond m).mpr (List.isPrefixOf_iff_prefix.mp same)
      exact .inr ⟨0,e,rfl,by simp [firstHit,same],by simp [target,matched]⟩
    · have missed : ¬hit beyond s m e = true := fun matched =>
        same (List.isPrefixOf_iff_prefix.mpr ((hit_iff fits beyond m).mp matched))
      have skip : firstHit s ((e::entries).map (·.text)) = firstHit s (entries.map (·.text)) := by
        simp [firstHit,same]
      rw [skip,target,if_neg missed]
      rcases ih (m+1) with ⟨none,last⟩ | ⟨k,found,there,first,place⟩
      · exact .inl ⟨none,by rw [last,length_cons]; omega⟩
      · exact .inr ⟨k+1,found,there,first,by rw [place]; omega⟩

theorem credit_firstHit (fits : Fits s) :
    (firstHit s (entries.map (·.text)) = none ∧ target beyond s 0 entries = entries.length ∧
      (credit beyond entries s).1 = entries ++ [pushed s]) ∨
    ∃ k e, entries[k]? = some e ∧ firstHit s (entries.map (·.text)) = some e.text ∧
      target beyond s 0 entries = k ∧ (credit beyond entries s).1 = entries.set k (add e s) := by
  have credited := credit_target beyond entries s
  rcases target_firstHit fits 0 with ⟨none,last⟩ | ⟨k,e,there,first,place⟩
  · rw [zero_add] at last
    rw [last] at credited ⊢
    refine .inl ⟨none,rfl,?_⟩
    rcases credited with ⟨e,outside,_⟩ | ⟨_,added⟩
    · simp at outside
    · exact added
  · rw [zero_add] at place
    rw [place] at credited ⊢
    refine .inr ⟨k,e,there,first,rfl,?_⟩
    rcases credited with ⟨other,same,result⟩ | ⟨outside,_⟩
    · rw [there] at same
      cases same
      exact result
    · rw [outside] at there
      simp at there

theorem map_text_set {entries : List Entry} (there : entries[k]? = some e) :
    (entries.set k (add e s)).map (·.text) = entries.map (·.text) := by
  have inside := (List.getElem?_eq_some_iff.mp there).1
  rw [map_set]
  apply ext_getElem?
  intro i
  by_cases same : k = i
  · rw [← same,getElem?_set_self (by simpa using inside),getElem?_map,there]
    rfl
  · rw [getElem?_set_ne same]

theorem creditAll_snoc : creditAll beyond entries (streams ++ [s]) = (credit beyond (creditAll beyond entries streams) s).1 := by
  simp [creditAll]

-- A stream was left out of the table only because a text before it begins with its own.
theorem firstHit_table {beyond : Nat → Nat → UInt8} (fits : ∀ s ∈ streams, Fits s) :
    firstHit t ((creditAll beyond [] streams).map (·.text)) = firstHit t (streams.map (·.text)) := by
  induction streams using List.reverseRecOn generalizing t with
  | nil => rfl
  | append_singleton streams s ih =>
    have before : ∀ s ∈ streams, Fits s := fun other inside => fits other (mem_append_left _ inside)
    have own : Fits s := fits s (by simp)
    rw [creditAll_snoc,map_append]
    rcases credit_firstHit own with ⟨none,_,result⟩ | ⟨k,e,there,first,_,result⟩
    · rw [result,map_append]
      unfold firstHit at ih ⊢
      rw [find?_append,find?_append,ih before]
      simp [pushed,text_of_fit own]
    · rw [ih before] at first
      rw [result,map_text_set there,ih before]
      unfold firstHit at first ⊢
      rw [find?_append]
      cases earlier : (streams.map (·.text)).find? (t.text.isPrefixOf ·) with
      | some text => rfl
      | none =>
        have longer : s.text <+: e.text := isPrefixOf_iff_prefix.mp (find?_some (p := fun x => s.text.isPrefixOf x) first)
        have misses := find?_eq_none.mp earlier e.text (mem_of_find?_eq_some first)
        have other : t.text.isPrefixOf s.text = false := by
          apply Bool.eq_false_iff.mpr
          intro starts
          exact misses (List.isPrefixOf_iff_prefix.mpr ((List.isPrefixOf_iff_prefix.mp starts).trans longer))
        simp [other]

def Attributed (beyond : Nat → Nat → UInt8) (streams : List Stream) : Prop :=
  ∀ before s after, streams = before ++ s::after → ∃ e,
    (creditAll beyond [] (before ++ [s]))[target beyond s 0 (creditAll beyond [] before)]? = some e ∧ e.name = some s.text

def Exact (streams : List Stream) : Prop :=
  ∀ before s after, streams = before ++ s::after → ∀ text, firstHit s (before.map (·.text)) = some text → text = s.text

theorem attributed_step
    (fits : ∀ other ∈ before, Fits other) (own : Fits s) :
    (∃ e, (creditAll beyond [] (before ++ [s]))[target beyond s 0 (creditAll beyond [] before)]? = some e ∧
      e.name = some s.text) ↔ ∀ text, firstHit s (before.map (·.text)) = some text → text = s.text := by
  rw [creditAll_snoc,← firstHit_table fits]
  rcases credit_firstHit own with ⟨none,place,result⟩ | ⟨k,e,there,first,place,result⟩
  · rw [place,result,none]
    constructor
    · intro _ text found
      cases found
    · intro _
      exact ⟨pushed s,by simp,entryName_of_fit own (text_of_fit own)⟩
  · rw [place,result,first]
    have inside : k < (creditAll beyond [] before).length := (List.getElem?_eq_some_iff.mp there).1
    have read : ((creditAll beyond [] before).set k (add e s))[k]? = some (add e s) := by
      rw [getElem?_set_self inside]
    rw [firstHit_table fits] at first
    obtain ⟨other,present,same⟩ := mem_map.mp (mem_of_find?_eq_some first)
    have named : (add e s).name = some e.text := by
      rw [← same]
      exact entryName_of_fit (fits other present) same.symm
    rw [read]
    constructor
    · rintro ⟨other,taken,right⟩ text found
      cases taken
      cases found
      rw [named] at right
      exact Option.some.inj right
    · intro right
      exact ⟨add e s,rfl,by rw [named,right e.text rfl]⟩

-- The counters always go to one entry; whether to the right one depends on the texts before.
theorem attribution_iff (beyond : Nat → Nat → UInt8) (streams : List Stream) :
    (∀ before s after, streams = before ++ s::after →
      Credited (creditAll beyond [] before) (creditAll beyond [] (before ++ [s])) s
        (target beyond s 0 (creditAll beyond [] before))) ∧
    (Attributed beyond streams ↔ (∀ s ∈ streams, Fits s) ∧ Exact streams) := by
  constructor
  · intro before s after _
    rw [creditAll_snoc]
    exact credit_target beyond _ s
  · constructor
    · intro attributed
      have fits : ∀ s ∈ streams, Fits s := by
        intro s inside
        obtain ⟨before,after,split⟩ := append_of_mem inside
        obtain ⟨e,_,named⟩ := attributed before s after split
        exact fits_of_entryName named
      refine ⟨fits,?_⟩
      intro before s after split
      have earlier : ∀ other ∈ before, Fits other := fun other inside => fits other (by rw [split]; exact mem_append_left _ inside)
      have own : Fits s := fits s (by rw [split]; simp)
      exact (attributed_step earlier own).mp (attributed before s after split)
    · rintro ⟨fits,exact_⟩ before s after split
      have earlier : ∀ other ∈ before, Fits other := fun other inside => fits other (by rw [split]; exact mem_append_left _ inside)
      have own : Fits s := fits s (by rw [split]; simp)
      exact (attributed_step earlier own).mpr (exact_ before s after split)

theorem longer_port_takes_the_bytes :
    creditAll (fun _ _ => 0) [] [⟨[97],[56,48,56,48],1,2⟩,⟨[97],[56,48],10,20⟩] =
        [⟨11,22,[97,58,56,48,56,48],by decide⟩] ∧
      ¬Attributed (fun _ _ => 0) [⟨[97],[56,48,56,48],1,2⟩,⟨[97],[56,48],10,20⟩] := by
  refine ⟨by decide,?_⟩
  intro attributed
  obtain ⟨e,there,named⟩ := attributed [⟨[97],[56,48,56,48],1,2⟩] ⟨[97],[56,48],10,20⟩ [] rfl
  have only : e = ⟨11,22,[97,58,56,48,56,48],by decide⟩ := by
    have read : (creditAll (fun _ _ => 0) [] [⟨[97],[56,48,56,48],1,2⟩,⟨[97],[56,48],10,20⟩])[0]? =
        some ⟨11,22,[97,58,56,48,56,48],by decide⟩ := by decide
    exact Option.some.inj (there.symm.trans read)
  rw [only] at named
  exact absurd named (by decide)

end NgxRtmp.Billing
