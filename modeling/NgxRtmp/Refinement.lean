import NgxRtmp.Repack

namespace NgxRtmp.Recv
open ChunkWriter ChunkHeader Cells Function List
open NgxRtmp.Flow (capacity State)

-- The last buffer of the current chunk stream is the one being filled.
structure Resting (s : Session) (own : Nat → List Nat) (f : State) : Prop where
  core : f.core = s.core
  owns : Owns (fun _ => Fits (capacity s.core.chunkSize)) s.heap s.links own
  beyond : ∀ n, n ≠ 0 → s.core.cscf.maxStreams ≤ n → own n = []
  chunks : ∀ n, n ≠ 0 → chunksOf s.heap (if n = s.core.csid then (own n).dropLast else own n) = f.chunks n

-- The bytes at hand are behind the finished chunk, nowhere, or in the current buffer.
inductive Waiting (s : Session) (f : State) : Option (Nat × Nat) → Nat → Bool → Prop
  | leftover (some : f.bytes ≠ []) (start : s.core.csid = 0) (pos : f.pos = 0) (old : a < s.heap.top)
      (bytes : ((s.buf a).mem.drop offset).take f.bytes.length = f.bytes) (room : f.bytes.length ≤ capacity s.core.chunkSize) :
      Waiting s f (.some (a,offset)) f.bytes.length true
  | finished (none : f.bytes = []) (start : s.core.csid = 0) (pos : f.pos = 0) (steady : s.core.changing = false) :
      Waiting s f (.some p) 0 false
  | partly (steady : s.core.changing = false) (start : s.core.csid = 0 → f.pos = 0)
      (current : ∀ a, s.links s.core.csid = some a → bytesOf (s.buf a) = f.bytes ∧ (s.buf a).pos = f.pos)
      (free : s.links s.core.csid = none → s.core.csid = 0 ∧ f.bytes = [] ∧ f.pos = 0) :
      Waiting s f none 0 false

structure Ready (s : Session) (own : Nat → List Nat) (a : Nat) (f : State) : Prop extends Resting s own f where
  found : s.links s.core.csid = some a
  bytes : bytesOf (s.buf a) = f.bytes
  pos : (s.buf a).pos = f.pos
  steady : s.core.changing = false
  start : s.core.csid = 0 → f.pos = 0

theorem Ready.waiting (ready : Ready s own a f) : Waiting s f none 0 false := by
  refine .partly ready.steady ready.start (fun b other => ?_) fun free => ?_
  · cases ready.found.symm.trans other
    exact ⟨ready.bytes,ready.pos⟩
  · cases ready.found.symm.trans free

theorem Resting.fits (resting : Resting s own f) (found : s.links n = some a) : Fits (capacity s.core.chunkSize) (s.buf a) :=
  resting.owns.sound n a (owns_member resting.owns found)

theorem Resting.setBuf (resting : Resting s own f) (found : s.links s.core.csid = some a)
    (fits : Fits (capacity s.core.chunkSize) b) : Resting (s.setBuf a b) own f := by
  refine ⟨resting.core,owns_setVal resting.owns fun _ _ => fits,resting.beyond,fun n ring => ?_⟩
  rw [←resting.chunks n ring]
  refine chunksOf_frame fun x member => ?_
  change (s.heap.setVal a b).val x = _
  rw [setVal_val,if_neg]
  rintro rfl
  have here : x ∈ if n = s.core.csid then (own n).dropLast else own n := member
  by_cases same : n = s.core.csid
  · subst same
    have distinct := resting.owns.distinct s.core.csid
    rw [if_pos rfl] at here
    rw [owns_last resting.owns ring found] at distinct
    exact (nodup_append.mp distinct).2.2 x here x (by simp) rfl
  · rw [if_neg same] at here
    exact same (resting.owns.apart n _ x here (owns_member resting.owns found))

theorem Resting.setCore (resting : Resting s own f) (core : Core) (size : core.chunkSize = s.core.chunkSize)
    (conf : core.cscf = s.core.cscf) (csid : core.csid = s.core.csid) :
    Resting {s with core} own {f with core} := by
  obtain ⟨_,owns,beyond,chunks⟩ := resting
  refine ⟨rfl,?_,?_,?_⟩
  · simpa only [size] using owns
  · simpa only [conf] using beyond
  · simpa only [csid] using chunks

-- Its ring has a buffer besides the one being filled. A list that was handed over is open.
def partly (s : Session) (n : Nat) : Bool :=
  match s.links n with
  | none => false
  | some a =>
    match s.heap.next a with
    | none => false
    | some first => n ≠ s.core.csid || first ≠ a

def Shows (s : Session) (f : State) : Prop := ∀ n, n ≠ 0 → partly s n = true → f.chunks n ≠ []

theorem Resting.shows (resting : Resting s own f) : Shows s f := by
  intro n ring begun empty
  have chunks := resting.chunks n ring
  rw [empty] at chunks
  have none : (if n = s.core.csid then (own n).dropLast else own n) = [] := map_eq_nil_iff.mp chunks
  unfold partly at begun
  split at begun
  · cases begun
  · rename_i a found
    have cells := owns_last resting.owns ring found
    split at none
    · rename_i current
      have held := (held_ring ring).mp (resting.owns.held n)
      rw [found] at held
      obtain ⟨_,_,seg⟩ := held
      rw [cells,none] at seg
      have self : s.heap.next a = some a := seg.1
      simp [self,current] at begun
    · rw [none] at cells
      cases cells

theorem Resting.finalize (resting : Resting s own f) : Resting s.finalize own f.finalize := by
  unfold State.finalize
  rw [resting.core]
  exact resting.setCore s.core.finalize rfl rfl rfl

theorem acquire_resting (resting : Resting s own f) (waiting : Waiting s f oldPos oldSize kept) :
    ∃ now, Resting (acquire s).2 now f ∧ (acquire s).2.links (acquire s).2.core.csid = some (acquire s).1 ∧
      Waiting (acquire s).2 f oldPos oldSize kept ∧ (acquire s).2.core = s.core := by
  cases found : s.links s.core.csid with
  | some a =>
    have same : acquire s = (a,s) := by
      unfold acquire
      rw [found]
    rw [same]
    exact ⟨own,resting,found,waiting,rfl⟩
  | none =>
    have zero : s.core.csid = 0 := by
      cases waiting with
      | leftover _ start => exact start
      | finished _ start => exact start
      | partly _ _ _ free => exact (free found).1
    have made : acquire s = (s.heap.top,{s with
        heap:=s.heap.alloc (allocInBuf s.core.chunkSize),links:=update s.links 0 (some s.heap.top)}) := by
      unfold acquire
      rw [found,zero]
    have empty : (s.heap.alloc (allocInBuf s.core.chunkSize)).val s.heap.top = allocInBuf s.core.chunkSize := by
      rw [alloc_val,if_pos rfl]
    have old : ∀ x, x < s.heap.top → (s.heap.alloc (allocInBuf s.core.chunkSize)).val x = s.heap.val x := by
      intro x below
      rw [alloc_val,if_neg (ne_of_lt below)]
    rw [made]
    refine ⟨update own 0 [s.heap.top],⟨resting.core,owns_supply resting.owns fits_alloc,?_,?_⟩,?_,?_,rfl⟩
    · intro n ring above
      rw [update_of_ne ring]
      exact resting.beyond n ring above
    · intro n ring
      have other : n ≠ s.core.csid := zero ▸ ring
      rw [←resting.chunks n ring]
      simp only [update_of_ne ring,other,if_false]
      exact chunksOf_frame fun x member => old x (resting.owns.bound n x member)
    · change update s.links 0 (some s.heap.top) s.core.csid = _
      rw [zero,update_self]
    · cases waiting with
      | leftover some start pos below bytes room =>
        refine .leftover some start pos (Nat.lt_succ_of_lt below) ?_ room
        change (((s.heap.alloc (allocInBuf s.core.chunkSize)).val _).mem.drop _).take _ = _
        rw [old _ below]
        exact bytes
      | finished none start pos steady => exact .finished none start pos steady
      | partly steady start current free =>
        obtain ⟨_,none,pos⟩ := free found
        refine .partly steady start (fun a held => ?_) fun missing => ?_
        · simp only [zero,update_self] at held
          cases held
          change bytesOf ((s.heap.alloc _).val s.heap.top) = _ ∧ ((s.heap.alloc _).val s.heap.top).pos = _
          rw [empty,none,pos]
          exact ⟨rfl,rfl⟩
        · simp only [zero,update_self] at missing
          cases missing

theorem count_frame (c : Core) : ∃ inBytes inLastAck, (c.count n acked).1 = {c with inBytes,inLastAck} := by
  unfold Core.count
  dsimp only
  split <;> split <;> exact ⟨_,_,rfl⟩

theorem takeRead_room (taken : takeRead room socket = (.bytes bytes acked,rest)) : bytes.length ≤ room := by
  induction socket with
  | nil =>
    unfold takeRead at taken
    split at taken <;> cases taken
  | cons read socket ih =>
    cases read with
    | again =>
      unfold takeRead at taken
      split at taken <;> cases taken
    | closed => cases taken
    | data given flag =>
      cases given with
      | nil => exact ih taken
      | cons b given =>
        unfold takeRead at taken
        split at taken
        · cases taken
        · split at taken
          · rename_i short
            cases taken
            exact short
          · cases taken
            rw [length_take]
            exact Nat.min_le_left _ _

inductive FilledAs (conf : SrvConf) (a : Nat) : Filled → Flow.Filled → Prop
  | ready (ready : Ready s own a f) (same : s.core.cscf = conf) : FilledAs conf a (.ready s socket) (.ready f socket)
  | again (resting : Resting s own f) (waiting : Waiting s f none 0 false) : FilledAs conf a (.stop s socket) (.stop f socket)
  | dead (core : f.core = s.core) (destroyed : s.core.destroyed = true) (shows : Shows s f) :
      FilledAs conf a (.stop s socket) (.stop f socket)

theorem reuse_ready (resting : Resting s own f) (found : s.links s.core.csid = some a)
    (waiting : Waiting s f oldPos oldSize true) :
    Ready (reuse s a oldPos oldSize) own a {f with core:=if f.core.changing then finalizeSetChunkSize f.core else f.core} := by
  cases waiting with
  | leftover some start pos below bytes room =>
    rename_i old offset
    have fits := resting.fits found
    have moved : Fits (capacity s.core.chunkSize)
        {({s.buf a with pos:=0} : Buf).write 0 f.bytes with last:=f.bytes.length} := by
      refine ⟨?_,fits.size,Nat.zero_le _,room⟩
      simp only [Buf.write,take_zero,nil_append,zero_add,length_append,length_drop,fits.mem]
      omega
    have text : bytesOf {({s.buf a with pos:=0} : Buf).write 0 f.bytes with last:=f.bytes.length} = f.bytes := by
      simp only [bytesOf,Buf.write,take_zero,nil_append]
      rw [take_append_of_le_length le_rfl,take_length]
    have steady : (if s.core.changing then finalizeSetChunkSize s.core else s.core) = {s.core with changing:=false} := by
      unfold finalizeSetChunkSize
      cases changing : s.core.changing with
      | true => rfl
      | false =>
        change s.core = _
        rw [←changing]
    have value : ((s.setBuf a {({s.buf a with pos:=0} : Buf).write 0 f.bytes with last:=f.bytes.length}).buf a) =
        {({s.buf a with pos:=0} : Buf).write 0 f.bytes with last:=f.bytes.length} := by
      change (s.heap.setVal a _).val a = _
      rw [setVal_val,if_pos rfl]
    unfold reuse
    simp only [bytes]
    rw [resting.core]
    have after := (resting.setBuf found moved).setCore (if s.core.changing then finalizeSetChunkSize s.core else s.core)
      (by rw [steady]; rfl) (by rw [steady]; rfl) (by rw [steady]; rfl)
    refine ⟨after,?_,?_,?_,?_,fun _ => pos⟩
    · change s.links (if s.core.changing then finalizeSetChunkSize s.core else s.core).csid = _
      rw [steady]
      exact found
    · exact (congrArg bytesOf value).trans text
    · exact (congrArg Buf.pos value).trans pos.symm
    · change (if s.core.changing then finalizeSetChunkSize s.core else s.core).changing = false
      rw [steady]

theorem rewind_ready (resting : Resting s own f) (found : s.links s.core.csid = some a)
    (waiting : Waiting s f oldPos oldSize false) :
    oldSize = 0 ∧ Ready (if oldPos.isSome then s.setBuf a {s.buf a with pos:=0,last:=0} else s) own a f := by
  cases waiting with
  | finished none start pos steady =>
    have fits := resting.fits found
    have rewound : Fits (capacity s.core.chunkSize) {s.buf a with pos:=0,last:=0} :=
      ⟨fits.mem,fits.size,le_rfl,Nat.zero_le _⟩
    have value : (s.setBuf a {s.buf a with pos:=0,last:=0}).buf a = {s.buf a with pos:=0,last:=0} := by
      change (s.heap.setVal a _).val a = _
      rw [setVal_val,if_pos rfl]
    refine ⟨rfl,resting.setBuf found rewound,found,?_,?_,steady,fun _ => pos⟩
    · exact (congrArg bytesOf value).trans none.symm
    · exact (congrArg Buf.pos value).trans pos.symm
  | partly steady start current free =>
    obtain ⟨bytes,pos⟩ := current a found
    exact ⟨rfl,resting,found,bytes,pos,steady,start⟩

theorem setBuf_ready (ready : Ready s own a f) (fits : Fits (capacity s.core.chunkSize) b)
    (start : s.core.csid = 0 → b.pos = 0) : Ready (s.setBuf a b) own a {f with bytes:=bytesOf b,pos:=b.pos} := by
  have value : (s.setBuf a b).buf a = b := by
    change (s.heap.setVal a _).val a = _
    rw [setVal_val,if_pos rfl]
  obtain ⟨core,owns,beyond,chunks⟩ := ready.toResting.setBuf ready.found fits
  exact ⟨⟨core,owns,beyond,chunks⟩,ready.found,congrArg bytesOf value,congrArg Buf.pos value,ready.steady,start⟩

theorem setCore_ready (ready : Ready s own a f) (core : Core) (size : core.chunkSize = s.core.chunkSize)
    (conf : core.cscf = s.core.cscf) (csid : core.csid = s.core.csid) (changing : core.changing = s.core.changing) :
    Ready {s with core} own a {f with core} :=
  ⟨ready.toResting.setCore core size conf csid,(congrArg s.links csid).trans ready.found,ready.bytes,ready.pos,
    changing.trans ready.steady,fun zero => ready.start (csid ▸ zero)⟩

theorem Waiting.kept_some (waiting : Waiting s f oldPos oldSize true) : oldSize ≠ 0 := by
  cases waiting with
  | leftover some => exact fun zero => some (eq_nil_of_length_eq_zero zero)

theorem read_refines (ready : Ready s own a f) (socket : List Read) :
    FilledAs s.core.cscf a
      (match takeRead ((s.buf a).size-(s.buf a).last) socket with
      | (.closed,socket) => .stop s.finalize socket
      | (.again,socket) => .stop s socket
      | (.bytes bytes acked,socket) =>
        let s := s.setBuf a ((s.buf a).append bytes)
        match s.core.count bytes.length acked with
        | (core,true) => .ready {s with core} socket
        | (core,false) => .stop ({s with core} : Session).finalize socket)
      (Flow.fill f false socket) := by
  have fits := ready.fits ready.found
  have room : (s.buf a).size-(s.buf a).last = capacity f.core.chunkSize-f.bytes.length := by
    rw [fits.size,←bytesOf_length fits,ready.bytes,ready.core]
  unfold Flow.fill
  simp only [Bool.false_eq_true,if_false]
  rw [←room]
  cases taken : takeRead ((s.buf a).size-(s.buf a).last) socket with
  | mk arrival rest =>
    cases arrival with
    | closed => exact .dead (congrArg Core.finalize ready.core) rfl ready.toResting.finalize.shows
    | again => exact .again ready.toResting ready.waiting
    | bytes bytes acked =>
      have short : bytes.length ≤ capacity s.core.chunkSize-(s.buf a).last := by
        rw [←fits.size]
        exact takeRead_room taken
      have after : Ready (s.setBuf a ((s.buf a).append bytes)) own a {f with bytes:=f.bytes ++ bytes} := by
        have filled := setBuf_ready ready (append_fits fits short) fun zero => (ready.pos.trans (ready.start zero))
        rwa [bytesOf_append fits,ready.bytes,show ((s.buf a).append bytes).pos = f.pos from ready.pos] at filled
      obtain ⟨inBytes,inLastAck,counted⟩ := count_frame s.core
      change FilledAs s.core.cscf a
        (match s.core.count bytes.length acked with
        | (core,true) => .ready {s.setBuf a ((s.buf a).append bytes) with core} rest
        | (core,false) => .stop ({s.setBuf a ((s.buf a).append bytes) with core} : Session).finalize rest)
        (match f.core.count bytes.length acked with
        | (core,true) => .ready {f with core,bytes:=f.bytes ++ bytes} rest
        | (core,false) => .stop ({f with core,bytes:=f.bytes ++ bytes} : State).finalize rest)
      rw [ready.core]
      cases result : s.core.count bytes.length acked with
      | mk core sent =>
        rw [result] at counted
        subst counted
        have filled := setCore_ready after {s.core with inBytes,inLastAck} rfl rfl rfl rfl
        cases sent with
        | true => exact .ready filled rfl
        | false => exact .dead rfl rfl filled.toResting.finalize.shows

theorem fill_refines (resting : Resting s own f) (found : s.links s.core.csid = some a)
    (waiting : Waiting s f oldPos oldSize kept) (conf : SrvConf) (socket : List Read) :
    FilledAs s.core.cscf a (fill s a ⟨conf,oldPos,oldSize⟩ socket) (Flow.fill f kept socket) := by
  cases kept with
  | true =>
    have ready := reuse_ready resting found waiting
    unfold fill Flow.fill
    rw [if_pos waiting.kept_some,if_pos rfl]
    refine .ready ready ?_
    have core := ready.core
    rw [←core,resting.core]
    unfold finalizeSetChunkSize
    split <;> rfl
  | false =>
    obtain ⟨none,ready⟩ := rewind_ready resting found waiting
    subst none
    have filled := read_refines ready socket
    have same : (if oldPos.isSome then s.setBuf a {s.buf a with pos:=0,last:=0} else s).core = s.core := by
      split <;> rfl
    rw [same] at filled
    unfold fill
    rw [if_neg (by simp)]
    exact filled

theorem linkOrphan_ready (ready : Ready s own a f) (zero : s.core.csid = 0) (ring : csid ≠ 0)
    (known : csid < s.core.cscf.maxStreams) :
    ∃ now, Ready (linkOrphan s a csid) now a {f with core:=Flow.link f.core csid} := by
  have first : s.links 0 = some a := zero ▸ ready.found
  have entered := owns_enter ready.owns first ring fun fits => fits
  have heap : (linkOrphan s a csid).heap = s.heap.enter a (s.links csid) := by
    have pointer : (s.setLink 0 (s.heap.next a)).links csid = s.links csid := update_of_ne ring _ _
    unfold linkOrphan
    simp only [pointer]
    cases s.links csid <;> rfl
  have value : ∀ x, (linkOrphan s a csid).heap.val x = s.heap.val x := by
    intro x
    rw [heap,enter_val]
  have links : (linkOrphan s a csid).links = update (update s.links 0 (s.heap.next a)) csid (some a) := rfl
  have buffer : (linkOrphan s a csid).buf a = s.buf a := value a
  refine ⟨update (update own 0 (own 0).tail) csid (own csid ++ [a]),⟨?_,?_,?_,?_⟩,?_,?_,?_,ready.steady,
    fun _ => ready.start zero⟩
  · rw [ready.core]
    rfl
  · rw [heap,links]
    exact entered
  · intro n positive above
    have other : n ≠ csid := by
      have limit : s.core.cscf.maxStreams ≤ n := above
      omega
    rw [update_of_ne other,update_of_ne positive]
    exact ready.beyond n positive above
  · intro n positive
    have before := ready.chunks n positive
    rw [zero,if_neg positive] at before
    change chunksOf (linkOrphan s a csid).heap (if n = csid then _ else _) = _
    rw [←before]
    by_cases same : n = csid
    · subst same
      rw [if_pos rfl,update_self,dropLast_concat]
      exact chunksOf_frame fun x _ => value x
    · rw [if_neg same,update_of_ne same,update_of_ne positive]
      exact chunksOf_frame fun x _ => value x
  · exact update_self _ _ _
  · rw [buffer]
    exact ready.bytes
  · rw [buffer]
    exact ready.pos

theorem leave_waiting (fits : Fits cap b) (memory : (s.buf a).mem = b.mem) (old : a < s.heap.top)
    (bytes : f.bytes = (bytesOf b).drop offset) (start : s.core.csid = 0) (pos : f.pos = 0)
    (room : f.bytes.length ≤ capacity s.core.chunkSize) (steady : f.bytes = [] → s.core.changing = false) :
    Waiting s f (some (a,offset)) (b.last-offset) (f.bytes ≠ []) := by
  have length : f.bytes.length = b.last-offset := by
    rw [bytes,length_drop,bytesOf_length fits]
  by_cases none : f.bytes = []
  · have ended : b.last-offset = 0 := by
      rw [←length,none]
      rfl
    simp only [none,ne_eq,not_true_eq_false,decide_false,ended]
    exact .finished none start pos (steady none)
  · simp only [ne_eq,none,not_false_eq_true,decide_true]
    rw [←length]
    refine .leftover none start pos old ?_ room
    rw [length,memory,bytes,bytesOf,drop_take]

theorem clip_contents (fits : Fits cap b) (within : b.pos+n ≤ b.last) :
    Fits cap {b with last:=b.pos+n} ∧ ({b with last:=b.pos+n} : Buf).contents = ((bytesOf b).drop b.pos).take n := by
  have last := fits.last
  refine ⟨⟨fits.mem,fits.size,Nat.le_add_right _ _,by show b.pos+n ≤ cap; omega⟩,?_⟩
  simp only [Buf.contents,bytesOf]
  rw [drop_take,drop_take,take_take,Nat.add_sub_cancel_left,min_eq_left (by omega)]

theorem Ready.offsets (ready : Ready s own a f) :
    Fits (capacity s.core.chunkSize) (s.buf a) ∧ (s.buf a).last = f.bytes.length ∧ f.pos ≤ f.bytes.length ∧
      f.bytes.length ≤ capacity s.core.chunkSize := by
  have fits := ready.fits ready.found
  have last : (s.buf a).last = f.bytes.length := by rw [←bytesOf_length fits,ready.bytes]
  exact ⟨fits,last,by rw [←ready.pos,←last]; exact fits.pos,by rw [←last]; exact fits.last⟩

theorem clip_chunks (ready : Ready s own a f) (ring : s.core.csid ≠ 0) (within : f.pos+n ≤ f.bytes.length) :
    chunksOf (s.heap.setVal a {s.buf a with last:=(s.buf a).pos+n}) (own s.core.csid) =
      f.chunks s.core.csid ++ [(f.bytes.drop f.pos).take n] := by
  obtain ⟨fits,last,_,_⟩ := ready.offsets
  obtain ⟨_,contents⟩ := clip_contents fits (show (s.buf a).pos+n ≤ (s.buf a).last by rw [ready.pos,last]; exact within)
  have before := ready.chunks _ ring
  have distinct := ready.owns.distinct s.core.csid
  have cells := owns_last ready.owns ring ready.found
  rw [if_pos rfl] at before
  rw [cells] at distinct
  rw [cells,chunksOf,map_append,←before]
  refine congrArg₂ _ (map_congr_left fun x member => ?_) ?_
  · rw [setVal_val,if_neg]
    exact (nodup_append.mp distinct).2.2 x member a (by simp)
  · simp only [map_cons,map_nil]
    rw [setVal_val,if_pos rfl,contents,ready.bytes,ready.pos]

theorem collect_refines (ready : Ready s own a f) (ring : s.core.csid ≠ 0) (enough : s.core.chunkSize ≤ f.bytes.length-f.pos) :
    Resting (collect s a) own (Flow.collect f) ∧
      Waiting (collect s a) (Flow.collect f) (some (a,(s.buf a).pos+s.core.chunkSize))
        ((s.buf a).last-(s.buf a).pos-s.core.chunkSize) (f.bytes.drop (f.pos+f.core.chunkSize) ≠ []) := by
  obtain ⟨fits,last,pos,full⟩ := ready.offsets
  have within : f.pos+s.core.chunkSize ≤ f.bytes.length := by omega
  have inside : (s.buf a).pos+s.core.chunkSize ≤ (s.buf a).last := by rwa [ready.pos,last]
  obtain ⟨clipped,_⟩ := clip_contents fits inside
  have chunks := clip_chunks ready ring within
  have others := ready.toResting.setBuf ready.found clipped
  have value : ((collect s a).buf a).mem = (s.buf a).mem := by
    change ((s.heap.setVal a {s.buf a with last:=(s.buf a).pos+s.core.chunkSize}).val a).mem = _
    rw [setVal_val,if_pos rfl]
  constructor
  · refine ⟨?_,others.owns,others.beyond,fun n positive => ?_⟩
    · unfold Flow.collect
      rw [ready.core]
      rfl
    · change chunksOf (s.heap.setVal a {s.buf a with last:=(s.buf a).pos+s.core.chunkSize}) (if n = 0 then _ else own n) =
        update f.chunks f.core.csid _ n
      rw [if_neg positive,ready.core]
      by_cases same : n = s.core.csid
      · subst same
        rw [update_self]
        exact chunks
      · rw [update_of_ne same]
        have after := others.chunks n positive
        rwa [show (s.setBuf a {s.buf a with last:=(s.buf a).pos+s.core.chunkSize}).core.csid = s.core.csid from rfl,
          if_neg same] at after
  · rw [Nat.sub_sub]
    refine leave_waiting fits value (ready.owns.bound _ a (owns_member ready.owns ready.found)) ?_ rfl rfl ?_
      fun _ => ready.steady
    · change f.bytes.drop (f.pos+f.core.chunkSize) = _
      rw [ready.bytes,ready.pos,ready.core]
    · change (f.bytes.drop (f.pos+f.core.chunkSize)).length ≤ capacity s.core.chunkSize
      rw [length_drop]
      omega

end NgxRtmp.Recv
