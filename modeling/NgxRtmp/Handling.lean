import NgxRtmp.Refinement

namespace NgxRtmp.Recv
open ChunkWriter ChunkHeader Cells Function List
open NgxRtmp.Flow (capacity State)

def effectsAll (apply : σ → Effect → σ) (good : σ → Effect → Bool) : σ → List Effect → Bool
  | _,[] => true
  | s,effect::rest => good s effect && effectsAll apply good (apply s effect) rest

def callsAll (apply : σ → Effect → σ) (good : σ → Effect → Bool) (history : List Delivery) (d : Delivery) : List Handler → σ → Bool
  | [],_ => true
  | handler::rest,s =>
    let (code,effects) := handler history d
    effectsAll apply good s effects && (code ≠ .ok || callsAll apply good history d rest (effects.foldl apply s))

theorem effectsAll_mono {good : σ → Effect → Bool} (weaker : ∀ s effect, good s effect = true → weak s effect = true)
    (effects : List Effect) (s : σ) (all : effectsAll apply good s effects = true) : effectsAll apply weak s effects = true := by
  induction effects generalizing s with
  | nil => rfl
  | cons effect rest ih =>
    simp only [effectsAll,Bool.and_eq_true] at all ⊢
    exact ⟨weaker s effect all.1,ih _ all.2⟩

theorem callsAll_mono {good : σ → Effect → Bool} (weaker : ∀ s effect, good s effect = true → weak s effect = true)
    (handlers : List Handler) (s : σ) (all : callsAll apply good history d handlers s = true) :
    callsAll apply weak history d handlers s = true := by
  induction handlers generalizing s with
  | nil => rfl
  | cons handler rest ih =>
    simp only [callsAll,Bool.and_eq_true,Bool.or_eq_true] at all ⊢
    exact ⟨effectsAll_mono weaker _ _ all.1,all.2.imp id (ih _)⟩

section Related
variable {R : σ → τ → Prop} {good : τ → Effect → Bool} {applyLeft : σ → Effect → σ} {applyRight : τ → Effect → τ}

theorem effects_related (step : ∀ s t effect, R s t → good t effect = true → R (applyLeft s effect) (applyRight t effect)) (related : R s t) (all : effectsAll applyRight good t effects = true) :
    R (effects.foldl applyLeft s) (effects.foldl applyRight t) := by
  induction effects generalizing s t with
  | nil => exact related
  | cons effect rest ih =>
    simp only [effectsAll,Bool.and_eq_true] at all
    exact ih (step s t effect related all.1) all.2

theorem callHandlers_related (step : ∀ s t effect, R s t → good t effect = true → R (applyLeft s effect) (applyRight t effect)) (related : R s t) (all : callsAll applyRight good history d handlers t = true) :
    R (callHandlers applyLeft history d handlers s).1 (callHandlers applyRight history d handlers t).1 ∧
      (callHandlers applyLeft history d handlers s).2 = (callHandlers applyRight history d handlers t).2 := by
  induction handlers generalizing s t with
  | nil => exact ⟨related,rfl⟩
  | cons handler rest ih =>
    simp only [callsAll,Bool.and_eq_true,Bool.or_eq_true] at all
    have after := effects_related step related all.1
    simp only [callHandlers]
    rcases result : handler history d with ⟨code,effects⟩
    simp only [result] at after all
    cases code with
    | error =>
      exact ⟨after,rfl⟩
    | done =>
      exact ⟨after,rfl⟩
    | ok => exact ih after (by simpa using all.2)

theorem callHandlers_invariant {P : τ → Prop}
    (step : ∀ t effect, P t → good t effect = true → P (applyRight t effect)) (start : P t)
    (all : callsAll applyRight good history d handlers t = true) : P (callHandlers applyRight history d handlers t).1 := by
  have kept : ∀ s t effect, (s = t ∧ P t) → good t effect = true → (applyRight s effect = applyRight t effect ∧ P (applyRight t effect)) := by
    rintro s t effect ⟨rfl,now⟩ allowed
    exact ⟨rfl,step s effect now allowed⟩
  exact (callHandlers_related kept ⟨rfl,start⟩ all).1.2

end Related

-- The bytes behind the message fit into a buffer of the new size, and the streams stay.
def mild (left : Nat) (f : State) : Effect → Bool
  | .chunkSize size => left ≤ capacity size
  | .server conf => conf.maxStreams = f.core.cscf.maxStreams
  | _ => true

def messageAll (good : State → Effect → Bool) (events : Events) (f : State) : Bool :=
  callsAll State.applyEffect good (Flow.taken f).core.trace (Flow.delivery f) (handlersOf events (Flow.delivery f))
    {Flow.taken f with core:=(Flow.taken f).core.log (Flow.delivery f)}

def mildMessage (events : Events) (f : State) : Bool := messageAll (mild (f.bytes.length-(f.pos+f.core.chan.fsize))) events f

-- While the handlers run. `xs` are the buffers of the message, as they were in
-- the heap `h`.
structure Serves (h : Heap Buf) (xs : List Nat) (a csid size left limit : Nat) (s : Session) (f : State) : Prop where
  core : f.core = s.core
  current : s.core.csid = csid
  streams : limit ≤ s.core.cscf.maxStreams
  room : left ≤ capacity s.core.chunkSize
  serving : ∃ now, Serving s now csid ∧ (∀ n, n ≠ 0 → n ≠ csid → chunksOf s.heap (now n) = f.chunks n) ∧
    ∀ m, ∀ x ∈ now m, x ∉ xs
  loose : ∀ x ∈ xs, x < s.heap.top ∧ s.heap.cell x = h.cell x
  kept : s.core.changing = false → s.links csid = some a ∧ s.core.chunkSize = size
  given : s.core.changing = true → s.links csid = none ∧ f.chunks csid = []

theorem Serves.setCore (serves : Serves h xs a csid size left limit s f) (core : Core) (current : core.csid = s.core.csid)
    (chunkSize : core.chunkSize = s.core.chunkSize) (changing : core.changing = s.core.changing)
    (streams : core.cscf.maxStreams = s.core.cscf.maxStreams) :
    Serves h xs a csid size left limit {s with core} {f with core} := by
  obtain ⟨_,csid,limit,room,⟨now,⟨owns,opened,beyond,known,ring⟩,chunks,apart⟩,loose,kept,given⟩ := serves
  refine ⟨rfl,current.trans csid,?_,?_,⟨now,⟨?_,opened,?_,?_,ring⟩,chunks,apart⟩,loose,?_,?_⟩
  · simpa only [streams] using limit
  · simpa only [chunkSize] using room
  · simpa only [chunkSize] using owns
  · simpa only [streams] using beyond
  · simpa only [streams] using known
  · simpa only [changing,chunkSize] using kept
  · simpa only [changing] using given

theorem Serves.shows (serves : Serves h xs a csid size left limit s f) :
    Shows s.finalize ({f with chunks:=update f.chunks csid [],pos:=0} : State).finalize := by
  obtain ⟨_,_,_,_,⟨now,⟨owns,opened,_,_,_⟩,chunks,_⟩,_,_,_⟩ := serves
  intro n ring begun empty
  have none : update f.chunks csid [] n = [] := empty
  unfold partly at begun
  split at begun
  · cases begun
  · rename_i a found
    by_cases current : n = csid
    · subst current
      have cut : s.finalize.heap.next a = .none := (opened a found).1
      simp [cut] at begun
    · have cells := owns_last owns ring ((update_of_ne current _ _).trans found)
      rw [update_of_ne current,←chunks n ring current] at none
      rw [map_eq_nil_iff.mp none] at cells
      cases cells

theorem Serves.setChunkSize (serves : Serves h xs a csid size left limit s f) (value : Nat) (fits : left ≤ capacity value) :
    Serves h xs a csid size left limit (setChunkSize s value) (f.setChunkSize value) := by
  obtain ⟨core,current,limit,_,⟨now,serving,chunks,apart⟩,loose,_,_⟩ := serves
  obtain ⟨next,after,closed,result,packed,fresh,grown,frame⟩ := setChunkSize_packs serving
  have known := serving.known
  have positive : csid ≠ 0 := serving.ring
  have beyond := serving.beyond
  refine ⟨?_,?_,?_,?_,⟨next,after,?_,?_⟩,?_,?_,?_⟩
  · rw [result]
    unfold State.setChunkSize
    rw [core]
  · rw [result]
    exact current
  · rw [result]
    exact limit
  · rw [result]
    exact fits
  · intro n ring other
    rw [packed n ring,chunks n ring other]
    change _ = if 1 ≤ n ∧ n < f.core.cscf.maxStreams then if n = f.core.csid then [] else _ else f.chunks n
    rw [core,current]
    by_cases below : n < s.core.cscf.maxStreams
    · rw [if_pos ⟨by omega,below⟩,if_neg other]
    · rw [if_neg (by omega),←chunks n ring other,beyond n ring (by omega)]
      rfl
  · intro m x member also
    have old := (loose x also).1
    have new := fresh m x member
    omega
  · intro x member
    obtain ⟨below,cell⟩ := loose x member
    refine ⟨lt_of_lt_of_le below grown,(frame x below fun m owned => ?_).trans cell⟩
    exact apart m x owned member
  · rw [result]
    intro steady
    cases steady
  · intro _
    refine ⟨closed,?_⟩
    change (if 1 ≤ csid ∧ csid < f.core.cscf.maxStreams then if csid = f.core.csid then [] else _ else f.chunks csid) = []
    rw [core,current,if_pos ⟨by omega,known⟩,if_pos rfl]

theorem applyEffect_serves (effect : Effect) (serves : Serves h xs a csid size left limit s f)
    (allowed : mild left f effect = true) :
    Serves h xs a csid size left limit (applyEffect s effect) (f.applyEffect effect) := by
  have core := serves.core
  cases effect with
  | chunkSize value => exact serves.setChunkSize value (of_decide_eq_true allowed)
  | ackSize value =>
    unfold applyEffect State.applyEffect
    rw [core]
    exact serves.setCore _ rfl rfl rfl rfl
  | server conf =>
    have streams : conf.maxStreams = f.core.cscf.maxStreams := of_decide_eq_true allowed
    unfold applyEffect State.applyEffect
    rw [core] at streams ⊢
    exact serves.setCore _ rfl rfl rfl streams
  | finalize =>
    unfold applyEffect State.applyEffect Session.finalize State.finalize
    rw [core]
    exact serves.setCore _ rfl rfl rfl rfl

inductive TurnAs (conf : SrvConf) : Turn → Flow.Turn → Prop
  | next (resting : Resting s own f) (waiting : Waiting s f oldPos oldSize kept) (streams : conf.maxStreams ≤ s.core.cscf.maxStreams) :
      TurnAs conf (.next s ⟨conf,oldPos,oldSize⟩ socket) (.next f kept socket)
  | again (resting : Resting s own f) (waiting : Waiting s f none 0 false) : TurnAs conf (.stop s socket) (.stop f socket)
  | dead (core : f.core = s.core) (destroyed : s.core.destroyed = true) (shows : Shows s f) :
      TurnAs conf (.stop s socket) (.stop f socket)

def handing (s : Session) (a : Nat) : Session :=
  {s with
    heap:=(s.heap.setNext a none).setVal a {s.buf a with last:=(s.buf a).pos+s.core.chan.fsize},
    core:=s.core.setChan {s.core.chan with
      len:=0,hdr:={s.core.chan.hdr with timestamp:=s.core.chan.hdr.timestamp+s.core.chan.dtime}}}

section Handle
variable {s : Session} {own : Nat → List Nat} {a : Nat} {f : State}

theorem handing_owns (ready : Ready s own a f) (ring : s.core.csid ≠ 0) (enough : f.core.chan.fsize ≤ f.bytes.length-f.pos) :
    Owns (fun _ => Fits (capacity s.core.chunkSize)) (handing s a).heap (update s.links s.core.csid none)
        (update own s.core.csid []) ∧
      Loose (Fits (capacity s.core.chunkSize)) (handing s a).heap (update own s.core.csid [])
        (s.heap.next a) a (own s.core.csid) := by
  obtain ⟨fits,last,pos,_⟩ := ready.offsets
  obtain ⟨owns,list,ends,distinct,apart,bound,sound⟩ := owns_cut ready.owns ring ready.found
  have inside : (s.buf a).pos+s.core.chan.fsize ≤ (s.buf a).last := by
    rw [ready.core] at enough
    rw [ready.pos,last]
    omega
  obtain ⟨clipped,_⟩ := clip_contents fits inside
  have mine : a ∈ own s.core.csid := owns_member ready.owns ready.found
  refine ⟨owns_setVal owns fun n member => absurd mine (apart n a member),seg_setVal list,ends,distinct,apart,bound,?_⟩
  intro x member
  change Fits _ (((s.heap.setNext a none).setVal a _).val x)
  rw [setVal_val]
  split
  · exact clipped
  · exact sound x member

theorem handing_chain (ready : Ready s own a f) (ring : s.core.csid ≠ 0) (enough : f.core.chan.fsize ≤ f.bytes.length-f.pos) :
    ((handing s a).heap.follow ((handing s a).heap.top+1) (s.heap.next a)).map (fun x => ((handing s a).buf x).contents) =
      (Flow.delivery f).chunks := by
  obtain ⟨_,loose⟩ := handing_owns ready ring enough
  obtain ⟨_,_,pos,_⟩ := ready.offsets
  have short : (own s.core.csid).length < (handing s a).heap.top+1 := by
    have within := (loose.distinct.subperm fun x member => mem_range.mpr (loose.bound x member)).length_le
    rw [length_range] at within
    omega
  rw [follow_seg loose.list short]
  have chunks := clip_chunks ready ring (show f.pos+f.core.chan.fsize ≤ f.bytes.length by omega)
  unfold Flow.delivery
  rw [ready.core] at chunks ⊢
  rw [←chunks]
  refine map_congr_left fun x _ => ?_
  change (((s.heap.setNext a none).setVal a _).val x).contents = _
  rw [setVal_val,setVal_val,setNext_val]

theorem handing_serves (ready : Ready s own a f) (ring : s.core.csid ≠ 0) (enough : f.core.chan.fsize ≤ f.bytes.length-f.pos)
    (streams : limit ≤ s.core.cscf.maxStreams) (d : Delivery) :
    Serves (handing s a).heap (own s.core.csid) a s.core.csid s.core.chunkSize (f.bytes.length-(f.pos+f.core.chan.fsize)) limit
      {handing s a with core:=(handing s a).core.log d} {Flow.taken f with core:=(Flow.taken f).core.log d} := by
  obtain ⟨owns,loose⟩ := handing_owns ready ring enough
  obtain ⟨_,_,_,full⟩ := ready.offsets
  have mine : a ∈ own s.core.csid := owns_member ready.owns ready.found
  have known : s.core.csid < s.core.cscf.maxStreams := by
    refine Nat.lt_of_not_le fun above => ?_
    rw [ready.beyond _ ring above] at mine
    cases mine
  have core : (Flow.taken f).core = (handing s a).core := by
    unfold Flow.taken Flow.delivery
    rw [ready.core]
    rfl
  refine ⟨congrArg (Core.log · d) core,rfl,streams,?_,⟨update own s.core.csid [],⟨owns,?_,?_,known,ring⟩,?_,loose.apart⟩,
    fun x member => ⟨loose.bound x member,rfl⟩,fun _ => ⟨ready.found,rfl⟩,?_⟩
  · exact le_trans (Nat.sub_le _ _) full
  · intro b found
    cases ready.found.symm.trans found
    refine ⟨?_,loose.bound a mine,fun m member => loose.apart m a member mine⟩
    change ((s.heap.setNext a none).setVal a _).next a = none
    rw [setVal_next,setNext_next,if_pos rfl]
  · intro n positive above
    by_cases same : n = s.core.csid
    · rw [same,update_self]
    · rw [update_of_ne same]
      exact ready.beyond n positive above
  · intro n positive other
    have before := ready.chunks n positive
    rw [if_neg other] at before
    rw [update_of_ne other]
    refine (chunksOf_frame fun x member => ?_).trans before
    change ((s.heap.setNext a none).setVal a _).val x = _
    rw [setVal_val,setNext_val,if_neg]
    rintro rfl
    exact other (ready.owns.apart n _ x member mine)
  · intro changing
    exact absurd (changing.symm.trans ready.steady) (by decide)

theorem Serves.restore (serves : Serves h xs a csid size left limit s f) (steady : s.core.changing = false)
    (loose : Loose (Fits (capacity size)) h own first a xs) (bytes : List UInt8) (pos : Nat) :
    ∃ now, Resting ⟨{s.core with csid:=0},s.heap.setNext a (s.links 0),update (update s.links 0 first) csid none⟩ now
      ⟨{f.core with csid:=0},update f.chunks csid [],bytes,pos⟩ := by
  obtain ⟨core,_,_,_,⟨now,serving,chunks,apart⟩,cells,kept,_⟩ := serves
  obtain ⟨owns,_,beyond,_,ring⟩ := serving
  obtain ⟨_,same⟩ := kept steady
  have list : Loose (Fits (capacity s.core.chunkSize)) s.heap now first a xs := by
    refine ⟨seg_frame (fun x member => congrArg Cell.next (cells x member).2) loose.list,loose.ends,loose.distinct,apart,
      fun x member => (cells x member).1,fun x member => ?_⟩
    have value : s.heap.val x = h.val x := congrArg Cell.val (cells x member).2
    rw [value,same]
    exact loose.sound x member
  have returned := owns_return owns list
  rw [update_of_ne ring.symm,update_comm ring] at returned
  have unheld : now csid = [] := owns_unheld owns (update_self _ _ _)
  refine ⟨update now 0 (xs ++ now 0),congrArg (fun c => {c with csid:=0}) core,returned,?_,?_⟩
  · intro n positive above
    rw [update_of_ne positive]
    exact beyond n positive above
  · intro n positive
    change chunksOf (s.heap.setNext a (s.links 0)) (if n = 0 then _ else _) = update f.chunks csid [] n
    rw [if_neg positive,update_of_ne positive]
    by_cases mine : n = csid
    · subst mine
      rw [unheld,update_self]
      rfl
    · rw [update_of_ne mine,←chunks n positive mine]
      exact chunksOf_frame fun x _ => setNext_val

theorem Serves.abandon (serves : Serves h xs a csid size left limit s f) (changing : s.core.changing = true)
    (flag : Bool) (bytes : List UInt8) (pos : Nat) :
    ∃ now, Resting {s with core:={s.core with csid:=0,changing:=flag}} now ⟨{f.core with csid:=0,changing:=flag},f.chunks,bytes,pos⟩ := by
  obtain ⟨core,_,_,_,⟨now,serving,chunks,_⟩,_,_,given⟩ := serves
  obtain ⟨owns,_,beyond,_,_⟩ := serving
  obtain ⟨closed,empty⟩ := given changing
  have unheld : now csid = [] := owns_unheld owns (update_self _ _ _)
  have same : update s.links csid none = s.links := by
    rw [←closed]
    exact update_eq_self _ _
  rw [same] at owns
  refine ⟨now,congrArg (fun c => {c with csid:=0,changing:=flag}) core,owns,beyond,fun n positive => ?_⟩
  change chunksOf s.heap (if n = 0 then _ else now n) = f.chunks n
  rw [if_neg positive]
  by_cases mine : n = csid
  · subst mine
    rw [unheld,empty]
    rfl
  · exact chunks n positive mine

theorem settle_refines (serves : Serves h xs a csid size left limit s f) (loose : Loose (Fits (capacity size)) h own first a xs) (fits : Fits cap b) (memory : (h.val a).mem = b.mem) (bytes : rest = (bytesOf b).drop offset)
    (length : rest.length ≤ left) :
    ∃ now, Resting (settle s a csid first (b.last-offset)) now (Flow.settle f csid rest) ∧
      Waiting (settle s a csid first (b.last-offset)) (Flow.settle f csid rest) (some (a,offset)) (b.last-offset) (rest ≠ []) ∧
      limit ≤ (settle s a csid first (b.last-offset)).core.cscf.maxStreams := by
  have mine : a ∈ xs := by
    rw [loose.ends]
    simp
  obtain ⟨below,cell⟩ := serves.loose a mine
  have core := serves.core
  have size : rest.length = b.last-offset := by
    rw [bytes,length_drop,bytesOf_length fits]
  have room : rest.length ≤ capacity s.core.chunkSize := le_trans length serves.room
  have held : (s.heap.val a).mem = b.mem := (congrArg (fun c => c.val.mem) cell).trans memory
  by_cases changing : s.core.changing = true
  · have same : f.core.changing = true := by rw [core]; exact changing
    by_cases none : rest = []
    · obtain ⟨now,resting⟩ := serves.abandon changing false rest 0
      have ended : b.last-offset = 0 := by rw [←size,none]; rfl
      have left : settle s a csid first (b.last-offset) = {s with core:={s.core with csid:=0,changing:=false}} := by
        unfold settle finalizeSetChunkSize
        rw [if_pos changing,if_pos ended,if_pos changing]
      have right : Flow.settle f csid rest = ⟨{f.core with csid:=0,changing:=false},f.chunks,rest,0⟩ := by
        unfold Flow.settle finalizeSetChunkSize
        rw [if_pos same,if_pos none,if_pos same]
      rw [left,right]
      exact ⟨now,resting,leave_waiting fits held below bytes rfl rfl room fun _ => rfl,serves.streams⟩
    · obtain ⟨now,resting⟩ := serves.abandon changing true rest 0
      have ended : b.last-offset ≠ 0 := fun zero => none (eq_nil_of_length_eq_zero (size.trans zero))
      have left : settle s a csid first (b.last-offset) = {s with core:={s.core with csid:=0,changing:=true}} := by
        unfold settle
        rw [if_pos changing,if_neg ended,←changing]
      have right : Flow.settle f csid rest = ⟨{f.core with csid:=0,changing:=true},f.chunks,rest,0⟩ := by
        unfold Flow.settle
        rw [if_pos same,if_neg none,←same]
      rw [left,right]
      exact ⟨now,resting,leave_waiting fits held below bytes rfl rfl room fun empty => absurd empty none,serves.streams⟩
  · have steady : s.core.changing = false := by simpa using changing
    have same : ¬f.core.changing = true := by rw [core]; exact changing
    obtain ⟨now,resting⟩ := serves.restore steady loose rest 0
    have left : settle s a csid first (b.last-offset) =
        ⟨{s.core with csid:=0},s.heap.setNext a (s.links 0),update (update s.links 0 first) csid none⟩ := by
      unfold settle
      rw [if_neg changing]
    have right : Flow.settle f csid rest = ⟨{f.core with csid:=0},update f.chunks csid [],rest,0⟩ := by
      unfold Flow.settle
      rw [if_neg same]
    rw [left,right]
    refine ⟨now,resting,leave_waiting fits ?_ below bytes rfl rfl room fun _ => steady,serves.streams⟩
    change ((s.heap.setNext a (s.links 0)).val a).mem = _
    rw [setNext_val]
    exact held

theorem handle_sent {oldPos : Option (Nat × Nat)} {oldSize : Nat} {socket : List Read} {r : Session × Bool}
    (received : receiveMessage events (handing s a) ⟨{s.core.chan.hdr with timestamp:=s.core.chan.hdr.timestamp+s.core.chan.dtime},
      ((handing s a).heap.follow ((handing s a).heap.top+1) (s.heap.next a)).map fun x => ((handing s a).buf x).contents⟩ = r) :
    handle events s a ⟨conf,oldPos,oldSize⟩ socket =
      bif r.2 then .next (settle r.1 a s.core.csid (s.heap.next a) ((s.buf a).last-(s.buf a).pos-s.core.chan.fsize))
        ⟨conf,some (a,(s.buf a).pos+s.core.chan.fsize),(s.buf a).last-(s.buf a).pos-s.core.chan.fsize⟩ socket
      else .stop r.1.finalize socket := by
  unfold handle
  dsimp only
  split
  · rename_i stopped
    cases stopped.symm.trans received
    rfl
  · rename_i went
    cases went.symm.trans received
    rfl

theorem handle_refines (ready : Ready s own a f) (ring : s.core.csid ≠ 0) (enough : f.core.chan.fsize ≤ f.bytes.length-f.pos)
    (streams : conf.maxStreams ≤ s.core.cscf.maxStreams) (events : Events) (oldPos : Option (Nat × Nat)) (oldSize : Nat)
    (socket : List Read) (allowed : mildMessage events f = true) :
    TurnAs conf (handle events s a ⟨conf,oldPos,oldSize⟩ socket) (Flow.handle events f socket) := by
  obtain ⟨fits,last,pos,_⟩ := ready.offsets
  obtain ⟨_,loose⟩ := handing_owns ready ring enough
  have header : (Flow.delivery f).h = {s.core.chan.hdr with timestamp:=s.core.chan.hdr.timestamp+s.core.chan.dtime} := by
    unfold Flow.delivery
    rw [ready.core]
  have message : (⟨{s.core.chan.hdr with timestamp:=s.core.chan.hdr.timestamp+s.core.chan.dtime},
      ((handing s a).heap.follow ((handing s a).heap.top+1) (s.heap.next a)).map fun x => ((handing s a).buf x).contents⟩ : Delivery) =
      Flow.delivery f := by
    rw [handing_chain ready ring enough,←header]
  have history : (handing s a).core.trace = (Flow.taken f).core.trace := by
    change s.core.trace = f.core.trace
    rw [ready.core]
  obtain ⟨serves,flags⟩ := callHandlers_related (fun s f effect => applyEffect_serves effect) (handing_serves ready ring enough streams (Flow.delivery f)) allowed
  have received : receiveMessage events (handing s a) ⟨{s.core.chan.hdr with timestamp:=s.core.chan.hdr.timestamp+s.core.chan.dtime},
      ((handing s a).heap.follow ((handing s a).heap.top+1) (s.heap.next a)).map fun x => ((handing s a).buf x).contents⟩ =
      callHandlers applyEffect (Flow.taken f).core.trace (Flow.delivery f) (handlersOf events (Flow.delivery f))
        {handing s a with core:=(handing s a).core.log (Flow.delivery f)} := by
    rw [message,←history]
    rfl
  rw [handle_sent received]
  unfold Flow.handle State.receiveMessage
  generalize callHandlers applyEffect (Flow.taken f).core.trace (Flow.delivery f) (handlersOf events (Flow.delivery f))
    {handing s a with core:=(handing s a).core.log (Flow.delivery f)} = left at serves flags ⊢
  generalize callHandlers State.applyEffect (Flow.taken f).core.trace (Flow.delivery f) (handlersOf events (Flow.delivery f))
    {Flow.taken f with core:=(Flow.taken f).core.log (Flow.delivery f)} = right at serves flags ⊢
  obtain ⟨t,sent⟩ := left
  obtain ⟨g,accepted⟩ := right
  obtain rfl : sent = accepted := flags
  cases sent with
  | false =>
    have same : f.core.csid = s.core.csid := congrArg Core.csid ready.core
    change TurnAs conf _ (.stop ({g with chunks:=update g.chunks f.core.csid [],pos:=0} : State).finalize _)
    rw [same]
    exact .dead (congrArg Core.finalize serves.core) rfl serves.shows
  | true =>
    have memory : ((handing s a).heap.val a).mem = (s.buf a).mem := by
      change (((s.heap.setNext a none).setVal a _).val a).mem = _
      rw [setVal_val,if_pos rfl]
    have rest : f.bytes.drop (f.pos+f.core.chan.fsize) = (bytesOf (s.buf a)).drop ((s.buf a).pos+s.core.chan.fsize) := by
      rw [ready.bytes,ready.pos,ready.core]
    obtain ⟨now,resting,waiting,limit⟩ := settle_refines serves loose fits memory rest
      (le_of_eq length_drop)
    rw [←Nat.sub_sub] at resting waiting limit
    have same : f.core.csid = s.core.csid := congrArg Core.csid ready.core
    change TurnAs conf _ (.next (Flow.settle g f.core.csid _) _ _)
    rw [same]
    exact .next resting waiting limit

end Handle

end NgxRtmp.Recv
