import NgxRtmp.OutQueue

namespace NgxRtmp.OutQueue
open RingIndex List

section Invariant
variable {μ : Type} [Outgoing μ] {o : Output μ}

-- What the socket has: everything up to `done`, plus the part of the front message sent.
def Wire (o : Output μ) (done : List μ) : Prop :=
  match o.outChain with
  | [] => o.handed = wireBytes done
  | buf::next => o.outBpos ≤ buf.length ∧ ∃ entry rest, o.queued = entry::rest ∧
      o.handed ++ (buf.drop o.outBpos ++ next.flatten) = wireBytes done ++ (Outgoing.chain entry.2).bytes

-- An HLS session answers NGX_OK and queues nothing, so its log is not the queue's.
structure Accounts (o : Output μ) (done : List μ) : Prop where
  logged : o.hls = false → o.accepted = done ++ o.queued.map Prod.snd
  silent : o.hls = true → done = [] ∧ o.queued = []
  wire : Wire o done

structure Consistent (o : Output μ) : Prop where
  here : o.outPos < o.outQueue
  room : o.queued.length < o.outQueue
  ahead : o.outLast = (o.outPos+o.queued.length) % o.outQueue
  slots : ∀ i entry, o.queued[i]? = some entry → entry.1 = (o.outPos+i) % o.outQueue ∧ o.out entry.1 = some entry.2
  account : ∃ done, Accounts o done

theorem initial_consistent (positive : 0 < size) : Consistent (initial hls size cork buffer : Output μ) :=
  ⟨positive,positive,by simp [initial],by simp [initial],[],by simp [initial],by simp [initial],rfl⟩

section

variable (valid : Consistent o)
include valid

theorem Consistent.front (found : o.queued = entry::rest) : entry.1 = o.outPos ∧ o.out o.outPos = some entry.2 := by
  have first := valid.slots 0 entry (by simp [found])
  rw [add_zero,Nat.mod_eq_of_lt valid.here] at first
  exact ⟨first.1,first.1 ▸ first.2⟩

theorem Consistent.empty_iff : o.outPos = o.outLast ↔ o.queued = [] := by
  have bound := valid.room
  constructor
  · intro same
    have zero := index_injective (i:=0) (j:=o.queued.length) valid.here (by omega) bound
      (by rw [← valid.ahead,add_zero,Nat.mod_eq_of_lt valid.here,same])
    exact eq_nil_of_length_eq_zero zero.symm
  · intro none
    rw [valid.ahead,none]
    exact (Nat.mod_eq_of_lt valid.here).symm

theorem load_consistent (idle : o.outChain = []) (waiting : o.outPos ≠ o.outLast) : Consistent (load o) := by
  obtain ⟨done,logged,silent,wire⟩ := valid.account
  cases found : o.queued with
  | nil => exact absurd (valid.empty_iff.mpr found) waiting
  | cons entry rest =>
    have front := (valid.front found).2
    refine ⟨valid.here,valid.room,valid.ahead,valid.slots,done,logged,silent,?_⟩
    have handed : o.handed = wireBytes done := by simpa [Wire,idle] using wire
    simp only [Wire,load,front,Option.map_some,Option.getD_some,Chain.bufs]
    refine ⟨Nat.zero_le _,entry,rest,found,?_⟩
    simp [handed,Chain.bytes,Chain.bufs]

theorem eraseP_front (found : o.queued = entry::rest) : o.queued.eraseP (fun e => e.1 == o.outPos) = rest := by
  rw [found,eraseP_cons_of_pos (by simp [(valid.front found).1])]

-- Every later message keeps its slot, one step closer to out_pos.
theorem release_consistent (found : o.queued = entry::rest)
    (logged : o.hls = false → o.accepted = done ++ o.queued.map Prod.snd) (silent : o.hls = true → o.queued = [])
    (spent : o.handed = wireBytes done ++ (Outgoing.chain entry.2).bytes) : Consistent (release o) := by
  have count : o.queued.length = rest.length+1 := by rw [found]; rfl
  have bound := valid.room
  have served : o.hls = false := by
    cases kind : o.hls with
    | false => rfl
    | true => rw [silent kind] at found; cases found
  have freed : Consistent {o with
      outPos:=(o.outPos+1) % o.outQueue,outChain:=[],
      queued:=o.queued.eraseP fun e => e.1 == o.outPos} := by
    rw [eraseP_front valid found]
    refine ⟨Nat.mod_lt _ (by omega),by simp only; omega,?_,?_,done ++ [entry.2],?_,?_,?_⟩
    · simp only [valid.ahead,count,Nat.mod_add_mod]
      rw [show o.outPos+(rest.length+1) = o.outPos+1+rest.length by omega]
    · intro i later present
      have earlier := valid.slots (i+1) later (by simpa [found] using present)
      refine ⟨?_,earlier.2⟩
      rw [earlier.1]
      simp only [Nat.mod_add_mod]
      rw [show o.outPos+(i+1) = o.outPos+1+i by omega]
    · intro _
      simp [logged served,found]
    · intro kind
      rw [served] at kind; cases kind
    · simp [Wire,spent,wireBytes]
  unfold release
  dsimp only
  split
  · exact freed
  · rename_i more
    exact load_consistent freed rfl more

theorem advance_consistent {next : List (List UInt8)} (sending : o.outChain = buf::next)
    (progress : n ≤ buf.length-o.outBpos) : Consistent (advance o buf next n) := by
  obtain ⟨done,logged,silent,wire⟩ := valid.account
  simp only [Wire,sending] at wire
  obtain ⟨inside,entry,rest,found,equal⟩ := wire
  -- the bytes just handed over are cut off the front of what remained
  have moved : (o.handed ++ (buf.drop o.outBpos).take n) ++ (buf.drop (o.outBpos+n) ++ next.flatten) =
      wireBytes done ++ (Outgoing.chain entry.2).bytes := by
    rw [← equal,← drop_drop,append_assoc,← append_assoc (List.take n _),take_append_drop]
  have kept : Consistent {o with handed:=o.handed ++ (buf.drop o.outBpos).take n,outBpos:=o.outBpos+n} := by
    refine ⟨valid.here,valid.room,valid.ahead,valid.slots,done,logged,silent,?_⟩
    simp only [Wire,sending]
    exact ⟨by omega,entry,rest,found,moved⟩
  unfold advance
  dsimp only
  split
  · rename_i finished
    rw [finished,drop_length,nil_append] at moved
    cases next with
    | nil => exact release_consistent kept found logged (fun kind => (silent kind).2) (by simpa using moved)
    | cons buf' next' =>
      refine ⟨valid.here,valid.room,valid.ahead,valid.slots,done,logged,silent,?_⟩
      exact ⟨Nat.zero_le _,entry,rest,found,by simpa using moved⟩
  · exact kept

end

theorem sendLoop_consistent (valid : Consistent o) : Consistent (sendLoop o socket) := by
  have flags : ∀ (o : Output μ) (active destroyed : Bool), Consistent o → Consistent {o with active,destroyed} :=
    fun _ _ _ old => ⟨old.here,old.room,old.ahead,old.slots,
      old.account.imp fun _ a => ⟨a.logged,a.silent,a.wire⟩⟩
  induction socket generalizing o with
  | nil => unfold sendLoop; split <;> exact flags _ _ _ valid
  | cons result rest ih =>
    unfold sendLoop
    split
    · exact flags _ _ _ valid
    · rename_i buf next sending
      cases result with
      | blocked => exact flags _ _ _ valid
      | unhandled => exact flags _ _ _ valid
      | failed => exact flags _ _ _ valid
      | sent n =>
        dsimp only
        split
        · exact flags _ _ _ valid
        · exact ih (advance_consistent valid sending (Nat.min_le_right _ _))

theorem send_consistent (valid : Consistent o) : Consistent (send o timedout socket) := by
  unfold send
  split
  · exact valid
  · split
    · exact ⟨valid.here,valid.room,valid.ahead,valid.slots,valid.account.imp fun _ a => ⟨a.logged,a.silent,a.wire⟩⟩
    · split
      · rename_i waiting
        exact sendLoop_consistent (load_consistent valid waiting.1 waiting.2)
      · exact sendLoop_consistent valid

theorem nmsg_exact (divides : o.outQueue ∣ sizeMod) (valid : Consistent o) : nmsg o = o.queued.length+1 := by
  have fits : o.outQueue ≤ sizeMod := Nat.le_of_dvd (by decide) divides
  rw [nmsg,distance_exact divides valid.here fits valid.room valid.ahead]

theorem room_left (divides : o.outQueue ∣ sizeMod) (proper : o.outQueue < sizeMod) (valid : Consistent o)
    (taken : full o priority = false) : o.queued.length+1 < o.outQueue := by
  have count := nmsg_exact divides valid
  have small : o.outQueue ≤ 2^63 := by
    obtain ⟨turns,whole⟩ := divides
    have several : 2 ≤ turns := by
      by_contra few
      have cases : turns = 0 ∨ turns = 1 := by omega
      rcases cases with rfl | rfl
      · simp [sizeMod] at whole
      · rw [mul_one] at whole; omega
    have := Nat.mul_le_mul_left o.outQueue several
    simp only [sizeMod] at whole
    omega
  have reserve : min priority 3*o.outQueue % sizeMod/4 < 2^62 := by
    have := Nat.mod_lt (min priority 3*o.outQueue) (show 0 < sizeMod by decide)
    simp only [sizeMod] at this ⊢
    omega
  have unwrapped : (nmsg o+min priority 3*o.outQueue % sizeMod/4) % sizeMod =
      nmsg o+min priority 3*o.outQueue % sizeMod/4 := by
    apply Nat.mod_eq_of_lt
    have bound := valid.room
    simp only [sizeMod] at reserve ⊢
    omega
  simp only [full,decide_eq_false_iff_not,not_le,unwrapped] at taken
  omega

theorem last_unused (valid : Consistent o) : ∀ entry ∈ o.queued, entry.1 ≠ o.outLast := by
  intro entry member same
  obtain ⟨i,bound,rfl⟩ := getElem_of_mem member
  have slot := (valid.slots i _ (getElem?_eq_getElem bound)).1
  rw [same,valid.ahead] at slot
  have equal := index_injective valid.here valid.room (lt_trans bound valid.room) slot
  omega

theorem store_consistent (message : μ) (valid : Consistent o) (served : o.hls = false)
    (free : o.queued.length+1 < o.outQueue) : Consistent (store o message) := by
  obtain ⟨done,logged,silent,wire⟩ := valid.account
  refine ⟨valid.here,by simpa [store] using free,?_,?_,done,?_,?_,?_⟩
  · simp only [store,length_append,length_singleton,valid.ahead,Nat.mod_add_mod,add_assoc]
  · intro i entry present
    rcases Nat.lt_or_ge i o.queued.length with old | new
    · have known := valid.slots i entry (by simpa [store,getElem?_append_left old] using present)
      have kept := last_unused valid entry (mem_of_getElem? (by simpa [store,getElem?_append_left old] using present))
      exact ⟨known.1,by simpa [store,Function.update_of_ne kept] using known.2⟩
    · have here : i = o.queued.length := by
        have := (List.getElem?_eq_some_iff.mp present).1
        simp only [store,length_append,length_singleton] at this
        omega
      subst here
      have same : entry = (o.outLast,message) := by simpa [store] using present.symm
      subst same
      exact ⟨valid.ahead,by simp [store]⟩
  · intro _
    simp [store,logged served]
  · intro kind
    rw [show o.hls = true from kind] at served; cases served
  · unfold Wire at wire ⊢
    simp only [store]
    split at wire
    · exact wire
    · obtain ⟨inside,entry,rest,found,equal⟩ := wire
      exact ⟨inside,entry,rest ++ [(o.outLast,message)],by simp [found],equal⟩

theorem sendMessage_consistent (divides : o.outQueue ∣ sizeMod) (proper : o.outQueue < sizeMod)
    (valid : Consistent o) : Consistent (sendMessage o message priority socket).2 := by
  unfold sendMessage
  split
  · rename_i kind
    obtain ⟨done,_,silent,wire⟩ := valid.account
    exact ⟨valid.here,valid.room,valid.ahead,valid.slots,done,fun other => by simp [kind] at other,silent,wire⟩
  · rename_i kind
    have served : o.hls = false := by simpa using kind
    split
    · exact valid
    · rename_i taken
      have stored := store_consistent message valid served
        (room_left divides proper valid (by simpa using taken))
      split
      · exact stored
      · split
        · exact stored
        · exact send_consistent stored

theorem step_outQueue (event : Event μ) : (step o event).outQueue = o.outQueue := by
  cases event with
  | writable timedout socket => exact (send_frame o timedout socket).outQueue
  | message message priority socket =>
    rcases sendMessage_cases o message priority socket with ⟨next,sent,_,_,same,_⟩ | ⟨refused,_,_⟩
    · simp only [step,sent,same]
    · simp only [step,refused]

theorem step_consistent (divides : o.outQueue ∣ sizeMod) (proper : o.outQueue < sizeMod)
    (valid : Consistent o) : Consistent (step o event) := by
  cases event with
  | writable timedout socket => exact send_consistent valid
  | message message priority socket => exact sendMessage_consistent divides proper valid

theorem run_consistent (events : List (Event μ)) (divides : o.outQueue ∣ sizeMod) (proper : o.outQueue < sizeMod)
    (valid : Consistent o) : Consistent (run o events) ∧ (run o events).outQueue = o.outQueue := by
  induction events generalizing o with
  | nil => exact ⟨valid,rfl⟩
  | cons event rest ih =>
    have same := step_outQueue (o:=o) event
    obtain ⟨later,kept⟩ := ih (same ▸ divides) (same ▸ proper) (step_consistent divides proper valid)
    exact ⟨later,kept.trans same⟩

theorem Consistent.handed_prefix (valid : Consistent o) : o.handed <+: wireBytes o.accepted := by
  obtain ⟨done,logged,silent,wire⟩ := valid.account
  have whole : o.handed <+: wireBytes (done ++ o.queued.map Prod.snd) := by
    unfold Wire at wire
    split at wire
    · exact ⟨wireBytes (o.queued.map Prod.snd),by simp [wire,wireBytes]⟩
    · rename_i buf next sending
      obtain ⟨_,entry,rest,found,equal⟩ := wire
      refine ⟨(buf.drop o.outBpos ++ next.flatten) ++ wireBytes (rest.map Prod.snd),?_⟩
      rw [← append_assoc,equal,found]
      simp [wireBytes]
  cases kind : o.hls with
  | false => rwa [logged kind]
  | true =>
    obtain ⟨rfl,none⟩ := silent kind
    have nothing : o.handed = [] := by simpa [none,wireBytes] using whole
    exact nothing ▸ nil_prefix

end Invariant

-- Each unfinished message is still in its slot, the next one takes another, the drop decision counts
-- right, and the socket sees a prefix.
def QueueSafe (size : Nat) : Prop :=
  ∀ hls cork buffer (events : List (Event Chain)),
    let o := run (initial hls size cork buffer) events
    (∀ entry ∈ o.queued, o.out entry.1 = some entry.2) ∧
    (∀ message priority socket, o.hls = false → (sendMessage o message priority socket).1 = .ok →
      ∀ entry ∈ o.queued, entry.1 ≠ o.outLast) ∧
    nmsg o = o.queued.length+1 ∧
    o.handed <+: wireBytes o.accepted

theorem divides_safe (positive : 0 < size) (divides : size ∣ sizeMod) (proper : size < sizeMod) : QueueSafe size := by
  intro hls cork buffer events o
  obtain ⟨valid,same⟩ := run_consistent events (o:=initial hls size cork buffer) divides proper
    (initial_consistent positive)
  refine ⟨?_,fun _ _ _ _ _ => last_unused valid,nmsg_exact (same.symm ▸ divides) valid,valid.handed_prefix⟩
  intro entry member
  obtain ⟨i,bound,rfl⟩ := getElem_of_mem member
  exact (valid.slots i _ (getElem?_eq_getElem bound)).2

structure Resting (size k : Nat) (o : Output Chain) : Prop where
  served : o.hls = false
  sized : o.outQueue = size
  pos : o.outPos = k
  last : o.outLast = k
  empty : o.queued = []
  idle : o.outChain = []
  quiet : o.active = false
  alive : o.destroyed = false

def drained : Event Chain := .message ⟨[0],[]⟩ 0 [.sent 1]
def stuck : Event Chain := .message ⟨[0],[]⟩ 0 [.blocked]

theorem Resting.not_full (rest : Resting size k o) (more : 2 ≤ size) : full o 0 = false := by
  have one : nmsg o = 1 := by
    simp [nmsg,distance,rest.pos,rest.last,rest.sized]
  simp only [full,one,rest.sized,decide_eq_false_iff_not,not_le]
  simp [sizeMod]
  omega

theorem Resting.drain (rest : Resting size k o) (more : k+1 < size) : Resting size (k+1) (step o drained) := by
  have taken := rest.not_full (by omega)
  have moved : (k+1) % size = k+1 := Nat.mod_eq_of_lt more
  obtain ⟨served,sized,pos,last,empty,idle,quiet,alive⟩ := rest
  constructor <;>
    simp [step,drained,sendMessage,served,taken,quiet,send,store,alive,idle,pos,last,sized,moved,load,
      Outgoing.chain,Chain.bufs,sendLoop,advance,release,empty]

theorem resting_after (more : k < size) : Resting size k (run (initial false size 0 false) (List.replicate k drained)) := by
  induction k with
  | zero => exact ⟨rfl,rfl,rfl,rfl,rfl,rfl,rfl,rfl⟩
  | succ k ih =>
    have before := ih (by omega)
    rw [replicate_succ',run,foldl_append]
    exact before.drain (by omega)

theorem Resting.stuck_count (rest : Resting size (size-1) o) (more : 2 ≤ size) (fits : size ≤ sizeMod)
    (counted : nmsg (step o stuck) = (step o stuck).queued.length+1) : size ∣ sizeMod := by
  have taken := rest.not_full more
  obtain ⟨served,sized,pos,last,empty,idle,quiet,alive⟩ := rest
  have wrapped : (size-1+1) % size = 0 := by rw [Nat.sub_add_cancel (by omega),Nat.mod_self]
  have apart : size-1 ≠ 0 := by omega
  simp [step,stuck,sendMessage,served,taken,quiet,send,store,alive,idle,pos,last,sized,wrapped,apart,load,
    Outgoing.chain,Chain.bufs,sendLoop,empty,nmsg] at counted
  exact (distance_one more fits).mp counted

theorem safe_divides (more : 2 ≤ size) (proper : size < sizeMod) (safe : QueueSafe size) : size ∣ sizeMod := by
  have fits : size ≤ sizeMod := le_of_lt proper
  have rest : Resting size (size-1) _ := resting_after (by omega)
  have counted := (safe false 0 false (List.replicate (size-1) drained ++ [stuck])).2.2.1
  simp only [run,foldl_append,foldl_cons,foldl_nil] at counted
  exact rest.stuck_count more fits counted

-- Only powers of two divide the wrapped subtraction.
theorem queue_safe_iff_power (more : 2 ≤ size) (proper : size < sizeMod) : QueueSafe size ↔ ∃ k, size = 2^k := by
  rw [← powers_divide proper]
  exact ⟨safe_divides more proper,fun divides => divides_safe (by omega) divides proper⟩

theorem queue_safe_default : 2 ≤ 256 ∧ 256 < sizeMod ∧ (QueueSafe 256 ↔ ∃ k, 256 = 2^k) :=
  ⟨by decide,by decide,queue_safe_iff_power (by decide) (by decide)⟩

-- Five slots: one message passes, four wait, and the ring then counts as empty.
theorem five_slots_unsafe : ¬ QueueSafe 5 := by
  intro safe
  have counted := (safe false 0 false [drained,stuck,stuck,stuck,stuck]).2.2.1
  revert counted
  decide

end NgxRtmp.OutQueue
