import NgxRtmp.OutQueueSafety

namespace NgxRtmp.OutQueue
open RingIndex List

section Slots
variable {μ : Type} {o : Output μ}

def waiting (o : Output μ) : Nat := steps o.outQueue o.outPos o.outLast
def slot (o : Output μ) (i : Nat) : Option μ := o.out ((o.outPos+i) % o.outQueue)
def occupied (o : Output μ) : List μ := (range (waiting o)).filterMap (slot o)

-- A ring that has run full looks empty; while it is being sent its slots still come up.
def holding (o : Output μ) : Nat := if waiting o = 0 ∧ o.outChain ≠ [] then o.outQueue else waiting o
def contents (o : Output μ) : List μ := (range (holding o)).filterMap (slot o)

structure Ring (o : Output μ) : Prop where
  here : o.outPos < o.outQueue
  there : o.outLast < o.outQueue

theorem range_shift : (range (n+1)).filterMap f = (f 0).toList ++ (range n).filterMap fun i => f (i+1) := by
  rw [range_succ_eq_map,filterMap_cons,filterMap_map]
  cases f 0 <;> rfl

theorem Ring.last (ring : Ring o) : (o.outPos+waiting o) % o.outQueue = o.outLast := steps_reach ring.here ring.there

theorem Ring.waiting_lt (ring : Ring o) : waiting o < o.outQueue := steps_lt ring.here

theorem store_slot (ring : Ring o) (message : μ) (fits : i < o.outQueue) :
    slot (store o message) i = if i = waiting o then some message else slot o i := by
  change Function.update o.out o.outLast (some message) ((o.outPos+i) % o.outQueue) = _
  by_cases same : i = waiting o
  · rw [if_pos same,same,ring.last,Function.update_self]
  · rw [if_neg same,Function.update_of_ne]
    · rfl
    · intro reach
      exact same (steps_unique ring.here fits reach).symm

theorem store_slots (ring : Ring o) (message : μ) (fits : n ≤ waiting o) :
    (range n).filterMap (slot (store o message)) = (range n).filterMap (slot o) := by
  refine filterMap_congr fun i member => ?_
  have below : i < n := mem_range.mp member
  rw [store_slot ring message (lt_trans (lt_of_lt_of_le below fits) ring.waiting_lt),if_neg (by omega)]

theorem store_waiting (ring : Ring o) (message : μ) :
    waiting (store o message) = if waiting o+1 = o.outQueue then 0 else waiting o+1 := by
  have below := ring.waiting_lt
  have last : (store o message).outLast = (o.outPos+(waiting o+1)) % o.outQueue := by
    change (o.outLast+1) % o.outQueue = _
    rw [← ring.last,Nat.mod_add_mod,add_assoc]
  split
  · rename_i full
    refine steps_unique ring.here (lt_of_le_of_lt (Nat.zero_le _) ring.here) ?_
    rw [last,full,Nat.add_mod_right,add_zero]
    rfl
  · exact steps_unique ring.here (by change waiting o+1 < o.outQueue; omega) last.symm

theorem store_contents (ring : Ring o) (message : μ) : ∃ gone, (contents o ++ [message]).Perm (contents (store o message) ++ gone) ∧
    (waiting o+1 < o.outQueue → (o.outChain ≠ [] → waiting o ≠ 0) → gone = []) := by
  have next := store_waiting ring message
  have below := ring.waiting_lt
  have chain : (store o message).outChain = o.outChain := rfl
  have size : (store o message).outQueue = o.outQueue := rfl
  by_cases full : waiting o = 0 ∧ o.outChain ≠ []
  · refine ⟨contents o,?_,fun _ live => absurd full.1 (live full.2)⟩
    have only : contents (store o message) = [message] := by
      have one : holding (store o message) = 1 := by
        unfold holding
        rw [next,chain,size,full.1]
        by_cases single : 1 = o.outQueue
        · simp [← single,full.2]
        · simp [single]
      rw [contents,one]
      simp [range_succ,store_slot ring message ring.here.pos,full.1]
    rw [only]
    exact perm_append_comm
  · have held : holding o = waiting o := if_neg full
    by_cases wraps : waiting o+1 = o.outQueue ∧ o.outChain = []
    · refine ⟨contents o ++ [message],?_,fun room => by omega⟩
      have none : contents (store o message) = [] := by
        unfold contents holding
        rw [next,chain]
        simp [wraps.1,wraps.2]
      rw [none]
      exact List.Perm.refl _
    · refine ⟨[],?_,fun _ _ => rfl⟩
      have grown : holding (store o message) = waiting o+1 := by
        unfold holding
        rw [next,chain,size]
        by_cases whole : waiting o+1 = o.outQueue
        · have sending : o.outChain ≠ [] := fun idle => wraps ⟨whole,idle⟩
          simp [whole,sending]
        · simp [whole]
      rw [append_nil,contents,contents,grown,held,range_succ,filterMap_append,store_slots ring message le_rfl]
      simp [store_slot ring message below]

theorem release_frame_slots (o : Output μ) [Outgoing μ] : (release o).outQueue = o.outQueue ∧ (release o).outLast = o.outLast ∧
    (release o).outPos = (o.outPos+1) % o.outQueue ∧ (release o).out = o.out := by
  unfold release
  dsimp only
  split <;> exact ⟨rfl,rfl,rfl,rfl⟩

theorem release_ring [Outgoing μ] (ring : Ring o) : Ring (release o) := by
  obtain ⟨size,last,pos,_⟩ := release_frame_slots o
  refine ⟨?_,?_⟩
  · rw [pos,size]
    exact Nat.mod_lt _ (lt_of_le_of_lt (Nat.zero_le _) ring.here)
  · rw [last,size]
    exact ring.there

theorem release_slot [Outgoing μ] : slot (release o) i = slot o (i+1) := by
  obtain ⟨size,_,pos,out⟩ := release_frame_slots o
  unfold slot
  rw [size,pos,out,Nat.mod_add_mod]
  congr 2
  omega

theorem release_waiting [Outgoing μ] (ring : Ring o) :
    waiting (release o) = if waiting o = 0 then o.outQueue-1 else waiting o-1 := by
  obtain ⟨size,last,pos,_⟩ := release_frame_slots o
  have below := ring.waiting_lt
  have here := ring.here
  have reach := ring.last
  refine steps_unique (release_ring ring).here (by rw [size]; split <;> omega) ?_
  rw [pos,size,last,Nat.mod_add_mod,← reach]
  split
  · rename_i none
    rw [none,show o.outPos+1+(o.outQueue-1) = o.outPos+o.outQueue by omega,Nat.add_mod_right,add_zero]
  · rw [show o.outPos+1+(waiting o-1) = o.outPos+waiting o by omega]

theorem release_holding [Outgoing μ] (ring : Ring o) (sending : o.outChain ≠ []) : holding o = holding (release o)+1 := by
  have next := release_waiting ring
  have here := ring.here
  have idle : waiting (release o) = 0 → (release o).outChain = [] := by
    intro none
    obtain ⟨size,last,pos,_⟩ := release_frame_slots o
    have reach := (release_ring ring).last
    rw [none,add_zero,Nat.mod_eq_of_lt (release_ring ring).here,last,pos] at reach
    unfold release
    dsimp only
    rw [if_pos reach]
  unfold holding
  rw [next] at idle ⊢
  by_cases none : waiting o = 0
  · rw [if_pos none] at idle ⊢
    rw [if_pos ⟨none,sending⟩,if_neg]
    · omega
    · exact fun both => both.2 (idle both.1)
  · rw [if_neg none] at idle ⊢
    rw [if_neg (fun both => none both.1),if_neg]
    · omega
    · exact fun both => both.2 (idle both.1)

theorem release_contents [Outgoing μ] (ring : Ring o) (sending : o.outChain ≠ []) :
    contents o = (o.out o.outPos).toList ++ contents (release o) := by
  unfold contents
  rw [release_holding ring sending,range_shift]
  congr 1
  · rw [slot,add_zero,Nat.mod_eq_of_lt ring.here]
  · exact filterMap_congr fun i _ => release_slot.symm

structure Sends (o next : Output μ) (freed : List μ) : Prop where
  ring : Ring next
  size : next.outQueue = o.outQueue
  moved : contents o = freed ++ contents next

theorem Sends.trans {next : Output μ} (left : Sends o middle first) (right : Sends middle next second) : Sends o next (first ++ second) :=
  ⟨right.ring,right.size.trans left.size,by rw [left.moved,right.moved,append_assoc]⟩

theorem sends_frame {next : Output μ} (ring : Ring o) (pos : next.outPos = o.outPos) (last : next.outLast = o.outLast)
    (size : next.outQueue = o.outQueue) (out : next.out = o.out) (same : next.outChain = [] ↔ o.outChain = []) :
    Sends o next [] := by
  have wait : waiting next = waiting o := by rw [waiting,waiting,pos,last,size]
  have held : holding next = holding o := by simp only [holding,wait,size,ne_eq,same]
  have read : slot next = slot o := by
    funext i
    rw [slot,slot,pos,size,out]
  refine ⟨⟨by rw [pos,size]; exact ring.here,by rw [last,size]; exact ring.there⟩,size,?_⟩
  rw [nil_append,contents,contents,held,read]

-- The loop of ngx_rtmp_close_session_handler, from slot `pos` on.
def closeLoop (o : Output μ) : Nat → Nat → List μ
  | 0,_ => []
  | fuel+1,pos => if pos = o.outLast then [] else (o.out pos).toList ++ closeLoop o fuel ((pos+1) % o.outQueue)

def freedByClose (o : Output μ) : List μ := closeLoop o o.outQueue o.outPos

theorem closeLoop_slots (ring : Ring o) (n : Nat) (left : i+n = waiting o) (enough : n ≤ fuel) :
    closeLoop o fuel ((o.outPos+i) % o.outQueue) = (range n).filterMap fun j => slot o (i+j) := by
  induction n generalizing i fuel with
  | zero =>
    cases fuel with
    | zero => rfl
    | succ fuel => rw [closeLoop,if_pos (by rw [← ring.last,← left,add_zero])]; rfl
  | succ n ih =>
    cases fuel with
    | zero => cases enough
    | succ fuel =>
      have below := ring.waiting_lt
      have more : (o.outPos+i) % o.outQueue ≠ o.outLast := by
        intro reach
        have := steps_unique ring.here (show i < o.outQueue by omega) reach
        have : waiting o = i := this
        omega
      have next : ((o.outPos+i) % o.outQueue+1) % o.outQueue = (o.outPos+(i+1)) % o.outQueue := by
        rw [Nat.mod_add_mod,add_assoc]
      rw [closeLoop,if_neg more,next,ih (by omega) (Nat.le_of_succ_le_succ enough),range_shift]
      simp only [slot,add_zero,add_assoc,add_comm 1]

theorem freedByClose_occupied (ring : Ring o) : freedByClose o = occupied o := by
  have loop := closeLoop_slots (i:=0) ring (waiting o) (zero_add _) (le_of_lt ring.waiting_lt)
  rw [add_zero,Nat.mod_eq_of_lt ring.here] at loop
  simp only [zero_add] at loop
  exact loop

end Slots

-- An accepted message comes to the others; what is neither freed nor still there
-- is lost.
def Moves (o next : Output μ) (added freed gone : List μ) : Prop :=
  (contents o ++ added).Perm (freed ++ (contents next ++ gone))

theorem sends_moves {next : Output μ} (sends : Sends o next freed) : Moves o next [] freed [] := by
  unfold Moves
  rw [append_nil,append_nil,sends.moved]

theorem store_moves {next : Output μ} {o : Output μ} (ring : Ring o) (message : μ) (sends : Sends (store o message) next freed) :
    ∃ gone, Moves o next [message] freed gone ∧ (waiting o+1 < o.outQueue → (o.outChain ≠ [] → waiting o ≠ 0) → gone = []) := by
  obtain ⟨gone,perm,none⟩ := store_contents ring message
  refine ⟨gone,?_,none⟩
  unfold Moves
  rw [sends.moved,append_assoc] at perm
  exact perm

theorem store_ring {o : Output μ} (ring : Ring o) (message : μ) : Ring (store o message) :=
  ⟨ring.here,Nat.mod_lt _ (lt_of_le_of_lt (Nat.zero_le _) ring.here)⟩

section Freed
variable {μ : Type} [Outgoing μ]

def freedByAdvance (o : Output μ) (buf : List UInt8) (next : List (List UInt8)) (n : Nat) : List μ :=
  if o.outBpos+n = buf.length ∧ next = [] then (o.out o.outPos).toList else []

def freedByLoop (o : Output μ) : List SendResult → List μ
  | [] => []
  | result::rest =>
    match o.outChain,result with
    | buf::next,.sent n =>
      let n := min n (buf.length-o.outBpos)
      if n = 0 then [] else freedByAdvance o buf next n ++ freedByLoop (advance o buf next n) rest
    | _,_ => []

def freedBySend (o : Output μ) (timedout : Bool) (socket : List SendResult) : List μ :=
  if o.destroyed || timedout then []
  else if o.outChain = [] ∧ o.outPos ≠ o.outLast then freedByLoop (load o) socket
  else freedByLoop o socket

def stored (o : Output μ) (priority : Nat) : Bool := !o.hls && !full o priority

def freedByMessage (o : Output μ) (message : μ) (priority : Nat) (socket : List SendResult) : List μ :=
  if !stored o priority || (decide (0 < min priority 3) && o.outBuffer && decide (nmsg o < o.outCork)) || o.active then []
  else freedBySend (store o message) false socket

theorem advance_sends {next : List (List UInt8)} {o : Output μ} (ring : Ring o) (sending : o.outChain = buf::next) (n : Nat) :
    Sends o (advance o buf next n) (freedByAdvance o buf next n) := by
  have busy : o.outChain ≠ [] := by simp [sending]
  unfold advance freedByAdvance
  dsimp only
  by_cases finished : o.outBpos+n = buf.length
  · rw [if_pos finished]
    cases next with
    | nil =>
      rw [if_pos ⟨finished,rfl⟩]
      have moved : Sends o {o with handed:=o.handed ++ (buf.drop o.outBpos).take n,outBpos:=o.outBpos+n} [] :=
        sends_frame ring rfl rfl rfl rfl Iff.rfl
      refine moved.trans ⟨release_ring moved.ring,(release_frame_slots _).1,?_⟩
      exact release_contents moved.ring busy
    | cons b next =>
      rw [if_neg (by simp)]
      exact sends_frame ring rfl rfl rfl rfl (by simp [busy])
  · rw [if_neg finished,if_neg (fun both => finished both.1)]
    exact sends_frame ring rfl rfl rfl rfl Iff.rfl

theorem sendLoop_sends {o : Output μ} (ring : Ring o) : Sends o (sendLoop o socket) (freedByLoop o socket) := by
  induction socket generalizing o with
  | nil =>
    unfold sendLoop freedByLoop
    split <;> exact sends_frame ring rfl rfl rfl rfl Iff.rfl
  | cons result rest ih =>
    unfold sendLoop freedByLoop
    cases sending : o.outChain with
    | nil => exact sends_frame ring rfl rfl rfl rfl (by simp [sending])
    | cons buf next =>
      cases result with
      | blocked | unhandled | failed => exact sends_frame ring rfl rfl rfl rfl (by simp [sending,finalize])
      | sent n =>
        dsimp only
        split
        · exact sends_frame ring rfl rfl rfl rfl (by simp [sending])
        · have first := advance_sends ring sending (min n (buf.length-o.outBpos))
          exact first.trans (ih first.ring)

theorem load_sends {o : Output μ} (ring : Ring o) (more : o.outPos ≠ o.outLast) : Sends o (load o) [] := by
  have wait : waiting o ≠ 0 := by
    intro none
    have reach := ring.last
    rw [none,add_zero,Nat.mod_eq_of_lt ring.here] at reach
    exact more reach
  have held : holding (load o) = holding o := by
    have same : waiting (load o) = waiting o := rfl
    simp [holding,same,wait]
  refine ⟨⟨ring.here,ring.there⟩,rfl,?_⟩
  rw [nil_append,contents,contents,held]
  rfl

theorem send_sends {o : Output μ} (ring : Ring o) (timedout : Bool) (socket : List SendResult) :
    Sends o (send o timedout socket) (freedBySend o timedout socket) := by
  unfold send freedBySend
  cases gone : o.destroyed with
  | true => exact sends_frame ring rfl rfl rfl rfl Iff.rfl
  | false =>
    cases timedout with
    | true => exact sends_frame ring rfl rfl rfl rfl Iff.rfl
    | false =>
      simp only [Bool.false_eq_true,if_false,Bool.or_self]
      split
      · rename_i starts
        have loaded := load_sends ring starts.2
        exact loaded.trans (sendLoop_sends loaded.ring)
      · exact sendLoop_sends ring

theorem sendMessage_moves {o : Output μ} (ring : Ring o) :
    Ring (sendMessage o message priority socket).2 ∧ ∃ gone,
      Moves o (sendMessage o message priority socket).2 (if stored o priority then [message] else [])
        (freedByMessage o message priority socket) gone ∧
      (stored o priority = true → waiting o+1 < o.outQueue → (o.outChain ≠ [] → waiting o ≠ 0) → gone = []) ∧
      (stored o priority = false → gone = []) := by
  have same : Sends (store o message) (store o message) [] := sends_frame (store_ring ring message) rfl rfl rfl rfl Iff.rfl
  unfold sendMessage freedByMessage
  cases kind : o.hls with
  | true =>
    have logged : Sends o {o with hls:=true,accepted:=o.accepted ++ [message]} [] := sends_frame ring rfl rfl rfl rfl Iff.rfl
    simp only [stored,kind,if_true,Bool.not_true,Bool.false_and,Bool.not_false,Bool.true_or,Bool.false_eq_true,if_false]
    exact ⟨logged.ring,[],sends_moves logged,by simp,by simp⟩
  | false =>
    cases refused : full o priority with
    | true =>
      have kept : Sends o o [] := sends_frame ring rfl rfl rfl rfl Iff.rfl
      simp only [stored,kind,refused,if_true,Bool.not_true,Bool.and_false,Bool.not_false,Bool.true_or,Bool.false_eq_true,if_false]
      exact ⟨ring,[],sends_moves kept,by simp,by simp⟩
    | false =>
      have taken : stored o priority = true := by simp [stored,kind,refused]
      simp only [taken,Bool.false_eq_true,if_false,if_true,Bool.not_true,Bool.false_or]
      by_cases corked : 0 < min priority 3 ∧ o.outBuffer = true ∧ nmsg o < o.outCork
      · obtain ⟨gone,moves,none⟩ := store_moves ring message same
        rw [if_pos corked,if_pos (by simp [corked])]
        exact ⟨store_ring ring message,gone,moves,fun _ => none,by simp⟩
      · rw [if_neg corked]
        cases busy : o.active with
        | true =>
          obtain ⟨gone,moves,none⟩ := store_moves ring message same
          simp only [if_true,Bool.or_true]
          exact ⟨store_ring ring message,gone,moves,fun _ => none,by simp⟩
        | false =>
          have sends := send_sends (store_ring ring message) false socket
          obtain ⟨gone,moves,none⟩ := store_moves ring message sends
          rw [if_neg (by simp),if_neg (by simpa [and_assoc] using corked)]
          exact ⟨sends.ring,gone,moves,fun _ => none,by simp⟩

theorem Consistent.ring {o : Output μ} (valid : Consistent o) : Ring o := by
  refine ⟨valid.here,?_⟩
  rw [valid.ahead]
  exact Nat.mod_lt _ (lt_of_le_of_lt (Nat.zero_le _) valid.here)

theorem Consistent.waiting {o : Output μ} (valid : Consistent o) : waiting o = o.queued.length :=
  steps_unique valid.here valid.room valid.ahead.symm

theorem Consistent.sending {o : Output μ} (valid : Consistent o) (busy : o.outChain ≠ []) : OutQueue.waiting o ≠ 0 := by
  obtain ⟨_,_,_,wire⟩ := valid.account
  unfold Wire at wire
  split at wire
  · rename_i idle
    exact absurd idle busy
  · obtain ⟨_,entry,rest,found,_⟩ := wire
    rw [valid.waiting,found]
    simp

theorem Consistent.contents {o : Output μ} (valid : Consistent o) : contents o = occupied o := by
  unfold OutQueue.contents occupied holding
  rw [if_neg fun both => valid.sending both.2 both.1]

theorem sendMessage_exact {o : Output μ} (valid : Consistent o) (divides : o.outQueue ∣ sizeMod) (proper : o.outQueue < sizeMod) :
    Moves o (sendMessage o message priority socket).2 (if stored o priority then [message] else [])
      (freedByMessage o message priority socket) [] := by
  obtain ⟨_,gone,moves,room,refused⟩ := sendMessage_moves valid.ring
  cases taken : stored o priority with
  | false =>
    rw [refused taken,taken] at moves
    exact moves
  | true =>
    have free : OutQueue.waiting o+1 < o.outQueue := by
      simp only [stored,Bool.and_eq_true,Bool.not_eq_true'] at taken
      rw [valid.waiting]
      exact room_left divides proper valid taken.2
    rw [room taken free valid.sending,taken] at moves
    exact moves

-- With `exact` its length is a power of two, so that the ring never runs full.
structure Steady (exact : Prop) (o : Output μ) : Prop where
  ring : Ring o
  fine : exact → Consistent o ∧ o.outQueue ∣ sizeMod ∧ o.outQueue < sizeMod

theorem sendMessage_steady {o : Output μ} (steady : Steady exact o) : Steady exact (sendMessage o message priority socket).2 ∧ ∃ gone,
      Moves o (sendMessage o message priority socket).2 (if stored o priority then [message] else [])
        (freedByMessage o message priority socket) gone ∧ (exact → gone = []) := by
  obtain ⟨ring,gone,moves,_⟩ := sendMessage_moves steady.ring
  have same := step_outQueue (o:=o) (.message message priority socket)
  refine ⟨⟨ring,fun on => ?_⟩,?_⟩
  · obtain ⟨valid,divides,proper⟩ := steady.fine on
    exact ⟨sendMessage_consistent divides proper valid,same ▸ divides,same ▸ proper⟩
  · by_cases on : exact
    · obtain ⟨valid,divides,proper⟩ := steady.fine on
      exact ⟨[],sendMessage_exact valid divides proper,fun _ => rfl⟩
    · exact ⟨gone,moves,fun other => absurd other on⟩

theorem send_steady {o : Output μ} (steady : Steady exact o) :
    Steady exact (send o timedout socket) ∧ Moves o (send o timedout socket) [] (freedBySend o timedout socket) [] := by
  have sends := send_sends steady.ring timedout socket
  refine ⟨⟨sends.ring,fun on => ?_⟩,sends_moves sends⟩
  obtain ⟨valid,divides,proper⟩ := steady.fine on
  exact ⟨send_consistent valid,sends.size ▸ divides,sends.size ▸ proper⟩

theorem finalize_steady {o : Output μ} (steady : Steady exact o) : Steady exact (finalize o) := by
  refine ⟨⟨steady.ring.here,steady.ring.there⟩,fun on => ?_⟩
  obtain ⟨valid,sizes⟩ := steady.fine on
  exact ⟨⟨valid.here,valid.room,valid.ahead,valid.slots,valid.account.imp fun _ a => ⟨a.logged,a.silent,a.wire⟩⟩,sizes⟩

-- A ring that has run full is closed without giving anything back.
theorem close_moves {o : Output μ} (steady : Steady exact o) :
    ∃ gone, contents o = freedByClose o ++ gone ∧ (exact → gone = []) := by
  have freed := freedByClose_occupied steady.ring
  by_cases full : waiting o = 0 ∧ o.outChain ≠ []
  · refine ⟨contents o,?_,fun on => absurd full.1 ((steady.fine on).1.sending full.2)⟩
    rw [freed,occupied,full.1]
    rfl
  · refine ⟨[],?_,fun _ => rfl⟩
    rw [freed,append_nil,contents,holding,if_neg full]
    rfl

end Freed

end NgxRtmp.OutQueue
