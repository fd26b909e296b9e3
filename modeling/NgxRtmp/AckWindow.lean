import NgxRtmp.Lib.Runs

namespace NgxRtmp.AckWindow
open List
structure Counters where
  inBytes : UInt32
  inLastAck : UInt32
  ackSize : UInt32
  deriving DecidableEq, Repr

def Counters.add (c : Counters) (n : Nat) : Counters :=
  if 0xf0000000 ≤ c.inBytes+UInt32.ofNat n then {c with inBytes:=0,inLastAck:=0} else {c with inBytes:=c.inBytes+UInt32.ofNat n}

def Counters.due (c : Counters) : Bool := c.ackSize ≠ 0 ∧ c.ackSize ≤ c.inBytes-c.inLastAck

-- `unacked`, no field of the source, counts the bytes since the last acknowledgement.
structure Account where
  counters : Counters
  unacked : Nat
  destroyed : Bool
  deriving DecidableEq, Repr

def Account.initial : Account := ⟨⟨0,0,0⟩,0,false⟩

-- `acked` is the success of ngx_rtmp_send_ack, should it be called.
inductive Event where
  | announce (ackSize : UInt32)
  | read (n : Nat) (acked : Bool)
  | finalize

def step (x : Account) : Event → Account
  | .announce ackSize => {x with counters:={x.counters with ackSize}}
  | .read n acked =>
    let counters := x.counters.add n
    if counters.due then
      ⟨{counters with inLastAck:=counters.inBytes},if acked then 0 else x.unacked+n,x.destroyed || !acked⟩
    else ⟨counters,x.unacked+n,x.destroyed⟩
  | .finalize => {x with destroyed:=true}

def Within (x : Account) : Prop := x.destroyed = false → x.counters.ackSize ≠ 0 → x.unacked < x.counters.ackSize.toNat

instance : Decidable (Within x) := inferInstanceAs (Decidable (_ → _ → _))

-- The read that fills the window does not reset the counter, and the counters show it full.
def Shown (x : Account) : Event → Prop
  | .read n _ => x.destroyed = false → x.counters.ackSize ≠ 0 → x.counters.ackSize.toNat ≤ x.unacked+n →
    x.counters.inBytes+UInt32.ofNat n < 0xf0000000 ∧ x.counters.ackSize ≤ x.counters.inBytes+UInt32.ofNat n-x.counters.inLastAck
  | _ => True

def AfterRead (x : Account) : Event → Prop
  | .read n acked => Within (step x (.read n acked))
  | _ => True

theorem due_add (c : Counters) (n : Nat) : (c.add n).due = true ↔ c.ackSize ≠ 0 ∧
    c.inBytes+UInt32.ofNat n < 0xf0000000 ∧ c.ackSize ≤ c.inBytes+UInt32.ofNat n-c.inLastAck := by
  unfold Counters.add
  split
  · rename_i resets
    have high : ¬c.inBytes+UInt32.ofNat n < 0xf0000000 := UInt32.not_lt.mpr resets
    have none : ¬(c.ackSize ≠ 0 ∧ c.ackSize ≤ 0-0) := fun both => both.1 (UInt32.le_antisymm both.2 (UInt32.zero_le))
    simp only [Counters.due,decide_eq_true_iff]
    exact iff_of_false none fun all => high all.2.1
  · rename_i below
    have low : c.inBytes+UInt32.ofNat n < 0xf0000000 := UInt32.not_le.mp below
    simp only [Counters.due,decide_eq_true_iff,low,true_and]

theorem add_ackSize {c : Counters} : (c.add n).ackSize = c.ackSize := by
  unfold Counters.add
  split <;> rfl

theorem afterRead_iff : AfterRead x event ↔ Shown x event := by
  cases event with
  | announce ackSize => exact Iff.rfl
  | finalize => exact Iff.rfl
  | read n acked =>
    unfold AfterRead Shown step
    have due := due_add x.counters n
    by_cases sent : (x.counters.add n).due = true
    · have shown := due.mp sent
      simp only [sent,if_true]
      refine iff_of_true ?_ fun _ _ _ => shown.2
      cases acked with
      | true =>
        intro _ some
        change 0 < (x.counters.add n).ackSize.toNat
        exact UInt32.lt_iff_toNat_lt.mp (UInt32.pos_iff_ne_zero.mpr some)
      | false =>
        intro alive
        simp at alive
    · simp only [sent,Bool.false_eq_true,if_false,Within,add_ackSize]
      constructor
      · intro within alive some full
        exact absurd (within alive some) (Nat.not_lt_of_le full)
      · intro shown alive some
        apply Nat.lt_of_not_le
        intro full
        exact sent (due.mpr ⟨some,shown alive some full⟩)

theorem take_fold {events : List Event} (found : events[k]? = some event) :
    (events.take (k+1)).foldl step x = step ((events.take k).foldl step x) event := by
  rw [take_add_one,found,foldl_append]
  rfl

def received : List Event → Nat
  | [] => 0
  | .read n _::rest => n+received rest
  | _::rest => received rest

structure Counted (x : Account) (total : Nat) : Prop where
  bytes : x.counters.inBytes.toNat = total
  mark : x.counters.inLastAck.toNat ≤ total
  unacked : x.destroyed = true ∨ x.unacked = total-x.counters.inLastAck.toNat

theorem read_counted (counted : Counted x total) (low : total+n < 0xf0000000) :
    Shown x (.read n acked) ∧ Counted (step x (.read n acked)) (total+n) := by
  obtain ⟨bytes,mark,unacked⟩ := counted
  have sum : (x.counters.inBytes+UInt32.ofNat n).toNat = total+n := by
    rw [UInt32.toNat_add,UInt32.toNat_ofNat',bytes]
    omega
  have below : x.counters.inBytes+UInt32.ofNat n < 0xf0000000 := by
    rw [UInt32.lt_iff_toNat_lt,sum]
    exact low
  have span : (x.counters.inBytes+UInt32.ofNat n-x.counters.inLastAck).toNat = total+n-x.counters.inLastAck.toNat := by
    rw [UInt32.toNat_sub_of_le _ _ (UInt32.le_iff_toNat_le.mpr (by omega)),sum]
  have added : x.counters.add n = {x.counters with inBytes:=x.counters.inBytes+UInt32.ofNat n} := if_neg (UInt32.not_le.mpr below)
  refine ⟨fun alive some full => ⟨below,?_⟩,?_⟩
  · rcases unacked with gone | unacked
    · exact absurd (alive.symm.trans gone) (by decide)
    · rw [UInt32.le_iff_toNat_le,span]
      omega
  · unfold step
    dsimp only
    rw [added]
    split
    · refine ⟨sum,le_of_eq sum,?_⟩
      cases acked with
      | true =>
        right
        change 0 = total+n-(x.counters.inBytes+UInt32.ofNat n).toNat
        omega
      | false => exact .inl (Bool.or_true _)
    · refine ⟨sum,Nat.le_add_right_of_le mark,unacked.imp_right fun same => ?_⟩
      change x.unacked+n = total+n-x.counters.inLastAck.toNat
      omega

theorem short_shown (counted : Counted x total) (low : total+received events < 0xf0000000) : Runs.Along step Shown x events := by
  induction events generalizing x total with
  | nil => trivial
  | cons event rest ih =>
    cases event with
    | announce ackSize => exact ⟨trivial,ih ⟨counted.bytes,counted.mark,counted.unacked⟩ low⟩
    | finalize => exact ⟨trivial,ih ⟨counted.bytes,counted.mark,.inl rfl⟩ low⟩
    | read n acked =>
      change total+(n+received rest) < _ at low
      obtain ⟨shown,after⟩ := read_counted counted (n:=n) (by omega)
      exact ⟨shown,ih after (by omega)⟩

theorem window_kept_iff (events : List Event) :
    ((∀ k n acked, events[k]? = some (.read n acked) → Within ((events.take (k+1)).foldl step .initial)) ↔
      Runs.Along step Shown .initial events) ∧
    (received events < 0xf0000000 → Runs.Along step Shown .initial events) := by
  have counted : Counted .initial 0 := ⟨rfl,le_rfl,.inr rfl⟩
  refine ⟨?_,fun low => short_shown counted (by rwa [zero_add])⟩
  rw [Runs.along_iff]
  constructor
  · intro within k event found
    rw [←afterRead_iff]
    cases event with
    | announce ackSize => trivial
    | finalize => trivial
    | read n acked =>
      have kept := within k n acked found
      rwa [take_fold found] at kept
  · intro shown k n acked found
    rw [take_fold found]
    exact afterRead_iff.mpr (shown k _ found)

theorem steady_reads (low : 4096*k < 0xf0000000) :
    (replicate k (Event.read 4096 true)).foldl step ⟨⟨0,0,4096⟩,0,false⟩ =
      ⟨⟨UInt32.ofNat (4096*k),UInt32.ofNat (4096*k),4096⟩,0,false⟩ := by
  induction k with
  | zero => rfl
  | succ k ih =>
    have sum : UInt32.ofNat (4096*k)+UInt32.ofNat 4096 = UInt32.ofNat (4096*(k+1)) := by
      rw [Nat.mul_succ,UInt32.ofNat_add]
    have below : ¬0xf0000000 ≤ UInt32.ofNat (4096*(k+1)) := by
      rw [UInt32.le_iff_toNat_le,UInt32.toNat_ofNat']
      change ¬0xf0000000 ≤ _
      omega
    have span : UInt32.ofNat (4096*(k+1))-UInt32.ofNat (4096*k) = 4096 := by
      rw [←sum,UInt32.add_comm,UInt32.add_sub_cancel]
      rfl
    rw [replicate_succ',foldl_append,ih (by omega)]
    simp only [foldl_cons,foldl_nil,step,Counters.add,sum,if_neg below,Counters.due,span]
    rfl

-- A window of 4096, and reads of 4096 bytes; the read that resets the counter is not acknowledged.
theorem reset_forgets_bytes :
    ∃ events : List Event, ∃ k n acked, events[k]? = some (.read n acked) ∧
      ((events.take (k+1)).foldl step .initial).unacked = 4096 ∧ ¬Within ((events.take (k+1)).foldl step .initial) := by
  have last : (Event.announce 4096::replicate 983040 (Event.read 4096 true)).foldl step .initial =
      ⟨⟨0,0,4096⟩,4096,false⟩ := by
    rw [foldl_cons,show 983040 = 983039+1 from rfl,replicate_succ',foldl_append]
    change [Event.read 4096 true].foldl step ((replicate 983039 (Event.read 4096 true)).foldl step ⟨⟨0,0,4096⟩,0,false⟩) = _
    rw [steady_reads (by decide)]
    decide
  have whole : (Event.announce 4096::replicate 983040 (Event.read 4096 true)).take (983040+1) =
      Event.announce 4096::replicate 983040 (Event.read 4096 true) :=
    take_of_length_le (le_of_eq (by rw [length_cons,length_replicate]))
  refine ⟨Event.announce 4096::replicate 983040 (.read 4096 true),983040,4096,true,?_,?_⟩
  · rw [getElem?_cons,if_neg (by decide),getElem?_replicate,if_pos (by decide)]
  · rw [whole,last]
    decide

end NgxRtmp.AckWindow
