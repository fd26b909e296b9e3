import Mathlib

namespace NgxRtmp.Runs

-- `allowed` holds of every step, each judged in the state it starts from.
def Along (step : σ → ε → σ) (allowed : σ → ε → Prop) : σ → List ε → Prop
  | _,[] => True
  | s,event::rest => allowed s event ∧ Along step allowed (step s event) rest

theorem along_always (events : List ε) (s : σ) : Along step (fun _ _ => True) s events := by
  induction events generalizing s with
  | nil => trivial
  | cons event rest ih => exact ⟨trivial,ih _⟩

theorem along_mono (weaken : ∀ s event, allowed s event → weaker s event) (path : Along step allowed s events) : Along step weaker s events := by
  induction events generalizing s with
  | nil => trivial
  | cons event rest ih => exact ⟨weaken s event path.1,ih path.2⟩

theorem along_each {step : σ → ε → σ} (events : List ε)
    (each : ∀ event ∈ events, ∀ s, allowed s event) (s : σ) : Along step allowed s events := by
  induction events generalizing s with
  | nil => trivial
  | cons event rest ih =>
    exact ⟨each event (List.mem_cons_self ..) s,ih (fun later member => each later (List.mem_cons_of_mem _ member)) _⟩

theorem along_take (n : Nat) (events : List ε) (path : Along step allowed s events) : Along step allowed s (events.take n) := by
  induction events generalizing s n with
  | nil =>
    rw [List.take_nil]
    trivial
  | cons event rest ih =>
    cases n with
    | zero => trivial
    | succ n => exact ⟨path.1,ih n path.2⟩

theorem along_append :
    Along step allowed s (front ++ back) ↔ Along step allowed s front ∧ Along step allowed (front.foldl step s) back := by
  induction front generalizing s with
  | nil => simp [Along]
  | cons event rest ih => simp [Along,ih,and_assoc]

theorem along_iff :
    Along step allowed s events ↔ ∀ k event, events[k]? = some event → allowed ((events.take k).foldl step s) event := by
  induction events generalizing s with
  | nil => exact ⟨fun _ k event found => (by cases found),fun _ => trivial⟩
  | cons first rest ih =>
    constructor
    · intro path k event found
      cases k with
      | zero =>
        cases found
        exact path.1
      | succ k => exact ih.mp path.2 k event found
    · intro each
      exact ⟨each 0 first rfl,ih.mpr fun k event found => each (k+1) event found⟩

theorem along_both {condition : ε → Prop}
    (path : Along step allowed s events) (each : ∀ event ∈ events, condition event) :
    Along step (fun s event => allowed s event ∧ condition event) s events := by
  induction events generalizing s with
  | nil => trivial
  | cons event rest ih =>
    exact ⟨⟨path.1,each event (List.mem_cons_self ..)⟩,ih path.2 fun later member => each later (List.mem_cons_of_mem _ member)⟩

-- What each allowed step preserves holds at the end of every allowed run.
theorem run_invariant {invariant : σ → Prop}
    (preserved : ∀ s event, allowed s event → invariant s → invariant (step s event)) (start : invariant s) (path : Along step allowed s events) :
    invariant (events.foldl step s) := by
  induction events generalizing s with
  | nil => exact start
  | cons event rest ih => exact ih (preserved s event path.1 start) path.2

-- A step that is not allowed fails at once, so the allowed runs are those with good states.
theorem along_exact {step : σ → ε → σ} {invariant good : σ → Prop}
    (preserved : ∀ s event, allowed s event → invariant s → invariant (step s event))
    (sound : ∀ s, invariant s → good s)
    (seen : ∀ s event, invariant s → good (step s event) → allowed s event) (start : invariant s) :
    (∀ n, good ((events.take n).foldl step s)) ↔ Along step allowed s events := by
  induction events generalizing s with
  | nil => exact ⟨fun _ => trivial,fun _ n => by simpa using sound s start⟩
  | cons event rest ih =>
    constructor
    · intro always
      have first : allowed s event := seen s event start (by simpa using always 1)
      exact ⟨first,(ih (preserved s event first start)).mp fun n => by simpa using always (n+1)⟩
    · intro path n
      cases n with
      | zero => exact sound s start
      | succ n => simpa using (ih (preserved s event path.1 start)).mpr path.2 n

end NgxRtmp.Runs
