import Mathlib

namespace NgxRtmp.Search

-- The outcome of a loop that stops at the first hit and that a bad memory access
-- may end.
inductive Hit (α : Type u) where
  | hit (a : α)
  | miss
  | fault
  deriving DecidableEq, Repr

def first (look : α → Hit β) : List α → Hit (α × β)
  | [] => .miss
  | a::rest =>
    match look a with
    | .hit b => .hit (a,b)
    | .fault => .fault
    | .miss => first look rest

theorem first_miss : first look xs = .miss ↔ ∀ a ∈ xs, look a = .miss := by
  induction xs with
  | nil => simp [first]
  | cons a rest ih =>
    rw [first]
    cases found : look a with
    | hit b => simp [found]
    | fault => simp [found]
    | miss => simp [found,ih]

theorem first_hit :
    first look xs = .hit (a,b) ↔
      ∃ before after, xs = before ++ a::after ∧ (∀ c ∈ before, look c = .miss) ∧ look a = .hit b := by
  constructor
  · intro found
    induction xs with
    | nil => cases found
    | cons c rest ih =>
      rw [first] at found
      cases here : look c with
      | hit d =>
        rw [here] at found
        cases found
        exact ⟨[],rest,rfl,by simp,here⟩
      | fault =>
        rw [here] at found
        cases found
      | miss =>
        rw [here] at found
        obtain ⟨before,after,rfl,missed,taken⟩ := ih found
        exact ⟨c::before,after,rfl,by simpa [here] using missed,taken⟩
  · rintro ⟨before,after,rfl,missed,taken⟩
    induction before with
    | nil => simp [first,taken]
    | cons c rest ih =>
      have here := missed c List.mem_cons_self
      simp only [List.cons_append,first,here]
      exact ih fun d inside => missed d (List.mem_cons_of_mem _ inside)

def Hit.answer : Option α → Hit α
  | some a => .hit a
  | none => .miss

end NgxRtmp.Search
