import Mathlib

namespace NgxRtmp.Counting

theorem count_congr [DecidablePred p] [DecidablePred q] (same : ∀ x, x < n → (p x ↔ q x)) : Nat.count p n = Nat.count q n := by
  induction n with
  | zero => rw [Nat.count_zero,Nat.count_zero]
  | succ n ih =>
    rw [Nat.count_succ,Nat.count_succ,ih fun x below => same x (Nat.lt_succ_of_lt below)]
    simp only [same n (Nat.lt_succ_self n)]

theorem count_change [DecidablePred p] [DecidablePred q] (inside : a < n) (same : ∀ x, x ≠ a → (p x ↔ q x)) :
    Nat.count p n+(if q a then 1 else 0) = Nat.count q n+(if p a then 1 else 0) := by
  induction n with
  | zero => cases inside
  | succ n ih =>
    rw [Nat.count_succ,Nat.count_succ]
    by_cases here : a = n
    · subst here
      rw [count_congr fun x below => same x (ne_of_lt below)]
      omega
    · have before := ih (by omega)
      simp only [same n (Ne.symm here)]
      omega

end NgxRtmp.Counting
