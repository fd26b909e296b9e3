import Mathlib

namespace NgxRtmp.Reading

-- A reader takes one item off the front of its input, or waits for more.
-- `Reads` is any number of items.
inductive Reads (next : σ → List α → Option (σ × List α)) : σ → List α → σ → List α → Prop
  | refl : Reads next s xs s xs
  | cons (read : next s xs = some (t,ys)) (rest : Reads next t ys u zs) : Reads next s xs u zs

theorem Reads.snoc (reads : Reads next s xs t ys) (read : next t ys = some (u,zs)) : Reads next s xs u zs := by
  induction reads with
  | refl => exact .cons read .refl
  | cons first _ ih => exact .cons first (ih read)

theorem reads_unique (left : Reads next s xs t ys) (right : Reads next s xs u zs) (stuck : next t ys = none)
    (done : next u zs = none) : t = u ∧ ys = zs := by
  induction left with
  | refl =>
    cases right with
    | refl => exact ⟨rfl,rfl⟩
    | cons read _ =>
      rw [stuck] at read
      cases read
  | cons read _ ih =>
    cases right with
    | refl =>
      rw [done] at read
      cases read
    | cons also rest =>
      rw [read] at also
      cases also
      exact ih rest stuck

end NgxRtmp.Reading
