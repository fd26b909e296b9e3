import Mathlib

namespace NgxRtmp.Segments

-- The buffers from the current one on and how much of it has been passed.
structure Cursor (α : Type) where
  link : List (List α)
  offset : Nat

def Cursor.rest (c : Cursor α) : List α :=
  match c.link with
  | [] => []
  | buf::more => buf.drop c.offset ++ more.flatten

@[simp] theorem rest_nil : (⟨[],offset⟩ : Cursor α).rest = [] := rfl

@[simp] theorem rest_cons : (⟨buf::more,offset⟩ : Cursor α).rest = buf.drop offset ++ more.flatten := rfl

theorem rest_start : (⟨link,0⟩ : Cursor α).rest = link.flatten := by
  cases link <;> rfl

end NgxRtmp.Segments
