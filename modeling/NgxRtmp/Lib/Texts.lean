import Mathlib

namespace NgxRtmp.Texts
open List
variable {mark : α} {tail lead rest xs : List α}

-- Where a pattern whose first letter does not come again in it occurs first: at
-- the end of any text without it.
theorem no_earlier (once : mark ∉ tail) (filled : lead ≠ []) (clear : ¬ mark::tail <:+: lead) :
    ¬ mark::tail <+: lead ++ (mark::tail ++ rest) := by
  intro here
  rcases Nat.lt_or_ge lead.length (mark::tail).length with short | long
  · obtain ⟨x,lead,rfl⟩ := exists_cons_of_ne_nil filled
    obtain ⟨after,same⟩ := here
    have inside : lead.length < tail.length := by simpa using short
    have letters : (tail ++ after)[lead.length]? = (lead ++ (mark::tail ++ rest))[lead.length]? :=
      congrArg (·[lead.length]?) (cons.inj same).2
    rw [getElem?_append_left inside,getElem?_append_right le_rfl,Nat.sub_self] at letters
    exact once (mem_of_getElem? letters)
  · exact clear (prefix_of_prefix_length_le here (prefix_append ..) long).isInfix

theorem earliest (occurs : mark::tail <:+: xs) : ∃ lead rest, xs = lead ++ (mark::tail ++ rest) ∧ ¬ mark::tail <:+: lead := by
  induction xs with
  | nil => cases infix_nil.mp occurs
  | cons x xs ih =>
    by_cases here : mark::tail <+: x::xs
    · obtain ⟨rest,same⟩ := here
      exact ⟨[],rest,same.symm,by simp⟩
    · obtain ⟨lead,rest,same,clear⟩ := ih ((infix_cons_iff.mp occurs).resolve_left here)
      refine ⟨x::lead,rest,by rw [same]; rfl,?_⟩
      intro again
      rcases infix_cons_iff.mp again with start | inside
      · apply here
        rw [same]
        exact start.trans (prefix_append (x::lead) _)
      · exact clear inside

theorem split_unique (before : mark ∉ first) (again : mark ∉ second)
    (same : first ++ mark::xs = second ++ mark::rest) : first = second ∧ xs = rest := by
  induction first generalizing second with
  | nil =>
    cases second with
    | nil => exact ⟨rfl,(cons.inj same).2⟩
    | cons y second => exact absurd (cons.inj same).1 fun other => again (by simp [other])
  | cons x first ih =>
    cases second with
    | nil => exact absurd (cons.inj same).1 fun other => before (by simp [other])
    | cons y second =>
      obtain ⟨rfl,tails⟩ := cons.inj same
      obtain ⟨rfl,ends⟩ := ih (fun inside => before (mem_cons_of_mem _ inside))
        (fun inside => again (mem_cons_of_mem _ inside)) tails
      exact ⟨rfl,ends⟩

section
variable (sep : α) (param : List α) (after : List (List α))

theorem intercalate_cons : [sep].intercalate (param::after) = param ++ after.flatMap (sep::·) := by
  induction after generalizing param with
  | nil => simp [intercalate]
  | cons next after ih =>
    have again := ih next
    simp only [intercalate,intersperse_cons_cons,flatten_cons] at again ⊢
    rw [again]
    simp

theorem mem_intercalate (x : α) (parts : List (List α)) (inside : x ∈ [sep].intercalate parts) :
    x = sep ∨ ∃ part ∈ parts, x ∈ part := by
  cases parts with
  | nil => cases inside
  | cons param after =>
    rw [intercalate_cons] at inside
    simp only [mem_append,mem_flatMap,mem_cons] at inside
    rcases inside with here | ⟨other,member,same | later⟩
    · exact .inr ⟨param,mem_cons_self,here⟩
    · exact .inl same
    · exact .inr ⟨other,mem_cons_of_mem _ member,later⟩

theorem intercalate_split (before : List (List α)) :
    [sep].intercalate (before ++ param::after) = before.flatMap (· ++ [sep]) ++ (param ++ after.flatMap (sep::·)) := by
  induction before with
  | nil => exact intercalate_cons sep param after
  | cons first before ih =>
    rw [cons_append,intercalate_cons]
    cases before with
    | nil => simp
    | cons second before =>
      rw [cons_append,intercalate_cons] at ih
      simp only [cons_append,flatMap_cons,append_assoc] at ih ⊢
      rw [ih]
      rfl

end

end NgxRtmp.Texts
