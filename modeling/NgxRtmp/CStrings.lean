import NgxRtmp.Connect
import NgxRtmp.Lib.Texts

namespace NgxRtmp.CStrings
open Connect List

-- What the searches of the C library find in a NUL-terminated text with memory behind it.
section
variable {lead rest text behind : List UInt8}

theorem strstr_found {tail : List UInt8} (once : mark ∉ tail) (clear : ¬ mark::tail <:+: lead) (plain : 0 ∉ lead) :
    strstr (mark::tail) (lead ++ (mark::tail ++ rest)) = some (mark::tail ++ rest) := by
  induction lead with
  | nil => simp [strstr]
  | cons b lead ih =>
    have later : (mark::tail).isPrefixOf (b::lead ++ (mark::tail ++ rest)) = false := by
      apply Bool.eq_false_iff.mpr
      intro here
      exact Texts.no_earlier once (by simp) clear (List.isPrefixOf_iff_prefix.mp here)
    have text : b ≠ 0 := fun zero => plain (by simp [zero])
    rw [cons_append] at later ⊢
    rw [strstr,later,if_neg (by simp),if_neg text]
    apply ih
    · exact fun inside => clear (infix_cons_iff.mpr (.inr inside))
    · exact fun inside => plain (mem_cons_of_mem _ inside)

theorem strstr_none {tail : List UInt8} (visible : mark ≠ 0) (absent : ¬ mark::tail <:+: text) (plain : 0 ∉ text)
    (short : 0 ∉ tail) : strstr (mark::tail) (text ++ 0::behind) = none := by
  induction text with
  | nil => simp [strstr,visible]
  | cons b text ih =>
    have later : (mark::tail).isPrefixOf (b::text ++ 0::behind) = false := by
      apply Bool.eq_false_iff.mpr
      intro here
      have start : mark::tail <+: b::text ++ 0::behind := isPrefixOf_iff_prefix.mp here
      rcases Nat.lt_or_ge (b::text).length (mark::tail).length with long | fits
      · have reach : (b::text) ++ [0] <+: mark::tail := by
          apply prefix_of_prefix_length_le _ start
          · simpa using Nat.succ_le_of_lt (by simpa using long)
          · exact ⟨behind,by simp⟩
        have zero : 0 ∈ mark::tail := reach.subset (by simp)
        rcases mem_cons.mp zero with first | inside
        · exact visible first.symm
        · exact short inside
      · exact absent (prefix_of_prefix_length_le start (prefix_append ..) fits).isInfix
    have text : b ≠ 0 := fun zero => plain (by simp [zero])
    rw [cons_append] at later ⊢
    rw [strstr,later,if_neg (by simp),if_neg text]
    apply ih
    · exact fun inside => absent (infix_cons_iff.mpr (.inr inside))
    · exact fun inside => plain (mem_cons_of_mem _ inside)

theorem strchr_strstr : strchr c memory = strstr [c] memory := by
  induction memory with
  | nil => rfl
  | cons b rest ih =>
    rw [strchr,strstr,ih]
    by_cases same : b = c
    · simp [same]
    · have other : ¬ c = b := fun back => same back.symm
      simp [same,other]

theorem strchr_found (clear : c ∉ lead) (plain : 0 ∉ lead) : strchr c (lead ++ c::rest) = some (c::rest) := by
  rw [strchr_strstr]
  apply strstr_found (by simp) _ plain
  exact fun inside => clear ((singleton_infix_iff c lead).mp inside)

theorem strchr_none (c : UInt8) (visible : c ≠ 0) (absent : c ∉ text) (plain : 0 ∉ text) : strchr c (text ++ 0::behind) = none := by
  rw [strchr_strstr]
  apply strstr_none visible _ plain (by simp)
  exact fun inside => absent ((singleton_infix_iff c text).mp inside)

@[simp] theorem between_append : between (first ++ second) second = first := by
  simp [between]

theorem text_visible (plain : 0 ∉ text) : ∀ b ∈ text, decide (b ≠ 0) = true :=
  fun _ inside => decide_eq_true fun zero => plain (zero ▸ inside)

theorem strlen_text (plain : 0 ∉ text) : strlen (text ++ 0::behind) = text.length := by
  rw [strlen,takeWhile_append_of_pos (text_visible plain)]
  simp

theorem strchr_cases (c : UInt8) (visible : c ≠ 0) (memory : List UInt8) :
    (∃ lead tail, memory = lead ++ c::tail ∧ c ∉ lead ∧ 0 ∉ lead ∧ strchr c memory = some (c::tail)) ∨
    c ∉ memory.takeWhile (· ≠ 0) ∧ strchr c memory = none := by
  by_cases inside : c ∈ memory.takeWhile (· ≠ 0)
  · obtain ⟨lead,tail,same,clear⟩ := eq_append_cons_of_mem inside
    have text : 0 ∉ lead := by
      intro zero
      have seen : (0 : UInt8) ∈ memory.takeWhile (· ≠ 0) := same ▸ mem_append_left _ zero
      simpa using mem_takeWhile_imp seen
    have split : memory = lead ++ c::(tail ++ memory.dropWhile (· ≠ 0)) := by
      rw [← cons_append,← append_assoc,← same,takeWhile_append_dropWhile]
    refine .inl ⟨lead,tail ++ memory.dropWhile (· ≠ 0),split,clear,text,?_⟩
    exact (congrArg (strchr c) split).trans (strchr_found clear text)
  · refine .inr ⟨inside,?_⟩
    induction memory with
    | nil => rfl
    | cons b rest ih =>
      by_cases zero : b = 0
      · simp [strchr,zero,visible.symm]
      · have other : ¬ b = c := by
          rintro rfl
          exact inside (by simp [zero])
        rw [strchr,if_neg other,if_neg zero]
        apply ih
        intro again
        rw [takeWhile_cons,if_pos (by simpa using zero)] at inside
        exact inside (mem_cons_of_mem _ again)

end

end NgxRtmp.CStrings
