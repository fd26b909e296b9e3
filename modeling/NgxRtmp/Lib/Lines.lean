import NgxRtmp.Lib.Paths

namespace NgxRtmp.Lines
open Paths List

def join (sep : α) (lines : List (List α)) : List α := lines.flatMap fun line => line ++ [sep]

theorem join_cons : join sep (line::lines) = line ++ sep::join sep lines := by
  simp [join]

theorem components_join [DecidableEq α] {sep : α} (clean : ∀ line ∈ lines, sep ∉ line) :
    components sep (join sep lines) = lines ++ [[]] := by
  induction lines with
  | nil => rfl
  | cons line lines ih =>
    rw [join_cons,components_append,components_clean (clean line mem_cons_self),
      ih fun other inside => clean other (mem_cons_of_mem _ inside)]
    rfl

theorem length_le_flatMap {f : α → List β} (some_ : ∀ x, f x ≠ []) {items : List α} :
    items.length ≤ (items.flatMap f).length := by
  induction items with
  | nil => simp
  | cons item items ih =>
    have own := length_pos_iff.mpr (some_ item)
    rw [flatMap_cons,length_append,length_cons]
    omega

theorem first_line (clean : sep ∉ line)
    (same : piece ++ left = line ++ sep::rest) (ends : piece.getLast? = some sep) :
    ∃ more, piece = line ++ sep::more ∧ more ++ left = rest := by
  induction line generalizing piece with
  | nil =>
    cases piece with
    | nil => simp at ends
    | cons x more =>
      obtain ⟨head,tail⟩ := List.cons.inj same
      exact ⟨more,by rw [head]; rfl,tail⟩
  | cons y line ih =>
    cases piece with
    | nil => simp at ends
    | cons x more =>
      obtain ⟨head,tail⟩ := List.cons.inj same
      have inner : more.getLast? = some sep := by
        cases more with
        | nil =>
          have last : x = sep := by simpa using ends
          exact absurd (show sep ∈ y::line by rw [← last,head]; exact mem_cons_self) clean
        | cons z zs => simpa using ends
      obtain ⟨deep,shape,after⟩ := ih (fun inside => clean (mem_cons_of_mem _ inside)) tail inner
      exact ⟨deep,by rw [shape,head]; rfl,after⟩

-- A piece of the text that ends with the end of a line holds whole lines.
theorem whole_lines
    (clean : ∀ line ∈ lines, sep ∉ line) (same : piece ++ left = join sep lines)
    (ends : piece = [] ∨ piece.getLast? = some sep) :
    ∃ first second, lines = first ++ second ∧ piece = join sep first ∧ left = join sep second := by
  induction lines generalizing piece with
  | nil =>
    obtain ⟨none,rest⟩ := append_eq_nil_iff.mp same
    exact ⟨[],[],rfl,none,rest⟩
  | cons line lines ih =>
    rcases ends with empty | ends
    · rw [empty] at same ⊢
      exact ⟨[],line::lines,rfl,rfl,same⟩
    · rw [join_cons] at same
      obtain ⟨more,shape,after⟩ := first_line (clean line mem_cons_self) same ends
      have inner : more = [] ∨ more.getLast? = some sep := by
        cases more with
        | nil => exact .inl rfl
        | cons x xs => exact .inr (by rw [shape,List.getLast?_append] at ends; simpa using ends)
      obtain ⟨first,second,split,head,tail⟩ := ih (fun other inside => clean other (mem_cons_of_mem _ inside)) after inner
      exact ⟨line::first,second,by rw [split,cons_append],by rw [shape,head,join_cons],tail⟩

theorem groups_of_pieces {sep : α}
    (clean : ∀ line ∈ lines, sep ∉ line) (same : pieces.flatten = join sep lines)
    (ends : ∀ piece ∈ pieces, piece.getLast? = some sep) :
    ∃ groups : List (List (List α)), pieces = groups.map (join sep) ∧ groups.flatten = lines := by
  induction pieces generalizing lines with
  | nil =>
    refine ⟨[],rfl,?_⟩
    cases lines with
    | nil => rfl
    | cons line lines => rw [join_cons] at same; simp at same
  | cons piece pieces ih =>
    rw [flatten_cons] at same
    obtain ⟨first,second,split,head,tail⟩ := whole_lines clean same (.inr (ends piece mem_cons_self))
    obtain ⟨groups,shape,flat⟩ := ih (fun line inside => clean line (by rw [split]; exact mem_append_right _ inside)) tail
      (fun other inside => ends other (mem_cons_of_mem _ inside))
    exact ⟨first::groups,by rw [shape,head]; rfl,by rw [flatten_cons,flat,split]⟩

end NgxRtmp.Lines
