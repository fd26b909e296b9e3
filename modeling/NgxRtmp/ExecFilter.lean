import NgxRtmp.ServerNames

namespace NgxRtmp.ExecFilter

open List
-- ctx->name, which ends at its first NUL
structure StreamName where
  text : List UInt8
  plain : 0 ∉ text

structure Command where
  id : Nat
  names : List (List UInt8)

-- The loop counts through the names but stays at the first of them.
def execFilter (ec : Command) (name : StreamName) : Bool :=
  match ec.names with
  | [] => true
  | v::_ => (List.range ec.names.length).any fun _ => v.length == name.text.length && ServerNames.compare id v fun i => name.text.getD i 0

def execUnmanaged (e : List Command) (name : StreamName) : List Command := e.filter fun ec => execFilter ec name
def execManaged (e : List Command) (name : StreamName) : List Command := e.filter fun en => execFilter en name

theorem compare_same (same : v.length = text.length) (plain : 0 ∉ text) :
    ServerNames.compare id v (fun i => text.getD i 0) = true ↔ v = text := by
  induction v generalizing text with
  | nil => simp [ServerNames.compare,length_eq_zero_iff.mp same.symm]
  | cons c v ih =>
    cases text with
    | nil => cases same
    | cons b text =>
      simp only [mem_cons,not_or] at plain
      have later := ih (Nat.succ.inj same) plain.2
      by_cases equal : c = b
      · simpa [ServerNames.compare,equal,Ne.symm plain.1] using later
      · simp [ServerNames.compare,equal]

theorem execFilter_iff : execFilter ec name = true ↔ ec.names = [] ∨ ec.names.head? = some name.text := by
  unfold execFilter
  cases ec.names with
  | nil => simp
  | cons v rest =>
    have round : 0 ∈ List.range (v::rest).length := by simp
    simp only [any_eq_true,Bool.and_eq_true,beq_iff_eq,reduceCtorEq,false_or,List.head?_cons,Option.some.injEq]
    constructor
    · rintro ⟨_,_,same,equal⟩
      exact (compare_same same name.plain).mp equal
    · rintro rfl
      exact ⟨0,round,rfl,(compare_same rfl name.plain).mpr rfl⟩

def wanted (e : List Command) (name : StreamName) : List Command := e.filter fun ec => ec.names = [] ∨ name.text ∈ ec.names

theorem exec_filter_iff (e : List Command) (name : StreamName) :
    (execUnmanaged e name = wanted e name ∧ execManaged e name = wanted e name) ↔
      ∀ ec ∈ e, name.text ∈ ec.names → ec.names.head? = some name.text := by
  constructor
  · rintro ⟨right,_⟩ ec member listed
    have run : ec ∈ execUnmanaged e name := right ▸ mem_filter.mpr ⟨member,by simp [listed]⟩
    rcases execFilter_iff.mp (mem_filter.mp run).2 with none | first
    · rw [none] at listed
      cases listed
    · exact first
  · intro first
    have right : execUnmanaged e name = wanted e name := by
      refine filter_congr fun ec member => Bool.eq_iff_iff.mpr (execFilter_iff.trans ?_)
      simp only [decide_eq_true_eq]
      exact or_congr_right ⟨mem_of_head?,first ec member⟩
    exact ⟨right,right⟩

-- The stream b for a command with the names a and b
theorem second_name_missed : execManaged [⟨0,[[97],[98]]⟩] ⟨[98],by decide⟩ = [] ∧ wanted [⟨0,[[97],[98]]⟩] ⟨[98],by decide⟩ ≠ [] := by
  constructor
  · rfl
  · simp [wanted]

end NgxRtmp.ExecFilter
