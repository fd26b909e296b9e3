import Mathlib

namespace NgxRtmp.Paths
open List

-- The parts of a path between its separators: n separators give n+1 parts.
def components [DecidableEq α] (sep : α) : List α → List (List α)
  | [] => [[]]
  | x::rest =>
    if x = sep then []::components sep rest
    else match components sep rest with
      | [] => [[x]]
      | part::parts => (x::part)::parts

-- What a component does to a place: nothing, one level up, or one level down.
inductive Move (α : Type) where
  | here
  | up
  | down (name : List α)
  deriving DecidableEq

def move [DecidableEq α] (dot : α) (part : List α) : Move α :=
  if part = [] ∨ part = [dot] then .here else if part = [dot,dot] then .up else .down part

-- `above` levels over the start and then down `names`, the innermost first.
structure Place (α : Type) where
  above : Nat
  names : List (List α)
  deriving DecidableEq, Repr

def start : Place α := ⟨0,[]⟩

def visit (top : Bool) (place : Place α) : Move α → Place α
  | .here => place
  | .down name => {place with names:=name::place.names}
  | .up => match place.names with
    | _::names => {place with names}
    | [] => if top then place else {place with above:=place.above+1}

def follow [DecidableEq α] (dot : α) (top : Bool) (place : Place α) (parts : List (List α)) : Place α :=
  parts.foldl (fun place part => visit top place (move dot part)) place

def resolve [DecidableEq α] (sep dot : α) (path : List α) : Place α :=
  follow dot (path.head? == some sep) start (components sep path)

def Inside (directory place : Place α) : Prop :=
  place.above = directory.above ∧ directory.names <:+ place.names

instance [DecidableEq α] (directory place : Place α) : Decidable (Inside directory place) := by
  unfold Inside; infer_instance

def graft (top : Bool) (directory place : Place α) : Place α :=
  ⟨directory.above+(if top then 0 else place.above-directory.names.length),
    place.names ++ directory.names.drop place.above⟩

theorem graft_start : graft top directory start = directory := by
  simp [graft,start]

theorem visit_graft : visit top (graft top directory place) step = graft top directory (visit false place step) := by
  obtain ⟨above,names⟩ := place
  cases step with
  | here => rfl
  | down name => rfl
  | up =>
    cases names with
    | cons name names => rfl
    | nil =>
      cases left : directory.names.drop above with
      | cons name rest =>
        have inner : above < directory.names.length := by
          apply Nat.not_le.mp
          intro out
          rw [drop_eq_nil_of_le out] at left
          cases left
        have next : directory.names.drop (above+1) = rest := by
          rw [← drop_drop,left]
          rfl
        have before : above-directory.names.length = 0 := by omega
        have after : above+1-directory.names.length = 0 := by omega
        simp [visit,graft,left,next,before,after]
      | nil =>
        have outer : directory.names.length ≤ above := drop_eq_nil_iff.mp left
        have next : directory.names.drop (above+1) = [] := drop_eq_nil_of_le (by omega)
        have after : above+1-directory.names.length = above-directory.names.length+1 := by omega
        cases top <;> simp [visit,graft,left,next,after]
        omega

section
variable [DecidableEq α] {sep dot : α} {top : Bool}

theorem components_ne_nil : components sep path ≠ [] := by
  cases path with
  | nil => simp [components]
  | cons x rest =>
    unfold components
    split
    · simp
    · split <;> simp

theorem components_append : components sep (first ++ sep::second) = components sep first ++ components sep second := by
  induction first with
  | nil => simp [components]
  | cons x rest ih =>
    simp only [cons_append,components,ih]
    by_cases same : x = sep
    · simp [same]
    · cases shape : components sep rest with
      | nil => exact absurd shape components_ne_nil
      | cons part parts => simp [same]

theorem components_clean (clean : sep ∉ path) : components sep path = [path] := by
  induction path with
  | nil => rfl
  | cons x rest ih =>
    have other : x ≠ sep := fun same => clean (by rw [same]; exact mem_cons_self)
    rw [components,if_neg other,ih fun inside => clean (mem_cons_of_mem _ inside)]

theorem components_text (split : components sep path = part::parts) :
    path = part ++ parts.flatMap (fun part => sep::part) ∧ sep ∉ part ∧ ∀ other ∈ parts, sep ∉ other := by
  induction path generalizing part parts with
  | nil =>
    simp only [components,List.cons.injEq] at split
    obtain ⟨rfl,rfl⟩ := split
    simp
  | cons x rest ih =>
    cases shape : components sep rest with
    | nil => exact absurd shape components_ne_nil
    | cons inner inners =>
      obtain ⟨text,clean,cleans⟩ := ih shape
      by_cases same : x = sep
      · simp only [components,same,if_true,shape,List.cons.injEq] at split
        obtain ⟨rfl,rfl⟩ := split
        refine ⟨by rw [text,same]; simp,by simp,?_⟩
        intro other inside
        rcases mem_cons.mp inside with rfl | inside
        · exact clean
        · exact cleans other inside
      · simp only [components,if_neg same,shape,List.cons.injEq] at split
        obtain ⟨rfl,rfl⟩ := split
        refine ⟨by rw [text]; simp,?_,cleans⟩
        simpa [Ne.symm same] using clean

theorem follow_append : follow dot top place (first ++ second) = follow dot top (follow dot top place first) second := by
  simp [follow]

theorem follow_graft : follow dot top (graft top directory place) parts = graft top directory (follow dot false place parts) := by
  induction parts generalizing place with
  | nil => rfl
  | cons part parts ih =>
    change follow dot top (visit top (graft top directory place) (move dot part)) parts = _
    rw [visit_graft,ih]
    rfl

theorem follow_from : follow dot top directory parts = graft top directory (follow dot false start parts) := by
  have grafted : follow dot top (graft top directory start) parts = graft top directory (follow dot false start parts) :=
    follow_graft
  rwa [graft_start] at grafted

end

-- The path never left the directory, or came back down by the names it had gone up.
theorem inside_graft :
    Inside directory (graft top directory place) ↔
      (top = true ∨ place.above ≤ directory.names.length) ∧ directory.names.take place.above <:+ place.names := by
  have tails : directory.names <:+ place.names ++ directory.names.drop place.above ↔
      directory.names.take place.above <:+ place.names := by
    constructor
    · rintro ⟨front,whole⟩
      refine ⟨front,?_⟩
      have same : front ++ directory.names.take place.above ++ directory.names.drop place.above =
          place.names ++ directory.names.drop place.above := by
        rw [append_assoc,take_append_drop,whole]
      exact append_cancel_right same
    · rintro ⟨front,whole⟩
      refine ⟨front,?_⟩
      rw [← whole,append_assoc,take_append_drop]
  unfold Inside graft
  rw [tails]
  apply and_congr_left
  intro _
  cases top <;> simp
  omega

end NgxRtmp.Paths
