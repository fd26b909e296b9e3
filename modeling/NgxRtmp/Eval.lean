import Mathlib

namespace NgxRtmp.Eval
open List

-- An ngx_buf_t: what is written, and the room from pos to end
structure Buf where
  data : List UInt8
  room : Nat
  fits : data.length ≤ room

def append (b : Buf) (data : List UInt8) : Buf :=
  if grows : b.room < b.data.length+data.length then ⟨b.data ++ data,2*b.data.length+data.length,by simp; omega⟩
  else ⟨b.data ++ data,b.room,by simp; omega⟩

structure Var (σ : Type u) where
  name : List UInt8
  handler : σ → List UInt8

inductive State where
  | normal
  | escape
  | name (data : List UInt8)
  | sname (data : List UInt8)

structure Str where
  data : List UInt8
  len : Nat

def letter (c : UInt8) : Bool := 97 ≤ c ∧ c ≤ 122 ∨ 65 ≤ c ∧ c ≤ 90

section Machine
variable (ctx : σ) (e : List (List (Var σ)))

def appendMatch (name : List UInt8) (b : Buf) (ee : Var σ) : Buf := if ee.name = name then append b (ee.handler ctx) else b

def appendVar (b : Buf) (name : List UInt8) : Buf := e.foldl (fun b table => table.foldl (appendMatch ctx name) b) b

def normal (b : Buf) (c : UInt8) : State × Buf :=
  if c = 36 then (.name [],b) else if c = 92 then (.escape,b) else (.normal,append b [c])

def step : State × Buf → UInt8 → State × Buf
  | (.sname name,b),c => if c ≠ 125 then (.sname (name ++ [c]),b) else (.normal,appendVar ctx e b name)
  | (.name name,b),c =>
    if c = 123 ∧ name = [] then (.sname [],b)
    else if letter c then (.name (name ++ [c]),b)
    else normal (appendVar ctx e b name) c
  | (.normal,b),c => normal b c
  | (.escape,b),c => (.normal,append b [c])

def finish : State × Buf → Buf
  | (.name name,b) => appendVar ctx e b name
  | (_,b) => b

def eval (input : List UInt8) : Str :=
  let b := append (finish ctx e (input.foldl (step ctx e) (.normal,⟨[],16,by decide⟩))) [0]
  ⟨b.data,b.data.length-1⟩

def valueOf (name : List UInt8) : List UInt8 := ((e.flatten.find? (·.name = name)).map (·.handler ctx)).getD []

end Machine

-- The template with the values put in. What a braced name or an escape that is cut off gives is left to `cut`.
def expand (value cut : List UInt8 → List UInt8) : List UInt8 → List UInt8
  | [] => []
  | c::rest =>
    if c = 36 then
      if rest.head? = some 123 then
        if 125 ∈ rest then value (rest.tail.takeWhile (· ≠ 125)) ++ expand value cut (rest.tail.dropWhile (· ≠ 125)).tail
        else cut (c::rest)
      else value (rest.takeWhile letter) ++ expand value cut (rest.dropWhile letter)
    else if c = 92 then
      match rest with
      | [] => cut [c]
      | d::rest => d::expand value cut rest
    else c::expand value cut rest
  termination_by text => text.length
  decreasing_by
    · have less := (dropWhile_sublist (· ≠ 125) (l:=rest.tail)).length_le
      simp only [length_tail,length_cons] at less ⊢
      omega
    · exact Nat.lt_succ_of_le (dropWhile_sublist letter).length_le
    · exact Nat.lt_succ_of_lt (Nat.lt_succ_self _)
    · simp

section Runs
variable {ctx : σ} {e : List (List (Var σ))} {b : Buf} {table : List (Var σ)} {name input : List UInt8}

theorem append_data : (append b data).data = b.data ++ data := by
  unfold append
  split <;> rfl

theorem matches_data (distinct : (table.map Var.name).Nodup) :
    (table.foldl (appendMatch ctx name) b).data = b.data ++ ((table.find? (·.name = name)).map (·.handler ctx)).getD [] := by
  induction table generalizing b with
  | nil => simp
  | cons ee table ih =>
    obtain ⟨apart,distinct⟩ := nodup_cons.mp distinct
    rw [foldl_cons,ih distinct,appendMatch]
    by_cases here : ee.name = name
    · have absent : table.find? (·.name = name) = none :=
        find?_eq_none.mpr fun other member same => apart (mem_map.mpr ⟨other,member,(of_decide_eq_true same).trans here.symm⟩)
      simp [here,absent,append_data]
    · simp [here]

theorem appendVar_data (distinct : (e.flatten.map Var.name).Nodup) (b : Buf) (name : List UInt8) :
    (appendVar ctx e b name).data = b.data ++ valueOf ctx e name := by
  rw [appendVar,← foldl_flatten]
  exact matches_data distinct

theorem name_run (begun : name ≠ [] ∨ input.head? ≠ some 123) :
    finish ctx e (input.foldl (step ctx e) (.name name,b)) =
      finish ctx e ((input.dropWhile letter).foldl (step ctx e) (.normal,appendVar ctx e b (name ++ input.takeWhile letter))) := by
  induction input generalizing name with
  | nil => simp [finish]
  | cons c rest ih =>
    have plain : ¬(c = 123 ∧ name = []) := by
      rintro ⟨rfl,rfl⟩
      simp at begun
    by_cases more : letter c
    · have begun : name ++ [c] ≠ [] := by simp
      have later := ih (.inl begun)
      simp only [append_assoc,singleton_append] at later
      simp only [foldl_cons,step,if_neg plain,if_pos more,takeWhile_cons_of_pos more,dropWhile_cons_of_pos more]
      exact later
    · simp only [foldl_cons,step,if_neg plain,if_neg more,takeWhile_cons_of_neg more,dropWhile_cons_of_neg more,append_nil]

theorem sname_run (name input : List UInt8) : finish ctx e (input.foldl (step ctx e) (.sname name,b)) =
    if 125 ∈ input then finish ctx e ((input.dropWhile (· ≠ 125)).tail.foldl (step ctx e)
      (.normal,appendVar ctx e b (name ++ input.takeWhile (· ≠ 125)))) else b := by
  induction input generalizing name with
  | nil => simp [finish]
  | cons c rest ih =>
    by_cases ends : c = 125
    · simp [step,ends]
    · have later := ih (name ++ [c])
      simp [step,ends,Ne.symm ends,later]

theorem braced_run (brace : input.head? = some 123) : finish ctx e (input.foldl (step ctx e) (.name [],b)) =
    finish ctx e (input.tail.foldl (step ctx e) (.sname [],b)) := by
  cases input with
  | nil => cases brace
  | cons x body =>
    obtain rfl := Option.some.inj brace
    rfl

theorem normal_run (distinct : (e.flatten.map Var.name).Nodup) : (finish ctx e (input.foldl (step ctx e) (.normal,b))).data =
    b.data ++ expand (valueOf ctx e) (fun _ => []) input := by
  have closing : ∀ rest : List UInt8, rest.head? = some 123 → (125 ∈ rest.tail ↔ 125 ∈ rest) := by
    intro rest brace
    cases rest with
    | nil => cases brace
    | cons x body =>
      obtain rfl := Option.some.inj brace
      simp
  fun_induction expand (valueOf ctx e) (fun _ => []) input generalizing b with
  | case1 => simp [finish]
  | case2 rest brace closed ih =>
    change (finish ctx e (rest.foldl (step ctx e) (.name [],b))).data = _
    rw [braced_run brace,sname_run,if_pos ((closing rest brace).mpr closed),ih,appendVar_data distinct,append_assoc,nil_append]
  | case3 rest brace cutOff =>
    change (finish ctx e (rest.foldl (step ctx e) (.name [],b))).data = _
    rw [braced_run brace,sname_run,if_neg fun closed => cutOff ((closing rest brace).mp closed),append_nil]
  | case4 rest brace ih =>
    change (finish ctx e (rest.foldl (step ctx e) (.name [],b))).data = _
    rw [name_run (.inr brace),ih,appendVar_data distinct,append_assoc,nil_append]
  | case5 => simp [step,normal,finish]
  | case6 d rest _ ih =>
    change (finish ctx e (rest.foldl (step ctx e) (.normal,append b [d]))).data = _
    rw [ih,append_data,append_assoc,singleton_append]
  | case7 c rest dollar slash ih =>
    have kept : step ctx e (.normal,b) c = (.normal,append b [c]) := by simp [step,normal,dollar,slash]
    rw [foldl_cons,kept,ih,append_data,append_assoc,singleton_append]

end Runs

-- A braced name or an escape that the template ends in gives nothing.
theorem eval_expands (ctx : σ) (e : List (List (Var σ))) (distinct : (e.flatten.map Var.name).Nodup) (input : List UInt8) :
    let out := expand (valueOf ctx e) (fun _ => []) input
    eval ctx e input = ⟨out ++ [0],out.length⟩ := by
  simp [eval,append_data,normal_run distinct]

-- $a and ${a}, where the value is a name again
theorem eval_value : eval () [[⟨[97],fun _ => [92,36,97]⟩]] [36,97,36,123,97,125] = ⟨[92,36,97,92,36,97,0],6⟩ := by
  refine (eval_expands () _ (by simp) _).trans ?_
  simp [expand,valueOf,letter]

-- A single backslash is not kept.
theorem backslash_lost : eval () [] [92] = ⟨[0],0⟩ ∧ expand (valueOf () []) id [92] = [92] := by
  constructor
  · rfl
  · simp [expand]

end NgxRtmp.Eval
