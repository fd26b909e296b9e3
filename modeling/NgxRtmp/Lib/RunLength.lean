import Mathlib

namespace NgxRtmp.RunLength
open List

-- The entry an index falls in and how many of that entry come before it.
def Sits : List Nat → Nat → Nat → Nat → Prop
  | [],_,_,_ => False
  | n::_,k,0,c => c = k ∧ k < n
  | n::rest,k,j+1,c => n ≤ k ∧ Sits rest (k-n) j c

theorem sits_iff : Sits counts k j c ↔ ∃ n, counts[j]? = some n ∧ c < n ∧ k = (counts.take j).sum+c := by
  induction counts generalizing k j with
  | nil => simp [Sits]
  | cons n counts ih =>
    cases j with
    | zero =>
      simp only [Sits,getElem?_cons_zero,Option.some.injEq,take_zero,sum_nil,zero_add]
      constructor
      · rintro ⟨rfl,less⟩
        exact ⟨n,rfl,less,rfl⟩
      · rintro ⟨m,rfl,less,rfl⟩
        exact ⟨rfl,less⟩
    | succ j =>
      simp only [Sits,getElem?_cons_succ,take_succ_cons,sum_cons]
      rw [ih]
      constructor
      · rintro ⟨le,m,entry,less,sum⟩
        exact ⟨m,entry,less,by omega⟩
      · rintro ⟨m,entry,less,sum⟩
        exact ⟨by omega,m,entry,less,by omega⟩

theorem sits_unique (first : Sits counts k j c) (second : Sits counts k j' c') : j = j' ∧ c = c' := by
  induction counts generalizing k j j' with
  | nil => cases first
  | cons n counts ih =>
    cases j with
    | zero =>
      cases j' with
      | zero => exact ⟨rfl,first.1.trans second.1.symm⟩
      | succ j' => exact absurd first.2 (Nat.not_lt.mpr second.1)
    | succ j =>
      cases j' with
      | zero => exact absurd second.2 (Nat.not_lt.mpr first.1)
      | succ j' =>
        obtain ⟨rfl,rfl⟩ := ih first.2 second.2
        exact ⟨rfl,rfl⟩

theorem sits_total {counts : List Nat} (less : k < counts.sum) : ∃ j c, Sits counts k j c := by
  induction counts generalizing k with
  | nil => simp at less
  | cons n counts ih =>
    by_cases here : k < n
    · exact ⟨0,k,rfl,here⟩
    · rw [sum_cons] at less
      obtain ⟨j,c,later⟩ := ih (show k-n < counts.sum by omega)
      exact ⟨j+1,c,by omega,later⟩

theorem sits_lt (sits : Sits counts k j c) : k < counts.sum := by
  induction counts generalizing k j with
  | nil => cases sits
  | cons n counts ih =>
    rw [sum_cons]
    cases j with
    | zero => exact lt_of_lt_of_le sits.2 (Nat.le_add_right _ _)
    | succ j =>
      have later := ih sits.2
      have le := sits.1
      omega

theorem take_sum_succ {counts : List Nat} (entry : counts[j]? = some n) : (counts.take (j+1)).sum = (counts.take j).sum+n := by
  rw [take_add_one,entry,sum_append]
  simp

theorem sits_on (sits : Sits counts k j c) (entry : counts[j]? = some n) (room : c+1 < n) : Sits counts (k+1) j (c+1) := by
  obtain ⟨_,_,_,sum⟩ := sits_iff.mp sits
  exact sits_iff.mpr ⟨n,entry,room,by omega⟩

theorem sits_front {counts : List Nat} (sits : Sits counts k j c) (entry : counts[j]? = some n) (full : ¬ c+1 < n)
    (next : counts[j+1]? = some m) (positive : 0 < m) : Sits counts (k+1) (j+1) 0 := by
  obtain ⟨size,same,less,sum⟩ := sits_iff.mp sits
  obtain rfl : n = size := by rw [entry] at same; exact Option.some.inj same
  have reached := take_sum_succ entry
  exact sits_iff.mpr ⟨m,next,positive,by omega⟩

theorem sits_next {counts : List Nat} (sits : Sits counts k j c) (entry : counts[j]? = some n) (full : ¬ c+1 < n)
    (following : ∀ m, counts[j+1]? = some m → 0 < m) (more : k+1 < counts.sum) : Sits counts (k+1) (j+1) 0 := by
  cases next : counts[j+1]? with
  | none =>
    obtain ⟨m,same,less,sum⟩ := sits_iff.mp sits
    obtain rfl : n = m := by rw [entry] at same; exact Option.some.inj same
    have reached := take_sum_succ entry
    have short := getElem?_eq_none_iff.mp next
    rw [take_of_length_le short] at reached
    omega
  | some m => exact sits_front sits entry full next (following m next)

theorem sits_turn (sits : Sits counts k j c) (entry : counts[j]? = some n) (full : ¬ c+1 < n)
    (positive : ∀ m ∈ counts, 0 < m) (more : k+1 < counts.sum) : Sits counts (k+1) (j+1) 0 :=
  sits_next sits entry full (fun m next => positive m (mem_of_getElem? next)) more

theorem sits_start (positive : ∀ m ∈ counts, 0 < m) (some_counts : counts ≠ []) : Sits counts 0 0 0 := by
  cases counts with
  | nil => exact absurd rfl some_counts
  | cons n counts => exact ⟨rfl,positive n mem_cons_self⟩

def expand (runs : List (Nat × α)) : List α := runs.flatMap fun run => replicate run.1 run.2

theorem expand_cons : expand (run::runs) = replicate run.1 run.2 ++ expand runs := rfl

theorem expand_at (sits : Sits (runs.map Prod.fst) k j c) : (expand runs)[k]? = runs[j]?.map Prod.snd := by
  induction runs generalizing k j with
  | nil => cases sits
  | cons run runs ih =>
    rw [expand_cons]
    cases j with
    | zero =>
      have less : k < run.1 := sits.2
      rw [getElem?_append_left (by simpa using less)]
      simp [less]
    | succ j =>
      have le : run.1 ≤ k := sits.1
      rw [getElem?_append_right (by simpa using le),length_replicate,ih sits.2]
      rfl

theorem expand_length : (expand runs).length = (runs.map Prod.fst).sum := by
  induction runs with
  | nil => rfl
  | cons run runs ih => rw [expand_cons,length_append,length_replicate,ih,map_cons,sum_cons]

theorem take_expand : (expand runs).take ((runs.map Prod.fst).take j).sum = expand (runs.take j) := by
  have both : expand runs = expand (runs.take j) ++ expand (runs.drop j) := by
    rw [expand,expand,expand,← flatMap_append,take_append_drop]
  rw [both,← map_take,← expand_length,take_left]

def weight (runs : List (Nat × Nat)) : Nat := (runs.map fun run => run.1*run.2).sum

theorem weight_cons (run : Nat × Nat) (runs : List (Nat × Nat)) : weight (run::runs) = run.1*run.2+weight runs := rfl

theorem weight_append (runs runs' : List (Nat × Nat)) : weight (runs ++ runs') = weight runs+weight runs' := by
  rw [weight,map_append,sum_append]
  rfl

theorem weight_take_succ {runs : List (Nat × Nat)} (entry : runs[j]? = some (n,value)) :
    weight (runs.take (j+1)) = weight (runs.take j)+n*value := by
  rw [take_add_one,entry,weight_append]
  rfl

theorem weight_take_le (runs : List (Nat × Nat)) (j : Nat) : weight (runs.take j) ≤ weight runs := by
  have both := weight_append (runs.take j) (runs.drop j)
  rw [take_append_drop] at both
  omega

theorem expand_sum (runs : List (Nat × Nat)) : (expand runs).sum = weight runs := by
  induction runs with
  | nil => rfl
  | cons run runs ih => rw [expand_cons,sum_append,sum_replicate_nat,ih,weight_cons]

theorem take_expand_sum (sits : Sits (runs.map Prod.fst) k j c) (entry : runs[j]? = some (n,value)) :
    ((expand runs).take k).sum = weight (runs.take j)+c*value := by
  induction runs generalizing k j with
  | nil => cases sits
  | cons run runs ih =>
    rw [expand_cons]
    cases j with
    | zero =>
      obtain ⟨rfl,less⟩ := sits
      cases entry
      have le : c ≤ n := le_of_lt less
      rw [take_append_of_le_length (by simpa using le),take_replicate,sum_replicate_nat,min_eq_left le]
      simp [weight]
    | succ j =>
      have le : run.1 ≤ k := sits.1
      rw [take_append,sum_append,length_replicate,take_of_length_le (by simpa using le),
        sum_replicate_nat,ih sits.2 entry,take_succ_cons,weight_cons,add_assoc]

end NgxRtmp.RunLength
