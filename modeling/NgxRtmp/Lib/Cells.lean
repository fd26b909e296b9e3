import Mathlib

namespace NgxRtmp.Cells
open List

-- Linked cells at addresses that are never reused; from `top` on they are free.
structure Cell (β : Type) where
  val : β
  next : Option Nat

structure Heap (β : Type) where
  cell : Nat → Cell β
  top : Nat

def Heap.val (h : Heap β) (a : Nat) : β := (h.cell a).val
def Heap.next (h : Heap β) (a : Nat) : Option Nat := (h.cell a).next

def Heap.alloc (h : Heap β) (v : β) : Heap β := ⟨Function.update h.cell h.top ⟨v,none⟩,h.top+1⟩
def Heap.setNext (h : Heap β) (a : Nat) (p : Option Nat) : Heap β := {h with cell:=Function.update h.cell a ⟨h.val a,p⟩}
def Heap.setVal (h : Heap β) (a : Nat) (v : β) : Heap β := {h with cell:=Function.update h.cell a ⟨v,h.next a⟩}

@[simp] theorem setVal_top {h : Heap β} : (h.setVal a v).top = h.top := rfl

theorem alloc_val {h : Heap β} : (h.alloc v).val a = if a = h.top then v else h.val a := by
  unfold Heap.alloc Heap.val
  by_cases equal : a = h.top <;> simp [equal]

theorem alloc_next {h : Heap β} : (h.alloc v).next a = if a = h.top then none else h.next a := by
  unfold Heap.alloc Heap.next
  by_cases equal : a = h.top <;> simp [equal]

@[simp] theorem setNext_val {h : Heap β} : (h.setNext a p).val x = h.val x := by
  unfold Heap.setNext Heap.val
  by_cases equal : x = a <;> simp [equal]

theorem setNext_next {h : Heap β} : (h.setNext a p).next x = if x = a then p else h.next x := by
  unfold Heap.setNext Heap.next
  by_cases equal : x = a <;> simp [equal]

theorem setVal_val (h : Heap β) (a : Nat) (v : β) (x : Nat) : (h.setVal a v).val x = if x = a then v else h.val x := by
  unfold Heap.setVal Heap.val
  by_cases equal : x = a <;> simp [equal]

@[simp] theorem setVal_next (h : Heap β) (a : Nat) (v : β) (x : Nat) : (h.setVal a v).next x = h.next x := by
  unfold Heap.setVal Heap.next
  by_cases equal : x = a <;> simp [equal]

-- The cells met on the way from one pointer to another.
def Seg (h : Heap β) : Option Nat → List Nat → Option Nat → Prop
  | p,[],q => p = q
  | p,x::xs,q => p = some x ∧ Seg h (h.next x) xs q

theorem seg_append : Seg h p (xs ++ ys) q ↔ ∃ r, Seg h p xs r ∧ Seg h r ys q := by
  induction xs generalizing p with
  | nil => simp [Seg]
  | cons x xs ih => simp [Seg,ih,and_assoc]

theorem seg_snoc : Seg h p (xs ++ [x]) q ↔ Seg h p xs (some x) ∧ h.next x = q := by
  rw [seg_append]
  constructor
  · rintro ⟨r,first,rfl,last⟩
    exact ⟨first,last⟩
  · rintro ⟨first,last⟩
    exact ⟨some x,first,rfl,last⟩

theorem seg_frame {h next : Heap β} (same : ∀ x ∈ xs, next.next x = h.next x) (seg : Seg h p xs q) : Seg next p xs q := by
  induction xs generalizing p with
  | nil => exact seg
  | cons x xs ih =>
    refine ⟨seg.1,?_⟩
    rw [same x (by simp)]
    exact ih (fun y member => same y (by simp [member])) seg.2

theorem seg_setNext (seg : Seg h p xs q) (apart : a ∉ xs) : Seg (h.setNext a r) p xs q := by
  refine seg_frame (fun x member => ?_) seg
  rw [setNext_next,if_neg]
  rintro rfl
  exact apart member

theorem seg_setVal {h : Heap β} (seg : Seg h p xs q) : Seg (h.setVal a v) p xs q :=
  seg_frame (fun x _ => setVal_next h a v x) seg

theorem seg_alloc {h : Heap β} (seg : Seg h p xs q) (bound : ∀ x ∈ xs, x < h.top) : Seg (h.alloc v) p xs q := by
  refine seg_frame (fun x member => ?_) seg
  rw [alloc_next,if_neg (ne_of_lt (bound x member))]

theorem seg_redirect (seg : Seg h p (xs ++ [last]) q) (apart : last ∉ xs) : Seg (h.setNext last r) p (xs ++ [last]) r := by
  obtain ⟨first,_⟩ := seg_snoc.mp seg
  refine seg_snoc.mpr ⟨seg_setNext first apart,?_⟩
  rw [setNext_next,if_pos rfl]

def Heap.follow (h : Heap β) : Nat → Option Nat → List Nat
  | 0,_ => []
  | _+1,none => []
  | fuel+1,some a => a::h.follow fuel (h.next a)

theorem follow_seg (seg : Seg h p xs none) (enough : xs.length < fuel) : h.follow fuel p = xs := by
  induction xs generalizing p fuel with
  | nil =>
    obtain rfl : p = none := seg
    cases fuel <;> rfl
  | cons x xs ih =>
    obtain ⟨rfl,rest⟩ := seg
    cases fuel with
    | zero => cases enough
    | succ fuel =>
      change x::h.follow fuel (h.next x) = x::xs
      rw [ih rest (Nat.lt_of_succ_lt_succ enough)]

-- A circular list is held by its last cell.
def Ring (h : Heap β) (p : Option Nat) (xs : List Nat) : Prop :=
  match p with
  | none => xs = []
  | some last => ∃ ys, xs = ys ++ [last] ∧ Seg h (h.next last) xs (h.next last)

theorem ring_frame {h next : Heap β} (same : ∀ x ∈ xs, next.next x = h.next x) (ring : Ring h p xs) : Ring next p xs := by
  cases p with
  | none => exact ring
  | some last =>
    obtain ⟨ys,rfl,seg⟩ := ring
    refine ⟨ys,rfl,?_⟩
    rw [same last (by simp)]
    exact seg_frame same seg

theorem ring_setVal {h : Heap β} (ring : Ring h p xs) : Ring (h.setVal a v) p xs :=
  ring_frame (fun x _ => setVal_next h a v x) ring

theorem ring_single {h : Heap β} : Ring (h.setNext a (some a)) (some a) [a] := by
  refine ⟨[],rfl,?_⟩
  rw [setNext_next,if_pos rfl]
  refine ⟨rfl,?_⟩
  rw [setNext_next,if_pos rfl]
  rfl

def Heap.around (h : Heap β) (last : Nat) : Nat → Option Nat → List Nat
  | 0,_ => []
  | _+1,none => []
  | fuel+1,some a => a::if a = last then [] else h.around last fuel (h.next a)

theorem around_seg (seg : Seg h p (ys ++ [last]) q) (apart : last ∉ ys) (enough : ys.length < fuel) :
    h.around last fuel p = ys ++ [last] := by
  induction ys generalizing p fuel with
  | nil =>
    obtain ⟨rfl,_⟩ := seg
    cases fuel with
    | zero => cases enough
    | succ fuel => simp [Heap.around]
  | cons y ys ih =>
    obtain ⟨rfl,rest⟩ := seg
    cases fuel with
    | zero => cases enough
    | succ fuel =>
      have other : y ≠ last := fun same => apart (by simp [same])
      have tail := ih rest (fun member => apart (by simp [member])) (Nat.lt_of_succ_lt_succ enough)
      simp only [Heap.around,if_neg other,tail,cons_append]

theorem around_ring (ring : Ring h (some last) xs) (distinct : xs.Nodup) (enough : xs.length ≤ fuel) :
    h.around last fuel (h.next last) = xs := by
  obtain ⟨ys,rfl,seg⟩ := ring
  refine around_seg seg (fun member => (nodup_append.mp distinct).2.2 last member last (by simp) rfl) ?_
  rw [length_append] at enough
  exact enough

theorem ring_insert (ring : Ring h (some last) xs) (fresh : a ∉ xs) (distinct : xs.Nodup) :
    Ring ((h.setNext a (h.next last)).setNext last (some a)) (some a) (xs ++ [a]) := by
  obtain ⟨ys,rfl,seg⟩ := ring
  have different : a ≠ last := by
    rintro rfl
    exact fresh (by simp)
  have apart : last ∉ ys := fun member => (nodup_append.mp distinct).2.2 last member last (by simp) rfl
  have next_a : ((h.setNext a (h.next last)).setNext last (some a)).next a = h.next last := by
    rw [setNext_next,if_neg different,setNext_next,if_pos rfl]
  refine ⟨ys ++ [last],rfl,?_⟩
  rw [next_a]
  exact seg_snoc.mpr ⟨seg_redirect (seg_setNext seg fresh) apart,next_a⟩

theorem ring_open (ring : Ring h (some last) xs) (distinct : xs.Nodup) : Seg (h.setNext last none) (h.next last) xs none := by
  obtain ⟨ys,rfl,seg⟩ := ring
  exact seg_redirect seg fun member => (nodup_append.mp distinct).2.2 last member last (by simp) rfl

theorem seg_splice (seg : Seg h p (xs ++ [last]) none) (tail : Seg h q free none)
    (distinct : (xs ++ [last] ++ free).Nodup) : Seg (h.setNext last q) p (xs ++ [last] ++ free) none := by
  obtain ⟨own,_,between⟩ := nodup_append.mp distinct
  have apart : last ∉ xs := fun member => (nodup_append.mp own).2.2 last member last (by simp) rfl
  refine seg_append.mpr ⟨q,seg_redirect seg apart,seg_setNext tail fun member => ?_⟩
  exact between last (by simp) last member rfl

end NgxRtmp.Cells
