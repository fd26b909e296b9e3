import NgxRtmp.Lib.Cells

namespace NgxRtmp.Cells
open Function List

-- A place that holds a pointer: the root of a list, or the link of a cell.
abbrev Slot := Option Nat

def Slot.root (slot : Slot) (root q : Option Nat) : Option Nat :=
  match slot with
  | none => q
  | some _ => root

def Heap.store (h : Heap β) (slot : Slot) (q : Option Nat) : Heap β :=
  match slot with
  | none => h
  | some b => h.setNext b q

-- It gives the place of the pointer it stopped at and the pointer, and nothing when the list does not
-- end.
def Heap.seek (h : Heap β) (test : Nat → Bool) : Nat → Slot → Option Nat → Option (Slot × Option Nat)
  | _,slot,none => some (slot,none)
  | 0,_,some _ => none
  | fuel+1,slot,some a => if test a then some (slot,some a) else h.seek test fuel (some a) (h.next a)

def Heap.chain (h : Heap β) : Nat → Option Nat → Option (List Nat)
  | _,none => some []
  | 0,some _ => none
  | fuel+1,some a => (h.chain fuel (h.next a)).map (a::·)

def Heap.last (h : Heap β) : Nat → Nat → Option Nat
  | 0,_ => none
  | fuel+1,a =>
    match h.next a with
    | none => some a
    | some b => h.last fuel b

@[simp] theorem store_val (h : Heap β) (slot : Slot) (q : Option Nat) (x : Nat) : (h.store slot q).val x = h.val x := by
  cases slot with
  | none => rfl
  | some b => exact setNext_val

@[simp] theorem store_top (h : Heap β) (slot : Slot) (q : Option Nat) : (h.store slot q).top = h.top := by
  cases slot <;> rfl

theorem store_next (h : Heap β) (slot : Slot) (q : Option Nat) (x : Nat) :
    (h.store slot q).next x = if slot = some x then q else h.next x := by
  cases slot with
  | none => rfl
  | some b =>
    rw [Heap.store,setNext_next]
    by_cases same : x = b
    · simp [same]
    · simp [same,Ne.symm same]

theorem chain_seg (seg : Seg h p xs none) (enough : xs.length ≤ fuel) : h.chain fuel p = some xs := by
  induction xs generalizing p fuel with
  | nil =>
    obtain rfl : p = none := seg
    cases fuel <;> rfl
  | cons x xs ih =>
    obtain ⟨rfl,rest⟩ := seg
    cases fuel with
    | zero => cases enough
    | succ fuel => simp [Heap.chain,ih rest (Nat.le_of_succ_le_succ enough)]

theorem seg_unique (first : Seg h p xs none) (second : Seg h p ys none) : xs = ys := by
  have left := chain_seg first (le_max_left xs.length ys.length)
  have right := chain_seg second (le_max_right xs.length ys.length)
  exact Option.some.inj (left.symm.trans right)

theorem seg_passes (front : Seg h p before (some a)) (seg : Seg h p xs none) : a ∈ xs := by
  induction before generalizing p xs with
  | nil =>
    obtain rfl : p = some a := front
    cases xs with
    | nil => cases seg
    | cons x xs =>
      cases seg.1
      simp
  | cons b before ih =>
    obtain ⟨rfl,front⟩ := front
    cases xs with
    | nil => cases seg
    | cons x xs =>
      obtain ⟨same,seg⟩ := seg
      cases same
      exact mem_cons_of_mem _ (ih front seg)

theorem last_seg (seg : Seg h (h.next a) rest none) (enough : rest.length < fuel) : h.last fuel a = (a::rest).getLast? := by
  induction rest generalizing a fuel with
  | nil =>
    cases fuel with
    | zero => cases enough
    | succ fuel =>
      have stop : h.next a = none := seg
      simp [Heap.last,stop]
  | cons b rest ih =>
    cases fuel with
    | zero => cases enough
    | succ fuel =>
      rw [Heap.last,seg.1]
      simpa using ih seg.2 (Nat.lt_of_succ_lt_succ enough)

structure Stops (test : Nat → Bool) (xs before rest : List Nat) : Prop where
  split : xs = before ++ rest
  passed : ∀ x ∈ before, test x = false
  found : ∀ a ∈ rest.head?, test a = true

theorem seek_seg (test : Nat → Bool) (slot : Slot) (seg : Seg h p xs none) (enough : xs.length ≤ fuel) :
    ∃ before rest, Stops test xs before rest ∧ h.seek test fuel slot p = some (before.getLast?.or slot,rest.head?) := by
  induction xs generalizing p fuel slot with
  | nil =>
    obtain rfl : p = none := seg
    refine ⟨[],[],⟨rfl,by simp,by simp⟩,?_⟩
    cases fuel <;> rfl
  | cons x xs ih =>
    obtain ⟨rfl,tail⟩ := seg
    cases fuel with
    | zero => cases enough
    | succ fuel =>
      cases hit : test x with
      | true => exact ⟨[],x::xs,⟨rfl,by simp,by simpa using hit⟩,by simp [Heap.seek,hit]⟩
      | false =>
        obtain ⟨before,rest,⟨split,passed,found⟩,result⟩ := ih (some x) tail (Nat.le_of_succ_le_succ enough)
        refine ⟨x::before,rest,⟨by simp [split],by simpa [hit] using passed,found⟩,?_⟩
        rw [Heap.seek,hit,if_neg Bool.false_ne_true,result]
        cases before with
        | nil => rfl
        | cons y before => simp [List.getLast?_eq_some_getLast]

-- Lists that end: `head k` is the root of list k and `own k` its cells, none of them shared.
structure Family (h : Heap β) (head : κ → Option Nat) (own : κ → List Nat) : Prop where
  list : ∀ k, Seg h (head k) (own k) none
  distinct : ∀ k, (own k).Nodup
  apart : ∀ j k a, a ∈ own j → a ∈ own k → j = k
  bound : ∀ k a, a ∈ own k → a < h.top

section Lists

variable {κ : Type} {h g : Heap β} {head : κ → Option Nat} {own : κ → List Nat} {k : κ}

section

variable (family : Family h head own)
include family

theorem Family.length (k : κ) : (own k).length ≤ h.top := by
  have inside : own k ⊆ List.range h.top := fun a member => mem_range.mpr (family.bound k a member)
  simpa using ((family.distinct k).subperm inside).length_le

theorem Family.chain (k : κ) : h.chain h.top (head k) = some (own k) :=
  chain_seg (family.list k) (family.length k)

theorem Family.seek (test : Nat → Bool) (k : κ) : ∃ before rest,
    Stops test (own k) before rest ∧ h.seek test h.top none (head k) = some (before.getLast?,rest.head?) := by
  obtain ⟨before,rest,stops,result⟩ := seek_seg test none (family.list k) (family.length k)
  refine ⟨before,rest,stops,?_⟩
  rw [result,Option.or_none]

theorem Family.seek_cell (member : a ∈ own k) : ∃ before rest,
    own k = before ++ a::rest ∧ h.seek (· == a) h.top none (head k) = some (before.getLast?,some a) := by
  obtain ⟨before,rest,⟨split,passed,found⟩,result⟩ := family.seek (· == a) k
  cases rest with
  | nil =>
    have inside : a ∈ before := by simpa [split] using member
    simpa using passed a inside
  | cons x rest =>
    obtain rfl : x = a := by simpa using found x rfl
    exact ⟨before,rest,split,result⟩

theorem Family.root_none : head k = none ↔ own k = [] := by
  have list := family.list k
  cases cells : own k with
  | nil =>
    rw [cells] at list
    simpa [Seg] using list
  | cons x rest =>
    rw [cells] at list
    simp [list.1]

theorem Family.head_cons (first : head k = some a) : ∃ rest, own k = a::rest := by
  have list := family.list k
  cases cells : own k with
  | nil =>
    rw [cells,first] at list
    cases list
  | cons x rest =>
    rw [cells,first] at list
    cases list.1
    exact ⟨rest,rfl⟩

theorem Family.head_mem (first : head k = some a) : a ∈ own k := by
  obtain ⟨rest,cells⟩ := family.head_cons first
  simp [cells]

theorem Family.next_mem (member : a ∈ own k) (next : h.next a = some c) : c ∈ own k := by
  obtain ⟨before,rest,split⟩ := append_of_mem member
  have list := family.list k
  rw [split] at list ⊢
  obtain ⟨_,_,_,tail⟩ := seg_append.mp list
  cases rest with
  | nil => cases next.symm.trans tail
  | cons x rest =>
    cases next.symm.trans tail.1
    simp

theorem family_frame (grown : h.top ≤ g.top) (links : ∀ k, ∀ x ∈ own k, g.next x = h.next x) : Family g head own :=
  ⟨fun k => seg_frame (links k) (family.list k),family.distinct,family.apart,
    fun k a member => lt_of_lt_of_le (family.bound k a member) grown⟩

end

variable [DecidableEq κ]

theorem family_replace (family : Family h head own) (grown : h.top ≤ g.top)
    (frame : ∀ j, j ≠ k → ∀ x ∈ own j, g.next x = h.next x) (list : Seg g p xs none) (distinct : xs.Nodup)
    (apart : ∀ j, j ≠ k → ∀ x ∈ own j, x ∉ xs) (bound : ∀ x ∈ xs, x < g.top) :
    Family g (update head k p) (update own k xs) := by
  refine ⟨fun j => ?_,fun j => ?_,fun i j a left right => ?_,fun j a member => ?_⟩
  · by_cases same : j = k
    · subst same
      simpa only [update_self] using list
    · simp only [update_of_ne same]
      exact seg_frame (frame j same) (family.list j)
  · by_cases same : j = k
    · subst same
      simpa only [update_self] using distinct
    · simpa only [update_of_ne same] using family.distinct j
  · by_cases first : i = k <;> by_cases second : j = k
    · exact first.trans second.symm
    · subst first
      rw [update_self] at left
      rw [update_of_ne second] at right
      exact absurd left (apart j second a right)
    · subst second
      rw [update_self] at right
      rw [update_of_ne first] at left
      exact absurd right (apart i first a left)
    · rw [update_of_ne first] at left
      rw [update_of_ne second] at right
      exact family.apart i j a left right
  · by_cases same : j = k
    · subst same
      rw [update_self] at member
      exact bound a member
    · rw [update_of_ne same] at member
      exact lt_of_lt_of_le (family.bound j a member) grown

theorem family_drop (family : Family h head own) (k : κ) : Family h (update head k none) (update own k []) :=
  family_replace family le_rfl (fun _ _ _ _ => rfl) rfl nodup_nil (by simp) (by simp)

theorem family_push (family : Family h head own) (grown : h.top ≤ g.top) (fresh : ∀ j, a ∉ own j) (inside : a < g.top)
    (links : ∀ x, g.next x = if x = a then head k else h.next x) :
    Family g (update head k (some a)) (update own k (a::own k)) := by
  have same : ∀ j, ∀ x ∈ own j, g.next x = h.next x := by
    intro j x member
    rw [links,if_neg]
    rintro rfl
    exact fresh j member
  refine family_replace family grown (fun j _ => same j) ⟨rfl,?_⟩ ?_ ?_ ?_
  · rw [links,if_pos rfl]
    exact seg_frame (same k) (family.list k)
  · exact nodup_cons.mpr ⟨fresh k,family.distinct k⟩
  · intro j other x member
    rw [mem_cons,not_or]
    refine ⟨?_,fun also => other (family.apart j k x member also)⟩
    rintro rfl
    exact fresh j member
  · intro x member
    rcases mem_cons.mp member with rfl | old
    · exact inside
    · exact lt_of_lt_of_le (family.bound k x old) grown

theorem seg_store (seg : Seg h p (before ++ rest) none) (distinct : before.Nodup)
    (links : ∀ x ∈ before, g.next x = if before.getLast? = some x then q else h.next x) (tail : Seg g q xs none) :
    Seg g (Slot.root before.getLast? p q) (before ++ xs) none := by
  rcases eq_nil_or_concat before with rfl | ⟨front,b,rfl⟩
  · exact tail
  · rw [concat_eq_append] at *
    have apart : b ∉ front := fun member => (nodup_append.mp distinct).2.2 b member b (by simp) rfl
    obtain ⟨r,start,_⟩ := seg_append.mp seg
    obtain ⟨start,_⟩ := seg_snoc.mp start
    have last : (front ++ [b]).getLast? = some b := List.getLast?_concat
    rw [last] at links ⊢
    refine seg_append.mpr ⟨q,seg_snoc.mpr ⟨seg_frame (fun x member => ?_) start,?_⟩,tail⟩
    · rw [links x (by simp [member]),if_neg]
      rintro ⟨⟩
      exact apart member
    · rw [links b (by simp),if_pos rfl]

theorem family_append (family : Family h head own) (grown : h.top ≤ g.top) (fresh : ∀ j, a ∉ own j) (inside : a < g.top)
    (links : ∀ x, g.next x = if x = a then none else if (own k).getLast? = some x then some a else h.next x) :
    Family g (update head k (Slot.root (own k).getLast? (head k) (some a)))
      (update own k (own k ++ [a])) := by
  have other : ∀ j, ∀ x ∈ own j, x ≠ a := by
    rintro j x member rfl
    exact fresh j member
  refine family_replace family grown (fun j different x member => ?_) ?_ ?_ ?_ ?_
  · rw [links,if_neg (other j x member),if_neg]
    exact fun last => different (family.apart j k x member (mem_of_getLast? last))
  · refine seg_store (show Seg h (head k) (own k ++ []) none by simpa using family.list k) (family.distinct k) (fun x member => ?_) ⟨rfl,?_⟩
    · rw [links,if_neg (other k x member)]
    · rw [links,if_pos rfl]
      rfl
  · refine nodup_append.mpr ⟨family.distinct k,nodup_singleton a,fun x left y right => ?_⟩
    cases mem_singleton.mp right
    exact other k x left
  · intro j different x member also
    rcases mem_append.mp also with old | new
    · exact different (family.apart j k x member old)
    · exact other j x member (mem_singleton.mp new)
  · intro x member
    rcases mem_append.mp member with old | new
    · exact lt_of_lt_of_le (family.bound k x old) grown
    · exact (mem_singleton.mp new) ▸ inside

theorem mem_appended (own : κ → List Nat) (k : κ) (a : Nat) : x ∈ update own k (own k ++ [a]) j ↔ x ∈ own j ∨ j = k ∧ x = a := by
  by_cases same : j = k
  · subst same
    simp
  · simp [same]

section

variable (family : Family h head own)
include family

theorem Family.mem_removed (split : own k = before ++ a::rest) : x ∈ update own k (before ++ rest) j ↔ x ∈ own j ∧ x ≠ a := by
  have entry : a ∈ own k := by simp [split]
  by_cases same : j = k
  · subst same
    have distinct := family.distinct j
    rw [split] at distinct
    have gone := (nodup_cons.mp (nodup_middle.mp distinct)).1
    rw [update_self,split]
    constructor
    · intro member
      refine ⟨?_,fun same => gone (same ▸ member)⟩
      exact (mem_append.mp member).elim (mem_append_left _) fun last => mem_append_right _ (mem_cons_of_mem _ last)
    · intro ⟨member,other⟩
      simpa [other] using member
  · rw [update_of_ne same]
    refine ⟨fun member => ⟨member,fun here => ?_⟩,And.left⟩
    exact same (family.apart j k a (here ▸ member) entry)

theorem family_remove (grown : h.top ≤ g.top) (split : own k = before ++ a::rest)
    (links : ∀ x, g.next x = if before.getLast? = some x then h.next a else h.next x) :
    Family g (update head k (Slot.root before.getLast? (head k) (h.next a)))
      (update own k (before ++ rest)) := by
  have list := family.list k
  have distinct := family.distinct k
  rw [split] at list distinct
  obtain ⟨front,tail,apart⟩ := nodup_append.mp distinct
  have member : ∀ x ∈ before ++ rest, x ∈ own k := by
    intro x here
    rw [split]
    rcases mem_append.mp here with left | right
    · simp [left]
    · simp [right]
  refine family_replace family grown (fun j different x here => ?_) ?_ ?_ ?_ ?_
  · rw [links,if_neg]
    exact fun last => different (family.apart j k x here (member x (by simp [mem_of_getLast? last])))
  · obtain ⟨_,_,_,second⟩ := seg_append.mp list
    refine seg_store list front (fun x _ => links x) (seg_frame (fun x here => ?_) second)
    rw [links,if_neg]
    exact fun last => apart x (mem_of_getLast? last) x (by simp [here]) rfl
  · refine nodup_append.mpr ⟨front,(nodup_cons.mp tail).2,fun x left y right => apart x left y (by simp [right])⟩
  · exact fun j different x here also => different (family.apart j k x here (member x also))
  · exact fun x here => lt_of_lt_of_le (family.bound k x (member x here)) grown

theorem family_splice (other : j ≠ k) (grown : h.top ≤ g.top) (last : (own k).getLast? = some b)
    (links : ∀ x, g.next x = if x = b then head j else h.next x) :
    Family g (update (update head k none) j (head k))
      (update (update own k []) j (own k ++ own j)) := by
  have inside : b ∈ own k := mem_of_getLast? last
  have frame : ∀ i, i ≠ k → ∀ x ∈ own i, g.next x = h.next x := by
    intro i different x member
    rw [links,if_neg]
    rintro rfl
    exact different (family.apart i k x member inside)
  have rest : ∀ i, ∀ x ∈ update own k [] i, i ≠ k ∧ x ∈ own i := by
    intro i x member
    by_cases same : i = k
    · simp [same] at member
    · rw [update_of_ne same] at member
      exact ⟨same,member⟩
  refine family_replace (family_drop family k) grown (fun i _ x member => ?_) ?_ ?_ ?_ ?_
  · obtain ⟨different,old⟩ := rest i x member
    exact frame i different x old
  · have moved := seg_store (q:=head j) (show Seg h (head k) (own k ++ []) none by simpa using family.list k)
      (family.distinct k) (fun x _ => ?_) (seg_frame (frame j other) (family.list j))
    · rwa [last] at moved
    · rw [links,last]
      by_cases same : x = b
      · simp [same]
      · simp [same,Ne.symm same]
  · refine nodup_append.mpr ⟨family.distinct k,family.distinct j,fun x left y right same => ?_⟩
    exact other (family.apart j k x (same ▸ right) left)
  · intro i different x member also
    obtain ⟨apart,old⟩ := rest i x member
    rcases mem_append.mp also with left | right
    · exact apart (family.apart i k x old left)
    · exact different (family.apart i j x old right)
  · intro x member
    rcases mem_append.mp member with left | right
    · exact lt_of_lt_of_le (family.bound k x left) grown
    · exact lt_of_lt_of_le (family.bound j x right) grown

theorem family_reuse (other : j ≠ k) (cells : own j = a::rest) (grown : h.top ≤ g.top)
    (links : ∀ x, g.next x = if x = a then none else if (own k).getLast? = some x then some a else h.next x) :
    Family g (update (update head j (h.next a)) k (Slot.root (own k).getLast? (head k) (some a)))
      (update (update own j rest) k (own k ++ [a])) := by
  have member : a ∈ own j := by simp [cells]
  have popped : Family h (update head j (h.next a)) (update own j rest) :=
    family_remove family le_rfl (show own j = [] ++ a::rest from cells) fun _ => rfl
  have fresh : ∀ i, a ∉ update own j rest i := by
    intro i here
    by_cases same : i = j
    · subst same
      rw [update_self] at here
      exact (nodup_cons.mp (cells ▸ family.distinct i)).1 here
    · rw [update_of_ne same] at here
      exact same (family.apart i j a here member)
  have appended := family_append (k:=k) (a:=a) (g:=g) popped grown fresh (lt_of_lt_of_le (family.bound j a member) grown)
  simp only [update_of_ne other.symm] at appended
  exact appended links

theorem family_recycle (other : j ≠ k) (split : own k = before ++ a::rest) :
    Family ((h.store before.getLast? (h.next a)).setNext a (head j))
      (update (update head k (Slot.root before.getLast? (head k) (h.next a))) j (some a))
      (update (update own k (before ++ rest)) j (a::own j)) := by
  have member : a ∈ own k := by simp [split]
  have removed := family_remove (k:=k) (g:=h.store before.getLast? (h.next a)) family (le_of_eq (store_top _ _ _).symm) split
    fun x => store_next _ _ _ x
  have gone : ∀ i, a ∉ update own k (before ++ rest) i := by
    intro i here
    by_cases same : i = k
    · subst same
      have once := family.distinct i
      rw [split] at once
      rw [update_self] at here
      exact (nodup_cons.mp (nodup_middle.mp once)).1 here
    · rw [update_of_ne same] at here
      exact same (family.apart i k a here member)
  have pushed := family_push (k:=j) (a:=a) (g:=(h.store before.getLast? (h.next a)).setNext a (head j)) removed le_rfl gone
    (by simpa [Heap.setNext] using family.bound k a member)
  simp only [update_of_ne other] at pushed
  exact pushed fun x => setNext_next

end

end Lists

end NgxRtmp.Cells
