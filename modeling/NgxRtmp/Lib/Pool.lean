import NgxRtmp.Lib.Cells

namespace NgxRtmp.Cells
open Function List

-- A heap shared by a free list (index 0) and a family of rings: what the
-- pointer of one index leads to.
def Held (h : Heap β) (n : Nat) (p : Option Nat) (xs : List Nat) : Prop :=
  if n = 0 then Seg h p xs none else Ring h p xs

-- `own n` are the cells of index n, and `ok n` is what every value stored there
-- satisfies.
structure Owns (ok : Nat → β → Prop) (h : Heap β) (links : Nat → Option Nat) (own : Nat → List Nat) : Prop where
  held : ∀ n, Held h n (links n) (own n)
  distinct : ∀ n, (own n).Nodup
  apart : ∀ m n a, a ∈ own m → a ∈ own n → m = n
  bound : ∀ n a, a ∈ own n → a < h.top
  sound : ∀ n a, a ∈ own n → ok n (h.val a)

theorem held_frame {next : Heap β} {h : Heap β} (same : ∀ x ∈ xs, next.cell x = h.cell x) (held : Held h n p xs) : Held next n p xs := by
  have links : ∀ x ∈ xs, next.next x = h.next x := by
    intro x member
    unfold Heap.next
    rw [same x member]
  unfold Held at held ⊢
  split at held
  · rename_i zero
    rw [if_pos zero]
    exact seg_frame links held
  · rename_i ring
    rw [if_neg ring]
    exact ring_frame links held

theorem held_free : Held h 0 p xs ↔ Seg h p xs none := by
  unfold Held
  rw [if_pos rfl]

theorem held_ring (ring : n ≠ 0) : Held h n p xs ↔ Ring h p xs := by
  unfold Held
  rw [if_neg ring]

theorem held_none : Held h n none xs ↔ xs = [] := by
  unfold Held
  split
  · cases xs with
    | nil => simp [Seg]
    | cons x xs => simp [Seg]
  · rfl

-- Everything that happens to the heap in one go concerns one index.
theorem owns_replace {next : Heap β} {h : Heap β} (owns : Owns ok h links own)
    (grown : h.top ≤ next.top) (frame : ∀ m, m ≠ n → ∀ a ∈ own m, next.cell a = h.cell a)
    (weaker : ∀ m, m ≠ n → ∀ v, ok m v → okAfter m v)
    (held : Held next n p xs) (distinct : xs.Nodup) (apart : ∀ m, m ≠ n → ∀ a ∈ own m, a ∉ xs)
    (bound : ∀ a ∈ xs, a < next.top) (sound : ∀ a ∈ xs, okAfter n (next.val a)) :
    Owns okAfter next (update links n p) (update own n xs) := by
  refine ⟨?_,?_,?_,?_,?_⟩
  · intro m
    by_cases same : m = n
    · subst same
      simpa only [update_self] using held
    · simp only [update_of_ne same]
      exact held_frame (frame m same) (owns.held m)
  · intro m
    by_cases same : m = n
    · subst same
      simpa only [update_self] using distinct
    · simpa only [update_of_ne same] using owns.distinct m
  · intro l m a
    by_cases left : l = n <;> by_cases right : m = n
    · exact fun _ _ => left.trans right.symm
    · subst left
      simp only [update_self,update_of_ne right]
      exact fun new old => absurd new (apart m right a old)
    · subst right
      simp only [update_self,update_of_ne left]
      exact fun old new => absurd new (apart l left a old)
    · simpa only [update_of_ne left,update_of_ne right] using owns.apart l m a
  · intro m a
    by_cases same : m = n
    · subst same
      simpa only [update_self] using bound a
    · simp only [update_of_ne same]
      exact fun member => lt_of_lt_of_le (owns.bound m a member) grown
  · intro m a
    by_cases same : m = n
    · subst same
      simpa only [update_self] using sound a
    · simp only [update_of_ne same]
      intro member
      have value : next.val a = h.val a := congrArg Cell.val (frame m same a member)
      rw [value]
      exact weaker m same _ (owns.sound m a member)

theorem owns_weaken {ok : Nat → β → Prop} (owns : Owns ok h links own)
    (weaker : ∀ n, ∀ a ∈ own n, ok n (h.val a) → okAfter n (h.val a)) : Owns okAfter h links own :=
  ⟨owns.held,owns.distinct,owns.apart,owns.bound,fun n a member => weaker n a member (owns.sound n a member)⟩

theorem owns_last (owns : Owns ok h links own) (ring : n ≠ 0) (found : links n = some a) : own n = (own n).dropLast ++ [a] := by
  have held := (held_ring ring).mp (owns.held n)
  rw [found] at held
  obtain ⟨ys,cells,_⟩ := held
  rw [cells,dropLast_concat]

theorem owns_first (owns : Owns ok h links own) (found : links 0 = some a) : ∃ rest, own 0 = a::rest := by
  have held := held_free.mp (owns.held 0)
  rw [found] at held
  cases cells : own 0 with
  | nil =>
    rw [cells] at held
    cases held
  | cons x rest =>
    rw [cells] at held
    cases held.1
    exact ⟨rest,rfl⟩

theorem owns_member (owns : Owns ok h links own) (found : links n = some a) : a ∈ own n := by
  by_cases zero : n = 0
  · subst zero
    obtain ⟨rest,cells⟩ := owns_first owns found
    simp [cells]
  · rw [owns_last owns zero found]
    simp

theorem owns_unheld (owns : Owns ok h links own) (none : links n = none) : own n = [] := by
  have held := owns.held n
  rw [none] at held
  exact held_none.mp held

theorem owns_setVal (owns : Owns ok h links own) (sound : ∀ n, a ∈ own n → ok n v) : Owns ok (h.setVal a v) links own := by
  refine ⟨fun n => ?_,owns.distinct,owns.apart,owns.bound,fun n x member => ?_⟩
  · have held := owns.held n
    unfold Held at held ⊢
    split
    · rename_i zero
      rw [if_pos zero] at held
      exact seg_setVal held
    · rename_i ring
      rw [if_neg ring] at held
      exact ring_setVal held
  · rw [setVal_val]
    by_cases same : x = a
    · rw [if_pos same]
      exact sound n (same ▸ member)
    · rw [if_neg same]
      exact owns.sound n x member

theorem alloc_cell {h : Heap β} (old : a < h.top) : (h.alloc v).cell a = h.cell a :=
  update_of_ne (ne_of_lt old) _ _

theorem setNext_cell {h : Heap β} (other : x ≠ a) : (h.setNext a p).cell x = h.cell x :=
  update_of_ne other _ _

theorem owns_supply {ok : Nat → β → Prop} (owns : Owns ok h links own) (sound : ok 0 v) :
    Owns ok (h.alloc v) (update links 0 (some h.top)) (update own 0 [h.top]) := by
  refine owns_replace owns (Nat.le_succ _) (fun m _ a member => alloc_cell (owns.bound m a member))
    (fun _ _ _ good => good) (held_free.mpr ⟨rfl,?_⟩) (nodup_singleton _) ?_ ?_ ?_
  · rw [alloc_next,if_pos rfl]
    rfl
  · intro m _ a member fresh
    cases mem_singleton.mp fresh
    exact lt_irrefl _ (owns.bound m _ member)
  · intro a fresh
    cases mem_singleton.mp fresh
    exact Nat.lt_succ_self _
  · intro a fresh
    cases mem_singleton.mp fresh
    rwa [alloc_val,if_pos rfl]

theorem owns_drop (owns : Owns ok h links own) (n : Nat) : Owns ok h (update links n none) (update own n []) :=
  owns_replace owns le_rfl (fun _ _ _ _ => rfl) (fun _ _ _ good => good) (held_none.mpr rfl) nodup_nil
    (fun _ _ _ _ member => by cases member) (fun _ member => by cases member) (fun _ member => by cases member)

def Heap.enter (h : Heap β) (a : Nat) : Option Nat → Heap β
  | none => h.setNext a (some a)
  | some last => (h.setNext a (h.next last)).setNext last (some a)

theorem enter_val {h : Heap β} : (h.enter a p).val x = h.val x := by
  cases p <;> simp [Heap.enter]

theorem enter_top {h : Heap β} : (h.enter a p).top = h.top := by
  cases p <;> rfl

theorem enter_ring (owns : Owns ok h links own) (ring : n ≠ 0) (fresh : a ∉ own n) :
    Ring (h.enter a (links n)) (some a) (own n ++ [a]) := by
  have held := (held_ring ring).mp (owns.held n)
  cases found : links n with
  | none =>
    rw [owns_unheld owns found]
    exact ring_single
  | some last =>
    rw [found] at held
    exact ring_insert held fresh (owns.distinct n)

theorem enter_cell (owns : Owns ok h links own) (other : x ≠ a) (apart : x ∉ own n) :
    (h.enter a (links n)).cell x = h.cell x := by
  cases found : links n with
  | none => exact setNext_cell other
  | some last =>
    have different : x ≠ last := by
      rintro rfl
      exact apart (owns_member owns found)
    exact (setNext_cell different).trans (setNext_cell other)

theorem owns_enter (owns : Owns ok h links own) (first : links 0 = some a) (ring : n ≠ 0)
    (fits : ok 0 (h.val a) → ok n (h.val a)) :
    Owns ok (h.enter a (links n)) (update (update links 0 (h.next a)) n (some a))
      (update (update own 0 (own 0).tail) n (own n ++ [a])) := by
  obtain ⟨rest,cells⟩ := owns_first owns first
  have free := held_free.mp (owns.held 0)
  have distinct := owns.distinct 0
  rw [first,cells] at free
  rw [cells] at distinct
  have member : a ∈ own 0 := by simp [cells]
  have tail : ∀ x ∈ (own 0).tail, x ∈ own 0 := fun x member => mem_of_mem_tail member
  have fresh : a ∉ own n := fun also => ring (owns.apart n 0 a also member)
  have without : Owns ok h (update links 0 (h.next a)) (update own 0 (own 0).tail) := by
    refine owns_replace owns le_rfl (fun _ _ _ _ => rfl) (fun _ _ _ good => good) (held_free.mpr ?_)
      (by rw [cells]; exact (nodup_cons.mp distinct).2) ?_ (fun x member => owns.bound 0 x (tail x member))
      (fun x member => owns.sound 0 x (tail x member))
    · rw [cells]
      exact free.2
    · exact fun m other x left right => other (owns.apart m 0 x left (tail x right))
  have gone : ∀ m, a ∉ update own 0 (own 0).tail m := by
    intro m
    by_cases zero : m = 0
    · subst zero
      rw [update_self,cells]
      exact (nodup_cons.mp distinct).1
    · rw [update_of_ne zero]
      exact fun also => zero (owns.apart m 0 a also member)
  have ringHeld : Ring (h.enter a (links n)) (some a) (own n ++ [a]) := enter_ring owns ring fresh
  refine owns_replace without (le_of_eq enter_top.symm) ?_ (fun _ _ _ good => good) ((held_ring ring).mpr ringHeld) ?_ ?_ ?_ ?_
  · intro m other x here
    have different : x ≠ a := by
      rintro rfl
      exact gone m here
    refine enter_cell owns different fun also => ?_
    have same := without.apart m n x here (by rwa [update_of_ne ring])
    exact other same
  · refine nodup_append.mpr ⟨owns.distinct n,nodup_singleton a,fun x left y right => ?_⟩
    cases mem_singleton.mp right
    rintro rfl
    exact fresh left
  · intro m other x here also
    rcases mem_append.mp also with old | new
    · exact other (without.apart m n x here (by rwa [update_of_ne ring]))
    · cases mem_singleton.mp new
      exact gone m here
  · intro x here
    rw [enter_top]
    rcases mem_append.mp here with old | new
    · exact owns.bound n x old
    · cases mem_singleton.mp new
      exact owns.bound 0 _ member
  · intro x here
    rw [enter_val]
    rcases mem_append.mp here with old | new
    · exact owns.sound n x old
    · cases mem_singleton.mp new
      exact fits (owns.sound 0 _ member)

-- A ring is cut open and its cells belong to no index for a while.
structure Loose (ok : β → Prop) (h : Heap β) (own : Nat → List Nat) (first : Option Nat) (last : Nat) (xs : List Nat) : Prop where
  list : Seg h first xs none
  ends : xs = xs.dropLast ++ [last]
  distinct : xs.Nodup
  apart : ∀ n, ∀ a ∈ own n, a ∉ xs
  bound : ∀ a ∈ xs, a < h.top
  sound : ∀ a ∈ xs, ok (h.val a)

theorem owns_cut (owns : Owns ok h links own) (ring : n ≠ 0) (found : links n = some a) :
    Owns ok (h.setNext a none) (update links n none) (update own n []) ∧
      Loose (ok n) (h.setNext a none) (update own n []) (h.next a) a (own n) := by
  have held := (held_ring ring).mp (owns.held n)
  rw [found] at held
  have apart : ∀ m, ∀ x ∈ update own n [] m, x ∉ own n := by
    intro m x here also
    by_cases same : m = n
    · subst same
      rw [update_self] at here
      cases here
    · rw [update_of_ne same] at here
      exact same (owns.apart m n x here also)
  constructor
  · refine owns_replace owns le_rfl (fun m other x here => setNext_cell ?_) (fun _ _ _ good => good)
      (held_none.mpr rfl) nodup_nil (fun _ _ _ _ member => by cases member) (fun _ member => by cases member)
      (fun _ member => by cases member)
    rintro rfl
    exact other (owns.apart m n x here (owns_member owns found))
  · refine ⟨ring_open held (owns.distinct n),owns_last owns ring found,owns.distinct n,apart,owns.bound n,?_⟩
    intro x member
    rw [setNext_val]
    exact owns.sound n x member

theorem owns_return (owns : Owns ok h links own) (loose : Loose (ok 0) h own first last xs) :
    Owns ok (h.setNext last (links 0)) (update links 0 first) (update own 0 (xs ++ own 0)) := by
  obtain ⟨list,ends,distinct,apart,bound,sound⟩ := loose
  have free := held_free.mp (owns.held 0)
  have member : last ∈ xs := by
    rw [ends]
    simp
  have all : (xs ++ own 0).Nodup := by
    refine nodup_append.mpr ⟨distinct,owns.distinct 0,fun x left y right => ?_⟩
    rintro rfl
    exact apart 0 x right left
  refine owns_replace owns le_rfl (fun m _ x here => setNext_cell ?_) (fun _ _ _ good => good)
    (held_free.mpr ?_) all ?_ ?_ ?_
  · rintro rfl
    exact apart m x here member
  · rw [ends] at list all ⊢
    exact seg_splice list free all
  · intro m other x here also
    rcases mem_append.mp also with left | right
    · exact apart m x here left
    · exact other (owns.apart m 0 x here right)
  · intro x here
    rcases mem_append.mp here with left | right
    · exact bound x left
    · exact owns.bound 0 x right
  · intro x here
    rw [setNext_val]
    rcases mem_append.mp here with left | right
    · exact sound x left
    · exact owns.sound 0 x right

end NgxRtmp.Cells
