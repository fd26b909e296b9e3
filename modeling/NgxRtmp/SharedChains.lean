import NgxRtmp.SharedBufs

namespace NgxRtmp.Shared
open Function (update update_of_ne update_self)
open Cells OutQueue List

-- The lists that share the heap: the free list of each server, and each chain that
-- is referred to.
inductive Key where
  | free (cscf : Nat)
  | chain (c : Nat)
  deriving DecidableEq

def heads (free : Nat → Option Nat) (refs : List Nat) : Key → Option Nat
  | .free v => free v
  | .chain c => if c ∈ refs then some c else none

theorem heads_free : heads (update free v p) refs = update (heads free refs) (.free v) p := by
  funext k
  cases k with
  | free w =>
    by_cases same : w = v
    · simp [heads,same]
    · simp [heads,same]
  | chain c => simp [heads]

theorem heads_cons : heads free (c::refs) = update (heads free refs) (.chain c) (some c) := by
  funext k
  cases k with
  | free w => simp [heads]
  | chain d =>
    by_cases same : d = c
    · simp [heads,same]
    · simp [heads,same]

theorem heads_last (apart : c ∉ refs) : heads free refs = update (heads free (c::refs)) (.chain c) none := by
  funext k
  cases k with
  | free w => simp [heads]
  | chain d =>
    by_cases same : d = c
    · simp [heads,same,apart]
    · simp [heads,same]

theorem heads_perm (same : ∀ c, c ∈ refs ↔ c ∈ others) : heads free refs = heads free others := by
  funext k
  cases k with
  | free w => rfl
  | chain c => simp only [heads,same]

-- A free list has its server's size, and the buffers of one chain are all of one size.
structure Sized (chunkSize : Nat → Nat) (p : Pool) (own : Key → List Nat) : Prop where
  free : ∀ v, ∀ x ∈ own (.free v), p.size x = chunkSize v
  chain : ∀ c, ∀ x ∈ own (.chain c), p.size x = p.size c

-- `refs` lists every reference to a chain, once for each holder.
structure Linked (chunkSize : Nat → Nat) (sized : Prop) (p : Pool) (refs : List Nat) (own : Key → List Nat) : Prop where
  family : Family p.heap (heads p.free refs) own
  counted : ∀ c ∈ refs, (p.heap.val c).ref = refs.count c
  history : ∀ c, p.builds c = p.puts c+(if c ∈ refs then 1 else 0)
  fits : sized → Sized chunkSize p own

structure Grows (p next : Pool) : Prop where
  top : p.heap.top ≤ next.heap.top
  size : ∀ x, x < p.heap.top → next.size x = p.size x

theorem Grows.refl (p : Pool) : Grows p p := ⟨le_rfl,fun _ _ => rfl⟩

theorem Grows.trans (left : Grows p q) (right : Grows q r) : Grows p r :=
  ⟨le_trans left.top right.top,
    fun x below => (right.size x (lt_of_lt_of_le below left.top)).trans (left.size x below)⟩

theorem size_setNext {p : Pool} (a : Nat) (q : Option Nat) (x : Nat) :
    Pool.size {p with heap:=p.heap.setNext a q} x = p.size x := by
  rw [Pool.size,setNext_val]
  rfl

theorem size_setRef (h : Heap Buf) (a ref x : Nat) : ((h.setVal a {h.val a with ref}).val x).size = (h.val x).size := by
  rw [setVal_val]
  split
  · rename_i same
    rw [same]
  · rfl

section Pools
variable {chunkSize : Nat → Nat} {sized : Prop} {p : Pool} {refs : List Nat} {own : Key → List Nat}

section

variable (linked : Linked chunkSize sized p refs own)
include linked

theorem Linked.first (member : c ∈ refs) : c ∈ own (.chain c) := by
  refine linked.family.head_mem (k:=.chain c) ?_
  simp [heads,member]

theorem Linked.bound (member : c ∈ refs) : c < p.heap.top :=
  linked.family.bound _ _ (linked.first member)

theorem Linked.unused (apart : c ∉ refs) : own (.chain c) = [] := by
  refine linked.family.root_none.mp ?_
  simp [heads,apart]

theorem Linked.used (member : x ∈ own (.chain c)) : c ∈ refs := by
  refine Decidable.byContradiction fun apart => ?_
  rw [linked.unused apart] at member
  cases member

theorem Linked.keeps_fit {next : Pool} (grown : Grows p next)
    (fewer : ∀ k, ∀ x ∈ left k, x ∈ own k) (on : sized) : Sized chunkSize next left := by
  refine ⟨fun v x member => ?_,fun c x member => ?_⟩
  · have old := fewer _ x member
    rw [grown.size x (linked.family.bound _ _ old)]
    exact (linked.fits on).free v x old
  · have old := fewer _ x member
    rw [grown.size x (linked.family.bound _ _ old),grown.size c (linked.bound (linked.used old))]
    exact (linked.fits on).chain c x old

theorem linked_perm (perm : refs.Perm others) : Linked chunkSize sized p others own := by
  have same : ∀ c, c ∈ refs ↔ c ∈ others := fun c => perm.mem_iff
  refine ⟨heads_perm same ▸ linked.family,fun c member => ?_,fun c => ?_,linked.fits⟩
  · rw [← perm.count_eq]
    exact linked.counted c ((same c).mpr member)
  · simpa only [same] using linked.history c

end

structure Loose (chunkSize : Nat → Nat) (sized : Prop) (cscf a : Nat) (p : Pool) (own : Key → List Nat) : Prop where
  apart : ∀ k, a ∉ own k
  inside : a < p.heap.top
  next : p.heap.next a = none
  ref : (p.heap.val a).ref = 1
  size : sized → p.size a = chunkSize cscf

theorem Linked.fresh (linked : Linked chunkSize sized p refs own) (loose : Loose chunkSize sized cscf a p own) : a ∉ refs :=
  fun member => loose.apart _ (linked.first member)

def Allocates (chunkSize : Nat → Nat) (sized : Prop) (refs : List Nat) (own : Key → List Nat) (p : Pool) (cscf : Nat)
    (result : Nat × Pool) : Prop :=
  ∃ own', Linked chunkSize sized result.2 refs own' ∧ Loose chunkSize sized cscf result.1 result.2 own' ∧
    Grows p result.2 ∧ ∀ c, own' (.chain c) = own (.chain c)

section

variable (linked : Linked chunkSize sized p refs own)
include linked

theorem new_allocates (cscf : Nat) :
    Allocates chunkSize sized refs own p cscf (p.heap.top,{p with heap:=p.heap.alloc ⟨1,chunkSize cscf⟩}) := by
  have fresh : ∀ k, p.heap.top ∉ own k := fun k member => lt_irrefl _ (linked.family.bound k _ member)
  have values : ∀ x, x < p.heap.top → (p.heap.alloc ⟨1,chunkSize cscf⟩).val x = p.heap.val x := by
    intro x below
    rw [alloc_val,if_neg (ne_of_lt below)]
  have grown : Grows p {p with heap:=p.heap.alloc ⟨1,chunkSize cscf⟩} := by
    refine ⟨Nat.le_succ _,fun x below => ?_⟩
    rw [Pool.size,values x below]
    rfl
  refine ⟨own,⟨?_,?_,linked.history,linked.keeps_fit grown fun _ _ member => member⟩,⟨fresh,Nat.lt_succ_self _,?_,?_,?_⟩,grown,fun _ => rfl⟩
  · refine family_frame linked.family (Nat.le_succ _) fun k x member => ?_
    rw [alloc_next,if_neg (ne_of_lt (linked.family.bound k x member))]
  · intro c member
    rw [values c (linked.bound member)]
    exact linked.counted c member
  · rw [alloc_next,if_pos rfl]
  · rw [alloc_val,if_pos rfl]
  · intro _
    rw [Pool.size,alloc_val,if_pos rfl]

theorem reuse_allocates (first : p.free cscf = some out) :
    Allocates chunkSize sized refs own p cscf (out,{p with
      heap:=(p.heap.setNext out none).setVal out {p.heap.val out with ref:=1},
      free:=update p.free cscf (p.heap.next out)}) := by
  have root : heads p.free refs (.free cscf) = some out := first
  obtain ⟨rest,cells⟩ := linked.family.head_cons root
  have inside : out ∈ own (.free cscf) := by simp [cells]
  have fewer : ∀ k, ∀ x ∈ update own (.free cscf) rest k, x ∈ own k ∧ x ≠ out := by
    intro k x member
    by_cases same : k = .free cscf
    · subst same
      have distinct := linked.family.distinct (.free cscf)
      rw [update_self] at member
      rw [cells] at distinct ⊢
      refine ⟨mem_cons_of_mem _ member,?_⟩
      rintro rfl
      exact (nodup_cons.mp distinct).1 member
    · rw [update_of_ne same] at member
      refine ⟨member,?_⟩
      rintro rfl
      exact same (linked.family.apart _ _ _ member inside)
  have values : ∀ x, ((p.heap.setNext out none).setVal out {p.heap.val out with ref:=1}).val x =
      if x = out then {p.heap.val out with ref:=1} else p.heap.val x := by
    intro x
    rw [setVal_val,setNext_val]
  have sizes : ∀ x, (((p.heap.setNext out none).setVal out {p.heap.val out with ref:=1}).val x).size = p.size x := by
    intro x
    have written := size_setRef (p.heap.setNext out none) out 1 x
    rwa [setNext_val,setNext_val] at written
  have grown : Grows p {p with
      heap:=(p.heap.setNext out none).setVal out {p.heap.val out with ref:=1},
      free:=update p.free cscf (p.heap.next out)} := ⟨le_rfl,fun x _ => sizes x⟩
  have popped := family_remove (g:=p.heap) linked.family le_rfl
    (show own (.free cscf) = [] ++ out::rest from cells) (fun x => by simp)
  refine ⟨update own (.free cscf) rest,
    ⟨?_,?_,linked.history,linked.keeps_fit grown fun k x member => (fewer k x member).1⟩,
    ⟨fun k member => (fewer k out member).2 rfl,linked.family.bound _ _ inside,?_,?_,fun on => ?_⟩,grown,fun c => by simp⟩
  · rw [heads_free]
    refine family_frame popped le_rfl fun k x member => ?_
    rw [setVal_next,setNext_next,if_neg (fewer k x member).2]
  · intro c member
    have other : c ≠ out := by
      rintro rfl
      cases linked.family.apart _ _ _ inside (linked.first member)
    rw [values,if_neg other]
    exact linked.counted c member
  · rw [setVal_next,setNext_next,if_pos rfl]
  · rw [values,if_pos rfl]
  · rw [Pool.size,sizes]
    exact (linked.fits on).free cscf out inside

theorem allocSharedBuf_linked (cscf : Nat) : Allocates chunkSize sized refs own p cscf (allocSharedBuf chunkSize p cscf) := by
  unfold allocSharedBuf
  cases first : p.free cscf with
  | none => exact new_allocates linked cscf
  | some out => exact reuse_allocates linked first

theorem start_linked (loose : Loose chunkSize sized cscf a p own) :
    Linked chunkSize sized {p with builds:=update p.builds a (p.builds a+1)} (a::refs)
      (update own (.chain a) [a]) := by
  have fresh := linked.fresh loose
  have empty := linked.unused fresh
  refine ⟨?_,?_,?_,?_⟩
  · have added := family_append (g:=p.heap) (k:=.chain a) linked.family le_rfl loose.apart loose.inside (fun x => ?_)
    · rw [empty] at added
      rw [heads_cons]
      exact added
    · rw [empty]
      by_cases same : x = a
      · simp [same,loose.next]
      · simp [same]
  · intro c member
    by_cases same : c = a
    · subst same
      rw [count_cons_self,count_eq_zero_of_not_mem fresh]
      exact loose.ref
    · rw [count_cons_of_ne (Ne.symm same)]
      exact linked.counted c (by simpa [same] using member)
  · intro c
    have old := linked.history c
    by_cases same : c = a
    · subst same
      simpa [fresh] using old
    · simpa [same] using old
  · intro on
    refine ⟨fun v x member => ?_,fun c x member => ?_⟩
    · rw [update_of_ne (by simp)] at member
      exact (linked.fits on).free v x member
    · by_cases same : c = a
      · subst same
        rw [update_self,mem_singleton] at member
        rw [member]
      · rw [update_of_ne (by simpa using same)] at member
        exact (linked.fits on).chain c x member

theorem extend_linked (loose : Loose chunkSize sized cscf b p own)
    (last : (own (.chain c)).getLast? = some l) (fits : sized → p.size c = chunkSize cscf) :
    Linked chunkSize sized {p with heap:=p.heap.setNext l (some b)} refs
      (update own (.chain c) (own (.chain c) ++ [b])) := by
  have inside : l ∈ own (.chain c) := mem_of_getLast? last
  have other : b ≠ l := by
    rintro rfl
    exact loose.apart _ inside
  refine ⟨?_,fun d member => ?_,linked.history,?_⟩
  · have added := family_append (g:=p.heap.setNext l (some b)) (k:=.chain c) linked.family le_rfl loose.apart
      loose.inside (fun x => ?_)
    · rw [last,Function.update_eq_self_iff.mpr (by rfl)] at added
      exact added
    · rw [setNext_next,last]
      by_cases same : x = b
      · subst same
        simp [other,loose.next]
      · by_cases end_ : x = l
        · simp [end_,Ne.symm other]
        · simp [same,end_,Ne.symm end_]
  · rw [setNext_val]
    exact linked.counted d member
  · intro on
    refine ⟨fun v x member => ?_,fun d x member => ?_⟩
    · rw [update_of_ne (by simp)] at member
      rw [size_setNext]
      exact (linked.fits on).free v x member
    · rw [size_setNext,size_setNext]
      by_cases same : d = c
      · subst same
        rw [update_self,mem_append,mem_singleton] at member
        rcases member with old | rfl
        · exact (linked.fits on).chain d x old
        · rw [loose.size on,fits on]
      · rw [update_of_ne (by simpa using same)] at member
        exact (linked.fits on).chain d x member

end

theorem appendSharedBufs_linked (linked : Linked chunkSize sized p refs own) (used : c ∈ refs)
    (last : (own (.chain c)).getLast? = some l) (fits : sized → p.size c = chunkSize v) :
    ∃ own', Linked chunkSize sized (appendSharedBufs chunkSize p v l n) refs own' ∧
      Grows p (appendSharedBufs chunkSize p v l n) := by
  induction n generalizing p own l with
  | zero => exact ⟨own,linked,Grows.refl p⟩
  | succ n ih =>
    obtain ⟨next,allocated,loose,grown,same⟩ := allocSharedBuf_linked linked v
    have size : sized → (allocSharedBuf chunkSize p v).2.size c = chunkSize v := by
      intro on
      rw [grown.size c (linked.bound used)]
      exact fits on
    have longer := extend_linked allocated loose (same c ▸ last) size
    obtain ⟨final,done,more⟩ := ih longer (l:=(allocSharedBuf chunkSize p v).1) (by simp) fun on => by
      rw [size_setNext]
      exact size on
    refine ⟨final,done,⟨le_trans grown.top more.top,fun x below => ?_⟩⟩
    have tail := more.size x (lt_of_lt_of_le below grown.top)
    rw [size_setNext,grown.size x below] at tail
    exact tail

theorem newSharedBufs_linked (linked : Linked chunkSize sized p refs own) :
    ∃ own', Linked chunkSize sized (newSharedBufs chunkSize p cscf n).2 ((newSharedBufs chunkSize p cscf n).1::refs) own' ∧
      Grows p (newSharedBufs chunkSize p cscf n).2 ∧ (newSharedBufs chunkSize p cscf n).1 ∉ refs ∧
      (sized → (newSharedBufs chunkSize p cscf n).2.size (newSharedBufs chunkSize p cscf n).1 = chunkSize cscf) := by
  obtain ⟨next,allocated,loose,grown,_⟩ := allocSharedBuf_linked linked cscf
  have started := start_linked allocated loose
  obtain ⟨final,done,more⟩ := appendSharedBufs_linked (v:=cscf) started (mem_cons_self ..)
    (l:=(allocSharedBuf chunkSize p cscf).1) (by simp) loose.size
  refine ⟨final,done,grown.trans ⟨more.top,more.size⟩,allocated.fresh loose,fun on => ?_⟩
  exact (more.size _ loose.inside).trans (loose.size on)

theorem acquireSharedChain_linked (linked : Linked chunkSize sized p refs own) (used : c ∈ refs) :
    Linked chunkSize sized (acquireSharedChain p c) (c::refs) own ∧ Grows p (acquireSharedChain p c) := by
  have same : ∀ d, d ∈ refs ↔ d ∈ c::refs := by
    intro d
    rw [mem_cons]
    exact ⟨.inr,fun either => either.elim (fun equal => equal ▸ used) id⟩
  have grown : Grows p (acquireSharedChain p c) := ⟨le_rfl,fun x _ => size_setRef p.heap c _ x⟩
  refine ⟨⟨?_,fun d member => ?_,fun d => ?_,linked.keeps_fit grown fun _ _ member => member⟩,grown⟩
  · rw [← heads_perm same]
    exact family_frame linked.family le_rfl fun k x _ => setVal_next ..
  · rw [acquireSharedChain,setVal_val]
    have old := linked.counted d ((same d).mpr member)
    by_cases equal : d = c
    · subst equal
      rw [if_pos rfl,count_cons_self,← old]
    · rw [if_neg equal,count_cons_of_ne (Ne.symm equal),old]
  · have old := linked.history d
    simp only [same] at old
    exact old

theorem release_linked (linked : Linked chunkSize sized p (c::refs) own) (used : c ∈ refs) :
    ∃ next, freeSharedChain p v c = some next ∧ Linked chunkSize sized next refs own ∧ Grows p next := by
  have same : ∀ d, d ∈ c::refs ↔ d ∈ refs := by
    intro d
    rw [mem_cons]
    exact ⟨fun either => either.elim (fun equal => equal ▸ used) id,.inr⟩
  have total := linked.counted c (mem_cons_self ..)
  have left := count_pos_iff.mpr used
  rw [count_cons_self] at total
  have more : (p.heap.val c).ref ≠ 1 := by omega
  have grown : Grows p {p with heap:=p.heap.setVal c {p.heap.val c with ref:=(p.heap.val c).ref-1}} :=
    ⟨le_rfl,fun x _ => size_setRef p.heap c _ x⟩
  unfold freeSharedChain
  simp only [if_neg more]
  refine ⟨_,rfl,⟨?_,fun d member => ?_,fun d => ?_,linked.keeps_fit grown fun _ _ member => member⟩,grown⟩
  · rw [← heads_perm same]
    exact family_frame linked.family le_rfl fun k x _ => setVal_next ..
  · rw [setVal_val]
    have old := linked.counted d ((same d).mpr member)
    by_cases equal : d = c
    · subst equal
      rw [if_pos rfl]
      simp only [total]
      omega
    · rw [if_neg equal,old,count_cons_of_ne (Ne.symm equal)]
  · simpa only [same] using linked.history d

theorem Linked.walk (linked : Linked chunkSize sized p refs own) (used : c ∈ refs) (v : Buf) :
    ∃ last, (own (.chain c)).getLast? = some last ∧ (p.heap.setVal c v).last p.heap.top c = some last := by
  have root : heads p.free refs (.chain c) = some c := by simp [heads,used]
  obtain ⟨rest,cells⟩ := linked.family.head_cons root
  have found : (own (.chain c)).getLast? = some ((c::rest).getLast (cons_ne_nil _ _)) := by
    rw [cells]
    exact List.getLast?_eq_some_getLast (cons_ne_nil _ _)
  refine ⟨_,found,?_⟩
  have list := seg_setVal (a:=c) (v:=v) (linked.family.list (.chain c))
  have length := linked.family.length (.chain c)
  rw [cells] at list length found
  rw [last_seg list.2 length,found]

theorem splice_sized (fits : Sized chunkSize p own) (suits : p.size c = chunkSize v) (same : ∀ x, Pool.size q x = p.size x) :
    Sized chunkSize q (update (update own (.chain c) []) (.free v) (own (.chain c) ++ own (.free v))) := by
  refine ⟨fun w x member => ?_,fun d x member => ?_⟩
  · rw [same]
    by_cases equal : w = v
    · subst equal
      rw [update_self,mem_append] at member
      rcases member with mine | free
      · rw [fits.chain c x mine,suits]
      · exact fits.free w x free
    · rw [update_of_ne (by simpa using equal),update_of_ne (by simp)] at member
      exact fits.free w x member
  · rw [same,same]
    rw [update_of_ne (by simp)] at member
    by_cases equal : d = c
    · subst equal
      rw [update_self] at member
      cases member
    · rw [update_of_ne (by simpa using equal)] at member
      exact fits.chain d x member

theorem put_linked (linked : Linked chunkSize sized p (c::refs) own) (apart : c ∉ refs)
    (fits : sized → p.size c = chunkSize v) : ∃ next own', freeSharedChain p v c = some next ∧
      Linked chunkSize sized next refs own' ∧ Grows p next := by
  have one : (p.heap.val c).ref = 1 := by
    rw [linked.counted c (mem_cons_self ..),count_cons_self,count_eq_zero_of_not_mem apart]
  have root : heads p.free (c::refs) (.chain c) = some c := by simp [heads]
  obtain ⟨last,found,walk⟩ := linked.walk (mem_cons_self ..) {p.heap.val c with ref:=0}
  have sizes : ∀ x, (((p.heap.setVal c {p.heap.val c with ref:=0}).setNext last (p.free v)).val x).size = p.size x := by
    intro x
    rw [setNext_val]
    exact size_setRef p.heap c 0 x
  unfold freeSharedChain
  simp only [one,if_pos,Nat.sub_self,setVal_top,walk,Option.map_some]
  refine ⟨_,update (update own (.chain c) []) (.free v) (own (.chain c) ++ own (.free v)),rfl,
    ⟨?_,fun d member => ?_,fun d => ?_,fun on => splice_sized (linked.fits on) (fits on) sizes⟩,le_rfl,fun x _ => sizes x⟩
  · rw [heads_free,heads_last apart]
    have spliced := family_splice (g:=(p.heap.setVal c {p.heap.val c with ref:=0}).setNext last (p.free v))
      (j:=.free v) (k:=.chain c) linked.family (by simp) le_rfl found
      (fun x => by rw [setNext_next,setVal_next]; rfl)
    rwa [root] at spliced
  · have other : d ≠ c := by
      rintro rfl
      exact apart member
    rw [setNext_val,setVal_val,if_neg other,linked.counted d (mem_cons_of_mem _ member),
      count_cons_of_ne (Ne.symm other)]
  · have old := linked.history d
    by_cases equal : d = c
    · subst equal
      simpa [apart] using old
    · simpa [equal] using old

theorem freeSharedChain_linked (linked : Linked chunkSize sized p (c::refs) own) (fits : sized → p.size c = chunkSize v) :
    ∃ next own', freeSharedChain p v c = some next ∧ Linked chunkSize sized next refs own' ∧ Grows p next := by
  by_cases used : c ∈ refs
  · obtain ⟨next,freed,after⟩ := release_linked (v:=v) linked used
    exact ⟨next,own,freed,after⟩
  · exact put_linked linked used fits

theorem freeSharedChains_linked (linked : Linked chunkSize sized p (freed ++ refs) own)
    (fits : sized → ∀ c ∈ freed, p.size c = chunkSize v) :
    ∃ next own', freeSharedChains v p freed = some next ∧ Linked chunkSize sized next refs own' ∧ Grows p next := by
  induction freed generalizing p own with
  | nil => exact ⟨p,own,rfl,linked,Grows.refl p⟩
  | cons c rest ih =>
    obtain ⟨middle,cells,first,after,grown⟩ :=
      freeSharedChain_linked (v:=v) linked fun on => fits on c (mem_cons_self ..)
    obtain ⟨next,final,others,done,more⟩ := ih after fun on d member => by
      rw [grown.size d (linked.bound (by simp [member]))]
      exact fits on d (by simp [member])
    refine ⟨next,final,?_,done,grown.trans more⟩
    rw [freeSharedChains,first,Option.bind_some,others]

end Pools

end NgxRtmp.Shared
