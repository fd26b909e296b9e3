import NgxRtmp.Flow
import NgxRtmp.Lib.Pool

namespace NgxRtmp.Recv
open ChunkWriter Cells NgxRtmp.Flow
open List hiding next

structure Fits (cap : Nat) (b : Buf) : Prop where
  mem : b.mem.length = cap
  size : b.size = cap
  pos : b.pos ≤ b.last
  last : b.last ≤ cap

theorem fits_alloc : Fits (capacity chunkSize) (allocInBuf chunkSize) := by
  refine ⟨?_,rfl,le_rfl,Nat.zero_le _⟩
  simp [allocInBuf,capacity]

section

variable (fits : Fits cap b)
include fits

theorem contents_length : b.contents.length = b.last-b.pos := by
  have bound : min b.last b.mem.length = b.last := min_eq_left (by rw [fits.mem]; exact fits.last)
  unfold Buf.contents
  rw [length_drop,length_take,bound]

theorem bytesOf_length : (bytesOf b).length = b.last := by
  unfold bytesOf
  rw [length_take,fits.mem]
  exact min_eq_left fits.last

theorem write_mem (room : bytes.length ≤ cap-b.last) :
    (b.write b.last bytes).mem.length = cap ∧ (b.write b.last bytes).mem.take b.last = b.mem.take b.last := by
  have taken : (b.mem.take b.last).length = b.last := by
    rw [length_take,fits.mem]
    exact min_eq_left fits.last
  have last := fits.last
  constructor
  · simp only [Buf.write,length_append,taken,length_drop,fits.mem]
    omega
  · simp only [Buf.write,append_assoc]
    rw [take_append_of_le_length (le_of_eq taken.symm),take_of_length_le (le_of_eq taken)]

theorem write_fits (room : bytes.length ≤ cap-b.last) : Fits cap (b.write b.last bytes) :=
  ⟨(write_mem fits room).1,fits.size,fits.pos,fits.last⟩

theorem write_contents (room : bytes.length ≤ cap-b.last) : (b.write b.last bytes).contents = b.contents :=
  congrArg (List.drop b.pos) (write_mem fits room).2

theorem append_fits (room : bytes.length ≤ cap-b.last) : Fits cap (b.append bytes) := by
  have last := fits.last
  have pos := fits.pos
  exact ⟨(write_mem fits room).1,fits.size,by simp only [Buf.append,Buf.write]; omega,by simp only [Buf.append]; omega⟩

theorem bytesOf_append : bytesOf (b.append bytes) = bytesOf b ++ bytes := by
  have taken : (b.mem.take b.last).length = b.last := bytesOf_length fits
  simp only [bytesOf,Buf.append,Buf.write]
  rw [take_append_of_le_length (by simp only [length_append,taken]; omega)]
  exact take_of_length_le (by simp only [length_append,taken]; omega)

theorem append_contents : (b.append bytes).contents = b.contents ++ bytes := by
  have taken : (b.mem.take b.last).length = b.last := bytesOf_length fits
  have pos := fits.pos
  change (bytesOf (b.append bytes)).drop b.pos = _
  rw [bytesOf_append fits]
  exact drop_append_of_le_length (by unfold bytesOf; omega)

theorem advance_fits (within : n ≤ b.last-b.pos) : Fits cap {b with pos:=b.pos+n} := by
  have pos := fits.pos
  exact ⟨fits.mem,fits.size,by show b.pos+n ≤ b.last; omega,fits.last⟩

end

theorem advance_contents {b : Buf} (n : Nat) : ({b with pos:=b.pos+n} : Buf).contents = b.contents.drop n := by
  simp only [Buf.contents,drop_drop]

def chunksOf (h : Heap Buf) (xs : List Nat) : List (List UInt8) := xs.map fun x => (h.val x).contents

theorem chunksOf_frame (same : ∀ x ∈ xs, next.val x = h.val x) : chunksOf next xs = chunksOf h xs :=
  map_congr_left fun x member => by rw [same x member]

end NgxRtmp.Recv

namespace NgxRtmp.Flow
open List

theorem spill_enough (cap : Nat) (positive : 0 < cap) (fuel more : Nat) (left : List UInt8) (enough : left.length ≤ fuel) :
    spill cap (fuel+more) left = spill cap fuel left := by
  induction fuel generalizing left with
  | zero =>
    cases eq_nil_of_length_eq_zero (Nat.le_zero.mp enough)
    cases more <;> simp [spill]
  | succ fuel ih =>
    rw [add_right_comm]
    unfold spill
    split
    · rfl
    · rw [ih (left.drop cap) (by rw [length_drop]; omega)]

theorem pack_fit (fits : chunk.length ≤ cap-cur.length) : pack cap cur (chunk::rest) = pack cap (cur ++ chunk) rest :=
  if_pos fits

theorem spill_pack (cap : Nat) (positive : 0 < cap) (fuel : Nat) (left : List UInt8) (rest : List (List UInt8))
    (enough : left.length ≤ fuel) :
    (spill cap fuel left).1 ++ pack cap (spill cap fuel left).2 rest = pack cap [] (left::rest) := by
  by_cases fits : left.length ≤ cap
  · have whole : spill cap fuel left = ([],left) := by
      cases fuel with
      | zero => rfl
      | succ fuel => exact if_pos fits
    rw [whole,pack_fit fits]
    rfl
  · cases fuel with
    | zero => omega
    | succ fuel =>
      obtain ⟨more,total⟩ := Nat.exists_eq_add_of_le (show (left.drop cap).length ≤ fuel by rw [length_drop]; omega)
      obtain ⟨extra,length⟩ := Nat.exists_eq_add_of_le (show (left.drop cap).length ≤ left.length by rw [length_drop]; omega)
      have split : spill cap (fuel+1) left = ([]::(spill cap fuel (left.drop cap)).1,(spill cap fuel (left.drop cap)).2) :=
        if_neg fits
      have packed : pack cap [] (left::rest) =
          []::((spill cap left.length (left.drop cap)).1 ++ pack cap (spill cap left.length (left.drop cap)).2 rest) :=
        if_neg fits
      rw [split,packed,length,total,spill_enough cap positive _ more _ le_rfl,
        spill_enough cap positive _ extra _ le_rfl]
      rfl

theorem pack_split (cap : Nat) (positive : 0 < cap) (cur chunk : List UInt8) (rest : List (List UInt8))
    (long : cap-cur.length < chunk.length) :
    pack cap cur (chunk::rest) = cur::pack cap [] (chunk.drop (cap-cur.length)::rest) := by
  rw [←spill_pack cap positive chunk.length _ rest (by rw [length_drop]; omega)]
  exact if_neg (Nat.not_le.mpr long)

end NgxRtmp.Flow

namespace NgxRtmp.Recv
open ChunkWriter Cells NgxRtmp.Flow
open List hiding next all after
open Function (update update_self update_of_ne update_comm update_idem)

-- `li::rest` are still to be copied, `outs` are finished and `lo` is being filled; below `base` all is
-- older.
structure Copying (cap base : Nat) (h : Heap Buf) (fli flo li : Nat) (rest outs : List Nat) (lo : Nat) : Prop where
  source : Seg h (some li) (li::rest) (some fli)
  distinct : (li::rest).Nodup
  first : fli ∉ rest
  old : ∀ x ∈ li::rest, x < base
  sized : ∀ x ∈ li::rest, ∃ size, Fits size (h.val x)
  target : Seg h (some flo) outs (some lo)
  fresh : ∀ x ∈ outs ++ [lo], base ≤ x ∧ x < h.top
  apart : (outs ++ [lo]).Nodup
  fits : ∀ x ∈ outs ++ [lo], Fits cap (h.val x)
  start : (h.val lo).pos = 0

structure Copied (cap base : Nat) (h : Heap Buf) (sources : List Nat) (next : Heap Buf) (last : Nat) (outs : List Nat) : Prop where
  ring : Ring next (some last) outs
  grown : h.top ≤ next.top
  frame : ∀ x, x < base → x ∉ sources → next.cell x = h.cell x
  fresh : ∀ x ∈ outs, base ≤ x ∧ x < next.top
  apart : outs.Nodup
  fits : ∀ x ∈ outs, Fits cap (next.val x)

theorem Copied.mono (copied : Copied cap base middle sources next last outs)
    (grown : h.top ≤ middle.top) (frame : ∀ x, x < base → x ∉ all → middle.cell x = h.cell x)
    (part : ∀ x ∈ sources, x ∈ all) : Copied cap base h all next last outs := by
  refine ⟨copied.ring,le_trans grown copied.grown,fun x old other => ?_,copied.fresh,copied.apart,copied.fits⟩
  exact (copied.frame x old fun member => other (part x member)).trans (frame x old other)

theorem setVal_cell {h : Heap β} (other : x ≠ a) : (h.setVal a v).cell x = h.cell x :=
  update_of_ne other _ _

-- The heap after the branch that closes a full target buffer.
def splitHeap (chunkSize : Nat) (h : Heap Buf) (li lo : Nat) : Heap Buf :=
  let bi := h.val li
  let bo := h.val lo
  let room := bo.size-bo.last
  (((h.setVal lo (bo.write bo.last (bi.contents.take room))).setVal li {bi with pos:=bi.pos+room}).alloc
    (allocInBuf chunkSize)).setNext lo (some h.top)

section Split
variable {chunkSize base fli flo li lo : Nat} {h : Heap Buf} {rest outs : List Nat}

section

variable (copying : Copying cap base h fli flo li rest outs lo)
include copying

theorem Copying.source_ne (source : x ∈ li::rest) (target : y ∈ outs ++ [lo]) : x ≠ y := by
  have old := copying.old x source
  have fresh := copying.fresh y target
  omega

theorem Copying.lo_fits : Fits cap (h.val lo) :=
  copying.fits lo (by simp)

theorem Copying.lo_last : (h.val lo).contents.length = (h.val lo).last := by
  rw [contents_length copying.lo_fits,copying.start,Nat.sub_zero]

end

theorem Copying.fit (copying : Copying cap base h fli flo li (next::rest) outs lo)
    (room : (h.val li).contents.length ≤ cap-(h.val lo).last) :
    Copying cap base (h.setVal lo ((h.val lo).append (h.val li).contents)) fli flo next rest outs lo := by
  have part : ∀ x ∈ next::rest, x ∈ li::next::rest := fun x member => mem_cons_of_mem _ member
  have source : Seg h (h.next li) (next::rest) (some fli) := copying.source.2
  have pointer : h.next li = some next := source.1
  rw [pointer] at source
  refine ⟨seg_setVal source,(nodup_cons.mp copying.distinct).2,
    fun member => copying.first (mem_cons_of_mem _ member),fun x member => copying.old x (part x member),
    fun x member => ?_,seg_setVal copying.target,copying.fresh,copying.apart,fun x member => ?_,?_⟩
  · rw [setVal_val,if_neg (copying.source_ne (part x member) (by simp))]
    exact copying.sized x (part x member)
  · rw [setVal_val]
    split
    · exact append_fits copying.lo_fits room
    · exact copying.fits x member
  · rw [setVal_val,if_pos rfl]
    exact copying.start

theorem splitHeap_val (old : x ≠ h.top) :
    (splitHeap chunkSize h li lo).val x =
      if x = li then {h.val li with pos:=(h.val li).pos+((h.val lo).size-(h.val lo).last)}
      else if x = lo then (h.val lo).write (h.val lo).last ((h.val li).contents.take ((h.val lo).size-(h.val lo).last))
      else h.val x := by
  unfold splitHeap
  rw [setNext_val,alloc_val,setVal_top,setVal_top,if_neg old,setVal_val,setVal_val]

theorem splitHeap_new : (splitHeap chunkSize h li lo).val h.top = allocInBuf chunkSize := by
  unfold splitHeap
  rw [setNext_val,alloc_val,setVal_top,setVal_top,if_pos rfl]

theorem splitHeap_next (old : x ≠ h.top) : (splitHeap chunkSize h li lo).next x = if x = lo then some h.top else h.next x := by
  unfold splitHeap
  rw [setNext_next,alloc_next,setVal_top,setVal_top,if_neg old,setVal_next,setVal_next]

theorem splitHeap_cell {h : Heap Buf} (old : x < h.top) (source : x ≠ li) (target : x ≠ lo) :
    (splitHeap chunkSize h li lo).cell x = h.cell x :=
  (setNext_cell target).trans
    ((update_of_ne (ne_of_lt old) _ _).trans ((setVal_cell source).trans (setVal_cell target)))

section

variable (copying : Copying (capacity chunkSize) base h fli flo li rest outs lo)
include copying

theorem Copying.split (long : capacity chunkSize-(h.val lo).last < (h.val li).contents.length) :
    Copying (capacity chunkSize) base (splitHeap chunkSize h li lo) fli flo li rest (outs ++ [lo]) h.top := by
  have size : (h.val lo).size = capacity chunkSize := copying.lo_fits.size
  have tall : base ≤ h.top := le_of_lt (lt_of_le_of_lt (copying.fresh lo (by simp)).1 (copying.fresh lo (by simp)).2)
  have source_old : ∀ x ∈ li::rest, x ≠ h.top := fun x member => ne_of_lt (lt_of_lt_of_le (copying.old x member) tall)
  have target_old : ∀ x ∈ outs ++ [lo], x ≠ h.top := fun x member => ne_of_lt (copying.fresh x member).2
  have new_out : h.top ∉ outs ++ [lo] := fun member => target_old _ member rfl
  refine ⟨?_,copying.distinct,copying.first,copying.old,?_,?_,?_,?_,?_,?_⟩
  · refine seg_frame (fun x member => ?_) copying.source
    rw [splitHeap_next (source_old x member),if_neg (copying.source_ne member (by simp))]
  · intro x member
    rw [splitHeap_val (source_old x member)]
    obtain ⟨old,fits⟩ := copying.sized x member
    split
    · rename_i same
      subst same
      have length := contents_length fits
      exact ⟨old,advance_fits fits (by omega)⟩
    · rw [if_neg (copying.source_ne member (by simp))]
      exact ⟨old,fits⟩
  · refine seg_snoc.mpr ⟨seg_frame (fun x member => ?_) copying.target,?_⟩
    · rw [splitHeap_next (target_old x (by simp [member])),if_neg]
      rintro rfl
      exact (nodup_append.mp copying.apart).2.2 _ member _ (by simp) rfl
    · rw [splitHeap_next (target_old lo (by simp)),if_pos rfl]
  · intro x member
    rcases mem_append.mp member with before | new
    · exact ⟨(copying.fresh x before).1,Nat.lt_succ_of_lt (copying.fresh x before).2⟩
    · cases mem_singleton.mp new
      exact ⟨tall,Nat.lt_succ_self _⟩
  · refine nodup_append.mpr ⟨copying.apart,nodup_singleton _,fun x before y new => ?_⟩
    cases mem_singleton.mp new
    rintro rfl
    exact new_out before
  · intro x member
    rcases mem_append.mp member with before | new
    · rw [splitHeap_val (target_old x before),if_neg (copying.source_ne (by simp) before).symm]
      split
      · exact write_fits copying.lo_fits (by rw [length_take,size]; omega)
      · exact copying.fits x before
    · cases mem_singleton.mp new
      rw [splitHeap_new]
      exact fits_alloc
  · rw [splitHeap_new]
    rfl

theorem Copying.split_sources :
    chunksOf (splitHeap chunkSize h li lo) (li::rest) =
      (h.val li).contents.drop (capacity chunkSize-(h.val lo).contents.length)::chunksOf h rest := by
  have size : (h.val lo).size = capacity chunkSize := copying.lo_fits.size
  have old : ∀ x ∈ li::rest, x ≠ h.top := by
    intro x member
    have source := copying.old x member
    have target := copying.fresh lo (by simp)
    omega
  change ((splitHeap chunkSize h li lo).val li).contents::chunksOf _ rest = _
  rw [splitHeap_val (old li (by simp)),if_pos rfl,advance_contents,size,copying.lo_last]
  refine congrArg (List.cons _) (chunksOf_frame fun x member => ?_)
  have other : x ≠ li := by
    rintro rfl
    exact (nodup_cons.mp copying.distinct).1 member
  rw [splitHeap_val (old x (by simp [member])),if_neg other,
    if_neg (copying.source_ne (mem_cons_of_mem _ member) (by simp))]

theorem Copying.split_targets :
    chunksOf (splitHeap chunkSize h li lo) (outs ++ [lo]) = chunksOf h outs ++ [(h.val lo).contents] := by
  have size : (h.val lo).size = capacity chunkSize := copying.lo_fits.size
  have different : lo ≠ li := (copying.source_ne (by simp) (by simp)).symm
  unfold chunksOf
  rw [map_append]
  refine congrArg₂ _ (map_congr_left fun x member => ?_) ?_
  · have here : x ∈ outs ++ [lo] := by simp [member]
    rw [splitHeap_val (ne_of_lt (copying.fresh x here).2),if_neg (copying.source_ne (by simp) here).symm,if_neg]
    exact (nodup_append.mp copying.apart).2.2 _ member _ (by simp)
  · simp only [map_cons,map_nil]
    rw [splitHeap_val (ne_of_lt (copying.fresh lo (by simp)).2),if_neg different,if_pos rfl,
      write_contents copying.lo_fits (by rw [length_take,size]; omega)]

end

end Split

-- What is left to copy, with one extra turn for a target without room.
def repackWork (cap : Nat) (h : Heap Buf) (sources : List Nat) (lo : Nat) : Nat :=
  ((chunksOf h sources).map fun chunk => chunk.length+2).sum+if (h.val lo).last = cap then 1 else 0

theorem Copying.close (copying : Copying cap base h fli flo li [] outs lo)
    (room : (h.val li).contents.length ≤ cap-(h.val lo).last) :
    Copied cap base h [li] ((h.setVal lo ((h.val lo).append (h.val li).contents)).setNext lo (some flo)) lo (outs ++ [lo]) := by
  have target : Seg (h.setVal lo ((h.val lo).append (h.val li).contents)) (some flo) outs (some lo) := seg_setVal copying.target
  have apart : lo ∉ outs := fun member => (nodup_append.mp copying.apart).2.2 _ member _ (by simp) rfl
  refine ⟨⟨outs,rfl,?_⟩,le_rfl,fun x old _ => ?_,copying.fresh,copying.apart,fun x member => ?_⟩
  · rw [setNext_next,if_pos rfl]
    refine seg_snoc.mpr ⟨seg_setNext target apart,?_⟩
    rw [setNext_next,if_pos rfl]
  · have fresh := copying.fresh lo (by simp)
    exact (setNext_cell (by omega)).trans (setVal_cell (by omega))
  · rw [setNext_val,setVal_val]
    split
    · exact append_fits copying.lo_fits room
    · exact copying.fits x member

theorem Copying.outs_chunks (copying : Copying cap base h fli flo li rest outs lo) :
    chunksOf (h.setVal lo v) (outs ++ [lo]) = chunksOf h outs ++ [v.contents] := by
  have apart : ∀ x ∈ outs, x ≠ lo := fun x member => (nodup_append.mp copying.apart).2.2 _ member _ (by simp)
  unfold chunksOf
  rw [map_append]
  refine congrArg₂ _ (map_congr_left fun x member => ?_) ?_
  · rw [setVal_val,if_neg (apart x member)]
  · simp only [map_cons,map_nil]
    rw [setVal_val,if_pos rfl]

theorem repackLoop_split (long : ¬(h.val li).last-(h.val li).pos ≤ (h.val lo).size-(h.val lo).last) :
    repackLoop chunkSize fli flo (fuel+1) h li lo = repackLoop chunkSize fli flo fuel (splitHeap chunkSize h li lo) li h.top :=
  if_neg long

theorem repackLoop_fit (room : (h.val li).last-(h.val li).pos ≤ (h.val lo).size-(h.val lo).last) (on : h.next li = some next) :
    repackLoop chunkSize fli flo (fuel+1) h li lo =
      if next = fli then some ((h.setVal lo ((h.val lo).append (h.val li).contents)).setNext lo (some flo),lo)
      else repackLoop chunkSize fli flo fuel (h.setVal lo ((h.val lo).append (h.val li).contents)) next lo := by
  simp only [repackLoop,if_pos room,setVal_next,on]

def Packs (chunkSize base fuel : Nat) (h : Heap Buf) (fli flo li : Nat) (rest outs : List Nat) (lo : Nat) : Prop :=
  ∃ next last cells, repackLoop chunkSize fli flo fuel h li lo = some (next,last) ∧
    Copied (capacity chunkSize) base h (li::rest) next last cells ∧
    chunksOf next cells = chunksOf h outs ++ pack (capacity chunkSize) (h.val lo).contents (chunksOf h (li::rest))

theorem Copying.copies (copying : Copying cap base h fli flo li rest outs lo) :
    (h.val li).contents.length ≤ cap-(h.val lo).last ↔ (h.val li).last-(h.val li).pos ≤ (h.val lo).size-(h.val lo).last := by
  obtain ⟨old,whole⟩ := copying.sized li (by simp)
  rw [contents_length whole,copying.lo_fits.size]

theorem Copying.close_packs (copying : Copying (capacity chunkSize) base h fli flo li [] outs lo)
    (room : (h.val li).contents.length ≤ capacity chunkSize-(h.val lo).last) :
    Packs chunkSize base (fuel+1) h fli flo li [] outs lo := by
  have back : h.next li = some fli := copying.source.2
  refine ⟨_,_,_,(repackLoop_fit (copying.copies.mp room) back).trans (if_pos rfl),copying.close room,?_⟩
  have values : chunksOf ((h.setVal lo ((h.val lo).append (h.val li).contents)).setNext lo (some flo)) (outs ++ [lo]) =
      chunksOf (h.setVal lo ((h.val lo).append (h.val li).contents)) (outs ++ [lo]) :=
    chunksOf_frame fun x _ => setNext_val
  rw [values,copying.outs_chunks,append_contents copying.lo_fits]
  change _ = chunksOf h outs ++ pack _ _ [(h.val li).contents]
  rw [pack_fit (by rw [copying.lo_last]; exact room)]
  rfl

theorem Copying.fit_sources (copying : Copying cap base h fli flo li (following::rest) outs lo) :
    chunksOf (h.setVal lo v) (following::rest) = chunksOf h (following::rest) := by
  refine chunksOf_frame fun x member => ?_
  rw [setVal_val,if_neg (copying.source_ne (mem_cons_of_mem _ member) (by simp))]

theorem Copying.fit_targets (copying : Copying cap base h fli flo li rest outs lo) :
    chunksOf (h.setVal lo v) outs = chunksOf h outs := by
  refine chunksOf_frame fun x member => ?_
  rw [setVal_val,if_neg]
  exact (nodup_append.mp copying.apart).2.2 _ member _ (by simp)

theorem Copying.fit_work (copying : Copying cap base h fli flo li (following::rest) outs lo) (v : Buf)
    (enough : repackWork cap h (li::following::rest) lo ≤ fuel+1) :
    repackWork cap (h.setVal lo v) (following::rest) lo ≤ fuel := by
  unfold repackWork at enough ⊢
  rw [copying.fit_sources]
  simp only [chunksOf,map_cons,sum_cons] at enough ⊢
  split <;> omega

theorem Copying.fit_packs (copying : Copying (capacity chunkSize) base h fli flo li (following::rest) outs lo)
    (room : (h.val li).contents.length ≤ capacity chunkSize-(h.val lo).last)
    (packs : Packs chunkSize base fuel (h.setVal lo ((h.val lo).append (h.val li).contents)) fli flo following rest outs lo) :
    Packs chunkSize base (fuel+1) h fli flo li (following::rest) outs lo := by
  have on : h.next li = some following := copying.source.2.1
  have other : following ≠ fli := by
    rintro rfl
    exact copying.first (by simp)
  obtain ⟨next,final,cells,result,copied,packed⟩ := packs
  refine ⟨next,final,cells,((repackLoop_fit (copying.copies.mp room) on).trans (if_neg other)).trans result,
    copied.mono le_rfl (fun x old _ => ?_) (fun x member => mem_cons_of_mem _ member),?_⟩
  · have fresh := copying.fresh lo (by simp)
    exact setVal_cell (by omega)
  · rw [packed,copying.fit_targets,copying.fit_sources,setVal_val,if_pos rfl,append_contents copying.lo_fits]
    change _ = chunksOf h outs ++ pack _ _ ((h.val li).contents::chunksOf h (following::rest))
    rw [pack_fit (by rw [copying.lo_last]; exact room)]

theorem Copying.split_work (copying : Copying (capacity chunkSize) base h fli flo li rest outs lo)
    (long : capacity chunkSize-(h.val lo).last < (h.val li).contents.length)
    (enough : repackWork (capacity chunkSize) h (li::rest) lo ≤ fuel+1) :
    repackWork (capacity chunkSize) (splitHeap chunkSize h li lo) (li::rest) h.top ≤ fuel := by
  have empty : (allocInBuf chunkSize).last ≠ capacity chunkSize := ne_of_lt (Nat.succ_pos _)
  have bound := copying.lo_fits.last
  have last := copying.lo_last
  unfold repackWork at enough ⊢
  rw [copying.split_sources,splitHeap_new,if_neg empty]
  simp only [chunksOf,map_cons,sum_cons,length_drop] at enough ⊢
  split at enough <;> omega

theorem Copying.split_packs (copying : Copying (capacity chunkSize) base h fli flo li rest outs lo)
    (long : capacity chunkSize-(h.val lo).last < (h.val li).contents.length)
    (packs : Packs chunkSize base fuel (splitHeap chunkSize h li lo) fli flo li rest (outs ++ [lo]) h.top) :
    Packs chunkSize base (fuel+1) h fli flo li rest outs lo := by
  have tall := copying.fresh lo (by simp)
  obtain ⟨next,final,cells,result,copied,packed⟩ := packs
  have closes : ¬(h.val li).last-(h.val li).pos ≤ (h.val lo).size-(h.val lo).last :=
    fun room => Nat.not_le.mpr long (copying.copies.mpr room)
  refine ⟨next,final,cells,(repackLoop_split closes).trans result,
    copied.mono (Nat.le_succ _) (fun x old other => ?_) (fun x member => member),?_⟩
  · refine splitHeap_cell (by omega) ?_ (by omega)
    rintro rfl
    exact other (by simp)
  · rw [packed,copying.split_targets,copying.split_sources,splitHeap_new]
    change _ = chunksOf h outs ++ pack _ _ ((h.val li).contents::chunksOf h rest)
    have positive : 0 < capacity chunkSize := Nat.succ_pos _
    rw [pack_split _ positive (h.val lo).contents _ _ (by rw [copying.lo_last]; exact long),append_assoc]
    rfl

theorem repackLoop_packs (chunkSize base fuel : Nat) (h : Heap Buf) (rest outs : List Nat) (li lo : Nat)
    (copying : Copying (capacity chunkSize) base h fli flo li rest outs lo)
    (enough : repackWork (capacity chunkSize) h (li::rest) lo ≤ fuel) :
    Packs chunkSize base fuel h fli flo li rest outs lo := by
  induction fuel generalizing h rest outs li lo with
  | zero =>
    unfold repackWork chunksOf at enough
    simp only [map_cons,sum_cons] at enough
    omega
  | succ fuel ih =>
    by_cases room : (h.val li).contents.length ≤ capacity chunkSize-(h.val lo).last
    · cases rest with
      | nil => exact copying.close_packs room
      | cons following rest => exact copying.fit_packs room (ih _ _ _ _ _ (copying.fit room) (copying.fit_work _ enough))
    · have long := Nat.not_le.mp room
      exact copying.split_packs long (ih _ _ _ _ _ (copying.split long) (copying.split_work long enough))

theorem sum_le_range (f : Nat → Nat) {xs : List Nat} (distinct : xs.Nodup) (bound : ∀ x ∈ xs, x < top) :
    (xs.map f).sum ≤ ((List.range top).map f).sum := by
  obtain ⟨ys,perm,sub⟩ := distinct.subperm fun x member => mem_range.mpr (bound x member)
  rw [←(perm.map f).sum_eq]
  exact List.Sublist.sum_le_sum (sub.map f) fun _ _ => Nat.zero_le _

theorem start_copying (chunkSize : Nat) (around : Seg h (some first) (first::rest) (some first)) (distinct : (first::rest).Nodup)
    (bound : ∀ x ∈ first::rest, x < h.top) (sized : ∀ x ∈ first::rest, ∃ size, Fits size (h.val x)) :
    Copying (capacity chunkSize) h.top (h.alloc (allocInBuf chunkSize)) first h.top first rest [] h.top := by
  have empty : (h.alloc (allocInBuf chunkSize)).val h.top = allocInBuf chunkSize := by rw [alloc_val,if_pos rfl]
  refine ⟨seg_alloc around bound,distinct,(nodup_cons.mp distinct).1,bound,fun x member => ?_,rfl,
    fun x member => ?_,nodup_singleton _,fun x member => ?_,by rw [empty]; rfl⟩
  · rw [alloc_val,if_neg (ne_of_lt (bound x member))]
    exact sized x member
  · cases mem_singleton.mp member
    exact ⟨le_rfl,Nat.lt_succ_self _⟩
  · cases mem_singleton.mp member
    rw [empty]
    exact fits_alloc

theorem start_chunks (bound : ∀ x ∈ xs, x < h.top) : chunksOf (h.alloc v) xs = chunksOf h xs :=
  chunksOf_frame fun x member => by rw [alloc_val,if_neg (ne_of_lt (bound x member))]

theorem start_work (chunkSize : Nat) {h : Heap Buf} (distinct : xs.Nodup) (bound : ∀ x ∈ xs, x < h.top) :
    repackWork (capacity chunkSize) (h.alloc (allocInBuf chunkSize)) xs h.top ≤ repackFuel h := by
  have total := sum_le_range (fun a => (h.val a).contents.length+2) distinct bound
  have room : (allocInBuf chunkSize).last ≠ capacity chunkSize := ne_of_lt (Nat.succ_pos _)
  unfold repackWork repackFuel
  rw [start_chunks bound,alloc_val,if_pos rfl,if_neg room,chunksOf,map_map]
  exact le_trans total (Nat.le_add_right _ _)

theorem repackStream_packs
    (owns : Owns ok s.heap links own) (same : s.links n = links n) (ring : n ≠ 0)
    (sized : ∀ v, ok n v → ∃ size, Fits size v) :
    ∃ heap p cells, repackStream s n = {s with heap,links:=update s.links n p} ∧
      Owns (fun m v => if m = n then Fits (capacity s.core.chunkSize) v else ok m v) heap
        (update links n p) (update own n cells) ∧
      chunksOf heap cells = repack (capacity s.core.chunkSize) (chunksOf s.heap (own n)) ∧
      (∀ x, x < s.heap.top → x ∉ own n → heap.cell x = s.heap.cell x) ∧ s.heap.top ≤ heap.top ∧
      (∀ x ∈ cells, s.heap.top ≤ x) := by
  cases found : links n with
  | none =>
    have empty : own n = [] := owns_unheld owns found
    refine ⟨s.heap,none,[],?_,?_,?_,fun _ _ _ => rfl,le_rfl,fun x member => by cases member⟩
    · unfold repackStream
      rw [same,found]
      rfl
    · refine owns_replace owns le_rfl (fun _ _ _ _ => rfl) (fun m other v good => ?_) (held_none.mpr rfl) nodup_nil
        (fun _ _ _ _ member => by cases member) (fun _ member => by cases member) (fun _ member => by cases member)
      rwa [if_neg other]
    · rw [empty]
      rfl
  | some last =>
    have held := (held_ring ring).mp (owns.held n)
    rw [found] at held
    obtain ⟨ys,cells,circle⟩ := held
    obtain ⟨first,rest,ordered⟩ : ∃ first rest, own n = first::rest := by
      rw [cells]
      cases ys with
      | nil => exact ⟨last,[],rfl⟩
      | cons y ys => exact ⟨y,ys ++ [last],rfl⟩
    rw [ordered] at circle
    have pointer : s.heap.next last = some first := circle.1
    have around : Seg s.heap (some first) (first::rest) (some first) := by rwa [pointer] at circle
    have distinct : (first::rest).Nodup := ordered ▸ owns.distinct n
    have bound : ∀ x ∈ first::rest, x < s.heap.top := ordered ▸ owns.bound n
    have copying := start_copying s.core.chunkSize around distinct bound
      fun x member => sized _ (owns.sound n x (ordered ▸ member))
    have enough := start_work s.core.chunkSize distinct bound
    obtain ⟨heap,final,out,result,copied,packed⟩ := repackLoop_packs _ _ _ _ _ _ _ _ copying enough
    refine ⟨heap,some final,out,?_,?_,?_,?_,?_,fun x member => (copied.fresh x member).1⟩
    · unfold repackStream
      rw [same,found]
      simp only [Option.bind_some,pointer,result]
    · refine owns_replace owns (le_trans (Nat.le_succ _) copied.grown) ?_ ?_ ((held_ring ring).mpr copied.ring) copied.apart ?_
        (fun x member => (copied.fresh x member).2) (fun x member => ?_)
      · intro m other x member
        have old := owns.bound m x member
        refine (copied.frame x old fun also => other ?_).trans (alloc_cell old)
        exact owns.apart m n x member (ordered ▸ also)
      · intro m other v good
        rwa [if_neg other]
      · intro m other x member also
        have old := owns.bound m x member
        have new := (copied.fresh x also).1
        omega
      · rw [if_pos rfl]
        exact copied.fits x member
    · rw [packed,start_chunks bound,alloc_val,if_pos rfl,ordered]
      rfl
    · intro x old other
      exact (copied.frame x old (ordered ▸ other)).trans (alloc_cell old)
    · exact le_trans (Nat.le_succ _) copied.grown

-- The loop over n before `k`; the list of `csid` is open and belongs to nobody.
structure Repacking (old : Heap Buf) (own : Nat → List Nat) (before after csid k : Nat) (heap : Heap Buf)
    (links : Nat → Option Nat) (now : Nat → List Nat) : Prop where
  owns : Owns (fun m => Fits (if m < k then after else before)) heap (update links csid none) now
  done : ∀ m, 1 ≤ m → m < k → chunksOf heap (now m) = repack after (chunksOf old (own m))
  fresh : ∀ m, m < k → ∀ x ∈ now m, old.top ≤ x
  todo : ∀ m, k ≤ m → now m = own m ∧ ∀ x ∈ own m, heap.cell x = old.cell x
  frame : ∀ x, x < old.top → (∀ m, x ∉ own m) → heap.cell x = old.cell x
  grown : old.top ≤ heap.top
  opened : ∀ a, links csid = some a → old.next a = none ∧ a < old.top ∧ ∀ m, a ∉ own m
  closed : csid < k → links csid = none

theorem Repacking.current (repacking : Repacking old own before after csid k heap links now) : now csid = [] :=
  owns_unheld repacking.owns (update_self _ _ _)

theorem Repacking.skip (repacking : Repacking old own before after csid csid heap links now) :
    Repacking old own before after csid (csid+1) heap (update links csid none) now := by
  have empty := repacking.current
  have own_empty : own csid = [] := (repacking.todo csid le_rfl).1 ▸ empty
  obtain ⟨owns,done,fresh,todo,frame,grown,_,_⟩ := repacking
  refine ⟨?_,?_,?_,fun m above => todo m (by omega),frame,grown,?_,fun _ => update_self _ _ _⟩
  · rw [update_idem]
    refine owns_weaken owns fun m a member good => ?_
    have other : m ≠ csid := by
      rintro rfl
      rw [empty] at member
      cases member
    have bounds : m < csid+1 ↔ m < csid := by omega
    simpa only [bounds] using good
  · intro m positive below
    by_cases same : m = csid
    · rw [same,empty,own_empty]
      rfl
    · exact done m positive (by omega)
  · intro m below x member
    by_cases same : m = csid
    · rw [same,empty] at member
      cases member
    · exact fresh m (by omega) x member
  · intro a found
    rw [update_self] at found
    cases found

theorem Repacking.stream (repacking : Repacking old own before (capacity s.core.chunkSize) csid k s.heap s.links now)
    (positive : 1 ≤ k) (other : k ≠ csid) :
    ∃ next, Repacking old own before (capacity s.core.chunkSize) csid (k+1) (repackStream s k).heap (repackStream s k).links next ∧
      (repackStream s k).core = s.core := by
  obtain ⟨heap,p,cells,result,owns,packed,frame,grown,fresh⟩ :=
    repackStream_packs repacking.owns (update_of_ne other _ _).symm (by omega)
      (fun v good => ⟨_,good⟩)
  have source : now k = own k := (repacking.todo k le_rfl).1
  have unread : chunksOf s.heap (own k) = chunksOf old (own k) := by
    refine chunksOf_frame fun x member => ?_
    exact congrArg Cell.val ((repacking.todo k le_rfl).2 x member)
  -- The other streams' buffers are not those of stream k.
  have apart : ∀ m, m ≠ k → ∀ x ∈ now m, heap.cell x = s.heap.cell x := by
    intro m different x member
    exact frame x (repacking.owns.bound m x member) fun also => different (repacking.owns.apart m k x member also)
  rw [result]
  refine ⟨update now k cells,⟨?_,?_,?_,?_,?_,le_trans repacking.grown grown,?_,?_⟩,rfl⟩
  · rw [update_comm other.symm] at owns
    refine owns_weaken owns fun m a _ good => ?_
    by_cases same : m = k
    · rw [if_pos same] at good
      rwa [if_pos (by omega)]
    · have bounds : m < k+1 ↔ m < k := by omega
      rw [if_neg same] at good
      simpa only [bounds] using good
  · intro m first below
    by_cases same : m = k
    · subst same
      simp only [update_self]
      rw [packed,source,unread]
    · simp only [update_of_ne same]
      rw [←repacking.done m first (by omega)]
      exact chunksOf_frame fun x member => congrArg Cell.val (apart m same x member)
  · intro m below x
    by_cases same : m = k
    · subst same
      simp only [update_self]
      exact fun member => le_trans repacking.grown (fresh x member)
    · simp only [update_of_ne same]
      exact repacking.fresh m (by omega) x
  · intro m above
    have different : m ≠ k := by omega
    obtain ⟨cells_same,cell⟩ := repacking.todo m (by omega)
    simp only [update_of_ne different]
    refine ⟨cells_same,fun x member => ?_⟩
    exact (apart m different x (cells_same ▸ member)).trans (cell x member)
  · intro x below nobody
    refine (frame x (lt_of_lt_of_le below repacking.grown) ?_).trans (repacking.frame x below nobody)
    rw [source]
    exact nobody k
  · simp only [update_of_ne other.symm]
    exact repacking.opened
  · intro passed
    simp only [update_of_ne other.symm]
    exact repacking.closed (by omega)

theorem Repacking.step (repacking : Repacking old own before (capacity s.core.chunkSize) csid k s.heap s.links now)
    (positive : 1 ≤ k) :
    ∃ next, Repacking old own before (capacity s.core.chunkSize) csid (k+1) (repackStream s k).heap (repackStream s k).links next ∧
      (repackStream s k).core = s.core := by
  by_cases same : k = csid
  · subst same
    refine ⟨now,?_⟩
    have nothing : (s.links k).bind s.heap.next = none := by
      cases found : s.links k with
      | none => rfl
      | some a =>
        obtain ⟨cut,below,nobody⟩ := repacking.opened a found
        have cell := repacking.frame a below nobody
        exact (congrArg Cell.next cell).trans cut
    have result : repackStream s k = s.setLink k none := by
      unfold repackStream
      rw [nothing]
    rw [result]
    exact ⟨repacking.skip,rfl⟩
  · exact repacking.stream positive same

theorem Repacking.run (count : Nat)
    (repacking : Repacking old own before (capacity s.core.chunkSize) csid 1 s.heap s.links now) :
    ∃ next, Repacking old own before (capacity s.core.chunkSize) csid (count+1)
        ((List.range' 1 count).foldl repackStream s).heap ((List.range' 1 count).foldl repackStream s).links next ∧
      ((List.range' 1 count).foldl repackStream s).core = s.core := by
  induction count with
  | zero => exact ⟨now,repacking,rfl⟩
  | succ count ih =>
    obtain ⟨middle,so_far,core⟩ := ih
    rw [List.range'_concat,foldl_append]
    simp only [one_mul,foldl_cons,foldl_nil]
    rw [add_comm 1 count]
    rw [←core] at so_far
    obtain ⟨next,after,same⟩ := so_far.step (Nat.succ_pos _)
    rw [core] at after
    exact ⟨next,after,same.trans core⟩

-- The chunk stream `csid` is open or given up, and every other one is whole.
structure Serving (s : Session) (own : Nat → List Nat) (csid : Nat) : Prop where
  owns : Owns (fun _ => Fits (capacity s.core.chunkSize)) s.heap (update s.links csid none) own
  opened : ∀ a, s.links csid = some a → s.heap.next a = none ∧ a < s.heap.top ∧ ∀ m, a ∉ own m
  beyond : ∀ n, n ≠ 0 → s.core.cscf.maxStreams ≤ n → own n = []
  known : csid < s.core.cscf.maxStreams
  ring : csid ≠ 0

-- ngx_rtmp_set_chunk_size lets the free buffers go before the loop over n.
theorem Serving.repacking (serving : Serving s own csid) (size : Nat) :
    Repacking s.heap own (capacity s.core.chunkSize) (capacity size) csid 1 s.heap
      (update s.links 0 none) (update own 0 []) := by
  obtain ⟨owns,opened,_,_,ring⟩ := serving
  have without := owns_drop owns 0
  rw [update_comm ring] at without
  refine ⟨?_,?_,?_,?_,fun _ _ _ => rfl,le_rfl,?_,?_⟩
  · refine owns_weaken without fun m a member good => ?_
    have positive : ¬m < 1 := by
      intro zero
      obtain rfl : m = 0 := by omega
      rw [update_self] at member
      cases member
    rwa [if_neg positive]
  · intro m positive below
    omega
  · intro m below x member
    obtain rfl : m = 0 := by omega
    rw [update_self] at member
    cases member
  · intro m above
    have positive : m ≠ 0 := by omega
    rw [update_of_ne positive]
    exact ⟨rfl,fun _ _ => rfl⟩
  · rw [update_of_ne ring]
    exact opened
  · intro below
    omega

theorem setChunkSize_packs (serving : Serving s own csid) :
    ∃ now, Serving (setChunkSize s size) now csid ∧ (setChunkSize s size).links csid = none ∧
      (setChunkSize s size).core = {s.core with chunkSize:=size,changing:=true} ∧
      (∀ n, n ≠ 0 → chunksOf (setChunkSize s size).heap (now n) = repack (capacity size) (chunksOf s.heap (own n))) ∧
      (∀ n, ∀ x ∈ now n, s.heap.top ≤ x) ∧ s.heap.top ≤ (setChunkSize s size).heap.top ∧
      (∀ x, x < s.heap.top → (∀ m, x ∉ own m) → (setChunkSize s size).heap.cell x = s.heap.cell x) := by
  have initial := serving.repacking size
  obtain ⟨owns,opened,beyond,known,ring⟩ := serving
  obtain ⟨now,final,core⟩ := Repacking.run (s.core.cscf.maxStreams-1)
    (s:={s with core:={s.core with chunkSize:=size,changing:=true}}.setLink 0 none) initial
  have last : s.core.cscf.maxStreams-1+1 = s.core.cscf.maxStreams := by omega
  rw [last] at final
  change Repacking s.heap own (capacity s.core.chunkSize) (capacity size) csid s.core.cscf.maxStreams
    (setChunkSize s size).heap (setChunkSize s size).links now at final
  change (setChunkSize s size).core = _ at core
  have empty : ∀ n, s.core.cscf.maxStreams ≤ n → now n = [] := by
    intro n above
    have positive : n ≠ 0 := by omega
    rw [(final.todo n above).1,beyond n positive above]
  refine ⟨now,⟨?_,?_,?_,?_,ring⟩,final.closed known,core,?_,?_,final.grown,final.frame⟩
  · rw [core]
    refine owns_weaken final.owns fun m a member good => ?_
    have below : m < s.core.cscf.maxStreams := by
      refine Nat.lt_of_not_le fun above => ?_
      rw [empty m above] at member
      cases member
    rwa [if_pos below] at good
  · intro a found
    rw [final.closed known] at found
    cases found
  · intro n _ above
    rw [core] at above
    exact empty n above
  · rw [core]
    exact known
  · intro n positive
    by_cases below : n < s.core.cscf.maxStreams
    · exact final.done n (by omega) below
    · rw [empty n (by omega),beyond n positive (by omega)]
      rfl
  · intro n x member
    by_cases below : n < s.core.cscf.maxStreams
    · exact final.fresh n below x member
    · rw [empty n (by omega)] at member
      cases member

end NgxRtmp.Recv
