import NgxRtmp.Lib.Boxes
import NgxRtmp.Lib.Splice

namespace NgxRtmp.Mp4Writer
open Octets Boxes Splice List

-- Memory from start to end, and b->last as a distance; `refused` records a write without room.
structure Buf where
  memory : List UInt8
  last : Nat
  refused : Bool
  deriving DecidableEq, Repr

def Buf.put (b : Buf) (bytes : List UInt8) : Buf :=
  {b with memory:=splice b.memory b.last bytes,last:=b.last+bytes.length}

-- The room check and the copy that every field function ends with.
def cpymem (b : Buf) (bytes : List UInt8) : Buf × Bool :=
  if b.memory.length < b.last+bytes.length then ({b with refused:=true},false) else (b.put bytes,true)

def field32 (b : Buf) (n : Nat) : Buf × Bool := cpymem b (bigEndian 4 n)

def field24 (b : Buf) (n : Nat) : Buf × Bool := cpymem b (bigEndian 3 n)

def field16 (b : Buf) (n : Nat) : Buf × Bool := cpymem b (bigEndian 2 n)

def field8 (b : Buf) (n : Nat) : Buf × Bool := cpymem b (bigEndian 1 n)

def data (b : Buf) (bytes : List UInt8) : Buf × Bool := cpymem b bytes

def box (b : Buf) (n : Name) : Buf × Bool := cpymem b n.bytes

-- Consecutive calls whose results nobody looks at.
inductive Field where
  | f32 (n : Nat)
  | f24 (n : Nat)
  | f16 (n : Nat)
  | f8 (n : Nat)
  | box (n : Name)
  | data (bytes : List UInt8)

def Field.write (b : Buf) : Field → Buf
  | .f32 n => (field32 b n).1
  | .f24 n => (field24 b n).1
  | .f16 n => (field16 b n).1
  | .f8 n => (field8 b n).1
  | .box n => (Mp4Writer.box b n).1
  | .data bytes => (Mp4Writer.data b bytes).1

def writeFields (fields : List Field) (b : Buf) : Buf := fields.foldl Field.write b

-- ngx_rtmp_mp4_put_descr: the size is masked to seven bits.
def putDescr (tag size : Nat) : List Field := [.f8 tag,.f8 (size % 0x80)]

def startBox (b : Buf) (n : Name) : Option Nat × Buf :=
  match field32 b 0 with
  | (next,false) => (none,next)
  | (next,true) =>
    match box next n with
    | (next,false) => (none,next)
    | (next,true) => (some b.last,next)

def updateBoxSize (b : Buf) (p : Option Nat) : Buf :=
  match p with
  | none => b
  | some p =>
    let curpos := b.last
    {(field32 {b with last:=p} (curpos-p)).1 with last:=curpos}

-- start_box, what stands in the box, update_box_size. The body may look at the place of
-- the box.
def inBox (n : Name) (body : Option Nat → Buf → Buf) (b : Buf) : Buf :=
  let start := startBox b n
  updateBoxSize (body start.1 start.2) start.1

def calls (writers : List (Buf → Buf)) (b : Buf) : Buf := writers.foldl (fun b w => w b) b

theorem calls_cons : calls (w::writers) b = calls writers (w b) := rfl

theorem calls_nil : calls [] b = b := rfl

def Field.bytes : Field → List UInt8
  | .f32 n => bigEndian 4 n
  | .f24 n => bigEndian 3 n
  | .f16 n => bigEndian 2 n
  | .f8 n => bigEndian 1 n
  | .box n => n.bytes
  | .data bytes => bytes

def bytesOf (fields : List Field) : List UInt8 := fields.flatMap Field.bytes

@[simp] theorem bytesOf_nil : bytesOf [] = [] := rfl

@[simp] theorem bytesOf_cons : bytesOf (f::fields) = f.bytes ++ bytesOf fields := rfl

@[simp] theorem bytesOf_append (left right : List Field) : bytesOf (left ++ right) = bytesOf left ++ bytesOf right := by
  simp [bytesOf]

-- A writer that puts one text at one place, or is refused.
structure Writes (place : Nat) (w : Buf → Buf) (out : List UInt8) : Prop where
  fits : ∀ b : Buf, b.last = place → place+out.length ≤ b.memory.length → w b = b.put out
  full : ∀ b : Buf, b.last = place → place ≤ b.memory.length → b.memory.length < place+out.length → (w b).refused = true
  sticky : ∀ b : Buf, b.refused = true → (w b).refused = true

theorem put_length {b : Buf} (fits : b.last+out.length ≤ b.memory.length) : (b.put out).memory.length = b.memory.length :=
  splice_length fits

theorem put_put (b : Buf) (inside : b.last ≤ b.memory.length) (left right : List UInt8) :
    (b.put left).put right = b.put (left ++ right) := by
  simp only [Buf.put,splice_splice inside,length_append,add_assoc]

theorem cpymem_writes (place : Nat) (bytes : List UInt8) : Writes place (fun b => (cpymem b bytes).1) bytes := by
  refine ⟨?_,?_,?_⟩
  · intro b at_place fits
    simp only [cpymem]
    rw [if_neg (by omega)]
  · intro b at_place _ full
    simp only [cpymem]
    rw [if_pos (by omega)]
  · intro b refused
    simp only [cpymem]
    split
    · rfl
    · exact refused

theorem field_writes {f : Field} : Writes place (fun b => f.write b) f.bytes := by
  cases f with
  | f32 n => exact cpymem_writes place _
  | f24 n => exact cpymem_writes place _
  | f16 n => exact cpymem_writes place _
  | f8 n => exact cpymem_writes place _
  | box n => exact cpymem_writes place _
  | data bytes => exact cpymem_writes place _

theorem writes_nothing (place : Nat) : Writes place (fun b => b) [] := by
  refine ⟨?_,?_,fun _ => id⟩
  · intro b _ _
    simp [Buf.put,splice_nil]
  · intro b _ inside full
    simp only [length_nil] at full
    omega

theorem writes_then (first : Writes place v left) (second : Writes (place+left.length) w right) :
    Writes place (fun b => w (v b)) (left ++ right) := by
  refine ⟨?_,?_,fun b refused => second.sticky _ (first.sticky b refused)⟩
  · intro b at_place fits
    simp only [length_append] at fits
    have room : b.last+left.length ≤ b.memory.length := by omega
    rw [first.fits b at_place (by omega),second.fits (b.put left) (by rw [← at_place]; rfl) (by rw [put_length room]; omega)]
    exact put_put b (by omega) left right
  · intro b at_place inside full
    simp only [length_append] at full
    by_cases room : place+left.length ≤ b.memory.length
    · have wrote := first.fits b at_place room
      have length := put_length (at_place ▸ room)
      simp only [wrote]
      exact second.full (b.put left) (by rw [← at_place]; rfl) (by omega) (by omega)
    · exact second.sticky _ (first.full b at_place inside (by omega))

theorem calls_one (writes : Writes place w out) : Writes place (calls [w]) out := writes

theorem calls_next (first : Writes place v left) (length : left.length = n) (others : Writes (place+n) (calls writers) right) :
    Writes place (calls (v::writers)) (left ++ right) := by
  subst length
  have step := writes_then first others
  exact step

theorem writeFields_writes : ∀ place, Writes place (writeFields fields) (bytesOf fields) := by
  induction fields with
  | nil => exact writes_nothing
  | cons f fields ih =>
    intro place
    have step := writes_then field_writes (ih (place+f.bytes.length))
    exact step

theorem updateBoxSize_sticky (b : Buf) (p : Option Nat) (refused : b.refused = true) : (updateBoxSize b p).refused = true := by
  cases p with
  | none => exact refused
  | some p => exact (cpymem_writes p (bigEndian 4 (b.last-p))).sticky {b with last:=p} refused

theorem startBox_fits (fits : b.last+8 ≤ b.memory.length) : startBox b n = (some b.last,b.put (bigEndian 4 0 ++ n.bytes)) := by
  have zero : field32 b 0 = (b.put (bigEndian 4 0),true) := by
    rw [field32,cpymem,if_neg (by rw [bigEndian_length]; omega)]
  have length : (b.put (bigEndian 4 0)).memory.length = b.memory.length :=
    put_length (by rw [bigEndian_length]; omega)
  have named : box (b.put (bigEndian 4 0)) n = ((b.put (bigEndian 4 0)).put n.bytes,true) := by
    rw [box,cpymem,if_neg]
    rw [length,bytes_length]
    change ¬ b.memory.length < b.last+(bigEndian 4 0).length+4
    rw [bigEndian_length]
    omega
  rw [startBox,zero]
  simp only [named,put_put b (by omega)]

theorem startBox_full (full : b.memory.length < b.last+8) : (startBox b n).1 = none ∧ (startBox b n).2.refused = true := by
  unfold startBox field32 cpymem
  simp only [bigEndian_length]
  by_cases zero : b.memory.length < b.last+4
  · simp [zero]
  · have length : (b.put (bigEndian 4 0)).memory.length = b.memory.length :=
      put_length (by rw [bigEndian_length]; omega)
    have named : box (b.put (bigEndian 4 0)) n = ({b.put (bigEndian 4 0) with refused:=true},false) := by
      rw [box,cpymem,if_pos]
      rw [length,bytes_length]
      change b.memory.length < b.last+(bigEndian 4 0).length+4
      rw [bigEndian_length]
      omega
    simp [zero,named]

theorem startBox_sticky (refused : b.refused = true) : (startBox b n).2.refused = true := by
  by_cases fits : b.last+8 ≤ b.memory.length
  · rw [startBox_fits fits]
    exact refused
  · exact (startBox_full (by omega)).2

theorem updateBoxSize_put {b : Buf} (fits : b.last+(8+out.length) ≤ b.memory.length) :
    updateBoxSize (b.put (bigEndian 4 0 ++ n.bytes ++ out)) (some b.last) = b.put (frame n out) := by
  have whole : (bigEndian 4 0 ++ n.bytes ++ out).length = 8+out.length := by
    simp only [length_append,bigEndian_length,bytes_length]
  have length : (b.put (bigEndian 4 0 ++ n.bytes ++ out)).memory.length = b.memory.length :=
    put_length (by rw [whole]; exact fits)
  have size : (b.put (bigEndian 4 0 ++ n.bytes ++ out)).last-b.last = 8+out.length := by
    change b.last+(bigEndian 4 0 ++ n.bytes ++ out).length-b.last = 8+out.length
    rw [whole]
    omega
  unfold updateBoxSize
  simp only [size,field32,cpymem,bigEndian_length]
  rw [if_neg (by rw [length]; omega)]
  simp only [Buf.put,append_assoc]
  rw [splice_again (by omega) (by simp only [bigEndian_length])]
  simp only [frame,append_assoc,length_append,bigEndian_length]

theorem inBox_sticky (n : Name) (sticky : ∀ pos b, b.refused = true → (body pos b).refused = true) (b : Buf)
    (refused : b.refused = true) : (inBox n body b).refused = true :=
  updateBoxSize_sticky _ _ (sticky _ _ (startBox_sticky refused))

theorem inBox_full (sticky : ∀ pos b, b.refused = true → (body pos b).refused = true)
    (full : b.memory.length < b.last+8) : (inBox n body b).refused = true :=
  updateBoxSize_sticky _ _ (sticky _ _ (startBox_full full).2)

theorem inBox_writes (sticky : ∀ pos b, b.refused = true → (body pos b).refused = true)
    (inner : Writes (place+8) (body (some place)) out) : Writes place (inBox n body) (frame n out) := by
  refine ⟨?_,?_,?_⟩
  · intro b at_place fits
    rw [frame_length] at fits
    have head : (bigEndian 4 0 ++ n.bytes).length = 8 := by
      simp only [length_append,bigEndian_length,bytes_length]
    have length : (b.put (bigEndian 4 0 ++ n.bytes)).memory.length = b.memory.length :=
      put_length (by rw [head]; omega)
    have wrote := inner.fits (b.put (bigEndian 4 0 ++ n.bytes))
      (by rw [← at_place,← head]; rfl) (by rw [length]; omega)
    unfold inBox
    rw [startBox_fits (by omega)]
    simp only [at_place,wrote]
    rw [put_put b (by omega),← at_place]
    exact updateBoxSize_put (by omega)
  · intro b at_place inside full
    rw [frame_length] at full
    unfold inBox
    apply updateBoxSize_sticky
    by_cases head : b.last+8 ≤ b.memory.length
    · have eight : (bigEndian 4 0 ++ n.bytes).length = 8 := by
        simp only [length_append,bigEndian_length,bytes_length]
      have length : (b.put (bigEndian 4 0 ++ n.bytes)).memory.length = b.memory.length :=
        put_length (by rw [eight]; omega)
      rw [startBox_fits head]
      simp only [at_place]
      exact inner.full _ (by rw [← at_place,← eight]; rfl) (by omega) (by omega)
    · exact sticky _ _ (startBox_full (by omega)).2
  · exact inBox_sticky n sticky

def WritesBox (w : Buf → Buf) (target : Box) : Prop := ∀ place, Writes place w target.encode

def leaf (n : Name) (fields : List Field) : Box := .mk n (bytesOf fields) []

theorem leaf_encode : (leaf n fields).encode = frame n (bytesOf fields) := by
  simp [leaf,Box.encode,encodeAll]

theorem leaf_writes : WritesBox (inBox n fun _ => writeFields fields) (leaf n fields) := by
  intro place
  rw [leaf_encode]
  exact inBox_writes (fun _ => (writeFields_writes 0).sticky) (writeFields_writes _)

theorem children_writes (each : List.Forall₂ WritesBox writers children) :
    ∀ place, Writes place (calls writers) (encodeAll children) := by
  induction each with
  | nil => exact writes_nothing
  | cons first _ ih =>
    intro place
    rw [encodeAll]
    exact calls_next (first place) rfl (ih _)

theorem tree_writes (n : Name) (fields : List Field) (inner : ∀ place, Writes place w (encodeAll children)) :
    WritesBox (inBox n fun _ => calls [writeFields fields,w]) (Box.mk n (bytesOf fields) children) := by
  have body : ∀ place, Writes place (calls [writeFields fields,w]) (bytesOf fields ++ encodeAll children) := by
    intro place
    exact calls_next (writeFields_writes place) rfl (calls_one (inner _))
  intro place
  rw [Box.encode]
  exact inBox_writes (fun _ => (body 0).sticky) (body _)

theorem plain_writes (n : Name) (each : List.Forall₂ WritesBox writers children) :
    WritesBox (inBox n fun _ => calls writers) (Box.mk n [] children) :=
  tree_writes n [] (children_writes each)

theorem writes_exact (writes : Writes place w out) (at_place : b.last = place) (inside : place ≤ b.memory.length)
    (accepted : (w b).refused = false) : place+out.length ≤ b.memory.length ∧ w b = b.put out := by
  by_cases fits : place+out.length ≤ b.memory.length
  · exact ⟨fits,writes.fits b at_place fits⟩
  · rw [writes.full b at_place inside (by omega)] at accepted
    cases accepted

end NgxRtmp.Mp4Writer
