import NgxRtmp.Lib.Octets

namespace NgxRtmp.Boxes
open Octets List

-- Boxes that begin with their length in four octets and a name, and hold fields in front
-- of further boxes.
structure Name where
  first : UInt8
  second : UInt8
  third : UInt8
  fourth : UInt8
  deriving DecidableEq, Repr

def Name.bytes (n : Name) : List UInt8 := [n.first,n.second,n.third,n.fourth]

def name (a b c d : Char) : Name :=
  ⟨UInt8.ofNat a.toNat,UInt8.ofNat b.toNat,UInt8.ofNat c.toNat,UInt8.ofNat d.toNat⟩

@[simp] theorem bytes_length {n : Name} : n.bytes.length = 4 := rfl

inductive Box where
  | mk (name : Name) (fields : List UInt8) (children : List Box)

def Box.name : Box → Name
  | .mk name _ _ => name

def Box.fields : Box → List UInt8
  | .mk _ fields _ => fields

def Box.children : Box → List Box
  | .mk _ _ children => children

def frame (n : Name) (body : List UInt8) : List UInt8 := bigEndian 4 (8+body.length) ++ n.bytes ++ body

@[simp] theorem frame_length : (frame n body).length = 8+body.length := by
  simp [frame]
  omega

mutual
def Box.encode : Box → List UInt8
  | .mk name fields children => frame name (fields ++ encodeAll children)

def encodeAll : List Box → List UInt8
  | [] => []
  | box::boxes => box.encode ++ encodeAll boxes
end

-- Fields of one length, anything, or fields and then boxes up to the end.
inductive Shape where
  | fixed (size : Nat)
  | data
  | container (size : Nat)
  deriving DecidableEq, Repr

mutual
def Box.conforms (shape : Name → Shape) : Box → Bool
  | .mk name fields children =>
    match shape name with
    | .fixed size => fields.length == size && children.isEmpty
    | .data => children.isEmpty
    | .container size => fields.length == size && allConform shape children

def allConform (shape : Name → Shape) : List Box → Bool
  | [] => true
  | box::boxes => box.conforms shape && allConform shape boxes
end

def readName (bytes : List UInt8) : Name := ⟨bytes.getD 4 0,bytes.getD 5 0,bytes.getD 6 0,bytes.getD 7 0⟩

def parseBody (shape : Shape) (inner : List UInt8 → Option (List Box)) (n : Name) (body : List UInt8) : Option Box :=
  match shape with
  | .fixed size => if body.length = size then some (.mk n body []) else none
  | .data => some (.mk n body [])
  | .container size => if size ≤ body.length then (inner (body.drop size)).map (Box.mk n (body.take size)) else none

def parseWith (shape : Name → Shape) : Nat → List UInt8 → Option (List Box)
  | 0,_ => none
  | fuel+1,bytes =>
    if bytes = [] then some []
    else
      let size := natural (bytes.take 4)
      if size < 8 ∨ bytes.length < size then none
      else match parseBody (shape (readName bytes)) (parseWith shape fuel) (readName bytes) ((bytes.take size).drop 8) with
        | none => none
        | some box => (parseWith shape fuel (bytes.drop size)).map (box::·)

-- Every octet belongs to a field or to a box of the result.
def parse (shape : Name → Shape) (bytes : List UInt8) : Option (List Box) := parseWith shape (bytes.length+1) bytes

theorem frame_ne_nil : frame n body ≠ [] := by
  intro empty
  have length := congrArg List.length empty
  simp at length

theorem readName_frame : readName (frame n body ++ rest) = n := rfl

theorem natural_frame (small : 8+body.length < 2^32) : natural ((frame n body ++ rest).take 4) = 8+body.length := by
  have front : (frame n body ++ rest).take 4 = bigEndian 4 (8+body.length) := by
    rw [frame,append_assoc,append_assoc]
    exact take_left' (bigEndian_length _ _)
  rw [front]
  exact natural_bigEndian_small small

theorem parseWith_frame (small : 8+body.length < 2^32) :
    parseWith shape (fuel+1) (frame n body ++ rest) =
      match parseBody (shape n) (parseWith shape fuel) n body with
      | none => none
      | some box => (parseWith shape fuel rest).map (box::·) := by
  have some_octet : frame n body ++ rest ≠ [] := fun empty => frame_ne_nil (append_eq_nil_iff.mp empty).1
  have whole : (frame n body ++ rest).take (8+body.length) = frame n body := take_left' frame_length
  have behind : (frame n body ++ rest).drop (8+body.length) = rest := drop_left' frame_length
  have inside : (frame n body).drop 8 = body := rfl
  rw [parseWith,if_neg some_octet]
  simp only [natural_frame small,readName_frame,whole,behind,inside]
  rw [if_neg]
  simp only [length_append,frame_length]
  omega

theorem allConform_append : allConform shape (left ++ right) = (allConform shape left && allConform shape right) := by
  induction left with
  | nil => rfl
  | cons box left ih => simp [allConform,ih,Bool.and_assoc]

theorem encodeAll_append : encodeAll (left ++ right) = encodeAll left ++ encodeAll right := by
  induction left with
  | nil => rfl
  | cons box left ih => simp [encodeAll,ih]

theorem encode_le_encodeAll (boxes : List Box) : ∀ box ∈ boxes, box.encode.length ≤ (encodeAll boxes).length := by
  induction boxes with
  | nil => intro box member; cases member
  | cons first boxes ih =>
    intro box member
    rw [encodeAll,length_append]
    cases mem_cons.mp member with
    | inl this => exact this ▸ Nat.le_add_right _ _
    | inr later => exact le_trans (ih box later) (Nat.le_add_left _ _)

theorem parseWith_encodeAll :
    ∀ boxes, allConform shape boxes = true → (∀ box ∈ boxes, box.encode.length < 2^32) → (encodeAll boxes).length < fuel →
      parseWith shape fuel (encodeAll boxes) = some boxes := by
  induction fuel with
  | zero => intro boxes _ _ enough; cases enough
  | succ fuel ih =>
    intro boxes conform small enough
    cases boxes with
    | nil => rfl
    | cons box boxes =>
      cases box with
      | mk n fields children =>
        simp only [allConform,Box.conforms,Bool.and_eq_true] at conform
        obtain ⟨first,others⟩ := conform
        have short := small _ mem_cons_self
        simp only [encodeAll,Box.encode,length_append,frame_length] at short enough
        have rest := ih boxes others (fun box member => small box (mem_cons_of_mem _ member)) (by omega)
        rw [encodeAll,Box.encode,parseWith_frame (by simp only [length_append]; omega)]
        cases kind : shape n with
        | fixed size =>
          simp only [kind,Bool.and_eq_true,beq_iff_eq,List.isEmpty_iff] at first
          obtain ⟨size_eq,rfl⟩ := first
          simp [parseBody,encodeAll,size_eq,rest]
        | data =>
          simp only [kind,List.isEmpty_iff] at first
          subst first
          simp [parseBody,encodeAll,rest]
        | container size =>
          simp only [kind,Bool.and_eq_true,beq_iff_eq] at first
          obtain ⟨rfl,inner⟩ := first
          have lengths := encode_le_encodeAll children
          have within := ih children inner (fun box member => by have := lengths box member; omega) (by omega)
          simp [parseBody,within,rest]

theorem parse_encodeAll (conform : allConform shape boxes = true) (small : ∀ box ∈ boxes, box.encode.length < 2^32) :
    parse shape (encodeAll boxes) = some boxes :=
  parseWith_encodeAll boxes conform small (Nat.lt_succ_self _)

end NgxRtmp.Boxes
