import NgxRtmp.Lib.Octets

namespace NgxRtmp.Flv
open List hiding after head
open Octets

def msgAudio : UInt8 := 8
def msgVideo : UInt8 := 9

inductive Track where
  | audio
  | video
  deriving DecidableEq, Repr

def Track.type : Track → UInt8
  | .audio => msgAudio
  | .video => msgVideo

def Track.ofType (type : UInt8) : Option Track :=
  if type = msgAudio then some .audio else if type = msgVideo then some .video else none

def tagHeader : Nat := 11
def dataOffset : Nat := 13

structure Tag where
  type : UInt8
  timestamp : UInt32
  streamId : UInt8 × UInt8 × UInt8
  body : List UInt8
  short : body.length < 2^24
  deriving DecidableEq, Repr

def size24 (n : Nat) : List UInt8 := [octet (UInt32.ofNat n) 2,octet (UInt32.ofNat n) 1,octet (UInt32.ofNat n) 0]

def size32 (n : Nat) : List UInt8 := octet (UInt32.ofNat n) 3::size24 n

def Tag.header (t : Tag) : List UInt8 :=
  t.type::size24 t.body.length ++
    [octet t.timestamp 2,octet t.timestamp 1,octet t.timestamp 0,octet t.timestamp 3,
      t.streamId.1,t.streamId.2.1,t.streamId.2.2]

def Tag.encode (t : Tag) : List UInt8 := t.header ++ t.body ++ size32 (tagHeader+t.body.length)

def fileHeader (version flags : UInt8) : List UInt8 := [0x46,0x4c,0x56,version,flags,0,0,0,9,0,0,0,0]

def encode (version flags : UInt8) (tags : List Tag) : List UInt8 := fileHeader version flags ++ tags.flatMap Tag.encode

-- ngx_read_file without an error: fewer bytes at the end of the file only
def readFile (file : List UInt8) (size offset : Nat) : List UInt8 := (file.drop offset).take size

-- The fields that flv_send and node_open take from a tag header.
structure Head where
  type : UInt8
  size : Nat
  timestamp : UInt32
  deriving DecidableEq, Repr

def readHead : List UInt8 → Option Head
  | [type,s2,s1,s0,t2,t1,t0,t3,_,_,_] => some ⟨type,(word s0 s1 s2 0).toNat,word t0 t1 t2 t3⟩
  | _ => none

def decodeTags : Nat → List UInt8 → Option (List Tag)
  | 0,_ => none
  | fuel+1,bytes =>
    if bytes = [] then some []
    else match readHead (bytes.take tagHeader) with
      | none => none
      | some head =>
        let body := readFile bytes head.size tagHeader
        if short : body.length < 2^24 then
          if body.length = head.size ∧ readFile bytes 4 (tagHeader+head.size) = size32 (tagHeader+head.size) then
            (decodeTags fuel (bytes.drop (tagHeader+head.size+4))).map fun rest =>
              ⟨head.type,head.timestamp,(bytes.getD 8 0,bytes.getD 9 0,bytes.getD 10 0),body,short⟩::rest
          else none
        else none

structure File where
  version : UInt8
  flags : UInt8
  tags : List Tag
  deriving DecidableEq, Repr

def decode (file : List UInt8) : Option File :=
  if file.take 3 = [0x46,0x4c,0x56] ∧ readFile file 8 5 = [0,0,0,9,0,0,0,0] then
    (decodeTags (file.length+1) (file.drop dataOffset)).map fun tags => ⟨file.getD 3 0,file.getD 4 0,tags⟩
  else none

@[simp] theorem header_length {t : Tag} : t.header.length = tagHeader := rfl

@[simp] theorem encode_length (t : Tag) : t.encode.length = tagHeader+t.body.length+4 := by
  simp [Tag.encode,size32,size24]
  omega

theorem word_size24 (small : n < 2^24) :
    (word (octet (UInt32.ofNat n) 0) (octet (UInt32.ofNat n) 1) (octet (UInt32.ofNat n) 2) 0).toNat = n := by
  have whole : (UInt32.ofNat n).toNat = n := by
    rw [UInt32.toNat_ofNat']
    omega
  rw [word_octets24 _ (by rw [whole]; exact small),whole]

theorem readHead_header {t : Tag} : readHead t.header = some ⟨t.type,t.body.length,t.timestamp⟩ := by
  simp only [Tag.header,size24,cons_append,nil_append,readHead,word_octets,word_size24 t.short]

theorem readFile_at : readFile (before ++ (part ++ after)) part.length before.length = part := by
  simp [readFile]

theorem readFile_end : readFile file size file.length = [] := by
  simp [readFile]

theorem readFile_tag (before after : List UInt8) (t : Tag) :
    readFile (before ++ (t.encode ++ after)) tagHeader before.length = t.header ∧
      readFile (before ++ (t.encode ++ after)) t.body.length (before.length+tagHeader) = t.body := by
  constructor
  · have whole : t.encode ++ after = t.header ++ (t.body ++ size32 (tagHeader+t.body.length) ++ after) := by
      simp [Tag.encode]
    rw [whole,← header_length]
    exact readFile_at
  · have whole : before ++ (t.encode ++ after) =
        (before ++ t.header) ++ (t.body ++ (size32 (tagHeader+t.body.length) ++ after)) := by
      simp [Tag.encode]
    have place : before.length+tagHeader = (before ++ t.header).length := by simp
    rw [whole,place]
    exact readFile_at

theorem decodeTags_encode (enough : tags.length < fuel) : decodeTags fuel (tags.flatMap Tag.encode) = some tags := by
  induction tags generalizing fuel with
  | nil =>
    cases fuel with
    | zero => cases enough
    | succ fuel => simp [decodeTags]
  | cons t tags ih =>
    cases fuel with
    | zero => cases enough
    | succ fuel =>
      obtain ⟨head,body⟩ := readFile_tag [] (tags.flatMap Tag.encode) t
      simp only [nil_append,length_nil,zero_add] at head body
      have first : (t.encode ++ tags.flatMap Tag.encode).take tagHeader = t.header := by simpa [readFile] using head
      have size : readFile (t.encode ++ tags.flatMap Tag.encode) 4 (tagHeader+t.body.length) = size32 (tagHeader+t.body.length) := by
        have split : t.encode ++ tags.flatMap Tag.encode =
            (t.header ++ t.body) ++ (size32 (tagHeader+t.body.length) ++ tags.flatMap Tag.encode) := by
          simp [Tag.encode]
        rw [split,show tagHeader+t.body.length = (t.header ++ t.body).length by simp]
        exact readFile_at
      have rest : (t.encode ++ tags.flatMap Tag.encode).drop (tagHeader+t.body.length+4) = tags.flatMap Tag.encode :=
        drop_left' (encode_length t)
      have some_ : t.encode ++ tags.flatMap Tag.encode ≠ [] := by
        intro none
        have zero := congrArg List.length none
        simp [tagHeader] at zero
      rw [flatMap_cons,decodeTags,if_neg some_,first,readHead_header]
      simp only [body,t.short,dif_pos,size,and_self,if_true,rest,ih (by simpa using enough),Option.map_some]
      rfl

theorem length_le_encode (tags : List Tag) : tags.length ≤ (tags.flatMap Tag.encode).length := by
  induction tags with
  | nil => simp
  | cons t tags ih =>
    simp only [flatMap_cons,length_append,length_cons,encode_length]
    omega

theorem decode_encode : decode (encode version flags tags) = some ⟨version,flags,tags⟩ := by
  have rest : (encode version flags tags).drop dataOffset = tags.flatMap Tag.encode := rfl
  have enough := length_le_encode tags
  unfold decode
  rw [if_pos ⟨rfl,rfl⟩,rest,decodeTags_encode]
  · rfl
  · rw [encode,length_append]
    omega

end NgxRtmp.Flv
