import NgxRtmp.Mp4Writer

namespace NgxRtmp.Mp4Boxes
open Octets Boxes Mp4Writer

inductive TrackType where
  | video
  | audio
  deriving DecidableEq, Repr

-- What the writers read from ngx_rtmp_codec_ctx_t. Of a codec header they read the first
-- buffer only.
structure Codec where
  width : Nat
  height : Nat
  audioChannels : Nat
  sampleSize : Nat
  sampleRate : Nat
  avcHeader : Option (List UInt8)
  aacHeader : Option (List UInt8)
  deriving DecidableEq, Repr

def writeMatrix (a b c d tx ty : Nat) : List Field :=
  [.f32 (a*65536),.f32 (b*65536),.f32 0,.f32 (c*65536),.f32 (d*65536),.f32 0,
    .f32 (tx*65536),.f32 (ty*65536),.f32 0x40000000]

def brands : List Field :=
  [.box (name 'i' 's' 'o' '6'),.f32 1,.box (name 'i' 's' 'o' 'm'),.box (name 'i' 's' 'o' '6'),.box (name 'd' 'a' 's' 'h')]

def ftyp : Name := name 'f' 't' 'y' 'p'
def styp : Name := name 's' 't' 'y' 'p'
def writeFtyp : Buf → Buf := inBox ftyp fun _ => writeFields brands
def writeStyp : Buf → Buf := inBox styp fun _ => writeFields brands

def mvhd : Name := name 'm' 'v' 'h' 'd'

def mvhdFields : List Field :=
  [.f32 0,.f32 0,.f32 0,.f32 1000,.f32 0,.f32 0x00010000,.f16 0x0100,.f16 0,.f32 0,.f32 0] ++
    writeMatrix 1 0 0 1 0 0 ++ [.f32 0,.f32 0,.f32 0,.f32 0,.f32 0,.f32 0,.f32 1]

def writeMvhd : Buf → Buf := inBox mvhd fun _ => writeFields mvhdFields

def tkhd : Name := name 't' 'k' 'h' 'd'

def tkhdFields (codec : Codec) (ttype : TrackType) : List Field :=
  [.f8 0,.f24 0x0000000f,.f32 0,.f32 0,.f32 1,.f32 0,.f32 0,.f32 0,.f32 0,.f32 0,
    .f16 (if ttype = .video then 0 else 0x0100),.f16 0] ++ writeMatrix 1 0 0 1 0 0 ++
    match ttype with
    | .video => [.f32 (codec.width*65536),.f32 (codec.height*65536)]
    | .audio => [.f32 0,.f32 0]

def writeTkhd (codec : Codec) (ttype : TrackType) : Buf → Buf := inBox tkhd fun _ => writeFields (tkhdFields codec ttype)

def mdhd : Name := name 'm' 'd' 'h' 'd'
def mdhdFields : List Field := [.f32 0,.f32 0,.f32 0,.f32 1000,.f32 0,.f16 0x15C7,.f16 0]
def writeMdhd : Buf → Buf := inBox mdhd fun _ => writeFields mdhdFields

def hdlr : Name := name 'h' 'd' 'l' 'r'

def videoHandler : List UInt8 := [0x56,0x69,0x64,0x65,0x6f,0x48,0x61,0x6e,0x64,0x6c,0x65,0x72,0]
def soundHandler : List UInt8 := [0x53,0x6f,0x75,0x6e,0x64,0x48,0x61,0x6e,0x64,0x6c,0x65,0x72,0]

def hdlrFields (ttype : TrackType) : List Field :=
  [.f32 0,.f32 0,.box (if ttype = .video then name 'v' 'i' 'd' 'e' else name 's' 'o' 'u' 'n'),.f32 0,.f32 0,.f32 0,
    .data (if ttype = .video then videoHandler else soundHandler)]

def writeHdlr (ttype : TrackType) : Buf → Buf := inBox hdlr fun _ => writeFields (hdlrFields ttype)

-- vmhd and smhd have their length written out.
def vmhd : Name := name 'v' 'm' 'h' 'd'
def smhd : Name := name 's' 'm' 'h' 'd'
def writeVmhd : Buf → Buf := writeFields [.f32 20,.box vmhd,.f32 0x01,.f32 0,.f32 0]
def writeSmhd : Buf → Buf := writeFields [.f32 16,.box smhd,.f32 0,.f16 0,.f16 0]

def dref : Name := name 'd' 'r' 'e' 'f'
def url : Name := name 'u' 'r' 'l' ' '
def writeDref : Buf → Buf := inBox dref fun _ => writeFields [.f32 0,.f32 1,.f32 0xc,.box url,.f32 0x00000001]

def dinf : Name := name 'd' 'i' 'n' 'f'
def writeDinf : Buf → Buf := inBox dinf fun _ => calls [writeDref]

def avcC : Name := name 'a' 'v' 'c' 'C'

-- Five bytes of the message stand in front of the configuration.
def avccFields (header : List UInt8) : List Field := if 5 < header.length then [.data (header.drop 5)] else []

def writeAvcc (codec : Codec) (b : Buf) : Buf :=
  match codec.avcHeader with
  | none => b
  | some header => inBox avcC (fun _ => writeFields (avccFields header)) b

def avc1 : Name := name 'a' 'v' 'c' '1'

def avc1Fields (codec : Codec) : List Field :=
  [.f32 0,.f16 0,.f16 1,.f16 0,.f16 0,.f32 0,.f32 0,.f32 0,.f16 codec.width,.f16 codec.height,
    .f32 0x00480000,.f32 0x00480000,.f32 0,.f16 1,.f32 0,.f32 0,.f32 0,
    .f32 0,.f32 0,.f32 0,.f32 0,.f32 0,.f16 0x18,.f16 0xffff]

def writeVideo (codec : Codec) : Buf → Buf := inBox avc1 fun _ => calls [writeFields (avc1Fields codec),writeAvcc codec]

def esds : Name := name 'e' 's' 'd' 's'

def esdsFields (dsi : List UInt8) : List Field :=
  [.f32 0] ++ putDescr 0x03 (23+dsi.length) ++ [.f16 1,.f8 0] ++ putDescr 0x04 (15+dsi.length) ++
    [.f8 0x40,.f8 0x15,.f24 0,.f32 0x0001F151,.f32 0x0001F14D] ++ putDescr 0x05 dsi.length ++ [.data dsi] ++
    putDescr 0x06 1 ++ [.f8 0x02]

def writeEsds (codec : Codec) (b : Buf) : Buf :=
  match codec.aacHeader with
  | none => b
  | some header => if header.length < 2 then b else inBox esds (fun _ => writeFields (esdsFields (header.drop 2))) b

def mp4a : Name := name 'm' 'p' '4' 'a'

def mp4aFields (codec : Codec) : List Field :=
  [.f32 0,.f16 0,.f16 1,.f32 0,.f32 0,.f16 codec.audioChannels,.f16 (codec.sampleSize*8),.f32 0,.f16 1000,
    .f16 codec.sampleRate]

def writeAudio (codec : Codec) : Buf → Buf := inBox mp4a fun _ => calls [writeFields (mp4aFields codec),writeEsds codec]

def stsd : Name := name 's' 't' 's' 'd'

def writeStsd (codec : Codec) (ttype : TrackType) : Buf → Buf :=
  inBox stsd fun _ => calls [writeFields [.f32 0,.f32 1],
    match ttype with
    | .video => writeVideo codec
    | .audio => writeAudio codec]

def stts : Name := name 's' 't' 't' 's'
def stsc : Name := name 's' 't' 's' 'c'
def stsz : Name := name 's' 't' 's' 'z'
def stco : Name := name 's' 't' 'c' 'o'
def writeStts : Buf → Buf := inBox stts fun _ => writeFields [.f32 0,.f32 0]
def writeStsc : Buf → Buf := inBox stsc fun _ => writeFields [.f32 0,.f32 0]
def writeStsz : Buf → Buf := inBox stsz fun _ => writeFields [.f32 0,.f32 0,.f32 0]
def writeStco : Buf → Buf := inBox stco fun _ => writeFields [.f32 0,.f32 0]

def stbl : Name := name 's' 't' 'b' 'l'

def writeStbl (codec : Codec) (ttype : TrackType) : Buf → Buf :=
  inBox stbl fun _ => calls [writeStsd codec ttype,writeStts,writeStsc,writeStsz,writeStco]

def minf : Name := name 'm' 'i' 'n' 'f'

def writeMinf (codec : Codec) (ttype : TrackType) : Buf → Buf :=
  inBox minf fun _ => calls [
    match ttype with
    | .video => writeVmhd
    | .audio => writeSmhd,
    writeDinf,writeStbl codec ttype]

def mdia : Name := name 'm' 'd' 'i' 'a'

def writeMdia (codec : Codec) (ttype : TrackType) : Buf → Buf :=
  inBox mdia fun _ => calls [writeMdhd,writeHdlr ttype,writeMinf codec ttype]

def trak : Name := name 't' 'r' 'a' 'k'

def writeTrak (codec : Codec) (ttype : TrackType) : Buf → Buf :=
  inBox trak fun _ => calls [writeTkhd codec ttype,writeMdia codec ttype]

def mvex : Name := name 'm' 'v' 'e' 'x'
def trex : Name := name 't' 'r' 'e' 'x'

def writeMvex : Buf → Buf :=
  inBox mvex fun _ => writeFields [.f32 0x20,.box trex,.f32 0,.f32 1,.f32 1,.f32 0,.f32 0,.f32 0]

def moov : Name := name 'm' 'o' 'o' 'v'

def writeMoov (codec : Codec) (ttype : TrackType) : Buf → Buf :=
  inBox moov fun _ => calls [writeMvhd,writeMvex,writeTrak codec ttype]

structure Sample where
  size : UInt32
  duration : UInt32
  delay : UInt32
  timestamp : UInt32
  key : Bool
  deriving DecidableEq, Repr

structure SampleMask where
  size : Bool
  duration : Bool
  delay : Bool
  key : Bool
  deriving DecidableEq, Repr

def tfhd : Name := name 't' 'f' 'h' 'd'
def tfdt : Name := name 't' 'f' 'd' 't'
def trun : Name := name 't' 'r' 'u' 'n'
def traf : Name := name 't' 'r' 'a' 'f'
def mfhd : Name := name 'm' 'f' 'h' 'd'
def moof : Name := name 'm' 'o' 'o' 'f'

def tfhdFields : List Field := [.f32 0x00020000,.f32 1]
def writeTfhd : Buf → Buf := inBox tfhd fun _ => writeFields tfhdFields

def tfdtFields (earliestPresTime : UInt32) : List Field := [.f32 0x00000000,.f32 earliestPresTime.toNat]
def writeTfdt (earliestPresTime : UInt32) : Buf → Buf := inBox tfdt fun _ => writeFields (tfdtFields earliestPresTime)

def SampleMask.nitems (mask : SampleMask) : Nat :=
  (if mask.duration then 1 else 0)+(if mask.size then 1 else 0)+(if mask.key then 1 else 0)+(if mask.delay then 1 else 0)

def SampleMask.flags (mask : SampleMask) : Nat :=
  0x01 ||| (if mask.duration then 0x000100 else 0) ||| (if mask.size then 0x000200 else 0) |||
    (if mask.key then 0x000400 else 0) ||| (if mask.delay then 0x000800 else 0)

def sampleFields (mask : SampleMask) (s : Sample) : List Field :=
  (if mask.duration then [.f32 s.duration.toNat] else []) ++ (if mask.size then [.f32 s.size.toNat] else []) ++
    (if mask.key then [.f32 (if s.key then 0x00000000 else 0x00010000)] else []) ++
    (if mask.delay then [.f32 s.delay.toNat] else [])

def trunFields (samples : List Sample) (mask : SampleMask) (distance : Nat) : List Field :=
  [.f32 mask.flags,.f32 samples.length,.f32 (distance+20+samples.length*mask.nitems*4+8)] ++
    samples.flatMap (sampleFields mask)

def writeTrun (samples : List Sample) (mask : SampleMask) (moofPos : Option Nat) : Buf → Buf :=
  inBox trun fun pos => writeFields (trunFields samples mask (pos.getD 0-moofPos.getD 0))

def writeTraf (earliestPresTime : UInt32) (samples : List Sample) (mask : SampleMask) (moofPos : Option Nat) : Buf → Buf :=
  inBox traf fun _ => calls [writeTfhd,writeTfdt earliestPresTime,writeTrun samples mask moofPos]

def mfhdFields (index : Nat) : List Field := [.f32 0,.f32 index]
def writeMfhd (index : Nat) : Buf → Buf := inBox mfhd fun _ => writeFields (mfhdFields index)

def writeMoof (earliestPresTime : UInt32) (samples : List Sample) (mask : SampleMask) (index : Nat) : Buf → Buf :=
  inBox moof fun pos => calls [writeMfhd index,writeTraf earliestPresTime samples mask pos]

def sidx : Name := name 's' 'i' 'd' 'x'

def sidxFields (referenceSize : Nat) (earliestPresTime latestPresTime : UInt32) : List Field :=
  let duration := latestPresTime-earliestPresTime
  [.f32 0,.f32 1,.f32 1000,.f32 earliestPresTime.toNat,.f32 duration.toNat,.f16 0,.f16 1,.f32 referenceSize,
    .f32 duration.toNat,.f8 0x90,.f24 0]

def writeSidx (referenceSize : Nat) (earliestPresTime latestPresTime : UInt32) : Buf → Buf :=
  inBox sidx fun _ => writeFields (sidxFields referenceSize earliestPresTime latestPresTime)

def mdat : Name := name 'm' 'd' 'a' 't'
def writeMdat (size : Nat) : Buf → Buf := writeFields [.f32 size,.box mdat]

def avccBoxes (codec : Codec) : List Box :=
  match codec.avcHeader with
  | none => []
  | some header => [leaf avcC (avccFields header)]

def esdsBoxes (codec : Codec) : List Box :=
  match codec.aacHeader with
  | none => []
  | some header => if header.length < 2 then [] else [leaf esds (esdsFields (header.drop 2))]

def sampleEntry (codec : Codec) : TrackType → Box
  | .video => .mk avc1 (bytesOf (avc1Fields codec)) (avccBoxes codec)
  | .audio => .mk mp4a (bytesOf (mp4aFields codec)) (esdsBoxes codec)

def mediaHeader : TrackType → Box
  | .video => leaf vmhd [.f32 0x01,.f32 0,.f32 0]
  | .audio => leaf smhd [.f32 0,.f16 0,.f16 0]

def drefBox : Box := .mk dref (bytesOf [.f32 0,.f32 1]) [leaf url [.f32 0x00000001]]

def stblBox (codec : Codec) (ttype : TrackType) : Box :=
  .mk stbl [] [.mk stsd (bytesOf [.f32 0,.f32 1]) [sampleEntry codec ttype],leaf stts [.f32 0,.f32 0],
    leaf stsc [.f32 0,.f32 0],leaf stsz [.f32 0,.f32 0,.f32 0],leaf stco [.f32 0,.f32 0]]

def minfBox (codec : Codec) (ttype : TrackType) : Box :=
  .mk minf [] [mediaHeader ttype,.mk dinf [] [drefBox],stblBox codec ttype]

def mdiaBox (codec : Codec) (ttype : TrackType) : Box :=
  .mk mdia [] [leaf mdhd mdhdFields,leaf hdlr (hdlrFields ttype),minfBox codec ttype]

def trakBox (codec : Codec) (ttype : TrackType) : Box :=
  .mk trak [] [leaf tkhd (tkhdFields codec ttype),mdiaBox codec ttype]

def mvexBox : Box := .mk mvex [] [leaf trex [.f32 0,.f32 1,.f32 1,.f32 0,.f32 0,.f32 0]]

def moovBox (codec : Codec) (ttype : TrackType) : Box :=
  .mk moov [] [leaf mvhd mvhdFields,mvexBox,trakBox codec ttype]

-- The trun stands 64 bytes behind the start of its moof.
def trunBox (samples : List Sample) (mask : SampleMask) : Box := leaf trun (trunFields samples mask 64)

def trafBox (earliestPresTime : UInt32) (samples : List Sample) (mask : SampleMask) : Box :=
  .mk traf [] [leaf tfhd tfhdFields,leaf tfdt (tfdtFields earliestPresTime),trunBox samples mask]

def moofBox (earliestPresTime : UInt32) (samples : List Sample) (mask : SampleMask) (index : Nat) : Box :=
  .mk moof [] [leaf mfhd (mfhdFields index),trafBox earliestPresTime samples mask]

theorem fixed_writes (fields : List Field) (target : Box) (same : bytesOf fields = target.encode) :
    WritesBox (writeFields fields) target :=
  fun place => same ▸ writeFields_writes place

theorem one_child (only : WritesBox w child) (place : Nat) : Writes place w (encodeAll [child]) := by
  have alone : encodeAll [child] = child.encode := by simp [encodeAll]
  rw [alone]
  exact only place

theorem writeAvcc_writes (codec : Codec) (place : Nat) : Writes place (writeAvcc codec) (encodeAll (avccBoxes codec)) := by
  unfold writeAvcc avccBoxes
  cases codec.avcHeader with
  | none => exact writes_nothing place
  | some header => exact one_child leaf_writes place

theorem writeEsds_writes (codec : Codec) (place : Nat) : Writes place (writeEsds codec) (encodeAll (esdsBoxes codec)) := by
  unfold writeEsds esdsBoxes
  cases codec.aacHeader with
  | none => exact writes_nothing place
  | some header =>
    by_cases short : header.length < 2
    · simp only [short,if_true]
      exact writes_nothing place
    · simp only [short,if_false]
      exact one_child leaf_writes place

theorem writeVideo_writes : WritesBox (writeVideo codec) (sampleEntry codec .video) :=
  tree_writes avc1 _ (writeAvcc_writes codec)

theorem writeAudio_writes : WritesBox (writeAudio codec) (sampleEntry codec .audio) :=
  tree_writes mp4a _ (writeEsds_writes codec)

theorem writeStsd_writes : WritesBox (writeStsd codec ttype) (.mk stsd (bytesOf [.f32 0,.f32 1]) [sampleEntry codec ttype]) := by
  unfold writeStsd
  cases ttype with
  | video => exact tree_writes stsd _ (one_child writeVideo_writes)
  | audio => exact tree_writes stsd _ (one_child writeAudio_writes)

theorem writeStbl_writes : WritesBox (writeStbl codec ttype) (stblBox codec ttype) := by
  unfold writeStbl stblBox
  apply plain_writes
  refine .cons writeStsd_writes (.cons ?_ (.cons ?_ (.cons ?_ (.cons ?_ .nil))))
  · exact leaf_writes
  · exact leaf_writes
  · exact leaf_writes
  · exact leaf_writes

theorem writeDref_writes : WritesBox writeDref drefBox := by
  intro place
  have shape : drefBox.encode = (leaf dref [.f32 0,.f32 1,.f32 0xc,.box url,.f32 0x00000001]).encode := by
    simp [drefBox,leaf,Box.encode,encodeAll,frame,Field.bytes,bigEndian]
  rw [shape]
  exact leaf_writes place

theorem writeDinf_writes : WritesBox writeDinf (.mk dinf [] [drefBox]) := plain_writes dinf (.cons writeDref_writes .nil)

theorem writeVmhd_writes : WritesBox writeVmhd (mediaHeader .video) := by
  apply fixed_writes
  simp [mediaHeader,leaf,Box.encode,encodeAll,frame,Field.bytes]

theorem writeSmhd_writes : WritesBox writeSmhd (mediaHeader .audio) := by
  apply fixed_writes
  simp [mediaHeader,leaf,Box.encode,encodeAll,frame,Field.bytes]

theorem writeMinf_writes : WritesBox (writeMinf codec ttype) (minfBox codec ttype) := by
  unfold writeMinf minfBox
  cases ttype with
  | video => exact plain_writes minf (.cons writeVmhd_writes (.cons writeDinf_writes (.cons writeStbl_writes .nil)))
  | audio => exact plain_writes minf (.cons writeSmhd_writes (.cons writeDinf_writes (.cons writeStbl_writes .nil)))

theorem writeMdia_writes : WritesBox (writeMdia codec ttype) (mdiaBox codec ttype) := by
  unfold writeMdia mdiaBox
  apply plain_writes
  refine .cons ?_ (.cons ?_ (.cons writeMinf_writes .nil))
  · exact leaf_writes
  · exact leaf_writes

theorem writeTrak_writes : WritesBox (writeTrak codec ttype) (trakBox codec ttype) := by
  unfold writeTrak trakBox
  apply plain_writes
  refine .cons ?_ (.cons writeMdia_writes .nil)
  exact leaf_writes

theorem writeMvex_writes : WritesBox writeMvex mvexBox := by
  intro place
  have shape : mvexBox.encode = (leaf mvex [.f32 0x20,.box trex,.f32 0,.f32 1,.f32 1,.f32 0,.f32 0,.f32 0]).encode := by
    simp [mvexBox,leaf,Box.encode,encodeAll,frame,Field.bytes]
  rw [shape]
  exact leaf_writes place

theorem writeMoov_writes (codec : Codec) (ttype : TrackType) : WritesBox (writeMoov codec ttype) (moovBox codec ttype) := by
  unfold writeMoov moovBox
  apply plain_writes
  refine .cons ?_ (.cons writeMvex_writes (.cons writeTrak_writes .nil))
  exact leaf_writes

theorem writeTrun_sticky (samples : List Sample) (mask : SampleMask) (moofPos : Option Nat) (b : Buf) (refused : b.refused = true) :
    (writeTrun samples mask moofPos b).refused = true :=
  inBox_sticky trun (fun _ => (writeFields_writes 0).sticky) b refused

theorem writeTrun_writes (at_place : place = start+64) :
    Writes place (writeTrun samples mask (some start)) (trunBox samples mask).encode := by
  have distance : (some place).getD 0-(some start).getD 0 = 64 := by
    simp only [Option.getD_some]
    omega
  rw [trunBox,leaf_encode]
  apply inBox_writes (fun pos => (writeFields_writes 0).sticky)
  rw [distance]
  exact writeFields_writes _

theorem writeTraf_sticky (refused : b.refused = true) : (writeTraf earliestPresTime samples mask pos b).refused = true := by
  apply inBox_sticky traf _ b refused
  intro _ b refused
  apply writeTrun_sticky
  apply (leaf_writes 0).sticky
  exact (leaf_writes 0).sticky b refused

theorem tfhd_length : (leaf tfhd tfhdFields).encode.length = 16 := by
  simp [leaf_encode,tfhdFields,Field.bytes]

theorem tfdt_length : (leaf tfdt (tfdtFields earliestPresTime)).encode.length = 16 := by
  simp [leaf_encode,tfdtFields,Field.bytes]

theorem mfhd_length : (leaf mfhd (mfhdFields index)).encode.length = 16 := by
  simp [leaf_encode,mfhdFields,Field.bytes]

-- The places inside a moof: mfhd at 8, traf at 24, tfhd at 32, tfdt at 48, trun at 64.
theorem writeTraf_writes
    (at_place : place = start+24) :
    Writes place (writeTraf earliestPresTime samples mask (some start)) (trafBox earliestPresTime samples mask).encode := by
  have first : Writes (place+8) writeTfhd (leaf tfhd tfhdFields).encode := leaf_writes _
  have second : Writes (place+8+16) (writeTfdt earliestPresTime) (leaf tfdt (tfdtFields earliestPresTime)).encode :=
    leaf_writes _
  have third : Writes (place+8+16+16) (writeTrun samples mask (some start)) (trunBox samples mask).encode :=
    writeTrun_writes (by omega)
  have body := calls_next first tfhd_length (calls_next second tfdt_length (calls_one third))
  have shape : (trafBox earliestPresTime samples mask).encode = frame traf ((leaf tfhd tfhdFields).encode ++
      ((leaf tfdt (tfdtFields earliestPresTime)).encode ++ (trunBox samples mask).encode)) := by
    simp [trafBox,Box.encode,encodeAll]
  rw [shape]
  exact inBox_writes (fun _ => body.sticky) body

theorem moof_sticky (earliestPresTime : UInt32) (samples : List Sample) (mask : SampleMask) (index : Nat) (pos : Option Nat)
    (b : Buf) (refused : b.refused = true) :
    (calls [writeMfhd index,writeTraf earliestPresTime samples mask pos] b).refused = true := by
  rw [calls_cons,calls_cons,calls_nil]
  exact writeTraf_sticky ((leaf_writes 0).sticky b refused)

theorem writeMoof_writes (earliestPresTime : UInt32) (samples : List Sample) (mask : SampleMask) (index : Nat) :
    WritesBox (writeMoof earliestPresTime samples mask index) (moofBox earliestPresTime samples mask index) := by
  intro start
  have first : Writes (start+8) (writeMfhd index) (leaf mfhd (mfhdFields index)).encode := leaf_writes _
  have second : Writes (start+8+16) (writeTraf earliestPresTime samples mask (some start))
      (trafBox earliestPresTime samples mask).encode :=
    writeTraf_writes (by omega)
  have body := calls_next first mfhd_length (calls_one second)
  have shape : (moofBox earliestPresTime samples mask index).encode =
      frame moof ((leaf mfhd (mfhdFields index)).encode ++ (trafBox earliestPresTime samples mask).encode) := by
    simp [moofBox,Box.encode,encodeAll]
  rw [shape]
  exact inBox_writes (moof_sticky earliestPresTime samples mask index) body

theorem writeMoof_full (earliestPresTime : UInt32) (samples : List Sample) (mask : SampleMask) (index : Nat) (b : Buf)
    (full : b.memory.length < b.last+(moofBox earliestPresTime samples mask index).encode.length) :
    (writeMoof earliestPresTime samples mask index b).refused = true := by
  by_cases inside : b.last ≤ b.memory.length
  · exact (writeMoof_writes earliestPresTime samples mask index b.last).full b rfl inside full
  · exact inBox_full (moof_sticky earliestPresTime samples mask index) (by omega)

end NgxRtmp.Mp4Boxes
