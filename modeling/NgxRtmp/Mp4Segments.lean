import NgxRtmp.Mp4Boxes

namespace NgxRtmp.Mp4Segments
open Octets Boxes Splice Mp4Writer Mp4Boxes List

def bufSize : Nat := 1024*1024

def sampleMask : TrackType → SampleMask
  | .video => ⟨true,true,true,true⟩
  | .audio => ⟨true,true,false,false⟩

-- The fields of ngx_rtmp_dash_track_t that a segment is built from.
structure Fragment where
  id : Nat
  type : TrackType
  mdatSize : Nat
  earliestPresTime : UInt32
  latestPresTime : UInt32
  samples : List Sample
  deriving DecidableEq, Repr

def buildInit (codec : Codec) (ttype : TrackType) : Buf → Buf := calls [writeFtyp,writeMoov codec ttype]

-- close_fragment up to its first ngx_write_fd; 44 bytes are left for the sidx.
def buildSegment (t : Fragment) (b : Buf) : Buf :=
  let b := writeStyp b
  let pos := b.last
  let b := writeMoof t.earliestPresTime t.samples (sampleMask t.type) t.id {b with last:=b.last+44}
  let pos1 := b.last
  let b := writeSidx (t.mdatSize+8+(pos1-(pos+44))) t.earliestPresTime t.latestPresTime {b with last:=pos}
  writeMdat (t.mdatSize+8) {b with last:=pos1}

def written (b : Buf) : List UInt8 := b.memory.take b.last

def isoShape (n : Name) : Shape :=
  if n ∈ [moov,trak,mdia,minf,dinf,stbl,mvex,moof,traf] then .container 0
  else if n ∈ [stsd,dref] then .container 8
  else if n = avc1 then .container 78
  else if n = mp4a then .container 28
  else if n = mvhd then .fixed 100
  else if n = tkhd then .fixed 84
  else if n ∈ [mdhd,trex] then .fixed 24
  else if n ∈ [vmhd,stsz] then .fixed 12
  else if n ∈ [smhd,stts,stsc,stco,mfhd,tfhd,tfdt] then .fixed 8
  else if n = url then .fixed 4
  else if n = sidx then .fixed 36
  else .data

-- What the trun leaves out has the defaults of the trex.
structure Entry where
  duration : Nat
  size : Nat
  key : Bool
  delay : Nat
  deriving DecidableEq, Repr

def readOptional (present : Bool) (bytes : List UInt8) : Option (Nat × List UInt8) :=
  if present then
    if bytes.length < 4 then none else some (natural (bytes.take 4),bytes.drop 4)
  else some (0,bytes)

def readEntry (flags : Nat) (bytes : List UInt8) : Option (Entry × List UInt8) :=
  match readOptional (flags.testBit 8) bytes with
  | none => none
  | some (duration,bytes) =>
    match readOptional (flags.testBit 9) bytes with
    | none => none
    | some (size,bytes) =>
      match readOptional (flags.testBit 10) bytes with
      | none => none
      | some (sampleFlags,bytes) =>
        (readOptional (flags.testBit 11) bytes).map fun (delay,bytes) =>
          (⟨duration,size,!sampleFlags.testBit 16,delay⟩,bytes)

def readEntries (flags : Nat) : Nat → List UInt8 → Option (List Entry)
  | 0,bytes => if bytes = [] then some [] else none
  | count+1,bytes =>
    match readEntry flags bytes with
    | none => none
    | some (entry,bytes) => (readEntries flags count bytes).map (entry::·)

def readTrun (fields : List UInt8) : Option (Nat × List Entry) :=
  let flags := natural (fields.take 4)
  if fields.length < 12 ∨ flags.testBit 0 = false then none
  else
    (readEntries flags (natural ((fields.drop 4).take 4)) (fields.drop 12)).map fun entries =>
      (natural ((fields.drop 8).take 4),entries)

def child (n : Name) (boxes : List Box) : Option Box := boxes.find? fun box => box.name == n

def findMoof : Nat → List Box → Option (Nat × Box)
  | _,[] => none
  | start,box::boxes => if box.name = moof then some (start,box) else findMoof (start+box.encode.length) boxes

def readMoof (boxes : List Box) : Option (Nat × Nat × List Entry) :=
  match findMoof 0 boxes with
  | none => none
  | some (start,box) =>
    match child traf box.children with
    | none => none
    | some box =>
      match child trun box.children with
      | none => none
      | some box => (readTrun box.fields).map fun (offset,entries) => (start,offset,entries)

def entry (mask : SampleMask) (s : Sample) : Entry where
  duration := if mask.duration then s.duration.toNat else 0
  size := if mask.size then s.size.toNat else 0
  key := !mask.key || s.key
  delay := if mask.delay then s.delay.toNat else 0

theorem readOptional_field (present : Bool) (small : n < 2^32) (rest : List UInt8) :
    readOptional present (bytesOf (if present then [.f32 n] else []) ++ rest) = some (if present then n else 0,rest) := by
  cases present with
  | false => rfl
  | true =>
    have length : ¬ (bigEndian 4 n ++ rest).length < 4 := by
      simp only [length_append,bigEndian_length]
      omega
    have front : (bigEndian 4 n ++ rest).take 4 = bigEndian 4 n := take_left' (bigEndian_length 4 n)
    have behind : (bigEndian 4 n ++ rest).drop 4 = rest := drop_left' (bigEndian_length 4 n)
    change readOptional true (bigEndian 4 n ++ [] ++ rest) = some (n,rest)
    rw [append_nil,readOptional,if_pos rfl,if_neg length,front,behind,natural_bigEndian_small small]

theorem flags_bits (mask : SampleMask) : mask.flags.testBit 0 = true ∧ mask.flags.testBit 8 = mask.duration ∧
    mask.flags.testBit 9 = mask.size ∧ mask.flags.testBit 10 = mask.key ∧ mask.flags.testBit 11 = mask.delay ∧
    mask.flags < 2^32 := by
  obtain ⟨size,duration,delay,key⟩ := mask
  cases size <;> cases duration <;> cases delay <;> cases key <;> decide

theorem readEntry_fields : readEntry mask.flags (bytesOf (sampleFields mask s) ++ rest) = some (entry mask s,rest) := by
  obtain ⟨_,duration,size,key,delay,_⟩ := flags_bits mask
  have sampleFlags : (if s.key then 0x00000000 else 0x00010000) < 2^32 := by
    cases s.key <;> decide
  unfold readEntry sampleFields
  simp only [bytesOf_append,append_assoc,duration,size,key,delay]
  simp only [readOptional_field _ s.duration.toNat_lt,readOptional_field _ s.size.toNat_lt,
    readOptional_field _ sampleFlags,readOptional_field _ s.delay.toNat_lt,Option.map_some]
  congr 2
  unfold entry
  congr 1
  cases mask.key <;> cases s.key <;> decide

theorem readEntries_fields (mask : SampleMask) (samples : List Sample) :
    readEntries mask.flags samples.length (bytesOf (samples.flatMap (sampleFields mask))) = some (samples.map (entry mask)) := by
  induction samples with
  | nil => rfl
  | cons s samples ih =>
    rw [flatMap_cons,bytesOf_append,length_cons,readEntries,readEntry_fields]
    simp only [ih,Option.map_some,map_cons]

theorem sampleFields_length : (bytesOf (sampleFields mask s)).length = 4*mask.nitems := by
  obtain ⟨size,duration,delay,key⟩ := mask
  cases size <;> cases duration <;> cases delay <;> cases key <;>
    simp [sampleFields,SampleMask.nitems,Field.bytes]

theorem samplesFields_length {samples : List Sample} :
    (bytesOf (samples.flatMap (sampleFields mask))).length = samples.length*mask.nitems*4 := by
  induction samples with
  | nil => simp
  | cons s samples ih =>
    rw [flatMap_cons,bytesOf_append,length_append,sampleFields_length,ih,length_cons,add_mul,add_mul]
    omega

theorem natural_word (small : n < 2^32) : natural (bigEndian 4 n) = n := natural_bigEndian_small small

theorem readTrun_fields (mask : SampleMask) (samples : List Sample) (distance : Nat)
    (small : distance+20+samples.length*mask.nitems*4+8 < 2^32) (few : samples.length < 2^32) :
    readTrun (bytesOf (trunFields samples mask distance)) =
      some (distance+20+samples.length*mask.nitems*4+8,samples.map (entry mask)) := by
  obtain ⟨present,_,_,_,_,flags⟩ := flags_bits mask
  have shape : bytesOf (trunFields samples mask distance) = bigEndian 4 mask.flags ++ (bigEndian 4 samples.length ++
      (bigEndian 4 (distance+20+samples.length*mask.nitems*4+8) ++ bytesOf (samples.flatMap (sampleFields mask)))) := by
    simp [trunFields,Field.bytes]
  have first : ∀ n (rest : List UInt8), (bigEndian 4 n ++ rest).take 4 = bigEndian 4 n :=
    fun n rest => take_left' (bigEndian_length 4 n)
  have behind : ∀ n (rest : List UInt8), (bigEndian 4 n ++ rest).drop 4 = rest :=
    fun n rest => drop_left' (bigEndian_length 4 n)
  have eight : ∀ bytes : List UInt8, bytes.drop 8 = (bytes.drop 4).drop 4 := fun bytes => by rw [drop_drop]
  have twelve : ∀ bytes : List UInt8, bytes.drop 12 = ((bytes.drop 4).drop 4).drop 4 := fun bytes => by
    rw [drop_drop,drop_drop]
  unfold readTrun
  rw [shape,eight,twelve]
  simp only [first,behind,natural_word flags,natural_word few,natural_word small,present,
    readEntries_fields,Option.map_some]
  rw [if_neg]
  intro refused
  cases refused with
  | inl short =>
    simp only [length_append,bigEndian_length] at short
    omega
  | inr absent => cases absent

def stypBox : Box := leaf styp brands

def ftypBox : Box := leaf ftyp brands

theorem trunBox_length : (trunBox samples mask).encode.length = 20+samples.length*mask.nitems*4 := by
  rw [trunBox,leaf_encode,frame_length,trunFields,bytesOf_append,length_append,samplesFields_length]
  simp [Field.bytes]
  omega

theorem moofBox_length (earliestPresTime : UInt32) (samples : List Sample) (mask : SampleMask) (index : Nat) :
    (moofBox earliestPresTime samples mask index).encode.length = 84+samples.length*mask.nitems*4 := by
  have traf_length : (trafBox earliestPresTime samples mask).encode.length = 60+samples.length*mask.nitems*4 := by
    rw [trafBox,Box.encode,frame_length]
    simp only [encodeAll,length_append,length_nil,tfhd_length,tfdt_length,trunBox_length]
    omega
  rw [moofBox,Box.encode,frame_length]
  simp only [encodeAll,length_append,length_nil,mfhd_length,traf_length]
  omega

def sidxBox (referenceSize : Nat) (earliestPresTime latestPresTime : UInt32) : Box :=
  leaf sidx (sidxFields referenceSize earliestPresTime latestPresTime)

theorem sidxBox_length (referenceSize : Nat) (earliestPresTime latestPresTime : UInt32) :
    (sidxBox referenceSize earliestPresTime latestPresTime).encode.length = 44 := by
  simp [sidxBox,leaf_encode,sidxFields,Field.bytes]

theorem stypBox_length : stypBox.encode.length = 28 := by
  simp [stypBox,leaf_encode,brands,Field.bytes]

def headBoxes (t : Fragment) : List Box :=
  let moof := moofBox t.earliestPresTime t.samples (sampleMask t.type) t.id
  [stypBox,sidxBox (t.mdatSize+8+moof.encode.length) t.earliestPresTime t.latestPresTime,moof]

theorem headBoxes_length (t : Fragment) :
    (encodeAll (headBoxes t)).length = 156+t.samples.length*(sampleMask t.type).nitems*4 := by
  simp only [headBoxes,encodeAll,length_append,length_nil,stypBox_length,sidxBox_length,moofBox_length]
  omega

def mdatHead (size : Nat) : List UInt8 := bigEndian 4 size ++ mdat.bytes

theorem mdatHead_length (size : Nat) : (mdatHead size).length = 8 := by
  simp [mdatHead]

theorem writeMdat_writes (size place : Nat) : Writes place (writeMdat size) (mdatHead size) := by
  have shape : mdatHead size = bytesOf [.f32 size,.box mdat] := by
    simp [mdatHead,Field.bytes]
  rw [shape]
  exact writeFields_writes place

theorem writeStyp_writes : WritesBox writeStyp stypBox := leaf_writes

theorem writeFtyp_writes : WritesBox writeFtyp ftypBox := leaf_writes

theorem writeSidx_writes (referenceSize : Nat) (earliestPresTime latestPresTime : UInt32) :
    WritesBox (writeSidx referenceSize earliestPresTime latestPresTime) (sidxBox referenceSize earliestPresTime latestPresTime) :=
  leaf_writes

theorem buildSegment_front (room : (encodeAll (headBoxes t)).length ≤ memory.length) :
    buildSegment t ⟨memory,0,false⟩ =
      writeMdat (t.mdatSize+8) ⟨splice memory 0 (encodeAll (headBoxes t)),(encodeAll (headBoxes t)).length,false⟩ := by
  have total := headBoxes_length t
  have moof_length := moofBox_length t.earliestPresTime t.samples (sampleMask t.type) t.id
  have moof_writes := writeMoof_writes t.earliestPresTime t.samples (sampleMask t.type) t.id
  have boxes : encodeAll (headBoxes t) = stypBox.encode ++
      ((sidxBox (t.mdatSize+8+(moofBox t.earliestPresTime t.samples (sampleMask t.type) t.id).encode.length)
        t.earliestPresTime t.latestPresTime).encode ++
      (moofBox t.earliestPresTime t.samples (sampleMask t.type) t.id).encode) := by
    simp [headBoxes,encodeAll]
  rw [boxes]
  unfold buildSegment
  generalize (moofBox t.earliestPresTime t.samples (sampleMask t.type) t.id) = moof at moof_length moof_writes ⊢
  have styp_length := stypBox_length
  have sidx_length := sidxBox_length (t.mdatSize+8+moof.encode.length) t.earliestPresTime t.latestPresTime
  have sidx_writes := writeSidx_writes (t.mdatSize+8+moof.encode.length) t.earliestPresTime t.latestPresTime
  generalize sidxBox (t.mdatSize+8+moof.encode.length) t.earliestPresTime t.latestPresTime = index at sidx_length sidx_writes ⊢
  have one : writeStyp ⟨memory,0,false⟩ = ⟨splice memory 0 stypBox.encode,0+stypBox.encode.length,false⟩ :=
    (writeStyp_writes 0).fits _ rfl (by simp only; omega)
  have one_length : (splice memory 0 stypBox.encode).length = memory.length := splice_length (by omega)
  have two := (moof_writes (0+stypBox.encode.length+44)).fits
    ⟨splice memory 0 stypBox.encode,0+stypBox.encode.length+44,false⟩ rfl (by simp only; omega)
  have two_length : (splice (splice memory 0 stypBox.encode) (0+stypBox.encode.length+44) moof.encode).length =
      memory.length := by
    rw [splice_length (by omega),one_length]
  have three := (sidx_writes (0+stypBox.encode.length)).fits
    ⟨splice (splice memory 0 stypBox.encode) (0+stypBox.encode.length+44) moof.encode,0+stypBox.encode.length,false⟩ rfl
    (by simp only; omega)
  have filled : splice (splice (splice memory 0 stypBox.encode) (0+stypBox.encode.length+44) moof.encode)
      (0+stypBox.encode.length) index.encode = splice memory 0 (stypBox.encode ++ (index.encode ++ moof.encode)) := by
    rw [← sidx_length,splice_gap (by omega),splice_splice (by omega)]
  have size : t.mdatSize+8+(0+stypBox.encode.length+44+moof.encode.length-(0+stypBox.encode.length+44)) =
      t.mdatSize+8+moof.encode.length := by omega
  rw [one]
  simp only [two,Buf.put,size,three,filled]
  have place : 0+stypBox.encode.length+44+moof.encode.length = (stypBox.encode ++ (index.encode ++ moof.encode)).length := by
    simp only [length_append]
    omega
  rw [place]

theorem buildSegment_fits (room : (encodeAll (headBoxes t)).length+8 ≤ memory.length) :
    buildSegment t ⟨memory,0,false⟩ =
      ⟨splice memory 0 (encodeAll (headBoxes t) ++ mdatHead (t.mdatSize+8)),(encodeAll (headBoxes t)).length+8,false⟩ := by
  have mdat_length := mdatHead_length (t.mdatSize+8)
  have length : (splice memory 0 (encodeAll (headBoxes t))).length = memory.length := splice_length (by omega)
  have behind : splice (splice memory 0 (encodeAll (headBoxes t))) (0+(encodeAll (headBoxes t)).length)
      (mdatHead (t.mdatSize+8)) = splice memory 0 (encodeAll (headBoxes t) ++ mdatHead (t.mdatSize+8)) :=
    splice_splice (Nat.zero_le _)
  rw [buildSegment_front (by omega),
    (writeMdat_writes (t.mdatSize+8) _).fits ⟨splice memory 0 (encodeAll (headBoxes t)),_,false⟩ rfl (by simp only; omega)]
  rw [zero_add] at behind
  simp only [Buf.put,behind,mdat_length]

theorem buildSegment_room
    (accepted : (buildSegment t ⟨memory,0,false⟩).refused = false) :
    (encodeAll (headBoxes t)).length+8 ≤ memory.length := by
  apply Nat.le_of_not_lt
  intro full
  suffices refused : (buildSegment t ⟨memory,0,false⟩).refused = true by
    rw [refused] at accepted
    cases accepted
  have total := headBoxes_length t
  have moof_length := moofBox_length t.earliestPresTime t.samples (sampleMask t.type) t.id
  have styp_length := stypBox_length
  have mdat_length := mdatHead_length (t.mdatSize+8)
  by_cases front : (encodeAll (headBoxes t)).length ≤ memory.length
  · have length : (splice memory 0 (encodeAll (headBoxes t))).length = memory.length := splice_length (by omega)
    rw [buildSegment_front front]
    exact (writeMdat_writes (t.mdatSize+8) _).full _ rfl (by simp only; omega) (by simp only; omega)
  · unfold buildSegment
    apply (writeMdat_writes (t.mdatSize+8) 0).sticky
    dsimp only
    apply (writeSidx_writes _ _ _ 0).sticky
    dsimp only
    by_cases room : 28 ≤ memory.length
    · have one : writeStyp ⟨memory,0,false⟩ = ⟨splice memory 0 stypBox.encode,0+stypBox.encode.length,false⟩ :=
        (writeStyp_writes 0).fits _ rfl (by simp only; omega)
      have one_length : (splice memory 0 stypBox.encode).length = memory.length := splice_length (by omega)
      rw [one]
      apply writeMoof_full
      simp only
      omega
    · apply (writeMoof_writes _ _ _ _ 0).sticky
      exact (writeStyp_writes 0).full ⟨memory,0,false⟩ rfl (Nat.zero_le _) (by simp only; omega)

theorem moov_conforms : (moovBox codec ttype).conforms isoShape = true := by
  obtain ⟨_,_,_,_,_,avc,aac⟩ := codec
  cases ttype with
  | video =>
    cases avc with
    | none => rfl
    | some header => rfl
  | audio =>
    cases aac with
    | none => rfl
    | some header =>
      by_cases short : header.length < 2
      · simp only [moovBox,trakBox,mdiaBox,minfBox,stblBox,sampleEntry,esdsBoxes,short,if_true]
        rfl
      · simp only [moovBox,trakBox,mdiaBox,minfBox,stblBox,sampleEntry,esdsBoxes,short,if_false]
        rfl

theorem init_conforms : allConform isoShape [ftypBox,moovBox codec ttype] = true := by
  have first : ftypBox.conforms isoShape = true := rfl
  simp only [allConform,first,moov_conforms,Bool.and_self]

theorem head_conforms : allConform isoShape (headBoxes t) = true := rfl

def mdatBox (payload : List UInt8) : Box := .mk mdat payload []

def segmentBoxes (t : Fragment) (payload : List UInt8) : List Box := headBoxes t ++ [mdatBox payload]

theorem mdat_encode : encodeAll [mdatBox payload] = mdatHead (payload.length+8) ++ payload := by
  simp [mdatBox,encodeAll,Box.encode,frame,mdatHead,add_comm]

theorem buildInit_written
    (accepted : (buildInit codec ttype ⟨memory,0,false⟩).refused = false) :
    written (buildInit codec ttype ⟨memory,0,false⟩) = encodeAll [ftypBox,moovBox codec ttype] ∧
      (encodeAll [ftypBox,moovBox codec ttype]).length ≤ memory.length := by
  have writes := children_writes (.cons writeFtyp_writes (.cons (writeMoov_writes codec ttype) .nil)) 0
  obtain ⟨room,wrote⟩ := writes_exact writes rfl (Nat.zero_le _) accepted
  have wrote : buildInit codec ttype ⟨memory,0,false⟩ =
      (⟨memory,0,false⟩ : Buf).put (encodeAll [ftypBox,moovBox codec ttype]) := wrote
  have room : (encodeAll [ftypBox,moovBox codec ttype]).length ≤ memory.length := by simpa using room
  have front : (splice memory 0 (encodeAll [ftypBox,moovBox codec ttype])).take
      (0+(encodeAll [ftypBox,moovBox codec ttype]).length) = memory.take 0 ++ encodeAll [ftypBox,moovBox codec ttype] :=
    take_end (Nat.zero_le _)
  refine ⟨?_,room⟩
  rw [wrote]
  simpa [written,Buf.put] using front

theorem buildSegment_written (size : t.mdatSize = payload.length)
    (accepted : (buildSegment t ⟨memory,0,false⟩).refused = false) :
    written (buildSegment t ⟨memory,0,false⟩) ++ payload = encodeAll (segmentBoxes t payload) := by
  have room := buildSegment_room accepted
  have mdat_length := mdatHead_length (t.mdatSize+8)
  have front : (splice memory 0 (encodeAll (headBoxes t) ++ mdatHead (t.mdatSize+8))).take
      (0+(encodeAll (headBoxes t) ++ mdatHead (t.mdatSize+8)).length) =
      memory.take 0 ++ (encodeAll (headBoxes t) ++ mdatHead (t.mdatSize+8)) := take_end (Nat.zero_le _)
  rw [zero_add,length_append,mdat_length,take_zero,nil_append] at front
  rw [buildSegment_fits room,written,front,size,segmentBoxes,encodeAll_append,mdat_encode,append_assoc]

theorem readMoof_segment (t : Fragment) (payload : List UInt8) (few : t.samples.length*(sampleMask t.type).nitems*4 < 2^24) :
    readMoof (segmentBoxes t payload) = some (72,92+t.samples.length*(sampleMask t.type).nitems*4,
      t.samples.map (entry (sampleMask t.type))) := by
  have some_item : 1 ≤ (sampleMask t.type).nitems := by
    cases t.type <;> decide
  have count : t.samples.length ≤ t.samples.length*(sampleMask t.type).nitems := Nat.le_mul_of_pos_right _ some_item
  have trun_read := readTrun_fields (sampleMask t.type) t.samples 64 (by omega) (by omega)
  have place : findMoof 0 (segmentBoxes t payload) = some (0+stypBox.encode.length+(sidxBox (t.mdatSize+8+
      (moofBox t.earliestPresTime t.samples (sampleMask t.type) t.id).encode.length) t.earliestPresTime
        t.latestPresTime).encode.length,moofBox t.earliestPresTime t.samples (sampleMask t.type) t.id) := rfl
  have track : child traf (moofBox t.earliestPresTime t.samples (sampleMask t.type) t.id).children =
      some (trafBox t.earliestPresTime t.samples (sampleMask t.type)) := rfl
  have run : child trun (trafBox t.earliestPresTime t.samples (sampleMask t.type)).children =
      some (trunBox t.samples (sampleMask t.type)) := rfl
  have fields : (trunBox t.samples (sampleMask t.type)).fields = bytesOf (trunFields t.samples (sampleMask t.type) 64) := rfl
  have offset : 64+20+t.samples.length*(sampleMask t.type).nitems*4+8 =
      92+t.samples.length*(sampleMask t.type).nitems*4 := by omega
  unfold readMoof
  simp only [place,track,run,fields,trun_read,stypBox_length,sidxBox_length,Option.map_some,offset]

theorem segment_parses (t : Fragment) (payload : List UInt8) (few : (encodeAll (headBoxes t)).length < 2^32)
    (small : payload.length+8 < 2^32) : parse isoShape (encodeAll (segmentBoxes t payload)) = some (segmentBoxes t payload) := by
  apply parse_encodeAll
  · rw [segmentBoxes,allConform_append,head_conforms]
    rfl
  · intro box member
    cases mem_append.mp member with
    | inl front =>
      have short := encode_le_encodeAll (headBoxes t) box front
      omega
    | inr last =>
      rw [mem_singleton.mp last,mdatBox,Box.encode,frame_length]
      simp only [encodeAll,append_nil]
      omega

-- Boxes that fill their lengths, the samples in the trun, and the payload where the trun says.
theorem segments_well_formed (codec : Codec) (ttype : TrackType) (id : Nat) (earliestPresTime latestPresTime : UInt32)
    (samples : List Sample) (payload memory : List UInt8) (sized : memory.length = bufSize) :
    ((buildInit codec ttype ⟨memory,0,false⟩).refused = false →
      parse isoShape (written (buildInit codec ttype ⟨memory,0,false⟩)) = some [ftypBox,moovBox codec ttype]) ∧
    (∀ t, t = (⟨id,ttype,payload.length,earliestPresTime,latestPresTime,samples⟩ : Fragment) →
      (buildSegment t ⟨memory,0,false⟩).refused = false → payload.length+8 < 2^32 →
      ∃ boxes start offset, parse isoShape (written (buildSegment t ⟨memory,0,false⟩) ++ payload) = some boxes ∧
        boxes.map Box.name = [styp,sidx,moof,mdat] ∧ boxes.getLast? = some (mdatBox payload) ∧
        readMoof boxes = some (start,offset,samples.map (entry (sampleMask ttype))) ∧
        (written (buildSegment t ⟨memory,0,false⟩) ++ payload).drop (start+offset) = payload) := by
  constructor
  · intro accepted
    obtain ⟨wrote,room⟩ := buildInit_written accepted
    have lengths := encode_le_encodeAll [ftypBox,moovBox codec ttype]
    rw [wrote]
    apply parse_encodeAll init_conforms
    intro box member
    have short := lengths box member
    simp only [bufSize] at sized
    omega
  · intro t shape accepted small
    have room := buildSegment_room accepted
    have wrote := buildSegment_written (by rw [shape]) accepted
    have head_length := headBoxes_length t
    have kind : t.type = ttype := by rw [shape]
    have list : t.samples = samples := by rw [shape]
    simp only [bufSize] at sized
    refine ⟨segmentBoxes t payload,72,92+samples.length*(sampleMask ttype).nitems*4,?_,rfl,rfl,?_,?_⟩
    · rw [wrote]
      exact segment_parses t payload (by omega) small
    · have found := readMoof_segment t payload (by omega)
      rw [kind,list] at found
      exact found
    · have place : 72+(92+samples.length*(sampleMask ttype).nitems*4) =
          (encodeAll (headBoxes t) ++ mdatHead (payload.length+8)).length := by
        rw [length_append,head_length,mdatHead_length,kind,list]
        omega
      rw [wrote,segmentBoxes,encodeAll_append,mdat_encode,← append_assoc,place,drop_left]

def oneSample : Sample := ⟨3,20,5,1000,false⟩

def oneFragment (ttype : TrackType) : Fragment := ⟨7,ttype,3,1000,1000,[oneSample]⟩

theorem oneFragment_accepted (ttype : TrackType) :
    (buildSegment (oneFragment ttype) ⟨replicate bufSize 0,0,false⟩).refused = false := by
  have length := headBoxes_length (oneFragment ttype)
  have items : (sampleMask ttype).nitems ≤ 4 := by
    cases ttype <;> decide
  have room : (encodeAll (headBoxes (oneFragment ttype))).length+8 ≤ (replicate bufSize (0 : UInt8)).length := by
    rw [length,length_replicate]
    simp only [oneFragment,length_singleton,bufSize]
    omega
  rw [buildSegment_fits room]

theorem segments_well_formed_video : (replicate bufSize (0 : UInt8)).length = bufSize ∧
    ∃ boxes start offset,
      parse isoShape (written (buildSegment (oneFragment .video) ⟨replicate bufSize 0,0,false⟩) ++ [1,2,3]) = some boxes ∧
      boxes.map Box.name = [styp,sidx,moof,mdat] ∧ boxes.getLast? = some (mdatBox [1,2,3]) ∧
      readMoof boxes = some (start,offset,[⟨20,3,false,5⟩]) ∧
      (written (buildSegment (oneFragment .video) ⟨replicate bufSize 0,0,false⟩) ++ [1,2,3]).drop (start+offset) = [1,2,3] :=
  ⟨length_replicate,(segments_well_formed ⟨0,0,0,0,0,none,none⟩ .video 7 1000 1000 [oneSample] [1,2,3]
    (replicate bufSize 0) length_replicate).2 (oneFragment .video) rfl (oneFragment_accepted .video) (by decide)⟩

-- The trun of an audio track has no place for the delay and the key flag.
theorem audio_delay_is_left_out :
    (buildSegment (oneFragment .audio) ⟨replicate bufSize 0,0,false⟩).refused = false ∧
    ∃ entries, (parse isoShape (written (buildSegment (oneFragment .audio) ⟨replicate bufSize 0,0,false⟩) ++ [1,2,3])).bind
        readMoof = some (72,100,entries) ∧ entries = [⟨20,3,true,0⟩] ∧ entries ≠ [oneSample].map (entry ⟨true,true,true,true⟩) := by
  have accepted := oneFragment_accepted .audio
  refine ⟨accepted,_,?_,rfl,by decide⟩
  have length := headBoxes_length (oneFragment .audio)
  have parsed := segment_parses (oneFragment .audio) [1,2,3] (by rw [length]; decide) (by decide)
  rw [buildSegment_written rfl accepted,parsed]
  exact readMoof_segment (oneFragment .audio) [1,2,3] (by decide)

end NgxRtmp.Mp4Segments
