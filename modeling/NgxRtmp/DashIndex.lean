import NgxRtmp.DashHistory

namespace NgxRtmp.Dash
open Octets Boxes Mp4Writer Mp4Boxes Mp4Segments List

-- A sidx with one reference, as ISO 14496-12 reads it
structure Index where
  firstOffset : Nat
  count : Nat
  nested : Bool
  size : Nat
  duration : Nat
  deriving DecidableEq, Repr

def readSidx (fields : List UInt8) : Option Index :=
  match numbers [4,4,4,4,4,2,2,4,4,1,3] fields with
  | [_,_,_,_,firstOffset,_,count,reference,duration,_,_] =>
    some ⟨firstOffset,count,reference.testBit 31,reference%2^31,duration⟩
  | _ => none

def locate (n : Name) : Nat → List Box → Option (Nat × Box)
  | _,[] => none
  | start,box::boxes => if box.name = n then some (start,box) else locate n (start+box.encode.length) boxes

-- Where the moof is, how long moof and mdat are, and how long the samples last.
def Indexed (file : List UInt8) : Prop :=
  ∃ boxes place box index start fragment data media offset entries,
    parse isoShape file = some boxes ∧ locate sidx 0 boxes = some (place,box) ∧ readSidx box.fields = some index ∧
    locate moof 0 boxes = some (start,fragment) ∧ locate mdat 0 boxes = some (data,media) ∧
    readMoof boxes = some (start,offset,entries) ∧ index.count = 1 ∧ index.nested = false ∧
    place+box.encode.length+index.firstOffset = start ∧ index.size = fragment.encode.length+media.encode.length ∧
    index.duration = (entries.map Entry.duration).sum

theorem readSidx_fields (size : Nat) (earliest latest : UInt32) (small : size < 2^31) :
    readSidx (bytesOf (sidxFields size earliest latest)) =
      some ⟨(latest-earliest).toNat,1,false,size,(latest-earliest).toNat⟩ := by
  have shape : bytesOf (sidxFields size earliest latest) = ([(4,0),(4,1),(4,1000),(4,earliest.toNat),(4,(latest-earliest).toNat),
      (2,0),(2,1),(4,size),(4,(latest-earliest).toNat),(1,0x90),(3,0)] : List (Nat × Nat)).flatMap
        fun field => bigEndian field.1 field.2 := by
    simp [sidxFields,Field.bytes]
  have first := earliest.toNat_lt
  have length := (latest-earliest).toNat_lt
  have fits : ∀ field ∈ ([(4,0),(4,1),(4,1000),(4,earliest.toNat),(4,(latest-earliest).toNat),
      (2,0),(2,1),(4,size),(4,(latest-earliest).toNat),(1,0x90),(3,0)] : List (Nat × Nat)), field.2 < 256^field.1 := by
    simp only [forall_mem_cons,not_mem_nil,false_implies,implies_true,and_true]
    omega
  have read := numbers_bigEndian fits
  simp only [map_cons,map_nil] at read
  have bit : size.testBit 31 = false := Nat.testBit_lt_two_pow small
  rw [readSidx,shape,read]
  simp only [bit,Nat.mod_eq_of_lt small]

theorem sub_zero_iff (later earlier : UInt32) : (later-earlier).toNat = 0 ↔ later = earlier := by
  rw [← UInt32.toNat_inj,UInt32.toNat_sub]
  have last := later.toNat_lt
  have first := earlier.toNat_lt
  omega

theorem duration_sum (ttype : TrackType) (samples : List Sample) :
    ((samples.map (entry (sampleMask ttype))).map Entry.duration).sum = (samples.map fun s => s.duration.toNat).sum := by
  have each : ∀ s, (entry (sampleMask ttype) s).duration = s.duration.toNat := by
    intro s
    cases ttype <;> rfl
  rw [map_map]
  exact congrArg List.sum (map_congr_left fun s _ => each s)

-- The distance to the moof is right only when the duration written there is zero.
theorem indexed_fragment (few : t.samples.length ≤ maxSamples) (size : t.mdatSize = raw.length)
    (small : t.mdatSize ≤ maxMdat+bufSize) :
    Indexed (segmentFile t raw) ↔
      t.latestPresTime = t.earliestPresTime ∧ (t.samples.map fun s => s.duration.toNat).sum = 0 := by
  have fits := headers_fit few
  have length := headBoxes_length t
  have moof_length := moofBox_length t.earliestPresTime t.samples (sampleMask t.type) t.id
  obtain ⟨parsed,found⟩ := segmentFile_reads few size small
  simp only [maxMdat,bufSize] at small fits
  have read := readSidx_fields (t.mdatSize+8+(moofBox t.earliestPresTime t.samples (sampleMask t.type) t.id).encode.length)
    t.earliestPresTime t.latestPresTime (by omega)
  have zero := sub_zero_iff t.latestPresTime t.earliestPresTime
  have place : locate sidx 0 (segmentBoxes t raw) = some (0+stypBox.encode.length,_) := rfl
  have start : locate moof 0 (segmentBoxes t raw) = some (0+stypBox.encode.length+_,_) := rfl
  have media : locate mdat 0 (segmentBoxes t raw) = some (0+stypBox.encode.length+_+_,mdatBox raw) := rfl
  have mdat_length : (mdatBox raw).encode.length = 8+raw.length := by
    rw [mdatBox,Box.encode,frame_length]
    simp [encodeAll]
  have sum := duration_sum t.type t.samples
  unfold Indexed
  constructor
  · rintro ⟨boxes,at1,box,index,at2,fragment,at3,data,offset,entries,whole,sidx_at,indexed,moof_at,mdat_at,moof_read,_,_,
      follows,sized,lasts⟩
    cases parsed.symm.trans whole
    cases place.symm.trans sidx_at
    cases read.symm.trans indexed
    cases start.symm.trans moof_at
    cases found.symm.trans moof_read
    simp only at follows lasts
    rw [sum] at lasts
    have none : (t.latestPresTime-t.earliestPresTime).toNat = 0 := by omega
    exact ⟨zero.mp none,by omega⟩
  · rintro ⟨same,still⟩
    have none := zero.mpr same
    refine ⟨_,_,_,_,_,_,_,_,_,_,parsed,place,read,start,media,found,rfl,rfl,?_,?_,?_⟩
    · simp only [none]
      rfl
    · simp only [mdat_length]
      omega
    · rw [sum,still]
      exact none

theorem chain_still (fresh : ∀ s ∈ samples, s.duration = 0) :
    ((chain samples).map fun s => s.duration.toNat).sum = 0 ↔
      ∀ s ∈ samples, ∀ first ∈ samples.head?, s.timestamp = first.timestamp := by
  induction samples with
  | nil => simp [chain]
  | cons s samples ih =>
    cases samples with
    | nil => simp [chain,fresh s mem_cons_self]
    | cons next samples =>
      have again := ih fun other inside => fresh other (mem_cons_of_mem _ inside)
      have zero := sub_zero_iff next.timestamp s.timestamp
      simp only [chain,map_cons,sum_cons,Nat.add_eq_zero_iff,zero,again,List.head?_cons,Option.mem_def,Option.some.injEq,
        forall_eq',forall_mem_cons]
      constructor
      · rintro ⟨same,_,others⟩
        exact ⟨trivial,same,fun other inside => (others other inside).trans same⟩
      · rintro ⟨_,same,others⟩
        exact ⟨same,trivial,fun other inside => (others other inside).trans same.symm⟩

-- The samples that were stored and the last message appended are of one moment.
def OneTime (parts : List Message) : Prop :=
  ∃ time, (∀ m ∈ parts.take maxSamples, m.timestamp = time) ∧ ∀ m ∈ parts.getLast?, m.timestamp = time

theorem oneTime_iff (built : Built t ttype parts) :
    t.fragment.latestPresTime = t.fragment.earliestPresTime ∧ (t.fragment.samples.map fun s => s.duration.toNat).sum = 0 ↔
      OneTime parts := by
  have fresh : ∀ s ∈ (parts.take maxSamples).map sampleOf, s.duration = 0 := by
    intro s inside
    obtain ⟨m,_,rfl⟩ := mem_map.mp inside
    rfl
  rw [built.samples,built.earliest,built.latest,chain_still fresh]
  cases parts with
  | nil => simp [OneTime]
  | cons first parts =>
    have head : (((first::parts).take maxSamples).map sampleOf).head? = some (sampleOf first) := rfl
    have stored : first ∈ (first::parts).take maxSamples := mem_cons_self
    have last : (first::parts).getLast? = some ((first::parts).getLast (by simp)) :=
      List.getLast?_eq_some_getLast ..
    simp only [head,last,OneTime,List.head?_cons,Option.map_some,Option.getD_some,Option.mem_def,Option.some.injEq,forall_eq',
      forall_mem_map]
    constructor
    · rintro ⟨ends,still⟩
      exact ⟨first.timestamp,fun m inside => still m inside,ends⟩
    · rintro ⟨time,still,ends⟩
      have start := still first stored
      exact ⟨ends.trans start.symm,fun m inside => (still m inside).trans start.symm⟩

theorem sidx_exact_iff (conf : Conf) (events : List Event) (c : Closed) (member : c ∈ (history conf events).closed)
    (ttype : TrackType) :
    Indexed (segmentFile (c.track ttype).fragment (c.track ttype).raw) ↔ OneTime (c.parts ttype) := by
  have built := (kept_history conf events).closed c member ttype
  rw [indexed_fragment built.few built.mdat built.small]
  exact oneTime_iff built

def keyFrameAt (timestamp : UInt32) : Event := .av bothKnown ⟨.video,timestamp,[0x17,1,0,0,0,9],[]⟩

theorem single_frame_indexed :
    ∃ c ∈ (history fiveSeconds [keyFrameAt 40,.close]).closed, Indexed (segmentFile (c.track .video).fragment (c.track .video).raw) := by
  refine ⟨_,mem_cons_self,(sidx_exact_iff fiveSeconds [keyFrameAt 40,.close] _ mem_cons_self .video).mpr ⟨40,?_,?_⟩⟩
  · decide
  · decide

-- Two frames 40 ms apart: the moof is said to start 40 bytes behind its start.
theorem two_frames_misplaced :
    ∃ c, (history fiveSeconds [keyFrameAt 0,keyFrameAt 40,.close]).closed = [c] ∧
      ¬ Indexed (segmentFile (c.track .video).fragment (c.track .video).raw) := by
  refine ⟨_,rfl,?_⟩
  rw [indexed_fragment (by decide) (by decide) (by decide)]
  intro both
  exact absurd both.1 (by decide)

end NgxRtmp.Dash
