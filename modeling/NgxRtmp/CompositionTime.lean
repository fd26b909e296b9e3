import NgxRtmp.DashIndex
import NgxRtmp.HlsConversion
import NgxRtmp.MpegtsRoundTrip

namespace NgxRtmp.CompositionTime
open Octets List

def offset (cts : List UInt8) : Int := (BitVec.ofNat 24 (natural cts)).toInt

theorem offset_cases (three : cts.length = 3) :
    natural cts < 2^23 ∧ offset cts = natural cts ∨ 2^23 ≤ natural cts ∧ natural cts < 2^24 ∧ offset cts = natural cts-2^24 := by
  have small := natural_lt cts
  rw [three] at small
  rw [offset,BitVec.toInt_eq_toNat_cond,BitVec.toNat_ofNat,Nat.mod_eq_of_lt (by omega)]
  by_cases half : natural cts < 2^23
  · left
    rw [if_pos (by omega)]
    exact ⟨half,rfl⟩
  · right
    rw [if_neg (by omega)]
    exact ⟨by omega,by omega,rfl⟩

section Hls
open HlsVideo Mpegts

def WrittenPts (packets : List (List UInt8)) (time : Int) : Prop :=
  ∃ parsed pes, List.Forall₂ (fun bytes p => parsePacket bytes = some p) packets parsed ∧
    parsePes (parsed.flatMap (·.payload)) = some pes ∧ pes.pts = time

theorem parsed_unique (first : List.Forall₂ (fun bytes p => parsePacket bytes = some p) packets one)
    (second : List.Forall₂ (fun bytes p => parsePacket bytes = some p) packets other) : one = other := by
  induction first generalizing other with
  | nil => cases second; rfl
  | cons head _ ih =>
    cases second with
    | cons same tail =>
      cases head.symm.trans same
      rw [ih tail]

theorem writeFrame_pts (some_data : f.data ≠ []) (small : f.pid < 2^13) :
    WrittenPts (writeFrame f cc).1 time ↔ ((f.pts.toNat+63000) % 2^33 : Nat) = time := by
  obtain ⟨packets,parsed,carried,_⟩ := writeFrame_carries some_data small
  constructor
  · rintro ⟨others,pes,again,read,same⟩
    cases parsed_unique parsed again
    cases carried.pes.symm.trans read
    exact same
  · intro same
    exact ⟨packets,_,parsed,carried.pes,same⟩

theorem videoFrame_pts (small : cts < 2^24) : (videoFrame h fmt cts data).pts.toNat = h.timestamp.toNat*90+cts*90 := by
  have stamp := h.timestamp.toNat_lt
  change (UInt64.ofNat (h.timestamp.toNat*90)+UInt64.ofNat (cts*90)).toNat = _
  rw [UInt64.toNat_add,UInt64.toNat_ofNat_of_lt' (by simp only [UInt64.size]; omega),
    UInt64.toNat_ofNat_of_lt' (by simp only [UInt64.size]; omega)]
  omega

-- The unsigned offset is 2^24 too far when the top bit is set, and 90*2^24 is not zero modulo 2^33.
theorem hlsVideo_pts (three : cts.length = 3) (message : link.flatten = [fmt] ++ ([1] ++ (cts ++ rest)))
    (written : hlsVideo update s h link = .write frame packets cc log) (some_data : frame.data ≠ []) :
    WrittenPts packets ((90*h.timestamp.toNat+90*offset cts+63000) % 2^33) ↔ 0 ≤ offset cts := by
  obtain ⟨ctx,codec,_,converted⟩ := hlsVideo_written written
  obtain ⟨c,after,_,_,_,frame_eq,rfl,_⟩ := convertMessage_written converted message three
  have pid : frame.pid < 2^13 := by
    rw [frame_eq]
    change 0x100 < 2^13
    decide
  rw [writeFrame_pts some_data pid,frame_eq]
  cases offset_cases three with
  | inl low =>
    rw [videoFrame_pts (by omega)]
    omega
  | inr high =>
    rw [videoFrame_pts high.2.1]
    omega

end Hls

section Dash
open Dash Boxes Mp4Segments

def cts (m : Message) : List UInt8 := (m.buf.drop 2).take 3

theorem cts_delay (video : m.type = .video) (headed : 5 ≤ m.buf.length) :
    (cts m).length = 3 ∧ m.delay.toNat = natural (cts m) := by
  obtain ⟨type,timestamp,buf,next⟩ := m
  cases video
  match buf,headed with
  | b0::b1::b2::b3::b4::rest,_ =>
    refine ⟨rfl,?_⟩
    change (word b4 b3 b2 0).toNat = natural [b2,b3,b4]
    rw [word_toNat]
    simp only [natural,foldl_cons,foldl_nil]
    have zero : (0 : UInt8).toNat = 0 := rfl
    omega

def WrittenDelay (file : List UInt8) (i : Nat) (time : Int) : Prop :=
  ∃ boxes start data entries e, parse isoShape file = some boxes ∧ readMoof boxes = some (start,data,entries) ∧
    entries[i]? = some e ∧ (BitVec.ofNat 32 e.delay).toInt = time

theorem segment_entries (built : Built t ttype parts) :
    ∃ boxes start data, parse isoShape (segmentFile t.fragment t.raw) = some boxes ∧
      readMoof boxes = some (start,data,t.fragment.samples.map (entry (sampleMask ttype))) := by
  obtain ⟨parsed,read⟩ := segmentFile_reads built.few built.mdat built.small
  rw [built.type] at read
  exact ⟨_,_,_,parsed,read⟩

theorem entry_delay {i : Nat} (built : Built t .video parts)
    (stored : (parts.take maxSamples)[i]? = some m) :
    ∃ e : Entry, (t.fragment.samples.map (entry (sampleMask .video)))[i]? = some e ∧ e.delay = m.delay.toNat := by
  have delays : (t.fragment.samples.map (entry (sampleMask .video))).map Entry.delay =
      (parts.take maxSamples).map fun m => m.delay.toNat := by
    rw [built.samples,map_map,chain_map _ (fun _ _ => rfl),map_map]
    rfl
  have there := congrArg (·[i]?) delays
  rw [getElem?_map,getElem?_map (l:=parts.take maxSamples),stored] at there
  obtain ⟨e,at_i,same⟩ := Option.map_eq_some_iff.mp there
  exact ⟨e,at_i,same⟩

theorem segment_delay {i : Nat} (built : Built t .video parts)
    (stored : (parts.take maxSamples)[i]? = some m) :
    WrittenDelay (segmentFile t.fragment t.raw) i (offset (cts m)) ↔ 0 ≤ offset (cts m) := by
  obtain ⟨video,headed⟩ := built.own m (mem_of_mem_take (mem_of_getElem? stored))
  obtain ⟨three,delay⟩ := cts_delay video headed
  obtain ⟨boxes,start,data,parsed,read⟩ := segment_entries built
  obtain ⟨e,at_i,same⟩ := entry_delay built stored
  have exact_iff : (BitVec.ofNat 32 e.delay).toInt = offset (cts m) ↔ 0 ≤ offset (cts m) := by
    have value := BitVec.toInt_eq_toNat_cond (BitVec.ofNat 32 e.delay)
    rw [BitVec.toNat_ofNat,same,delay] at value
    rw [same,delay,value]
    cases offset_cases three with
    | inl low =>
      rw [Nat.mod_eq_of_lt (by omega),if_pos (by omega)]
      omega
    | inr high =>
      rw [Nat.mod_eq_of_lt (by omega),if_pos (by omega)]
      omega
  rw [← exact_iff]
  constructor
  · rintro ⟨boxes',start',data',entries,e',parsed',read',at_i',time⟩
    cases parsed.symm.trans parsed'
    cases read.symm.trans read'
    cases at_i.symm.trans at_i'
    exact time
  · intro time
    exact ⟨boxes,start,data,_,e,parsed,read,at_i,time⟩

end Dash

theorem composition_time_iff (conf : Dash.Conf) (events : List Dash.Event) :
    (∀ update s h link fmt bytes rest frame packets cc log, bytes.length = 3 →
      link.flatten = [fmt] ++ ([1] ++ (bytes ++ rest)) → HlsVideo.hlsVideo update s h link = .write frame packets cc log →
      frame.data ≠ [] →
      (WrittenPts packets ((90*h.timestamp.toNat+90*offset bytes+63000) % 2^33) ↔ 0 ≤ offset bytes)) ∧
    ∀ c ∈ (Dash.history conf events).closed, ∀ (i : Nat) m,
      ((c.parts .video).take Dash.maxSamples)[i]? = some m →
      (WrittenDelay (Dash.segmentFile (c.track .video).fragment (c.track .video).raw) i (offset (cts m)) ↔ 0 ≤ offset (cts m)) := by
  constructor
  · intro update s h link fmt bytes rest frame packets cc log three message written some_data
    exact hlsVideo_pts three message written some_data
  · intro c member i m stored
    exact segment_delay ((Dash.kept_history conf events).closed c member .video) stored

def pictureWith (bytes : List UInt8) : List (List UInt8) := [[0x17,1] ++ bytes,[0,2,0x65,5]]
def pictureFrame (bytes : List UInt8) : Mpegts.Frame :=
  HlsVideo.videoFrame ⟨9,40⟩ 0x17 (natural bytes)
    [0,0,0,1,9,0xf0,0,0,0,1,0x67,1,2,0,0,0,1,0x68,3,0,0,1,0x65,5]
def segmentWith (bytes : List UInt8) : List Dash.Event :=
  [.av Dash.bothKnown ⟨.video,40,[0x17,1] ++ bytes ++ [9],[]⟩,.close]

theorem later_picture_kept :
    WrittenPts (Mpegts.writeFrame (pictureFrame [0,0,5]) 0).1 (90*40+90*5+63000) ∧
    ∃ c, (Dash.history Dash.fiveSeconds (segmentWith [0,0,5])).closed = [c] ∧
      WrittenDelay (Dash.segmentFile (c.track .video).fragment (c.track .video).raw) 0 5 := by
  have run : HlsVideo.hlsVideo (fun _ _ => true) HlsVideo.sampleSession ⟨9,40⟩ (pictureWith [0,0,5]) =
      .write (pictureFrame [0,0,5]) (Mpegts.writeFrame (pictureFrame [0,0,5]) 0).1
        (Mpegts.writeFrame (pictureFrame [0,0,5]) 0).2 [] := by decide +kernel
  have both := composition_time_iff Dash.fiveSeconds (segmentWith [0,0,5])
  refine ⟨(both.1 _ _ _ _ 0x17 [0,0,5] [0,2,0x65,5] _ _ _ _ rfl rfl run (by decide)).mpr (by decide),_,rfl,?_⟩
  exact (both.2 _ mem_cons_self 0 _ rfl).mpr (by decide)

-- An offset of -1 ms is written as one of 2^24-1.
theorem earlier_picture_lost :
    offset [0xff,0xff,0xff] = -1 ∧
    HlsVideo.hlsVideo (fun _ _ => true) HlsVideo.sampleSession ⟨9,40⟩ (pictureWith [0xff,0xff,0xff]) =
      .write (pictureFrame [0xff,0xff,0xff]) (Mpegts.writeFrame (pictureFrame [0xff,0xff,0xff]) 0).1
        (Mpegts.writeFrame (pictureFrame [0xff,0xff,0xff]) 0).2 [] ∧
    ¬ WrittenPts (Mpegts.writeFrame (pictureFrame [0xff,0xff,0xff]) 0).1 (90*40+90*(-1)+63000) ∧
    ∃ c, (Dash.history Dash.fiveSeconds (segmentWith [0xff,0xff,0xff])).closed = [c] ∧
      ¬ WrittenDelay (Dash.segmentFile (c.track .video).fragment (c.track .video).raw) 0 (-1) := by
  refine ⟨by decide,by decide +kernel,?_,_,rfl,?_⟩
  · rw [writeFrame_pts (by decide) (by decide)]
    decide
  · have built := (Dash.kept_history Dash.fiveSeconds (segmentWith [0xff,0xff,0xff])).closed _ mem_cons_self .video
    intro kept
    have positive := (segment_delay (i:=0) (m:=⟨.video,40,[0x17,1,0xff,0xff,0xff,9],[]⟩) built rfl).mp kept
    exact absurd positive (by decide)

end NgxRtmp.CompositionTime
