import NgxRtmp.MpegtsStream

namespace NgxRtmp.Mpegts
open List hiding after next
open Function

structure Emitted (f : Frame) (cc : UInt64) (first : Bool) (data : List UInt8) (packets : List Packet) (after : UInt64) : Prop where
  each : ∀ i p, packets[i]? = some p → p.start = (first && i == 0) ∧ p.pid = f.pid ∧ p.counter = (cc.toNat+1+i) % 16 ∧
    p.pcr = clock f (first && i == 0)
  payload : packets.flatMap (·.payload) = (if data = [] then [] else opening f first data.length) ++ data
  counter : after.toNat % 16 = (cc.toNat+packets.length) % 16

theorem emitted_cons (read : Read f (cc+1) first (opening f first data.length ++ taken) bytes p)
    (whole : taken ++ rest = data) (some_data : data ≠ []) (later : Emitted f (cc+1) false rest packets after) :
    Emitted f cc first data (p::packets) after := by
  obtain ⟨_,start,pid,counter,pcr,payload⟩ := read
  have next : (cc+1).toNat % 16 = (cc.toNat+1) % 16 := by
    rw [UInt64.toNat_add]
    change (cc.toNat+1) % 2^64 % 16 = _
    omega
  constructor
  · intro i q at_i
    cases i with
    | zero =>
      obtain rfl : p = q := by simpa using at_i
      exact ⟨by simp [start],pid,by omega,by simp [pcr]⟩
    | succ i =>
      obtain ⟨start,pid,counter,pcr⟩ := later.each i q (by simpa using at_i)
      exact ⟨by simpa using start,pid,by omega,by simpa using pcr⟩
  · have none_opened : (if rest = [] then [] else opening f false rest.length) = [] := by simp [opening]
    rw [flatMap_cons,later.payload,none_opened,if_neg some_data,payload,nil_append,append_assoc,whole]
  · have after := later.counter
    rw [length_cons]
    omega

theorem writePackets_emits (small : f.pid < 2^13) (first : Bool) (cc : UInt64) (data : List UInt8) (enough : data.length ≤ fuel) :
    ∃ packets, List.Forall₂ (fun bytes p => parsePacket bytes = some p) (writePackets f fuel first cc data).1 packets ∧
      Emitted f cc first data packets (writePackets f fuel first cc data).2 := by
  induction fuel generalizing first cc data with
  | zero =>
    obtain rfl := eq_nil_of_length_eq_zero (Nat.le_zero.mp enough)
    exact ⟨[],.nil,by simp,by simp,by simp [writePackets]⟩
  | succ fuel ih =>
    by_cases done : data = []
    · subst done
      exact ⟨[],by simp [writePackets],by simp,by simp,by simp [writePackets]⟩
    · have short := packetHeader_length f (cc+1) first data.length
      simp only [writePackets,if_neg done]
      by_cases fits : 188-(packetHeader f (cc+1) first data.length).length ≤ data.length
      · -- the rest of the packet is filled from the frame
        rw [if_pos fits]
        generalize taken : 188-(packetHeader f (cc+1) first data.length).length = n at fits ⊢
        have size : (data.take n).length = n := by rw [length_take]; omega
        obtain ⟨p,read⟩ := full_packet_read small
          (show (packetHeader f (cc+1) first data.length).length+(data.take n).length = 188 by rw [size]; omega) (by intro none; rw [none] at size; simp at size; omega)
        obtain ⟨packets,parsed,later⟩ := ih false (cc+1) (data.drop n) (by rw [length_drop]; omega)
        exact ⟨p::packets,.cons read.1 parsed,emitted_cons read (take_append_drop n data) done later⟩
      · -- the frame ends in this packet
        rw [if_neg fits]
        obtain ⟨p,read⟩ := stuffed_packet_read small
          (show (packetHeader f (cc+1) first data.length).length+
            (188-(packetHeader f (cc+1) first data.length).length-data.length)+data.length = 188 by omega) (by omega) done
        obtain ⟨packets,parsed,later⟩ := ih false (cc+1) [] (Nat.zero_le _)
        exact ⟨p::packets,.cons read.1 parsed,emitted_cons read (append_nil data) done later⟩

theorem parsePacket_length (parsed : parsePacket bytes = some p) : bytes.length = 188 := by
  unfold parsePacket at parsed
  split at parsed
  · split at parsed
    case isTrue whole => exact whole.1
    case isFalse => cases parsed
  · cases parsed

theorem parseStream_flatten (parsed : List.Forall₂ (fun bytes p => parsePacket bytes = some p) written packets) :
    ∀ n, written.length ≤ n → parseStream n written.flatten = some packets := by
  induction parsed with
  | nil => intro n _; cases n <;> rfl
  | @cons bytes p written packets read _ ih =>
    intro n enough
    have size := parsePacket_length read
    cases n with
    | zero => simp at enough
    | succ n =>
      have later := ih n (by simpa using enough)
      have some_bytes : bytes ++ written.flatten ≠ [] := by
        intro none
        rw [(append_eq_nil_iff.mp none).1] at size
        cases size
      rw [flatten_cons]
      rw [parseStream]
      · rw [take_left' size,drop_left' size,read,later]
      · exact some_bytes

-- The start flag and the clock on the first packet only, and one PES packet with the frame.
structure Carried (f : Frame) (packets : List Packet) : Prop where
  held : packets ≠ []
  pid : ∀ p ∈ packets, p.pid = f.pid
  start : ∀ i p, packets[i]? = some p → p.start = (i == 0)
  clock : ∀ i p, packets[i]? = some p →
    p.pcr = if i = 0 ∧ f.key then some ((f.dts.toNat+2^33-63000) % 2^33) else none
  pes : parsePes (packets.flatMap (·.payload)) =
    some ⟨byte f.sid,(f.pts.toNat+63000) % 2^33,(f.dts.toNat+63000) % 2^33,f.data⟩

theorem add_delay : (time+delay).toNat % 2^33 = (time.toNat+63000) % 2^33 := by
  rw [UInt64.toNat_add]
  change (time.toNat+63000) % 2^64 % 2^33 = _
  omega

theorem sub_delay : (time-delay).toNat % 2^33 = (time.toNat+2^33-63000) % 2^33 := by
  rw [UInt64.toNat_sub]
  change (2^64-63000+time.toNat) % 2^64 % 2^33 = _
  omega

theorem writeFrame_carries (some_data : f.data ≠ []) (small : f.pid < 2^13) :
    ∃ packets, List.Forall₂ (fun bytes p => parsePacket bytes = some p) (writeFrame f cc).1 packets ∧ Carried f packets ∧
      (∀ (i : Nat) p, packets[i]? = some p → p.counter = (cc.toNat+1+i) % 16) ∧
      (writeFrame f cc).2.toNat % 16 = (cc.toNat+packets.length) % 16 := by
  obtain ⟨packets,parsed,emitted⟩ := writePackets_emits small true cc f.data le_rfl
  have payload := emitted.payload
  rw [if_neg some_data] at payload
  refine ⟨packets,parsed,⟨?_,?_,?_,?_,?_⟩,fun i p at_i => (emitted.each i p at_i).2.2.1,emitted.counter⟩
  · rintro rfl
    exact some_data (append_eq_nil_iff.mp payload.symm).2
  · intro p inside
    obtain ⟨i,at_i⟩ := mem_iff_getElem?.mp inside
    exact (emitted.each i p at_i).2.1
  · intro i p at_i
    exact (emitted.each i p at_i).1
  · intro i p at_i
    rw [(emitted.each i p at_i).2.2.2,← sub_delay]
    simp [Mpegts.clock]
  · rw [payload]
    change parsePes (pesHeader f f.data.length ++ f.data) = _
    rw [parsePes_pesHeader,add_delay,add_delay]

def Counted (counters : Nat → UInt64) (packets : List Packet) : Prop :=
  ∀ pid k p, (packets.filter (·.pid = pid))[k]? = some p → p.counter = ((counters pid).toNat+1+k) % 16

theorem counted_append (own : ∀ p ∈ packets, p.pid = pid)
    (each : ∀ (i : Nat) p, packets[i]? = some p → p.counter = ((counters pid).toNat+1+i) % 16)
    (reached : after.toNat % 16 = ((counters pid).toNat+packets.length) % 16)
    (rest : Counted (update counters pid after) later) : Counted counters (packets ++ later) := by
  intro q k p at_k
  rw [filter_append] at at_k
  by_cases same : q = pid
  · subst same
    rw [filter_eq_self.mpr (by intro p inside; simpa using own p inside)] at at_k
    by_cases inside : k < packets.length
    · rw [List.getElem?_append_left inside] at at_k
      exact each k p at_k
    · rw [List.getElem?_append_right (by omega)] at at_k
      have counter := rest q _ p at_k
      rw [update_self] at counter
      omega
  · rw [filter_eq_nil_iff.mpr (by intro p inside; have := own p inside; simpa [this] using fun eq => same eq.symm),
      nil_append] at at_k
    have counter := rest q k p at_k
    rwa [update_of_ne same] at counter

theorem writeFrames_carried (counters : Nat → UInt64) (whole : ∀ f ∈ frames, f.data ≠ [] ∧ f.pid < 2^13) :
    ∃ packets : List (List Packet),
      List.Forall₂ (fun bytes p => parsePacket bytes = some p) (writeFrames counters frames).1 packets.flatten ∧
      List.Forall₂ Carried frames packets ∧ Counted counters packets.flatten := by
  induction frames generalizing counters with
  | nil => exact ⟨[],.nil,.nil,by intro pid k p at_k; simp at at_k⟩
  | cons f frames ih =>
    obtain ⟨some_data,small⟩ := whole f mem_cons_self
    obtain ⟨own,parsed,carried,each,reached⟩ := writeFrame_carries some_data small
    obtain ⟨packets,later,rest,counted⟩ := ih (update counters f.pid (writeFrame f (counters f.pid)).2)
      (fun g inside => whole g (mem_cons_of_mem _ inside))
    exact ⟨own::packets,rel_append parsed later,.cons carried rest,counted_append carried.pid each reached counted⟩

theorem mpegts_round_trip (counters : Nat → UInt64) (frames : List Frame)
    (whole : ∀ f ∈ frames, f.data ≠ [] ∧ f.pid < 2^13) :
    ∃ packets : List (List Packet),
      parseStream (writeFrames counters frames).1.length (writeFrames counters frames).1.flatten = some packets.flatten ∧
      List.Forall₂ Carried frames packets ∧ Counted counters packets.flatten := by
  obtain ⟨packets,parsed,carried,counted⟩ := writeFrames_carried counters whole
  exact ⟨packets,parseStream_flatten parsed _ le_rfl,carried,counted⟩

-- A key frame over two packets with a decoding time, and a short audio frame.
def videoThenAudio : List Frame :=
  [⟨90000,87000,0x100,0xe0,true,List.replicate 200 1⟩,⟨90000,90000,0x101,0xc0,false,[1,2,3]⟩]

theorem mpegts_round_trip_video_then_audio :
    (∀ f ∈ videoThenAudio, f.data ≠ [] ∧ f.pid < 2^13) ∧
    ∃ packets : List (List Packet),
      parseStream (writeFrames (fun _ => 14) videoThenAudio).1.length (writeFrames (fun _ => 14) videoThenAudio).1.flatten =
        some packets.flatten ∧
      List.Forall₂ Carried videoThenAudio packets ∧ Counted (fun _ => 14) packets.flatten := by
  have whole : ∀ f ∈ videoThenAudio, f.data ≠ [] ∧ f.pid < 2^13 := by
    intro f inside
    simp only [videoThenAudio,mem_cons,not_mem_nil,or_false] at inside
    rcases inside with rfl | rfl
    · exact ⟨by simp,by decide⟩
    · exact ⟨by simp,by decide⟩
  exact ⟨whole,mpegts_round_trip (fun _ => 14) videoThenAudio whole⟩

end NgxRtmp.Mpegts
