import NgxRtmp.Mpegts

namespace NgxRtmp.Mpegts
open List

theorem byte_toNat : (byte n).toNat = n % 256 := by
  simp [byte]

theorem or_one : n <<< 1 ||| 1 = 2*n+1 := by
  rw [← Nat.shiftLeft_add_eq_or_of_lt (by decide),Nat.shiftLeft_eq]
  omega

theorem mask (n k : Nat) : n &&& (2^k-1) = n % 2^k := Nat.and_two_pow_sub_one_eq_mod n k

theorem parseTime_writePts (pts : UInt64) (small : fb < 16) : parseTime fb (writePts fb pts) = some (pts.toNat % 2^33) := by
  have bits : (pts.toNat/2^30 &&& 0x07) = pts.toNat/2^30 % 8 := mask _ 3
  have middle : (pts.toNat/2^15 &&& 0x7fff) = pts.toNat/2^15 % 2^15 := mask _ 15
  have low : (pts.toNat &&& 0x7fff) = pts.toNat % 2^15 := mask _ 15
  have high : fb <<< 4 ||| (pts.toNat/2^30 % 8) <<< 1 ||| 1 = 16*fb+(2*(pts.toNat/2^30 % 8)+1) := by
    rw [Nat.or_assoc,or_one,← Nat.shiftLeft_add_eq_or_of_lt (by omega),Nat.shiftLeft_eq]
    omega
  simp only [writePts,Nat.shiftRight_eq_div_pow,bits,middle,low,high,or_one,parseTime,byte_toNat]
  rw [if_pos (by omega)]
  congr 1
  omega

theorem parseAdaptation_pcr :
    parseAdaptation (0x50::(writePcr pcr ++ replicate n 0xff)) = some ⟨true,some (pcr.toNat % 2^33),n⟩ := by
  have last : pcr.toNat <<< 7 ||| 0x7e = 128*pcr.toNat+126 := by
    rw [← Nat.shiftLeft_add_eq_or_of_lt (by decide),Nat.shiftLeft_eq]
    omega
  simp only [writePcr,last,Nat.shiftRight_eq_div_pow,cons_append,nil_append,parseAdaptation,byte_toNat]
  rw [if_neg (by decide),if_pos trivial,if_pos (by simp [stuffed]),length_replicate]
  congr 3
  omega

theorem writePts_length : (writePts fb pts).length = 5 := rfl

theorem parsePes_one
    (fits : l1.toNat*256+l0.toNat = 0 ∨ l1.toNat*256+l0.toNat = 3+rest.length) :
    parsePes (0::0::1::sid::l1::l0::0x80::0x80::5::rest) = (parseTime 2 (rest.take 5)).map fun time => ⟨sid,time,time,rest.drop 5⟩ := by
  rw [parsePes,if_pos ⟨rfl,rfl,rfl,rfl,fits⟩,if_pos ⟨rfl,rfl⟩]

theorem parsePes_both
    (fits : l1.toNat*256+l0.toNat = 0 ∨ l1.toNat*256+l0.toNat = 3+rest.length)
    (first : parseTime 3 (rest.take 5) = some pts) (second : parseTime 1 ((rest.drop 5).take 5) = some dts) :
    parsePes (0::0::1::sid::l1::l0::0x80::0xc0::10::rest) = some ⟨sid,pts,dts,rest.drop 10⟩ := by
  rw [parsePes,if_pos ⟨rfl,rfl,rfl,rfl,fits⟩,if_neg (by decide),if_pos ⟨rfl,rfl⟩]
  simp only [first,second]

theorem pesHeader_bytes (f : Frame) : pesHeader f data.length ++ data =
    0::0::1::byte f.sid::byte (pesSize f data.length >>> 8)::byte (pesSize f data.length)::0x80::byte (flags f)::byte (headerSize f)::
      (writePts (flags f >>> 6) (f.pts+delay) ++ ((if f.dts ≠ f.pts then writePts 1 (f.dts+delay) else []) ++ data)) := by
  simp only [pesHeader,cons_append,nil_append,append_assoc]

theorem parsePes_pesHeader (f : Frame) : parsePes (pesHeader f data.length ++ data) =
    some ⟨byte f.sid,(f.pts+delay).toNat % 2^33,(f.dts+delay).toNat % 2^33,data⟩ := by
  have length : (byte (pesSize f data.length >>> 8)).toNat*256+(byte (pesSize f data.length)).toNat = pesSize f data.length := by
    have bound : pesSize f data.length < 2^16 := by unfold pesSize; split <;> omega
    rw [byte_toNat,byte_toNat,Nat.shiftRight_eq_div_pow]
    omega
  have fits : pesSize f data.length = 0 ∨ pesSize f data.length = 3+(headerSize f+data.length) := by
    unfold pesSize
    split <;> omega
  rw [← length] at fits
  rw [pesHeader_bytes]
  by_cases same : f.dts = f.pts
  · have size : headerSize f = 5 := by simp [headerSize,same]
    have only : flags f = 0x80 := by simp [flags,same]
    have time := parseTime_writePts (f.pts+delay) (show 2 < 16 by decide)
    rw [size] at fits
    rw [if_neg (not_not_intro same),nil_append,only,size]
    refine (parsePes_one (by rw [length_append,writePts_length]; exact fits)).trans ?_
    rw [take_left' writePts_length,drop_left' writePts_length,show 0x80 >>> 6 = 2 from rfl,time,same]
    rfl
  · have size : headerSize f = 10 := by simp [headerSize,same]
    have both : flags f = 0xc0 := by simp [flags,same]
    have first := parseTime_writePts (f.pts+delay) (show 3 < 16 by decide)
    have second := parseTime_writePts (f.dts+delay) (show 1 < 16 by decide)
    rw [size] at fits
    rw [if_pos same,both,size]
    have early : parseTime 3 ((writePts (0xc0 >>> 6) (f.pts+delay) ++ (writePts 1 (f.dts+delay) ++ data)).take 5) =
        some ((f.pts+delay).toNat % 2^33) := by
      rw [take_left' writePts_length]
      exact first
    have late : parseTime 1 (((writePts (0xc0 >>> 6) (f.pts+delay) ++ (writePts 1 (f.dts+delay) ++ data)).drop 5).take 5) =
        some ((f.dts+delay).toNat % 2^33) := by
      rw [drop_left' writePts_length,take_left' writePts_length]
      exact second
    refine (parsePes_both ?_ early late).trans ?_
    · rw [length_append,length_append,writePts_length,writePts_length,← add_assoc 5]
      exact fits
    · rw [← append_assoc,drop_left' (by rw [length_append,writePts_length,writePts_length])]

def lead (f : Frame) (first : Bool) : UInt8 := if first then byte (f.pid >>> 8) ||| 0x40 else byte (f.pid >>> 8)
def control (cc : UInt64) : UInt8 := 0x10 ||| byte (cc.toNat &&& 0x0f)

theorem lead_toNat (f : Frame) (first : Bool) (small : f.pid < 2^13) :
    (lead f first).toNat = f.pid/256+if first then 64 else 0 := by
  have set : ∀ n < 32, (byte n ||| 0x40).toNat = n+64 := by decide
  have bound : f.pid/256 < 32 := by omega
  unfold lead
  rw [Nat.shiftRight_eq_div_pow]
  cases first with
  | false => simp only [byte_toNat,Bool.false_eq_true,if_false]; omega
  | true => simpa using set _ bound

theorem lead_reads (f : Frame) (first : Bool) (small : f.pid < 2^13) :
    ((lead f first).toNat/64 == 1) = first ∧ (lead f first).toNat % 32*256+(byte f.pid).toNat = f.pid ∧
      (lead f first).toNat < 0x80 ∧ (lead f first).toNat/32 % 2 = 0 := by
  rw [lead_toNat f first small,byte_toNat]
  refine ⟨?_,?_,?_,?_⟩ <;> cases first <;> simp <;> omega

theorem control_reads (cc : UInt64) : (control cc).toNat = 16+cc.toNat % 16 ∧ (control cc ||| 0x20).toNat = 48+cc.toNat % 16 ∧
    control cc &&& 0x20 = 0 ∧ (control cc ||| 0x20) &&& 0x20 ≠ 0 := by
  have all : ∀ n < 16, (0x10 ||| byte n).toNat = 16+n ∧ (0x10 ||| byte n ||| 0x20).toNat = 48+n ∧
      (0x10 ||| byte n) &&& 0x20 = 0 ∧ (0x10 ||| byte n ||| 0x20) &&& 0x20 ≠ 0 := by decide
  have low : (cc.toNat &&& 0x0f) = cc.toNat % 16 := mask _ 4
  unfold control
  rw [low]
  exact all _ (by omega)

theorem parsePacket_plain (small : f.pid < 2^13) (full : payload.length = 184) :
    parsePacket (0x47::lead f first::byte f.pid::control cc::payload) = some ⟨first,f.pid,cc.toNat % 16,none,payload⟩ := by
  obtain ⟨start,pid,plain⟩ := lead_reads f first small
  have three := (control_reads cc).1
  simp only [parsePacket,length_cons,full,start,pid]
  rw [if_pos ⟨trivial,trivial,plain.1,plain.2,by omega⟩,if_pos (by omega)]
  congr 2
  omega

theorem parsePacket_adapted (first : Bool) (cc : UInt64) (field : List UInt8) (small : f.pid < 2^13)
    (full : 1+field.length+payload.length = 184) (some_payload : payload ≠ []) :
    parsePacket (0x47::lead f first::byte f.pid::(control cc ||| 0x20)::byte field.length::(field ++ payload)) =
      (parseAdaptation field).map fun read => ⟨first,f.pid,cc.toNat % 16,some read,payload⟩ := by
  obtain ⟨start,pid,plain⟩ := lead_reads f first small
  have three := (control_reads cc).2.1
  have size : (byte field.length).toNat = field.length := by rw [byte_toNat]; omega
  have held := length_pos_iff.mpr some_payload
  simp only [parsePacket,length_cons,length_append,start,pid,size,take_left,drop_left]
  rw [if_pos ⟨by omega,trivial,plain.1,plain.2,by omega⟩,if_neg (by omega),if_pos (by omega),if_pos (by omega),three]
  congr 2
  funext read
  congr 1
  omega

def padding (size : Nat) : List UInt8 := if size ≥ 2 then 0::replicate (size-2) 0xff else []

theorem padding_length (some_size : 0 < size) : (padding size).length = size-1 := by
  unfold padding
  split
  · rw [length_cons,length_replicate]
    omega
  · rw [length_nil]
    omega

theorem parseAdaptation_padding : ∃ n, parseAdaptation (padding size) = some ⟨false,none,n⟩ := by
  unfold padding
  split
  · exact ⟨size-2,by simp [parseAdaptation,stuffed]⟩
  · exact ⟨0,rfl⟩

theorem stuff_plain (some_size : 0 < size) : stuff (s0::s1::s2::control cc::rest) size =
    s0::s1::s2::(control cc ||| 0x20)::byte (padding size).length::(padding size ++ rest) := by
  have clear := (control_reads cc).2.2.1
  rw [padding_length some_size]
  simp [stuff,padding,clear]

theorem stuff_clock : stuff (s0::s1::s2::(control cc ||| 0x20)::7::0x50::(writePcr pcr ++ rest)) size =
    s0::s1::s2::(control cc ||| 0x20)::byte (7+size)::((0x50::(writePcr pcr ++ replicate size 0xff)) ++ rest) := by
  have set := (control_reads cc).2.2.2
  have more : (7 : UInt8)+byte size = byte (7+size) := by simp [byte]
  simp only [stuff,getElem?_cons_succ,getElem?_cons_zero,Option.getD_some]
  rw [if_pos set,more]
  simp [writePcr]

def opening (f : Frame) (first : Bool) (size : Nat) : List UInt8 := if first then pesHeader f size else []

def clock (f : Frame) (first : Bool) : Option Nat := if first ∧ f.key then some ((f.dts-delay).toNat % 2^33) else none

theorem pesHeader_length (f : Frame) : (pesHeader f size).length ≤ 19 := by
  unfold pesHeader
  split <;> simp [writePts_length]

theorem packetHeader_cases (f : Frame) (cc : UInt64) (first : Bool) (size : Nat) :
    (packetHeader f cc first size = 0x47::lead f first::byte f.pid::control cc::opening f first size ∧ clock f first = none) ∨
    (packetHeader f cc first size =
      0x47::lead f first::byte f.pid::(control cc ||| 0x20)::7::0x50::(writePcr (f.dts-delay) ++ opening f first size) ∧
      clock f first = some ((f.dts-delay).toNat % 2^33)) := by
  cases first with
  | false => exact .inl ⟨rfl,by simp [clock]⟩
  | true =>
    cases key : f.key with
    | false => exact .inl ⟨by simp [packetHeader,key,lead,control,opening],by simp [clock,key]⟩
    | true => exact .inr ⟨by simp [packetHeader,key,lead,control,opening],by simp [clock,key]⟩

theorem opening_length (f : Frame) (first : Bool) (size : Nat) : (opening f first size).length ≤ 19 := by
  cases first with
  | false => simp [opening]
  | true => exact pesHeader_length f

theorem packetHeader_length (f : Frame) (cc : UInt64) (first : Bool) (size : Nat) :
    (packetHeader f cc first size).length ≤ 31 := by
  have short := opening_length f first size
  rcases packetHeader_cases f cc first size with ⟨header,_⟩ | ⟨header,_⟩ <;> rw [header] <;>
    simp only [length_cons,length_append,writePcr,length_nil] <;> omega

def Read (f : Frame) (cc : UInt64) (first : Bool) (payload bytes : List UInt8) (p : Packet) : Prop :=
  parsePacket bytes = some p ∧ p.start = first ∧ p.pid = f.pid ∧ p.counter = cc.toNat % 16 ∧ p.pcr = clock f first ∧
    p.payload = payload

theorem read_of (parsed : parsePacket bytes = some ⟨first,f.pid,cc.toNat % 16,field,payload⟩)
    (time : field.bind (·.pcr) = clock f first) : ∃ p, Read f cc first payload bytes p :=
  ⟨_,parsed,rfl,rfl,rfl,time,rfl⟩

theorem full_packet_read (small : f.pid < 2^13)
    (full : (packetHeader f cc first size).length+body.length = 188)
    (some_body : body ≠ []) : ∃ p, Read f cc first (opening f first size ++ body) (packetHeader f cc first size ++ body) p := by
  have held : opening f first size ++ body ≠ [] := by simp [some_body]
  rcases packetHeader_cases f cc first size with ⟨header,time⟩ | ⟨header,time⟩ <;> rw [header] at full ⊢
  · have rest : (opening f first size ++ body).length = 184 := by
      simp only [length_cons] at full
      rw [length_append]
      omega
    exact read_of (parsePacket_plain small rest) time.symm
  · have read := parsePacket_adapted first cc (0x50::(writePcr (f.dts-delay) ++ [])) small
      (by simp only [length_cons,length_append,writePcr,length_nil] at full ⊢; omega) held
    rw [← replicate_zero,parseAdaptation_pcr] at read
    exact read_of read time.symm

theorem stuffed_packet_read (small : f.pid < 2^13) (full : (packetHeader f cc first size).length+n+body.length = 188)
    (some_size : 0 < n) (some_body : body ≠ []) :
    ∃ p, Read f cc first (opening f first size ++ body) (stuff (packetHeader f cc first size) n ++ body) p := by
  have held : opening f first size ++ body ≠ [] := by simp [some_body]
  rcases packetHeader_cases f cc first size with ⟨header,time⟩ | ⟨header,time⟩ <;> rw [header] at full ⊢
  · obtain ⟨k,field⟩ := parseAdaptation_padding
    have read := parsePacket_adapted first cc (padding n) small
      (by simp only [length_cons,length_append] at full ⊢; rw [padding_length some_size]; omega) held
    rw [field] at read
    simp only [stuff_plain some_size,cons_append,append_assoc]
    exact read_of read time.symm
  · have length : (0x50::(writePcr (f.dts-delay) ++ replicate n 0xff)).length = 7+n := by simp [writePcr]; omega
    have read := parsePacket_adapted first cc (0x50::(writePcr (f.dts-delay) ++ replicate n 0xff)) small
      (by rw [length]; simp only [length_cons,length_append,writePcr,length_nil] at full ⊢; omega) held
    rw [parseAdaptation_pcr,length] at read
    simp only [stuff_clock,cons_append,append_assoc] at read ⊢
    exact read_of read time.symm

end NgxRtmp.Mpegts
