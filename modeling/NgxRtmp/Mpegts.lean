import Mathlib

namespace NgxRtmp.Mpegts

-- ngx_rtmp_mpegts_frame_t without its counter, and the bytes of the buffer.
structure Frame where
  pts : UInt64
  dts : UInt64
  pid : Nat
  sid : Nat
  key : Bool
  data : List UInt8
  deriving DecidableEq

def byte (n : Nat) : UInt8 := UInt8.ofNat n

def delay : UInt64 := 63000

def writePcr (pcr : UInt64) : List UInt8 :=
  let n := pcr.toNat
  [byte (n >>> 25),byte (n >>> 17),byte (n >>> 9),byte (n >>> 1),byte (n <<< 7 ||| 0x7e),0]

def writePts (fb : Nat) (pts : UInt64) : List UInt8 :=
  let n := pts.toNat
  let high := fb <<< 4 ||| (n >>> 30 &&& 0x07) <<< 1 ||| 1
  let middle := (n >>> 15 &&& 0x7fff) <<< 1 ||| 1
  let low := (n &&& 0x7fff) <<< 1 ||| 1
  [byte high,byte (middle >>> 8),byte middle,byte (low >>> 8),byte low]

def headerSize (f : Frame) : Nat := if f.dts ≠ f.pts then 5+5 else 5
def flags (f : Frame) : Nat := if f.dts ≠ f.pts then 0x80 ||| 0x40 else 0x80

def pesSize (f : Frame) (size : Nat) : Nat :=
  if size+headerSize f+3 > 0xffff then 0 else size+headerSize f+3

def pesHeader (f : Frame) (size : Nat) : List UInt8 :=
  [0,0,1,byte f.sid,byte (pesSize f size >>> 8),byte (pesSize f size),0x80,byte (flags f),byte (headerSize f)] ++
    writePts (flags f >>> 6) (f.pts+delay) ++ if f.dts ≠ f.pts then writePts 1 (f.dts+delay) else []

-- A packet up to its payload. `size` is what is left of the buffer.
def packetHeader (f : Frame) (cc : UInt64) (first : Bool) (size : Nat) : List UInt8 :=
  let pid := byte (f.pid >>> 8)
  let payload := 0x10 ||| byte (cc.toNat &&& 0x0f)
  if first then
    if f.key then [0x47,pid ||| 0x40,byte f.pid,payload ||| 0x20,7,0x50] ++ writePcr (f.dts-delay) ++ pesHeader f size
    else [0x47,pid ||| 0x40,byte f.pid,payload] ++ pesHeader f size
  else [0x47,pid,byte f.pid,payload]

-- The header moved apart by `size` bytes of stuffing, in its adaptation field or in
-- a new one.
def stuff (packet : List UInt8) (size : Nat) : List UInt8 :=
  let control := packet[3]?.getD 0
  let length := packet[4]?.getD 0
  if control &&& 0x20 ≠ 0 then
    let base := 5+length.toNat
    (packet.set 4 (length+byte size)).take base ++ List.replicate size 0xff ++ packet.drop base
  else
    (packet.set 3 (control ||| 0x20)).take 4 ++
      (byte (size-1)::if size ≥ 2 then 0::List.replicate (size-2) 0xff else []) ++ packet.drop 4

-- The loop of ngx_rtmp_mpegts_write_frame with the packets it writes to the file.
def writePackets (f : Frame) : Nat → Bool → UInt64 → List UInt8 → List (List UInt8) × UInt64
  | 0,_,cc,_ => ([],cc)
  | fuel+1,first,cc,data =>
    if data = [] then ([],cc)
    else
      let cc := cc+1
      let header := packetHeader f cc first data.length
      let bodySize := 188-header.length
      if bodySize ≤ data.length then
        let later := writePackets f fuel false cc (data.drop bodySize)
        ((header ++ data.take bodySize)::later.1,later.2)
      else
        let later := writePackets f fuel false cc []
        ((stuff header (bodySize-data.length) ++ data)::later.1,later.2)

-- A packet takes at least one byte.
def writeFrame (f : Frame) (cc : UInt64) : List (List UInt8) × UInt64 := writePackets f f.data.length true cc f.data

def writeFrames (counters : Nat → UInt64) : List Frame → List (List UInt8) × (Nat → UInt64)
  | [] => ([],counters)
  | f::rest =>
    let written := writeFrame f (counters f.pid)
    let later := writeFrames (Function.update counters f.pid written.2) rest
    (written.1 ++ later.1,later.2)

-- The transport stream as ISO 13818-1 reads it.
structure Adaptation where
  randomAccess : Bool
  pcr : Option Nat
  stuffing : Nat
  deriving DecidableEq

structure Packet where
  start : Bool
  pid : Nat
  counter : Nat
  adaptation : Option Adaptation
  payload : List UInt8
  deriving DecidableEq

def Packet.pcr (p : Packet) : Option Nat := p.adaptation.bind (·.pcr)

def stuffed (bytes : List UInt8) : Bool := bytes.all (· == 0xff)

def parseAdaptation : List UInt8 → Option Adaptation
  | [] => some ⟨false,none,0⟩
  | flags::rest =>
    if flags = 0 then if stuffed rest then some ⟨false,none,rest.length⟩ else none
    else if flags = 0x50 then
      match rest with
      | b0::b1::b2::b3::b4::_::stuffing =>
        if stuffed stuffing then
          some ⟨true,some (b0.toNat*2^25+b1.toNat*2^17+b2.toNat*2^9+b3.toNat*2+b4.toNat/128),stuffing.length⟩
        else none
      | _ => none
    else none

def parsePacket (bytes : List UInt8) : Option Packet :=
  match bytes with
  | sync::b1::b2::b3::rest =>
    if bytes.length = 188 ∧ sync = 0x47 ∧ b1.toNat < 0x80 ∧ b1.toNat/32 % 2 = 0 ∧ b3.toNat < 0x40 then
      let packet := Packet.mk (b1.toNat/64 == 1) (b1.toNat % 32*256+b2.toNat) (b3.toNat % 16)
      if b3.toNat/16 = 1 then some (packet none rest)
      else if b3.toNat/16 = 3 then
        match rest with
        | [] => none
        | length::more =>
          if length.toNat < more.length then
            (parseAdaptation (more.take length.toNat)).map fun field => packet (some field) (more.drop length.toNat)
          else none
      else none
    else none
  | _ => none

def parseStream : Nat → List UInt8 → Option (List Packet)
  | _,[] => some []
  | 0,_ => none
  | n+1,bytes =>
    match parsePacket (bytes.take 188),parseStream n (bytes.drop 188) with
    | some packet,some rest => some (packet::rest)
    | _,_ => none

-- Without a decoding time the two times are equal. The length field may be zero.
structure Pes where
  sid : UInt8
  pts : Nat
  dts : Nat
  data : List UInt8
  deriving DecidableEq

def parseTime (mark : Nat) : List UInt8 → Option Nat
  | [b0,b1,b2,b3,b4] =>
    if b0.toNat/16 = mark ∧ b0.toNat % 2 = 1 ∧ b2.toNat % 2 = 1 ∧ b4.toNat % 2 = 1 then
      some (b0.toNat/2 % 8*2^30+(b1.toNat*256+b2.toNat)/2*2^15+(b3.toNat*256+b4.toNat)/2)
    else none
  | _ => none

def parsePes : List UInt8 → Option Pes
  | z0::z1::one::sid::l1::l0::mark::flags::size::rest =>
    let length := l1.toNat*256+l0.toNat
    if z0 = 0 ∧ z1 = 0 ∧ one = 1 ∧ mark = 0x80 ∧ (length = 0 ∨ length = 3+rest.length) then
      if flags = 0x80 ∧ size = 5 then
        (parseTime 2 (rest.take 5)).map fun time => ⟨sid,time,time,rest.drop 5⟩
      else if flags = 0xc0 ∧ size = 10 then
        match parseTime 3 (rest.take 5),parseTime 1 ((rest.drop 5).take 5) with
        | some pts,some dts => some ⟨sid,pts,dts,rest.drop 10⟩
        | _,_ => none
      else none
    else none
  | _ => none

end NgxRtmp.Mpegts
