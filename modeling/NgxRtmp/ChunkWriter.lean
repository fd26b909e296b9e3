import NgxRtmp.Lib.Octets

namespace NgxRtmp.ChunkWriter
open Octets

structure Header where
  csid : UInt32
  timestamp : UInt32
  mlen : UInt32
  type : UInt8
  msid : UInt32
  deriving DecidableEq, Repr

structure SrvConf where
  maxStreams : Nat
  chunkSize : Nat
  maxMessage : Nat
  playTimeFix : Bool
  publishTimeFix : Bool
  deriving DecidableEq, Repr

-- The values ngx_rtmp_core_merge_srv_conf falls back on.
def sampleConf : SrvConf := ⟨32,4096,1048576,true,true⟩

def maxChunkHeader : Nat := 18

-- ngx_buf_t with its memory. Offsets count from b->start; b->end is `size`.
structure Buf where
  mem : List UInt8
  pos : Nat
  last : Nat
  size : Nat
  deriving DecidableEq, Repr

def Buf.contents (b : Buf) : List UInt8 := (b.mem.take b.last).drop b.pos

def Buf.write (b : Buf) (offset : Nat) (bytes : List UInt8) : Buf :=
  {b with mem:=b.mem.take offset ++ bytes ++ b.mem.drop (offset+bytes.length)}

def Buf.append (b : Buf) (bytes : List UInt8) : Buf :=
  {b.write b.last bytes with last:=b.last+bytes.length}

def Buf.prepend (b : Buf) (n : Nat) (bytes : List UInt8) : Buf :=
  {b with pos:=b.pos-n}.write (b.pos-n) bytes

-- A buffer from cscf->free holds stale bytes, none of them between pos and last.
def allocSharedBuf (chunkSize : Nat) : Buf :=
  ⟨List.replicate (chunkSize+maxChunkHeader) 0,maxChunkHeader,maxChunkHeader,chunkSize+maxChunkHeader⟩

-- The inner loop of ngx_rtmp_append_shared_bufs; `none` is the jump to done.
def fillBuf (l : Buf) (p : List UInt8) : List (List UInt8) → Buf × Option (List UInt8 × List (List UInt8))
  | [] => if p.length ≤ l.size-l.last then (l.append p,none) else (l,some (p,[]))
  | next::rest =>
    if p.length ≤ l.size-l.last then fillBuf (l.append p) next rest else (l,some (p,next::rest))

-- The outer loop. Out of fuel is a loop that never ends, as with a chunk size of 0.
def appendLoop (chunkSize : Nat) : Nat → List Buf → Option Buf → List UInt8 → List (List UInt8) → Option (List Buf)
  | 0,_,_,_,_ => none
  | fuel+1,done,l,p,rest =>
    let (done,l) := match l with
      | none => (done,allocSharedBuf chunkSize)
      | some b => if b.last = b.size then (done ++ [b],allocSharedBuf chunkSize) else (done,b)
    match fillBuf l p rest with
    | (l,none) => some (done ++ [l])
    | (l,some (p,rest)) =>
      let room := l.size-l.last
      appendLoop chunkSize fuel done (some (l.append (p.take room))) (p.drop room) rest

def appendFuel (input : List (List UInt8)) : Nat := input.flatten.length+2

def appendSharedBufs (chunkSize : Nat) (head : List Buf) (input : List (List UInt8)) : Option (List Buf) :=
  match input with
  | [] => none
  | p::rest => appendLoop chunkSize (appendFuel input) head.dropLast head.getLast? p rest

-- The format and the timestamp field that ngx_rtmp_prepare_message chooses.
def chunkFormat (h : Header) (lh : Option Header) (mlen : UInt32) : Nat × UInt32 :=
  match lh with
  | none => (0,h.timestamp)
  | some lh =>
    if lh.csid ≠ 0 ∧ h.msid = lh.msid then
      (if h.type = lh.type ∧ mlen ≠ 0 ∧ mlen = lh.mlen then
        if h.timestamp = lh.timestamp then 3 else 2
      else 1,h.timestamp-lh.timestamp)
    else (0,h.timestamp)

def basicHeader (fmt csid : Nat) : List UInt8 :=
  if 2 ≤ csid ∧ csid ≤ 63 then [UInt8.ofNat (64*fmt+csid % 64)]
  else if 64 ≤ csid ∧ csid < 320 then [UInt8.ofNat (64*fmt),UInt8.ofNat (csid-64)]
  else [UInt8.ofNat (64*fmt+1),UInt8.ofNat (csid-64),UInt8.ofNat ((csid-64)/256)]

def hdrsize : Nat → Nat
  | 0 => 12
  | 1 => 8
  | 2 => 4
  | _ => 1

def messageHeader (fmt : Nat) (timestamp mlen : UInt32) (type : UInt8) (msid : UInt32) : List UInt8 :=
  (if fmt ≤ 2 then [octet timestamp 2,octet timestamp 1,octet timestamp 0] else []) ++
  (if fmt ≤ 1 then [octet mlen 2,octet mlen 1,octet mlen 0,type] else []) ++
  (if fmt = 0 then [octet msid 0,octet msid 1,octet msid 2,octet msid 3] else [])

def extendedHeader (timestamp : UInt32) : List UInt8 :=
  [octet timestamp 3,octet timestamp 2,octet timestamp 1,octet timestamp 0]

-- (timestamp, ext_timestamp) after the test against 0x00ffffff
def splitTimestamp (timestamp : UInt32) : UInt32 × UInt32 :=
  if 0x00ffffff ≤ timestamp then (0x00ffffff,timestamp) else (timestamp,0)

def messageLength (out : List Buf) : UInt32 :=
  UInt32.ofNat ((out.map fun b => b.last-b.pos).sum)

def headerSize (fmt csid : Nat) (extended : Bool) : Nat :=
  hdrsize fmt+(if extended then 4 else 0)+(if 64 ≤ csid then if 320 ≤ csid then 2 else 1 else 0)

def firstHeader (h : Header) (fmt : Nat) (timestamp mlen : UInt32) : List UInt8 :=
  let (short,ext) := splitTimestamp timestamp
  basicHeader fmt h.csid.toNat ++ messageHeader fmt short mlen h.type h.msid ++
    (if ext ≠ 0 then extendedHeader ext else [])

-- th[]: th[0] |= 0xc0 makes its format 3 whatever the first one was.
def nextHeader (cscf : SrvConf) (h : Header) (timestamp : UInt32) : List UInt8 :=
  let (_,ext) := splitTimestamp timestamp
  basicHeader 3 h.csid.toNat ++ (if ext ≠ 0 ∧ cscf.playTimeFix then extendedHeader ext else [])

-- `none`: the chunk stream id is too big, the session is finalized and the
-- chain stays as it was.
def prepareMessage (cscf : SrvConf) (h : Header) (lh : Option Header) (out : List Buf) : Option (List Buf) :=
  if cscf.maxStreams ≤ h.csid.toNat then none
  else match out with
    | [] => none
    | first::rest =>
      let mlen := messageLength out
      let (fmt,timestamp) := chunkFormat h lh mlen
      let hsize := headerSize fmt h.csid.toNat ((splitTimestamp timestamp).2 ≠ 0)
      let th := nextHeader cscf h timestamp
      some (first.prepend hsize (firstHeader h fmt timestamp mlen)::rest.map fun b => b.prepend th.length th)

-- Format 0 sets the timestamp, the others add a delta, and format 3 repeats the last one.
structure Clock where
  timestamp : UInt32
  dtime : UInt32
  deriving DecidableEq, Repr

def Clock.read (clock : Clock) (fmt : Nat) (field : UInt32) : Clock :=
  if fmt = 0 then ⟨field,0⟩
  else
    let dtime := if fmt ≤ 2 then field else clock.dtime
    ⟨clock.timestamp+dtime,dtime⟩

end NgxRtmp.ChunkWriter
