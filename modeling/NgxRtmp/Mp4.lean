import Mathlib

namespace NgxRtmp.Mp4

structure TimeEntry where
  sampleCount : UInt32
  sampleDelta : UInt32

structure DelayEntry where
  sampleCount : UInt32
  sampleOffset : UInt32

structure ChunkEntry where
  firstChunk : UInt32
  samplesPerChunk : UInt32

structure Sizes where
  sampleSize : UInt32
  sampleCount : UInt32
  entries : List UInt32

-- The entry counts are the lengths of the lists; of stz2 only the sample count is read.
structure Track where
  timeScale : Nat
  times : Option (List TimeEntry)
  delays : Option (List DelayEntry)
  keys : Option (List UInt32)
  chunks : Option (List ChunkEntry)
  sizes : Option Sizes
  sizes2 : Option UInt32
  offsets : Option (List UInt32)
  offsets64 : Option (List UInt64)

structure Cursor where
  timestamp : UInt32 := 0
  lastTimestamp : UInt32 := 0
  offset : UInt64 := 0
  size : Nat := 0
  key : Bool := false
  delay : UInt32 := 0
  notFirst : Bool := false
  valid : Bool := false
  pos : Nat := 0
  keyPos : Nat := 0
  chunk : Nat := 0
  chunkPos : Nat := 0
  chunkCount : Nat := 0
  timePos : Nat := 0
  timeCount : Nat := 0
  delayPos : Nat := 0
  delayCount : Nat := 0
  sizePos : Nat := 0
  deriving DecidableEq

-- Each function gives back whether it returned NGX_OK; the cursor keeps what was
-- changed before an error.
abbrev Moved := Bool × Cursor

def nextTime (t : Track) (cr : Cursor) : Moved :=
  match t.times with
  | none => (false,cr)
  | some times =>
    match times[cr.timePos]? with
    | none => (false,cr)
    | some te =>
      let cr := {cr with lastTimestamp:=cr.timestamp,timestamp:=cr.timestamp+te.sampleDelta,notFirst:=true
                         timeCount:=cr.timeCount+1,pos:=cr.pos+1}
      if cr.timeCount ≥ te.sampleCount.toNat then (true,{cr with timePos:=cr.timePos+1,timeCount:=0}) else (true,cr)

-- The loop of ngx_rtmp_mp4_seek_time over the entries that are left, in 32 bits.
def seekTimeLoop (timestamp : UInt32) : List TimeEntry → Cursor → Moved
  | [],cr => (true,cr)
  | te::rest,cr =>
    let dt := te.sampleDelta*te.sampleCount
    if cr.timestamp+dt ≥ timestamp then
      if te.sampleDelta = 0 then (false,cr)
      else
        let count := (timestamp-cr.timestamp)/te.sampleDelta
        (true,{cr with timeCount:=count.toNat,timestamp:=cr.timestamp+te.sampleDelta*count,pos:=cr.pos+count.toNat})
    else seekTimeLoop timestamp rest {cr with timestamp:=cr.timestamp+dt,pos:=cr.pos+te.sampleCount.toNat,timePos:=cr.timePos+1}

def seekTime (t : Track) (timestamp : UInt32) (cr : Cursor) : Moved :=
  match t.times with
  | none => (false,cr)
  | some times =>
    match seekTimeLoop timestamp times cr with
    | (false,cr) => (false,cr)
    | (true,cr) => (decide (cr.timePos < times.length),cr)

def updateOffset (t : Track) (cr : Cursor) : Moved :=
  if cr.chunk < 1 then (false,cr)
  else
    match t.offsets with
    | some offsets =>
      match offsets[cr.chunk-1]? with
      | none => (false,cr)
      | some offset => (true,{cr with offset:=offset.toUInt64,size:=0})
    | none =>
      match t.offsets64 with
      | none => (false,cr)
      | some offsets64 =>
        match offsets64[cr.chunk-1]? with
        | none => (false,cr)
        | some offset => (true,{cr with offset:=offset,size:=0})

def nextChunk (t : Track) (cr : Cursor) : Moved :=
  match t.chunks with
  | none => (true,cr)
  | some chunks =>
    match chunks[cr.chunkPos]? with
    | none => (false,cr)
    | some ce =>
      if cr.chunkCount+1 ≥ ce.samplesPerChunk.toNat then
        let cr := {cr with chunkCount:=0,chunk:=cr.chunk+1}
        match chunks[cr.chunkPos+1]? with
        | some nce => updateOffset t (if cr.chunk ≥ nce.firstChunk.toNat then {cr with chunkPos:=cr.chunkPos+1} else cr)
        | none => updateOffset t cr
      else (true,{cr with chunkCount:=cr.chunkCount+1})

-- The entry a position is in, its number and the position of its first sample.
def seekChunkLoop (target : Nat) : ChunkEntry → List ChunkEntry → Nat → Nat → ChunkEntry × Nat × Nat
  | ce,[],chunkPos,pos => (ce,chunkPos,pos)
  | ce,nce::rest,chunkPos,pos =>
    let dpos := ((nce.firstChunk-ce.firstChunk)*ce.samplesPerChunk).toNat
    if pos+dpos > target then (ce,chunkPos,pos) else seekChunkLoop target nce rest (chunkPos+1) (pos+dpos)

def seekChunk (t : Track) (cr : Cursor) : Moved :=
  match t.chunks with
  | none | some [] => (true,{cr with chunk:=1})
  | some (ce::rest) =>
    let (ce,chunkPos,pos) := seekChunkLoop cr.pos ce rest cr.chunkPos 0
    if ce.samplesPerChunk = 0 then (false,{cr with chunkPos:=chunkPos})
    else
      let dchunk := (cr.pos-pos)/ce.samplesPerChunk.toNat
      updateOffset t {cr with chunk:=ce.firstChunk.toNat+dchunk,chunkPos:=chunkPos
                              chunkCount:=cr.pos-pos-dchunk*ce.samplesPerChunk.toNat}

def nextSize (t : Track) (cr : Cursor) : Moved :=
  let cr := {cr with offset:=cr.offset+UInt64.ofNat cr.size}
  match t.sizes with
  | some sizes =>
    if sizes.sampleSize ≠ 0 then (true,{cr with size:=sizes.sampleSize.toNat})
    else
      let cr := {cr with sizePos:=cr.sizePos+1}
      if cr.sizePos ≥ sizes.sampleCount.toNat then (false,cr)
      else (true,{cr with size:=(sizes.entries[cr.sizePos]?.getD 0).toNat})
  | none =>
    match t.sizes2 with
    | some sampleCount => (decide (cr.sizePos < sampleCount.toNat),cr)
    | none => (false,cr)

def seekSize (t : Track) (cr : Cursor) : Moved :=
  if cr.chunkCount > cr.pos then (false,cr)
  else
    match t.sizes with
    | some sizes =>
      if sizes.sampleSize ≠ 0 then
        let size := sizes.sampleSize.toNat
        (true,{cr with size:=size,offset:=cr.offset+UInt64.ofNat (size*cr.chunkCount)})
      else if cr.pos ≥ sizes.sampleCount.toNat then (false,cr)
      else
        -- the samples of the chunk before this one, from the last to the first
        let before := (List.range cr.chunkCount).map fun i => (sizes.entries[cr.pos-(i+1)]?.getD 0).toNat
        (true,{cr with offset:=before.foldl (fun sum size => sum+UInt64.ofNat size) cr.offset
                       sizePos:=cr.pos,size:=(sizes.entries[cr.pos]?.getD 0).toNat})
    | none =>
      match t.sizes2 with
      | some sampleCount => if cr.sizePos ≥ sampleCount.toNat then (false,cr) else (true,{cr with sizePos:=cr.pos})
      | none => (false,cr)

def nextKey (t : Track) (cr : Cursor) : Moved :=
  match t.keys with
  | none => (true,cr)
  | some keys =>
    let cr := if cr.key then {cr with keyPos:=cr.keyPos+1} else cr
    match keys[cr.keyPos]? with
    | none => (true,{cr with key:=false})
    | some ke => (true,{cr with key:=cr.pos+1 == ke.toNat})

-- ngx_rtmp_mp4_next_time called over and over, its result not looked at.
def nextTimes (t : Track) : Nat → Cursor → Cursor
  | 0,cr => cr
  | dpos+1,cr => nextTimes t dpos (nextTime t cr).2

def seekKey (t : Track) (cr : Cursor) : Moved :=
  match t.keys with
  | none => (true,cr)
  | some keys =>
    -- past every key sample up to the position
    let keyPos := cr.keyPos+((keys.drop cr.keyPos).takeWhile fun ke => ke.toNat ≤ cr.pos).length
    match keys[keyPos]? with
    | none => (true,{cr with keyPos:=keyPos})
    | some ke => (true,nextTimes t (ke.toNat-cr.pos-1) {cr with keyPos:=keyPos,key:=true})

def nextDelay (t : Track) (cr : Cursor) : Moved :=
  match t.delays with
  | none => (true,cr)
  | some delays =>
    match delays[cr.delayPos]? with
    | none => (true,cr)
    | some de =>
      let cr :=
        if cr.delayCount+1 ≥ de.sampleCount.toNat then {cr with delayPos:=cr.delayPos+1,delayCount:=0}
        else {cr with delayCount:=cr.delayCount+1}
      match delays[cr.delayPos]? with
      | none => (true,cr)
      | some de => (true,{cr with delay:=de.sampleOffset})

def seekDelayLoop : List DelayEntry → UInt32 → Cursor → Cursor
  | [],_,cr => cr
  | de::rest,pos,cr =>
    if (pos+de.sampleCount).toNat > cr.pos then {cr with delayCount:=cr.pos-pos.toNat,delay:=de.sampleOffset}
    else seekDelayLoop rest (pos+de.sampleCount) {cr with delayPos:=cr.delayPos+1}

def seekDelay (t : Track) (cr : Cursor) : Moved :=
  match t.delays with
  | none => (true,cr)
  | some delays => (true,seekDelayLoop delays 0 cr)

-- C's || over the calls: the first error ends it.
def andThen (moved : Moved) (f : Cursor → Moved) : Moved :=
  match moved with
  | (true,cr) => f cr
  | (false,cr) => (false,cr)

def next (t : Track) (cr : Cursor) : Moved :=
  let moved := andThen (andThen (andThen (andThen (nextTime t cr) (nextKey t)) (nextChunk t)) (nextSize t)) (nextDelay t)
  (moved.1,{moved.2 with valid:=moved.1})

def fromRtmpTimestamp (t : Track) (ts : UInt32) : UInt32 := UInt32.ofNat (ts.toNat*t.timeScale/1000)

def seekTrack (t : Track) (timestamp : UInt32) : Moved :=
  let moved := andThen (andThen (andThen (andThen (seekTime t (fromRtmpTimestamp t timestamp) {}) (seekKey t))
    (seekChunk t)) (seekSize t)) (seekDelay t)
  if moved.1 then (true,{moved.2 with valid:=true}) else moved

def iterate (t : Track) : Nat → Moved
  | 0 => seekTrack t 0
  | k+1 => next t (iterate t k).2

end NgxRtmp.Mp4
