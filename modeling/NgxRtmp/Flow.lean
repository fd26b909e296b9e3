import NgxRtmp.Recv

namespace NgxRtmp.Flow
open ChunkWriter ChunkHeader Recv Function

-- The receiver without buffers: finished chunks of each stream, the bytes of the current chunk, and
-- the end of its header.
structure State where
  core : Core
  chunks : Nat → List (List UInt8)
  bytes : List UInt8
  pos : Nat

def capacity (chunkSize : Nat) : Nat := chunkSize+maxChunkHeader

-- The bytes that went into the room left are not counted by the target buffer. A longer input leaves
-- empty buffers.
def spill (cap : Nat) : Nat → List UInt8 → List (List UInt8) × List UInt8
  | 0,rest => ([],rest)
  | fuel+1,rest =>
    if rest.length ≤ cap then ([],rest)
    else
      let (empty,rest) := spill cap fuel (rest.drop cap)
      ([]::empty,rest)

def pack (cap : Nat) : List UInt8 → List (List UInt8) → List (List UInt8)
  | cur,[] => [cur]
  | cur,chunk::rest =>
    if chunk.length ≤ cap-cur.length then pack cap (cur ++ chunk) rest
    else
      let (empty,left) := spill cap chunk.length (chunk.drop (cap-cur.length))
      cur::(empty ++ pack cap left rest)

def repack (cap : Nat) : List (List UInt8) → List (List UInt8)
  | [] => []
  | chunk::rest => pack cap [] (chunk::rest)

def State.setChunkSize (f : State) (size : Nat) : State :=
  {f with
    core:={f.core with chunkSize:=size,changing:=true},
    chunks:=fun n =>
      if 1 ≤ n ∧ n < f.core.cscf.maxStreams then
        if n = f.core.csid then [] else repack (capacity size) (f.chunks n)
      else f.chunks n}

def State.finalize (f : State) : State := {f with core:=f.core.finalize}

def State.applyEffect (f : State) : Effect → State
  | .chunkSize size => f.setChunkSize size
  | .ackSize value => {f with core:={f.core with ackSize:=value}}
  | .server conf => {f with core:={f.core with cscf:=conf}}
  | .finalize => f.finalize

def State.receiveMessage (events : Events) (f : State) (d : Delivery) : State × Bool :=
  callHandlers State.applyEffect f.core.trace d (handlersOf events d) {f with core:=f.core.log d}

-- `reuse` says that the bytes at hand are a leftover and are parsed before the
-- socket is asked again.
inductive Turn where
  | next (f : State) (reuse : Bool) (socket : List Read)
  | stop (f : State) (socket : List Read)

inductive Parsed where
  | turn (t : Turn)
  | message (f : State) (socket : List Read)

inductive Filled where
  | ready (f : State) (socket : List Read)
  | stop (f : State) (socket : List Read)

def fill (f : State) (reuse : Bool) (socket : List Read) : Filled :=
  if reuse then .ready {f with core:=if f.core.changing then finalizeSetChunkSize f.core else f.core} socket
  else match takeRead (capacity f.core.chunkSize-f.bytes.length) socket with
    | (.closed,socket) => .stop f.finalize socket
    | (.again,socket) => .stop f socket
    | (.bytes bytes acked,socket) =>
      match f.core.count bytes.length acked with
      | (core,true) => .ready {f with core,bytes:=f.bytes ++ bytes} socket
      | (core,false) => .stop ({f with core,bytes:=f.bytes ++ bytes} : State).finalize socket

def link (c : Core) (csid : Nat) : Core :=
  {c with csid,chans:=update c.chans csid {c.chans csid with
    hdr:={(c.chans csid).hdr with csid:=UInt32.ofNat csid}}}

def collect (f : State) : State :=
  let chan := f.core.chan
  {core:={f.core.setChan {chan with len:=chan.len+UInt32.ofNat f.core.chunkSize} with csid:=0},
    chunks:=update f.chunks f.core.csid (f.chunks f.core.csid ++ [(f.bytes.drop f.pos).take f.core.chunkSize]),
    bytes:=f.bytes.drop (f.pos+f.core.chunkSize),pos:=0}

def delivery (f : State) : Delivery :=
  ⟨{f.core.chan.hdr with timestamp:=f.core.chan.hdr.timestamp+f.core.chan.dtime},
    f.chunks f.core.csid ++ [(f.bytes.drop f.pos).take f.core.chan.fsize]⟩

def taken (f : State) : State := {f with core:=f.core.setChan {f.core.chan with len:=0,hdr:=(delivery f).h}}

def settle (f : State) (csid : Nat) (left : List UInt8) : State :=
  let f := if f.core.changing then
      if left = [] then {f with core:=finalizeSetChunkSize f.core} else f
    else {f with chunks:=update f.chunks csid []}
  {f with core:={f.core with csid:=0},bytes:=left,pos:=0}

def handle (events : Events) (f : State) (socket : List Read) : Turn :=
  let left := f.bytes.drop (f.pos+f.core.chan.fsize)
  match (taken f).receiveMessage events (delivery f) with
  | (done,false) => .stop {done with chunks:=update done.chunks f.core.csid [],pos:=0}.finalize socket
  | (done,true) => .next (settle done f.core.csid left) (left ≠ []) socket

def payload (f : State) (socket : List Read) : Parsed :=
  let fsize := f.core.chan.fsize
  if f.bytes.length-f.pos < min fsize f.core.chunkSize then .turn (.next f false socket)
  else if f.core.chunkSize < fsize then
    .turn (.next (collect f) (f.bytes.drop (f.pos+f.core.chunkSize) ≠ []) socket)
  else .message f socket

def readHeader (conf : SrvConf) (f : State) (socket : List Read) (fmt size : Nat) : Parsed :=
  match messageHead conf.publishTimeFix fmt f.core.chan (f.bytes.drop size) with
  | (chan,none) => .turn (.next {f with core:=f.core.setChan chan} false socket)
  | (chan,some more) =>
    let f := {f with core:=f.core.setChan chan,pos:=size+more}
    if conf.maxMessage < chan.hdr.mlen.toNat then .turn (.stop f.finalize socket)
    else payload f socket

def parse (conf : SrvConf) (f : State) (socket : List Read) : Parsed :=
  if f.pos = 0 then
    match basicHead f.bytes with
    | none => .turn (.next f false socket)
    | some (fmt,csid,size) =>
      if conf.maxStreams ≤ csid then .turn (.stop f.finalize socket)
      else readHeader conf {f with core:=if f.core.csid = 0 then link f.core csid else f.core} socket fmt size
  else payload f socket

def advance (conf : SrvConf) (f : State) (reuse : Bool) (socket : List Read) : Parsed :=
  match fill f reuse socket with
  | .stop f socket => .turn (.stop f socket)
  | .ready f socket => parse conf f socket

def Parsed.finish (events : Events) : Parsed → Turn
  | .turn t => t
  | .message f socket => handle events f socket

def Parsed.all (test : State → Bool) : Parsed → Bool
  | .turn _ => true
  | .message f _ => test f

def turn (events : Events) (conf : SrvConf) (f : State) (reuse : Bool) (socket : List Read) : Turn :=
  (advance conf f reuse socket).finish events

structure Config where
  f : State
  loop : Option (SrvConf × Bool)
  socket : List Read

def step (events : Events) (c : Config) : Config :=
  match c.loop with
  | none => if c.f.core.destroyed || c.socket.isEmpty then c else {c with loop:=some (c.f.core.cscf,false)}
  | some (conf,reuse) =>
    match turn events conf c.f reuse c.socket with
    | .next f reuse socket => ⟨f,some (conf,reuse),socket⟩
    | .stop f socket => ⟨f,none,socket⟩

def run (events : Events) (c : Config) (n : Nat) : Config := (List.replicate n ()).foldl (fun c _ => step events c) c

def start (conf : SrvConf) (chunkSize : Nat) (socket : List Read) : Config :=
  ⟨⟨.initial conf chunkSize,fun _ => [],[],0⟩,none,socket⟩

end NgxRtmp.Flow
