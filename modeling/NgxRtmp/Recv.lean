import NgxRtmp.ChunkHeader
import NgxRtmp.Lib.Cells

namespace NgxRtmp.Recv
open ChunkWriter ChunkHeader Octets Cells Function

-- One ngx_rtmp_receive_message call: the header and the buffers of the chain.
structure Delivery where
  h : Header
  chunks : List (List UInt8)
  deriving DecidableEq, Repr

def Delivery.payload (d : Delivery) : List UInt8 := d.chunks.flatten

inductive Code where
  | ok
  | done
  | error
  deriving DecidableEq, Repr

-- What a handler can do to the receiving side of its session.
inductive Effect where
  | chunkSize (size : Nat)
  | ackSize (value : UInt32)
  | server (conf : SrvConf)
  | finalize

abbrev Handler := List Delivery → Delivery → Code × List Effect

abbrev Events := Nat → List Handler

def msgMax : Nat := 22

-- ngx_rtmp_session_t as far as receiving goes, without buffers. `trace` is a
-- history variable.
structure Core where
  chans : Nat → Chan
  csid : Nat
  chunkSize : Nat
  changing : Bool
  inBytes : UInt32
  inLastAck : UInt32
  ackSize : UInt32
  cscf : SrvConf
  destroyed : Bool
  trace : List Delivery

-- After ngx_rtmp_init_session, whose own ngx_rtmp_set_chunk_size finds no pool.
def Core.initial (conf : SrvConf) (chunkSize : Nat) : Core :=
  ⟨fun _ => .empty,0,chunkSize,false,0,0,0,conf,false,[]⟩

def Core.chan (c : Core) : Chan := c.chans c.csid
def Core.setChan (c : Core) (chan : Chan) : Core := {c with chans:=update c.chans c.csid chan}
def Core.finalize (c : Core) : Core := {c with destroyed:=true}

-- in_bytes and the acknowledgement. The flag is false when ngx_rtmp_send_ack
-- was called and failed.
def Core.count (c : Core) (n : Nat) (acked : Bool) : Core × Bool :=
  let bytes := c.inBytes+UInt32.ofNat n
  let c := if 0xf0000000 ≤ bytes then {c with inBytes:=0,inLastAck:=0} else {c with inBytes:=bytes}
  if c.ackSize ≠ 0 ∧ c.ackSize ≤ c.inBytes-c.inLastAck then ({c with inLastAck:=c.inBytes},acked) else (c,true)

-- Bytes (with the fate of an acknowledgement sent for them), nothing for now, or an end.
inductive Read where
  | data (bytes : List UInt8) (acked : Bool)
  | again
  | closed

inductive Arrival where
  | bytes (bytes : List UInt8) (acked : Bool)
  | again
  | closed

-- c->recv(c, b->last, room). A read into no room looks like the end of file.
def takeRead (room : Nat) : List Read → Arrival × List Read
  | [] => (if room = 0 then .closed else .again,[])
  | .again::rest => (if room = 0 then .closed else .again,rest)
  | .closed::rest => (.closed,rest)
  | .data [] _::rest => takeRead room rest
  | .data (b::bytes) acked::rest =>
    if room = 0 then (.closed,.data (b::bytes) acked::rest)
    else if bytes.length < room then (.bytes (b::bytes) acked,rest)
    else (.bytes ((b::bytes).take room) acked,.data ((b::bytes).drop room) acked::rest)

-- Chain links in a heap and the pointer st->in of each stream; stream 0 has the free buffers.
structure Session where
  core : Core
  heap : Heap Buf
  links : Nat → Option Nat

def allocInBuf (chunkSize : Nat) : Buf :=
  ⟨List.replicate (chunkSize+maxChunkHeader) 0,0,0,chunkSize+maxChunkHeader⟩

def bytesOf (b : Buf) : List UInt8 := b.mem.take b.last

def Session.initial (conf : SrvConf) (chunkSize : Nat) : Session :=
  ⟨.initial conf chunkSize,⟨fun _ => ⟨⟨[],0,0,0⟩,none⟩,0⟩,fun _ => none⟩

def Session.buf (s : Session) (a : Nat) : Buf := s.heap.val a
def Session.setBuf (s : Session) (a : Nat) (b : Buf) : Session := {s with heap:=s.heap.setVal a b}
def Session.setLink (s : Session) (n : Nat) (p : Option Nat) : Session := {s with links:=update s.links n p}
def Session.finalize (s : Session) : Session := {s with core:=s.core.finalize}

-- The two copying loops of ngx_rtmp_set_chunk_size for one list; the second branch leaves bo->last
-- alone.
def repackLoop (chunkSize fli flo : Nat) : Nat → Heap Buf → Nat → Nat → Option (Heap Buf × Nat)
  | 0,_,_,_ => none
  | fuel+1,heap,li,lo =>
    let bi := heap.val li
    let bo := heap.val lo
    if bi.last-bi.pos ≤ bo.size-bo.last then
      let heap := heap.setVal lo (bo.append bi.contents)
      match heap.next li with
      | none => none
      | some next => if next = fli then some (heap.setNext lo (some flo),lo) else repackLoop chunkSize fli flo fuel heap next lo
    else
      let room := bo.size-bo.last
      let heap := heap.setVal lo (bo.write bo.last (bi.contents.take room))
      let heap := heap.setVal li {bi with pos:=bi.pos+room}
      let new := heap.top
      repackLoop chunkSize fli flo fuel ((heap.alloc (allocInBuf chunkSize)).setNext lo (some new)) li new

def repackFuel (heap : Heap Buf) : Nat :=
  ((List.range heap.top).map fun a => (heap.val a).contents.length+2).sum+2

def repackStream (s : Session) (n : Nat) : Session :=
  match (s.links n).bind s.heap.next with
  | none => s.setLink n none
  | some first =>
    let lo := s.heap.top
    match repackLoop s.core.chunkSize first lo (repackFuel s.heap) (s.heap.alloc (allocInBuf s.core.chunkSize)) first lo with
    | some (heap,last) => {s with heap,links:=update s.links n (some last)}
    | none => s

def setChunkSize (s : Session) (size : Nat) : Session :=
  let s := {s with core:={s.core with chunkSize:=size,changing:=true}}.setLink 0 none
  (List.range' 1 (s.core.cscf.maxStreams-1)).foldl repackStream s

def finalizeSetChunkSize (c : Core) : Core := if c.changing then {c with changing:=false} else c

def applyEffect (s : Session) : Effect → Session
  | .chunkSize size => setChunkSize s size
  | .ackSize value => {s with core:={s.core with ackSize:=value}}
  | .server conf => {s with core:={s.core with cscf:=conf}}
  | .finalize => s.finalize

-- The loop of ngx_rtmp_receive_message; the flag is rc == NGX_OK.
def callHandlers (apply : σ → Effect → σ) (history : List Delivery) (d : Delivery) : List Handler → σ → σ × Bool
  | [],s => (s,true)
  | handler::rest,s =>
    let (code,effects) := handler history d
    let s := effects.foldl apply s
    match code with
    | .error => (s,false)
    | .done => (s,true)
    | .ok => callHandlers apply history d rest s

-- A type beyond NGX_RTMP_MSG_MAX has no handlers and is no error.
def handlersOf (events : Events) (d : Delivery) : List Handler :=
  if msgMax < d.h.type.toNat then [] else events d.h.type.toNat

def Core.log (c : Core) (d : Delivery) : Core := {c with trace:=c.trace ++ [d]}

def receiveMessage (events : Events) (s : Session) (d : Delivery) : Session × Bool :=
  callHandlers applyEffect s.core.trace d (handlersOf events d) {s with core:=s.core.log d}

-- The locals of ngx_rtmp_recv that live through its loop.
structure Locals where
  conf : SrvConf
  oldPos : Option (Nat × Nat)
  oldSize : Nat

inductive Turn where
  | next (s : Session) (l : Locals) (socket : List Read)
  | stop (s : Session) (socket : List Read)

def acquire (s : Session) : Nat × Session :=
  match s.links s.core.csid with
  | some a => (a,s)
  | none => (s.heap.top,{s with
      heap:=s.heap.alloc (allocInBuf s.core.chunkSize),
      links:=update s.links s.core.csid (some s.heap.top)})

inductive Filled where
  | ready (s : Session) (socket : List Read)
  | stop (s : Session) (socket : List Read)

def reuse (s : Session) (a : Nat) (oldPos : Option (Nat × Nat)) (oldSize : Nat) : Session :=
  let bytes := match oldPos with
    | some (old,offset) => ((s.buf old).mem.drop offset).take oldSize
    | none => []
  let s := s.setBuf a {({s.buf a with pos:=0} : Buf).write 0 bytes with last:=oldSize}
  {s with core:=if s.core.changing then finalizeSetChunkSize s.core else s.core}

def fill (s : Session) (a : Nat) (l : Locals) (socket : List Read) : Filled :=
  if l.oldSize ≠ 0 then .ready (reuse s a l.oldPos l.oldSize) socket
  else
    let s := if l.oldPos.isSome then s.setBuf a {s.buf a with pos:=0,last:=0} else s
    let b := s.buf a
    match takeRead (b.size-b.last) socket with
    | (.closed,socket) => .stop s.finalize socket
    | (.again,socket) => .stop s socket
    | (.bytes bytes acked,socket) =>
      let s := s.setBuf a (b.append bytes)
      match s.core.count bytes.length acked with
      | (core,true) => .ready {s with core} socket
      | (core,false) => .stop ({s with core} : Session).finalize socket

-- link orphan: take the buffer from chunk stream 0 and make it the last one of
-- chunk stream csid.
def linkOrphan (s : Session) (a csid : Nat) : Session :=
  let s := s.setLink 0 (s.heap.next a)
  let heap := match s.links csid with
    | none => s.heap.setNext a (some a)
    | some last => (s.heap.setNext a (s.heap.next last)).setNext last (some a)
  {s with
    heap,links:=update s.links csid (some a),
    core:={s.core with
      csid,chans:=update s.core.chans csid {s.core.chans csid with
        hdr:={(s.core.chans csid).hdr with csid:=UInt32.ofNat csid}}}}

def collect (s : Session) (a : Nat) : Session :=
  let b := s.buf a
  let chan := s.core.chan
  let s := s.setBuf a {b with last:=b.pos+s.core.chunkSize}
  {s with core:={s.core.setChan {chan with len:=chan.len+UInt32.ofNat s.core.chunkSize} with csid:=0}}

-- The buffers from `head` to `a` go to stream #0 unless they are of an old chunk size.
def settle (s : Session) (a csid : Nat) (head : Option Nat) (oldSize : Nat) : Session :=
  let s := if s.core.changing then
      if oldSize = 0 then {s with core:=finalizeSetChunkSize s.core} else s
    else {s with
      heap:=s.heap.setNext a (s.links 0),
      links:=update (update s.links 0 head) csid none}
  {s with core:={s.core with csid:=0}}

def handle (events : Events) (s : Session) (a : Nat) (l : Locals) (socket : List Read) : Turn :=
  let b := s.buf a
  let chan := s.core.chan
  let csid := s.core.csid
  let fsize := chan.fsize
  let oldSize := b.last-b.pos-fsize
  let head := s.heap.next a
  let chan := {chan with len:=0,hdr:={chan.hdr with timestamp:=chan.hdr.timestamp+chan.dtime}}
  let s := {s with
    heap:=(s.heap.setNext a none).setVal a {b with last:=b.pos+fsize},
    core:=s.core.setChan chan}
  let d := ⟨chan.hdr,(s.heap.follow (s.heap.top+1) head).map fun x => (s.buf x).contents⟩
  match receiveMessage events s d with
  | (s,false) => .stop s.finalize socket
  | (s,true) => .next (settle s a csid head oldSize) {l with oldPos:=some (a,b.pos+fsize),oldSize} socket

def payload (events : Events) (s : Session) (a : Nat) (l : Locals) (socket : List Read) : Turn :=
  let b := s.buf a
  let fsize := s.core.chan.fsize
  let size := b.last-b.pos
  if size < min fsize s.core.chunkSize then .next s {l with oldPos:=none,oldSize:=0} socket
  else if s.core.chunkSize < fsize then
    .next (collect s a) {l with oldPos:=some (a,b.pos+s.core.chunkSize),oldSize:=size-s.core.chunkSize} socket
  else handle events s a l socket

-- `cscf` is fetched once per call, so a handler that selects a server does not change l.conf.
def readHeader (events : Events) (s : Session) (a : Nat) (l : Locals) (socket : List Read) (fmt size : Nat) : Turn :=
  let b := s.buf a
  match messageHead l.conf.publishTimeFix fmt s.core.chan ((bytesOf b).drop size) with
  | (chan,none) => .next {s with core:=s.core.setChan chan} {l with oldPos:=none,oldSize:=0} socket
  | (chan,some more) =>
    let s := {s.setBuf a {b with pos:=size+more} with core:=s.core.setChan chan}
    if l.conf.maxMessage < chan.hdr.mlen.toNat then .stop s.finalize socket
    else payload events s a l socket

-- From `parse headers` on, with the current buffer at hand.
def parse (events : Events) (s : Session) (a : Nat) (l : Locals) (socket : List Read) : Turn :=
  if (s.buf a).pos = 0 then
    match basicHead (bytesOf (s.buf a)) with
    | none => .next s {l with oldPos:=none,oldSize:=0} socket
    | some (fmt,csid,size) =>
      if l.conf.maxStreams ≤ csid then .stop s.finalize socket
      else readHeader events (if s.core.csid = 0 then linkOrphan s a csid else s) a l socket fmt size
  else payload events s a l socket

def turn (events : Events) (s : Session) (l : Locals) (socket : List Read) : Turn :=
  let (a,s) := acquire s
  match fill s a l socket with
  | .stop s socket => .stop s socket
  | .ready s socket => parse events s a l socket

-- The connection between its events: `loop` is present inside ngx_rtmp_recv.
structure Config where
  s : Session
  loop : Option Locals
  socket : List Read

def step (events : Events) (c : Config) : Config :=
  match c.loop with
  | none => if c.s.core.destroyed || c.socket.isEmpty then c else {c with loop:=some ⟨c.s.core.cscf,none,0⟩}
  | some l =>
    match turn events c.s l c.socket with
    | .next s l socket => ⟨s,some l,socket⟩
    | .stop s socket => ⟨s,none,socket⟩

def start (conf : SrvConf) (chunkSize : Nat) (socket : List Read) : Config := ⟨.initial conf chunkSize,none,socket⟩

def run (events : Events) (c : Config) (n : Nat) : Config := (List.replicate n ()).foldl (fun c _ => step events c) c

-- ngx_rtmp_protocol_message_handler: only the first buffer is looked at.
def protocolMessageHandler : Handler := fun _ d =>
  match d.chunks.headD [] with
  | b0::b1::b2::b3::_ =>
    let val := word b3 b2 b1 b0
    match d.h.type.toNat with
    | 1 => (.ok,[.chunkSize val.toNat])
    | 2 => (.ok,[])
    | 3 => (.ok,[])
    | 5 => (.ok,[.ackSize val])
    | 6 => (.ok,[])
    | _ => (.error,[])
  | _ => (.ok,[])

end NgxRtmp.Recv
