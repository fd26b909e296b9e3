import NgxRtmp.Lib.Links
import NgxRtmp.SlotContents

namespace NgxRtmp.Shared
open Cells OutQueue Function

-- The count in front of the link and the room after NGX_RTMP_MAX_CHUNK_HEADER bytes.
structure Buf where
  ref : Nat
  size : Nat
  deriving DecidableEq, Repr

-- cscf->free of each server; `builds` and `puts` are history variables.
structure Pool where
  heap : Heap Buf
  free : Nat → Option Nat
  builds : Nat → Nat
  puts : Nat → Nat

-- A slot points to the first buffer; the bytes do not change up to the last use.
structure Packet where
  chain : Nat
  bytes : Chain
  deriving DecidableEq, Repr

instance : Outgoing Packet := ⟨Packet.bytes⟩

structure Session where
  server : Nat
  out : Output Packet

-- `builders` are the references outside the output queues. A closed session leaves `none`. `origin` is
-- a history variable.
structure System where
  pool : Pool
  bytes : Nat → Chain
  origin : Nat → Nat
  builders : List Nat
  sessions : List (Option Session)

def initial : System :=
  {pool:={heap:=⟨fun _ => ⟨⟨0,0⟩,none⟩,0⟩,free:=fun _ => none,builds:=fun _ => 0,puts:=fun _ => 0},
    bytes:=fun _ => ⟨[],[]⟩,origin:=fun _ => 0,builders:=[],sessions:=[]}

def Pool.size (p : Pool) (a : Nat) : Nat := (p.heap.val a).size

section Code
variable (chunkSize : Nat → Nat)

def allocSharedBuf (p : Pool) (cscf : Nat) : Nat × Pool :=
  match p.free cscf with
  | some out => (out,{p with
      heap:=(p.heap.setNext out none).setVal out {p.heap.val out with ref:=1},
      free:=update p.free cscf (p.heap.next out)})
  | none => (p.heap.top,{p with heap:=p.heap.alloc ⟨1,chunkSize cscf⟩})

-- The buffers that ngx_rtmp_append_shared_bufs links after the one it has.
def appendSharedBufs (p : Pool) (cscf last : Nat) : Nat → Pool
  | 0 => p
  | n+1 =>
    let (l,p) := allocSharedBuf chunkSize p cscf
    appendSharedBufs {p with heap:=p.heap.setNext last (some l)} cscf l n

def newSharedBufs (p : Pool) (cscf n : Nat) : Nat × Pool :=
  let (head,p) := allocSharedBuf chunkSize p cscf
  (head,appendSharedBufs chunkSize {p with builds:=update p.builds head (p.builds head+1)} cscf head n)

-- The count is a uint32_t in the source. No message stands in 2^32 slots.
def acquireSharedChain (p : Pool) (c : Nat) : Pool :=
  {p with heap:=p.heap.setVal c {p.heap.val c with ref:=(p.heap.val c).ref+1}}

-- Nothing comes back when the walk to the last buffer does not end.
def freeSharedChain (p : Pool) (cscf c : Nat) : Option Pool :=
  let ref := (p.heap.val c).ref
  let heap := p.heap.setVal c {p.heap.val c with ref:=ref-1}
  if ref = 1 then
    (heap.last heap.top c).map fun last =>
      {p with
        heap:=heap.setNext last (p.free cscf),
        free:=update p.free cscf (some c),
        puts:=update p.puts c (p.puts c+1)}
  else some {p with heap}

def freeSharedChains (cscf : Nat) : Pool → List Nat → Option Pool
  | p,[] => some p
  | p,c::rest => (freeSharedChain p cscf c).bind fun p => freeSharedChains cscf p rest

-- A message is built: ngx_rtmp_append_shared_bufs, then ngx_rtmp_prepare_message.
def build (s : System) (cscf : Nat) (bytes : Chain) : Nat × System :=
  let (head,pool) := newSharedBufs chunkSize s.pool cscf bytes.next.length
  (head,{s with
    pool,bytes:=update s.bytes head bytes,origin:=update s.origin head cscf,builders:=head::s.builders})

def drop (s : System) (cscf c : Nat) : Option System :=
  (freeSharedChain s.pool cscf c).map fun pool => {s with pool,builders:=s.builders.erase c}

-- The slot takes a reference before anything is sent; ngx_rtmp_send gives back finished slots.
def sendMessage (s : System) (i c priority : Nat) (socket : List SendResult) : Option (SendCode × System) :=
  match s.sessions[i]? with
  | some (some t) =>
    let packet : Packet := ⟨c,s.bytes c⟩
    let sent := OutQueue.sendMessage t.out packet priority socket
    let pool := if stored t.out priority then acquireSharedChain s.pool c else s.pool
    (freeSharedChains t.server pool ((freedByMessage t.out packet priority socket).map Packet.chain)).map fun pool =>
      (sent.1,{s with pool,sessions:=s.sessions.set i (some {t with out:=sent.2})})
  | _ => some (.again,s)

def writable (s : System) (i : Nat) (timedout : Bool) (socket : List SendResult) : Option System :=
  match s.sessions[i]? with
  | some (some t) =>
    (freeSharedChains t.server s.pool ((freedBySend t.out timedout socket).map Packet.chain)).map fun pool =>
      {s with pool,sessions:=s.sessions.set i (some {t with out:=send t.out timedout socket})}
  | _ => some s

def closeSessionHandler (s : System) (i : Nat) : Option System :=
  match s.sessions[i]? with
  | some (some t) =>
    (freeSharedChains t.server s.pool ((freedByClose t.out).map Packet.chain)).map fun pool =>
      {s with pool,sessions:=s.sessions.set i none}
  | _ => some s

def finalizeSession (s : System) (i : Nat) : System :=
  match s.sessions[i]? with
  | some (some t) => {s with sessions:=s.sessions.set i (some {t with out:=finalize t.out})}
  | _ => s

def setVirtualServer (s : System) (i cscf : Nat) : System :=
  match s.sessions[i]? with
  | some (some t) => {s with sessions:=s.sessions.set i (some {t with server:=cscf})}
  | _ => s

-- What ngx_rtmp_live_av takes from the publisher, with the message in both forms.
structure Av where
  cscf : Nat
  metadata : Option Nat
  header : Option Chain
  coheader : Option Chain
  relative : Chain
  absolute : Chain
  dummy : List UInt8
  prio : Nat
  mandatory : Bool

-- What the conditions of the loop come to, and the socket during each call.
structure Turn where
  session : Nat
  -- pctx == ctx || pctx->paused || pctx->hls
  passed : Bool
  -- meta_version != pctx->meta_version
  newMeta : Bool
  -- !cs->active, after the stream was synced
  inactive : Bool
  -- mandatory, or waiting for video or for a key frame
  waits : Bool
  dummyAudio : Bool
  onMeta : List SendResult
  onHeader : List SendResult
  onCoheader : List SendResult
  onDummy : List SendResult
  onPacket : List SendResult

-- The packets that the loop builds when the first subscriber needs them.
structure Packets where
  apkt : Option Nat
  aapkt : Option Nat
  acopkt : Option Nat
  deriving DecidableEq, Repr

def Packets.list (k : Packets) : List Nat := k.apkt.toList ++ k.aapkt.toList ++ k.acopkt.toList

def prepared (s : System) (cscf : Nat) (pkt : Option Nat) (bytes : Chain) : Nat × System :=
  match pkt with
  | some c => (c,s)
  | none => build chunkSize s cscf bytes

def sendMeta (av : Av) (t : Turn) (s : System) : Option System :=
  match av.metadata with
  | some c => if t.newMeta then (sendMessage s t.session c 0 t.onMeta).map Prod.snd else some s
  | none => some s

def prepareDummy (av : Av) (t : Turn) (s : System) (k : Packets) : System × Packets :=
  if t.dummyAudio then
    let (c,s) := prepared chunkSize s av.cscf k.aapkt ⟨av.dummy,[]⟩
    (s,{k with aapkt:=some c})
  else (s,k)

def sendDummy (t : Turn) (s : System) (k : Packets) : Option System :=
  match k.aapkt with
  | some c => if t.dummyAudio then (sendMessage s t.session c 0 t.onDummy).map Prod.snd else some s
  | none => some s

-- apkt, which is the codec header or the absolute packet
def sendApkt (av : Av) (t : Turn) (bytes : Chain) (prio : Nat) (socket : List SendResult) (s : System) (k : Packets) :
    Option (SendCode × System × Packets) :=
  let pkt := prepared chunkSize s av.cscf k.apkt bytes
  (sendMessage pkt.2 t.session pkt.1 prio socket).map fun (rc,s) => (rc,s,{k with apkt:=some pkt.1})

def sendAcopkt (av : Av) (t : Turn) (bytes : Chain) (s : System) (k : Packets) : Option (SendCode × System × Packets) :=
  let pkt := prepared chunkSize s av.cscf k.acopkt bytes
  (sendMessage pkt.2 t.session pkt.1 0 t.onCoheader).map fun (rc,s) => (rc,s,{k with acopkt:=some pkt.1})

def sendHeader (av : Av) (t : Turn) (s : System) (k : Packets) : Option (SendCode × System × Packets) :=
  match av.header with
  | some header => sendApkt chunkSize av t header 0 t.onHeader s k
  | none => some (.ok,s,k)

-- The codec headers of an inactive chunk stream. NGX_AGAIN ends the turn.
def sendHeaders (av : Av) (t : Turn) (s : System) (k : Packets) : Option (SendCode × System × Packets) :=
  (sendHeader chunkSize av t s k).bind fun (rc,s,k) =>
    match rc with
    | .again => some (.again,s,k)
    | .ok =>
      match av.coheader with
      | some coheader => sendAcopkt chunkSize av t coheader s k
      | none => (sendDummy t s k).map fun s => (.ok,s,k)

def sendRelative (av : Av) (rpkt : Nat) (t : Turn) (s : System) : Option System :=
  (sendMessage s t.session rpkt av.prio t.onPacket).map fun (rc,s) =>
    if rc = .again ∧ av.mandatory = true then finalizeSession s t.session else s

def sendAbsolute (av : Av) (t : Turn) (s : System) (k : Packets) : Option (System × Packets) :=
  (sendApkt chunkSize av t av.absolute av.prio t.onPacket s k).bind fun (rc,s,k) =>
    match rc with
    | .again => some (s,k)
    | .ok => (sendDummy t s k).map fun s => (s,k)

def broadcastOne (av : Av) (rpkt : Nat) (t : Turn) (s : System) (k : Packets) : Option (System × Packets) :=
  if t.passed then some (s,k)
  else (sendMeta av t s).bind fun s =>
    if t.inactive then
      if t.waits then some (s,k)
      else
        let (s,k) := prepareDummy chunkSize av t s k
        if av.header.isNone && av.coheader.isNone then sendAbsolute chunkSize av t s k
        else (sendHeaders chunkSize av t s k).bind fun (rc,s,k) =>
          match rc with
          | .again => some (s,k)
          | .ok => (sendRelative av rpkt t s).map fun s => (s,k)
    else (sendRelative av rpkt t s).map fun s => (s,k)

def broadcast (av : Av) (rpkt : Nat) : List Turn → System → Packets → Option (System × Packets)
  | [],s,k => some (s,k)
  | t::rest,s,k => (broadcastOne chunkSize av rpkt t s k).bind fun (s,k) => broadcast av rpkt rest s k

def dropAll (cscf : Nat) : System → List Nat → Option System
  | s,[] => some s
  | s,c::rest => (drop s cscf c).bind fun s => dropAll cscf s rest

def liveAv (s : System) (av : Av) (turns : List Turn) : Option System :=
  let (rpkt,s) := build chunkSize s av.cscf av.relative
  (broadcast chunkSize av rpkt turns s ⟨none,none,none⟩).bind fun (s,k) => dropAll av.cscf s (rpkt::k.list)

-- With out_queue 0 the first message would divide by zero.
structure QueueConf where
  outQueue : Nat
  outCork : Nat
  outBuffer : Bool
  positive : 0 < outQueue

-- `offer` and `drop` are of handlers that work on one session; an unheld chain is not passed on.
inductive Event where
  | accept (server : Nat) (hls : Bool) (conf : QueueConf)
  | build (server : Nat) (bytes : Chain)
  | offer (session c priority : Nat) (socket : List SendResult)
  | drop (server c : Nat)
  | av (av : Av) (turns : List Turn)
  | writable (session : Nat) (timedout : Bool) (socket : List SendResult)
  | close (session : Nat)
  | select (session server : Nat)

def handle (s : System) : Event → Option System
  | .accept server hls conf =>
    some {s with sessions:=s.sessions ++
      [some ⟨server,OutQueue.initial hls conf.outQueue conf.outCork conf.outBuffer⟩]}
  | .build server bytes => some (build chunkSize s server bytes).2
  | .offer session c priority socket =>
    if c ∈ s.builders then (sendMessage s session c priority socket).map Prod.snd else some s
  | .drop server c => if c ∈ s.builders then drop s server c else some s
  | .av av turns => if ∀ c ∈ av.metadata, c ∈ s.builders then liveAv chunkSize s av turns else some s
  | .writable session timedout socket => writable s session timedout socket
  | .close session => closeSessionHandler s session
  | .select session server => some (setVirtualServer s session server)

def step (state : Option System) (event : Event) : Option System := state.bind fun s => handle chunkSize s event

def run (events : List Event) : Option System := events.foldl (step chunkSize) (some initial)

end Code

def slots : Option Session → List Nat
  | some t => (occupied t.out).map Packet.chain
  | none => []

def System.references (s : System) (c : Nat) : Nat := s.builders.count c+(s.sessions.flatMap slots).count c

def Pool.cells (p : Pool) (c : Nat) : Option (List Nat) := p.heap.chain p.heap.top (some c)
def Pool.freeCells (p : Pool) (cscf : Nat) : Option (List Nat) := p.heap.chain p.heap.top (p.free cscf)

structure Counted (s : System) : Prop where
  count : ∀ c, s.references c ≠ 0 → (s.pool.heap.val c).ref = s.references c
  put : ∀ c, s.pool.builds c = s.pool.puts c+(if s.references c = 0 then 0 else 1)
  apart : ∀ c cscf, s.references c ≠ 0 → ∃ cells free, s.pool.cells c = some cells ∧ s.pool.freeCells cscf = some free ∧
    c ∈ cells ∧ ∀ x ∈ cells, x ∉ free

structure Homogeneous (chunkSize : Nat → Nat) (p : Pool) : Prop where
  free : ∀ cscf, ∃ cells, p.freeCells cscf = some cells ∧ ∀ x ∈ cells, p.size x = chunkSize cscf
  alloc : ∀ cscf, (allocSharedBuf chunkSize p cscf).2.size (allocSharedBuf chunkSize p cscf).1 = chunkSize cscf

end NgxRtmp.Shared
