import NgxRtmp.Billing
import NgxRtmp.BillingDaemon
import NgxRtmp.HlsRestore

namespace NgxRtmp.Billing
open Lines Paths BillingDaemon
open HlsRestore (bytes decimal)

structure Application where
  live : Bool
  streams : List (List Stream)
  deriving Repr

structure Server where
  applications : List Application
  deriving Repr

-- bmcf->srv_billing_bd; `old` is the block that ngx_rtmp_billing_sync still points to after a move.
structure Bd where
  entries : List Entry
  nalloc : Nat
  old : Option (List Entry)
  deriving Repr

-- What lies behind a name and behind the old block, and whether the pool extends the array in place.
structure Memory where
  beyond : Nat → Nat → UInt8
  behind : Nat → List UInt8
  wild : Nat → Entry
  inPlace : Nat → Bool

def through (f : σ → α → σ × α) : σ → List α → σ × List α
  | st,[] => (st,[])
  | st,x::xs =>
    let (st,x) := f st x
    let (st,xs) := through f st xs
    (st,x::xs)

-- ngx_array_push when the array is full
def grow (memory : Memory) (bd : Bd) : Bd :=
  if bd.entries.length = bd.nalloc then
    if memory.inPlace bd.nalloc then {bd with nalloc:=bd.nalloc+1}
    else {bd with nalloc:=2*bd.nalloc,old:=bd.old.or (some bd.entries)}
  else bd

def visit (memory : Memory) (bd : Bd) (s : Stream) : Bd × Stream :=
  let (entries,s) := credit memory.beyond bd.entries s
  ({(if bd.entries.length < entries.length then grow memory bd else bd) with entries},s)

def billingLive (memory : Memory) (bd : Bd) (app : Application) : Bd × Application :=
  if app.live then
    let (bd,streams) := through (through (visit memory)) bd app.streams
    (bd,{app with streams})
  else (bd,app)

def billingServer (memory : Memory) (bd : Bd) (server : Server) : Bd × Server :=
  let (bd,applications) := through (billingLive memory) bd server.applications
  (bd,{server with applications})

def shown (memory : Memory) (bd : Bd) (j : Nat) : Entry :=
  match bd.old with
  | none => bd.entries.getD j (memory.wild j)
  | some old => old.getD j (memory.wild j)

def shownName (memory : Memory) (j : Nat) (e : Entry) : List UInt8 := e.name.getD (e.text ++ memory.behind j)

-- "%lu": ngx_vslprintf takes %l, a signed number, and prints the u.
def longU (n : UInt64) : List UInt8 :=
  (if n.toNat < 2^63 then decimal n.toNat else 45::decimal (2^64-n.toNat)) ++ [117]

def line (now interval : Nat) (name : List UInt8) (e : Entry) : List UInt8 :=
  decimal now ++ tab::(decimal interval ++ tab::(bytes "rtmp://" ++ name ++ tab::(longU e.bdIn ++ tab::longU e.bdOut)))

def lines (memory : Memory) (now interval : Nat) (bd : Bd) : List (List UInt8) :=
  (List.range bd.entries.length).map fun j =>
    let e := shown memory bd j
    line now interval (shownName memory j e) e

def sendbufSize : Nat := 1024

def clearEntry (e : Entry) : Entry := {e with bdIn:=0,bdOut:=0}

-- The memsets go through srv_bd as well.
def clearAll (bd : Bd) : Bd :=
  match bd.old with
  | none => {bd with entries:=bd.entries.map clearEntry}
  | some _ => bd

structure State where
  servers : List Server
  bd : Bd

def gather (memory : Memory) (st : State) : Bd × List Server :=
  through (billingServer memory) {st.bd with old:=none} st.servers

-- A round that is connected and whose send takes the whole buffer: what is sent.
def sync (interval : Nat) (memory : Memory) (now : Nat) (st : State) : State × List UInt8 :=
  let (bd,servers) := gather memory st
  (⟨servers,clearAll bd⟩,(join newline (lines memory now interval bd)).take sendbufSize)

-- Bytes are counted, a stream enters, leaves, or gets another session in front.
inductive Change where
  | count (place : Nat) (incoming outgoing : UInt32)
  | session (place : Nat) (host port : List UInt8)
  | enter (host port : List UInt8)
  | leave (place : Nat)

def countBytes (incoming outgoing : UInt32) (s : Stream) : Stream :=
  {s with billingIn:=s.billingIn+incoming.toUInt64,billingOut:=s.billingOut+outgoing.toUInt64}

def Change.apply (bucket : List Stream) : Change → List Stream
  | .count place incoming outgoing => bucket.modify place (countBytes incoming outgoing)
  | .session place host port => bucket.modify place fun s => {s with host,port}
  | .enter host port => bucket ++ [⟨host,port,0,0⟩]
  | .leave place => bucket.eraseIdx place

inductive Event where
  | change (server app bucket : Nat) (change : Change)
  | sync (memory : Memory) (now : Nat)

def onBucket (servers : List Server) (server app bucket : Nat) (g : List Stream → List Stream) : List Server :=
  servers.modify server fun s => ⟨s.applications.modify app fun a => {a with streams:=a.streams.modify bucket g}⟩

def step (interval : Nat) (st : State) : Event → State
  | .change server app bucket change => {st with servers:=onBucket st.servers server app bucket (change.apply ·)}
  | .sync memory now => (sync interval memory now st).1

def run (interval : Nat) (st : State) (events : List Event) : State := events.foldl (step interval) st

def Application.visited (app : Application) : List Stream := if app.live then app.streams.flatten else []
def visited (servers : List Server) : List Stream := servers.flatMap fun s => s.applications.flatMap (·.visited)

def total (side : Side) (streams : List Stream) : Nat := (streams.map fun s => (s.bytes side).toNat).sum
def pending (side : Side) (servers : List Server) : Nat := total side (visited servers)

def dataBytes (data : BillingData) : Side → UInt64 := Side.pick data.bytesFromClient data.bytesToClient

def reported (side : Side) (text : List UInt8) : Nat :=
  ((readings (components newline text).dropLast).map fun data => (dataBytes data side).toNat).sum

def Change.traffic (side : Side) (bucket : List Stream) : Change → Nat
  | .count place incoming outgoing => if place < bucket.length then side.pick incoming.toNat outgoing.toNat else 0
  | _ => 0

def Change.lost (side : Side) (bucket : List Stream) : Change → Nat
  | .leave place => total side bucket[place]?.toList
  | _ => 0

def liveBucket (servers : List Server) (server app bucket : Nat) : List Stream :=
  match (servers[server]?.bind (·.applications[app]?)) with
  | some a => if a.live then a.streams[bucket]?.getD [] else []
  | none => []

def traffic (side : Side) (st : State) : Event → Nat
  | .change server app bucket change => change.traffic side (liveBucket st.servers server app bucket)
  | .sync _ _ => 0

def lost (side : Side) (st : State) : Event → Nat
  | .change server app bucket change => change.lost side (liveBucket st.servers server app bucket)
  | .sync _ _ => 0

def overRun (f : State → Event → Nat) (interval : Nat) : State → List Event → Nat
  | _,[] => 0
  | st,event::events => f st event+overRun f interval (step interval st event) events

def rounds (interval : Nat) : State → List Event → List (State × List UInt8)
  | _,[] => []
  | st,event::events =>
    let rest := rounds interval (step interval st event) events
    match event with
    | .sync memory now => (st,(sync interval memory now st).2)::rest
    | .change _ _ _ _ => rest

def Printable (s : Stream) : Prop := Fits s ∧ tab ∉ s.text ∧ newline ∉ s.text

-- No counter reaches 2^63; names are printable, the array stays, and the lines fit the buffer.
def Calm (interval : Nat) (st : State) : Event → Prop
  | .change server app bucket change =>
    ∀ side, pending side st.servers+change.traffic side (liveBucket st.servers server app bucket) < 2^63
  | .sync memory now =>
    (∀ s ∈ visited st.servers, Printable s) ∧
    ((creditAll memory.beyond st.bd.entries (visited st.servers)).length ≤ st.bd.nalloc ∨ ∀ n, memory.inPlace n = true) ∧
    (join newline (lines memory now interval (gather memory st).1)).length ≤ sendbufSize

def CalmRun (interval : Nat) : State → List Event → Prop
  | _,[] => True
  | st,event::events => Calm interval st event ∧ CalmRun interval (step interval st event) events

end NgxRtmp.Billing
