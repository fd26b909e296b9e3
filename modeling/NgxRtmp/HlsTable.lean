import NgxRtmp.LiveTable

namespace NgxRtmp.HlsTable

open Cells
open LiveTable (Name)

-- ngx_rtmp_hls_stream_t and ngx_rtmp_hls_ctx_t; `next` is the link of the cell. A context stands for
-- its session.
structure Stream where
  name : Name
  ctx : Option Nat

structure Ctx where
  hlsStream : Option Nat
  publisher : Bool

def Stream.named (name : Name) : Stream := ⟨name,none⟩
def Ctx.zeroed : Ctx := ⟨none,false⟩

structure Conf where
  hash : Name → Nat
  hls : Bool
  path : List UInt8

structure Table where
  streams : Heap Stream
  contexts : Heap Ctx
  hlsStreams : Nat → Option Nat
  freeHlsStreams : Option Nat

def Table.initial : Table :=
  ⟨⟨fun _ => ⟨.named ⟨[],LiveTable.nil_fits⟩,none⟩,0⟩,⟨fun _ => ⟨.zeroed,none⟩,0⟩,fun _ => none,none⟩

def Table.stream (t : Table) (i : Nat) : Stream := t.streams.val i
def Table.context (t : Table) (a : Nat) : Ctx := t.contexts.val a

def Table.setStream (t : Table) (i : Nat) (change : Stream → Stream) : Table :=
  {t with streams:=t.streams.setVal i (change (t.stream i))}

def Table.setContext (t : Table) (a : Nat) (change : Ctx → Ctx) : Table :=
  {t with contexts:=t.contexts.setVal a (change (t.context a))}

def createStream (conf : Conf) (name : Name) (slot : Slot) (t : Table) : Table × Nat :=
  let bucket := conf.hash name
  match t.freeHlsStreams with
  | some i =>
    let streams := t.streams.store slot (some i)
    ({t with streams:=(streams.setVal i (.named name)).setNext i none,freeHlsStreams:=streams.next i,
             hlsStreams:=Function.update t.hlsStreams bucket (Slot.root slot (t.hlsStreams bucket) (some i))},i)
  | none =>
    let i := t.streams.top
    ({t with streams:=(t.streams.alloc (.named name)).store slot (some i),
             hlsStreams:=Function.update t.hlsStreams bucket (Slot.root slot (t.hlsStreams bucket) (some i))},i)

-- The walk of ngx_rtmp_hls_get_stream. Here and below nothing is returned when a
-- loop does not end.
def walk (conf : Conf) (t : Table) (name : Name) : Option (Slot × Option Nat) :=
  t.streams.seek (fun i => (t.stream i).name == name) t.streams.top none (t.hlsStreams (conf.hash name))

def getStream (conf : Conf) (name : Name) (create : Bool) (t : Table) : Option (Table × Slot × Option Nat) :=
  match walk conf t name with
  | none => none
  | some (slot,some i) => some (t,slot,some i)
  | some (slot,none) =>
    if create then
      let made := createStream conf name slot t
      some (made.1,slot,some made.2)
    else some (t,slot,none)

def link (a i : Nat) (t : Table) : Table :=
  let t := t.setContext a ({· with hlsStream:=some i})
  let t := {t with contexts:=t.contexts.setNext a (t.stream i).ctx}
  t.setStream i ({· with ctx:=some a})

def join (conf : Conf) (a : Nat) (name : Name) (publisher : Bool) (t : Table) : Option Table :=
  if (t.context a).hlsStream.isSome then some t
  else
    match getStream conf name publisher t with
    | none => none
    | some (t,_,none) => some t
    | some (t,_,some i) => some (link a i t)

-- A context that exists is zeroed but for its fragments, one that does not is
-- allocated zeroed.
def zeroContext (a : Nat) (t : Table) : Table :=
  {t with contexts:=(t.contexts.setVal a ⟨none,true⟩).setNext a none}

def Conf.serves (conf : Conf) : Bool := conf.hls && !conf.path.isEmpty

-- ngx_rtmp_hls_publish up to the names of its files, which may fail after the session has joined.
def publish (conf : Conf) (a : Nat) (name : Name) (autoPushed : Bool) (t : Table) : Option Table :=
  if conf.serves && !autoPushed then join conf a name true (zeroContext a t) else some t

-- `hls` is s->hls, which sessions of HLS clients have.
def play (conf : Conf) (a : Nat) (name : Name) (hls : Bool) (t : Table) : Option Table :=
  if hls && conf.serves then join conf a name false t else some t

def detach (a i : Nat) (t : Table) : Option Table :=
  match t.contexts.seek (· == a) t.contexts.top none (t.stream i).ctx with
  | none => none
  | some (_,none) => some t
  | some (slot,some _) =>
    let next := t.contexts.next a
    some {t.setStream i (fun s => {s with ctx:=Slot.root slot s.ctx next}) with contexts:=t.contexts.store slot next}

def deleteStream (conf : Conf) (a i : Nat) (t : Table) : Option Table :=
  let bucket := conf.hash (t.stream i).name
  match getStream conf (t.stream i).name false t with
  | none => none
  | some (t,_,none) => some t
  | some (t,slot,some j) =>
    let streams := t.streams.store slot (t.streams.next j)
    let t := {t with streams:=streams.setNext i t.freeHlsStreams,freeHlsStreams:=some i,
                     hlsStreams:=Function.update t.hlsStreams bucket (Slot.root slot (t.hlsStreams bucket) (t.streams.next j))}
    some (t.setContext a ({· with hlsStream:=none}))

def closeStream (conf : Conf) (a : Nat) (t : Table) : Option Table :=
  if conf.hls then
    match (t.context a).hlsStream with
    | none => some t
    | some i =>
      match detach a i t with
      | none => none
      | some t => if (t.stream i).ctx.isSome then some (t.setContext a ({· with hlsStream:=none})) else deleteStream conf a i t
  else some t

-- `accept` is a new session of the application.
inductive Event where
  | accept
  | publish (a : Nat) (name : Name) (autoPushed : Bool)
  | play (a : Nat) (name : Name) (hls : Bool)
  | close (a : Nat)

def handle (conf : Conf) (t : Table) : Event → Option Table
  | .accept => some {t with contexts:=t.contexts.alloc .zeroed}
  | .publish a name autoPushed => if a < t.contexts.top then publish conf a name autoPushed t else some t
  | .play a name hls => if a < t.contexts.top then play conf a name hls t else some t
  | .close a => if a < t.contexts.top then closeStream conf a t else some t

def step (conf : Conf) (state : Option Table) (event : Event) : Option Table := state.bind (handle conf · event)

def Contexts (t : Table) (i : Nat) (xs : List Nat) : Prop := Seg t.contexts (t.stream i).ctx xs none

structure Sound (t : Table) : Prop where
  acyclic : ∀ i, ∃ xs, Contexts t i xs ∧ xs.Nodup
  pointed : ∀ i xs a, Contexts t i xs → a ∈ xs → (t.context a).hlsStream = some i
  once : ∀ i j xs ys a, Contexts t i xs → Contexts t j ys → a ∈ xs → a ∈ ys → i = j

def Intact (state : Option Table) : Prop := ∃ t, state = some t ∧ Sound t

def Event.joins (a : Nat) : Event → Bool
  | .publish c _ _ | .play c _ _ => c == a
  | .accept | .close _ => false

def Closed (a : Nat) (events : List Event) : Prop :=
  ∃ front back, events = front ++ .close a::back ∧ ∀ event ∈ back, event.joins a = false

def Kept (conf : Conf) (events : List Event) : Prop :=
  ∃ t, events.foldl (step conf) (some .initial) = some t ∧ Sound t ∧
    ∀ a, Closed a events → ∀ i xs, Contexts t i xs → a ∉ xs

-- A publish that the module takes comes from a session that has not joined.
def unjoined (conf : Conf) (state : Option Table) : Event → Prop
  | .publish a _ autoPushed => ∀ t, state = some t → a < t.contexts.top → conf.serves = true → autoPushed = false →
      (t.context a).hlsStream = none
  | _ => True

end NgxRtmp.HlsTable
