import NgxRtmp.Lib.Links
import NgxRtmp.Lib.Runs

namespace NgxRtmp.LiveTable

open Cells

-- An array of NGX_RTMP_MAX_NAME bytes, in commands as in streams.
structure Name where
  bytes : List UInt8
  fits : bytes.length < 256
  deriving DecidableEq

-- ngx_rtmp_live_stream_t and ngx_rtmp_live_ctx_t; `next` is the link of the cell. A context stands for
-- its session.
structure Stream where
  name : Name
  ctx : Option Nat
  publishing : Bool
  timerSet : Bool

structure Ctx where
  stream : Option Nat
  publishing : Bool

def Stream.named (name : Name) : Stream := ⟨name,none,false,false⟩
def Ctx.zeroed : Ctx := ⟨none,false⟩

structure Conf where
  hash : Name → Nat
  idleStreams : Bool

-- ngx_rtmp_live_app_conf_t: `buckets` is lacf->streams.
structure Table where
  streams : Heap Stream
  contexts : Heap Ctx
  buckets : Nat → Option Nat
  freeStreams : Option Nat

theorem nil_fits : ([] : List UInt8).length < 256 := by decide

def Table.initial : Table :=
  ⟨⟨fun _ => ⟨.named ⟨[],nil_fits⟩,none⟩,0⟩,⟨fun _ => ⟨.zeroed,none⟩,0⟩,fun _ => none,none⟩

def Table.stream (t : Table) (i : Nat) : Stream := t.streams.val i
def Table.context (t : Table) (a : Nat) : Ctx := t.contexts.val a

def Table.setStream (t : Table) (i : Nat) (change : Stream → Stream) : Table :=
  {t with streams:=t.streams.setVal i (change (t.stream i))}

def Table.zeroContext (t : Table) (a : Nat) : Table :=
  {t with contexts:=(t.contexts.setVal a .zeroed).setNext a none}

def Table.setContext (t : Table) (a : Nat) (change : Ctx → Ctx) : Table :=
  {t with contexts:=t.contexts.setVal a (change (t.context a))}

-- The walk of ngx_rtmp_live_get_stream. Here and below nothing is returned when a
-- loop does not end.
def getStream (conf : Conf) (t : Table) (name : Name) : Option (Slot × Option Nat) :=
  t.streams.seek (fun i => (t.stream i).name == name) t.streams.top none (t.buckets (conf.hash name))

def createStream (conf : Conf) (name : Name) (slot : Slot) (t : Table) : Table × Nat :=
  let bucket := conf.hash name
  match t.freeStreams with
  | some i =>
    let streams := t.streams.store slot (some i)
    ({t with streams:=(streams.setVal i (.named name)).setNext i none,freeStreams:=streams.next i,
             buckets:=Function.update t.buckets bucket (Slot.root slot (t.buckets bucket) (some i))},i)
  | none =>
    let i := t.streams.top
    ({t with streams:=(t.streams.alloc (.named name)).store slot (some i),
             buckets:=Function.update t.buckets bucket (Slot.root slot (t.buckets bucket) (some i))},i)

def checkingPublish (t : Table) (i : Nat) : Table := t.setStream i ({· with timerSet:=true})

-- The last part of ngx_rtmp_live_join; `relaying` is the answer of ngx_rtmp_relay_relaying.
def attach (a i : Nat) (publisher : Bool) (t : Table) : Table :=
  let t := if publisher then t.setStream i ({· with publishing:=true,timerSet:=false}) else t
  let t := t.setContext a fun _ => ⟨some i,publisher⟩
  let t := {t with contexts:=t.contexts.setNext a (t.stream i).ctx}
  t.setStream i ({· with ctx:=some a})

def link (a i : Nat) (publisher relaying : Bool) (t : Table) : Table :=
  let t := attach a i publisher t
  if !publisher && !(t.stream i).publishing && !relaying then checkingPublish t i else t

-- ngx_rtmp_live_join. A player that finds no stream is finalized, a second publisher gets an error.
def join (conf : Conf) (a : Nat) (name : Name) (publisher relayed relaying : Bool) (t : Table) : Option Table :=
  if (t.context a).stream.isSome then some t
  else
    let t := t.zeroContext a
    match getStream conf t name with
    | none => none
    | some (slot,none) =>
      if publisher || conf.idleStreams || relayed then
        let (t,i) := createStream conf name slot t
        some (link a i publisher relaying t)
      else some t
    | some (_,some i) =>
      if !(publisher || (t.stream i).publishing || conf.idleStreams || relayed) then some t
      else if publisher && (t.stream i).publishing then some t
      else some (link a i publisher relaying t)

-- Without idle_streams the loop only finalizes sessions, which are closed later.
def unpublish (conf : Conf) (i : Nat) (t : Table) : Option Table :=
  match t.contexts.chain t.contexts.top (t.stream i).ctx with
  | none => none
  | some rest =>
    if conf.idleStreams && rest.any (fun c => !(t.context c).publishing) then some (checkingPublish t i) else some t

def deleteStream (conf : Conf) (a i : Nat) (t : Table) : Option Table :=
  let t := t.setStream i ({· with timerSet:=false})
  let bucket := conf.hash (t.stream i).name
  match getStream conf t (t.stream i).name with
  | none => none
  | some (_,none) => some t
  | some (slot,some j) =>
    let streams := t.streams.store slot (t.streams.next j)
    let t := {t with streams:=streams.setNext i t.freeStreams,freeStreams:=some i,
                     buckets:=Function.update t.buckets bucket (Slot.root slot (t.buckets bucket) (t.streams.next j))}
    some (t.setContext a ({· with stream:=none}))

-- The first part of ngx_rtmp_live_close_stream: the flag, and the unlinking.
def detach (a i : Nat) (t : Table) : Option Table :=
  let ctx := t.context a
  let t := t.setStream i fun s => {s with publishing:=s.publishing && !ctx.publishing}
  match t.contexts.seek (· == a) t.contexts.top none (t.stream i).ctx with
  | none => none
  | some (_,none) => some t
  | some (slot,some _) =>
    let next := t.contexts.next a
    some {t.setStream i (fun s => {s with ctx:=Slot.root slot s.ctx next}) with contexts:=t.contexts.store slot next}

def close (conf : Conf) (a : Nat) (t : Table) : Option Table :=
  match (t.context a).stream with
  | none => some t
  | some i =>
    match detach a i t with
    | none => none
    | some u =>
      match if (t.context a).publishing then unpublish conf i u else some u with
      | none => none
      | some u => if (u.stream i).ctx.isSome then some (u.setContext a ({· with stream:=none})) else deleteStream conf a i u

def checkingCallback (i : Nat) (t : Table) : Table :=
  if (t.stream i).timerSet then
    let t := t.setStream i ({· with timerSet:=false})
    if (t.stream i).ctx.isNone || (t.stream i).publishing then t else checkingPublish t i
  else t

-- `accept` is a new session; its context is zeroed like the one its first join
-- allocates.
inductive Event where
  | accept
  | publish (a : Nat) (name : Name)
  | play (a : Nat) (name : Name) (relayed relaying : Bool)
  | close (a : Nat)
  | check (i : Nat)

def handle (conf : Conf) (t : Table) : Event → Option Table
  | .accept => some {t with contexts:=t.contexts.alloc .zeroed}
  | .publish a name => if a < t.contexts.top then join conf a name true false false t else some t
  | .play a name relayed relaying => if a < t.contexts.top then join conf a name false relayed relaying t else some t
  | .close a => if a < t.contexts.top then close conf a t else some t
  | .check i => some (checkingCallback i t)

def step (conf : Conf) (state : Option Table) (event : Event) : Option Table := state.bind (handle conf · event)

def Bucket (t : Table) (b : Nat) (xs : List Nat) : Prop := Seg t.streams (t.buckets b) xs none
def Contexts (t : Table) (i : Nat) (xs : List Nat) : Prop := Seg t.contexts (t.stream i).ctx xs none
def InTable (t : Table) (i : Nat) : Prop := ∃ b xs, Bucket t b xs ∧ i ∈ xs

structure Sound (t : Table) : Prop where
  buckets : ∀ b, ∃ xs, Bucket t b xs ∧ xs.Nodup
  names : ∀ b c xs ys i j, Bucket t b xs → Bucket t c ys → i ∈ xs → j ∈ ys → (t.stream i).name = (t.stream j).name → b = c ∧ i = j
  contexts : ∀ i, InTable t i → ∃ xs, Contexts t i xs ∧ xs ≠ [] ∧ xs.Nodup ∧
    ((t.stream i).publishing = true ↔ ∃! a, a ∈ xs ∧ (t.context a).publishing = true)
  joined : ∀ a i, (t.context a).stream = some i → InTable t i ∧ ∃ xs, Contexts t i xs ∧ a ∈ xs
  pointed : ∀ i xs, Contexts t i xs → ∀ a ∈ xs, (t.context a).stream = some i
  free : ∃ xs, Seg t.streams t.freeStreams xs none ∧ xs.Nodup ∧ ∀ i ∈ xs, ¬InTable t i
  timer : ∀ i, (t.stream i).timerSet = true → InTable t i ∧
    ∃ xs, Contexts t i xs ∧ xs ≠ [] ∧ ∀ a ∈ xs, (t.context a).publishing = false

end NgxRtmp.LiveTable
