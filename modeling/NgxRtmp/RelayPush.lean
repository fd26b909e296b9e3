import NgxRtmp.RelayEffects

namespace NgxRtmp.RelayPush

open Relay Cells

-- ngx_rtmp_relay_target_t: `data` is the address that the contexts pushed to it keep.
structure Target where
  name : List UInt8
  data : Nat

def Target.matches (t : Target) (name : List UInt8) : Bool := t.name == [] || t.name == name

structure Conf where
  hash : List UInt8 → Nat
  pushes : List Target

-- Whether there is a context, s->relay, ctx->data of the relay module, and push_evt.timer_set.
-- `stream`, no field of the source, is the name a client publishes.
structure Session where
  made : Bool
  relay : Bool
  data : Option Nat
  timer : Bool
  stream : Option (List UInt8)

def Session.client : Session := ⟨false,false,none,false,none⟩
def Session.remote (data : Option Nat) : Session := ⟨true,true,data,false,none⟩

structure State where
  table : Table
  session : Nat → Session

def State.initial : State := ⟨.initial,fun _ => .client⟩

def State.change (s : State) (a : Nat) (change : Session → Session) : State :=
  {s with session:=Function.update s.session a (change (s.session a))}

def State.arm (s : State) (a : Nat) : State := s.change a ({· with timer:=true})

inductive Fault where
  | endless
  | nullContext
  deriving DecidableEq

-- The context of a new connection is at the old top.
def settle (s : State) (after : Table) (data : Option Nat) : State :=
  ⟨after,if s.table.heap.top < after.heap.top then Function.update s.session s.table.heap.top (.remote data) else s.session⟩

-- ngx_rtmp_relay_push, true for NGX_OK
def relayPush (conf : Conf) (s : State) (a : Nat) (name : List UInt8) (data : Option Nat) (connects : Bool) : Except Fault (State × Bool) :=
  match push conf.hash a name connects s.table with
  | none => .error .endless
  | some after =>
    let result := pushResult conf.hash a name connects s.table
    let s := settle s after data
    .ok (if result.2 then s.change a ({· with made:=true}) else s,result.1)

-- The loop of ngx_rtmp_relay_publish. `ctx` was read in front of the loop.
def publishTargets (conf : Conf) (a : Nat) (name : List UInt8) (ctx : Bool) (connects : Nat → Bool) :
    List Target → Nat → State → Except Fault State
  | [],_,s => .ok s
  | t::rest,n,s =>
    if t.matches name then
      match relayPush conf s a name (some t.data) (connects n) with
      | .error fault => .error fault
      | .ok (s,true) => publishTargets conf a name ctx connects rest (n+1) s
      | .ok (s,false) => if ctx then publishTargets conf a name ctx connects rest (n+1) (s.arm a) else .error .nullContext
    else publishTargets conf a name ctx connects rest (n+1) s

-- For a session that is not auto_pushed.
def relayPublish (conf : Conf) (a : Nat) (name : List UInt8) (connects : Nat → Bool) (s : State) : Except Fault State :=
  if (s.session a).made && (s.session a).relay then .ok s
  else (publishTargets conf a name (s.session a).made connects conf.pushes 0 s).map (·.change a ({· with stream:=some name}))

def reconnectTargets (conf : Conf) (a : Nat) (connects : Nat → Bool) : List Target → Nat → State → Except Fault State
  | [],_,s => .ok s
  | t::rest,n,s =>
    if t.matches (s.table.heap.val a).name then
      match s.table.heap.chain s.table.heap.top (s.table.heap.val a).play with
      | none => .error .endless
      | some players =>
        if players.any fun x => (s.session x).data == some t.data then reconnectTargets conf a connects rest (n+1) s
        else
          match relayPush conf s a (s.table.heap.val a).name (some t.data) (connects n) with
          | .error fault => .error fault
          | .ok (s,true) => reconnectTargets conf a connects rest (n+1) s
          | .ok (s,false) => reconnectTargets conf a connects rest (n+1) (s.arm a)
    else reconnectTargets conf a connects rest (n+1) s

-- A timer that goes off is not set any more.
def pushReconnect (conf : Conf) (a : Nat) (connects : Nat → Bool) (s : State) : Except Fault State :=
  if (s.session a).timer then
    let s := s.change a ({· with timer:=false})
    if (s.session a).made then reconnectTargets conf a connects conf.pushes 0 s else .ok s
  else .ok s

def closeTimers (s : State) (a : Nat) : State :=
  if (s.table.heap.val a).staticRelay then s
  else
    match (s.table.heap.val a).publish with
    | none => s
    | some p => if p = a then s.change a ({· with timer:=false}) else if (s.session a).data.isSome then s.arm p else s

def relayClose (conf : Conf) (a : Nat) (s : State) : Except Fault State :=
  match close conf.hash a s.table with
  | none => .error .endless
  | some after => .ok ({closeTimers s a with table:=after}.change a ({· with stream:=none}))

def relayPull (conf : Conf) (a : Nat) (name : List UInt8) (connects : Bool) (s : State) : Except Fault State :=
  match pull conf.hash a name connects s.table with
  | none => .error .endless
  | some after => .ok ((settle s after none).change a ({· with made:=true}))

-- `push` is a push by another module, with a tag of its own.
inductive Event where
  | accept
  | staticPull (name : List UInt8)
  | pull (a : Nat) (name : List UInt8) (connects : Bool)
  | push (a : Nat) (name : List UInt8) (connects : Bool)
  | publish (a : Nat) (name : List UInt8) (connects : Nat → Bool)
  | reconnect (a : Nat) (connects : Nat → Bool)
  | close (a : Nat)

def Event.session : Event → Option Nat
  | .accept | .staticPull _ => none
  | .pull a _ _ | .push a _ _ | .publish a _ _ | .reconnect a _ | .close a => some a

def handle (conf : Conf) (s : State) : Event → Except Fault State
  | .accept => .ok {s with table:={s.table with heap:=s.table.heap.alloc .zeroed}}
  | .staticPull name => .ok (settle s {s.table with heap:=s.table.heap.alloc {Ctx.zeroed with name:=name,staticRelay:=true}} none)
  | .pull a name connects => relayPull conf a name connects s
  | .push a name connects => (relayPush conf s a name none connects).map (·.1)
  | .publish a name connects => relayPublish conf a name connects s
  | .reconnect a connects => pushReconnect conf a connects s
  | .close a => relayClose conf a s

def step (conf : Conf) (state : Except Fault State) (event : Event) : Except Fault State :=
  state.bind fun s => if event.session.all (· < s.table.heap.top) then handle conf s event else .ok s

end NgxRtmp.RelayPush
