import NgxRtmp.Handshake
import NgxRtmp.Lib.Runs

namespace NgxRtmp.Handshake
open ChunkWriter Splice

inductive Stage where
  | serverRecvChallenge
  | serverSendChallenge
  | serverSendResponse
  | serverRecvResponse
  | serverDone
  | clientSendChallenge
  | clientRecvChallenge
  | clientRecvResponse
  | clientSendResponse
  | clientDone
  deriving DecidableEq, Repr

-- ++s->hs_stage; the stages are numbered through, server first.
def Stage.next : Stage → Stage
  | .serverRecvChallenge => .serverSendChallenge
  | .serverSendChallenge => .serverSendResponse
  | .serverSendResponse => .serverRecvResponse
  | .serverRecvResponse => .serverDone
  | .serverDone => .clientSendChallenge
  | .clientSendChallenge => .clientRecvChallenge
  | .clientRecvChallenge => .clientRecvResponse
  | .clientRecvResponse => .clientSendResponse
  | .clientSendResponse => .clientDone
  | .clientDone => .clientDone

structure Ev where
  active : Bool
  timerSet : Bool
  timedout : Bool
  deriving DecidableEq, Repr

-- Between one byte and all, a block (with the answer of ngx_handle_read_event or
-- ngx_handle_write_event), or a failure.
inductive Result where
  | moved (n : Nat)
  | again (handled : Bool)
  | failed
  deriving DecidableEq, Repr

inductive Act where
  | enter (stage : Stage)
  | consume (bytes : List UInt8)
  | emit (bytes : List UInt8)
  deriving DecidableEq, Repr

-- `incoming` is what the peer sends, `done` the call of ngx_rtmp_handshake_done, `trace` a history.
structure State where
  s : Session
  hsStage : Stage
  read : Ev
  write : Ev
  destroyed : Bool
  done : Bool
  draws : Nat
  incoming : List UInt8
  trace : List Act
  deriving DecidableEq, Repr

-- `accepts` is the answer of the NGX_RTMP_HANDSHAKE_DONE handlers.
structure Env where
  hmac : Hmac
  random : Nat → UInt8
  accepts : Bool

def finalizeSession (x : State) : State := {x with destroyed:=true}

def blockRead (handled : Bool) (x : State) : State :=
  let x := {x with read:={x.read with timerSet:=true}}
  if handled then {x with read:={x.read with active:=true}} else finalizeSession x

def blockWrite (handled : Bool) (x : State) : State :=
  let x := {x with write:={x.write with timerSet:=true}}
  if handled then {x with write:={x.write with active:=true}} else finalizeSession x

def State.received (x : State) (bytes : List UInt8) : State :=
  {x with s:={x.s with hsBuf:=x.s.hsBuf.append bytes},incoming:=x.incoming.drop bytes.length,trace:=x.trace ++ [.consume bytes]}

def State.sent (x : State) (n : Nat) : State :=
  {x with s:={x.s with hsBuf:={x.s.hsBuf with pos:=x.s.hsBuf.pos+n}},trace:=x.trace ++ [.emit (x.s.hsBuf.contents.take n)]}

-- The loops of the two handlers; `none` says that the handler has returned.
def recvLoop : List Result → State → State × Option (List Result)
  | results,x =>
    if x.s.hsBuf.last = x.s.hsBuf.size then (x,some results)
    else
      match results with
      | [] => (blockRead true x,none)
      | .failed::_ => (finalizeSession x,none)
      | .again handled::_ => (blockRead handled x,none)
      | .moved n::rest =>
        let bytes := x.incoming.take (min (n+1) (x.s.hsBuf.size-x.s.hsBuf.last))
        if bytes = [] then (blockRead true x,none) else recvLoop rest (x.received bytes)

def sendLoop : List Result → State → State × Option (List Result)
  | results,x =>
    if x.s.hsBuf.pos = x.s.hsBuf.last then (x,some results)
    else
      match results with
      | [] => (blockWrite true x,none)
      | .failed::_ => (finalizeSession x,none)
      | .again handled::_ => (blockWrite handled x,none)
      | .moved n::rest => sendLoop rest (x.sent (min (n+1) (x.s.hsBuf.last-x.s.hsBuf.pos)))

inductive Call where
  | recv
  | send
  deriving DecidableEq, Repr

def State.enter (x : State) : State := {x with hsStage:=x.hsStage.next,trace:=x.trace ++ [.enter x.hsStage.next]}

def State.rewind (x : State) (pos last : Nat) : State := {x with s:={x.s with hsBuf:={x.s.hsBuf with pos:=pos,last:=last}}}

def handshakeDone (env : Env) (x : State) : State :=
  let x := {x with done:=true}
  if env.accepts then x else finalizeSession x

def Env.drawn (env : Env) (x : State) : Nat → UInt8 := fun n => env.random (x.draws+n)

def challenge (env : Env) (role : Role) (x : State) : State :=
  {x with s:=createChallenge env.hmac (env.drawn x) role.version role.partialKey x.s,draws:=x.draws+bufsize}

def response (env : Env) (x : State) : State :=
  {x with s:=createResponse env.hmac (env.drawn x) x.s,draws:=x.draws+bufsize}

-- The switch of ngx_rtmp_handshake_recv: the handler that is called next, if any.
def recvSwitch (env : Env) (x : State) : State × Option Call :=
  match x.hsStage with
  | .serverSendChallenge =>
    match parseChallenge env.hmac Role.client.partialKey Role.server.fullKey x.s with
    | none => (finalizeSession x,none)
    | some s =>
      let x := {x with s:=s}
      (if s.hsOld then x.rewind 0 s.hsBuf.size else challenge env .server x,some .send)
  | .serverDone => (handshakeDone env x,none)
  | .clientRecvResponse =>
    match parseChallenge env.hmac Role.server.partialKey Role.client.fullKey x.s with
    | none => (finalizeSession x,none)
    | some s => (({x with s:=s} : State).rewind 1 1,some .recv)
  | .clientSendResponse => (response env x,some .send)
  | _ => (x,none)

def sendSwitch (env : Env) (x : State) : State × Option Call :=
  match x.hsStage with
  | .serverSendResponse => (if x.s.hsOld then x.rewind 1 x.s.hsBuf.size else response env x,some .send)
  | .serverRecvResponse => (x.rewind 1 1,some .recv)
  | .clientRecvChallenge => (x.rewind 0 0,some .recv)
  | .clientDone => (handshakeDone env x,none)
  | _ => (x,none)

def handshakeRecv (env : Env) (results : List Result) (x : State) : State × Option (Call × List Result) :=
  if x.destroyed then (x,none)
  else if x.read.timedout then (finalizeSession x,none)
  else
    match recvLoop results {x with read:={x.read with timerSet:=false}} with
    | (x,none) => (x,none)
    | (x,some rest) =>
      let (x,call) := recvSwitch env (State.enter {x with read:={x.read with active:=false}})
      (x,call.map (·,rest))

def handshakeSend (env : Env) (results : List Result) (x : State) : State × Option (Call × List Result) :=
  if x.destroyed then (x,none)
  else if x.write.timedout then (finalizeSession x,none)
  else
    match sendLoop results {x with write:={x.write with timerSet:=false}} with
    | (x,none) => (x,none)
    | (x,some rest) =>
      let (x,call) := sendSwitch env (State.enter {x with write:={x.write with active:=false}})
      (x,call.map (·,rest))

def handler (env : Env) : Call → List Result → State → State × Option (Call × List Result)
  | .recv => handshakeRecv env
  | .send => handshakeSend env

-- The handlers call each other. Nothing is returned when that does not end.
def perform (env : Env) : Nat → Call → List Result → State → Option State
  | 0,_,_,_ => none
  | fuel+1,call,results,x =>
    match handler env call results x with
    | (x,none) => some x
    | (x,some (call,rest)) => perform env fuel call rest x

def depth : Nat := 5

-- A handler is called for its event or timer, until ngx_rtmp_cycle has installed others.
inductive Event where
  | readable (results : List Result)
  | writable (results : List Result)
  | readTimeout
  | writeTimeout

def handle (env : Env) (x : State) (event : Event) : Option State :=
  if x.done then some x
  else
    match event with
    | .readable results => if x.read.active then perform env depth .recv results x else some x
    | .writable results => if x.write.active then perform env depth .send results x else some x
    | .readTimeout =>
      if x.read.timerSet then perform env depth .recv [] {x with read:={x.read with timerSet:=false,timedout:=true}} else some x
    | .writeTimeout =>
      if x.write.timerSet then perform env depth .send [] {x with write:={x.write with timerSet:=false,timedout:=true}} else some x

def step (env : Env) (state : Option State) (event : Event) : Option State := state.bind (handle env · event)

def fresh (memory : Memory) (epoch : UInt32) (stage : Stage) (readActive writeActive : Bool) (incoming : List UInt8) : State :=
  ⟨⟨epoch,0,⟨memory.1,0,0,bufsize⟩,false,none⟩,stage,⟨readActive,false,false⟩,⟨writeActive,false,false⟩,false,false,0,incoming,
    [.enter stage]⟩

-- ngx_rtmp_handshake. An accepted connection has no write event registered.
def serverHandshake (env : Env) (memory : Memory) (epoch : UInt32) (readActive : Bool) (incoming : List UInt8) (results : List Result) :
    Option State :=
  perform env depth .recv results (fresh memory epoch .serverRecvChallenge readActive false incoming)

-- ngx_rtmp_client_handshake. Connecting may have registered both events.
def clientHandshake (env : Env) (memory : Memory) (epoch : UInt32) (readActive writeActive async handled : Bool)
    (incoming : List UInt8) (results : List Result) : Option State :=
  let x := challenge env .client (fresh memory epoch .clientSendChallenge readActive writeActive incoming)
  if async then some (blockWrite handled x) else perform env depth .send results x

-- What a stage is for: whether it reads or writes, how much, and what was done
-- before it.
def Stage.reads : Stage → Bool
  | .serverRecvChallenge | .serverRecvResponse | .clientRecvChallenge | .clientRecvResponse => true
  | _ => false

def Stage.size : Stage → Nat
  | .serverRecvChallenge | .serverSendChallenge | .clientSendChallenge | .clientRecvChallenge => 1537
  | .serverSendResponse | .serverRecvResponse | .clientRecvResponse | .clientSendResponse => 1536
  | .serverDone | .clientDone => 0

def Stage.prior : Stage → List Stage
  | .serverRecvChallenge | .clientSendChallenge => []
  | .serverSendChallenge => [.serverRecvChallenge]
  | .serverSendResponse => [.serverRecvChallenge,.serverSendChallenge]
  | .serverRecvResponse => [.serverRecvChallenge,.serverSendChallenge,.serverSendResponse]
  | .serverDone => [.serverRecvChallenge,.serverSendChallenge,.serverSendResponse,.serverRecvResponse]
  | .clientRecvChallenge => [.clientSendChallenge]
  | .clientRecvResponse => [.clientSendChallenge,.clientRecvChallenge]
  | .clientSendResponse => [.clientSendChallenge,.clientRecvChallenge,.clientRecvResponse]
  | .clientDone => [.clientSendChallenge,.clientRecvChallenge,.clientRecvResponse,.clientSendResponse]

def Stage.act (stage : Stage) (bytes : List UInt8) : Act := if stage.reads then .consume bytes else .emit bytes

def Stage.call (stage : Stage) : Call := if stage.reads then .recv else .send

def Role.final : Role → Stage
  | .server => .serverDone
  | .client => .clientDone

def consumed (trace : List Act) : List UInt8 := trace.flatMap fun | .consume bytes => bytes | _ => []
def emitted (trace : List Act) : List UInt8 := trace.flatMap fun | .emit bytes => bytes | _ => []
def entered (trace : List Act) : List Stage := trace.filterMap fun | .enter stage => some stage | _ => none

-- A stage is entered, and n bytes are moved in some number of pieces.
def Moved (stage : Stage) (n : Nat) (acts : List Act) : Prop :=
  ∃ pieces : List (List UInt8), acts = .enter stage::pieces.map stage.act ∧ pieces.flatten.length = n

def Played : List Stage → List Act → Prop
  | [],acts => acts = []
  | stage::rest,acts => ∃ first more, acts = first ++ more ∧ Moved stage stage.size first ∧ Played rest more

structure Accounted (role : Role) (stream : List UInt8) (x : State) : Prop where
  played : ∃ acts, x.trace = acts ++ [.enter role.final] ∧ Played role.final.prior acts
  stages : entered x.trace = role.final.prior ++ [role.final]
  consumes : (consumed x.trace).length = 1537+1536
  emits : (emitted x.trace).length = 1537+1536
  rest : consumed x.trace ++ x.incoming = stream

end NgxRtmp.Handshake
