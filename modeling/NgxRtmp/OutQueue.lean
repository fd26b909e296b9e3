import NgxRtmp.Lib.RingIndex

namespace NgxRtmp.OutQueue

-- Never NULL; only the bytes between pos and last of a buffer are kept.
structure Chain where
  buf : List UInt8
  next : List (List UInt8)
  deriving DecidableEq, Repr

def Chain.bufs (chain : Chain) : List (List UInt8) := chain.buf :: chain.next
def Chain.bytes (chain : Chain) : List UInt8 := chain.bufs.flatten

class Outgoing (μ : Type) where
  chain : μ → Chain

instance : Outgoing Chain := ⟨id⟩

def wireBytes [Outgoing μ] (messages : List μ) : List UInt8 :=
  messages.flatMap fun message => (Outgoing.chain message).bytes

-- `blocked` is NGX_AGAIN with the write event added again, `unhandled` where adding it failed.
inductive SendResult where
  | sent (n : Nat)
  | blocked
  | unhandled
  | failed
  deriving DecidableEq, Repr

inductive SendCode where
  | ok
  | again
  deriving DecidableEq, Repr

def sizeMod : Nat := 2^64

-- The output half of ngx_rtmp_session_t. The last three fields are history variables.
structure Output (μ : Type) where
  hls : Bool
  outQueue : Nat
  outCork : Nat
  outBuffer : Bool
  outPos : Nat
  outLast : Nat
  out : Nat → Option μ
  outChain : List (List UInt8)
  outBpos : Nat
  active : Bool
  destroyed : Bool
  accepted : List μ
  queued : List (Nat × μ)
  handed : List UInt8

-- ngx_pcalloc in ngx_rtmp_init_session, then the copied configuration.
def initial (hls : Bool) (outQueue outCork : Nat) (outBuffer : Bool) : Output μ :=
  {hls,outQueue,outCork,outBuffer,outPos:=0,outLast:=0,out:=fun _ => none,outChain:=[],outBpos:=0,
    active:=false,destroyed:=false,accepted:=[],queued:=[],handed:=[]}

def finalize (o : Output μ) : Output μ := {o with destroyed:=true}

-- The configuration and the log stay, and a finalized connection stays finalized.
structure Frame {μ : Type} (o next : Output μ) : Prop where
  hls : next.hls = o.hls
  outQueue : next.outQueue = o.outQueue
  accepted : next.accepted = o.accepted
  destroyed : o.destroyed = true → next.destroyed = true

theorem Frame.trans (left : Frame o middle) (right : Frame middle next) : Frame o next :=
  ⟨right.hls.trans left.hls,right.outQueue.trans left.outQueue,right.accepted.trans left.accepted,
    fun gone => right.destroyed (left.destroyed gone)⟩

section Code
variable {μ : Type} [Outgoing μ]

def load (o : Output μ) : Output μ :=
  {o with outChain:=((o.out o.outPos).map fun m => (Outgoing.chain m).bufs).getD [],outBpos:=0}

-- The message in slot out_pos is complete: release it and take the next one.
def release (o : Output μ) : Output μ :=
  let freed := {o with
    outPos:=(o.outPos+1) % o.outQueue,outChain:=[],
    queued:=o.queued.eraseP fun entry => entry.1 == o.outPos}
  if freed.outPos = freed.outLast then freed else load freed

-- The part of the loop of ngx_rtmp_send after a successful c->send.
def advance (o : Output μ) (buf : List UInt8) (next : List (List UInt8)) (n : Nat) : Output μ :=
  let moved := {o with handed:=o.handed ++ (buf.drop o.outBpos).take n,outBpos:=o.outBpos+n}
  if moved.outBpos = buf.length then
    match next with
    | [] => release moved
    | _::_ => {moved with outChain:=next,outBpos:=0}
  else moved

-- One socket result per turn; a socket with nothing more to say is blocked.
def sendLoop (o : Output μ) : List SendResult → Output μ
  | [] =>
    match o.outChain with
    | [] => {o with active:=false}
    | _::_ => {o with active:=true}
  | result::rest =>
    match o.outChain with
    | [] => {o with active:=false}
    | buf::next =>
      match result with
      | .blocked => {o with active:=true}
      | .unhandled => finalize o
      | .failed => finalize o
      | .sent n =>
        let n := min n (buf.length-o.outBpos)
        if n = 0 then {o with active:=true} else sendLoop (advance o buf next n) rest

def send (o : Output μ) (timedout : Bool) (socket : List SendResult) : Output μ :=
  if o.destroyed then o
  else if timedout then finalize o
  else if o.outChain = [] ∧ o.outPos ≠ o.outLast then sendLoop (load o) socket
  else sendLoop o socket

def nmsg (o : Output μ) : Nat := RingIndex.distance sizeMod o.outQueue o.outPos o.outLast+1

def full (o : Output μ) (priority : Nat) : Bool :=
  decide (o.outQueue ≤ (nmsg o+min priority 3*o.outQueue % sizeMod/4) % sizeMod)

def store (o : Output μ) (message : μ) : Output μ :=
  {o with
    out:=Function.update o.out o.outLast (some message),
    outLast:=(o.outLast+1) % o.outQueue,
    accepted:=o.accepted ++ [message],
    queued:=o.queued ++ [(o.outLast,message)]}

def sendMessage (o : Output μ) (message : μ) (priority : Nat) (socket : List SendResult) :
    SendCode × Output μ :=
  if o.hls then (.ok,{o with accepted:=o.accepted ++ [message]})
  else if full o priority then (.again,o)
  else if 0 < min priority 3 ∧ o.outBuffer = true ∧ nmsg o < o.outCork then (.ok,store o message)
  else if o.active then (.ok,store o message)
  else (.ok,send (store o message) false socket)

theorem load_frame {o : Output μ} : Frame o (load o) := ⟨rfl,rfl,rfl,id⟩

theorem release_frame (o : Output μ) : Frame o (release o) := by
  unfold release
  dsimp only
  split
  · exact ⟨rfl,rfl,rfl,id⟩
  · exact ⟨rfl,rfl,rfl,id⟩

theorem advance_frame {o : Output μ} : Frame o (advance o buf next n) := by
  unfold advance
  dsimp only
  split
  · split
    · have next := release_frame {o with handed:=o.handed ++ (buf.drop o.outBpos).take n,outBpos:=o.outBpos+n}
      exact ⟨next.hls,next.outQueue,next.accepted,next.destroyed⟩
    · exact ⟨rfl,rfl,rfl,id⟩
  · exact ⟨rfl,rfl,rfl,id⟩

theorem sendLoop_frame (socket : List SendResult) (o : Output μ) : Frame o (sendLoop o socket) := by
  induction socket generalizing o with
  | nil => unfold sendLoop; split <;> exact ⟨rfl,rfl,rfl,id⟩
  | cons result rest ih =>
    unfold sendLoop
    split
    · exact ⟨rfl,rfl,rfl,id⟩
    · cases result with
      | sent n =>
        dsimp only
        split
        · exact ⟨rfl,rfl,rfl,id⟩
        · exact advance_frame.trans (ih _)
      | blocked => exact ⟨rfl,rfl,rfl,id⟩
      | unhandled => exact ⟨rfl,rfl,rfl,fun _ => rfl⟩
      | failed => exact ⟨rfl,rfl,rfl,fun _ => rfl⟩

theorem send_frame (o : Output μ) (timedout : Bool) (socket : List SendResult) : Frame o (send o timedout socket) := by
  unfold send
  split
  · exact ⟨rfl,rfl,rfl,id⟩
  · split
    · exact ⟨rfl,rfl,rfl,fun _ => rfl⟩
    · split
      · exact load_frame.trans (sendLoop_frame _ _)
      · exact sendLoop_frame _ _

theorem sendMessage_cases (o : Output μ) (message : μ) (priority : Nat) (socket : List SendResult) :
    (∃ next, sendMessage o message priority socket = (.ok,next) ∧ next.accepted = o.accepted ++ [message] ∧
      next.hls = o.hls ∧ next.outQueue = o.outQueue ∧ (o.destroyed = true → next.destroyed = true)) ∨
    (sendMessage o message priority socket = (.again,o) ∧ o.hls = false ∧ full o priority = true) := by
  unfold sendMessage
  split
  · exact .inl ⟨_,rfl,rfl,rfl,rfl,id⟩
  · rename_i served
    split
    · rename_i refused
      exact .inr ⟨rfl,by simpa using served,refused⟩
    · split
      · exact .inl ⟨_,rfl,rfl,rfl,rfl,id⟩
      · split
        · exact .inl ⟨_,rfl,rfl,rfl,rfl,id⟩
        · have frame := send_frame (store o message) false socket
          exact .inl ⟨_,rfl,frame.accepted,frame.hls,frame.outQueue,frame.destroyed⟩

end Code

-- A message is offered, or the write event (or its timer) calls ngx_rtmp_send.
inductive Event (μ : Type) where
  | message (message : μ) (priority : Nat) (socket : List SendResult)
  | writable (timedout : Bool) (socket : List SendResult)

def step [Outgoing μ] (o : Output μ) : Event μ → Output μ
  | .message message priority socket => (sendMessage o message priority socket).2
  | .writable timedout socket => send o timedout socket

def run [Outgoing μ] (o : Output μ) (events : List (Event μ)) : Output μ := events.foldl step o

end NgxRtmp.OutQueue
