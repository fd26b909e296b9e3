import NgxRtmp.OutQueue
import NgxRtmp.ChunkWriter

namespace NgxRtmp.Live
open OutQueue ChunkWriter

inductive MediaType where
  | audio
  | video
  deriving DecidableEq, Repr

def MediaType.code : MediaType → UInt8
  | .audio => 8
  | .video => 9

def MediaType.other : MediaType → MediaType
  | .audio => .video
  | .video => .audio

-- Messages that carry no media, on chunk stream 2 (user control) and 3 or 5 (AMF).
inductive Notice where
  | streamBegin
  | streamEof
  | playStart
  | sampleAccess
  | publishNotify
  | playStop
  | unpublishNotify
  | pauseNotify
  | unpauseNotify
  | metadata
  | reply
  deriving DecidableEq, Repr

def Notice.csid : Notice → UInt32
  | .streamBegin | .streamEof => 2
  | .reply => 3
  | _ => 5

-- `media` is a packet of the publisher, with the two facts ngx_rtmp_live_av derived from it.
inductive Kind where
  | notice (notice : Notice)
  | codecHeader
  | dummyAudio
  | media (mandatory : Bool) (prio : Nat)
  deriving DecidableEq, Repr

structure Message where
  kind : Kind
  h : Header
  lh : Option Header
  body : List UInt8
  chain : Chain
  deriving DecidableEq, Repr

instance : Outgoing Message := ⟨Message.chain⟩

structure LiveConf where
  cscf : SrvConf
  interleave : Bool
  waitKey : Bool
  waitVideo : Bool
  sync : Nat
  playRestart : Bool
  publishNotify : Bool
  idleStreams : Bool
  -- the encoded text of each notice, built in ngx_rtmp_send.c
  text : Notice → Chain

def toChain : List Buf → Chain
  | [] => ⟨[],[]⟩
  | b::rest => ⟨b.contents,rest.map Buf.contents⟩

def prepared (conf : LiveConf) (kind : Kind) (h : Header) (lh : Option Header) (body : List UInt8) : Message :=
  ⟨kind,h,lh,body,
    toChain (((appendSharedBufs conf.cscf.chunkSize [] [body]).bind (prepareMessage conf.cscf h lh)).getD [])⟩

def noticeOf (notice : Notice) (text : Chain) : Message :=
  ⟨.notice notice,⟨notice.csid,0,0,0,0⟩,none,text.bytes,text⟩

def noticeMessage (conf : LiveConf) (notice : Notice) : Message := noticeOf notice (conf.text notice)

structure ChunkStream where
  active : Bool
  timestamp : UInt32
  csid : UInt32
  dropped : UInt32
  deriving DecidableEq, Repr

-- NGX_RTMP_CSID_VIDEO, NGX_RTMP_CSID_AUDIO as cs[0].csid and cs[1].csid
def liveCsid (i : Fin 2) : UInt32 := if i = 0 then 7 else 6

structure CodecCtx where
  audioCodecId : Nat
  videoCodecId : Nat
  aacHeader : Option (List UInt8)
  avcHeader : Option (List UInt8)
  metadata : Option Chain
  metaVersion : Nat

-- ngx_rtmp_live_ctx_t and what it reads of its session. `since` is a history variable: the messages
-- accepted when the stream was last found inactive.
structure Ctx where
  id : Nat
  cs : Fin 2 → ChunkStream
  metaVersion : Nat
  ndropped : Nat
  active : Bool
  silent : Bool
  paused : Bool
  hls : Bool
  relay : Bool
  out : Output Message
  codec : Option CodecCtx
  since : Fin 2 → Nat

-- ngx_rtmp_live_stream_t; join refuses a second publisher, so publishing is one field.
structure Stream where
  publisher : Option Ctx
  subscribers : List Ctx
  active : Bool

def Stream.empty : Stream := ⟨none,[],false⟩

-- Socket results during each ngx_rtmp_send_message call that one operation can
-- make to one session.
structure SendEnv where
  control : List SendResult
  status : Nat → List SendResult
  metadata : List SendResult
  header : List SendResult
  coheader : List SendResult
  dummy : List SendResult
  packet : List SendResult

def Ctx.finalized (c : Ctx) : Bool := c.out.destroyed
def Ctx.finalize (c : Ctx) : Ctx := {c with out:=OutQueue.finalize c.out}
def Ctx.setCs (c : Ctx) (i : Fin 2) (cs : ChunkStream) : Ctx := {c with cs:=Function.update c.cs i cs}

-- ngx_rtmp_send_message on the session of `c`; the flag is rc == NGX_OK.
def Ctx.offer (c : Ctx) (message : Message) (prio : Nat) (socket : List SendResult) : Bool × Ctx :=
  let (rc,out) := sendMessage c.out message prio socket
  (rc == .ok,{c with out})

def Ctx.reset (c : Ctx) : Ctx :=
  {c with cs:=fun i => {c.cs i with active:=false,dropped:=0}}

-- The loop over status[]: the first refused message finalizes the session.
def offerAll (c : Ctx) (env : SendEnv) : Nat → List Message → Bool × Ctx
  | _,[] => (true,c)
  | n,message::rest =>
    match c.offer message 0 (env.status n) with
    | (true,c) => offerAll c env (n+1) rest
    | (false,c) => (false,c.finalize)

def setStatus (c : Ctx) (control : Message) (status : List Message) (active : Bool) (env : SendEnv) : Ctx :=
  if c.active = active then c
  else
    match {c with active}.offer control 0 env.control with
    | (false,c) => c.finalize
    | (true,c) =>
      match offerAll c env 0 (if c.silent then [] else status) with
      | (false,c) => c
      | (true,c) => c.reset

def startStatus (conf : LiveConf) : List Message :=
  (if conf.playRestart then [noticeMessage conf .playStart,noticeMessage conf .sampleAccess] else []) ++
  (if conf.publishNotify then [noticeMessage conf .publishNotify] else [])

def stopStatus (conf : LiveConf) : List Message :=
  (if conf.playRestart then [noticeMessage conf .playStop] else []) ++
  (if conf.publishNotify then [noticeMessage conf .unpublishNotify] else [])

def switch (conf : LiveConf) (active : Bool) (env : SendEnv) (c : Ctx) : Ctx :=
  if active then setStatus c (noticeMessage conf .streamBegin) (startStatus conf) true env
  else setStatus c (noticeMessage conf .streamEof) (stopStatus conf) false env

-- The same for the publisher: ngx_rtmp_live_set_status then visits every
-- subscriber in stream->ctx.
def switchPublisher (conf : LiveConf) (active : Bool) (env : Nat → SendEnv) (publisher : Ctx) (s : Stream) :
    Ctx × Stream :=
  if publisher.active = active then (publisher,s)
  else ({publisher with active},{s with
    active,subscribers:=s.subscribers.map fun c => switch conf active (env c.id) c})

-- `stale` is the byte found at in->buf->pos when the first buffer is empty.
structure Packet where
  type : MediaType
  timestamp : UInt32
  chain : Chain
  stale : UInt8
  deriving DecidableEq, Repr

def Packet.first (packet : Packet) : UInt8 := packet.chain.buf.headD packet.stale

def Packet.frameType (packet : Packet) : Nat := packet.first.toNat/16

def Packet.isCodecHeader (packet : Packet) : Bool :=
  match packet.chain.buf with
  | _::b::_ => b == 0
  | _ => false

-- ngx_rtmp_codec_av: NGX_RTMP_AUDIO_AAC is 10, NGX_RTMP_VIDEO_H264 is 7.
def codecAv (codec : Option CodecCtx) (packet : Packet) : CodecCtx :=
  let ctx := codec.getD ⟨0,0,none,none,none,0⟩
  if packet.chain.buf.length < 1 then ctx
  else
    let ctx := match packet.type with
      | .audio => {ctx with audioCodecId:=packet.first.toNat/16}
      | .video => {ctx with videoCodecId:=packet.first.toNat % 16}
    if packet.chain.buf.length < 3 ∨ packet.isCodecHeader = false then ctx
    else match packet.type with
      | .audio => if ctx.audioCodecId = 10 then {ctx with aacHeader:=some packet.chain.bytes} else ctx
      | .video => if ctx.videoCodecId = 7 then {ctx with avcHeader:=some packet.chain.bytes} else ctx

def CodecCtx.header (ctx : CodecCtx) : MediaType → Option (List UInt8)
  | .audio => ctx.aacHeader
  | .video => ctx.avcHeader

structure Broadcast where
  type : MediaType
  csidx : Fin 2
  ch : Header
  lh : Header
  delta : UInt32
  prio : Nat
  mandatory : Bool
  header : Option (List UInt8)
  coheader : Option (List UInt8)
  metadata : Option Chain
  metaVersion : Nat
  body : List UInt8

def Broadcast.clh (b : Broadcast) : Header := {b.lh with type:=b.type.other.code}
def Broadcast.rpkt (conf : LiveConf) (b : Broadcast) : Message :=
  prepared conf (.media b.mandatory b.prio) b.ch (some b.lh) b.body
def Broadcast.apkt (conf : LiveConf) (b : Broadcast) : Message :=
  prepared conf (.media b.mandatory b.prio) b.ch none b.body
def Broadcast.hpkt (conf : LiveConf) (b : Broadcast) (header : List UInt8) : Message :=
  prepared conf .codecHeader b.lh none header
def Broadcast.acopkt (conf : LiveConf) (b : Broadcast) (coheader : List UInt8) : Message :=
  prepared conf .codecHeader b.clh none coheader
def Broadcast.aapkt (conf : LiveConf) (b : Broadcast) : Message :=
  prepared conf .dummyAudio b.clh none []

def sendMeta (b : Broadcast) (env : SendEnv) (c : Ctx) : Ctx :=
  match b.metadata with
  | none => c
  | some text =>
    if b.metaVersion = c.metaVersion then c
    else match c.offer (noticeOf .metadata text) 0 env.metadata with
      | (true,c) => {c with metaVersion:=b.metaVersion}
      | (false,c) => c

def syncStream (conf : LiveConf) (b : Broadcast) (c : Ctx) : Ctx :=
  let cs := c.cs b.csidx
  if cs.active ∧ conf.sync ≠ 0 ∧ conf.sync < cs.dropped.toNat then
    c.setCs b.csidx {cs with active:=false,dropped:=0}
  else c

def sendRelative (conf : LiveConf) (b : Broadcast) (env : SendEnv) (c : Ctx) : Ctx :=
  match c.offer (b.rpkt conf) b.prio env.packet with
  | (true,c) =>
    let cs := c.cs b.csidx
    c.setCs b.csidx {cs with timestamp:=cs.timestamp+b.delta}
  | (false,c) =>
    let cs := c.cs b.csidx
    let c := {c with ndropped:=c.ndropped+1}.setCs b.csidx {cs with dropped:=cs.dropped+b.delta}
    if b.mandatory then c.finalize else c

def waits (conf : LiveConf) (b : Broadcast) (c : Ctx) : Bool :=
  b.mandatory ||
  (conf.waitVideo && b.type == .audio && !(c.cs 0).active) ||
  (conf.waitKey && b.prio != 1 && (conf.interleave || b.type == .video))

def dummyAudio (conf : LiveConf) (b : Broadcast) (c : Ctx) : Bool :=
  conf.waitVideo && b.type == .video && !(c.cs 1).active

-- The other half of an interleaved header, or the empty audio message in its place.
def sendCoheader (conf : LiveConf) (b : Broadcast) (env : SendEnv) (dummy : Bool) (c : Ctx) : Bool × Ctx :=
  match b.coheader with
  | some coheader => c.offer (b.acopkt conf coheader) 0 env.coheader
  | none => if dummy then (true,(c.offer (b.aapkt conf) 0 env.dummy).2) else (true,c)

-- send absolute codec header; the flag says that the loop goes on
def sendHeaders (conf : LiveConf) (b : Broadcast) (env : SendEnv) (dummy : Bool) (c : Ctx) : Bool × Ctx :=
  match b.header with
  | none => sendCoheader conf b env dummy c
  | some header =>
    match c.offer (b.hpkt conf header) 0 env.header with
    | (false,c) => (false,c)
    | (true,c) => sendCoheader conf b env dummy c

def activate (b : Broadcast) (timestamp : UInt32) (c : Ctx) : Ctx :=
  c.setCs b.csidx {c.cs b.csidx with timestamp,active:=true}

def sendAbsolute (conf : LiveConf) (b : Broadcast) (env : SendEnv) (dummy : Bool) (c : Ctx) : Ctx :=
  match c.offer (b.apkt conf) b.prio env.packet with
  | (false,c) => c
  | (true,c) =>
    let c := activate b b.ch.timestamp c
    if dummy then (c.offer (b.aapkt conf) 0 env.dummy).2 else c

-- No step of the source: the history remembers where an inactive chunk stream
-- stood in the log.
def Ctx.mark (c : Ctx) (i : Fin 2) : Ctx := {c with since:=Function.update c.since i c.out.accepted.length}

def broadcast (conf : LiveConf) (b : Broadcast) (env : SendEnv) (c : Ctx) : Ctx :=
  if c.paused || c.hls then c
  else
    let c := syncStream conf b (sendMeta b env c)
    if (c.cs b.csidx).active then sendRelative conf b env c
    else
      let c := c.mark b.csidx
      if waits conf b c then c
      else if b.header.isSome || b.coheader.isSome then
        match sendHeaders conf b env (dummyAudio conf b c) c with
        | (false,c) => c
        | (true,c) => sendRelative conf b env (activate b b.lh.timestamp c)
      else sendAbsolute conf b env (dummyAudio conf b c) c

-- csidx = !(lacf->interleave || h->type == NGX_RTMP_MSG_VIDEO)
def chunkIndex (conf : LiveConf) (type : MediaType) : Fin 2 :=
  if conf.interleave || type == .video then 0 else 1

def isMandatory (codec : CodecCtx) (packet : Packet) : Bool :=
  packet.isCodecHeader && match packet.type with
    | .audio => codec.audioCodecId == 10
    | .video => codec.videoCodecId == 7

-- ngx_rtmp_live_av before the loop, once the codec module has seen the packet.
def plan (conf : LiveConf) (publisher : Ctx) (codec : CodecCtx) (packet : Packet) : Broadcast :=
  let csidx := chunkIndex conf packet.type
  let cs := publisher.cs csidx
  let ch : Header := ⟨cs.csid,packet.timestamp,0,packet.type.code,1⟩
  let lh := if cs.active then {ch with timestamp:=cs.timestamp} else ch
  let mandatory := isMandatory codec packet
  {type:=packet.type,csidx,ch,lh,delta:=ch.timestamp-lh.timestamp,
    prio:=if mandatory then 0 else match packet.type with
      | .video => packet.frameType
      | .audio => 0,
    mandatory,header:=codec.header packet.type,
    coheader:=if conf.interleave then codec.header packet.type.other else none,
    metadata:=codec.metadata,metaVersion:=codec.metaVersion,body:=packet.chain.bytes}

-- As the broadcast loop finds them: ngx_rtmp_codec_av has run, and the stream is started.
def onAir (conf : LiveConf) (s : Stream) (publisher : Ctx) (packet : Packet) (env : Nat → SendEnv) :
    Ctx × Stream × Broadcast :=
  let codec := codecAv publisher.codec packet
  let publisher := {publisher with codec:=some codec}
  let started := if s.active then (publisher,s) else switchPublisher conf true env publisher s
  (started.1,started.2,plan conf started.1 codec packet)

def liveAv (conf : LiveConf) (s : Stream) (packet : Packet) (env later : Nat → SendEnv) : Stream :=
  match s.publisher with
  | none => s
  | some publisher =>
    let (publisher,s,b) := onAir conf s publisher packet env
    let cs := publisher.cs b.csidx
    {s with
      publisher:=some (publisher.setCs b.csidx {cs with active:=true,timestamp:=packet.timestamp}),
      subscribers:=s.subscribers.map fun c => broadcast conf b (later c.id) c}

-- Its live context is zeroed. `relayed` is relay_type != NGX_NONE_RELAY, `relay` a flashver of
-- NGX_RTMP_RELAY_NAME.
structure Joiner where
  id : Nat
  silent : Bool
  relayed : Bool
  relay : Bool
  out : Output Message
  codec : Option CodecCtx

def Joiner.ctx (j : Joiner) : Ctx :=
  {id:=j.id,cs:=fun i => ⟨false,0,liveCsid i,0⟩,metaVersion:=0,ndropped:=0,active:=false,silent:=false,
    paused:=false,hls:=j.out.hls,relay:=j.relay,out:=j.out,codec:=j.codec,since:=fun _ => j.out.accepted.length}

def Stream.joined (s : Stream) (id : Nat) : Bool :=
  s.publisher.any (·.id == id) || s.subscribers.any (·.id == id)

def publish (s : Stream) (j : Joiner) : Stream :=
  if s.joined j.id || s.publisher.isSome then s
  else {s with publisher:=some {j.ctx with silent:=j.silent}}

def sendPlayStatus (conf : LiveConf) (env : SendEnv) (c : Ctx) : Ctx :=
  let c := (c.offer (noticeMessage conf .playStart) 0 (env.status 3)).2
  (c.offer (noticeMessage conf .sampleAccess) 0 (env.status 4)).2

-- ngx_rtmp_live_play sends the play status unless play_restart does.
def joinPlayer (conf : LiveConf) (active : Bool) (j : Joiner) (env : SendEnv) : Ctx :=
  let c := if active && !j.out.hls then switch conf true env j.ctx else j.ctx
  let c := {c with silent:=j.silent}
  if !j.silent && !conf.playRestart && !j.out.hls then sendPlayStatus conf env c else c

def play (conf : LiveConf) (s : Stream) (j : Joiner) (env : SendEnv) : Stream :=
  if s.joined j.id || !(s.publisher.isSome || conf.idleStreams || j.relayed) then s
  else {s with subscribers:=joinPlayer conf s.active j env::s.subscribers}

-- ngx_rtmp_live_close_stream up to the unlinked context.
def leave (conf : LiveConf) (s : Stream) (id : Nat) (env : Nat → SendEnv) : Stream :=
  match s.publisher with
  | some publisher =>
    if publisher.id = id then
      let s := (switchPublisher conf false env publisher {s with publisher:=none}).2
      {s with subscribers:=s.subscribers.map fun c => if !conf.idleStreams || c.relay then c.finalize else c}
    else {s with subscribers:=s.subscribers.filter fun c => c.id != id}
  | none => {s with subscribers:=s.subscribers.filter fun c => c.id != id}

def close (conf : LiveConf) (s : Stream) (id : Nat) (env : Nat → SendEnv) : Stream :=
  let left := leave conf s id env
  if left.publisher.isNone && left.subscribers.isEmpty then .empty else left

-- ngx_rtmp_live_pause. A refused status finalizes the session in the receive loop.
def pauseSubscriber (conf : LiveConf) (pause : Bool) (env : SendEnv) (c : Ctx) : Ctx :=
  if c.hls then c
  else match c.offer (noticeMessage conf (if pause then .pauseNotify else .unpauseNotify)) 0 (env.status 3) with
    | (false,c) => c.finalize
    | (true,c) => switch conf (!pause) env {c with paused:=pause}

def pausePublisher (conf : LiveConf) (pause : Bool) (env : Nat → SendEnv) (publisher : Ctx) (s : Stream) : Stream :=
  if publisher.hls then s
  else match publisher.offer (noticeMessage conf (if pause then .pauseNotify else .unpauseNotify)) 0
      ((env publisher.id).status 3) with
    | (false,c) => {s with publisher:=some c.finalize}
    | (true,c) =>
      let (c,s) := switchPublisher conf (!pause) env {c with paused:=pause} s
      {s with publisher:=some c}

-- `output` is progress of a socket, `reply` any other non-media message, `lost` any other finalize.
inductive Event where
  | publish (joiner : Joiner)
  | play (joiner : Joiner) (env : SendEnv)
  | close (id : Nat) (env : Nat → SendEnv)
  | pause (id : Nat) (on : Bool) (env : Nat → SendEnv)
  | streamBegin (env : Nat → SendEnv)
  | streamEof (env : Nat → SendEnv)
  | metadata (text : Chain) (version : Nat)
  | packet (packet : Packet) (env later : Nat → SendEnv)
  | output (id : Nat) (timedout : Bool) (socket : List SendResult)
  | reply (id : Nat) (prio : Nat) (socket : List SendResult)
  | lost (id : Nat)

def Stream.modify (s : Stream) (id : Nat) (f : Ctx → Ctx) : Stream :=
  {s with
    publisher:=s.publisher.map fun c => if c.id = id then f c else c,
    subscribers:=s.subscribers.map fun c => if c.id = id then f c else c}

def step (conf : LiveConf) (s : Stream) : Event → Stream
  | .publish joiner => publish s joiner
  | .play joiner env => play conf s joiner env
  | .close id env => close conf s id env
  | .pause id on env =>
    match s.publisher with
    | some publisher =>
      if publisher.id = id then pausePublisher conf on env publisher s
      else {s with subscribers:=s.subscribers.map fun c => if c.id = id then pauseSubscriber conf on (env id) c else c}
    | none => {s with subscribers:=s.subscribers.map fun c => if c.id = id then pauseSubscriber conf on (env id) c else c}
  | .streamBegin env =>
    match s.publisher with
    | some publisher =>
      if publisher.hls then s
      else let (c,s) := switchPublisher conf true env publisher s; {s with publisher:=some c}
    | none => s
  | .streamEof env =>
    match s.publisher with
    | some publisher =>
      if publisher.hls then s
      else let (c,s) := switchPublisher conf false env publisher s; {s with publisher:=some c}
    | none => s
  | .metadata text version =>
    {s with publisher:=s.publisher.map fun c =>
      {c with codec:=some {c.codec.getD ⟨0,0,none,none,none,0⟩ with
        metadata:=some text,metaVersion:=version}}}
  | .packet packet env later => liveAv conf s packet env later
  | .output id timedout socket => s.modify id fun c => {c with out:=send c.out timedout socket}
  | .reply id prio socket => s.modify id fun c => (c.offer (noticeMessage conf .reply) prio socket).2
  | .lost id => s.modify id Ctx.finalize

def run (conf : LiveConf) (events : List Event) : Stream := events.foldl (step conf) .empty

def Message.isFrame (m : Message) : Bool :=
  match m.kind with
  | .media mandatory _ => !mandatory
  | _ => false

def Message.isVideoFrame (m : Message) : Bool := m.isFrame && m.h.type == MediaType.video.code

-- The video frames queued since the video chunk stream was last found inactive.
def Ctx.videoFrames (c : Ctx) : List Message := (c.out.accepted.drop (c.since 0)).filter Message.isVideoFrame

-- The codec header opens the stream at priority 0, and the key frame finds the queue full.
def headerAlone (conf : LiveConf) (b : Broadcast) (env : SendEnv) (c1 : Ctx) : Bool :=
  b.csidx == 0 && !(c1.cs b.csidx).active && !waits conf b c1 && (b.header.isSome || b.coheader.isSome) &&
    match sendHeaders conf b env (dummyAudio conf b c1) (c1.mark b.csidx) with
    | (false,_) => false
    | (true,c2) => full c2.out b.prio

end NgxRtmp.Live
