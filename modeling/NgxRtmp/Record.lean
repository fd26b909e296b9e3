import NgxRtmp.Flv

namespace NgxRtmp.Record
open Octets Flv

structure Time where
  sec : Nat
  msec : Nat
  deriving DecidableEq, Repr

-- The NGX_RTMP_RECORD_ flags and the limits of one recorder; no interval is NGX_CONF_UNSET.
structure Conf where
  off : Bool
  audio : Bool
  video : Bool
  keyframes : Bool
  manual : Bool
  interval : Option Nat
  maxSize : Nat
  maxFrames : Nat
  append : Bool
  deriving DecidableEq, Repr

-- The buffers of a message. A message length has 24 bits.
structure Chain where
  bufs : List (List UInt8)
  short : bufs.flatten.length < 2^24
  deriving DecidableEq, Repr

def Chain.bytes (chain : Chain) : List UInt8 := chain.bufs.flatten

-- `stale` is the byte found at in->buf->pos when the first buffer is empty.
structure Message where
  track : Track
  timestamp : UInt32
  chain : Chain
  stale : UInt8
  deriving DecidableEq, Repr

def Message.first (m : Message) : UInt8 := (m.chain.bufs.headD []).headD m.stale

def Message.keyFrame (m : Message) : Bool := m.first.toNat/16 == 1

def Message.isCodecHeader (m : Message) : Bool :=
  match m.chain.bufs with
  | (_::b::_)::_ => b == 0
  | _ => false

structure Codec where
  audioCodecId : Nat
  videoCodecId : Nat
  aacHeader : Option Chain
  avcHeader : Option Chain
  deriving DecidableEq, Repr

-- ngx_rtmp_record_rec_ctx_t. `opened` says that file.fd is a descriptor and `offset`
-- is file.offset.
structure Rctx where
  opened : Bool
  offset : Nat
  nframes : Nat
  epoch : UInt32
  timeShift : UInt32
  last : Time
  failed : Bool
  initialized : Bool
  aacHeaderSent : Bool
  avcHeaderSent : Bool
  videoKeySent : Bool
  audio : Bool
  video : Bool
  deriving DecidableEq, Repr

def Rctx.zero : Rctx := ⟨false,0,0,0,0,⟨0,0⟩,false,false,false,false,false,false,false⟩

structure Frame where
  track : Track
  timestamp : UInt32
  chain : Chain
  deriving DecidableEq, Repr

-- Frames passed to write_frame, refused when the file is not open; a close carries the file.
inductive Entry where
  | opened
  | arrived (m : Message)
  | frame (f : Frame)
  | refused (f : Frame)
  | limit
  | closed (file : List UInt8)
  deriving DecidableEq, Repr

structure Node where
  rctx : Rctx
  file : List UInt8
  log : List Entry
  deriving DecidableEq, Repr

def Node.note (node : Node) (entry : Entry) : Node := {node with log:=node.log ++ [entry]}

def writeFile (file bytes : List UInt8) (offset : Nat) : List UInt8 :=
  (file ++ List.replicate (offset-file.length) 0).take offset ++ bytes ++ file.drop (offset+bytes.length)

-- ngx_write_file adds what it wrote to file.offset wherever it wrote it.
def Node.write (node : Node) (bytes : List UInt8) (offset : Nat) : Node :=
  {node with file:=writeFile node.file bytes offset,rctx:={node.rctx with offset:=node.rctx.offset+bytes.length}}

def flvHeader : List UInt8 := fileHeader 1 0x05

-- node_open in append mode. The sizes are uint32_t, and pread refuses a negative offset.
def appendPoint (file : List UInt8) : Nat × UInt32 :=
  let fileSize := file.length
  if fileSize < 4 then (fileSize,0)
  else match readFile file 4 (fileSize-4) with
    | [b0,b1,b2,b3] =>
      let tagSize := word b3 b2 b1 b0
      if tagSize = 0 ∨ fileSize < (tagSize+4).toNat then (0,0)
      else if fileSize < tagSize.toNat+4 then (fileSize,0)
      else match readFile file 8 (fileSize-tagSize.toNat-4) with
        | [_,m2,m1,m0,t2,t1,t0,t3] =>
          if tagSize ≠ word m0 m1 m2 0+11 then (fileSize,0)
          else (fileSize,word t0 t1 t2 t3)
        | _ => (fileSize,0)
    | _ => (fileSize,0)

def nodeOpen (conf : Conf) (now : Time) (node : Node) : Node :=
  if node.rctx.opened then node
  else
    let rctx := {Rctx.zero with opened:=true,last:=now}
    if conf.append then
      let point := appendPoint node.file
      ({node with rctx:={rctx with offset:=point.1,timeShift:=point.2}} : Node).note .opened
    else ({node with rctx,file:=[]} : Node).note .opened

def avMask (rctx : Rctx) : UInt8 := (if rctx.video then 0x01 else 0) ||| (if rctx.audio then 0x04 else 0)

def nodeClose (node : Node) : Node :=
  if !node.rctx.opened then node
  else
    let node := if node.rctx.initialized then node.write [avMask node.rctx] 4 else node
    ({node with rctx:={node.rctx with opened:=false}} : Node).note (.closed node.file)

def cut (timestamp : UInt32) : UInt32 := if timestamp.toBitVec.toInt < 0 then 0 else timestamp

def Rctx.carry (rctx : Rctx) : Track → Rctx
  | .video => {rctx with video:=true}
  | .audio => {rctx with audio:=true}

def tagHead (rctx : Rctx) (f : Frame) : List UInt8 :=
  let timestamp := cut (f.timestamp-rctx.epoch)
  f.track.type::size24 f.chain.bytes.length ++
    [octet timestamp 2,octet timestamp 1,octet timestamp 0,octet timestamp 3,0,0,0]

def writeBody (node : Node) (bufs : List (List UInt8)) : Node :=
  bufs.foldl (fun node buf => if buf = [] then node else node.write buf node.rctx.offset) node

def writeTag (node : Node) (f : Frame) : Node :=
  let node := node.write (tagHead node.rctx f) node.rctx.offset
  let node := writeBody node f.chain.bufs
  node.write (size32 (tagHeader+f.chain.bytes.length)) node.rctx.offset

def limited (conf : Conf) (rctx : Rctx) : Bool :=
  (conf.maxSize ≠ 0 && conf.maxSize ≤ rctx.offset) || (conf.maxFrames ≠ 0 && conf.maxFrames ≤ rctx.nframes)

-- Without a descriptor the first write fails and notify_error is called.
def writeFrame (conf : Conf) (node : Node) (f : Frame) (incNframes : Nat) : Node × Bool :=
  let node := {node with rctx:=node.rctx.carry f.track}
  if !node.rctx.opened then (({node with rctx:={node.rctx with failed:=true}} : Node).note (.refused f),false)
  else
    let node := (writeTag node f).note (.frame f)
    let node := {node with rctx:={node.rctx with nframes:=node.rctx.nframes+incNframes}}
    if limited conf node.rctx then (nodeClose (node.note .limit),true) else (node,true)

def Message.breaks (conf : Conf) (m : Message) : Bool :=
  match m.track with
  | .video => m.keyFrame
  | .audio => !conf.video

def elapsed (last now : Time) (interval : Nat) : Bool :=
  let sec := last.sec+(last.msec+interval)/1000
  let msec := (last.msec+interval) % 1000
  sec < now.sec || (sec == now.sec && msec < now.msec)

-- The block of node_av for a break frame.
def renew (conf : Conf) (now : Time) (node : Node) : Node :=
  match conf.interval with
  | some interval => if elapsed node.rctx.last now interval then nodeOpen conf now (nodeClose node) else node
  | none => if node.rctx.failed then node else nodeOpen conf now node

def admits (conf : Conf) (m : Message) : Bool :=
  match m.track with
  | .audio => conf.audio
  | .video => conf.video || (conf.keyframes && m.keyFrame)

def initializeSession (node : Node) (timestamp : UInt32) : Node :=
  if node.rctx.initialized then node
  else
    let node := {node with rctx:={node.rctx with initialized:=true,epoch:=timestamp-node.rctx.timeShift}}
    if node.rctx.offset = 0 then node.write flvHeader 0 else node

def Rctx.headerSent (rctx : Rctx) : Track → Bool
  | .audio => rctx.aacHeaderSent
  | .video => rctx.avcHeaderSent

def Rctx.sendHeader (rctx : Rctx) : Track → Rctx
  | .audio => {rctx with aacHeaderSent:=true}
  | .video => {rctx with avcHeaderSent:=true}

-- The two blocks of node_av that write a codec header. false: node_av returns.
def writeCodecHeader (conf : Conf) (track : Track) (wanted : Bool) (header : Option Chain)
    (timestamp : UInt32) (node : Node) : Node × Bool :=
  match header with
  | none => (node,true)
  | some chain =>
    if node.rctx.headerSent track || !wanted then (node,true)
    else match writeFrame conf node ⟨track,timestamp,chain⟩ 0 with
      | (node,false) => (node,false)
      | (node,true) => ({node with rctx:=node.rctx.sendHeader track},true)

def writeAacHeader (conf : Conf) (codec : Codec) : UInt32 → Node → Node × Bool :=
  writeCodecHeader conf .audio conf.audio codec.aacHeader

def writeAvcHeader (conf : Conf) (codec : Codec) : UInt32 → Node → Node × Bool :=
  writeCodecHeader conf .video (conf.video || conf.keyframes) codec.avcHeader

def writeCodecHeaders (conf : Conf) (codec : Option Codec) (timestamp : UInt32) (node : Node) : Node × Bool :=
  match codec with
  | none => (node,true)
  | some codec =>
    match writeAacHeader conf codec timestamp node with
    | (node,false) => (node,false)
    | (node,true) => writeAvcHeader conf codec timestamp node

-- The end of node_av. NGX_RTMP_VIDEO_H264 is 7, NGX_RTMP_AUDIO_AAC is 10.
def writeMessage (conf : Conf) (codec : Option Codec) (m : Message) (node : Node) : Node :=
  match m.track with
  | .video =>
    if codec.any (·.videoCodecId == 7) && !node.rctx.avcHeaderSent then node
    else
      let key := m.keyFrame && (codec.any (·.videoCodecId != 7) || !m.isCodecHeader)
      let node := {node with rctx:={node.rctx with videoKeySent:=key || node.rctx.videoKeySent}}
      if node.rctx.videoKeySent then (writeFrame conf node ⟨m.track,m.timestamp,m.chain⟩ 1).1 else node
  | .audio =>
    if codec.any (·.audioCodecId == 10) && !node.rctx.aacHeaderSent then node
    else (writeFrame conf node ⟨m.track,m.timestamp,m.chain⟩ 1).1

def nodeAv (conf : Conf) (now : Time) (codec : Option Codec) (node : Node) (m : Message) : Node :=
  if conf.off then nodeClose node
  else
    let node := if m.breaks conf && !conf.manual then renew conf now node else node
    let arrived := node.note (.arrived m)
    if conf.manual && !m.breaks conf && node.rctx.nframes == 0 then arrived
    else if !node.rctx.opened then arrived
    else if !admits conf m then arrived
    else match writeCodecHeaders conf codec m.timestamp (initializeSession arrived m.timestamp) with
      | (node,false) => node
      | (node,true) => writeMessage conf codec m node

-- record_close stands for stream_eof and close_stream too, which also call node_close.
inductive Event where
  | init
  | start (now : Time)
  | open (now : Time)
  | close
  | av (now : Time) (codec : Option Codec) (m : Message)
  deriving DecidableEq, Repr

def step (conf : Conf) (node : Node) : Event → Node
  | .init => if node.rctx.opened then node else {node with rctx:=Rctx.zero}
  | .start now => if conf.off || conf.manual then node else nodeOpen conf now node
  | .open now => nodeOpen conf now node
  | .close => nodeClose node
  | .av now codec m => nodeAv conf now codec node m

def run (conf : Conf) (events : List Event) : Node := events.foldl (step conf) ⟨Rctx.zero,[],[]⟩

-- It begins with the timestamp of the last tag; `sets` says which message gives the epoch.
structure Session where
  shift : UInt32
  epoch : Option UInt32
  wrote : List Track
  deriving DecidableEq, Repr

structure Tape where
  tags : List Tag
  started : Bool
  session : Option Session
  deriving DecidableEq, Repr

def lastTimestamp (tags : List Tag) : UInt32 := (tags.getLast?.map Tag.timestamp).getD 0

def since (timestamp epoch : UInt32) : UInt32 := UInt32.ofNat (max 0 (timestamp-epoch).toBitVec.toInt).toNat

def Frame.tag (f : Frame) (epoch : UInt32) : Tag :=
  ⟨f.track.type,since f.timestamp epoch,(0,0,0),f.chain.bytes,f.chain.short⟩

def Tape.advance (sets : Message → Bool) (tape : Tape) : Entry → Tape
  | .opened => {tape with session:=some ⟨lastTimestamp tape.tags,none,[]⟩}
  | .arrived m =>
    match tape.session with
    | some ⟨shift,none,wrote⟩ =>
      if sets m then {tape with started:=true,session:=some ⟨shift,some (m.timestamp-shift),wrote⟩} else tape
    | _ => tape
  | .frame f =>
    match tape.session with
    | some ⟨shift,some epoch,wrote⟩ =>
      {tape with tags:=tape.tags ++ [f.tag epoch],session:=some ⟨shift,some epoch,f.track::wrote⟩}
    | _ => tape
  | .closed _ => {tape with session:=none}
  | .refused _ | .limit => tape

def tapeOf (sets : Message → Bool) (log : List Entry) : Tape := log.foldl (Tape.advance sets) ⟨[],false,none⟩

-- A manual recorder holds back what comes before its first break frame.
def starts (conf : Conf) (m : Message) : Bool := admits conf m && (!conf.manual || m.breaks conf)

def passed (log : List Entry) : List Frame :=
  log.filterMap fun
    | .frame f | .refused f => some f
    | _ => none

def Track.flag : Track → UInt8
  | .video => 0x01
  | .audio => 0x04

-- The type flags in the header say which tags the file has.
def FlagsRight (file : List UInt8) : Prop :=
  ∀ parsed, decode file = some parsed →
    ∀ track : Track, parsed.flags &&& Track.flag track ≠ 0 ↔ ∃ tag ∈ parsed.tags, tag.type = track.type

def Repeated (tape : Tape) : Prop :=
  ∀ session ∈ tape.session, session.epoch.isSome → ∀ tag ∈ tape.tags, ∀ track : Track, tag.type = track.type → track ∈ session.wrote

end NgxRtmp.Record
