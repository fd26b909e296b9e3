import NgxRtmp.Mp4Segments

namespace NgxRtmp.Dash
open Octets Boxes Mp4Writer Mp4Boxes Mp4Segments

def maxMdat : Nat := 10*1024*1024
def maxSamples : Nat := 1024

structure Conf where
  fraglen : Nat
  winfrags : Nat
  deriving DecidableEq, Repr

structure Frag where
  timestamp : UInt32
  duration : UInt32
  deriving DecidableEq, Repr

-- ngx_rtmp_dash_track_t. `raw` is the file behind fd.
structure Track where
  opened : Bool
  fragment : Fragment
  raw : List UInt8
  deriving DecidableEq, Repr

structure Ctx where
  nfrags : Nat
  frag : Nat
  frags : Nat → Frag
  opened : Bool
  hasVideo : Bool
  hasAudio : Bool
  id : Nat
  audio : Track
  video : Track

def Ctx.track (ctx : Ctx) : TrackType → Track
  | .audio => ctx.audio
  | .video => ctx.video

def Ctx.setTrack (ctx : Ctx) (t : Track) : TrackType → Ctx
  | .audio => {ctx with audio:=t}
  | .video => {ctx with video:=t}

def Ctx.setHas (ctx : Ctx) : TrackType → Ctx
  | .audio => {ctx with hasAudio:=true}
  | .video => {ctx with hasVideo:=true}

-- A media segment in the directory. Its name is made of the timestamp and the type.
structure File where
  type : TrackType
  timestamp : UInt32
  bytes : List UInt8
  deriving DecidableEq, Repr

structure State where
  ctx : Ctx
  files : List File

def createFile (files : List File) (file : File) : List File :=
  files.filter (fun other => !(other.type == file.type && other.timestamp == file.timestamp)) ++ [file]

def slot (conf : Conf) (ctx : Ctx) (n : Nat) : Nat := (ctx.frag+n) % (conf.winfrags*2+1)

def getFrag (conf : Conf) (ctx : Ctx) (n : Nat) : Frag := ctx.frags (slot conf ctx n)

def setFrag (conf : Conf) (ctx : Ctx) (n : Nat) (f : Frag) : Ctx :=
  {ctx with frags:=fun i => if i = slot conf ctx n then f else ctx.frags i}

def nextFrag (conf : Conf) (ctx : Ctx) : Ctx :=
  if ctx.nfrags = conf.winfrags then {ctx with frag:=ctx.frag+1} else {ctx with nfrags:=ctx.nfrags+1}

-- The loop of close_fragment that copies the raw file through the buffer.
def copyOut : Nat → List UInt8 → Nat → List UInt8 → List UInt8
  | 0,_,_,out => out
  | fuel+1,raw,left,out =>
    if left = 0 then out
    else
      let part := raw.take (min bufSize left)
      copyOut fuel (raw.drop part.length) (left-part.length) (out ++ part)

-- The static buffer's old content does not reach the file: the headers of 1024 samples fit.
def segmentFile (t : Fragment) (raw : List UInt8) : List UInt8 :=
  copyOut (t.mdatSize+1) raw t.mdatSize (written (buildSegment t ⟨List.replicate bufSize 0,0,false⟩))

def closeFragment (conf : Conf) (ttype : TrackType) (st : State) : State :=
  let t := st.ctx.track ttype
  if !t.opened then st
  else
    let f := getFrag conf st.ctx st.ctx.nfrags
    ⟨st.ctx.setTrack {t with opened:=false} ttype,
      createFile st.files ⟨ttype,f.timestamp,segmentFile t.fragment t.raw⟩⟩

-- write_playlist reads the fragments and writes other files.
def closeFragments (conf : Conf) (st : State) : State :=
  if !st.ctx.opened then st
  else
    let st := closeFragment conf .audio (closeFragment conf .video st)
    let ctx := nextFrag conf st.ctx
    {st with ctx:={ctx with id:=ctx.id+1,opened:=false}}

def openFragment (ttype : TrackType) (ctx : Ctx) : Ctx :=
  if (ctx.track ttype).opened then ctx
  else ctx.setTrack ⟨true,⟨ctx.id,ttype,0,0,0,[]⟩,[]⟩ ttype

def openFragments (ctx : Ctx) : Ctx :=
  if ctx.opened then ctx else {openFragment .audio (openFragment .video ctx) with opened:=true}

def distance (f : Frag) (timestamp : UInt32) : Int := (timestamp-f.timestamp).toBitVec.toInt

def hit (conf : Conf) (f : Frag) (timestamp : UInt32) : Bool :=
  if 0 ≤ distance f timestamp then conf.fraglen ≤ (timestamp-f.timestamp).toNat else 1000 < -distance f timestamp

def boundary (conf : Conf) (ctx : Ctx) (key : Bool) (timestamp : UInt32) : Bool :=
  let hit := hit conf (getFrag conf ctx ctx.nfrags) timestamp
  let boundary := if ctx.hasVideo && !hit then false else key
  let boundary := if !ctx.hasVideo && ctx.hasAudio then hit else boundary
  boundary || maxMdat ≤ ctx.audio.fragment.mdatSize || maxMdat ≤ ctx.video.fragment.mdatSize || !ctx.opened

def updateFragments (conf : Conf) (key : Bool) (timestamp : UInt32) (st : State) : State :=
  let starts := boundary conf st.ctx key timestamp
  let f := getFrag conf st.ctx st.ctx.nfrags
  let f := if 0 ≤ distance f timestamp then {f with duration:=timestamp-f.timestamp} else f
  let st := {st with ctx:=setFrag conf st.ctx st.ctx.nfrags f}
  if starts then
    let st := closeFragments conf st
    let ctx := openFragments st.ctx
    {st with ctx:=setFrag conf ctx ctx.nfrags {getFrag conf ctx ctx.nfrags with timestamp}}
  else st

def copyIn : List (List UInt8) → List UInt8 → List UInt8
  | [],buffer => buffer
  | buf::bufs,buffer =>
    if bufSize ≤ buffer.length then buffer else copyIn bufs (buffer ++ buf.take (bufSize-buffer.length))

-- The duration of the last sample is known when the next one comes.
def setDuration (timestamp : UInt32) : List Sample → List Sample
  | [] => []
  | [s] => [{s with duration:=timestamp-s.timestamp}]
  | s::next::samples => s::setDuration timestamp (next::samples)

def Track.add (t : Track) (key : Bool) (timestamp delay : UInt32) (buffer : List UInt8) : Track :=
  let earliestPresTime := if t.fragment.samples.length = 0 then timestamp else t.fragment.earliestPresTime
  let fragment := {t.fragment with earliestPresTime,latestPresTime:=timestamp}
  if fragment.samples.length < maxSamples then
    {t with raw:=t.raw ++ buffer,fragment:={fragment with
      samples:=setDuration timestamp fragment.samples ++ [⟨UInt32.ofNat buffer.length,0,delay,timestamp,key⟩]
      mdatSize:=fragment.mdatSize+buffer.length}}
  else {t with fragment}

def append (conf : Conf) (ttype : TrackType) (bufs : List (List UInt8)) (key : Bool) (timestamp delay : UInt32)
    (st : State) : State :=
  let buffer := copyIn bufs []
  let st := updateFragments conf key timestamp st
  {st with ctx:=st.ctx.setTrack ((st.ctx.track ttype).add key timestamp delay buffer) ttype}

structure Codec where
  audioCodecId : Nat
  videoCodecId : Nat
  aacHeader : Bool
  avcHeader : Bool
  deriving DecidableEq, Repr

structure Message where
  type : TrackType
  timestamp : UInt32
  buf : List UInt8
  next : List (List UInt8)
  deriving DecidableEq, Repr

def Message.bytes (m : Message) : List UInt8 := m.buf ++ m.next.flatten

def headerSize : TrackType → Nat
  | .audio => 2
  | .video => 5

-- NGX_RTMP_AUDIO_AAC is 10. false: NGX_ERROR.
def dashAudio (conf : Conf) (codec : Option Codec) (m : Message) (st : State) : State × Bool :=
  match codec with
  | none => (st,true)
  | some codec =>
    if m.bytes.length < 2 then (st,true)
    else if codec.audioCodecId ≠ 10 ∨ codec.aacHeader = false then (st,true)
    else if m.buf.length < 2 then (st,false)
    else if m.buf.getD 1 0 ≠ 1 then (st,true)
    else (append conf .audio (m.buf.drop 2::m.next) false m.timestamp 0 {st with ctx:=st.ctx.setHas .audio},true)

-- NGX_RTMP_VIDEO_H264 is 7.
def dashVideo (conf : Conf) (codec : Option Codec) (m : Message) (st : State) : State × Bool :=
  match codec with
  | none => (st,true)
  | some codec =>
    if codec.avcHeader = false ∨ m.bytes.length < 5 then (st,true)
    else if codec.videoCodecId ≠ 7 then (st,true)
    else if m.buf.length < 5 then (st,false)
    else
      let ftype := (m.buf.getD 0 0).toNat/16
      if m.buf.getD 1 0 ≠ 1 then (st,true)
      else
        let delay := word (m.buf.getD 4 0) (m.buf.getD 3 0) (m.buf.getD 2 0) 0
        (append conf .video (m.buf.drop 5::m.next) (ftype == 1) m.timestamp delay {st with ctx:=st.ctx.setHas .video},true)

-- An audio or video message, or stream_eof or close_stream.
inductive Event where
  | av (codec : Option Codec) (m : Message)
  | close
  deriving DecidableEq, Repr

def step (conf : Conf) (st : State) : Event → State
  | .av codec m =>
    match m.type with
    | .audio => (dashAudio conf codec m st).1
    | .video => (dashVideo conf codec m st).1
  | .close => closeFragments conf st

def closedTrack (ttype : TrackType) : Track := ⟨false,⟨0,ttype,0,0,0,[]⟩,[]⟩

def start : State := ⟨⟨0,0,fun _ => ⟨0,0⟩,false,false,false,0,closedTrack .audio,closedTrack .video⟩,[]⟩

def run (conf : Conf) (events : List Event) : State := events.foldl (step conf) start

def cut : List Entry → List UInt8 → Option (List (List UInt8))
  | [],_ => some []
  | e::entries,bytes =>
    if bytes.length < e.size then none else (cut entries (bytes.drop e.size)).map (bytes.take e.size::·)

def readSegment (file : List UInt8) : Option (List (List UInt8)) :=
  match parse isoShape file with
  | none => none
  | some boxes =>
    match readMoof boxes with
    | none => none
    | some (start,offset,entries) => cut entries (file.drop (start+offset))

def readAll : List File → Option (List (List UInt8))
  | [] => some []
  | file::files =>
    match readSegment file.bytes with
    | none => none
    | some samples => (readAll files).map (samples ++ ·)

-- The samples of all closed segments of a track, in the order of their files.
def described (ttype : TrackType) (files : List File) : Option (List (List UInt8)) :=
  readAll (files.filter fun file => file.type == ttype)

def Message.isMedia (m : Message) : Bool := headerSize m.type ≤ m.bytes.length && m.bytes.getD 1 0 == 1

def Message.payload (m : Message) : List UInt8 := m.bytes.drop (headerSize m.type)

def media (ttype : TrackType) (events : List Event) : List (List UInt8) :=
  events.filterMap fun
    | .av _ m => if m.type == ttype && m.isMedia then some m.payload else none
    | .close => none

def Codec.ready (codec : Codec) : TrackType → Bool
  | .audio => codec.audioCodecId == 10 && codec.aacHeader
  | .video => codec.videoCodecId == 7 && codec.avcHeader

def Message.key (m : Message) : Bool :=
  match m.type with
  | .audio => false
  | .video => (m.buf.getD 0 0).toNat/16 == 1

def begins (conf : Conf) (ctx : Ctx) (m : Message) : Bool := boundary conf (ctx.setHas m.type) m.key m.timestamp

-- What a media message must meet for its payload to be kept.
structure Keeps (conf : Conf) (st : State) (codec : Option Codec) (m : Message) : Prop where
  ready : ∃ c, codec = some c ∧ c.ready m.type = true
  headed : headerSize m.type ≤ m.buf.length
  short : m.payload.length ≤ bufSize
  room : begins conf st.ctx m = false → (st.ctx.track m.type).fragment.samples.length < maxSamples
  fresh : begins conf st.ctx m = true → (∀ file ∈ st.files, file.timestamp ≠ m.timestamp) ∧
    (st.ctx.opened = true → (getFrag conf st.ctx st.ctx.nfrags).timestamp ≠ m.timestamp)

def KeepsRun (conf : Conf) (events : List Event) : Prop :=
  ∀ before codec m after, events = before ++ .av codec m::after → m.isMedia = true → Keeps conf (run conf before) codec m

end NgxRtmp.Dash
