import Mathlib

namespace NgxRtmp.HlsWindow

inductive Naming where
  | sequential
  | timestamp
  | system
  deriving DecidableEq

inductive Slicing where
  | plain
  | aligned
  deriving DecidableEq

structure Conf where
  fraglen : Nat
  maxFraglen : Nat
  winfrags : Nat
  slicingWay : Nat
  slicing : Slicing
  naming : Naming
  granularity : Nat

-- ngx_rtmp_hls_frag_t. A duration counts ticks of the 90 kHz clock.
structure Frag where
  id : UInt64
  duration : UInt64
  active : Bool
  discont : Bool
  deriving DecidableEq

structure Ctx where
  opened : Bool
  sliced : Bool
  frag : UInt64
  fragTs : UInt64
  nfrags : Nat
  frags : Nat → Frag
  baseTimestamp : UInt32
  isFirstPackge : Bool

-- The context ngx_rtmp_hls_publish leaves, with the fragments of an earlier publish
-- still in their slots.
def published (frags : Nat → Frag) : Ctx := ⟨false,false,0,0,0,frags,0,true⟩

def startHlsSlice (relay : Bool) (frag fragTs : UInt64) (ctx : Ctx) : Ctx :=
  if relay ∧ ctx.sliced = false then {ctx with frag:=frag,fragTs:=fragTs,sliced:=true} else ctx

def slot (conf : Conf) (ctx : Ctx) (n : Nat) : Nat := (ctx.frag+UInt64.ofNat n).toNat % (conf.winfrags*2+1)

def getFrag (conf : Conf) (ctx : Ctx) (n : Nat) : Frag := ctx.frags (slot conf ctx n)

def setFrag (conf : Conf) (ctx : Ctx) (n : Nat) (f : Frag) : Ctx :=
  {ctx with frags:=Function.update ctx.frags (slot conf ctx n) f}

def nextFrag (conf : Conf) (ctx : Ctx) : Ctx :=
  if ctx.nfrags = conf.winfrags then {ctx with frag:=ctx.frag+1} else {ctx with nfrags:=ctx.nfrags+1}

structure Playlist where
  sequence : UInt64
  target : Nat
  entries : List Frag
  deriving DecidableEq

def entries (conf : Conf) (ctx : Ctx) : List Frag := (List.range ctx.nfrags).map (getFrag conf ctx)

def maxFrag (conf : Conf) (ctx : Ctx) : Nat :=
  if conf.slicingWay = 0 then
    (entries conf ctx).foldl
      (fun longest f => if f.duration.toNat > longest*90000 then f.duration.toNat/90000 else longest) (conf.fraglen/1000)
  else conf.fraglen/1000

def writePlaylist (conf : Conf) (ctx : Ctx) : Playlist := ⟨ctx.frag,maxFrag conf ctx,entries conf ctx⟩

-- A fragment as it stood when it was closed, and the playlist written then unless a
-- file operation failed.
structure Closed where
  frag : Frag
  playlist : Option Playlist
  deriving DecidableEq

def closeFragment (conf : Conf) (written : Bool) (ctx : Ctx) : Ctx × Option Closed :=
  if ctx.opened then
    let after := nextFrag conf {ctx with opened:=false}
    (after,some ⟨getFrag conf ctx ctx.nfrags,if written then some (writePlaylist conf after) else none⟩)
  else (ctx,none)

def getFragmentId (conf : Conf) (ctx : Ctx) (ts system : UInt64) : UInt64 :=
  match conf.naming with
  | .timestamp => ts
  | .system => system
  | .sequential => ctx.frag+UInt64.ofNat ctx.nfrags

def granulate (conf : Conf) (id : UInt64) : UInt64 :=
  if conf.granularity = 0 then id else id/UInt64.ofNat conf.granularity*UInt64.ofNat conf.granularity

-- `made` says whether the directory, the file and its header could be written.
def openFragment (conf : Conf) (ts system : UInt64) (discont made : Bool) (ctx : Ctx) : Ctx :=
  if ctx.opened then ctx
  else if made then
    let id := granulate conf (getFragmentId conf ctx ts system)
    setFrag conf {ctx with opened:=true,fragTs:=ts} ctx.nfrags ⟨id,0,true,discont⟩
  else ctx

-- ngx_rtmp_hls_update_fragment: the open fragment is measured unless the clock jumped.
def jumped (conf : Conf) (ctx : Ctx) (ts : UInt64) : Bool :=
  let d := (ts-ctx.fragTs).toBitVec.toInt
  d > conf.maxFraglen*90 ∨ d < -90000

def measure (conf : Conf) (ts : UInt64) (ctx : Ctx) : Ctx :=
  if ctx.opened ∧ jumped conf ctx ts = false then
    setFrag conf ctx ctx.nfrags {getFrag conf ctx ctx.nfrags with duration:=ts-ctx.fragTs}
  else ctx

-- The last event moves the clocks without touching a fragment.
inductive Event where
  | measure (ts : UInt64)
  | close (written : Bool)
  | open (ts system : UInt64) (discont made : Bool)
  | clock (fragTs : UInt64) (baseTimestamp : UInt32) (isFirstPackge : Bool)

def step (conf : Conf) (ctx : Ctx) : Event → Ctx × Option Closed
  | .measure ts => (HlsWindow.measure conf ts ctx,none)
  | .close written => closeFragment conf written ctx
  | .open ts system discont made => (openFragment conf ts system discont made ctx,none)
  | .clock fragTs base first => ({ctx with fragTs:=fragTs,baseTimestamp:=base,isFirstPackge:=first},none)

def run (conf : Conf) : Ctx → List Event → Ctx × List Closed
  | ctx,[] => (ctx,[])
  | ctx,event::rest =>
    let once := step conf ctx event
    let later := run conf once.1 rest
    (later.1,once.2.toList ++ later.2)

-- One message of the publisher. `relay` is the flag of the session.
structure Message where
  ts : UInt64
  timestamp : UInt32
  boundary : Bool
  system : UInt64
  made : Bool
  written : Bool

def sameFrag (conf : Conf) (ctx : Ctx) (ts : UInt64) : Bool :=
  ctx.fragTs.toNat/(conf.fraglen*90) == ts.toNat/(conf.fraglen*90)

-- The boundary that is left after the slicing rule, with the time of the fragment.
def slice (conf : Conf) (ctx : Ctx) (m : Message) : Bool × UInt64 :=
  match conf.slicing with
  | .plain =>
    if ctx.opened ∧ (getFrag conf ctx ctx.nfrags).duration.toNat < conf.fraglen*90 then (false,ctx.fragTs)
    else (m.boundary,ctx.fragTs)
  | .aligned =>
    if ctx.opened then (if sameFrag conf ctx m.ts then false else m.boundary,ctx.fragTs)
    else if ctx.fragTs = 0 ∨ sameFrag conf ctx m.ts then (false,m.ts)
    else (m.boundary,ctx.fragTs)

def turnOver (conf : Conf) (m : Message) (discont : Bool) (ctx : Ctx) : Ctx × Option Closed :=
  let closed := closeFragment conf m.written ctx
  (openFragment conf m.ts m.system discont m.made closed.1,closed.2)

def updateFragment (conf : Conf) (relay : Bool) (m : Message) (ctx : Ctx) : Ctx × Option Closed :=
  let force := ctx.opened && jumped conf ctx m.ts
  let discont := !(ctx.opened && !jumped conf ctx m.ts)
  let measured := measure conf m.ts ctx
  let sliced := slice conf measured m
  let ctx := {measured with fragTs:=sliced.2}
  let held := relay && !ctx.sliced
  if conf.slicingWay = 1 then
    let now := UInt32.ofNat (m.ts.toNat/90)
    if ctx.isFirstPackge then ({ctx with baseTimestamp:=now,isFirstPackge:=false},none)
    else if (now-ctx.baseTimestamp).toBitVec.toInt ≥ (UInt32.ofNat conf.fraglen).toBitVec.toInt then
      let ctx := {ctx with baseTimestamp:=m.timestamp}
      if held then (ctx,none) else turnOver conf m discont ctx
    else (ctx,none)
  else if (sliced.1 || force) && !held then turnOver conf m discont ctx
  else (ctx,none)

end NgxRtmp.HlsWindow
