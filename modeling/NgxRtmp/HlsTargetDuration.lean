import NgxRtmp.HlsWindowRuns

namespace NgxRtmp.HlsWindow
open Function List

inductive Act where
  | update (m : Message)
  | close (written : Bool)

def act (conf : Conf) (relay : Bool) (ctx : Ctx) : Act → Ctx × Option Closed
  | .update m => updateFragment conf relay m ctx
  | .close written => closeFragment conf written ctx

structure Span where
  first : UInt64
  last : UInt64
  deriving DecidableEq

def Span.ticks (s : Span) : UInt64 := s.last-s.first

-- The fragments of the ring with these times. Nothing of them is read by the code.
structure Timed where
  ctx : Ctx
  times : Nat → Span

def Timed.start (ctx : Ctx) : Timed := ⟨ctx,fun k => ⟨ctx.fragTs,ctx.fragTs+(ctx.frags k).duration⟩⟩

def Timed.measured (conf : Conf) (t : Timed) (ts : UInt64) : Nat → Span :=
  if t.ctx.opened ∧ jumped conf t.ctx ts = false then
    update t.times (slot conf t.ctx t.ctx.nfrags) ⟨(t.times (slot conf t.ctx t.ctx.nfrags)).first,ts⟩
  else t.times

def spans (conf : Conf) (ctx : Ctx) (times : Nat → Span) : List Span :=
  (range ctx.nfrags).map fun i => times (slot conf ctx i)

-- The context has closed its fragment when the playlist is written, and not opened another.
def Timed.step (conf : Conf) (relay : Bool) (t : Timed) (next : Act) : Timed × Option (Playlist × List Span) :=
  let once := act conf relay t.ctx next
  match next with
  | .close written => (⟨once.1,t.times⟩,(once.2.bind Closed.playlist).map (·,spans conf (closeFragment conf written t.ctx).1 t.times))
  | .update m =>
    let times := t.measured conf m.ts
    (⟨once.1,if opens t.ctx once then update times (slot conf once.1 once.1.nfrags) ⟨m.ts,m.ts⟩ else times⟩,
      (once.2.bind Closed.playlist).map (·,spans conf (closeFragment conf m.written t.ctx).1 times))

def Timed.run (conf : Conf) (relay : Bool) : Timed → List Act → List (Playlist × List Span)
  | _,[] => []
  | t,next::rest =>
    let once := t.step conf relay next
    once.2.toList ++ Timed.run conf relay once.1 rest

structure Timed.Right (conf : Conf) (t : Timed) : Prop where
  durations : ∀ k, (t.ctx.frags k).duration = (t.times k).ticks
  opening : t.ctx.opened = true → t.ctx.fragTs = (t.times (slot conf t.ctx t.ctx.nfrags)).first

theorem closed_right (right : Timed.Right conf ⟨ctx,times⟩) (written : Bool) :
    Timed.Right conf ⟨(closeFragment conf written ctx).1,times⟩ := by
  unfold closeFragment
  split
  · refine ⟨?_,?_⟩
    · intro k
      unfold nextFrag
      split <;> exact right.durations k
    · unfold nextFrag
      intro opened
      split at opened <;> cases opened
  · exact right

def Shown (conf : Conf) (shown : Playlist × List Span) : Prop :=
  ∃ ctx, shown.1 = writePlaylist conf ctx ∧ (entries conf ctx).map Frag.duration = shown.2.map Span.ticks

-- Below half a second over the length, or over the whole seconds of a listed fragment.
def Within (conf : Conf) (listed : List Span) : Prop :=
  ∀ s ∈ listed, s.ticks.toNat < conf.fraglen/1000*90000+45000 ∨
    conf.slicingWay = 0 ∧ ∃ other ∈ listed, s.ticks.toNat < other.ticks.toNat/90000*90000+45000

end NgxRtmp.HlsWindow
