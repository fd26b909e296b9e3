import NgxRtmp.Lockstep
import NgxRtmp.PendingData

namespace NgxRtmp.Recv
open ChunkWriter
open NgxRtmp.Flow (capacity State)

-- The next buffer is of the current chunk size, and the bytes not yet parsed fit into it.
def LeftoverFits (c : Config) : Prop :=
  ∀ l ∈ c.loop, l.oldSize ≠ 0 →
    ((acquire c.s).2.buf (acquire c.s).1).size = capacity (acquire c.s).2.core.chunkSize ∧
      l.oldSize ≤ ((acquire c.s).2.buf (acquire c.s).1).size

instance (c : Config) : Decidable (LeftoverFits c) := by
  unfold LeftoverFits
  infer_instance

theorem Waiting.room (waiting : Waiting s f oldPos oldSize kept) (carried : oldSize ≠ 0) :
    oldSize ≤ capacity s.core.chunkSize := by
  cases waiting with
  | leftover _ _ _ _ _ room => exact room
  | finished _ _ _ _ => exact absurd rfl carried
  | partly _ _ _ _ => exact absurd rfl carried

theorem Related.leftoverFits (related : Related c d) : LeftoverFits c := by
  cases related with
  | dead _ _ _ => intro l inside; cases inside
  | idle _ _ => intro l inside; cases inside
  | busy resting waiting _ =>
    intro l inside carried
    cases inside
    obtain ⟨now,held,found,pending,_⟩ := acquire_resting resting waiting
    have size := (held.fits found).size
    have room := pending.room carried
    exact ⟨size,size ▸ room⟩

theorem run_leftoverFits (events : Events) (conf : SrvConf) (chunkSize : Nat) (socket : List Read) (turns : Nat)
    (path : Runs.Along (fun c _ => Flow.step events c) (fun c _ => mildStep events c = true)
      (Flow.start conf chunkSize socket) (List.replicate turns ())) :
    LeftoverFits (run events (start conf chunkSize socket) turns) :=
  (run_related events turns (start_related conf chunkSize socket) path).leftoverFits

def resizedInput (size : UInt8) (behind : Nat) : List UInt8 :=
  [0x02,0,0,0,0,0,4,1,0,0,0,0] ++ [0,0,0,size] ++ List.replicate behind 0

def resizedRun (size : UInt8) (behind : Nat) : Config :=
  run protocolEvents (start sampleConf 128 [.data (resizedInput size behind) true]) 2

theorem run_leftoverFits_resized : (resizedRun 1 19).loop.map (·.oldSize) = some 19 ∧ LeftoverFits (resizedRun 1 19) := by
  refine ⟨by decide +kernel,run_leftoverFits _ _ _ _ 2 ⟨?_,?_,trivial⟩⟩ <;> decide +kernel

theorem resized_leftover_overflows :
    (resizedRun 1 130).loop.map (·.oldSize) = some 130 ∧ (resizedRun 1 130).s.core.chunkSize = 1 ∧
      ¬ LeftoverFits (resizedRun 1 130) := by
  refine ⟨?_,?_,?_⟩ <;> decide +kernel

end NgxRtmp.Recv
