import NgxRtmp.RelayTable

namespace NgxRtmp.Relay

open Cells

-- What ngx_rtmp_relay_create returns, and whether it created the publishing context.
def createResult (hash : List UInt8 → Nat) (name : List UInt8) (createPublishCtx createPlayCtx : CreateCtx) (r : Table) : Bool × Bool :=
  match createPlayCtx name r.heap with
  | none => (false,false)
  | some (h,_) =>
    match h.seek (fun c => (h.val c).name == name) h.top none (r.ctx (hash name)) with
    | none => (false,false)
    | some (_,some _) => (true,false)
    | some (_,none) => ((createPublishCtx name h).isSome,true)

def pushResult (hash : List UInt8 → Nat) (a : Nat) (name : List UInt8) (connects : Bool) : Table → Bool × Bool :=
  createResult hash name (createLocalCtx a) (createRemoteCtx connects)

def Entered (r : Table) (e : Nat) : Prop := (r.heap.val e).publish = some e

instance (r : Table) (e : Nat) : Decidable (Entered r e) := inferInstanceAs (Decidable ((r.heap.val e).publish = some e))

section Effects

variable {hash : List UInt8 → Nat} {r after : Table} {head : Key → Option Nat} {own : Key → List Nat}

theorem Linked.entered (linked : Linked hash r head own) : Entered r e ↔ ∃ b, e ∈ own (.bucket b) := by
  constructor
  · intro publish
    rcases (linked.published e e).mp publish with player | ⟨_,entry⟩
    · exact linked.listed e e player
    · exact entry
  · rintro ⟨b,member⟩
    exact linked.entry_publish member

structure Closed (r : Table) (a : Nat) (after : Table) : Prop where
  top : after.heap.top = r.heap.top
  kept : ∀ x e, (r.heap.val x).publish = some e → x ≠ a → e ≠ a → (after.heap.val x).publish = some e
  old : ∀ x e, (after.heap.val x).publish = some e → (r.heap.val x).publish = some e

end Effects

end NgxRtmp.Relay
