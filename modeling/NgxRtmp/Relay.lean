import NgxRtmp.Lib.Links
import NgxRtmp.Lib.Runs

namespace NgxRtmp.Relay

open Cells

-- ngx_rtmp_relay_ctx_t; `next` is the link of its cell. A context stands for its session. `live`, no
-- field of the source, is set while it is linked.
structure Ctx where
  name : List UInt8
  publish : Option Nat
  play : Option Nat
  staticRelay : Bool
  live : Bool

def Ctx.zeroed : Ctx := ⟨[],none,none,false,false⟩

-- The contexts and racf->ctx, the buckets of the table.
structure Table where
  heap : Heap Ctx
  ctx : Nat → Option Nat

def Table.initial : Table := ⟨⟨fun _ => ⟨.zeroed,none⟩,0⟩,fun _ => none⟩

def modify (h : Heap Ctx) (a : Nat) (change : Ctx → Ctx) : Heap Ctx := h.setVal a (change (h.val a))

abbrev CreateCtx := List UInt8 → Heap Ctx → Option (Heap Ctx × Nat)

def createRemoteCtx (connects : Bool) : CreateCtx := fun name h =>
  if connects then some (h.alloc {Ctx.zeroed with name:=name},h.top) else none

def createLocalCtx (a : Nat) : CreateCtx := fun name h =>
  if (h.val a).publish.isSome then none else some (modify h a ({· with name:=name}),a)

-- ngx_rtmp_relay_create. Nothing is returned when one of its loops does not end.
def create (hash : List UInt8 → Nat) (name : List UInt8) (createPublishCtx createPlayCtx : CreateCtx) (r : Table) : Option Table :=
  match createPlayCtx name r.heap with
  | none => some r
  | some (h,playCtx) =>
    match h.seek (fun c => (h.val c).name == name) h.top none (r.ctx (hash name)) with
    | none => none
    | some (_,some c) =>
      let h := modify h playCtx ({· with publish:=(h.val c).publish,live:=true})
      let h := h.setNext playCtx (h.val c).play
      some {r with heap:=modify h c ({· with play:=some playCtx})}
    | some (slot,none) =>
      match createPublishCtx name h with
      | none => some {r with heap:=h}
      | some (h,publishCtx) =>
        let h := modify h publishCtx ({· with publish:=some publishCtx,play:=some playCtx,live:=true})
        let h := modify h playCtx ({· with publish:=some publishCtx,live:=true})
        some ⟨h.store slot (some publishCtx),
          Function.update r.ctx (hash name) (Slot.root slot (r.ctx (hash name)) (some publishCtx))⟩

def pull (hash : List UInt8 → Nat) (a : Nat) (name : List UInt8) (connects : Bool) : Table → Option Table :=
  create hash name (createRemoteCtx connects) (createLocalCtx a)

def push (hash : List UInt8 → Nat) (a : Nat) (name : List UInt8) (connects : Bool) : Table → Option Table :=
  create hash name (createLocalCtx a) (createRemoteCtx connects)

def orphan (h : Heap Ctx) (a : Nat) : Heap Ctx := modify h a ({· with publish:=none,live:=false})

-- The two ends of ngx_rtmp_relay_close.
def closePlay (a p : Nat) (r : Table) : Option Table :=
  match r.heap.seek (· == a) r.heap.top none (r.heap.val p).play with
  | none => none
  | some (_,none) => some {r with heap:=orphan r.heap a}
  | some (slot,some _) =>
    let h := modify r.heap p ({· with play:=Slot.root slot (r.heap.val p).play (r.heap.next a)})
    some {r with heap:=orphan (h.store slot (r.heap.next a)) a}

def closePublish (hash : List UInt8 → Nat) (a : Nat) (r : Table) : Option Table :=
  match r.heap.chain r.heap.top (r.heap.val a).play with
  | none => none
  | some players =>
    let h := orphan (players.foldl orphan r.heap) a
    let bucket := hash (h.val a).name
    match h.seek (· == a) h.top none (r.ctx bucket) with
    | none => none
    | some (_,none) => some {r with heap:=h}
    | some (slot,some _) =>
      some ⟨h.store slot (h.next a),Function.update r.ctx bucket (Slot.root slot (r.ctx bucket) (h.next a))⟩

-- A static relay only starts its timer.
def close (hash : List UInt8 → Nat) (a : Nat) (r : Table) : Option Table :=
  if (r.heap.val a).staticRelay then some {r with heap:=modify r.heap a ({· with live:=false})}
  else
    match (r.heap.val a).publish with
    | none => some r
    | some p => if p = a then closePublish hash a r else closePlay a p r

-- `accept` is a new client session, `staticPull` a session of
-- ngx_rtmp_relay_static_pull_reconnect.
inductive Event where
  | accept
  | staticPull (name : List UInt8)
  | pull (a : Nat) (name : List UInt8) (connects : Bool)
  | push (a : Nat) (name : List UInt8) (connects : Bool)
  | close (a : Nat)

def handle (hash : List UInt8 → Nat) (r : Table) : Event → Option Table
  | .accept => some {r with heap:=r.heap.alloc .zeroed}
  | .staticPull name => some {r with heap:=r.heap.alloc {Ctx.zeroed with name:=name,staticRelay:=true}}
  | .pull a name connects => if a < r.heap.top then pull hash a name connects r else some r
  | .push a name connects => if a < r.heap.top then push hash a name connects r else some r
  | .close a => if a < r.heap.top then close hash a r else some r

def step (hash : List UInt8 → Nat) (state : Option Table) (event : Event) : Option Table :=
  state.bind (handle hash · event)

-- The entries of the buckets, and behind an entry the contexts of its play list.
inductive Entry (r : Table) : Nat → Prop where
  | first : r.ctx b = some a → Entry r a
  | next : Entry r a → r.heap.next a = some c → Entry r c

inductive Reachable (r : Table) : Nat → Prop where
  | entry : Entry r a → Reachable r a
  | play : Entry r e → (r.heap.val e).play = some a → Reachable r a
  | next : Reachable r a → r.heap.next a = some c → Reachable r c

structure Sound (r : Table) : Prop where
  buckets : ∀ b, ∃ xs, xs.Nodup ∧ Seg r.heap (r.ctx b) xs none
  plays : ∀ e, Entry r e → ∃ xs, xs.Nodup ∧ Seg r.heap (r.heap.val e).play xs none ∧
    ∀ a, a ∈ xs ↔ a ≠ e ∧ (r.heap.val a).live = true ∧ (r.heap.val a).publish = some e
  reached : ∀ a, Reachable r a → (r.heap.val a).live = true ∧ (r.heap.val a).publish ≠ none

@[simp] theorem modify_next : (modify h a change).next x = h.next x :=
  setVal_next h a _ x

@[simp] theorem modify_top : (modify h a change).top = h.top := rfl

theorem modify_val : (modify h a change).val x = if x = a then change (h.val a) else h.val x :=
  setVal_val h a _ x

-- The lists of the table: one for each bucket, one for the players of each entry.
inductive Key where
  | bucket (b : Nat)
  | play (e : Nat)
  deriving DecidableEq

structure Linked (hash : List UInt8 → Nat) (r : Table) (head : Key → Option Nat) (own : Key → List Nat) : Prop where
  family : Family r.heap head own
  rooted : ∀ b, head (.bucket b) = r.ctx b
  named : ∀ b, ∀ e ∈ own (.bucket b), hash (r.heap.val e).name = b
  played : ∀ b, ∀ e ∈ own (.bucket b), head (.play e) = (r.heap.val e).play
  listed : ∀ a e, a ∈ own (.play e) → ∃ b, e ∈ own (.bucket b)
  published : ∀ a e, (r.heap.val a).publish = some e ↔ a ∈ own (.play e) ∨ a = e ∧ ∃ b, e ∈ own (.bucket b)
  live : ∀ a, (r.heap.val a).live = true ↔ (r.heap.val a).publish ≠ none

section Lists

variable {hash : List UInt8 → Nat} {r : Table} {head : Key → Option Nat} {own : Key → List Nat}

section

variable (linked : Linked hash r head own)
include linked

theorem Linked.entry (entry : Entry r e) : ∃ b, e ∈ own (.bucket b) := by
  induction entry with
  | @first b a root => exact ⟨b,linked.family.head_mem ((linked.rooted b).trans root)⟩
  | next _ link ih =>
    obtain ⟨b,member⟩ := ih
    exact ⟨b,linked.family.next_mem member link⟩

theorem Linked.entry_publish (member : e ∈ own (.bucket b)) : (r.heap.val e).publish = some e :=
  (linked.published e e).mpr (.inr ⟨rfl,b,member⟩)

theorem Linked.reachable (reachable : Reachable r a) : ∃ k, a ∈ own k := by
  induction reachable with
  | entry entry =>
    obtain ⟨b,member⟩ := linked.entry entry
    exact ⟨.bucket b,member⟩
  | @play e a entry first =>
    obtain ⟨b,member⟩ := linked.entry entry
    exact ⟨.play e,linked.family.head_mem ((linked.played b e member).trans first)⟩
  | next _ link ih =>
    obtain ⟨k,member⟩ := ih
    exact ⟨k,linked.family.next_mem member link⟩

theorem Linked.listed_publish (member : a ∈ own k) : (r.heap.val a).publish ≠ none := by
  cases k with
  | bucket b =>
    rw [linked.entry_publish member]
    exact Option.some_ne_none a
  | play e =>
    rw [(linked.published a e).mpr (.inl member)]
    exact Option.some_ne_none e

theorem Linked.sound : Sound r := by
  refine ⟨fun b => ⟨own (.bucket b),linked.family.distinct _,?_⟩,fun e entry => ?_,fun a reachable => ?_⟩
  · rw [← linked.rooted b]
    exact linked.family.list (.bucket b)
  · obtain ⟨b,member⟩ := linked.entry entry
    refine ⟨own (.play e),linked.family.distinct _,?_,fun a => ?_⟩
    · rw [← linked.played b e member]
      exact linked.family.list (.play e)
    · constructor
      · intro player
        have publish := (linked.published a e).mpr (.inl player)
        refine ⟨?_,(linked.live a).mpr (linked.listed_publish player),publish⟩
        rintro rfl
        cases linked.family.apart _ _ a player member
      · rintro ⟨other,_,publish⟩
        rcases (linked.published a e).mp publish with player | ⟨same,_⟩
        · exact player
        · exact absurd same other
  · obtain ⟨k,member⟩ := linked.reachable reachable
    have publish := linked.listed_publish member
    exact ⟨(linked.live a).mpr publish,publish⟩

end

end Lists

end NgxRtmp.Relay
