import NgxRtmp.RelayPush

namespace NgxRtmp.RelayPush

open Relay Cells

-- The name's entry is the session's own, or there is none and the session is in no list.
structure Ready (r : Table) (a : Nat) (name : List UInt8) : Prop where
  sole : ∀ e, e < r.heap.top → Entered r e → (r.heap.val e).name = name → e = a
  own : Entered r a ∧ (r.heap.val a).name = name ∨ (r.heap.val a).publish = none ∧ r.heap.next a = none

structure Core (conf : Conf) (s : State) : Prop where
  linked : ∃ head own, Linked conf.hash s.table head own
  made : ∀ e, Entered s.table e → (s.session e).made = true
  timers : ∀ a, (s.session a).timer = true → (s.session a).made = true
  beyond : ∀ x, s.table.heap.top ≤ x → s.session x = .client

def Covered (s : State) (a data : Nat) : Prop :=
  (s.session a).timer = true ∨ ∃ x, x ≠ a ∧ (s.table.heap.val x).publish = some a ∧ (s.session x).data = some data

structure Session.Stays (v w : Session) : Prop where
  data : ∀ data, v.data = some data → w.data = some data
  timer : v.timer = true → w.timer = true
  made : v.made = true → w.made = true
  stream : w.stream = v.stream

theorem Session.Stays.refl (v : Session) : v.Stays v := ⟨fun _ found => found,fun on => on,fun on => on,rfl⟩

structure Keeps (s s' : State) : Prop where
  top : s.table.heap.top ≤ s'.table.heap.top
  publish : ∀ x e, (s.table.heap.val x).publish = some e → (s'.table.heap.val x).publish = some e
  session : ∀ x, (s.session x).Stays (s'.session x)

section Steps

variable {conf : Conf} {s s' s'' : State}

theorem Keeps.refl (s : State) : Keeps s s := ⟨le_rfl,fun _ _ found => found,fun _ => .refl _⟩

theorem Keeps.trans (first : Keeps s s') (second : Keeps s' s'') : Keeps s s'' := by
  refine ⟨le_trans first.top second.top,fun x e found => second.publish x e (first.publish x e found),fun x => ?_⟩
  have before := first.session x
  have after := second.session x
  exact ⟨fun d found => after.data d (before.data d found),fun on => after.timer (before.timer on),
    fun on => after.made (before.made on),after.stream.trans before.stream⟩

theorem Keeps.covered (keeps : Keeps s s') (covered : Covered s a d) : Covered s' a d := by
  rcases covered with on | ⟨x,other,publish,found⟩
  · exact .inl ((keeps.session a).timer on)
  · exact .inr ⟨x,other,keeps.publish x a publish,(keeps.session x).data d found⟩

theorem Ready.fresh (ready : Ready r a name) (hash : List UInt8 → Nat) : Relay.fresh hash r a name := by
  intro idle _
  rcases ready.own with ⟨entered,_⟩ | ⟨_,ends⟩
  · rw [Entered,idle] at entered
    cases entered
  · exact ends

end Steps

end NgxRtmp.RelayPush
