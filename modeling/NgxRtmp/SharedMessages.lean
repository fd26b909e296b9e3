import NgxRtmp.SharedRuns

namespace NgxRtmp.Shared
open Cells OutQueue Runs

def Event.Powers : Event → Prop
  | .accept _ _ conf => ∃ k, k < 64 ∧ conf.outQueue = 2^k
  | _ => True

-- It is queued and given back with the chunk size it was built for.
def Fits (chunkSize : Nat → Nat) (s : System) : Event → Prop
  | .offer i c _ _ => ∀ t, s.sessions[i]? = some (some t) → chunkSize (s.origin c) = chunkSize t.server
  | .drop v c => chunkSize (s.origin c) = chunkSize v
  | .av av turns => (∀ c ∈ av.metadata, chunkSize (s.origin c) = chunkSize av.cscf) ∧
      ∀ t ∈ turns, t.passed = false → ∀ u, s.sessions[t.session]? = some (some u) → chunkSize u.server = chunkSize av.cscf
  | .select i v => ∀ t, s.sessions[i]? = some (some t) → contents t.out = [] ∨ chunkSize v = chunkSize t.server
  | _ => True

section Runs
variable {chunkSize : Nat → Nat} {exact sized : Prop} {s : System}

theorem handle_valid (valid : Valid chunkSize exact sized s) (power : exact → event.Powers)
    (fits : sized → Fits chunkSize s event) :
    ∃ next, handle chunkSize s event = some next ∧ Valid chunkSize exact sized next := by
  cases event with
  | accept server hls conf =>
    refine ⟨_,rfl,accept_valid valid server hls conf fun on => ?_⟩
    obtain ⟨k,small,same⟩ := power on
    rw [same]
    exact ⟨Nat.pow_dvd_pow 2 (le_of_lt small),Nat.pow_lt_pow_right (by decide) small⟩
  | build server bytes => exact ⟨_,rfl,(build_valid valid server bytes).1⟩
  | offer i c priority socket =>
    simp only [handle]
    split
    · rename_i holds
      obtain ⟨rc,next,sent,after,_⟩ := sendMessage_valid valid holds
        (fun on t found => (valid.origin on c (held_builder holds)).trans (fits on t found)) priority socket
      exact ⟨next,by rw [sent]; rfl,after⟩
    · exact ⟨s,rfl,valid⟩
  | drop v c =>
    simp only [handle]
    split
    · rename_i holds
      obtain ⟨next,dropped,after,_⟩ := drop_valid valid holds
        fun on => (valid.origin on c (held_builder holds)).trans (fits on)
      exact ⟨next,dropped,after⟩
    · exact ⟨s,rfl,valid⟩
  | av av turns =>
    simp only [handle]
    split
    · rename_i codec
      obtain ⟨next,aired,after,_⟩ := liveAv_valid valid codec
        (fun on c member => (valid.origin on c (held_builder (codec c member))).trans ((fits on).1 c member))
        fun on => (fits on).2
      exact ⟨next,aired,after⟩
    · exact ⟨s,rfl,valid⟩
  | writable i timedout socket => exact writable_valid valid i timedout socket
  | close i => exact closeSessionHandler_valid valid i
  | select i v => exact ⟨_,rfl,setVirtualServer_valid valid i v fits⟩

def Standing (chunkSize : Nat → Nat) (exact sized : Prop) (state : Option System) : Prop :=
  ∃ s, state = some s ∧ Valid chunkSize exact sized s

def Allowed (chunkSize : Nat → Nat) (exact sized : Prop) (state : Option System) (event : Event) : Prop :=
  (exact → event.Powers) ∧ (sized → ∀ s, state = some s → Fits chunkSize s event)

theorem step_standing (state : Option System) (event : Event) (allowed : Allowed chunkSize exact sized state event)
    (standing : Standing chunkSize exact sized state) : Standing chunkSize exact sized (step chunkSize state event) := by
  obtain ⟨s,rfl,valid⟩ := standing
  exact handle_valid valid allowed.1 fun on => allowed.2 on s rfl

theorem run_standing (path : Along (step chunkSize) (Allowed chunkSize exact sized) (some initial) events) :
    Standing chunkSize exact sized (run chunkSize events) :=
  run_invariant step_standing ⟨initial,rfl,initial_valid⟩ path

theorem held_references (valid : Valid chunkSize True sized s) : (held s).count c = s.references c := by
  have same : s.sessions.flatMap heldSlots = s.sessions.flatMap slots := by
    refine List.flatMap_congr fun session member => ?_
    cases session with
    | none => rfl
    | some t => rw [heldSlots,slots,((valid.steady t member).fine trivial).1.contents]
  rw [held,List.count_append,System.references,same]

theorem Valid.counted (valid : Valid chunkSize True sized s) : Counted s := by
  obtain ⟨lost,own,linked,none⟩ := valid.linked
  rw [none trivial,List.append_nil] at linked
  have used : ∀ c, c ∈ held s ↔ s.references c ≠ 0 := by
    intro c
    rw [← held_references valid,← List.count_pos_iff,Nat.pos_iff_ne_zero]
  refine ⟨fun c positive => ?_,fun c => ?_,fun c v positive => ?_⟩
  · rw [linked.counted c ((used c).mpr positive),held_references valid]
  · rw [linked.history c]
    by_cases member : c ∈ held s
    · rw [if_pos member,if_neg ((used c).mp member)]
    · rw [if_neg member,if_pos (Decidable.byContradiction fun positive => member ((used c).mpr positive))]
  · have member := (used c).mpr positive
    have walk := linked.family.chain (.chain c)
    rw [heads,if_pos member] at walk
    refine ⟨_,_,walk,linked.family.chain (.free v),linked.first member,fun x mine free => ?_⟩
    cases linked.family.apart _ _ x mine free

theorem Valid.homogeneous (valid : Valid chunkSize exact True s) : Homogeneous chunkSize s.pool := by
  obtain ⟨lost,own,linked,_⟩ := valid.linked
  refine ⟨fun v => ⟨own (.free v),linked.family.chain (.free v),(linked.fits trivial).free v⟩,fun v => ?_⟩
  obtain ⟨_,_,loose,_⟩ := allocSharedBuf_linked linked v
  exact loose.size trivial

theorem references_counted (chunkSize : Nat → Nat) (events : List Event) (powers : ∀ event ∈ events, event.Powers) :
    ∃ s, run chunkSize events = some s ∧ Counted s := by
  have path : Along (step chunkSize) (Allowed chunkSize True False) (some initial) events :=
    along_each events (fun event member state => ⟨fun _ => powers event member,fun off => off.elim⟩) _
  obtain ⟨s,reached,valid⟩ := run_standing path
  exact ⟨s,reached,valid.counted⟩

theorem references_held (s : System) (c : Nat) : s.references c ≤ (held s).count c := by
  rw [held,List.count_append]
  refine Nat.add_le_add_left ?_ _
  induction s.sessions with
  | nil => exact le_rfl
  | cons session rest ih =>
    rw [List.flatMap_cons,List.flatMap_cons,List.count_append,List.count_append]
    refine Nat.add_le_add ?_ ih
    cases session with
    | none => exact le_rfl
    | some t =>
      have within : waiting t.out ≤ holding t.out := by
        unfold holding
        split <;> omega
      exact ((List.range_sublist.mpr within).filterMap _ |>.map _).count_le c

-- A queue of any length loses references and never buffers that are held.
theorem held_kept (chunkSize : Nat → Nat) (events : List Event) : ∃ s, run chunkSize events = some s ∧
    ∀ c, s.references c ≠ 0 → s.references c ≤ (s.pool.heap.val c).ref ∧
      ∀ cscf, ∃ cells free, s.pool.cells c = some cells ∧ s.pool.freeCells cscf = some free ∧ c ∈ cells ∧ ∀ x ∈ cells, x ∉ free := by
  have path : Along (step chunkSize) (Allowed chunkSize False False) (some initial) events :=
    along_mono (fun _ _ _ => ⟨fun off => off.elim,fun off => off.elim⟩) (along_always events _)
  obtain ⟨s,reached,valid⟩ := run_standing path
  obtain ⟨lost,own,linked,_⟩ := valid.linked
  refine ⟨s,reached,fun c positive => ?_⟩
  have atLeast := references_held s c
  have member : c ∈ held s ++ lost := List.mem_append_left _ (List.count_pos_iff.mp (by omega))
  refine ⟨?_,fun v => ?_⟩
  · rw [linked.counted c member,List.count_append]
    omega
  · have walk := linked.family.chain (.chain c)
    rw [heads,if_pos member] at walk
    refine ⟨_,_,walk,linked.family.chain (.free v),linked.first member,fun x mine free => ?_⟩
    cases linked.family.apart _ _ x mine free

theorem pools_homogeneous (chunkSize : Nat → Nat) (events : List Event)
    (path : Along (step chunkSize) (fun state event => ∀ s, state = some s → Fits chunkSize s event) (some initial) events)
    (n : Nat) : ∃ s, run chunkSize (events.take n) = some s ∧ Homogeneous chunkSize s.pool := by
  have both : Along (step chunkSize) (Allowed chunkSize False True) (some initial) events :=
    along_mono (fun _ _ fits => ⟨fun off => off.elim,fun _ => fits⟩) path
  obtain ⟨s,reached,valid⟩ := run_standing (along_take n events both)
  exact ⟨s,reached,valid.homogeneous⟩

end Runs

def fourSlots : QueueConf := ⟨4,0,false,by decide⟩

-- Two subscribers queue a message of two buffers; one sends it, the other is closed.
def delivery : List Event :=
  [.accept 0 false fourSlots,.accept 0 false fourSlots,.build 0 ⟨[1],[[2]]⟩,.offer 0 0 0 [],.offer 1 0 0 [],.drop 0 0,
    .writable 0 false [.sent 1,.sent 1],.close 1]

theorem references_counted_delivery : (∀ event ∈ delivery, event.Powers) ∧
    ∃ s, run (fun _ => 128) delivery = some s ∧ Counted s := by
  have powers : ∀ event ∈ delivery, event.Powers := by
    simp only [delivery,List.forall_mem_cons]
    exact ⟨⟨2,by decide,rfl⟩,⟨2,by decide,rfl⟩,trivial,trivial,trivial,trivial,trivial,trivial,nofun⟩
  exact ⟨powers,references_counted (fun _ => 128) delivery powers⟩

-- Server 1 writes larger chunks than the others.
def twoSizes (cscf : Nat) : Nat := if cscf = 1 then 4096 else 128

-- A session takes a queued message along to another server and is closed there.
def carried (server : Nat) : List Event :=
  [.accept 0 false fourSlots,.build 0 ⟨[1],[]⟩,.offer 0 0 0 [],.drop 0 0,.select 0 server,.close 0]

theorem pools_homogeneous_same_size :
    Along (step twoSizes) (fun state event => ∀ s, state = some s → Fits twoSizes s event) (some initial) (carried 2) ∧
    ∃ s, run twoSizes ((carried 2).take 6) = some s ∧ Homogeneous twoSizes s.pool := by
  have path : Along (step twoSizes) (fun state event => ∀ s, state = some s → Fits twoSizes s event) (some initial) (carried 2) := by
    refine ⟨fun _ _ => trivial,fun _ _ => trivial,?_,?_,?_,fun _ _ => trivial,trivial⟩
    · rintro _ ⟨⟩ t ⟨⟩
      rfl
    · rintro _ ⟨⟩
      rfl
    · rintro _ ⟨⟩ t ⟨⟩
      exact .inr rfl
  exact ⟨path,pools_homogeneous twoSizes (carried 2) path 6⟩

theorem foreign_buffer_pooled : ∃ s, run twoSizes (carried 1) = some s ∧
    (allocSharedBuf twoSizes s.pool 1).2.size (allocSharedBuf twoSizes s.pool 1).1 = 128 ∧ twoSizes 1 = 4096 ∧
    ¬Homogeneous twoSizes s.pool := by
  refine ⟨_,rfl,rfl,rfl,fun homogeneous => ?_⟩
  have size := homogeneous.alloc 1
  have small : (128 : Nat) = 4096 := size
  cases small

end NgxRtmp.Shared
