import NgxRtmp.LiveTableEffects
import NgxRtmp.Lib.Counting

namespace NgxRtmp.LiveCounters

open LiveTable Cells

-- ngx_rtmp_publishing and ngx_rtmp_playing, which never come near a wrap.
structure Counters where
  publishing : Nat
  playing : Nat
  deriving DecidableEq

-- The live applications of one worker, each with its table, and the counters that
-- they share.
structure World (n : Nat) where
  tables : Fin n → Table
  counters : Counters

def World.initial (n : Nat) : World n := ⟨fun _ => .initial,⟨0,0⟩⟩

-- ngx_rtmp_live_play and ngx_rtmp_live_close_stream; the publish handler counts nothing.
def count (t : Table) (counters : Counters) : Event → Counters
  | .play a _ _ _ => if a < t.contexts.top then {counters with playing:=counters.playing+1} else counters
  | .close a =>
    if a < t.contexts.top && (t.context a).stream.isSome then
      if (t.context a).publishing then {counters with publishing:=counters.publishing-1}
      else {counters with playing:=counters.playing-1}
    else counters
  | _ => counters

def handle (confs : Fin n → Conf) (w : World n) (k : Fin n) (event : Event) : Option (World n) :=
  (LiveTable.handle (confs k) (w.tables k) event).map fun t => ⟨Function.update w.tables k t,count (w.tables k) w.counters event⟩

def step (confs : Fin n → Conf) (state : Option (World n)) (event : Fin n × Event) : Option (World n) :=
  state.bind (handle confs · event.1 event.2)

def joinedAs (publisher : Bool) (ctx : Ctx) : Bool := ctx.stream.isSome && publisher == ctx.publishing
def members (publisher : Bool) (t : Table) : Nat := Nat.count (fun a => joinedAs publisher (t.context a)) t.contexts.top
def World.members (publisher : Bool) (w : World n) : Nat := ∑ k, LiveCounters.members publisher (w.tables k)

def enters (conf : Conf) (t : Table) (publisher : Bool) : Event → Nat
  | .publish a name => if a < t.contexts.top ∧ joins conf t a name true false ∧ publisher = true then 1 else 0
  | .play a name relayed _ => if a < t.contexts.top ∧ joins conf t a name false relayed ∧ publisher = false then 1 else 0
  | _ => 0

def leaves (t : Table) (publisher : Bool) : Event → Nat
  | .close a => if a < t.contexts.top ∧ joinedAs publisher (t.context a) then 1 else 0
  | _ => 0

def plays (t : Table) : Event → Nat
  | .play a _ _ _ => if a < t.contexts.top then 1 else 0
  | _ => 0

section Members

variable {conf : Conf} {t u : Table}

theorem count_exact : count t counters event =
    ⟨counters.publishing-leaves t true event,counters.playing+plays t event-leaves t false event⟩ := by
  cases event with
  | close a =>
    by_cases inside : a < t.contexts.top
    · cases joined : (t.context a).stream with
      | none => simp [count,leaves,plays,joinedAs,inside,joined]
      | some i => cases side : (t.context a).publishing <;> simp [count,leaves,plays,joinedAs,inside,joined,side]
    · simp [count,leaves,plays,inside]
  | play a name relayed relaying =>
    simp only [count,leaves,plays]
    split <;> rfl
  | accept => rfl
  | publish a name => rfl
  | check i => rfl

theorem effect_members (publisher : Bool) (inside : a < t.contexts.top) (effect : Effect t u a ctx) :
    members publisher u+(if joinedAs publisher (t.context a) then 1 else 0) =
      members publisher t+if joinedAs publisher ctx then 1 else 0 := by
  have changed := Counting.count_change (p:=fun x => joinedAs publisher (u.context x)) (q:=fun x => joinedAs publisher (t.context x)) inside
    fun x other => by rw [effect.others x other]
  rw [effect.own] at changed
  unfold members
  rw [effect.top]
  exact changed

theorem joined_members (inside : a < t.contexts.top) (joined : Joined conf t a name side relayed u) :
    members publisher u = members publisher t+if joins conf t a name side relayed ∧ publisher = side then 1 else 0 := by
  cases joined with
  | already joined =>
    have skipped : joins conf t a name side relayed = false := by simp [joins,joined]
    simp [skipped]
  | refused idle skipped effect =>
    have changed := effect_members publisher inside effect
    simpa [joinedAs,idle,skipped,Ctx.zeroed] using changed
  | linked idle taken effect _ =>
    have changed := effect_members publisher inside effect
    simpa [joinedAs,idle,taken] using changed

theorem handled_members (publisher : Bool) (handled : Handled conf t event u) :
    members publisher u+leaves t publisher event = members publisher t+enters conf t publisher event := by
  cases handled with
  | outside session outside =>
    cases event with
    | accept => cases session
    | check i => cases session
    | publish b name =>
      cases session
      simp [leaves,enters,outside]
    | play b name relayed relaying =>
      cases session
      simp [leaves,enters,outside]
    | close b =>
      cases session
      simp [leaves,enters,outside]
  | accepted =>
    have same : members publisher {t with contexts:=t.contexts.alloc .zeroed} = members publisher t := by
      unfold members
      change Nat.count _ (t.contexts.top+1) = _
      rw [Nat.count_succ,Counting.count_congr (q:=fun x => joinedAs publisher (t.context x)) fun x below => ?_]
      · simp [Table.context,alloc_val,joinedAs,Ctx.zeroed]
      · simp [Table.context,alloc_val,ne_of_lt below]
    rw [same]
    rfl
  | published inside joined =>
    simpa [leaves,enters,inside] using joined_members inside joined
  | played inside joined =>
    simpa [leaves,enters,inside] using joined_members inside joined
  | idle idle => simp [leaves,enters,joinedAs,idle]
  | closed inside joined effect =>
    simpa [leaves,enters,inside,joinedAs] using effect_members publisher inside effect
  | checked same _ =>
    have kept : members publisher u = members publisher t := by
      unfold members Table.context
      rw [same]
    rw [kept]
    rfl

def Published (t : Table) (name : Name) : Prop := ∃ i, InTable t i ∧ (t.stream i).name = name ∧ (t.stream i).publishing = true

theorem joins_iff (linked : Linked conf t none own subs) (a : Nat) (name : Name) (publisher relayed : Bool) :
    joins conf t a name publisher relayed = true ↔ (t.context a).stream = none ∧
      if publisher then ¬Published t name else conf.idleStreams = true ∨ relayed = true ∨ Published t name := by
  obtain ⟨slot,found,result,exact_found⟩ := getStream_found linked
  have published : Published t name ↔ ∃ i, found = some i ∧ (t.stream i).publishing = true :=
    ⟨fun ⟨i,listed,same,on⟩ => ⟨i,(exact_found i).mpr ⟨listed,same⟩,on⟩,
      fun ⟨i,same,on⟩ => ⟨i,((exact_found i).mp same).1,((exact_found i).mp same).2,on⟩⟩
  unfold joins
  rw [result,published,Bool.and_eq_true,Option.isNone_iff_eq_none]
  refine and_congr_right fun _ => ?_
  cases found with
  | none => cases publisher <;> simp
  | some i => cases publisher <;> simp [or_comm,or_left_comm]

end Members

section Worlds

variable {confs : Fin n → Conf} {w : World n}

def Upright (confs : Fin n → Conf) (w : World n) : Prop := ∀ k, ∃ own subs, Linked (confs k) (w.tables k) none own subs

theorem initial_upright : Upright confs (.initial n) := fun k => ⟨_,_,initial_linked (confs k)⟩

theorem initial_members : (World.initial n).members publisher = 0 :=
  Finset.sum_eq_zero fun _ _ => Nat.count_zero _

theorem members_update (w : World n) (k : Fin n) (u : Table) (counters : Counters) (publisher : Bool) :
    (World.mk (Function.update w.tables k u) counters).members publisher+members publisher (w.tables k) =
      w.members publisher+members publisher u := by
  have sums : (World.mk (Function.update w.tables k u) counters).members publisher =
      ∑ j, Function.update (fun j => members publisher (w.tables j)) k (members publisher u) j := by
    refine Finset.sum_congr rfl fun j _ => ?_
    by_cases same : j = k
    · subst same
      simp
    · simp [same]
  rw [sums,Finset.sum_update_of_mem (Finset.mem_univ k),World.members,Finset.sum_eq_sum_sdiff_singleton_add (Finset.mem_univ k)]
  omega

theorem handle_upright (upright : Upright confs w) (k : Fin n) (event : Event) : ∃ v, handle confs w k event = some v ∧
    Upright confs v ∧ v.counters = count (w.tables k) w.counters event ∧ ∀ publisher,
      v.members publisher+leaves (w.tables k) publisher event = w.members publisher+enters (confs k) (w.tables k) publisher event := by
  obtain ⟨own,subs,linked⟩ := upright k
  obtain ⟨u,handled,⟨kept,left,still⟩,done⟩ := handle_effect linked event
  refine ⟨⟨Function.update w.tables k u,count (w.tables k) w.counters event⟩,congrArg (Option.map _) handled,fun j => ?_,rfl,
    fun publisher => ?_⟩
  · by_cases same : j = k
    · subst same
      exact ⟨kept,left,by simpa using still⟩
    · simpa [same] using upright j
  · have table := handled_members publisher done
    have world := members_update w k u (count (w.tables k) w.counters event) publisher
    omega

def PlayJoins (confs : Fin n → Conf) (state : Option (World n)) (event : Fin n × Event) : Prop :=
  ∀ w, state = some w → ∀ a name relayed relaying, event.2 = .play a name relayed relaying → a < (w.tables event.1).contexts.top →
    ((w.tables event.1).context a).stream = none ∧
      ((confs event.1).idleStreams = true ∨ relayed = true ∨ Published (w.tables event.1) name)

def PublishJoinsNot (state : Option (World n)) (event : Fin n × Event) : Prop :=
  ∀ w, state = some w → ∀ a name, event.2 = .publish a name → a < (w.tables event.1).contexts.top →
    ((w.tables event.1).context a).stream ≠ none ∨ Published (w.tables event.1) name

theorem playJoins_iff (upright : Upright confs w) (k : Fin n) (event : Event) :
    PlayJoins confs (some w) (k,event) ↔ enters (confs k) (w.tables k) false event = plays (w.tables k) event := by
  obtain ⟨own,subs,linked⟩ := upright k
  constructor
  · intro joining
    cases event with
    | play a name relayed relaying =>
      simp only [enters,plays]
      by_cases inside : a < (w.tables k).contexts.top
      · have joined := (joins_iff linked a name false relayed).mpr (by simpa using joining w rfl a name relayed relaying rfl inside)
        simp [inside,joined]
      · simp [inside]
    | publish a name => simp [enters,plays]
    | accept => rfl
    | close a => rfl
    | check i => rfl
  · rintro same _ ⟨⟩ a name relayed relaying rfl inside
    have joined : joins (confs k) (w.tables k) a name false relayed = true := by simpa [enters,plays,inside] using same
    simpa using (joins_iff linked a name false relayed).mp joined

theorem publishJoinsNot_iff (upright : Upright confs w) (k : Fin n) (event : Event) :
    PublishJoinsNot (some w) (k,event) ↔ enters (confs k) (w.tables k) true event = 0 := by
  obtain ⟨own,subs,linked⟩ := upright k
  constructor
  · intro refused
    cases event with
    | publish a name =>
      simp only [enters]
      rw [if_neg]
      rintro ⟨inside,joined,_⟩
      obtain ⟨idle,unpublished⟩ := (joins_iff linked a name true false).mp joined
      rcases refused w rfl a name rfl inside with joined | published
      · exact joined idle
      · exact unpublished published
    | play a name relayed relaying => simp [enters]
    | accept => rfl
    | close a => rfl
    | check i => rfl
  · rintro same _ ⟨⟩ a name rfl inside
    by_contra open_name
    rw [not_or,not_not] at open_name
    have joined := (joins_iff linked a name true false).mpr (by simpa using open_name)
    simp [enters,inside,joined] at same

theorem leaves_or (conf : Conf) (t : Table) (publisher : Bool) (event : Event) :
    leaves t publisher event = 0 ∨ enters conf t publisher event = 0 ∧ plays t event = 0 := by
  cases event with
  | close a => exact .inr ⟨rfl,rfl⟩
  | accept => exact .inl rfl
  | publish a name => exact .inl rfl
  | play a name relayed relaying => exact .inl rfl
  | check i => exact .inl rfl

-- The counter stays right as long as each event raises it by what enters.
theorem counted {value : Counters → Nat} {raises : Table → Event → Nat}
    (counts : ∀ t counters event, value (count t counters event) = value counters+raises t event-leaves t publisher event)
    (few : ∀ t event, raises t event ≤ plays t event) (zero : value ⟨0,0⟩ = 0)
    (exact_step : ∀ w, Upright confs w → ∀ k event,
      condition (some w) (k,event) ↔ enters (confs k) (w.tables k) publisher event = raises (w.tables k) event)
    (events : List (Fin n × Event)) :
    (∀ m, ∃ w, (events.take m).foldl (step confs) (some (.initial n)) = some w ∧ value w.counters = w.members publisher) ↔
      Runs.Along (step confs) condition (some (.initial n)) events := by
  let kept (state : Option (World n)) := ∃ w, state = some w ∧ Upright confs w ∧ value w.counters = w.members publisher
  let right (state : Option (World n)) := ∃ w, state = some w ∧ value w.counters = w.members publisher
  have preserved : ∀ state event, condition state event → kept state → kept (step confs state event) := by
    rintro _ ⟨k,event⟩ meets ⟨w,rfl,upright,same⟩
    obtain ⟨v,handled,still,counters,moved⟩ := handle_upright upright k event
    refine ⟨v,handled,still,?_⟩
    have entering := (exact_step w upright k event).mp meets
    have moved := moved publisher
    rw [counters,counts]
    omega
  have seen : ∀ state event, kept state → right (step confs state event) → condition state event := by
    rintro _ ⟨k,event⟩ ⟨w,rfl,upright,same⟩ ⟨v,result,equal⟩
    obtain ⟨_,handled,_,counters,moved⟩ := handle_upright upright k event
    cases handled.symm.trans result
    apply (exact_step w upright k event).mpr
    have moved := moved publisher
    have leaving := leaves_or (confs k) (w.tables k) publisher event
    have few := few (w.tables k) event
    rw [counters,counts] at equal
    omega
  have start : kept (some (.initial n)) :=
    ⟨_,rfl,initial_upright,zero.trans initial_members.symm⟩
  exact Runs.along_exact preserved (fun _ ⟨w,same,_,equal⟩ => ⟨w,same,equal⟩) seen start

end Worlds

def PlayersRight (state : Option (World n)) : Prop := ∃ w, state = some w ∧ w.counters.playing = w.members false
def PublishersRight (state : Option (World n)) : Prop := ∃ w, state = some w ∧ w.counters.publishing = w.members true

theorem players_counted {confs : Fin n → Conf} :
    (∀ m, PlayersRight ((events.take m).foldl (step confs) (some (.initial n)))) ↔
      Runs.Along (step confs) (PlayJoins confs) (some (.initial n)) events := by
  have counts : ∀ t counters event, (count t counters event).playing = counters.playing+plays t event-leaves t false event :=
    fun t counters event => congrArg Counters.playing count_exact
  exact counted counts (fun _ _ => le_rfl) rfl (fun _ upright => playJoins_iff upright) events

theorem publishers_counted {confs : Fin n → Conf} :
    (∀ m, PublishersRight ((events.take m).foldl (step confs) (some (.initial n)))) ↔
      Runs.Along (step confs) PublishJoinsNot (some (.initial n)) events := by
  have counts : ∀ t counters event, (count t counters event).publishing = counters.publishing+0-leaves t true event :=
    fun t counters event => congrArg Counters.publishing count_exact
  exact counted counts (fun _ _ => Nat.zero_le _) rfl (fun _ upright => publishJoinsNot_iff upright) events

def CountersRight (state : Option (World n)) : Prop :=
  ∃ w, state = some w ∧ w.counters.playing = w.members false ∧ w.counters.publishing = w.members true

theorem counters_exact (confs : Fin n → Conf) (events : List (Fin n × Event)) :
    (∀ m, CountersRight ((events.take m).foldl (step confs) (some (.initial n)))) ↔
      Runs.Along (step confs) (PlayJoins confs) (some (.initial n)) events ∧
        Runs.Along (step confs) PublishJoinsNot (some (.initial n)) events := by
  rw [← players_counted,← publishers_counted]
  constructor
  · intro right
    exact ⟨fun m => (right m).imp fun w ⟨same,playing,_⟩ => ⟨same,playing⟩,fun m => (right m).imp fun w ⟨same,_,publishing⟩ => ⟨same,publishing⟩⟩
  · rintro ⟨players,publishers⟩ m
    obtain ⟨w,same,playing⟩ := players m
    obtain ⟨v,other,publishing⟩ := publishers m
    cases same.symm.trans other
    exact ⟨w,same,playing,publishing⟩

-- A publisher is not counted. A player that is refused is, and so is a player each
-- time it plays.
def shown (idle : Bool) (events : List Event) : Option (Counters × Nat × Nat) :=
  ((events.map fun event => ((0 : Fin 1),event)).foldl (step fun _ => ⟨fun _ => 0,idle⟩) (some (.initial 1))).map fun w =>
    (w.counters,w.members true,w.members false)

theorem counters_drift :
    shown false [.accept,.publish 0 ⟨[97],by decide⟩] = some (⟨0,0⟩,1,0) ∧
      shown false [.accept,.play 0 ⟨[97],by decide⟩ false false] = some (⟨0,1⟩,0,0) ∧
      shown true [.accept,.play 0 ⟨[97],by decide⟩ false false,.play 0 ⟨[97],by decide⟩ false false] = some (⟨0,2⟩,0,1) := by
  decide +kernel

end NgxRtmp.LiveCounters
