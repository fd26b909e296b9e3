import NgxRtmp.LiveTableRuns

namespace NgxRtmp.LiveTable

open Cells List

structure Effect (t u : Table) (a : Nat) (ctx : Ctx) : Prop where
  own : u.context a = ctx
  others : ∀ x, x ≠ a → u.context x = t.context x
  names : ∀ x i, (t.context x).stream = some i → (u.stream i).name = (t.stream i).name
  top : u.contexts.top = t.contexts.top

theorem setStream_name (t : Table) (i : Nat) (change : Stream → Stream) (keeps : ∀ s, (change s).name = s.name) (j : Nat) :
    ((t.setStream i change).stream j).name = (t.stream j).name := by
  rw [stream_setStream]
  split
  · rename_i same
    rw [same,keeps]
  · rfl

theorem checkingPublish_name (t : Table) (i j : Nat) : ((checkingPublish t i).stream j).name = (t.stream j).name := by
  apply setStream_name
  exact fun _ => rfl

theorem attach_effect : Effect t (attach a i publisher t) a ⟨some i,publisher⟩ ∧
    ∀ j, ((attach a i publisher t).stream j).name = (t.stream j).name := by
  have names : ∀ j, ((attach a i publisher t).stream j).name = (t.stream j).name := by
    intro j
    cases publisher with
    | true =>
      refine Eq.trans (setStream_name _ i ({· with ctx:=some a}) (fun _ => rfl) j) ?_
      exact setStream_name t i ({· with publishing:=true,timerSet:=false}) (fun _ => rfl) j
    | false => exact setStream_name _ i ({· with ctx:=some a}) (fun _ => rfl) j
  refine ⟨⟨?_,fun x other => ?_,fun x j _ => names j,?_⟩,names⟩
  · cases publisher <;> simp [attach,Table.context,Table.setStream,Table.setContext,setVal_val]
  · cases publisher <;> simp [attach,Table.context,Table.setStream,Table.setContext,setVal_val,other]
  · cases publisher <;> rfl

theorem link_effect (a i : Nat) (publisher relaying : Bool) (t : Table) : Effect t (link a i publisher relaying t) a ⟨some i,publisher⟩ ∧
    ∀ j, ((link a i publisher relaying t).stream j).name = (t.stream j).name := by
  obtain ⟨attached,names⟩ := attach_effect
  unfold link
  dsimp only
  split
  · have kept : ∀ j, ((checkingPublish (attach a i publisher t) i).stream j).name = (t.stream j).name := fun j =>
      (checkingPublish_name _ i j).trans (names j)
    exact ⟨⟨attached.own,attached.others,fun x j _ => kept j,attached.top⟩,kept⟩
  · exact ⟨attached,names⟩

theorem zeroContext_effect (a : Nat) (t : Table) : Effect t (t.zeroContext a) a .zeroed := by
  refine ⟨?_,fun x other => ?_,fun _ _ _ => rfl,rfl⟩
  · simp [Table.zeroContext,Table.context,setVal_val]
  · simp [Table.zeroContext,Table.context,setVal_val,other]

theorem getStream_found (linked : Linked conf t bare own subs) :
    ∃ slot found, getStream conf t name = some (slot,found) ∧ ∀ i, found = some i ↔ InTable t i ∧ (t.stream i).name = name := by
  obtain ⟨before,rest,⟨split,passed,found⟩,result⟩ := getStream_linked linked name
  refine ⟨_,_,result,fun i => ⟨fun head => ?_,fun ⟨listed,same⟩ => ?_⟩⟩
  · refine ⟨linked.inTable.mpr ⟨conf.hash name,?_⟩,by simpa using found i head⟩
    rw [split]
    exact mem_append_right _ (mem_of_mem_head? head)
  · obtain ⟨b,member⟩ := linked.inTable.mp listed
    have bucket : conf.hash name = b := same ▸ linked.named b i member
    rw [bucket] at split
    have inside : i ∈ before ++ rest := split ▸ member
    cases rest with
    | nil =>
      have other := passed i (by simpa using inside)
      rw [beq_eq_false_iff_ne] at other
      exact absurd same other
    | cons j rest =>
      have other : (t.stream j).name = name := by simpa using found j rfl
      have equal := linked.distinct b i member j (split ▸ mem_append_right _ (mem_cons_self ..)) (same.trans other.symm)
      rw [equal]
      rfl

def joins (conf : Conf) (t : Table) (a : Nat) (name : Name) (publisher relayed : Bool) : Bool :=
  (t.context a).stream.isNone &&
    match getStream conf t name with
    | none => false
    | some (_,none) => publisher || conf.idleStreams || relayed
    | some (_,some i) => if publisher then !(t.stream i).publishing else (t.stream i).publishing || conf.idleStreams || relayed

inductive Joined (conf : Conf) (t : Table) (a : Nat) (name : Name) (publisher relayed : Bool) : Table → Prop where
  | already : (t.context a).stream = some i → Joined conf t a name publisher relayed t
  | refused : (t.context a).stream = none → joins conf t a name publisher relayed = false → Effect t u a .zeroed →
      Joined conf t a name publisher relayed u
  | linked : (t.context a).stream = none → joins conf t a name publisher relayed = true → Effect t u a ⟨some i,publisher⟩ →
      (u.stream i).name = name → Joined conf t a name publisher relayed u

theorem createStream_stream (conf : Conf) (name : Name) (slot : Slot) (t : Table) (j : Nat) (other : j ≠ (createStream conf name slot t).2) :
    (createStream conf name slot t).1.stream j = t.stream j := by
  unfold createStream at *
  cases free : t.freeStreams with
  | some i =>
    rw [free] at other
    simp only [Table.stream,setNext_val,setVal_val,store_val,if_neg other]
  | none =>
    rw [free] at other
    simp only [Table.stream,store_val,alloc_val,if_neg other]

theorem Effect.trans (first : Effect t u a middle) (unjoined : (t.context a).stream = none) (second : Effect u v a ctx) : Effect t v a ctx := by
  refine ⟨second.own,fun x other => (second.others x other).trans (first.others x other),fun x i joined => ?_,second.top.trans first.top⟩
  have other : x ≠ a := by
    intro here
    rw [here,unjoined] at joined
    cases joined
  have still : (u.context x).stream = some i := by rw [first.others x other,joined]
  exact (second.names x i still).trans (first.names x i joined)

theorem created_effect (linked : Linked conf t none own subs)
    (absent : ∀ j ∈ own (.bucket (conf.hash name)), (t.stream j).name ≠ name) :
    let made := createStream conf name (own (.bucket (conf.hash name))).getLast? t
    Effect t made.1 a (t.context a) ∧ (made.1.stream made.2).name = name := by
  obtain ⟨made,i,_,same,_,_,empty,value,contexts⟩ := createStream_linked linked name absent
  have stream := createStream_stream conf name (own (.bucket (conf.hash name))).getLast? t
  simp only [same] at stream ⊢
  have context : ∀ x, made.context x = t.context x := fun x => by rw [Table.context,contexts]; rfl
  refine ⟨⟨context a,fun x _ => context x,fun x j joined => ?_,by rw [contexts]⟩,by rw [value]; rfl⟩
  rw [stream]
  rintro rfl
  have member := (linked.joined x j).mp joined
  rw [empty] at member
  cases member

theorem getStream_zeroContext : getStream conf (t.zeroContext a) name = getStream conf t name := rfl

theorem join_joined (linked : Linked conf t none own subs)
    (joined : join conf a name publisher relayed relaying t = some u) : Joined conf t a name publisher relayed u := by
  unfold join at joined
  cases idle : (t.context a).stream with
  | some i =>
    simp only [idle,Option.isSome_some,if_true,Option.some.injEq] at joined
    exact joined ▸ .already idle
  | none =>
    have zeroed := zeroContext_linked linked idle
    have cleared := zeroContext_effect a t
    obtain ⟨before,rest,⟨split,passed,found⟩,result⟩ := getStream_linked zeroed name
    have here : joins conf t a name publisher relayed = match getStream conf t name with
        | none => false
        | some (_,none) => publisher || conf.idleStreams || relayed
        | some (_,some i) => if publisher then !(t.stream i).publishing else (t.stream i).publishing || conf.idleStreams || relayed := by
      unfold joins
      rw [idle]
      rfl
    rw [← getStream_zeroContext,result] at here
    simp only [idle,Option.isSome_none,Bool.false_eq_true,if_false,result] at joined
    cases rest with
    | nil =>
      obtain rfl : own (.bucket (conf.hash name)) = before := by simpa using split
      obtain ⟨created,named⟩ := created_effect (a:=a) zeroed (by simpa using passed)
      simp only [head?_nil] at joined here
      split at joined
      · rename_i creates
        obtain ⟨attached,names⟩ := link_effect a (createStream conf name (own (.bucket (conf.hash name))).getLast? (t.zeroContext a)).2
          publisher relaying (createStream conf name (own (.bucket (conf.hash name))).getLast? (t.zeroContext a)).1
        simp only [Option.some.injEq] at joined
        subst joined
        refine .linked idle (here.trans creates) ?_ ((names _).trans named)
        refine (cleared.trans idle created).trans idle attached
      · rename_i refused
        cases joined
        exact .refused idle (here.trans (by simpa using refused)) cleared
    | cons i rest =>
      have name : ((t.zeroContext a).stream i).name = name := by simpa using found i rfl
      obtain ⟨attached,names⟩ := link_effect a i publisher relaying (t.zeroContext a)
      simp only [head?_cons] at joined here
      change _ = if publisher then !((t.zeroContext a).stream i).publishing
        else ((t.zeroContext a).stream i).publishing || conf.idleStreams || relayed at here
      generalize ((t.zeroContext a).stream i).publishing = publishing at joined here
      split at joined
      · rename_i missing
        cases joined
        refine .refused idle (here.trans ?_) cleared
        cases publisher <;> simp_all
      · rename_i found
        split at joined
        · rename_i taken
          cases joined
          refine .refused idle (here.trans ?_) cleared
          cases publisher <;> simp_all
        · rename_i free
          cases joined
          refine .linked idle (here.trans ?_) (cleared.trans idle attached) ((names i).trans name)
          cases publisher <;> grind

theorem detach_effect (detached : detach a i t = some u) : (∀ x, u.context x = t.context x) ∧
    (∀ j, (u.stream j).name = (t.stream j).name) ∧ u.contexts.top = t.contexts.top := by
  have names := setStream_name t i (fun s => {s with publishing:=s.publishing && !(t.context a).publishing}) fun _ => rfl
  unfold detach at detached
  dsimp only at detached
  split at detached
  · cases detached
  · cases detached
    exact ⟨fun _ => rfl,names,rfl⟩
  · rename_i slot _ _
    cases detached
    refine ⟨fun x => store_val ..,fun j => ?_,store_top ..⟩
    refine Eq.trans (setStream_name _ i (fun s => {s with ctx:=Slot.root slot s.ctx (t.contexts.next a)}) (fun _ => rfl) j) (names j)

theorem unpublish_effect (unpublished : unpublish conf i t = some u) : (∀ x, u.context x = t.context x) ∧
    (∀ j, (u.stream j).name = (t.stream j).name) ∧ u.contexts.top = t.contexts.top := by
  unfold unpublish at unpublished
  split at unpublished
  · cases unpublished
  · split at unpublished
    · cases unpublished
      exact ⟨fun _ => rfl,checkingPublish_name t i,rfl⟩
    · cases unpublished
      exact ⟨fun _ => rfl,fun _ => rfl,rfl⟩

theorem deleteStream_effect (deleted : deleteStream conf a i t = some u) :
    Effect t u a {t.context a with stream:=none} ∨ u.context a = t.context a ∧ (u.stream i).ctx = (t.stream i).ctx := by
  have names := setStream_name t i ({· with timerSet:=false}) fun _ => rfl
  unfold deleteStream at deleted
  dsimp only at deleted
  split at deleted
  · cases deleted
  · cases deleted
    refine .inr ⟨rfl,?_⟩
    rw [stream_setStream,if_pos rfl]
  · cases deleted
    refine .inl ⟨?_,fun x other => ?_,fun x j _ => ?_,rfl⟩
    · simp [Table.context,Table.setContext,Table.setStream,setVal_val]
    · simp [Table.context,Table.setContext,Table.setStream,setVal_val,other]
    · refine Eq.trans ?_ (names j)
      simp [Table.stream,Table.setContext,Table.setStream]

theorem close_effect (linked : Linked conf t none own subs) (joined : (t.context a).stream = some i) (closed : close conf a t = some u) :
    Effect t u a {t.context a with stream:=none} := by
  obtain ⟨after,result,kept,left,still⟩ := close_linked linked a
  rw [closed] at result
  cases result
  unfold close at closed
  rw [joined] at closed
  dsimp only at closed
  split at closed
  · cases closed
  · rename_i v detached
    obtain ⟨contexts,names,top⟩ := detach_effect detached
    split at closed
    · cases closed
    · rename_i w unpublished
      have same : (∀ x, w.context x = t.context x) ∧ (∀ j, (w.stream j).name = (t.stream j).name) ∧ w.contexts.top = t.contexts.top := by
        split at unpublished
        · obtain ⟨more,others,bound⟩ := unpublish_effect unpublished
          exact ⟨fun x => (more x).trans (contexts x),fun j => (others j).trans (names j),bound.trans top⟩
        · cases unpublished
          exact ⟨contexts,names,top⟩
      obtain ⟨contexts,names,top⟩ := same
      split at closed
      · cases closed
        refine ⟨?_,fun x other => ?_,fun x j _ => names j,top⟩
        · rw [← contexts a]
          simp [Table.context,Table.setContext,setVal_val]
        · rw [← contexts x]
          simp [Table.context,Table.setContext,setVal_val,other]
      · rename_i empty
        rcases deleteStream_effect closed with ⟨mine,others,renames,bound⟩ | ⟨same,root⟩
        · refine ⟨mine.trans ?_,fun x other => (others x other).trans (contexts x),fun x j member => ?_,bound.trans top⟩
          · rw [contexts a]
          · exact (renames x j ((congrArg Ctx.stream (contexts x)).trans member)).trans (names j)
        · -- The stream is empty, so the session would be in no list of contexts.
          have member := (still.joined a i).1 ((congrArg Ctx.stream (same.trans (contexts a))).trans joined)
          have none_left : left i = [] := by
            apply Eq.symm
            apply still.contexts_eq
            unfold Contexts
            rw [root,Option.not_isSome_iff_eq_none.mp empty]
            rfl
          rw [none_left] at member
          cases member

theorem checkingCallback_name (t : Table) (i j : Nat) : ((checkingCallback i t).stream j).name = (t.stream j).name := by
  have names := setStream_name t i ({· with timerSet:=false}) (fun _ => rfl) j
  unfold checkingCallback
  dsimp only
  split
  · split
    · exact names
    · exact (checkingPublish_name _ i j).trans names
  · rfl

theorem checkingCallback_contexts : (checkingCallback i t).contexts = t.contexts := by
  unfold checkingCallback
  dsimp only
  split
  · split
    · rfl
    · rfl
  · rfl

def Event.session : Event → Option Nat
  | .publish a _ | .play a _ _ _ | .close a => some a
  | .accept | .check _ => none

inductive Handled (conf : Conf) (t : Table) : Event → Table → Prop where
  | outside : event.session = some a → ¬a < t.contexts.top → Handled conf t event t
  | accepted : Handled conf t .accept {t with contexts:=t.contexts.alloc .zeroed}
  | published : a < t.contexts.top → Joined conf t a name true false u → Handled conf t (.publish a name) u
  | played : a < t.contexts.top → Joined conf t a name false relayed u → Handled conf t (.play a name relayed relaying) u
  | idle : (t.context a).stream = none → Handled conf t (.close a) t
  | closed : a < t.contexts.top → (t.context a).stream = some i → Effect t u a {t.context a with stream:=none} →
      Handled conf t (.close a) u
  | checked : u.contexts = t.contexts → (∀ j, (u.stream j).name = (t.stream j).name) → Handled conf t (.check i) u

theorem handle_handled (linked : Linked conf t none own subs) (handled : handle conf t event = some u) :
    Handled conf t event u := by
  cases event with
  | accept =>
    cases handled
    exact .accepted
  | publish a name =>
    simp only [handle] at handled
    split at handled
    · rename_i inside
      exact .published inside (join_joined linked handled)
    · rename_i outside
      cases handled
      exact .outside rfl outside
  | play a name relayed relaying =>
    simp only [handle] at handled
    split at handled
    · rename_i inside
      exact .played inside (join_joined linked handled)
    · rename_i outside
      cases handled
      exact .outside rfl outside
  | close a =>
    simp only [handle] at handled
    split at handled
    · rename_i inside
      cases joined : (t.context a).stream with
      | none =>
        unfold close at handled
        rw [joined] at handled
        cases handled
        exact .idle joined
      | some i => exact .closed inside joined (close_effect linked joined handled)
    · rename_i outside
      cases handled
      exact .outside rfl outside
  | check i =>
    cases handled
    exact .checked checkingCallback_contexts (checkingCallback_name t i)

theorem handle_effect (linked : Linked conf t none own subs) (event : Event) : ∃ u, handle conf t event = some u ∧
    (∃ own subs, Linked conf u none own subs) ∧ Handled conf t event u := by
  have still : Upright conf (step conf (some t) event) := step_upright _ event ⟨_,rfl,_,_,linked⟩
  obtain ⟨u,handled,kept⟩ := still
  exact ⟨u,handled,kept,handle_handled linked handled⟩

-- No session is moved by another one, and the stream that it is in is not handed out again.
theorem sessions_apart (conf : Conf) (events : List Event) (event : Event) :
    ∃ t u, events.foldl (step conf) (some .initial) = some t ∧ handle conf t event = some u ∧
      ∀ x < t.contexts.top, event.session ≠ some x → u.context x = t.context x ∧
        ∀ i, (t.context x).stream = some i → (u.stream i).name = (t.stream i).name := by
  obtain ⟨t,reached,own,subs,linked⟩ : Upright conf (events.foldl (step conf) (some .initial)) :=
    Runs.run_invariant (fun state event _ => step_upright state event) ⟨_,rfl,_,_,initial_linked conf⟩ (Runs.along_always events _)
  obtain ⟨u,handled,_,how⟩ := handle_effect linked event
  refine ⟨t,u,reached,handled,fun x inside other => ?_⟩
  have apart : ∀ {a}, event.session = some a → x ≠ a := fun acts same => other (same ▸ acts)
  cases how with
  | outside _ _ | idle _ => exact ⟨rfl,fun _ _ => rfl⟩
  | accepted => exact ⟨by rw [Table.context,alloc_val,if_neg inside.ne,Table.context],fun _ _ => rfl⟩
  | published _ joined | played _ joined =>
    cases joined with
    | already _ => exact ⟨rfl,fun _ _ => rfl⟩
    | refused _ _ effect | linked _ _ effect _ => exact ⟨effect.others x (apart rfl),effect.names x⟩
  | closed _ _ effect => exact ⟨effect.others x (apart rfl),effect.names x⟩
  | checked contexts names => exact ⟨by rw [Table.context,contexts,Table.context],fun i _ => names i⟩

end NgxRtmp.LiveTable
