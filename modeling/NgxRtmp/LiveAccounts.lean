import NgxRtmp.LiveSteps

namespace NgxRtmp.Live
open List (mem_map)
open Function (comp_def update update_eq_self update_of_ne update_self)
open OutQueue ChunkWriter

def Silent (cs : Fin 2 → ChunkStream) : Prop := ∀ i, (cs i).active = false

def Idle (cs : Fin 2 → ChunkStream) : Prop := ∀ i, (cs i).active = false → (cs i).dropped = 0

-- A paused player may be marked active when the stream restarts under it, so `stopped` names pause on
-- its own.
structure Placed (active : Bool) (publisher : Option (Fin 2 → ChunkStream)) (c : Ctx) : Prop where
  started : active = true → c.paused = false → c.hls = false → c.active = true
  stopped : active = false ∨ c.active = false ∨ c.paused = true ∨ c.hls = true → Silent c.cs
  balance : ∀ i, (c.cs i).active = true → ∃ cs, publisher = some cs ∧ (cs i).active = true ∧
    (c.cs i).timestamp+(c.cs i).dropped = (cs i).timestamp

structure Accounted (s : Stream) : Prop where
  publisher : ∀ p, s.publisher = some p → p.active = s.active
  vacant : s.publisher = none → s.active = false
  idle : ∀ c ∈ s.subscribers, Idle c.cs
  placed : ∀ c ∈ s.subscribers, c.out.destroyed = false → Placed s.active (s.publisher.map Ctx.cs) c

theorem empty_accounted : Accounted .empty := by
  refine ⟨?_,fun _ => rfl,?_,?_⟩
  · intro p found
    cases found
  · intro c member
    cases member
  · intro c member
    cases member

theorem calm_idle (calm : Calm c next) (idle : Idle c.cs) : Idle next.cs := by
  intro i off
  rcases calm.streams with same | reset
  · rw [same] at off ⊢
    exact idle i off
  · rw [reset]
    rfl

theorem update_idle (idle : Idle streams) (settled : cs.active = false → cs.dropped = 0) :
    Idle (update streams i cs) := by
  intro j off
  by_cases equal : j = i
  · subst j
    rw [update_self] at off ⊢
    exact settled off
  · rw [update_of_ne equal] at off ⊢
    exact idle j off

theorem primed_idle (primed : Primed conf b env c c1) (idle : Idle c.cs) : Idle c1.cs := by
  rcases primed.streams with same | ⟨_,reset⟩
  · rw [same]
    exact idle
  · rw [reset]
    exact update_idle idle fun _ => rfl

theorem broadcast_idle (idle : Idle c.cs) : Idle (broadcast conf b env c).cs := by
  rcases broadcast_cases with ⟨_,same⟩ | ⟨c1,primed,visited⟩
  · rw [same]
    exact idle
  have before := primed_idle primed idle
  generalize broadcast conf b env c = next at visited
  cases visited with
  | relative on offered => exact update_idle before (before b.csidx)
  | dropped on crowded log gone => exact update_idle before fun off => by cases on.symm.trans off
  | waiting off => exact before
  | refused off part log gone => exact before
  | opened off ready shape present log gone => exact update_idle before nofun
  | headersOnly off ready shape present sent crowded log gone => exact update_idle before nofun
  | absolute off ready plain log gone => exact update_idle before nofun

theorem step_idle (conf : LiveConf) (event : Event) (idle : ∀ c ∈ s.subscribers, Idle c.cs) :
    ∀ c ∈ (step conf s event).subscribers, Idle c.cs := by
  intro next member
  rcases step_subscriber member with ⟨c,old,calm⟩ | ⟨j,calm⟩ | ⟨packet,env,later,p,_,_,c,air,rfl⟩
  · exact calm_idle calm (idle c old)
  · exact calm_idle calm fun _ _ => rfl
  · obtain ⟨before,old,calm⟩ := onAir_subscriber air
    exact broadcast_idle (calm_idle calm (idle before old))

theorem silent_placed (silent : Silent c.cs) (started : active = true → c.paused = false → c.hls = false → c.active = true) :
    Placed active publisher c :=
  ⟨started,fun _ => silent,fun i on => by cases (silent i).symm.trans on⟩

theorem still_alive {o next : Output Message} (mono : o.destroyed = true → next.destroyed = true)
    (alive : next.destroyed = false) : o.destroyed = false := by
  cases was : o.destroyed with
  | false => rfl
  | true => cases alive.symm.trans (mono was)

theorem quiet_placed (placed : c.out.destroyed = false → Placed active publisher c) (quiet : Quiet c.out out)
    (alive : out.destroyed = false) : Placed active publisher {c with out} := by
  have before := placed (still_alive quiet.destroyed alive)
  exact ⟨before.started,before.stopped,before.balance⟩

structure Switched (status : Bool) (c next : Ctx) : Prop where
  active : next.active = status
  paused : next.paused = c.paused
  hls : next.hls = c.hls
  kept : c.active = status → next.cs = c.cs
  reset : c.active ≠ status → Silent next.cs

theorem switch_alive (alive : (switch conf active env c).out.destroyed = false) :
    c.out.destroyed = false ∧ Switched active c (switch conf active env c) := by
  refine ⟨still_alive (switch_calm).quiet.destroyed alive,?_⟩
  rcases switch_cases with ⟨equal,same⟩ | ⟨different,out,_,⟨gone,lost⟩ | reset⟩
  · rw [same]
    exact ⟨equal,rfl,rfl,fun _ => rfl,fun different => absurd equal different⟩
  · rw [lost] at alive
    cases alive.symm.trans gone
  · rw [reset]
    exact ⟨rfl,rfl,rfl,fun equal => absurd equal different,fun _ _ => rfl⟩

theorem switched_placed (placed : c.out.destroyed = false → Placed (!active) publisher c)
    (alive : (switch conf active env c).out.destroyed = false) : Placed active other (switch conf active env c) := by
  obtain ⟨was,switched⟩ := switch_alive alive
  have silent : Silent (switch conf active env c).cs := by
    by_cases equal : c.active = active
    · rw [switched.kept equal]
      cases active with
      | true => exact (placed was).stopped (.inl rfl)
      | false => exact (placed was).stopped (.inr (.inl equal))
    · exact switched.reset equal
  exact silent_placed silent fun on _ _ => switched.active.trans on

theorem pauseSubscriber_placed (placed : c.out.destroyed = false → Placed active publisher c)
    (alive : (pauseSubscriber conf pause env c).out.destroyed = false) :
    Placed active publisher (pauseSubscriber conf pause env c) := by
  unfold pauseSubscriber noticeMessage at alive ⊢
  split at alive
  · rename_i hls
    rw [if_pos hls]
    exact placed alive
  · rename_i hls
    rw [if_neg hls]
    obtain ⟨flag,out,sent,quiet⟩ := offer_notice c (if pause then .pauseNotify else .unpauseNotify)
      (conf.text (if pause then .pauseNotify else .unpauseNotify)) 0 (env.status 3)
    rw [sent] at alive ⊢
    cases flag with
    | false => cases alive
    | true =>
      dsimp only at alive ⊢
      obtain ⟨was,switched⟩ := switch_alive alive
      generalize switch conf (!pause) env {c with out,paused:=pause} = next at switched ⊢
      have before := placed (still_alive quiet.destroyed was)
      have running : next.paused = false → next.active = true := by
        rw [switched.paused,switched.active]
        intro running
        rw [show pause = false from running]
        rfl
      by_cases equal : c.active = !pause
      · -- already there: a resume that was not paused keeps its chunk streams
        have kept : next.cs = c.cs := switched.kept equal
        refine ⟨fun _ on _ => running on,fun off => ?_,fun i => ?_⟩
        · rw [kept]
          rcases off with off | off | off | off
          · exact before.stopped (.inl off)
          · exact before.stopped (.inr (.inl (equal.trans (switched.active.symm.trans off))))
          · refine before.stopped (.inr (.inl ?_))
            rw [equal,show pause = true from switched.paused.symm.trans off]
            rfl
          · exact before.stopped (.inr (.inr (.inr (switched.hls.symm.trans off))))
        · rw [kept]
          exact before.balance i
      · exact silent_placed (switched.reset equal) fun _ on _ => running on

structure Dated (streams : Fin 2 → ChunkStream) (b : Broadcast) : Prop where
  last : (streams b.csidx).active = true → b.lh.timestamp = (streams b.csidx).timestamp
  delta : b.delta = b.ch.timestamp-b.lh.timestamp

def Balanced (streams publisher : Fin 2 → ChunkStream) : Prop :=
  ∀ i, (streams i).active = true →
    (publisher i).active = true ∧ (streams i).timestamp+(streams i).dropped = (publisher i).timestamp

theorem placed_balanced (placed : Placed active (some publisher) c) : Balanced c.cs publisher := by
  intro i on
  obtain ⟨cs,same,live,sum⟩ := placed.balance i on
  cases same
  exact ⟨live,sum⟩

theorem balanced_placed (balanced : Balanced c.cs publisher) (on : c.active = true)
    (playing : c.paused = false ∧ c.hls = false) : Placed true (some publisher) c := by
  refine ⟨fun _ _ _ => on,fun off => ?_,fun i live => ⟨publisher,rfl,balanced i live⟩⟩
  rcases off with off | off | off | off
  · cases off
  · cases on.symm.trans off
  · cases playing.1.symm.trans off
  · cases playing.2.symm.trans off

theorem update_balanced (balanced : Balanced streams publisher) (live : new.active = true)
    (sum : cs.active = true → cs.timestamp+cs.dropped = new.timestamp) :
    Balanced (update streams i cs) (update publisher i new) := by
  intro j on
  by_cases equal : j = i
  · subst j
    rw [update_self] at on ⊢
    rw [update_self]
    exact ⟨live,sum on⟩
  · rw [update_of_ne equal] at on ⊢
    rw [update_of_ne equal]
    exact balanced j on

theorem primed_balanced (primed : Primed conf b env c c1) (balanced : Balanced c.cs publisher) : Balanced c1.cs publisher := by
  rcases primed.streams with same | ⟨_,reset⟩
  · rw [same]
    exact balanced
  · rw [reset,← update_eq_self b.csidx publisher]
    intro j on
    by_cases equal : j = b.csidx
    · subst j
      rw [update_self] at on
      cases on
    · rw [update_of_ne equal] at on ⊢
      rw [update_of_ne equal]
      exact balanced j on

def advanced (publisher : Fin 2 → ChunkStream) (b : Broadcast) : Fin 2 → ChunkStream :=
  update publisher b.csidx {publisher b.csidx with active:=true,timestamp:=b.ch.timestamp}

theorem visited_balanced (dated : Dated publisher b) (idle : Idle c1.cs) (balanced : Balanced c1.cs publisher)
    (visited : Visited conf b env c1 next) : Balanced next.cs (advanced publisher b) := by
  have unmoved : (c1.cs b.csidx).active = false → Balanced c1.cs (advanced publisher b) := by
    intro off
    rw [← update_eq_self b.csidx c1.cs]
    exact update_balanced balanced rfl fun on => by cases off.symm.trans on
  cases visited with
  | relative on offered =>
    obtain ⟨live,sum⟩ := balanced b.csidx on
    refine update_balanced balanced rfl fun _ => ?_
    change (c1.cs b.csidx).timestamp+b.delta+(c1.cs b.csidx).dropped = b.ch.timestamp
    grind [dated.delta,dated.last live]
  | dropped on crowded log gone =>
    obtain ⟨live,sum⟩ := balanced b.csidx on
    refine update_balanced balanced rfl fun _ => ?_
    change (c1.cs b.csidx).timestamp+((c1.cs b.csidx).dropped+b.delta) = b.ch.timestamp
    grind [dated.delta,dated.last live]
  | waiting off => exact unmoved off
  | refused off part log gone => exact unmoved off
  | opened off ready shape present log gone =>
    refine update_balanced balanced rfl fun _ => ?_
    change b.lh.timestamp+b.delta+(c1.cs b.csidx).dropped = b.ch.timestamp
    rw [idle b.csidx off,dated.delta]
    grind
  | headersOnly off ready shape present sent crowded log gone =>
    refine update_balanced balanced rfl fun _ => ?_
    change b.lh.timestamp+((c1.cs b.csidx).dropped+b.delta) = b.ch.timestamp
    rw [idle b.csidx off,dated.delta]
    grind
  | absolute off ready plain log gone =>
    refine update_balanced balanced rfl fun _ => ?_
    change b.ch.timestamp+(c1.cs b.csidx).dropped = b.ch.timestamp
    rw [idle b.csidx off]
    exact UInt32.add_zero _

theorem visited_frame (visited : Visited conf b env c1 next) :
    next.active = c1.active ∧ next.paused = c1.paused ∧ next.hls = c1.hls ∧
    (c1.out.destroyed = true → next.out.destroyed = true) := by
  cases visited with
  | relative on offered => exact ⟨rfl,rfl,rfl,offered.destroyed⟩
  | dropped on crowded log gone => exact ⟨rfl,rfl,rfl,fun was => gone (.inl was)⟩
  | waiting off => exact ⟨rfl,rfl,rfl,id⟩
  | refused off part log gone => exact ⟨rfl,rfl,rfl,gone⟩
  | opened off ready shape present log gone => exact ⟨rfl,rfl,rfl,gone⟩
  | headersOnly off ready shape present sent crowded log gone => exact ⟨rfl,rfl,rfl,gone⟩
  | absolute off ready plain log gone => exact ⟨rfl,rfl,rfl,gone⟩

theorem broadcast_placed (dated : Dated publisher b) (idle : Idle c.cs)
    (placed : c.out.destroyed = false → Placed true (some publisher) c)
    (alive : (broadcast conf b env c).out.destroyed = false) :
    Placed true (some (advanced publisher b)) (broadcast conf b env c) := by
  rcases broadcast_cases with ⟨off,same⟩ | ⟨c1,primed,visited⟩
  · rw [same] at alive ⊢
    exact silent_placed ((placed alive).stopped (.inr (.inr off))) (placed alive).started
  · obtain ⟨active,paused,hls,mono⟩ := visited_frame visited
    have before := placed (still_alive primed.quiet.destroyed (still_alive mono alive))
    have on : c1.active = true ∧ c1.paused = false ∧ c1.hls = false := by
      rw [primed.same]
      exact ⟨before.started rfl primed.playing.1 primed.playing.2,primed.playing⟩
    refine balanced_placed ?_ (active.trans on.1) ⟨paused.trans on.2.1,hls.trans on.2.2⟩
    exact visited_balanced dated (primed_idle primed idle) (primed_balanced primed (placed_balanced before)) visited

theorem accounted_kept (accounted : Accounted s) (active : next.active = s.active)
    (publisher : next.publisher.map (fun p => (p.active,p.cs)) = s.publisher.map (fun p => (p.active,p.cs)))
    (idle : ∀ c ∈ next.subscribers, Idle c.cs)
    (placed : ∀ c ∈ next.subscribers, c.out.destroyed = false → Placed s.active (s.publisher.map Ctx.cs) c) :
    Accounted next := by
  have streams : next.publisher.map Ctx.cs = s.publisher.map Ctx.cs := by
    simpa [Option.map_map,comp_def] using congrArg (Option.map Prod.snd) publisher
  refine ⟨?_,?_,idle,?_⟩
  · intro p found
    rw [found] at publisher
    obtain ⟨old,was,same⟩ := Option.map_eq_some_iff.mp publisher.symm
    rw [active,← accounted.publisher old was]
    exact (congrArg Prod.fst same).symm
  · intro none
    rw [none] at publisher
    rw [active]
    exact accounted.vacant (Option.map_eq_none_iff.mp publisher.symm)
  · rw [active,streams]
    exact placed

theorem mapped_placed (accounted : Accounted s)
    (kept : ∀ c ∈ s.subscribers, (c.out.destroyed = false → Placed s.active (s.publisher.map Ctx.cs) c) →
      (f c).out.destroyed = false → Placed s.active (s.publisher.map Ctx.cs) (f c)) :
    ∀ c ∈ s.subscribers.map f, c.out.destroyed = false → Placed s.active (s.publisher.map Ctx.cs) c := by
  intro next member alive
  obtain ⟨c,old,rfl⟩ := mem_map.mp member
  exact kept c old (accounted.placed c old) alive

theorem modify_accounted {id : Nat} {f : Ctx → Output Message} (accounted : Accounted s)
    (idle : ∀ c ∈ (s.modify id fun c => {c with out:=f c}).subscribers, Idle c.cs) (quiet : ∀ c, Quiet c.out (f c)) :
    Accounted (s.modify id fun c => {c with out:=f c}) := by
  refine accounted_kept accounted rfl ?_ idle (mapped_placed accounted fun c _ placed alive => ?_)
  · cases publishing : s.publisher with
    | none => simp [Stream.modify,publishing]
    | some p =>
      simp only [Stream.modify,publishing,Option.map_some]
      split <;> rfl
  · split at alive
    · rename_i mine
      rw [if_pos mine]
      exact quiet_placed placed (quiet c) alive
    · rename_i other
      rw [if_neg other]
      exact placed alive

theorem switchPublisher_accounted (accounted : Accounted s) (publishing : s.publisher = some old)
    (same : p.active = old.active ∧ p.cs = old.cs)
    (idle : ∀ c ∈ (switchPublisher conf active env p s).2.subscribers, Idle c.cs) :
    Accounted {(switchPublisher conf active env p s).2 with publisher:=some (switchPublisher conf active env p s).1} := by
  have status := accounted.publisher old publishing
  have placed := accounted.placed
  unfold switchPublisher at idle ⊢
  split
  · rename_i equal
    rw [if_pos equal] at idle
    exact accounted_kept accounted rfl (by simp [publishing,same]) idle placed
  · rename_i different
    rw [if_neg different] at idle
    have flipped : s.active = !active := by
      rw [← status,← same.1]
      exact Bool.eq_not_of_ne different
    refine ⟨?_,fun vacant => (Option.some_ne_none _ vacant).elim,idle,?_⟩
    · intro q found
      cases found
      rfl
    · intro next member alive
      obtain ⟨c,was,rfl⟩ := mem_map.mp member
      rw [flipped] at placed
      exact switched_placed (placed c was) alive

theorem publish_accounted (accounted : Accounted s) : Accounted (publish s j) := by
  unfold publish
  split
  · exact accounted
  · rename_i free
    have none : s.publisher = none := by
      cases publishing : s.publisher with
      | none => rfl
      | some p => simp [publishing] at free
    have off := accounted.vacant none
    refine ⟨?_,fun vacant => (Option.some_ne_none _ vacant).elim,accounted.idle,?_⟩
    · intro p found
      cases found
      exact off.symm
    · intro c member alive
      have before := accounted.placed c member alive
      exact silent_placed (before.stopped (.inl off)) before.started

theorem joinPlayer_placed
    (alive : (joinPlayer conf active j env).out.destroyed = false) :
    Placed active publisher (joinPlayer conf active j env) := by
  have calm := joinPlayer_calm conf active j env
  have silent : Silent (joinPlayer conf active j env).cs := by
    intro i
    rcases calm.streams with same | reset
    · rw [same]
      rfl
    · rw [reset]
      rfl
  refine silent_placed silent fun on _ hls => ?_
  have playing : j.out.hls = false := calm.hls.symm.trans hls
  -- the start is what makes it active; the later notices do not touch that
  have started : (if active && !j.out.hls then switch conf true env j.ctx else j.ctx) = switch conf true env j.ctx :=
    if_pos (by simp [on,playing])
  simp only [joinPlayer,started] at alive ⊢
  split
  · rename_i told
    rw [if_pos told] at alive
    obtain ⟨out,quiet,sent⟩ := sendPlayStatus_quiet
    rw [sent] at alive ⊢
    exact (switch_alive (still_alive quiet.destroyed alive)).2.active
  · rename_i told
    rw [if_neg told] at alive
    exact (switch_alive alive).2.active

theorem play_accounted (accounted : Accounted s)
    (idle : ∀ c ∈ (play conf s j env).subscribers, Idle c.cs) : Accounted (play conf s j env) := by
  unfold play at idle ⊢
  split
  · exact accounted
  · rename_i admitted
    rw [if_neg admitted] at idle
    refine accounted_kept accounted rfl rfl idle ?_
    intro next member alive
    rcases List.mem_cons.mp member with rfl | old
    · exact joinPlayer_placed alive
    · exact accounted.placed next old alive

theorem stopped_accounted (idle : ∀ c ∈ subscribers, Idle c.cs)
    (silent : ∀ c ∈ subscribers, c.out.destroyed = false → Silent c.cs) : Accounted ⟨none,subscribers,false⟩ :=
  ⟨fun _ found => (Option.some_ne_none _ found.symm).elim,fun _ => rfl,idle,
    fun c member alive => silent_placed (silent c member alive) fun on => (Bool.false_ne_true on).elim⟩

theorem switchPublisher_off (conf : LiveConf) (accounted : Accounted s) (publishing : s.publisher = some p)
    (env : Nat → SendEnv) :
    ∃ subscribers, (switchPublisher conf false env p {s with publisher:=none}).2 = ⟨none,subscribers,false⟩ ∧
      ∀ c ∈ subscribers, c.out.destroyed = false → Silent c.cs := by
  have status := accounted.publisher p publishing
  have placed := accounted.placed
  unfold switchPublisher
  split
  · rename_i off
    have stopped : s.active = false := status.symm.trans off
    exact ⟨s.subscribers,by rw [stopped],fun c member alive => (placed c member alive).stopped (.inl stopped)⟩
  · rename_i on
    refine ⟨_,rfl,?_⟩
    intro next member alive
    obtain ⟨c,old,rfl⟩ := mem_map.mp member
    have running : s.active = !false := by
      rw [← status]
      exact Bool.eq_not_of_ne on
    rw [running] at placed
    have now : Placed false none (switch conf false (env c.id) c) := switched_placed (placed c old) alive
    exact now.stopped (.inl rfl)

theorem leave_accounted (accounted : Accounted s) {id : Nat}
    (idle : ∀ c ∈ (leave conf s id env).subscribers, Idle c.cs) : Accounted (leave conf s id env) := by
  have filtered : (∀ c ∈ s.subscribers.filter (fun c => c.id != id), Idle c.cs) →
      Accounted {s with subscribers:=s.subscribers.filter fun c => c.id != id} := fun idle =>
    accounted_kept accounted rfl rfl idle fun c member => accounted.placed c (List.mem_filter.mp member).1
  unfold leave at idle ⊢
  split
  · rename_i p publishing
    simp only [publishing] at idle
    split
    · rename_i mine
      rw [if_pos mine] at idle
      obtain ⟨subscribers,stopped,silent⟩ := switchPublisher_off conf accounted publishing env
      simp only [stopped] at idle ⊢
      refine stopped_accounted idle ?_
      intro next member alive
      obtain ⟨c,old,rfl⟩ := mem_map.mp member
      split at alive
      · cases alive
      · rename_i waits
        rw [if_neg waits]
        exact silent c old alive
    · rename_i other
      rw [if_neg other] at idle
      exact filtered idle
  · rename_i none
    simp only [none] at idle
    exact filtered idle

theorem onAir_placed (accounted : Accounted s) (publishing : s.publisher = some p) :
    (onAir conf s p packet env).1.active = true ∧ (onAir conf s p packet env).2.1.active = true ∧
    ∀ c ∈ (onAir conf s p packet env).2.1.subscribers, c.out.destroyed = false → Placed true (some p.cs) c := by
  have status := accounted.publisher p publishing
  have placed := accounted.placed
  rw [publishing] at placed
  unfold onAir
  dsimp only
  split
  · rename_i on
    rw [on] at placed
    exact ⟨status.trans on,on,placed⟩
  · rename_i off
    have off : s.active = false := by simpa using off
    unfold switchPublisher
    rw [if_neg (by simp [status,off])]
    refine ⟨rfl,rfl,?_⟩
    intro next member alive
    obtain ⟨c,old,rfl⟩ := mem_map.mp member
    rw [off] at placed
    exact switched_placed (placed c old) alive

theorem onAir_dated : Dated p.cs (onAir conf s p packet env).2.2 := by
  have kept := (onAir_continued conf s p packet env).1
  have planned : (onAir conf s p packet env).2.2 =
      plan conf (onAir conf s p packet env).1 (codecAv p.codec packet) packet := rfl
  rw [planned]
  generalize (onAir conf s p packet env).1 = q at kept
  rw [← kept]
  refine ⟨fun on => ?_,rfl⟩
  simp only [plan] at on ⊢
  rw [if_pos on]

theorem packet_accounted (accounted : Accounted s)
    (idle : ∀ c ∈ (liveAv conf s packet env later).subscribers, Idle c.cs) : Accounted (liveAv conf s packet env later) := by
  unfold liveAv at idle ⊢
  split
  · exact accounted
  · rename_i p publishing
    simp only [publishing] at idle
    obtain ⟨running,onAirNow,placed⟩ := onAir_placed accounted publishing
    have before : ∀ c ∈ (onAir conf s p packet env).2.1.subscribers, Idle c.cs := by
      intro c member
      obtain ⟨old,was,calm⟩ := onAir_subscriber member
      exact calm_idle calm (accounted.idle old was)
    refine ⟨?_,fun vacant => (Option.some_ne_none _ vacant).elim,idle,?_⟩
    · intro q found
      cases found
      exact running.trans onAirNow.symm
    · intro next member alive
      obtain ⟨c,air,rfl⟩ := mem_map.mp member
      have streams : Option.map Ctx.cs (some ((onAir conf s p packet env).1.setCs (onAir conf s p packet env).2.2.csidx
          {(onAir conf s p packet env).1.cs (onAir conf s p packet env).2.2.csidx with
            active:=true,timestamp:=packet.timestamp})) = some (advanced p.cs (onAir conf s p packet env).2.2) := by
        rw [Option.map_some,Ctx.setCs,(onAir_continued conf s p packet env).1]
        rfl
      rw [streams,onAirNow]
      exact broadcast_placed onAir_dated (before c air) (placed c air) alive

theorem pausePublisher_accounted (accounted : Accounted s) (publishing : s.publisher = some p)
    (idle : ∀ c ∈ (pausePublisher conf pause env p s).subscribers, Idle c.cs) :
    Accounted (pausePublisher conf pause env p s) := by
  unfold pausePublisher noticeMessage at idle ⊢
  split
  · exact accounted
  · rename_i live
    rw [if_neg live] at idle
    obtain ⟨flag,out,sent,_⟩ := offer_notice p (if pause then .pauseNotify else .unpauseNotify)
      (conf.text (if pause then .pauseNotify else .unpauseNotify)) 0 ((env p.id).status 3)
    rw [sent] at idle ⊢
    cases flag with
    | false =>
      exact accounted_kept accounted rfl (by simp [publishing,Ctx.finalize]) accounted.idle accounted.placed
    | true => exact switchPublisher_accounted accounted publishing ⟨rfl,rfl⟩ idle

theorem step_accounted {event : Event} (accounted : Accounted s) : Accounted (step conf s event) := by
  have idle := step_idle conf event accounted.idle
  cases event with
  | publish j => exact publish_accounted accounted
  | play j env => exact play_accounted accounted idle
  | close id env =>
    unfold step close at idle ⊢
    dsimp only at idle ⊢
    split
    · exact empty_accounted
    · rename_i left
      rw [if_neg left] at idle
      exact leave_accounted accounted idle
  | pause id on env =>
    have visited : (∀ c ∈ s.subscribers.map (fun c => if c.id = id then pauseSubscriber conf on (env id) c else c), Idle c.cs) →
        Accounted {s with subscribers:=s.subscribers.map fun c => if c.id = id then pauseSubscriber conf on (env id) c else c} := by
      intro idle
      refine accounted_kept accounted rfl rfl idle (mapped_placed accounted fun c _ placed alive => ?_)
      split at alive
      · rename_i mine
        rw [if_pos mine]
        exact pauseSubscriber_placed placed alive
      · rename_i other
        rw [if_neg other]
        exact placed alive
    unfold step at idle ⊢
    dsimp only at idle ⊢
    split
    · rename_i p publishing
      simp only [publishing] at idle
      split
      · rename_i mine
        rw [if_pos mine] at idle
        exact pausePublisher_accounted accounted publishing idle
      · rename_i other
        rw [if_neg other] at idle
        exact visited idle
    · rename_i none
      simp only [none] at idle
      exact visited idle
  | streamBegin env | streamEof env =>
    unfold step at idle ⊢
    dsimp only at idle ⊢
    split
    · rename_i p publishing
      simp only [publishing] at idle
      split
      · exact accounted
      · rename_i live
        rw [if_neg live] at idle
        exact switchPublisher_accounted accounted publishing ⟨rfl,rfl⟩ idle
    · exact accounted
  | metadata text version =>
    refine accounted_kept accounted rfl ?_ idle accounted.placed
    simp [step,Option.map_map,comp_def]
  | packet packet env later => exact packet_accounted accounted idle
  | output id timedout socket =>
    exact modify_accounted accounted idle fun c => send_quiet
  | reply id prio socket =>
    exact modify_accounted accounted idle
      fun c => (offer_calm).quiet
  | lost id => exact modify_accounted accounted idle fun c => finalize_quiet

-- What the drop counter of each live chunk stream is worth. UInt32 addition is
-- addition modulo 2^32.
def DropsAccounted (s : Stream) : Prop :=
  ∀ c ∈ s.subscribers, c.finalized = false → ∀ i,
    ((c.cs i).active = true → ∃ p, s.publisher = some p ∧
      (c.cs i).timestamp+(c.cs i).dropped = (p.cs i).timestamp) ∧
    ((c.cs i).active = false → (c.cs i).dropped = 0)

theorem run_drops_accounted (conf : LiveConf) (events : List Event) : DropsAccounted (run conf events) := by
  have accounted : Accounted (run conf events) :=
    Runs.run_invariant (fun s event _ => step_accounted) empty_accounted (Runs.along_always events _)
  intro c member alive i
  refine ⟨fun on => ?_,accounted.idle c member i⟩
  obtain ⟨cs,found,_,sum⟩ := (accounted.placed c member alive).balance i on
  obtain ⟨p,publishing,rfl⟩ := Option.map_eq_some_iff.mp found
  exact ⟨p,publishing,sum⟩

end NgxRtmp.Live
