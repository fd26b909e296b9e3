import NgxRtmp.LiveHeaders

namespace NgxRtmp.Live
open OutQueue ChunkWriter List
variable {next : Ctx}

-- NGX_RTMP_VIDEO_KEY_FRAME is 1, and the priority of a frame is its frame type.
def Message.isKeyFrame (m : Message) : Bool := m.kind == .media false 1

def KeyFirst (c : Ctx) : Prop := ∀ m, c.videoFrames.head? = some m → m.isKeyFrame = true

structure Keyed (c : Ctx) : Prop where
  first : KeyFirst c
  running : (c.cs 0).active = true → c.videoFrames ≠ []

theorem empty_keyed (none : c.videoFrames = []) (off : (c.cs 0).active = false) : Keyed c := by
  refine ⟨?_,fun on => by cases off.symm.trans on⟩
  intro m found
  rw [none] at found
  cases found

theorem joined_keyed {j : Joiner} : Keyed j.ctx := by
  refine empty_keyed ?_ rfl
  change List.filter _ (List.drop j.out.accepted.length j.out.accepted) = []
  rw [drop_length]
  rfl

theorem dull_frames {c next : Ctx} (log : next.out.accepted = c.out.accepted ++ sent) (since : next.since 0 = c.since 0)
    (dull : ∀ m ∈ sent, m.isVideoFrame = false) : next.videoFrames = c.videoFrames := by
  unfold Ctx.videoFrames
  rw [log,since,drop_append,filter_append]
  have none : List.filter Message.isVideoFrame (sent.drop (c.since 0-c.out.accepted.length)) = [] := by
    refine filter_eq_nil_iff.mpr fun m member => ?_
    simp [dull m (mem_of_mem_drop member)]
  rw [none,append_nil]

theorem quiet_dull {next : OutQueue.Output Message} (quiet : Quiet o next) : ∃ sent, next.accepted = o.accepted ++ sent ∧ ∀ m ∈ sent, m.isVideoFrame = false := by
  obtain ⟨notices,log,plain⟩ := quiet.log
  refine ⟨notices,log,fun m member => ?_⟩
  obtain ⟨notice,text,rfl⟩ := plain m member
  rfl

theorem same_keyed (frames : next.videoFrames = c.videoFrames)
    (active : (next.cs 0).active = true → (c.cs 0).active = true) (keyed : Keyed c) : Keyed next := by
  refine ⟨?_,fun on => ?_⟩
  · intro m found
    rw [frames] at found
    exact keyed.first m found
  · rw [frames]
    exact keyed.running (active on)

theorem calm_keyed (calm : Calm c next) (keyed : Keyed c) : Keyed next := by
  obtain ⟨sent,log,dull⟩ := quiet_dull calm.quiet
  refine same_keyed (dull_frames log (by rw [calm.since]) dull) (fun on => ?_) keyed
  rcases calm.streams with same | reset
  · rw [same] at on
    exact on
  · rw [reset] at on
    cases on

theorem primed_keyed (primed : Primed conf b env c c1) (keyed : Keyed c) : Keyed c1 := by
  obtain ⟨sent,log,dull⟩ := quiet_dull primed.quiet
  refine same_keyed (dull_frames log (by rw [primed.same]) dull) (fun on => ?_) keyed
  rcases primed.streams with same | ⟨_,reset⟩
  · rw [same] at on
    exact on
  · rw [reset] at on
    by_cases equal : (0 : Fin 2) = b.csidx
    · rw [← equal,Function.update_self] at on
      cases on
    · rw [Function.update_of_ne equal] at on
      exact on

theorem opens_with_key (waitKey : conf.waitKey = true) (csidx : b.csidx = chunkIndex conf b.type)
    (prio : b.prio = 1 → b.type = .video) (video : b.csidx = 0) (ready : waits conf b c = false) :
    b.mandatory = false ∧ b.prio = 1 ∧ b.type = .video := by
  have shared : (conf.interleave || b.type == .video) = true := by
    cases on : (conf.interleave || b.type == .video) with
    | true => rfl
    | false => simp [csidx,chunkIndex,on] at video
  have one : b.prio = 1 := by
    have skips := ready
    simp only [waits,waitKey,shared,Bool.and_true,Bool.true_and,Bool.or_eq_false_iff] at skips
    simpa using skips.2
  exact ⟨waits_mandatory ready,one,prio one⟩

theorem opened_keyed (log : next.out.accepted = before ++ pre ++ m::post) (since : next.since 0 = before.length)
    (plain : ∀ x ∈ pre, x.isFrame = false) (video : m.isVideoFrame = true) (key : m.isKeyFrame = true) : Keyed next := by
  have none : pre.filter Message.isVideoFrame = [] := by
    refine filter_eq_nil_iff.mpr fun x member => ?_
    simp [Message.isVideoFrame,plain x member]
  have frames : next.videoFrames = m::post.filter Message.isVideoFrame := by
    unfold Ctx.videoFrames
    rw [log,since,append_assoc,drop_left,filter_append,none,filter_cons,if_pos video]
    rfl
  refine ⟨?_,fun _ => by simp [frames]⟩
  intro x found
  rw [frames] at found
  cases found
  exact key

theorem visited_elsewhere (visited : Visited conf b env c1 next) (other : i ≠ b.csidx) : next.cs i = c1.cs i := by
  cases visited with
  | waiting off => rfl
  | refused off part log gone => rfl
  | _ => exact Function.update_of_ne other _ _

theorem grown_keyed (keyed : Keyed c) (on : (c.cs 0).active = true)
    (log : next.out.accepted = c.out.accepted ++ sent) (since : next.since 0 = c.since 0) : Keyed next := by
  have frames : ∃ more, next.videoFrames = c.videoFrames ++ more := by
    unfold Ctx.videoFrames
    rw [log,since,drop_append,filter_append]
    exact ⟨_,rfl⟩
  obtain ⟨more,grown⟩ := frames
  obtain ⟨key,rest,split⟩ := exists_cons_of_ne_nil (keyed.running on)
  have first := keyed.first key (by simp [split])
  refine ⟨?_,fun _ => by simp [grown,split]⟩
  intro m found
  rw [grown,split] at found
  cases found
  exact first

theorem closed_keyed (log : next.out.accepted = before ++ sent) (since : next.since 0 = before.length)
    (plain : ∀ x ∈ sent, x.isFrame = false) (off : (next.cs 0).active = false) : Keyed next := by
  refine empty_keyed ?_ off
  unfold Ctx.videoFrames
  rw [log,since,drop_left]
  refine filter_eq_nil_iff.mpr fun x member => ?_
  simp [Message.isVideoFrame,plain x member]

theorem visited_video (waitKey : conf.waitKey = true) (informed : Informed conf old held b)
    (prio : b.prio = 1 → b.type = .video) (video : b.csidx = 0) (kept : headerAlone conf b env c1 = false)
    (keyed : Keyed c1) (visited : Visited conf b env c1 next) : Keyed next := by
  have key : waits conf b c1 = false → (b.rpkt conf).isVideoFrame = true ∧ (b.rpkt conf).isKeyFrame = true := by
    intro ready
    obtain ⟨mandatory,one,type⟩ := opens_with_key waitKey informed.csidx prio video ready
    simp [Message.isVideoFrame,Message.isFrame,Message.isKeyFrame,Broadcast.rpkt,prepared,mandatory,one,informed.ch,type]
  have marked : Function.update c1.since b.csidx c1.out.accepted.length 0 = c1.out.accepted.length := by
    rw [video]
    exact Function.update_self _ _ _
  cases visited with
  | relative on offered => exact grown_keyed keyed (video ▸ on) offered.log rfl
  | dropped on crowded log gone => exact grown_keyed keyed (video ▸ on) (log.trans (append_nil _).symm) rfl
  | waiting off => exact closed_keyed (append_nil _).symm marked (by simp) (video ▸ off)
  | refused off part log gone =>
    refine closed_keyed log marked (fun x member => ?_) (video ▸ off)
    rcases part with rfl | rfl
    · cases member
    · exact header_plain x member
  | opened off ready shape present log gone =>
    exact opened_keyed log marked (headerMessages_plain shape) (key ready).1 (key ready).2
  | headersOnly off ready shape present sent crowded log gone =>
    have lost : headerAlone conf b env c1 = true := by
      simp only [headerAlone,off,ready,sent,crowded]
      simpa [video] using present
    cases kept.symm.trans lost
  | absolute off ready plain log gone =>
    rw [← nil_append (b.apkt conf::_),← append_assoc] at log
    exact opened_keyed log marked (by simp) (key ready).1 (key ready).2

theorem visited_audio (informed : Informed conf old held b) (apart : b.csidx ≠ 0)
    (keyed : Keyed c1) (visited : Visited conf b env c1 next) : Keyed next := by
  obtain ⟨sent,log,own,mark⟩ := visited_log visited
  have audio : b.type = .audio := by
    cases type : b.type with
    | audio => rfl
    | video => exact absurd (by simp [informed.csidx,chunkIndex,type]) apart
  refine same_keyed (dull_frames log ?_ fun m member => ?_) (fun on => ?_) keyed
  · rcases mark with same | moved
    · rw [same]
    · rw [moved,Function.update_of_ne (Ne.symm apart)]
  · cases frame : m.isFrame with
    | false => simp [Message.isVideoFrame,frame]
    | true => simp [Message.isVideoFrame,frame,own m member frame,informed.ch,audio,MediaType.code]
  · rw [visited_elsewhere visited (Ne.symm apart)] at on
    exact on

def keyLost (conf : LiveConf) (b : Broadcast) (env : SendEnv) (c : Ctx) : Bool :=
  !c.paused && !c.hls && headerAlone conf b env (syncStream conf b (sendMeta b env c))

def keyLostAt (conf : LiveConf) (s : Stream) : Event → Bool
  | .packet packet env later =>
    match s.publisher with
    | none => false
    | some publisher =>
      let (_,air,b) := onAir conf s publisher packet env
      air.subscribers.any fun c => keyLost conf b (later c.id) c
  | _ => false

theorem broadcast_keyed (waitKey : conf.waitKey = true) (informed : Informed conf old held b)
    (prio : b.prio = 1 → b.type = .video) (kept : keyLost conf b env c = false) (keyed : Keyed c) :
    Keyed (broadcast conf b env c) := by
  rcases broadcast_cases with ⟨_,same⟩ | ⟨c1,primed,visited⟩
  · rw [same]
    exact keyed
  · have before := primed_keyed primed keyed
    by_cases video : b.csidx = 0
    · have kept : headerAlone conf b env c1 = false := by
        rw [primed.made]
        simpa [keyLost,primed.playing] using kept
      exact visited_video waitKey informed prio video kept before visited
    · exact visited_audio informed video before visited

theorem onAir_prio (one : (onAir conf s p packet env).2.2.prio = 1) : (onAir conf s p packet env).2.2.type = .video := by
  change packet.type = .video
  cases type : packet.type with
  | video => rfl
  | audio => simp [onAir,plan,type] at one

theorem step_keyed (conf : LiveConf) (waitKey : conf.waitKey = true) (s : Stream) (event : Event)
    (kept : keyLostAt conf s event = false) (keyed : ∀ c ∈ s.subscribers, Keyed c) :
    ∀ c ∈ (step conf s event).subscribers, Keyed c := by
  intro next member
  rcases step_subscriber member with ⟨c,old,calm⟩ | ⟨j,calm⟩ | ⟨packet,env,later,p,rfl,publishing,c,air,rfl⟩
  · exact calm_keyed calm (keyed c old)
  · exact calm_keyed calm joined_keyed
  · obtain ⟨before,old,calm⟩ := onAir_subscriber air
    have kept : keyLost conf (onAir conf s p packet env).2.2 (later c.id) c = false := by
      simp only [keyLostAt,publishing] at kept
      simpa using any_eq_false.mp kept c air
    exact broadcast_keyed waitKey (onAir_informed conf s p packet env) onAir_prio kept
      (calm_keyed calm (keyed before old))

theorem run_key_first (conf : LiveConf) (waitKey : conf.waitKey = true) (events : List Event)
    (kept : Runs.Along (step conf) (fun s event => keyLostAt conf s event = false) .empty events) :
    ∀ c ∈ (run conf events).subscribers, KeyFirst c := by
  have keyed : ∀ c ∈ (run conf events).subscribers, Keyed c :=
    Runs.run_invariant (fun s event kept keyed => step_keyed conf waitKey s event kept keyed)
      (fun c member => by cases member) kept
  exact fun c member => (keyed c member).first

-- A codec header, a player whose queue of 8 holds four messages, a key frame (0x17), and an inter
-- frame (0x27) once it is drained.
def crowdedEvents (queued : Nat) : List Event :=
  [.publish (joiner 1 256),.packet (videoPacket 0x17 0 0) (fun _ => quietEnv) (fun _ => quietEnv),
    .play (joiner 2 8) quietEnv] ++ List.replicate queued (.reply 2 0 []) ++
  [.packet (videoPacket 0x17 1 40) (fun _ => quietEnv) (fun _ => quietEnv),
    .output 2 false (List.replicate 8 (.sent 4096)),
    .packet (videoPacket 0x27 1 80) (fun _ => quietEnv) (fun _ => quietEnv)]

theorem inter_frame_first :
    (run plainConf (crowdedEvents 3)).subscribers.map (fun c => c.videoFrames.map Message.isKeyFrame) = [[false]] := by
  decide

theorem crowded_none_kept :
    Runs.Along (step plainConf) (fun s event => keyLostAt plainConf s event = false) .empty (crowdedEvents 0) := by
  refine ⟨rfl,?_,rfl,?_,rfl,?_,trivial⟩ <;> decide

theorem run_key_first_uncrowded :
    plainConf.waitKey = true ∧
    (run plainConf (crowdedEvents 0)).subscribers.map (fun c => c.videoFrames.map Message.isKeyFrame) = [[true,false]] ∧
    ∀ c ∈ (run plainConf (crowdedEvents 0)).subscribers, KeyFirst c :=
  ⟨rfl,by decide,run_key_first plainConf rfl (crowdedEvents 0) crowded_none_kept⟩

end NgxRtmp.Live
