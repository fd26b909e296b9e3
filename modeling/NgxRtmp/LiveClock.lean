import NgxRtmp.LiveSteps

namespace NgxRtmp.Live
open OutQueue ChunkWriter List

-- The timestamp a chunk reader holds for one chunk stream, from the messages queued on it.
def Message.heard (m : Message) (clock : Clock) : Clock :=
  let (fmt,field) := chunkFormat m.h m.lh (UInt32.ofNat m.body.length)
  clock.read fmt field

def clockOf (csid : UInt32) (log : List Message) : Clock :=
  log.foldl (fun clock m => if m.h.csid = csid then m.heard clock else clock) ⟨0,0⟩

theorem clockOf_snoc (csid : UInt32) (log : List Message) (m : Message) :
    clockOf csid (log ++ [m]) = if m.h.csid = csid then m.heard (clockOf csid log) else clockOf csid log := by
  simp [clockOf]

theorem clockOf_elsewhere (log sent : List Message) (other : ∀ m ∈ sent, m.h.csid ≠ csid) :
    clockOf csid (log ++ sent) = clockOf csid log := by
  induction sent generalizing log with
  | nil => simp
  | cons m rest ih =>
    have moved := ih (log ++ [m]) (fun m member => other m (by simp [member]))
    rw [append_assoc,singleton_append] at moved
    rw [moved,clockOf_snoc,if_neg (other m (by simp))]

theorem clockOf_absolute (own : m.h.csid = csid) (first : m.lh = none) :
    (clockOf csid (log ++ [m])).timestamp = m.h.timestamp := by
  simp [clockOf_snoc,own,Message.heard,first,chunkFormat,Clock.read]

structure Aligned (b : Broadcast) : Prop where
  csid : b.ch.csid = liveCsid b.csidx
  last : b.lh = {b.ch with timestamp:=b.lh.timestamp}
  mlen : b.ch.mlen = 0
  delta : b.delta = b.ch.timestamp-b.lh.timestamp

theorem liveCsid_injective (different : j ≠ i) : liveCsid i ≠ liveCsid j := by
  revert i j
  decide

theorem liveCsid_nonzero : liveCsid i ≠ 0 := by
  revert i
  decide

theorem notice_csid {notice : Notice} : notice.csid ≠ liveCsid i := by
  revert i
  cases notice <;> decide

theorem aligned_lh (aligned : Aligned b) : b.lh.csid = liveCsid b.csidx ∧ b.lh.msid = b.ch.msid ∧ b.lh.mlen = 0 := by
  rw [aligned.last]
  exact ⟨aligned.csid,rfl,aligned.mlen⟩

-- Its previous header has length 0, so formats 2 and 3 are not used.
theorem clockOf_relative (aligned : Aligned b) :
    (clockOf (liveCsid b.csidx) (log ++ [b.rpkt conf])).timestamp =
      (clockOf (liveCsid b.csidx) log).timestamp+b.delta := by
  obtain ⟨csid,msid,mlen⟩ := aligned_lh aligned
  have format : chunkFormat b.ch (some b.lh) (UInt32.ofNat b.body.length) = (1,b.delta) := by
    have same : b.lh.csid ≠ 0 ∧ b.ch.msid = b.lh.msid := ⟨csid ▸ liveCsid_nonzero,msid.symm⟩
    have longer : ¬(b.ch.type = b.lh.type ∧ UInt32.ofNat b.body.length ≠ 0 ∧ UInt32.ofNat b.body.length = b.lh.mlen) := by
      rintro ⟨_,filled,equal⟩
      exact filled (equal.trans mlen)
    simp only [chunkFormat,if_pos same,if_neg longer,aligned.delta]
  rw [clockOf_snoc,if_pos (by exact aligned.csid)]
  simp [Message.heard,Broadcast.rpkt,prepared,format,Clock.read]

-- Server and reader agree about every active chunk stream of a subscriber.
def InSync (c : Ctx) : Prop :=
  ∀ i, (c.cs i).csid = liveCsid i ∧
    ((c.cs i).active = true → (clockOf (liveCsid i) c.out.accepted).timestamp = (c.cs i).timestamp)

theorem joined_inSync {j : Joiner} : InSync j.ctx := fun _ => ⟨rfl,fun active => by cases active⟩

theorem quiet_clock {next : OutQueue.Output Message} (quiet : Quiet o next) : clockOf (liveCsid i) next.accepted = clockOf (liveCsid i) o.accepted := by
  obtain ⟨⟨notices,log,plain⟩,_,_⟩ := quiet
  rw [log,clockOf_elsewhere]
  intro m member
  obtain ⟨notice,text,rfl⟩ := plain m member
  exact notice_csid

theorem calm_inSync {next : Ctx} (calm : Calm c next) (sync : InSync c) : InSync next := by
  intro i
  rw [quiet_clock calm.quiet]
  rcases calm.streams with same | reset
  · rw [same]
    exact sync i
  · rw [reset]
    exact ⟨(sync i).1,fun active => by cases active⟩

theorem primed_inSync (primed : Primed conf b env c c1) (sync : InSync c) : InSync c1 := by
  intro i
  rw [quiet_clock primed.quiet]
  rcases primed.streams with same | ⟨_,reset⟩
  · rw [same]
    exact sync i
  · rw [reset]
    by_cases equal : i = b.csidx
    · subst i
      exact ⟨by simpa using (sync b.csidx).1,fun active => by simp at active⟩
    · simpa [Function.update_of_ne equal] using sync i

theorem sent_inSync {next : Ctx} (i : Fin 2) (sync : InSync c) (log : next.out.accepted = c.out.accepted ++ sent)
    (own : ∀ m ∈ sent, m.h.csid = liveCsid i) (streams : next.cs = Function.update c.cs i cs)
    (csid : cs.csid = (c.cs i).csid) (clock : cs.active = true →
      (clockOf (liveCsid i) (c.out.accepted ++ sent)).timestamp = cs.timestamp) : InSync next := by
  intro j
  rw [streams,log]
  by_cases equal : j = i
  · subst j
    rw [Function.update_self,csid]
    exact ⟨(sync i).1,clock⟩
  · rw [Function.update_of_ne equal,clockOf_elsewhere]
    · exact sync j
    · intro m member
      rw [own m member]
      exact liveCsid_injective equal

-- With wait_video an absolute video packet without codec header is followed by the dummy audio
-- message, which carries the publisher's previous timestamp.
def rewinds (conf : LiveConf) (b : Broadcast) (env : SendEnv) (c : Ctx) : Bool :=
  let c1 := syncStream conf b (sendMeta b env c)
  !c.paused && !c.hls && !(c1.cs b.csidx).active && !waits conf b c1 && b.header.isNone && b.coheader.isNone &&
    dummyAudio conf b c1 && dummyFollows conf b env c1.out && b.lh.timestamp != b.ch.timestamp

def rewindsAt (conf : LiveConf) (s : Stream) : Event → Bool
  | .packet packet env later =>
    match s.publisher with
    | none => false
    | some publisher =>
      let (_,air,b) := onAir conf s publisher packet env
      air.subscribers.any fun c => rewinds conf b (later c.id) c
  | _ => false

theorem headerMessages_absolute (aligned : Aligned b) (shape : Dummies conf b dummy dummies) :
    ∀ m ∈ headerMessages conf b dummies, m.h.csid = liveCsid b.csidx ∧ m.lh = none ∧ m.h.timestamp = b.lh.timestamp := by
  have csid := (aligned_lh aligned).1
  have dummyPart : ∀ m ∈ dummies, m.h.csid = liveCsid b.csidx ∧ m.lh = none ∧ m.h.timestamp = b.lh.timestamp := by
    intro m member
    rcases shape with rfl | ⟨_,rfl⟩
    · cases member
    · rw [mem_singleton.mp member]
      exact ⟨csid,rfl,rfl⟩
  intro m member
  rcases mem_append.mp member with first | second
  · obtain ⟨header,_,rfl⟩ := Option.map_eq_some_iff.mp (Option.mem_toList.mp first)
    exact ⟨csid,rfl,rfl⟩
  · cases co : b.coheader with
    | none => exact dummyPart m (by simpa [co] using second)
    | some coheader =>
      rw [co] at second
      rw [mem_singleton.mp second]
      exact ⟨csid,rfl,rfl⟩

theorem clockOf_absolutes (filled : sent ≠ [])
    (absolute : ∀ m ∈ sent, m.h.csid = csid ∧ m.lh = none ∧ m.h.timestamp = timestamp) :
    (clockOf csid (log ++ sent)).timestamp = timestamp := by
  rcases eq_nil_or_concat sent with rfl | ⟨rest,m,rfl⟩
  · exact absurd rfl filled
  · obtain ⟨own,first,stamp⟩ := absolute m (by simp)
    rw [concat_eq_append,← append_assoc,clockOf_absolute own first,stamp]

theorem headerMessages_nonempty
    (present : b.header.isSome = true ∨ b.coheader.isSome = true) : headerMessages conf b dummies ≠ [] := by
  unfold headerMessages
  rcases present with some | some
  · obtain ⟨header,found⟩ := Option.isSome_iff_exists.mp some
    simp [found]
  · obtain ⟨coheader,found⟩ := Option.isSome_iff_exists.mp some
    simp [found]

theorem broadcast_inSync (aligned : Aligned b) (steady : rewinds conf b env c = false) (sync : InSync c) :
    InSync (broadcast conf b env c) := by
  have relativeOwn : ∀ m ∈ [b.rpkt conf], m.h.csid = liveCsid b.csidx := by
    intro m member
    rw [mem_singleton.mp member]
    exact aligned.csid
  rcases broadcast_cases with ⟨_,same⟩ | ⟨c1,primed,visited⟩
  · rw [same]
    exact sync
  have before := primed_inSync primed sync
  generalize broadcast conf b env c = next at visited
  cases visited with
  | relative on offered =>
    refine sent_inSync b.csidx before offered.log relativeOwn rfl rfl fun _ => ?_
    rw [clockOf_relative aligned,(before b.csidx).2 on]
  | dropped on crowded log gone =>
    refine sent_inSync b.csidx before (log.trans (append_nil _).symm) (by simp) rfl rfl fun _ => ?_
    rw [append_nil,(before b.csidx).2 on]
  | waiting off => exact before
  | refused off part log gone =>
    refine sent_inSync b.csidx before log ?_ (Function.update_eq_self _ _).symm rfl fun on => ?_
    · intro m member
      rcases part with rfl | rfl
      · cases member
      · obtain ⟨header,_,rfl⟩ := Option.map_eq_some_iff.mp (Option.mem_toList.mp member)
        exact (aligned_lh aligned).1
    · cases off.symm.trans on
  | opened off ready shape present log gone =>
    have absolute := headerMessages_absolute aligned shape
    refine sent_inSync b.csidx before (log.trans (append_assoc _ _ _)) ?_ rfl rfl fun _ => ?_
    · intro m member
      rcases mem_append.mp member with first | second
      · exact (absolute m first).1
      · exact relativeOwn m second
    · rw [← append_assoc,clockOf_relative aligned,
        clockOf_absolutes (headerMessages_nonempty present) absolute]
  | headersOnly off ready shape present sent crowded log gone =>
    have absolute := headerMessages_absolute aligned shape
    exact sent_inSync b.csidx before log (fun m member => (absolute m member).1) rfl rfl
      fun _ => clockOf_absolutes (headerMessages_nonempty present) absolute
  | absolute off ready plain log gone =>
    -- the dummy audio is either not queued or carries the packet's own timestamp
    have stamped : ∀ m ∈ b.apkt conf::(if dummyAudio conf b c1 && dummyFollows conf b env c1.out then [b.aapkt conf] else []),
        m.h.csid = liveCsid b.csidx ∧ m.lh = none ∧ m.h.timestamp = b.ch.timestamp := by
      intro m member
      rcases mem_cons.mp member with rfl | later
      · exact ⟨aligned.csid,rfl,rfl⟩
      · split at later
        · rename_i both
          rw [mem_singleton.mp later]
          refine ⟨(aligned_lh aligned).1,rfl,?_⟩
          have made := primed.made
          subst made
          have same : b.lh.timestamp = b.ch.timestamp := by
            simp only [Bool.and_eq_true] at both
            simpa [rewinds,primed.playing,off,ready,plain,both] using steady
          exact same
        · cases later
    exact sent_inSync b.csidx before log (fun m member => (stamped m member).1) rfl rfl
      fun _ => clockOf_absolutes (by simp) stamped

theorem broadcast_rewound (aligned : Aligned b) (sync : InSync c) (broken : rewinds conf b env c = true) :
    ((broadcast conf b env c).cs b.csidx).active = true ∧
    (clockOf ((broadcast conf b env c).cs b.csidx).csid (broadcast conf b env c).out.accepted).timestamp ≠
      ((broadcast conf b env c).cs b.csidx).timestamp := by
  simp only [rewinds,Bool.and_eq_true,Bool.not_eq_true',Option.isNone_iff_eq_none,bne_iff_ne] at broken
  obtain ⟨⟨⟨⟨⟨⟨⟨⟨paused,hls⟩,off⟩,ready⟩,plain⟩,coplain⟩,dummy⟩,both⟩,moved⟩ := broken
  have csid := (primed_inSync (primed conf b env c ⟨paused,hls⟩) sync b.csidx).1
  unfold broadcast
  rw [if_neg (by simp [paused,hls])]
  generalize syncStream conf b (sendMeta b env c) = c1 at off ready dummy both csid ⊢
  have ready_mark : waits conf b (c1.mark b.csidx) = false := ready
  have dummy_mark : dummyAudio conf b (c1.mark b.csidx) = true := dummy
  simp only [off,ready_mark,dummy_mark,plain,coplain]
  rcases sendAbsolute_cases conf b env true (c1.mark b.csidx) with ⟨_,refused⟩ | ⟨out,log,_,sent⟩
  · cases both.symm.trans refused
  · have logged : out.accepted = c1.out.accepted ++ [b.apkt conf] ++ [b.aapkt conf] := by
      rw [log,show dummyFollows conf b env (c1.mark b.csidx).out = true from both]
      simp [Ctx.mark]
    have last : (clockOf (c1.cs b.csidx).csid out.accepted).timestamp = b.lh.timestamp := by
      rw [logged,csid]
      exact clockOf_absolute (m:=b.aapkt conf) (aligned_lh aligned).1 rfl
    simp only [Bool.false_eq_true,if_false,Option.isSome_none,Bool.or_self,sent]
    simp only [Ctx.setCs,Ctx.mark,Function.update_self,last]
    exact ⟨trivial,moved⟩

structure Timeline (s : Stream) : Prop where
  publisher : ∀ p, s.publisher = some p → ∀ i, (p.cs i).csid = liveCsid i
  subscribers : ∀ c ∈ s.subscribers, InSync c

theorem onAir_aligned (conf : LiveConf) (s : Stream) (packet : Packet) (env : Nat → SendEnv)
    (csids : ∀ i, (publisher.cs i).csid = liveCsid i) : Aligned (onAir conf s publisher packet env).2.2 := by
  have kept := (onAir_continued conf s publisher packet env).1
  have planned : (onAir conf s publisher packet env).2.2 =
      plan conf (onAir conf s publisher packet env).1 (codecAv publisher.codec packet) packet := rfl
  rw [planned]
  generalize (onAir conf s publisher packet env).1 = p at kept
  refine ⟨?_,?_,rfl,rfl⟩
  · simp only [plan,kept]
    exact csids _
  · simp only [plan]
    split <;> rfl

theorem timeline_preserved (steady : rewindsAt conf s event = false) (timeline : Timeline s) : Timeline (step conf s event) := by
  constructor
  · intro p found i
    rcases step_publisher found with ⟨j,_,fresh⟩ | ⟨old,publishing,kept⟩ | ⟨packet,_,_,old,_,publishing,_,moved⟩
    · rw [fresh]
      rfl
    · rw [kept.cs]
      exact timeline.publisher old publishing i
    · rw [moved]
      by_cases equal : i = chunkIndex conf packet.type
      · subst i
        simpa using timeline.publisher old publishing _
      · simpa [Function.update_of_ne equal] using timeline.publisher old publishing i
  · intro next member
    rcases step_subscriber member with ⟨c,old,calm⟩ | ⟨j,calm⟩ | ⟨packet,env,later,p,rfl,publishing,c,air,rfl⟩
    · exact calm_inSync calm (timeline.subscribers c old)
    · exact calm_inSync calm joined_inSync
    · obtain ⟨before,old,calm⟩ := onAir_subscriber air
      have sync := calm_inSync calm (timeline.subscribers before old)
      have quiet : rewinds conf (onAir conf s p packet env).2.2 (later c.id) c = false := by
        simp only [rewindsAt,publishing] at steady
        simpa using any_eq_false.mp steady c air
      exact broadcast_inSync (onAir_aligned conf s packet env (timeline.publisher p publishing)) quiet sync

theorem empty_timeline : Timeline .empty := by
  constructor
  · intro p found
    cases found
  · intro c member
    cases member

-- After a packet, every active chunk stream of every subscriber agrees with the
-- reader at the other end.
def Synced (s : Stream) : Prop :=
  ∀ c ∈ s.subscribers, ∀ i, (c.cs i).active = true →
    (clockOf (c.cs i).csid c.out.accepted).timestamp = (c.cs i).timestamp

theorem timeline_synced (timeline : Timeline s) : Synced s := by
  intro c member i active
  have agree := timeline.subscribers c member i
  rw [agree.1]
  exact agree.2 active

theorem synced_steady (conf : LiveConf) (s : Stream) (event : Event) (timeline : Timeline s)
    (synced : Synced (step conf s event)) : rewindsAt conf s event = false := by
  cases event with
  | packet packet env later =>
    cases publishing : s.publisher with
    | none => simp [rewindsAt,publishing]
    | some p =>
      simp only [rewindsAt,publishing]
      refine any_eq_false.mpr fun c air broken => ?_
      have aligned := onAir_aligned conf s packet env (timeline.publisher p publishing)
      obtain ⟨before,old,calm⟩ := onAir_subscriber air
      obtain ⟨active,apart⟩ := broadcast_rewound aligned (calm_inSync calm (timeline.subscribers before old)) broken
      refine apart (synced _ ?_ _ active)
      simp only [step,liveAv,publishing]
      exact mem_map.mpr ⟨c,air,rfl⟩
  | _ => rfl

theorem run_synced_iff (conf : LiveConf) (events : List Event) :
    (∀ n, Synced (run conf (events.take n))) ↔
      Runs.Along (step conf) (fun s event => rewindsAt conf s event = false) .empty events :=
  Runs.along_exact (fun _ _ => timeline_preserved) (fun _ => timeline_synced)
    (fun s event => synced_steady conf s event) empty_timeline

-- Two H.263 key frames (0x12), and a player that joins between them.
def rewindEvents : List Event :=
  [.publish (joiner 1 256),.packet (videoPacket 0x12 1 0) (fun _ => quietEnv) (fun _ => quietEnv),
    .play (joiner 2 256) quietEnv,.packet (videoPacket 0x12 1 40) (fun _ => quietEnv) (fun _ => quietEnv)]

-- The server holds 40 for the player and its reader 0: the next delta has the wrong base.
theorem dummy_audio_rewinds :
    (run {plainConf with waitVideo:=true} rewindEvents).subscribers.map (fun c =>
      ((c.cs 0).active,(c.cs 0).timestamp,(clockOf (c.cs 0).csid c.out.accepted).timestamp)) = [(true,40,0)] := by
  decide

end NgxRtmp.Live
