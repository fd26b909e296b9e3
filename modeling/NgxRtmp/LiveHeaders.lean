import NgxRtmp.LiveAccounts

namespace NgxRtmp.Live
open Function (update update_eq_self update_of_ne update_self)
open OutQueue ChunkWriter List
variable {next : Ctx}

def Carries (log : List Message) (type : MediaType) (header : List UInt8) : Prop :=
  ∃ m ∈ log, m.h.type = type.code ∧ m.body = header

theorem carries_mono (carries : Carries log type header) (included : ∀ m ∈ log, m ∈ more) : Carries more type header := by
  obtain ⟨m,member,found⟩ := carries
  exact ⟨m,included m member,found⟩

theorem drop_grows {log : List Message} : ∀ m ∈ log.drop n, m ∈ (log ++ sent).drop n := by
  intro m member
  rw [drop_append]
  exact mem_append_left _ member

theorem drop_new {log : List Message} (bound : n ≤ log.length) : ∀ m ∈ sent, m ∈ (log ++ sent).drop n := by
  intro m member
  rw [drop_append_of_le_length bound]
  exact mem_append_right _ member

-- It has carried, since it was last inactive, every header the publisher holds for its types.
def Headed (conf : LiveConf) (held : MediaType → Option (List UInt8)) (c : Ctx) : Prop :=
  ∀ type header, (c.cs (chunkIndex conf type)).active = true → held type = some header →
    Carries (c.out.accepted.drop (c.since (chunkIndex conf type))) type header

def Marked (c : Ctx) : Prop := ∀ i, c.since i ≤ c.out.accepted.length

theorem silent_headed (silent : Silent c.cs) : Headed conf held c := by
  intro type header on
  cases (silent _).symm.trans on

theorem quiet_length {next : OutQueue.Output Message} (quiet : Quiet o next) : o.accepted.length ≤ next.accepted.length := by
  obtain ⟨notices,log,_⟩ := quiet.log
  rw [log,length_append]
  exact Nat.le_add_right _ _

theorem calm_marked (calm : Calm c next) (marked : Marked c) : Marked next := by
  intro i
  rw [calm.since]
  exact le_trans (marked i) (quiet_length calm.quiet)

theorem calm_headed (calm : Calm c next) (headed : Headed conf held c) : Headed conf held next := by
  intro type header on found
  obtain ⟨notices,log,_⟩ := calm.quiet.log
  rcases calm.streams with same | reset
  · rw [same] at on
    rw [log,calm.since]
    exact carries_mono (headed type header on found) drop_grows
  · rw [reset] at on
    cases on

-- Only the header of the packet's own type changes, and only by a mandatory packet.
theorem codecAv_header :
    (codecAv codec packet).header type = headerOf codec type ∨
    (type = packet.type ∧ (codecAv codec packet).header type = some packet.chain.bytes ∧
      isMandatory (codecAv codec packet) packet = true) := by
  have before : (codec.getD ⟨0,0,none,none,none,0⟩).header type = headerOf codec type := by
    cases codec <;> cases type <;> rfl
  unfold codecAv
  generalize codec.getD ⟨0,0,none,none,none,0⟩ = ctx at before
  dsimp only
  split
  · exact .inl before
  · split
    · left
      rw [← before]
      cases packet.type <;> cases type <;> rfl
    · rename_i plain
      have header : packet.isCodecHeader = true := by simpa using (not_or.mp plain).2
      cases kind : packet.type with
      | audio =>
        dsimp only
        split
        · rename_i aac
          cases type with
          | audio => exact .inr ⟨rfl,rfl,by simp [isMandatory,header,kind,aac]⟩
          | video => exact .inl before
        · left
          rw [← before]
          cases type <;> rfl
      | video =>
        dsimp only
        split
        · rename_i avc
          cases type with
          | audio => exact .inl before
          | video => exact .inr ⟨rfl,rfl,by simp [isMandatory,header,kind,avc]⟩
        · left
          rw [← before]
          cases type <;> rfl

structure Informed (conf : LiveConf) (old held : MediaType → Option (List UInt8)) (b : Broadcast) : Prop where
  csidx : b.csidx = chunkIndex conf b.type
  ch : b.ch.type = b.type.code
  lh : b.lh.type = b.type.code
  header : b.header = held b.type
  coheader : b.coheader = if conf.interleave then held b.type.other else none
  fresh : ∀ type, held type = old type ∨ (type = b.type ∧ held type = some b.body ∧ b.mandatory = true)

theorem onAir_informed (conf : LiveConf) (s : Stream) (p : Ctx) (packet : Packet) (env : Nat → SendEnv) :
    Informed conf (headerOf p.codec) (codecAv p.codec packet).header (onAir conf s p packet env).2.2 := by
  refine ⟨rfl,rfl,?_,rfl,rfl,fun type => codecAv_header⟩
  have planned : (onAir conf s p packet env).2.2 =
      plan conf (onAir conf s p packet env).1 (codecAv p.codec packet) packet := rfl
  rw [planned]
  simp only [plan]
  split <;> rfl

theorem shares_stream (informed : Informed conf old held b) (same : chunkIndex conf type = b.csidx) :
    type = b.type ∨ (conf.interleave = true ∧ type = b.type.other) := by
  have equal : chunkIndex conf type = chunkIndex conf b.type := same.trans informed.csidx
  cases interleave : conf.interleave with
  | true => cases type <;> cases b.type <;> simp [MediaType.other]
  | false => cases kind : b.type <;> cases type <;> simp [chunkIndex,interleave,kind] at equal ⊢

theorem headerMessages_carry (dummies : List Message) (informed : Informed conf old held b) (same : chunkIndex conf type = b.csidx)
    (found : held type = some header) : Carries (headerMessages conf b dummies) type header := by
  rcases shares_stream informed same with rfl | ⟨interleave,rfl⟩
  · have own : b.header = some header := informed.header.trans found
    exact ⟨b.hpkt conf header,by simp [headerMessages,own],informed.lh,rfl⟩
  · have other : b.coheader = some header := by
      rw [informed.coheader,if_pos interleave]
      exact found
    exact ⟨b.acopkt conf header,by simp [headerMessages,other],rfl,rfl⟩

theorem headers_queued (informed : Informed conf old held b) (same : chunkIndex conf type = b.csidx)
    (found : held type = some header) (log dummies rest : List Message) :
    Carries ((log ++ (headerMessages conf b dummies ++ rest)).drop log.length) type header := by
  refine carries_mono (headerMessages_carry dummies informed same found) fun m member => ?_
  exact drop_new le_rfl m (mem_append_left _ member)

theorem primed_marked (primed : Primed conf b env c c1) (marked : Marked c) : Marked c1 := by
  intro i
  rw [primed.same]
  exact le_trans (marked i) (quiet_length primed.quiet)

theorem primed_headed (primed : Primed conf b env c c1) (headed : Headed conf held c) : Headed conf held c1 := by
  intro type header on found
  obtain ⟨notices,log,_⟩ := primed.quiet.log
  have since : c1.since = c.since := by rw [primed.same]
  have was : (c.cs (chunkIndex conf type)).active = true := by
    rcases primed.streams with same | ⟨_,reset⟩
    · rw [same] at on
      exact on
    · rw [reset] at on
      by_cases equal : chunkIndex conf type = b.csidx
      · rw [equal,update_self] at on
        cases on
      · rw [update_of_ne equal] at on
        exact on
  rw [log,since]
  exact carries_mono (headed type header was found) drop_grows

theorem update_headed (informed : Informed conf old held b) (headed : Headed conf old c)
    (log : next.out.accepted = c.out.accepted ++ sent) (streams : next.cs = update c.cs b.csidx cs)
    (mark : next.since = update c.since b.csidx n)
    (own : ∀ type header, chunkIndex conf type = b.csidx → cs.active = true → held type = some header →
      Carries ((c.out.accepted ++ sent).drop n) type header) : Headed conf held next := by
  intro type header on found
  rw [streams] at on
  rw [log,mark]
  by_cases equal : chunkIndex conf type = b.csidx
  · rw [equal,update_self] at on ⊢
    exact own type header equal on found
  · rw [update_of_ne equal] at on ⊢
    rcases informed.fresh type with kept | ⟨rfl,_⟩
    · exact carries_mono (headed type header on (kept.symm.trans found)) drop_grows
    · exact absurd informed.csidx.symm equal

theorem header_plain {b : Broadcast} : ∀ m ∈ (b.header.map (b.hpkt conf)).toList, m.isFrame = false := by
  intro m member
  obtain ⟨header,_,rfl⟩ := Option.map_eq_some_iff.mp (Option.mem_toList.mp member)
  rfl

theorem headerMessages_plain (shape : Dummies conf b dummy dummies) : ∀ m ∈ headerMessages conf b dummies, m.isFrame = false := by
  intro m member
  rcases mem_append.mp member with first | second
  · exact header_plain m first
  · cases co : b.coheader with
    | some coheader =>
      rw [co] at second
      rw [mem_singleton.mp second]
      rfl
    | none =>
      rw [co] at second
      rcases shape with rfl | ⟨_,rfl⟩
      · cases second
      · rw [mem_singleton.mp second]
        rfl

-- The only frame that the loop body appends is the packet itself.
theorem visited_log (visited : Visited conf b env c1 next) :
    ∃ sent, next.out.accepted = c1.out.accepted ++ sent ∧
      (∀ m ∈ sent, m.isFrame = true → m.h = b.ch) ∧
      (next.since = c1.since ∨ next.since = update c1.since b.csidx c1.out.accepted.length) := by
  have dull : ∀ sent : List Message, (∀ m ∈ sent, m.isFrame = false) → ∀ m ∈ sent, m.isFrame = true → m.h = b.ch := by
    intro sent plain m member frame
    cases (plain m member).symm.trans frame
  have own : ∀ m ∈ [b.rpkt conf], m.isFrame = true → m.h = b.ch := by
    intro m member _
    rw [mem_singleton.mp member]
    rfl
  cases visited with
  | relative on offered => exact ⟨_,offered.log,own,.inl rfl⟩
  | dropped on crowded log gone => exact ⟨[],log.trans (append_nil _).symm,by simp,.inl rfl⟩
  | waiting off => exact ⟨[],(append_nil _).symm,by simp,.inr rfl⟩
  | refused off part log gone =>
    refine ⟨_,log,dull _ fun m member => ?_,.inr rfl⟩
    rcases part with rfl | rfl
    · cases member
    · exact header_plain m member
  | opened off ready shape present log gone =>
    refine ⟨_,log.trans (append_assoc _ _ _),fun m member => ?_,.inr rfl⟩
    rcases mem_append.mp member with first | second
    · exact dull _ (headerMessages_plain shape) m first
    · exact own m second
  | headersOnly off ready shape present sent crowded log gone =>
    exact ⟨_,log,dull _ (headerMessages_plain shape),.inr rfl⟩
  | absolute off ready plain log gone =>
    refine ⟨_,log,fun m member frame => ?_,.inr rfl⟩
    rcases mem_cons.mp member with rfl | later
    · rfl
    · split at later
      · rw [mem_singleton.mp later] at frame
        cases frame
      · cases later

theorem visited_marked (marked : Marked c1) (visited : Visited conf b env c1 next) : Marked next := by
  obtain ⟨sent,log,_,mark⟩ := visited_log visited
  intro i
  rw [log,length_append]
  refine le_trans ?_ (Nat.le_add_right _ _)
  rcases mark with same | moved
  · rw [same]
    exact marked i
  · rw [moved]
    by_cases equal : i = b.csidx
    · rw [equal,update_self]
    · rw [update_of_ne equal]
      exact marked i

theorem visited_headed (informed : Informed conf old held b) (marked : Marked c1) (headed : Headed conf old c1)
    (visited : Visited conf b env c1 next) (alive : next.out.destroyed = false) : Headed conf held next := by
  -- the headers held before, wherever the log has only grown
  have kept : ∀ type header sent, chunkIndex conf type = b.csidx → (c1.cs b.csidx).active = true →
      old type = some header → Carries ((c1.out.accepted ++ sent).drop (c1.since b.csidx)) type header := by
    intro type header sent same on found
    rw [← same] at on ⊢
    exact carries_mono (headed type header on found) drop_grows
  have unmarked : c1.since = update c1.since b.csidx (c1.since b.csidx) := (update_eq_self _ _).symm
  have unmoved : c1.cs = update c1.cs b.csidx (c1.cs b.csidx) := (update_eq_self _ _).symm
  cases visited with
  | relative on offered =>
    refine update_headed informed headed offered.log rfl unmarked ?_
    intro type header same _ found
    rcases informed.fresh type with before | ⟨rfl,new,_⟩
    · exact kept type header _ same on (before.symm.trans found)
    · cases new.symm.trans found
      exact ⟨b.rpkt conf,drop_new (marked _) _ (by simp),informed.ch,rfl⟩
  | dropped on crowded log gone =>
    refine update_headed informed headed (log.trans (append_nil _).symm) rfl unmarked ?_
    intro type header same _ found
    rcases informed.fresh type with before | ⟨_,_,mandatory⟩
    · exact kept type header _ same on (before.symm.trans found)
    · cases alive.symm.trans (gone (.inr mandatory))
  | waiting off =>
    refine update_headed informed headed (append_nil _).symm unmoved rfl ?_
    intro type header _ on
    cases off.symm.trans on
  | refused off part log gone =>
    refine update_headed informed headed log unmoved rfl ?_
    intro type header _ on
    cases off.symm.trans on
  | opened off ready shape present log gone =>
    refine update_headed informed headed (log.trans (append_assoc _ _ _)) rfl rfl ?_
    intro type header same _ found
    exact headers_queued informed same found _ _ _
  | headersOnly off ready shape present sent crowded log gone =>
    refine update_headed informed headed log rfl rfl ?_
    intro type header same _ found
    simpa using headers_queued informed same found c1.out.accepted _ []
  | absolute off ready plain log gone =>
    refine update_headed informed headed log rfl rfl ?_
    intro type header same _ found
    rcases shares_stream informed same with rfl | ⟨interleave,rfl⟩
    · cases (informed.header.symm.trans plain.1).symm.trans found
    · have none := informed.coheader.symm.trans plain.2
      rw [if_pos interleave] at none
      cases none.symm.trans found

structure Guided (conf : LiveConf) (s : Stream) : Prop extends Accounted s where
  marked : ∀ c ∈ s.subscribers, Marked c
  headed : ∀ c ∈ s.subscribers, c.out.destroyed = false → Headed conf (headerOf (s.publisher.bind Ctx.codec)) c

theorem empty_guided : Guided conf .empty := by
  refine ⟨empty_accounted,?_,?_⟩
  · intro c member
    cases member
  · intro c member
    cases member

theorem broadcast_marked (marked : Marked c) : Marked (broadcast conf b env c) := by
  rcases broadcast_cases with ⟨_,same⟩ | ⟨c1,primed,visited⟩
  · rw [same]
    exact marked
  · exact visited_marked (primed_marked primed marked) visited

theorem broadcast_headed (informed : Informed conf old held b) (marked : Marked c)
    (headed : c.out.destroyed = false → Headed conf old c) (placed : c.out.destroyed = false → Placed true publisher c)
    (alive : (broadcast conf b env c).out.destroyed = false) : Headed conf held (broadcast conf b env c) := by
  rcases broadcast_cases with ⟨off,same⟩ | ⟨c1,primed,visited⟩
  · rw [same] at alive ⊢
    exact silent_headed ((placed alive).stopped (.inr (.inr off)))
  · have was := still_alive primed.quiet.destroyed (still_alive (visited_frame visited).2.2.2 alive)
    exact visited_headed informed (primed_marked primed marked) (primed_headed primed (headed was)) visited alive

theorem step_marked (marked : ∀ c ∈ s.subscribers, Marked c) : ∀ c ∈ (step conf s event).subscribers, Marked c := by
  intro next member
  rcases step_subscriber member with ⟨c,old,calm⟩ | ⟨j,calm⟩ | ⟨packet,env,later,p,_,_,c,air,rfl⟩
  · exact calm_marked calm (marked c old)
  · exact calm_marked calm fun _ => le_rfl
  · obtain ⟨before,old,calm⟩ := onAir_subscriber air
    exact broadcast_marked (calm_marked calm (marked before old))

theorem calm_silent (calm : Calm c next) (silent : Silent c.cs) : Silent next.cs := by
  intro i
  rcases calm.streams with same | reset
  · rw [same]
    exact silent i
  · rw [reset]
    rfl

theorem onAir_guided (guided : Guided conf s) (publishing : s.publisher = some p) (air : c ∈ (onAir conf s p packet env).2.1.subscribers) :
    Marked c ∧ (c.out.destroyed = false → Headed conf (headerOf p.codec) c) := by
  obtain ⟨before,old,calm⟩ := onAir_subscriber air
  refine ⟨calm_marked calm (guided.marked before old),fun alive => ?_⟩
  have headed := guided.headed before old (still_alive calm.quiet.destroyed alive)
  rw [publishing] at headed
  exact calm_headed calm headed

theorem packet_headed (guided : Guided conf s)
    (member : next ∈ (liveAv conf s packet env later).subscribers) (alive : next.out.destroyed = false) :
    Headed conf (headerOf ((liveAv conf s packet env later).publisher.bind Ctx.codec)) next := by
  unfold liveAv at member ⊢
  cases publishing : s.publisher with
  | none =>
    simp only [publishing]
    intro type header _ found
    cases found
  | some p =>
    simp only [publishing] at member ⊢
    obtain ⟨c,air,rfl⟩ := mem_map.mp member
    obtain ⟨marked,headed⟩ := onAir_guided guided publishing air
    have held : headerOf (Option.bind (some ((onAir conf s p packet env).1.setCs (onAir conf s p packet env).2.2.csidx
        {(onAir conf s p packet env).1.cs (onAir conf s p packet env).2.2.csidx with
          active:=true,timestamp:=packet.timestamp})) Ctx.codec) = (codecAv p.codec packet).header := by
      funext type
      simp only [Ctx.setCs,Option.bind_some,(onAir_continued conf s p packet env).2,headerOf]
    rw [held]
    exact broadcast_headed (onAir_informed conf s p packet env) marked headed
      ((onAir_placed guided.toAccounted publishing).2.2 c air) alive

theorem step_headed (guided : Guided conf s)
    (member : next ∈ (step conf s event).subscribers) (alive : next.out.destroyed = false) :
    Headed conf (headerOf ((step conf s event).publisher.bind Ctx.codec)) next := by
  -- what every event but a packet does
  have other : (∀ packet env later, event ≠ .packet packet env later) →
      Headed conf (headerOf ((step conf s event).publisher.bind Ctx.codec)) next := by
    intro notPacket
    rcases step_subscriber member with ⟨c,old,calm⟩ | ⟨j,calm⟩ | ⟨packet,env,later,_,equal,_⟩
    · have was := still_alive calm.quiet.destroyed alive
      cases publishing : (step conf s event).publisher with
      | none =>
        intro type header _ found
        cases found
      | some q =>
        rcases step_publisher publishing with ⟨_,vacant,_⟩ | ⟨p,before,continued⟩ | ⟨packet,env,later,_,equal,_⟩
        · exact silent_headed (calm_silent calm ((guided.placed c old was).stopped (.inl (guided.vacant vacant))))
        · have headed := guided.headed c old was
          rw [before] at headed
          intro type header on found
          exact calm_headed calm headed type header on ((continued.headers type).symm.trans found)
        · exact absurd equal (notPacket packet env later)
    · exact silent_headed (calm_silent calm fun _ => rfl)
    · exact absurd equal (notPacket packet env later)
  cases event with
  | packet packet env later => exact packet_headed guided member alive
  | _ => exact other fun _ _ _ equal => by cases equal

theorem step_guided (guided : Guided conf s) : Guided conf (step conf s event) :=
  ⟨step_accounted guided.toAccounted,step_marked guided.marked,
    fun _ member alive => step_headed guided member alive⟩

theorem run_guided : Guided conf (run conf events) :=
  Runs.run_invariant (fun _ _ _ => step_guided) empty_guided (Runs.along_always events _)

-- When the log of a survivor grows by a frame m, a header of its type that the publisher holds is in
-- the log before m and after the mark.
def HeaderFirst (conf : LiveConf) (s : Stream) (packet : Packet) (env later : Nat → SendEnv) : Prop :=
  ∀ p, s.publisher = some p → ∀ c ∈ (onAir conf s p packet env).2.1.subscribers, c.finalized = false →
    let next := broadcast conf (onAir conf s p packet env).2.2 (later c.id) c
    ∀ pre m post, next.out.accepted = c.out.accepted ++ pre ++ m::post → m.isFrame = true →
      ∀ header, (codecAv p.codec packet).header packet.type = some header →
        Carries ((c.out.accepted ++ pre).drop (next.since (chunkIndex conf packet.type))) packet.type header

theorem frame_after {xs : List Message} (plain : ∀ x ∈ xs, x.isFrame = false) (frame : m.isFrame = true)
    (equal : pre ++ m::post = xs ++ ys) : ∃ k, pre = xs ++ k ∧ k ++ m::post = ys := by
  rcases append_eq_append_iff.mp equal with ⟨k,shorter,rest⟩ | ⟨k,longer,rest⟩
  · cases k with
    | nil => exact ⟨[],by simpa using shorter.symm,by simpa using rest⟩
    | cons x k =>
      obtain ⟨rfl,_⟩ := List.cons.inj rest
      have dull := plain m (by simp [shorter])
      cases dull.symm.trans frame
  · exact ⟨k,longer,rest.symm⟩

theorem visited_header_first (informed : Informed conf old held b) (headed : Headed conf old c1)
    (visited : Visited conf b env c1 next) (log : next.out.accepted = c1.out.accepted ++ (k ++ m::post))
    (frame : m.isFrame = true) (found : held b.type = some header) :
    Carries ((c1.out.accepted ++ k).drop (next.since b.csidx)) b.type header := by
  have member : m ∈ k ++ m::post := by simp
  cases visited with
  | relative on offered =>
    have alone : k ++ m::post = [b.rpkt conf] := append_cancel_left (log.symm.trans offered.log)
    have same : m = b.rpkt conf := by simpa [alone] using member
    subst same
    rcases informed.fresh b.type with before | ⟨_,_,mandatory⟩
    · have on : (c1.cs (chunkIndex conf b.type)).active = true := by rw [← informed.csidx]; exact on
      have carries := headed b.type header on (before.symm.trans found)
      rw [← informed.csidx] at carries
      exact carries_mono carries drop_grows
    · simp [Message.isFrame,Broadcast.rpkt,prepared,mandatory] at frame
  | dropped on crowded same gone =>
    rw [append_cancel_left (log.symm.trans (same.trans (append_nil _).symm))] at member
    cases member
  | waiting off =>
    rw [append_cancel_left (log.symm.trans (append_nil _).symm)] at member
    cases member
  | refused off part sent gone =>
    rw [append_cancel_left (log.symm.trans sent)] at member
    have dull : m.isFrame = false := by
      rcases part with rfl | rfl
      · cases member
      · exact header_plain m member
    cases dull.symm.trans frame
  | opened off ready shape present sent gone =>
    rw [append_assoc] at sent
    have equal := append_cancel_left (log.symm.trans sent)
    obtain ⟨rest,rfl,_⟩ := frame_after (headerMessages_plain shape) frame equal
    change Carries (List.drop (update c1.since b.csidx c1.out.accepted.length b.csidx) _) _ _
    rw [update_self]
    exact headers_queued informed informed.csidx.symm found _ _ _
  | headersOnly off ready shape present sent crowded queued gone =>
    rw [append_cancel_left (log.symm.trans queued)] at member
    cases (headerMessages_plain shape m member).symm.trans frame
  | absolute off ready plain sent gone => cases (informed.header.symm.trans plain.1).symm.trans found

theorem run_header_first (conf : LiveConf) (events : List Event) (packet : Packet) (env later : Nat → SendEnv) :
    HeaderFirst conf (run conf events) packet env later := by
  intro p publishing c air alive next pre m post log frame header found
  obtain ⟨_,headed⟩ := onAir_guided run_guided publishing air
  have informed := onAir_informed conf (run conf events) p packet env
  rcases broadcast_cases
    with ⟨_,same⟩ | ⟨c1,primed,visited⟩
  · have unchanged : next = c := same
    simp [unchanged] at log
  · obtain ⟨notices,told,plain⟩ := primed.quiet.log
    obtain ⟨sent,grown,_,_⟩ := visited_log visited
    have equal : pre ++ m::post = notices ++ sent := by
      have both : c.out.accepted ++ (pre ++ m::post) = c.out.accepted ++ (notices ++ sent) := by
        rw [← append_assoc,← log,← append_assoc,← told]
        exact grown
      exact append_cancel_left both
    have dull : ∀ x ∈ notices, x.isFrame = false := by
      intro x member
      obtain ⟨notice,text,rfl⟩ := plain x member
      rfl
    obtain ⟨k,rfl,rest⟩ := frame_after dull frame equal
    rw [← rest] at grown
    rw [← append_assoc,← told]
    exact visited_header_first informed (primed_headed primed (headed alive)) visited grown frame found

end NgxRtmp.Live
