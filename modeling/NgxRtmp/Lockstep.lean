import NgxRtmp.Handling
import NgxRtmp.Lib.Runs

namespace NgxRtmp.Recv
open ChunkWriter ChunkHeader Cells
open NgxRtmp.Flow (capacity State)

theorem payload_refines (ready : Ready s own a f) (ring : s.core.csid ≠ 0) (streams : conf.maxStreams ≤ s.core.cscf.maxStreams)
    (events : Events) (oldPos : Option (Nat × Nat)) (oldSize : Nat) (socket : List Read)
    (allowed : (Flow.payload f socket).all (mildMessage events) = true) :
    TurnAs conf (payload events s a ⟨conf,oldPos,oldSize⟩ socket) ((Flow.payload f socket).finish events) := by
  obtain ⟨_,last,_,_⟩ := ready.offsets
  unfold payload
  unfold Flow.payload at allowed ⊢
  simp only [last,ready.pos,←ready.core] at allowed ⊢
  by_cases short : f.bytes.length-f.pos < min f.core.chan.fsize f.core.chunkSize
  · rw [if_pos short,if_pos short]
    exact .next ready.toResting ready.waiting streams
  · rw [if_neg short] at allowed ⊢
    rw [if_neg short]
    by_cases more : f.core.chunkSize < f.core.chan.fsize
    · rw [if_pos more,if_pos more]
      have enough : s.core.chunkSize ≤ f.bytes.length-f.pos := by
        rw [←ready.core]
        omega
      obtain ⟨resting,waiting⟩ := collect_refines ready ring enough
      rw [ready.pos,last,←ready.core] at waiting
      exact .next resting waiting streams
    · rw [if_neg more] at allowed ⊢
      rw [if_neg more]
      exact handle_refines ready ring (by omega) streams events oldPos oldSize socket allowed

theorem readHeader_refines (ready : Ready s own a f) (ring : s.core.csid ≠ 0) (streams : conf.maxStreams ≤ s.core.cscf.maxStreams) (within : size ≤ f.bytes.length)
    (allowed : (Flow.readHeader conf f socket fmt size).all (mildMessage events) = true) :
    TurnAs conf (readHeader events s a ⟨conf,oldPos,oldSize⟩ socket fmt size) ((Flow.readHeader conf f socket fmt size).finish events) := by
  obtain ⟨fits,last,_,_⟩ := ready.offsets
  unfold readHeader
  unfold Flow.readHeader at allowed ⊢
  simp only [ready.bytes,ready.core] at allowed ⊢
  cases head : messageHead conf.publishTimeFix fmt s.core.chan (f.bytes.drop size) with
  | mk chan more =>
    have updated : Ready {s with core:=s.core.setChan chan} own a {f with core:=s.core.setChan chan} :=
      setCore_ready ready (s.core.setChan chan) rfl rfl rfl rfl
    cases more with
    | none => exact .next updated.toResting updated.waiting streams
    | some more =>
      have bound := (messageHead_size head).1
      rw [List.length_drop] at bound
      have inside : size+more ≤ (s.buf a).last := by omega
      have done : Ready {s.setBuf a {s.buf a with pos:=size+more} with core:=s.core.setChan chan} own a
          {f with core:=s.core.setChan chan,pos:=size+more} := by
        have moved := setBuf_ready updated (show Fits (capacity s.core.chunkSize) {s.buf a with pos:=size+more} from
          ⟨fits.mem,fits.size,inside,fits.last⟩) fun zero => absurd zero ring
        have text : bytesOf {s.buf a with pos:=size+more} = f.bytes := ready.bytes
        rwa [text] at moved
      simp only [head] at allowed ⊢
      by_cases big : conf.maxMessage < chan.hdr.mlen.toNat
      · rw [if_pos big,if_pos big]
        exact .dead rfl rfl done.toResting.finalize.shows
      · rw [if_neg big] at allowed ⊢
        rw [if_neg big]
        exact payload_refines done ring streams events oldPos oldSize socket allowed

theorem parse_refines (ready : Ready s own a f) (streams : conf.maxStreams ≤ s.core.cscf.maxStreams)
    (allowed : (Flow.parse conf f socket).all (mildMessage events) = true) :
    TurnAs conf (parse events s a ⟨conf,oldPos,oldSize⟩ socket) ((Flow.parse conf f socket).finish events) := by
  unfold parse
  unfold Flow.parse at allowed ⊢
  simp only [ready.pos,ready.bytes] at allowed ⊢
  by_cases fresh : f.pos = 0
  · rw [if_pos fresh] at allowed ⊢
    rw [if_pos fresh]
    cases head : basicHead f.bytes with
    | none => exact .next ready.toResting ready.waiting streams
    | some parts =>
      obtain ⟨fmt,csid,size⟩ := parts
      have bounds := basicHead_parts head
      simp only [head] at allowed ⊢
      by_cases big : conf.maxStreams ≤ csid
      · rw [if_pos big,if_pos big]
        exact .dead (congrArg Core.finalize ready.core) rfl ready.toResting.finalize.shows
      · rw [if_neg big] at allowed ⊢
        rw [if_neg big]
        by_cases zero : s.core.csid = 0
        · have same : f.core.csid = 0 := by rw [ready.core]; exact zero
          obtain ⟨now,linked⟩ := linkOrphan_ready ready zero (show csid ≠ 0 by omega) (by omega)
          rw [if_pos same] at allowed ⊢
          rw [if_pos zero]
          exact readHeader_refines linked (show csid ≠ 0 by omega) streams bounds.2.2.2.2 allowed
        · have other : f.core.csid ≠ 0 := by rw [ready.core]; exact zero
          rw [if_neg other] at allowed ⊢
          rw [if_neg zero]
          exact readHeader_refines ready zero streams bounds.2.2.2.2 allowed
  · rw [if_neg fresh] at allowed ⊢
    rw [if_neg fresh]
    exact payload_refines ready (fun zero => fresh (ready.start zero)) streams events oldPos oldSize socket allowed

theorem turn_refines (resting : Resting s own f) (waiting : Waiting s f oldPos oldSize kept)
    (streams : conf.maxStreams ≤ s.core.cscf.maxStreams)
    (allowed : (Flow.advance conf f kept socket).all (mildMessage events) = true) :
    TurnAs conf (turn events s ⟨conf,oldPos,oldSize⟩ socket) (Flow.turn events conf f kept socket) := by
  obtain ⟨now,held,found,pending,core⟩ := acquire_resting resting waiting
  have filled := fill_refines held found pending conf socket
  rw [core] at filled
  unfold turn Flow.turn
  unfold Flow.advance at allowed ⊢
  dsimp only
  generalize fill (acquire s).2 (acquire s).1 ⟨conf,oldPos,oldSize⟩ socket = left at filled ⊢
  generalize Flow.fill f kept socket = right at filled allowed ⊢
  cases filled with
  | ready ready same => exact parse_refines ready (by rwa [same]) allowed
  | again resting waiting => exact .again resting waiting
  | dead core destroyed shows => exact .dead core destroyed shows

-- After a finalize that ends ngx_rtmp_recv nothing is read any more.
inductive Related : Config → Flow.Config → Prop
  | dead (core : f.core = s.core) (destroyed : s.core.destroyed = true) (shows : Shows s f) :
      Related ⟨s,none,socket⟩ ⟨f,none,socket⟩
  | idle (resting : Resting s own f) (waiting : Waiting s f none 0 false) : Related ⟨s,none,socket⟩ ⟨f,none,socket⟩
  | busy (resting : Resting s own f) (waiting : Waiting s f oldPos oldSize kept)
      (streams : conf.maxStreams ≤ s.core.cscf.maxStreams) :
      Related ⟨s,some ⟨conf,oldPos,oldSize⟩,socket⟩ ⟨f,some (conf,kept),socket⟩

def mildStep (events : Events) (c : Flow.Config) : Bool :=
  match c.loop with
  | none => true
  | some (conf,kept) => (Flow.advance conf c.f kept c.socket).all (mildMessage events)

theorem Related.core (related : Related c d) : d.f.core = c.s.core := by
  cases related with
  | dead core _ _ => exact core
  | idle resting _ => exact resting.core
  | busy resting _ _ => exact resting.core

theorem Related.socket (related : Related c d) : d.socket = c.socket := by
  cases related <;> rfl

theorem start_related (conf : SrvConf) (chunkSize : Nat) (socket : List Read) :
    Related (start conf chunkSize socket) (Flow.start conf chunkSize socket) := by
  have resting : Resting (Session.initial conf chunkSize) (fun _ => []) ⟨.initial conf chunkSize,fun _ => [],[],0⟩ := by
    refine ⟨rfl,⟨fun n => held_none.mpr rfl,fun _ => List.nodup_nil,?_,?_,?_⟩,fun _ _ _ => rfl,?_⟩
    · intro m n a member
      cases member
    · intro n a member
      cases member
    · intro n a member
      cases member
    · intro n _
      change chunksOf _ (if n = 0 then [] else []) = []
      rw [ite_self]
      rfl
  refine .idle resting (.partly rfl (fun _ => rfl) (fun a found => ?_) fun _ => ⟨rfl,rfl,rfl⟩)
  cases found

-- The pointer machine takes the same step as the one with lists.
theorem step_related (related : Related c d) (allowed : mildStep events d = true) :
    Related (step events c) (Flow.step events d) := by
  cases related with
  | dead core destroyed shows =>
    unfold step Flow.step
    simp only [core,destroyed,Bool.true_or,if_true]
    exact .dead core destroyed shows
  | idle resting waiting =>
    unfold step Flow.step
    simp only [resting.core]
    split
    · exact .idle resting waiting
    · exact .busy resting waiting le_rfl
  | busy resting waiting streams =>
    have result := turn_refines resting waiting streams allowed
    unfold step Flow.step
    simp only
    generalize turn events _ _ _ = left at result ⊢
    generalize Flow.turn events _ _ _ _ = right at result ⊢
    cases result with
    | next resting waiting streams => exact .busy resting waiting streams
    | again resting waiting => exact .idle resting waiting
    | dead core destroyed shows => exact .dead core destroyed shows

theorem Related.shows (related : Related c d) : Shows c.s d.f := by
  cases related with
  | dead _ _ shows => exact shows
  | idle resting _ => exact resting.shows
  | busy resting _ _ => exact resting.shows

theorem run_related (events : Events) (n : Nat) (related : Related c d)
    (path : Runs.Along (fun c _ => Flow.step events c) (fun c _ => mildStep events c = true) d (List.replicate n ())) :
    Related (run events c n) (Flow.run events d n) := by
  unfold run Flow.run
  generalize List.replicate n () = turns at path ⊢
  induction turns generalizing c d with
  | nil => exact related
  | cons _ rest ih => exact ih (step_related related path.1) path.2

end NgxRtmp.Recv
