import NgxRtmp.HandshakeStages

namespace NgxRtmp.Handshake
open ChunkWriter List

theorem role_next {stage : Stage} (more : stage.left ≠ 0) : stage.next.role = stage.role := by
  cases stage with
  | serverDone => exact absurd rfl more
  | clientDone => exact absurd rfl more
  | _ => rfl

theorem handshakeRecv_ends (waiting : Waiting role stream n x) (reads : x.hsStage.reads = true) :
    Ends role stream x.hsStage.left (handshakeRecv env results x) := by
  obtain ⟨on,side,more,quiet⟩ := waiting
  have silent : Silent x.write := by
    rw [Quiet,if_pos reads] at quiet
    exact quiet
  have started : On stream n {x with read:={x.read with timerSet:=false}} := on_events on on.inTime
  obtain ⟨ends,write⟩ := recvLoop_ends started reads
  unfold handshakeRecv
  rw [if_neg (by rw [on.live]; decide),if_neg (by rw [on.inTime.1]; decide)]
  generalize recvLoop results _ = looped at ends write
  cases ends with
  | returns how stage =>
    change _ = x.hsStage at stage
    rcases how with gone | ⟨m,still⟩
    · exact .gone gone
    · refine .waits ⟨still,stage ▸ side,stage ▸ more,?_⟩
      rw [Quiet,stage,if_pos reads,write]
      exact silent
  | @full y rest still stage read _ =>
    change _ = x.hsStage at stage
    rw [← stage] at side more reads ⊢
    have still : On stream y.hsStage.size y := stage.symm ▸ still
    have ready : Ready stream (State.enter {y with read:={y.read with active:=false}}) :=
      enter_ready (on_events still still.inTime) more
    refine recvSwitch_ends ready reads rfl ((role_next more).trans side) ⟨rfl,?_⟩ ?_
    · change y.read.timerSet = false
      rw [read]
    · change Silent y.write
      rw [write]
      exact silent

theorem handshakeSend_ends (waiting : Waiting role stream n x) (writes : x.hsStage.reads = false) :
    Ends role stream x.hsStage.left (handshakeSend env results x) := by
  obtain ⟨on,side,more,quiet⟩ := waiting
  have silent : x.read.timerSet = false ∧ (x.read.active = false ∨ x.hsStage = .clientSendChallenge) := by
    rw [Quiet,if_neg (by rw [writes]; decide)] at quiet
    exact quiet
  have started : On stream n {x with write:={x.write with timerSet:=false}} := on_events on on.inTime
  obtain ⟨ends,read⟩ := sendLoop_ends started writes
  unfold handshakeSend
  rw [if_neg (by rw [on.live]; decide),if_neg (by rw [on.inTime.2]; decide)]
  generalize sendLoop results _ = looped at ends read
  cases ends with
  | returns how stage =>
    change _ = x.hsStage at stage
    rcases how with gone | ⟨m,still⟩
    · exact .gone gone
    · refine .waits ⟨still,stage ▸ side,stage ▸ more,?_⟩
      rw [Quiet,stage,if_neg (by rw [writes]; decide),read]
      exact silent
  | @full y rest still stage _ write =>
    change _ = x.hsStage at stage
    rw [← stage] at side more writes silent ⊢
    have still : On stream y.hsStage.size y := stage.symm ▸ still
    have ready : Ready stream (State.enter {y with write:={y.write with active:=false}}) :=
      enter_ready (on_events still still.inTime) more
    refine sendSwitch_ends ready writes more rfl ((role_next more).trans side) ?_ ⟨rfl,?_⟩
    · change y.read.timerSet = false ∧ (y.read.active = false ∨ _)
      rw [read]
      exact silent
    · change y.write.timerSet = false
      rw [write]

theorem handler_ends (waiting : Waiting role stream n x) :
    Ends role stream x.hsStage.left (handler env x.hsStage.call results x) := by
  cases reads : x.hsStage.reads with
  | true =>
    rw [Stage.call,if_pos reads]
    exact handshakeRecv_ends waiting reads
  | false =>
    rw [Stage.call,if_neg (by rw [reads]; decide)]
    exact handshakeSend_ends waiting reads

-- Its read event fired while it sent its challenge: it counts one stage too many and then waits for
-- nothing.
structure Derailed (x : State) : Prop where
  working : x.done = false
  read : Silent x.read
  stage : x.hsStage = .clientRecvChallenge ∨ x.hsStage = .clientRecvResponse ∧ Silent x.write

inductive Held (role : Role) (stream : List UInt8) (x : State) : Prop where
  | gone : Gone x → Held role stream x
  | waiting : Waiting role stream n x → Held role stream x
  | derailed : Derailed x → Held role stream x
  | finished : Accounted role stream x → x.done = true → Held role stream x

theorem perform_held (waiting : Waiting role stream n x) (enough : x.hsStage.left ≤ fuel) (results : List Result) :
    ∃ y, perform env fuel x.hsStage.call results x = some y ∧ Held role stream y := by
  induction fuel generalizing n x results with
  | zero => exact absurd (Nat.le_zero.mp enough) waiting.more
  | succ fuel ih =>
    have ends : Ends role stream x.hsStage.left (handler env x.hsStage.call results x) := handler_ends waiting
    unfold perform
    generalize handler env x.hsStage.call results x = handled at ends
    cases ends with
    | gone gone => exact ⟨_,rfl,.gone gone⟩
    | waits waiting => exact ⟨_,rfl,.waiting waiting⟩
    | finished accounted done => exact ⟨_,rfl,.finished accounted done⟩
    | goes next less called =>
      subst called
      exact ih next (by omega) _

theorem left_depth {stage : Stage} : stage.left ≤ depth := by cases stage <;> decide

theorem perform_stops (stops : handler env call results x = (y,none)) : perform env depth call results x = some y := by
  unfold depth perform
  rw [stops]

theorem perform_gone (gone : Gone x) : perform env depth call results x = some x := by
  have stops : handler env call results x = (x,none) := by
    cases call with
    | recv => exact if_pos gone.1
    | send => exact if_pos gone.1
  exact perform_stops stops

theorem perform_late (call : Call) (working : x.done = false)
    (late : (x.event call).timedout = true) (results : List Result) :
    ∃ y, perform env depth call results x = some y ∧ Gone y := by
  cases dead : x.destroyed with
  | true => exact ⟨x,perform_gone ⟨dead,working⟩,dead,working⟩
  | false =>
    have stops : handler env call results x = (finalizeSession x,none) := by
      cases call with
      | recv => exact (if_neg (by rw [dead]; decide)).trans (if_pos late)
      | send => exact (if_neg (by rw [dead]; decide)).trans (if_pos late)
    exact ⟨finalizeSession x,perform_stops stops,rfl,working⟩

-- Neither switch has a case for the other's stage.
theorem recvSwitch_passes (stage : x.hsStage = .clientRecvChallenge) : recvSwitch env x = (x,none) := by
  unfold recvSwitch
  rw [stage]

theorem sendSwitch_passes (stage : x.hsStage = .clientRecvResponse) : sendSwitch env x = (x,none) := by
  unfold sendSwitch
  rw [stage]

theorem recv_derails (on : On stream n x) (first : x.hsStage = .clientSendChallenge) (results : List Result) :
    ∃ y, perform env depth .recv results x = some y ∧ Derailed y := by
  have full : x.s.hsBuf.last = x.s.hsBuf.size := (on.placed.writing (by rw [first]; rfl)).2.trans on.whole.1.symm
  have loop : recvLoop results {x with read:={x.read with timerSet:=false}} =
      ({x with read:={x.read with timerSet:=false}},some results) := by
    unfold recvLoop
    exact if_pos full
  have stage : (State.enter {x with read:=⟨false,false,x.read.timedout⟩}).hsStage = .clientRecvChallenge := by
    change x.hsStage.next = _
    rw [first]
    rfl
  have stops : handler env .recv results x = (State.enter {x with read:=⟨false,false,x.read.timedout⟩},none) := by
    refine (if_neg (by rw [on.live]; decide)).trans ((if_neg (by rw [on.inTime.1]; decide)).trans ?_)
    rw [loop]
    simp only [recvSwitch_passes stage,Option.map_none]
  exact ⟨_,perform_stops stops,on.working,⟨rfl,rfl⟩,.inl stage⟩

theorem send_derailed (derailed : Derailed x) (sending : x.hsStage = .clientRecvChallenge) :
    ∃ y, perform env depth .send results x = some y ∧ (Gone y ∨ Derailed y) := by
  obtain ⟨working,silent,_⟩ := derailed
  cases dead : x.destroyed with
  | true => exact ⟨x,perform_gone ⟨dead,working⟩,.inl ⟨dead,working⟩⟩
  | false =>
    cases late : x.write.timedout with
    | true =>
      obtain ⟨y,performed,gone⟩ := perform_late .send working late results
      exact ⟨y,performed,.inl gone⟩
    | false =>
      obtain ⟨read,stage,done,write⟩ := sendLoop_frame results {x with write:={x.write with timerSet:=false}}
      have handled : handler env .send results x = _ := (if_neg (by rw [dead]; decide)).trans (if_neg (by rw [late]; decide))
      generalize sendLoop results {x with write:={x.write with timerSet:=false}} = looped at read stage done write handled
      obtain ⟨y,rest⟩ := looped
      cases rest with
      | none => exact ⟨y,perform_stops handled,.inr ⟨done.trans working,by rw [read]; exact silent,.inl (stage.trans sending)⟩⟩
      | some rest =>
        have entered : (State.enter {y with write:={y.write with active:=false}}).hsStage = .clientRecvResponse := by
          change y.hsStage.next = _
          rw [stage]
          change x.hsStage.next = _
          rw [sending]
          rfl
        simp only [sendSwitch_passes entered,Option.map_none] at handled
        refine ⟨_,perform_stops handled,.inr ⟨done.trans working,?_,.inr ⟨entered,rfl,?_⟩⟩⟩
        · change Silent y.read
          rw [read]
          exact silent
        · change y.write.timerSet = false
          rw [write rfl]

theorem waiting_called (waiting : Waiting role stream n x)
    (active : (x.event call).active = true) :
    ∃ y, perform env depth call results x = some y ∧ Held role stream y := by
  have quiet := waiting.quiet
  cases reads : x.hsStage.reads with
  | true =>
    rw [Quiet,if_pos reads] at quiet
    cases call with
    | recv =>
      have own : x.hsStage.call = .recv := if_pos reads
      exact own ▸ perform_held waiting left_depth results
    | send => exact absurd (active.symm.trans quiet.1) (by decide)
  | false =>
    rw [Quiet,if_neg (by rw [reads]; decide)] at quiet
    cases call with
    | send =>
      have own : x.hsStage.call = .send := if_neg (by rw [reads]; decide)
      exact own ▸ perform_held waiting left_depth results
    | recv =>
      rcases quiet.2 with off | first
      · exact absurd (active.symm.trans off) (by decide)
      · obtain ⟨y,performed,derailed⟩ := recv_derails waiting.on first results
        exact ⟨y,performed,.derailed derailed⟩

theorem derailed_called (derailed : Derailed x)
    (active : (x.event call).active = true) :
    ∃ y, perform env depth call results x = some y ∧ Held role stream y := by
  cases call with
  | recv => exact absurd (active.symm.trans derailed.read.1) (by decide)
  | send =>
    rcases derailed.stage with sending | ⟨_,silent⟩
    · obtain ⟨y,performed,gone | derailed⟩ := send_derailed derailed sending
      · exact ⟨y,performed,.gone gone⟩
      · exact ⟨y,performed,.derailed derailed⟩
    · exact absurd (active.symm.trans silent.1) (by decide)

theorem held_called (held : Held role stream x) (working : x.done = false) (call : Call)
    (active : (x.event call).active = true) (results : List Result) :
    ∃ y, perform env depth call results x = some y ∧ Held role stream y := by
  cases held with
  | gone gone => exact ⟨x,perform_gone gone,.gone gone⟩
  | waiting waiting => exact waiting_called waiting active
  | derailed derailed => exact derailed_called derailed active
  | finished _ done => exact absurd (done.symm.trans working) (by decide)

theorem handle_held (held : Held role stream x) : ∃ y, handle env x event = some y ∧ Held role stream y := by
  unfold handle
  cases working : x.done with
  | true => exact ⟨x,rfl,held⟩
  | false =>
    cases event with
    | readable results =>
      cases active : x.read.active with
      | false => exact ⟨x,rfl,held⟩
      | true => exact held_called held working .recv active results
    | writable results =>
      cases active : x.write.active with
      | false => exact ⟨x,rfl,held⟩
      | true => exact held_called held working .send active results
    | readTimeout =>
      cases x.read.timerSet with
      | false => exact ⟨x,rfl,held⟩
      | true =>
        change ∃ y, perform env depth .recv [] _ = some y ∧ _
        exact (perform_late .recv rfl rfl []).imp fun y ends => ⟨ends.1,.gone ends.2⟩
    | writeTimeout =>
      cases x.write.timerSet with
      | false => exact ⟨x,rfl,held⟩
      | true =>
        change ∃ y, perform env depth .send [] _ = some y ∧ _
        exact (perform_late .send rfl rfl []).imp fun y ends => ⟨ends.1,.gone ends.2⟩

def Settled (role : Role) (stream : List UInt8) (state : Option State) : Prop := ∃ x, state = some x ∧ Held role stream x

theorem step_settled (settled : Settled role stream state) : Settled role stream (step env state event) := by
  obtain ⟨x,rfl,held⟩ := settled
  exact handle_held held

theorem run_settled {events : List Event} (settled : Settled role stream state) :
    Settled role stream (events.foldl (step env) state) :=
  Runs.run_invariant (fun _ _ _ => step_settled) settled (Runs.along_always events state)

theorem held_done (held : Held role stream x) (done : x.done = true) : Accounted role stream x := by
  cases held with
  | gone gone => exact absurd (done.symm.trans gone.2) (by decide)
  | waiting waiting => exact absurd (done.symm.trans waiting.on.working) (by decide)
  | derailed derailed => exact absurd (done.symm.trans derailed.working) (by decide)
  | finished accounted _ => exact accounted

theorem server_waits : Waiting .server incoming 0 (fresh memory epoch .serverRecvChallenge readActive false incoming) := by
  exact ⟨⟨rfl,rfl,⟨rfl,memory.2⟩,placed_reading rfl rfl,⟨[],_,rfl,rfl,[],rfl,rfl⟩,rfl,rfl,rfl⟩,rfl,Nat.succ_ne_zero 3,rfl,rfl⟩

theorem client_waits (env : Env) (memory : Memory) (epoch : UInt32) (readActive writeActive : Bool) (incoming : List UInt8) :
    Waiting .client incoming 0
      (challenge env .client (fresh memory epoch .clientSendChallenge readActive writeActive incoming)) := by
  obtain ⟨whole,pos,last⟩ := createChallenge_buf env.hmac
    (env.drawn (fresh memory epoch .clientSendChallenge readActive writeActive incoming)) .client Role.client.partialKey
    (fresh memory epoch .clientSendChallenge readActive writeActive incoming).s ⟨rfl,memory.2⟩
  exact ⟨⟨rfl,rfl,whole,placed_writing rfl pos last,⟨[],_,rfl,rfl,[],rfl,rfl⟩,rfl,rfl,rfl⟩,rfl,Nat.succ_ne_zero 3,rfl,.inr rfl⟩

def started (env : Env) (role : Role) (memory : Memory) (epoch : UInt32) (readActive writeActive async handled : Bool)
    (incoming : List UInt8) (results : List Result) : Option State :=
  match role with
  | .server => serverHandshake env memory epoch readActive incoming results
  | .client => clientHandshake env memory epoch readActive writeActive async handled incoming results

theorem started_settled :
    Settled role incoming (started env role memory epoch readActive writeActive async handled incoming results) := by
  cases role with
  | server => exact perform_held server_waits left_depth results
  | client =>
    have waiting := client_waits env memory epoch readActive writeActive incoming
    cases async with
    | false => exact perform_held waiting left_depth results
    | true =>
      refine ⟨_,rfl,?_⟩
      cases handled with
      | true => exact .waiting ⟨on_events waiting.on waiting.on.inTime,rfl,waiting.more,waiting.quiet⟩
      | false => exact .gone ⟨rfl,rfl⟩

theorem handshake_accounted (env : Env) (role : Role) (memory : Memory) (epoch : UInt32) (readActive writeActive async handled : Bool)
    (incoming : List UInt8) (results : List Result) (events : List Event) :
    ∃ x, events.foldl (step env) (started env role memory epoch readActive writeActive async handled incoming results) = some x ∧
      (x.done = true → Accounted role incoming x) := by
  obtain ⟨x,run,held⟩ := run_settled
    started_settled
  exact ⟨x,run,held_done held⟩

def zeroEnv : Env := ⟨⟨fun _ _ => replicate keylen 0,fun _ _ => rfl⟩,fun _ => 0,true⟩
def zeroMemory : Memory := ⟨replicate bufsize 0,length_replicate⟩

theorem handshake_accounted_client : ∃ x,
    [Event.writable [.moved 1536,.moved 700],.readable [.moved 2000,.moved 1535,.moved 1535]].foldl (step zeroEnv)
      (started zeroEnv .client zeroMemory 0 false false true true (3::replicate 4000 0) []) = some x ∧
    Accounted .client (3::replicate 4000 0) x := by
  obtain ⟨x,run,done⟩ := handshake_accounted zeroEnv .client zeroMemory 0 false false true true (3::replicate 4000 0) []
    [.writable [.moved 1536,.moved 700],.readable [.moved 2000,.moved 1535,.moved 1535]]
  refine ⟨x,run,done ?_⟩
  have ends : ([Event.writable [.moved 1536,.moved 700],.readable [.moved 2000,.moved 1535,.moved 1535]].foldl (step zeroEnv)
      (started zeroEnv .client zeroMemory 0 false false true true (3::replicate 4000 0) [])).map State.done = some true := by
    decide +kernel
  rw [run] at ends
  exact Option.some_inj.mp ends

end NgxRtmp.Handshake
