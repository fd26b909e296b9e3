import NgxRtmp.HandshakeRuns

namespace NgxRtmp.Handshake
open ChunkWriter Splice List

theorem played_snoc (played : Played before acts) (moved : Moved stage stage.size more) : Played (before ++ [stage]) (acts ++ more) := by
  induction before generalizing acts with
  | nil =>
    cases played
    exact ⟨more,[],(append_nil _).symm,moved,rfl⟩
  | cons first rest ih =>
    obtain ⟨front,back,rfl,whole,later⟩ := played
    exact ⟨front,back ++ more,append_assoc ..,whole,ih later⟩

theorem consumed_append : consumed (front ++ back) = consumed front ++ consumed back := flatMap_append ..

theorem emitted_append : emitted (front ++ back) = emitted front ++ emitted back := flatMap_append ..

theorem entered_append : entered (front ++ back) = entered front ++ entered back := filterMap_append ..

theorem moved_consumed (moved : Moved stage n acts) : (consumed acts).length = if stage.reads then n else 0 := by
  obtain ⟨pieces,rfl,total⟩ := moved
  unfold consumed Stage.act
  cases stage.reads with
  | true => simpa [flatMap_map,flatMap_id'] using total
  | false => simp [flatMap_map,map_const']

theorem moved_emitted (moved : Moved stage n acts) : (emitted acts).length = if stage.reads then 0 else n := by
  obtain ⟨pieces,rfl,total⟩ := moved
  unfold emitted Stage.act
  cases stage.reads with
  | true => simp [flatMap_map,map_const']
  | false => simpa [flatMap_map,flatMap_id'] using total

theorem moved_entered (moved : Moved stage n acts) : entered acts = [stage] := by
  obtain ⟨pieces,rfl,_⟩ := moved
  unfold entered Stage.act
  cases stage.reads <;> simp

theorem played_counts (played : Played stages acts) : entered acts = stages ∧
    (consumed acts).length = (stages.map fun stage => if stage.reads then stage.size else 0).sum ∧
    (emitted acts).length = (stages.map fun stage => if stage.reads then 0 else stage.size).sum := by
  induction stages generalizing acts with
  | nil =>
    cases played
    exact ⟨rfl,rfl,rfl⟩
  | cons stage rest ih =>
    obtain ⟨front,back,rfl,moved,later⟩ := played
    obtain ⟨stages,consumes,emits⟩ := ih later
    rw [entered_append,consumed_append,emitted_append,length_append,length_append,moved_entered moved,
      moved_consumed moved,moved_emitted moved,stages,consumes,emits]
    exact ⟨rfl,rfl,rfl⟩

structure Placed (stage : Stage) (n : Nat) (b : Buf) : Prop where
  within : n ≤ stage.size
  reading : stage.reads = true → b.last = bufsize-stage.size+n
  writing : stage.reads = false → b.pos = bufsize-stage.size+n ∧ b.last = bufsize

structure On (stream : List UInt8) (n : Nat) (x : State) : Prop where
  live : x.destroyed = false
  working : x.done = false
  whole : Whole x.s.hsBuf
  placed : Placed x.hsStage n x.s.hsBuf
  trace : ∃ acts now, x.trace = acts ++ now ∧ Played x.hsStage.prior acts ∧ Moved x.hsStage n now
  stream : consumed x.trace ++ x.incoming = stream
  inTime : x.read.timedout = false ∧ x.write.timedout = false

theorem size_bound (stage : Stage) : stage.size ≤ bufsize := by cases stage <;> decide

theorem moved_more (moved : Moved stage n now) (bytes : List UInt8) : Moved stage (n+bytes.length) (now ++ [stage.act bytes]) := by
  obtain ⟨pieces,rfl,total⟩ := moved
  refine ⟨pieces ++ [bytes],by simp,?_⟩
  simp [total]

theorem received_on (on : On stream n x) (reads : x.hsStage.reads = true) (front : x.incoming = bytes ++ later)
    (room : n+bytes.length ≤ x.hsStage.size) : On stream (n+bytes.length) (x.received bytes) := by
  have last := on.placed.reading reads
  have bound := size_bound x.hsStage
  obtain ⟨acts,now,trace,played,moved⟩ := on.trace
  have account := on.stream
  refine ⟨on.live,on.working,⟨on.whole.1,?_⟩,⟨room,fun _ => ?_,fun writes => ?_⟩,?_,?_,on.inTime⟩
  · refine (splice_length ?_).trans on.whole.2
    rw [last,on.whole.2]
    omega
  · change x.s.hsBuf.last+bytes.length = bufsize-x.hsStage.size+(n+bytes.length)
    omega
  · change x.hsStage.reads = false at writes
    rw [reads] at writes
    cases writes
  · refine ⟨acts,now ++ [.consume bytes],?_,played,?_⟩
    · change x.trace ++ [.consume bytes] = _
      rw [trace,append_assoc]
    · have more := moved_more moved bytes
      rw [Stage.act,if_pos reads] at more
      exact more
  · change consumed (x.trace ++ [.consume bytes]) ++ x.incoming.drop bytes.length = stream
    rw [front] at account
    rw [front,drop_left,consumed_append,append_assoc]
    simpa [consumed] using account

theorem sent_on (on : On stream n x) (writes : x.hsStage.reads = false) (room : n+k ≤ x.hsStage.size) : On stream (n+k) (x.sent k) := by
  obtain ⟨pos,last⟩ := on.placed.writing writes
  have bound := size_bound x.hsStage
  obtain ⟨acts,now,trace,played,moved⟩ := on.trace
  have length : (x.s.hsBuf.contents.take k).length = k := by
    simp only [Buf.contents,length_take,length_drop,on.whole.2,last,pos]
    omega
  refine ⟨on.live,on.working,on.whole,⟨room,fun reads => ?_,fun _ => ⟨?_,last⟩⟩,?_,?_,on.inTime⟩
  · change x.hsStage.reads = true at reads
    rw [writes] at reads
    cases reads
  · change x.s.hsBuf.pos+k = bufsize-x.hsStage.size+(n+k)
    omega
  · refine ⟨acts,now ++ [.emit (x.s.hsBuf.contents.take k)],?_,played,?_⟩
    · change x.trace ++ [.emit _] = _
      rw [trace,append_assoc]
    · have more := moved_more moved (x.s.hsBuf.contents.take k)
      rw [length,Stage.act,if_neg (by rw [writes]; decide)] at more
      exact more
  · change consumed (x.trace ++ [.emit _]) ++ x.incoming = stream
    rw [consumed_append]
    simpa [consumed] using on.stream

theorem on_events (on : On stream n x) {read : Ev} (inTime : read.timedout = false ∧ write.timedout = false) :
    On stream n {x with read:=read,write:=write} :=
  ⟨on.live,on.working,on.whole,on.placed,on.trace,on.stream,inTime⟩

def State.event (x : State) : Call → Ev
  | .recv => x.read
  | .send => x.write

def Gone (x : State) : Prop := x.destroyed = true ∧ x.done = false

-- How a loop ends: the handler returns inside the stage, or the stage is complete.
inductive LoopEnds (stream : List UInt8) (stage : Stage) (read write : Ev) : State × Option (List Result) → Prop where
  | returns : Gone y ∨ (∃ m, On stream m y) → y.hsStage = stage → LoopEnds stream stage read write (y,none)
  | full : On stream stage.size y → y.hsStage = stage → y.read = read → y.write = write → LoopEnds stream stage read write (y,some rest)

theorem blockRead_ends (on : On stream n x) {handled : Bool} :
    LoopEnds stream x.hsStage x.read x.write (blockRead handled x,none) ∧ (blockRead handled x).write = x.write := by
  cases handled with
  | true => exact ⟨.returns (.inr ⟨n,on_events on on.inTime⟩) rfl,rfl⟩
  | false => exact ⟨.returns (.inl ⟨rfl,on.working⟩) rfl,rfl⟩

theorem blockWrite_ends (on : On stream n x) {handled : Bool} :
    LoopEnds stream x.hsStage x.read x.write (blockWrite handled x,none) ∧ (blockWrite handled x).read = x.read := by
  cases handled with
  | true => exact ⟨.returns (.inr ⟨n,on_events on on.inTime⟩) rfl,rfl⟩
  | false => exact ⟨.returns (.inl ⟨rfl,on.working⟩) rfl,rfl⟩

theorem reading_full (on : On stream n x) (reads : x.hsStage.reads = true) (equal : x.s.hsBuf.last = x.s.hsBuf.size) :
    LoopEnds stream x.hsStage x.read x.write (x,some results) := by
  have last := on.placed.reading reads
  have bound := size_bound x.hsStage
  have size := on.whole.1
  have all : n = x.hsStage.size := by omega
  exact .full (all ▸ on) rfl rfl rfl

theorem writing_full (on : On stream n x) (writes : x.hsStage.reads = false) (equal : x.s.hsBuf.pos = x.s.hsBuf.last) :
    LoopEnds stream x.hsStage x.read x.write (x,some results) := by
  obtain ⟨pos,last⟩ := on.placed.writing writes
  have bound := size_bound x.hsStage
  have all : n = x.hsStage.size := by omega
  exact .full (all ▸ on) rfl rfl rfl

theorem recvLoop_ends (on : On stream n x) (reads : x.hsStage.reads = true) :
    LoopEnds stream x.hsStage x.read x.write (recvLoop results x) ∧ (recvLoop results x).1.write = x.write := by
  induction results generalizing x n with
  | nil =>
    unfold recvLoop
    split
    · rename_i equal
      exact ⟨reading_full on reads equal,rfl⟩
    · exact blockRead_ends on
  | cons result rest ih =>
    unfold recvLoop
    split
    · rename_i equal
      exact ⟨reading_full on reads equal,rfl⟩
    · cases result with
      | failed => exact ⟨.returns (.inl ⟨rfl,on.working⟩) rfl,rfl⟩
      | again handled => exact blockRead_ends on
      | moved k =>
        simp only
        split
        · exact blockRead_ends on
        · generalize asked : min (k+1) (x.s.hsBuf.size-x.s.hsBuf.last) = most
          have last := on.placed.reading reads
          have size := on.whole.1
          have within := on.placed.within
          have bound := size_bound x.hsStage
          have short : (x.incoming.take most).length ≤ most := length_take_le ..
          have room : n+(x.incoming.take most).length ≤ x.hsStage.size := by omega
          exact ih (received_on on reads (take_append_drop most _).symm room) reads

theorem sendLoop_ends (on : On stream n x) (writes : x.hsStage.reads = false) :
    LoopEnds stream x.hsStage x.read x.write (sendLoop results x) ∧ (sendLoop results x).1.read = x.read := by
  induction results generalizing x n with
  | nil =>
    unfold sendLoop
    split
    · rename_i equal
      exact ⟨writing_full on writes equal,rfl⟩
    · exact blockWrite_ends on
  | cons result rest ih =>
    unfold sendLoop
    split
    · rename_i equal
      exact ⟨writing_full on writes equal,rfl⟩
    · cases result with
      | failed => exact ⟨.returns (.inl ⟨rfl,on.working⟩) rfl,rfl⟩
      | again handled => exact blockWrite_ends on
      | moved k =>
        obtain ⟨pos,last⟩ := on.placed.writing writes
        have within := on.placed.within
        have bound := size_bound x.hsStage
        have room : n+min (k+1) (x.s.hsBuf.last-x.s.hsBuf.pos) ≤ x.hsStage.size := by omega
        exact ih (sent_on on writes room) writes

theorem sendLoop_frame (results : List Result) (x : State) : (sendLoop results x).1.read = x.read ∧
    (sendLoop results x).1.hsStage = x.hsStage ∧ (sendLoop results x).1.done = x.done ∧
    ((sendLoop results x).2.isSome = true → (sendLoop results x).1.write = x.write) := by
  have blocks (handled : Bool) (x : State) : (blockWrite handled x).read = x.read ∧ (blockWrite handled x).hsStage = x.hsStage ∧
      (blockWrite handled x).done = x.done := by cases handled <;> exact ⟨rfl,rfl,rfl⟩
  induction results generalizing x with
  | nil =>
    unfold sendLoop
    split
    · exact ⟨rfl,rfl,rfl,fun _ => rfl⟩
    · exact ⟨rfl,rfl,rfl,fun full => by cases full⟩
  | cons result rest ih =>
    unfold sendLoop
    split
    · exact ⟨rfl,rfl,rfl,fun _ => rfl⟩
    · cases result with
      | failed => exact ⟨rfl,rfl,rfl,fun full => by cases full⟩
      | again handled =>
        obtain ⟨read,stage,done⟩ := blocks handled x
        exact ⟨read,stage,done,fun full => by cases full⟩
      | moved k => exact ih (x.sent _)

structure Ready (stream : List UInt8) (x : State) : Prop where
  live : x.destroyed = false
  working : x.done = false
  whole : Whole x.s.hsBuf
  trace : ∃ acts, x.trace = acts ++ [.enter x.hsStage] ∧ Played x.hsStage.prior acts
  stream : consumed x.trace ++ x.incoming = stream
  inTime : x.read.timedout = false ∧ x.write.timedout = false

def Stage.role : Stage → Role
  | .serverRecvChallenge | .serverSendChallenge | .serverSendResponse | .serverRecvResponse | .serverDone => .server
  | _ => .client

def Stage.left : Stage → Nat
  | .serverRecvChallenge | .clientSendChallenge => 4
  | .serverSendChallenge | .clientRecvChallenge => 3
  | .serverSendResponse | .clientRecvResponse => 2
  | .serverRecvResponse | .clientSendResponse => 1
  | .serverDone | .clientDone => 0

theorem prior_next {stage : Stage} (more : stage.left ≠ 0) : stage.next.prior = stage.prior ++ [stage] := by
  cases stage with
  | serverDone => exact absurd rfl more
  | clientDone => exact absurd rfl more
  | _ => rfl

theorem enter_ready (on : On stream x.hsStage.size x) (more : x.hsStage.left ≠ 0) : Ready stream x.enter := by
  obtain ⟨acts,now,trace,played,moved⟩ := on.trace
  refine ⟨on.live,on.working,on.whole,⟨acts ++ now,?_,?_⟩,?_,on.inTime⟩
  · change x.trace ++ _ = _
    rw [trace]
    rfl
  · change Played x.hsStage.next.prior _
    rw [prior_next more]
    exact played_snoc played moved
  · change consumed (x.trace ++ [.enter _]) ++ x.incoming = stream
    rw [consumed_append]
    simpa [consumed] using on.stream

theorem ready_on (ready : Ready stream x) (draws : Nat) (whole : Whole s.hsBuf) (placed : Placed x.hsStage 0 s.hsBuf) :
    On stream 0 {x with s:=s,draws:=draws} := by
  obtain ⟨acts,trace,played⟩ := ready.trace
  exact ⟨ready.live,ready.working,whole,placed,⟨acts,_,trace,played,[],rfl,rfl⟩,ready.stream,ready.inTime⟩

theorem parseChallenge_whole {after : Session} (whole : Whole s.hsBuf) (parsed : parseChallenge hmac peerKey key s = some after) : Whole after.hsBuf := by
  simp only [parseChallenge] at parsed
  split at parsed
  · cases parsed
  · split at parsed
    · cases parsed
      exact whole
    · split at parsed
      · cases parsed
        exact whole
      · cases parsed
        exact whole

theorem createChallenge_buf (hmac : Hmac) (random : Nat → UInt8) (role : Role) (key : List UInt8) (s : Session) (whole : Whole s.hsBuf) :
    let b := (createChallenge hmac random role.version key s).hsBuf
    Whole b ∧ b.pos = 0 ∧ b.last = bufsize := by
  have width : role.version.length = 4 := by cases role <;> rfl
  obtain ⟨draft,drafted,made⟩ := createChallenge_drafted hmac random key s whole width
  simp only [made]
  exact ⟨⟨drafted.whole.1,(drafted_contents drafted).1⟩,trivial,drafted.last⟩

theorem createResponse_buf (hmac : Hmac) (random : Nat → UInt8) (whole : Whole s.hsBuf) :
    let b := (createResponse hmac random s).hsBuf
    Whole b ∧ b.pos = 1 ∧ b.last = bufsize := by
  obtain ⟨size,length⟩ := whole
  have last : 1+((List.range (s.hsBuf.size-1)).map random).length = bufsize := by
    rw [length_map,length_range,size]
    rfl
  have filled : (splice s.hsBuf.mem 1 ((List.range (s.hsBuf.size-1)).map random)).length = bufsize := by
    rw [splice_length (by omega),length]
  unfold createResponse
  cases s.hsDigest with
  | none => exact ⟨⟨size,filled⟩,rfl,last⟩
  | some key =>
    refine ⟨⟨size,?_⟩,rfl,last⟩
    refine (splice_length ?_).trans filled
    rw [makeDigest_length]
    change 1+((List.range (s.hsBuf.size-1)).map random).length-keylen+keylen ≤ (splice s.hsBuf.mem 1 _).length
    rw [filled,last]
    decide

-- Only while a client sends its challenge can its read event be registered.
def Quiet (x : State) : Prop :=
  if x.hsStage.reads then x.write.active = false ∧ x.write.timerSet = false
  else x.read.timerSet = false ∧ (x.read.active = false ∨ x.hsStage = .clientSendChallenge)

structure Waiting (role : Role) (stream : List UInt8) (n : Nat) (x : State) : Prop where
  on : On stream n x
  side : x.hsStage.role = role
  more : x.hsStage.left ≠ 0
  quiet : Quiet x

-- The session is gone, waits, goes on with the next stage, or has finished.
inductive Ends (role : Role) (stream : List UInt8) (left : Nat) : State × Option (Call × List Result) → Prop where
  | gone : Gone y → Ends role stream left (y,none)
  | waits : Waiting role stream n y → Ends role stream left (y,none)
  | goes : Waiting role stream 0 y → y.hsStage.left < left → call = y.hsStage.call → Ends role stream left (y,some (call,rest))
  | finished : Accounted role stream y → y.done = true → Ends role stream left (y,none)

theorem done_accounted (ready : Ready stream x) (final : x.hsStage = role.final) : Accounted role stream (handshakeDone env x) := by
  obtain ⟨acts,trace,played⟩ := ready.trace
  obtain ⟨stages,consumes,emits⟩ := played_counts played
  have same : (handshakeDone env x).trace = x.trace ∧ (handshakeDone env x).incoming = x.incoming := by
    unfold handshakeDone
    cases env.accepts <;> exact ⟨rfl,rfl⟩
  rw [final] at trace played stages consumes emits
  constructor
  · exact ⟨acts,same.1.trans trace,played⟩
  · rw [same.1,trace,entered_append,stages]
    rfl
  · rw [same.1,trace,consumed_append,length_append,consumes]
    cases role <;> rfl
  · rw [same.1,trace,emitted_append,length_append,emits]
    cases role <;> rfl
  · rw [same.1,same.2]
    exact ready.stream

theorem handshakeDone_done : (handshakeDone env x).done = true := by
  unfold handshakeDone
  cases env.accepts <;> rfl

def Silent (event : Ev) : Prop := event.active = false ∧ event.timerSet = false

theorem placed_writing (writes : stage.reads = false) (pos : b.pos = bufsize-stage.size) (last : b.last = bufsize) :
    Placed stage 0 b := by
  refine ⟨Nat.zero_le _,fun reads => ?_,fun _ => ⟨pos,last⟩⟩
  rw [writes] at reads
  cases reads

theorem placed_reading (reads : stage.reads = true) (last : b.last = bufsize-stage.size) : Placed stage 0 b := by
  refine ⟨Nat.zero_le _,fun _ => last,fun writes => ?_⟩
  rw [reads] at writes
  cases writes

section Switch

variable {stage : Stage}

theorem begins (ready : Ready stream x) (here : x.hsStage = stage.next) (more : stage.left ≠ 0) (last : stage.next.left ≠ 0)
    (side : x.hsStage.role = role) (quiet : Quiet x) (s : Session) (draws : Nat) (whole : Whole s.hsBuf)
    (placed : Placed stage.next 0 s.hsBuf) (called : call = stage.next.call) :
    Ends role stream stage.left ({x with s:=s,draws:=draws},some (call,rest)) := by
  rw [← here] at placed last called
  refine .goes ⟨ready_on ready draws whole placed,side,last,quiet⟩ ?_ called
  change x.hsStage.left < stage.left
  rw [here]
  cases stage <;> first | decide | exact absurd rfl more

theorem recvSwitch_ends (ready : Ready stream x) (reads : stage.reads = true) (here : x.hsStage = stage.next) (side : x.hsStage.role = role)
    (read : Silent x.read) (write : Silent x.write) :
    Ends role stream stage.left ((recvSwitch env x).1,(recvSwitch env x).2.map (·,rest)) := by
  have quiet : Quiet x := by
    unfold Quiet
    split
    · exact write
    · exact ⟨read.2,.inl read.1⟩
  have whole := ready.whole
  obtain ⟨session,at_,_,_,_,_,draws,_,_⟩ := x
  change at_ = stage.next at here
  subst here
  unfold recvSwitch
  cases stage with
  | serverRecvChallenge =>
    simp only [Stage.next]
    cases parsed : parseChallenge env.hmac Role.client.partialKey Role.server.fullKey session with
    | none => exact .gone ⟨rfl,ready.working⟩
    | some s =>
      have whole := parseChallenge_whole whole parsed
      simp only [Option.map_some]
      split
      · exact begins ready rfl (by decide) (by decide) side quiet _ draws whole (placed_writing rfl rfl whole.1) rfl
      · obtain ⟨whole,pos,last⟩ := createChallenge_buf env.hmac _ .server Role.server.partialKey s whole
        exact begins ready rfl (by decide) (by decide) side quiet _ _ whole (placed_writing rfl pos last) rfl
  | serverRecvResponse =>
    have server : role = .server := side.symm
    exact .finished (done_accounted ready (by rw [server]; rfl)) handshakeDone_done
  | clientRecvChallenge =>
    simp only [Stage.next]
    cases parsed : parseChallenge env.hmac Role.server.partialKey Role.client.fullKey session with
    | none => exact .gone ⟨rfl,ready.working⟩
    | some s =>
      have whole := parseChallenge_whole whole parsed
      exact begins ready rfl (by decide) (by decide) side quiet _ draws whole (placed_reading rfl rfl) rfl
  | clientRecvResponse =>
    obtain ⟨whole,pos,last⟩ := createResponse_buf env.hmac _ whole
    exact begins ready rfl (by decide) (by decide) side quiet _ _ whole (placed_writing rfl pos last) rfl
  | _ => cases reads

-- A client that has sent its challenge goes on to read, whatever its read event is.
theorem sendSwitch_ends (ready : Ready stream x) (writes : stage.reads = false) (more : stage.left ≠ 0) (here : x.hsStage = stage.next)
    (side : x.hsStage.role = role) (read : x.read.timerSet = false ∧ (x.read.active = false ∨ stage = .clientSendChallenge))
    (write : Silent x.write) :
    Ends role stream stage.left ((sendSwitch env x).1,(sendSwitch env x).2.map (·,rest)) := by
  have quiet : Quiet x := by
    unfold Quiet
    split
    · exact write
    · rename_i sends
      refine ⟨read.1,read.2.imp_right fun first => ?_⟩
      rw [here,first] at sends
      exact absurd rfl sends
  have whole := ready.whole
  obtain ⟨session,at_,_,_,_,_,draws,_,_⟩ := x
  change at_ = stage.next at here
  subst here
  unfold sendSwitch
  cases stage with
  | serverSendChallenge =>
    simp only [Stage.next,Option.map_some]
    split
    · exact begins ready rfl (by decide) (by decide) side quiet _ draws whole (placed_writing rfl rfl whole.1) rfl
    · obtain ⟨whole,pos,last⟩ := createResponse_buf env.hmac _ whole
      exact begins ready rfl (by decide) (by decide) side quiet _ _ whole (placed_writing rfl pos last) rfl
  | serverSendResponse => exact begins ready rfl (by decide) (by decide) side quiet _ draws whole (placed_reading rfl rfl) rfl
  | clientSendChallenge => exact begins ready rfl (by decide) (by decide) side quiet _ draws whole (placed_reading rfl rfl) rfl
  | clientSendResponse =>
    have client : role = .client := side.symm
    exact .finished (done_accounted ready (by rw [client]; rfl)) handshakeDone_done
  | serverDone => exact absurd rfl more
  | clientDone => exact absurd rfl more
  | _ => cases writes

end Switch

end NgxRtmp.Handshake
