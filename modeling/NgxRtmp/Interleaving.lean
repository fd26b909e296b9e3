import NgxRtmp.RoundTrip

namespace NgxRtmp.ChunkWriter
open ChunkHeader List

-- A chunk without a length follows a message of the same length, and format 3 no extended timestamp.
def follows (fix : Bool) (last : Option Message) (m : Message) : Bool :=
  m.fmt ≤ 1 || last.any fun l => l.mlen = m.mlen ∧ ¬(m.fmt = 3 ∧ extended l.field ∧ fix)

def Framed (fix : Bool) (last : Option Message) : List Message → Prop
  | [] => True
  | m::rest => follows fix last m = true ∧ Framed fix (some m) rest

end NgxRtmp.ChunkWriter

namespace NgxRtmp.Recv
open ChunkWriter ChunkHeader Decode Lanes List

structure Framing (fix : Bool) (last : Option Message) (lane : Lane) : Prop where
  between : lane.1.len = 0
  empty : lane.2 = []
  length : ∀ l, last = some l → lane.1.hdr.mlen = l.mlen
  ext : ∀ l, last = some l → lane.1.ext = (extended l.field && fix)

theorem framing_initial : Framing fix none (Chan.empty,[]) := by
  refine ⟨rfl,rfl,?_,?_⟩
  · intro l sent
    cases sent
  · intro l sent
    cases sent

theorem framing_inStep (framing : Framing fix last (st,[])) (follow : follows fix last m = true) : InStep st m.fmt m.mlen := by
  unfold follows at follow
  rw [Bool.or_eq_true,decide_eq_true_eq] at follow
  rcases follow with early | later
  · exact ⟨framing.between,fun more => by omega,fun three => by omega⟩
  · cases last with
    | none => cases later
    | some l =>
      obtain ⟨same,plain⟩ := of_decide_eq_true later
      refine ⟨framing.between,fun _ => (framing.length l rfl).trans same,fun three => ?_⟩
      have ext := framing.ext l rfl
      rw [show st.ext = _ from ext,Bool.and_eq_false_iff]
      by_contra both
      simp only [not_or,Bool.not_eq_false] at both
      exact plain ⟨three,both⟩

theorem stream_reads (positive : 0 < cscf.chunkSize) (fix : conf.publishTimeFix = cscf.playTimeFix) (messages : List Message)
    (own : ∀ m ∈ messages, m.h.csid.toNat = n) (sendable : ∀ m ∈ messages, Sendable cscf conf m) (lane : Lane)
    (framing : Framing conf.publishTimeFix last lane) (framed : Framed conf.publishTimeFix last messages) :
    ∃ after out, Lanes.run (laneStep conf cscf.chunkSize n) lane (messages.flatMap (Message.wire cscf)) = some (after,out) ∧
      out.map Delivery.payload = messages.map Message.payload ∧ ∀ d ∈ out, d.h.csid.toNat = n := by
  induction messages generalizing last lane with
  | nil => exact ⟨lane,[],rfl,rfl,fun _ member => by cases member⟩
  | cons m rest ih =>
    have here := own m mem_cons_self
    have send := sendable m mem_cons_self
    obtain ⟨st,before⟩ := lane
    obtain rfl : before = [] := framing.empty
    have inStep := framing_inStep framing framed.1
    obtain ⟨pieces,cut,wire⟩ := wire_chunks positive send.carries.named send.known send.some
    have first := message_reads send.carries fix positive send.short send.small inStep cut
    obtain ⟨_,mlen,csid,ext⟩ := opened_fields inStep
    rw [here,←wire] at first
    obtain ⟨after,out,later,payloads,named⟩ := ih (fun other member => own other (mem_cons_of_mem _ member))
      (fun other member => sendable other (mem_cons_of_mem _ member)) (finish (opened conf.publishTimeFix m st),[])
      ⟨rfl,rfl,by rintro _ ⟨⟩; exact mlen,by rintro _ ⟨⟩; exact ext⟩ framed.2
    refine ⟨after,[⟨(finish (opened conf.publishTimeFix m st)).hdr,pieces⟩] ++ out,?_,?_,?_⟩
    · rw [flatMap_cons]
      exact run_append first later
    · rw [singleton_append,map_cons,map_cons,payloads]
      exact congrArg (·::_) cut.flatten
    · intro d member
      rcases mem_append.mp member with only | member
      · rw [mem_singleton.mp only]
        change (opened conf.publishTimeFix m st).hdr.csid.toNat = n
        rw [csid,UInt32.ofNat_toNat,here]
      · exact named d member

def heard (trace : List Delivery) (n : Nat) : List Delivery := trace.filter fun d => d.h.csid.toNat = n

theorem interleaving_keeps_streams (cscf conf : SrvConf) (events : Events) (family : Nat → List Message)
    (positive : 0 < cscf.chunkSize) (fix : conf.publishTimeFix = cscf.playTimeFix)
    (quiet : Flow.Quiet events) (accepting : Accepting events)
    (own : ∀ n, ∀ m ∈ family n, m.h.csid.toNat = n) (sendable : ∀ n, ∀ m ∈ family n, Sendable cscf conf m)
    (framed : ∀ n, Framed conf.publishTimeFix none (family n))
    (schedule : List (Nat × List UInt8)) (interleaved : ∀ n, lane n schedule = (family n).flatMap (Message.wire cscf))
    (order : List Nat) (once : order.Nodup) (all : ∀ n, family n ≠ [] → n ∈ order)
    (one two : List Read) (plainOne : one.all Flow.plain = true) (plainTwo : two.all Flow.plain = true)
    (bytesOne : Flow.bytesOn one = (schedule.map Prod.snd).flatten)
    (bytesTwo : Flow.bytesOn two =
      ((sequential (fun n => (family n).flatMap (Message.wire cscf)) order).map Prod.snd).flatten) :
    ∃ s t, rests (run events (start conf cscf.chunkSize one) s) = true ∧ rests (run events (start conf cscf.chunkSize two) t) = true ∧
      (run events (start conf cscf.chunkSize one) s).s.core.destroyed = false ∧
      (run events (start conf cscf.chunkSize two) t).s.core.destroyed = false ∧
      ∀ n, heard (run events (start conf cscf.chunkSize one) s).s.core.trace n =
          heard (run events (start conf cscf.chunkSize two) t).s.core.trace n ∧
        (heard (run events (start conf cscf.chunkSize one) s).s.core.trace n).map Delivery.payload =
          (family n).map Message.payload := by
  have alone : ∀ n, ∃ after out, Lanes.run (laneStep conf cscf.chunkSize n) ((Chan.empty,[]) : Lane)
      ((family n).flatMap (Message.wire cscf)) = some (after,out) ∧
      out.map Delivery.payload = (family n).map Message.payload ∧ ∀ d ∈ out, d.h.csid.toNat = n :=
    fun n => stream_reads positive fix (family n) (own n) (sendable n) _ framing_initial (framed n)
  choose after outs reads payloads named using alone
  -- Whatever the schedule, each lane puts out what it puts out alone.
  have each : ∀ (socket : List Read) (items : List (Nat × List UInt8)), socket.all Flow.plain = true →
      Flow.bytesOn socket = (items.map Prod.snd).flatten → (∀ n, lane n items = (family n).flatMap (Message.wire cscf)) →
      ∃ turns, rests (run events (start conf cscf.chunkSize socket) turns) = true ∧
        (run events (start conf cscf.chunkSize socket) turns).s.core.destroyed = false ∧
        ∀ n, heard (run events (start conf cscf.chunkSize socket) turns).s.core.trace n = outs n := by
    intro socket items plainly bytes lanes
    obtain ⟨out,woven,split⟩ := weave_lanes (s:=fun _ => ((Chan.empty,[]) : Lane)) items after outs fun n => (lanes n).symm ▸ reads n
    obtain ⟨turns,rested,alive,trace⟩ := run_weaves quiet accepting plainly bytes woven
    refine ⟨turns,rested,alive,fun n => ?_⟩
    have keyed : ∀ x ∈ out, x.2.h.csid.toNat = x.1 := fun x member => named x.1 x.2 (split x.1 ▸ mem_lane member)
    rw [trace,heard,←split n]
    exact (lane_keyed keyed).symm
  obtain ⟨s,restsOne,aliveOne,heardOne⟩ := each one schedule plainOne bytesOne interleaved
  obtain ⟨t,restsTwo,aliveTwo,heardTwo⟩ := each two _ plainTwo bytesTwo (by
    intro n
    rw [lane_sequential once]
    by_cases sent : family n = []
    · rw [sent]
      exact ite_self _
    · exact if_pos (all n sent))
  refine ⟨s,t,restsOne,restsTwo,aliveOne,aliveTwo,fun n => ⟨?_,?_⟩⟩
  · rw [heardOne,heardTwo]
  · rw [heardOne,payloads]

-- Two chunks on the first stream; the second message of the other repeats type and length.
def waveMessage : Message := ⟨⟨4,0x01000000,0,9,1⟩,none,[[1,2],[3,4]]⟩
def firstBeat : Message := ⟨⟨6,5,0,8,1⟩,none,[[5,6]]⟩
def secondBeat : Message := ⟨⟨6,9,0,8,1⟩,some ⟨6,5,2,8,1⟩,[[7],[8]]⟩

def waveFamily (n : Nat) : List Message := if n = 4 then [waveMessage] else if n = 6 then [firstBeat,secondBeat] else []

def chunkOf (cscf : SrvConf) (m : Message) (i : Nat) : List UInt8 := (m.wire cscf).getD i []

def waveSchedule : List (Nat × List UInt8) :=
  [(6,chunkOf tripConf firstBeat 0),(4,chunkOf tripConf waveMessage 0),(6,chunkOf tripConf secondBeat 0),(4,chunkOf tripConf waveMessage 1)]

def waveInput (schedule : List (Nat × List UInt8)) : List Read := [.data (schedule.map Prod.snd).flatten true]

theorem wave_family (P : Nat → List Message → Prop) (four : P 4 [waveMessage]) (six : P 6 [firstBeat,secondBeat])
    (others : ∀ n, n ≠ 4 → n ≠ 6 → P n []) (n : Nat) : P n (waveFamily n) := by
  unfold waveFamily
  by_cases first : n = 4
  · subst first
    exact four
  · rw [if_neg first]
    by_cases second : n = 6
    · subst second
      exact six
    · rw [if_neg second]
      exact others n first second

theorem interleaving_keeps_wave :
    ∃ s t, rests (run silentEvents (start tripConf 3 (waveInput waveSchedule)) s) = true ∧
      rests (run silentEvents (start tripConf 3 (waveInput
        (sequential (fun n => (waveFamily n).flatMap (Message.wire tripConf)) [4,6]))) t) = true ∧
      (run silentEvents (start tripConf 3 (waveInput waveSchedule)) s).s.core.destroyed = false ∧
      (run silentEvents (start tripConf 3 (waveInput
        (sequential (fun n => (waveFamily n).flatMap (Message.wire tripConf)) [4,6]))) t).s.core.destroyed = false ∧
      ∀ n, heard (run silentEvents (start tripConf 3 (waveInput waveSchedule)) s).s.core.trace n =
          heard (run silentEvents (start tripConf 3 (waveInput
            (sequential (fun n => (waveFamily n).flatMap (Message.wire tripConf)) [4,6]))) t).s.core.trace n ∧
        (heard (run silentEvents (start tripConf 3 (waveInput waveSchedule)) s).s.core.trace n).map Delivery.payload =
          (waveFamily n).map Message.payload := by
  refine interleaving_keeps_streams tripConf tripConf silentEvents waveFamily (by decide) rfl ?_ ?_ ?_ ?_ ?_ waveSchedule ?_ [4,6]
    (by decide) ?_ _ _ rfl rfl (append_nil _) (append_nil _)
  · intro type handler member
    cases member
  · intro type handler member
    cases member
  · refine wave_family (fun n messages => ∀ m ∈ messages, m.h.csid.toNat = n) (by decide) (by decide) ?_
    intro n _ _ m member
    cases member
  · refine wave_family (fun _ messages => ∀ m ∈ messages, Sendable tripConf tripConf m) ?_ ?_ ?_
    · intro m member
      rw [mem_singleton.mp member]
      exact ⟨by decide,⟨by decide,by decide,by decide⟩,by decide,by decide,by decide⟩
    · intro m member
      simp only [mem_cons,not_mem_nil,or_false] at member
      rcases member with rfl | rfl
      · exact ⟨by decide,⟨by decide,by decide,by decide⟩,by decide,by decide,by decide⟩
      · exact ⟨by decide,⟨by decide,by decide,by decide⟩,by decide,by decide,by decide⟩
    · intro n _ _ m member
      cases member
  · exact wave_family (fun _ => Framed true none) ⟨by decide,trivial⟩ ⟨by decide,by decide,trivial⟩ fun _ _ _ => trivial
  · refine wave_family (fun n messages => lane n waveSchedule = messages.flatMap (Message.wire tripConf))
      (by decide +kernel) (by decide +kernel) ?_
    intro n four six
    unfold waveSchedule
    rw [lane_cons_other six,lane_cons_other four,lane_cons_other six,lane_cons_other four]
    rfl
  · refine wave_family (fun n messages => messages ≠ [] → n ∈ [4,6]) (fun _ => by decide) (fun _ => by decide) ?_
    intro n _ _ sent
    exact absurd rfl sent

def payloadsOn (events : Events) (conf : SrvConf) (acked : Bool) (n : Nat) (chunks : List (List UInt8)) : Option (List (List UInt8)) :=
  let c := run events (start conf 3 (chunks.flatMap fun bytes => [.data bytes acked,.again])) 40
  if rests c then some ((heard c.s.core.trace n).map Delivery.payload) else none

def lateMessage : Message := ⟨⟨5,0,0,8,1⟩,none,[[9]]⟩
def late : List UInt8 := chunkOf tripConf lateMessage 0

def stampedPair : Message × Message := (⟨⟨4,0x01000000,0,9,1⟩,none,[[1]]⟩,⟨⟨4,0x01000000,0,9,1⟩,some ⟨4,0x01000000,1,9,1⟩,[[2]]⟩)

-- A previous header with another length than the message had
def misledPair : Message × Message := (⟨⟨4,0,0,9,1⟩,none,[[1,2]]⟩,⟨⟨4,7,0,9,1⟩,some ⟨4,0,1,9,1⟩,[[3]]⟩)

def wrappedPair : Message × Message := (⟨⟨64,0,0,9,1⟩,none,[[1,2,3,4]]⟩,⟨⟨65600,0,0,9,1⟩,none,[[5,6,7,8]]⟩)

def plainChunk : List UInt8 := chunkOf tripConf stampedPair.1 0

theorem interleaving_matters :
    -- play_time_fix on, publish_time_fix off
    (payloadsOn silentEvents {tripConf with publishTimeFix:=false} true 5
        [chunkOf tripConf waveMessage 0,chunkOf tripConf waveMessage 1,late] = some [] ∧
      payloadsOn silentEvents {tripConf with publishTimeFix:=false} true 5
        [chunkOf tripConf waveMessage 0,late,chunkOf tripConf waveMessage 1] = some [[9]]) ∧
    (payloadsOn silentEvents tripConf true 5 [plainChunk,chunkOf tripConf stampedPair.2 0,late] = some [] ∧
      payloadsOn silentEvents tripConf true 5 [plainChunk,late,chunkOf tripConf stampedPair.2 0] = some [[9]]) ∧
    (payloadsOn silentEvents tripConf true 5 [chunkOf tripConf misledPair.1 0,chunkOf tripConf misledPair.2 0,late] = some [] ∧
      payloadsOn silentEvents tripConf true 5 [chunkOf tripConf misledPair.1 0,late,chunkOf tripConf misledPair.2 0] = some [[9]]) ∧
    (payloadsOn silentEvents tripConf true 64 [chunkOf tripConf wrappedPair.1 0,chunkOf tripConf wrappedPair.1 1,
        chunkOf tripConf wrappedPair.2 0,chunkOf tripConf wrappedPair.2 1] = some [[1,2,3,4],[5,6,7,8]] ∧
      payloadsOn silentEvents tripConf true 64 [chunkOf tripConf wrappedPair.1 0,chunkOf tripConf wrappedPair.2 0,
        chunkOf tripConf wrappedPair.1 1,chunkOf tripConf wrappedPair.2 1] = some [[1,2,3,5]]) ∧
    -- a message above max_message
    (payloadsOn silentEvents {tripConf with maxMessage:=3} true 5
        [chunkOf tripConf waveMessage 0,chunkOf tripConf waveMessage 1,late] = some [] ∧
      payloadsOn silentEvents {tripConf with maxMessage:=3} true 5
        [late,chunkOf tripConf waveMessage 0,chunkOf tripConf waveMessage 1] = some [[9]]) ∧
    -- handlers that reject, finalize or select a server, and a refused acknowledgement
    (payloadsOn rejectEvents tripConf true 5 [plainChunk,late] = some [] ∧
      payloadsOn rejectEvents tripConf true 5 [late,plainChunk] = some [[9]]) ∧
    (payloadsOn finalizeEvents tripConf true 5 [plainChunk,late] = some [] ∧
      payloadsOn finalizeEvents tripConf true 5 [late,plainChunk] = some [[9]]) ∧
    (payloadsOn serverEvents tripConf true 5 [plainChunk,late] = some [] ∧
      payloadsOn serverEvents tripConf true 5 [late,plainChunk] = some [[9]]) ∧
    payloadsOn windowEvents tripConf false 5 [plainChunk,late] = some [] ∧
      payloadsOn windowEvents tripConf false 5 [late,plainChunk] = some [[9]] := by
  refine ⟨⟨?_,?_⟩,⟨?_,?_⟩,⟨?_,?_⟩,⟨?_,?_⟩,⟨?_,?_⟩,⟨?_,?_⟩,⟨?_,?_⟩,⟨?_,?_⟩,?_,?_⟩ <;> decide +kernel

end NgxRtmp.Recv
