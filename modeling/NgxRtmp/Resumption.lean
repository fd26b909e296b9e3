import NgxRtmp.Decoder
import NgxRtmp.Lockstep

namespace NgxRtmp.Flow
open ChunkWriter ChunkHeader Recv Decode Function

-- The chunk streams are the decoder's, but for the fields of the header being read.
inductive Phase (conf : SrvConf) (d : Decoder) (f : State) : Prop
  | fresh (start : f.core.csid = 0) (pos : f.pos = 0) (chans : f.core.chans = d.chans)
  | header (head : basicHead f.bytes = some (fmt,f.core.csid,size)) (known : ¬conf.maxStreams ≤ f.core.csid)
      (read : messageHead conf.publishTimeFix fmt (named f.core.csid (d.chans f.core.csid)) (f.bytes.drop size) = (f.core.chan,none))
      (pos : f.pos = 0) (others : ∀ n, n ≠ f.core.csid → f.core.chans n = d.chans n)
  | payload (head : basicHead f.bytes = some (fmt,f.core.csid,size)) (known : ¬conf.maxStreams ≤ f.core.csid)
      (read : messageHead conf.publishTimeFix fmt (named f.core.csid (d.chans f.core.csid)) (f.bytes.drop size) =
        (f.core.chan,some more))
      (pos : f.pos = size+more) (small : ¬conf.maxMessage < f.core.chan.hdr.mlen.toNat)
      (others : ∀ n, n ≠ f.core.csid → f.core.chans n = d.chans n)

def rewound (d : Decoder) (f : State) : State := {f with core:={f.core with chans:=d.chans,csid:=0},pos:=0}

theorem parse_known (fresh : f.pos = 0) (head : basicHead f.bytes = some (fmt,csid,size)) (known : ¬conf.maxStreams ≤ csid) :
    parse conf f socket = readHeader conf {f with core:=if f.core.csid = 0 then link f.core csid else f.core} socket fmt size := by
  unfold parse
  rw [if_pos fresh,head]
  exact if_neg known

theorem readHeader_short (read : messageHead conf.publishTimeFix fmt f.core.chan (f.bytes.drop size) = (chan,none)) :
    readHeader conf f socket fmt size = .turn (.next {f with core:=f.core.setChan chan} false socket) := by
  unfold readHeader
  rw [read]

theorem readHeader_done (read : messageHead conf.publishTimeFix fmt f.core.chan (f.bytes.drop size) = (chan,some more)) :
    readHeader conf f socket fmt size =
      if conf.maxMessage < chan.hdr.mlen.toNat then
        .turn (.stop ({f with core:=f.core.setChan chan,pos:=size+more} : State).finalize socket)
      else payload {f with core:=f.core.setChan chan,pos:=size+more} socket := by
  unfold readHeader
  rw [read]

theorem rewound_setChan (others : ∀ n, n ≠ g.core.csid → g.core.chans n = d.chans n) (chan : Chan) (pos : Nat) :
    {rewound d g with core:=(link (rewound d g).core g.core.csid).setChan chan,pos} = {g with core:=g.core.setChan chan,pos} := by
  have same : update (update d.chans g.core.csid (named g.core.csid (d.chans g.core.csid))) g.core.csid chan =
      update g.core.chans g.core.csid chan := by
    funext n
    by_cases current : n = g.core.csid
    · rw [current,update_self,update_self]
    · rw [update_of_ne current,update_of_ne current,update_of_ne current,others n current]
  unfold rewound link Core.setChan
  exact congrArg (fun chans => ({g with core:={g.core with chans},pos} : State)) same

theorem link_chan : (link (rewound d g).core csid).chan = named csid (d.chans csid) := by
  change update d.chans csid _ csid = _
  rw [update_self]
  rfl

-- Parsing goes on as if the whole chunk had come at once.
theorem rewound_fresh (csid : g.core.csid = 0) (chans : g.core.chans = d.chans) (pos : g.pos = 0) : rewound d g = g := by
  obtain ⟨⟨_,_,_,_,_,_,_,_,_,_⟩,_,_,_⟩ := g
  cases csid
  cases chans
  cases pos
  rfl

theorem head_more (head : basicHead bytes = some (fmt,csid,size)) (grown : whole = bytes ++ more) :
    basicHead whole = some (fmt,csid,size) ∧ whole.drop size = bytes.drop size ++ more := by
  have bounds := basicHead_parts head
  rw [grown]
  exact ⟨basicHead_append head,List.drop_append_of_le_length bounds.2.2.2.2⟩

theorem parse_rewound (phase : Phase conf d f) (csid : g.core.csid = f.core.csid) (chans : g.core.chans = f.core.chans)
    (pos : g.pos = f.pos) (bytes : g.bytes = f.bytes ++ more) (socket : List Read) :
    parse conf g socket = parse conf (rewound d g) socket := by
  have chan : g.core.chan = f.core.chan := by
    unfold Core.chan
    rw [chans,csid]
  cases phase with
  | fresh start zero same => rw [rewound_fresh (csid.trans start) (chans.trans same) (pos.trans zero)]
  | header head known read zero others =>
    rename_i fmt size
    have bounds := basicHead_parts head
    rw [← csid] at head known others
    obtain ⟨whole,dropped⟩ := head_more head bytes
    have again : messageHead conf.publishTimeFix fmt g.core.chan (g.bytes.drop size) =
        messageHead conf.publishTimeFix fmt (link (rewound d g).core g.core.csid).chan (g.bytes.drop size) := by
      rw [link_chan,dropped,chan,csid]
      exact (messageHead_restart read more).1
    have current : g.core.csid ≠ 0 := by omega
    have fresh : g.pos = 0 := pos.trans zero
    rw [parse_known fresh whole known,parse_known (show (rewound d g).pos = 0 from rfl) whole known,
      if_neg current,if_pos (show (rewound d g).core.csid = 0 from rfl)]
    have states := rewound_setChan (fun n other => by rw [chans]; exact others n other)
    rcases result : messageHead conf.publishTimeFix fmt g.core.chan (g.bytes.drop size) with ⟨st,length⟩
    cases length with
    | none =>
      rw [readHeader_short (f:=g) result,readHeader_short (f:={rewound d g with core:=link (rewound d g).core g.core.csid})
        (again.symm.trans result)]
      have short := states st 0
      rw [show ({g with core:=g.core.setChan st,pos:=0} : State) = {g with core:=g.core.setChan st} by rw [←fresh]] at short
      exact congrArg (fun f => Parsed.turn (.next f false socket)) short.symm
    | some n =>
      rw [readHeader_done (f:=g) result,readHeader_done (f:={rewound d g with core:=link (rewound d g).core g.core.csid})
        (again.symm.trans result)]
      exact congrArg (fun f : State => if conf.maxMessage < st.hdr.mlen.toNat then Parsed.turn (.stop f.finalize socket)
        else Flow.payload f socket) (states st (size+n)).symm
  | payload head known read place small others =>
    rename_i fmt size n
    have bounds := basicHead_parts head
    rw [← csid] at head known others
    obtain ⟨whole,dropped⟩ := head_more head bytes
    have again : messageHead conf.publishTimeFix fmt (link (rewound d g).core g.core.csid).chan (g.bytes.drop size) =
        (g.core.chan,some n) := by
      rw [link_chan,dropped,chan,csid]
      exact messageHead_append read
    have begun : g.pos ≠ 0 := by omega
    have state := rewound_setChan (fun n other => by rw [chans]; exact others n other) g.core.chan (size+n)
    have same : ({g with core:=g.core.setChan g.core.chan,pos:=size+n} : State) = g := by
      have kept : g.core.setChan g.core.chan = g.core := by
        unfold Core.setChan Core.chan
        rw [update_eq_self]
      rw [kept,←place,←pos]
    rw [parse_known (show (rewound d g).pos = 0 from rfl) whole known,if_pos (show (rewound d g).core.csid = 0 from rfl)]
    rw [readHeader_done (f:={rewound d g with core:=link (rewound d g).core g.core.csid}) again,if_neg (chan ▸ small)]
    unfold parse
    rw [if_neg begun]
    exact congrArg (Flow.payload · socket) (state.trans same).symm

def isAckSize : Effect → Bool
  | .ackSize _ => true
  | _ => false

-- Handlers that touch nothing of the receiving side but the window size of the
-- acknowledgements.
def Quiet (events : Events) : Prop :=
  ∀ type, ∀ handler ∈ events type, ∀ history d, (handler history d).2.all isAckSize = true

theorem quiet_effects (apply : σ → Effect → σ) (effects : List Effect) (s : σ) (all : effects.all isAckSize = true) :
    effectsAll apply (fun _ => isAckSize) s effects = true := by
  induction effects generalizing s with
  | nil => rfl
  | cons effect rest ih =>
    simp only [List.all_cons,Bool.and_eq_true] at all
    simp only [effectsAll,Bool.and_eq_true]
    exact ⟨all.1,ih _ all.2⟩

theorem quiet_calls (apply : σ → Effect → σ) (s : σ)
    (quiet : ∀ handler ∈ handlers, (handler history d).2.all isAckSize = true) :
    callsAll apply (fun _ => isAckSize) history d handlers s = true := by
  induction handlers generalizing s with
  | nil => rfl
  | cons handler rest ih =>
    simp only [callsAll,Bool.and_eq_true,Bool.or_eq_true]
    exact ⟨quiet_effects apply _ _ (quiet handler (by simp)),.inr (ih _ fun other member => quiet other (by simp [member]))⟩

theorem quiet_handlers (quiet : Quiet events) : ∀ handler ∈ handlersOf events d, (handler history d).2.all isAckSize = true := by
  intro handler member
  unfold handlersOf at member
  split at member
  · cases member
  · exact quiet _ handler member history d

theorem ackSize_mild (effect : Effect) (ack : isAckSize effect = true) : mild left f effect = true := by
  cases effect with
  | ackSize value => rfl
  | chunkSize size => cases ack
  | server conf => cases ack
  | finalize => cases ack

theorem quiet_mild (quiet : Quiet events) : mildStep events c = true := by
  unfold mildStep
  split
  · rfl
  · rename_i conf kept _
    cases advance conf c.f kept c.socket with
    | turn t => rfl
    | message f socket =>
      exact callsAll_mono (fun g effect => ackSize_mild effect) _ _
        (quiet_calls _ _ (quiet_handlers quiet))

theorem quiet_receive (quiet : Quiet events) {f : State} :
    ∃ ackSize, (f.receiveMessage events d).1 = {f with core:={f.core.log d with ackSize}} := by
  refine callHandlers_invariant (P:=fun g => ∃ ackSize, g = {f with core:={f.core.log d with ackSize}}) ?_ ⟨f.core.ackSize,rfl⟩
    (quiet_calls State.applyEffect _ (quiet_handlers quiet))
  rintro g effect ⟨_,rfl⟩ ack
  cases effect with
  | ackSize value => exact ⟨value,rfl⟩
  | chunkSize size => cases ack
  | server conf => cases ack
  | finalize => cases ack

structure Agrees (conf : SrvConf) (chunkSize : Nat) (d : Decoder) (f : State) : Prop where
  chunks : f.chunks = d.chunks
  trace : f.core.trace = d.trace
  alive : d.dead = false
  kept : f.core.destroyed = false
  steady : f.core.changing = false
  size : f.core.chunkSize = chunkSize
  server : f.core.cscf = conf

structure Fresh (d : Decoder) (f : State) : Prop where
  start : f.core.csid = 0
  pos : f.pos = 0
  chans : f.core.chans = d.chans

theorem Fresh.phase (fresh : Fresh d f) : Phase conf d f := .fresh fresh.start fresh.pos fresh.chans

def headed (f : State) (csid : Nat) (chan : Chan) (pos : Nat) : State :=
  {f with core:={f.core with csid,chans:=update f.core.chans csid chan},pos}

theorem link_setChan (csid : Nat) (chan : Chan) (pos : Nat) :
    {f with core:=(link f.core csid).setChan chan,pos} = headed f csid chan pos := by
  unfold link Core.setChan headed
  simp only [update_idem]

theorem headed_chan : (headed f csid chan pos).core.chan = chan :=
  update_self _ _ _

section Parse
variable {conf : SrvConf} {chunkSize : Nat} {d : Decoder} {f : State} {events : Events}

theorem parse_fresh (fresh : Fresh d f) (head : basicHead f.bytes = some (fmt,csid,size)) (known : ¬conf.maxStreams ≤ csid) :
    parse conf f socket = readHeader conf {f with core:=link f.core csid} socket fmt size ∧
      (link f.core csid).chan = named csid (d.chans csid) := by
  constructor
  · rw [parse_known fresh.pos head known,if_pos fresh.start]
  · change update f.core.chans csid _ csid = _
    rw [update_self,fresh.chans]
    rfl

theorem parse_waits (agrees : Agrees conf chunkSize d f) (fresh : Fresh d f) (waits : d.next conf chunkSize events f.bytes = none) :
    ∃ g, parse conf f socket = .turn (.next g false socket) ∧ Phase conf d g ∧ Agrees conf chunkSize d g ∧ g.bytes = f.bytes := by
  unfold Decoder.next at waits
  rw [agrees.alive] at waits
  simp only [Bool.false_eq_true,if_false] at waits
  cases head : basicHead f.bytes with
  | none =>
    refine ⟨f,?_,fresh.phase,agrees,rfl⟩
    unfold parse
    rw [if_pos fresh.pos,head]
  | some parts =>
    obtain ⟨fmt,csid,size⟩ := parts
    simp only [head] at waits
    by_cases big : conf.maxStreams ≤ csid
    · rw [if_pos big] at waits
      cases waits
    · rw [if_neg big] at waits
      obtain ⟨parsed,chan⟩ := parse_fresh fresh head big
      have none := Option.map_eq_none_iff.mp waits
      unfold readChunk at none
      rcases read : messageHead conf.publishTimeFix fmt (named csid (d.chans csid)) (f.bytes.drop size) with ⟨st,length⟩
      rw [read] at none
      rw [parsed]
      have others : ∀ n, n ≠ csid → update f.core.chans csid st n = d.chans n := by
        intro n other
        rw [update_of_ne other,fresh.chans]
      cases length with
      | none =>
        rw [readHeader_short (chan.symm ▸ read)]
        refine ⟨headed f csid st f.pos,?_,?_,⟨agrees.chunks,agrees.trace,agrees.alive,agrees.kept,agrees.steady,agrees.size,agrees.server⟩,rfl⟩
        · rw [←link_setChan]
        · exact .header head big (read.trans (by rw [headed_chan])) fresh.pos others
      | some more =>
        rw [readHeader_done (chan.symm ▸ read)]
        simp only at none
        by_cases large : conf.maxMessage < st.hdr.mlen.toNat
        · rw [if_pos large] at none
          cases none
        · rw [if_neg large] at none ⊢
          by_cases short : ((f.bytes.drop size).drop more).length < min st.fsize chunkSize
          · refine ⟨headed f csid st (size+more),?_,?_,
              ⟨agrees.chunks,agrees.trace,agrees.alive,agrees.kept,agrees.steady,agrees.size,agrees.server⟩,rfl⟩
            · rw [show ({({f with core:=link f.core csid} : State) with core:=(link f.core csid).setChan st,pos:=size+more} : State) =
                headed f csid st (size+more) from link_setChan csid st (size+more)]
              unfold payload
              have wait : f.bytes.length-(size+more) < min st.fsize f.core.chunkSize := by
                rw [agrees.size]
                simpa only [List.length_drop,Nat.sub_sub] using short
              rw [headed_chan]
              exact if_pos wait
            · refine .payload head big (read.trans (by rw [headed_chan])) rfl ?_ others
              rw [headed_chan]
              exact large
          · rw [if_neg short] at none
            split at none <;> cases none

inductive ReadAs (conf : SrvConf) (chunkSize : Nat) (e : Decoder) (rest : List UInt8) (socket : List Read) : Turn → Prop
  | alive (agrees : Agrees conf chunkSize e g) (fresh : Fresh e g) (bytes : g.bytes = rest) :
      ReadAs conf chunkSize e rest socket (.next g (rest ≠ []) socket)
  | dead (ended : e.dead = true) (destroyed : g.core.destroyed = true) (trace : g.core.trace = e.trace) :
      ReadAs conf chunkSize e rest socket (.stop g socket)

theorem collect_reads (agrees : Agrees conf chunkSize d f) (fresh : Fresh d f) (csid : Nat) (st : Chan) (pos : Nat) (socket : List Read) :
    ReadAs conf chunkSize
      {d with
        chans:=update d.chans csid {st with len:=st.len+UInt32.ofNat chunkSize},
        chunks:=update d.chunks csid (d.chunks csid ++ [(f.bytes.drop pos).take chunkSize])}
      (f.bytes.drop (pos+chunkSize)) socket
      (.next (collect (headed f csid st pos)) (f.bytes.drop (pos+chunkSize) ≠ []) socket) := by
  refine .alive ⟨?_,agrees.trace,agrees.alive,agrees.kept,agrees.steady,agrees.size,agrees.server⟩ ⟨rfl,rfl,?_⟩ ?_
  · change update f.chunks csid (f.chunks csid ++ [(f.bytes.drop pos).take f.core.chunkSize]) = _
    rw [agrees.chunks,agrees.size]
  · change update (update f.core.chans csid st) csid _ = _
    rw [update_idem,headed_chan,fresh.chans]
    exact congrArg (fun size => update d.chans csid {st with len:=st.len+UInt32.ofNat size}) agrees.size
  · change f.bytes.drop (pos+f.core.chunkSize) = _
    rw [agrees.size]

theorem handle_reads (quiet : Quiet events) (agrees : Agrees conf chunkSize d f) (fresh : Fresh d f) {csid : Nat}
    (pos : Nat) (socket : List Read) :
    ReadAs conf chunkSize
      (d.take csid events (.last {st with len:=0,hdr:={st.hdr with timestamp:=st.hdr.timestamp+st.dtime}}
        ((f.bytes.drop pos).take st.fsize) (f.bytes.drop (pos+st.fsize)))).1
      (f.bytes.drop (pos+st.fsize)) socket (handle events (headed f csid st pos) socket) := by
  have message : delivery (headed f csid st pos) =
      ⟨{st.hdr with timestamp:=st.hdr.timestamp+st.dtime},d.chunks csid ++ [(f.bytes.drop pos).take st.fsize]⟩ := by
    unfold delivery
    rw [headed_chan,←agrees.chunks]
    rfl
  have chans : (taken (headed f csid st pos)).core.chans =
      update d.chans csid {st with len:=0,hdr:={st.hdr with timestamp:=st.hdr.timestamp+st.dtime}} := by
    change update (update f.core.chans csid st) csid _ = _
    rw [update_idem,headed_chan,message,fresh.chans]
  obtain ⟨ackSize,received⟩ := quiet_receive quiet
  have verdict : ((taken (headed f csid st pos)).receiveMessage events (delivery (headed f csid st pos))).2 =
      accepts d.trace (delivery (headed f csid st pos)) (handlersOf events (delivery (headed f csid st pos))) := by
    rw [←agrees.trace]
    exact callHandlers_accepts _ _ _ _ _
  have trace : (taken (headed f csid st pos)).core.trace = d.trace := agrees.trace
  have steady : (taken (headed f csid st pos)).core.changing = false := agrees.steady
  unfold handle
  rw [headed_chan]
  rcases result : (taken (headed f csid st pos)).receiveMessage events (delivery (headed f csid st pos)) with ⟨g,accepted⟩
  rw [result] at received verdict
  simp only at received verdict
  subst received
  cases accepted with
  | false =>
    refine .dead ?_ rfl ?_
    · change (!accepts d.trace _ _) = true
      rw [←message,←verdict]
      rfl
    · change (taken (headed f csid st pos)).core.trace ++ [_] = d.trace ++ [_]
      rw [trace,message]
  | true =>
    have settled : settle {taken (headed f csid st pos) with
        core:={(taken (headed f csid st pos)).core.log (delivery (headed f csid st pos)) with ackSize}} csid (f.bytes.drop (pos+st.fsize)) =
        ⟨{(taken (headed f csid st pos)).core.log (delivery (headed f csid st pos)) with ackSize,csid:=0},
          update f.chunks csid [],f.bytes.drop (pos+st.fsize),0⟩ := by
      unfold settle
      rw [if_neg (by rw [show ({(taken (headed f csid st pos)).core.log _ with ackSize} : Core).changing = false from steady]; decide)]
      rfl
    change ReadAs _ _ _ _ _ (.next (settle _ csid (f.bytes.drop (pos+st.fsize))) _ _)
    rw [settled]
    refine .alive ⟨?_,?_,?_,agrees.kept,agrees.steady,agrees.size,agrees.server⟩ ⟨rfl,rfl,?_⟩ rfl
    · change update f.chunks csid [] = update d.chunks csid []
      rw [agrees.chunks]
    · change (taken (headed f csid st pos)).core.trace ++ [_] = d.trace ++ [_]
      rw [trace,message]
    · change (!accepts d.trace _ _) = false
      rw [←message,←verdict]
      rfl
    · exact chans

theorem parse_reads (quiet : Quiet events) (agrees : Agrees conf chunkSize d f) (fresh : Fresh d f)
    (read : d.next conf chunkSize events f.bytes = some (e,rest)) (socket : List Read) :
    ReadAs conf chunkSize e rest socket ((parse conf f socket).finish events) := by
  unfold Decoder.next at read
  rw [agrees.alive] at read
  simp only [Bool.false_eq_true,if_false] at read
  cases head : basicHead f.bytes with
  | none =>
    rw [head] at read
    cases read
  | some parts =>
    obtain ⟨fmt,csid,size⟩ := parts
    simp only [head] at read
    by_cases big : conf.maxStreams ≤ csid
    · rw [if_pos big] at read
      cases read
      unfold parse
      rw [if_pos fresh.pos,head]
      simp only [if_pos big]
      exact .dead rfl rfl agrees.trace
    · rw [if_neg big] at read
      obtain ⟨parsed,chan⟩ := parse_fresh fresh head big
      obtain ⟨chunk,complete,taken⟩ := Option.map_eq_some_iff.mp read
      unfold readChunk at complete
      rcases result : messageHead conf.publishTimeFix fmt (named csid (d.chans csid)) (f.bytes.drop size) with ⟨st,length⟩
      rw [result] at complete
      rw [parsed]
      cases length with
      | none => cases complete
      | some more =>
        rw [readHeader_done (chan.symm ▸ result)]
        rw [show ({({f with core:=link f.core csid} : State) with core:=(link f.core csid).setChan st,pos:=size+more} : State) =
          headed f csid st (size+more) from link_setChan csid st (size+more)]
        simp only [List.drop_drop,List.length_drop] at complete
        by_cases large : conf.maxMessage < st.hdr.mlen.toNat
        · rw [if_pos large] at complete ⊢
          cases complete
          cases taken
          exact .dead rfl rfl agrees.trace
        · rw [if_neg large] at complete ⊢
          unfold payload
          rw [headed_chan]
          change ReadAs _ _ _ _ _ (Parsed.finish events (if f.bytes.length-(size+more) < min st.fsize f.core.chunkSize then _ else
            if f.core.chunkSize < st.fsize then _ else _))
          rw [agrees.size]
          by_cases short : f.bytes.length-(size+more) < min st.fsize chunkSize
          · rw [if_pos short] at complete
            cases complete
          · rw [if_neg short] at complete ⊢
            by_cases fragment : chunkSize < st.fsize
            · rw [if_pos fragment] at complete ⊢
              cases complete
              cases taken
              have collected := collect_reads agrees fresh csid st (size+more) socket
              change ReadAs _ _ _ _ _ (.next (collect (headed f csid st (size+more))) (f.bytes.drop (size+more+f.core.chunkSize) ≠ []) socket)
              rw [agrees.size]
              exact collected
            · rw [if_neg fragment] at complete ⊢
              cases complete
              cases taken
              exact handle_reads quiet agrees fresh (size+more) socket

end Parse

end NgxRtmp.Flow
