import NgxRtmp.ChunkLanes
import NgxRtmp.Segmentation

namespace NgxRtmp.Recv
open ChunkWriter ChunkHeader Decode Lanes

theorem run_weaves (quiet : Flow.Quiet events) (accepting : Accepting events)
    (plainly : socket.all Flow.plain = true)
    (bytes : Flow.bytesOn socket = (schedule.map Prod.snd).flatten)
    (woven : weave (laneStep conf chunkSize) (fun _ => (Chan.empty,[])) schedule = some (lanes,out)) :
    ∃ turns, rests (run events (start conf chunkSize socket) turns) = true ∧
      (run events (start conf chunkSize socket) turns).s.core.destroyed = false ∧
      (run events (start conf chunkSize socket) turns).s.core.trace = out.map Prod.snd := by
  obtain ⟨turns,d,rest,rested,reads,waits,trace,dead⟩ := run_decodes quiet plainly
  have whole := weave_reads (d:=.initial) accepting rfl woven
  rw [bytes] at reads
  obtain ⟨rfl,_⟩ := Reading.reads_unique reads whole waits rfl
  exact ⟨turns,rested,dead,trace⟩

structure Seen where
  csid : UInt32
  type : UInt8
  msid : UInt32
  timestamp : UInt32
  payload : List UInt8
  deriving DecidableEq

def Delivery.seen (d : Delivery) : Seen := ⟨d.h.csid,d.h.type,d.h.msid,d.h.timestamp,d.payload⟩

end NgxRtmp.Recv

namespace NgxRtmp.ChunkWriter
open Recv Decode

def Message.seen (m : Message) : Seen := ⟨m.h.csid,m.h.type,m.h.msid,m.h.timestamp,m.payload⟩

structure Sendable (cscf conf : SrvConf) (m : Message) : Prop where
  some : m.input ≠ []
  carries : Carries conf m.h.csid.toNat
  known : m.h.csid.toNat < cscf.maxStreams
  short : m.payload.length < 2^24
  small : m.payload.length ≤ conf.maxMessage

-- No previous header, or the last one sent on the chunk stream with mlen 0
def Chained (history : Nat → Option Header) : List Message → Prop
  | [] => True
  | m::rest => (m.lh = none ∨ m.lh = (history m.h.csid.toNat).map fun h => {h with mlen:=0}) ∧
    Chained (Function.update history m.h.csid.toNat (some m.h)) rest

inductive Dated (last : Option Header) (m : Message) : Prop
  | absolute (fmt : m.fmt = 0) (field : m.field = m.h.timestamp)
  | delta (last : last = some h) (fmt : m.fmt = 1) (msid : h.msid = m.h.msid) (field : m.field = m.h.timestamp-h.timestamp)

theorem chained_dated (chained : m.lh = none ∨ m.lh = last.map fun h => {h with mlen:=0}) : Dated last m := by
  cases last with
  | none =>
    have none : m.lh = none := chained.elim id id
    refine .absolute ?_ ?_
    · unfold Message.fmt chunkFormat
      rw [none]
    · unfold Message.field chunkFormat
      rw [none]
  | some h =>
    rcases chained with none | same
    · refine .absolute ?_ ?_
      · unfold Message.fmt chunkFormat
        rw [none]
      · unfold Message.field chunkFormat
        rw [none]
    · have other : ¬(m.h.type = h.type ∧ m.mlen ≠ 0 ∧ m.mlen = 0) := fun all => all.2.1 all.2.2
      have format : chunkFormat m.h m.lh m.mlen =
          if h.csid ≠ 0 ∧ m.h.msid = h.msid then (1,m.h.timestamp-h.timestamp) else (0,m.h.timestamp) := by
        rw [same]
        simp only [Option.map_some,chunkFormat,if_neg other]
      by_cases follows : h.csid ≠ 0 ∧ m.h.msid = h.msid
      · rw [if_pos follows] at format
        exact .delta rfl (congrArg Prod.fst format) follows.2.symm (congrArg Prod.snd format)
      · rw [if_neg follows] at format
        exact .absolute (congrArg Prod.fst format) (congrArg Prod.snd format)

end NgxRtmp.ChunkWriter

namespace NgxRtmp.Recv
open ChunkWriter ChunkHeader Decode Lanes

structure Tracks (last : Option Header) (lane : Lane) : Prop where
  between : lane.1.len = 0
  empty : lane.2 = []
  msid : ∀ h, last = some h → lane.1.hdr.msid = h.msid
  timestamp : ∀ h, last = some h → lane.1.hdr.timestamp = h.timestamp

theorem tracks_initial : Tracks none (Chan.empty,[]) := by
  refine ⟨rfl,rfl,?_,?_⟩
  · intro h sent
    cases sent
  · intro h sent
    cases sent

theorem dated_inStep (dated : Dated last m) (between : st.len = 0) : InStep st m.fmt m.mlen := by
  cases dated with
  | absolute fmt _ => exact ⟨between,fun more => by omega,fun three => by omega⟩
  | delta _ fmt _ _ => exact ⟨between,fun more => by omega,fun three => by omega⟩

theorem opened_sent (fix : Bool) (tracks : Tracks last (st,[])) (dated : Dated last m) :
    (finish (opened fix m st)).hdr = ⟨m.h.csid,m.h.timestamp,m.mlen,m.h.type,m.h.msid⟩ := by
  have between : (fields m.fmt m.h m.mlen (named m.h.csid.toNat st)).len = 0 := (fields_len ..).trans tracks.between
  have csid : UInt32.ofNat m.h.csid.toNat = m.h.csid := UInt32.ofNat_toNat
  unfold opened headDone
  rw [if_pos between]
  cases dated with
  | absolute fmt field =>
    simp only [fmt,field,fields,if_true,finish,named,csid,UInt32.add_zero]
    rfl
  | delta last fmt msid field =>
    have stamp := tracks.timestamp _ last
    have same := tracks.msid _ last
    rename_i h
    have sum : h.timestamp+(m.h.timestamp-h.timestamp) = m.h.timestamp := by rw [UInt32.add_comm,UInt32.sub_add_cancel]
    simp only at stamp same
    simp only [fmt,field,fields,finish,named,csid,stamp,same,msid]
    simp only [if_neg (show ¬1 = 0 by decide),if_neg (show ¬1 = 3 by decide),if_true,sum]

def tagged (cscf : SrvConf) (m : Message) : List (Nat × List UInt8) := (m.wire cscf).map fun bytes => (m.h.csid.toNat,bytes)

theorem message_weaves (positive : 0 < cscf.chunkSize) (fix : conf.publishTimeFix = cscf.playTimeFix) (sendable : Sendable cscf conf m) (tracks : Tracks last (lanes m.h.csid.toNat)) (dated : Dated last m) :
    ∃ lane d, weave (laneStep conf cscf.chunkSize) lanes (tagged cscf m) =
        some (Function.update lanes m.h.csid.toNat lane,[(m.h.csid.toNat,d)]) ∧
      Tracks (some m.h) lane ∧ d.seen = m.seen := by
  obtain ⟨pieces,cut,wire⟩ := wire_chunks positive sendable.carries.named sendable.known sendable.some
  have lane : lanes m.h.csid.toNat = ((lanes m.h.csid.toNat).1,[]) := Prod.ext rfl tracks.empty
  rw [lane] at tracks
  generalize (lanes m.h.csid.toNat).1 = st at lane tracks
  have inStep : InStep st m.fmt m.mlen := dated_inStep dated tracks.between
  have alone := message_reads sendable.carries fix positive sendable.short sendable.small inStep cut
  rw [←wire,←lane] at alone
  have header := opened_sent conf.publishTimeFix tracks dated
  refine ⟨_,_,weave_single alone,⟨rfl,rfl,?_,?_⟩,?_⟩
  · rintro _ ⟨⟩
    rw [header]
  · rintro _ ⟨⟩
    rw [header]
  · unfold Delivery.seen Message.seen Delivery.payload
    rw [header,cut.flatten]

theorem messages_weave (positive : 0 < cscf.chunkSize) (fix : conf.publishTimeFix = cscf.playTimeFix) (messages : List Message)
    (sendable : ∀ m ∈ messages, Sendable cscf conf m) (history : Nat → Option Header) (chained : Chained history messages)
    (lanes : Nat → Lane) (tracks : ∀ n, Tracks (history n) (lanes n)) :
    ∃ after out, weave (laneStep conf cscf.chunkSize) lanes (messages.flatMap (tagged cscf)) = some (after,out) ∧
      out.map (fun x => x.2.seen) = messages.map Message.seen := by
  induction messages generalizing history lanes with
  | nil => exact ⟨lanes,[],rfl,rfl⟩
  | cons m rest ih =>
    obtain ⟨lane,d,woven,tracked,seen⟩ := message_weaves positive fix (sendable m List.mem_cons_self)
      (tracks m.h.csid.toNat) (chained_dated chained.1)
    obtain ⟨after,out,later,rest_seen⟩ := ih (fun other member => sendable other (List.mem_cons_of_mem _ member)) _ chained.2
      (Function.update lanes m.h.csid.toNat lane) (by
        intro n
        by_cases own : n = m.h.csid.toNat
        · subst own
          rwa [Function.update_self,Function.update_self]
        · rw [Function.update_of_ne own,Function.update_of_ne own]
          exact tracks n)
    refine ⟨after,(m.h.csid.toNat,d)::out,?_,?_⟩
    · rw [List.flatMap_cons]
      exact weave_append woven later
    · rw [List.map_cons,List.map_cons,seen,rest_seen]

theorem chunk_round_trip (cscf conf : SrvConf) (events : Events) (messages : List Message) (socket : List Read)
    (positive : 0 < cscf.chunkSize) (fix : conf.publishTimeFix = cscf.playTimeFix)
    (quiet : Flow.Quiet events) (accepting : Accepting events)
    (sendable : ∀ m ∈ messages, Sendable cscf conf m) (chained : Chained (fun _ => none) messages)
    (plainly : socket.all Flow.plain = true) (bytes : Flow.bytesOn socket = (messages.flatMap (Message.wire cscf)).flatten) :
    ∃ turns, rests (run events (start conf cscf.chunkSize socket) turns) = true ∧
      (run events (start conf cscf.chunkSize socket) turns).s.core.destroyed = false ∧
      (run events (start conf cscf.chunkSize socket) turns).s.core.trace.map Delivery.seen = messages.map Message.seen := by
  obtain ⟨lanes,out,woven,seen⟩ := messages_weave positive fix messages sendable _ chained _ fun _ => tracks_initial
  have same : (messages.flatMap (tagged cscf)).map Prod.snd = messages.flatMap (Message.wire cscf) := by
    rw [List.map_flatMap]
    refine congrArg (messages.flatMap ·) (funext fun m => ?_)
    rw [tagged,List.map_map]
    exact List.map_id _
  obtain ⟨turns,rested,alive,trace⟩ := run_weaves quiet accepting plainly (by rw [same,bytes]) woven
  refine ⟨turns,rested,alive,?_⟩
  rw [trace,List.map_map]
  exact seen

def tripConf : SrvConf := {sampleConf with maxStreams:=70000,chunkSize:=3}

def tripInput (cscf : SrvConf) (messages : List Message) (acked : Bool) : List Read :=
  messages.flatMap fun m => [.data (m.wire cscf).flatten acked,.again]

def silentEvents : Events := fun _ => []

-- Two chunks with an extended timestamp, one on another stream, and a delta to the first.
def tripMessages : List Message :=
  [⟨⟨6,0x01000000,0,9,1⟩,none,[[1,2],[3,4]]⟩,⟨⟨400,5,0,8,1⟩,none,[[5]]⟩,
    ⟨⟨6,0x01000028,0,9,1⟩,some ⟨6,0x01000000,0,9,1⟩,[[6,7,8],[9]]⟩]

theorem chunk_round_trip_delta :
    (tripInput tripConf tripMessages true).all Flow.plain = true ∧
    ∃ turns, rests (run silentEvents (start tripConf 3 (tripInput tripConf tripMessages true)) turns) = true ∧
      (run silentEvents (start tripConf 3 (tripInput tripConf tripMessages true)) turns).s.core.destroyed = false ∧
      (run silentEvents (start tripConf 3 (tripInput tripConf tripMessages true)) turns).s.core.trace.map Delivery.seen =
        tripMessages.map Message.seen := by
  refine ⟨rfl,chunk_round_trip tripConf tripConf silentEvents tripMessages _ (by decide) rfl ?_ ?_ ?_ ?_ rfl (by decide +kernel)⟩
  · intro type handler member
    cases member
  · intro type handler member
    cases member
  · intro m member
    simp only [tripMessages,List.mem_cons,List.not_mem_nil,or_false] at member
    rcases member with rfl | rfl | rfl
    · exact ⟨by decide,⟨by decide,by decide,by decide⟩,by decide,by decide,by decide⟩
    · exact ⟨by decide,⟨by decide,by decide,by decide⟩,by decide,by decide,by decide⟩
    · exact ⟨by decide,⟨by decide,by decide,by decide⟩,by decide,by decide,by decide⟩
  · exact ⟨.inl rfl,.inl rfl,.inr (by decide),trivial⟩

def rejectEvents : Events := fun _ => [fun _ _ => (.error,[])]
def serverEvents : Events := fun _ => [fun _ _ => (.ok,[.server {tripConf with maxMessage:=0}])]

def twoMessages : List Message := [⟨⟨4,10,0,9,1⟩,none,[[7]]⟩,⟨⟨4,20,0,9,1⟩,none,[[8]]⟩]

-- 65600-64 does not fit into two bytes: the reader takes the chunk stream for 64.
def wrappedMessages : List Message :=
  [⟨⟨64,100,0,9,1⟩,none,[[7]]⟩,⟨⟨65600,500,0,9,1⟩,none,[[8]]⟩,⟨⟨64,110,0,9,1⟩,some ⟨64,100,0,9,1⟩,[[9]]⟩]

def arrived (events : Events) (socket : List Read) : Option (List Seen) :=
  let c := run events (start tripConf 3 socket) 20
  if rests c then some (c.s.core.trace.map Delivery.seen) else none

theorem round_trip_loses :
    arrived rejectEvents (tripInput tripConf twoMessages true) = some ((twoMessages.take 1).map Message.seen) ∧
    arrived finalizeEvents (tripInput tripConf twoMessages true) = some ((twoMessages.take 1).map Message.seen) ∧
    arrived serverEvents (tripInput tripConf twoMessages true) = some ((twoMessages.take 1).map Message.seen) ∧
    arrived windowEvents (tripInput tripConf twoMessages false) = some ((twoMessages.take 1).map Message.seen) ∧
    arrived silentEvents (tripInput tripConf wrappedMessages true) =
      some [⟨64,9,1,100,[7]⟩,⟨64,9,1,500,[8]⟩,⟨64,9,1,510,[9]⟩] ∧
    twoMessages.map (Message.chain {tripConf with chunkSize:=0}) = [none,none] := by
  decide +kernel

end NgxRtmp.Recv
