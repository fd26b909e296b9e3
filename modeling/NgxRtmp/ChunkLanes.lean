import NgxRtmp.Decoder
import NgxRtmp.HeaderReadback
import NgxRtmp.Lib.Lanes

namespace NgxRtmp.Decode
open ChunkWriter ChunkHeader Recv Function List
open Lanes (run run_cons weave)

abbrev Lane := Chan × List (List UInt8)

def laneStep (conf : SrvConf) (chunkSize n : Nat) (lane : Lane) (bytes : List UInt8) : Option (Lane × List Delivery) :=
  match basicHead bytes with
  | none => none
  | some (fmt,csid,size) =>
    if csid = n ∧ n < conf.maxStreams then
      match readChunk conf chunkSize fmt (named n lane.1) (bytes.drop size) with
      | some (.fragment st piece []) => some ((st,lane.2 ++ [piece]),[])
      | some (.last st piece []) => some ((st,[]),[⟨st.hdr,lane.2 ++ [piece]⟩])
      | _ => none
    else none

inductive LaneRead (conf : SrvConf) (chunkSize n : Nat) (lane : Lane) (bytes : List UInt8) : Lane → List Delivery → Prop
  | fragment (head : basicHead bytes = some (fmt,n,size)) (known : n < conf.maxStreams)
      (read : readChunk conf chunkSize fmt (named n lane.1) (bytes.drop size) = some (.fragment st piece [])) :
      LaneRead conf chunkSize n lane bytes (st,lane.2 ++ [piece]) []
  | last (head : basicHead bytes = some (fmt,n,size)) (known : n < conf.maxStreams)
      (read : readChunk conf chunkSize fmt (named n lane.1) (bytes.drop size) = some (.last st piece [])) :
      LaneRead conf chunkSize n lane bytes (st,[]) [⟨st.hdr,lane.2 ++ [piece]⟩]

theorem laneStep_iff (conf : SrvConf) (chunkSize n : Nat) (lane next : Lane) (bytes : List UInt8) (out : List Delivery) :
    laneStep conf chunkSize n lane bytes = some (next,out) ↔ LaneRead conf chunkSize n lane bytes next out := by
  constructor
  · intro stepped
    unfold laneStep at stepped
    split at stepped
    · cases stepped
    · rename_i fmt csid size head
      split at stepped
      · rename_i own
        obtain ⟨rfl,known⟩ := own
        split at stepped
        · rename_i read
          cases stepped
          exact .fragment head known read
        · rename_i read
          cases stepped
          exact .last head known read
        · cases stepped
      · cases stepped
  · intro read
    cases read with
    | fragment head known read => simp only [laneStep,head,known,and_self,if_true,read]
    | last head known read => simp only [laneStep,head,known,and_self,if_true,read]

def Accepting (events : Events) : Prop := ∀ type, ∀ handler ∈ events type, ∀ history d, (handler history d).1 ≠ .error

theorem accepts_all (accepting : Accepting events) (history : List Delivery) (d : Delivery) :
    accepts history d (handlersOf events d) = true := by
  have each : ∀ handler ∈ handlersOf events d, (handler history d).1 ≠ .error := by
    unfold handlersOf
    intro handler member
    split at member
    · cases member
    · exact accepting _ handler member history d
  generalize handlersOf events d = handlers at each
  induction handlers with
  | nil => rfl
  | cons handler rest ih =>
    have first := each handler mem_cons_self
    have others := ih fun other member => each other (mem_cons_of_mem _ member)
    unfold accepts
    cases code : (handler history d).1 with
    | error => exact absurd code first
    | done => rfl
    | ok => exact others

theorem lane_next {d : Decoder} (accepting : Accepting events) (alive : d.dead = false)
    (read : LaneRead conf chunkSize n (d.chans n,d.chunks n) bytes lane out) (rest : List UInt8) :
    d.next conf chunkSize events (bytes ++ rest) =
      some (⟨update d.chans n lane.1,update d.chunks n lane.2,d.trace ++ out,false⟩,rest) := by
  have alone : d.next conf chunkSize events bytes =
      some (⟨update d.chans n lane.1,update d.chunks n lane.2,d.trace ++ out,false⟩,[]) := by
    cases read with
    | fragment head known read =>
      simp only [Decoder.next,alive,Bool.false_eq_true,if_false,head,Nat.not_le_of_lt known,read,Option.map_some,Decoder.take,
        append_nil]
    | last head known read =>
      simp only [Decoder.next,alive,Bool.false_eq_true,if_false,head,Nat.not_le_of_lt known,read,Option.map_some,Decoder.take,
        accepts_all accepting,Bool.not_true]
  exact next_append alone

theorem weave_reads {d : Decoder} (accepting : Accepting events) (alive : d.dead = false)
    (woven : weave (laneStep conf chunkSize) (fun n => (d.chans n,d.chunks n)) schedule = some (lanes,out)) :
    Reading.Reads (Decoder.next conf chunkSize events) d (schedule.map Prod.snd).flatten
      ⟨fun n => (lanes n).1,fun n => (lanes n).2,d.trace ++ out.map Prod.snd,false⟩ [] := by
  induction schedule generalizing d out with
  | nil =>
    cases woven
    obtain ⟨chans,chunks,trace,dead⟩ := d
    obtain rfl : dead = false := alive
    simp only [map_nil,append_nil]
    exact .refl
  | cons item schedule ih =>
    obtain ⟨n,bytes⟩ := item
    obtain ⟨⟨lane,now⟩,stepped,rest⟩ := Option.bind_eq_some_iff.mp woven
    obtain ⟨⟨after,later⟩,tail,result⟩ := Option.map_eq_some_iff.mp rest
    cases result
    have read := lane_next accepting alive ((laneStep_iff ..).mp stepped) (schedule.map Prod.snd).flatten
    refine .cons read ?_
    have split : (fun m => (update d.chans n lane.1 m,update d.chunks n lane.2 m)) =
        update (fun m => (d.chans m,d.chunks m)) n lane := by
      funext m
      by_cases own : m = n
      · subst own
        rw [update_self,update_self,update_self]
      · rw [update_of_ne own,update_of_ne own,update_of_ne own]
    have reads := ih (d:=⟨update d.chans n lane.1,update d.chunks n lane.2,d.trace ++ now,false⟩) rfl
      (show weave (laneStep conf chunkSize) (fun m => (update d.chans n lane.1 m,update d.chunks n lane.2 m)) schedule = _
        from split ▸ tail)
    rw [append_assoc] at reads
    rw [map_append,map_map,show (Prod.snd ∘ fun b => (n,b)) = (id : Delivery → Delivery) from rfl,map_id]
    exact reads

theorem readChunk_fragment (head : messageHead conf.publishTimeFix fmt st p = (chan,some more)) (dropped : p.drop more = piece)
    (small : chan.hdr.mlen.toNat ≤ conf.maxMessage) (full : piece.length = chunkSize) (fragment : chunkSize < chan.fsize) :
    readChunk conf chunkSize fmt st p = some (.fragment {chan with len:=chan.len+UInt32.ofNat chunkSize} piece []) := by
  have enough : ¬piece.length < min chan.fsize chunkSize := by omega
  unfold readChunk
  simp only [head,dropped,Nat.not_lt_of_le small,if_false,enough,fragment,if_true]
  rw [take_of_length_le (le_of_eq full),drop_eq_nil_of_le (le_of_eq full)]

def finish (st : Chan) : Chan := {st with len:=0,hdr:={st.hdr with timestamp:=st.hdr.timestamp+st.dtime}}

theorem readChunk_last (head : messageHead conf.publishTimeFix fmt st p = (chan,some more)) (dropped : p.drop more = piece)
    (small : chan.hdr.mlen.toNat ≤ conf.maxMessage) (whole : piece.length = chan.fsize) (fits : piece.length ≤ chunkSize) :
    readChunk conf chunkSize fmt st p = some (.last (finish chan) piece []) := by
  have enough : ¬piece.length < min chan.fsize chunkSize := by omega
  have last : ¬chunkSize < chan.fsize := by omega
  unfold readChunk
  simp only [head,dropped,Nat.not_lt_of_le small,if_false,enough,last]
  rw [take_of_length_le (le_of_eq whole),drop_eq_nil_of_le (le_of_eq whole)]
  rfl

structure Carries (conf : SrvConf) (n : Nat) : Prop where
  named : 2 ≤ n
  small : n < 65600
  known : n < conf.maxStreams

section Chunks
variable {conf : SrvConf} {chunkSize n fmt : Nat} {lane : Lane} {chan : Chan} {header piece : List UInt8}

theorem chunk_fragment (carries : Carries conf n) (format : fmt < 4)
    (head : messageHead conf.publishTimeFix fmt (named n lane.1) (header ++ piece) = (chan,some header.length))
    (small : chan.hdr.mlen.toNat ≤ conf.maxMessage) (full : piece.length = chunkSize) (fragment : chunkSize < chan.fsize) :
    laneStep conf chunkSize n lane (basicHeader fmt n ++ header ++ piece) =
      some (({chan with len:=chan.len+UInt32.ofNat chunkSize},lane.2 ++ [piece]),[]) := by
  rw [append_assoc]
  refine (laneStep_iff ..).mpr (.fragment (basicHead_read format carries.named carries.small _) carries.known ?_)
  rw [drop_left]
  exact readChunk_fragment head drop_left small full fragment

theorem chunk_last (carries : Carries conf n) (format : fmt < 4)
    (head : messageHead conf.publishTimeFix fmt (named n lane.1) (header ++ piece) = (chan,some header.length))
    (small : chan.hdr.mlen.toNat ≤ conf.maxMessage) (whole : piece.length = chan.fsize) (fits : piece.length ≤ chunkSize) :
    laneStep conf chunkSize n lane (basicHeader fmt n ++ header ++ piece) =
      some ((finish chan,[]),[⟨(finish chan).hdr,lane.2 ++ [piece]⟩]) := by
  rw [append_assoc]
  refine (laneStep_iff ..).mpr (.last (basicHead_read format carries.named carries.small _) carries.known ?_)
  rw [drop_left]
  exact readChunk_last head drop_left small whole fits

end Chunks

structure Midway (conf : SrvConf) (n : Nat) (timestamp : UInt32) (st : Chan) (xs : List UInt8) : Prop where
  csid : st.hdr.csid = UInt32.ofNat n
  begun : st.len ≠ 0
  left : st.len.toNat+xs.length = st.hdr.mlen.toNat
  small : st.hdr.mlen.toNat ≤ conf.maxMessage
  ext : st.ext = (extended timestamp && conf.publishTimeFix)

theorem Midway.fsize (midway : Midway conf n timestamp st xs) : st.fsize = xs.length := by
  have left := midway.left
  rw [fsize_eq st (by omega)]
  omega

theorem Midway.piece (midway : Midway conf n timestamp st (p ++ rest)) (full : p.length = chunkSize) :
    Midway conf n timestamp {st with len:=st.len+UInt32.ofNat chunkSize} rest := by
  have left := midway.left
  have bound := st.hdr.mlen.toNat_lt
  have begun : st.len.toNat ≠ 0 := fun zero => midway.begun (UInt32.toNat_inj.mp zero)
  rw [length_append] at left
  have len : (st.len+UInt32.ofNat chunkSize).toNat = st.len.toNat+chunkSize := by
    rw [UInt32.toNat_add,UInt32.toNat_ofNat']
    omega
  refine ⟨midway.csid,?_,?_,midway.small,midway.ext⟩
  · intro zero
    have none : (st.len+UInt32.ofNat chunkSize).toNat = 0 := congrArg UInt32.toNat zero
    omega
  · change (st.len+UInt32.ofNat chunkSize).toNat+rest.length = st.hdr.mlen.toNat
    omega

theorem named_self (csid : st.hdr.csid = UInt32.ofNat n) : named n st = st := by
  unfold named
  rw [←csid]

theorem rest_reads (carries : Carries conf n) (fix : conf.publishTimeFix = cscf.playTimeFix) (own : h.csid.toNat = n)
    (pieces : Pieces chunkSize xs ps) (midway : Midway conf n timestamp st xs) (before : List (List UInt8)) :
    run (laneStep conf chunkSize n) (st,before) (ps.map (nextHeader cscf h timestamp ++ ·)) =
      some ((finish st,[]),[⟨(finish st).hdr,before ++ ps⟩]) := by
  have header : ∀ piece, nextHeader cscf h timestamp ++ piece = basicHeader 3 n ++
      (if (splitTimestamp timestamp).2 ≠ 0 ∧ conf.publishTimeFix then extendedHeader (splitTimestamp timestamp).2 else []) ++ piece := by
    intro piece
    rw [←own,fix]
    rfl
  have head : ∀ st xs piece, Midway conf n timestamp st xs → messageHead conf.publishTimeFix 3 (named n st)
      ((if (splitTimestamp timestamp).2 ≠ 0 ∧ conf.publishTimeFix then extendedHeader (splitTimestamp timestamp).2 else []) ++ piece) =
      (st,some (if (splitTimestamp timestamp).2 ≠ 0 ∧ conf.publishTimeFix then
        extendedHeader (splitTimestamp timestamp).2 else []).length) := by
    intro st xs piece midway
    rw [named_self midway.csid]
    exact messageHead_again _ _ _ midway.begun midway.ext piece
  induction pieces generalizing st before with
  | last fits =>
    rename_i p
    rw [map_singleton,header]
    have read : laneStep conf chunkSize n (st,before) _ = _ :=
      chunk_last carries (by decide) (head _ _ p midway) midway.small midway.fsize.symm fits
    exact run_cons read rfl
  | more full some tail ih =>
    rename_i rest ps p
    have positive := length_pos_of_ne_nil some
    have fragment : chunkSize < st.fsize := by
      rw [midway.fsize,length_append]
      omega
    rw [map_cons,header]
    have read : laneStep conf chunkSize n (st,before) _ = _ :=
      chunk_fragment carries (by decide) (head _ _ p midway) midway.small full fragment
    refine run_cons read ?_
    have after := ih (midway.piece full) (before ++ [p])
    rw [append_assoc] at after
    exact after

-- Formats 2 and 3 stand for the length received last, format 3 has no timestamp at all.
structure InStep (st : Chan) (fmt : Nat) (mlen : UInt32) : Prop where
  between : st.len = 0
  length : 1 < fmt → st.hdr.mlen = mlen
  plain : fmt = 3 → st.ext = false

theorem chunkFormat_repeats (repeats : (chunkFormat h lh mlen).1 = 3) : extended (chunkFormat h lh mlen).2 = false := by
  cases lh with
  | none => cases repeats
  | some lh =>
    simp only [chunkFormat] at repeats ⊢
    split at repeats
    · rename_i follows
      split at repeats
      · split at repeats
        · rename_i same
          rw [if_pos follows,same,UInt32.sub_self]
          change extended 0 = false
          decide
        · cases repeats
      · cases repeats
    · cases repeats

theorem fields_len (fmt : Nat) (h : Header) (mlen : UInt32) (st : Chan) : (fields fmt h mlen st).len = st.len := by
  unfold fields
  split
  · rfl
  · split <;> rfl

theorem fields_mlen (known : fmt < 4) (length : 1 < fmt → st.hdr.mlen = mlen) : (fields fmt h mlen st).hdr.mlen = mlen := by
  unfold fields
  split
  · rfl
  · split
    · rfl
    · exact length (by omega)

theorem fields_csid (fmt : Nat) (h : Header) (mlen : UInt32) (st : Chan) : (fields fmt h mlen st).hdr.csid = st.hdr.csid := by
  unfold fields
  split
  · rfl
  · split <;> rfl

theorem headDone_fields (between : st.len = 0) :
    (headDone fix fmt ext timestamp st).hdr.mlen = st.hdr.mlen ∧ (headDone fix fmt ext timestamp st).hdr.csid = st.hdr.csid ∧
      (headDone fix fmt ext timestamp st).ext = (ext && fix) := by
  unfold headDone
  rw [if_pos between]
  split <;> exact ⟨rfl,rfl,rfl⟩

def opened (fix : Bool) (m : Message) (st : Chan) : Chan :=
  headDone fix m.fmt (extended m.field) (if m.fmt = 3 then st.dtime else m.field) (fields m.fmt m.h m.mlen (named m.h.csid.toNat st))

section Opened
variable {conf cscf : SrvConf} {m : Message} {st : Chan}

theorem opened_head (fix : Bool) (short : m.mlen.toNat < 2^24) (inStep : InStep st m.fmt m.mlen) (rest : List UInt8) :
    messageHead fix m.fmt (named m.h.csid.toNat st)
        (messageHeader m.fmt (splitTimestamp m.field).1 m.mlen m.h.type m.h.msid ++ extension m.field ++ rest) =
      (opened fix m st,some (messageHeader m.fmt (splitTimestamp m.field).1 m.mlen m.h.type m.h.msid ++ extension m.field).length) :=
  messageHead_read fix (chunkFormat_known ..) short m.h m.field (named m.h.csid.toNat st)
    (fun three => ⟨inStep.plain three,chunkFormat_repeats three⟩) rest

theorem opened_fields (inStep : InStep st m.fmt m.mlen) :
    (opened fix m st).len = 0 ∧ (opened fix m st).hdr.mlen = m.mlen ∧
      (opened fix m st).hdr.csid = UInt32.ofNat m.h.csid.toNat ∧ (opened fix m st).ext = (extended m.field && fix) := by
  have between : (fields m.fmt m.h m.mlen (named m.h.csid.toNat st)).len = 0 := (fields_len ..).trans inStep.between
  obtain ⟨mlen,csid,ext⟩ := headDone_fields between
  refine ⟨(headDone_len ..).trans between,mlen.trans ?_,csid.trans (fields_csid ..),ext⟩
  have length : 1 < m.fmt → (named m.h.csid.toNat st).hdr.mlen = m.mlen := inStep.length
  exact fields_mlen (chunkFormat_known ..) length

-- From the end of one message to the end of the next: the chunks of a message
-- deliver it once.
theorem message_reads (carries : Carries conf m.h.csid.toNat) (fix : conf.publishTimeFix = cscf.playTimeFix)
    (positive : 0 < chunkSize) (short : m.payload.length < 2^24) (small : m.payload.length ≤ conf.maxMessage)
    (inStep : InStep st m.fmt m.mlen) (pieces : Pieces chunkSize m.payload ps) :
    run (laneStep conf chunkSize m.h.csid.toNat) (st,[]) (chunksFor cscf m.h m.lh m.mlen ps) =
      some ((finish (opened conf.publishTimeFix m st),[]),[⟨(finish (opened conf.publishTimeFix m st)).hdr,ps⟩]) := by
  have known : m.fmt < 4 := chunkFormat_known ..
  have size : m.mlen.toNat = m.payload.length := by
    unfold Message.mlen
    rw [UInt32.toNat_ofNat']
    omega
  have head := opened_head conf.publishTimeFix (size ▸ short) inStep
  obtain ⟨len,mlen,csid,ext⟩ := opened_fields inStep
  generalize opened conf.publishTimeFix m st = chan at head len mlen csid ext ⊢
  have within : chan.hdr.mlen.toNat ≤ conf.maxMessage := by rwa [mlen,size]
  have whole : chan.fsize = m.payload.length := by
    unfold Chan.fsize
    rw [len,UInt32.sub_zero,mlen,size]
  have first : ∀ piece, firstHeader m.h m.fmt m.field m.mlen ++ piece = basicHeader m.fmt m.h.csid.toNat ++
      (messageHeader m.fmt (splitTimestamp m.field).1 m.mlen m.h.type m.h.msid ++ extension m.field) ++ piece := by
    intro piece
    rw [←append_assoc (basicHeader _ _)]
    rfl
  generalize m.payload = xs at pieces small short size whole
  cases pieces with
  | last fits =>
    change run _ _ [firstHeader m.h m.fmt m.field m.mlen ++ xs] = _
    rw [first]
    have read : laneStep conf chunkSize m.h.csid.toNat (st,[]) _ = _ := chunk_last carries known (head xs) within whole.symm fits
    exact run_cons read rfl
  | more full some tail =>
    rename_i rest ps p
    have left := length_pos_of_ne_nil some
    rw [length_append] at whole size short
    change run _ _ ((firstHeader m.h m.fmt m.field m.mlen ++ p)::ps.map (nextHeader cscf m.h m.field ++ ·)) = _
    rw [first]
    have read : laneStep conf chunkSize m.h.csid.toNat (st,[]) _ = _ :=
      chunk_fragment carries known (head p) within full (by omega)
    refine run_cons read ?_
    have count : (chan.len+UInt32.ofNat chunkSize).toNat = chunkSize := by
      rw [len,UInt32.zero_add,UInt32.toNat_ofNat']
      omega
    have midway : Midway conf m.h.csid.toNat m.field {chan with len:=chan.len+UInt32.ofNat chunkSize} rest := by
      refine ⟨csid,?_,?_,within,ext⟩
      · intro zero
        have none : (chan.len+UInt32.ofNat chunkSize).toNat = 0 := congrArg UInt32.toNat zero
        omega
      · change (chan.len+UInt32.ofNat chunkSize).toNat+rest.length = chan.hdr.mlen.toNat
        rw [count,mlen]
        omega
    exact rest_reads carries fix rfl tail midway [p]

end Opened

end NgxRtmp.Decode
