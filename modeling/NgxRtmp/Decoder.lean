import NgxRtmp.Recv
import NgxRtmp.Lib.Reading

namespace NgxRtmp.Decode
open ChunkWriter ChunkHeader Recv List Function

-- Too big a message, one more fragment, or the last one of a message.
inductive Chunk where
  | tooBig (rest : List UInt8)
  | fragment (st : Chan) (piece rest : List UInt8)
  | last (st : Chan) (piece rest : List UInt8)

-- `p` stands behind the basic header. Without a result the chunk is not complete.
def readChunk (conf : SrvConf) (chunkSize fmt : Nat) (st : Chan) (p : List UInt8) : Option Chunk :=
  match messageHead conf.publishTimeFix fmt st p with
  | (_,none) => none
  | (st,some more) =>
    if conf.maxMessage < st.hdr.mlen.toNat then some (.tooBig (p.drop more))
    else if (p.drop more).length < min st.fsize chunkSize then none
    else if chunkSize < st.fsize then
      some (.fragment {st with len:=st.len+UInt32.ofNat chunkSize} ((p.drop more).take chunkSize) ((p.drop more).drop chunkSize))
    else
      some (.last {st with len:=0,hdr:={st.hdr with timestamp:=st.hdr.timestamp+st.dtime}}
        ((p.drop more).take st.fsize) ((p.drop more).drop st.fsize))

-- The receiver between two chunks. It reads a chunk at once or not at all.
structure Decoder where
  chans : Nat → Chan
  chunks : Nat → List (List UInt8)
  trace : List Delivery
  dead : Bool

def Decoder.initial : Decoder := ⟨fun _ => .empty,fun _ => [],[],false⟩

-- h->csid is set before the header is read.
def named (csid : Nat) (st : Chan) : Chan := {st with hdr:={st.hdr with csid:=UInt32.ofNat csid}}

def accepts (history : List Delivery) (d : Delivery) : List Handler → Bool
  | [] => true
  | handler::rest =>
    match (handler history d).1 with
    | .error => false
    | .done => true
    | .ok => accepts history d rest

def Decoder.take (d : Decoder) (csid : Nat) (events : Events) : Chunk → Decoder × List UInt8
  | .tooBig rest => ({d with dead:=true},rest)
  | .fragment st piece rest =>
    ({d with chans:=update d.chans csid st,chunks:=update d.chunks csid (d.chunks csid ++ [piece])},rest)
  | .last st piece rest =>
    let message : Delivery := ⟨st.hdr,d.chunks csid ++ [piece]⟩
    (⟨update d.chans csid st,update d.chunks csid [],d.trace ++ [message],
      !accepts d.trace message (handlersOf events message)⟩,rest)

def Decoder.next (conf : SrvConf) (chunkSize : Nat) (events : Events) (d : Decoder) (bytes : List UInt8) :
    Option (Decoder × List UInt8) :=
  if d.dead then none
  else match basicHead bytes with
    | none => none
    | some (fmt,csid,size) =>
      if conf.maxStreams ≤ csid then some ({d with dead:=true},bytes.drop size)
      else (readChunk conf chunkSize fmt (named csid (d.chans csid)) (bytes.drop size)).map (d.take csid events)

theorem callHandlers_accepts (apply : σ → Effect → σ) (history : List Delivery) (d : Delivery) (handlers : List Handler) (s : σ) :
    (callHandlers apply history d handlers s).2 = accepts history d handlers := by
  induction handlers generalizing s with
  | nil => rfl
  | cons handler rest ih =>
    simp only [callHandlers,accepts]
    rcases handler history d with ⟨code,effects⟩
    cases code with
    | error => rfl
    | done => rfl
    | ok => exact ih _

def Chunk.more (tail : List UInt8) : Chunk → Chunk
  | .tooBig rest => .tooBig (rest ++ tail)
  | .fragment st piece rest => .fragment st piece (rest ++ tail)
  | .last st piece rest => .last st piece (rest ++ tail)

theorem readChunk_append (read : readChunk conf chunkSize fmt st p = some chunk) {tail : List UInt8} :
    readChunk conf chunkSize fmt st (p ++ tail) = some (chunk.more tail) := by
  unfold readChunk at read ⊢
  rcases head : messageHead conf.publishTimeFix fmt st p with ⟨chan,more⟩
  rw [head] at read
  cases more with
  | none => cases read
  | some more =>
    have within := (messageHead_size head).1
    have dropped : (p ++ tail).drop more = p.drop more ++ tail := drop_append_of_le_length within
    simp only [messageHead_append head,dropped] at read ⊢
    by_cases big : conf.maxMessage < chan.hdr.mlen.toNat
    · rw [if_pos big] at read ⊢
      cases read
      rfl
    · rw [if_neg big] at read ⊢
      by_cases short : (p.drop more).length < min chan.fsize chunkSize
      · rw [if_pos short] at read
        cases read
      · have enough : ¬(p.drop more ++ tail).length < min chan.fsize chunkSize := by
          rw [length_append]
          omega
        rw [if_neg short] at read
        rw [if_neg enough]
        by_cases fragment : chunkSize < chan.fsize
        · rw [if_pos fragment] at read ⊢
          cases read
          have room : chunkSize ≤ (p.drop more).length := by omega
          rw [take_append_of_le_length room,drop_append_of_le_length room]
          rfl
        · rw [if_neg fragment] at read ⊢
          cases read
          have room : chan.fsize ≤ (p.drop more).length := by omega
          rw [take_append_of_le_length room,drop_append_of_le_length room]
          rfl

theorem next_append (read : Decoder.next conf chunkSize events d bytes = some (e,rest)) {tail : List UInt8} :
    Decoder.next conf chunkSize events d (bytes ++ tail) = some (e,rest ++ tail) := by
  unfold Decoder.next at read ⊢
  by_cases dead : d.dead = true
  · rw [if_pos dead] at read
    cases read
  · rw [if_neg dead] at read ⊢
    cases head : basicHead bytes with
    | none =>
      rw [head] at read
      cases read
    | some parts =>
      obtain ⟨fmt,csid,size⟩ := parts
      have bounds := basicHead_parts head
      have dropped : (bytes ++ tail).drop size = bytes.drop size ++ tail := drop_append_of_le_length bounds.2.2.2.2
      simp only [head,basicHead_append head,dropped] at read ⊢
      by_cases big : conf.maxStreams ≤ csid
      · rw [if_pos big] at read ⊢
        cases read
        rfl
      · rw [if_neg big] at read ⊢
        obtain ⟨chunk,complete,taken⟩ := Option.map_eq_some_iff.mp read
        rw [readChunk_append complete]
        cases chunk with
        | tooBig left =>
          cases taken
          rfl
        | fragment st piece left =>
          cases taken
          rfl
        | last st piece left =>
          cases taken
          rfl

def Chunk.rest : Chunk → List UInt8
  | .tooBig rest => rest
  | .fragment _ _ rest => rest
  | .last _ _ rest => rest

theorem readChunk_rest (read : readChunk conf chunkSize fmt st p = some chunk) : chunk.rest.length ≤ p.length := by
  unfold readChunk at read
  split at read
  · cases read
  · split at read
    · cases read
      simp only [Chunk.rest,length_drop]
      omega
    · split at read
      · cases read
      · split at read
        · cases read
          simp only [Chunk.rest,length_drop]
          omega
        · cases read
          simp only [Chunk.rest,length_drop]
          omega

theorem take_rest (d : Decoder) (csid : Nat) (events : Events) (chunk : Chunk) : (d.take csid events chunk).2 = chunk.rest := by
  cases chunk <;> rfl

theorem next_shorter (read : Decoder.next conf chunkSize events d bytes = some (e,rest)) : rest.length < bytes.length := by
  unfold Decoder.next at read
  split at read
  · cases read
  · split at read
    · cases read
    · rename_i fmt csid size head
      have bounds := basicHead_parts head
      split at read
      · cases read
        rw [length_drop]
        omega
      · obtain ⟨chunk,complete,taken⟩ := Option.map_eq_some_iff.mp read
        have length := readChunk_rest complete
        rw [←take_rest d csid events chunk,taken,length_drop] at length
        change rest.length < bytes.length
        have same : (e,rest).2 = rest := rfl
        rw [same] at length
        omega

theorem next_room (alive : d.dead = false) (waits : Decoder.next conf chunkSize events d bytes = none) :
    bytes.length < chunkSize+maxChunkHeader := by
  unfold Decoder.next at waits
  rw [alive] at waits
  simp only [Bool.false_eq_true,if_false] at waits
  cases head : basicHead bytes with
  | none =>
    change bytes.length < chunkSize+18
    match bytes,head with
    | [],_ => simp
    | [_],_ => simp only [length_cons,length_nil]; omega
    | [_,_],_ => simp only [length_cons,length_nil]; omega
    | first::_::_::rest,head =>
      simp only [basicHead] at head
      split at head
      · cases head
      · split at head <;> cases head
  | some parts =>
    obtain ⟨fmt,csid,size⟩ := parts
    have bounds := basicHead_parts head
    simp only [head] at waits
    split at waits
    · cases waits
    · have none := Option.map_eq_none_iff.mp waits
      unfold readChunk at none
      rcases read : messageHead conf.publishTimeFix fmt (named csid (d.chans csid)) (bytes.drop size) with ⟨chan,more⟩
      rw [read] at none
      change bytes.length < chunkSize+18
      cases more with
      | none =>
        have short := (messageHead_restart read []).2
        rw [length_drop] at short
        omega
      | some more =>
        have within := (messageHead_size read).2
        simp only at none
        split at none
        · cases none
        · split at none
          · rename_i short
            simp only [length_drop] at short
            omega
          · split at none <;> cases none

end NgxRtmp.Decode
