import NgxRtmp.Lib.Octets

namespace NgxRtmp.Control
open Octets List

structure Message where
  type : Nat
  payload : List UInt8
  deriving DecidableEq, Repr

def msgChunkSize : Nat := 1
def msgAbort : Nat := 2
def msgAck : Nat := 3
def msgUser : Nat := 4
def msgAckSize : Nat := 5
def msgBandwidth : Nat := 6

def userStreamBegin : Nat := 0
def userStreamEof : Nat := 1
def userStreamDry : Nat := 2
def userSetBuflen : Nat := 3
def userRecorded : Nat := 4
def userPingRequest : Nat := 6
def userPingResponse : Nat := 7
def userStartHlsSlice : Nat := 32

-- NGX_RTMP_USER_OUT4 and NGX_RTMP_USER_OUT8. The two words of eight bytes go out
-- low word first.
def out4 (v : UInt32) : List UInt8 := [octet v 3,octet v 2,octet v 1,octet v 0]

def low (v : UInt64) : UInt32 := UInt32.ofNat v.toNat
def high (v : UInt64) : UInt32 := UInt32.ofNat (v.toNat/2^32)

def out8 (v : UInt64) : List UInt8 := out4 (low v) ++ out4 (high v)

def protocolMessage (type : Nat) (payload : List UInt8) : Message := ⟨type,payload⟩

-- NGX_RTMP_UCTL_START: the user event in two bytes in front of the payload.
def userMessage (utype : Nat) (payload : List UInt8) : Message :=
  ⟨msgUser,UInt8.ofNat (utype/256)::UInt8.ofNat utype::payload⟩

def createChunkSize (chunkSize : UInt32) : Message := protocolMessage msgChunkSize (out4 chunkSize)

-- The type is the one of a chunk size here as well.
def createAbort (csid : UInt32) : Message := protocolMessage msgChunkSize (out4 csid)

def createAck (seq : UInt32) : Message := protocolMessage msgAck (out4 seq)
def createAckSize (ackSize : UInt32) : Message := protocolMessage msgAckSize (out4 ackSize)
def createBandwidth (ackSize : UInt32) (limitType : UInt8) : Message := protocolMessage msgBandwidth (out4 ackSize ++ [limitType])
def createStreamBegin (msid : UInt32) : Message := userMessage userStreamBegin (out4 msid)
def createStreamEof (msid : UInt32) : Message := userMessage userStreamEof (out4 msid)
def createStreamDry (msid : UInt32) : Message := userMessage userStreamDry (out4 msid)
def createSetBuflen (msid buflen : UInt32) : Message := userMessage userSetBuflen (out4 msid ++ out4 buflen)

def createStartHlsSlice (msid : UInt32) (frag fragTs : UInt64) : Message :=
  userMessage userStartHlsSlice (out4 msid ++ out8 frag ++ out8 fragTs)

def createRecorded (msid : UInt32) : Message := userMessage userRecorded (out4 msid)
def createPingRequest (timestamp : UInt32) : Message := userMessage userPingRequest (out4 timestamp)
def createPingResponse (timestamp : UInt32) : Message := userMessage userPingResponse (out4 timestamp)

inductive Control where
  | chunkSize (val : UInt32)
  | abort (csid : UInt32)
  | ack (seq : UInt32)
  | ackSize (val : UInt32)
  | bandwidth (val : UInt32) (limit : UInt8)
  | streamBegin (msid : UInt32)
  | streamEof (msid : UInt32)
  | streamDry (msid : UInt32)
  | setBuflen (msid buflen : UInt32)
  | startHlsSlice (msid : UInt32) (frag fragTs : UInt64)
  | recorded (msid : UInt32)
  | pingRequest (timestamp : UInt32)
  | pingResponse (timestamp : UInt32)
  deriving DecidableEq

def create : Control → Message
  | .chunkSize val => createChunkSize val
  | .abort csid => createAbort csid
  | .ack seq => createAck seq
  | .ackSize val => createAckSize val
  | .bandwidth val limit => createBandwidth val limit
  | .streamBegin msid => createStreamBegin msid
  | .streamEof msid => createStreamEof msid
  | .streamDry msid => createStreamDry msid
  | .setBuflen msid buflen => createSetBuflen msid buflen
  | .startHlsSlice msid frag fragTs => createStartHlsSlice msid frag fragTs
  | .recorded msid => createRecorded msid
  | .pingRequest timestamp => createPingRequest timestamp
  | .pingResponse timestamp => createPingResponse timestamp

-- `ignored` is a short message or an unknown event, `overrun` a read behind the buffer.
inductive Outcome where
  | handled (control : Control)
  | ignored
  | failed
  | overrun
  deriving DecidableEq

def in4 (b : List UInt8) (offset : Nat) : UInt32 :=
  word (b.getD (offset+3) 0) (b.getD (offset+2) 0) (b.getD (offset+1) 0) (b.getD offset 0)

def in8 (b : List UInt8) (offset : Nat) : UInt64 := UInt64.ofNat ((in4 b offset).toNat+2^32*(in4 b (offset+4)).toNat)

def protocolMessageHandler (type : Nat) (b : List UInt8) : Outcome :=
  if b.length < 4 then .ignored
  else
    let val := in4 b 0
    if type = msgChunkSize then .handled (.chunkSize val)
    else if type = msgAbort then .handled (.abort val)
    else if type = msgAck then .handled (.ack val)
    else if type = msgAckSize then .handled (.ackSize val)
    else if type = msgBandwidth then
      if 5 ≤ b.length then .handled (.bandwidth val (b.getD 4 0)) else .ignored
    else .failed

-- The case of start_hls_slice has no test of the length.
def userMessageHandler (b : List UInt8) : Outcome :=
  if b.length < 6 then .ignored
  else
    let evt := (b.getD 1 0).toNat+256*(b.getD 0 0).toNat
    let val := in4 b 2
    if evt = userStreamBegin then .handled (.streamBegin val)
    else if evt = userStreamEof then .handled (.streamEof val)
    else if evt = userStreamDry then .handled (.streamDry val)
    else if evt = userStartHlsSlice then
      if b.length < 22 then .overrun else .handled (.startHlsSlice val (in8 b 6) (in8 b 14))
    else if evt = userSetBuflen then
      if b.length < 10 then .ignored else .handled (.setBuflen val (in4 b 6))
    else if evt = userRecorded then .handled (.recorded val)
    else if evt = userPingRequest then .handled (.pingRequest val)
    else if evt = userPingResponse then .handled (.pingResponse val)
    else .ignored

def pmEvents : List Nat := [msgChunkSize,msgAbort,msgAck,msgAckSize,msgBandwidth]

def receive (m : Message) : Outcome :=
  if m.type ∈ pmEvents then protocolMessageHandler m.type m.payload
  else if m.type = msgUser then userMessageHandler m.payload
  else .ignored

theorem in4_front (v : UInt32) (rest : List UInt8) : in4 (out4 v ++ rest) 0 = v := word_octets

theorem in4_behind : in4 (b::bytes) (offset+1) = in4 bytes offset := rfl

theorem in4_skip : in4 (out4 v ++ rest) (offset+4) = in4 rest offset := rfl

theorem in8_behind : in8 (b::bytes) (offset+1) = in8 bytes offset := by
  unfold in8
  rw [in4_behind,Nat.add_right_comm,in4_behind]

theorem in8_skip : in8 (out4 v ++ rest) (offset+4) = in8 rest offset := by
  unfold in8
  rw [in4_skip,in4_skip]

theorem in8_front (v : UInt64) (rest : List UInt8) : in8 (out8 v ++ rest) 0 = v := by
  have bound := v.toNat_lt
  unfold in8 out8
  rw [append_assoc,in4_front,in4_skip,in4_front]
  apply UInt64.toNat_inj.mp
  simp only [low,high,UInt64.toNat_ofNat',UInt32.toNat_ofNat']
  omega

theorem in8_next : in8 (out8 v ++ rest) (offset+8) = in8 rest offset := by
  unfold out8
  rw [append_assoc,in8_skip,in8_skip]

theorem slice_fields :
    in8 (a::b::(out4 msid ++ out8 frag ++ out8 fragTs)) 6 = frag ∧ in8 (a::b::(out4 msid ++ out8 frag ++ out8 fragTs)) 14 = fragTs := by
  rw [append_assoc]
  constructor
  · rw [in8_behind,in8_behind,in8_skip,in8_front]
  · have second := in8_front fragTs []
    rw [in8_behind,in8_behind,in8_skip,in8_next]
    simpa using second

theorem receive_create (c : Control) (other : ∀ csid, c ≠ .abort csid) : receive (create c) = .handled c := by
  cases c with
  | abort csid => exact absurd rfl (other csid)
  | chunkSize val => exact congrArg (fun v => Outcome.handled (.chunkSize v)) (in4_front val [])
  | ack seq => exact congrArg (fun v => Outcome.handled (.ack v)) (in4_front seq [])
  | ackSize val => exact congrArg (fun v => Outcome.handled (.ackSize v)) (in4_front val [])
  | bandwidth val limit => exact congrArg (fun v => Outcome.handled (.bandwidth v limit)) (in4_front val [limit])
  | streamBegin msid => exact congrArg (fun v => Outcome.handled (.streamBegin v)) (in4_front msid [])
  | streamEof msid => exact congrArg (fun v => Outcome.handled (.streamEof v)) (in4_front msid [])
  | streamDry msid => exact congrArg (fun v => Outcome.handled (.streamDry v)) (in4_front msid [])
  | setBuflen msid buflen =>
    have first := in4_front msid (out4 buflen)
    have second : in4 (out4 buflen) 0 = buflen := in4_front buflen []
    change Outcome.handled (.setBuflen (in4 (out4 msid ++ out4 buflen) 0) (in4 (out4 buflen) 0)) = _
    rw [first,second]
  | startHlsSlice msid frag fragTs =>
    obtain ⟨first,second⟩ := slice_fields
    have id := in4_front msid (out8 frag ++ out8 fragTs)
    change Outcome.handled (.startHlsSlice (in4 (out4 msid ++ (out8 frag ++ out8 fragTs)) 0)
      (in8 (0::32::(out4 msid ++ out8 frag ++ out8 fragTs)) 6) (in8 (0::32::(out4 msid ++ out8 frag ++ out8 fragTs)) 14)) = _
    rw [id,first,second]
  | recorded msid => exact congrArg (fun v => Outcome.handled (.recorded v)) (in4_front msid [])
  | pingRequest timestamp => exact congrArg (fun v => Outcome.handled (.pingRequest v)) (in4_front timestamp [])
  | pingResponse timestamp => exact congrArg (fun v => Outcome.handled (.pingResponse v)) (in4_front timestamp [])

-- An abort is taken for a chunk size.
theorem receive_abort : receive (create (.abort csid)) = .handled (.chunkSize csid) :=
  receive_create (.chunkSize csid) fun _ same => by cases same

theorem control_round_trip (c : Control) : receive (create c) = .handled c ↔ ∀ csid, c ≠ .abort csid := by
  refine ⟨fun same csid aborts => ?_,receive_create c⟩
  rw [aborts,receive_abort] at same
  cases same

theorem abort_sets_chunk_size : receive (create (.abort 5)) = .handled (.chunkSize 5) ∧ receive (create (.abort 5)) ≠ .handled (.abort 5) := by
  decide

-- The first buffer alone is read, with `beyond` in the memory behind it.
def invoked (b : List UInt8) (beyond : Nat → UInt8) : Option Control :=
  match userMessageHandler b with
  | .handled control => some control
  | .overrun =>
    let memory := b ++ (range 22).map beyond
    some (.startHlsSlice (in4 memory 2) (in8 memory 6) (in8 memory 14))
  | _ => none

def event (message : List UInt8) : Nat := (message.getD 1 0).toNat+256*(message.getD 0 0).toNat

def layout (evt : Nat) : Nat := if evt = userStartHlsSlice then 22 else if evt = userSetBuflen then 10 else 6

structure Decoded (first : List UInt8) (rest : List (List UInt8)) : Prop where
  alone : ∀ here there, invoked first here = invoked first there
  short : (first ++ rest.flatten).length < layout (event (first ++ rest.flatten)) → ∀ beyond, invoked first beyond = none

theorem overrun_iff : userMessageHandler b = .overrun ↔ event b = userStartHlsSlice ∧ 6 ≤ b.length ∧ b.length < 22 := by
  unfold userMessageHandler event
  grind [userStreamBegin,userStreamEof,userStreamDry,userStartHlsSlice]

theorem handled_whole {control : Control} (handled : userMessageHandler b = .handled control) : layout (event b) ≤ b.length := by
  unfold userMessageHandler at handled
  unfold layout event
  grind [userStreamBegin,userStreamEof,userStreamDry,userStartHlsSlice,userSetBuflen]

theorem in8_digit : (in8 b offset).toNat/2^32 % 256 = (b.getD (offset+7) 0).toNat := by
  have bound := (in4 b offset).toNat_lt
  have high := (in4 b (offset+4)).toNat_lt
  have digit := (b.getD (offset+7) 0).toNat_lt
  have value := word_toNat (b.getD (offset+7) 0) (b.getD (offset+6) 0) (b.getD (offset+5) 0) (b.getD (offset+4) 0)
  change (in4 b (offset+4)).toNat = _ at value
  have small : (in4 b offset).toNat+2^32*(in4 b (offset+4)).toNat < 2^64 := by omega
  rw [in8,UInt64.toNat_ofNat',Nat.mod_eq_of_lt small]
  omega

theorem invoked_beyond (past : userMessageHandler b = .overrun) : invoked b (fun _ => 0) ≠ invoked b fun _ => 1 := by
  have short := (overrun_iff.mp past).2.2
  have last (c : UInt8) : (b ++ (range 22).map fun _ => c).getD 21 0 = c := by
    rw [getD_eq_getElem?_getD,getElem?_append_right (by omega),getElem?_map,getElem?_range (by omega)]
    rfl
  simp only [invoked,past]
  intro same
  injection same with same
  injection same with _ _ same
  have digit := congrArg (fun x => x.toNat/2^32 % 256) same
  simp only [in8_digit,last] at digit
  cases digit

-- Six bytes are enough for every event but the start of a slice.
theorem user_decoding_iff (first : List UInt8) (rest : List (List UInt8)) :
    Decoded first rest ↔ ¬(event first = userStartHlsSlice ∧ 6 ≤ first.length ∧ first.length < 22) := by
  rw [← overrun_iff]
  constructor
  · intro decoded past
    exact invoked_beyond past (decoded.alone _ _)
  · intro inside
    cases result : userMessageHandler first with
    | overrun => exact absurd result inside
    | ignored => exact ⟨fun _ _ => by simp [invoked,result],fun _ _ => by simp [invoked,result]⟩
    | failed => exact ⟨fun _ _ => by simp [invoked,result],fun _ _ => by simp [invoked,result]⟩
    | handled control =>
      refine ⟨fun _ _ => by simp [invoked,result],fun short => ?_⟩
      have whole := handled_whole result
      have six : 6 ≤ layout (event first) := by
        unfold layout
        split
        · decide
        · split <;> decide
      have same : event (first ++ rest.flatten) = event first := by
        simp only [event,getD_eq_getElem?_getD,getElem?_append_left (show 0 < first.length by omega),
          getElem?_append_left (show 1 < first.length by omega)]
      rw [same,length_append] at short
      omega

theorem slice_overrun : invoked [0,32,0,0,0,1] (fun _ => 0) = some (.startHlsSlice 1 0 0) ∧
    invoked [0,32,0,0,0,1] (fun _ => 1) = some (.startHlsSlice 1 0x0101010101010101 0x0101010101010101) := by
  decide

end NgxRtmp.Control
