import NgxRtmp.Mp4Seek
import NgxRtmp.FlvPlayback

namespace NgxRtmp.Mp4Playback
open ChunkWriter PlayQueue Mp4 List
open Flv (readFile)
open FlvPlayback (csidOf put)

abbrev Kind := Flv.Track

-- ngx_rtmp_mp4_track_t: the tables, the first byte of its frames and the codec header.
structure Info where
  table : Mp4.Track
  fhdr : UInt8
  header : Option (List UInt8)

-- What the parser leaves of a file: one track of each type at most, in the order of ctx->tracks.
structure Movie where
  order : List Kind
  info : Kind → Info
  metadata : List UInt8

structure State where
  cursor : Kind → Cursor
  headerSent : Kind → Bool
  metaSent : Bool
  startTimestamp : UInt32
  epoch : UInt32

-- The time, the player's buffer, and for each send of the call whether there is room.
structure Env where
  now : UInt32
  buflen : UInt32
  room : Nat → Bool

structure Entry where
  message : Message
  sample : Option (Kind × Nat)

def buflenAddon : UInt32 := 1000
def maxFrames : Nat := 8
def bufferSize : Nat := 1048576

def toRtmpTimestamp (t : Mp4.Track) (ts : UInt32) : UInt32 := UInt32.ofNat (ts.toNat*1000/t.timeScale)

def State.timestamp (movie : Movie) (st : State) (track : Kind) : UInt32 :=
  toRtmpTimestamp (movie.info track).table (st.cursor track).timestamp

def metaEntry (movie : Movie) : Entry := ⟨⟨⟨csidAmf,0,0,msgAmfMeta,msid⟩,none,[movie.metadata]⟩,none⟩

def consider (movie : Movie) (st : State) (due : Option (Kind × UInt32)) (track : Kind) : Option (Kind × UInt32) :=
  if (st.cursor track).valid then
    match due with
    | none => some (track,st.timestamp movie track)
    | some (_,timestamp) => if st.timestamp movie track < timestamp then some (track,st.timestamp movie track) else due
  else due

def pick (movie : Movie) (st : State) : Option (Kind × UInt32) := movie.order.foldl (consider movie st) none

def messageHeader (track : Kind) (timestamp : UInt32) : Header := ⟨csidOf track,timestamp,0,track.type,msid⟩

def codecHeader (info : Info) : Kind → List UInt8
  | .audio => [info.fhdr,0]
  | .video => [info.fhdr ||| 0x10,0,0,0,0]

def headerEntry (info : Info) (track : Kind) (timestamp : UInt32) (header : List UInt8) : Entry :=
  ⟨⟨messageHeader track timestamp,none,[codecHeader info track,header]⟩,none⟩

-- The bytes in front of a frame. Only a track with a codec header has more than one.
def frameHeader (info : Info) (cr : Cursor) : Kind → List UInt8
  | .audio =>
    match info.header with
    | none => [info.fhdr]
    | some _ => [info.fhdr,1]
  | .video =>
    let first := info.fhdr ||| (if cr.key then 0x10 else if cr.delay ≠ 0 then 0x20 else 0x30)
    match info.header with
    | none => [first]
    | some _ =>
      let rdelay := toRtmpTimestamp info.table cr.delay
      [first,1,(rdelay >>> 16).toUInt8,(rdelay >>> 8).toUInt8,rdelay.toUInt8]

-- A message has the previous timestamp of the cursor for its last one, unless it is the first.
def frameEntry (info : Info) (cr : Cursor) (track : Kind) (timestamp : UInt32) (body : List UInt8) : Entry :=
  let h := messageHeader track timestamp
  let lh := {h with timestamp:=toRtmpTimestamp info.table cr.lastTimestamp}
  ⟨⟨h,if cr.notFirst then some lh else none,[frameHeader info cr track ++ body]⟩,some (track,cr.pos)⟩

-- ngx_read_file, whose offset is signed; none: fewer bytes than asked for, or an error
def readFrame (file : List UInt8) (cr : Cursor) : Option (List UInt8) :=
  let body := readFile file cr.size cr.offset.toNat
  if cr.offset.toNat < 2^63 ∧ body.length = cr.size then some body else none

def sendHeader (movie : Movie) (env : Env) (track : Kind) (timestamp : UInt32) (st : State) (sent : List Entry) :
    Option (State × List Entry) :=
  match (movie.info track).header with
  | none => some (st,sent)
  | some header =>
    if st.headerSent track then some (st,sent)
    else if env.room sent.length then
      some ({st with headerSent:=put st.headerSent track true},sent ++ [headerEntry (movie.info track) track timestamp header])
    else none

def State.advance (movie : Movie) (st : State) (track : Kind) : State :=
  {st with cursor:=put st.cursor track (next (movie.info track).table (st.cursor track)).2}

def goNext (movie : Movie) (track : Kind) (st : State) (sent : List Entry) : Option Rc × State × List Entry :=
  (if (next (movie.info track).table (st.cursor track)).1 then none else some .done,st.advance movie track,sent)

def sendFrame (movie : Movie) (file : List UInt8) (env : Env) (track : Kind) (timestamp : UInt32) (st : State) (sent : List Entry) :
    Option Rc × State × List Entry :=
  let cr := st.cursor track
  if bufferSize < cr.size+(frameHeader (movie.info track) cr track).length then goNext movie track st sent
  else
    match readFrame file cr with
    | none => goNext movie track st sent
    | some body =>
      if env.room sent.length then goNext movie track st (sent ++ [frameEntry (movie.info track) cr track timestamp body])
      else (some .again,st,sent)

def turn (movie : Movie) (file : List UInt8) (env : Env) (endTimestamp : UInt32) (st : State) (sent : List Entry) :
    Option Rc × State × List Entry :=
  match pick movie st with
  | none => (some .done,st,sent)
  | some (track,timestamp) =>
    if endTimestamp < timestamp then (some (.wait (timestamp-endTimestamp)),st,sent)
    else
      match sendHeader movie env track timestamp st sent with
      | none => (some .again,st,sent)
      | some (st,sent) => sendFrame movie file env track timestamp st sent

def sendLoop (movie : Movie) (file : List UInt8) (env : Env) (endTimestamp : UInt32) :
    Nat → State → List Entry → Rc × State × List Entry
  | 0,st,sent => (.ok,st,sent)
  | left+1,st,sent =>
    match turn movie file env endTimestamp st sent with
    | (some rc,st,sent) => (rc,st,sent)
    | (none,st,sent) => sendLoop movie file env endTimestamp left st sent

-- ngx_rtmp_mp4_send: the result, the state and the messages queued.
def mp4Send (movie : Movie) (file : List UInt8) (env : Env) (st : State) : Rc × State × List Entry :=
  if st.metaSent then
    let endTimestamp := st.startTimestamp+(env.now-st.epoch)+(env.buflen+buflenAddon)
    sendLoop movie file env endTimestamp maxFrames st []
  else if env.room 0 then (.ok,{st with metaSent:=true},[metaEntry movie])
  else (.again,st,[])

def seekVideo (movie : Movie) (timestamp : UInt32) (st : State) : UInt32 × State :=
  if .video ∈ movie.order then
    let st := {st with cursor:=put st.cursor .video (seekTrack (movie.info .video).table timestamp).2}
    (st.timestamp movie .video,st)
  else (timestamp,st)

def seekAudio (movie : Movie) (timestamp : UInt32) (st : State) : State :=
  if .audio ∈ movie.order then {st with cursor:=put st.cursor .audio (seekTrack (movie.info .audio).table timestamp).2} else st

def mp4Reset (st : State) : State := {st with cursor:=fun track => {st.cursor track with notFirst:=false}}

-- ngx_rtmp_mp4_seek; the results of the seeks are not looked at.
def mp4Seek (movie : Movie) (now timestamp : UInt32) (st : State) : State :=
  let (timestamp,st) := seekVideo movie timestamp st
  mp4Reset {seekAudio movie timestamp st with startTimestamp:=timestamp,epoch:=now}

-- A player that goes on after a stop has ngx_rtmp_mp4_send called again.
inductive Event where
  | send (env : Env)
  | start (now : UInt32)
  | stop (now : UInt32)

-- ngx_rtmp_mp4_start and ngx_rtmp_mp4_stop, and the log after each event
def step (movie : Movie) (file : List UInt8) : State × List Entry → Event → State × List Entry
  | (st,log),.send env =>
    let (_,st,sent) := mp4Send movie file env st
    (st,log ++ sent)
  | (st,log),.start now => ({st with epoch:=now},log)
  | (st,log),.stop now => ({st with startTimestamp:=st.startTimestamp+(now-st.epoch)},log)

def run (movie : Movie) (file : List UInt8) (st : State) (events : List Event) : State × List Entry :=
  events.foldl (step movie file) (st,[])

def heard (track : Kind) : Clocks → List Entry → List (Nat × UInt32)
  | _,[] => []
  | clocks,e::log =>
    let clocks := hear clocks e.message
    match e.sample with
    | none => heard track clocks log
    | some (kind,k) =>
      if kind = track then (k,(clocks e.message.h.csid).timestamp)::heard track clocks log else heard track clocks log

def Due (movie : Movie) (st : State) (track : Kind) : Prop := track ∈ movie.order ∧ (st.cursor track).valid = true

inductive Act (movie : Movie) (file : List UInt8) : State × List Entry → State × List Entry → Prop where
  | control (start epoch : UInt32) : Act movie file (st,log) ({st with startTimestamp:=start,epoch:=epoch},log)
  | metadata : Act movie file (st,log) ({st with metaSent:=true},log ++ [metaEntry movie])
  | header (track : Kind) (due : Due movie st track) (codec : (movie.info track).header = some header)
      (unsent : st.headerSent track = false) : Act movie file (st,log)
        ({st with headerSent:=put st.headerSent track true},
          log ++ [headerEntry (movie.info track) track (st.timestamp movie track) header])
  | frame (track : Kind) (due : Due movie st track)
      (announced : st.headerSent track = true ∨ (movie.info track).header = none)
      (body : readFrame file (st.cursor track) = some bytes) : Act movie file (st,log)
        (st.advance movie track,
          log ++ [frameEntry (movie.info track) (st.cursor track) track (st.timestamp movie track) bytes])
  | skipped (track : Kind) (due : Due movie st track)
      (announced : st.headerSent track = true ∨ (movie.info track).header = none)
      (reason : bufferSize < (st.cursor track).size+(frameHeader (movie.info track) (st.cursor track) track).length ∨
        readFrame file (st.cursor track) = none) : Act movie file (st,log) (st.advance movie track,log)

def Acts (movie : Movie) (file : List UInt8) : State × List Entry → State × List Entry → Prop := Relation.ReflTransGen (Act movie file)

theorem acts_trans (first : Acts movie file a b) (second : Acts movie file b c) : Acts movie file a c :=
  Relation.ReflTransGen.trans first second

theorem acts_one (act : Act movie file a b) : Acts movie file a b := Relation.ReflTransGen.single act

theorem acts_refl (a : State × List Entry) : Acts movie file a a := Relation.ReflTransGen.refl

theorem consider_due (known : ∀ kind time, due = some (kind,time) → Due movie st kind ∧ time = st.timestamp movie kind)
    (member : first ∈ movie.order) (chosen : consider movie st due first = some (track,timestamp)) :
    Due movie st track ∧ timestamp = st.timestamp movie track := by
  unfold consider at chosen
  split at chosen
  · rename_i valid
    cases due with
    | none =>
      cases chosen
      exact ⟨⟨member,valid⟩,rfl⟩
    | some old =>
      dsimp only at chosen
      split at chosen
      · cases chosen
        exact ⟨⟨member,valid⟩,rfl⟩
      · exact known track timestamp chosen
  · exact known track timestamp chosen

theorem pick_due (picked : pick movie st = some (track,timestamp)) : Due movie st track ∧ timestamp = st.timestamp movie track := by
  have all : ∀ (rest : List Kind) (due : Option (Kind × UInt32)), (∀ kind ∈ rest, kind ∈ movie.order) →
      (∀ kind time, due = some (kind,time) → Due movie st kind ∧ time = st.timestamp movie kind) →
      ∀ kind time, rest.foldl (consider movie st) due = some (kind,time) → Due movie st kind ∧ time = st.timestamp movie kind := by
    intro rest
    induction rest with
    | nil => intro due _ known; exact known
    | cons first rest ih =>
      intro due inside known
      apply ih
      · exact fun kind member => inside kind (mem_cons_of_mem _ member)
      · exact fun kind time => consider_due known (inside first mem_cons_self)
  exact all movie.order none (fun _ member => member) (fun _ _ none => nomatch none) track timestamp picked

theorem sendHeader_acts (due : Due movie st track)
    (went : sendHeader movie env track (st.timestamp movie track) st sent = some (st',sent')) :
    Acts movie file (st,log ++ sent) (st',log ++ sent') ∧ st'.cursor = st.cursor ∧
      (st'.headerSent track = true ∨ (movie.info track).header = none) := by
  unfold sendHeader at went
  split at went
  · rename_i none
    cases went
    exact ⟨acts_refl _,rfl,.inr none⟩
  · rename_i header codec
    split at went
    · rename_i already
      cases went
      exact ⟨acts_refl _,rfl,.inl already⟩
    · rename_i unsent
      split at went
      · cases went
        rw [← append_assoc]
        exact ⟨acts_one (.header track due codec (Bool.eq_false_iff.mpr unsent)),rfl,.inl (by simp [put])⟩
      · cases went

theorem sendFrame_acts (due : Due movie st track)
    (announced : st.headerSent track = true ∨ (movie.info track).header = none) :
    Acts movie file (st,log ++ sent)
      ((sendFrame movie file env track (st.timestamp movie track) st sent).2.1,
        log ++ (sendFrame movie file env track (st.timestamp movie track) st sent).2.2) := by
  unfold sendFrame goNext
  dsimp only
  split
  · rename_i big
    exact acts_one (.skipped track due announced (.inl big))
  · split
    · rename_i unread
      exact acts_one (.skipped track due announced (.inr unread))
    · rename_i bytes body
      split
      · dsimp only
        rw [← append_assoc]
        exact acts_one (.frame track due announced body)
      · exact acts_refl _

theorem turn_acts (movie : Movie) (file : List UInt8) (env : Env) (endTimestamp : UInt32) (st : State) (log sent : List Entry) :
    Acts movie file (st,log ++ sent)
      ((turn movie file env endTimestamp st sent).2.1,log ++ (turn movie file env endTimestamp st sent).2.2) := by
  unfold turn
  cases picked : pick movie st with
  | none => exact acts_refl _
  | some choice =>
    obtain ⟨track,timestamp⟩ := choice
    obtain ⟨due,rfl⟩ := pick_due picked
    dsimp only
    split
    · exact acts_refl _
    · cases went : sendHeader movie env track (st.timestamp movie track) st sent with
      | none => exact acts_refl _
      | some after =>
        obtain ⟨st',sent'⟩ := after
        obtain ⟨acts,same,announced⟩ := sendHeader_acts due went
        have stamp : st.timestamp movie track = st'.timestamp movie track := by
          unfold State.timestamp
          rw [same]
        have still : Due movie st' track := by
          unfold Due
          rw [same]
          exact due
        dsimp only
        rw [stamp]
        exact acts_trans acts (sendFrame_acts still announced)

theorem sendLoop_acts (movie : Movie) (file : List UInt8) (env : Env) (endTimestamp : UInt32) (log : List Entry) (left : Nat) :
    ∀ st sent, Acts movie file (st,log ++ sent)
      ((sendLoop movie file env endTimestamp left st sent).2.1,log ++ (sendLoop movie file env endTimestamp left st sent).2.2) := by
  induction left with
  | zero => intro st sent; exact acts_refl _
  | succ left ih =>
    intro st sent
    have acts := turn_acts movie file env endTimestamp st log sent
    rw [sendLoop]
    generalize turn movie file env endTimestamp st sent = turned at acts
    obtain ⟨rc,st',sent'⟩ := turned
    cases rc with
    | some rc => exact acts
    | none => exact acts_trans acts (ih st' sent')

theorem step_acts (movie : Movie) (file : List UInt8) (a : State × List Entry) (event : Event) :
    Acts movie file a (step movie file a event) := by
  obtain ⟨st,log⟩ := a
  cases event with
  | send env =>
    simp only [step]
    unfold mp4Send
    split
    · have acts := sendLoop_acts movie file env (st.startTimestamp+(env.now-st.epoch)+(env.buflen+buflenAddon)) log maxFrames st []
      rw [append_nil] at acts
      exact acts
    · split
      · exact acts_one .metadata
      · rw [append_nil]
        exact acts_refl _
  | start now => exact acts_one (.control st.startTimestamp now)
  | stop now => exact acts_one (.control _ st.epoch)

theorem run_acts (movie : Movie) (file : List UInt8) (events : List Event) (a : State × List Entry) :
    Acts movie file a (events.foldl (step movie file) a) := by
  induction events generalizing a with
  | nil => exact acts_refl a
  | cons event events ih => exact acts_trans (step_acts movie file a event) (ih _)

theorem run_keeps {P : State × List Entry → Prop} (keeps : ∀ a b, Act movie file a b → P a → P b) (st : State) (begins : P (st,[]))
    (events : List Event) : P (run movie file st events) := by
  have acts := run_acts movie file events (st,[])
  change Acts movie file (st,[]) (run movie file st events) at acts
  generalize run movie file st events = after at acts
  induction acts with
  | refl => exact begins
  | tail _ act ih => exact keeps _ _ act ih

end NgxRtmp.Mp4Playback
