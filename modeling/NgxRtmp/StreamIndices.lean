import NgxRtmp.Handling
import NgxRtmp.PendingData
import NgxRtmp.Lib.Runs

namespace NgxRtmp.Recv
open ChunkWriter ChunkHeader Cells List

-- A turn of ngx_rtmp_recv up to the call of ngx_rtmp_receive_message.
inductive Parsed where
  | turn (t : Turn)
  | message (s : Session) (socket : List Read)

def payloadParsed (s : Session) (a : Nat) (l : Locals) (socket : List Read) : Parsed :=
  let b := s.buf a
  let fsize := s.core.chan.fsize
  let size := b.last-b.pos
  if size < min fsize s.core.chunkSize then .turn (.next s {l with oldPos:=none,oldSize:=0} socket)
  else if s.core.chunkSize < fsize then
    .turn (.next (collect s a) {l with oldPos:=some (a,b.pos+s.core.chunkSize),oldSize:=size-s.core.chunkSize} socket)
  else .message s socket

def readHeaderParsed (s : Session) (a : Nat) (l : Locals) (socket : List Read) (fmt size : Nat) : Parsed :=
  let b := s.buf a
  match messageHead l.conf.publishTimeFix fmt s.core.chan ((bytesOf b).drop size) with
  | (chan,none) => .turn (.next {s with core:=s.core.setChan chan} {l with oldPos:=none,oldSize:=0} socket)
  | (chan,some more) =>
    let s := {s.setBuf a {b with pos:=size+more} with core:=s.core.setChan chan}
    if l.conf.maxMessage < chan.hdr.mlen.toNat then .turn (.stop s.finalize socket)
    else payloadParsed s a l socket

def parseParsed (s : Session) (a : Nat) (l : Locals) (socket : List Read) : Parsed :=
  if (s.buf a).pos = 0 then
    match basicHead (bytesOf (s.buf a)) with
    | none => .turn (.next s {l with oldPos:=none,oldSize:=0} socket)
    | some (fmt,csid,size) =>
      if l.conf.maxStreams ≤ csid then .turn (.stop s.finalize socket)
      else readHeaderParsed (if s.core.csid = 0 then linkOrphan s a csid else s) a l socket fmt size
  else payloadParsed s a l socket

def Parsed.finish (events : Events) (a : Nat) (l : Locals) : Parsed → Turn
  | .turn t => t
  | .message s socket => handle events s a l socket

theorem payload_parsed : payload events s a l socket = (payloadParsed s a l socket).finish events a l := by
  unfold payload payloadParsed
  dsimp only
  split
  · rfl
  · split <;> rfl

theorem readHeader_parsed :
    readHeader events s a l socket fmt size = (readHeaderParsed s a l socket fmt size).finish events a l := by
  unfold readHeader readHeaderParsed
  dsimp only
  rcases messageHead l.conf.publishTimeFix fmt s.core.chan ((bytesOf (s.buf a)).drop size) with ⟨chan,_ | more⟩
  · rfl
  · dsimp only
    split
    · rfl
    · exact payload_parsed

theorem parse_parsed : parse events s a l socket = (parseParsed s a l socket).finish events a l := by
  unfold parse parseParsed
  split
  · rcases basicHead (bytesOf (s.buf a)) with _ | ⟨fmt,csid,size⟩
    · rfl
    · dsimp only
      split
      · rfl
      · exact readHeader_parsed
  · exact payload_parsed

def effectIndices (s : Session) : Effect → List Nat
  | .chunkSize _ => 0::List.range' 1 (s.core.cscf.maxStreams-1)
  | _ => []

def effectsIndices : Session → List Effect → List Nat
  | _,[] => []
  | s,effect::rest => effectIndices s effect ++ effectsIndices (applyEffect s effect) rest

def handlersIndices (history : List Delivery) (d : Delivery) : List Handler → Session → List Nat
  | [],_ => []
  | handler::rest,s =>
    let (code,effects) := handler history d
    effectsIndices s effects ++
      match code with
      | .ok => handlersIndices history d rest (effects.foldl applyEffect s)
      | _ => []

def handed (s : Session) (a : Nat) : Delivery :=
  ⟨{s.core.chan.hdr with timestamp:=s.core.chan.hdr.timestamp+s.core.chan.dtime},
    ((handing s a).heap.follow ((handing s a).heap.top+1) (s.heap.next a)).map fun x => ((handing s a).buf x).contents⟩

-- From the handlers on; the used buffers go to stream #0 unless the chunk size is changing.
def messageIndices (events : Events) (s : Session) (a : Nat) : List Nat :=
  let d := handed s a
  handlersIndices s.core.trace d (handlersOf events d) {handing s a with core:=(handing s a).core.log d} ++
    match receiveMessage events (handing s a) d with
    | (t,true) => if t.core.changing then [] else [0]
    | _ => []

def linkIndices (s : Session) (a : Nat) (l : Locals) : List Nat :=
  if (s.buf a).pos = 0 then
    match basicHead (bytesOf (s.buf a)) with
    | none => []
    | some (_,csid,_) => if l.conf.maxStreams ≤ csid then [] else if s.core.csid = 0 then [csid] else []
  else []

def indices (events : Events) (c : Config) : List Nat :=
  match c.loop with
  | none => []
  | some l =>
    let (a,s) := acquire c.s
    c.s.core.csid::match fill s a l c.socket with
      | .stop _ _ => []
      | .ready s socket => linkIndices s a l ++
        match parseParsed s a l socket with
        | .turn _ => []
        | .message s _ => messageIndices events s a

theorem handle_handed :
    handle events s a l socket = match receiveMessage events (handing s a) (handed s a) with
      | (t,false) => .stop t.finalize socket
      | (t,true) => .next (settle t a s.core.csid (s.heap.next a) ((s.buf a).last-(s.buf a).pos-s.core.chan.fsize))
          ⟨l.conf,some (a,(s.buf a).pos+s.core.chan.fsize),(s.buf a).last-(s.buf a).pos-s.core.chan.fsize⟩ socket := rfl

def Core.indexed (limit : Nat) (c : Core) : Prop := c.csid < limit ∧ c.cscf.maxStreams ≤ limit

def Turn.indexed (limit : Nat) : Turn → Prop
  | .next s l _ => s.core.indexed limit ∧ l.conf.maxStreams ≤ limit
  | .stop s _ => s.core.indexed limit

def Parsed.indexed (limit : Nat) : Parsed → Prop
  | .turn t => t.indexed limit
  | .message s _ => s.core.indexed limit

theorem repackStream_core : (repackStream s n).core = s.core := by
  unfold repackStream
  split
  · rfl
  · dsimp only
    split <;> rfl

theorem setChunkSize_core : (setChunkSize s size).core = {s.core with chunkSize:=size,changing:=true} := by
  unfold setChunkSize
  dsimp only
  generalize List.range' 1 _ = streams
  generalize begun : Session.setLink {s with core:={s.core with chunkSize:=size,changing:=true}} 0 none = t
  have core : t.core = {s.core with chunkSize:=size,changing:=true} := by
    rw [←begun]
    rfl
  clear begun
  induction streams generalizing t with
  | nil => exact core
  | cons n rest ih => exact ih (repackStream t n) (repackStream_core.trans core)

theorem applyEffect_indexed (s : Session) (effect : Effect) (indexed : s.core.indexed limit)
    (known : ∀ conf, effect = .server conf → conf.maxStreams ≤ limit) : (applyEffect s effect).core.indexed limit := by
  cases effect with
  | chunkSize size =>
    change (setChunkSize s size).core.indexed limit
    rw [setChunkSize_core]
    exact indexed
  | ackSize value => exact indexed
  | server conf => exact ⟨indexed.1,known conf rfl⟩
  | finalize => exact indexed

theorem effectIndices_below (effect : Effect) (indexed : s.core.indexed limit) (used : i ∈ effectIndices s effect) :
    i < limit := by
  obtain ⟨csid,streams⟩ := indexed
  cases effect with
  | chunkSize size =>
    simp only [effectIndices,mem_cons,mem_range'_1] at used
    omega
  | _ => cases used

theorem effects_indexed (effects : List Effect) (s : Session) (indexed : s.core.indexed limit)
    (known : ∀ conf, .server conf ∈ effects → conf.maxStreams ≤ limit) :
    (effects.foldl applyEffect s).core.indexed limit ∧ ∀ i ∈ effectsIndices s effects, i < limit := by
  induction effects generalizing s with
  | nil => exact ⟨indexed,fun i used => by cases used⟩
  | cons effect rest ih =>
    have after := applyEffect_indexed s effect indexed fun conf same => known conf (same ▸ mem_cons_self)
    obtain ⟨ended,below⟩ := ih _ after fun conf inside => known conf (mem_cons_of_mem _ inside)
    refine ⟨ended,fun i used => ?_⟩
    rcases mem_append.mp used with here | later
    · exact effectIndices_below effect indexed here
    · exact below i later

theorem handlers_indexed (history : List Delivery) (d : Delivery) (handlers : List Handler) (s : Session) (indexed : s.core.indexed limit)
    (known : ∀ handler ∈ handlers, ∀ conf, .server conf ∈ (handler history d).2 → conf.maxStreams ≤ limit) :
    (callHandlers applyEffect history d handlers s).1.core.indexed limit ∧
      ∀ i ∈ handlersIndices history d handlers s, i < limit := by
  induction handlers generalizing s with
  | nil => exact ⟨indexed,fun i used => by cases used⟩
  | cons handler rest ih =>
    obtain ⟨ended,below⟩ := effects_indexed (handler history d).2 s indexed (known handler mem_cons_self)
    obtain ⟨last,later⟩ := ih _ ended fun other inside => known other (mem_cons_of_mem _ inside)
    simp only [callHandlers,handlersIndices]
    rcases result : handler history d with ⟨code,effects⟩
    rw [result] at ended below last later
    cases code with
    | error => exact ⟨ended,by simpa using below⟩
    | done => exact ⟨ended,by simpa using below⟩
    | ok =>
      refine ⟨last,fun i used => ?_⟩
      rcases mem_append.mp used with here | there
      · exact below i here
      · exact later i there

theorem acquire_core : (acquire s).2.core = s.core := by
  unfold acquire
  cases s.links s.core.csid <;> rfl

def Filled.session : Filled → Session
  | .ready s _ => s
  | .stop s _ => s

theorem reuse_frame :
    (reuse s a oldPos oldSize).core.csid = s.core.csid ∧ (reuse s a oldPos oldSize).core.cscf = s.core.cscf := by
  have core : (reuse s a oldPos oldSize).core = if s.core.changing then finalizeSetChunkSize s.core else s.core := rfl
  rw [core]
  unfold finalizeSetChunkSize
  split
  · exact ⟨rfl,rfl⟩
  · exact ⟨rfl,rfl⟩

theorem fill_frame (s : Session) (a : Nat) (l : Locals) (socket : List Read) :
    (fill s a l socket).session.core.csid = s.core.csid ∧ (fill s a l socket).session.core.cscf = s.core.cscf := by
  unfold fill
  split
  · exact reuse_frame
  · generalize start : (if l.oldPos.isSome then s.setBuf a {s.buf a with pos:=0,last:=0} else s) = t
    have core : t.core = s.core := by
      rw [←start]
      split <;> rfl
    rw [←core]
    dsimp only
    rcases takeRead ((t.buf a).size-(t.buf a).last) socket with ⟨⟨bytes,acked⟩ | _ | _,rest⟩
    · obtain ⟨inBytes,inLastAck,frame⟩ := count_frame t.core
      dsimp only [Session.setBuf]
      rcases counted : t.core.count bytes.length acked with ⟨core,_ | _⟩
      · cases (congrArg Prod.fst counted).symm.trans frame
        exact ⟨rfl,rfl⟩
      · cases (congrArg Prod.fst counted).symm.trans frame
        exact ⟨rfl,rfl⟩
    · exact ⟨rfl,rfl⟩
    · exact ⟨rfl,rfl⟩

section Parse
variable {l : Locals}

theorem payload_indexed (positive : 0 < limit) (indexed : s.core.indexed limit) (streams : l.conf.maxStreams ≤ limit) : (payloadParsed s a l socket).indexed limit := by
  unfold payloadParsed
  dsimp only
  split
  · exact ⟨indexed,streams⟩
  · split
    · exact ⟨⟨positive,indexed.2⟩,streams⟩
    · exact indexed

theorem readHeader_indexed (s : Session) (a : Nat) (positive : 0 < limit) (indexed : s.core.indexed limit) (streams : l.conf.maxStreams ≤ limit)
    (socket : List Read) (fmt size : Nat) : (readHeaderParsed s a l socket fmt size).indexed limit := by
  unfold readHeaderParsed
  dsimp only
  rcases messageHead l.conf.publishTimeFix fmt s.core.chan ((bytesOf (s.buf a)).drop size) with ⟨chan,_ | more⟩
  · exact ⟨indexed,streams⟩
  · dsimp only
    split
    · exact indexed
    · refine payload_indexed positive ?_ streams
      exact indexed

theorem parse_indexed (s : Session) (a : Nat) (positive : 0 < limit) (indexed : s.core.indexed limit) (streams : l.conf.maxStreams ≤ limit)
    (socket : List Read) : (parseParsed s a l socket).indexed limit ∧ ∀ i ∈ linkIndices s a l, i < limit := by
  unfold parseParsed linkIndices
  split
  · rcases basicHead (bytesOf (s.buf a)) with _ | ⟨fmt,csid,size⟩
    · exact ⟨⟨indexed,streams⟩,fun i used => by cases used⟩
    · dsimp only
      split
      · exact ⟨indexed,fun i used => by cases used⟩
      · rename_i known
        have below : csid < limit := by omega
        split
        · refine ⟨readHeader_indexed (linkOrphan s a csid) a positive ⟨below,indexed.2⟩ streams socket fmt size,fun i used => ?_⟩
          rwa [mem_singleton.mp used]
        · exact ⟨readHeader_indexed _ a positive indexed streams socket fmt size,fun i used => by cases used⟩
  · exact ⟨payload_indexed positive indexed streams,fun i used => by cases used⟩

end Parse

def Selects (servers : List SrvConf) (events : Events) : Prop :=
  ∀ type, ∀ handler ∈ events type, ∀ history d conf, Effect.server conf ∈ (handler history d).2 → conf ∈ servers

theorem Selects.handlers (selects : Selects servers events) (member : handler ∈ handlersOf events d) (chosen : Effect.server conf ∈ (handler history d).2) : conf ∈ servers := by
  unfold handlersOf at member
  split at member
  · cases member
  · exact selects _ handler member history d conf chosen

theorem settle_frame {head : Option Nat} :
    (settle s a csid head oldSize).core.csid = 0 ∧ (settle s a csid head oldSize).core.cscf = s.core.cscf := by
  unfold settle finalizeSetChunkSize
  by_cases changing : s.core.changing = true
  · by_cases ended : oldSize = 0
    · simp [changing,ended]
    · simp [changing,ended]
  · simp [changing]

theorem handle_indexed {l : Locals} (positive : 0 < limit)
    (indexed : s.core.indexed limit) (streams : l.conf.maxStreams ≤ limit) (selects : Selects servers events)
    (small : ∀ conf ∈ servers, conf.maxStreams ≤ limit) :
    (handle events s a l socket).indexed limit ∧ ∀ i ∈ messageIndices events s a, i < limit := by
  obtain ⟨after,below⟩ := handlers_indexed s.core.trace (handed s a) (handlersOf events (handed s a))
    {handing s a with core:=(handing s a).core.log (handed s a)} indexed
    fun handler member conf chosen => small conf (selects.handlers member chosen)
  rw [handle_handed]
  unfold messageIndices
  have received : receiveMessage events (handing s a) (handed s a) = callHandlers applyEffect s.core.trace (handed s a)
      (handlersOf events (handed s a)) {handing s a with core:=(handing s a).core.log (handed s a)} := rfl
  dsimp only
  rw [received]
  generalize callHandlers applyEffect s.core.trace (handed s a) (handlersOf events (handed s a)) _ = result at after ⊢
  rcases result with ⟨t,_ | _⟩
  · exact ⟨after,by simpa using below⟩
  · refine ⟨⟨?_,streams⟩,fun i used => ?_⟩
    · obtain ⟨csid,cscf⟩ := settle_frame
      exact ⟨csid ▸ positive,cscf ▸ after.2⟩
    · rcases mem_append.mp used with here | zero
      · exact below i here
      · dsimp only at zero
        split at zero
        · cases zero
        · rwa [mem_singleton.mp zero]

structure Indexed (limit : Nat) (c : Config) : Prop where
  session : c.s.core.indexed limit
  loop : ∀ l ∈ c.loop, l.conf.maxStreams ≤ limit

theorem step_indexed (positive : 0 < limit) (selects : Selects servers events)
    (small : ∀ conf ∈ servers, conf.maxStreams ≤ limit) (c : Config) (indexed : Indexed limit c) :
    Indexed limit (step events c) ∧ ∀ i ∈ indices events c, i < limit := by
  obtain ⟨s,_ | l,socket⟩ := c
  · refine ⟨?_,fun i used => by cases used⟩
    unfold step
    dsimp only
    split
    · exact indexed
    · exact ⟨indexed.session,fun l here => by cases here; exact indexed.session.2⟩
  · have streams := indexed.loop l rfl
    have start := indexed.session
    have held : (acquire s).2.core.indexed limit := by
      rw [acquire_core]
      exact start
    have frame := fill_frame (acquire s).2 (acquire s).1 l socket
    unfold step turn indices
    dsimp only
    generalize fill (acquire s).2 (acquire s).1 l socket = filled at frame ⊢
    generalize (acquire s).1 = a
    have full : filled.session.core.indexed limit := ⟨frame.1 ▸ held.1,frame.2 ▸ held.2⟩
    cases filled with
    | stop t rest =>
      refine ⟨⟨full,fun l here => by cases here⟩,fun i used => ?_⟩
      rw [mem_singleton.mp used]
      exact start.1
    | ready t rest =>
      obtain ⟨parsed,linked⟩ := parse_indexed t a positive full streams rest
      have result : (parse events t a l rest).indexed limit ∧ ∀ i ∈ (match parseParsed t a l rest with
          | .turn _ => [] | .message u _ => messageIndices events u a), i < limit := by
        rw [parse_parsed]
        generalize parseParsed t a l rest = stage at parsed ⊢
        cases stage with
        | turn t => exact ⟨parsed,fun i used => by cases used⟩
        | message u rest => exact handle_indexed positive parsed streams selects small
      refine ⟨?_,fun i used => ?_⟩
      · have done := result.1
        dsimp only
        generalize parse events t a l rest = turned at done ⊢
        cases turned with
        | next u l rest => exact ⟨done.1,fun l here => by cases here; exact done.2⟩
        | stop u rest => exact ⟨done,fun l here => by cases here⟩
      · rcases mem_cons.mp used with rfl | later
        · exact start.1
        · rcases mem_append.mp later with link | message
          · exact linked i link
          · exact result.2 i message

-- No basic header names a chunk stream then, so no message is ever received.
structure Unheard (conf : SrvConf) (s : Session) : Prop where
  csid : s.core.csid = 0
  server : s.core.cscf = conf
  fresh : ∀ a, s.links 0 = some a → (s.buf a).pos = 0

theorem acquire_unheard (unheard : Unheard conf s) : Unheard conf (acquire s).2 ∧ (acquire s).2.links 0 = some (acquire s).1 := by
  obtain ⟨csid,server,fresh⟩ := unheard
  unfold acquire
  rw [csid]
  cases found : s.links 0 with
  | some a => exact ⟨⟨csid,server,fresh⟩,found⟩
  | none =>
    dsimp only
    refine ⟨⟨csid,server,fun a held => ?_⟩,Function.update_self ..⟩
    dsimp only at held
    rw [Function.update_self] at held
    cases held
    change ((s.heap.alloc (allocInBuf s.core.chunkSize)).val s.heap.top).pos = 0
    rw [alloc_val,if_pos rfl]
    rfl

theorem fill_unheard (unheard : Unheard conf s) (found : s.links 0 = some a) :
    Unheard conf (fill s a ⟨conf,none,0⟩ socket).session ∧ (fill s a ⟨conf,none,0⟩ socket).session.links 0 = some a := by
  obtain ⟨csid,server⟩ := fill_frame s a ⟨conf,none,0⟩ socket
  have links : (fill s a ⟨conf,none,0⟩ socket).session.links = s.links ∧
      ((fill s a ⟨conf,none,0⟩ socket).session.buf a).pos = 0 := by
    unfold fill
    simp only [ne_eq,not_true,if_false,Option.isSome_none,Bool.false_eq_true]
    rcases takeRead ((s.buf a).size-(s.buf a).last) socket with ⟨⟨bytes,acked⟩ | _ | _,rest⟩
    · have pos : ((s.heap.setVal a ((s.buf a).append bytes)).val a).pos = 0 := by
        rw [setVal_val,if_pos rfl]
        exact unheard.fresh a found
      dsimp only
      split
      · exact ⟨rfl,pos⟩
      · exact ⟨rfl,pos⟩
    · exact ⟨rfl,unheard.fresh a found⟩
    · exact ⟨rfl,unheard.fresh a found⟩
  refine ⟨⟨csid.trans unheard.csid,server.trans unheard.server,fun b held => ?_⟩,by rw [links.1]; exact found⟩
  rw [links.1,found] at held
  cases held
  exact links.2

structure Muted (conf : SrvConf) (c : Config) : Prop where
  session : Unheard conf c.s
  loop : ∀ l ∈ c.loop, l = ⟨conf,none,0⟩

theorem step_muted (few : conf.maxStreams ≤ 2) (events : Events) (c : Config) (muted : Muted conf c) :
    Muted conf (step events c) ∧ ∀ i ∈ indices events c, i = 0 := by
  obtain ⟨unheard,loop⟩ := muted
  obtain ⟨s,_ | l,socket⟩ := c
  · refine ⟨?_,fun i used => by cases used⟩
    unfold step
    dsimp only
    split
    · exact ⟨unheard,loop⟩
    · refine ⟨unheard,fun l here => ?_⟩
      cases here
      rw [unheard.server]
  · cases loop l rfl
    obtain ⟨held,found⟩ := acquire_unheard unheard
    obtain ⟨full,still⟩ := fill_unheard held found
    unfold step turn indices
    dsimp only
    generalize fill (acquire s).2 (acquire s).1 ⟨conf,none,0⟩ socket = filled at full still ⊢
    generalize (acquire s).1 = a at still ⊢
    cases filled with
    | stop t rest =>
      refine ⟨⟨full,fun l here => by cases here⟩,fun i used => ?_⟩
      rw [mem_singleton.mp used]
      exact unheard.csid
    | ready t rest =>
      have pos : (t.buf a).pos = 0 := full.fresh a still
      dsimp only
      unfold parse parseParsed linkIndices
      rw [if_pos pos,if_pos pos,if_pos pos]
      rcases head : basicHead (bytesOf (t.buf a)) with _ | ⟨fmt,csid,size⟩
      · refine ⟨⟨full,fun l here => by cases here; rfl⟩,fun i used => ?_⟩
        rw [mem_singleton.mp used]
        exact unheard.csid
      · have bounds := basicHead_parts head
        have big : conf.maxStreams ≤ csid := by omega
        dsimp only
        rw [if_pos big,if_pos big,if_pos big]
        refine ⟨⟨⟨full.csid,full.server,full.fresh⟩,fun l here => by cases here⟩,fun i used => ?_⟩
        rw [mem_singleton.mp used]
        exact unheard.csid

def Safe (servers : List SrvConf) (conf : SrvConf) : Prop :=
  0 < conf.maxStreams ∧ (2 < conf.maxStreams → ∀ other ∈ servers, other.maxStreams ≤ conf.maxStreams)

instance (servers : List SrvConf) (conf : SrvConf) : Decidable (Safe servers conf) :=
  inferInstanceAs (Decidable (_ ∧ (_ → _)))

theorem run_keeps (events : Events) {P : Config → Prop} (kept : ∀ c, P c → P (step events c)) (n : Nat) (start : P c) :
    P (run events c n) :=
  Runs.run_invariant (fun c _ _ => kept c) start (Runs.along_always _ _)

theorem run_indices (safe : Safe servers conf) (selects : Selects servers events) (chunkSize : Nat) (socket : List Read)
    (turns : Nat) (used : i ∈ indices events (run events (start conf chunkSize socket) turns)) : i < conf.maxStreams := by
  by_cases few : conf.maxStreams ≤ 2
  · have begun : Muted conf (start conf chunkSize socket) :=
      ⟨⟨rfl,rfl,fun a held => by cases held⟩,fun l here => by cases here⟩
    have muted := run_keeps events (fun c now => (step_muted few events c now).1) turns begun
    rw [(step_muted few events _ muted).2 i used]
    exact safe.1
  · have small := safe.2 (by omega)
    have begun : Indexed conf.maxStreams (start conf chunkSize socket) :=
      ⟨⟨safe.1,le_rfl⟩,fun l here => by cases here⟩
    have indexed := run_keeps events (fun c now => (step_indexed safe.1 selects small c now).1) turns begun
    exact (step_indexed safe.1 selects small _ indexed).2 i used

theorem protocolMessageHandler_server : Effect.server conf ∉ (protocolMessageHandler history d).2 := by
  unfold protocolMessageHandler
  split
  · dsimp only
    split <;> simp
  · simp

-- A connect command that selects the server `other`, and Set Chunk Size.
def switchEvents (other : SrvConf) : Events := fun type =>
  if type = 20 then [fun _ _ => (.ok,[.server other])] else if type = 1 then [protocolMessageHandler] else []

theorem switch_selects : Selects [other] (switchEvents other) := by
  intro type handler inside history d conf chosen
  unfold switchEvents at inside
  split at inside
  · cases mem_singleton.mp inside
    cases mem_singleton.mp chosen
    exact mem_singleton_self _
  · split at inside
    · cases mem_singleton.mp inside
      exact absurd chosen protocolMessageHandler_server
    · cases inside

def connectInput : List UInt8 := [0x03,0,0,0,0,0,0,20,0,0,0,0]

def withStreams (n : Nat) : SrvConf := {sampleConf with maxStreams:=n}

-- A connect to a server with 'others' entries, and `input` in a later read.
def switchReads (input : List UInt8) : List Read := [.data connectInput true,.again,.data input true]

def switchRun (streams others : Nat) (input : List UInt8) : Config :=
  run (switchEvents (withStreams others)) (start (withStreams streams) 128 (switchReads input)) 4

def resizeInput : List UInt8 := [0x02,0,0,0,0,0,4,1,0,0,0,0,0,0,0,64]

theorem run_indices_switched : 15 ∈ indices (switchEvents (withStreams 16)) (switchRun 32 16 resizeInput) ∧ 15 < 32 := by
  have used : 15 ∈ indices (switchEvents (withStreams 16)) (switchRun 32 16 resizeInput) := by decide +kernel
  have safe : Safe [withStreams 16] (withStreams 32) := by decide +kernel
  exact ⟨used,run_indices safe switch_selects 128 (switchReads resizeInput) 4 used⟩

-- With 32 entries, Set Chunk Size goes through 64, and a chunk of chunk stream 40
-- is taken.
theorem switched_server_overruns :
    63 ∈ indices (switchEvents (withStreams 64)) (switchRun 32 64 resizeInput) ∧
      40 ∈ indices (switchEvents (withStreams 64)) (switchRun 32 64 [0x28,0,0,0,0,0,0,9,0,0,0,0]) := by
  decide +kernel

end NgxRtmp.Recv
