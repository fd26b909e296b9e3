import NgxRtmp.RecordActs

namespace NgxRtmp.Record
open Octets Flv List

inductive Stored : List UInt8 → Tape → Prop where
  | blank : Stored [] ⟨[],false,session⟩
  | tape : Stored (encode 1 flags tags) ⟨tags,true,session⟩

inductive Follows (rctx : Rctx) (file : List UInt8) : Tape → Prop where
  | closed : rctx.opened = false → Follows rctx file ⟨tags,started,none⟩
  | waiting : rctx.opened = true → rctx.initialized = false → rctx.nframes = 0 → rctx.audio = false → rctx.video = false →
      rctx.timeShift = shift → rctx.offset = (if tags = [] then 0 else file.length) →
      Follows rctx file ⟨tags,started,some ⟨shift,none,[]⟩⟩
  | writing : rctx.opened = true → rctx.initialized = true → rctx.epoch = epoch → rctx.offset = file.length →
      rctx.audio = decide (Track.audio ∈ wrote) → rctx.video = decide (Track.video ∈ wrote) →
      (∀ track : Track, track ∈ wrote → ∃ tag ∈ tags, tag.type = track.type) →
      Follows rctx file ⟨tags,true,some ⟨shift,some epoch,wrote⟩⟩

structure Aligned (conf : Conf) (node : Node) : Prop where
  stored : Stored node.file (tapeOf (starts conf) node.log)
  follows : Follows node.rctx node.file (tapeOf (starts conf) node.log)

theorem tapeOf_snoc (sets : Message → Bool) (log : List Entry) (entry : Entry) :
    tapeOf sets (log ++ [entry]) = (tapeOf sets log).advance sets entry := by
  simp [tapeOf]

theorem aligned_same (same : Same a b) (aligned : Aligned conf a) : Aligned conf b := by
  obtain ⟨stored,follows⟩ := aligned
  obtain ⟨file,log,opened,session⟩ := same
  rw [← log,← file] at stored
  rw [← log] at follows
  refine ⟨stored,?_⟩
  generalize tapeOf (starts conf) b.log = tape at follows ⊢
  cases follows with
  | closed closed => exact .closed (opened.trans closed)
  | waiting open_ first nframes audio video shift offset =>
    obtain ⟨e1,e2,e3,e4,e5,e6,e7⟩ := session open_
    exact .waiting (opened.trans open_) (e5.trans first) (e2.trans nframes) (e6.trans audio) (e7.trans video)
      (e4.trans shift) (by rw [e1,offset,file])
  | writing open_ initialized epoch offset audio video wrote =>
    obtain ⟨e1,e2,e3,e4,e5,e6,e7⟩ := session open_
    exact .writing (opened.trans open_) (e5.trans initialized) (e3.trans epoch) (by rw [e1,offset,file])
      (e6.trans audio) (e7.trans video) wrote

theorem appendPoint_stored (stored : Stored file ⟨tags,started,session⟩) :
    appendPoint file = (if tags = [] then 0 else file.length,lastTimestamp tags) := by
  cases stored with
  | blank => rfl
  | tape =>
    rename_i flags
    cases eq_nil_or_concat tags with
    | inl none =>
      subst none
      exact appendPoint_header
    | inr last =>
      obtain ⟨front,t,rfl⟩ := last
      have shape : encode 1 flags (front ++ [t]) = encode 1 flags front ++ t.encode := by simp [encode]
      rw [concat_eq_append,shape,appendPoint_tag,if_neg (by simp)]
      simp [lastTimestamp]

theorem stored_session (stored : Stored file ⟨tags,started,session⟩) : Stored file ⟨tags,started,other⟩ := by
  cases stored with
  | blank => exact .blank
  | tape => exact .tape

theorem aligned_opened (appends : conf.append = true) (closed : a.rctx.opened = false) (aligned : Aligned conf a) :
    Aligned conf (nodeOpen conf now a) := by
  obtain ⟨stored,follows⟩ := aligned
  have opening : nodeOpen conf now a = ({a with rctx:={Rctx.zero with
      opened:=true,last:=now,offset:=(appendPoint a.file).1,timeShift:=(appendPoint a.file).2}} : Node).note .opened := by
    simp [nodeOpen,closed,appends]
  rw [opening]
  suffices holds : Stored a.file ((tapeOf (starts conf) a.log).advance (starts conf) .opened) ∧ Follows _ a.file
      ((tapeOf (starts conf) a.log).advance (starts conf) .opened) by
    exact ⟨(tapeOf_snoc _ _ _).symm ▸ holds.1,(tapeOf_snoc _ _ _).symm ▸ holds.2⟩
  generalize tapeOf (starts conf) a.log = tape at stored follows ⊢
  cases tape with
  | mk tags started session =>
    have point := appendPoint_stored stored
    refine ⟨stored_session stored,.waiting rfl rfl rfl rfl rfl ?_ ?_⟩
    · exact congrArg Prod.snd point
    · exact congrArg Prod.fst point

theorem writeFile_mask : writeFile (encode 1 flags tags) [mask] 4 = encode 1 mask tags := by
  simp [writeFile,encode,fileHeader]

theorem nodeClose_open (opened : a.rctx.opened = true) :
    ∃ rctx : Rctx, rctx.opened = false ∧
      nodeClose a = ⟨rctx,if a.rctx.initialized then writeFile a.file [avMask a.rctx] 4 else a.file,
        a.log ++ [.closed (if a.rctx.initialized then writeFile a.file [avMask a.rctx] 4 else a.file)]⟩ := by
  unfold nodeClose
  rw [if_neg (by simp [opened])]
  cases initialized : a.rctx.initialized with
  | false => exact ⟨_,rfl,rfl⟩
  | true => exact ⟨_,rfl,rfl⟩

theorem aligned_closed (opened : a.rctx.opened = true) (aligned : Aligned conf a) : Aligned conf (nodeClose a) := by
  obtain ⟨stored,follows⟩ := aligned
  obtain ⟨rctx,closed,close⟩ := nodeClose_open opened
  have tape := tapeOf_snoc (starts conf) a.log
    (.closed (if a.rctx.initialized then writeFile a.file [avMask a.rctx] 4 else a.file))
  rw [close]
  constructor
  · change Stored (if a.rctx.initialized = true then writeFile a.file [avMask a.rctx] 4 else a.file) (tapeOf _ (a.log ++ _))
    rw [tape]
    generalize tapeOf (starts conf) a.log = before at stored follows ⊢
    cases follows with
    | closed never => simp [never] at opened
    | waiting _ first =>
      rw [if_neg (by simp [first])]
      exact stored_session stored
    | writing _ initialized =>
      rw [if_pos initialized]
      generalize a.file = file at stored ⊢
      cases stored with
      | tape =>
        rw [writeFile_mask]
        exact .tape
  · change Follows rctx _ (tapeOf _ (a.log ++ _))
    rw [tape]
    exact .closed closed

theorem aligned_note (aligned : Aligned conf a)
    (keeps : (tapeOf (starts conf) a.log).advance (starts conf) entry = tapeOf (starts conf) a.log) :
    Aligned conf (a.note entry) := by
  have tape : tapeOf (starts conf) (a.note entry).log = tapeOf (starts conf) a.log := (tapeOf_snoc _ _ _).trans keeps
  exact ⟨tape.symm ▸ aligned.stored,tape.symm ▸ aligned.follows⟩

theorem aligned_ignored (left : a.rctx.opened = false ∨ admits conf m = false ∨ heldBack conf a m = true)
    (aligned : Aligned conf a) : Aligned conf (a.note (.arrived m)) := by
  apply aligned_note aligned
  have follows := aligned.follows
  generalize tapeOf (starts conf) a.log = tape at follows ⊢
  cases follows with
  | closed => rfl
  | writing => rfl
  | waiting opened =>
    have waits : starts conf m = false := by
      rcases left with closed | refused | held
      · simp [closed] at opened
      · simp [starts,refused]
      · simp only [heldBack,Bool.and_eq_true,Bool.not_eq_true'] at held
        simp [starts,held.1.1,held.1.2]
    simp [Tape.advance,waits]

theorem writeFile_header (stored : Stored file ⟨[],started,session⟩) : writeFile file flvHeader 0 = encode 1 0x05 [] := by
  cases stored with
  | blank => rfl
  | tape => rfl

theorem stored_long (stored : Stored file ⟨tags,started,session⟩) (some_tag : tags ≠ []) : started = true ∧ file.length ≠ 0 := by
  cases stored with
  | blank => exact absurd rfl some_tag
  | tape => exact ⟨rfl,by simp [encode,fileHeader]⟩

theorem aligned_taken (opened : a.rctx.opened = true) (wanted : admits conf m = true) (free : heldBack conf a m = false)
    (aligned : Aligned conf a) : Aligned conf (initializeSession (a.note (.arrived m)) m.timestamp) := by
  obtain ⟨stored,follows⟩ := aligned
  have tape := tapeOf_snoc (starts conf) a.log (.arrived m)
  suffices holds : ∀ b, b = initializeSession (a.note (.arrived m)) m.timestamp →
      b.log = a.log ++ [.arrived m] ∧ Stored b.file ((tapeOf (starts conf) a.log).advance (starts conf) (.arrived m)) ∧
        Follows b.rctx b.file ((tapeOf (starts conf) a.log).advance (starts conf) (.arrived m)) by
    obtain ⟨log,stored,follows⟩ := holds _ rfl
    rw [← tape,← log] at stored follows
    exact ⟨stored,follows⟩
  rintro b rfl
  generalize tapeOf (starts conf) a.log = before at stored follows ⊢
  cases follows with
  | closed never => simp [never] at opened
  | writing _ initialized epoch offset audio video wrote =>
    have same : initializeSession (a.note (.arrived m)) m.timestamp = a.note (.arrived m) := if_pos initialized
    rw [same]
    exact ⟨rfl,stored,.writing opened initialized epoch offset audio video wrote⟩
  | @waiting shift tags started _ first nframes audio video timeShift offset =>
    have sets : starts conf m = true := by
      unfold heldBack at free
      unfold starts
      rw [nframes] at free
      rw [wanted]
      revert free
      cases conf.manual <;> cases m.breaks conf <;> simp
    have begun : Tape.advance (starts conf) ⟨tags,started,some ⟨shift,none,[]⟩⟩ (.arrived m) =
        ⟨tags,true,some ⟨shift,some (m.timestamp-shift),[]⟩⟩ := by
      simp [Tape.advance,sets]
    rw [begun]
    have never : ∀ track : Track, track ∈ ([] : List Track) → ∃ tag ∈ tags, tag.type = track.type := fun _ none => by cases none
    unfold initializeSession
    rw [if_neg (by simp [Node.note,first])]
    simp only
    by_cases fresh : tags = []
    · subst fresh
      rw [if_pos rfl] at offset
      rw [if_pos (by simpa [Node.note] using offset)]
      refine ⟨rfl,?_,?_⟩
      · change Stored (writeFile a.file flvHeader 0) _
        rw [writeFile_header stored]
        exact .tape
      · refine .writing opened rfl (by rw [← timeShift]; rfl) ?_ audio video never
        change a.rctx.offset+13 = (writeFile a.file flvHeader 0).length
        rw [writeFile_header stored,offset]
        rfl
    · rw [if_neg fresh] at offset
      obtain ⟨rfl,long⟩ := stored_long stored fresh
      rw [if_neg (by simpa [Node.note,offset] using long)]
      exact ⟨rfl,stored_session stored,.writing opened rfl (by rw [← timeShift]; rfl) offset audio video never⟩

theorem putFrame_atEnd (offset : a.rctx.offset = a.file.length) (f : Frame) :
    ∃ rctx : Rctx, rctx.opened = a.rctx.opened ∧ rctx.initialized = a.rctx.initialized ∧ rctx.epoch = a.rctx.epoch ∧
      rctx.offset = (a.file ++ (f.tag a.rctx.epoch).encode).length ∧
      rctx.audio = (a.rctx.audio || f.track == .audio) ∧ rctx.video = (a.rctx.video || f.track == .video) ∧
      putFrame a f n = ⟨rctx,a.file ++ (f.tag a.rctx.epoch).encode,a.log ++ [.frame f]⟩ := by
  obtain ⟨track,timestamp,chain⟩ := f
  have carried : ({a with rctx:=a.rctx.carry track} : Node).AtEnd := by
    cases track
    · exact offset
    · exact offset
  have epoch : (a.rctx.carry track).epoch = a.rctx.epoch := by
    cases track
    · rfl
    · rfl
  unfold putFrame
  rw [writeTag_atEnd carried]
  simp only [epoch]
  refine ⟨_,?_,?_,?_,?_,?_,?_,rfl⟩
  · exact carry_opened _ _
  · exact carry_initialized
  · exact epoch
  · simpa [Node.extend,Node.note,Node.AtEnd] using carried
  · cases track <;> simp [Node.extend,Node.note,Rctx.carry]
  · cases track <;> simp [Node.extend,Node.note,Rctx.carry]

theorem aligned_frame (opened : a.rctx.opened = true) (initialized : a.rctx.initialized = true) (aligned : Aligned conf a) :
    Aligned conf (putFrame a f n) := by
  obtain ⟨stored,follows⟩ := aligned
  have tape := tapeOf_snoc (starts conf) a.log (.frame f)
  generalize before_eq : tapeOf (starts conf) a.log = before at stored follows
  cases follows with
  | closed never => simp [never] at opened
  | waiting _ never => simp [never] at initialized
  | @writing epoch wrote tags shift _ _ epoch_eq offset audio video kinds =>
    obtain ⟨rctx,e1,e2,e3,e4,e5,e6,put⟩ := putFrame_atEnd offset f
    rw [epoch_eq] at e4 put
    rw [put]
    have next : tapeOf (starts conf) (a.log ++ [.frame f]) =
        ⟨tags ++ [f.tag epoch],true,some ⟨shift,some epoch,f.track::wrote⟩⟩ := by
      rw [tape,before_eq]
      rfl
    constructor
    · rw [next]
      generalize a.file = file at stored ⊢
      cases stored with
      | @tape flags =>
        have shape : encode 1 flags tags ++ (f.tag epoch).encode = encode 1 flags (tags ++ [f.tag epoch]) := by
          simp [encode]
        exact shape ▸ .tape
    · rw [next]
      refine .writing (e1.trans opened) (e2.trans initialized) (e3.trans epoch_eq) e4 ?_ ?_ ?_
      · rw [e5,audio]
        cases f.track <;> simp
      · rw [e6,video]
        cases f.track <;> simp
      · intro track member
        cases mem_cons.mp member with
        | inl this => exact ⟨f.tag epoch,by simp,this ▸ rfl⟩
        | inr earlier =>
          obtain ⟨tag,found,type⟩ := kinds track earlier
          exact ⟨tag,mem_append_left _ found,type⟩

theorem aligned_act (appends : conf.append = true) (act : Act conf a b) (aligned : Aligned conf a) : Aligned conf b := by
  cases act with
  | quiet same => exact aligned_same same aligned
  | opened closed => exact aligned_opened appends closed aligned
  | closed opened => exact aligned_closed opened aligned
  | ignored left => exact aligned_ignored left aligned
  | taken opened wanted free => exact aligned_taken opened wanted free aligned
  | frame opened initialized => exact aligned_frame opened initialized aligned
  | limit => exact aligned_note aligned rfl
  | refused shut _ file log closed =>
    have tape : tapeOf (starts conf) b.log = tapeOf (starts conf) a.log := by
      rw [log,tapeOf_snoc]
      rfl
    refine ⟨by rw [tape,file]; exact aligned.stored,?_⟩
    rw [tape]
    have follows := aligned.follows
    generalize tapeOf (starts conf) a.log = before at follows ⊢
    cases follows with
    | closed => exact .closed closed
    | waiting opened => simp [shut] at opened
    | writing opened => simp [shut] at opened

theorem empty_aligned : Aligned conf empty := ⟨.blank,.closed rfl⟩

-- In append mode, what an act keeps of an aligned node holds in every run.
theorem run_aligned (appends : conf.append = true) {P : Node → Prop} (begins : P empty)
    (keeps : ∀ a b, Act conf a b → Aligned conf a → P a → P b) (events : List Event) :
    Aligned conf (run conf events) ∧ P (run conf events) :=
  run_keeps conf (fun node => Aligned conf node ∧ P node) ⟨empty_aligned,begins⟩
    (fun a b act holds => ⟨aligned_act appends act holds.1,keeps a b act holds.1 holds.2⟩) events

-- Without a limit no frame is refused, and the tags are those of the frames passed.
def Whole (conf : Conf) (node : Node) : Prop :=
  Entry.limit ∉ node.log → (tapeOf (starts conf) node.log).tags.map (fun tag => (tag.type,tag.body)) =
    (passed node.log).map (fun f => (f.track.type,f.chain.bytes))

theorem passed_append : passed (left ++ right) = passed left ++ passed right :=
  filterMap_append

theorem whole_note (whole : Whole conf a) (log : b.log = a.log ++ [entry])
    (tags : ((tapeOf (starts conf) a.log).advance (starts conf) entry).tags = (tapeOf (starts conf) a.log).tags)
    (none : passed [entry] = []) : Whole conf b := by
  intro unlimited
  rw [log] at unlimited
  rw [log,tapeOf_snoc,tags,whole (fun member => unlimited (mem_append_left _ member)),passed_append,none,append_nil]

theorem initializeSession_log : (initializeSession a timestamp).log = a.log := by
  unfold initializeSession
  simp only
  split
  · rfl
  · split
    · rfl
    · rfl

theorem arrived_tags {tape : Tape} : (tape.advance sets (.arrived m)).tags = tape.tags := by
  unfold Tape.advance
  simp only
  split
  · split
    · rfl
    · rfl
  · rfl

theorem nodeOpen_log (closed : a.rctx.opened = false) : (nodeOpen conf now a).log = a.log ++ [.opened] := by
  unfold nodeOpen
  rw [if_neg (by simp [closed])]
  split
  · rfl
  · rfl

theorem whole_act (act : Act conf a b) (aligned : Aligned conf a) (whole : Whole conf a) : Whole conf b := by
  cases act with
  | quiet same =>
    intro unlimited
    rw [same.log] at unlimited ⊢
    exact whole unlimited
  | opened closed => exact whole_note whole (nodeOpen_log closed) rfl rfl
  | closed opened =>
    obtain ⟨rctx,_,close⟩ := nodeClose_open opened
    rw [close]
    exact whole_note whole rfl rfl rfl
  | ignored => exact whole_note whole rfl arrived_tags rfl
  | taken => exact whole_note whole initializeSession_log arrived_tags rfl
  | limit => exact whole_note whole rfl rfl rfl
  | refused _ limit _ log =>
    intro unlimited
    rw [log] at unlimited
    exact absurd (mem_append_left _ limit) unlimited
  | @frame _ f n opened initialized =>
    have follows := aligned.follows
    generalize before_eq : tapeOf (starts conf) a.log = before at follows
    cases follows with
    | closed never => simp [never] at opened
    | waiting _ never => simp [never] at initialized
    | writing _ _ _ offset =>
      obtain ⟨rctx,_,_,_,_,_,_,put⟩ := putFrame_atEnd offset f
      rw [put]
      intro unlimited
      have earlier := whole (fun member => unlimited (mem_append_left _ member))
      simp only [tapeOf_snoc,before_eq,Tape.advance,map_append,passed_append] at earlier ⊢
      rw [earlier]
      rfl

-- Nothing before the first message that passes; then one FLV file with the tags.
theorem recorded_file (conf : Conf) (appends : conf.append = true) (events : List Event)
    (unlimited : Entry.limit ∉ (run conf events).log) :
    ((tapeOf (starts conf) (run conf events).log).started = false →
      (run conf events).file = [] ∧ passed (run conf events).log = []) ∧
    ((tapeOf (starts conf) (run conf events).log).started = true →
      ∃ flags, decode (run conf events).file = some ⟨1,flags,(tapeOf (starts conf) (run conf events).log).tags⟩) ∧
    (tapeOf (starts conf) (run conf events).log).tags.map (fun tag => (tag.type,tag.body)) =
      (passed (run conf events).log).map (fun f => (f.track.type,f.chain.bytes)) := by
  have begins : Whole conf empty := fun _ => rfl
  obtain ⟨aligned,whole⟩ := run_aligned appends begins (fun _ _ => whole_act) events
  have tags := whole unlimited
  have stored := aligned.stored
  generalize run conf events = last at tags stored ⊢
  generalize tapeOf (starts conf) last.log = tape at tags stored ⊢
  generalize last.file = file at stored ⊢
  refine ⟨?_,?_,tags⟩
  · intro blank
    cases stored with
    | tape => cases blank
    | blank => exact ⟨rfl,map_eq_nil_iff.mp tags.symm⟩
  · intro begun
    cases stored with
    | blank => cases begun
    | @tape flags => exact ⟨flags,decode_encode⟩

def appendConf : Conf := ⟨false,true,true,false,false,none,0,0,true⟩

def audioAt (timestamp : UInt32) : Message := ⟨.audio,timestamp,⟨[[0x2f,1]],by decide⟩,0⟩

def keyVideoAt (timestamp : UInt32) : Message := ⟨.video,timestamp,⟨[[0x12],[1,2]],by decide⟩,0⟩

def twoSessions : List Event :=
  [.start ⟨0,0⟩,.av ⟨0,0⟩ none (audioAt 100),.av ⟨0,0⟩ none (keyVideoAt 140),.close,
    .start ⟨9,0⟩,.av ⟨9,0⟩ none (audioAt 7000),.close]

theorem recorded_file_two_sessions : Entry.limit ∉ (run appendConf twoSessions).log ∧
    ∃ flags, decode (run appendConf twoSessions).file =
      some ⟨1,flags,(tapeOf (starts appendConf) (run appendConf twoSessions).log).tags⟩ :=
  ⟨by decide +kernel,(recorded_file appendConf rfl twoSessions (by decide +kernel)).2.1 (by decide +kernel)⟩

-- A manual recorder: the audio passes the type filter, but the key frame sets the epoch.
def manualConf : Conf := {appendConf with manual:=true}

def heldBackRun : List Event := [.open ⟨0,0⟩,.av ⟨0,0⟩ none (audioAt 100),.av ⟨0,0⟩ none (keyVideoAt 150)]

theorem held_back_message_sets_no_epoch :
    admits manualConf (audioAt 100) = true ∧ Entry.limit ∉ (run manualConf heldBackRun).log ∧
    (decode (run manualConf heldBackRun).file).map (fun parsed => parsed.tags.map Tag.timestamp) = some [0] ∧
    (tapeOf (admits manualConf) (run manualConf heldBackRun).log).tags.map Tag.timestamp = [50] ∧
    decode (run manualConf [.open ⟨0,0⟩]).file = none := by
  decide +kernel

end NgxRtmp.Record
