import NgxRtmp.RecordRuns

namespace NgxRtmp.Record
open Flv List

theorem avMask_flag :
    avMask rctx &&& Track.flag track ≠ 0 ↔ (match track with | .audio => rctx.audio | .video => rctx.video) = true := by
  unfold avMask
  cases track with
  | audio => cases rctx.audio <;> cases rctx.video <;> decide
  | video => cases rctx.audio <;> cases rctx.video <;> decide

theorem flagsRight_encode : FlagsRight (encode 1 flags tags) ↔
    ∀ track : Track, flags &&& Track.flag track ≠ 0 ↔ ∃ tag ∈ tags, tag.type = track.type := by
  constructor
  · intro right
    exact right ⟨1,flags,tags⟩ decode_encode
  · intro right parsed parse
    rw [decode_encode] at parse
    cases parse
    exact right

-- The mask that node_close writes is that of the session alone.
theorem closed_right (opened : a.rctx.opened = true) (initialized : a.rctx.initialized = true) (aligned : Aligned conf a) :
    FlagsRight (writeFile a.file [avMask a.rctx] 4) ↔ Repeated (tapeOf (starts conf) a.log) := by
  obtain ⟨stored,follows⟩ := aligned
  generalize tapeOf (starts conf) a.log = tape at stored follows ⊢
  cases follows with
  | closed never => simp [never] at opened
  | waiting _ never => simp [never] at initialized
  | @writing epoch wrote tags shift _ _ _ _ audio video kinds =>
    generalize a.file = file at stored ⊢
    cases stored with
    | tape =>
      have bits : ∀ track : Track, avMask a.rctx &&& Track.flag track ≠ 0 ↔ track ∈ wrote := by
        intro track
        apply avMask_flag.trans
        cases track with
        | audio => simp [audio]
        | video => simp [video]
      rw [writeFile_mask,flagsRight_encode]
      constructor
      · intro right session now _ tag member track type
        cases now
        exact (bits track).mp ((right track).mpr ⟨tag,member,type⟩)
      · intro repeated track
        apply (bits track).trans
        constructor
        · exact kinds track
        · rintro ⟨tag,member,type⟩
          exact repeated _ rfl rfl tag member track type

theorem waiting_repeated (first : a.rctx.initialized = false) (opened : a.rctx.opened = true) (aligned : Aligned conf a) :
    Repeated (tapeOf (starts conf) a.log) := by
  have follows := aligned.follows
  generalize tapeOf (starts conf) a.log = tape at follows ⊢
  cases follows with
  | closed never => simp [never] at opened
  | writing _ never => simp [never] at first
  | waiting =>
    intro session now begun
    cases now
    cases begun

def ClosesRight (log : List Entry) : Prop := ∀ file, Entry.closed file ∈ log → FlagsRight file

def ClosesRepeated (conf : Conf) (log : List Entry) : Prop :=
  ∀ before file after, log = before ++ .closed file::after → Repeated (tapeOf (starts conf) before)

theorem closesRight_snoc : ClosesRight (log ++ [entry]) ↔ ClosesRight log ∧ ∀ file, entry = .closed file → FlagsRight file := by
  constructor
  · intro right
    exact ⟨fun file member => right file (mem_append_left _ member),fun file this => right file (by simp [this])⟩
  · rintro ⟨right,last⟩ file member
    cases mem_append.mp member with
    | inl earlier => exact right file earlier
    | inr this => exact last file (mem_singleton.mp this).symm

theorem closesRepeated_snoc : ClosesRepeated conf (log ++ [entry]) ↔
    ClosesRepeated conf log ∧ ∀ file, entry = .closed file → Repeated (tapeOf (starts conf) log) := by
  constructor
  · intro repeated
    refine ⟨fun before file after shape => repeated before file (after ++ [entry]) (by simp [shape]),fun file this => ?_⟩
    exact repeated log file [] (by rw [this])
  · rintro ⟨repeated,last⟩ before file after shape
    cases eq_nil_or_concat after with
    | inl none =>
      subst none
      obtain ⟨rfl,this⟩ := append_inj_left' shape rfl |> fun front => (⟨front,append_inj_right' shape rfl⟩ : _ ∧ _)
      exact last file (singleton_inj.mp this)
    | inr more =>
      obtain ⟨rest,x,rfl⟩ := more
      have whole : log ++ [entry] = (before ++ .closed file::rest) ++ [x] := by simpa using shape
      exact repeated before file rest (append_inj_left' whole rfl)

-- Between sessions, and before a message has passed, the flags are those of the last close.
structure Judged (conf : Conf) (node : Node) : Prop where
  closes : ClosesRight node.log ↔ ClosesRepeated conf node.log
  resting : ClosesRight node.log → node.rctx.opened = false ∨ node.rctx.initialized = false → FlagsRight node.file

theorem judged_note (judged : Judged conf a) (log : b.log = a.log ++ [entry]) (plain : ∀ file, entry ≠ .closed file)
    (rest : FlagsRight a.file → b.rctx.opened = false ∨ b.rctx.initialized = false → FlagsRight b.file)
    (rested : b.rctx.opened = false ∨ b.rctx.initialized = false → a.rctx.opened = false ∨ a.rctx.initialized = false) :
    Judged conf b := by
  have right : ClosesRight b.log ↔ ClosesRight a.log := by
    rw [log,closesRight_snoc]
    exact ⟨And.left,fun right => ⟨right,fun file this => absurd this (plain file)⟩⟩
  have repeated : ClosesRepeated conf b.log ↔ ClosesRepeated conf a.log := by
    rw [log,closesRepeated_snoc]
    exact ⟨And.left,fun repeated => ⟨repeated,fun file this => absurd this (plain file)⟩⟩
  refine ⟨right.trans (judged.closes.trans repeated.symm),fun now resting => ?_⟩
  exact rest (judged.resting (right.mp now) (rested resting)) resting

theorem judged_closed (opened : a.rctx.opened = true) (aligned : Aligned conf a) (judged : Judged conf a) :
    Judged conf (nodeClose a) := by
  obtain ⟨rctx,closed,close⟩ := nodeClose_open opened
  rw [close]
  refine ⟨?_,fun right _ => right _ (by simp)⟩
  rw [closesRight_snoc,closesRepeated_snoc,judged.closes]
  cases initialized : a.rctx.initialized with
  | true =>
    have last := closed_right opened initialized aligned
    simp only [if_true]
    constructor
    · rintro ⟨repeated,right⟩
      exact ⟨repeated,fun _ _ => last.mp (right _ rfl)⟩
    · rintro ⟨repeated,again⟩
      refine ⟨repeated,?_⟩
      rintro file this
      cases this
      exact last.mpr (again _ rfl)
  | false =>
    simp only [Bool.false_eq_true,if_false]
    constructor
    · rintro ⟨repeated,_⟩
      exact ⟨repeated,fun _ _ => waiting_repeated initialized opened aligned⟩
    · rintro ⟨repeated,_⟩
      refine ⟨repeated,?_⟩
      rintro file this
      cases this
      exact judged.resting (judged.closes.mpr repeated) (.inr initialized)

theorem empty_judged : Judged conf empty := by
  refine ⟨⟨fun _ before file after shape => ?_,fun _ file member => by cases member⟩,fun _ _ parsed parse => by cases parse⟩
  cases before with
  | nil => cases shape
  | cons => cases shape

theorem nodeOpen_file (appends : conf.append = true) : (nodeOpen conf now a).file = a.file := by
  cases opened : a.rctx.opened with
  | true => simp [nodeOpen,opened]
  | false => simp [nodeOpen,opened,appends,Node.note]

theorem putFrame_log (f : Frame) : (putFrame a f n).log = a.log ++ [.frame f] := by
  have body : ∀ (bufs : List (List UInt8)) (node : Node), (writeBody node bufs).log = node.log := by
    intro bufs
    induction bufs with
    | nil => intro node; rfl
    | cons buf bufs ih =>
      intro node
      apply (ih _).trans
      change (if buf = [] then node else node.write buf node.rctx.offset).log = node.log
      split
      · rfl
      · rfl
  exact congrArg (· ++ [Entry.frame f]) (body f.chain.bufs _)

theorem judged_act (act : Act conf a b) (appends : conf.append = true) (aligned : Aligned conf a) (judged : Judged conf a) :
    Judged conf b := by
  cases act with
  | quiet same =>
    obtain ⟨closes,resting⟩ := judged
    refine ⟨same.log.symm ▸ closes,fun right rest => ?_⟩
    rw [same.file]
    apply resting (same.log ▸ right)
    cases opened : a.rctx.opened with
    | false => exact .inl rfl
    | true =>
      obtain ⟨_,_,_,_,initialized,_⟩ := same.session opened
      rw [same.opened,initialized,opened] at rest
      simpa using rest
  | opened closed =>
    apply judged_note judged (nodeOpen_log closed) (by simp)
    · intro right _
      rw [nodeOpen_file appends]
      exact right
    · intro _
      exact .inl closed
  | closed opened => exact judged_closed opened aligned judged
  | ignored => exact judged_note judged rfl (by simp) (fun right _ => right) id
  | taken opened =>
    rename_i m _ _
    obtain ⟨open_,initialized⟩ := initializeSession_begun (a.note (.arrived m)) m.timestamp opened
    apply judged_note judged initializeSession_log (by simp)
    · exact fun _ rest => by simp [open_,initialized] at rest
    · exact fun rest => by simp [open_,initialized] at rest
  | @frame _ f n opened initialized =>
    obtain ⟨open_,begun⟩ := putFrame_rctx a f n
    apply judged_note judged (putFrame_log f) (by simp)
    · exact fun _ rest => by simp [open_,begun,opened,initialized] at rest
    · exact fun rest => by simp [open_,begun,opened,initialized] at rest
  | limit => exact judged_note judged rfl (by simp) (fun right _ => right) id
  | refused closed _ file log _ =>
    apply judged_note judged log (by simp)
    · intro right _
      rw [file]
      exact right
    · exact fun _ => .inl closed

-- Every session that a message has reached writes each type again that the file has.
theorem flags_after_close_iff (conf : Conf) (appends : conf.append = true) (events : List Event) :
    (∀ file, Entry.closed file ∈ (run conf events).log → FlagsRight file) ↔
      ∀ before file after, (run conf events).log = before ++ .closed file::after →
        Repeated (tapeOf (starts conf) before) := by
  have judged := run_aligned appends empty_judged (fun _ _ act => judged_act act appends) events
  exact judged.2.closes

theorem flags_after_close_two_sessions : appendConf.append = true ∧
    ((∀ file, Entry.closed file ∈ (run appendConf twoSessions).log → FlagsRight file) ↔
      ∀ before file after, (run appendConf twoSessions).log = before ++ .closed file::after →
        Repeated (tapeOf (starts appendConf) before)) :=
  ⟨rfl,flags_after_close_iff appendConf rfl twoSessions⟩

-- The second session has audio only, and its close clears the video flag.
theorem second_session_clears_video_flag : ∃ file, Entry.closed file ∈ (run appendConf twoSessions).log ∧
    (decode file).map (fun parsed => (parsed.flags,parsed.tags.map Tag.type)) = some (0x04,[msgAudio,msgVideo,msgAudio]) ∧
    ¬ FlagsRight file := by
  refine ⟨(run appendConf twoSessions).file,by decide +kernel,by decide +kernel,fun right => ?_⟩
  cases parse : decode (run appendConf twoSessions).file with
  | none => exact absurd parse (by decide +kernel)
  | some parsed =>
    have flags : parsed.flags = 0x04 ∧ parsed.tags.any (·.type == msgVideo) = true := by
      have known : (decode (run appendConf twoSessions).file).map
          (fun parsed => (parsed.flags,parsed.tags.any (·.type == msgVideo))) = some (0x04,true) := by decide +kernel
      rw [parse] at known
      simpa using known
    obtain ⟨tag,member,type⟩ := any_eq_true.mp flags.2
    have set := (right parsed parse .video).mpr ⟨tag,member,beq_iff_eq.mp type⟩
    rw [flags.1] at set
    exact set (by decide)

end NgxRtmp.Record
