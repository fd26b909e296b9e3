import NgxRtmp.DashFragments

namespace NgxRtmp.Dash
open Octets Mp4Boxes Mp4Segments List

theorem getD_first {m : Message} (inside : i < m.buf.length) : m.bytes.getD i 0 = m.buf.getD i 0 := by
  simp [Message.bytes,getD,getElem?_append_left inside]

theorem payload_bufs {m : Message} (headed : headerSize m.type ≤ m.buf.length) :
    (m.buf.drop (headerSize m.type)::m.next).flatten = m.payload := by
  rw [flatten_cons,Message.payload,Message.bytes,drop_append_of_le_length headed]

theorem isMedia_iff {m : Message} : m.isMedia = true ↔ headerSize m.type ≤ m.bytes.length ∧ m.bytes.getD 1 0 = 1 := by
  simp only [Message.isMedia,Bool.and_eq_true,decide_eq_true_eq,beq_iff_eq]

def Message.delay (m : Message) : UInt32 :=
  match m.type with
  | .audio => 0
  | .video => word (m.buf.getD 4 0) (m.buf.getD 3 0) (m.buf.getD 2 0) 0

def accepted (codec : Option Codec) (m : Message) : Bool :=
  codec.any (·.ready m.type) && headerSize m.type ≤ m.buf.length && m.buf.getD 1 0 == 1

theorem step_av (conf : Conf) (st : State) (codec : Option Codec) (m : Message) :
    step conf st (.av codec m) = if accepted codec m then append conf m.type (m.buf.drop (headerSize m.type)::m.next) m.key
      m.timestamp m.delay {st with ctx:=st.ctx.setHas m.type} else st := by
  have longer : m.buf.length ≤ m.bytes.length := by
    rw [Message.bytes,length_append]
    omega
  cases codec with
  | none => cases type : m.type <;> simp [step,type,dashAudio,dashVideo,accepted]
  | some c =>
    cases type : m.type with
    | audio =>
      simp only [step,type,dashAudio,accepted,Codec.ready,headerSize,Option.any_some,Bool.and_eq_true,beq_iff_eq,decide_eq_true_eq]
      by_cases short : m.bytes.length < 2
      · rw [if_pos short,if_neg (by omega)]
      by_cases other : c.audioCodecId ≠ 10 ∨ c.aacHeader = false
      · rw [if_neg short,if_pos other,if_neg (by rintro ⟨⟨⟨codec,header⟩,_⟩,_⟩; simp_all)]
      by_cases small : m.buf.length < 2
      · rw [if_neg short,if_neg other,if_pos small,if_neg (by omega)]
      by_cases config : m.buf.getD 1 0 ≠ 1
      · rw [if_neg short,if_neg other,if_neg small,if_pos config,if_neg (fun all => config all.2)]
      · have ready : c.audioCodecId = 10 ∧ c.aacHeader = true := by simpa using other
        rw [if_neg short,if_neg other,if_neg small,if_neg config,if_pos ⟨⟨ready,by omega⟩,not_not.mp config⟩]
        simp [Message.key,Message.delay,type]
    | video =>
      simp only [step,type,dashVideo,accepted,Codec.ready,headerSize,Option.any_some,Bool.and_eq_true,beq_iff_eq,decide_eq_true_eq]
      by_cases short : c.avcHeader = false ∨ m.bytes.length < 5
      · rw [if_pos short,if_neg]
        rintro ⟨⟨⟨_,header⟩,long⟩,_⟩
        cases short with
        | inl none => cases none.symm.trans header
        | inr short => omega
      by_cases other : c.videoCodecId ≠ 7
      · rw [if_neg short,if_pos other,if_neg (fun all => other all.1.1.1)]
      by_cases small : m.buf.length < 5
      · rw [if_neg short,if_neg other,if_pos small,if_neg (by omega)]
      by_cases config : m.buf.getD 1 0 ≠ 1
      · rw [if_neg short,if_neg other,if_neg small,if_pos config,if_neg (fun all => config all.2)]
      · have header : c.avcHeader = true := by simpa using fun none => short (.inl none)
        rw [if_neg short,if_neg other,if_neg small,if_neg config,
          if_pos ⟨⟨⟨not_not.mp other,header⟩,by omega⟩,not_not.mp config⟩]
        simp [Message.key,Message.delay,type]

theorem accepted_media (keeps : Keeps conf st codec m) (isMedia : m.isMedia = true) : accepted codec m = true := by
  obtain ⟨c,rfl,ready⟩ := keeps.ready
  obtain ⟨_,kind⟩ := isMedia_iff.mp isMedia
  have headed := keeps.headed
  have two : 1 < m.buf.length := by
    cases type : m.type <;> simp only [type,headerSize] at headed <;> omega
  rw [getD_first two] at kind
  simp only [accepted,Bool.and_eq_true,decide_eq_true_eq,beq_iff_eq]
  exact ⟨⟨ready,headed⟩,kind⟩

theorem step_other (other : m.isMedia = false) : step conf st (.av codec m) = st := by
  rw [step_av,if_neg]
  intro taken
  simp only [accepted,Bool.and_eq_true,decide_eq_true_eq,beq_iff_eq] at taken
  obtain ⟨⟨_,headed⟩,kind⟩ := taken
  have two : 1 < m.buf.length := by
    cases type : m.type <;> simp only [type,headerSize] at headed <;> omega
  have whole : headerSize m.type ≤ m.bytes.length := by
    rw [Message.bytes,length_append]
    omega
  rw [← getD_first two] at kind
  rw [isMedia_iff.mpr ⟨whole,kind⟩] at other
  cases other

theorem whole_has (whole : Whole conf st closed parts) (has : TrackType) :
    Whole conf {st with ctx:=st.ctx.setHas has} closed parts := by
  have context : (st.ctx.setHas has).opened = st.ctx.opened ∧
      getFrag conf (st.ctx.setHas has) (st.ctx.setHas has).nfrags = getFrag conf st.ctx st.ctx.nfrags := by
    cases has <;> exact ⟨rfl,rfl⟩
  obtain ⟨opened,current⟩ := context
  refine ⟨?_,whole.describes,?_,?_,?_⟩
  · intro ttype
    rw [track_setHas,opened,whole.tracks]
  · intro now ttype
    rw [track_setHas]
    exact whole.holding (opened.symm.trans now) ttype
  · intro now
    exact whole.empty (opened.symm.trans now)
  · intro now file member
    rw [current]
    exact whole.fresh (opened.symm.trans now) file member

def Event.part (ttype : TrackType) (event : Event) : List (List UInt8) := media ttype [event]

theorem whole_step (whole : Whole conf st closed parts)
    (keeps : ∀ codec m, event = .av codec m → m.isMedia = true → Keeps conf st codec m) :
    ∃ closed' parts', Whole conf (step conf st event) closed' parts' ∧
      ∀ ttype, closed' ttype ++ parts' ttype = closed ttype ++ parts ttype ++ event.part ttype := by
  cases event with
  | close =>
    refine ⟨_,_,(whole_close whole).1,?_⟩
    intro ttype
    simp [Event.part,media]
  | av codec m =>
    cases isMedia : m.isMedia with
    | false =>
      rw [step_other isMedia]
      refine ⟨closed,parts,whole,?_⟩
      intro ttype
      simp [Event.part,media,isMedia]
    | true =>
      have kept := keeps codec m rfl isMedia
      have shape := (step_av conf st codec m).trans (if_pos (accepted_media kept isMedia))
      have current : (st.ctx.setHas m.type).opened = st.ctx.opened ∧ getFrag conf (st.ctx.setHas m.type)
          (st.ctx.setHas m.type).nfrags = getFrag conf st.ctx st.ctx.nfrags := by
        cases m.type <;> exact ⟨rfl,rfl⟩
      have fresh : boundary conf (st.ctx.setHas m.type) m.key m.timestamp = true →
          (∀ file ∈ st.files, file.timestamp ≠ m.timestamp) ∧ ((st.ctx.setHas m.type).opened = true →
            (getFrag conf (st.ctx.setHas m.type) (st.ctx.setHas m.type).nfrags).timestamp ≠ m.timestamp) := by
        rw [current.1,current.2]
        exact kept.fresh
      obtain ⟨closed',parts',updated,moved,opened,room⟩ := whole_update (whole_has whole m.type) fresh
      have payload := payload_bufs kept.headed
      have buffer : copyIn (m.buf.drop (headerSize m.type)::m.next) [] = m.payload := by
        rw [copyIn_eq _ (Nat.zero_le _),payload,nil_append]
        exact take_of_length_le kept.short
      have few : ((updateFragments conf m.key m.timestamp {st with ctx:=st.ctx.setHas m.type}).ctx.track m.type).fragment.samples.length
          < maxSamples := by
        apply (room m.type).2
        intro stays
        rw [track_setHas]
        exact kept.room stays
      rw [shape]
      unfold append
      simp only [buffer]
      refine ⟨closed',_,whole_add updated opened few (room m.type).1 kept.short m.key m.timestamp m.delay,?_⟩
      intro ttype
      by_cases own : ttype = m.type
      · simp only [own,if_true,Event.part,media,filterMap_cons,filterMap_nil,beq_self_eq_true,isMedia,Bool.and_self]
        rw [← append_assoc,moved]
      · have other : (m.type == ttype) = false := by
          rw [beq_eq_false_iff_ne]
          exact fun same => own same.symm
        simp only [own,if_false,Event.part,media,filterMap_cons,filterMap_nil,other,Bool.false_and]
        rw [moved]
        simp

theorem media_append :
    media ttype (left ++ right) = media ttype left ++ media ttype right := filterMap_append

theorem start_whole : Whole conf start (fun _ => []) (fun _ => []) := by
  refine ⟨?_,?_,?_,fun _ _ => rfl,?_⟩
  · intro ttype
    cases ttype <;> rfl
  · intro ttype
    rfl
  · intro never
    cases never
  · intro never
    cases never

theorem run_snoc : run conf (events ++ [event]) = step conf (run conf events) event := by
  simp [run]

theorem run_whole (keeps : KeepsRun conf events) :
    ∃ closed parts, Whole conf (run conf events) closed parts ∧
      ∀ ttype, closed ttype ++ parts ttype = media ttype events := by
  induction events using reverseRecOn with
  | nil => exact ⟨_,_,start_whole,fun _ => rfl⟩
  | append_singleton events event ih =>
    have earlier : KeepsRun conf events := by
      intro before codec m after shape
      exact keeps before codec m (after ++ [event]) (by rw [shape]; simp)
    obtain ⟨closed,parts,whole,all⟩ := ih earlier
    have kept : ∀ codec m, event = .av codec m → m.isMedia = true → Keeps conf (run conf events) codec m :=
      fun codec m shape => keeps events codec m [] (by rw [shape])
    obtain ⟨closed',parts',next,added⟩ := whole_step whole kept
    rw [run_snoc]
    refine ⟨closed',parts',next,?_⟩
    intro ttype
    rw [added,all,media_append]
    rfl

-- Every payload is in a segment once the fragments are closed, in order.
theorem samples_preserved (conf : Conf) (events : List Event) (keeps : KeepsRun conf events) (ttype : TrackType) :
    described ttype (closeFragments conf (run conf events)).files = some (media ttype events) := by
  obtain ⟨closed,parts,whole,all⟩ := run_whole keeps
  have described_all := (whole_close whole).1.describes ttype
  rw [described_all]
  exact congrArg some (all ttype)

def fiveSeconds : Conf := ⟨5000,2⟩

def bothKnown : Option Codec := some ⟨10,7,true,true⟩

def tick : Event := .av bothKnown ⟨.audio,0,[0xaf,1,7],[]⟩

def keyFrame : Event := .av bothKnown ⟨.video,40,[0x17,1,0,0,9],[[1,2],[3]]⟩

theorem samples_preserved_two : KeepsRun fiveSeconds [tick,keyFrame] ∧
    described .video (closeFragments fiveSeconds (run fiveSeconds [tick,keyFrame])).files = some [[1,2,3]] := by
  have keeps : KeepsRun fiveSeconds [tick,keyFrame] := by
    intro before codec m after shape _
    cases before with
    | nil =>
      cases shape
      exact ⟨⟨_,rfl,rfl⟩,by decide,by decide,fun _ => by decide,fun _ => ⟨fun _ none => (by cases none),fun never => (by cases never)⟩⟩
    | cons e before =>
      cases before with
      | nil =>
        cases shape
        exact ⟨⟨_,rfl,rfl⟩,by decide,by decide,fun _ => by decide,fun never => absurd never (by decide)⟩
      | cons e' before =>
        have length := congrArg length shape
        simp at length
  exact ⟨keeps,samples_preserved fiveSeconds [tick,keyFrame] keeps .video⟩

structure Steady (st : State) (n : Nat) : Prop where
  opened : st.ctx.opened = true
  noVideo : st.ctx.hasVideo = false
  timestamp : (getFrag fiveSeconds st.ctx st.ctx.nfrags).timestamp = 0
  files : st.files = []
  video : st.ctx.video = ⟨true,⟨0,.video,0,0,0,[]⟩,[]⟩
  audioOpened : st.ctx.audio.opened = true
  holding : Holding st.ctx.audio (replicate n [7])

theorem steady_boundary (steady : Steady st n) (few : n ≤ maxSamples) :
    boundary fiveSeconds (st.ctx.setHas .audio) false 0 = false := by
  have mdat : st.ctx.audio.fragment.mdatSize = n := by
    rw [steady.holding.mdat]
    simp
  have current : getFrag fiveSeconds (st.ctx.setHas .audio) (st.ctx.setHas .audio).nfrags =
      getFrag fiveSeconds st.ctx st.ctx.nfrags := rfl
  have early : hit fiveSeconds (getFrag fiveSeconds st.ctx st.ctx.nfrags) 0 = false := by
    unfold hit distance
    rw [steady.timestamp]
    rfl
  have flags : (st.ctx.setHas .audio).hasVideo = false ∧ (st.ctx.setHas .audio).hasAudio = true ∧
      (st.ctx.setHas .audio).opened = true := ⟨steady.noVideo,rfl,steady.opened⟩
  have sizes : (st.ctx.setHas .audio).audio.fragment.mdatSize = n ∧ (st.ctx.setHas .audio).video.fragment.mdatSize = 0 :=
    ⟨mdat,congrArg (fun t => t.fragment.mdatSize) steady.video⟩
  have small : ¬ maxMdat ≤ n := by
    simp only [maxMdat,maxSamples] at few ⊢
    omega
  unfold boundary
  simp only [current,early,flags,sizes,small]
  rfl

theorem steady_tick (steady : Steady st n) (few : n ≤ maxSamples) : Steady (step fiveSeconds st tick) (min (n+1) maxSamples) := by
  have stays := steady_boundary steady few
  have same : step fiveSeconds st tick = append fiveSeconds .audio [[7]] false 0 0 {st with ctx:=st.ctx.setHas .audio} := rfl
  have current : getFrag fiveSeconds (st.ctx.setHas .audio) (st.ctx.setHas .audio).nfrags =
      getFrag fiveSeconds st.ctx st.ctx.nfrags := rfl
  have samples : st.ctx.audio.fragment.samples.length = n := by
    have sizes := congrArg length steady.holding.sizes
    simpa using sizes
  rw [same]
  unfold append updateFragments
  simp only [stays,Bool.false_eq_true,if_false,current]
  refine ⟨steady.opened,steady.noVideo,?_,steady.files,steady.video,?_,?_⟩
  · change (getFrag fiveSeconds (setFrag fiveSeconds (st.ctx.setHas .audio) (st.ctx.setHas .audio).nfrags _)
      (st.ctx.setHas .audio).nfrags).timestamp = 0
    rw [getFrag_setFrag]
    split
    · exact steady.timestamp
    · exact steady.timestamp
  · change (st.ctx.audio.add false 0 0 (copyIn [[7]] [])).opened = true
    rw [add_opened]
    exact steady.audioOpened
  · change Holding (st.ctx.audio.add false 0 0 (copyIn [[7]] [])) _
    have buffer : copyIn [[7]] [] = [7] := by
      rw [copyIn_eq _ (Nat.zero_le _)]
      rfl
    rw [buffer]
    by_cases room : n < maxSamples
    · have more : replicate (min (n+1) maxSamples) ([7] : List UInt8) = replicate n [7] ++ [[7]] := by
        rw [min_eq_left room,replicate_succ']
      have small : st.ctx.audio.fragment.mdatSize < maxMdat := by
        have length : (replicate n ([7] : List UInt8)).flatten.length = n := by simp
        rw [steady.holding.mdat,length]
        simp only [maxMdat,maxSamples] at room ⊢
        omega
      rw [more]
      exact holding_add steady.holding (by omega) small (by decide)
    · -- the sample is dropped
      have full : min (n+1) maxSamples = n := by omega
      rw [full]
      unfold Track.add
      dsimp only
      rw [if_neg (by omega)]
      obtain ⟨raw,sizes,mdat,most,small⟩ := steady.holding
      exact ⟨raw,sizes,mdat,most,small⟩

theorem steady_ticks : Steady (run fiveSeconds (replicate (n+1) tick)) (min (n+1) maxSamples) := by
  induction n with
  | zero => exact ⟨rfl,rfl,rfl,rfl,rfl,rfl,⟨by decide,by decide,by decide,by decide,by decide⟩⟩
  | succ n ih =>
    have next := steady_tick ih (Nat.min_le_right _ _)
    have count : min (min (n+1) maxSamples+1) maxSamples = min (n+1+1) maxSamples := by omega
    rw [count] at next
    rw [replicate_succ',run_snoc]
    exact next

theorem steady_described (steady : Steady st n) :
    described .audio (closeFragments fiveSeconds st).files = some (replicate n [7]) := by
  have whole : Whole fiveSeconds st (fun _ => []) (fun | .audio => replicate n [7] | .video => []) := by
    refine ⟨?_,?_,?_,?_,?_⟩
    · intro ttype
      rw [steady.opened]
      cases ttype with
      | audio => exact steady.audioOpened
      | video => exact congrArg Track.opened steady.video
    · intro ttype
      rw [steady.files]
      rfl
    · intro _ ttype
      cases ttype with
      | audio => exact steady.holding
      | video =>
        change Holding st.ctx.video []
        rw [steady.video]
        exact holding_nothing
    · intro shut
      rw [steady.opened] at shut
      cases shut
    · intro _ file member
      rw [steady.files] at member
      cases member
  exact (whole_close whole).1.describes .audio

theorem media_ticks : media .audio (replicate n tick) = replicate n [7] :=
  filterMap_replicate_of_some rfl

theorem sample_1025_is_lost :
    described .audio (closeFragments fiveSeconds (run fiveSeconds (replicate 1025 tick))).files =
      some (replicate 1024 [7]) ∧
    media .audio (replicate 1025 tick) = replicate 1025 [7] :=
  ⟨steady_described steady_ticks,media_ticks⟩

end NgxRtmp.Dash
