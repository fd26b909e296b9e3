import NgxRtmp.Dash

namespace NgxRtmp.Dash
open Octets Boxes Mp4Writer Mp4Boxes Mp4Segments List

theorem copyIn_eq (bufs : List (List UInt8)) (inside : buffer.length ≤ bufSize) :
    copyIn bufs buffer = buffer ++ bufs.flatten.take (bufSize-buffer.length) := by
  induction bufs generalizing buffer with
  | nil => simp [copyIn]
  | cons buf bufs ih =>
    rw [copyIn,flatten_cons]
    by_cases full : bufSize ≤ buffer.length
    · have none : bufSize-buffer.length = 0 := by omega
      rw [if_pos full,none,take_zero,append_nil]
    · rw [if_neg full,ih (by simp only [length_append,length_take]; omega),append_assoc,take_append]
      congr 3
      simp only [length_append,length_take]
      omega

theorem copyOut_eq (inside : left ≤ raw.length) (enough : left < fuel) : copyOut fuel raw left out = out ++ raw.take left := by
  induction fuel generalizing raw left out with
  | zero => cases enough
  | succ fuel ih =>
    rw [copyOut]
    by_cases done : left = 0
    · rw [if_pos done,done,take_zero,append_nil]
    · have some_room : 0 < bufSize := by decide
      have length : (raw.take (min bufSize left)).length = min bufSize left := by
        rw [length_take]
        omega
      simp only [if_neg done,length]
      rw [ih (by rw [length_drop]; omega) (by omega),append_assoc]
      congr 1
      have split : left = min bufSize left+(left-min bufSize left) := by omega
      conv => rhs; rw [split,take_add]

theorem headers_fit (few : t.samples.length ≤ maxSamples) : (encodeAll (headBoxes t)).length+8 ≤ bufSize := by
  have length := headBoxes_length t
  have items : (sampleMask t.type).nitems ≤ 4 := by
    cases t.type <;> decide
  have most := Nat.mul_le_mul few items
  simp only [maxSamples,bufSize] at most ⊢
  omega

theorem segmentFile_eq (few : t.samples.length ≤ maxSamples) (size : t.mdatSize = raw.length) :
    segmentFile t raw = encodeAll (segmentBoxes t raw) := by
  have fits := headers_fit few
  have accepted : (buildSegment t ⟨List.replicate bufSize 0,0,false⟩).refused = false := by
    rw [buildSegment_fits (by rw [length_replicate]; exact fits)]
  rw [segmentFile,copyOut_eq (le_of_eq size) (Nat.lt_succ_self _),size,take_length,
    buildSegment_written size accepted]

theorem cut_parts (sized : mask.size = true) {samples : List Sample} (sizes : samples.map (fun s => s.size.toNat) = parts.map List.length) :
    cut (samples.map (entry mask)) parts.flatten = some parts := by
  induction parts generalizing samples with
  | nil =>
    rw [map_eq_nil_iff.mp sizes]
    rfl
  | cons part parts ih =>
    cases samples with
    | nil => cases sizes
    | cons s samples =>
      obtain ⟨size,others⟩ := cons_eq_cons.mp sizes
      have own : (entry mask s).size = part.length := by simpa [entry,sized] using size
      rw [map_cons,cut,own,flatten_cons,drop_left,take_left,ih others,
        if_neg (by simp only [length_append]; omega)]
      rfl

theorem segmentFile_reads (few : t.samples.length ≤ maxSamples) (size : t.mdatSize = raw.length)
    (small : t.mdatSize ≤ maxMdat+bufSize) :
    parse isoShape (segmentFile t raw) = some (segmentBoxes t raw) ∧
    readMoof (segmentBoxes t raw) = some (72,92+t.samples.length*(sampleMask t.type).nitems*4,
      t.samples.map (entry (sampleMask t.type))) := by
  have fits := headers_fit few
  have length := headBoxes_length t
  simp only [maxMdat,bufSize] at small fits
  rw [segmentFile_eq few size]
  exact ⟨segment_parses t raw (by omega) (by omega),readMoof_segment t raw (by omega)⟩

theorem readSegment_file (few : t.samples.length ≤ maxSamples)
    (size : t.mdatSize = parts.flatten.length) (small : t.mdatSize ≤ maxMdat+bufSize)
    (sizes : t.samples.map (fun s => s.size.toNat) = parts.map List.length) :
    readSegment (segmentFile t parts.flatten) = some parts := by
  have length := headBoxes_length t
  have sized : (sampleMask t.type).size = true := by
    cases t.type <;> rfl
  obtain ⟨parsed,found⟩ := segmentFile_reads few size small
  have place : 72+(92+t.samples.length*(sampleMask t.type).nitems*4) =
      (encodeAll (headBoxes t) ++ mdatHead (parts.flatten.length+8)).length := by
    rw [length_append,length,mdatHead_length]
    omega
  rw [readSegment,parsed]
  simp only [found]
  rw [segmentFile_eq few size]
  rw [segmentBoxes,encodeAll_append,mdat_encode,← append_assoc,place,drop_left]
  exact cut_parts sized sizes

structure Holding (t : Track) (parts : List (List UInt8)) : Prop where
  raw : t.raw = parts.flatten
  sizes : t.fragment.samples.map (fun s => s.size.toNat) = parts.map List.length
  mdat : t.fragment.mdatSize = parts.flatten.length
  few : t.fragment.samples.length ≤ maxSamples
  small : t.fragment.mdatSize ≤ maxMdat+bufSize

-- What the directory describes, and what the open fragment holds beyond it.
structure Whole (conf : Conf) (st : State) (closed parts : TrackType → List (List UInt8)) : Prop where
  tracks : ∀ ttype, (st.ctx.track ttype).opened = st.ctx.opened
  describes : ∀ ttype, described ttype st.files = some (closed ttype)
  holding : st.ctx.opened = true → ∀ ttype, Holding (st.ctx.track ttype) (parts ttype)
  empty : st.ctx.opened = false → ∀ ttype, parts ttype = []
  fresh : st.ctx.opened = true → ∀ file ∈ st.files, file.timestamp ≠ (getFrag conf st.ctx st.ctx.nfrags).timestamp

theorem readAll_snoc (first : readAll files = some samples)
    (last : readSegment file.bytes = some more) : readAll (files ++ [file]) = some (samples ++ more) := by
  induction files generalizing samples with
  | nil =>
    cases first
    simp [readAll,last]
  | cons other files ih =>
    rw [readAll] at first
    rw [cons_append,readAll]
    cases read : readSegment other.bytes with
    | none => simp [read] at first
    | some own =>
      simp only [read,Option.map_eq_some_iff] at first
      obtain ⟨rest,later,rfl⟩ := first
      simp [ih later]

theorem described_own (own : file.type = ttype) (first : described ttype files = some samples)
    (last : readSegment file.bytes = some more) : described ttype (files ++ [file]) = some (samples ++ more) := by
  have shape : (files ++ [file]).filter (fun other => other.type == ttype) =
      files.filter (fun other => other.type == ttype) ++ [file] := by simp [own]
  rw [described,shape]
  exact readAll_snoc first last

theorem described_other (other : file.type ≠ ttype) : described ttype (files ++ [file]) = described ttype files := by
  have shape : (files ++ [file]).filter (fun other => other.type == ttype) =
      files.filter (fun other => other.type == ttype) := by simp [other]
  rw [described,shape,described]

theorem createFile_fresh
    (fresh : ∀ other ∈ files, other.type = file.type → other.timestamp ≠ file.timestamp) :
    createFile files file = files ++ [file] := by
  have all : files.filter (fun other => !(other.type == file.type && other.timestamp == file.timestamp)) = files := by
    rw [filter_eq_self]
    intro other member
    have differs := fresh other member
    by_cases type : other.type = file.type
    · simp [differs type]
    · simp [type]
  rw [createFile,all]

@[simp] theorem track_setTrack {ctx : Ctx} : (ctx.setTrack t ttype).track ttype = t := by
  cases ttype <;> rfl

theorem track_setTrack_ne {ctx : Ctx} (other : ttype ≠ changed) : (ctx.setTrack t changed).track ttype = ctx.track ttype := by
  cases ttype <;> cases changed <;> first | rfl | exact absurd rfl other

@[simp] theorem track_setHas {ctx : Ctx} : (ctx.setHas has).track ttype = ctx.track ttype := by
  cases has <;> cases ttype <;> rfl

@[simp] theorem track_setFrag (conf : Conf) (ctx : Ctx) (n : Nat) (f : Frag) (ttype : TrackType) :
    (setFrag conf ctx n f).track ttype = ctx.track ttype := by
  cases ttype <;> rfl

@[simp] theorem getFrag_setFrag (conf : Conf) (ctx : Ctx) (n : Nat) (f : Frag) :
    getFrag conf (setFrag conf ctx n f) n = f := if_pos rfl

theorem nextFrag_parts : (nextFrag conf ctx).audio = ctx.audio ∧ (nextFrag conf ctx).video = ctx.video := by
  unfold nextFrag
  split
  · exact ⟨rfl,rfl⟩
  · exact ⟨rfl,rfl⟩

theorem closeFragments_open (conf : Conf) (st : State) (opened : st.ctx.opened = true)
    (tracks : ∀ ttype, (st.ctx.track ttype).opened = true) :
    (closeFragments conf st).ctx.opened = false ∧
    (∀ ttype, (closeFragments conf st).ctx.track ttype = {st.ctx.track ttype with opened:=false}) ∧
    (closeFragments conf st).files = createFile (createFile st.files
        ⟨.video,(getFrag conf st.ctx st.ctx.nfrags).timestamp,segmentFile st.ctx.video.fragment st.ctx.video.raw⟩)
      ⟨.audio,(getFrag conf st.ctx st.ctx.nfrags).timestamp,segmentFile st.ctx.audio.fragment st.ctx.audio.raw⟩ := by
  have video : st.ctx.video.opened = true := tracks .video
  have audio : st.ctx.audio.opened = true := tracks .audio
  have first : closeFragment conf .video st = ⟨{st.ctx with video:={st.ctx.video with opened:=false}},createFile st.files
      ⟨.video,(getFrag conf st.ctx st.ctx.nfrags).timestamp,segmentFile st.ctx.video.fragment st.ctx.video.raw⟩⟩ := by
    simp [closeFragment,Ctx.track,Ctx.setTrack,video]
  unfold closeFragments
  rw [if_neg (by simp [opened]),first]
  simp only [closeFragment,Ctx.track,audio,Bool.not_true,Bool.false_eq_true,if_false,Ctx.setTrack]
  refine ⟨trivial,?_,rfl⟩
  intro ttype
  obtain ⟨left,right⟩ := nextFrag_parts
  cases ttype with
  | audio => exact left
  | video => exact right

theorem closeFragments_shut (conf : Conf) (st : State) (shut : st.ctx.opened = false) : closeFragments conf st = st := by
  rw [closeFragments,if_pos (by simp [shut])]

theorem file_reads (holding : Holding t parts) : readSegment (segmentFile t.fragment t.raw) = some parts := by
  rw [holding.raw]
  exact readSegment_file holding.few holding.mdat holding.small holding.sizes

theorem whole_close (whole : Whole conf st closed parts) :
    Whole conf (closeFragments conf st) (fun ttype => closed ttype ++ parts ttype) (fun _ => []) ∧
    (closeFragments conf st).ctx.opened = false ∧
    ∀ file ∈ (closeFragments conf st).files, file ∈ st.files ∨
      st.ctx.opened = true ∧ file.timestamp = (getFrag conf st.ctx st.ctx.nfrags).timestamp := by
  cases opened : st.ctx.opened with
  | false =>
    rw [closeFragments_shut conf st opened]
    have same : (fun ttype => closed ttype ++ parts ttype) = closed := by
      funext ttype
      rw [whole.empty opened ttype,append_nil]
    rw [same]
    refine ⟨⟨whole.tracks,whole.describes,?_,fun _ _ => rfl,whole.fresh⟩,opened,fun file member => .inl member⟩
    intro never
    rw [opened] at never
    cases never
  | true =>
    obtain ⟨shut,tracks,files⟩ := closeFragments_open conf st opened (fun ttype => (whole.tracks ttype).trans opened)
    have holding := whole.holding opened
    have fresh := whole.fresh opened
    generalize (getFrag conf st.ctx st.ctx.nfrags).timestamp = name at files fresh ⊢
    have video := file_reads (holding .video)
    have audio := file_reads (holding .audio)
    rw [createFile_fresh (fun other member _ => fresh other member),createFile_fresh] at files
    · refine ⟨⟨?_,?_,?_,fun _ _ => rfl,?_⟩,shut,?_⟩
      · intro ttype
        rw [tracks,shut]
      · intro ttype
        rw [files]
        cases ttype with
        | audio =>
          refine described_own rfl ?_ audio
          rw [described_other (by simp)]
          exact whole.describes .audio
        | video =>
          rw [described_other (by simp)]
          exact described_own rfl (whole.describes .video) video
      · intro never
        rw [shut] at never
        cases never
      · intro never
        rw [shut] at never
        cases never
      · intro file member
        rw [files] at member
        simp only [mem_append,mem_singleton] at member
        rcases member with (old | rfl) | rfl
        · exact .inl old
        · exact .inr ⟨rfl,rfl⟩
        · exact .inr ⟨rfl,rfl⟩
    · intro other member type
      simp only [mem_append,mem_singleton] at member
      rcases member with old | rfl
      · exact fresh other old
      · cases type

theorem openFragments_shut (shut : ctx.opened = false) (tracks : ∀ ttype, (ctx.track ttype).opened = false) :
    (openFragments ctx).opened = true ∧
      ∀ ttype, (openFragments ctx).track ttype = ⟨true,⟨ctx.id,ttype,0,0,0,[]⟩,[]⟩ := by
  have video : ctx.video.opened = false := tracks .video
  have audio : ctx.audio.opened = false := tracks .audio
  have same : openFragments ctx = {ctx with
      opened:=true,video:=⟨true,⟨ctx.id,.video,0,0,0,[]⟩,[]⟩,audio:=⟨true,⟨ctx.id,.audio,0,0,0,[]⟩,[]⟩} := by
    simp [openFragments,openFragment,Ctx.track,Ctx.setTrack,shut,video,audio]
  rw [same]
  refine ⟨rfl,?_⟩
  intro ttype
  cases ttype <;> rfl

theorem holding_nothing {id : Nat} : Holding ⟨true,⟨id,ttype,0,0,0,[]⟩,[]⟩ [] :=
  ⟨rfl,rfl,rfl,Nat.zero_le _,Nat.zero_le _⟩

theorem whole_open (whole : Whole conf st closed (fun _ => [])) (shut : st.ctx.opened = false)
    (fresh : ∀ file ∈ st.files, file.timestamp ≠ timestamp) (opens : ctx = openFragments st.ctx) :
    Whole conf {st with ctx:=setFrag conf ctx ctx.nfrags {getFrag conf ctx ctx.nfrags with timestamp}} closed (fun _ => []) ∧
      ctx.opened = true ∧ ∀ ttype, (ctx.track ttype).fragment.samples = [] ∧ (ctx.track ttype).fragment.mdatSize = 0 := by
  obtain ⟨opened,tracks⟩ := openFragments_shut shut (fun ttype => (whole.tracks ttype).trans shut)
  rw [← opens] at opened tracks
  refine ⟨⟨?_,whole.describes,?_,fun _ _ => rfl,?_⟩,opened,?_⟩
  · intro ttype
    change ((setFrag conf ctx ctx.nfrags _).track ttype).opened = ctx.opened
    rw [track_setFrag,tracks,opened]
  · intro _ ttype
    change Holding ((setFrag conf ctx ctx.nfrags _).track ttype) []
    rw [track_setFrag,tracks]
    exact holding_nothing
  · intro _ file member
    change file.timestamp ≠ (getFrag conf (setFrag conf ctx ctx.nfrags _) ctx.nfrags).timestamp
    rw [getFrag_setFrag]
    exact fresh file member
  · intro ttype
    rw [tracks]
    exact ⟨rfl,rfl⟩

theorem boundary_open (stays : boundary conf ctx key timestamp = false) :
    ctx.opened = true ∧ ∀ ttype, (ctx.track ttype).fragment.mdatSize < maxMdat := by
  unfold boundary at stays
  simp only [Bool.or_eq_false_iff,decide_eq_false_iff_not,Bool.not_eq_false',not_le] at stays
  obtain ⟨⟨⟨_,audio⟩,video⟩,opened⟩ := stays
  refine ⟨opened,?_⟩
  intro ttype
  cases ttype with
  | audio => exact audio
  | video => exact video

theorem whole_frag (whole : Whole conf st closed parts)
    (same : f.timestamp = (getFrag conf st.ctx st.ctx.nfrags).timestamp) :
    Whole conf {st with ctx:=setFrag conf st.ctx st.ctx.nfrags f} closed parts := by
  refine ⟨?_,whole.describes,?_,whole.empty,?_⟩
  · intro ttype
    change ((setFrag conf st.ctx st.ctx.nfrags f).track ttype).opened = st.ctx.opened
    rw [track_setFrag,whole.tracks]
  · intro opened ttype
    change Holding ((setFrag conf st.ctx st.ctx.nfrags f).track ttype) (parts ttype)
    rw [track_setFrag]
    exact whole.holding opened ttype
  · intro opened file member
    change file.timestamp ≠ (getFrag conf (setFrag conf st.ctx st.ctx.nfrags f) st.ctx.nfrags).timestamp
    rw [getFrag_setFrag,same]
    exact whole.fresh opened file member

theorem whole_update (whole : Whole conf st closed parts)
    (fresh : boundary conf st.ctx key timestamp = true → (∀ file ∈ st.files, file.timestamp ≠ timestamp) ∧
      (st.ctx.opened = true → (getFrag conf st.ctx st.ctx.nfrags).timestamp ≠ timestamp)) :
    ∃ closed' parts', Whole conf (updateFragments conf key timestamp st) closed' parts' ∧
      (∀ ttype, closed' ttype ++ parts' ttype = closed ttype ++ parts ttype) ∧
      (updateFragments conf key timestamp st).ctx.opened = true ∧
      ∀ ttype, ((updateFragments conf key timestamp st).ctx.track ttype).fragment.mdatSize < maxMdat ∧
        ((boundary conf st.ctx key timestamp = false → (st.ctx.track ttype).fragment.samples.length < maxSamples) →
          ((updateFragments conf key timestamp st).ctx.track ttype).fragment.samples.length < maxSamples) := by
  have touched : ∀ f : Frag, f = (if 0 ≤ distance (getFrag conf st.ctx st.ctx.nfrags) timestamp then
      {getFrag conf st.ctx st.ctx.nfrags with duration:=timestamp-(getFrag conf st.ctx st.ctx.nfrags).timestamp}
      else getFrag conf st.ctx st.ctx.nfrags) → f.timestamp = (getFrag conf st.ctx st.ctx.nfrags).timestamp := by
    intro f shape
    rw [shape]
    split
    · rfl
    · rfl
  unfold updateFragments
  simp only
  generalize (if 0 ≤ distance (getFrag conf st.ctx st.ctx.nfrags) timestamp then
    {getFrag conf st.ctx st.ctx.nfrags with duration:=timestamp-(getFrag conf st.ctx st.ctx.nfrags).timestamp}
    else getFrag conf st.ctx st.ctx.nfrags) = f at touched
  have same := touched f rfl
  have kept := whole_frag whole same
  cases starts : boundary conf st.ctx key timestamp with
  | false =>
    obtain ⟨opened,small⟩ := boundary_open starts
    rw [if_neg (by simp)]
    refine ⟨closed,parts,kept,fun _ => rfl,opened,?_⟩
    intro ttype
    change ((setFrag conf st.ctx st.ctx.nfrags f).track ttype).fragment.mdatSize < maxMdat ∧ (_ →
      ((setFrag conf st.ctx st.ctx.nfrags f).track ttype).fragment.samples.length < maxSamples)
    rw [track_setFrag]
    exact ⟨small ttype,fun room => room rfl⟩
  | true =>
    obtain ⟨unused,current⟩ := fresh starts
    obtain ⟨moved,shut,names⟩ := whole_close kept
    rw [if_pos rfl]
    generalize closeFragments conf {st with ctx:=setFrag conf st.ctx st.ctx.nfrags f} = after at moved shut names ⊢
    have free : ∀ file ∈ after.files, file.timestamp ≠ timestamp := by
      intro file member
      cases names file member with
      | inl old => exact unused file old
      | inr last =>
        have name : file.timestamp = f.timestamp := last.2.trans (congrArg Frag.timestamp (getFrag_setFrag _ _ _ _))
        rw [name,same]
        exact current last.1
    obtain ⟨opens,opened,new⟩ := whole_open moved shut free rfl
    refine ⟨_,_,opens,fun ttype => append_nil _,opened,?_⟩
    intro ttype
    obtain ⟨none,zero⟩ := new ttype
    change ((setFrag conf (openFragments after.ctx) _ _).track ttype).fragment.mdatSize < maxMdat ∧ (_ →
      ((setFrag conf (openFragments after.ctx) _ _).track ttype).fragment.samples.length < maxSamples)
    rw [track_setFrag,none,zero]
    exact ⟨by decide,fun _ => by decide⟩

theorem setDuration_sizes (timestamp : UInt32) (samples : List Sample) :
    (setDuration timestamp samples).map (fun s => s.size.toNat) = samples.map (fun s => s.size.toNat) := by
  induction samples with
  | nil => rfl
  | cons s samples ih =>
    cases samples with
    | nil => rfl
    | cons next samples => simpa [setDuration] using ih

theorem holding_add (holding : Holding t parts) (few : t.fragment.samples.length < maxSamples)
    (small : t.fragment.mdatSize < maxMdat) (short : buffer.length ≤ bufSize) :
    Holding (t.add key timestamp delay buffer) (parts ++ [buffer]) := by
  have length : (setDuration timestamp t.fragment.samples).length = t.fragment.samples.length := by
    have sizes := congrArg List.length (setDuration_sizes timestamp t.fragment.samples)
    simpa using sizes
  have number : (UInt32.ofNat buffer.length).toNat = buffer.length := by
    simp only [UInt32.toNat_ofNat',bufSize] at short ⊢
    omega
  have mdat := holding.mdat
  unfold Track.add
  simp only [if_pos few]
  refine ⟨?_,?_,?_,?_,?_⟩
  · simp [holding.raw]
  · simp only [map_append,setDuration_sizes,holding.sizes,map_cons,map_nil,number]
  · simp only [flatten_append,flatten_singleton,length_append]
    omega
  · simp only [length_append,length,length_singleton]
    omega
  · simp only
    omega

theorem add_opened (t : Track) (key : Bool) (timestamp delay : UInt32) (buffer : List UInt8) :
    (t.add key timestamp delay buffer).opened = t.opened := by
  unfold Track.add
  dsimp only
  split
  · rfl
  · rfl

theorem whole_add (whole : Whole conf st closed parts) (opened : st.ctx.opened = true) {ttype : TrackType}
    (few : (st.ctx.track ttype).fragment.samples.length < maxSamples) (small : (st.ctx.track ttype).fragment.mdatSize < maxMdat)
    (short : buffer.length ≤ bufSize) (key : Bool) (timestamp delay : UInt32) :
    Whole conf {st with ctx:=st.ctx.setTrack ((st.ctx.track ttype).add key timestamp delay buffer) ttype} closed
      (fun other => if other = ttype then parts other ++ [buffer] else parts other) := by
  have holding := whole.holding opened
  have kept := add_opened (st.ctx.track ttype) key timestamp delay buffer
  have context : ∀ t : Track, (st.ctx.setTrack t ttype).opened = st.ctx.opened ∧
      getFrag conf (st.ctx.setTrack t ttype) (st.ctx.setTrack t ttype).nfrags = getFrag conf st.ctx st.ctx.nfrags := by
    intro t
    cases ttype <;> exact ⟨rfl,rfl⟩
  obtain ⟨same,current⟩ := context ((st.ctx.track ttype).add key timestamp delay buffer)
  refine ⟨?_,whole.describes,?_,?_,?_⟩
  · intro other
    rw [same]
    by_cases own : other = ttype
    · rw [own,track_setTrack,kept,whole.tracks]
    · rw [track_setTrack_ne own,whole.tracks]
  · intro _ other
    by_cases own : other = ttype
    · rw [own,track_setTrack,if_pos rfl]
      exact holding_add (holding ttype) few small short
    · rw [track_setTrack_ne own,if_neg own]
      exact holding other
  · intro never
    rw [same,opened] at never
    cases never
  · intro _ file member
    rw [current]
    exact whole.fresh opened file member

end NgxRtmp.Dash
