import NgxRtmp.DashRuns

namespace NgxRtmp.Dash
open Octets Boxes Mp4Writer Mp4Boxes Mp4Segments List

def Message.buffer (m : Message) : List UInt8 := copyIn (m.buf.drop (headerSize m.type)::m.next) []

def sampleOf (m : Message) : Sample := ⟨UInt32.ofNat m.buffer.length,0,m.delay,m.timestamp,m.key⟩

-- Each sample lasts up to the next one, and the last has no duration.
def chain : List Sample → List Sample
  | [] => []
  | [s] => [s]
  | s::next::samples => {s with duration:=next.timestamp-s.timestamp}::chain (next::samples)

def listed (conf : Conf) (ctx : Ctx) : List Frag := (List.range ctx.nfrags).map (getFrag conf ctx)

def touch (conf : Conf) (timestamp : UInt32) (ctx : Ctx) : Ctx :=
  let f := getFrag conf ctx ctx.nfrags
  setFrag conf ctx ctx.nfrags (if 0 ≤ distance f timestamp then {f with duration:=timestamp-f.timestamp} else f)

-- A closed segment: its entry, its tracks and their messages, and the manifest written with it.
structure Closed where
  frag : Frag
  track : TrackType → Track
  parts : TrackType → List Message
  manifest : List Frag

def closing (conf : Conf) (parts : TrackType → List Message) (st : State) : List Closed :=
  if st.ctx.opened then
    [⟨getFrag conf st.ctx st.ctx.nfrags,st.ctx.track,parts,listed conf (closeFragments conf st).ctx⟩]
  else []

-- A run with what it has closed. Nothing of it is read by the code.
structure History where
  st : State
  parts : TrackType → List Message
  closed : List Closed

def History.step (conf : Conf) (h : History) : Event → History
  | .close => ⟨closeFragments conf h.st,fun _ => [],h.closed ++ closing conf h.parts h.st⟩
  | .av codec m =>
    if accepted codec m then
      let ctx := h.st.ctx.setHas m.type
      let starts := boundary conf ctx m.key m.timestamp
      ⟨Dash.step conf h.st (.av codec m),
        fun ttype => (if starts then [] else h.parts ttype) ++ if ttype = m.type then [m] else [],
        if starts then h.closed ++ closing conf h.parts {h.st with ctx:=touch conf m.timestamp ctx} else h.closed⟩
    else h

def history (conf : Conf) (events : List Event) : History := events.foldl (History.step conf) ⟨start,fun _ => [],[]⟩

theorem history_step {h : History} : (h.step conf event).st = Dash.step conf h.st event := by
  cases event with
  | close => rfl
  | av codec m =>
    by_cases taken : accepted codec m = true
    · simp only [History.step,taken,if_true]
    · simp only [History.step,taken,step_av]
      rfl

theorem history_run : (history conf events).st = run conf events := by
  have along : ∀ h : History, (events.foldl (History.step conf) h).st = events.foldl (Dash.step conf) h.st := by
    induction events with
    | nil => intro h; rfl
    | cons event events ih =>
      intro h
      rw [foldl_cons,foldl_cons,ih,history_step]
  exact along _

theorem updateFragments_eq :
    updateFragments conf key timestamp st =
      if boundary conf st.ctx key timestamp then
        let after := closeFragments conf {st with ctx:=touch conf timestamp st.ctx}
        let ctx := openFragments after.ctx
        {after with ctx:=setFrag conf ctx ctx.nfrags {getFrag conf ctx ctx.nfrags with timestamp}}
      else {st with ctx:=touch conf timestamp st.ctx} := rfl

-- The open fragment of a track, from the messages since it was opened.
structure Built (t : Track) (ttype : TrackType) (parts : List Message) : Prop where
  type : t.fragment.type = ttype
  own : ∀ m ∈ parts, m.type = ttype ∧ headerSize ttype ≤ m.buf.length
  samples : t.fragment.samples = chain ((parts.take maxSamples).map sampleOf)
  earliest : t.fragment.earliestPresTime = (parts.head?.map Message.timestamp).getD 0
  latest : t.fragment.latestPresTime = (parts.getLast?.map Message.timestamp).getD 0
  mdat : t.fragment.mdatSize = t.raw.length
  small : t.fragment.mdatSize ≤ maxMdat+bufSize

theorem chain_map (f : Sample → α) (same : ∀ s duration, f {s with duration} = f s) (samples : List Sample) :
    (chain samples).map f = samples.map f := by
  induction samples with
  | nil => rfl
  | cons s samples ih =>
    cases samples with
    | nil => rfl
    | cons next samples =>
      rw [chain,map_cons,map_cons,same,ih]

theorem chain_length : (chain samples).length = samples.length := by
  have units := congrArg List.length (chain_map (fun _ => ()) (fun _ _ => rfl) samples)
  simpa using units

theorem chain_snoc (samples : List Sample) (s : Sample) :
    setDuration s.timestamp (chain samples) ++ [s] = chain (samples ++ [s]) := by
  induction samples with
  | nil => rfl
  | cons first samples ih =>
    cases samples with
    | nil => rfl
    | cons next samples =>
      obtain ⟨head,tail,shape⟩ : ∃ head tail, chain (next::samples) = head::tail := by
        cases samples <;> exact ⟨_,_,rfl⟩
      change setDuration s.timestamp (_::chain (next::samples)) ++ [s] = _::chain (next::samples ++ [s])
      rw [← ih,shape]
      rfl

theorem Built.few (built : Built t ttype parts) : t.fragment.samples.length ≤ maxSamples := by
  rw [built.samples,chain_length,length_map]
  exact length_take_le _ _

theorem built_nothing {id : Nat} : Built ⟨true,⟨id,ttype,0,0,0,[]⟩,[]⟩ ttype [] :=
  ⟨rfl,by simp,rfl,rfl,rfl,rfl,Nat.zero_le _⟩

theorem buffer_short (m : Message) : m.buffer.length ≤ bufSize := by
  rw [Message.buffer,copyIn_eq _ (Nat.zero_le _),nil_append]
  exact length_take_le _ _

theorem built_add (built : Built t m.type parts) (room : t.fragment.mdatSize < maxMdat) (headed : headerSize m.type ≤ m.buf.length) :
    Built (t.add m.key m.timestamp m.delay m.buffer) m.type (parts ++ [m]) := by
  obtain ⟨type,own,samples,earliest,latest,mdat,small⟩ := built
  have all_own : ∀ other ∈ parts ++ [m], other.type = m.type ∧ headerSize m.type ≤ other.buf.length := by
    intro other member
    cases mem_append.mp member with
    | inl old => exact own other old
    | inr new =>
      cases mem_singleton.mp new
      exact ⟨rfl,headed⟩
  have count : t.fragment.samples.length = min maxSamples parts.length := by
    rw [samples,chain_length,length_map,length_take]
  have first : (if t.fragment.samples.length = 0 then m.timestamp else t.fragment.earliestPresTime) =
      ((parts ++ [m]).head?.map Message.timestamp).getD 0 := by
    cases parts with
    | nil => simp [count]
    | cons other parts =>
      have some_samples : t.fragment.samples.length ≠ 0 := by
        rw [count]
        simp [maxSamples]
      rw [if_neg some_samples,earliest]
      rfl
  have short := buffer_short m
  unfold Track.add
  simp only [first]
  split
  case isTrue few =>
    have all : parts.length < maxSamples := by
      rw [count] at few
      omega
    refine ⟨type,all_own,?_,rfl,by simp,?_,?_⟩
    · rw [take_of_length_le (le_of_lt all)] at samples
      have whole : (parts ++ [m]).take maxSamples = parts ++ [m] := by
        apply take_of_length_le
        rw [length_append]
        exact all
      simp only [samples,whole,map_append,map_cons,map_nil]
      exact chain_snoc (parts.map sampleOf) (sampleOf m)
    · simp [mdat]
    · simp only
      omega
  case isFalse full =>
    have more : maxSamples ≤ parts.length := by
      rw [count] at full
      omega
    refine ⟨type,all_own,?_,rfl,by simp,mdat,small⟩
    rw [take_append_of_le_length more]
    exact samples

@[simp] theorem track_touch (conf : Conf) (timestamp : UInt32) (ctx : Ctx) (ttype : TrackType) :
    (touch conf timestamp ctx).track ttype = ctx.track ttype := track_setFrag ..

@[simp] theorem opened_setHas (ctx : Ctx) (has : TrackType) : (ctx.setHas has).opened = ctx.opened := by
  cases has <;> rfl

@[simp] theorem opened_setTrack (ctx : Ctx) (t : Track) (ttype : TrackType) : (ctx.setTrack t ttype).opened = ctx.opened := by
  cases ttype <;> rfl

theorem update_tracks (conf : Conf) (key : Bool) (timestamp : UInt32) (st : State)
    (tracks : ∀ ttype, (st.ctx.track ttype).opened = st.ctx.opened) :
    (updateFragments conf key timestamp st).ctx.opened = true ∧
    (∀ ttype, ((updateFragments conf key timestamp st).ctx.track ttype).fragment.mdatSize < maxMdat) ∧
    ∃ id, ∀ ttype, (updateFragments conf key timestamp st).ctx.track ttype =
      if boundary conf st.ctx key timestamp then ⟨true,⟨id,ttype,0,0,0,[]⟩,[]⟩ else st.ctx.track ttype := by
  rw [updateFragments_eq]
  cases starts : boundary conf st.ctx key timestamp with
  | false =>
    obtain ⟨opened,small⟩ := boundary_open starts
    refine ⟨opened,?_,0,fun ttype => track_touch ..⟩
    intro ttype
    change ((touch conf timestamp st.ctx).track ttype).fragment.mdatSize < maxMdat
    rw [track_touch]
    exact small ttype
  | true =>
    simp only [if_true,track_setFrag]
    have closed : (closeFragments conf {st with ctx:=touch conf timestamp st.ctx}).ctx.opened = false ∧
        ∀ ttype, ((closeFragments conf {st with ctx:=touch conf timestamp st.ctx}).ctx.track ttype).opened = false := by
      cases opened : st.ctx.opened with
      | false =>
        rw [closeFragments_shut conf {st with ctx:=touch conf timestamp st.ctx} opened]
        exact ⟨opened,fun ttype => by rw [track_touch,tracks,opened]⟩
      | true =>
        obtain ⟨shut,each,_⟩ := closeFragments_open conf {st with ctx:=touch conf timestamp st.ctx} opened
          (fun ttype => by rw [track_touch,tracks,opened])
        exact ⟨shut,fun ttype => by rw [each]⟩
    obtain ⟨opened,empty⟩ := openFragments_shut closed.1 closed.2
    refine ⟨opened,?_,_,empty⟩
    intro ttype
    rw [empty]
    exact Nat.zero_lt_succ _

structure Kept (h : History) : Prop where
  tracks : ∀ ttype, (h.st.ctx.track ttype).opened = h.st.ctx.opened
  empty : h.st.ctx.opened = false → ∀ ttype, h.parts ttype = []
  built : h.st.ctx.opened = true → ∀ ttype, Built (h.st.ctx.track ttype) ttype (h.parts ttype)
  closed : ∀ c ∈ h.closed, ∀ ttype, Built (c.track ttype) ttype (c.parts ttype)

theorem kept_start : Kept ⟨start,fun _ => [],[]⟩ := by
  refine ⟨?_,fun _ _ => rfl,?_,?_⟩
  · intro ttype
    cases ttype <;> rfl
  · intro never
    cases never
  · intro c member
    cases member

theorem closing_built (conf : Conf) (kept : Kept h) (opened : ctx.opened = h.st.ctx.opened)
    (tracks : ∀ ttype, ctx.track ttype = h.st.ctx.track ttype) :
    ∀ c ∈ h.closed ++ closing conf h.parts {h.st with ctx:=ctx}, ∀ ttype, Built (c.track ttype) ttype (c.parts ttype) := by
  intro c member ttype
  cases mem_append.mp member with
  | inl before => exact kept.closed c before ttype
  | inr last =>
    unfold closing at last
    split at last
    case isFalse => cases last
    case isTrue now =>
      rw [mem_singleton.mp last]
      change Built (ctx.track ttype) ttype (h.parts ttype)
      rw [tracks]
      exact kept.built (opened.symm.trans now) ttype

theorem kept_close (kept : Kept h) : Kept (h.step conf .close) := by
  have closed := closing_built conf kept rfl (fun _ => rfl)
  cases opened : h.st.ctx.opened with
  | false =>
    have same : (h.step conf .close).st = h.st := closeFragments_shut conf h.st opened
    refine ⟨?_,fun _ _ => rfl,?_,closed⟩
    · rw [same]
      exact kept.tracks
    · rw [same,opened]
      intro never
      cases never
  | true =>
    obtain ⟨shut,each,_⟩ := closeFragments_open conf h.st opened (fun ttype => (kept.tracks ttype).trans opened)
    refine ⟨?_,fun _ _ => rfl,?_,closed⟩
    · intro ttype
      change ((closeFragments conf h.st).ctx.track ttype).opened = (closeFragments conf h.st).ctx.opened
      rw [each,shut]
    · intro never
      cases shut.symm.trans never

theorem kept_av (kept : Kept h) : Kept (h.step conf (.av codec m)) := by
  by_cases taken : accepted codec m = true
  · have headed : headerSize m.type ≤ m.buf.length := by
      simp only [accepted,Bool.and_eq_true,decide_eq_true_eq] at taken
      exact taken.1.2
    have tracks : ∀ ttype, ((h.st.ctx.setHas m.type).track ttype).opened = (h.st.ctx.setHas m.type).opened := by
      intro ttype
      rw [track_setHas,opened_setHas]
      exact kept.tracks ttype
    obtain ⟨opened,room,id,each⟩ := update_tracks conf m.key m.timestamp {h.st with ctx:=h.st.ctx.setHas m.type} tracks
    have built : ∀ ttype, Built ((updateFragments conf m.key m.timestamp {h.st with ctx:=h.st.ctx.setHas m.type}).ctx.track ttype)
        ttype (if boundary conf (h.st.ctx.setHas m.type) m.key m.timestamp then [] else h.parts ttype) := by
      intro ttype
      rw [each]
      cases starts : boundary conf (h.st.ctx.setHas m.type) m.key m.timestamp with
      | true => exact built_nothing
      | false =>
        simp only [Bool.false_eq_true,if_false,track_setHas]
        exact kept.built ((opened_setHas _ _).symm.trans (boundary_open starts).1) ttype
    simp only [History.step,taken,if_true,step_av]
    unfold append
    simp only
    refine ⟨?_,?_,?_,?_⟩
    · intro ttype
      rw [opened_setTrack,opened]
      by_cases own : ttype = m.type
      · rw [own,track_setTrack,add_opened,each]
        split
        · rfl
        · rename_i stays
          rw [tracks]
          exact (boundary_open (Bool.eq_false_iff.mpr stays)).1
      · rw [track_setTrack_ne own,each]
        split
        · rfl
        · rename_i stays
          rw [tracks]
          exact (boundary_open (Bool.eq_false_iff.mpr stays)).1
    · intro never
      rw [opened_setTrack,opened] at never
      cases never
    · intro _ ttype
      by_cases own : ttype = m.type
      · subst own
        rw [track_setTrack]
        simp only [if_true]
        exact built_add (built m.type) (room m.type) headed
      · rw [track_setTrack_ne own]
        simp only [own,if_false,append_nil]
        exact built ttype
    · split
      · exact closing_built conf kept (opened_setHas ..)
          (fun ttype => by rw [track_touch,track_setHas])
      · exact kept.closed
  · rw [History.step,if_neg taken]
    exact kept

theorem kept_history (conf : Conf) (events : List Event) : Kept (history conf events) := by
  induction events using List.reverseRecOn with
  | nil => exact kept_start
  | append_singleton events event ih =>
    rw [history,foldl_append]
    cases event with
    | close => exact kept_close ih
    | av codec m => exact kept_av ih

end NgxRtmp.Dash
