import NgxRtmp.Flv
import NgxRtmp.PlayQueue

namespace NgxRtmp.FlvPlayback
open ChunkWriter PlayQueue Flv

def csidOf : Track → UInt32
  | .audio => csidAudio
  | .video => csidVideo

-- ngx_rtmp_flv_ctx_t. An offset or a start timestamp of -1 is none.
structure Ctx where
  offset : Option Nat
  startTimestamp : Option Nat
  last : Track → UInt32
  mask : Track → Bool
  epoch : UInt32
  metaRead : Bool

-- The time, the player's buffer, and the room for the tag and for the metadata.
structure Env where
  now : UInt32
  buflen : UInt32
  sent : Bool
  metaSent : Bool

def bufferSize : Nat := 1048576
def buflenAddon : UInt32 := 1000

-- ngx_rtmp_flv_read_meta; the result of its send is not looked at.
def readMeta (file : List UInt8) (room : Bool) : List Message :=
  match readHead (readFile file tagHeader dataOffset) with
  | none => []
  | some head =>
    if head.type ≠ msgAmfMeta then []
    else if bufferSize < head.size then []
    else
      let body := readFile file head.size (tagHeader+dataOffset)
      if body.length = head.size ∧ room then [⟨⟨csidAmf,0,0,msgAmfMeta,msid⟩,none,[body]⟩] else []

-- ngx_rtmp_flv_timestamp_to_offset; `lookup` is the index in the metadata.
def timestampToOffset (lookup : Nat → Nat) : Option Nat → Nat
  | some (timestamp+1) => lookup (timestamp+1)
  | _ => dataOffset

def locate (lookup : Nat → Nat) (file : List UInt8) (env : Env) (ctx : Ctx) : Nat × Ctx × List Message :=
  match ctx.offset with
  | some offset => (offset,ctx,[])
  | none => (timestampToOffset lookup ctx.startTimestamp,{ctx with startTimestamp:=none,metaRead:=true},
      if ctx.metaRead then [] else readMeta file env.metaSent)

def schedule (env : Env) (timestamp : UInt32) (ctx : Ctx) : Rc × Ctx :=
  match ctx.startTimestamp with
  | none => (.ok,{ctx with startTimestamp:=some timestamp.toNat,epoch:=env.now})
  | some start =>
    let endTimestamp := env.now-ctx.epoch+UInt32.ofNat start+(env.buflen+buflenAddon)
    (if endTimestamp < timestamp then .wait (timestamp-endTimestamp) else .ok,ctx)

def put (f : Track → α) (track : Track) (x : α) : Track → α := fun other => if other = track then x else f other

-- An audio or video tag, whose body the buffer or the file may not hold.
def sendTag (env : Env) (head : Head) (track : Track) (body : List UInt8) (ctx : Ctx) : Rc × Ctx × List Message :=
  let h : Header := ⟨csidOf track,head.timestamp,0,head.type,msid⟩
  let lh := {h with timestamp:=ctx.last track}
  let ctx := {ctx with last:=put ctx.last track head.timestamp}
  if bufferSize < head.size then
    let (rc,ctx) := schedule env head.timestamp ctx
    (rc,ctx,[])
  else if body.length ≠ head.size then (.error,ctx,[])
  else if env.sent then
    let m : Message := ⟨h,if ctx.mask track then some lh else none,[body]⟩
    let (rc,ctx) := schedule env head.timestamp {ctx with mask:=put ctx.mask track true}
    (rc,ctx,[m])
  else (.again,ctx,[])

-- ngx_rtmp_flv_send: the result, the context and the messages queued.
def flvSend (lookup : Nat → Nat) (file : List UInt8) (env : Env) (ctx : Ctx) : Rc × Ctx × List Message :=
  let (offset,ctx,metas) := locate lookup file env ctx
  match readHead (readFile file tagHeader offset) with
  | none => (.done,{ctx with offset:=some offset},metas)
  | some head =>
    let ctx := {ctx with offset:=some (offset+(tagHeader+head.size+4))}
    match Track.ofType head.type with
    | none => (.ok,ctx,metas)
    | some track =>
      let (rc,ctx,sent) := sendTag env head track (readFile file head.size (offset+tagHeader)) ctx
      (rc,ctx,metas ++ sent)

def playLoop (lookup : Nat → Nat) (file : List UInt8) (env : Nat → Env) : Nat → Nat → Ctx → List Message → Option (List Message)
  | 0,_,_,_ => none
  | fuel+1,call,ctx,log =>
    let (rc,ctx,sent) := flvSend lookup file (env call) ctx
    if rc.ends then some (log ++ sent) else playLoop lookup file env fuel (call+1) ctx (log ++ sent)

-- ngx_rtmp_flv_init, ngx_rtmp_flv_seek to 0 and ngx_rtmp_flv_start
def opened (now : UInt32) : Ctx := ⟨none,some 0,fun _ => 0,fun _ => false,now,false⟩

def play (lookup : Nat → Nat) (file : List UInt8) (now : UInt32) (env : Nat → Env) : Option (List Message) :=
  playLoop lookup file env (file.length+1) 0 (opened now) []

def heard (clocks : Clocks) (log : List Message) : List (UInt8 × UInt32 × List UInt8) :=
  (recovered clocks log).filterMap fun (m,timestamp) =>
    if (Track.ofType m.h.type).isSome then some (m.h.type,timestamp,m.payload) else none

def Tag.isAv (t : Tag) : Bool := (Track.ofType t.type).isSome

def avTags (tags : List Tag) : List (UInt8 × UInt32 × List UInt8) :=
  (tags.filter Tag.isAv).map fun t => (t.type,t.timestamp,t.body)

def tagStep (env : Env) (ctx : Ctx) (t : Tag) : Rc × Ctx × List Message :=
  match Track.ofType t.type with
  | none => (.ok,ctx,[])
  | some track => sendTag env ⟨t.type,t.body.length,t.timestamp⟩ track t.body ctx

theorem schedule_goes :
    (schedule env timestamp ctx).1.ends = false ∧ (schedule env timestamp ctx).2.last = ctx.last ∧
      (schedule env timestamp ctx).2.mask = ctx.mask ∧ (schedule env timestamp ctx).2.offset = ctx.offset := by
  unfold schedule
  split
  · exact ⟨rfl,rfl,rfl,rfl⟩
  · dsimp only
    split <;> exact ⟨rfl,rfl,rfl,rfl⟩

-- What happens to a tag: it is left alone, skipped, refused or queued.
inductive Passed (env : Env) (ctx : Ctx) (t : Tag) : Rc × Ctx × List Message → Prop where
  | other (plain : Track.ofType t.type = none) : Passed env ctx t (.ok,ctx,[])
  | missed (av : Track.ofType t.type = some track) (reason : bufferSize < t.body.length ∨ env.sent = false)
      (goes : rc.ends = false) (last : next.last = put ctx.last track t.timestamp) (mask : next.mask = ctx.mask)
      (offset : next.offset = ctx.offset) : Passed env ctx t (rc,next,[])
  | queued (av : Track.ofType t.type = some track) (fits : t.body.length ≤ bufferSize) (sent : env.sent = true)
      (goes : rc.ends = false) (last : next.last = put ctx.last track t.timestamp) (mask : next.mask = put ctx.mask track true)
      (offset : next.offset = ctx.offset) :
      Passed env ctx t (rc,next,[⟨⟨csidOf track,t.timestamp,0,t.type,msid⟩,
        if ctx.mask track then some ⟨csidOf track,ctx.last track,0,t.type,msid⟩ else none,[t.body]⟩])

open List

theorem tagStep_passed (env : Env) (ctx : Ctx) (t : Tag) : Passed env ctx t (tagStep env ctx t) := by
  unfold tagStep
  cases av : Track.ofType t.type with
  | none => exact .other av
  | some track =>
    simp only [sendTag]
    by_cases big : bufferSize < t.body.length
    · rw [if_pos big]
      obtain ⟨goes,last,mask,offset⟩ := schedule_goes
      exact .missed av (.inl big) goes last mask offset
    · rw [if_neg big,if_neg (by simp)]
      by_cases sent : env.sent = true
      · rw [if_pos sent]
        obtain ⟨goes,last,mask,offset⟩ := schedule_goes
        exact .queued av (Nat.le_of_not_lt big) sent goes last mask offset
      · rw [if_neg sent]
        exact .missed av (.inr (by simpa using sent)) rfl rfl rfl rfl

theorem passed_goes (passed : Passed env ctx t result) : result.1.ends = false ∧ result.2.1.offset = ctx.offset := by
  cases passed with
  | other plain => exact ⟨rfl,rfl⟩
  | missed av reason goes last mask offset => exact ⟨goes,offset⟩
  | queued av fits sent goes last mask offset => exact ⟨goes,offset⟩

theorem schedule_offset (env : Env) (timestamp : UInt32) (ctx : Ctx) (offset : Option Nat) :
    schedule env timestamp {ctx with offset} =
      ((schedule env timestamp ctx).1,{(schedule env timestamp ctx).2 with offset}) := by
  obtain ⟨place,start,last,mask,epoch,metaRead⟩ := ctx
  cases start <;> rfl

theorem tagStep_offset :
    tagStep env {ctx with offset} t =
      ((tagStep env ctx t).1,{(tagStep env ctx t).2.1 with offset},(tagStep env ctx t).2.2) := by
  unfold tagStep
  cases Track.ofType t.type with
  | none => rfl
  | some track =>
    have whole : ¬t.body.length ≠ t.body.length := fun different => different rfl
    have missed := schedule_offset env t.timestamp {ctx with last:=put ctx.last track t.timestamp} offset
    have queued := schedule_offset env t.timestamp
      {ctx with last:=put ctx.last track t.timestamp,mask:=put ctx.mask track true} offset
    dsimp only at missed queued
    unfold sendTag
    dsimp only
    by_cases big : bufferSize < t.body.length
    · rw [if_pos big,if_pos big,missed]
    · rw [if_neg big,if_neg big,if_neg whole,if_neg whole]
      by_cases sent : env.sent = true
      · rw [if_pos sent,if_pos sent,queued]
      · rw [if_neg sent,if_neg sent]

theorem flvSend_tag {lookup : Nat → Nat} {after : List UInt8}
    (here : ctx.offset = some before.length) :
    flvSend lookup (before ++ (t.encode ++ after)) env ctx =
      tagStep env {ctx with offset:=some (before ++ t.encode).length} t := by
  obtain ⟨head,body⟩ := readFile_tag before after t
  have next : before.length+(tagHeader+t.body.length+4) = (before ++ t.encode).length := by simp
  unfold flvSend locate tagStep
  simp only [here,head,readHead_header,body,next,nil_append]

def tagsRun (env : Nat → Env) : Nat → Ctx → List Tag → List Message
  | _,_,[] => []
  | i,ctx,t::tags =>
    let (_,next,sent) := tagStep (env i) ctx t
    sent ++ tagsRun env (i+1) next tags

theorem tagsRun_offset : ∀ i ctx, tagsRun env i {ctx with offset} tags = tagsRun env i ctx tags := by
  induction tags with
  | nil => intro i ctx; rfl
  | cons t tags ih =>
    intro i ctx
    simp only [tagsRun,tagStep_offset,ih]

theorem playLoop_tags (lookup : Nat → Nat) (env : Nat → Env) (tags : List Tag) :
    ∀ before fuel i ctx log, tags.length < fuel → ctx.offset = some before.length →
      playLoop lookup (before ++ tags.flatMap Tag.encode) env fuel i ctx log = some (log ++ tagsRun env i ctx tags) := by
  induction tags with
  | nil =>
    intro before fuel i ctx log enough here
    cases fuel with
    | zero => cases enough
    | succ fuel =>
      have short : readHead (readFile before tagHeader before.length) = none := by
        rw [readFile_end]
        rfl
      simp only [flatMap_nil,append_nil,playLoop,flvSend,locate,here,short,Rc.ends,if_true,tagsRun]
  | cons t tags ih =>
    intro before fuel i ctx log enough here
    cases fuel with
    | zero => cases enough
    | succ fuel =>
      have passed := tagStep_passed (env i) {ctx with offset:=some (before ++ t.encode).length} t
      obtain ⟨goes,place⟩ := passed_goes passed
      rw [flatMap_cons,playLoop,flvSend_tag here]
      simp only
      rw [if_neg (by rw [goes]; exact Bool.false_ne_true),← append_assoc,
        ih (before ++ t.encode) fuel (i+1) _ _ (by simpa using enough) place,append_assoc]
      congr 2
      rw [tagStep_offset]
      simp only [tagsRun,tagsRun_offset]

def InSync (ctx : Ctx) (clocks : Clocks) : Prop :=
  ∀ track, ctx.mask track = true → (clocks (csidOf track)).timestamp = ctx.last track

theorem heard_cons (av : Track.ofType m.h.type = some track) :
    heard clocks (m::rest) =
      (m.h.type,(hear clocks m m.h.csid).timestamp,m.payload)::heard (hear clocks m) rest := by
  simp [heard,recovered,av]

theorem csid_injective (different : other ≠ one) : csidOf one ≠ csidOf other := by
  revert different
  cases one <;> cases other <;> decide

theorem track_named : csidOf track ≠ 0 := by
  cases track <;> decide

def passes (env : Nat → Env) (i : Nat) (t : Tag) : Prop :=
  Tag.isAv t = true → (env i).sent = true ∧ t.body.length ≤ bufferSize

theorem queued_clock (track : Track) (type : UInt8) (timestamp : UInt32) (body : List UInt8)
    (sync : InSync ctx clocks) :
    let m : Message := ⟨⟨csidOf track,timestamp,0,type,msid⟩,
      if ctx.mask track then some ⟨csidOf track,ctx.last track,0,type,msid⟩ else none,[body]⟩
    (hear clocks m (csidOf track)).timestamp = timestamp := by
  intro m
  by_cases before : ctx.mask track = true
  · exact hear_relative (m := m) (t := ctx.last track) (if_pos before) track_named rfl (sync track before)
  · exact hear_absolute (m := m) (if_neg before)

theorem tagsRun_heard :
    ∀ i ctx clocks, InSync ctx clocks → (∀ k t, tags[k]? = some t → passes env (i+k) t) →
      heard clocks (tagsRun env i ctx tags) = avTags tags := by
  induction tags with
  | nil => intro i ctx clocks _ _; rfl
  | cons t tags ih =>
    intro i ctx clocks sync all
    have own : passes env i t := all 0 t rfl
    have later : ∀ k other, tags[k]? = some other → passes env (i+1+k) other := by
      intro k other there
      have shifted := all (k+1) other there
      rwa [show i+(k+1) = i+1+k by omega] at shifted
    have passed := tagStep_passed (env i) ctx t
    unfold tagsRun
    generalize tagStep (env i) ctx t = result at passed
    cases passed with
    | other plain =>
      have skipped : avTags (t::tags) = avTags tags := by simp [avTags,Tag.isAv,plain]
      rw [skipped]
      exact ih (i+1) ctx clocks sync later
    | missed av reason goes last mask offset =>
      obtain ⟨sent,fits⟩ := own (by simp [Tag.isAv,av])
      rcases reason with big | refused
      · exact absurd fits (Nat.not_le_of_lt big)
      · rw [sent] at refused
        cases refused
    | queued av fits sent goes last mask offset =>
      rename_i track rc next
      have clock := queued_clock track t.type t.timestamp t.body sync
      have first : avTags (t::tags) = (t.type,t.timestamp,t.body)::avTags tags := by simp [avTags,Tag.isAv,av]
      simp only [singleton_append]
      rw [first,heard_cons (by exact av)]
      congr 1
      · simp only [Message.payload,flatten_cons,flatten_nil,append_nil]
        rw [clock]
      · refine ih (i+1) next _ ?_ later
        intro other set
        rw [last]
        by_cases same : other = track
        · rw [same]
          simp only [put,if_true]
          exact clock
        · rw [mask] at set
          simp only [put,if_neg same] at set ⊢
          rw [hear_other clocks (csid_injective same)]
          exact sync other set

theorem tagsRun_length :
    ∀ i ctx clocks, (heard clocks (tagsRun env i ctx tags)).length ≤ (avTags tags).length ∧
      ((heard clocks (tagsRun env i ctx tags)).length = (avTags tags).length →
        ∀ k t, tags[k]? = some t → passes env (i+k) t) := by
  induction tags with
  | nil => intro i ctx clocks; exact ⟨le_rfl,by intro _ k t there; cases there⟩
  | cons t tags ih =>
    intro i ctx clocks
    have passed := tagStep_passed (env i) ctx t
    unfold tagsRun
    generalize tagStep (env i) ctx t = result at passed
    have shift : ∀ P : Nat → Tag → Prop, P i t → (∀ k other, tags[k]? = some other → P (i+1+k) other) →
        ∀ k other, (t::tags)[k]? = some other → P (i+k) other := by
      intro P own later k other there
      cases k with
      | zero => cases there; exact own
      | succ k => rw [show i+(k+1) = i+1+k by omega]; exact later k other there
    cases passed with
    | other plain =>
      have skipped : avTags (t::tags) = avTags tags := by simp [avTags,Tag.isAv,plain]
      obtain ⟨least,all⟩ := ih (i+1) ctx clocks
      rw [skipped]
      refine ⟨least,fun same => shift _ ?_ (all same)⟩
      intro av
      simp [Tag.isAv,plain] at av
    | missed av reason goes last mask offset =>
      rename_i track rc next
      have first : (avTags (t::tags)).length = (avTags tags).length+1 := by simp [avTags,Tag.isAv,av]
      obtain ⟨least,_⟩ := ih (i+1) next clocks
      simp only [nil_append]
      refine ⟨by omega,?_⟩
      intro same
      omega
    | queued av fits sent goes last mask offset =>
      rename_i track rc next
      have first : (avTags (t::tags)).length = (avTags tags).length+1 := by simp [avTags,Tag.isAv,av]
      simp only [singleton_append]
      rw [heard_cons (by exact av),length_cons,first]
      obtain ⟨least,all⟩ := ih (i+1) next (hear clocks _)
      refine ⟨Nat.succ_le_succ least,fun same => shift _ ?_ (all (Nat.succ.inj same))⟩
      exact fun _ => ⟨sent,fits⟩

theorem readMeta_plain : ∀ m ∈ readMeta file room, Track.ofType m.h.type = none := by
  intro m inside
  unfold readMeta at inside
  split at inside
  · cases inside
  · split at inside
    · cases inside
    · split at inside
      · cases inside
      · dsimp only at inside
        split at inside
        · rw [mem_singleton.mp inside]
          rfl
        · cases inside

theorem heard_plain (clocks : Clocks) (metas log : List Message) (plain : ∀ m ∈ metas, Track.ofType m.h.type = none) :
    heard clocks (metas ++ log) = heard (hearAll clocks metas) log := by
  induction metas generalizing clocks with
  | nil => rfl
  | cons m metas ih =>
    have own := plain m mem_cons_self
    have rest := ih (hear clocks m) (fun other inside => plain other (mem_cons_of_mem _ inside))
    unfold heard at rest ⊢
    simp only [cons_append,recovered,filterMap_cons,own,Option.isSome_none,Bool.false_eq_true,if_false]
    exact rest

def located (now : UInt32) : Ctx := ⟨some dataOffset,none,fun _ => 0,fun _ => false,now,true⟩

theorem flvSend_opened {lookup : Nat → Nat} :
    flvSend lookup file env (opened now) =
      ((flvSend lookup file env (located now)).1,(flvSend lookup file env (located now)).2.1,
        readMeta file env.metaSent ++ (flvSend lookup file env (located now)).2.2) := by
  unfold flvSend
  simp only [locate,opened,located,timestampToOffset,Bool.false_eq_true,if_false,nil_append]
  split
  · simp
  · split
    · simp
    · rfl

theorem play_tags {lookup : Nat → Nat} :
    play lookup (encode version flags tags) now env =
      some (readMeta (encode version flags tags) (env 0).metaSent ++ tagsRun env 0 (located now) tags) := by
  have enough : tags.length < (encode version flags tags).length+1 := by
    have least := length_le_encode tags
    rw [encode,length_append]
    omega
  have whole := playLoop_tags lookup env tags (fileHeader version flags) ((encode version flags tags).length+1) 0 (located now)
    (readMeta (encode version flags tags) (env 0).metaSent) enough rfl
  rw [← whole]
  unfold play playLoop
  rw [flvSend_opened]
  simp [encode]

-- The tags, each with its timestamp, exactly when all fit the buffer and are taken the first time.
theorem flv_playback_iff (lookup : Nat → Nat) (now : UInt32) (env : Nat → Env) (version flags : UInt8) (tags : List Tag)
    (clocks : Clocks) :
    ∃ log, play lookup (encode version flags tags) now env = some log ∧
      (heard clocks log = avTags tags ↔ ∀ i t, tags[i]? = some t → Tag.isAv t = true →
        (env i).sent = true ∧ t.body.length ≤ bufferSize) := by
  refine ⟨_,play_tags,?_⟩
  rw [heard_plain clocks _ _ readMeta_plain]
  constructor
  · intro same i t there
    have all := (tagsRun_length 0 (located now) (hearAll clocks _)).2 (congrArg List.length same) i t there
    rwa [zero_add] at all
  · intro all
    refine tagsRun_heard 0 (located now) _ (fun track set => by cases set) ?_
    intro k t there
    rw [zero_add]
    exact all k t there

def soundTag (timestamp : UInt32) : Tag := ⟨msgAudio,timestamp,(0,0,0),[0xaf,1],by decide⟩

-- The second send finds the queue full; the third tag is sent as a difference to the lost one.
theorem refused_tag_is_lost :
    ∃ log, play (fun _ => 0) (encode 1 4 [soundTag 0,soundTag 20,soundTag 40]) 0
        (fun i => ⟨0,0,i != 1,true⟩) = some log ∧
      heard (fun _ => ⟨0,0⟩) log = [(8,0,[0xaf,1]),(8,20,[0xaf,1])] ∧
      avTags [soundTag 0,soundTag 20,soundTag 40] = [(8,0,[0xaf,1]),(8,20,[0xaf,1]),(8,40,[0xaf,1])] := by
  refine ⟨_,play_tags,?_⟩
  decide +kernel

end NgxRtmp.FlvPlayback
