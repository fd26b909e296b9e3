import NgxRtmp.LiveTableEffects

namespace NgxRtmp.SessionNames

open LiveTable Function List

-- A name in a command, as ngx_rtmp_cmd_fill_args has left it: a C string.
structure Text where
  name : Name
  plain : (0 : UInt8) ∉ name.bytes

-- s->name. Every copy is of fewer than 256 bytes, so the string ends inside.
structure Buffer where
  bytes : List UInt8
  size : bytes.length = 256
  ends : bytes[255]? = some 0

def Buffer.zeroed : Buffer := ⟨replicate 256 0,length_replicate,getElem?_replicate_of_lt (by decide)⟩

-- ngx_memcpy of a string without its end, as ngx_rtmp_cmd_publish_init and
-- ngx_rtmp_cmd_play_init have it.
def Buffer.copy (b : Buffer) (name : Name) : Buffer where
  bytes := name.bytes ++ b.bytes.drop name.bytes.length
  size := by
    have fits := name.fits
    simp only [length_append,length_drop,b.size]
    omega
  ends := by
    have fits := name.fits
    rw [getElem?_append_right (by omega),getElem?_drop,show name.bytes.length+(255-name.bytes.length) = 255 by omega]
    exact b.ends

def Buffer.terminate (b : Buffer) (i : Nat) : Buffer where
  bytes := b.bytes.set i 0
  size := by rw [length_set,b.size]
  ends := by
    rw [getElem?_set]
    split
    · rw [if_pos (by rw [b.size]; omega)]
    · exact b.ends

def Buffer.text (b : Buffer) : List UInt8 := b.bytes.takeWhile (· ≠ 0)

theorem Buffer.text_fits (b : Buffer) : b.text.length < 256 := by
  have least : b.text.length ≤ b.bytes.length := (List.takeWhile_prefix _).length_le
  rw [b.size] at least
  refine Nat.lt_of_le_of_ne least fun full => ?_
  have whole : b.text = b.bytes := (List.takeWhile_prefix _).eq_of_length (full.trans b.size.symm)
  have member : (0 : UInt8) ∈ b.text := whole ▸ mem_of_getElem? b.ends
  simpa using all_eq_true.mp all_takeWhile 0 member

def Buffer.name (b : Buffer) : Name := ⟨b.text,b.text_fits⟩

structure State where
  table : Table
  buffers : Nat → Buffer

def State.initial : State := ⟨.initial,fun _ => .zeroed⟩

-- `init` is the copy in ngx_rtmp_cmd_publish_init and ngx_rtmp_cmd_play_init, which may come at once,
-- later or never.
inductive Event where
  | init (a : Nat) (text : Text)
  | accept
  | publish (a : Nat) (text : Text)
  | play (a : Nat) (text : Text) (relayed relaying : Bool)
  | close (a : Nat)
  | check (i : Nat)

-- ngx_rtmp_live_join writes the name where it links the session.
def written (t u : Table) (buffers : Nat → Buffer) (a : Nat) (name : Name) : Nat → Buffer :=
  if (t.context a).stream.isNone && (u.context a).stream.isSome then
    update buffers a (((buffers a).copy name).terminate name.bytes.length)
  else buffers

def handle (conf : Conf) (s : State) : Event → Option State
  | .init a text => some (if a < s.table.contexts.top then {s with buffers:=update s.buffers a ((s.buffers a).copy text.name)} else s)
  | .accept => (LiveTable.handle conf s.table .accept).map fun u => ⟨u,update s.buffers s.table.contexts.top .zeroed⟩
  | .publish a text => (LiveTable.handle conf s.table (.publish a text.name)).map fun u => ⟨u,written s.table u s.buffers a text.name⟩
  | .play a text relayed relaying =>
    (LiveTable.handle conf s.table (.play a text.name relayed relaying)).map fun u => ⟨u,written s.table u s.buffers a text.name⟩
  | .close a => (LiveTable.handle conf s.table (.close a)).map ({s with table:=·})
  | .check i => (LiveTable.handle conf s.table (.check i)).map ({s with table:=·})

def step (conf : Conf) (state : Option State) (event : Event) : Option State := state.bind (handle conf · event)

-- ngx_rtmp_live_get_stream_by_session, which reads through a null pointer where
-- nothing is found.
def getStreamBySession (conf : Conf) (s : State) (a : Nat) : Option Nat :=
  (getStream conf s.table (s.buffers a).name).bind (·.2)

section Texts

theorem takeWhile_text {text : List UInt8} (plain : 0 ∉ text) :
    (text ++ rest).takeWhile (· ≠ 0) = text ++ rest.takeWhile (· ≠ 0) := by
  apply takeWhile_append_of_pos
  intro b member
  rw [decide_eq_true_eq]
  rintro rfl
  exact plain member

theorem text_terminated {b : Buffer} {text : Text} :
    ((b.copy text.name).terminate text.name.bytes.length).text = text.name.bytes := by
  have fits := text.name.fits
  have size : (b.bytes.drop text.name.bytes.length).length = 256-text.name.bytes.length := by rw [length_drop,b.size]
  change ((text.name.bytes ++ b.bytes.drop text.name.bytes.length).set text.name.bytes.length 0).takeWhile (· ≠ 0) = _
  cases rest : b.bytes.drop text.name.bytes.length with
  | nil =>
    rw [rest,length_nil] at size
    omega
  | cons c rest =>
    rw [set_append_right _ _ le_rfl,Nat.sub_self,set_cons_zero,takeWhile_text text.plain]
    simp

theorem text_copied {b : Buffer} {text : Text} : (b.copy text.name).text = b.text ↔ text.name.bytes <+: b.text := by
  constructor
  · intro same
    have copied : (b.copy text.name).text = text.name.bytes ++ (b.bytes.drop text.name.bytes.length).takeWhile (· ≠ 0) :=
      takeWhile_text text.plain
    rw [← same,copied]
    exact prefix_append ..
  · intro begins
    obtain ⟨rest,same⟩ := begins.trans (List.takeWhile_prefix _)
    change (text.name.bytes ++ b.bytes.drop text.name.bytes.length).takeWhile (· ≠ 0) = _
    rw [← same,drop_left,same]
    rfl

end Texts

def Named (s : State) : Prop := ∀ a i, (s.table.context a).stream = some i → (s.buffers a).text = (s.table.stream i).name.bytes

section Steps

variable {conf : Conf} {s : State} {u : Table}

theorem effect_named (named : Named s) (effect : Effect s.table u a ctx) (others : ∀ x, x ≠ a → buffers x = s.buffers x)
    (own : ∀ i, ctx.stream = some i → (buffers a).text = (u.stream i).name.bytes) : Named ⟨u,buffers⟩ := by
  intro x i joined
  change (u.context x).stream = some i at joined
  change (buffers x).text = (u.stream i).name.bytes
  by_cases same : x = a
  · subst same
    rw [effect.own] at joined
    exact own i joined
  · rw [effect.others x same] at joined
    rw [others x same,effect.names x i joined]
    exact named x i joined

theorem written_same : written t t buffers a name = buffers := by
  unfold written
  cases (t.context a).stream <;> rfl

theorem joined_named (named : Named s) {text : Text} (joined : Joined conf s.table a text.name side relayed u) :
    Named ⟨u,written s.table u s.buffers a text.name⟩ := by
  cases joined with
  | already _ =>
    rw [written_same]
    exact named
  | refused idle _ effect =>
    have skipped : written s.table u s.buffers a text.name = s.buffers := by simp [written,effect.own,Ctx.zeroed]
    rw [skipped]
    exact effect_named named effect (fun _ _ => rfl) (fun i joined => by cases joined)
  | linked idle _ effect same =>
    have wrote : written s.table u s.buffers a text.name =
        update s.buffers a (((s.buffers a).copy text.name).terminate text.name.bytes.length) := by
      simp [written,effect.own,idle]
    rw [wrote]
    refine effect_named named effect (fun x other => update_of_ne other _ _) fun i joined => ?_
    cases joined
    rw [update_self,text_terminated,same]

-- A command that comes while the session is joined names the stream or begins its name.
def NameBegins (state : Option State) (event : Event) : Prop :=
  ∀ s, state = some s → ∀ a text, event = .init a text → a < s.table.contexts.top → ∀ i, (s.table.context a).stream = some i →
    text.name.bytes <+: (s.table.stream i).name.bytes

def Upright (conf : Conf) (s : State) : Prop := ∃ own subs, Linked conf s.table none own subs

theorem init_named (named : Named s) {text : Text}
    (begins : ∀ i, (s.table.context a).stream = some i → text.name.bytes <+: (s.table.stream i).name.bytes) :
    Named {s with buffers:=update s.buffers a ((s.buffers a).copy text.name)} := by
  intro x i joined
  change (s.table.context x).stream = some i at joined
  change (update s.buffers a _ x).text = (s.table.stream i).name.bytes
  by_cases same : x = a
  · subst same
    rw [update_self,← named x i joined,text_copied,named x i joined]
    exact begins i joined
  · rw [update_of_ne same]
    exact named x i joined

theorem step_named (state : Option State) (event : Event) (begins : NameBegins state event)
    (kept : ∃ s, state = some s ∧ Upright conf s ∧ Named s) : ∃ s, step conf state event = some s ∧ Upright conf s ∧ Named s := by
  obtain ⟨s,rfl,⟨own,subs,linked⟩,named⟩ := kept
  cases event with
  | init a text =>
    by_cases inside : a < s.table.contexts.top
    · refine ⟨_,congrArg some (if_pos inside),⟨_,_,linked⟩,init_named named ?_⟩
      exact begins s rfl a text rfl inside
    · exact ⟨_,congrArg some (if_neg inside),⟨_,_,linked⟩,named⟩
  | accept =>
    obtain ⟨u,handled,still,done⟩ := handle_effect linked .accept
    cases done with
    | outside session _ => cases session
    | accepted =>
      refine ⟨_,rfl,still,fun x i joined => ?_⟩
      change (Cells.Heap.val (s.table.contexts.alloc .zeroed) x).stream = some i at joined
      rw [Cells.alloc_val] at joined
      split at joined
      · cases joined
      · rename_i other
        change (update s.buffers s.table.contexts.top _ x).text = _
        rw [update_of_ne other]
        exact named x i joined
  | publish a text =>
    obtain ⟨u,handled,still,done⟩ := handle_effect linked (.publish a text.name)
    refine ⟨⟨u,written s.table u s.buffers a text.name⟩,congrArg (Option.map _) handled,still,?_⟩
    cases done with
    | outside _ _ =>
      rw [written_same]
      exact named
    | published inside joined => exact joined_named named joined
  | play a text relayed relaying =>
    obtain ⟨u,handled,still,done⟩ := handle_effect linked (.play a text.name relayed relaying)
    refine ⟨⟨u,written s.table u s.buffers a text.name⟩,congrArg (Option.map _) handled,still,?_⟩
    cases done with
    | outside _ _ =>
      rw [written_same]
      exact named
    | played inside joined => exact joined_named named joined
  | close a =>
    obtain ⟨u,handled,still,done⟩ := handle_effect linked (.close a)
    refine ⟨⟨u,s.buffers⟩,congrArg (Option.map _) handled,still,?_⟩
    cases done with
    | outside _ _ => exact named
    | idle _ => exact named
    | closed inside joined effect => exact effect_named named effect (fun _ _ => rfl) (fun i joined => by cases joined)
  | check j =>
    obtain ⟨u,handled,still,done⟩ := handle_effect linked (.check j)
    refine ⟨⟨u,s.buffers⟩,congrArg (Option.map fun table => State.mk table s.buffers) handled,still,fun x i joined => ?_⟩
    cases done with
    | outside session _ => cases session
    | checked contexts names =>
      change (s.buffers x).text = (u.stream i).name.bytes
      rw [names i]
      apply named
      rw [← joined]
      unfold Table.context
      rw [contexts]

def Consistent (conf : Conf) (state : Option State) : Prop := ∃ s, state = some s ∧
  ∀ a i, (s.table.context a).stream = some i → (s.buffers a).text = (s.table.stream i).name.bytes ∧ getStreamBySession conf s a = some i

theorem named_consistent (upright : Upright conf s) (named : Named s) : Consistent conf (some s) := by
  obtain ⟨own,subs,linked⟩ := upright
  refine ⟨s,rfl,fun a i joined => ⟨named a i joined,?_⟩⟩
  obtain ⟨slot,found,result,exact_found⟩ := getStream_found linked
  have same : (s.table.stream i).name = (s.buffers a).name := by
    unfold Buffer.name
    simp only [named a i joined]
  unfold getStreamBySession
  rw [result]
  exact (exact_found i).mpr ⟨(linked.sound.joined a i joined).1,same⟩

end Steps

theorem session_name_exact (conf : Conf) (events : List Event) :
    (∀ n, Consistent conf ((events.take n).foldl (step conf) (some .initial))) ↔
      Runs.Along (step conf) NameBegins (some .initial) events := by
  have seen : ∀ state event, (∃ s, state = some s ∧ Upright conf s ∧ Named s) → Consistent conf (step conf state event) →
      NameBegins state event := by
    rintro _ event ⟨s,rfl,_,named⟩ ⟨v,result,consistent⟩ _ ⟨⟩ a text rfl inside i joined
    have copied : step conf (some s) (.init a text) = some {s with buffers:=update s.buffers a ((s.buffers a).copy text.name)} :=
      congrArg some (if_pos inside)
    cases copied.symm.trans result
    have same := (consistent a i joined).1
    change (update s.buffers a _ a).text = (s.table.stream i).name.bytes at same
    rw [update_self,← named a i joined] at same
    rw [← named a i joined]
    exact text_copied.mp same
  refine Runs.along_exact step_named ?_ seen ⟨_,rfl,⟨_,_,initial_linked conf⟩,?_⟩
  · rintro _ ⟨s,rfl,upright,named⟩
    exact named_consistent upright named
  · intro a i joined
    cases joined

-- A session that publishes `abc` and is then sent a play of `x` is called `xbc`.
theorem joined_session_renamed : ∃ s, [Event.accept,.publish 0 ⟨⟨[97,98,99],by decide⟩,by decide⟩,.init 0 ⟨⟨[120],by decide⟩,by decide⟩].foldl
      (step ⟨fun _ => 0,false⟩) (some .initial) = some s ∧ (s.table.context 0).stream = some 0 ∧
    (s.table.stream 0).name.bytes = [97,98,99] ∧ (s.buffers 0).text = [120,98,99] ∧
    getStreamBySession ⟨fun _ => 0,false⟩ s 0 = none :=
  ⟨_,rfl,by decide +kernel,by decide +kernel,by decide +kernel,by decide +kernel⟩

end NgxRtmp.SessionNames
