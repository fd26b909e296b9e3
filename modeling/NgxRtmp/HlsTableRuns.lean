import NgxRtmp.HlsTable

namespace NgxRtmp.HlsTable

open Function (update update_of_ne update_self)
open Cells List
open LiveTable (Name)

def Table.root (t : Table) : Option Nat → Option Nat
  | some b => t.hlsStreams b
  | none => t.freeHlsStreams

-- `own` are the streams of each bucket and of the free list, `subs` the contexts of each stream.
structure Linked (conf : Conf) (t : Table) (own : Option Nat → List Nat) (subs : Nat → List Nat) : Prop where
  streams : Family t.streams t.root own
  named : ∀ b, ∀ i ∈ own (some b), conf.hash (t.stream i).name = b
  distinct : ∀ b, ∀ i ∈ own (some b), ∀ j ∈ own (some b), (t.stream i).name = (t.stream j).name → i = j
  contexts : Family t.contexts (fun i => (t.stream i).ctx) subs
  joined : ∀ a i, (t.context a).hlsStream = some i ↔ a ∈ subs i
  held : ∀ i, subs i ≠ [] → conf.hls = true ∧ ∃ b, i ∈ own (some b)

section Lists

variable {conf : Conf} {t after : Table} {own kept : Option Nat → List Nat} {subs : Nat → List Nat}

section

variable (linked : Linked conf t own subs)
include linked

theorem Linked.contexts_eq (list : Contexts t i xs) : xs = subs i :=
  seg_unique list (linked.contexts.list i)

theorem Linked.sound : Sound t := by
  refine ⟨fun i => ⟨subs i,linked.contexts.list i,linked.contexts.distinct i⟩,?_,?_⟩
  · intro i xs a list member
    exact (linked.joined a i).mpr (linked.contexts_eq list ▸ member)
  · intro i j xs ys a first second left right
    rw [linked.contexts_eq first] at left
    rw [linked.contexts_eq second] at right
    exact linked.contexts.apart i j a left right

theorem Linked.outside (idle : (t.context a).hlsStream = none) (i : Nat) : a ∉ subs i := by
  intro member
  rw [(linked.joined a i).mpr member] at idle
  cases idle

theorem Linked.empty (outside : ∀ b, i ∉ own (some b)) : subs i = [] := by
  by_contra filled
  obtain ⟨_,b,member⟩ := linked.held i filled
  exact outside b member

theorem linked_context (outside : ∀ i, a ∉ subs i) (grown : t.contexts.top ≤ contexts.top)
    (links : ∀ x, x ≠ a → contexts.next x = t.contexts.next x) (values : ∀ x, x ≠ a → contexts.val x = t.context x)
    (zero : (contexts.val a).hlsStream = none) : Linked conf {t with contexts:=contexts} own subs := by
  refine ⟨linked.streams,linked.named,linked.distinct,family_frame linked.contexts grown fun i x member => links x ?_,
    fun c i => ?_,linked.held⟩
  · rintro rfl
    exact outside i member
  · change (contexts.val c).hlsStream = some i ↔ c ∈ subs i
    by_cases same : c = a
    · subst same
      simp [zero,outside i]
    · rw [values c same]
      exact linked.joined c i

end

theorem root_hang (t : Table) (streams : Heap Stream) (p free : Option Nat) (b : Nat) :
    Table.root {t with streams:=streams,hlsStreams:=update t.hlsStreams b p,freeHlsStreams:=free} =
      update (update t.root none free) (some b) p := by
  funext k
  cases k with
  | none => simp [Table.root]
  | some c => by_cases same : c = b <;> simp [Table.root,same]

theorem linked_made (linked : Linked conf t own subs) (streams : Family after.streams after.root kept)
    (outside : ∀ b, i ∉ own (some b)) (absent : ∀ j ∈ own (some (conf.hash name)), (t.stream j).name ≠ name)
    (entries : ∀ b j, j ∈ kept (some b) ↔ j ∈ own (some b) ∨ j = i ∧ b = conf.hash name)
    (values : ∀ j, after.stream j = if j = i then .named name else t.stream j) (same : after.contexts = t.contexts) :
    Linked conf after kept subs ∧ ∀ j, (after.stream j).ctx = (t.stream j).ctx := by
  have none : (t.stream i).ctx = none := linked.contexts.root_none.mpr (linked.empty outside)
  have ctx : ∀ j, (after.stream j).ctx = (t.stream j).ctx := by
    intro j
    rw [values]
    split
    · rename_i equal
      rw [equal,none]
      rfl
    · rfl
  have context : after.context = t.context := by
    funext a
    exact congrArg (fun h => Heap.val h a) same
  obtain ⟨_,named,distinct,contexts,joined,held⟩ := linked
  refine ⟨⟨streams,?_,?_,?_,context ▸ joined,fun j filled => ?_⟩,ctx⟩
  · grind [Stream.named]
  · grind [Stream.named]
  · rw [same,funext ctx]
    exact contexts
  · obtain ⟨on,b,member⟩ := held j filled
    exact ⟨on,b,(entries b j).mpr (.inl member)⟩

theorem createStream_linked (linked : Linked conf t own subs) (name : Name)
    (absent : ∀ j ∈ own (some (conf.hash name)), (t.stream j).name ≠ name) :
    ∃ made i kept, createStream conf name (own (some (conf.hash name))).getLast? t = (made,i) ∧ i ∈ kept (some (conf.hash name)) ∧
      (Linked conf made kept subs ∧ ∀ j, (made.stream j).ctx = (t.stream j).ctx) ∧ made.contexts = t.contexts := by
  unfold createStream
  generalize bucket : conf.hash name = b at absent ⊢
  cases free : t.freeHlsStreams with
  | some i =>
    obtain ⟨rest,first⟩ : ∃ rest, own none = i::rest := linked.streams.head_cons free
    have outside : ∀ c, i ∉ own (some c) := by
      intro c member
      cases linked.streams.apart none _ i (by simp [first]) member
    have last : (own (some b)).getLast? ≠ some i := fun last => outside b (mem_of_getLast? last)
    refine ⟨_,i,update (update own none rest) (some b) (own (some b) ++ [i]),rfl,by simp,
      linked_made linked ?_ outside (bucket ▸ absent) ?_ (fun j => ?_) rfl,rfl⟩
    · rw [root_hang,store_next,if_neg last]
      refine family_reuse linked.streams (by simp) first (by simp [Heap.setNext]) fun x => ?_
      simp [setNext_next,store_next]
    · grind
    · simp only [Table.stream,setNext_val,setVal_val,store_val]
  | none =>
    have outside : ∀ k, t.streams.top ∉ own k := fun k member => lt_irrefl _ (linked.streams.bound k _ member)
    have last : (own (some b)).getLast? ≠ some t.streams.top := fun last => outside _ (mem_of_getLast? last)
    have spare : update t.root none none = t.root := Function.update_eq_self_iff.mpr free.symm
    refine ⟨_,t.streams.top,update own (some b) (own (some b) ++ [t.streams.top]),rfl,by simp,
      linked_made linked ?_ (fun c => outside _) (bucket ▸ absent) ?_ (fun j => ?_) rfl,rfl⟩
    · rw [root_hang,spare]
      refine family_append linked.streams (by simp [Heap.alloc]) outside (by simp [Heap.alloc]) fun x => ?_
      simp only [store_next,alloc_next]
      grind
    · grind
    · simp only [Table.stream,store_val,alloc_val]

theorem walk_linked (linked : Linked conf t own subs) : ∃ before rest,
    Stops (fun i => (t.stream i).name == name) (own (some (conf.hash name))) before rest ∧
      walk conf t name = some (before.getLast?,rest.head?) :=
  linked.streams.seek _ (some (conf.hash name))

theorem getStream_linked (linked : Linked conf t own subs) (name : Name) (create : Bool) : ∃ after slot found kept,
    getStream conf name create t = some (after,slot,found) ∧ Linked conf after kept subs ∧ after.contexts = t.contexts ∧
      (∀ j, (after.stream j).ctx = (t.stream j).ctx) ∧ (∀ i, found = some i → i ∈ kept (some (conf.hash name))) ∧
      (create = true → found ≠ none) := by
  obtain ⟨before,rest,⟨split,passed,found⟩,result⟩ := walk_linked linked
  unfold getStream
  rw [result]
  cases rest with
  | cons i rest =>
    refine ⟨t,_,some i,own,rfl,linked,rfl,fun _ => rfl,fun j same => ?_,fun _ absent => nomatch absent⟩
    cases same
    simp [split]
  | nil =>
    obtain rfl : own (some (conf.hash name)) = before := by simpa using split
    cases create with
    | false => exact ⟨t,_,none,own,rfl,linked,rfl,fun _ => rfl,fun _ same => (nomatch same),fun on => (nomatch on)⟩
    | true =>
      obtain ⟨made,i,kept,same,member,⟨created,ctx⟩,contexts⟩ := createStream_linked linked name (by simpa using passed)
      simp only [head?_nil,if_true,same]
      refine ⟨made,_,some i,kept,rfl,created,contexts,ctx,fun j same => ?_,fun _ absent => (nomatch absent)⟩
      cases same
      exact member

@[simp] theorem setContext_stream : (t.setContext a change).stream i = t.stream i := rfl

theorem link_stream (a i : Nat) (t : Table) (j : Nat) :
    (link a i t).stream j = if j = i then {t.stream i with ctx:=some a} else t.stream j :=
  setVal_val _ _ _ j

theorem link_context (a i : Nat) (t : Table) (c : Nat) :
    (link a i t).context c = if c = a then {t.context a with hlsStream:=some i} else t.context c := by
  simp [link,Table.context,Table.setStream,Table.setContext,setVal_val]

theorem link_next (a i : Nat) (t : Table) (x : Nat) :
    (link a i t).contexts.next x = if x = a then (t.stream i).ctx else t.contexts.next x := by
  simp [link,Table.setStream,Table.setContext,setNext_next,Table.stream]

theorem link_linked (linked : Linked conf t own subs) (member : i ∈ own (some b)) (on : conf.hls = true) (inside : a < t.contexts.top)
    (idle : (t.context a).hlsStream = none) : Linked conf (link a i t) own (update subs i (a::subs i)) := by
  have values := link_stream a i t
  have context := link_context a i t
  have outside := linked.outside idle
  have pushed := family_push (k:=i) (g:=(link a i t).contexts) linked.contexts le_rfl outside inside (link_next a i t)
  have ctx : (fun j => ((link a i t).stream j).ctx) = update (fun j => (t.stream j).ctx) i (some a) := by
    funext j
    grind
  have streams : Family (link a i t).streams (link a i t).root own :=
    family_frame linked.streams le_rfl fun _ x _ => setVal_next _ _ _ x
  obtain ⟨_,named,distinct,_,joined,held⟩ := linked
  refine ⟨streams,?_,?_,ctx ▸ pushed,?_,fun j filled => ?_⟩
  · grind
  · grind
  · grind
  · by_cases same : j = i
    · exact ⟨on,b,same ▸ member⟩
    · rw [update_of_ne same] at filled
      exact held j filled

theorem join_linked (linked : Linked conf t own subs) (on : conf.hls = true) (inside : a < t.contexts.top) (name : Name)
    (publisher : Bool) : ∃ after, join conf a name publisher t = some after ∧ (∃ own subs, Linked conf after own subs) ∧
      ∀ x, x ≠ a → after.context x = t.context x := by
  unfold join
  cases idle : (t.context a).hlsStream with
  | some i => exact ⟨t,by simp,⟨own,subs,linked⟩,fun _ _ => rfl⟩
  | none =>
    obtain ⟨u,slot,found,kept,result,linked,contexts,_,member,_⟩ := getStream_linked linked name publisher
    have context : u.context = t.context := by
      funext x
      exact congrArg (fun h => Heap.val h x) contexts
    simp only [Option.isSome_none,Bool.false_eq_true,if_false,result]
    cases found with
    | none => exact ⟨u,rfl,⟨kept,subs,linked⟩,fun x _ => congrFun context x⟩
    | some i =>
      refine ⟨_,rfl,⟨kept,_,link_linked linked (member i rfl) on ?_ ?_⟩,fun x other => ?_⟩
      · rwa [contexts]
      · rwa [context]
      · rw [link_context,if_neg other,context]

theorem zeroContext_linked (linked : Linked conf t own subs) (idle : (t.context a).hlsStream = none) :
    Linked conf (zeroContext a t) own subs := by
  refine linked_context linked (linked.outside idle) le_rfl (fun x other => ?_) (fun x other => ?_) ?_
  · rw [setNext_next,if_neg other,setVal_next]
  · rw [setNext_val,setVal_val,if_neg other]
    rfl
  · rw [setNext_val,setVal_val,if_pos rfl]

theorem zeroContext_context : (zeroContext a t).context x = if x = a then ⟨none,true⟩ else t.context x := by
  simp [zeroContext,Table.context,setVal_val]

theorem Conf.serves_hls (conf : Conf) (serves : conf.serves = true) : conf.hls = true := by
  unfold Conf.serves at serves
  simp_all

theorem publish_linked (linked : Linked conf t own subs) (inside : a < t.contexts.top) (name : Name) (autoPushed : Bool)
    (idle : conf.serves = true → autoPushed = false → (t.context a).hlsStream = none) :
    ∃ after, publish conf a name autoPushed t = some after ∧ (∃ own subs, Linked conf after own subs) ∧
      ∀ x, x ≠ a → after.context x = t.context x := by
  unfold publish
  split
  · rename_i taken
    simp only [Bool.and_eq_true,Bool.not_eq_true'] at taken
    obtain ⟨after,result,linked,others⟩ :=
      join_linked (zeroContext_linked linked (idle taken.1 taken.2)) (conf.serves_hls taken.1) inside name true
    refine ⟨after,result,linked,fun x other => ?_⟩
    rw [others x other,zeroContext_context,if_neg other]
  · exact ⟨t,rfl,⟨own,subs,linked⟩,fun _ _ => rfl⟩

theorem play_linked (linked : Linked conf t own subs) (inside : a < t.contexts.top) (name : Name) (hls : Bool) :
    ∃ after, play conf a name hls t = some after ∧ (∃ own subs, Linked conf after own subs) ∧
      ∀ x, x ≠ a → after.context x = t.context x := by
  unfold play
  split
  · rename_i taken
    simp only [Bool.and_eq_true] at taken
    exact join_linked linked (conf.serves_hls taken.2) inside name false
  · exact ⟨t,rfl,⟨own,subs,linked⟩,fun _ _ => rfl⟩

-- The context that closes still points to its stream; the lists are those without it.
theorem detach_linked (linked : Linked conf t own subs) (member : a ∈ subs i) : ∃ u rest, detach a i t = some u ∧
    Linked conf (u.setContext a ({· with hlsStream:=none})) own (update subs i rest) ∧ u.contexts.val = t.contexts.val := by
  obtain ⟨before,rest,split,result⟩ := linked.contexts.seek_cell member
  unfold detach
  rw [result]
  refine ⟨_,before ++ rest,rfl,?_,by funext x; exact store_val _ _ _ x⟩
  generalize made : Table.setContext {t.setStream i (fun s => {s with ctx:=Slot.root before.getLast? s.ctx (t.contexts.next a)}) with
    contexts:=t.contexts.store before.getLast? (t.contexts.next a)} a ({· with hlsStream:=none}) = after
  have values : ∀ j, after.stream j = if j = i then ⟨(t.stream i).name,Slot.root before.getLast? (t.stream i).ctx (t.contexts.next a)⟩
      else t.stream j := by
    subst made
    exact fun j => setVal_val _ _ _ j
  have context : ∀ c, after.context c = if c = a then {t.context a with hlsStream:=none} else t.context c := by
    subst made
    intro c
    simp [Table.context,Table.setContext,setVal_val]
  have removed := family_remove (k:=i) (g:=after.contexts) linked.contexts (by subst made; simp [Table.setContext]) split
    (by subst made; simp [Table.setContext,store_next])
  have streams : Family after.streams after.root own := by
    subst made
    exact family_frame linked.streams le_rfl fun _ x _ => setVal_next _ _ _ x
  have ctx : (fun j => (after.stream j).ctx) =
      update (fun j => (t.stream j).ctx) i (Slot.root before.getLast? (t.stream i).ctx (t.contexts.next a)) := by
    funext j
    grind
  have apart := linked.contexts.apart
  have others : ∀ c, c ∈ before ++ rest ↔ c ∈ subs i ∧ c ≠ a := by
    intro c
    simpa using linked.contexts.mem_removed (x:=c) (j:=i) split
  obtain ⟨_,named,distinct,_,joined,held⟩ := linked
  refine ⟨streams,?_,?_,ctx ▸ removed,?_,fun j filled => ?_⟩
  · grind
  · grind
  · grind
  · by_cases same : j = i
    · subst same
      exact held j (ne_nil_of_mem member)
    · rw [update_of_ne same] at filled
      exact held j filled

theorem root_recycle (t : Table) (streams : Heap Stream) (contexts : Heap Ctx) (p : Option Nat) (b i : Nat) :
    Table.root ⟨streams,contexts,update t.hlsStreams b p,some i⟩ =
      update (update t.root (some b) p) none (some i) := by
  rw [Function.update_comm (by simp)]
  exact root_hang t streams p (some i) b

theorem deleteStream_linked (linked : Linked conf (t.setContext a ({· with hlsStream:=none})) own subs)
    (member : i ∈ own (some b)) (empty : subs i = []) : ∃ after, deleteStream conf a i t = some after ∧
      (∃ own, Linked conf after own subs) ∧ after.contexts = (t.setContext a ({· with hlsStream:=none})).contexts := by
  obtain ⟨before,rest,⟨split,passed,found⟩,result⟩ := walk_linked linked
  have bucket : conf.hash (t.stream i).name = b := linked.named b i member
  rw [bucket] at split
  cases rest with
  | nil =>
    have inside : i ∈ before := by simpa [split] using member
    simpa using passed i inside
  | cons j rest =>
    obtain rfl : j = i := linked.distinct b j (by rw [split]; simp) i member (by simpa using found j rfl)
    unfold deleteStream getStream
    rw [bucket,show walk conf t (t.stream j).name = _ from result]
    refine ⟨_,rfl,⟨update (update own (some b) (before ++ rest)) none (j::own none),?_⟩,rfl⟩
    have streams := family_recycle linked.streams (show none ≠ some b by simp) split
    have entries : ∀ c k, k ∈ update (update own (some b) (before ++ rest)) none (j::own none) (some c) ↔
        k ∈ own (some c) ∧ k ≠ j := by
      intro c k
      rw [update_of_ne (by simp)]
      exact linked.streams.mem_removed split
    obtain ⟨_,named,distinct,contexts,joined,held⟩ := linked
    have value : ∀ k, Table.stream ⟨(t.streams.store before.getLast? (t.streams.next j)).setNext j t.freeHlsStreams,
        (t.setContext a ({· with hlsStream:=none})).contexts,
        update t.hlsStreams b (Slot.root before.getLast? (t.hlsStreams b) (t.streams.next j)),some j⟩ k = t.stream k := by
      simp [Table.stream]
    refine ⟨?_,fun c k here => ?_,fun c k left l right => ?_,?_,joined,fun k filled => ?_⟩
    · change Family _ (Table.root ⟨_,_,_,_⟩) _
      rw [root_recycle]
      exact streams
    · exact (congrArg (fun s => conf.hash s.name) (value k)).trans (named c k ((entries c k).mp here).1)
    · intro same
      refine distinct c k ((entries c k).mp left).1 l ((entries c l).mp right).1 ?_
      exact (congrArg Stream.name (value k)).symm.trans (same.trans (congrArg Stream.name (value l)))
    · have ctx := funext fun k => congrArg Stream.ctx (value k)
      exact ctx ▸ contexts
    · obtain ⟨on,c,here⟩ := held k filled
      refine ⟨on,c,(entries c k).mpr ⟨here,?_⟩⟩
      rintro rfl
      exact filled empty

theorem closeStream_linked (linked : Linked conf t own subs) (a : Nat) : ∃ after, closeStream conf a t = some after ∧
    (∃ own subs, Linked conf after own subs) ∧ (after.context a).hlsStream = none ∧
      ∀ x, x ≠ a → after.context x = t.context x := by
  unfold closeStream
  cases joined : (t.context a).hlsStream with
  | none =>
    simp only [ite_self]
    exact ⟨t,rfl,⟨own,subs,linked⟩,joined,fun _ _ => rfl⟩
  | some i =>
    have member := (linked.joined a i).mp joined
    obtain ⟨on,b,listed⟩ := linked.held i (ne_nil_of_mem member)
    obtain ⟨u,rest,detached,left,values⟩ := detach_linked linked member
    have context : ∀ x, (u.setContext a ({· with hlsStream:=none})).context x =
        if x = a then {t.context a with hlsStream:=none} else t.context x := by
      intro x
      simp [Table.setContext,Table.context,setVal_val,values]
    have root : (u.stream i).ctx = none ↔ rest = [] := by
      have none := left.contexts.root_none (k:=i)
      rwa [update_self] at none
    rw [if_pos on]
    dsimp only
    rw [detached]
    dsimp only
    split
    · refine ⟨_,rfl,⟨own,_,left⟩,?_,fun x other => ?_⟩
      · rw [context,if_pos rfl]
      · rw [context,if_neg other]
    · rename_i empty
      obtain ⟨after,result,⟨kept,final⟩,contexts⟩ :=
        deleteStream_linked left listed (by rw [update_self]; exact root.mp (by simpa using empty))
      have same : ∀ x, after.context x = (u.setContext a ({· with hlsStream:=none})).context x :=
        fun x => congrArg (fun h => Heap.val h x) contexts
      refine ⟨after,result,⟨kept,_,final⟩,?_,fun x other => ?_⟩
      · rw [same,context,if_pos rfl]
      · rw [same,context,if_neg other]

theorem handle_linked (linked : Linked conf t own subs) (allowed : unjoined conf (some t) event) :
    ∃ after, handle conf t event = some after ∧ (∃ own subs, Linked conf after own subs) ∧
      ∀ x, (t.context x).hlsStream = none → event.joins x = false → (after.context x).hlsStream = none := by
  cases event with
  | accept =>
    have fresh : ∀ i, t.contexts.top ∉ subs i := fun i member => lt_irrefl _ (linked.contexts.bound i _ member)
    refine ⟨_,rfl,⟨own,subs,linked_context linked fresh (Nat.le_succ _) (fun x other => ?_) (fun x other => ?_) ?_⟩,fun x idle _ => ?_⟩
    · rw [alloc_next,if_neg other]
    · rw [alloc_val,if_neg other]
      rfl
    · rw [alloc_val,if_pos rfl]
      rfl
    · simp only [Table.context,alloc_val]
      split
      · rfl
      · exact idle
  | publish a name autoPushed =>
    simp only [handle]
    split
    · rename_i inside
      obtain ⟨after,result,linked,others⟩ := publish_linked linked inside name autoPushed (allowed t rfl inside)
      refine ⟨after,result,linked,fun x idle apart => ?_⟩
      rwa [others x (by rintro rfl; simp [Event.joins] at apart)]
    · exact ⟨t,rfl,⟨own,subs,linked⟩,fun _ idle _ => idle⟩
  | play a name hls =>
    simp only [handle]
    split
    · rename_i inside
      obtain ⟨after,result,linked,others⟩ := play_linked linked inside name hls
      refine ⟨after,result,linked,fun x idle apart => ?_⟩
      rwa [others x (by rintro rfl; simp [Event.joins] at apart)]
    · exact ⟨t,rfl,⟨own,subs,linked⟩,fun _ idle _ => idle⟩
  | close a =>
    simp only [handle]
    split
    · obtain ⟨after,result,linked,closed,others⟩ := closeStream_linked linked a
      refine ⟨after,result,linked,fun x idle _ => ?_⟩
      by_cases same : x = a
      · exact same ▸ closed
      · rwa [others x same]
    · exact ⟨t,rfl,⟨own,subs,linked⟩,fun _ idle _ => idle⟩

theorem getStream_contexts :
    getStream conf name create {t with contexts:=contexts} =
      (getStream conf name create t).map fun r => ({r.1 with contexts:=contexts},r.2) := by
  unfold getStream
  rw [show walk conf {t with contexts:=contexts} name = walk conf t name from rfl]
  rcases walk conf t name with _ | ⟨slot,_ | i⟩
  · rfl
  · cases create with
    | false => rfl
    | true =>
      dsimp only [createStream]
      cases t.freeHlsStreams <;> rfl
  · rfl

-- It is on two lists then, or its list runs in a circle.
theorem publish_joined (linked : Linked conf t own subs) (joined : (t.context a).hlsStream = some i) (name : Name)
    (serves : conf.serves = true) : ∃ after, publish conf a name false t = some after ∧ ¬Sound after := by
  have member := (linked.joined a i).mp joined
  obtain ⟨before,rest,split⟩ := append_of_mem member
  obtain ⟨u,slot,found,kept,result,_,_,ctx,_,some⟩ := getStream_linked linked name true
  obtain ⟨j,rfl⟩ := Option.ne_none_iff_exists'.mp (some rfl)
  have idle : ((zeroContext a t).context a).hlsStream = none := by rw [zeroContext_context,if_pos rfl]
  have get : getStream conf name true (zeroContext a t) = _ := getStream_contexts
  refine ⟨link a j {u with contexts:=(zeroContext a t).contexts},?_,fun sound => ?_⟩
  · unfold publish join
    simp only [serves,Bool.not_false,Bool.and_self,if_true,idle,Option.isSome_none,Bool.false_eq_true,if_false,get,result]
    rfl
  have once := linked.contexts.distinct i
  have list := linked.contexts.list i
  rw [split] at once list
  have next : ∀ x, (link a j {u with contexts:=(zeroContext a t).contexts}).contexts.next x =
      if x = a then (t.stream j).ctx else t.contexts.next x := by
    intro x
    rw [link_next]
    split
    · exact ctx j
    · rename_i other
      simp [zeroContext,setNext_next,other]
  have front : Seg (link a j {u with contexts:=(zeroContext a t).contexts}).contexts (t.stream i).ctx before (Option.some a) := by
    obtain ⟨r,front,rfl,_⟩ := seg_append.mp list
    refine seg_frame (fun x here => ?_) front
    rw [next,if_neg]
    rintro rfl
    exact (nodup_append.mp once).2.2 x here x (by simp) rfl
  obtain ⟨xs,contexts,distinct⟩ := sound.acyclic i
  by_cases same : i = j
  · subst same
    rw [Contexts,link_stream,if_pos rfl] at contexts
    cases xs with
    | nil => cases contexts
    | cons x xs =>
      obtain ⟨equal,tail⟩ := contexts
      cases equal
      rw [next,if_pos rfl] at tail
      exact (nodup_cons.mp distinct).1 (seg_passes front tail)
  · have inside : a ∈ xs := by
      rw [Contexts,link_stream,if_neg same] at contexts
      exact seg_passes front ((ctx i) ▸ contexts)
    have pointed := sound.pointed i xs a contexts inside
    rw [link_context,if_pos rfl] at pointed
    exact same (Option.some.inj pointed).symm

end Lists

def Upright (conf : Conf) (state : Option Table) : Prop := ∃ t, state = some t ∧ ∃ own subs, Linked conf t own subs

theorem step_upright (state : Option Table) (event : Event) (allowed : unjoined conf state event) (upright : Upright conf state) :
    Upright conf (step conf state event) := by
  obtain ⟨t,rfl,own,subs,linked⟩ := upright
  obtain ⟨after,result,linked,_⟩ := handle_linked linked allowed
  exact ⟨after,result,linked⟩

theorem intact_unjoined (state : Option Table) (event : Event) (upright : Upright conf state) (intact : Intact (step conf state event)) :
    unjoined conf state event := by
  cases event with
  | accept => trivial
  | play a name hls => trivial
  | close a => trivial
  | publish a name autoPushed =>
    intro t same inside serves off
    obtain ⟨_,rfl,own,subs,linked⟩ := upright
    cases same
    subst off
    cases joined : (t.context a).hlsStream with
    | none => rfl
    | some i =>
      obtain ⟨after,result,unsound⟩ := publish_joined linked joined name serves
      obtain ⟨u,reached,sound⟩ := intact
      simp only [step,Option.bind_some,handle,if_pos inside,result] at reached
      cases reached
      exact absurd sound unsound

theorem initial_linked (conf : Conf) : Linked conf .initial (fun _ => []) (fun _ => []) := by
  refine ⟨⟨fun k => by cases k <;> rfl,by simp,by simp,by simp⟩,by simp,by simp,⟨fun _ => rfl,by simp,by simp,by simp⟩,?_,by simp⟩
  exact fun a i => ⟨fun same => (nomatch same),fun member => (nomatch member)⟩

theorem run_upright (path : Runs.Along (step conf) (unjoined conf) (some .initial) events) :
    Upright conf (events.foldl (step conf) (some .initial)) :=
  Runs.run_invariant step_upright ⟨_,rfl,_,_,initial_linked conf⟩ path

def Aside (conf : Conf) (a : Nat) (state : Option Table) : Prop :=
  ∃ t, state = some t ∧ (∃ own subs, Linked conf t own subs) ∧ (t.context a).hlsStream = none

theorem close_left (linked : Linked conf t own subs) : Aside conf a (step conf (some t) (.close a)) := by
  simp only [step,Option.bind_some,handle]
  split
  · obtain ⟨after,result,linked,closed,_⟩ := closeStream_linked linked a
    exact ⟨after,result,linked,closed⟩
  · rename_i outside
    refine ⟨t,rfl,⟨own,subs,linked⟩,?_⟩
    cases joined : (t.context a).hlsStream with
    | none => rfl
    | some i => exact absurd (linked.contexts.bound i a ((linked.joined a i).mp joined)) outside

theorem step_aside (state : Option Table) (event : Event) (allowed : unjoined conf state event ∧ event.joins a = false)
    (aside : Aside conf a state) : Aside conf a (step conf state event) := by
  obtain ⟨t,rfl,⟨own,subs,linked⟩,idle⟩ := aside
  obtain ⟨after,result,linked,stays⟩ := handle_linked linked allowed.1
  exact ⟨after,result,linked,stays a idle allowed.2⟩

theorem run_closed (path : Runs.Along (step conf) (unjoined conf) (some .initial) events)
    (closed : Closed a events) : Aside conf a (events.foldl (step conf) (some .initial)) := by
  obtain ⟨front,back,rfl,apart⟩ := closed
  obtain ⟨first,_,later⟩ := (Runs.along_append).mp path
  obtain ⟨t,same,own,subs,linked⟩ := run_upright first
  rw [foldl_append,foldl_cons]
  rw [same] at later ⊢
  exact Runs.run_invariant step_aside (close_left linked) (Runs.along_both later apart)

theorem hls_lists_sound_iff (conf : Conf) (events : List Event) :
    (∀ n, Kept conf (events.take n)) ↔ Runs.Along (step conf) (unjoined conf) (some .initial) events := by
  constructor
  · intro kept
    refine (Runs.along_exact step_upright ?_ intact_unjoined ⟨_,rfl,_,_,initial_linked conf⟩).mp fun n => ?_
    · rintro _ ⟨t,rfl,own,subs,linked⟩
      exact ⟨t,rfl,linked.sound⟩
    · obtain ⟨t,same,sound,_⟩ := kept n
      exact ⟨t,same,sound⟩
  · intro path n
    have path := Runs.along_take n events path
    obtain ⟨t,same,own,subs,linked⟩ := run_upright path
    refine ⟨t,same,linked.sound,fun a closed i xs list member => ?_⟩
    obtain ⟨u,reached,_,idle⟩ := run_closed path closed
    cases same.symm.trans reached
    rw [linked.sound.pointed i xs a list member] at idle
    cases idle

def published (bytes : List UInt8) (fits : bytes.length < 256) : Event := .publish 0 ⟨bytes,fits⟩ false

-- One stream published twice makes a circle; two streams leave the session on one list when it is
-- closed.
theorem published_twice_reachable :
    ¬Kept ⟨fun _ => 0,true,[47]⟩ [.accept,published [110] (by decide),published [110] (by decide)] ∧
    ¬Kept ⟨fun _ => 0,true,[47]⟩ [.accept,published [110] (by decide),published [111] (by decide)] ∧
    ¬Kept ⟨fun _ => 0,true,[47]⟩ [.accept,published [110] (by decide),published [111] (by decide),.close 0] := by
  refine ⟨?_,?_,?_⟩
  · rintro ⟨t,run,sound,_⟩
    have facts := congrArg (Option.map fun t => ((t.stream 0).ctx,t.contexts.next 0)) run
    rw [show Option.map _ (foldl _ _ _) = some (some 0,some 0) by decide] at facts
    simp only [Option.map_some,Option.some.injEq,Prod.mk.injEq] at facts
    obtain ⟨xs,list,distinct⟩ := sound.acyclic 0
    rw [Contexts,← facts.1] at list
    cases xs with
    | nil => cases list
    | cons x xs =>
      obtain ⟨equal,tail⟩ := list
      cases equal
      rw [← facts.2] at tail
      exact (nodup_cons.mp distinct).1 (seg_passes (show Seg t.contexts _ [] (some 0) from rfl) tail)
  · rintro ⟨t,run,sound,_⟩
    have facts := congrArg (Option.map fun t => ((t.stream 0).ctx,(t.context 0).hlsStream)) run
    rw [show Option.map _ (foldl _ _ _) = some (some 0,some 1) by decide] at facts
    simp only [Option.map_some,Option.some.injEq,Prod.mk.injEq] at facts
    obtain ⟨xs,list,_⟩ := sound.acyclic 0
    have inside : 0 ∈ xs := seg_passes (show Seg t.contexts _ [] (some 0) from facts.1.symm) list
    have pointed := sound.pointed 0 xs 0 list inside
    rw [← facts.2] at pointed
    cases pointed
  · rintro ⟨t,run,_,closed⟩
    have facts := congrArg (Option.map fun t => ((t.stream 0).ctx,t.contexts.next 0)) run
    rw [show Option.map _ (foldl _ _ _) = some (some 0,none) by decide] at facts
    simp only [Option.map_some,Option.some.injEq,Prod.mk.injEq] at facts
    refine closed 0 ⟨[.accept,published [110] (by decide),published [111] (by decide)],[],rfl,by simp⟩ 0 [0] ⟨facts.1.symm,facts.2.symm⟩ (by simp)

end NgxRtmp.HlsTable
