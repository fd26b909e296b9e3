import NgxRtmp.LiveTable

namespace NgxRtmp.LiveTable

open Function (update update_self)
open Cells List

inductive Key where
  | bucket (b : Nat)
  | free
  deriving DecidableEq

def Table.root (t : Table) : Key → Option Nat
  | .bucket b => t.buckets b
  | .free => t.freeStreams

-- `own` are the streams of each bucket and of the free list, `subs` the contexts of each stream.
-- `bare` may be in the table without a context.
structure Linked (conf : Conf) (t : Table) (bare : Option Nat) (own : Key → List Nat) (subs : Nat → List Nat) : Prop where
  streams : Family t.streams t.root own
  named : ∀ b, ∀ i ∈ own (.bucket b), conf.hash (t.stream i).name = b
  distinct : ∀ b, ∀ i ∈ own (.bucket b), ∀ j ∈ own (.bucket b), (t.stream i).name = (t.stream j).name → i = j
  contexts : Family t.contexts (fun i => (t.stream i).ctx) subs
  joined : ∀ a i, (t.context a).stream = some i ↔ a ∈ subs i
  held : ∀ i, (∃ b, i ∈ own (.bucket b)) ↔ subs i ≠ [] ∨ bare = some i
  publishing : ∀ i, (t.stream i).publishing = true ↔ ∃ a ∈ subs i, (t.context a).publishing = true
  single : ∀ i, ∀ a ∈ subs i, ∀ c ∈ subs i, (t.context a).publishing = true → (t.context c).publishing = true → a = c
  timer : ∀ i, (t.stream i).timerSet = true → (t.stream i).publishing = false ∧ (subs i ≠ [] ∨ bare = some i)

section Lists

variable {conf : Conf} {t after : Table} {bare : Option Nat} {own : Key → List Nat} {subs : Nat → List Nat}

section

variable (linked : Linked conf t bare own subs)
include linked

theorem Linked.bucket (b : Nat) : Bucket t b (own (.bucket b)) :=
  linked.streams.list (.bucket b)

theorem Linked.bucket_eq (list : Bucket t b xs) : xs = own (.bucket b) :=
  seg_unique list (linked.bucket b)

theorem Linked.inTable : InTable t i ↔ ∃ b, i ∈ own (.bucket b) := by
  constructor
  · rintro ⟨b,xs,list,member⟩
    exact ⟨b,linked.bucket_eq list ▸ member⟩
  · rintro ⟨b,member⟩
    exact ⟨b,_,linked.bucket b,member⟩

theorem Linked.contexts_eq (list : Contexts t i xs) : xs = subs i :=
  seg_unique list (linked.contexts.list i)

theorem Linked.silent (off : (t.stream i).publishing = false) : ∀ a ∈ subs i, (t.context a).publishing = false := by
  intro a member
  rw [← Bool.not_eq_true]
  intro on
  rw [(linked.publishing i).mpr ⟨a,member,on⟩] at off
  cases off

end

theorem Linked.sound (linked : Linked conf t none own subs) : Sound t := by
  have nonempty : ∀ i, InTable t i ↔ subs i ≠ [] := by
    intro i
    rw [linked.inTable,linked.held]
    simp
  refine ⟨fun b => ⟨_,linked.bucket b,linked.streams.distinct _⟩,?_,?_,?_,?_,?_,?_⟩
  · intro b c xs ys i j first second left right same
    rw [linked.bucket_eq first] at left
    rw [linked.bucket_eq second] at right
    obtain rfl : b = c := by rw [← linked.named b i left,same,linked.named c j right]
    exact ⟨rfl,linked.distinct b i left j right same⟩
  · intro i listed
    refine ⟨subs i,linked.contexts.list i,(nonempty i).mp listed,linked.contexts.distinct i,?_⟩
    rw [linked.publishing i]
    constructor
    · rintro ⟨a,member,on⟩
      exact ⟨a,⟨member,on⟩,fun c here => linked.single i c here.1 a member here.2 on⟩
    · rintro ⟨a,⟨member,on⟩,_⟩
      exact ⟨a,member,on⟩
  · intro a i joined
    have member := (linked.joined a i).mp joined
    exact ⟨(nonempty i).mpr (ne_nil_of_mem member),_,linked.contexts.list i,member⟩
  · intro i xs list a member
    exact (linked.joined a i).mpr (linked.contexts_eq list ▸ member)
  · refine ⟨own .free,linked.streams.list .free,linked.streams.distinct _,fun i member listed => ?_⟩
    obtain ⟨b,also⟩ := linked.inTable.mp listed
    cases linked.streams.apart _ _ i member also
  · intro i armed
    obtain ⟨off,filled | bare⟩ := linked.timer i armed
    · exact ⟨(nonempty i).mpr filled,_,linked.contexts.list i,filled,linked.silent off⟩
    · cases bare

theorem stream_setStream (t : Table) (i : Nat) (change : Stream → Stream) (j : Nat) :
    (t.setStream i change).stream j = if j = i then change (t.stream i) else t.stream j :=
  setVal_val _ _ _ j

theorem linked_timer (linked : Linked conf t bare own subs) (on : Bool)
    (allowed : on = true → (t.stream i).publishing = false ∧ (subs i ≠ [] ∨ bare = some i)) :
    Linked conf (t.setStream i ({· with timerSet:=on})) bare own subs := by
  have value := stream_setStream t i ({· with timerSet:=on})
  have ctx : (fun j => ((t.setStream i ({· with timerSet:=on})).stream j).ctx) = fun j => (t.stream j).ctx := by
    funext j
    grind
  obtain ⟨streams,named,distinct,contexts,joined,held,publishing,single,timer⟩ := linked
  refine ⟨family_frame streams le_rfl fun _ x _ => setVal_next _ _ _ x,?_,?_,ctx ▸ contexts,joined,held,
    fun j => Iff.trans ?_ (publishing j),single,?_⟩
  · grind
  · grind
  · grind
  · grind

theorem linked_context (linked : Linked conf t bare own subs) (outside : ∀ i, a ∉ subs i) (grown : t.contexts.top ≤ contexts.top)
    (links : ∀ x, x ≠ a → contexts.next x = t.contexts.next x) (values : ∀ x, x ≠ a → contexts.val x = t.context x)
    (zero : (contexts.val a).stream = none) : Linked conf {t with contexts:=contexts} bare own subs := by
  have value : ∀ x, ({t with contexts:=contexts} : Table).context x = contexts.val x := fun _ => rfl
  have other : ∀ i, ∀ x ∈ subs i, x ≠ a := by
    rintro i x member rfl
    exact outside i member
  refine ⟨linked.streams,linked.named,linked.distinct,
    family_frame linked.contexts grown fun i x member => links x (other i x member),fun c i => ?_,linked.held,
    fun i => ?_,fun i b left c right => ?_,linked.timer⟩
  · rw [value]
    by_cases same : c = a
    · subst same
      simp [zero,outside i]
    · rw [values c same]
      exact linked.joined c i
  · refine (linked.publishing i).trans (exists_congr fun c => and_congr_right fun member => ?_)
    rw [value,values c (other i c member)]
  · rw [value,value,values b (other i b left),values c (other i c right)]
    exact linked.single i b left c right

theorem Linked.empty (linked : Linked conf t none own subs) (outside : ∀ b, i ∉ own (.bucket b)) : subs i = [] := by
  by_contra filled
  obtain ⟨b,member⟩ := (linked.held i).mpr (.inl filled)
  exact outside b member

theorem linked_bare (linked : Linked conf t none own subs) (streams : Family after.streams after.root kept)
    (outside : ∀ b, i ∉ own (.bucket b)) (absent : ∀ j ∈ own (.bucket (conf.hash name)), (t.stream j).name ≠ name)
    (entries : ∀ b j, j ∈ kept (.bucket b) ↔ j ∈ own (.bucket b) ∨ j = i ∧ b = conf.hash name)
    (values : ∀ j, after.stream j = if j = i then .named name else t.stream j) (same : after.contexts = t.contexts) :
    Linked conf after (some i) kept subs := by
  have empty := linked.empty outside
  have none : (t.stream i).ctx = none := linked.contexts.root_none.mpr empty
  have ctx : (fun j => (after.stream j).ctx) = fun j => (t.stream j).ctx := by
    funext j
    rw [values]
    split
    · rename_i equal
      rw [equal,none]
      rfl
    · rfl
  have held : ∀ j, (∃ b, j ∈ kept (.bucket b)) ↔ (∃ b, j ∈ own (.bucket b)) ∨ j = i := by
    intro j
    constructor
    · rintro ⟨b,member⟩
      rcases (entries b j).mp member with old | ⟨new,_⟩
      · exact .inl ⟨b,old⟩
      · exact .inr new
    · rintro (⟨b,member⟩ | rfl)
      · exact ⟨b,(entries b j).mpr (.inl member)⟩
      · exact ⟨conf.hash name,(entries _ j).mpr (.inr ⟨rfl,rfl⟩)⟩
  have context : after.context = t.context := by
    funext a
    exact congrArg (fun h => Heap.val h a) same
  obtain ⟨_,named,distinct,contexts,joined,before,publishing,single,timer⟩ := linked
  refine ⟨streams,?_,?_,?_,context ▸ joined,fun j => (held j).trans ?_,fun j => ?_,context ▸ single,?_⟩
  · grind [Stream.named]
  · grind [Stream.named]
  · rw [ctx,same]
    exact contexts
  · rw [before j]
    grind
  · rw [context,← publishing j,values]
    have off := publishing i
    grind [Stream.named]
  · grind [Stream.named]

theorem root_hang (t : Table) (streams : Heap Stream) (p free : Option Nat) (b : Nat) :
    Table.root {t with streams:=streams,buckets:=update t.buckets b p,freeStreams:=free} =
      update (update t.root .free free) (.bucket b) p := by
  funext k
  cases k with
  | free => simp [Table.root]
  | bucket c => by_cases same : c = b <;> simp [Table.root,same]

theorem createStream_linked (linked : Linked conf t none own subs) (name : Name)
    (absent : ∀ j ∈ own (.bucket (conf.hash name)), (t.stream j).name ≠ name) :
    ∃ made i kept, createStream conf name (own (.bucket (conf.hash name))).getLast? t = (made,i) ∧
      Linked conf made (some i) kept subs ∧ (∃ b, i ∈ kept (.bucket b)) ∧ subs i = [] ∧ made.stream i = .named name ∧
      made.contexts = t.contexts := by
  unfold createStream
  generalize bucket : conf.hash name = b at absent ⊢
  cases free : t.freeStreams with
  | some i =>
    obtain ⟨rest,first⟩ : ∃ rest, own .free = i::rest := linked.streams.head_cons free
    have outside : ∀ c, i ∉ own (.bucket c) := by
      intro c member
      cases linked.streams.apart .free _ i (by simp [first]) member
    have last : (own (.bucket b)).getLast? ≠ some i := fun last => outside b (mem_of_getLast? last)
    refine ⟨_,i,update (update own .free rest) (.bucket b) (own (.bucket b) ++ [i]),rfl,
      linked_bare linked ?_ outside (bucket ▸ absent) ?_ (fun j => ?_) rfl,⟨b,by simp⟩,linked.empty outside,?_,rfl⟩
    · rw [root_hang,store_next,if_neg last]
      refine family_reuse linked.streams (by simp) first (by simp [Heap.setNext]) fun x => ?_
      simp [setNext_next,store_next]
    · grind
    · simp only [Table.stream,setNext_val,setVal_val,store_val]
    · simp only [Table.stream,setNext_val,setVal_val,if_true]
  | none =>
    have outside : ∀ k, t.streams.top ∉ own k := fun k member => lt_irrefl _ (linked.streams.bound k _ member)
    have last : (own (.bucket b)).getLast? ≠ some t.streams.top := fun last => outside _ (mem_of_getLast? last)
    refine ⟨_,t.streams.top,update own (.bucket b) (own (.bucket b) ++ [t.streams.top]),rfl,
      linked_bare linked ?_ (fun c => outside _) (bucket ▸ absent) ?_ (fun j => ?_) rfl,⟨b,by simp⟩,
      linked.empty fun c => outside _,?_,rfl⟩
    · have hung := family_append (k:=.bucket b) (a:=t.streams.top) linked.streams
        (g:=(t.streams.alloc (.named name)).store (own (.bucket b)).getLast? (some t.streams.top))
        (by simp [Heap.alloc]) outside (by simp [Heap.alloc]) fun x => ?_
      · have spare : update t.root .free none = t.root := Function.update_eq_self_iff.mpr free.symm
        rw [root_hang,spare]
        exact hung
      · simp only [store_next,alloc_next]
        grind
    · grind
    · simp only [Table.stream,store_val,alloc_val]
    · simp only [Table.stream,store_val,alloc_val,if_true]

theorem linked_push (linked : Linked conf t bare own subs) (listed : ∃ b, i ∈ own (.bucket b)) (bared : ∀ j, bare = some j → j = i)
    (idle : ∀ j, a ∉ subs j) (alone : publisher = true → (t.stream i).publishing = false)
    (streams : Family after.streams after.root own)
    (values : ∀ j, after.stream j = if j = i then
      {t.stream i with ctx:=some a,publishing:=(t.stream i).publishing || publisher,timerSet:=(t.stream i).timerSet && !publisher}
      else t.stream j)
    (inside : a < t.contexts.top) (same : after.contexts.top = t.contexts.top)
    (links : ∀ x, after.contexts.next x = if x = a then (t.stream i).ctx else t.contexts.next x)
    (contexts : ∀ c, after.context c = if c = a then ⟨some i,publisher⟩ else t.context c) :
    Linked conf after none own (update subs i (a::subs i)) := by
  have pushed := family_push (k:=i) (g:=after.contexts) linked.contexts (le_of_eq same.symm) idle (by rwa [same]) links
  have ctx : (fun j => (after.stream j).ctx) = update (fun j => (t.stream j).ctx) i (some a) := by
    funext j
    grind
  have filled : ∀ j, update subs i (a::subs i) j ≠ [] ↔ subs j ≠ [] ∨ j = i := by
    grind
  obtain ⟨_,named,distinct,_,joined,held,publishing,single,timer⟩ := linked
  refine ⟨streams,?_,?_,ctx ▸ pushed,?_,fun j => ?_,fun j => ?_,?_,?_⟩
  · grind
  · grind
  · grind
  · rw [held j,filled j]
    grind
  · have before := publishing j
    grind
  · grind
  · grind

theorem linked_leave (linked : Linked conf t none own subs) (split : subs i = before ++ a::rest)
    (streams : Family after.streams after.root own)
    (values : ∀ j, after.stream j = if j = i then
      ⟨(t.stream i).name,Slot.root before.getLast? (t.stream i).ctx (t.contexts.next a),
        (t.stream i).publishing && !(t.context a).publishing,(t.stream i).timerSet⟩
      else t.stream j)
    (same : after.contexts.top = t.contexts.top)
    (links : ∀ x, after.contexts.next x = if before.getLast? = some x then t.contexts.next a else t.contexts.next x)
    (contexts : ∀ c, after.context c = if c = a then {t.context a with stream:=none} else t.context c) :
    Linked conf after (if before ++ rest = [] then some i else none) own (update subs i (before ++ rest)) := by
  have removed := family_remove (k:=i) (g:=after.contexts) linked.contexts (le_of_eq same.symm) split links
  have ctx : (fun j => (after.stream j).ctx) =
      update (fun j => (t.stream j).ctx) i (Slot.root before.getLast? (t.stream i).ctx (t.contexts.next a)) := by
    funext j
    grind
  have apart := linked.contexts.apart
  have others : ∀ c, c ∈ before ++ rest ↔ c ∈ subs i ∧ c ≠ a := by
    intro c
    simpa using linked.contexts.mem_removed (x:=c) (j:=i) split
  have member : a ∈ subs i := by simp [split]
  clear split links
  obtain ⟨_,named,distinct,_,joined,held,publishing,single,timer⟩ := linked
  generalize before ++ rest = left at *
  generalize Slot.root before.getLast? (t.stream i).ctx (t.contexts.next a) = root at *
  refine ⟨streams,?_,?_,ctx ▸ removed,?_,fun j => ?_,fun j => ?_,?_,?_⟩
  · grind
  · grind
  · grind
  · rw [held j]
    grind
  · have earlier := publishing j
    grind
  · grind
  · grind

theorem linked_delete (linked : Linked conf t (some i) own subs) (split : own (.bucket b) = before ++ i::rest) (empty : subs i = [])
    (off : (t.stream i).timerSet = false)
    (streams : Family after.streams after.root (update (update own (.bucket b) (before ++ rest)) .free (i::own .free)))
    (values : ∀ j, after.stream j = t.stream j) (contexts : after.contexts = t.contexts) :
    Linked conf after none (update (update own (.bucket b) (before ++ rest)) .free (i::own .free)) subs := by
  have same : after.stream = t.stream := funext values
  have context : after.context = t.context := by
    funext a
    exact congrArg (fun h => Heap.val h a) contexts
  have entries : ∀ c j, j ∈ update (update own (.bucket b) (before ++ rest)) .free (i::own .free) (.bucket c) ↔
      j ∈ own (.bucket c) ∧ j ≠ i := by
    intro c j
    rw [Function.update_of_ne (by simp)]
    exact linked.streams.mem_removed split
  obtain ⟨_,named,distinct,family,joined,held,publishing,single,timer⟩ := linked
  refine ⟨streams,fun c j member => ?_,fun c j left k right => ?_,?_,context ▸ joined,fun j => ?_,?_,context ▸ single,fun j armed => ?_⟩
  · rw [same]
    exact named c j ((entries c j).mp member).1
  · rw [same]
    exact distinct c j ((entries c j).mp left).1 k ((entries c k).mp right).1
  · rw [same,contexts]
    exact family
  · simp only [entries,exists_and_right]
    rw [held j]
    grind
  · rw [same,context]
    exact publishing
  · rw [same] at armed ⊢
    have before := timer j armed
    grind

section

variable (linked : Linked conf t bare own subs)
include linked

theorem getStream_linked (name : Name) : ∃ before rest,
    Stops (fun i => (t.stream i).name == name) (own (.bucket (conf.hash name))) before rest ∧
      getStream conf t name = some (before.getLast?,rest.head?) :=
  linked.streams.seek _ (.bucket (conf.hash name))

theorem Linked.unjoined (idle : (t.context a).stream = none) (i : Nat) : a ∉ subs i := by
  intro member
  rw [(linked.joined a i).mpr member] at idle
  cases idle

theorem attach_linked (listed : ∃ b, i ∈ own (.bucket b)) (bared : ∀ j, bare = some j → j = i)
    (inside : a < t.contexts.top) (idle : (t.context a).stream = none)
    (alone : publisher = true → (t.stream i).publishing = false) :
    Linked conf (attach a i publisher t) none own (update subs i (a::subs i)) := by
  have root : (attach a i publisher t).root = t.root := by cases publisher <;> rfl
  refine linked_push linked listed bared (linked.unjoined idle) alone ?_ (fun j => ?_) inside ?_ (fun x => ?_) fun c => ?_
  · rw [root]
    refine family_frame linked.streams ?_ fun _ x _ => ?_ <;> cases publisher <;> simp [attach,Table.setStream,Table.setContext]
  · cases publisher <;> simp [attach,Table.stream,Table.setStream,Table.setContext,setVal_val]
    grind
  · cases publisher <;> rfl
  · cases publisher <;> simp [attach,Table.setStream,Table.setContext,setNext_next,Table.stream,setVal_val]
  · cases publisher <;> simp [attach,Table.context,Table.setStream,Table.setContext,setVal_val]

theorem link_linked (listed : ∃ b, i ∈ own (.bucket b)) (bared : ∀ j, bare = some j → j = i)
    (inside : a < t.contexts.top) (idle : (t.context a).stream = none)
    (alone : publisher = true → (t.stream i).publishing = false) (relaying : Bool) :
    Linked conf (link a i publisher relaying t) none own (update subs i (a::subs i)) := by
  have attached := attach_linked linked listed bared inside idle alone
  unfold link
  dsimp only
  split
  · rename_i arms
    refine linked_timer attached true fun _ => ⟨?_,.inl (by simp)⟩
    simp only [Bool.and_eq_true,Bool.not_eq_true'] at arms
    exact arms.1.2
  · exact attached

theorem zeroContext_linked (idle : (t.context a).stream = none) : Linked conf (t.zeroContext a) bare own subs := by
  refine linked_context linked (linked.unjoined idle) le_rfl (fun x other => ?_) (fun x other => ?_) ?_
  · rw [setNext_next,if_neg other,setVal_next]
  · rw [setNext_val,setVal_val,if_neg other]
    rfl
  · rw [setNext_val,setVal_val,if_pos rfl]
    rfl

end

theorem join_linked (linked : Linked conf t none own subs) (inside : a < t.contexts.top) (name : Name)
    (publisher relayed relaying : Bool) : ∃ after, join conf a name publisher relayed relaying t = some after ∧
      ∃ own subs, Linked conf after none own subs := by
  unfold join
  cases idle : (t.context a).stream with
  | some i => exact ⟨t,by simp,own,subs,linked⟩
  | none =>
    have zeroed := zeroContext_linked linked idle
    have still : ((t.zeroContext a).context a).stream = none := by
      simp [Table.zeroContext,Table.context,setVal_val,Ctx.zeroed]
    obtain ⟨before,rest,⟨split,passed,found⟩,result⟩ := getStream_linked zeroed name
    simp only [Option.isSome_none,Bool.false_eq_true,if_false,result]
    cases rest with
    | nil =>
      obtain rfl : own (.bucket (conf.hash name)) = before := by simpa using split
      dsimp only [head?_nil]
      split
      · obtain ⟨made,i,kept,same,created,listed,_,value,contexts⟩ := createStream_linked zeroed name (by simpa using passed)
        rw [same]
        refine ⟨_,rfl,kept,_,link_linked created listed (fun j bare => (Option.some.inj bare).symm) ?_ ?_ (fun _ => ?_) relaying⟩
        · rw [contexts]
          exact inside
        · rw [Table.context,contexts]
          exact still
        · rw [value]
          rfl
      · exact ⟨_,rfl,own,subs,zeroed⟩
    | cons i rest =>
      dsimp only [head?_cons]
      split
      · exact ⟨_,rfl,own,subs,zeroed⟩
      · split
        · exact ⟨_,rfl,own,subs,zeroed⟩
        · rename_i free
          refine ⟨_,rfl,own,_,link_linked zeroed ⟨_,by rw [split]; simp⟩ (by simp) inside still (fun on => ?_) relaying⟩
          simpa [on] using free

theorem root_recycle (t : Table) (streams : Heap Stream) (p : Option Nat) (b i : Nat) :
    Table.root {t with streams:=streams,buckets:=update t.buckets b p,freeStreams:=some i} =
      update (update t.root (.bucket b) p) .free (some i) := by
  rw [root_hang,Function.update_comm (by simp)]

theorem deleteStream_linked (linked : Linked conf (t.setContext a ({· with stream:=none})) (some i) own subs)
    (member : i ∈ own (.bucket b)) (empty : subs i = []) :
    ∃ after, deleteStream conf a i t = some after ∧ ∃ own, Linked conf after none own subs := by
  have quiet := linked_timer (i:=i) linked false (by simp)
  obtain ⟨before,rest,⟨split,passed,found⟩,result⟩ := getStream_linked quiet (t.stream i).name
  have named : (((t.setContext a ({· with stream:=none})).setStream i ({· with timerSet:=false})).stream i).name = (t.stream i).name := by
    rw [stream_setStream,if_pos rfl]
    rfl
  have bucket : conf.hash (t.stream i).name = b := named ▸ quiet.named b i member
  rw [bucket] at split
  have same : ((t.setStream i ({· with timerSet:=false})).stream i).name = (t.stream i).name := named
  unfold deleteStream
  dsimp only
  rw [same,bucket]
  cases rest with
  | nil =>
    have inside : i ∈ before := by simpa [split] using member
    have different := passed i inside
    rw [named] at different
    simp at different
  | cons j rest =>
    have equal : j = i := by
      refine quiet.distinct b j (by rw [split]; simp) i member ?_
      rw [named]
      simpa using found j rfl
    subst equal
    rw [show getStream conf (t.setStream j ({· with timerSet:=false})) (t.stream j).name = _ from result]
    dsimp only [head?_cons]
    refine ⟨_,rfl,_,linked_delete quiet split empty ?_ ?_ (fun k => ?_) rfl⟩
    · rw [stream_setStream,if_pos rfl]
    · have recycled := family_recycle quiet.streams (show Key.free ≠ .bucket b by simp) split
      rw [← root_recycle _ t.streams] at recycled
      exact recycled
    · simp [Table.stream,Table.setContext,Table.setStream]

@[simp] theorem setStream_contexts : (t.setStream i change).contexts = t.contexts := rfl

-- The context that closes still points to its stream; the lists are those without it.
theorem detach_linked (linked : Linked conf t none own subs) (member : a ∈ subs i) : ∃ u rest, detach a i t = some u ∧
    Linked conf (u.setContext a ({· with stream:=none})) (if rest = [] then some i else none) own (update subs i rest) ∧
    ((t.context a).publishing = true → (u.stream i).publishing = false) := by
  obtain ⟨before,rest,split,result⟩ := linked.contexts.seek_cell member
  have ctx : ((t.setStream i fun s => {s with publishing:=s.publishing && !(t.context a).publishing}).stream i).ctx = (t.stream i).ctx := by
    rw [stream_setStream,if_pos rfl]
  unfold detach
  dsimp only
  rw [ctx,setStream_contexts,result]
  refine ⟨_,before ++ rest,rfl,linked_leave linked split ?_ (fun j => ?_) ?_ (fun x => ?_) fun c => ?_,fun on => ?_⟩
  · exact family_frame linked.streams le_rfl fun _ x _ => by simp [Table.setStream,Table.setContext]
  · simp [Table.stream,Table.setStream,Table.setContext,setVal_val,Table.context]
    grind
  · simp [Table.setContext]
  · simp [Table.setContext,store_next]
  · simp [Table.context,Table.setContext,setVal_val]
  · simp [Table.setStream,Table.stream,setVal_val,on]

theorem unpublish_linked (linked : Linked conf (t.setContext a ({· with stream:=none})) bare own subs)
    (off : (t.stream i).publishing = false) : ∃ u, unpublish conf i t = some u ∧
      Linked conf (u.setContext a ({· with stream:=none})) bare own subs := by
  have family : Family t.contexts (fun j => (t.stream j).ctx) subs :=
    family_frame linked.contexts le_rfl fun _ x _ => (setVal_next _ _ _ x).symm
  unfold unpublish
  rw [family.chain i]
  dsimp only
  split
  · rename_i players
    simp only [Bool.and_eq_true,any_eq_true] at players
    obtain ⟨_,c,member,_⟩ := players
    exact ⟨_,rfl,linked_timer linked true fun _ => ⟨off,.inl (ne_nil_of_mem member)⟩⟩
  · exact ⟨t,rfl,linked⟩

theorem close_linked (linked : Linked conf t none own subs) (a : Nat) :
    ∃ after, close conf a t = some after ∧ ∃ own subs, Linked conf after none own subs := by
  unfold close
  cases joined : (t.context a).stream with
  | none => exact ⟨t,rfl,own,subs,linked⟩
  | some i =>
    obtain ⟨u,rest,detached,left,off⟩ := detach_linked linked ((linked.joined a i).mp joined)
    dsimp only
    rw [detached]
    obtain ⟨v,done,linked⟩ : ∃ v, (if (t.context a).publishing then unpublish conf i u else some u) = some v ∧
        Linked conf (v.setContext a ({· with stream:=none})) (if rest = [] then some i else none) own (update subs i rest) := by
      split
      · rename_i on
        exact unpublish_linked left (off on)
      · exact ⟨u,rfl,left⟩
    dsimp only
    rw [done]
    have root : (v.stream i).ctx = none ↔ rest = [] := by
      have none := linked.contexts.root_none (k:=i)
      rwa [update_self] at none
    dsimp only
    split
    · rename_i filled
      have nonempty : rest ≠ [] := by
        rw [Ne,← root]
        exact Option.isSome_iff_ne_none.mp filled
      rw [if_neg nonempty] at linked
      exact ⟨_,rfl,own,_,linked⟩
    · rename_i empty
      have nil : rest = [] := root.mp (by simpa using empty)
      rw [if_pos nil] at linked
      obtain ⟨b,member⟩ := (linked.held i).mpr (.inr rfl)
      obtain ⟨after,result,kept,final⟩ := deleteStream_linked linked member (by rw [update_self,nil])
      exact ⟨after,result,kept,_,final⟩

theorem checkingCallback_linked (linked : Linked conf t none own subs) : Linked conf (checkingCallback i t) none own subs := by
  unfold checkingCallback
  split
  · rename_i armed
    have quiet := linked_timer (i:=i) linked false (by simp)
    dsimp only
    split
    · exact quiet
    · obtain ⟨off,filled⟩ := linked.timer i armed
      refine linked_timer quiet true fun _ => ⟨?_,filled⟩
      rw [stream_setStream,if_pos rfl]
      exact off
  · exact linked

def Upright (conf : Conf) (state : Option Table) : Prop := ∃ t, state = some t ∧ ∃ own subs, Linked conf t none own subs

theorem step_upright (state : Option Table) (event : Event) (upright : Upright conf state) : Upright conf (step conf state event) := by
  obtain ⟨t,rfl,own,subs,linked⟩ := upright
  unfold step
  rw [Option.bind_some]
  cases event with
  | accept =>
    have fresh : ∀ i, t.contexts.top ∉ subs i := fun i member => lt_irrefl _ (linked.contexts.bound i _ member)
    refine ⟨_,rfl,own,subs,linked_context linked fresh (Nat.le_succ _) (fun x other => ?_) (fun x other => ?_) ?_⟩
    · rw [alloc_next,if_neg other]
    · rw [alloc_val,if_neg other]
      rfl
    · rw [alloc_val,if_pos rfl]
      rfl
  | publish a name =>
    simp only [handle]
    split
    · rename_i inside
      exact join_linked linked inside name true false false
    · exact ⟨t,rfl,own,subs,linked⟩
  | play a name relayed relaying =>
    simp only [handle]
    split
    · rename_i inside
      exact join_linked linked inside name false relayed relaying
    · exact ⟨t,rfl,own,subs,linked⟩
  | close a =>
    simp only [handle]
    split
    · exact close_linked linked a
    · exact ⟨t,rfl,own,subs,linked⟩
  | check i => exact ⟨_,rfl,own,subs,checkingCallback_linked linked⟩

end Lists

theorem initial_linked (conf : Conf) : Linked conf .initial none (fun _ => []) (fun _ => []) := by
  refine ⟨⟨fun k => by cases k <;> rfl,by simp,by simp,by simp⟩,by simp,by simp,⟨fun _ => rfl,by simp,by simp,by simp⟩,?_,by simp,?_,by simp,?_⟩
  · exact fun a i => ⟨fun same => (nomatch same),fun member => (nomatch member)⟩
  · exact fun i => ⟨fun on => Bool.noConfusion on,fun ⟨a,member,_⟩ => (nomatch member)⟩
  · exact fun i on => Bool.noConfusion on

theorem live_table_sound (conf : Conf) (events : List Event) :
    ∃ t, events.foldl (step conf) (some .initial) = some t ∧ Sound t := by
  have upright : Upright conf (events.foldl (step conf) (some .initial)) :=
    Runs.run_invariant (fun s e _ => step_upright s e) ⟨_,rfl,_,_,initial_linked conf⟩ (Runs.along_always events _)
  obtain ⟨t,same,own,subs,linked⟩ := upright
  exact ⟨t,same,linked.sound⟩

end NgxRtmp.LiveTable
