import NgxRtmp.Exec
import NgxRtmp.Lib.Runs

namespace NgxRtmp.Exec

open Cells Counting Function
open LiveTable (Name)

-- `own` are the entries of the buckets. A `bare` entry is in the table with a
-- counter of 0.
structure Linked (conf : Conf) (t : Table) (bare : Option Nat) (own : Nat → List Nat) : Prop where
  family : Family t.entries t.pull own
  hashed : ∀ b, ∀ i ∈ own b, conf.hash (t.entry i).name = b
  names : ∀ b, ∀ i ∈ own b, ∀ j ∈ own b, (t.entry i).name = (t.entry j).name → i = j
  counted : ∀ i, (t.entry i).counter = Nat.count (refers t.contexts i) t.sessions
  held : ∀ i, (∃ b, i ∈ own b) ↔ 0 < (t.entry i).counter ∨ bare = some i
  outside : ∀ a, t.sessions ≤ a → (t.contexts a).pull = none

theorem Linked.inTable (linked : Linked conf t bare own) : InTable t i ↔ ∃ b, i ∈ own b := by
  constructor
  · rintro ⟨b,xs,list,member⟩
    exact ⟨b,seg_unique list (linked.family.list b) ▸ member⟩
  · rintro ⟨b,member⟩
    exact ⟨b,own b,linked.family.list b,member⟩

theorem Linked.sound (linked : Linked conf t none own) : Sound t := by
  refine ⟨fun b => ⟨own b,linked.family.list b,linked.family.distinct b⟩,fun i j first second same => ?_,linked.counted,fun i => ?_⟩
  · obtain ⟨b,left⟩ := linked.inTable.mp first
    obtain ⟨c,right⟩ := linked.inTable.mp second
    have bucket : b = c := by rw [← linked.hashed b i left,← linked.hashed c j right,same]
    subst bucket
    exact linked.names b i left j right same
  · rw [linked.inTable,linked.held]
    simp

theorem linked_contexts (linked : Linked conf t bare own) (same : ∀ x, (contexts x).pull = (t.contexts x).pull) :
    Linked conf {t with contexts:=contexts} bare own := by
  refine ⟨linked.family,linked.hashed,linked.names,fun i => ?_,linked.held,fun a beyond => (same a).trans (linked.outside a beyond)⟩
  refine (linked.counted i).trans (count_congr fun x _ => ?_)
  unfold refers
  rw [same]

theorem linked_accept (linked : Linked conf t bare own) : Linked conf {t with sessions:=t.sessions+1} bare own := by
  refine ⟨linked.family,linked.hashed,linked.names,fun i => ?_,linked.held,fun a beyond => linked.outside a (Nat.le_of_succ_le beyond)⟩
  have new : ¬refers t.contexts i t.sessions := by
    unfold refers
    rw [linked.outside _ le_rfl]
    exact fun some => by cases some
  have succ := Nat.count_succ (refers t.contexts i) t.sessions
  rw [if_neg new] at succ
  exact (linked.counted i).trans succ.symm

theorem Linked.fresh (linked : Linked conf t bare own) (b : Nat) : t.entries.top ∉ own b :=
  fun member => lt_irrefl _ (linked.family.bound b _ member)

theorem createPull_entry (conf : Conf) (name : Name) (slot : Slot) (t : Table) (j : Nat) :
    (createPull conf name slot t).entry j = if j = t.entries.top then ⟨name,0,conf.pulls⟩ else t.entry j := by
  unfold Table.entry createPull
  rw [store_val,alloc_val]

theorem createPull_linked (linked : Linked conf t none own) (new : ∀ i ∈ own (conf.hash name), (t.entry i).name ≠ name) :
    Linked conf (createPull conf name (own (conf.hash name)).getLast? t) (some t.entries.top)
      (update own (conf.hash name) (own (conf.hash name) ++ [t.entries.top])) := by
  have links : ∀ x, (createPull conf name (own (conf.hash name)).getLast? t).entries.next x = if x = t.entries.top then none
      else if (own (conf.hash name)).getLast? = some x then some t.entries.top else t.entries.next x := by
    intro x
    unfold createPull
    rw [store_next,alloc_next]
    by_cases last : (own (conf.hash name)).getLast? = some x
    · have old : x ≠ t.entries.top := ne_of_lt (linked.family.bound _ x (List.mem_of_getLast? last))
      simp [last,old]
    · simp [last]
  have entry := createPull_entry conf name (own (conf.hash name)).getLast? t
  have kept : ∀ b, ∀ i ∈ own b, (createPull conf name (own (conf.hash name)).getLast? t).entry i = t.entry i := fun b i member =>
    (entry i).trans (if_neg (ne_of_lt (linked.family.bound b i member)))
  have made : (createPull conf name (own (conf.hash name)).getLast? t).entry t.entries.top = ⟨name,0,conf.pulls⟩ :=
    (entry _).trans (if_pos rfl)
  have unheld : (t.entry t.entries.top).counter = 0 := by
    have absent : ¬∃ b, t.entries.top ∈ own b := fun ⟨b,member⟩ => linked.fresh b member
    rw [linked.held] at absent
    exact Nat.eq_zero_of_not_pos fun positive => absent (.inl positive)
  refine ⟨?_,?_,?_,?_,?_,linked.outside⟩
  · exact family_append linked.family (by simp [createPull,Heap.alloc]) (linked.fresh ·) (by simp [createPull,Heap.alloc]) links
  · intro b i member
    rcases (mem_appended ..).mp member with old | ⟨rfl,rfl⟩
    · rw [kept b i old]
      exact linked.hashed b i old
    · rw [made]
  · intro b i first j second same
    rcases (mem_appended ..).mp first with left | ⟨rfl,rfl⟩ <;> rcases (mem_appended ..).mp second with right | ⟨here,rfl⟩
    · rw [kept b i left,kept b j right] at same
      exact linked.names b i left j right same
    · subst here
      rw [kept _ i left,made] at same
      exact absurd same (new i left)
    · rw [kept _ j right,made] at same
      exact absurd same.symm (new j right)
    · rfl
  · intro i
    refine Eq.trans ?_ (linked.counted i)
    rw [entry]
    split
    · rename_i here
      rw [here,unheld]
    · rfl
  · intro i
    have held := linked.held i
    simp only [mem_appended,exists_or]
    by_cases here : i = t.entries.top
    · subst here
      exact ⟨fun _ => .inr rfl,fun _ => .inr ⟨_,rfl,rfl⟩⟩
    · rw [entry,if_neg here,held]
      simp [here,Ne.symm here]

theorem count_refers (contexts : Nat → Ctx) (inside : a < n) (context : Ctx) (i : Nat) :
    Nat.count (refers (update contexts a context) i) n+(if (contexts a).pull = some i then 1 else 0) =
      Nat.count (refers contexts i) n+(if context.pull = some i then 1 else 0) := by
  have apart : ∀ x, x ≠ a → (refers (update contexts a context) i x ↔ refers contexts i x) := by
    intro x other
    unfold refers
    rw [update_of_ne other]
  have change := count_change inside apart
  have own : refers (update contexts a context) i a ↔ context.pull = some i := by
    unfold refers
    rw [update_self]
  simp only [own] at change
  exact change

theorem linked_recount (linked : Linked conf t bare own) (inside : a < t.sessions)
    (counts : ∀ j, (if j = i then change (t.entry i).counter else (t.entry j).counter)+(if (t.contexts a).pull = some j then 1 else 0) =
      (t.entry j).counter+(if context.pull = some j then 1 else 0))
    (held : ∀ j, (∃ b, j ∈ own b) ↔ 0 < (if j = i then change (t.entry i).counter else (t.entry j).counter) ∨ after = some j) :
    Linked conf (({t with contexts:=update t.contexts a context} : Table).count i change) after own := by
  have entry : ∀ j, (({t with contexts:=update t.contexts a context} : Table).count i change).entry j =
      if j = i then {t.entry i with counter:=change (t.entry i).counter} else t.entry j := fun j => setVal_val ..
  have name : ∀ j, ((({t with contexts:=update t.contexts a context} : Table).count i change).entry j).name = (t.entry j).name := by
    intro j
    rw [entry]
    split
    · rename_i same
      rw [same]
    · rfl
  have counter : ∀ j, ((({t with contexts:=update t.contexts a context} : Table).count i change).entry j).counter =
      if j = i then change (t.entry i).counter else (t.entry j).counter := by
    intro j
    rw [entry]
    split <;> rfl
  refine ⟨family_frame linked.family le_rfl fun _ _ _ => setVal_next ..,?_,?_,?_,?_,?_⟩
  · intro b j member
    rw [name]
    exact linked.hashed b j member
  · intro b j first k second same
    rw [name,name] at same
    exact linked.names b j first k second same
  · intro j
    have moved := count_refers t.contexts inside context j
    have before := counts j
    have old := linked.counted j
    rw [counter]
    change _ = Nat.count (refers (update t.contexts a context) j) t.sessions
    omega
  · intro j
    rw [counter]
    exact held j
  · intro x beyond
    change t.sessions ≤ x at beyond
    change (update t.contexts a context x).pull = none
    rw [update_of_ne (by omega)]
    exact linked.outside x beyond

theorem refer_linked (linked : Linked conf t bare own) (inside : a < t.sessions) (idle : (t.contexts a).pull = none)
    (listed : i ∈ own b) (bared : ∀ j, bare = some j → j = i) : Linked conf (refer a i t) none own := by
  refine linked_recount linked inside (fun j => ?_) (fun j => ?_)
  · rw [idle]
    by_cases same : j = i
    · simp [same]
    · simp [same,Ne.symm same]
  · have held := linked.held j
    by_cases same : j = i
    · subst same
      simpa using ⟨b,listed⟩
    · have other : bare ≠ some j := fun here => same (bared j here)
      simpa [same,other] using held

theorem Linked.positive (linked : Linked conf t bare own) (inside : a < t.sessions) (joined : (t.contexts a).pull = some i) :
    0 < (t.entry i).counter := by
  have change := count_refers t.contexts inside {t.contexts a with pull:=none} i
  have old := linked.counted i
  rw [if_pos joined] at change
  simp only [reduceCtorEq,if_false] at change
  omega

theorem release_linked (linked : Linked conf t none own) (inside : a < t.sessions) (joined : (t.contexts a).pull = some i) :
    Linked conf (({t with contexts:=update t.contexts a {t.contexts a with pull:=none}} : Table).count i (·-1))
      (if (t.entry i).counter = 1 then some i else none) own := by
  have positive := linked.positive inside joined
  refine linked_recount linked inside (fun j => ?_) (fun j => ?_)
  · rw [joined]
    by_cases same : j = i
    · subst same
      simp
      omega
    · simp [same,Ne.symm same]
  · have held := linked.held j
    by_cases same : j = i
    · subst same
      rw [held]
      by_cases last : (t.entry j).counter = 1
      · simp [last]
      · simp [last]
        omega
    · rw [held]
      by_cases last : (t.entry i).counter = 1 <;> simp [last,same,Ne.symm same]

theorem linked_remove (linked : Linked conf t (some i) own) (unheld : (t.entry i).counter = 0) (split : own b = before ++ i::rest)
    (family : Family entries pull (update own b (before ++ rest))) (values : ∀ j, entries.val j = t.entry j) :
    Linked conf {t with entries:=entries,pull:=pull} none (update own b (before ++ rest)) := by
  have removed : ∀ c j, j ∈ update own b (before ++ rest) c ↔ j ∈ own c ∧ j ≠ i := fun c j => linked.family.mem_removed split
  refine ⟨family,fun c j member => ?_,fun c j first k second same => ?_,fun j => ?_,fun j => ?_,linked.outside⟩
  · have old := ((removed c j).mp member).1
    change conf.hash (entries.val j).name = c
    rw [values]
    exact linked.hashed c j old
  · have left := ((removed c j).mp first).1
    have right := ((removed c k).mp second).1
    change (entries.val j).name = (entries.val k).name at same
    rw [values,values] at same
    exact linked.names c j left k right same
  · change (entries.val j).counter = _
    rw [values]
    exact linked.counted j
  · change _ ↔ 0 < (entries.val j).counter ∨ _
    have held := linked.held j
    rw [values]
    simp only [removed,exists_and_right,held]
    by_cases same : j = i
    · simp [same,unheld]
    · simp [same,Ne.symm same]

theorem unlink_linked (linked : Linked conf t (some i) own) (unheld : (t.entry i).counter = 0) :
    ∃ entries pull after, unlink conf i t = some {t with entries:=entries,pull:=pull} ∧ (∀ j, entries.val j = t.entry j) ∧
      Linked conf {t with entries:=entries,pull:=pull} none after := by
  obtain ⟨b,member⟩ := (linked.held i).mpr (.inr rfl)
  obtain ⟨before,rest,split,found⟩ := linked.family.seek_cell member
  have values : ∀ j, (t.entries.store before.getLast? (t.entries.next i)).val j = t.entry j := fun j => store_val ..
  refine ⟨t.entries.store before.getLast? (t.entries.next i),_,_,?_,values,linked_remove linked unheld split
    (family_remove linked.family (le_of_eq (store_top ..).symm) split fun x => store_next ..) values⟩
  unfold unlink
  simp only [linked.hashed b i member,found]

theorem unlink_contexts
    (unlinked : unlink conf i {t with contexts:=contexts} = some {t with contexts:=contexts,entries:=entries,pull:=pull}) :
    unlink conf i t = some {t with entries:=entries,pull:=pull} := by
  unfold unlink Table.entry at *
  simp only at *
  split at unlinked
  · cases unlinked
  · cases unlinked
    rfl
  · cases unlinked
    rfl

def killed (t : Table) (a : Nat) : List Command :=
  match (t.contexts a).pull with
  | none => pushCommands t a
  | some i => pushCommands t a ++ if (t.entry i).counter = 1 then pullCommands t i else []

theorem count_counter {t : Table} :
    ((t.count i change).entry j).counter = if j = i then change (t.entry i).counter else (t.entry j).counter := by
  unfold Table.count Table.entry
  rw [setVal_val]
  split <;> rfl

section

variable (linked : Linked conf t none own)
include linked

theorem closeStream_linked (inside : a < t.sessions) : ∃ after kept,
    closeStream conf a t = some (after,killed t a) ∧ Linked conf after none kept ∧
    ∀ j, (after.entry j).counter = if (t.contexts a).pull = some j then (t.entry j).counter-1 else (t.entry j).counter := by
  unfold closeStream killed
  cases joined : (t.contexts a).pull with
  | none => exact ⟨t,own,rfl,linked,fun _ => rfl⟩
  | some i =>
    have released := release_linked linked inside joined
    have positive := linked.positive inside joined
    have counter : ∀ j, ((t.count i (·-1)).entry j).counter = if some i = some j then (t.entry j).counter-1 else (t.entry j).counter := by
      intro j
      rw [count_counter]
      by_cases same : j = i
      · simp [same]
      · simp [same,Ne.symm same]
    have own := counter i
    rw [if_pos rfl] at own
    by_cases last : (t.entry i).counter = 1
    · rw [if_pos last] at released
      have unheld : ((t.count i (·-1)).entry i).counter = 0 := by rw [own,last]
      obtain ⟨entries,pull,kept,unlinked,values,after⟩ := unlink_linked released unheld
      have same : unlink conf i (t.count i (·-1)) = some {t with entries:=entries,pull:=pull} := unlink_contexts unlinked
      simp only [if_pos unheld,if_pos last,same]
      refine ⟨_,kept,rfl,after,fun j => ?_⟩
      exact (congrArg Pull.counter (values j)).trans (counter j)
    · rw [if_neg last] at released
      have held : ¬((t.count i (·-1)).entry i).counter = 0 := by omega
      simp only [if_neg held,if_neg last,List.append_nil]
      exact ⟨_,_,rfl,released,counter⟩

theorem initCtx_linked (a : Nat) (alloc : Alloc) :
    Linked conf (initCtx conf a alloc t).1 none own ∧ (initCtx conf a alloc t).1.sessions = t.sessions := by
  have keeps (change : Ctx → Ctx) (same : ∀ c, (change c).pull = c.pull) : Linked conf (t.setContext a change) none own := by
    refine linked_contexts linked fun x => ?_
    by_cases here : x = a
    · rw [here,update_self,same]
    · rw [update_of_ne here]
  unfold initCtx
  split
  · exact ⟨linked,rfl⟩
  · split
    · exact ⟨linked,rfl⟩
    · split
      · exact ⟨keeps (fun c => {c with made:=true}) fun _ => rfl,rfl⟩
      · split
        · exact ⟨keeps (fun c => {c with made:=true,pushExec:=conf.pushes}) fun _ => rfl,rfl⟩
        · exact ⟨keeps (fun c => {c with made:=true}) fun _ => rfl,rfl⟩

theorem initPullCtx_linked (inside : a < t.sessions) (name : Name) (alloc : Alloc) : ∃ after ok kept,
    initPullCtx conf a name alloc t = some (after,ok) ∧ Linked conf after none kept := by
  unfold initPullCtx
  split
  · exact ⟨t,true,own,rfl,linked⟩
  · rename_i idle
    split
    · exact ⟨t,true,own,rfl,linked⟩
    · have free : (t.contexts a).pull = none := Option.not_isSome_iff_eq_none.mp idle
      obtain ⟨before,rest,⟨split,passed,found⟩,result⟩ := linked.family.seek (fun i => (t.entry i).name == name) (conf.hash name)
      unfold seekPull
      rw [result]
      cases rest with
      | cons i rest =>
        have member : i ∈ own (conf.hash name) := by simp [split]
        exact ⟨_,true,own,rfl,refer_linked linked inside free member fun _ none => by cases none⟩
      | nil =>
        rw [List.append_nil] at split
        cases alloc.pull with
        | false => exact ⟨t,false,own,rfl,linked⟩
        | true =>
          have new : ∀ i ∈ own (conf.hash name), (t.entry i).name ≠ name := by
            intro i member
            simpa using passed i (split ▸ member)
          have created := createPull_linked linked new
          rw [split] at created
          have referred := refer_linked (b:=conf.hash name) created inside free (by simp) fun j same => (Option.some.inj same).symm
          exact ⟨_,true,_,rfl,referred⟩

theorem play_linked (inside : a < t.sessions) (name : Name) (alloc : Alloc) : ∃ after commands kept,
    play conf a name alloc t = some (after,commands) ∧ Linked conf after none kept := by
  unfold play
  split
  · exact ⟨t,[],own,rfl,linked⟩
  · obtain ⟨inited,sessions⟩ := initCtx_linked linked a alloc
    generalize initCtx conf a alloc t = made at inited sessions
    obtain ⟨u,ok⟩ := made
    cases ok with
    | false => exact ⟨u,[],own,rfl,inited⟩
    | true =>
      obtain ⟨after,referred,kept,result,pulled⟩ := initPullCtx_linked inited (sessions ▸ inside) name alloc
      simp only [result]
      cases referred with
      | false => exact ⟨after,[],kept,rfl,pulled⟩
      | true =>
        simp only
        split
        · exact ⟨after,[],kept,rfl,pulled⟩
        · exact ⟨after,_,kept,rfl,pulled⟩

theorem publish_linked (a : Nat) (autoPushed : Bool) (alloc : Alloc) :
    Linked conf (publish conf a autoPushed alloc t).1 none own := by
  unfold publish
  split
  · exact linked
  · have inited := (initCtx_linked linked a alloc).1
    generalize initCtx conf a alloc t = made at inited
    obtain ⟨u,ok⟩ := made
    cases ok with
    | false => exact inited
    | true => exact inited

end

def Upright (conf : Conf) (state : Option Table) : Prop := ∃ t, state = some t ∧ ∃ own, Linked conf t none own

theorem step_upright (state : Option Table) (event : Event) (upright : Upright conf state) : Upright conf (step conf state event) := by
  obtain ⟨t,rfl,own,linked⟩ := upright
  change Upright conf ((handle conf t event).map Prod.fst)
  unfold handle
  cases event with
  | accept => exact ⟨_,rfl,own,linked_accept linked⟩
  | publish a autoPushed alloc =>
    refine ⟨_,rfl,own,?_⟩
    split
    · exact publish_linked linked a autoPushed alloc
    · exact linked
  | play a name alloc =>
    simp only
    split
    · rename_i inside
      obtain ⟨after,commands,kept,result,played⟩ := play_linked linked inside name alloc
      rw [result]
      exact ⟨after,rfl,kept,played⟩
    · exact ⟨t,rfl,own,linked⟩
  | close a =>
    simp only
    split
    · rename_i inside
      obtain ⟨after,kept,result,closed,_⟩ := closeStream_linked linked inside
      rw [result]
      exact ⟨after,rfl,kept,closed⟩
    · exact ⟨t,rfl,own,linked⟩

theorem initial_linked (conf : Conf) : Linked conf .initial none fun _ => [] := by
  refine ⟨⟨fun _ => rfl,fun _ => List.nodup_nil,by simp,by simp⟩,by simp,by simp,fun i => ?_,fun i => ?_,fun _ _ => rfl⟩
  · exact (Nat.count_zero _).symm
  · simp [Table.initial,Table.entry,Heap.val]

theorem killed_pulls : .pull i n ∈ killed t a ↔
    (t.contexts a).pull = some i ∧ (t.entry i).counter = 1 ∧ n < (t.entry i).pullExec := by
  have pushes : Command.pull i n ∉ pushCommands t a := by simp [pushCommands]
  unfold killed
  cases (t.contexts a).pull with
  | none => simp [pushes]
  | some j =>
    by_cases last : (t.entry j).counter = 1
    · by_cases same : j = i
      · subst same
        simp [pushes,last,pullCommands]
      · simp [pushes,last,pullCommands,same]
    · by_cases same : j = i
      · subst same
        simp [pushes,last]
      · simp [pushes,last,same]

theorem exec_pull_sharing (conf : Conf) (events : List Event) : ∃ t, events.foldl (step conf) (some .initial) = some t ∧ Sound t ∧
    ∀ a, a < t.sessions → ∃ after kills, closeStream conf a t = some (after,kills) ∧
      ∀ i n, .pull i n ∈ kills ↔ (0 < (t.entry i).counter ∧ (after.entry i).counter = 0) ∧ n < (t.entry i).pullExec := by
  have upright : Upright conf (events.foldl (step conf) (some .initial)) :=
    Runs.run_invariant (fun state event _ => step_upright state event) ⟨_,rfl,_,initial_linked conf⟩ (Runs.along_always events _)
  obtain ⟨t,run,own,linked⟩ := upright
  refine ⟨t,run,linked.sound,fun a inside => ?_⟩
  obtain ⟨after,kept,closed,_,counters⟩ := closeStream_linked linked inside
  refine ⟨after,_,closed,fun i n => ?_⟩
  rw [killed_pulls,counters,← and_assoc]
  refine and_congr_left fun _ => ?_
  by_cases joined : (t.contexts a).pull = some i
  · rw [if_pos joined]
    exact ⟨fun ⟨_,one⟩ => ⟨by omega,by omega⟩,fun ⟨positive,dropped⟩ => ⟨joined,by omega⟩⟩
  · rw [if_neg joined]
    exact ⟨fun ⟨here,_⟩ => absurd here joined,fun ⟨positive,zero⟩ => absurd zero (Nat.ne_of_gt positive)⟩

end NgxRtmp.Exec
