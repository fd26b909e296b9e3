import NgxRtmp.Relay

namespace NgxRtmp.Relay

open Cells Function List

theorem update_play_bucket {f : Key → α} : update f (.play e) v (.bucket d) = f (.bucket d) :=
  update_of_ne (by simp) _ _

theorem update_bucket_play {f : Key → α} : update f (.bucket b) v (.play e) = f (.play e) :=
  update_of_ne (by simp) _ _

theorem update_bucket {f : Key → α} : update f (.bucket b) v (.bucket d) = update (fun d => f (.bucket d)) b v d := by
  simp [update_apply]

theorem update_play {f : Key → α} : update f (.play c) v (.play e) = if e = c then v else f (.play e) := by
  simp [update_apply]

section Changes

variable {hash : List UInt8 → Nat} {r : Table} {head : Key → Option Nat} {own : Key → List Nat} {after : Heap Ctx}

theorem linked_frame (linked : Linked hash r head own) (grown : r.heap.top ≤ after.top)
    (links : ∀ k, ∀ x ∈ own k, after.next x = r.heap.next x) (values : ∀ k, ∀ x ∈ own k, after.val x = r.heap.val x)
    (idle : ∀ x, (∀ k, x ∉ own k) → (after.val x).publish = none ∧ (after.val x).live = false) :
    Linked hash {r with heap:=after} head own := by
  have family : Family after head own := family_frame linked.family grown links
  obtain ⟨_,rooted,named,played,listed,published,live⟩ := linked
  refine ⟨family,rooted,?_,?_,listed,?_,?_⟩
  · intro b e member
    rw [values _ e member]
    exact named b e member
  · intro b e member
    rw [values _ e member]
    exact played b e member
  all_goals
    intro a
    by_cases free : ∀ k, a ∉ own k
    · grind
    · obtain ⟨k,member⟩ := not_forall_not.mp free
      grind

-- The list of the entry `c` becomes `xs`; `p` joins it or leaves it and is in no other.
theorem linked_players (linked : Linked hash r head own) (entry : c ∈ own (.bucket b)) (alone : ∀ k, k ≠ .play c → p ∉ own k)
    (family : Family after (update head (.play c) q) (update own (.play c) xs)) (part : publish = none ∨ publish = some c)
    (members : ∀ x, x ∈ xs ↔ if x = p then publish = some c else x ∈ own (.play c))
    (values : ∀ x, after.val x = if x = c then {r.heap.val c with play:=q}
      else if x = p then {r.heap.val p with publish,live:=publish.isSome} else r.heap.val x) :
    Linked hash {r with heap:=after} (update head (.play c) q) (update own (.play c) xs) := by
  have different : p ≠ c := by
    rintro rfl
    exact alone _ (by simp) entry
  obtain ⟨_,rooted,named,played,listed,published,live⟩ := linked
  refine ⟨family,?_,?_,?_,?_,?_,?_⟩
  · intro d
    rw [update_play_bucket]
    exact rooted d
  · intro d e member
    rw [update_play_bucket] at member
    have kept : (after.val e).name = (r.heap.val e).name := by
      rw [values]
      split
      · rename_i same
        rw [same]
      · split
        · rename_i same
          rw [same]
        · rfl
    rw [kept]
    exact named d e member
  · intro d e member
    rw [update_play_bucket] at member
    have other : e ≠ p := fun same => alone _ (by simp) (same ▸ member)
    rw [values]
    by_cases same : e = c
    · rw [if_pos same,same,update_self]
    · rw [if_neg same,if_neg other,update_of_ne (by simpa using same)]
      exact played d e member
  · intro a e player
    simp only [update_play_bucket]
    by_cases same : e = c
    · exact ⟨b,same ▸ entry⟩
    · rw [update_of_ne (by simpa using same)] at player
      exact listed a e player
  · intro a e
    simp only [update_play_bucket,update_play,values]
    by_cases moved : a = p
    · have unlisted : ∀ d, p ∉ own (.bucket d) := fun d => alone _ (by simp)
      have elsewhere : e ≠ c → p ∉ own (.play e) := fun other => alone _ (by simpa using other)
      grind
    · have earlier := published a e
      grind
  · intro a
    have earlier := live a
    rw [values]
    grind

theorem linked_join (linked : Linked hash r head own) (entry : c ∈ own (.bucket b)) (free : ∀ k, p ∉ own k)
    (same : after.top = r.heap.top) (inside : p < r.heap.top)
    (links : ∀ x, after.next x = if x = p then (r.heap.val c).play else r.heap.next x)
    (values : ∀ x, after.val x = if x = c then {r.heap.val c with play:=some p}
      else if x = p then {r.heap.val p with publish:=some c,live:=true} else r.heap.val x) :
    Linked hash {r with heap:=after} (update head (.play c) (some p))
      (update own (.play c) (p::own (.play c))) := by
  have family : Family after (update head (.play c) (some p)) (update own (.play c) (p::own (.play c))) := by
    refine family_push linked.family (le_of_eq same.symm) free (by rwa [same]) fun x => ?_
    rw [links,linked.played b c entry]
  refine linked_players linked entry (fun k _ => free k) family (.inr rfl) (fun x => ?_) values
  rw [mem_cons]
  split
  · simp [*]
  · simp [*]

-- The lists with a new entry `q` at the end of its bucket and `p` its only player.
abbrev entered (own : Key → List Nat) (b p q : Nat) : Key → List Nat :=
  update (update own (.bucket b) (own (.bucket b) ++ [q])) (.play q) [p]

theorem mem_entered_bucket : e ∈ entered own b p q (.bucket d) ↔ e ∈ own (.bucket d) ∨ d = b ∧ e = q := by
  rw [entered,update_play_bucket,mem_appended,Key.bucket.injEq]

theorem mem_entered_play (empty : own (.play q) = []) : a ∈ entered own b p q (.play e) ↔ a ∈ own (.play e) ∨ e = q ∧ a = p := by
  rw [entered,update_play,update_bucket_play]
  by_cases here : e = q
  · simp [here,empty]
  · simp [here]

-- Only here do old links of the two contexts come back to life.
theorem family_enter (linked : Linked hash r head own) (free : ∀ k, p ∉ own k ∧ q ∉ own k) (different : p ≠ q)
    (same : after.top = r.heap.top) (inside : p < r.heap.top ∧ q < r.heap.top)
    (ends : r.heap.next p = none ∧ r.heap.next q = none) (empty : own (.play q) = [])
    (links : ∀ x, after.next x = if (own (.bucket b)).getLast? = some x then some q else r.heap.next x) :
    Family after
      (update (update head (.bucket b) (Slot.root (own (.bucket b)).getLast? (r.ctx b) (some q))) (.play q) (some p))
      (entered own b p q) := by
  have first := family_append (k:=.bucket b) (a:=q) (g:=after) linked.family (le_of_eq same.symm)
    (fun k => (free k).2) (by rw [same]; exact inside.2) fun x => by
      rw [links]
      have unlisted := mem_of_getLast? (l:=own (.bucket b)) (a:=q)
      grind
  rw [linked.rooted b] at first
  have second := family_push (k:=.play q) (a:=p) (g:=after) first le_rfl (by grind)
    (by rw [same]; exact inside.1) fun x => by
      have root : head (.play q) = none := linked.family.root_none.mpr empty
      have unlisted := mem_of_getLast? (l:=own (.bucket b)) (a:=p)
      grind
  simpa [empty] using second

theorem linked_enter (linked : Linked hash r head own) (free : ∀ k, p ∉ own k ∧ q ∉ own k) (different : p ≠ q)
    (same : after.top = r.heap.top) (inside : p < r.heap.top ∧ q < r.heap.top)
    (ends : r.heap.next p = none ∧ r.heap.next q = none) (name : hash (r.heap.val q).name = b)
    (links : ∀ x, after.next x = if (own (.bucket b)).getLast? = some x then some q else r.heap.next x)
    (values : ∀ x, after.val x = if x = p then {r.heap.val p with publish:=some q,live:=true}
      else if x = q then {r.heap.val q with publish:=some q,play:=some p,live:=true} else r.heap.val x) :
    Linked hash ⟨after,update r.ctx b (Slot.root (own (.bucket b)).getLast? (r.ctx b) (some q))⟩
      (update (update head (.bucket b) (Slot.root (own (.bucket b)).getLast? (r.ctx b) (some q))) (.play q) (some p))
      (entered own b p q) := by
  have empty : own (.play q) = [] := by
    rw [eq_nil_iff_forall_not_mem]
    intro a player
    obtain ⟨b,member⟩ := linked.listed a q player
    exact (free _).2 member
  have family := family_enter linked free different same inside ends empty links
  have at_p : after.val p = {r.heap.val p with publish:=some q,live:=true} := by rw [values,if_pos rfl]
  have at_q : after.val q = {r.heap.val q with publish:=some q,play:=some p,live:=true} := by
    rw [values,if_neg (Ne.symm different),if_pos rfl]
  have other : ∀ x, x ≠ p → x ≠ q → after.val x = r.heap.val x := by
    intro x first second
    rw [values,if_neg first,if_neg second]
  have old : ∀ k, ∀ x ∈ own k, after.val x = r.heap.val x := by
    intro k x member
    apply other
    · exact fun same => (free k).1 (same ▸ member)
    · exact fun same => (free k).2 (same ▸ member)
  obtain ⟨_,rooted,named,played,listed,published,live⟩ := linked
  refine ⟨family,?_,?_,?_,?_,?_,?_⟩
  · intro d
    rw [update_play_bucket,update_bucket,funext rooted]
  · intro d e member
    cases mem_entered_bucket.mp member with
    | inl member =>
      rw [old _ e member]
      exact named d e member
    | inr new =>
      obtain ⟨rfl,rfl⟩ := new
      rw [at_q]
      exact name
  · intro d e member
    rw [update_play,update_bucket_play]
    cases mem_entered_bucket.mp member with
    | inl member =>
      rw [if_neg fun same => (free _).2 (same ▸ member),old _ e member]
      exact played d e member
    | inr new => rw [if_pos new.2,new.2,at_q]
  · intro a e member
    cases (mem_entered_play empty).mp member with
    | inl member =>
      obtain ⟨d,entry⟩ := listed a e member
      exact ⟨d,mem_entered_bucket.mpr (.inl entry)⟩
    | inr new => exact ⟨b,mem_entered_bucket.mpr (.inr ⟨rfl,new.1⟩)⟩
  · intro a e
    simp only [mem_entered_bucket,mem_entered_play empty]
    by_cases first : a = p
    · -- the player belongs to the new entry and to nothing else
      rw [first,at_p]
      simp only [Option.some.injEq,(free (.play e)).1,false_or,and_true]
      grind
    · by_cases second : a = q
      · rw [second,at_q]
        simp only [Option.some.injEq,(free (.play e)).2,false_or,Ne.symm different,and_false]
        grind
      · rw [other a first second,published a e]
        simp only [first,and_false,or_false]
        grind
  · intro a
    by_cases first : a = p
    · simp [first,at_p]
    · by_cases second : a = q
      · simp [second,at_q]
      · rw [other a first second]
        exact live a

theorem linked_leave (linked : Linked hash r head own) (split : own (.play p) = before ++ a::rest)
    (same : after.top = r.heap.top)
    (links : ∀ x, after.next x = if before.getLast? = some x then r.heap.next a else r.heap.next x)
    (values : ∀ x, after.val x = if x = p then {r.heap.val p with play:=Slot.root before.getLast? (r.heap.val p).play (r.heap.next a)}
      else if x = a then {r.heap.val a with publish:=none,live:=false} else r.heap.val x) :
    Linked hash {r with heap:=after}
      (update head (.play p) (Slot.root before.getLast? (r.heap.val p).play (r.heap.next a)))
      (update own (.play p) (before ++ rest)) := by
  have player : a ∈ own (.play p) := by simp [split]
  obtain ⟨b,entry⟩ := linked.listed a p player
  have family := family_remove (k:=.play p) (g:=after) linked.family (le_of_eq same.symm) split links
  rw [linked.played b p entry] at family
  have members := fun x => linked.family.mem_removed (x:=x) (j:=.play p) split
  simp only [update_self] at members
  refine linked_players linked entry (fun k other here => other (linked.family.apart _ _ a here player)) family (.inl rfl) (fun x => ?_) values
  rw [members]
  split
  · simp [*]
  · simp [*]

-- The lists without the entry `a` of bucket `b`, whose other entries are `left`, and without its players.
abbrev removed (own : Key → List Nat) (a b : Nat) (left : List Nat) : Key → List Nat :=
  update (update own (.play a) []) (.bucket b) left

theorem mem_removed_bucket (linked : Linked hash r head own) (split : own (.bucket b) = before ++ a::rest) :
    e ∈ removed own a b (before ++ rest) (.bucket d) ↔ e ∈ own (.bucket d) ∧ e ≠ a := by
  rw [removed,update_comm (by simp),update_play_bucket]
  exact linked.family.mem_removed split

theorem mem_removed_play : x ∈ removed own a b left (.play e) ↔ x ∈ own (.play e) ∧ e ≠ a := by
  rw [removed,update_bucket_play,update_play]
  by_cases here : e = a
  · simp [here]
  · simp [here]

theorem linked_remove (linked : Linked hash r head own) (split : own (.bucket b) = before ++ a::rest)
    (same : after.top = r.heap.top)
    (links : ∀ x, after.next x = if before.getLast? = some x then r.heap.next a else r.heap.next x)
    (values : ∀ x, after.val x = if x = a ∨ x ∈ own (.play a) then {r.heap.val x with publish:=none,live:=false} else r.heap.val x) :
    Linked hash ⟨after,update r.ctx b (Slot.root before.getLast? (r.ctx b) (r.heap.next a))⟩
      (update (update head (.play a) none) (.bucket b) (Slot.root before.getLast? (r.ctx b) (r.heap.next a)))
      (removed own a b (before ++ rest)) := by
  have entry : a ∈ own (.bucket b) := by simp [split]
  have family := family_remove (k:=.bucket b) (g:=after) (family_drop linked.family (.play a)) (le_of_eq same.symm)
    (by simpa using split) links
  rw [update_of_ne (by simp),linked.rooted b] at family
  have apart := linked.family.apart
  have unplayed : ∀ x e, x ∈ own (.play e) → ∀ d, x ∉ own (.bucket d) := by
    intro x e member d entry
    cases apart _ _ x member entry
  have bucket : ∀ d e, e ∈ removed own a b (before ++ rest) (.bucket d) ↔ e ∈ own (.bucket d) ∧ e ≠ a :=
    fun _ _ => mem_removed_bucket linked split
  have kept : ∀ x, (after.val x).name = (r.heap.val x).name ∧ (after.val x).play = (r.heap.val x).play := by
    intro x
    rw [values]
    split
    · exact ⟨rfl,rfl⟩
    · exact ⟨rfl,rfl⟩
  obtain ⟨_,rooted,named,played,listed,published,live⟩ := linked
  refine ⟨family,?_,?_,?_,?_,?_,?_⟩
  · intro d
    rw [update_bucket]
    simp only [update_play_bucket,rooted]
  · intro d e member
    rw [(kept e).1]
    exact named d e ((bucket d e).mp member).1
  · intro d e member
    obtain ⟨entry,other⟩ := (bucket d e).mp member
    rw [update_bucket_play,update_play,if_neg other,(kept e).2]
    exact played d e entry
  · intro x e member
    obtain ⟨member,other⟩ := mem_removed_play.mp member
    obtain ⟨d,entry⟩ := listed x e member
    exact ⟨d,(bucket d e).mpr ⟨entry,other⟩⟩
  · intro x e
    simp only [bucket,mem_removed_play]
    rw [values]
    by_cases orphan : x = a ∨ x ∈ own (.play a)
    · -- it was in no list but this entry's, and is in none now
      rw [if_pos orphan]
      constructor
      · intro none
        cases none
      · rintro (⟨member,other⟩ | ⟨rfl,d,member,other⟩)
        · cases orphan with
          | inl same => exact absurd entry (unplayed a e (same ▸ member) b)
          | inr orphan =>
            cases apart _ _ x member orphan
            exact absurd rfl other
        · cases orphan with
          | inl same => exact absurd same other
          | inr orphan => exact absurd member (unplayed x a orphan d)
    · obtain ⟨different,unlisted⟩ := not_or.mp orphan
      rw [if_neg orphan,published x e]
      have elsewhere : x ∈ own (.play e) → e ≠ a := fun member same => unlisted (same ▸ member)
      grind
  · intro x
    rw [values]
    split
    · simp
    · exact live x

end Changes

section Operations

variable {hash : List UInt8 → Nat} {r : Table} {head : Key → Option Nat} {own : Key → List Nat} {h : Heap Ctx}

structure Made (hash : List UInt8 → Nat) (r : Table) (head : Key → Option Nat) (own : Key → List Nat) (name : List UInt8)
    (h : Heap Ctx) (p : Nat) : Prop where
  linked : Linked hash {r with heap:=h} head own
  grown : r.heap.top ≤ h.top
  inside : p < h.top
  free : ∀ k, p ∉ own k
  name : (h.val p).name = name

section

variable (linked : Linked hash r head own)
include linked

theorem Linked.idle (free : ∀ k, x ∉ own k) : (r.heap.val x).publish = none ∧ (r.heap.val x).live = false := by
  have publish : (r.heap.val x).publish = none := by
    cases found : (r.heap.val x).publish with
    | none => rfl
    | some e =>
      rcases (linked.published x e).mp found with player | ⟨rfl,b,member⟩
      · exact absurd player (free _)
      · exact absurd member (free _)
  have live := linked.live x
  simp only [publish,ne_eq,not_true_eq_false,iff_false,Bool.not_eq_true] at live
  exact ⟨publish,live⟩

theorem Linked.free (publish : (r.heap.val a).publish = none) (k : Key) : a ∉ own k :=
  fun member => linked.listed_publish member publish

theorem local_made (inside : a < r.heap.top) (made : createLocalCtx a name r.heap = some (h,p)) :
    Made hash r head own name h p ∧ p = a ∧ (r.heap.val a).publish = none ∧ (∀ x, h.next x = r.heap.next x) ∧
      ∀ x, x ≠ a → h.val x = r.heap.val x := by
  unfold createLocalCtx at made
  cases publish : (r.heap.val a).publish with
  | some e => simp [publish] at made
  | none =>
    simp only [publish,Option.isSome_none,Bool.false_eq_true,if_false,Option.some.injEq,Prod.mk.injEq] at made
    obtain ⟨rfl,rfl⟩ := made
    refine ⟨⟨?_,le_rfl,inside,linked.free publish,?_⟩,rfl,rfl,fun x => modify_next,
      fun x other => by rw [modify_val,if_neg other]⟩
    · refine linked_frame linked le_rfl (fun _ x _ => modify_next) (fun k x member => ?_) fun x free => ?_
      · rw [modify_val,if_neg]
        rintro rfl
        exact linked.free publish k member
      · rw [modify_val]
        split
        · rename_i same
          subst same
          exact linked.idle free
        · exact linked.idle free
    · rw [modify_val,if_pos rfl]

theorem linked_alloc (v : Ctx) (idle : v.publish = none ∧ v.live = false) :
    Linked hash {r with heap:=r.heap.alloc v} head own := by
  have old : ∀ k, ∀ x ∈ own k, x ≠ r.heap.top := fun k x member => ne_of_lt (linked.family.bound k x member)
  refine linked_frame linked (Nat.le_succ _) (fun k x member => ?_) (fun k x member => ?_) fun x free => ?_
  · rw [alloc_next,if_neg (old k x member)]
  · rw [alloc_val,if_neg (old k x member)]
  · rw [alloc_val]
    split
    · exact idle
    · exact linked.idle free

theorem remote_made (made : createRemoteCtx connects name r.heap = some (h,p)) :
    Made hash r head own name h p ∧ connects = true ∧ p = r.heap.top ∧ h.next p = none ∧
      (∀ x, x ≠ p → h.next x = r.heap.next x) ∧ ∀ x, x ≠ p → h.val x = r.heap.val x := by
  unfold createRemoteCtx at made
  cases connects with
  | false => cases made
  | true =>
    simp only [if_true,Option.some.injEq,Prod.mk.injEq] at made
    obtain ⟨rfl,rfl⟩ := made
    refine ⟨⟨linked_alloc linked _ ⟨rfl,rfl⟩,Nat.le_succ _,Nat.lt_succ_self _,fun k member => ?_,?_⟩,rfl,rfl,?_,fun x other => ?_,
      fun x other => ?_⟩
    · exact lt_irrefl _ (linked.family.bound k _ member)
    · rw [alloc_val,if_pos rfl]
    · rw [alloc_next,if_pos rfl]
    · rw [alloc_next,if_neg other]
    · rw [alloc_val,if_neg other]

theorem create_linked (first : ∀ h p, createPlayCtx name r.heap = some (h,p) → Made hash r head own name h p)
    (second : ∀ h p g q, createPlayCtx name r.heap = some (h,p) → createPublishCtx name h = some (g,q) →
      (∀ e ∈ own (.bucket (hash name)), (h.val e).name ≠ name) →
      Made hash {r with heap:=h} head own name g q ∧ p ≠ q ∧ g.next p = none ∧ g.next q = none) :
    ∃ after, create hash name createPublishCtx createPlayCtx r = some after ∧ ∃ head own, Linked hash after head own := by
  unfold create
  cases played : createPlayCtx name r.heap with
  | none => exact ⟨r,rfl,head,own,linked⟩
  | some made =>
    obtain ⟨h,p⟩ := made
    have play := first h p played
    obtain ⟨before,rest,⟨split,passed,found⟩,result⟩ :=
      play.linked.family.seek (fun c => (h.val c).name == name) (.bucket (hash name))
    rw [play.linked.rooted] at result
    dsimp only at result ⊢
    rw [result]
    cases rest with
    | cons c rest =>
      have entry : c ∈ own (.bucket (hash name)) := by simp [split]
      have publish : (h.val c).publish = some c := play.linked.entry_publish entry
      have different : c ≠ p := by
        rintro rfl
        exact play.free _ entry
      refine ⟨_,rfl,_,_,linked_join (r:={r with heap:=h}) play.linked entry play.free rfl play.inside (fun x => ?_) fun x => ?_⟩
      · simp [setNext_next,modify_val,different]
      · simp [modify_val,different,publish]
    | nil =>
      dsimp only [head?_nil]
      cases published : createPublishCtx name h with
      | none => exact ⟨_,rfl,_,_,play.linked⟩
      | some made =>
        obtain ⟨g,q⟩ := made
        obtain rfl : own (.bucket (hash name)) = before := by simpa using split
        obtain ⟨publish,different,playEnd,publishEnd⟩ := second h p g q played published (by simpa using passed)
        refine ⟨_,rfl,_,_,linked_enter (r:={r with heap:=g}) publish.linked (fun k => ⟨play.free k,publish.free k⟩) different (by simp)
          ⟨lt_of_lt_of_le play.inside publish.grown,publish.inside⟩ ⟨playEnd,publishEnd⟩ (by rw [publish.name])
          (fun x => ?_) fun x => ?_⟩
        · simp [store_next]
        · simp [modify_val,different]

end

theorem orphan_next : (orphan h a).next x = h.next x := modify_next

theorem orphan_val : (orphan h a).val x = if x = a then {h.val x with publish:=none,live:=false} else h.val x := by
  unfold orphan
  rw [modify_val]
  split
  · rename_i same
    rw [same]
  · rfl

theorem orphans_frame (xs : List Nat) (h : Heap Ctx) :
    (xs.foldl orphan h).top = h.top ∧ ∀ x, (xs.foldl orphan h).next x = h.next x := by
  induction xs generalizing h with
  | nil => exact ⟨rfl,fun _ => rfl⟩
  | cons a xs ih => exact ⟨(ih _).1,fun x => ((ih _).2 x).trans orphan_next⟩

theorem orphans_val {xs : List Nat} :
    (xs.foldl orphan h).val x = if x ∈ xs then {h.val x with publish:=none,live:=false} else h.val x := by
  induction xs generalizing h with
  | nil => rfl
  | cons a xs ih =>
    rw [foldl_cons,ih,orphan_val]
    grind

theorem closePlay_linked (linked : Linked hash r head own) (player : a ∈ own (.play p)) :
    ∃ after, closePlay a p r = some after ∧ ∃ head own, Linked hash after head own := by
  obtain ⟨b,entry⟩ := linked.listed a p player
  obtain ⟨before,rest,split,result⟩ := linked.family.seek_cell player
  rw [linked.played b p entry] at result
  have different : a ≠ p := by
    rintro rfl
    cases linked.family.apart _ _ a player entry
  unfold closePlay
  rw [result]
  refine ⟨_,rfl,_,_,linked_leave linked split ?_ (fun x => ?_) fun x => ?_⟩
  · simp [orphan]
  · simp [orphan_next,store_next]
  · simp only [orphan_val,store_val,modify_val]
    grind

theorem closePublish_linked (linked : Linked hash r head own) (entry : a ∈ own (.bucket b)) :
    ∃ after, closePublish hash a r = some after ∧ ∃ head own, Linked hash after head own := by
  have players := linked.family.chain (.play a)
  rw [linked.played b a entry] at players
  unfold closePublish
  rw [players]
  dsimp only
  generalize same : orphan ((own (.play a)).foldl orphan r.heap) a = h
  have top : h.top = r.heap.top := by
    subst same
    exact (orphans_frame _ _).1
  have links : ∀ x, h.next x = r.heap.next x := by
    subst same
    exact fun x => orphan_next.trans ((orphans_frame _ _).2 x)
  have values : ∀ x, h.val x = if x = a ∨ x ∈ own (.play a) then {r.heap.val x with publish:=none,live:=false} else r.heap.val x := by
    subst same
    intro x
    rw [orphan_val,orphans_val]
    grind
  have bucket : hash (h.val a).name = b := by
    rw [values,if_pos (.inl rfl)]
    exact linked.named b a entry
  have family : Family h head own := family_frame linked.family (le_of_eq top.symm) fun _ x _ => links x
  obtain ⟨before,rest,split,result⟩ := family.seek_cell entry
  rw [linked.rooted b] at result
  rw [bucket,result,links a]
  refine ⟨_,rfl,_,_,linked_remove linked split (by simpa using top) (fun x => ?_) fun x => ?_⟩
  · rw [store_next,links x]
  · rw [store_val,values x]

theorem close_linked (linked : Linked hash r head own)
    (dynamic : (r.heap.val a).staticRelay = true → (r.heap.val a).publish = none) :
    ∃ after, close hash a r = some after ∧ ∃ head own, Linked hash after head own := by
  unfold close
  split
  · rename_i static
    have free := linked.free (dynamic static)
    refine ⟨_,rfl,head,own,linked_frame linked le_rfl (fun _ x _ => modify_next) (fun k x member => ?_) fun x idle => ?_⟩
    · rw [modify_val,if_neg]
      rintro rfl
      exact free k member
    · rw [modify_val]
      split
      · exact ⟨dynamic static,rfl⟩
      · exact linked.idle idle
  · cases publish : (r.heap.val a).publish with
    | none => exact ⟨r,rfl,head,own,linked⟩
    | some p =>
      dsimp only
      split
      · rename_i same
        subst same
        obtain ⟨b,entry⟩ : ∃ b, p ∈ own (.bucket b) := by
          rcases (linked.published p p).mp publish with player | ⟨_,entry⟩
          · exact linked.listed p p player
          · exact entry
        exact closePublish_linked linked entry
      · rename_i other
        rcases (linked.published a p).mp publish with player | ⟨same,_⟩
        · exact closePlay_linked linked player
        · exact absurd same.symm other

def Table.find (hash : List UInt8 → Nat) (r : Table) (name : List UInt8) : Option Nat :=
  (r.heap.seek (fun c => (r.heap.val c).name == name) r.heap.top none (r.ctx (hash name))).bind (·.2)

theorem find_none (linked : Linked hash r head own) (absent : ∀ e ∈ own (.bucket (hash name)), (r.heap.val e).name ≠ name) :
    r.find hash name = none := by
  obtain ⟨before,rest,⟨split,_,found⟩,result⟩ :=
    linked.family.seek (fun c => (r.heap.val c).name == name) (.bucket (hash name))
  rw [linked.rooted] at result
  unfold Table.find
  rw [result]
  cases rest with
  | nil => rfl
  | cons c rest =>
    have same : (r.heap.val c).name = name := by simpa using found c rfl
    exact absurd same (absent c (by simp [split]))

-- A context that founds an entry has no link left from an earlier life.
def fresh (hash : List UInt8 → Nat) (r : Table) (a : Nat) (name : List UInt8) : Prop :=
  (r.heap.val a).publish = none → r.find hash name = none → r.heap.next a = none

theorem pull_linked (linked : Linked hash r head own) (inside : a < r.heap.top) (new : connects = true → fresh hash r a name) :
    ∃ after, pull hash a name connects r = some after ∧ ∃ head own, Linked hash after head own := by
  refine create_linked linked (fun h p made => (local_made linked inside made).1) fun h p g q played published absent => ?_
  obtain ⟨play,rfl,publish,links,values⟩ := local_made linked inside played
  obtain ⟨remote,connected,rfl,ends,kept,_⟩ := remote_made play.linked published
  have different : p ≠ h.top := ne_of_lt play.inside
  refine ⟨remote,different,?_,ends⟩
  rw [kept p different]
  refine (links p).trans (new connected publish (find_none linked fun e member same => absent e member ?_))
  rw [values e]
  · exact same
  · rintro rfl
    exact play.free _ member

theorem push_linked (linked : Linked hash r head own) (inside : a < r.heap.top) (new : connects = true → fresh hash r a name) :
    ∃ after, push hash a name connects r = some after ∧ ∃ head own, Linked hash after head own := by
  refine create_linked linked (fun h p made => (remote_made linked made).1) fun h p g q played published absent => ?_
  obtain ⟨play,connected,rfl,ends,kept,values⟩ := remote_made linked played
  obtain ⟨made,rfl,publish,links,_⟩ := local_made play.linked (lt_of_lt_of_le inside play.grown) published
  have different : q ≠ r.heap.top := ne_of_lt inside
  refine ⟨made,different.symm,(links _).trans ends,?_⟩
  rw [links q,kept q different]
  rw [values q different] at publish
  refine new connected publish (find_none linked fun e member same => absent e member ?_)
  rw [values e (ne_of_lt (linked.family.bound _ e member))]
  exact same

-- A founder starts without old links, and a static relay closes only while it is not in the table.
def tidy (hash : List UInt8 → Nat) : Option Table → Event → Prop
  | some r,.pull a name true | some r,.push a name true => a < r.heap.top → fresh hash r a name
  | some r,.close a => (r.heap.val a).staticRelay = true → (r.heap.val a).publish = none
  | _,_ => True

def Upright (hash : List UInt8 → Nat) (state : Option Table) : Prop :=
  ∃ r, state = some r ∧ ∃ head own, Linked hash r head own

theorem step_upright (state : Option Table) (event : Event) (allowed : tidy hash state event) (upright : Upright hash state) :
    Upright hash (step hash state event) := by
  obtain ⟨r,rfl,head,own,linked⟩ := upright
  unfold step
  rw [Option.bind_some]
  cases event with
  | accept => exact ⟨_,rfl,head,own,linked_alloc linked _ ⟨rfl,rfl⟩⟩
  | staticPull name => exact ⟨_,rfl,head,own,linked_alloc linked _ ⟨rfl,rfl⟩⟩
  | pull a name connects =>
    simp only [handle]
    split
    · rename_i inside
      refine pull_linked linked inside fun connected => ?_
      subst connected
      exact allowed inside
    · exact ⟨r,rfl,head,own,linked⟩
  | push a name connects =>
    simp only [handle]
    split
    · rename_i inside
      refine push_linked linked inside fun connected => ?_
      subst connected
      exact allowed inside
    · exact ⟨r,rfl,head,own,linked⟩
  | close a =>
    simp only [handle]
    split
    · exact close_linked linked allowed
    · exact ⟨r,rfl,head,own,linked⟩

theorem initial_linked (hash : List UInt8 → Nat) : Linked hash .initial (fun _ => none) (fun _ => []) := by
  refine ⟨⟨fun _ => rfl,fun _ => nodup_nil,by simp,by simp⟩,fun _ => rfl,by simp,by simp,by simp,fun a e => ?_,fun a => ?_⟩
  · simp [Table.initial,Heap.val,Ctx.zeroed]
  · simp [Table.initial,Heap.val,Ctx.zeroed]

def Intact (state : Option Table) : Prop := ∃ r, state = some r ∧ Sound r

end Operations

end NgxRtmp.Relay
