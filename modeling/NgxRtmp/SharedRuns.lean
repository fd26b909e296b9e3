import NgxRtmp.Lib.Runs
import NgxRtmp.SharedChains

namespace NgxRtmp.Shared
open Cells OutQueue List

-- A ring that has run full holds more than the slots that the code counts.
def heldSlots : Option Session → List Nat
  | some t => (contents t.out).map Packet.chain
  | none => []

def held (s : System) : List Nat := s.builders ++ s.sessions.flatMap heldSlots

-- `lost` are references of slots that were overwritten.
structure Valid (chunkSize : Nat → Nat) (exact sized : Prop) (s : System) : Prop where
  linked : ∃ lost own, Linked chunkSize sized s.pool (held s ++ lost) own ∧ (exact → lost = [])
  steady : ∀ t, some t ∈ s.sessions → Steady exact t.out
  fits : sized → ∀ t, some t ∈ s.sessions → ∀ c ∈ heldSlots (some t), s.pool.size c = chunkSize t.server
  origin : sized → ∀ c ∈ held s, s.pool.size c = chunkSize (s.origin c)

structure Keeps (s next : System) : Prop where
  pool : Grows s.pool next.pool
  servers : ∀ (i : Nat) (t : Session), next.sessions[i]? = some (some t) →
    ∃ u, s.sessions[i]? = some (some u) ∧ u.server = t.server

theorem Keeps.refl (s : System) : Keeps s s := ⟨Grows.refl _,fun _ t found => ⟨t,found,rfl⟩⟩

theorem servers_set (sessions : List (Option Session)) (found : sessions[i]? = some (some t))
    (same : ∀ u, new = some u → u.server = t.server) (j : Nat) (u : Session) (there : (sessions.set i new)[j]? = some (some u)) :
    ∃ w, sessions[j]? = some (some w) ∧ w.server = u.server := by
  by_cases here : i = j
  · subst here
    obtain ⟨bound,_⟩ := List.getElem?_eq_some_iff.mp found
    rw [List.getElem?_set_self bound] at there
    exact ⟨t,found,(same u (Option.some.inj there)).symm⟩
  · rw [List.getElem?_set_ne here] at there
    exact ⟨u,there,rfl⟩

theorem flatMap_set (f : α → List Nat) {l : List α} (found : l[i]? = some old) (new : α) (c : Nat) :
    ((l.set i new).flatMap f).count c+(f old).count c = (l.flatMap f).count c+(f new).count c := by
  induction l generalizing i with
  | nil => simp at found
  | cons x l ih =>
    cases i with
    | zero =>
      cases (Option.some.inj found : x = old)
      simp only [set_cons_zero,flatMap_cons,count_append]
      omega
    | succ i =>
      have rest := ih (i:=i) (by simpa using found)
      simp only [set_cons_succ,flatMap_cons,count_append]
      omega

section Steps
variable {chunkSize : Nat → Nat} {exact sized : Prop} {s : System}

theorem initial_valid : Valid chunkSize exact sized initial := by
  refine ⟨⟨[],fun _ => [],⟨⟨?_,?_,?_,?_⟩,?_,?_,?_⟩,fun _ => rfl⟩,?_,?_,?_⟩
  · intro k
    cases k <;> rfl
  · exact fun _ => nodup_nil
  · intro _ _ _ member
    cases member
  · intro _ _ member
    cases member
  · intro _ member
    cases member
  · exact fun _ => rfl
  · exact fun _ => ⟨fun _ _ member => (nomatch member),fun _ _ member => (nomatch member)⟩
  · intro _ member
    cases member
  · intro _ _ member
    cases member
  · intro _ _ member
    cases member

theorem Valid.bound (valid : Valid chunkSize exact sized s) (member : c ∈ held s) : c < s.pool.heap.top := by
  obtain ⟨lost,own,linked,_⟩ := valid.linked
  exact linked.bound (mem_append_left _ member)

theorem held_slot (there : some t ∈ s.sessions) (member : c ∈ heldSlots (some t)) : c ∈ held s :=
  mem_append_right _ (mem_flatMap.mpr ⟨some t,there,member⟩)

theorem held_builder (member : c ∈ s.builders) : c ∈ held s := mem_append_left _ member

theorem held_set (member : c ∈ held {s with pool:=p,sessions:=s.sessions.set i n}) : c ∈ held s ∨ c ∈ heldSlots n := by
  rcases mem_append.mp member with builder | slot
  · exact .inl (held_builder builder)
  · obtain ⟨session,there,inside⟩ := mem_flatMap.mp slot
    rcases mem_or_eq_of_mem_set there with old | rfl
    · exact .inl (mem_append_right _ (mem_flatMap.mpr ⟨session,old,inside⟩))
    · exact .inr inside

section

variable (valid : Valid chunkSize exact sized s)
include valid

-- It takes `added` over, gives `freed` back and loses `gone`; `added` was counted before.
theorem exchange_valid (found : s.sessions[i]? = some (some t))
    (moves : (heldSlots (some t) ++ added).Perm (freed ++ (heldSlots n ++ gone))) (kept : exact → gone = [])
    (taken : ∀ refs own, held s ⊆ refs → Linked chunkSize sized s.pool refs own →
      Linked chunkSize sized p (added ++ refs) own) (grown : Grows s.pool p)
    (inside : ∀ c ∈ added, c ∈ held s) (suits : sized → ∀ c ∈ added, s.pool.size c = chunkSize t.server)
    (next : ∀ u, n = some u → u.server = t.server ∧ Steady exact u.out) :
    ∃ pool, freeSharedChains t.server p freed = some pool ∧
      Valid chunkSize exact sized {s with pool,sessions:=s.sessions.set i n} ∧
      Keeps s {s with pool,sessions:=s.sessions.set i n} := by
  obtain ⟨lost,own,linked,none⟩ := valid.linked
  have here : some t ∈ s.sessions := mem_of_getElem? found
  have moved : ∀ c ∈ freed ++ (heldSlots n ++ gone), c ∈ held s ∧ (sized → s.pool.size c = chunkSize t.server) := by
    intro c member
    rcases mem_append.mp (moves.mem_iff.mpr member) with old | more
    · exact ⟨held_slot here old,fun on => valid.fits on t here c old⟩
    · exact ⟨inside c more,fun on => suits on c more⟩
  have sizes : ∀ c ∈ held s, p.size c = s.pool.size c := fun c member => grown.size c (valid.bound member)
  have acquired := taken _ own (subset_append_left (held s) lost) linked
  have sorted : (added ++ (held s ++ lost)).Perm
      (freed ++ (held {s with pool:=p,sessions:=s.sessions.set i n} ++ (gone ++ lost))) := by
    refine perm_iff_count.mpr fun c => ?_
    have session := flatMap_set heldSlots found n c
    have queue := moves.count_eq c
    simp only [held,count_append] at queue ⊢
    omega
  obtain ⟨pool,cells,done,after,shrunk⟩ := freeSharedChains_linked (v:=t.server) (linked_perm acquired sorted) fun on c member => by
    obtain ⟨known,fits⟩ := moved c (mem_append_left _ member)
    rw [sizes c known]
    exact fits on
  have whole : Grows s.pool pool := grown.trans shrunk
  refine ⟨pool,done,⟨⟨gone ++ lost,cells,after,fun on => by rw [kept on,none on]; rfl⟩,?_,?_,?_⟩,whole,?_⟩
  · intro u member
    rcases mem_or_eq_of_mem_set member with old | same
    · exact valid.steady u old
    · exact (next u same.symm).2
  · intro on u member c slot
    rcases mem_or_eq_of_mem_set member with old | same
    · exact (whole.size c (valid.bound (held_slot old slot))).trans (valid.fits on u old c slot)
    · obtain ⟨known,fits⟩ := moved c (mem_append_right _ (mem_append_left _ (same ▸ slot)))
      rw [(next u same.symm).1]
      exact (whole.size c (valid.bound known)).trans (fits on)
  · intro on c member
    have known : c ∈ held s := (held_set member).elim id fun slot =>
      (moved c (mem_append_right _ (mem_append_left _ slot))).1
    exact (whole.size c (valid.bound known)).trans (valid.origin on c known)
  · exact servers_set s.sessions found fun u same => (next u same).1

theorem sendMessage_valid (holds : c ∈ s.builders)
    (suits : sized → ∀ t, s.sessions[i]? = some (some t) → s.pool.size c = chunkSize t.server) (priority : Nat)
    (socket : List SendResult) : ∃ rc next, sendMessage s i c priority socket = some (rc,next) ∧
      Valid chunkSize exact sized next ∧ Keeps s next ∧ next.builders = s.builders := by
  unfold sendMessage
  split
  · rename_i t found
    have here : some t ∈ s.sessions := mem_of_getElem? found
    obtain ⟨steady,gone,moves,kept⟩ := sendMessage_steady (valid.steady t here)
    have slots := moves.map Packet.chain
    rw [map_append,map_append,map_append] at slots
    have member : ∀ d ∈ (if stored t.out priority then [(⟨c,s.bytes c⟩ : Packet)] else []).map Packet.chain, d = c := by
      intro d
      split <;> simp
    obtain ⟨pool,freed,after,keeps⟩ := exchange_valid
      (p:=if stored t.out priority then acquireSharedChain s.pool c else s.pool)
      (n:=some {t with out:=(OutQueue.sendMessage t.out ⟨c,s.bytes c⟩ priority socket).2})
      valid found slots (fun on => by rw [kept on]; rfl)
      (fun refs own inside linked => by
        split
        · exact (acquireSharedChain_linked linked (inside (held_builder holds))).1
        · exact linked)
      (by
        obtain ⟨lost,own,linked,_⟩ := valid.linked
        split
        · exact (acquireSharedChain_linked linked (mem_append_left _ (held_builder holds))).2
        · exact Grows.refl _)
      (fun d there => member d there ▸ held_builder holds)
      (fun on d there => member d there ▸ suits on t found)
      (fun u same => by cases same; exact ⟨rfl,steady⟩)
    dsimp only
    rw [freed]
    exact ⟨_,_,rfl,after,keeps,rfl⟩
  · exact ⟨.again,s,rfl,valid,Keeps.refl s,rfl⟩

theorem writable_valid (i : Nat) (timedout : Bool) (socket : List SendResult) :
    ∃ next, writable s i timedout socket = some next ∧ Valid chunkSize exact sized next := by
  unfold writable
  split
  · rename_i t found
    have here : some t ∈ s.sessions := mem_of_getElem? found
    obtain ⟨steady,moves⟩ := send_steady (valid.steady t here)
    have slots := moves.map Packet.chain
    rw [map_append,map_append,map_append] at slots
    obtain ⟨pool,freed,after,_⟩ := exchange_valid (p:=s.pool) (n:=some {t with out:=send t.out timedout socket})
      valid found slots (fun _ => rfl) (fun _ _ _ linked => linked) (Grows.refl _)
      (by simp) (by simp) (fun u same => by cases same; exact ⟨rfl,steady⟩)
    rw [freed]
    exact ⟨_,rfl,after⟩
  · exact ⟨s,rfl,valid⟩

theorem closeSessionHandler_valid (i : Nat) : ∃ next, closeSessionHandler s i = some next ∧ Valid chunkSize exact sized next := by
  unfold closeSessionHandler
  split
  · rename_i t found
    have here : some t ∈ s.sessions := mem_of_getElem? found
    obtain ⟨gone,contents,kept⟩ := close_moves (valid.steady t here)
    have slots : (heldSlots (some t) ++ []).Perm
        ((freedByClose t.out).map Packet.chain ++ (heldSlots none ++ gone.map Packet.chain)) := by
      rw [append_nil,heldSlots,heldSlots,nil_append,contents,map_append]
    obtain ⟨pool,freed,after,_⟩ := exchange_valid (p:=s.pool) valid found slots (fun on => by rw [kept on]; rfl)
      (fun _ _ _ linked => linked) (Grows.refl _) (by simp) (by simp) (fun u same => by cases same)
    rw [freed]
    exact ⟨_,rfl,after⟩
  · exact ⟨s,rfl,valid⟩

theorem replace_valid (found : s.sessions[i]? = some (some t)) (steady : Steady exact u.out)
    (same : heldSlots (some u) = heldSlots (some t))
    (fits : sized → ∀ c ∈ heldSlots (some t), s.pool.size c = chunkSize u.server) :
    Valid chunkSize exact sized {s with sessions:=s.sessions.set i (some u)} := by
  obtain ⟨lost,own,linked,none⟩ := valid.linked
  have perm : (held s ++ lost).Perm (held {s with sessions:=s.sessions.set i (some u)} ++ lost) := by
    refine perm_iff_count.mpr fun c => ?_
    have session := flatMap_set heldSlots found (some u) c
    rw [same] at session
    simp only [held,count_append]
    omega
  refine ⟨⟨lost,own,linked_perm linked perm,none⟩,fun w member => ?_,fun on w member c slot => ?_,fun on c member => ?_⟩
  · rcases mem_or_eq_of_mem_set member with old | new
    · exact valid.steady w old
    · cases new
      exact steady
  · rcases mem_or_eq_of_mem_set member with old | new
    · exact valid.fits on w old c slot
    · cases new
      exact fits on c (same ▸ slot)
  · refine valid.origin on c ((held_set member).elim id fun slot => ?_)
    exact held_slot (mem_of_getElem? found) (same ▸ slot)

theorem finalizeSession_valid (i : Nat) :
    Valid chunkSize exact sized (finalizeSession s i) ∧ Keeps s (finalizeSession s i) ∧
      (finalizeSession s i).builders = s.builders := by
  unfold finalizeSession
  split
  · rename_i t found
    have here : some t ∈ s.sessions := mem_of_getElem? found
    refine ⟨replace_valid valid found (finalize_steady (valid.steady t here)) rfl fun on => valid.fits on t here,
      ⟨Grows.refl _,servers_set s.sessions found ?_⟩,rfl⟩
    intro u same
    cases same
    rfl
  · exact ⟨valid,Keeps.refl s,rfl⟩

theorem setVirtualServer_valid (i v : Nat)
    (fits : sized → ∀ t, s.sessions[i]? = some (some t) → contents t.out = [] ∨ chunkSize v = chunkSize t.server) :
    Valid chunkSize exact sized (setVirtualServer s i v) := by
  unfold setVirtualServer
  split
  · rename_i t found
    have here : some t ∈ s.sessions := mem_of_getElem? found
    refine replace_valid valid found (valid.steady t here) rfl fun on c slot => ?_
    rcases fits on t found with empty | equal
    · rw [heldSlots,empty] at slot
      cases slot
    · exact (valid.fits on t here c slot).trans equal.symm
  · exact valid

theorem accept_valid (server : Nat) (hls : Bool) (conf : QueueConf)
    (power : exact → conf.outQueue ∣ sizeMod ∧ conf.outQueue < sizeMod) : Valid chunkSize exact sized {s with
      sessions:=s.sessions ++ [some ⟨server,OutQueue.initial hls conf.outQueue conf.outCork conf.outBuffer⟩]} := by
  have empty : heldSlots (some ⟨server,OutQueue.initial hls conf.outQueue conf.outCork conf.outBuffer⟩) = [] := by
    simp [heldSlots,contents,holding,waiting,OutQueue.initial,RingIndex.steps]
  obtain ⟨lost,own,linked,none⟩ := valid.linked
  have same : held {s with sessions:=s.sessions ++
      [some ⟨server,OutQueue.initial hls conf.outQueue conf.outCork conf.outBuffer⟩]} = held s := by
    simp [held,empty]
  refine ⟨⟨lost,own,same ▸ linked,none⟩,fun t member => ?_,fun on t member c slot => ?_,fun on c member => ?_⟩
  · rcases mem_append.mp member with old | new
    · exact valid.steady t old
    · cases mem_singleton.mp new
      exact ⟨⟨conf.positive,conf.positive⟩,fun on => ⟨initial_consistent conf.positive,power on⟩⟩
  · rcases mem_append.mp member with old | new
    · exact valid.fits on t old c slot
    · cases mem_singleton.mp new
      rw [empty] at slot
      cases slot
  · rw [same] at member
    exact valid.origin on c member

theorem build_valid (v : Nat) (bytes : Chain) :
    Valid chunkSize exact sized (build chunkSize s v bytes).2 ∧ Keeps s (build chunkSize s v bytes).2 ∧
      (build chunkSize s v bytes).2.builders = (build chunkSize s v bytes).1::s.builders ∧
      (sized → (build chunkSize s v bytes).2.pool.size (build chunkSize s v bytes).1 = chunkSize v) := by
  obtain ⟨lost,own,linked,none⟩ := valid.linked
  obtain ⟨cells,after,grown,fresh,size⟩ := newSharedBufs_linked linked
  refine ⟨⟨⟨lost,cells,after,none⟩,valid.steady,fun on t member c slot => ?_,fun on c member => ?_⟩,
    ⟨grown,fun _ t found => ⟨t,found,rfl⟩⟩,rfl,size⟩
  · exact (grown.size c (valid.bound (held_slot member slot))).trans (valid.fits on t member c slot)
  · have made : (build chunkSize s v bytes).2.origin = Function.update s.origin (build chunkSize s v bytes).1 v := rfl
    have either : c = (build chunkSize s v bytes).1 ∨ c ∈ held s := mem_cons.mp member
    rw [made]
    rcases either with same | old
    · rw [same,Function.update_self]
      exact size on
    · have other : c ≠ (build chunkSize s v bytes).1 := by
        rintro rfl
        exact fresh (mem_append_left _ old)
      rw [Function.update_of_ne other]
      exact (grown.size c (valid.bound old)).trans (valid.origin on c old)

theorem drop_valid (holds : c ∈ s.builders)
    (suits : sized → s.pool.size c = chunkSize v) : ∃ next, drop s v c = some next ∧
      Valid chunkSize exact sized next ∧ Keeps s next ∧ next.builders = s.builders.erase c := by
  obtain ⟨lost,own,linked,none⟩ := valid.linked
  have sorted : (held s ++ lost).Perm (c::(held {s with builders:=s.builders.erase c} ++ lost)) := by
    have first := perm_cons_erase holds
    rw [held,held]
    exact (first.append_right _).append_right _
  obtain ⟨pool,cells,freed,after,grown⟩ := freeSharedChain_linked (linked_perm linked sorted) suits
  refine ⟨{s with pool,builders:=s.builders.erase c},by rw [drop,freed]; rfl,
    ⟨⟨lost,cells,after,none⟩,valid.steady,fun on t member d slot => ?_,fun on d member => ?_⟩,
    ⟨grown,fun _ t found => ⟨t,found,rfl⟩⟩,rfl⟩
  · exact (grown.size d (valid.bound (held_slot member slot))).trans (valid.fits on t member d slot)
  · have old : d ∈ held s := by
      rcases mem_append.mp member with builder | slot
      · exact held_builder (mem_of_mem_erase builder)
      · exact mem_append_right _ slot
    exact (grown.size d (valid.bound old)).trans (valid.origin on d old)

end

end Steps

section Broadcast
variable {chunkSize : Nat → Nat} {exact sized : Prop} {av : Av} {rpkt : Nat} {turns : List Turn} {base : List Nat}
  {s : System} {k : Packets}

-- The builders are those from before and one for each packet built so far.
structure Airing (chunkSize : Nat → Nat) (exact sized : Prop) (av : Av) (rpkt : Nat) (turns : List Turn) (base : List Nat)
    (s : System) (k : Packets) : Prop where
  valid : Valid chunkSize exact sized s
  builders : s.builders.Perm (rpkt::k.list ++ base)
  codec : ∀ c ∈ av.metadata, c ∈ base
  fits : sized → ∀ c ∈ rpkt::k.list ++ av.metadata.toList, s.pool.size c = chunkSize av.cscf
  servers : sized → ∀ t ∈ turns, t.passed = false → ∀ u, s.sessions[t.session]? = some (some u) →
    chunkSize u.server = chunkSize av.cscf

section

variable (airing : Airing chunkSize exact sized av rpkt turns base s k)
include airing

theorem Airing.holds (member : c ∈ rpkt::k.list ++ av.metadata.toList) : c ∈ s.builders := by
  refine airing.builders.mem_iff.mpr ?_
  rcases mem_append.mp member with mine | codec
  · exact mem_append_left _ mine
  · exact mem_append_right _ (airing.codec c (by simpa using codec))

theorem airing_keeps {next : System} (valid : Valid chunkSize exact sized next)
    (keeps : Keeps s next) (same : next.builders = s.builders) : Airing chunkSize exact sized av rpkt turns base next k := by
  refine ⟨valid,same ▸ airing.builders,airing.codec,fun on c member => ?_,fun on t there taken u found => ?_⟩
  · rw [keeps.pool.size c (airing.valid.bound (held_builder (airing.holds member)))]
    exact airing.fits on c member
  · obtain ⟨w,before,equal⟩ := keeps.servers _ u found
    rw [← equal]
    exact airing.servers on t there taken w before

theorem send_airing (there : t ∈ turns) (taken : t.passed = false)
    (member : c ∈ rpkt::k.list ++ av.metadata.toList) (priority : Nat) (socket : List SendResult) :
    ∃ rc next, sendMessage s t.session c priority socket = some (rc,next) ∧
      Airing chunkSize exact sized av rpkt turns base next k := by
  obtain ⟨rc,next,sent,valid,keeps,same⟩ := sendMessage_valid (i:=t.session) airing.valid (airing.holds member)
    (fun on u found => (airing.fits on c member).trans (airing.servers on t there taken u found).symm) priority socket
  exact ⟨rc,next,sent,airing_keeps airing valid keeps same⟩

theorem prepared_airing (pkt : Option Nat) (bytes : Chain)
    (more : Nat → Packets) (here : ∀ c, pkt = some c → more c = k ∧ c ∈ k.list)
    (new : ∀ c, pkt = none → (more c).list.Perm (c::k.list)) :
    Airing chunkSize exact sized av rpkt turns base (prepared chunkSize s av.cscf pkt bytes).2
      (more (prepared chunkSize s av.cscf pkt bytes).1) ∧
    (prepared chunkSize s av.cscf pkt bytes).1 ∈ (more (prepared chunkSize s av.cscf pkt bytes).1).list := by
  unfold prepared
  cases pkt with
  | some c =>
    obtain ⟨same,member⟩ := here c rfl
    dsimp only
    rw [same]
    exact ⟨airing,member⟩
  | none =>
    dsimp only
    obtain ⟨valid,keeps,builders,size⟩ := build_valid airing.valid av.cscf bytes
    have list := new (build chunkSize s av.cscf bytes).1 rfl
    refine ⟨⟨valid,?_,airing.codec,fun on c member => ?_,fun on t there taken u found => ?_⟩,list.mem_iff.mpr (mem_cons_self ..)⟩
    · rw [builders]
      refine (airing.builders.cons _).trans ?_
      refine perm_iff_count.mpr fun d => ?_
      have count := list.count_eq d
      simp only [cons_append,count_cons,count_append] at count ⊢
      omega
    · by_cases equal : c = (build chunkSize s av.cscf bytes).1
      · rw [equal]
        exact size on
      · have old : c ∈ rpkt::k.list ++ av.metadata.toList := by
          simpa [list.mem_iff,equal] using member
        rw [keeps.pool.size c (airing.valid.bound (held_builder (airing.holds old)))]
        exact airing.fits on c old
    · obtain ⟨w,before,same⟩ := keeps.servers _ u found
      rw [← same]
      exact airing.servers on t there taken w before

theorem sendMeta_airing (there : t ∈ turns)
    (taken : t.passed = false) : ∃ next, sendMeta av t s = some next ∧ Airing chunkSize exact sized av rpkt turns base next k := by
  unfold sendMeta
  cases meta' : av.metadata with
  | none => exact ⟨s,rfl,airing⟩
  | some c =>
    dsimp only
    split
    · obtain ⟨rc,next,sent,after⟩ := send_airing airing there taken (c:=c) (by simp [meta']) 0 t.onMeta
      exact ⟨next,by rw [sent]; rfl,after⟩
    · exact ⟨s,rfl,airing⟩

theorem prepareDummy_airing (t : Turn) :
    Airing chunkSize exact sized av rpkt turns base (prepareDummy chunkSize av t s k).1 (prepareDummy chunkSize av t s k).2 := by
  unfold prepareDummy
  split
  · refine (prepared_airing airing k.aapkt ⟨av.dummy,[]⟩ (fun c => {k with aapkt:=some c}) ?_ ?_).1
    · intro c found
      exact ⟨by rw [← found],by simp [Packets.list,found]⟩
    · intro c missing
      simp only [Packets.list,missing,Option.toList_some,Option.toList_none,append_nil,append_assoc]
      exact perm_middle
  · exact airing

section

variable (there : t ∈ turns)
include there

section

variable (taken : t.passed = false)
include taken

theorem sendDummy_airing : ∃ next, sendDummy t s k = some next ∧ Airing chunkSize exact sized av rpkt turns base next k := by
  unfold sendDummy
  cases found : k.aapkt with
  | none => exact ⟨s,rfl,airing⟩
  | some c =>
    dsimp only
    split
    · obtain ⟨rc,next,sent,after⟩ := send_airing airing there taken (c:=c) (by simp [Packets.list,found]) 0 t.onDummy
      exact ⟨next,by rw [sent]; rfl,after⟩
    · exact ⟨s,rfl,airing⟩

theorem sendApkt_airing (bytes : Chain) (prio : Nat) (socket : List SendResult) :
    ∃ rc next more, sendApkt chunkSize av t bytes prio socket s k = some (rc,next,more) ∧
      Airing chunkSize exact sized av rpkt turns base next more := by
  obtain ⟨built,member⟩ := prepared_airing airing k.apkt bytes (fun c => {k with apkt:=some c})
    (fun c found => ⟨by rw [← found],by simp [Packets.list,found]⟩) (fun c missing => by simp [Packets.list,missing])
  obtain ⟨rc,next,sent,after⟩ := send_airing built there taken
    (mem_append_left _ (mem_cons_of_mem _ member)) prio socket
  refine ⟨rc,next,_,?_,after⟩
  unfold sendApkt
  dsimp only
  rw [sent]
  rfl

theorem sendAcopkt_airing (bytes : Chain) : ∃ rc next more, sendAcopkt chunkSize av t bytes s k = some (rc,next,more) ∧
      Airing chunkSize exact sized av rpkt turns base next more := by
  obtain ⟨built,member⟩ := prepared_airing airing k.acopkt bytes (fun c => {k with acopkt:=some c})
    (fun c found => ⟨by rw [← found],by simp [Packets.list,found]⟩) (fun c missing => by
      simp only [Packets.list,missing,Option.toList_some,Option.toList_none,append_nil]
      exact perm_append_singleton ..)
  obtain ⟨rc,next,sent,after⟩ := send_airing built there taken
    (mem_append_left _ (mem_cons_of_mem _ member)) 0 t.onCoheader
  refine ⟨rc,next,_,?_,after⟩
  unfold sendAcopkt
  dsimp only
  rw [sent]
  rfl

theorem sendHeaders_airing : ∃ rc next more, sendHeaders chunkSize av t s k = some (rc,next,more) ∧
      Airing chunkSize exact sized av rpkt turns base next more := by
  obtain ⟨rc,next,more,first,after⟩ : ∃ rc next more, sendHeader chunkSize av t s k = some (rc,next,more) ∧
      Airing chunkSize exact sized av rpkt turns base next more := by
    unfold sendHeader
    split
    · exact sendApkt_airing airing there taken ..
    · exact ⟨.ok,s,k,rfl,airing⟩
  unfold sendHeaders
  rw [first,Option.bind_some]
  cases rc with
  | again => exact ⟨.again,next,more,rfl,after⟩
  | ok =>
    dsimp only
    split
    · exact sendAcopkt_airing after there taken _
    · obtain ⟨last,sent,done⟩ := sendDummy_airing after there taken
      exact ⟨.ok,last,more,by rw [sent]; rfl,done⟩

theorem sendRelative_airing : ∃ next, sendRelative av rpkt t s = some next ∧
      Airing chunkSize exact sized av rpkt turns base next k := by
  obtain ⟨rc,next,sent,after⟩ := send_airing airing there taken (c:=rpkt) (by simp) av.prio t.onPacket
  unfold sendRelative
  rw [sent]
  refine ⟨_,rfl,?_⟩
  dsimp only
  split
  · obtain ⟨valid,keeps,same⟩ := finalizeSession_valid after.valid t.session
    exact airing_keeps after valid keeps same
  · exact after

theorem sendAbsolute_airing : ∃ next more, sendAbsolute chunkSize av t s k = some (next,more) ∧
      Airing chunkSize exact sized av rpkt turns base next more := by
  obtain ⟨rc,next,more,sent,after⟩ := sendApkt_airing airing there taken av.absolute av.prio t.onPacket
  unfold sendAbsolute
  rw [sent,Option.bind_some]
  cases rc with
  | again => exact ⟨next,more,rfl,after⟩
  | ok =>
    obtain ⟨last,dummy,done⟩ := sendDummy_airing after there taken
    exact ⟨last,more,by dsimp only; rw [dummy]; rfl,done⟩

end

theorem broadcastOne_airing :
    ∃ next more, broadcastOne chunkSize av rpkt t s k = some (next,more) ∧
      Airing chunkSize exact sized av rpkt turns base next more := by
  unfold broadcastOne
  cases taken : t.passed with
  | true => exact ⟨s,k,rfl,airing⟩
  | false =>
    obtain ⟨middle,first,after⟩ := sendMeta_airing airing there taken
    rw [if_neg Bool.false_ne_true,first,Option.bind_some]
    cases t.inactive with
    | false =>
      obtain ⟨next,sent,done⟩ := sendRelative_airing after there taken
      exact ⟨next,k,by rw [if_neg Bool.false_ne_true,sent]; rfl,done⟩
    | true =>
      cases t.waits with
      | true => exact ⟨middle,k,rfl,after⟩
      | false =>
        have ready := prepareDummy_airing after t
        rw [if_pos rfl,if_neg Bool.false_ne_true]
        dsimp only
        split
        · exact sendAbsolute_airing ready there taken
        · obtain ⟨rc,next,more,headers,done⟩ := sendHeaders_airing ready there taken
          rw [headers,Option.bind_some]
          cases rc with
          | again => exact ⟨next,more,rfl,done⟩
          | ok =>
            obtain ⟨last,sent,final⟩ := sendRelative_airing done there taken
            exact ⟨last,more,by dsimp only; rw [sent]; rfl,final⟩

end

end

theorem broadcast_airing (airing : Airing chunkSize exact sized av rpkt turns base s k)
    (there : ∀ t ∈ rest, t ∈ turns) : ∃ next more, broadcast chunkSize av rpkt rest s k = some (next,more) ∧
      Airing chunkSize exact sized av rpkt turns base next more := by
  induction rest generalizing s k with
  | nil => exact ⟨s,k,rfl,airing⟩
  | cons t rest ih =>
    obtain ⟨middle,some',first,after⟩ := broadcastOne_airing airing (there t (mem_cons_self ..))
    obtain ⟨next,more,others,done⟩ := ih after fun u member => there u (mem_cons_of_mem _ member)
    exact ⟨next,more,by rw [broadcast,first,Option.bind_some]; exact others,done⟩

theorem dropAll_valid (valid : Valid chunkSize exact sized s) (builders : s.builders.Perm (packets ++ base))
    (fits : sized → ∀ c ∈ packets, s.pool.size c = chunkSize v) :
    ∃ next, dropAll v s packets = some next ∧ Valid chunkSize exact sized next ∧ next.builders.Perm base := by
  induction packets generalizing s with
  | nil => exact ⟨s,rfl,valid,builders⟩
  | cons c rest ih =>
    have holds : c ∈ s.builders := builders.mem_iff.mpr (mem_cons_self ..)
    obtain ⟨middle,dropped,after,keeps,same⟩ := drop_valid valid holds fun on => fits on c (mem_cons_self ..)
    have remaining : middle.builders.Perm (rest ++ base) := by
      rw [same]
      exact (perm_cons c).mp ((perm_cons_erase holds).symm.trans builders)
    obtain ⟨next,others,done,final⟩ := ih after remaining fun on d member => by
      rw [keeps.pool.size d (valid.bound (held_builder (builders.mem_iff.mpr (by simp [member]))))]
      exact fits on d (mem_cons_of_mem _ member)
    exact ⟨next,by rw [dropAll,dropped,Option.bind_some,others],done,final⟩

-- ngx_rtmp_live_av gives back exactly the references it took as a builder.
theorem liveAv_valid (valid : Valid chunkSize exact sized s) (codec : ∀ c ∈ av.metadata, c ∈ s.builders)
    (fits : sized → ∀ c ∈ av.metadata, s.pool.size c = chunkSize av.cscf)
    (servers : sized → ∀ t ∈ turns, t.passed = false → ∀ u, s.sessions[t.session]? = some (some u) →
      chunkSize u.server = chunkSize av.cscf) :
    ∃ next, liveAv chunkSize s av turns = some next ∧ Valid chunkSize exact sized next ∧ next.builders.Perm s.builders := by
  obtain ⟨built,keeps,builders,size⟩ := build_valid valid av.cscf av.relative
  have start : Airing chunkSize exact sized av (build chunkSize s av.cscf av.relative).1 turns s.builders
      (build chunkSize s av.cscf av.relative).2 ⟨none,none,none⟩ := by
    refine ⟨built,by rw [builders]; rfl,codec,fun on c member => ?_,fun on t there taken u found => ?_⟩
    · rcases mem_cons.mp member with rfl | codec'
      · exact size on
      · have known : c ∈ av.metadata := by simpa [Packets.list] using codec'
        rw [keeps.pool.size c (valid.bound (held_builder (codec c known)))]
        exact fits on c known
    · obtain ⟨w,before,same⟩ := keeps.servers _ u found
      rw [← same]
      exact servers on t there taken w before
  obtain ⟨middle,k,sent,after⟩ := broadcast_airing start fun _ member => member
  obtain ⟨next,dropped,done,final⟩ := dropAll_valid (v:=av.cscf) after.valid after.builders fun on c member =>
    after.fits on c (mem_append_left _ member)
  refine ⟨next,?_,done,final⟩
  unfold liveAv
  dsimp only
  rw [sent,Option.bind_some]
  exact dropped

end Broadcast

end NgxRtmp.Shared
