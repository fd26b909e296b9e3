import NgxRtmp.Lockstep
import NgxRtmp.PendingData

namespace NgxRtmp.Flow
open ChunkWriter ChunkHeader Recv Function List

def Within (f : State) (n : Nat) : Prop :=
  0 < (f.core.chans n).len.toNat ∧ (f.core.chans n).len.toNat < (f.core.chans n).hdr.mlen.toNat ∧
    (f.core.chans n).hdr.mlen.toNat ≤ f.core.cscf.maxMessage

structure Sound (f : State) : Prop where
  limits : ∀ n, f.chunks n ≠ [] → Within f n
  trace : ∀ d ∈ f.core.trace, d.payload.length = d.h.mlen.toNat

structure Bounded (f : State) : Prop extends Sound f where
  sums : ∀ n, (f.chunks n).flatten.length = (f.core.chans n).len.toNat
  chunk : 0 < f.core.chunkSize
  header : f.pos ≠ 0 → f.core.chan.hdr.mlen.toNat ≤ f.core.cscf.maxMessage
  begun : f.pos ≠ 0 → f.core.csid ≠ 0
  known : f.core.csid ≠ 0 → f.core.csid < f.core.cscf.maxStreams

theorem Bounded.frame (bounded : Bounded f) (chans : g.core.chans = f.core.chans) (csid : g.core.csid = f.core.csid)
    (size : g.core.chunkSize = f.core.chunkSize) (conf : g.core.cscf = f.core.cscf) (trace : g.core.trace = f.core.trace)
    (chunks : g.chunks = f.chunks) (pos : g.pos = f.pos) : Bounded g := by
  obtain ⟨⟨limits,sound⟩,sums,chunk,header,begun,known⟩ := bounded
  refine ⟨⟨?_,?_⟩,?_,?_,?_,?_,?_⟩
  · simpa only [Within,chunks,chans,conf] using limits
  · simpa only [trace] using sound
  · simpa only [chunks,chans] using sums
  · simpa only [size] using chunk
  · simpa only [Core.chan,pos,chans,csid,conf] using header
  · simpa only [pos,csid] using begun
  · simpa only [csid,conf] using known

section

variable (bounded : Bounded f)
include bounded

theorem Bounded.finalize : Bounded f.finalize := bounded.frame rfl rfl rfl rfl rfl rfl rfl

-- So in any case the subtraction mlen - len does not wrap around.
theorem Bounded.len_le (n : Nat) : (f.core.chans n).len.toNat ≤ (f.core.chans n).hdr.mlen.toNat := by
  by_cases none : f.chunks n = []
  · have zero := bounded.sums n
    rw [none] at zero
    rw [←zero]
    exact Nat.zero_le _
  · exact le_of_lt (bounded.limits n none).2.1

theorem Bounded.setChan (chan : Chan) (len : chan.len = f.core.chan.len)
    (inside : f.chunks f.core.csid ≠ [] → chan.len < chan.hdr.mlen ∧ chan.hdr.mlen.toNat ≤ f.core.cscf.maxMessage)
    (pos : Nat) (header : pos ≠ 0 → chan.hdr.mlen.toNat ≤ f.core.cscf.maxMessage) (ring : f.core.csid ≠ 0) :
    Bounded {f with core:=f.core.setChan chan,pos} := by
  have same : ∀ n, ((f.core.setChan chan).chans n).len = (f.core.chans n).len := by
    intro n
    unfold Core.setChan
    by_cases current : n = f.core.csid
    · subst current
      simp only [update_self]
      exact len
    · simp only [update_of_ne current]
  have sums : ∀ n, (f.chunks n).flatten.length = ((f.core.setChan chan).chans n).len.toNat := by
    intro n
    rw [same]
    exact bounded.sums n
  refine ⟨⟨?_,bounded.trace⟩,sums,bounded.chunk,?_,fun _ => ring,bounded.known⟩
  · intro n some
    have before := bounded.limits n some
    unfold Within at before ⊢
    simp only [same]
    by_cases current : n = f.core.csid
    · subst current
      obtain ⟨more,small⟩ := inside some
      have less := UInt32.lt_iff_toNat_lt.mp more
      rw [len] at less
      simp only [Core.setChan,update_self]
      exact ⟨before.1,less,small⟩
    · simp only [Core.setChan,update_of_ne current]
      exact before
  · intro done
    change (update f.core.chans f.core.csid chan f.core.csid).hdr.mlen.toNat ≤ _
    rw [update_self]
    exact header done

theorem Bounded.link (fresh : f.pos = 0) (known : csid < f.core.cscf.maxStreams) :
    Bounded {f with core:=Flow.link f.core csid} := by
  have lens : ∀ n, ((Flow.link f.core csid).chans n).len = (f.core.chans n).len ∧
      ((Flow.link f.core csid).chans n).hdr.mlen = (f.core.chans n).hdr.mlen := by
    intro n
    unfold Flow.link
    by_cases current : n = csid
    · subst current
      simp only [update_self,and_self]
    · simp only [update_of_ne current,and_self]
  refine ⟨⟨?_,bounded.trace⟩,?_,bounded.chunk,fun done => absurd fresh done,fun done => absurd fresh done,fun _ => known⟩
  · intro n some
    have before := bounded.limits n some
    unfold Within at before ⊢
    simp only [lens]
    exact before
  · intro n
    change _ = ((Flow.link f.core csid).chans n).len.toNat
    rw [(lens n).1]
    exact bounded.sums n

theorem Bounded.collect (done : f.pos ≠ 0) (enough : f.core.chunkSize ≤ f.bytes.length-f.pos)
    (more : f.core.chunkSize < f.core.chan.fsize) : Bounded (collect f) := by
  have size := fsize_eq f.core.chan (bounded.len_le f.core.csid)
  have small := f.core.chan.hdr.mlen.toNat_lt
  have positive := bounded.chunk
  have grown : (f.core.chan.len+UInt32.ofNat f.core.chunkSize).toNat = f.core.chan.len.toNat+f.core.chunkSize := by
    rw [UInt32.toNat_add,UInt32.toNat_ofNat_of_lt' (by show f.core.chunkSize < 2^32; omega)]
    exact Nat.mod_eq_of_lt (by omega)
  have piece : ((f.bytes.drop f.pos).take f.core.chunkSize).length = f.core.chunkSize := by
    rw [length_take,length_drop]
    exact min_eq_left enough
  refine ⟨⟨?_,bounded.trace⟩,?_,bounded.chunk,fun none => absurd rfl none,fun none => absurd rfl none,fun none => absurd rfl none⟩
  rotate_left
  · intro n
    have before := bounded.sums n
    unfold Flow.collect Core.setChan
    by_cases current : n = f.core.csid
    · subst current
      simp only [update_self,flatten_append,length_append,flatten_singleton,piece,before,grown]
      rfl
    · simp only [update_of_ne current]
      exact before
  · intro n some
    unfold Within Flow.collect Core.setChan
    by_cases current : n = f.core.csid
    · subst current
      simp only [update_self,grown]
      exact ⟨by omega,by omega,bounded.header done⟩
    · have before := bounded.limits n (by
        unfold Flow.collect at some
        simpa only [update_of_ne current] using some)
      simp only [update_of_ne current]
      exact before

theorem Bounded.delivery (enough : f.core.chan.fsize ≤ f.bytes.length-f.pos) :
    (delivery f).payload.length = (delivery f).h.mlen.toNat := by
  have size := fsize_eq f.core.chan (bounded.len_le f.core.csid)
  have within := bounded.len_le f.core.csid
  have before := bounded.sums f.core.csid
  have piece : ((f.bytes.drop f.pos).take f.core.chan.fsize).length = f.core.chan.fsize := by
    rw [length_take,length_drop]
    exact min_eq_left enough
  change (f.chunks f.core.csid ++ [_]).flatten.length = f.core.chan.hdr.mlen.toNat
  rw [flatten_append,length_append,flatten_singleton,piece,before,size]
  change (f.core.chans f.core.csid).len.toNat+((f.core.chans f.core.csid).hdr.mlen.toNat-(f.core.chans f.core.csid).len.toNat) = _
  unfold Core.chan
  omega

end

-- That chunk stream still shows its chunks and has no length any more.
structure Handing (csid : Nat) (f : State) : Prop where
  sums : ∀ n, n ≠ csid → (f.chunks n).flatten.length = (f.core.chans n).len.toNat
  limits : ∀ n, n ≠ csid → f.chunks n ≠ [] → Within f n
  ended : (f.core.chans csid).len = 0
  chunk : 0 < f.core.chunkSize
  current : f.core.csid = csid
  ring : csid ≠ 0
  known : csid < f.core.cscf.maxStreams
  given : f.core.changing = true → f.chunks csid = []
  trace : ∀ d ∈ f.core.trace, d.payload.length = d.h.mlen.toNat

-- A new chunk size repacks every other stream without loss, and a new server does not allow less.
def lossless (left : Nat) (f : State) (effect : Effect) : Bool :=
  mild left f effect &&
    match effect with
    | .chunkSize size => 0 < size && (List.range f.core.cscf.maxStreams).all fun n =>
        n = f.core.csid || packsExactly (capacity size) (capacity size) ((f.chunks n).map List.length)
    | .server conf => f.core.cscf.maxMessage ≤ conf.maxMessage
    | _ => true

theorem Handing.setChunkSize (handing : Handing csid f) (positive : 0 < size)
    (packs : ∀ n, n < f.core.cscf.maxStreams → n ≠ csid →
      packsExactly (capacity size) (capacity size) ((f.chunks n).map List.length) = true) :
    Handing csid (f.setChunkSize size) := by
  obtain ⟨sums,limits,ended,_,current,ring,known,_,trace⟩ := handing
  have kept : ∀ n, n ≠ csid → ((f.setChunkSize size).chunks n).flatten = (f.chunks n).flatten := by
    intro n other
    unfold State.setChunkSize
    simp only [current,if_neg other]
    split
    · rename_i range
      exact (repack_flatten_iff (Nat.succ_pos _) _).mpr (packs n range.2 other)
    · rfl
  have some : ∀ n, n ≠ csid → (f.setChunkSize size).chunks n ≠ [] → f.chunks n ≠ [] := by
    intro n other
    unfold State.setChunkSize
    simp only [current,if_neg other]
    split
    · intro some none
      rw [none] at some
      exact some rfl
    · exact id
  refine ⟨fun n other => ?_,fun n other nonempty => limits n other (some n other nonempty),ended,positive,current,ring,known,?_,trace⟩
  · rw [kept n other]
    exact sums n other
  · intro _
    unfold State.setChunkSize
    simp only [current]
    rw [if_pos ⟨by omega,known⟩,if_pos trivial]

theorem applyEffect_handing (effect : Effect) (handing : Handing csid f) (allowed : lossless left f effect = true) :
    Handing csid (f.applyEffect effect) := by
  simp only [lossless,Bool.and_eq_true] at allowed
  obtain ⟨mildly,allowed⟩ := allowed
  cases effect with
  | chunkSize size =>
    simp only [Bool.and_eq_true,decide_eq_true_eq,all_eq_true,mem_range,Bool.or_eq_true] at allowed
    refine handing.setChunkSize allowed.1 fun n below other => ?_
    rcases allowed.2 n below with same | packs
    · exact absurd (same.trans handing.current) other
    · exact packs
  | ackSize value =>
    exact ⟨handing.sums,handing.limits,handing.ended,handing.chunk,handing.current,handing.ring,handing.known,handing.given,handing.trace⟩
  | server conf =>
    have more : f.core.cscf.maxMessage ≤ conf.maxMessage := of_decide_eq_true allowed
    have streams : conf.maxStreams = f.core.cscf.maxStreams := of_decide_eq_true mildly
    refine ⟨handing.sums,fun n other some => ?_,handing.ended,handing.chunk,handing.current,handing.ring,?_,handing.given,handing.trace⟩
    · obtain ⟨first,second,third⟩ := handing.limits n other some
      exact ⟨first,second,le_trans third more⟩
    · change csid < conf.maxStreams
      rw [streams]
      exact handing.known
  | finalize =>
    exact ⟨handing.sums,handing.limits,handing.ended,handing.chunk,handing.current,handing.ring,handing.known,handing.given,handing.trace⟩

-- Inside of a message it announces more than has been received and not more than max_message.
def soundHead (conf : SrvConf) (f : State) : Bool :=
  f.pos ≠ 0 ||
    match basicHead f.bytes with
    | none => true
    | some (fmt,csid,size) =>
      let core := if f.core.csid = 0 then link f.core csid else f.core
      let chan := (messageHead conf.publishTimeFix fmt core.chan (f.bytes.drop size)).1
      conf.maxStreams ≤ csid || f.chunks core.csid = [] || (chan.len < chan.hdr.mlen && chan.hdr.mlen.toNat ≤ conf.maxMessage)

def losslessMessage (events : Events) (f : State) : Bool :=
  messageAll (lossless (f.bytes.length-(f.pos+f.core.chan.fsize))) events f

def soundStep (events : Events) (c : Config) : Bool :=
  match c.loop with
  | none => true
  | some (conf,kept) =>
    match fill c.f kept c.socket with
    | .stop _ _ => true
    | .ready f socket => soundHead conf f && (parse conf f socket).all (losslessMessage events)

def Under (conf : SrvConf) (f : State) : Prop :=
  conf.maxMessage ≤ f.core.cscf.maxMessage ∧ conf.maxStreams ≤ f.core.cscf.maxStreams

inductive BoundedTurn (conf : SrvConf) : Turn → Prop
  | next (bounded : Bounded f) (under : Under conf f) (steady : kept = false → f.core.changing = false) :
      BoundedTurn conf (.next f kept socket)
  | again (bounded : Bounded f) (steady : f.core.changing = false) : BoundedTurn conf (.stop f socket)
  | dead (sound : Sound f) (destroyed : f.core.destroyed = true) : BoundedTurn conf (.stop f socket)

theorem taken_handing (bounded : Bounded f) (done : f.pos ≠ 0) (steady : f.core.changing = false)
    (enough : f.core.chan.fsize ≤ f.bytes.length-f.pos) :
    Handing f.core.csid {taken f with core:=(taken f).core.log (delivery f)} := by
  have ring := bounded.begun done
  have others : ∀ n, n ≠ f.core.csid → ((taken f).core.log (delivery f)).chans n = f.core.chans n := fun n other =>
    update_of_ne other _ _
  refine ⟨fun n other => ?_,fun n other some => ?_,?_,bounded.chunk,rfl,ring,bounded.known ring,fun changing => ?_,fun d member => ?_⟩
  · change _ = (((taken f).core.log (delivery f)).chans n).len.toNat
    rw [others n other]
    exact bounded.sums n
  · have before := bounded.limits n some
    unfold Within at before ⊢
    simp only [others n other]
    exact before
  · change (update f.core.chans f.core.csid _ f.core.csid).len = 0
    rw [update_self]
  · exact absurd (changing.symm.trans steady) (by decide)
  · rcases mem_append.mp member with old | new
    · exact bounded.trace d old
    · cases mem_singleton.mp new
      exact bounded.delivery enough

theorem Handing.bounded (handing : Handing csid f) (core : Core) (bytes : List UInt8) (chans : core.chans = f.core.chans)
    (size : core.chunkSize = f.core.chunkSize) (conf : core.cscf = f.core.cscf) (trace : core.trace = f.core.trace)
    (known : core.csid ≠ 0 → core.csid = csid) : Bounded ⟨core,update f.chunks csid [],bytes,0⟩ := by
  refine ⟨⟨fun n some => ?_,?_⟩,fun n => ?_,?_,fun none => absurd rfl none,fun none => absurd rfl none,?_⟩
  · have other : n ≠ csid := by
      rintro rfl
      exact some (update_self _ _ _)
    have before := handing.limits n other (by simpa only [update_of_ne other] using some)
    unfold Within at before ⊢
    simpa only [chans,conf] using before
  · change ∀ d ∈ core.trace, _
    rw [trace]
    exact handing.trace
  · by_cases current : n = csid
    · subst current
      change (update f.chunks n [] n).flatten.length = (core.chans n).len.toNat
      rw [update_self,chans,handing.ended]
      rfl
    · change (update f.chunks csid [] n).flatten.length = (core.chans n).len.toNat
      rw [update_of_ne current,chans]
      exact handing.sums n current
  · change 0 < core.chunkSize
    rw [size]
    exact handing.chunk
  · intro some
    change core.csid < core.cscf.maxStreams
    rw [known some,conf]
    exact handing.known

theorem settle_parts (handing : Handing csid f) :
    ∃ changing, settle f csid left = ⟨{f.core with csid:=0,changing},update f.chunks csid [],left,0⟩ ∧
      (left = [] → changing = false) := by
  unfold settle finalizeSetChunkSize
  by_cases changing : f.core.changing = true
  · have same : update f.chunks csid [] = f.chunks := by
      rw [←handing.given changing]
      exact update_eq_self _ _
    rw [same]
    simp only [changing,if_true]
    by_cases none : left = []
    · refine ⟨false,?_,fun _ => rfl⟩
      rw [if_pos none]
    · refine ⟨true,?_,fun some => absurd some none⟩
      rw [if_neg none,←changing]
  · have steady : f.core.changing = false := by simpa using changing
    simp only [steady]
    refine ⟨false,?_,fun _ => rfl⟩
    simp only [Bool.false_eq_true,if_false]
    rw [steady]

theorem applyEffect_under (effect : Effect) (under : Under conf f) (allowed : lossless left f effect = true) :
    Under conf (f.applyEffect effect) := by
  simp only [lossless,Bool.and_eq_true] at allowed
  obtain ⟨mildly,allowed⟩ := allowed
  cases effect with
  | server next =>
    have more : f.core.cscf.maxMessage ≤ next.maxMessage := of_decide_eq_true allowed
    have streams : next.maxStreams = f.core.cscf.maxStreams := of_decide_eq_true mildly
    exact ⟨le_trans under.1 more,le_trans under.2 (le_of_eq streams.symm)⟩
  | chunkSize size => exact under
  | ackSize value => exact under
  | finalize => exact under

theorem handle_bounded (bounded : Bounded f) (done : f.pos ≠ 0) (steady : f.core.changing = false)
    (enough : f.core.chan.fsize ≤ f.bytes.length-f.pos) (under : Under conf f)
    (allowed : losslessMessage events f = true) : BoundedTurn conf (handle events f socket) := by
  obtain ⟨handing,under⟩ := callHandlers_invariant
    (fun g effect (both : Handing f.core.csid g ∧ Under conf g) allowed =>
      ⟨applyEffect_handing effect both.1 allowed,applyEffect_under effect both.2 allowed⟩) ⟨taken_handing bounded done steady enough,under⟩ allowed
  unfold handle State.receiveMessage
  generalize callHandlers State.applyEffect _ _ _ _ = result at handing under ⊢
  obtain ⟨g,accepted⟩ := result
  cases accepted with
  | false =>
    have cleared := handing.bounded g.core.finalize g.bytes rfl rfl rfl rfl fun _ => handing.current
    exact .dead cleared.toSound rfl
  | true =>
    obtain ⟨changing,settled,finished⟩ := settle_parts handing
    change BoundedTurn conf (.next (settle g f.core.csid _) _ socket)
    rw [settled]
    refine .next (handing.bounded _ _ rfl rfl rfl rfl fun some => absurd rfl some) under fun none => finished ?_
    simpa using none

theorem payload_bounded (bounded : Bounded f) (done : f.pos ≠ 0) (steady : f.core.changing = false) (under : Under conf f) (allowed : (payload f socket).all (losslessMessage events) = true) :
    BoundedTurn conf ((payload f socket).finish events) := by
  unfold payload at allowed ⊢
  dsimp only at allowed ⊢
  by_cases short : f.bytes.length-f.pos < min f.core.chan.fsize f.core.chunkSize
  · rw [if_pos short]
    exact .next bounded under fun _ => steady
  · rw [if_neg short] at allowed ⊢
    by_cases more : f.core.chunkSize < f.core.chan.fsize
    · rw [if_pos more]
      exact .next (bounded.collect done (by omega) more) under fun _ => steady
    · rw [if_neg more] at allowed ⊢
      exact handle_bounded bounded done steady (by omega) under allowed

theorem readHeader_bounded (bounded : Bounded f) (ring : f.core.csid ≠ 0) (steady : f.core.changing = false) (under : Under conf f) (positive : 0 < size)
    (sound : f.chunks f.core.csid ≠ [] →
      (messageHead conf.publishTimeFix fmt f.core.chan (f.bytes.drop size)).1.len <
        (messageHead conf.publishTimeFix fmt f.core.chan (f.bytes.drop size)).1.hdr.mlen ∧
      (messageHead conf.publishTimeFix fmt f.core.chan (f.bytes.drop size)).1.hdr.mlen.toNat ≤ conf.maxMessage)
    (allowed : (readHeader conf f socket fmt size).all (losslessMessage events) = true) (fresh : f.pos = 0) :
    BoundedTurn conf ((readHeader conf f socket fmt size).finish events) := by
  have len := messageHead_len conf.publishTimeFix fmt f.core.chan (f.bytes.drop size)
  unfold readHeader at allowed ⊢
  generalize messageHead conf.publishTimeFix fmt f.core.chan (f.bytes.drop size) = head at len sound allowed ⊢
  obtain ⟨chan,more⟩ := head
  have inside : f.chunks f.core.csid ≠ [] → chan.len < chan.hdr.mlen ∧ chan.hdr.mlen.toNat ≤ f.core.cscf.maxMessage :=
    fun some => ⟨(sound some).1,le_trans (sound some).2 under.1⟩
  cases more with
  | none =>
    have after := bounded.setChan chan len inside f.pos (fun done => absurd fresh done) ring
    exact .next after under fun _ => steady
  | some more =>
    dsimp only at allowed ⊢
    by_cases big : conf.maxMessage < chan.hdr.mlen.toNat
    · rw [if_pos big]
      have after := bounded.setChan chan len inside 0 (fun none => absurd rfl none) ring
      exact .dead ⟨after.limits,after.trace⟩ rfl
    · rw [if_neg big] at allowed ⊢
      have after := bounded.setChan chan len inside (size+more) (fun _ => le_trans (Nat.not_lt.mp big) under.1) ring
      exact payload_bounded after (show size+more ≠ 0 by omega) steady under allowed

theorem parse_bounded (bounded : Bounded f) (steady : f.core.changing = false) (under : Under conf f) (sound : soundHead conf f = true) (allowed : (parse conf f socket).all (losslessMessage events) = true) :
    BoundedTurn conf ((parse conf f socket).finish events) := by
  unfold parse at allowed ⊢
  by_cases fresh : f.pos = 0
  · rw [if_pos fresh] at allowed ⊢
    unfold soundHead at sound
    cases head : basicHead f.bytes with
    | none => exact .next bounded under fun _ => steady
    | some parts =>
      obtain ⟨fmt,csid,size⟩ := parts
      have bounds := basicHead_parts head
      simp only [head,fresh,ne_eq,not_true_eq_false,decide_false,Bool.false_or,Bool.or_eq_true,decide_eq_true_eq,
        Bool.and_eq_true] at sound
      simp only [head] at allowed ⊢
      by_cases big : conf.maxStreams ≤ csid
      · rw [if_pos big]
        exact .dead ⟨bounded.limits,bounded.trace⟩ rfl
      · rw [if_neg big] at allowed ⊢
        have streams := under.2
        have linked : Bounded {f with core:=if f.core.csid = 0 then link f.core csid else f.core} ∧
            (if f.core.csid = 0 then link f.core csid else f.core).csid ≠ 0 := by
          by_cases zero : f.core.csid = 0
          · rw [if_pos zero]
            exact ⟨bounded.link fresh (by omega),show csid ≠ 0 by omega⟩
          · rw [if_neg zero]
            exact ⟨bounded,zero⟩
        have kept : (if f.core.csid = 0 then link f.core csid else f.core).changing = false := by
          split
          · exact steady
          · exact steady
        have below : Under conf {f with core:=if f.core.csid = 0 then link f.core csid else f.core} := by
          unfold Under
          split
          · exact under
          · exact under
        refine readHeader_bounded linked.1 linked.2 kept below (by omega) (fun some => ?_) allowed fresh
        rcases sound with (ended | none) | within
        · exact absurd ended big
        · exact absurd none some
        · exact within
  · rw [if_neg fresh] at allowed ⊢
    exact payload_bounded bounded fresh steady under allowed

inductive BoundedFill (conf : SrvConf) : Filled → Prop
  | ready (bounded : Bounded f) (steady : f.core.changing = false) (under : Under conf f) : BoundedFill conf (.ready f socket)
  | again (bounded : Bounded f) (steady : f.core.changing = false) : BoundedFill conf (.stop f socket)
  | dead (sound : Sound f) (destroyed : f.core.destroyed = true) : BoundedFill conf (.stop f socket)

theorem fill_bounded (bounded : Bounded f) (under : Under conf f) (steady : kept = false → f.core.changing = false)
    (socket : List Read) : BoundedFill conf (fill f kept socket) := by
  unfold fill
  cases kept with
  | true =>
    rw [if_pos rfl]
    by_cases changing : f.core.changing = true
    · rw [if_pos changing]
      unfold finalizeSetChunkSize
      rw [if_pos changing]
      exact .ready (bounded.frame rfl rfl rfl rfl rfl rfl rfl) rfl under
    · rw [if_neg changing]
      exact .ready bounded (by simpa using changing) under
  | false =>
    have steady := steady rfl
    simp only [Bool.false_eq_true,if_false]
    split
    · exact .dead bounded.finalize.toSound rfl
    · exact .again bounded steady
    · rename_i bytes acked rest _
      obtain ⟨inBytes,inLastAck,counted⟩ := count_frame f.core
      split
      · rename_i core result
        rw [result] at counted
        subst counted
        exact .ready (bounded.frame rfl rfl rfl rfl rfl rfl rfl) steady under
      · rename_i core result
        rw [result] at counted
        subst counted
        have read : Bounded {f with core:={f.core with inBytes,inLastAck},bytes:=f.bytes ++ bytes} :=
          bounded.frame rfl rfl rfl rfl rfl rfl rfl
        exact .dead read.finalize.toSound rfl

inductive BoundedConfig : Config → Prop
  | dead (sound : Sound f) (destroyed : f.core.destroyed = true) : BoundedConfig ⟨f,none,socket⟩
  | idle (bounded : Bounded f) (steady : f.core.changing = false) : BoundedConfig ⟨f,none,socket⟩
  | busy (bounded : Bounded f) (under : Under conf f) (steady : kept = false → f.core.changing = false) :
      BoundedConfig ⟨f,some (conf,kept),socket⟩

theorem BoundedConfig.sound (bounded : BoundedConfig c) : Sound c.f := by
  cases bounded with
  | dead sound _ => exact sound
  | idle bounded _ => exact bounded.toSound
  | busy bounded _ _ => exact bounded.toSound

theorem step_bounded (allowed : soundStep events c = true) (bounded : BoundedConfig c) : BoundedConfig (step events c) := by
  cases bounded with
  | dead sound destroyed =>
    unfold step
    simp only [destroyed,Bool.true_or,if_true]
    exact .dead sound destroyed
  | idle bounded steady =>
    unfold step
    simp only
    split
    · exact .idle bounded steady
    · exact .busy bounded ⟨le_rfl,le_rfl⟩ fun _ => steady
  | busy bounded under steady =>
    rename_i f conf kept socket
    have filled := fill_bounded bounded under steady socket
    have result : BoundedTurn conf (turn events conf f kept socket) := by
      unfold soundStep at allowed
      unfold turn advance
      dsimp only at allowed
      generalize fill f kept socket = after at filled allowed ⊢
      cases filled with
      | ready bounded steady under =>
        simp only [Bool.and_eq_true] at allowed
        exact parse_bounded bounded steady under allowed.1 allowed.2
      | again bounded steady => exact .again bounded steady
      | dead sound destroyed => exact .dead sound destroyed
    unfold step
    dsimp only
    generalize turn events conf f kept socket = after at result ⊢
    cases result with
    | next bounded under steady => exact .busy bounded under steady
    | again bounded steady => exact .idle bounded steady
    | dead sound destroyed => exact .dead sound destroyed

theorem start_bounded (positive : 0 < chunkSize) : BoundedConfig (start conf chunkSize socket) := by
  refine .idle ⟨⟨fun n some => absurd rfl some,fun d member => ?_⟩,fun _ => rfl,positive,fun done => absurd rfl done,
    fun done => absurd rfl done,fun some => absurd rfl some⟩ rfl
  cases member

theorem sound_mild (allowed : soundStep events c = true) : mildStep events c = true := by
  unfold soundStep at allowed
  unfold mildStep advance
  cases loop : c.loop with
  | none => rfl
  | some pair =>
    obtain ⟨conf,kept⟩ := pair
    simp only [loop] at allowed ⊢
    cases filled : fill c.f kept c.socket with
    | stop f socket => rfl
    | ready f socket =>
      simp only [filled,Bool.and_eq_true] at allowed ⊢
      cases parsed : parse conf f socket with
      | turn t => rfl
      | message g rest =>
        rw [parsed] at allowed
        refine callsAll_mono (fun h effect both => ?_) _ _ allowed.2
        exact ((Bool.and_eq_true _ _).mp both).1

end NgxRtmp.Flow

namespace NgxRtmp.Recv
open ChunkWriter ChunkHeader Function List

-- Some of the message and less than all of it, within max_message; what is handed over is as long as
-- its header says.
def Reassembled (s : Session) : Prop :=
  (∀ n, n ≠ 0 → partly s n = true →
    0 < (s.core.chans n).len.toNat ∧ (s.core.chans n).len.toNat < (s.core.chans n).hdr.mlen.toNat ∧
      (s.core.chans n).hdr.mlen.toNat ≤ s.core.cscf.maxMessage) ∧
  ∀ d ∈ s.core.trace, d.payload.length = d.h.mlen.toNat

theorem run_reassembled (events : Events) (conf : SrvConf) (chunkSize : Nat) (positive : 0 < chunkSize)
    (socket : List Read) (turns : Nat)
    (path : Runs.Along (fun c _ => Flow.step events c) (fun c _ => Flow.soundStep events c = true)
      (Flow.start conf chunkSize socket) (List.replicate turns ())) :
    Reassembled (run events (start conf chunkSize socket) turns).s := by
  have related := run_related events turns (start_related conf chunkSize socket)
    (Runs.along_mono (fun c _ => Flow.sound_mild) path)
  have bounded : Flow.BoundedConfig (Flow.run events (Flow.start conf chunkSize socket) turns) :=
    Runs.run_invariant (fun c _ => Flow.step_bounded) (Flow.start_bounded positive) path
  have sound := bounded.sound
  unfold Reassembled
  rw [←related.core]
  exact ⟨fun n ring begun => sound.limits n (related.shows n ring begun),sound.trace⟩

-- Two chunks of 25 bytes at chunk size 10, then a Set Chunk Size to 2, which fits exactly.
def repackedInput : List UInt8 :=
  [0x04,0,0,0,0,0,25,9,0,0,0,0] ++ [1,2,3,4,5,6,7,8,9,10] ++ [0xc4] ++ [11,12,13,14,15,16,17,18,19,20] ++
    [0x02,0,0,0,0,0,4,1,0,0,0,0] ++ [0,0,0,2]

theorem run_reassembled_repacked :
    partly (run protocolEvents (start sampleConf 10 [.data repackedInput true]) 6).s 4 = true ∧
      Reassembled (run protocolEvents (start sampleConf 10 [.data repackedInput true]) 6).s := by
  refine ⟨by decide +kernel,run_reassembled _ _ _ (by decide) _ 6 ⟨?_,?_,?_,?_,?_,?_,trivial⟩⟩ <;> decide +kernel

-- One chunk of a message of ten bytes, then a header on the same stream that says three.
def shortenedInput : List UInt8 :=
  [0x04,0,0,0,0,0,10,9,0,0,0,0] ++ [1,2,3,4] ++ [0x04,0,0,0,0,0,3,9,0,0,0,0]

def shortenedRun : Session := (run protocolEvents (start sampleConf 4 [.data shortenedInput true]) 4).s

theorem shortened_message_underflows :
    partly shortenedRun 4 = true ∧ ((shortenedRun.core.chans 4).len,(shortenedRun.core.chans 4).hdr.mlen) = (4,3) ∧
      (shortenedRun.core.chans 4).fsize = 4294967295 := by
  decide +kernel

end NgxRtmp.Recv
