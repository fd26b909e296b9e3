import NgxRtmp.Lib.Octets

namespace NgxRtmp.Aggregate

open Octets List

-- ngx_buf_t; `pos` and `last` are offsets into its memory.
structure Buf where
  mem : List UInt8
  pos : Nat
  last : Nat

def Buf.bytes (b : Buf) : List UInt8 := (b.mem.take b.last).drop b.pos
def bytes (chain : List Buf) : List UInt8 := chain.flatMap Buf.bytes

structure Header where
  csid : UInt32
  timestamp : UInt32
  mlen : Nat
  type : UInt8
  msid : Nat
  deriving DecidableEq

inductive Rc where
  | ok
  | error
  | done
  deriving DecidableEq

abbrev Handler (σ : Type) := σ → Header → List Buf → σ × List Buf × Rc

def runHandlers (h : Header) : List (Handler σ) → σ → List Buf → σ × List Buf × Rc
  | [],s,chain => (s,chain,.ok)
  | handler::rest,s,chain =>
    let got := handler s h chain
    match got.2.2 with
    | .error => (got.1,got.2.1,.error)
    | .done => (got.1,got.2.1,.ok)
    | .ok => runHandlers h rest got.1 got.2.1

-- ngx_rtmp_receive_message; 22 is NGX_RTMP_MSG_MAX.
def receiveMessage (events : UInt8 → List (Handler σ)) (s : σ) (h : Header) (chain : List Buf) : σ × List Buf × Rc :=
  if h.type > 22 then (s,chain,.ok) else runHandlers h (events h.type) s chain

def fetch : List Buf → Option (UInt8 × List Buf)
  | [] => none
  | b::rest => if b.pos ≥ b.last then fetch rest else some (b.mem[b.pos]?.getD 0,{b with pos:=b.pos+1}::rest)

def fetchUint32 : Nat → List Buf → Option (Nat × List Buf)
  | 0,chain => some (0,chain)
  | n+1,chain =>
    match fetch chain with
    | none => none
    | some (b,chain) => (fetchUint32 n chain).map fun read => (256^n*b.toNat+read.1,read.2)

structure Prologue where
  mlen : Nat
  timestamp : UInt32
  msid : Nat

def fetchPrologue (chain : List Buf) : Option (Prologue × List Buf) :=
  match fetchUint32 3 chain with
  | none => none
  | some (mlen,chain) =>
    match fetchUint32 3 chain with
    | none => none
    | some (low,chain) =>
      match fetch chain with
      | none => none
      | some (high,chain) => (fetchUint32 3 chain).map fun read => (⟨mlen,UInt32.ofNat (low+2^24*high.toNat),read.1⟩,read.2)

-- The chain cut behind the payload, and the `last` that the cut buffer had before.
structure Cut where
  given : List Buf
  last : Nat
  next : List Buf

def limit (mlen : Nat) : Nat → List Buf → Option Cut
  | _,[] => none
  | len,b::rest =>
    let len := len+(b.last-b.pos)
    if len > mlen then some ⟨[{b with last:=b.last-(len-mlen)}],b.last,rest⟩
    else (limit mlen len rest).map fun cut => {cut with given:=b::cut.given}

-- The last buffer as the handlers left it is read on from the cut.
def restore (cut : Cut) (left : List Buf) : List Buf :=
  match left.getLast? with
  | none => cut.next
  | some b => {b with pos:=b.last,last:=cut.last}::cut.next

structure Call where
  header : Header
  payload : List UInt8
  deriving DecidableEq

-- The loop of ngx_rtmp_aggregate_message_handler; `base` is base_time.
def aggregate (events : UInt8 → List (Handler σ)) (h : Header) : Nat → Option UInt32 → σ → List Call → List Buf → Option (σ × List Call × Rc)
  | 0,_,_,_,_ => none
  | fuel+1,base,s,calls,chain =>
    match fetch chain with
    | none => some (s,calls,.ok)
    | some (type,chain) =>
      match fetchPrologue chain with
      | none => some (s,calls,.error)
      | some (sub,chain) =>
        let base := base.getD sub.timestamp
        match limit sub.mlen 0 chain with
        | none => some (s,calls,.error)
        | some cut =>
          let ch : Header := {h with type,mlen:=sub.mlen,msid:=sub.msid,timestamp:=h.timestamp+sub.timestamp-base}
          let got := receiveMessage events s ch cut.given
          let calls := calls ++ [⟨ch,bytes cut.given⟩]
          if got.2.2 ≠ .ok then some (got.1,calls,got.2.2)
          else
            match fetchUint32 4 (restore cut got.2.1) with
            | none => some (got.1,calls,.ok)
            | some (_,chain) => aggregate events h fuel (some base) got.1 calls chain

def aggregateMessageHandler (events : UInt8 → List (Handler σ)) (s : σ) (h : Header) (chain : List Buf) : Option (σ × List Call × Rc) :=
  aggregate events h ((bytes chain).length+1) none s [] chain

def Buf.Wf (b : Buf) : Prop := b.pos ≤ b.last ∧ b.last ≤ b.mem.length

structure Carries (chain : List Buf) (content : List UInt8) : Prop where
  sound : ∀ b ∈ chain, b.Wf
  same : bytes chain = content

def Moved (b c : Buf) : Prop := c.mem = b.mem ∧ c.last = b.last ∧ b.pos ≤ c.pos

def Polite (handler : Handler σ) : Prop := ∀ s h chain, (handler s h chain).2.2 = .ok ∧ List.Forall₂ Moved chain (handler s h chain).2.1

theorem bytes_cons : bytes (b::rest) = b.bytes ++ bytes rest := rfl

theorem Buf.length_bytes {b : Buf} (sound : b.Wf) : b.bytes.length = b.last-b.pos := by
  have bounds := sound
  unfold Buf.Wf at bounds
  simp only [Buf.bytes,length_drop,length_take]
  omega

theorem fetch_carries (carries : Carries chain (x::rest)) : ∃ next, fetch chain = some (x,next) ∧ Carries next rest := by
  induction chain with
  | nil => cases carries.same
  | cons b chain ih =>
    obtain ⟨sound,same⟩ := carries
    have wf := sound b (by simp)
    have length := Buf.length_bytes wf
    rw [bytes_cons] at same
    rw [fetch]
    split
    · rename_i empty
      have none : b.bytes = [] := length_eq_zero_iff.mp (by omega)
      rw [none] at same
      exact ih ⟨fun c member => sound c (by simp [member]),same⟩
    · rename_i more
      have inside : b.pos < b.mem.length := by unfold Buf.Wf at wf; omega
      have first : b.bytes = b.mem[b.pos]::({b with pos:=b.pos+1} : Buf).bytes := by
        unfold Buf.bytes
        rw [drop_eq_getElem_cons (by simp; omega),getElem_take]
      rw [first,cons_append,List.cons.injEq] at same
      refine ⟨_,by rw [List.getElem?_eq_getElem inside,Option.getD_some,same.1],?_,?_⟩
      · intro c member
        rcases mem_cons.mp member with rfl | old
        · unfold Buf.Wf at wf ⊢
          dsimp only
          omega
        · exact sound c (by simp [old])
      · exact same.2

theorem fetch_empty (carries : Carries chain []) : fetch chain = none := by
  induction chain with
  | nil => rfl
  | cons b chain ih =>
    obtain ⟨sound,same⟩ := carries
    rw [bytes_cons,append_eq_nil_iff] at same
    have length := Buf.length_bytes (sound b (by simp))
    rw [same.1] at length
    rw [fetch,if_pos (by simp at length; omega)]
    exact ih ⟨fun c member => sound c (by simp [member]),same.2⟩

theorem fetchUint32_carries (carries : Carries chain (xs ++ rest)) :
    ∃ next, fetchUint32 xs.length chain = some (natural xs,next) ∧ Carries next rest := by
  induction xs generalizing chain with
  | nil => exact ⟨chain,rfl,carries⟩
  | cons x xs ih =>
    obtain ⟨next,first,left⟩ := fetch_carries carries
    obtain ⟨last,result,right⟩ := ih left
    refine ⟨last,?_,right⟩
    rw [length_cons,fetchUint32,first]
    dsimp only
    rw [result,Option.map_some,natural_cons]

theorem fetchNumber_carries (carries : Carries chain (bigEndian width n ++ rest)) (small : n < 256^width) :
    ∃ next, fetchUint32 width chain = some (n,next) ∧ Carries next rest := by
  obtain ⟨next,result,left⟩ := fetchUint32_carries carries
  rw [bigEndian_length,natural_bigEndian_small small] at result
  exact ⟨next,result,left⟩

theorem limit_carries (len : Nat) (carries : Carries chain (payload ++ rest)) (more : rest ≠ []) :
    ∃ cut, limit (len+payload.length) len chain = some cut ∧ Carries cut.given payload ∧
      ∃ front b, cut.given = front ++ [b] ∧ ∀ c, Moved b c → Carries (({c with pos:=c.last,last:=cut.last} : Buf)::cut.next) rest := by
  induction chain generalizing len payload with
  | nil =>
    have empty : payload ++ rest = [] := carries.same.symm
    exact absurd (append_eq_nil_iff.mp empty).2 more
  | cons b chain ih =>
    obtain ⟨sound,same⟩ := carries
    have wf := sound b (by simp)
    have length := Buf.length_bytes wf
    have tail : ∀ c ∈ chain, c.Wf := fun c member => sound c (by simp [member])
    rw [bytes_cons] at same
    rw [limit]
    split
    · -- the payload ends inside this buffer
      rename_i inside
      have short : payload.length < b.bytes.length := by omega
      have last : b.last-(len+(b.last-b.pos)-(len+payload.length)) = b.pos+payload.length := by omega
      have start : ({b with last:=b.pos+payload.length} : Buf).bytes = payload := by
        have piece := congrArg (List.take payload.length) same
        rw [take_append_of_le_length (by omega),take_left] at piece
        have cut : ({b with last:=b.pos+payload.length} : Buf).bytes = b.bytes.take payload.length := by
          unfold Buf.bytes
          dsimp only
          rw [take_drop,take_take,min_eq_left (by omega)]
        rw [cut,piece]
      refine ⟨_,rfl,⟨?_,?_⟩,[],_,rfl,?_⟩
      · intro c member
        obtain rfl := mem_singleton.mp member
        unfold Buf.Wf at wf ⊢
        dsimp only
        omega
      · simpa [bytes,last] using start
      · rintro c ⟨mem,ends,_⟩
        simp only [last] at mem ends
        constructor
        · intro d member
          rcases mem_cons.mp member with rfl | old
          · unfold Buf.Wf at wf ⊢
            dsimp only
            rw [mem]
            omega
          · exact tail d old
        · have piece := congrArg (List.drop payload.length) same
          rw [drop_append_of_le_length (by omega),drop_left] at piece
          rw [← piece,bytes_cons]
          congr 1
          unfold Buf.bytes
          dsimp only
          rw [mem,ends,drop_drop]
    · rename_i beyond
      obtain ⟨later,rfl⟩ : ∃ later, payload = b.bytes ++ later := by
        have first : b.bytes <+: payload ++ rest := ⟨_,same⟩
        obtain ⟨later,whole⟩ := prefix_of_prefix_length_le first (prefix_append payload rest) (by omega)
        exact ⟨later,whole.symm⟩
      rw [append_assoc,append_cancel_left_eq] at same
      obtain ⟨cut,result,given,front,last,split,onward⟩ := ih (len+(b.last-b.pos)) ⟨tail,same⟩
      have size : len+(b.bytes ++ later).length = len+(b.last-b.pos)+later.length := by
        rw [length_append]
        omega
      rw [size,result]
      refine ⟨_,rfl,⟨?_,?_⟩,b::front,last,by simp [split],onward⟩
      · intro c member
        rcases mem_cons.mp member with rfl | old
        · exact wf
        · exact given.sound c old
      · rw [bytes_cons,given.same]

theorem moved_trans (first : List.Forall₂ Moved xs ys) (second : List.Forall₂ Moved ys zs) : List.Forall₂ Moved xs zs := by
  induction first generalizing zs with
  | nil => exact second
  | cons head _ ih =>
    cases second with
    | cons next rest => exact .cons ⟨next.1.trans head.1,next.2.1.trans head.2.1,le_trans head.2.2 next.2.2⟩ (ih rest)

theorem moved_refl (chain : List Buf) : List.Forall₂ Moved chain chain :=
  forall₂_same.mpr fun _ _ => ⟨rfl,rfl,le_rfl⟩

theorem receiveMessage_polite {events : UInt8 → List (Handler σ)} (polite : ∀ type, ∀ handler ∈ events type, Polite handler) (s : σ) (h : Header) (chain : List Buf) :
    (receiveMessage events s h chain).2.2 = .ok ∧ List.Forall₂ Moved chain (receiveMessage events s h chain).2.1 := by
  unfold receiveMessage
  split
  · exact ⟨rfl,moved_refl chain⟩
  · have each := polite h.type
    generalize events h.type = handlers at each
    induction handlers generalizing s chain with
    | nil => exact ⟨rfl,moved_refl chain⟩
    | cons handler handlers ih =>
      obtain ⟨fine,moved⟩ := each handler (by simp) s h chain
      obtain ⟨rest,later⟩ := ih (handler s h chain).1 (handler s h chain).2.1 fun f member => each f (by simp [member])
      rw [runHandlers,fine]
      exact ⟨rest,moved_trans moved later⟩

theorem moved_last (moved : List.Forall₂ Moved (front ++ [b]) left) : ∃ c, left.getLast? = some c ∧ Moved b c := by
  induction front generalizing left with
  | nil =>
    cases moved with
    | cons head rest =>
      cases rest
      exact ⟨_,rfl,head⟩
  | cons x front ih =>
    cases moved with
    | cons head rest =>
      obtain ⟨c,last,moves⟩ := ih rest
      exact ⟨c,by rw [List.getLast?_cons,last]; rfl,moves⟩

theorem restore_carries (split : cut.given = front ++ [b])
    (onward : ∀ c, Moved b c → Carries (({c with pos:=c.last,last:=cut.last} : Buf)::cut.next) rest)
    (moved : List.Forall₂ Moved cut.given left) : Carries (restore cut left) rest := by
  rw [split] at moved
  obtain ⟨c,last,moves⟩ := moved_last moved
  rw [restore,last]
  exact onward c moves

-- A sub-message of an aggregate and its back pointer, which no one reads.
structure Sub where
  type : UInt8
  timestamp : UInt32
  msid : Nat
  payload : List UInt8
  back : List UInt8
  single : type ≠ 22
  short : payload.length < 2^24
  small : msid < 2^24
  pointer : back.length = 4

def Sub.encode (sub : Sub) : List UInt8 :=
  sub.type::(bigEndian 3 sub.payload.length ++ (bigEndian 3 (sub.timestamp.toNat % 2^24) ++
    (UInt8.ofNat (sub.timestamp.toNat/2^24)::(bigEndian 3 sub.msid ++ (sub.payload ++ sub.back)))))

def Sub.call (h : Header) (base : UInt32) (sub : Sub) : Call :=
  ⟨{h with type:=sub.type,mlen:=sub.payload.length,msid:=sub.msid,timestamp:=h.timestamp+sub.timestamp-base},sub.payload⟩

theorem fetchPrologue_carries {sub : Sub} (carries : Carries chain (bigEndian 3 sub.payload.length ++ (bigEndian 3 (sub.timestamp.toNat % 2^24) ++
    (UInt8.ofNat (sub.timestamp.toNat/2^24)::(bigEndian 3 sub.msid ++ rest))))) :
    ∃ next, fetchPrologue chain = some (⟨sub.payload.length,sub.timestamp,sub.msid⟩,next) ∧ Carries next rest := by
  obtain ⟨c1,mlen,carries⟩ := fetchNumber_carries carries sub.short
  obtain ⟨c2,low,carries⟩ := fetchNumber_carries carries (by omega)
  obtain ⟨c3,high,carries⟩ := fetch_carries carries
  obtain ⟨c4,msid,carries⟩ := fetchNumber_carries carries sub.small
  refine ⟨c4,?_,carries⟩
  have time : UInt32.ofNat (sub.timestamp.toNat % 2^24+2^24*(UInt8.ofNat (sub.timestamp.toNat/2^24)).toNat) = sub.timestamp := by
    have bound := sub.timestamp.toNat_lt
    apply UInt32.toNat_inj.mp
    rw [UInt32.toNat_ofNat',UInt8.toNat_ofNat']
    omega
  simp only [fetchPrologue,mlen,low,high,msid,Option.map_some,time]

theorem encode_length (sub : Sub) : 15 ≤ sub.encode.length := by
  have four := sub.pointer
  simp [Sub.encode,four]
  omega

theorem subs_short (subs : List Sub) : subs.length ≤ (subs.flatMap Sub.encode).length := by
  induction subs with
  | nil => simp
  | cons sub subs ih =>
    have some := encode_length sub
    rw [flatMap_cons,length_append,length_cons]
    omega

def baseTime (subs : List Sub) : UInt32 := (subs.head?.map Sub.timestamp).getD 0

section Messages

variable {events : UInt8 → List (Handler σ)} (polite : ∀ type, ∀ handler ∈ events type, Polite handler) (h : Header)

include polite

theorem aggregate_step (sub : Sub) (base : Option UInt32) (s : σ) (calls : List Call) (fuel : Nat) (carries : Carries chain (sub.encode ++ rest)) :
    ∃ t next, aggregate events h (fuel+1) base s calls chain =
      aggregate events h fuel (some (base.getD sub.timestamp)) t (calls ++ [sub.call h (base.getD sub.timestamp)]) next ∧ Carries next rest := by
  have parts : sub.encode ++ rest = sub.type::(bigEndian 3 sub.payload.length ++ (bigEndian 3 (sub.timestamp.toNat % 2^24) ++
      (UInt8.ofNat (sub.timestamp.toNat/2^24)::(bigEndian 3 sub.msid ++ (sub.payload ++ (sub.back ++ rest)))))) := by
    simp [Sub.encode]
  rw [parts] at carries
  obtain ⟨c1,type,carries⟩ := fetch_carries carries
  obtain ⟨c2,prologue,carries⟩ := fetchPrologue_carries carries
  have more : sub.back ++ rest ≠ [] := by
    intro empty
    have none := sub.pointer
    rw [(append_eq_nil_iff.mp empty).1] at none
    cases none
  obtain ⟨cut,limited,given,front,b,split,onward⟩ := limit_carries 0 carries more
  rw [zero_add] at limited
  obtain ⟨fine,moved⟩ := receiveMessage_polite polite s (sub.call h (base.getD sub.timestamp)).header cut.given
  obtain ⟨next,back,carries⟩ := fetchUint32_carries (restore_carries split onward moved)
  rw [sub.pointer] at back
  refine ⟨(receiveMessage events s (sub.call h (base.getD sub.timestamp)).header cut.given).1,next,?_,carries⟩
  rw [aggregate,type]
  dsimp only
  rw [prologue]
  dsimp only
  rw [limited]
  dsimp only [Sub.call] at fine back ⊢
  rw [fine,if_neg (by simp),back,given.same]

theorem aggregate_run (subs : List Sub) (base : UInt32) (s : σ) (calls : List Call) (fuel : Nat) (enough : subs.length < fuel)
    (carries : Carries chain (subs.flatMap Sub.encode)) :
    ∃ t, aggregate events h fuel (some base) s calls chain = some (t,calls ++ subs.map (Sub.call h base),.ok) := by
  induction subs generalizing s calls fuel chain with
  | nil =>
    obtain ⟨fuel,rfl⟩ := Nat.exists_eq_add_one_of_ne_zero (Nat.ne_of_gt enough)
    exact ⟨s,by rw [aggregate,fetch_empty carries]; simp⟩
  | cons sub subs ih =>
    obtain ⟨fuel,rfl⟩ := Nat.exists_eq_add_one_of_ne_zero (Nat.ne_of_gt (lt_of_le_of_lt (Nat.zero_le _) enough))
    obtain ⟨t,next,step,carries⟩ := aggregate_step polite h sub (some base) s calls fuel carries
    obtain ⟨final,run⟩ := ih t (calls ++ [sub.call h base]) fuel (by simpa using enough) carries
    exact ⟨final,by rw [step,Option.getD_some,run,map_cons,append_assoc]; rfl⟩

theorem aggregate_dispatches (subs : List Sub) (s : σ) (chain : List Buf) (carries : Carries chain (subs.flatMap Sub.encode)) :
    ∃ t, aggregateMessageHandler events s h chain = some (t,subs.map (Sub.call h (baseTime subs)),.ok) := by
  have short := subs_short subs
  rw [aggregateMessageHandler,carries.same]
  cases subs with
  | nil => exact ⟨s,by rw [aggregate,fetch_empty carries]; rfl⟩
  | cons sub subs =>
    obtain ⟨t,next,step,carries⟩ := aggregate_step polite h sub none s [] _ carries
    obtain ⟨final,run⟩ := aggregate_run polite h subs sub.timestamp t [sub.call h sub.timestamp]
      ((sub::subs).flatMap Sub.encode).length short carries
    exact ⟨final,by rw [step]; exact run⟩

end Messages

def counting (n : Nat) (_ : Header) (chain : List Buf) : Nat × List Buf × Rc :=
  (n+1,chain.map fun b => {b with pos:=max b.pos b.last},.ok)

theorem counting_polite : Polite counting := by
  refine fun n h chain => ⟨rfl,forall₂_map_right_iff.mpr (forall₂_same.mpr fun b _ => ⟨rfl,rfl,le_max_left _ _⟩)⟩

def first : Sub := ⟨8,40,0,[1,2],[0,0,0,13],by decide,by decide,by decide,rfl⟩
def second : Sub := ⟨9,63,0,[3],[0,0,0,12],by decide,by decide,by decide,rfl⟩

theorem aggregate_dispatches_split : ∃ t, aggregateMessageHandler (fun _ => [counting]) 0 ⟨6,1000,32,22,1⟩
    [⟨(first.encode ++ second.encode).take 12,0,12⟩,⟨(first.encode ++ second.encode).drop 12,0,21⟩] =
      some (t,[⟨⟨6,1000,2,8,0⟩,[1,2]⟩,⟨⟨6,1023,1,9,0⟩,[3]⟩],.ok) := by
  refine aggregate_dispatches (fun type handler member => ?_) ⟨6,1000,32,22,1⟩ [first,second] 0 _ ⟨?_,?_⟩
  · obtain rfl := mem_singleton.mp member
    exact counting_polite
  · simp [Buf.Wf,first,second,Sub.encode]
  · decide

end NgxRtmp.Aggregate
