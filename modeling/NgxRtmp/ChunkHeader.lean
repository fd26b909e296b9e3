import NgxRtmp.ChunkWriter

namespace NgxRtmp.ChunkHeader
open List (cons_append length_cons)
open ChunkWriter Octets

structure Chan where
  hdr : Header
  dtime : UInt32
  len : UInt32
  ext : Bool
  deriving DecidableEq, Repr

def Chan.empty : Chan := ⟨⟨0,0,0,0,0⟩,0,0,false⟩

-- chunk basic header: the format, the chunk stream id and its own size. `none`
-- asks for more bytes.
def basicHead : List UInt8 → Option (Nat × Nat × Nat)
  | [] => none
  | first::rest =>
    let fmt := first.toNat/64
    let csid := first.toNat % 64
    if csid = 0 then
      match rest with
      | b::_ => some (fmt,64+b.toNat,2)
      | [] => none
    else if csid = 1 then
      match rest with
      | b::c::_ => some (fmt,64+b.toNat+256*c.toNat,3)
      | _ => none
    else some (fmt,csid,1)

-- Inside a message the time fields have been read already.
def headDone (publishTimeFix : Bool) (fmt : Nat) (ext : Bool) (timestamp : UInt32) (st : Chan) : Chan :=
  if st.len = 0 then
    if fmt = 0 then {st with ext:=ext && publishTimeFix,hdr:={st.hdr with timestamp},dtime:=0}
    else {st with ext:=ext && publishTimeFix,dtime:=timestamp}
  else st

def extendedHead (publishTimeFix : Bool) (fmt : Nat) (ext : Bool) (timestamp : UInt32) (size : Nat) (st : Chan)
    (p : List UInt8) : Chan × Option Nat :=
  if ext then
    match p with
    | e3::e2::e1::e0::_ => (headDone publishTimeFix fmt ext (word e0 e1 e2 e3) st,some (size+4))
    | _ => (st,none)
  else (headDone publishTimeFix fmt ext timestamp st,some size)

-- Without a size the header is incomplete; the chunk stream keeps what has been read of it.
def messageHead (publishTimeFix : Bool) (fmt : Nat) (st : Chan) (p : List UInt8) : Chan × Option Nat :=
  if 2 < fmt then extendedHead publishTimeFix fmt st.ext st.dtime 0 st p
  else match p with
    | t2::t1::t0::p =>
      let timestamp := word t0 t1 t2 0
      let ext := timestamp == 0x00ffffff
      if 1 < fmt then extendedHead publishTimeFix fmt ext timestamp 3 st p
      else match p with
        | l2::l1::l0::type::p =>
          let st := {st with hdr:={st.hdr with mlen:=word l0 l1 l2 0,type}}
          if 0 < fmt then extendedHead publishTimeFix fmt ext timestamp 7 st p
          else match p with
            | m0::m1::m2::m3::p =>
              let st := {st with hdr:={st.hdr with msid:=word m0 m1 m2 m3}}
              extendedHead publishTimeFix fmt ext timestamp 11 st p
            | _ => (st,none)
        | _ => (st,none)
    | _ => (st,none)

-- h->mlen - st->len, a subtraction of two uint32_t
def Chan.fsize (st : Chan) : Nat := (st.hdr.mlen-st.len).toNat

theorem basicHead_parts (read : basicHead bytes = some (fmt,csid,size)) :
    fmt < 4 ∧ 2 ≤ csid ∧ 1 ≤ size ∧ size ≤ 3 ∧ size ≤ bytes.length := by
  cases bytes with
  | nil => cases read
  | cons first rest =>
    have low : first.toNat < 256 := first.toNat_lt
    simp only [basicHead] at read
    by_cases zero : first.toNat % 64 = 0
    · rw [if_pos zero] at read
      cases rest with
      | nil => cases read
      | cons b rest =>
        cases read
        simp only [length_cons]
        omega
    · rw [if_neg zero] at read
      by_cases one : first.toNat % 64 = 1
      · rw [if_pos one] at read
        cases rest with
        | nil => cases read
        | cons b rest =>
          cases rest with
          | nil => cases read
          | cons c rest =>
            cases read
            simp only [length_cons]
            omega
      · rw [if_neg one] at read
        cases read
        simp only [length_cons]
        omega

theorem extendedHead_parts (read : extendedHead fix fmt ext timestamp size st p = (chan,some more)) :
    (ext = false ∧ more = size ∧ chan = headDone fix fmt ext timestamp st) ∨
      ∃ e3 e2 e1 e0 rest, ext = true ∧ p = e3::e2::e1::e0::rest ∧ more = size+4 ∧
        chan = headDone fix fmt ext (word e0 e1 e2 e3) st := by
  unfold extendedHead at read
  split at read
  · rename_i extended
    split at read
    · rename_i e3 e2 e1 e0 rest
      cases read
      exact .inr ⟨e3,e2,e1,e0,rest,extended,rfl,rfl,rfl⟩
    · cases read
  · rename_i plain
    cases read
    exact .inl ⟨by simpa using plain,rfl,rfl⟩

theorem extendedHead_size (read : extendedHead fix fmt ext timestamp size st p = (chan,some more)) :
    more ≤ size+p.length ∧ more ≤ size+4 := by
  rcases extendedHead_parts read with ⟨_,rfl,_⟩ | ⟨e3,e2,e1,e0,rest,_,rfl,rfl,_⟩
  · omega
  · simp only [length_cons]
    omega

theorem messageHead_size (read : messageHead fix fmt st p = (chan,some more)) : more ≤ p.length ∧ more ≤ 15 := by
  unfold messageHead at read
  split at read
  · have size := extendedHead_size read
    omega
  · split at read
    · split at read
      · have size := extendedHead_size read
        simp only [length_cons]
        omega
      · split at read
        · split at read
          · have size := extendedHead_size read
            simp only [length_cons]
            omega
          · split at read
            · have size := extendedHead_size read
              simp only [length_cons]
              omega
            · cases read
        · cases read
    · cases read

theorem headDone_len (fix : Bool) (fmt : Nat) (ext : Bool) (timestamp : UInt32) (st : Chan) :
    (headDone fix fmt ext timestamp st).len = st.len := by
  unfold headDone
  split
  · split <;> rfl
  · rfl

theorem extendedHead_len : (extendedHead fix fmt ext timestamp size st p).1.len = st.len := by
  unfold extendedHead
  split
  · split
    · exact headDone_len _ _ _ _ _
    · rfl
  · exact headDone_len _ _ _ _ _

theorem messageHead_len (fix : Bool) (fmt : Nat) (st : Chan) (p : List UInt8) : (messageHead fix fmt st p).1.len = st.len := by
  unfold messageHead
  split
  · exact extendedHead_len
  · split
    · split
      · exact extendedHead_len
      · split
        · split
          · exact extendedHead_len
          · split
            · exact extendedHead_len
            · rfl
        · rfl
    · rfl

theorem fsize_eq (st : Chan) (within : st.len.toNat ≤ st.hdr.mlen.toNat) : st.fsize = st.hdr.mlen.toNat-st.len.toNat := by
  unfold Chan.fsize
  exact UInt32.toNat_sub_of_le _ _ (UInt32.le_iff_toNat_le.mpr within)

theorem basicHead_append (read : basicHead bytes = some head) : basicHead (bytes ++ more) = some head := by
  cases bytes with
  | nil => cases read
  | cons first rest =>
    simp only [basicHead,cons_append] at read ⊢
    by_cases zero : first.toNat % 64 = 0
    · rw [if_pos zero] at read ⊢
      cases rest with
      | nil => cases read
      | cons b rest => exact read
    · rw [if_neg zero] at read ⊢
      by_cases one : first.toNat % 64 = 1
      · rw [if_pos one] at read ⊢
        cases rest with
        | nil => cases read
        | cons b rest =>
          cases rest with
          | nil => cases read
          | cons c rest => exact read
      · rw [if_neg one] at read ⊢
        exact read

theorem extendedHead_append (read : extendedHead fix fmt ext timestamp size st p = (chan,some n)) :
    extendedHead fix fmt ext timestamp size st (p ++ more) = (chan,some n) := by
  unfold extendedHead at read ⊢
  cases ext with
  | false => exact read
  | true =>
    simp only [if_true] at read ⊢
    match p,read with
    | e3::e2::e1::e0::p,read => exact read

theorem extendedHead_short (read : extendedHead fix fmt ext timestamp size st p = (chan,none)) : chan = st ∧ p.length < 4 := by
  unfold extendedHead at read
  cases ext with
  | false => cases read
  | true =>
    simp only [if_true] at read
    match p,read with
    | [],read => cases read; exact ⟨rfl,by decide⟩
    | [_],read => cases read; exact ⟨rfl,by simp⟩
    | [_,_],read => cases read; exact ⟨rfl,by simp⟩
    | [_,_,_],read => cases read; exact ⟨rfl,by simp⟩

theorem messageHead_append (read : messageHead fix fmt st p = (chan,some n)) :
    messageHead fix fmt st (p ++ more) = (chan,some n) := by
  unfold messageHead at read ⊢
  by_cases repeats : 2 < fmt
  · rw [if_pos repeats] at read ⊢
    exact extendedHead_append read
  · rw [if_neg repeats] at read ⊢
    match p,read with
    | t2::t1::t0::p,read =>
      simp only [cons_append] at read ⊢
      by_cases delta : 1 < fmt
      · rw [if_pos delta] at read ⊢
        exact extendedHead_append read
      · rw [if_neg delta] at read ⊢
        match p,read with
        | l2::l1::l0::type::p,read =>
          simp only [cons_append] at read ⊢
          by_cases same : 0 < fmt
          · rw [if_pos same] at read ⊢
            exact extendedHead_append read
          · rw [if_neg same] at read ⊢
            match p,read with
            | m0::m1::m2::m3::p,read => exact extendedHead_append read

-- An incomplete header is read again from its start and writes the same fields again.
theorem messageHead_restart (read : messageHead fix fmt st p = (chan,none)) (more : List UInt8) :
    messageHead fix fmt chan (p ++ more) = messageHead fix fmt st (p ++ more) ∧ p.length < 15 := by
  unfold messageHead at read
  by_cases repeats : 2 < fmt
  · rw [if_pos repeats] at read
    obtain ⟨rfl,short⟩ := extendedHead_short read
    exact ⟨rfl,by omega⟩
  · rw [if_neg repeats] at read
    match p,read with
    | [],read => cases read; exact ⟨rfl,by simp⟩
    | [_],read => cases read; exact ⟨rfl,by simp⟩
    | [_,_],read => cases read; exact ⟨rfl,by simp⟩
    | t2::t1::t0::p,read =>
      by_cases delta : 1 < fmt
      · simp only [if_pos delta] at read
        obtain ⟨rfl,short⟩ := extendedHead_short read
        exact ⟨rfl,by simp only [length_cons]; omega⟩
      · simp only [if_neg delta] at read
        match p,read with
        | [],read => cases read; exact ⟨rfl,by simp⟩
        | [_],read => cases read; exact ⟨rfl,by simp⟩
        | [_,_],read => cases read; exact ⟨rfl,by simp⟩
        | [_,_,_],read => cases read; exact ⟨rfl,by simp⟩
        | l2::l1::l0::type::p,read =>
          have rewritten : ∀ p, messageHead fix fmt {st with hdr:={st.hdr with mlen:=word l0 l1 l2 0,type}}
              (t2::t1::t0::l2::l1::l0::type::p) = messageHead fix fmt st (t2::t1::t0::l2::l1::l0::type::p) := by
            intro p
            simp only [messageHead,if_neg repeats,if_neg delta]
          by_cases same : 0 < fmt
          · simp only [if_pos same] at read
            obtain ⟨rfl,short⟩ := extendedHead_short read
            exact ⟨rewritten _,by simp only [length_cons]; omega⟩
          · simp only [if_neg same] at read
            match p,read with
            | [],read => cases read; exact ⟨rewritten _,by simp⟩
            | [_],read => cases read; exact ⟨rewritten _,by simp⟩
            | [_,_],read => cases read; exact ⟨rewritten _,by simp⟩
            | [_,_,_],read => cases read; exact ⟨rewritten _,by simp⟩
            | m0::m1::m2::m3::p,read =>
              obtain ⟨rfl,short⟩ := extendedHead_short read
              refine ⟨?_,by simp only [length_cons]; omega⟩
              simp only [messageHead,if_neg repeats,if_neg delta,if_neg same,cons_append]

end NgxRtmp.ChunkHeader
