import NgxRtmp.ChunkHeader
import NgxRtmp.PacketWriter

namespace NgxRtmp.ChunkHeader
open ChunkWriter Octets List

-- The basic header has room for chunk stream ids from 2 to 65599.
theorem basicHead_read (known : fmt < 4) (named : 2 ≤ csid) (small : csid < 65600) (rest : List UInt8) :
    basicHead (basicHeader fmt csid ++ rest) = some (fmt,csid,(basicHeader fmt csid).length) := by
  unfold basicHeader
  by_cases one : csid ≤ 63
  · rw [if_pos ⟨named,one⟩]
    have first : (UInt8.ofNat (64*fmt+csid % 64)).toNat = 64*fmt+csid := by
      rw [UInt8.toNat_ofNat']
      omega
    simp only [basicHead,cons_append,nil_append,first]
    rw [if_neg (by omega),if_neg (by omega),show (64*fmt+csid)/64 = fmt by omega,show (64*fmt+csid) % 64 = csid by omega]
    rfl
  · by_cases two : csid < 320
    · rw [if_neg (by omega),if_pos ⟨by omega,two⟩]
      have first : (UInt8.ofNat (64*fmt)).toNat = 64*fmt := by
        rw [UInt8.toNat_ofNat']
        omega
      have second : (UInt8.ofNat (csid-64)).toNat = csid-64 := by
        rw [UInt8.toNat_ofNat']
        omega
      simp only [basicHead,cons_append,nil_append,first,second]
      rw [if_pos (by omega),show 64*fmt/64 = fmt by omega,show 64+(csid-64) = csid by omega]
      rfl
    · rw [if_neg (by omega),if_neg (by omega)]
      have first : (UInt8.ofNat (64*fmt+1)).toNat = 64*fmt+1 := by
        rw [UInt8.toNat_ofNat']
        omega
      have id : 64+(UInt8.ofNat (csid-64)).toNat+256*(UInt8.ofNat ((csid-64)/256)).toNat = csid := by
        rw [UInt8.toNat_ofNat',UInt8.toNat_ofNat']
        omega
      simp only [basicHead,cons_append,nil_append,first,id]
      rw [if_neg (by omega),if_pos (by omega),show (64*fmt+1)/64 = fmt by omega]
      rfl

def short (x : UInt32) : UInt32 := word (octet x 0) (octet x 1) (octet x 2) 0

def extended (timestamp : UInt32) : Bool := (splitTimestamp timestamp).2 ≠ 0

def extension (timestamp : UInt32) : List UInt8 :=
  if (splitTimestamp timestamp).2 ≠ 0 then extendedHeader (splitTimestamp timestamp).2 else []

-- 0x00ffffff in the short field and nothing else announces the extended one.
theorem short_read :
    short (splitTimestamp timestamp).1 = (splitTimestamp timestamp).1 ∧
      ((splitTimestamp timestamp).1 == 0x00ffffff) = extended timestamp := by
  by_cases long : 0x00ffffff ≤ timestamp
  · have split : splitTimestamp timestamp = (0x00ffffff,timestamp) := if_pos long
    have some : timestamp ≠ 0 := by
      rintro rfl
      exact absurd long (by decide)
    unfold extended
    rw [split]
    exact ⟨word_octets24 0x00ffffff (by decide),by simp [some]⟩
  · have split : splitTimestamp timestamp = (timestamp,0) := if_neg long
    have below : timestamp.toNat < 0x00ffffff := by
      have less := UInt32.lt_iff_toNat_lt.mp (UInt32.not_le.mp long)
      exact less
    unfold extended
    rw [split]
    refine ⟨word_octets24 _ (lt_trans below (by decide)),?_⟩
    have other : timestamp ≠ 0x00ffffff := by
      rintro rfl
      exact absurd below (by decide)
    simp [other]

theorem extendedHead_read :
    extendedHead fix fmt (extended timestamp) (splitTimestamp timestamp).1 size st (extension timestamp ++ rest) =
      (headDone fix fmt (extended timestamp) timestamp st,some (size+(extension timestamp).length)) := by
  by_cases long : 0x00ffffff ≤ timestamp
  · have split : splitTimestamp timestamp = (0x00ffffff,timestamp) := if_pos long
    have some : timestamp ≠ 0 := by
      rintro rfl
      exact absurd long (by decide)
    unfold extended extension extendedHead
    simp only [split,ne_eq,some,not_false_eq_true,decide_true,if_true,extendedHeader,cons_append,word_octets]
    rfl
  · have split : splitTimestamp timestamp = (timestamp,0) := if_neg long
    unfold extended extension extendedHead
    simp only [split,ne_eq,not_true_eq_false,decide_false,if_false,Bool.false_eq_true]
    rfl

def fields (fmt : Nat) (h : Header) (mlen : UInt32) (st : Chan) : Chan :=
  if fmt = 0 then {st with hdr:={st.hdr with mlen,type:=h.type,msid:=h.msid}}
  else if fmt = 1 then {st with hdr:={st.hdr with mlen,type:=h.type}}
  else st

theorem messageHead_fields (fix : Bool) (known : fmt < 3) (timestamp mlen : UInt32) (h : Header) (st : Chan) (p : List UInt8) :
    messageHead fix fmt st (messageHeader fmt timestamp mlen h.type h.msid ++ p) =
      extendedHead fix fmt (short timestamp == 0x00ffffff) (short timestamp) (messageHeader fmt timestamp mlen h.type h.msid).length
        (fields fmt {h with msid:=word (octet h.msid 0) (octet h.msid 1) (octet h.msid 2) (octet h.msid 3)} (short mlen) st) p := by
  match fmt,known with
  | 0,_ => rfl
  | 1,_ => rfl
  | 2,_ => rfl

theorem messageHead_read (fix : Bool) (known : fmt < 4) (small : mlen.toNat < 2^24) (h : Header) (timestamp : UInt32) (st : Chan)
    (steady : fmt = 3 → st.ext = false ∧ extended timestamp = false) (rest : List UInt8) :
    messageHead fix fmt st (messageHeader fmt (splitTimestamp timestamp).1 mlen h.type h.msid ++ extension timestamp ++ rest) =
      (headDone fix fmt (extended timestamp) (if fmt = 3 then st.dtime else timestamp) (fields fmt h mlen st),
        some (messageHeader fmt (splitTimestamp timestamp).1 mlen h.type h.msid ++ extension timestamp).length) := by
  by_cases repeats : fmt = 3
  · subst repeats
    obtain ⟨plain,shorter⟩ := steady rfl
    have none : extension timestamp = [] := by
      unfold extension
      exact if_neg (of_decide_eq_false shorter)
    simp only [messageHeader,messageHead,none,shorter,plain,extendedHead]
    rfl
  · obtain ⟨whole,announced⟩ := short_read
    rw [append_assoc,messageHead_fields fix (by omega),if_neg repeats,length_append,word_octets,whole,announced,
      show short mlen = mlen from word_octets24 mlen small]
    exact extendedHead_read

theorem messageHead_again (fix : Bool) (timestamp : UInt32) (st : Chan) (begun : st.len ≠ 0)
    (same : st.ext = (extended timestamp && fix)) (rest : List UInt8) :
    messageHead fix 3 st ((if (splitTimestamp timestamp).2 ≠ 0 ∧ fix then extendedHeader (splitTimestamp timestamp).2 else []) ++ rest) =
      (st,some (if (splitTimestamp timestamp).2 ≠ 0 ∧ fix then extendedHeader (splitTimestamp timestamp).2 else []).length) := by
  have kept : ∀ ext time, headDone fix 3 ext time st = st := fun _ _ => if_neg begun
  unfold messageHead extendedHead
  by_cases long : (splitTimestamp timestamp).2 ≠ 0 ∧ fix = true
  · have ext : st.ext = true := by
      rw [same,extended,decide_eq_true long.1,long.2]
      rfl
    simp only [if_pos long,ext,extendedHeader,cons_append,kept]
    rfl
  · have ext : st.ext = false := by
      rw [same,extended]
      simpa using long
    simp only [if_neg long,ext,kept]
    rfl

end NgxRtmp.ChunkHeader
