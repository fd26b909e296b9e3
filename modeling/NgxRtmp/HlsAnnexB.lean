import NgxRtmp.HlsVideo

namespace NgxRtmp.HlsVideo

open List hiding after count length next
open Octets Segments

def Inside (link : List (List UInt8)) (offset : Nat) : Prop :=
  match link with
  | [] => True
  | buf::_ => offset ≤ buf.length

def Settled (c : Cursor UInt8) : Prop :=
  match c.link with
  | [] => True
  | buf::_ => c.offset < buf.length

theorem inside_start (link : List (List UInt8)) : Inside link 0 := by
  cases link with
  | nil => trivial
  | cons buf next => exact Nat.zero_le _

theorem Settled.inside (settled : Settled c) : Inside c.link c.offset := by
  obtain ⟨link,offset⟩ := c
  cases link with
  | nil => trivial
  | cons buf next => exact le_of_lt settled

theorem Settled.empty (settled : Settled c) : c.link = [] ↔ c.rest = [] := by
  obtain ⟨link,offset⟩ := c
  cases link with
  | nil => simp
  | cons buf next =>
    have more : offset < buf.length := settled
    simp only [rest_cons,append_eq_nil_iff,drop_eq_nil_iff,reduceCtorEq,false_iff]
    omega

theorem settle_spec (inside : Inside link offset) :
    (settle link offset).rest = (⟨link,offset⟩ : Cursor UInt8).rest ∧ Settled (settle link offset) := by
  induction link generalizing offset with
  | nil => exact ⟨rfl,trivial⟩
  | cons buf next ih =>
    rw [settle]
    split
    case isTrue up =>
      obtain ⟨same,settled⟩ := ih (inside_start next)
      exact ⟨by rw [same,rest_start,rest_cons,up,drop_length,nil_append],settled⟩
    case isFalse more =>
      have bound : offset ≤ buf.length := inside
      exact ⟨rfl,show offset < buf.length by omega⟩

theorem copyLoop_ok (inside : Inside link offset) (copied : copyLoop link offset n = .ok (taken,c)) :
    (⟨link,offset⟩ : Cursor UInt8).rest = taken ++ c.rest ∧ taken.length = n ∧ Settled c := by
  induction link generalizing taken c offset n with
  | nil => cases copied
  | cons buf next ih =>
    have bound : offset ≤ buf.length := inside
    rw [copyLoop] at copied
    split at copied
    case isTrue fits =>
      obtain ⟨rfl,rfl⟩ : _ = taken ∧ _ = c := by simpa using copied
      obtain ⟨same,settled⟩ := settle_spec (show Inside (buf::next) (offset+n) from show offset+n ≤ buf.length by omega)
      refine ⟨?_,?_,settled⟩
      · rw [same,rest_cons,rest_cons,← append_assoc,← drop_drop,take_append_drop]
      · rw [length_take,length_drop]
        omega
    case isFalse short =>
      split at copied
      · cases copied
      · rename_i more after later
        obtain ⟨rfl,rfl⟩ : _ = taken ∧ _ = c := by simpa using copied
        obtain ⟨same,size,settled⟩ := ih (inside_start next) later
        refine ⟨?_,?_,settled⟩
        · rw [rest_cons,← rest_start,same,append_assoc]
        · rw [length_append,size,length_drop]
          omega

theorem copy_ok (inside : Inside c.link c.offset) (copied : copy n c = .ok (taken,after)) :
    c.rest = taken ++ after.rest ∧ taken.length = n ∧ Settled after := by
  rw [copy] at copied
  split at copied
  · cases copied
  · exact copyLoop_ok inside copied

theorem copy_front (inside : Inside c.link c.offset) (copied : copy n c = .ok (taken,after)) (front : c.rest = xs ++ ys)
    (size : xs.length = n) : taken = xs ∧ after.rest = ys ∧ Settled after := by
  obtain ⟨whole,length,settled⟩ := copy_ok inside copied
  obtain ⟨same,rest⟩ := append_inj (front.symm.trans whole) (by omega)
  exact ⟨same.symm,rest.symm,settled⟩

def prefixed (width : Nat) (units : List (List UInt8)) : List UInt8 :=
  units.flatMap fun unit => bigEndian width unit.length ++ unit

-- The ten bytes up to the size of the lengths, the parameter sets, and what else follows.
structure Config where
  lead : List UInt8
  lengths : UInt8
  spsCount : UInt8
  sps : List (List UInt8)
  pps : List (List UInt8)
  extension : List UInt8

def Config.bytes (c : Config) : List UInt8 :=
  c.lead ++ [c.lengths] ++ [c.spsCount] ++ prefixed 2 c.sps ++ [UInt8.ofNat c.pps.length] ++ prefixed 2 c.pps ++ c.extension

structure Config.Wf (c : Config) : Prop where
  lead : c.lead.length = 9
  sps : c.spsCount.toNat % 32 = c.sps.length
  pps : c.pps.length < 256
  units : ∀ unit ∈ c.sps ++ c.pps, unit ≠ [] ∧ unit.length < 65536

end NgxRtmp.HlsVideo
