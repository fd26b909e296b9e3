import Mathlib

namespace NgxRtmp.Splice
open List

def splice (memory : List α) (place : Nat) (part : List α) : List α :=
  memory.take place ++ part ++ memory.drop (place+part.length)

theorem splice_length (fits : place+part.length ≤ memory.length) : (splice memory place part).length = memory.length := by
  simp only [splice,length_append,length_take,length_drop]
  omega

theorem splice_nil : splice memory place [] = memory := by
  simp [splice]

theorem take_splice (inside : place ≤ memory.length) (before : n ≤ place) : (splice memory place part).take n = memory.take n := by
  have long : n ≤ (memory.take place).length := by
    rw [length_take]
    omega
  rw [splice,append_assoc,take_append_of_le_length long,take_take,min_eq_left before]

theorem drop_splice (inside : place ≤ memory.length) :
    (splice memory place part).drop place = part ++ memory.drop (place+part.length) := by
  rw [splice,append_assoc]
  apply drop_left'
  rw [length_take]
  omega

theorem take_end (inside : place ≤ memory.length) :
    (splice memory place part).take (place+part.length) = memory.take place ++ part := by
  apply take_left'
  simp only [length_append,length_take]
  omega

theorem drop_end (inside : place ≤ memory.length) :
    (splice memory place part).drop (place+part.length) = memory.drop (place+part.length) := by
  apply drop_left'
  simp only [length_append,length_take]
  omega

theorem splice_splice (inside : place ≤ memory.length) :
    splice (splice memory place part) (place+part.length) more = splice memory place (part ++ more) := by
  have behind : (splice memory place part).drop (place+part.length+more.length) =
      memory.drop (place+part.length+more.length) := by
    rw [← drop_drop,drop_end inside,drop_drop]
  rw [splice,take_end inside,behind,splice]
  simp [add_assoc]

theorem splice_again (inside : place ≤ memory.length) (same : other.length = front.length) :
    splice (splice memory place (front ++ part)) place other = splice memory place (other ++ part) := by
  have behind : (splice memory place (front ++ part)).drop (place+other.length) =
      part ++ memory.drop (place+(other ++ part).length) := by
    rw [← drop_drop,drop_splice inside,append_assoc,same,drop_left]
    simp [same]
  rw [splice,take_splice inside le_rfl,behind,splice]
  simp

theorem splice_gap (inside : place+part.length ≤ memory.length) :
    splice (splice memory (place+part.length) later) place part = splice memory place (part ++ later) := by
  have behind : (splice memory (place+part.length) later).drop (place+part.length) =
      later ++ memory.drop (place+(part ++ later).length) := by
    rw [drop_splice inside]
    simp [add_assoc]
  rw [splice,take_splice inside (Nat.le_add_right _ _),behind,splice]
  simp

end NgxRtmp.Splice
