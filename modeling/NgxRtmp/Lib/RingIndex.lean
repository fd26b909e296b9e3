import Mathlib

namespace NgxRtmp.RingIndex

-- Occupancy of a ring of `size` slots by an unsigned subtraction in a word of `word` values.
def distance (word size pos last : Nat) : Nat := (last+word-pos) % word % size

-- The second reduction forgets the wrapped word exactly when the size divides the word.
theorem distance_exact (divides : size ∣ word) (here : pos < size) (fits : size ≤ word)
    (room : count < size) (ahead : last = (pos+count) % size) :
    distance word size pos last = count := by
  unfold distance
  rw [Nat.mod_mod_of_dvd _ divides]
  obtain ⟨turns,rfl⟩ := divides
  by_cases wraps : pos+count < size
  · rw [Nat.mod_eq_of_lt wraps] at ahead
    have shifted : last+size*turns-pos = count+size*turns := by omega
    rw [shifted,Nat.add_mul_mod_self_left,Nat.mod_eq_of_lt room]
  · have folded : (pos+count) % size = pos+count-size := by
      rw [Nat.mod_eq_sub_mod (by omega),Nat.mod_eq_of_lt (by omega)]
    have turned : 1 ≤ turns := by
      rcases Nat.eq_zero_or_pos turns with rfl | positive
      · omega
      · exact positive
    obtain ⟨fewer,rfl⟩ : ∃ fewer, turns = fewer+1 := ⟨turns-1,by omega⟩
    have shifted : last+size*(fewer+1)-pos = count+size*fewer := by
      rw [ahead,folded,Nat.mul_succ]; omega
    rw [shifted,Nat.add_mul_mod_self_left,Nat.mod_eq_of_lt room]

theorem distance_one (positive : 2 ≤ size) (fits : size ≤ word) : distance word size (size-1) 0 = 1 ↔ size ∣ word := by
  unfold distance
  have cut : 0+word-(size-1) = (word-size)+1 := by omega
  have outer : ((word-size)+1) % word = (word-size)+1 := Nat.mod_eq_of_lt (by omega)
  have same : size ∣ word ↔ (word-size) % size = 0 := by
    rw [← Nat.dvd_iff_mod_eq_zero]
    exact ⟨fun whole => Nat.dvd_sub whole (Nat.dvd_refl _),
      fun rest => by simpa [Nat.sub_add_cancel fits] using Nat.dvd_add rest (Nat.dvd_refl size)⟩
  rw [cut,outer,same,Nat.add_mod]
  have small : (word-size) % size < size := Nat.mod_lt _ (by omega)
  rw [Nat.mod_eq_of_lt (show 1 < size by omega)]
  constructor
  · intro one
    by_cases last : (word-size) % size+1 < size
    · rw [Nat.mod_eq_of_lt last] at one; omega
    · have top : (word-size) % size+1 = size := by omega
      rw [top,Nat.mod_self] at one; omega
  · intro zero
    rw [zero,Nat.mod_eq_of_lt (by omega)]

theorem index_injective {pos : Nat} (here : pos < size) (left : i < size) (right : j < size)
    (same : (pos+i) % size = (pos+j) % size) : i = j := by
  have reduce : ∀ k, k < size → (pos+k) % size = if pos+k < size then pos+k else pos+k-size := by
    intro k bound
    split
    · rename_i low; exact Nat.mod_eq_of_lt low
    · rw [Nat.mod_eq_sub_mod (by omega),Nat.mod_eq_of_lt (by omega)]
  rw [reduce i left,reduce j right] at same
  split at same <;> split at same <;> omega

def steps (size pos last : Nat) : Nat := (last+size-pos) % size

theorem steps_lt (here : pos < size) : steps size pos last < size := Nat.mod_lt _ (by omega)

theorem steps_reach (here : pos < size) (there : last < size) : (pos+steps size pos last) % size = last := by
  unfold steps
  by_cases wraps : last < pos
  · rw [Nat.mod_eq_of_lt (show last+size-pos < size by omega)]
    rw [show pos+(last+size-pos) = last+size by omega,Nat.add_mod_right,Nat.mod_eq_of_lt there]
  · rw [show last+size-pos = (last-pos)+size by omega,Nat.add_mod_right,Nat.mod_eq_of_lt (show last-pos < size by omega)]
    rw [show pos+(last-pos) = last by omega,Nat.mod_eq_of_lt there]

theorem steps_unique (here : pos < size) (few : count < size) (reach : (pos+count) % size = last) :
    steps size pos last = count := by
  have there : last < size := reach ▸ Nat.mod_lt _ (by omega)
  exact index_injective here (steps_lt here) few ((steps_reach here there).trans reach.symm)

theorem powers_divide (bounded : size < 2^width) : size ∣ 2^width ↔ ∃ k, size = 2^k := by
  constructor
  · intro divides
    obtain ⟨k,_,same⟩ := (Nat.dvd_prime_pow Nat.prime_two).mp divides
    exact ⟨k,same⟩
  · rintro ⟨k,rfl⟩
    exact Nat.pow_dvd_pow 2 (le_of_lt ((Nat.pow_lt_pow_iff_right (by decide)).mp bounded))

end NgxRtmp.RingIndex
