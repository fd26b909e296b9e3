import Mathlib

namespace NgxRtmp.Octets
open List

-- `octet x i` is ((u_char *) &x)[i] on a little-endian machine.
def octet (x : UInt32) (i : Nat) : UInt8 := UInt8.ofNat (x.toNat/256^i)

def word (b0 b1 b2 b3 : UInt8) : UInt32 :=
  UInt32.ofNat (b0.toNat+256*b1.toNat+65536*b2.toNat+16777216*b3.toNat)

theorem octet_toNat : (octet x i).toNat = x.toNat/256^i % 256 := by
  simp [octet]

theorem word_toNat (b0 b1 b2 b3 : UInt8) : (word b0 b1 b2 b3).toNat = b0.toNat+256*b1.toNat+65536*b2.toNat+16777216*b3.toNat := by
  have h0 := b0.toNat_lt
  have h1 := b1.toNat_lt
  have h2 := b2.toNat_lt
  have h3 := b3.toNat_lt
  simp only [word,UInt32.toNat_ofNat']
  omega

theorem word_octets : word (octet x 0) (octet x 1) (octet x 2) (octet x 3) = x := by
  have bound := x.toNat_lt
  apply UInt32.toNat_inj.mp
  simp only [word_toNat,octet_toNat]
  omega

theorem word_octets24 (x : UInt32) (small : x.toNat < 2^24) : word (octet x 0) (octet x 1) (octet x 2) 0 = x := by
  apply UInt32.toNat_inj.mp
  simp only [word_toNat,octet_toNat]
  simp
  omega

def bigEndian : Nat → Nat → List UInt8
  | 0,_ => []
  | width+1,n => bigEndian width (n/256) ++ [UInt8.ofNat n]

def natural (bytes : List UInt8) : Nat := bytes.foldl (fun n b => 256*n+b.toNat) 0

@[simp] theorem bigEndian_length (width n : Nat) : (bigEndian width n).length = width := by
  induction width generalizing n with
  | zero => rfl
  | succ width ih => simp [bigEndian,ih]

theorem natural_snoc : natural (bytes ++ [b]) = 256*natural bytes+b.toNat := by
  simp [natural]

theorem natural_fold : bytes.foldl (fun n b => 256*n+b.toNat) n = 256^bytes.length*n+natural bytes := by
  induction bytes generalizing n with
  | nil => simp [natural]
  | cons b bytes ih =>
    rw [natural,foldl_cons,foldl_cons,ih,ih]
    simp [pow_succ,mul_add,mul_assoc,add_assoc]

theorem natural_cons : natural (b::bytes) = 256^bytes.length*b.toNat+natural bytes := by
  rw [natural,foldl_cons,natural_fold]
  simp

theorem natural_lt (bytes : List UInt8) : natural bytes < 256^bytes.length := by
  induction bytes with
  | nil => decide
  | cons b bytes ih =>
    have small : b.toNat ≤ 255 := Nat.le_of_lt_succ b.toNat_lt
    have digit := Nat.mul_le_mul_left (256^bytes.length) small
    rw [natural_cons,length_cons,pow_succ]
    omega

theorem natural_bigEndian : natural (bigEndian width n) = n % 256^width := by
  induction width generalizing n with
  | zero => simp [bigEndian,natural,Nat.mod_one]
  | succ width ih =>
    have split : n % 256^(width+1) = n % 256+256*(n/256 % 256^width) := by
      rw [Nat.pow_succ',Nat.mod_mul]
    rw [bigEndian,natural_snoc,ih,split,UInt8.toNat_ofNat']
    omega

theorem natural_bigEndian_small (small : n < 256^width) : natural (bigEndian width n) = n := by
  rw [natural_bigEndian,Nat.mod_eq_of_lt small]

def numbers : List Nat → List UInt8 → List Nat
  | [],_ => []
  | width::widths,bytes => natural (bytes.take width)::numbers widths (bytes.drop width)

theorem numbers_bigEndian {fields : List (Nat × Nat)} (small : ∀ field ∈ fields, field.2 < 256^field.1) :
    numbers (fields.map Prod.fst) (fields.flatMap fun field => bigEndian field.1 field.2) = fields.map Prod.snd := by
  induction fields with
  | nil => rfl
  | cons field fields ih =>
    have size := bigEndian_length field.1 field.2
    rw [flatMap_cons,map_cons,numbers,take_left' size,drop_left' size,
      natural_bigEndian_small (small field mem_cons_self),ih fun other inside => small other (mem_cons_of_mem _ inside)]
    rfl

end NgxRtmp.Octets
