import Ese.Lib.Lex
import Ese.Lib.Memory

/-!
# Numbers as bytes

The number that a list of bytes spells, most or least significant byte first, and the bytes of a
number. Lists of one length are in the order of the numbers they spell most significant byte first.
-/

namespace Ese

/-- The number with the most significant byte first. -/
def beNat : List Byte → Nat
  | [] => 0
  | b :: l => b.toNat * 256 ^ l.length + beNat l

/-- The number with the least significant byte first. -/
def leNat (l : List Byte) : Nat := beNat l.reverse

/-- The low `n` bytes of a number, the most significant first. -/
def beBytes : Nat → Nat → List Byte
  | 0, _ => []
  | n + 1, v => BitVec.ofNat 8 (v / 256 ^ n) :: beBytes n v

/-- The low `n` bytes of a number, the least significant first. -/
def leBytes (n v : Nat) : List Byte := (beBytes n v).reverse

/-- The bytes written are as many as asked for. -/
@[simp] theorem length_beBytes (n v : Nat) : (beBytes n v).length = n := by
  induction n with
  | zero => rfl
  | succ n ih => rw [beBytes, List.length_cons, ih]

/-- The bytes written are as many as asked for. -/
@[simp] theorem length_leBytes (n v : Nat) : (leBytes n v).length = n := by simp [leBytes]

/-- Only the low bytes of the number count. -/
theorem beBytes_mod (n v : Nat) : beBytes n (v % 256 ^ n) = beBytes n v := by
  have haux : ∀ m, n ≤ m → beBytes n (v % 256 ^ m) = beBytes n v := by
    induction n with
    | zero => exact fun _ _ => rfl
    | succ n ih =>
      intro m hm
      rw [beBytes, beBytes, ih m (by omega)]
      congr 1
      obtain ⟨k, rfl⟩ := Nat.exists_eq_add_of_le hm
      refine BitVec.eq_of_toNat_eq ?_
      rw [BitVec.toNat_ofNat, BitVec.toNat_ofNat, Nat.pow_add, Nat.pow_succ, Nat.mul_assoc,
        Nat.mod_mul_right_div_self,
        Nat.mod_mul_right_mod]
  exact haux n (Nat.le_refl n)

/-- A number that fits reads back. -/
theorem beNat_beBytes {n v : Nat} (h : v < 256 ^ n) : beNat (beBytes n v) = v := by
  induction n generalizing v with
  | zero =>
    have hv : v = 0 := by simpa using h
    rw [hv]
    rfl
  | succ n ih =>
    have hmod := Nat.mod_lt v (Nat.pow_pos (n := n) (by omega : 0 < 256))
    have hdiv : v / 256 ^ n < 256 := by
      rw [Nat.div_lt_iff_lt_mul (Nat.pow_pos (by omega)), Nat.mul_comm, ← Nat.pow_succ]
      exact h
    rw [beBytes, beNat, length_beBytes, ← beBytes_mod n v, ih hmod, BitVec.toNat_ofNat,
      Nat.mod_eq_of_lt hdiv]
    rw [Nat.mul_comm]
    exact Nat.div_add_mod v _

/-- A number that fits reads back. -/
theorem leNat_leBytes {n v : Nat} (h : v < 256 ^ n) : leNat (leBytes n v) = v := by
  rw [leNat, leBytes, List.reverse_reverse, beNat_beBytes h]

/-! ## Cells -/

/-- The number of two lists behind each other. -/
theorem beNat_append (l l' : List Byte) :
    beNat (l ++ l') = beNat l * 256 ^ l'.length + beNat l' := by
  induction l with
  | nil => rw [List.nil_append, beNat, Nat.zero_mul, Nat.zero_add]
  | cons b l ih =>
    rw [List.cons_append, beNat, beNat, ih, List.length_append, Nat.pow_add, Nat.add_mul,
      Nat.mul_assoc, Nat.add_assoc]

/-- The value of two bit vectors side by side. -/
theorem toNat_append {v w : Nat} (x : BitVec v) (y : BitVec w) :
    (x ++ y).toNat = x.toNat * 2 ^ w + y.toNat := by
  rw [BitVec.toNat_append, ← Nat.shiftLeft_add_eq_or_of_lt y.isLt, Nat.shiftLeft_eq]

/-- The first byte is the lowest. -/
theorem leNat_cons (b : Byte) (l : List Byte) : leNat (b :: l) = b.toNat + 256 * leNat l := by
  unfold leNat
  rw [List.reverse_cons, beNat_append]
  simp [beNat]
  ring

namespace Mem

/-- A WORD is read in little-endian order. -/
theorem toNat_readU16 (m : Mem) (a : Nat) : (m.readU16 a).toNat = leNat (m.read a 2) := by
  have hread : m.read a 2 = [m a, m (a + 1)] := rfl
  rw [hread, leNat_cons, leNat_cons, readU16, toNat_append]
  have hnil : leNat [] = 0 := rfl
  rw [hnil]
  omega

/-- A DWORD is read in little-endian order. -/
theorem toNat_readU32 (m : Mem) (a : Nat) : (m.readU32 a).toNat = leNat (m.read a 4) := by
  have hread : m.read a 4 = [m a, m (a + 1), m (a + 2), m (a + 3)] := rfl
  have hnil : leNat [] = 0 := rfl
  rw [hread, leNat_cons, leNat_cons, leNat_cons, leNat_cons, hnil, readU32, toNat_append,
    toNat_append, toNat_append]
  omega

end Mem

end Ese
