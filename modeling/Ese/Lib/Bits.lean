import Ese.Lib.Memory

/-!
# The bits of a byte memory

Bit `i` of a memory is bit `i % 8` of byte `i / 8`, so the bits of a little-endian cell are
consecutive. A memory is determined by its bits (`Mem.ext_bit`), which lets a bit-level edit, a cell
read and a cell write meet in one equation each.
-/

namespace Ese.Mem

/-- Bit `i` of the memory. -/
def bit (m : Mem) (i : Nat) : Bool := (m (i / 8)).getLsbD (i % 8)

/-- The little-endian 64-bit cell at `a`. -/
def readU64 (m : Mem) (a : Nat) : BitVec 64 := m.readU32 (a + 4) ++ m.readU32 a

/-- `m` with the little-endian 32-bit cell at `a` set to `v`. -/
def writeU32 (m : Mem) (a : Nat) (v : BitVec 32) : Mem :=
  m.write a ((List.range 4).map fun k => v.extractLsb' (8 * k) 8)

/-- `m` with the little-endian 64-bit cell at `a` set to `v`. -/
def writeU64 (m : Mem) (a : Nat) (v : BitVec 64) : Mem :=
  m.write a ((List.range 8).map fun k => v.extractLsb' (8 * k) 8)

/-- The bits of a byte are those of the memory. -/
theorem getLsbD_eq_bit (m : Mem) (k : Nat) {j : Nat} (hj : j < 8) :
    (m k).getLsbD j = m.bit (8 * k + j) := by
  rw [bit, show (8 * k + j) / 8 = k by omega, show (8 * k + j) % 8 = j by omega]

/-- Memory is decided by its bits. -/
theorem ext_bit {m m' : Mem} (h : ∀ i, m.bit i = m'.bit i) : m = m' := by
  funext k
  refine BitVec.eq_of_getLsbD_eq fun j hj => ?_
  rw [getLsbD_eq_bit m k hj, getLsbD_eq_bit m' k hj, h]

/-- The bits of the memory from byte `o` on. -/
theorem bit_offset (m : Mem) (o i : Nat) : bit (fun k => m (o + k)) i = m.bit (8 * o + i) := by
  rw [bit, bit, show (8 * o + i) / 8 = o + i / 8 by omega, show (8 * o + i) % 8 = i % 8 by omega]

/-- The bits of a DWORD are those of the memory. -/
theorem getLsbD_readU32 (m : Mem) (a : Nat) {j : Nat} (hj : j < 32) :
    (m.readU32 a).getLsbD j = m.bit (8 * a + j) := by
  rw [readU32, BitVec.getLsbD_append, BitVec.getLsbD_append, BitVec.getLsbD_append]
  by_cases h1 : j < 8
  · rw [if_pos h1, getLsbD_eq_bit m a h1]
  · rw [if_neg h1]
    by_cases h2 : j - 8 < 8
    · rw [if_pos h2, getLsbD_eq_bit m _ h2, show 8 * (a + 1) + (j - 8) = 8 * a + j by omega]
    · rw [if_neg h2]
      by_cases h3 : j - 8 - 8 < 8
      · rw [if_pos h3, getLsbD_eq_bit m _ h3, show 8 * (a + 2) + (j - 8 - 8) = 8 * a + j by omega]
      · rw [if_neg h3, getLsbD_eq_bit m _ (by omega),
          show 8 * (a + 3) + (j - 8 - 8 - 8) = 8 * a + j by omega]

/-- The bits of a QWORD are those of the memory. -/
theorem getLsbD_readU64 (m : Mem) (a : Nat) {j : Nat} (hj : j < 64) :
    (m.readU64 a).getLsbD j = m.bit (8 * a + j) := by
  rw [readU64, BitVec.getLsbD_append]
  by_cases h : j < 32
  · rw [if_pos h, getLsbD_readU32 m a h]
  · rw [if_neg h, getLsbD_readU32 m _ (by omega), show 8 * (a + 4) + (j - 32) = 8 * a + j by omega]

/-- The bits of a memory with the low bytes of a value stored from `a` on. -/
theorem bit_writeBytes {w : Nat} (m : Mem) (a n : Nat) (v : BitVec w) (i : Nat) :
    (m.write a ((List.range n).map fun k => v.extractLsb' (8 * k) 8)).bit i
      = if 8 * a ≤ i ∧ i < 8 * a + 8 * n then v.getLsbD (i - 8 * a) else m.bit i := by
  rw [bit, write]
  by_cases hlo : a ≤ i / 8
  · by_cases hhi : i / 8 - a < n
    · rw [if_pos hlo, if_pos (by omega), List.getElem?_map, List.getElem?_range hhi]
      simp only [Option.map_some, Option.getD_some]
      rw [BitVec.getLsbD_extractLsb', show 8 * (i / 8 - a) + i % 8 = i - 8 * a by omega]
      simp [Nat.mod_lt i (show 0 < 8 by decide)]
    · rw [if_pos hlo, if_neg (by omega), List.getElem?_eq_none (by simpa using hhi)]
      rfl
  · rw [if_neg hlo, if_neg (by omega)]
    rfl

/-- A DWORD that is written puts its bits. -/
theorem bit_writeU32 (m : Mem) (a : Nat) (v : BitVec 32) (i : Nat) :
    (m.writeU32 a v).bit i
      = if 8 * a ≤ i ∧ i < 8 * a + 32 then v.getLsbD (i - 8 * a) else m.bit i :=
  bit_writeBytes m a 4 v i

/-- A QWORD that is written puts its bits. -/
theorem bit_writeU64 (m : Mem) (a : Nat) (v : BitVec 64) (i : Nat) :
    (m.writeU64 a v).bit i
      = if 8 * a ≤ i ∧ i < 8 * a + 64 then v.getLsbD (i - 8 * a) else m.bit i :=
  bit_writeBytes m a 8 v i

/-- A byte that is written puts its bits. -/
theorem bit_write_singleton (m : Mem) (a : Nat) (b : Byte) (i : Nat) :
    (m.write a [b]).bit i = if 8 * a ≤ i ∧ i < 8 * a + 8 then b.getLsbD (i - 8 * a)
      else m.bit i := by
  have hb : [b] = (List.range 1).map fun k => b.extractLsb' (8 * k) 8 := by
    rw [List.range_one, List.map_singleton, Nat.mul_zero, BitVec.extractLsb'_eq_self]
  rw [hb, bit_writeBytes, Nat.mul_one]

/-- A cell is determined by its bits. -/
theorem readU64_eq {m : Mem} {a : Nat} {v : BitVec 64}
    (h : ∀ j < 64, m.bit (8 * a + j) = v.getLsbD j) : m.readU64 a = v :=
  BitVec.eq_of_getLsbD_eq fun j hj => by rw [getLsbD_readU64 m a hj, h j hj]

end Ese.Mem
