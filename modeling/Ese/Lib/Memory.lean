import Mathlib.Algebra.BigOperators.Intervals
import Mathlib.Data.List.Basic
import Mathlib.Order.Interval.Finset.Nat
import Mathlib.Tactic.Ring

/-!
# Byte memories

A byte memory is a total map from offsets to bytes. `Mem.read` takes a range of it as a list,
`Mem.write` stores a list at an offset, and the two frame rules say which reads a write leaves
alone. `Mem.readU16` and `Mem.writeU16` are the little-endian 16-bit cells over the same bytes,
so a cell and a byte range that overlap see each other's writes. Disjoint ranges below a bound
are together no longer than the bound.
-/

namespace Ese

/-- A byte. -/
abbrev Byte := BitVec 8

/-- A byte memory: offset to byte. -/
abbrev Mem := Nat → Byte

namespace Mem

/-- The `n` bytes of `m` from offset `a` on. -/
def read (m : Mem) (a n : Nat) : List Byte :=
  (List.range n).map fun k => m (a + k)

/-- `m` with the bytes `l` stored from offset `a` on. -/
def write (m : Mem) (a : Nat) (l : List Byte) : Mem := fun i =>
  if a ≤ i then (l[i - a]?).getD (m i) else m i

/-- `m` with `n` copies of `b` stored from offset `a` on. -/
def fill (m : Mem) (a n : Nat) (b : Byte) : Mem := m.write a (List.replicate n b)

/-- The bytes `[src, src + n)` moved to `dst`. The source is read before the destination is
written, so the ranges may overlap. -/
def move (m : Mem) (dst src n : Nat) : Mem := m.write dst (m.read src n)

/-- The little-endian 16-bit cell at `a`. -/
def readU16 (m : Mem) (a : Nat) : BitVec 16 := m (a + 1) ++ m a

/-- The little-endian 32-bit cell at `a`. -/
def readU32 (m : Mem) (a : Nat) : BitVec 32 := m (a + 3) ++ m (a + 2) ++ m (a + 1) ++ m a

/-- `m` with the little-endian 16-bit cell at `a` set to `v`. -/
def writeU16 (m : Mem) (a : Nat) (v : BitVec 16) : Mem :=
  m.write a [v.extractLsb' 0 8, v.extractLsb' 8 8]

/-! ## Reads -/

/-- A read has the length asked for. -/
@[simp] theorem length_read (m : Mem) (a n : Nat) : (m.read a n).length = n := by
  simp [read]

/-- A read of nothing. -/
@[simp] theorem read_zero (m : Mem) (a : Nat) : m.read a 0 = [] := rfl

/-- The bytes of a read. -/
theorem getElem_read (m : Mem) (a n k : Nat) (h : k < (m.read a n).length) :
    (m.read a n)[k] = m (a + k) := by
  simp [read]

/-- A read only depends on the bytes it covers. -/
theorem read_congr {m m' : Mem} {a n : Nat} (h : ∀ i, a ≤ i → i < a + n → m' i = m i) :
    m'.read a n = m.read a n := by
  apply List.map_congr_left
  intro k hk
  rw [List.mem_range] at hk
  exact h _ (by omega) (by omega)

/-- A read of `n + k` bytes is a read of `n` followed by a read of `k`. -/
theorem read_add (m : Mem) (a n k : Nat) : m.read a (n + k) = m.read a n ++ m.read (a + n) k := by
  simp [read, List.range_add, Nat.add_assoc]

/-! ## Writes -/

/-- A write leaves what is before it. -/
theorem write_apply_lt (m : Mem) {a i : Nat} (l : List Byte) (h : i < a) :
    m.write a l i = m i := by
  rw [write, if_neg (by omega)]

/-- A write leaves what is behind it. -/
theorem write_apply_ge (m : Mem) {a i : Nat} (l : List Byte) (h : a + l.length ≤ i) :
    m.write a l i = m i := by
  rw [write, if_pos (by omega), List.getElem?_eq_none (by omega), Option.getD_none]

/-- Outside the written range a write changes nothing. -/
theorem write_apply_of_not_mem (m : Mem) {a i : Nat} (l : List Byte)
    (h : i < a ∨ a + l.length ≤ i) : m.write a l i = m i := by
  rcases h with h | h
  · exact write_apply_lt m l h
  · exact write_apply_ge m l h

/-- A write puts its bytes. -/
theorem write_apply_add (m : Mem) (a : Nat) {l : List Byte} {k : Nat} (h : k < l.length) :
    m.write a l (a + k) = l[k] := by
  simp [write, h]

/-- A write of nothing. -/
@[simp] theorem write_nil (m : Mem) (a : Nat) : m.write a [] = m := by
  funext i
  simp [write]

/-- A read of the written range gives the written bytes. -/
theorem read_write_same (m : Mem) (a : Nat) (l : List Byte) :
    (m.write a l).read a l.length = l := by
  apply List.ext_getElem (by simp)
  intro k h₁ h₂
  rw [getElem_read, write_apply_add m a h₂]

/-- The frame rule: a read of a range disjoint from the written one is unchanged. -/
theorem read_write_disjoint (m : Mem) {a b n : Nat} (l : List Byte)
    (h : b + n ≤ a ∨ a + l.length ≤ b) : (m.write a l).read b n = m.read b n :=
  read_congr fun i h₁ h₂ => write_apply_of_not_mem m l (by omega)

/-- Two adjacent writes are one write of the appended bytes. -/
theorem write_append (m : Mem) (a : Nat) (l₁ l₂ : List Byte) :
    (m.write a l₁).write (a + l₁.length) l₂ = m.write a (l₁ ++ l₂) := by
  funext i
  rcases Nat.lt_or_ge i (a + l₁.length) with h | h
  · rw [write_apply_lt _ _ h]
    rcases Nat.lt_or_ge i a with h' | h'
    · rw [write_apply_lt _ _ h', write_apply_lt _ _ h']
    · simp only [write, if_pos h']
      rw [List.getElem?_append_left (by omega)]
  · have h' : a ≤ i := by omega
    simp only [write, if_pos h, if_pos h']
    rw [List.getElem?_append_right (by omega), List.getElem?_eq_none (l := l₁) (by omega),
      Option.getD_none, Nat.sub_sub]

/-! ## Ranges that hold a list -/

/-- The list `l` stands in `m` from offset `a` on. -/
def Holds (m : Mem) (a : Nat) (l : List Byte) : Prop := m.read a l.length = l

section Holds
variable {m : Mem} {a : Nat} {b : Byte} {l l₁ l₂ : List Byte}

/-- Memory holds two strings in a row iff it holds each in its place. -/
theorem holds_append : m.Holds a (l₁ ++ l₂) ↔ m.Holds a l₁ ∧ m.Holds (a + l₁.length) l₂ := by
  rw [Holds, List.length_append, read_add]
  refine ⟨fun h => List.append_inj h (length_read ..), fun ⟨h₁, h₂⟩ => ?_⟩
  rw [h₁, h₂]

/-- Memory holds a string iff it holds the first byte and the rest. -/
theorem holds_cons : m.Holds a (b :: l) ↔ m a = b ∧ m.Holds (a + 1) l := by
  rw [Holds, List.length_cons, Nat.add_comm, read_add, Holds]
  simp [read, List.range_succ]

/-- Memory holds what is written. -/
theorem holds_write (m : Mem) (a : Nat) (l : List Byte) : (m.write a l).Holds a l :=
  read_write_same m a l

end Holds

/-! ## Fills and moves -/

/-- A fill leaves what is beside it. -/
theorem fill_apply_of_not_mem (m : Mem) {a n i : Nat} (b : Byte) (h : i < a ∨ a + n ≤ i) :
    m.fill a n b i = m i :=
  write_apply_of_not_mem m _ (by simpa using h)

/-- A move leaves what is beside its destination. -/
theorem move_apply_of_not_mem (m : Mem) {dst src n i : Nat} (h : i < dst ∨ dst + n ≤ i) :
    m.move dst src n i = m i :=
  write_apply_of_not_mem m _ (by simpa using h)

/-- A move puts the bytes of its source, as they were. -/
theorem move_apply_add (m : Mem) (dst src : Nat) {n k : Nat} (h : k < n) :
    m.move dst src n (dst + k) = m (src + k) := by
  unfold move
  rw [write_apply_add m dst (by rwa [length_read]), getElem_read]

/-- The destination of a move holds what the source held, overlapping or not. -/
theorem read_move_same (m : Mem) (dst src n : Nat) :
    (m.move dst src n).read dst n = m.read src n := by
  have h := read_write_same m dst (m.read src n)
  rwa [length_read] at h

/-! ## 16-bit cells -/

/-- A WORD is decided by its two bytes. -/
theorem readU16_congr {m m' : Mem} {a b : Nat} (h₀ : m' b = m a) (h₁ : m' (b + 1) = m (a + 1)) :
    m'.readU16 b = m.readU16 a := by
  rw [readU16, readU16, h₀, h₁]

/-- The low bits of a cell are its first byte. -/
theorem getElem_readU16_low (m : Mem) (a : Nat) {i : Nat} (h : i < 8) :
    (m.readU16 a)[i] = (m a)[i] := by
  rw [← BitVec.getLsbD_eq_getElem, readU16, BitVec.getLsbD_append, if_pos h,
    BitVec.getLsbD_eq_getElem]

/-- The high bits of a cell are its second byte. -/
theorem getElem_readU16_high (m : Mem) (a : Nat) {i : Nat} (h : 8 ≤ i) (hi : i < 16) :
    (m.readU16 a)[i] = (m (a + 1))[i - 8] := by
  rw [← BitVec.getLsbD_eq_getElem, readU16, BitVec.getLsbD_append, if_neg (by omega),
    BitVec.getLsbD_eq_getElem]

/-- The high and the low byte of a cell make up the cell. -/
theorem extract_append_extract (v : BitVec 16) :
    (v.extractLsb' 8 8 ++ v.extractLsb' 0 8 : BitVec 16) = v := by
  apply BitVec.eq_of_getLsbD_eq
  intro i hi
  rw [BitVec.getLsbD_append]
  split_ifs with h
  · simp [h]
  · rw [BitVec.getLsbD_extractLsb']
    have : i - 8 < 8 := by omega
    simp [this, show 8 + (i - 8) = i by omega]

/-- The cell is read back from the two bytes it was stored as. -/
@[simp] theorem readU16_writeU16_same (m : Mem) (a : Nat) (v : BitVec 16) :
    (m.writeU16 a v).readU16 a = v := by
  have h₀ : m.writeU16 a v (a + 0) = v.extractLsb' 0 8 := write_apply_add m a (k := 0) (by simp)
  have h₁ : m.writeU16 a v (a + 1) = v.extractLsb' 8 8 := write_apply_add m a (k := 1) (by simp)
  rw [Nat.add_zero] at h₀
  rw [readU16, h₀, h₁, extract_append_extract]

/-- A WORD that is written leaves what is beside it. -/
theorem writeU16_apply_of_not_mem (m : Mem) {a i : Nat} (v : BitVec 16)
    (h : i < a ∨ a + 2 ≤ i) : m.writeU16 a v i = m i :=
  write_apply_of_not_mem m _ (by simpa using h)

/-- A WORD that is written leaves the others. -/
theorem readU16_writeU16_disjoint (m : Mem) {a b : Nat} (v : BitVec 16)
    (h : b + 2 ≤ a ∨ a + 2 ≤ b) : (m.writeU16 a v).readU16 b = m.readU16 b :=
  readU16_congr (writeU16_apply_of_not_mem m v (by omega))
    (writeU16_apply_of_not_mem m v (by omega))

end Mem

/-! ## Disjoint ranges -/

/-- Ranges `[ib i, ib i + cb i)` that end at or before `M` and do not overlap have at most `M`
bytes. Empty ranges may lie anywhere. -/
theorem sum_le_of_disjoint {n M : Nat} {ib cb : Nat → Nat}
    (hb : ∀ i, i < n → cb i ≠ 0 → ib i + cb i ≤ M)
    (hd : ∀ i j, i < n → j < n → i ≠ j → cb i ≠ 0 → cb j ≠ 0 →
      ib i + cb i ≤ ib j ∨ ib j + cb j ≤ ib i) :
    ((List.range n).map cb).sum ≤ M := by
  have hsum : ((List.range n).map cb).sum = ∑ i ∈ Finset.range n, cb i := rfl
  have hcard : ∀ i, (Finset.Ico (ib i) (ib i + cb i)).card = cb i := fun i => by simp
  have hdisj : (Finset.range n : Set Nat).PairwiseDisjoint fun i =>
      Finset.Ico (ib i) (ib i + cb i) := by
    intro i hi j hj hij
    refine Finset.disjoint_left.2 fun a hai haj => ?_
    rw [Finset.mem_Ico] at hai haj
    have := hd i j (Finset.mem_range.1 hi) (Finset.mem_range.1 hj) hij (by omega) (by omega)
    omega
  have hsub : (Finset.range n).biUnion (fun i => Finset.Ico (ib i) (ib i + cb i))
      ⊆ Finset.range M := by
    intro a ha
    obtain ⟨i, hi, ha⟩ := Finset.mem_biUnion.1 ha
    rw [Finset.mem_Ico] at ha
    have := hb i (Finset.mem_range.1 hi) (by omega)
    exact Finset.mem_range.2 (by omega)
  calc ((List.range n).map cb).sum
      = ∑ i ∈ Finset.range n, (Finset.Ico (ib i) (ib i + cb i)).card := by
        rw [hsum]; simp only [hcard]
    _ = ((Finset.range n).biUnion fun i => Finset.Ico (ib i) (ib i + cb i)).card :=
        (Finset.card_biUnion hdisj).symm
    _ ≤ M := by simpa using Finset.card_le_card hsub

end Ese
