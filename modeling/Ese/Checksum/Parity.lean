import Ese.Checksum.Basic

/-!
# Parity masks

The implementations spread the parity of a row over 32 bits and keep the row's double index under
that mask. `lParityMask` folds the word to a byte and looks the byte up; the `Popcnt` variants take
the low bit of the population count. Both are `parityMask`.
-/

namespace Ese

set_option maxRecDepth 2000 in

/-- The parity of each byte, as a mask. -/
def g_bParityLookupTable : Vector (BitVec 8) 256 := #v[
  0, -1, -1, 0, -1, 0, 0, -1, -1, 0, 0, -1, 0, -1, -1, 0,
  -1, 0, 0, -1, 0, -1, -1, 0, 0, -1, -1, 0, -1, 0, 0, -1,
  -1, 0, 0, -1, 0, -1, -1, 0, 0, -1, -1, 0, -1, 0, 0, -1,
  0, -1, -1, 0, -1, 0, 0, -1, -1, 0, 0, -1, 0, -1, -1, 0,
  -1, 0, 0, -1, 0, -1, -1, 0, 0, -1, -1, 0, -1, 0, 0, -1,
  0, -1, -1, 0, -1, 0, 0, -1, -1, 0, 0, -1, 0, -1, -1, 0,
  0, -1, -1, 0, -1, 0, 0, -1, -1, 0, 0, -1, 0, -1, -1, 0,
  -1, 0, 0, -1, 0, -1, -1, 0, 0, -1, -1, 0, -1, 0, 0, -1,
  -1, 0, 0, -1, 0, -1, -1, 0, 0, -1, -1, 0, -1, 0, 0, -1,
  0, -1, -1, 0, -1, 0, 0, -1, -1, 0, 0, -1, 0, -1, -1, 0,
  0, -1, -1, 0, -1, 0, 0, -1, -1, 0, 0, -1, 0, -1, -1, 0,
  -1, 0, 0, -1, 0, -1, -1, 0, 0, -1, -1, 0, -1, 0, 0, -1,
  0, -1, -1, 0, -1, 0, 0, -1, -1, 0, 0, -1, 0, -1, -1, 0,
  -1, 0, 0, -1, 0, -1, -1, 0, 0, -1, -1, 0, -1, 0, 0, -1,
  -1, 0, 0, -1, 0, -1, -1, 0, 0, -1, -1, 0, -1, 0, 0, -1,
  0, -1, -1, 0, -1, 0, 0, -1, -1, 0, 0, -1, 0, -1, -1, 0]

/-- The table's entry for the low byte of `dw`, sign-extended to a `LONG`. -/
def parityLookup (dw : ULONG) : ULONG :=
  (g_bParityLookupTable.get (dw.setWidth 8).toFin).signExtend 32

/-- `lParityMask`: the bytes of a DWORD folded into one, which is looked up. -/
def lParityMask (dw : ULONG) : ULONG :=
  let dw1 := dw >>> 16
  let dw2 := dw ^^^ dw1
  let dw3 := dw2 >>> 8
  let dw4 := dw2 ^^^ dw3
  parityLookup dw4

/-- `_mm_popcnt_u32`. -/
def mm_popcnt_u32 (dw : ULONG) : ULONG := dw.cpop

/-- `lParityMaskPopcnt` of a 32-bit word. -/
def lParityMaskPopcnt (dw : ULONG) : ULONG :=
  -(mm_popcnt_u32 dw &&& 0x01)

/-! ## The masks agree -/

/-- A lookup of a byte in a table whose entries, under `φ`, are known. -/
theorem get_toFin {α β : Type} {v : Vector α 256} {φ : α → β} {f : BitVec 8 → β}
    (h : v.toList.map φ = (List.range 256).map fun x => f (BitVec.ofNat 8 x)) (x : BitVec 8) :
    φ (v.get x.toFin) = f x := by
  have h1 : (v.toList.map φ)[x.toNat]? = some (φ (v.get x.toFin)) := by
    rw [List.getElem?_map, List.getElem?_eq_getElem (by simpa using x.isLt), Vector.getElem_toList]
    rfl
  have h2 : (v.toList.map φ)[x.toNat]? = some (f x) := by
    rw [h, List.getElem?_map, List.getElem?_range x.isLt]
    simp
  exact Option.some.inj (h1.symm.trans h2)

/-- The table has the parity of every byte. -/
theorem parityLookup_eq (dw : ULONG) : parityLookup dw = parityMask 32 (dw.setWidth 8) := by
  have h : g_bParityLookupTable.toList.map (BitVec.signExtend 32)
      = (List.range 256).map fun x => parityMask 32 (BitVec.ofNat 8 x) := by
    decide +kernel
  exact get_toFin h _

/-- The parity by folding. -/
theorem lParityMask_eq (dw : ULONG) : lParityMask dw = parityMask 32 dw := by
  -- the two folds, each of which keeps the parity of the low part
  have h16 : parityMask 32 dw = parityMask 32 ((dw ^^^ dw >>> 16).setWidth 16) := by
    rw [parityMask_split (v := 16) (u := 16) dw, ← parityMask_xor, BitVec.setWidth_xor]
  have h8 (x : ULONG) :
      parityMask 32 (x.setWidth 16) = parityMask 32 ((x ^^^ x >>> 8).setWidth 8) := by
    have hs : ((x.setWidth 16) >>> 8).setWidth 8 = (x >>> 8).setWidth 8 := by
      ext i hi
      simp [show 8 + i < 16 by omega]
    rw [parityMask_split (v := 8) (u := 8) (x.setWidth 16), ← parityMask_xor, hs,
      BitVec.setWidth_setWidth_of_le x (by decide), BitVec.setWidth_xor]
  rw [lParityMask, parityLookup_eq, h16, h8]

/-- The low bit of a count of ones, spread over the mask, is their parity. -/
theorem parityMask_eq_cpopNatRec {v : Nat} (x : BitVec v) (n : Nat) :
    indexSum x.getLsbD (fun _ => BitVec.allOnes 32) n =
      -(BitVec.ofNat 32 (x.cpopNatRec n 0) &&& 1) := by
  have hb (c : Nat) : -(BitVec.ofNat 32 c &&& 1) = pick (decide (c % 2 = 1))
    (BitVec.allOnes 32) := by
    have h1 : BitVec.ofNat 32 c &&& 1 = BitVec.ofNat 32 (c % 2) := by
      rw [show (1 : ULONG) = BitVec.ofNat 32 1 from rfl, ← BitVec.ofNat_and, Nat.and_one_is_mod]
    rw [h1]
    rcases Nat.mod_two_eq_zero_or_one c with h | h <;> rw [h] <;> decide
  induction n with
  | zero => simp [indexSum]
  | succ n ih =>
    rw [indexSum, xorSum_succ, ← indexSum, ih, hb, hb, ← pick_xor, BitVec.cpopNatRec_succ,
      BitVec.cpopNatRec_add]
    congr 1
    rcases Nat.mod_two_eq_zero_or_one (x.cpopNatRec n 0) with h | h <;> cases x.getLsbD n <;>
      simp [h, Nat.add_mod]

/-- The parity by counting. -/
theorem lParityMaskPopcnt_eq (dw : ULONG) : lParityMaskPopcnt dw = parityMask 32 dw := by
  rw [parityMask, parityMask_eq_cpopNatRec]
  rfl

/-! ## Running double indices -/

/-- The double index after `k` increments. -/
def runIndex (idx step : ULONG) (k : Nat) : ULONG := idx + BitVec.ofNat 32 k * step

/-- The index runs by its step. -/
theorem runIndex_succ (idx step : ULONG) (k : Nat) :
    runIndex idx step k + step = runIndex idx step (k + 1) := by
  rw [runIndex, runIndex, BitVec.ofNat_add, BitVec.add_mul, BitVec.one_mul, BitVec.add_assoc]

/-- `n` rounds of `p ^= idx & mask; idx += step` from zero. -/
def distribute (idx step : ULONG) (mask : Nat → ULONG) : Nat → ULONG × ULONG
  | 0 => (0, idx)
  | n + 1 =>
    let (p, idx) := distribute idx step mask n
    (p ^^^ (idx &&& mask n), idx + step)

/-- The loop adds up the indices that the masks select. -/
theorem distribute_eq (idx step : ULONG) (mask : Nat → ULONG) (n : Nat) :
    distribute idx step mask n
      = (xorSum n fun k => mask k &&& runIndex idx step k, runIndex idx step n) := by
  induction n with
  | zero => simp [distribute, runIndex]
  | succ n ih =>
    rw [distribute, ih, xorSum_succ, BitVec.and_comm]
    dsimp only
    rw [runIndex_succ]

end Ese
