import Mathlib
import Ese.Lib.Run

/-!
# The space map of a small tree

A tree whose pages all lie in its primary extent keeps them in 32 bits of its space header: bit `k`
is set while page `pgnoFDP + 1 + k` is available. An extent and a page are taken from the lowest
place where they fit, and a free sets the bits of an extent again. Page numbers are at most
`pgnoSysMax`, so that no sum of them wraps; the write of the space header may fail, and then nothing
has changed.
-/

namespace Ese.Space

inductive ERR
  | errSPNoSpaceForYou
  /-- An error of the write of the space header. -/
  | io (err : Int)
  deriving DecidableEq, Repr

/-- `cpgSmallSpaceAvailMost`. -/
def cpgSmallSpaceAvailMost : Nat := 32

/-- The fields of `SPACE_HEADER` that a small tree uses. -/
structure SPACE_HEADER where
  cpgPrimary : Nat
  rgbitAvail : BitVec 32
  deriving DecidableEq, Repr

/-- The pages of the single extent, with the page of the root, which has no bit. -/
def cpgSingleExtent (sph : SPACE_HEADER) : Nat := min sph.cpgPrimary (cpgSmallSpaceAvailMost + 1)

/-- The loop that makes a mask. -/
def maskLoop : Nat → BitVec 32 → BitVec 32
  | 0, rgbitT => rgbitT
  | n + 1, rgbitT => maskLoop n ((rgbitT <<< 1) + 1)

/-- The mask of `cpg` pages. -/
def rgbitMask (cpg : Nat) : BitVec 32 := maskLoop (cpg - 1) 1

section
variable (pgnoFDP : Nat) (sph : SPACE_HEADER)

/-- `ErrSPIWrappedNDSetExternalHeader`. -/
def errSetExternalHeader (errSet : Option Int) (sph : SPACE_HEADER) : Except ERR SPACE_HEADER :=
  match errSet with
  | none => .ok sph
  | some err => .error (.io err)

/-- The loop over the places of an extent, of which there are at most `n`. -/
def getExtLoop (cpgMin : Nat) : Nat → Nat → BitVec 32 → Option (Nat × BitVec 32)
  | 0, _, _ => none
  | n + 1, pgnoAvail, rgbitT =>
    if pgnoAvail + cpgMin ≤ pgnoFDP + cpgSingleExtent sph then
      if rgbitT &&& sph.rgbitAvail = rgbitT then some (pgnoAvail, rgbitT)
      else getExtLoop cpgMin n (pgnoAvail + 1) (rgbitT <<< 1)
    else none

/-- The new header, the first page and the number of pages. -/
def errSPISmallGetExt (errSet : Option Int) (cpgMin : Nat) :
    Except ERR (SPACE_HEADER × Nat × Nat) :=
  if cpgMin ≤ cpgSmallSpaceAvailMost then
    match getExtLoop pgnoFDP sph cpgMin (cpgSingleExtent sph) (pgnoFDP + 1) (rgbitMask cpgMin) with
    | none => .error .errSPNoSpaceForYou
    | some (pgnoAvail, rgbitT) => do
      let sph ← errSetExternalHeader errSet { sph with rgbitAvail := sph.rgbitAvail ^^^ rgbitT }
      return (sph, pgnoAvail, cpgMin)
  else .error .errSPNoSpaceForYou

/-- The loop over the pages, of which there are at most `n`. -/
def getPageLoop : Nat → Nat → BitVec 32 → Option (Nat × BitVec 32)
  | 0, _, _ => none
  | n + 1, pgnoAvail, rgbitT =>
    if pgnoAvail ≤ pgnoFDP + cpgSingleExtent sph - 1 then
      if rgbitT &&& sph.rgbitAvail ≠ 0 then some (pgnoAvail, rgbitT)
      else getPageLoop n (pgnoAvail + 1) (rgbitT <<< 1)
    else none

/-- The new header and the page. -/
def errSPISmallGetPage (errSet : Option Int) : Except ERR (SPACE_HEADER × Nat) :=
  match getPageLoop pgnoFDP sph (cpgSingleExtent sph) (pgnoFDP + 1) 1 with
  | none => .error .errSPNoSpaceForYou
  | some (pgnoAvail, rgbitT) => do
    let sph ← errSetExternalHeader errSet { sph with rgbitAvail := sph.rgbitAvail ^^^ rgbitT }
    return (sph, pgnoAvail)

def errSPISmallFreeExt (errSet : Option Int) (pgnoFirst cpgSize : Nat) : Except ERR SPACE_HEADER :=
  let rgbitT := rgbitMask cpgSize <<< (pgnoFirst - pgnoFDP - 1)
  errSetExternalHeader errSet { sph with rgbitAvail := sph.rgbitAvail ||| rgbitT }

/-- The pages whose bit is set. -/
def avail : Set Nat := {pgno | ∃ k < 32, pgno = pgnoFDP + 1 + k ∧ sph.rgbitAvail.getLsbD k = true}

/-- The pages of the single extent behind the root. -/
def single : Set Nat := Set.Ioc pgnoFDP (pgnoFDP + cpgSingleExtent sph - 1)

end

/-! ## The system -/

/-- A small tree, and the pages that it has handed out and that were not freed since. -/
structure Small where
  pgnoFDP : Nat
  sph : SPACE_HEADER
  held : Set Nat

namespace Small

variable (s : Small)

def avail : Set Nat := Space.avail s.pgnoFDP s.sph

/-- A range of pages of the tree that are not available. -/
def Allocated (pgnoFirst cpgSize : Nat) : Prop :=
  0 < cpgSize ∧ Set.Ico pgnoFirst (pgnoFirst + cpgSize) ⊆ single s.pgnoFDP s.sph ∧
    Disjoint (Set.Ico pgnoFirst (pgnoFirst + cpgSize)) s.avail

/-- The calls, each with how the write of its header fares. -/
inductive Call
  | getExt (errSet : Option Int) (cpgMin : Nat)
  | getPage (errSet : Option Int)
  | freeExt (errSet : Option Int) (pgnoFirst cpgSize : Nat)

/-- The error that the write of the header ends with. -/
def errSet : Call → Option Int
  | .getExt errSet _ => errSet
  | .getPage errSet => errSet
  | .freeExt errSet _ _ => errSet

/-- Requests are for some pages, and only pages that are allocated are freed. -/
def Allowed : Call → Prop
  | .getExt _ cpgMin => 0 < cpgMin
  | .getPage _ => True
  | .freeExt _ pgnoFirst cpgSize => s.Allocated pgnoFirst cpgSize

/-- What a call returns. -/
def call : Call → Except ERR Small
  | .getExt errSet cpgMin => do
    let (sph, pgnoFirst, cpgReq) ← errSPISmallGetExt s.pgnoFDP s.sph errSet cpgMin
    return { s with sph := sph, held := s.held ∪ Set.Ico pgnoFirst (pgnoFirst + cpgReq) }
  | .getPage errSet => do
    let (sph, pgnoAlloc) ← errSPISmallGetPage s.pgnoFDP s.sph errSet
    return { s with sph := sph, held := s.held ∪ Set.Ico pgnoAlloc (pgnoAlloc + 1) }
  | .freeExt errSet pgnoFirst cpgSize => do
    let sph ← errSPISmallFreeExt s.pgnoFDP s.sph errSet pgnoFirst cpgSize
    return { s with sph := sph, held := s.held \ Set.Ico pgnoFirst (pgnoFirst + cpgSize) }

/-- A call that fails changes nothing. -/
def Step (c : Call) (s s' : Small) : Prop :=
  s.Allowed c ∧ (s.call c = .ok s' ∨ ∃ err, s.call c = .error err ∧ s' = s)

end Small

/-! ## Masks -/

section
variable {cpg k n : Nat} {rgbit : BitVec 32}

/-- A mask has the bits from `k` to `k + cpg`. -/
def Masks (rgbit : BitVec 32) (k cpg : Nat) : Prop :=
  ∀ j < 32, rgbit.getLsbD j = decide (k ≤ j ∧ j < k + cpg)

theorem toNat_maskLoop (hk : 0 < k) (h : rgbit.toNat = 2 ^ k - 1) (hn : k + n ≤ 32) :
    (maskLoop n rgbit).toNat = 2 ^ (k + n) - 1 := by
  induction n generalizing k rgbit with
  | zero => exact h
  | succ n ih =>
    have hpow : 2 ^ (k + 1) ≤ 2 ^ 32 := Nat.pow_le_pow_right (by decide) (by omega)
    have hone : 1 ≤ 2 ^ k := Nat.one_le_two_pow
    rw [Nat.pow_succ] at hpow
    rw [maskLoop, show k + (n + 1) = k + 1 + n by omega]
    refine ih (Nat.succ_pos k) ?_ (by omega)
    rw [BitVec.toNat_add, BitVec.toNat_shiftLeft, h, Nat.shiftLeft_eq, Nat.pow_succ]
    simp only [BitVec.ofNat_eq_ofNat, BitVec.toNat_ofNat]
    omega

/-- A mask for up to 32 pages has as many bits. -/
theorem masks_rgbitMask (hpos : 0 < cpg) (hle : cpg ≤ 32) : Masks (rgbitMask cpg) 0 cpg := by
  intro j hj
  have htoNat : (rgbitMask cpg).toNat = 2 ^ cpg - 1 := by
    have h := @toNat_maskLoop 1 (cpg - 1) 1 Nat.one_pos rfl (by omega)
    rwa [Nat.add_sub_of_le hpos] at h
  rw [BitVec.getLsbD, htoNat, Nat.testBit_two_pow_sub_one]
  congr 1
  exact propext (by omega)

theorem Masks.shift (h : Masks rgbit k cpg) (n : Nat) : Masks (rgbit <<< n) (k + n) cpg := by
  intro j hj
  rw [BitVec.getLsbD_shiftLeft, decide_eq_true hj, Bool.true_and]
  rcases Nat.lt_or_ge j n with hlt | hge
  · have hnot : ¬ (k + n ≤ j ∧ j < k + n + cpg) := by omega
    rw [decide_eq_true hlt, decide_eq_false hnot]
    rfl
  · rw [decide_eq_false (Nat.not_lt.2 hge), Bool.not_false, Bool.true_and, h _ (by omega)]
    congr 1
    exact propext (by omega)

theorem Masks.and_eq_iff (h : Masks rgbit k cpg) {rgbitAvail : BitVec 32} (hle : k + cpg ≤ 32) :
    rgbit &&& rgbitAvail = rgbit ↔ ∀ j, k ≤ j → j < k + cpg → rgbitAvail.getLsbD j = true := by
  constructor
  · intro heq j hj hj'
    have hbit := congrArg (BitVec.getLsbD · j) heq
    rwa [BitVec.getLsbD_and, h j (by omega), decide_eq_true ⟨hj, hj'⟩, Bool.true_and] at hbit
  · intro hall
    refine BitVec.eq_of_getLsbD_eq fun j hj => ?_
    rw [BitVec.getLsbD_and, h j hj]
    by_cases hin : k ≤ j ∧ j < k + cpg
    · rw [decide_eq_true hin, hall j hin.1 hin.2, Bool.true_and]
    · rw [decide_eq_false hin, Bool.false_and]

/-- A single bit. -/
theorem Masks.and_ne_zero_iff (h : Masks rgbit k 1) {rgbitAvail : BitVec 32} (hk : k < 32) :
    rgbit &&& rgbitAvail ≠ 0 ↔ rgbitAvail.getLsbD k = true := by
  constructor
  · intro hne
    by_contra hnot
    refine hne (BitVec.eq_of_getLsbD_eq fun j hj => ?_)
    refine Eq.trans ?_ BitVec.getLsbD_zero.symm
    rw [BitVec.getLsbD_and, h j hj]
    by_cases hin : k ≤ j ∧ j < k + 1
    · obtain rfl : j = k := by omega
      rw [Bool.eq_false_of_not_eq_true hnot, Bool.and_false]
    · rw [decide_eq_false hin, Bool.false_and]
  · intro hbit hzero
    have hand := congrArg (BitVec.getLsbD · k) hzero
    rw [BitVec.getLsbD_and, h k hk, decide_eq_true ⟨le_rfl, k.lt_succ_self⟩, hbit] at hand
    exact Bool.noConfusion (hand.trans BitVec.getLsbD_zero)

end

/-! ## Places -/

section
variable {pgnoFDP cpg i k n : Nat} {sph : SPACE_HEADER} {rgbitT : BitVec 32}

theorem mem_avail {j : Nat} (hj : j < 32) : pgnoFDP + 1 + j ∈ avail pgnoFDP sph ↔
    sph.rgbitAvail.getLsbD j = true := by
  refine ⟨?_, fun hbit => ⟨j, hj, rfl, hbit⟩⟩
  rintro ⟨k, -, heq, hbit⟩
  rwa [show j = k by omega]

/-- The pages of a mask are available when its bits are set. -/
theorem ico_subset_avail (hle : i + cpg ≤ 32) :
    Set.Ico (pgnoFDP + 1 + i) (pgnoFDP + 1 + i + cpg) ⊆ avail pgnoFDP sph ↔
      ∀ j, i ≤ j → j < i + cpg → sph.rgbitAvail.getLsbD j = true := by
  constructor
  · intro hsub j hj hj'
    exact (mem_avail (show j < 32 by omega)).1 (hsub ⟨by omega, by omega⟩)
  · rintro hall pgno ⟨hge, hlt⟩
    have heq : pgno = pgnoFDP + 1 + (pgno - pgnoFDP - 1) := by omega
    rw [heq]
    exact (mem_avail (by omega)).2 (hall _ (by omega) (by omega))

/-- An extent that is taken is not available any more. -/
theorem avail_xor (hmask : Masks rgbitT i cpg) (hle : i + cpg ≤ 32)
    (hsub : Set.Ico (pgnoFDP + 1 + i) (pgnoFDP + 1 + i + cpg) ⊆ avail pgnoFDP sph) :
    avail pgnoFDP { sph with rgbitAvail := sph.rgbitAvail ^^^ rgbitT } =
      avail pgnoFDP sph \ Set.Ico (pgnoFDP + 1 + i) (pgnoFDP + 1 + i + cpg) := by
  rw [ico_subset_avail hle] at hsub
  ext pgno
  constructor
  · rintro ⟨k, hk, rfl, hbit⟩
    dsimp only at hbit
    rw [BitVec.getLsbD_xor, hmask k hk] at hbit
    by_cases hin : i ≤ k ∧ k < i + cpg
    · rw [hsub k hin.1 hin.2, decide_eq_true hin] at hbit
      exact Bool.noConfusion hbit
    · rw [decide_eq_false hin, Bool.xor_false] at hbit
      exact ⟨⟨k, hk, rfl, hbit⟩, fun h => hin ⟨by have := h.1; omega, by have := h.2; omega⟩⟩
  · rintro ⟨⟨k, hk, rfl, hbit⟩, hout⟩
    have hin : ¬ (i ≤ k ∧ k < i + cpg) := fun h => hout ⟨by omega, by omega⟩
    refine ⟨k, hk, rfl, ?_⟩
    dsimp only
    rw [BitVec.getLsbD_xor, hmask k hk, decide_eq_false hin, Bool.xor_false, hbit]

/-- An extent that is freed is available. -/
theorem avail_or (hmask : Masks rgbitT i cpg) (hle : i + cpg ≤ 32) :
    avail pgnoFDP { sph with rgbitAvail := sph.rgbitAvail ||| rgbitT } =
      avail pgnoFDP sph ∪ Set.Ico (pgnoFDP + 1 + i) (pgnoFDP + 1 + i + cpg) := by
  ext pgno
  constructor
  · rintro ⟨k, hk, rfl, hbit⟩
    dsimp only at hbit
    rw [BitVec.getLsbD_or, hmask k hk, Bool.or_eq_true] at hbit
    rcases hbit with hbit | hbit
    · exact .inl ⟨k, hk, rfl, hbit⟩
    · have hin := of_decide_eq_true hbit
      exact .inr ⟨by omega, by omega⟩
  · rintro (⟨k, hk, rfl, hbit⟩ | ⟨hge, hlt⟩)
    · refine ⟨k, hk, rfl, ?_⟩
      dsimp only
      rw [BitVec.getLsbD_or, hbit, Bool.true_or]
    · refine ⟨pgno - pgnoFDP - 1, by omega, by omega, ?_⟩
      have hin : i ≤ pgno - pgnoFDP - 1 ∧ pgno - pgnoFDP - 1 < i + cpg := by omega
      dsimp only
      rw [BitVec.getLsbD_or, hmask _ (by omega), decide_eq_true hin, Bool.or_true]

theorem cpgSingleExtent_le (sph : SPACE_HEADER) : cpgSingleExtent sph ≤ 33 := Nat.min_le_right _ _

/-- By induction over the places: each is tried with its own mask, and the loop ends at the first
that fits. -/
theorem getExtLoop_spec (hpos : 0 < cpg) (hmask : Masks rgbitT k cpg)
    (hn : cpgSingleExtent sph ≤ k + n) :
    (getExtLoop pgnoFDP sph cpg n (pgnoFDP + 1 + k) rgbitT = none ∧ ∀ i, k ≤ i →
      i + 1 + cpg ≤ cpgSingleExtent sph →
      ¬ Set.Ico (pgnoFDP + 1 + i) (pgnoFDP + 1 + i + cpg) ⊆ avail pgnoFDP sph) ∨
    ∃ i rgbit, getExtLoop pgnoFDP sph cpg n (pgnoFDP + 1 + k) rgbitT =
      some (pgnoFDP + 1 + i, rgbit) ∧
      i + 1 + cpg ≤ cpgSingleExtent sph ∧ Masks rgbit i cpg ∧
      Set.Ico (pgnoFDP + 1 + i) (pgnoFDP + 1 + i + cpg) ⊆ avail pgnoFDP sph := by
  have hsingle := cpgSingleExtent_le sph
  induction n generalizing k rgbitT with
  | zero => exact .inl ⟨rfl, fun i hi hi' => absurd hi' (by omega)⟩
  | succ n ih =>
    rw [getExtLoop]
    split_ifs with hroom hfits
    · have hle : k + cpg ≤ 32 := by omega
      exact .inr ⟨k, rgbitT, rfl, by omega, hmask, (ico_subset_avail hle).2
        ((hmask.and_eq_iff hle).1 hfits)⟩
    · have hle : k + cpg ≤ 32 := by omega
      rcases ih (hmask.shift 1) (by omega) with ⟨hnone, hall⟩ | hsome
      · refine .inl ⟨hnone, fun i hi hi' => ?_⟩
        rcases Nat.eq_or_lt_of_le hi with rfl | hlt
        · exact fun hsub => hfits ((hmask.and_eq_iff hle).2 ((ico_subset_avail hle).1 hsub))
        · exact hall i hlt hi'
      · exact .inr hsome
    · exact .inl ⟨rfl, fun i hi hi' => absurd hi' (by omega)⟩

/-- The loop over the pages is that over the extents of one page. -/
theorem getPageLoop_eq (hmask : Masks rgbitT k 1) :
    getPageLoop pgnoFDP sph n (pgnoFDP + 1 + k) rgbitT = getExtLoop pgnoFDP sph 1 n
      (pgnoFDP + 1 + k) rgbitT := by
  have hsingle := cpgSingleExtent_le sph
  induction n generalizing k rgbitT with
  | zero => rfl
  | succ n ih =>
    rw [getPageLoop, getExtLoop]
    by_cases hroom : pgnoFDP + 1 + k + 1 ≤ pgnoFDP + cpgSingleExtent sph
    · have hbit : rgbitT &&& sph.rgbitAvail ≠ 0 ↔ rgbitT &&& sph.rgbitAvail = rgbitT := by
        rw [hmask.and_ne_zero_iff (by omega), hmask.and_eq_iff (by omega)]
        exact ⟨fun h j hj hj' => by rwa [show j = k by omega], fun h => h k le_rfl k.lt_succ_self⟩
      rw [if_pos hroom, if_pos (by omega), show pgnoFDP + 1 + k + 1 =
        pgnoFDP + 1 + (k + 1) by omega,
        ih (hmask.shift 1)]
      exact if_congr hbit rfl rfl
    · rw [if_neg hroom, if_neg (by omega)]

end

/-! ## The calls -/

section
variable {pgnoFDP cpg : Nat} {sph : SPACE_HEADER}

/-- Whether a request of `cpg` pages can be met. -/
def HasRun (pgnoFDP : Nat) (sph : SPACE_HEADER) (cpg : Nat) : Prop :=
  ∃ pgnoFirst, Set.Ico pgnoFirst (pgnoFirst + cpg) ⊆ avail pgnoFDP sph

/-- A request is refused when no run of pages is available, and else takes one. -/
theorem getExtLoop_avail (hinside : avail pgnoFDP sph ⊆ single pgnoFDP sph) (hpos : 0 < cpg)
    (hle : cpg ≤ 32) :
    (getExtLoop pgnoFDP sph cpg (cpgSingleExtent sph) (pgnoFDP + 1) (rgbitMask cpg) = none ∧
      ¬ HasRun pgnoFDP sph cpg) ∨
    ∃ pgnoFirst rgbit, getExtLoop pgnoFDP sph cpg (cpgSingleExtent sph) (pgnoFDP + 1)
        (rgbitMask cpg) =
        some (pgnoFirst, rgbit) ∧ Set.Ico pgnoFirst (pgnoFirst + cpg) ⊆ avail pgnoFDP sph ∧
      avail pgnoFDP { sph with rgbitAvail := sph.rgbitAvail ^^^ rgbit } =
        avail pgnoFDP sph \ Set.Ico pgnoFirst (pgnoFirst + cpg) := by
  have hsingle := cpgSingleExtent_le sph
  rcases @getExtLoop_spec pgnoFDP cpg 0 (cpgSingleExtent sph) sph _ hpos (masks_rgbitMask hpos hle)
    (by omega) with
    ⟨hnone, hall⟩ | ⟨i, rgbit, hsome, hroom, hmask, hsub⟩
  · refine .inl ⟨hnone, ?_⟩
    rintro ⟨pgnoFirst, hsub⟩
    -- the run lies in the single extent, where each place was tried
    have hfirst := hinside (hsub ⟨le_rfl, by omega⟩)
    have hlast := hinside (hsub (show pgnoFirst + cpg - 1 ∈ _ from ⟨by omega, by omega⟩))
    have hgt := hfirst.1
    have hend := hlast.2
    refine hall (pgnoFirst - pgnoFDP - 1) (Nat.zero_le _) (by omega) ?_
    rwa [show pgnoFDP + 1 + (pgnoFirst - pgnoFDP - 1) = pgnoFirst by omega]
  · exact .inr ⟨_, rgbit, hsome, hsub, avail_xor hmask (by omega) hsub⟩

theorem errSPISmallGetExt_spec (hinside : avail pgnoFDP sph ⊆ single pgnoFDP sph) (hpos : 0 < cpg)
    (errSet : Option Int) :
    (errSPISmallGetExt pgnoFDP sph errSet cpg = .error .errSPNoSpaceForYou ∧
      ¬ HasRun pgnoFDP sph cpg) ∨
    ∃ pgnoFirst sph', Set.Ico pgnoFirst (pgnoFirst + cpg) ⊆ avail pgnoFDP sph ∧
      sph'.cpgPrimary = sph.cpgPrimary ∧
      avail pgnoFDP sph' = avail pgnoFDP sph \ Set.Ico pgnoFirst (pgnoFirst + cpg) ∧
      errSPISmallGetExt pgnoFDP sph errSet cpg =
        (errSetExternalHeader errSet sph').map fun sph => (sph, pgnoFirst, cpg) := by
  rw [errSPISmallGetExt]
  split_ifs with hle
  · rcases getExtLoop_avail hinside hpos hle with ⟨hnone, hrun⟩ |
      ⟨pgnoFirst, rgbit, hsome, hsub, havail⟩
    · rw [hnone]
      exact .inl ⟨rfl, hrun⟩
    · rw [hsome]
      refine .inr ⟨pgnoFirst, { sph with rgbitAvail := sph.rgbitAvail ^^^ rgbit }, hsub, rfl,
        havail, ?_⟩
      cases errSet <;> rfl
  · refine .inl ⟨rfl, ?_⟩
    rintro ⟨pgnoFirst, hsub⟩
    have hfirst := hinside (hsub ⟨le_rfl, by omega⟩)
    have hlast := hinside (hsub (show pgnoFirst + cpg - 1 ∈ _ from ⟨by omega, by omega⟩))
    have hgt := hfirst.1
    have hend := hlast.2
    have hsingle := cpgSingleExtent_le sph
    rw [cpgSmallSpaceAvailMost] at hle
    omega

theorem errSPISmallGetPage_spec (hinside : avail pgnoFDP sph ⊆ single pgnoFDP sph)
    (errSet : Option Int) :
    (errSPISmallGetPage pgnoFDP sph errSet = .error .errSPNoSpaceForYou ∧ ¬ HasRun pgnoFDP sph 1) ∨
    ∃ pgnoAlloc sph', Set.Ico pgnoAlloc (pgnoAlloc + 1) ⊆ avail pgnoFDP sph ∧
      sph'.cpgPrimary = sph.cpgPrimary ∧
      avail pgnoFDP sph' = avail pgnoFDP sph \ Set.Ico pgnoAlloc (pgnoAlloc + 1) ∧
      errSPISmallGetPage pgnoFDP sph errSet = (errSetExternalHeader errSet sph').map fun sph =>
        (sph, pgnoAlloc) := by
  have hloop : getPageLoop pgnoFDP sph (cpgSingleExtent sph) (pgnoFDP + 1) 1 =
      getExtLoop pgnoFDP sph 1 (cpgSingleExtent sph) (pgnoFDP + 1) (rgbitMask 1) :=
    @getPageLoop_eq pgnoFDP 0 (cpgSingleExtent sph) sph _ (masks_rgbitMask Nat.one_pos (by decide))
  rw [errSPISmallGetPage, hloop]
  rcases getExtLoop_avail hinside Nat.one_pos (by decide) with ⟨hnone, hrun⟩ |
    ⟨pgnoAlloc, rgbit, hsome, hsub, havail⟩
  · rw [hnone]
    exact .inl ⟨rfl, hrun⟩
  · rw [hsome]
    refine .inr ⟨pgnoAlloc, { sph with rgbitAvail := sph.rgbitAvail ^^^ rgbit }, hsub, rfl, havail,
      ?_⟩
    cases errSet <;> rfl

/-- A range of the single extent is freed with its own mask. -/
theorem errSPISmallFreeExt_spec {pgnoFirst cpgSize : Nat} (hpos : 0 < cpgSize)
    (hsub : Set.Ico pgnoFirst (pgnoFirst + cpgSize) ⊆ single pgnoFDP sph) (errSet : Option Int) :
    ∃ sph', sph'.cpgPrimary = sph.cpgPrimary ∧
      avail pgnoFDP sph' = avail pgnoFDP sph ∪ Set.Ico pgnoFirst (pgnoFirst + cpgSize) ∧
      errSPISmallFreeExt pgnoFDP sph errSet pgnoFirst cpgSize =
        errSetExternalHeader errSet sph' := by
  have hsingle := cpgSingleExtent_le sph
  have hgt := (hsub ⟨le_rfl, by omega⟩).1
  have hend := (hsub (show pgnoFirst + cpgSize - 1 ∈ _ from ⟨by omega, by omega⟩)).2
  have hmask := (masks_rgbitMask hpos (by omega)).shift (pgnoFirst - pgnoFDP - 1)
  have havail := @avail_or pgnoFDP cpgSize _ sph _ hmask (by omega)
  rw [show pgnoFDP + 1 + (0 + (pgnoFirst - pgnoFDP - 1)) = pgnoFirst by omega] at havail
  exact ⟨{ sph with
    rgbitAvail := sph.rgbitAvail ||| rgbitMask cpgSize <<< (pgnoFirst - pgnoFDP - 1) },
    rfl, havail, rfl⟩

end

/-! ## Runs -/

namespace Small

variable {s s' t : Small} {c : Call}

/-- The available pages are in the single extent, and none of them is handed out. -/
structure Inv (s : Small) : Prop where
  inside : s.avail ⊆ single s.pgnoFDP s.sph
  disjoint : Disjoint s.held s.avail

/-- Pages are taken: they were available, and they are handed out. -/
structure Takes (s s' : Small) (pgnoFirst cpg : Nat) : Prop where
  avail : Set.Ico pgnoFirst (pgnoFirst + cpg) ⊆ s.avail
  inside : Set.Ico pgnoFirst (pgnoFirst + cpg) ⊆ single s.pgnoFDP s.sph
  held : Disjoint (Set.Ico pgnoFirst (pgnoFirst + cpg)) s.held
  avail_eq : s'.avail = s.avail \ Set.Ico pgnoFirst (pgnoFirst + cpg)
  held_eq : s'.held = s.held ∪ Set.Ico pgnoFirst (pgnoFirst + cpg)

/-- What a call does. -/
def Exact (s s' : Small) : Call → Prop
  | .getExt _ cpgMin => ∃ pgnoFirst, errSPISmallGetExt s.pgnoFDP s.sph none cpgMin =
      .ok (s'.sph, pgnoFirst, cpgMin) ∧
      s.Takes s' pgnoFirst cpgMin
  | .getPage _ => ∃ pgnoAlloc, errSPISmallGetPage s.pgnoFDP s.sph none = .ok (s'.sph, pgnoAlloc) ∧
      s.Takes s' pgnoAlloc 1
  | .freeExt _ pgnoFirst cpgSize => s'.avail = s.avail ∪ Set.Ico pgnoFirst (pgnoFirst + cpgSize) ∧
      s'.held = s.held \ Set.Ico pgnoFirst (pgnoFirst + cpgSize)

/-- The number of pages that a call requests. -/
def cpgRequest : Call → Option Nat
  | .getExt _ cpgMin => some cpgMin
  | .getPage _ => some 1
  | .freeExt .. => none

theorem ok_ne_error {ε α : Type*} {a : α} {err : ε} : Except.ok a ≠ Except.error err := fun h => by
  cases h

/-- What taking pages keeps. -/
theorem Takes.inv {pgnoFirst cpg : Nat} (h : s.Takes s' pgnoFirst cpg) (hinv : s.Inv)
    (hpgno : s'.pgnoFDP = s.pgnoFDP)
    (hprimary : s'.sph.cpgPrimary = s.sph.cpgPrimary) : s'.Inv := by
  have hsingle : single s'.pgnoFDP s'.sph = single s.pgnoFDP s.sph := by
    rw [single, single, cpgSingleExtent, cpgSingleExtent, hpgno, hprimary]
  refine ⟨?_, ?_⟩
  · rw [h.avail_eq, hsingle]
    exact Set.sdiff_subset.trans hinv.inside
  · rw [h.avail_eq, h.held_eq, Set.disjoint_union_left]
    exact ⟨hinv.disjoint.mono_right Set.sdiff_subset, Set.disjoint_sdiff_right⟩

theorem takes_of_avail {pgnoFirst cpg : Nat} {sph : SPACE_HEADER} (hinv : s.Inv)
    (hsub : Set.Ico pgnoFirst (pgnoFirst + cpg) ⊆ s.avail)
    (havail : Space.avail s.pgnoFDP sph = s.avail \ Set.Ico pgnoFirst (pgnoFirst + cpg)) :
    s.Takes { s with sph := sph, held := s.held ∪ Set.Ico pgnoFirst (pgnoFirst + cpg) } pgnoFirst
      cpg :=
  ⟨hsub, hsub.trans hinv.inside, (hinv.disjoint.mono_right hsub).symm, havail, rfl⟩

/-- A call succeeds exactly, is refused because there is no run of the requested length, or fails
with the error of the write of the space header. -/
theorem call_cases (hinv : s.Inv) (hallowed : s.Allowed c) :
    (∃ s', s.call c = .ok s' ∧ s.Exact s' c ∧ s'.Inv ∧ ∀ cpg, cpgRequest c = some cpg →
      HasRun s.pgnoFDP s.sph cpg) ∨
    (s.call c = .error .errSPNoSpaceForYou ∧ ∃ cpg, cpgRequest c = some cpg ∧
      ¬ HasRun s.pgnoFDP s.sph cpg) ∨
    (∃ err, s.call c = .error (.io err) ∧ errSet c = some err ∧
      ∀ cpg, cpgRequest c = some cpg → HasRun s.pgnoFDP s.sph cpg) := by
  cases c with
  | getExt errSet cpgMin =>
    rw [call]
    rcases errSPISmallGetExt_spec hinv.inside hallowed errSet with ⟨hrefused, hrun⟩ |
      ⟨pgnoFirst, sph', hsub, hprimary, havail, heq⟩
    · rw [hrefused]
      exact .inr (.inl ⟨rfl, cpgMin, rfl, hrun⟩)
    · have hhas : ∀ cpg, cpgRequest (.getExt errSet cpgMin) = some cpg →
          HasRun s.pgnoFDP s.sph cpg := by
        intro cpg hcpg
        obtain rfl := Option.some.inj hcpg
        exact ⟨pgnoFirst, hsub⟩
      rw [heq]
      cases errSet with
      | none =>
        have htakes := takes_of_avail hinv hsub havail
        exact .inl ⟨_, rfl, ⟨pgnoFirst, heq, htakes⟩, htakes.inv hinv rfl hprimary, hhas⟩
      | some err => exact .inr (.inr ⟨err, rfl, rfl, hhas⟩)
  | getPage errSet =>
    rw [call]
    rcases errSPISmallGetPage_spec hinv.inside errSet with ⟨hrefused, hrun⟩ |
      ⟨pgnoAlloc, sph', hsub, hprimary, havail, heq⟩
    · rw [hrefused]
      exact .inr (.inl ⟨rfl, 1, rfl, hrun⟩)
    · have hhas : ∀ cpg, cpgRequest (.getPage errSet) = some cpg → HasRun s.pgnoFDP s.sph cpg := by
        intro cpg hcpg
        obtain rfl := Option.some.inj hcpg
        exact ⟨pgnoAlloc, hsub⟩
      rw [heq]
      cases errSet with
      | none =>
        have htakes := takes_of_avail hinv hsub havail
        exact .inl ⟨_, rfl, ⟨pgnoAlloc, heq, htakes⟩, htakes.inv hinv rfl hprimary, hhas⟩
      | some err => exact .inr (.inr ⟨err, rfl, rfl, hhas⟩)
  | freeExt errSet pgnoFirst cpgSize =>
    obtain ⟨hpos, hsub, -⟩ := hallowed
    have hhas : ∀ cpg, cpgRequest (.freeExt errSet pgnoFirst cpgSize) = some cpg →
      HasRun s.pgnoFDP s.sph cpg :=
      fun cpg hcpg => absurd hcpg.symm (Option.some_ne_none cpg)
    obtain ⟨sph', hprimary, havail, heq⟩ := errSPISmallFreeExt_spec hpos hsub errSet
    rw [call, heq]
    cases errSet with
    | none =>
      have hsingle : single s.pgnoFDP sph' = single s.pgnoFDP s.sph := by
        rw [single, single, cpgSingleExtent, cpgSingleExtent, hprimary]
      refine .inl ⟨_, rfl, ⟨havail, rfl⟩, ⟨?_, ?_⟩, hhas⟩
      · refine havail.le.trans ?_
        rw [hsingle]
        exact Set.union_subset hinv.inside hsub
      · refine Disjoint.mono_right havail.le ?_
        rw [Set.disjoint_union_right]
        exact ⟨hinv.disjoint.mono_left Set.sdiff_subset, Set.disjoint_sdiff_left⟩
    | some err => exact .inr (.inr ⟨err, rfl, rfl, hhas⟩)

/-- What a call keeps. -/
theorem Inv.step (hinv : s.Inv) (h : Step c s s') : s'.Inv := by
  obtain ⟨hallowed, hok | ⟨err, -, rfl⟩⟩ := h
  · rcases call_cases hinv hallowed with ⟨t, ht, -, hinv', -⟩ | ⟨herr, -⟩ | ⟨err, herr, -⟩
    · obtain rfl := Except.ok.inj (ht.symm.trans hok)
      exact hinv'
    · exact absurd (hok.symm.trans herr) ok_ne_error
    · exact absurd (hok.symm.trans herr) ok_ne_error
  · exact hinv

/-- In a run from a map whose bits lie in the primary extent, each call is exact: it takes pages of
the single extent that were available and that are not handed out, it frees exactly the pages that
it is given, and a request is refused if and only if there is no run of the requested length. No
other call fails, but for one whose write of the space header does. -/
theorem run_exact {pgnoFDP : Nat} {sph : SPACE_HEADER}
    (hinside : Space.avail pgnoFDP sph ⊆ single pgnoFDP sph) {rgcall : List Call}
    (hrun : Run Step ⟨pgnoFDP, sph, ∅⟩ rgcall s) :
    s.Inv ∧ ∀ c, s.Allowed c →
      (∀ s', s.call c = .ok s' → s.Exact s' c) ∧
      (∀ cpg, cpgRequest c = some cpg →
        (s.call c = .error .errSPNoSpaceForYou ↔ ¬ HasRun s.pgnoFDP s.sph cpg)) ∧
      (cpgRequest c = none → s.call c ≠ .error .errSPNoSpaceForYou) ∧
      ∀ err, s.call c = .error (.io err) → errSet c = some err := by
  have hinv : s.Inv :=
    hrun.invariant (I := Inv) (fun _ _ _ hinv h => hinv.step h) ⟨hinside, Set.empty_disjoint _⟩
  refine ⟨hinv, fun c hallowed => ?_⟩
  rcases call_cases hinv hallowed with ⟨t, ht, hexact, -, hhas⟩ | ⟨herr, cpg, hcpg, hnone⟩ |
    ⟨err, herr, hset, hhas⟩
  · rw [ht]
    refine ⟨fun s' hs' => ?_, fun cpg hcpg => iff_of_false ok_ne_error (not_not.2 (hhas cpg hcpg)),
      fun _ => ok_ne_error, fun err herr => absurd herr ok_ne_error⟩
    obtain rfl := Except.ok.inj hs'
    exact hexact
  · rw [herr]
    refine ⟨fun s' hs' => absurd hs'.symm ok_ne_error, fun cpg' hcpg' => iff_of_true rfl ?_,
      fun hnot => ?_, fun err h => ERR.noConfusion (Except.error.inj h)⟩
    · obtain rfl := Option.some.inj (hcpg.symm.trans hcpg')
      exact hnone
    · exact absurd (hnot.symm.trans hcpg).symm (Option.some_ne_none cpg)
  · rw [herr]
    refine ⟨fun s' hs' => absurd hs'.symm ok_ne_error,
      fun cpg hcpg => iff_of_false ?_ (not_not.2 (hhas cpg hcpg)), fun _ => ?_, fun err' h => ?_⟩
    · exact fun h => ERR.noConfusion (Except.error.inj h)
    · exact fun h => ERR.noConfusion (Except.error.inj h)
    · rw [hset, ERR.io.inj (Except.error.inj h)]

/-- A map of all 32 pages. -/
def full : SPACE_HEADER := ⟨33, BitVec.allOnes 32⟩

theorem avail_full : Space.avail 5 full ⊆ single 5 full := by
  rintro pgno ⟨k, hk, rfl, -⟩
  have hsingle : cpgSingleExtent full = 33 := rfl
  rw [single, hsingle]
  exact ⟨by omega, by omega⟩

/-- All pages are taken by one request, three are freed again, and the next page is the first of
them. -/
theorem run_exact_full : ∃ s, Run Step ⟨5, full, ∅⟩ [.getExt none 32, .freeExt none 10 3] s ∧
    s.sph.rgbitAvail = 0x70 ∧ (∀ err, s.call (.getPage none) ≠ .error (.io err)) ∧
    (s.call (.getPage none)).toOption.map (·.sph.rgbitAvail) = some 0x60 := by
  have hext : errSPISmallGetExt 5 full none 32 = .ok (⟨33, 0⟩, 6, 32) := by decide +kernel
  have hfree : errSPISmallFreeExt 5 ⟨33, 0⟩ none 10 3 = .ok ⟨33, 0x70⟩ := by decide +kernel
  have hpage : errSPISmallGetPage 5 ⟨33, 0x70⟩ none = .ok (⟨33, 0x60⟩, 10) := by decide +kernel
  set s₁ : Small := ⟨5, ⟨33, 0⟩, ∅ ∪ Set.Ico 6 (6 + 32)⟩
  set s₂ : Small := ⟨5, ⟨33, 0x70⟩, s₁.held \ Set.Ico 10 (10 + 3)⟩
  have hstep₁ : Step (.getExt none 32) ⟨5, full, ∅⟩ s₁ := by
    refine ⟨Nat.succ_pos 31, .inl ?_⟩
    rw [call, hext]
    rfl
  have hempty : s₁.avail = ∅ := by
    ext pgno
    refine ⟨?_, fun h => h.elim⟩
    rintro ⟨k, -, -, hbit⟩
    exact Bool.noConfusion (hbit.symm.trans BitVec.getLsbD_zero)
  have hstep₂ : Step (.freeExt none 10 3) s₁ s₂ := by
    refine ⟨⟨Nat.succ_pos 2, ?_, ?_⟩, .inl ?_⟩
    · have hsingle : cpgSingleExtent s₁.sph = 33 := rfl
      rintro pgno ⟨hge, hlt⟩
      rw [single, hsingle]
      exact ⟨Nat.lt_of_lt_of_le (by decide) hge, Nat.le_trans (Nat.le_of_lt hlt) (by decide)⟩
    · rw [hempty]
      exact Set.disjoint_empty _
    · rw [call, hfree]
      rfl
  have hrun : Run Step ⟨5, full, ∅⟩ [.getExt none 32, .freeExt none 10 3] s₂ :=
    ((Run.refl _).snoc hstep₁).snoc hstep₂
  have hexact := (run_exact avail_full hrun).2 (.getPage none) trivial
  refine ⟨s₂, hrun, rfl, fun err herr => ?_, ?_⟩
  · exact absurd (hexact.2.2.2 err herr).symm (Option.some_ne_none err)
  · rw [call, hpage]
    rfl

end Small

end Ese.Space
