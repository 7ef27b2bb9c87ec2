import Ese.Lib.Unsigned
import Ese.FlushMap.Basic

/-!
# The size of the flush map

The number of data pages that the flush map must have for a page of the database, and the number it
is given when it grows: the size of the database is estimated from its extension size at first and
by its double later on, the number is rounded to what one write takes, and it is kept within four
writes of what is required. All of it is arithmetic in `ULONG`.
-/

namespace Ese.FlushMap

open Unsigned

/-- The last page of a database. -/
def pgnoSysMax : Nat := 0x7fefffff

/-! ## Rounding, as the macros -/

/-- `roundupdiv`, in 32-bit arithmetic. -/
def roundupdiv (num den : Nat) : Unsigned Nat := do div (← sub 32 (← add 32 num den) 1) den

/-- `roundup`, in 32-bit arithmetic. -/
def roundup (val align : Nat) : Unsigned Nat := do mul 32 (← roundupdiv val align) align

/-- `rounddn`, in 32-bit arithmetic. -/
def rounddn (val align : Nat) : Unsigned Nat := do mul 32 (← div val align) align

/-! ## The counts -/

/-- What the counts depend on, within the limits of the parameters. -/
structure Sizing where
  m_fPersisted : Bool
  cpgDbExtension : Nat
  JET_paramMaxCoalesceWriteSize : Nat
  hcpgDbExtension : cpgDbExtension ≤ 2147483647
  hMaxCoalesceWriteSize : JET_paramMaxCoalesceWriteSize ≤ 10 * 1024 * 1024

/-- `CfmpgGetRequiredFmDataPageCount_`. -/
def cfmpgGetRequiredFmDataPageCount_ (pgnoReq : Nat) : Unsigned Nat := do
  roundupdiv (← add 32 pgnoReq 1) m_cDbPagesPerFlushMapPage

/-- The preferred count before it is limited. -/
def Sizing.cfmpgUnlimited (s : Sizing) (pgnoReq cfmpgRequired cfmpgWriteMax : Nat) :
    Unsigned Nat := do
  if s.m_fPersisted = false ∨ s.cpgDbExtension = 0 then
    return cfmpgRequired
  else
    let cpgActual ← add 32 pgnoReq 1
    let cpgEstimate ← mul 32 10 s.cpgDbExtension
    if cpgActual < cpgEstimate then
      -- the initial extensions
      let cfmpgPreferred ← cfmpgGetRequiredFmDataPageCount_ (← sub 32 cpgEstimate 1)
      if 2 ≤ cfmpgPreferred then
        roundup cfmpgRequired cfmpgWriteMax
      else
        return cfmpgPreferred
    else
      -- twice the current size of the database
      let cpgEstimate ← mul 32 2 cpgActual
      let cfmpgPreferred ← cfmpgGetRequiredFmDataPageCount_ (← sub 32 cpgEstimate 1)
      if cfmpgWriteMax ≤ cfmpgPreferred then
        return max (← rounddn cfmpgPreferred cfmpgWriteMax) cfmpgRequired
      else
        return cfmpgPreferred

/-- The limit of four writes over what is required. -/
def cfmpgLimited (cfmpgPreferred cfmpgRequired cfmpgWriteMax : Nat) : Unsigned Nat := do
  if cfmpgRequired < cfmpgPreferred then
    if (← mul 32 4 cfmpgWriteMax) < (← sub 32 cfmpgPreferred cfmpgRequired) then
      sub 32 (← add 32 cfmpgRequired (← mul 32 4 cfmpgWriteMax)) 1
    else
      return cfmpgPreferred
  else
    return cfmpgPreferred

/-- `CfmpgGetPreferredFmDataPageCount_`. -/
def Sizing.cfmpgGetPreferredFmDataPageCount_ (s : Sizing) (pgnoReq : Nat) : Unsigned Nat := do
  let cfmpgRequired ← cfmpgGetRequiredFmDataPageCount_ pgnoReq
  let cfmpgWriteMax ← roundupdiv s.JET_paramMaxCoalesceWriteSize s_cbFlushMapPageOnDisk
  let cfmpgPreferred ← s.cfmpgUnlimited pgnoReq cfmpgRequired cfmpgWriteMax
  let cfmpgPreferred ← cfmpgLimited cfmpgPreferred cfmpgRequired cfmpgWriteMax
  return min cfmpgPreferred (← cfmpgGetRequiredFmDataPageCount_ pgnoSysMax)

/-! ## The counts as natural numbers -/

/-- The data pages for `cpg` pages of the database. -/
def cfmpgOfCpg (cpg : Nat) : Nat := (cpg + 32512 - 1) / 32512

/-- The data pages that one write takes. -/
def Sizing.cfmpgWriteMax (s : Sizing) : Nat := (s.JET_paramMaxCoalesceWriteSize + 8192 - 1) / 8192

section
variable {num den val align cpg W : Nat}

/-- A quotient rounded up, where nothing wraps. -/
theorem exact_roundupdiv (hden : 0 < den) (h : num + den < 4294967296) :
    Exact (roundupdiv num den) ((num + den - 1) / den) :=
  (exact_add h).bind ((exact_sub h (by omega)).bind (exact_div hden))

/-- A number rounded up, where nothing wraps. -/
theorem exact_roundup (halign : 0 < align) (h : val + align < 4294967296) :
    Exact (roundup val align) ((val + align - 1) / align * align) := by
  refine (exact_roundupdiv halign h).bind (exact_mul ?_)
  have := Nat.div_mul_le_self (val + align - 1) align
  exact lt_of_le_of_lt this (by omega)

/-- A number rounded down never wraps. -/
theorem exact_rounddn (halign : 0 < align) (h : val < 4294967296) :
    Exact (rounddn val align) (val / align * align) :=
  (exact_div halign).bind (exact_mul (lt_of_le_of_lt (Nat.div_mul_le_self val align) h))

/-- The database pages of a flush map page, as a number. -/
theorem cDbPagesPerFlushMapPage_eq : m_cDbPagesPerFlushMapPage = 32512 := rfl

/-- The required pages, where nothing wraps. -/
theorem exact_required {pgno : Nat} (h : pgno + 1 + 32512 < 4294967296) :
    Exact (cfmpgGetRequiredFmDataPageCount_ pgno) (cfmpgOfCpg (pgno + 1)) := by
  rw [cfmpgGetRequiredFmDataPageCount_, cDbPagesPerFlushMapPage_eq]
  exact (exact_add (Nat.lt_of_le_of_lt (Nat.le_add_right _ _) h)).bind
    (exact_roundupdiv (Nat.succ_pos 32511) h)

/-- The count for the pages before `cpg`, of which there is one at least. -/
theorem exact_required_pred (hpos : 0 < cpg) (h : cpg + 32512 < 4294967296) {α : Type} {a : α}
    {f : Nat → Unsigned α}
    (hf : Exact (f (cfmpgOfCpg cpg)) a) :
    Exact (sub 32 cpg 1 >>= fun pgno => cfmpgGetRequiredFmDataPageCount_ pgno >>= f) a := by
  refine (exact_sub (show cpg < 4294967296 by omega) hpos).bind (Exact.bind ?_ hf)
  obtain ⟨pgno, rfl⟩ := Nat.exists_eq_succ_of_ne_zero hpos.ne'
  exact exact_required h

/-- The required pages of the last database page. -/
theorem value_required_pred (hpos : 0 < cpg) (h : cpg + 32512 < 4294967296) {α : Type}
    {f : Nat → Unsigned α} :
    (sub 32 cpg 1 >>= fun pgno => cfmpgGetRequiredFmDataPageCount_ pgno >>= f).value =
      (f (cfmpgOfCpg cpg)).value := by
  refine (exact_sub (show cpg < 4294967296 by omega) hpos).value_bind.trans ?_
  obtain ⟨pgno, rfl⟩ := Nat.exists_eq_succ_of_ne_zero hpos.ne'
  exact (exact_required h).value_bind

/-- The pages of the largest write never wrap. -/
theorem Sizing.exact_cfmpgWriteMax (s : Sizing) :
    Exact (roundupdiv s.JET_paramMaxCoalesceWriteSize s_cbFlushMapPageOnDisk) s.cfmpgWriteMax := by
  have := s.hMaxCoalesceWriteSize
  exact exact_roundupdiv (Nat.succ_pos 8191) (show _ + 8192 < 4294967296 by omega)

/-- The largest write is bounded by its setting. -/
theorem Sizing.cfmpgWriteMax_le (s : Sizing) : s.cfmpgWriteMax ≤ 1280 := by
  have := s.hMaxCoalesceWriteSize
  rw [Sizing.cfmpgWriteMax]
  omega

end

/-! ## The preferred count -/

/-- The preferred count for `cpg` pages of the database before it is limited. -/
def Sizing.unlimited (s : Sizing) (cpg : Nat) : Nat :=
  if s.m_fPersisted = false ∨ s.cpgDbExtension = 0 then cfmpgOfCpg cpg
  else if cpg < 10 * s.cpgDbExtension then
    if 2 ≤ cfmpgOfCpg (10 * s.cpgDbExtension) then
      (cfmpgOfCpg cpg + s.cfmpgWriteMax - 1) / s.cfmpgWriteMax * s.cfmpgWriteMax
    else cfmpgOfCpg (10 * s.cpgDbExtension)
  else if s.cfmpgWriteMax ≤ cfmpgOfCpg (2 * cpg) then
    max (cfmpgOfCpg (2 * cpg) / s.cfmpgWriteMax * s.cfmpgWriteMax) (cfmpgOfCpg cpg)
  else cfmpgOfCpg (2 * cpg)

/-- A count `v` within four writes of the required count `r`. -/
def limited (v r W : Nat) : Nat := if r < v ∧ 4 * W < v - r then r + 4 * W - 1 else v

/-- The preferred count for `cpg` pages of the database. -/
def Sizing.preferred (s : Sizing) (cpg : Nat) : Nat :=
  min (limited (s.unlimited cpg) (cfmpgOfCpg cpg) s.cfmpgWriteMax) (cfmpgOfCpg (pgnoSysMax + 1))

/-- Where the estimates fit 32 bits and the write size is not zero, or no estimate is made, nothing
wraps. -/
def Sizing.Computes (s : Sizing) : Prop :=
  s.m_fPersisted = false ∨ s.cpgDbExtension = 0 ∨
    (0 < s.cfmpgWriteMax ∧ 10 * s.cpgDbExtension + 32512 < 4294967296)

section
variable {s : Sizing} {cpg : Nat}

/-- The preferred pages before the limit, where nothing wraps. -/
theorem Sizing.exact_unlimited (h : s.Computes) {pgno : Nat} (hpgno : pgno ≤ pgnoSysMax) :
    Exact (s.cfmpgUnlimited pgno (cfmpgOfCpg (pgno + 1)) s.cfmpgWriteMax)
      (s.unlimited (pgno + 1)) := by
  have hW := s.cfmpgWriteMax_le
  have hsys : pgno + 1 ≤ 2146435072 := Nat.succ_le_succ hpgno
  have hreq : cfmpgOfCpg (pgno + 1) ≤ 66020 := by
    rw [cfmpgOfCpg]
    omega
  rw [Sizing.cfmpgUnlimited, Sizing.unlimited]
  rcases Decidable.em (s.m_fPersisted = false ∨ s.cpgDbExtension = 0) with hnone | hnone
  · rw [if_pos hnone, if_pos hnone]
    exact .pure _
  rw [if_neg hnone, if_neg hnone]
  rw [Sizing.Computes, ← or_assoc, or_iff_right hnone] at h
  obtain ⟨hpos, hext⟩ := h
  refine (exact_add (show pgno + 1 < 4294967296 by omega)).bind
    ((exact_mul (show 10 * s.cpgDbExtension < 4294967296 by omega)).bind ?_)
  split_ifs with hinit htwo hmax
  · refine exact_required_pred (by omega) (by omega) ?_
    rw [if_pos htwo]
    exact exact_roundup hpos (by omega)
  · refine exact_required_pred (by omega) (by omega) ?_
    rw [if_neg htwo]
    exact .pure _
  · refine (exact_mul (show 2 * (pgno + 1) < 4294967296 by omega)).bind
      (exact_required_pred (by omega) (by omega) ?_)
    rw [if_pos hmax]
    refine (exact_rounddn hpos ?_).bind (.pure _)
    rw [cfmpgOfCpg]
    omega
  · refine (exact_mul (show 2 * (pgno + 1) < 4294967296 by omega)).bind
      (exact_required_pred (by omega) (by omega) ?_)
    rw [if_neg hmax]
    exact .pure _

/-- More database pages require no fewer pages. -/
theorem cfmpgOfCpg_mono {cpg' : Nat} (h : cpg ≤ cpg') : cfmpgOfCpg cpg ≤ cfmpgOfCpg cpg' := by
  rw [cfmpgOfCpg, cfmpgOfCpg]
  omega

/-- Rounding up adds less than the unit. -/
theorem roundup_bounds {r W : Nat} (hW : 0 < W) : r ≤ (r + W - 1) / W * W ∧
    (r + W - 1) / W * W < r + W := by
  have hdiv := Nat.div_add_mod (r + W - 1) W
  have hmod := Nat.mod_lt (r + W - 1) hW
  rw [Nat.mul_comm] at hdiv
  constructor <;> omega

/-- Rounding down takes off less than the unit. -/
theorem rounddn_bounds {r W : Nat} (hW : 0 < W) : r / W * W ≤ r ∧ r < r / W * W + W := by
  have hdiv := Nat.div_add_mod r W
  have hmod := Nat.mod_lt r hW
  rw [Nat.mul_comm] at hdiv
  constructor <;> omega

/-- The count is at least the required one before it is limited, and not far above it. -/
theorem Sizing.unlimited_bounds (h : s.Computes) (hpos : 0 < cpg) :
    cfmpgOfCpg cpg ≤ s.unlimited cpg ∧ s.unlimited cpg ≤ 2 * cfmpgOfCpg cpg + 1280 := by
  have hW := s.cfmpgWriteMax_le
  rw [Sizing.unlimited]
  rcases Decidable.em (s.m_fPersisted = false ∨ s.cpgDbExtension = 0) with hnone | hnone
  · rw [if_pos hnone]
    omega
  rw [if_neg hnone]
  rw [Sizing.Computes, ← or_assoc, or_iff_right hnone] at h
  have hdouble : cfmpgOfCpg (2 * cpg) ≤ 2 * cfmpgOfCpg cpg := by
    rw [cfmpgOfCpg, cfmpgOfCpg]
    omega
  split_ifs with hinit htwo hmax
  · have := roundup_bounds (r := cfmpgOfCpg cpg) h.1
    omega
  · have := cfmpgOfCpg_mono hinit.le
    omega
  · have := rounddn_bounds (r := cfmpgOfCpg (2 * cpg)) h.1
    omega
  · have := cfmpgOfCpg_mono (show cpg ≤ 2 * cpg by omega)
    omega

/-- The limit, where nothing wraps. -/
theorem exact_limited {v r W : Nat} (hv : v < 4294967296) (hr : r + 4 * W < 4294967296)
    (hpos : 0 < r) :
    Exact (cfmpgLimited v r W) (limited v r W) := by
  rw [cfmpgLimited, limited]
  rcases Nat.lt_or_ge r v with hlt | hge
  · rw [if_pos hlt]
    refine (exact_mul (show 4 * W < 4294967296 by omega)).bind ((exact_sub hv hlt.le).bind ?_)
    rcases Nat.lt_or_ge (4 * W) (v - r) with hcap | hcap
    · rw [if_pos hcap, if_pos ⟨hlt, hcap⟩]
      exact (exact_mul (show 4 * W < 4294967296 by omega)).bind
        ((exact_add hr).bind (exact_sub hr (by omega)))
    · rw [if_neg hcap.not_gt, if_neg fun h => hcap.not_gt h.2]
      exact .pure _
  · rw [if_neg hge.not_gt, if_neg fun h => hge.not_gt h.1]
    exact .pure _

/-- Where nothing wraps the preferred count is the one in natural numbers. -/
theorem Sizing.exact_preferred (h : s.Computes) {pgno : Nat} (hpgno : pgno ≤ pgnoSysMax) :
    Exact (s.cfmpgGetPreferredFmDataPageCount_ pgno) (s.preferred (pgno + 1)) := by
  have hsys : pgno + 1 ≤ 2146435072 := Nat.succ_le_succ hpgno
  have hW := s.cfmpgWriteMax_le
  have hbounds := Sizing.unlimited_bounds h (show 0 < pgno + 1 from Nat.succ_pos pgno)
  have hreq : 0 < cfmpgOfCpg (pgno + 1) ∧ cfmpgOfCpg (pgno + 1) ≤ 66020 := by
    rw [cfmpgOfCpg]
    omega
  refine (exact_required (by omega)).bind
    (s.exact_cfmpgWriteMax.bind ((Sizing.exact_unlimited h hpgno).bind ?_))
  refine (exact_limited (by omega) (by omega) hreq.1).bind
    ((exact_required (by decide)).bind (.pure _))

/-! ## What the preferred count satisfies -/

/-- A count is limited to what is between the required count and four writes more. -/
theorem limited_bounds {v r W : Nat} (hv : r ≤ v) (hW : 0 < W ∨ v = r) :
    r ≤ limited v r W ∧ limited v r W ≤ r + 4 * W := by
  rw [limited]
  split_ifs with h <;> omega

/-- Within the limit nothing is cut. -/
theorem limited_of_le {v r W : Nat} (h : v ≤ r + 4 * W) : limited v r W = v := by
  rw [limited, if_neg]
  omega

/-- From a size on of which the double is ten writes, the limit is reached. -/
theorem limited_rounddn {W : Nat} (hW : 0 < W) (hcpg : (10 * W - 1) * 16256 < cpg) :
    W ≤ cfmpgOfCpg (2 * cpg) ∧
      limited (max (cfmpgOfCpg (2 * cpg) / W * W) (cfmpgOfCpg cpg)) (cfmpgOfCpg cpg) W =
        cfmpgOfCpg cpg + 4 * W - 1 := by
  have hdouble : 10 * W ≤ cfmpgOfCpg (2 * cpg) ∧ 2 * cfmpgOfCpg cpg ≤ cfmpgOfCpg (2 * cpg) + 1 ∧
      5 * W ≤ cfmpgOfCpg cpg := by
    rw [cfmpgOfCpg, cfmpgOfCpg]
    omega
  have hten : 10 * W ≤ cfmpgOfCpg (2 * cpg) / W * W :=
    Nat.mul_le_mul_right W ((Nat.le_div_iff_mul_le hW).2 hdouble.1)
  have hround := rounddn_bounds (r := cfmpgOfCpg (2 * cpg)) hW
  refine ⟨by omega, ?_⟩
  rw [limited, if_pos]
  omega

/-- The preferred count of a sizing whose estimates fit: the required count, the one rounded to
whole writes, or four writes more. -/
theorem Sizing.limited_cases (hW : 0 < s.cfmpgWriteMax)
    (hext : (10 * s.cfmpgWriteMax - 1) * 16256 < 10 * s.cpgDbExtension)
    (hsome : ¬ (s.m_fPersisted = false ∨ s.cpgDbExtension = 0))
    (cpg : Nat) :
    limited (s.unlimited cpg) (cfmpgOfCpg cpg) s.cfmpgWriteMax =
      if cpg < 10 * s.cpgDbExtension then
        if 2 ≤ cfmpgOfCpg (10 * s.cpgDbExtension) then
          (cfmpgOfCpg cpg + s.cfmpgWriteMax - 1) / s.cfmpgWriteMax * s.cfmpgWriteMax
        else cfmpgOfCpg (10 * s.cpgDbExtension)
      else cfmpgOfCpg cpg + 4 * s.cfmpgWriteMax - 1 := by
  rw [Sizing.unlimited, if_neg hsome]
  rcases Nat.lt_or_ge cpg (10 * s.cpgDbExtension) with hinit | hlate
  · rw [if_pos hinit, if_pos hinit]
    refine limited_of_le ?_
    split_ifs with htwo
    · have := roundup_bounds (r := cfmpgOfCpg cpg) hW
      omega
    · omega
  · obtain ⟨hmax, hlimit⟩ := limited_rounddn hW (Nat.lt_of_lt_of_le hext hlate)
    rw [if_neg hlate.not_gt, if_neg hlate.not_gt, if_pos hmax, hlimit]

/-- The limited count does not fall where the double size is past ten writes once the initial
extensions are. -/
theorem Sizing.limited_mono (hW : 0 < s.cfmpgWriteMax)
    (hext : (10 * s.cfmpgWriteMax - 1) * 16256 < 10 * s.cpgDbExtension)
    (hsome : ¬ (s.m_fPersisted = false ∨ s.cpgDbExtension = 0))
    {cpg' : Nat} (h : cpg ≤ cpg') :
    limited (s.unlimited cpg) (cfmpgOfCpg cpg) s.cfmpgWriteMax ≤
      limited (s.unlimited cpg') (cfmpgOfCpg cpg') s.cfmpgWriteMax := by
  have hreq := cfmpgOfCpg_mono h
  rw [limited_cases hW hext hsome, limited_cases hW hext hsome]
  rcases Nat.lt_or_ge cpg' (10 * s.cpgDbExtension) with hinit' | hlate'
  · rw [if_pos (Nat.lt_of_le_of_lt h hinit'), if_pos hinit']
    split_ifs with htwo
    · exact Nat.mul_le_mul_right _ (Nat.div_le_div_right (by omega))
    · exact le_rfl
  · rw [if_neg hlate'.not_gt]
    split_ifs with hinit htwo
    · have := roundup_bounds (r := cfmpgOfCpg cpg) hW
      omega
    · have := cfmpgOfCpg_mono hlate'
      omega
    · omega

end

/-! ## What is expected of the counts -/

/-- Nothing wraps, and the preferred count is at least the required one, at most the one required
for the last page, at most four writes above the required one and does not fall from a page to a
later one. -/
structure Sizing.Sized (s : Sizing) : Prop where
  bounds : ∀ pgno ≤ pgnoSysMax, ∃ cfmpgRequired cfmpgRequiredMax cfmpgPreferred,
    (cfmpgGetRequiredFmDataPageCount_ pgno).value = some cfmpgRequired ∧
    (cfmpgGetRequiredFmDataPageCount_ pgnoSysMax).value = some cfmpgRequiredMax ∧
    (s.cfmpgGetPreferredFmDataPageCount_ pgno).value = some cfmpgPreferred ∧
    cfmpgRequired ≤ cfmpgPreferred ∧ cfmpgPreferred ≤ cfmpgRequiredMax ∧
    cfmpgPreferred ≤ cfmpgRequired + 4 * s.cfmpgWriteMax
  mono : ∀ pgno pgno', pgno ≤ pgno' → pgno' ≤ pgnoSysMax → ∀ cfmpg cfmpg',
    (s.cfmpgGetPreferredFmDataPageCount_ pgno).value = some cfmpg →
    (s.cfmpgGetPreferredFmDataPageCount_ pgno').value = some cfmpg' → cfmpg ≤ cfmpg'

/-- No estimate is made; or the write size is not zero, the pages that ten writes cover twice are
within the initial extensions, and what ten extensions need fits 32 bits. -/
def Sizing.Fits (s : Sizing) : Prop :=
  s.m_fPersisted = false ∨ s.cpgDbExtension = 0 ∨
    (0 < s.cfmpgWriteMax ∧ (10 * s.cfmpgWriteMax - 1) * 16256 < 10 * s.cpgDbExtension ∧
      10 * s.cpgDbExtension + 32512 < 4294967296)

section
variable {s : Sizing}

/-- Settings that fit compute. -/
theorem Sizing.Fits.computes (h : s.Fits) : s.Computes := by
  obtain h | h | ⟨hW, -, hext⟩ := h
  · exact .inl h
  · exact .inr (.inl h)
  · exact .inr (.inr ⟨hW, hext⟩)

/-- Settings that fit size the map. -/
theorem Sizing.Fits.sized (h : s.Fits) : s.Sized := by
  constructor
  · intro pgno hpgno
    have hsys : pgno + 1 ≤ 2146435072 := Nat.succ_le_succ hpgno
    obtain ⟨hle, -⟩ := Sizing.unlimited_bounds h.computes (show 0 < pgno + 1 from Nat.succ_pos pgno)
    have hlimit : 0 < s.cfmpgWriteMax ∨ s.unlimited (pgno + 1) = cfmpgOfCpg (pgno + 1) := by
      rcases Decidable.em (s.m_fPersisted = false ∨ s.cpgDbExtension = 0) with hnone | hsome
      · right
        rw [Sizing.unlimited, if_pos hnone]
      · rw [Sizing.Fits, ← or_assoc, or_iff_right hsome] at h
        exact .inl h.1
    have hbounds := limited_bounds hle hlimit
    refine ⟨_, _, _, (exact_required (by omega)).value_eq, (exact_required (by decide)).value_eq,
      (Sizing.exact_preferred h.computes hpgno).value_eq, ?_, min_le_right _ _,
      (min_le_left _ _).trans hbounds.2⟩
    exact le_min hbounds.1 (cfmpgOfCpg_mono (Nat.succ_le_succ hpgno))
  · intro pgno pgno' hle hpgno' cfmpg cfmpg' hcfmpg hcfmpg'
    rw [(Sizing.exact_preferred h.computes (hle.trans hpgno')).value_eq] at hcfmpg
    rw [(Sizing.exact_preferred h.computes hpgno').value_eq] at hcfmpg'
    obtain rfl := Option.some.inj hcfmpg
    obtain rfl := Option.some.inj hcfmpg'
    refine min_le_min_right _ ?_
    rcases Decidable.em (s.m_fPersisted = false ∨ s.cpgDbExtension = 0) with hnone | hsome
    · have hreq (cpg : Nat) : limited (s.unlimited cpg) (cfmpgOfCpg cpg) s.cfmpgWriteMax =
          cfmpgOfCpg cpg := by
        rw [Sizing.unlimited, if_pos hnone]
        exact limited_of_le (Nat.le_add_right _ _)
      rw [hreq, hreq]
      exact cfmpgOfCpg_mono (Nat.succ_le_succ hle)
    · rw [Sizing.Fits, ← or_assoc, or_iff_right hsome] at h
      exact Sizing.limited_mono h.1 h.2.1 hsome (Nat.succ_le_succ hle)

/-! ## Where the counts fail -/

/-- A quotient rounded up does not forget a wrap. -/
theorem sticky_roundupdiv (num den : Nat) : Sticky (roundupdiv num den) :=
  sticky_wrapping.bind fun _ => sticky_wrapping.bind fun _ => sticky_div

/-- The required pages do not forget a wrap. -/
theorem sticky_required (pgno : Nat) : Sticky (cfmpgGetRequiredFmDataPageCount_ pgno) :=
  sticky_wrapping.bind fun _ => sticky_roundupdiv _ _

/-- What follows an estimate. -/
theorem sticky_estimate (cpgEstimate : Nat) {α : Type} {f : Nat → Unsigned α}
    (hf : ∀ cfmpg, Sticky (f cfmpg)) :
    Sticky (sub 32 cpgEstimate 1 >>= fun pgno => cfmpgGetRequiredFmDataPageCount_ pgno >>= f) :=
  sticky_wrapping.bind fun _ => (sticky_required _).bind hf

/-- The limit does not forget a wrap. -/
theorem sticky_limited (v r W : Nat) : Sticky (cfmpgLimited v r W) :=
  .ite (sticky_wrapping.bind fun _ => sticky_wrapping.bind fun _ =>
    .ite (sticky_wrapping.bind fun _ => sticky_wrapping.bind fun _ => sticky_wrapping) (.pure _))
      (.pure _)

/-- There is no preferred count where there is none before the limit. -/
theorem Sizing.value_preferred_none {pgno : Nat} (hpgno : pgno ≤ pgnoSysMax)
    (h : (s.cfmpgUnlimited pgno (cfmpgOfCpg (pgno + 1)) s.cfmpgWriteMax).value = none) :
    (s.cfmpgGetPreferredFmDataPageCount_ pgno).value = none := by
  have hsys : pgno + 1 ≤ 2146435072 := Nat.succ_le_succ hpgno
  refine (exact_required (by omega)).value_bind.trans (s.exact_cfmpgWriteMax.value_bind.trans ?_)
  exact value_bind_none h fun _ => (sticky_limited _ _ _).bind fun _ => (sticky_required _).bind
    fun _ => .pure _

/-- What ten extensions need does not fit 32 bits. -/
theorem Sizing.value_unlimited_wraps (hsome : ¬ (s.m_fPersisted = false ∨ s.cpgDbExtension = 0))
    (h : 4294967296 ≤ 10 * s.cpgDbExtension + 32512) (r W : Nat) : (s.cfmpgUnlimited 0 r W).value =
      none := by
  rw [Sizing.cfmpgUnlimited, if_neg hsome]
  refine (exact_add (show 0 + 1 < 4294967296 by decide)).value_bind.trans ?_
  rcases Nat.lt_or_ge (10 * s.cpgDbExtension) 4294967296 with hlt | hge
  · refine (exact_mul hlt).value_bind.trans ?_
    rw [if_pos (show 0 + 1 < 10 * s.cpgDbExtension by omega)]
    refine (exact_sub hlt (by omega)).value_bind.trans (value_bind_none ?_ fun _ => ?_)
    · refine (exact_add (by omega)).value_bind.trans ?_
      rw [cDbPagesPerFlushMapPage_eq]
      exact value_bind_none (value_wrapping (by omega)) fun _ => sticky_wrapping.bind fun _ =>
        sticky_div
    · exact .ite ((sticky_roundupdiv _ _).bind fun _ => sticky_wrapping) (.pure _)
  · refine value_bind_none (value_wrapping hge) fun _ => .ite (sticky_estimate _ fun _ => ?_)
      (sticky_wrapping.bind fun _ => sticky_estimate _ fun _ => ?_)
    · exact .ite ((sticky_roundupdiv _ _).bind fun _ => sticky_wrapping) (.pure _)
    · exact .ite ((sticky_div.bind fun _ => sticky_wrapping).bind fun _ => .pure _) (.pure _)

/-- With a write size of zero the size of the largest database is divided by zero. -/
theorem Sizing.value_unlimited_zero (hsome : ¬ (s.m_fPersisted = false ∨ s.cpgDbExtension = 0))
    (h : 10 * s.cpgDbExtension + 32512 < 4294967296) :
    (s.cfmpgUnlimited pgnoSysMax (cfmpgOfCpg (pgnoSysMax + 1)) 0).value = none := by
  rw [Sizing.cfmpgUnlimited, if_neg hsome]
  refine (exact_add (show pgnoSysMax + 1 < 4294967296 by decide)).value_bind.trans
    ((exact_mul (show 10 * s.cpgDbExtension < 4294967296 by omega)).value_bind.trans ?_)
  rcases Nat.lt_or_ge (pgnoSysMax + 1) (10 * s.cpgDbExtension) with hinit | hlate
  · have htwo : 2 ≤ cfmpgOfCpg (10 * s.cpgDbExtension) := by
      have hsys : 2146435072 < 10 * s.cpgDbExtension := hinit
      rw [cfmpgOfCpg]
      omega
    rw [if_pos hinit]
    refine (value_required_pred (by omega) h).trans ?_
    rw [if_pos htwo]
    refine value_bind_none ?_ fun _ => sticky_wrapping
    exact (exact_add (by decide)).value_bind.trans
      ((exact_sub (by decide) (by decide)).value_bind.trans value_div_zero)
  · rw [if_neg hlate.not_gt]
    refine (exact_mul (by decide)).value_bind.trans
      ((value_required_pred (by decide) (by decide)).trans ?_)
    rw [if_pos (Nat.zero_le _)]
    exact value_bind_none (value_bind_none value_div_zero fun _ => sticky_wrapping) fun _ => .pure _

/-- At the pages that ten writes cover twice, the count falls when the limit is reached. -/
theorem Sizing.limited_drop (hsome : ¬ (s.m_fPersisted = false ∨ s.cpgDbExtension = 0))
    (hW : 0 < s.cfmpgWriteMax)
    (hext : 10 * s.cpgDbExtension ≤ (10 * s.cfmpgWriteMax - 1) * 16256) :
    s.preferred ((10 * s.cfmpgWriteMax - 1) * 16256) = 9 * s.cfmpgWriteMax ∧
      s.preferred ((10 * s.cfmpgWriteMax - 1) * 16256 + 1) = 9 * s.cfmpgWriteMax - 1 := by
  have hWmax := s.cfmpgWriteMax_le
  have hsys : cfmpgOfCpg (pgnoSysMax + 1) = 66020 := rfl
  set W := s.cfmpgWriteMax with hWdef
  set cpg := (10 * W - 1) * 16256 with hcpg
  constructor
  · have hdouble : cfmpgOfCpg (2 * cpg) = 10 * W - 1 ∧ cfmpgOfCpg cpg = 5 * W := by
      rw [cfmpgOfCpg, cfmpgOfCpg]
      omega
    have hnine : (10 * W - 1) / W = 9 := (Nat.div_eq_iff hW).2 (by omega)
    have hunlimited : s.unlimited cpg = 9 * W := by
      rw [Sizing.unlimited, if_neg hsome, if_neg hext.not_gt, ← hWdef, hdouble.1, hdouble.2,
        if_pos (by omega), hnine]
      omega
    rw [Sizing.preferred, hunlimited, hdouble.2, hsys, limited_of_le (by omega)]
    omega
  · have hdouble : W ≤ cfmpgOfCpg (2 * (cpg + 1)) ∧ cfmpgOfCpg (cpg + 1) = 5 * W := by
      rw [cfmpgOfCpg, cfmpgOfCpg]
      omega
    rw [Sizing.preferred, Sizing.unlimited, if_neg hsome, if_neg (by omega), ← hWdef,
      if_pos hdouble.1,
      (limited_rounddn hW (Nat.lt_succ_self _)).2, hdouble.2, hsys]
    omega

/-- The estimates fit where the count is as it should be: of the others one wraps, one divides by
zero, and one makes the count fall. -/
theorem Sizing.Sized.fits (h : s.Sized) : s.Fits := by
  rcases Decidable.em (s.m_fPersisted = false ∨ s.cpgDbExtension = 0) with hnone | hsome
  · rw [Sizing.Fits, ← or_assoc]
    exact .inl hnone
  refine .inr (.inr ?_)
  have hvalue (pgno : Nat) (hpgno : pgno ≤ pgnoSysMax)
      (hnone : (s.cfmpgUnlimited pgno (cfmpgOfCpg (pgno + 1)) s.cfmpgWriteMax).value = none) :
        False := by
    obtain ⟨_, _, _, -, -, hpreferred, -⟩ := h.bounds pgno hpgno
    rw [Sizing.value_preferred_none hpgno hnone] at hpreferred
    cases hpreferred
  have hext : 10 * s.cpgDbExtension + 32512 < 4294967296 := by
    by_contra hge
    exact hvalue 0 (Nat.zero_le _) (Sizing.value_unlimited_wraps hsome (by omega) _ _)
  have hW : 0 < s.cfmpgWriteMax := by
    by_contra hzero
    refine hvalue pgnoSysMax le_rfl ?_
    rw [Nat.eq_zero_of_not_pos hzero]
    exact Sizing.value_unlimited_zero hsome hext
  refine ⟨hW, ?_, hext⟩
  by_contra hlate
  have hcomputes : s.Computes := .inr (.inr ⟨hW, hext⟩)
  have hWmax := s.cfmpgWriteMax_le
  obtain ⟨hnine, hdrop⟩ := Sizing.limited_drop hsome hW (Nat.not_lt.1 hlate)
  have hsys : (10 * s.cfmpgWriteMax - 1) * 16256 ≤ pgnoSysMax := by
    rw [pgnoSysMax]
    omega
  have hpos : (10 * s.cfmpgWriteMax - 1) * 16256 - 1 + 1 = (10 * s.cfmpgWriteMax - 1) * 16256 := by
    omega
  have hmono := h.mono ((10 * s.cfmpgWriteMax - 1) * 16256 - 1) _ (Nat.sub_le _ _) hsys _ _
    (Sizing.exact_preferred hcomputes ((Nat.sub_le _ _).trans hsys)).value_eq
    (Sizing.exact_preferred hcomputes hsys).value_eq
  rw [hpos, hnine, hdrop] at hmono
  omega

end

/-- The preferred count is as it should be, for every page, exactly where no estimate is made or the
estimates fit. -/
theorem Sizing.sized_iff (s : Sizing) : s.Sized ↔ s.Fits := ⟨Sizing.Sized.fits, Sizing.Fits.sized⟩

/-- A client with extensions of 256 pages and writes of 48 map pages: at page 7786624 the count
falls from 432 to 431. -/
theorem Sizing.sized_falls : ¬ Sizing.Sized ⟨true, 256, 393216, by decide, by decide⟩ := by
  intro h
  have hfits := h.fits
  simp [Sizing.Fits, Sizing.cfmpgWriteMax] at hfits

end Ese.FlushMap
