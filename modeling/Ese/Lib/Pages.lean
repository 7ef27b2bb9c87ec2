import Mathlib.Algebra.Order.Ring.Nat
import Mathlib.Tactic.Ring

/-!
# Pages of memory

The operating system commits and decommits memory by pages of one size. A range of bytes is
committed with every page that has one of them, and decommitted so too. `rounddn` and `roundup` are
the page boundaries around a byte.
-/

namespace Ese.Pages

section
variable (cbPage : Nat)

/-- The start of the page that the offset is on. -/
def rounddn (ib : Nat) : Nat := ib / cbPage * cbPage

/-- The first page boundary at the offset or after it. -/
def roundup (ib : Nat) : Nat := (ib + cbPage - 1) / cbPage * cbPage

/-- A page has a byte of the range. -/
def Touches (page ib cb : Nat) : Prop := 0 < cb ∧ page * cbPage < ib + cb ∧
    ib < page * cbPage + cbPage

instance (page ib cb : Nat) : Decidable (Touches cbPage page ib cb) :=
  inferInstanceAs (Decidable (_ ∧ _))

/-- The committed pages after a commit. -/
def commit (pages : Nat → Bool) (ib cb : Nat) : Nat → Bool := fun page =>
  pages page || decide (Touches cbPage page ib cb)

/-- The committed pages after a decommit. -/
def decommit (pages : Nat → Bool) (ib cb : Nat) : Nat → Bool := fun page =>
  pages page && !decide (Touches cbPage page ib cb)

/-- The page of the byte is committed. -/
def Committed (pages : Nat → Bool) (ib : Nat) : Prop := pages (ib / cbPage) = true

instance (pages : Nat → Bool) (ib : Nat) : Decidable (Committed cbPage pages ib) :=
  inferInstanceAs (Decidable (_ = true))

end

section
variable {cbPage ib cb a b x y : Nat} {pages : Nat → Bool}

/-! ## Boundaries -/

/-- Rounding down does not exceed the offset. -/
theorem rounddn_le (cbPage ib : Nat) : rounddn cbPage ib ≤ ib := Nat.div_mul_le_self ib cbPage

/-- An offset is less than a page past its rounding down. -/
theorem lt_rounddn_add (h : 0 < cbPage) (ib : Nat) : ib < rounddn cbPage ib + cbPage :=
  Nat.lt_div_mul_add h

/-- Rounding down gives a page boundary. -/
theorem dvd_rounddn (cbPage ib : Nat) : cbPage ∣ rounddn cbPage ib := Dvd.intro_left _ rfl

/-- Rounding up gives a page boundary. -/
theorem dvd_roundup (cbPage ib : Nat) : cbPage ∣ roundup cbPage ib := Dvd.intro_left _ rfl

/-- Rounding up is rounding down from the last byte of a page further. -/
theorem roundup_eq (cbPage ib : Nat) : roundup cbPage ib = rounddn cbPage (ib + cbPage - 1) := rfl

/-- Rounding up is not below the offset. -/
theorem le_roundup (h : 0 < cbPage) (ib : Nat) : ib ≤ roundup cbPage ib := by
  have hlt := lt_rounddn_add h (ib + cbPage - 1)
  rw [← roundup_eq] at hlt
  omega

/-- Rounding up is less than a page past the offset. -/
theorem roundup_lt (h : 0 < cbPage) (ib : Nat) : roundup cbPage ib < ib + cbPage := by
  have hle := rounddn_le cbPage (ib + cbPage - 1)
  rw [← roundup_eq] at hle
  omega

/-- One page boundary below another is a page below. -/
theorem add_le_of_lt (ha : cbPage ∣ a) (hb : cbPage ∣ b) (h : a < b) : a + cbPage ≤ b := by
  obtain ⟨i, rfl⟩ := ha
  obtain ⟨j, rfl⟩ := hb
  have hij : i + 1 ≤ j := Nat.lt_of_mul_lt_mul_left h
  calc cbPage * i + cbPage = cbPage * (i + 1) := by ring
    _ ≤ cbPage * j := Nat.mul_le_mul_left _ hij

/-- A page boundary below the offset is below its rounding down. -/
theorem le_rounddn (h : 0 < cbPage) (ha : cbPage ∣ a) (hle : a ≤ ib) : a ≤ rounddn cbPage ib := by
  by_contra hlt
  have hadd := add_le_of_lt (dvd_rounddn cbPage ib) ha (Nat.lt_of_not_le hlt)
  have hib := lt_rounddn_add h ib
  omega

/-- A page boundary above the offset is above its rounding up. -/
theorem roundup_le (h : 0 < cbPage) (ha : cbPage ∣ a) (hle : ib ≤ a) : roundup cbPage ib ≤ a := by
  by_contra hlt
  have hadd := add_le_of_lt ha (dvd_roundup cbPage ib) (Nat.lt_of_not_le hlt)
  have hib := roundup_lt h ib
  omega

/-- A page boundary rounds up to itself. -/
theorem roundup_of_dvd (h : 0 < cbPage) (ha : cbPage ∣ a) : roundup cbPage a = a :=
  le_antisymm (roundup_le h ha le_rfl) (le_roundup h a)

/-- A page boundary rounds down to itself. -/
theorem rounddn_of_dvd (ha : cbPage ∣ a) : rounddn cbPage a = a := Nat.div_mul_cancel ha

/-! ## Committed bytes -/

/-- Two bytes of one page. -/
theorem committed_congr (h : x / cbPage = y / cbPage) (hx : Committed cbPage pages x) :
    Committed cbPage pages y := by
  unfold Committed at hx ⊢
  rwa [← h]

/-- Two bytes behind one page boundary and before the next are in one page. -/
theorem div_eq_div (ha : cbPage ∣ a) (hx : a ≤ x) (hx' : x < a + cbPage) (hy : a ≤ y)
    (hy' : y < a + cbPage) : x / cbPage = y / cbPage := by
  obtain ⟨k, rfl⟩ := ha
  have hdiv : ∀ z, cbPage * k ≤ z → z < cbPage * k + cbPage → z / cbPage = k := fun z hz hz' => by
    refine Nat.div_eq_of_lt_le ?_ ?_
    · rwa [Nat.mul_comm]
    · rwa [Nat.succ_mul, Nat.mul_comm]
  rw [hdiv x hx hx', hdiv y hy hy']

/-- A byte that is not at a boundary is in the page of the one before. -/
theorem pred_div (h : 0 < cbPage) (hx : ¬ cbPage ∣ x) : (x - 1) / cbPage = x / cbPage := by
  have hdn := rounddn_le cbPage x
  have hdn' := lt_rounddn_add h x
  have hne : rounddn cbPage x ≠ x := fun heq => by
    rw [← heq] at hx
    exact hx (dvd_rounddn cbPage x)
  exact div_eq_div (dvd_rounddn cbPage x) (by omega) (by omega) hdn hdn'

/-- A byte before the next boundary. -/
theorem div_eq_of_lt_roundup (h : 0 < cbPage) (hle : x ≤ y) (hlt : y < roundup cbPage x) :
    y / cbPage = x / cbPage := by
  have hdn := rounddn_le cbPage x
  have hdn' := lt_rounddn_add h x
  have hup := roundup_le h (Nat.dvd_add (dvd_rounddn cbPage x) (dvd_refl cbPage)) hdn'.le
  exact div_eq_div (dvd_rounddn cbPage x) (by omega) (by omega) hdn hdn'

/-- The interval touches the page of the byte `x` iff `x` lies in the interval rounded out. -/
theorem touches_iff (h : 0 < cbPage) :
    Touches cbPage (x / cbPage) ib cb ↔ 0 < cb ∧ rounddn cbPage ib ≤ x ∧
      x < roundup cbPage (ib + cb) := by
  have hx := lt_rounddn_add h x
  have hx' := rounddn_le cbPage x
  have hib := lt_rounddn_add h ib
  have hib' := rounddn_le cbPage ib
  have hend := le_roundup h (ib + cb)
  unfold Touches
  rw [← rounddn]
  refine and_congr_right fun _ => ⟨fun ⟨h1, h2⟩ => ⟨?_, ?_⟩, fun ⟨h1, h2⟩ => ⟨?_, ?_⟩⟩
  · by_contra hlt
    have hadd := add_le_of_lt (dvd_rounddn cbPage x) (dvd_rounddn cbPage ib) (by omega)
    omega
  · have hadd := add_le_of_lt (dvd_rounddn cbPage x) (dvd_roundup cbPage (ib + cb)) (by omega)
    omega
  · by_contra hge
    have hle := roundup_le h (dvd_rounddn cbPage x) (Nat.le_of_not_lt hge)
    omega
  · have hle := le_rounddn h (dvd_rounddn cbPage ib) h1
    omega

/-- A commit of an interval adds the bytes of the interval rounded out. -/
theorem committed_commit (h : 0 < cbPage) :
    Committed cbPage (commit cbPage pages ib cb) x ↔
      Committed cbPage pages x ∨
        (0 < cb ∧ rounddn cbPage ib ≤ x ∧ x < roundup cbPage (ib + cb)) := by
  unfold Committed commit
  rw [Bool.or_eq_true, decide_eq_true_eq, touches_iff h]

end

end Ese.Pages
