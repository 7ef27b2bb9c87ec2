import Mathlib.Data.BitVec
import Mathlib.Data.Nat.Log
import Ese.Lib.Circle

/-!
# Bucket IDs of the approximate index

`CApproximateIndex` keeps its entries in buckets. A bucket ID is made of the bits of a key between
the uncertainty and the precision of the index and of a hash of the pointer of the entry; the IDs
stand on a circle, and the buckets in use are within a range of less than half of it. The
differences of IDs are the ones of 32-bit integers that have the ID in their most significant bits.
A shift by the width of its operand, which the language does not define, is the one of the
processor, which takes the count modulo the width.
-/

namespace Ese

namespace CApproximateIndex

/-- The id of a bucket. -/
abbrev ID := BitVec 32

/-- The shifts as the processor does them. -/
def shl {w : Nat} (x : BitVec w) (n : Nat) : BitVec w := x <<< (n % w)

/-- The machine's shift to the right, which takes the count modulo the width. -/
def shr {w : Nat} (x : BitVec w) (n : Nat) : BitVec w := x >>> (n % w)

/-- A loop that counts the bits up to the first power of two from `d` on, and collects them. -/
def countBits {w : Nat} (d : BitVec w) : Nat → Nat → BitVec w → Nat × BitVec w
  | 0, shf, mask => (shf, mask)
  | fuel + 1, shf, mask =>
    if shl 1 shf < d ∧ shf < w then countBits d fuel (shf + 1) (mask ||| shl 1 shf) else (shf, mask)

end CApproximateIndex

/-- The parameters of an index with keys of `w` bits, which are a `DWORD` at least. `cbucketHashMin`
is what the tradeoff between speed and size takes of the number of processors, `cbEntry` the size of
an entry. -/
structure CApproximateIndex.Init (w : Nat) where
  dkeyPrecision : BitVec w
  dkeyUncertainty : BitVec w
  cbucketHashMin : BitVec 32
  cbEntry : Nat
  hw : 32 ≤ w
  hcbucketHashMin : cbucketHashMin.toNat ≤ 2 ^ 30
  hcbEntry : 0 < cbEntry ∧ cbEntry < 2 ^ 31

/-- The members of the index that its ids and its range use. -/
structure CApproximateIndex (w : Nat) where
  m_shfKeyPrecision : Nat
  m_shfKeyUncertainty : Nat
  m_shfBucketHash : Nat
  m_shfFillMSB : Nat
  m_maskBucketKey : BitVec 32
  m_maskBucketPtr : BitVec 32
  m_maskBucketID : BitVec 32
  m_didRangeMost : BitVec 32
  m_cidRange : Int
  m_idRangeFirst : BitVec 32
  m_idRangeLast : BitVec 32
  /-- The size of an entry. -/
  cbEntry : Nat

namespace CApproximateIndex

variable {w : Nat}

/-- `ErrInit` up to the bucket table: `none` for `errInvalidParameter`. -/
def errInit (init : Init w) : Option (CApproximateIndex w) :=
  if init.dkeyPrecision ≤ init.dkeyUncertainty then none
  else
    let (m_shfKeyPrecision, maskKey) := countBits init.dkeyPrecision w 0 0
    let (m_shfKeyUncertainty, _) := countBits init.dkeyUncertainty w 0 0
    let (m_shfBucketHash, m_maskBucketPtr) := countBits init.cbucketHashMin 32 0 0
    let m_maskBucketKey : BitVec 32 := (shr maskKey m_shfKeyUncertainty).setWidth 32
    let m_shfFillMSB :=
      (max ((32 : Int) - m_shfKeyPrecision + m_shfKeyUncertainty - m_shfBucketHash) 0).toNat
    let m_maskBucketID := shr (~~~(0 : BitVec 32)) m_shfFillMSB
    let (shfBucketHashMax, _) := countBits (64 : BitVec 32) 32 0 0
    let shfFillMSBMin :=
      max ((32 : Int) - m_shfKeyPrecision + m_shfKeyUncertainty - shfBucketHashMax) 0
    if shfFillMSBMin < 0 ∨ shfFillMSBMin > 32 - shfBucketHashMax then none
    else if m_shfKeyUncertainty < shfBucketHashMax then none
    else some {
      m_shfKeyPrecision
      m_shfKeyUncertainty
      m_shfBucketHash
      m_shfFillMSB
      m_maskBucketKey
      m_maskBucketPtr
      m_maskBucketID
      m_didRangeMost := m_maskBucketID >>> 1
      m_cidRange := 0
      m_idRangeFirst := 0
      m_idRangeLast := 0
      cbEntry := init.cbEntry }

variable (a : CApproximateIndex w)

/-! ## Keys and IDs -/

/-- `IdFromKeyPtr`. -/
def idFromKeyPtr (key : BitVec w) (pentry : BitVec 64) : ID :=
  let iBucketKey : ID := (shr key a.m_shfKeyUncertainty).setWidth 32
  let iBucketPtr : ID := BitVec.ofInt 32 (pentry.toInt.tdiv a.cbEntry)
  shl (iBucketKey &&& a.m_maskBucketKey) a.m_shfBucketHash + (iBucketPtr &&& a.m_maskBucketPtr)

/-- The id of the first bucket of a key: that of the null pointer. -/
def idFromKey (key : BitVec w) : ID := a.idFromKeyPtr key 0

/-- `KeyFromId`. -/
def keyFromId (id : ID) : BitVec w :=
  shl ((shr id a.m_shfBucketHash).setWidth w) a.m_shfKeyUncertainty

/-- `DeltaId`. -/
def deltaId (id : ID) (did : Int) : ID := (id + BitVec.ofInt 32 did) &&& a.m_maskBucketID

/-- The difference of two IDs in the most significant bits. -/
def lidSub (id1 id2 : ID) : BitVec 32 := shl id1 a.m_shfFillMSB - shl id2 a.m_shfFillMSB

/-- `SubId`. -/
def subId (id1 id2 : ID) : Int := ((a.lidSub id1 id2).sshiftRight (a.m_shfFillMSB % 32)).toInt

/-- `CmpId`. -/
def cmpId (id1 id2 : ID) : Int := (a.lidSub id1 id2).toInt

/-! ## The range -/

/-- `KeyInsertLeast`. -/
def keyInsertLeast : BitVec w :=
  let cBucketHash : ID := shl 1 a.m_shfBucketHash
  let idFirstLeast := a.m_idRangeLast - a.m_didRangeMost
  a.keyFromId (idFirstLeast + (cBucketHash - idFirstLeast % cBucketHash) % cBucketHash)

/-- `KeyInsertMost`. -/
def keyInsertMost : BitVec w :=
  let cBucketHash : ID := shl 1 a.m_shfBucketHash
  let idLastMost := a.m_idRangeFirst + a.m_didRangeMost
  a.keyFromId (idLastMost - (idLastMost + 1) % cBucketHash)

/-- `_FExpandIdRange`, which takes the id into the range or refuses it. -/
def fExpandIdRange (idNew : ID) : Bool × CApproximateIndex w :=
  let cidRange := a.m_cidRange
  let idFirst := a.m_idRangeFirst
  let idLast := a.m_idRangeLast
  let didRange := a.subId idLast idFirst
  if cidRange = 0 then
    (true, { a with m_cidRange := 1, m_idRangeFirst := idNew, m_idRangeLast := idNew })
  else
    let idFirstMic := a.deltaId idFirst (-(a.m_didRangeMost.toInt - didRange + 1))
    let idLastMax := a.deltaId idLast (a.m_didRangeMost.toInt - didRange + 1)
    if a.cmpId idFirstMic idNew ≠ 0 ∧ a.cmpId idLastMax idNew ≠ 0 ∧
        a.cmpId idFirst idNew ≤ 0 ∧ a.cmpId idNew idLast ≤ 0 then
      (true, { a with m_cidRange := cidRange + 1 })
    else if a.cmpId idFirst idNew ≠ 0 ∧ a.cmpId idLast idNew ≠ 0 ∧
        a.cmpId idLastMax idNew ≤ 0 ∧ a.cmpId idNew idFirstMic ≤ 0 then
      (false, a)
    else if a.cmpId idFirstMic idNew < 0 ∧ a.cmpId idNew idFirst < 0 then
      (true, { a with m_cidRange := cidRange + 1, m_idRangeFirst := idNew })
    else
      (true, { a with m_cidRange := cidRange + 1, m_idRangeLast := idNew })

/-! ## The circle of the IDs -/

/-- The number of bits of an ID. -/
def bits : Nat := 32 - a.m_shfFillMSB % 32

/-- The number of IDs on the circle. -/
def circle : Int := 2 ^ a.bits

/-- Half of the circle. -/
def half : Int := 2 ^ (a.bits - 1)

/-- The way from an ID to another. -/
def dist (id1 id2 : ID) : Int := Circle.dist a.circle id1.toNat id2.toNat

/-- The masks and the width of the range belong to the number of bits. -/
structure Masked : Prop where
  maskBucketID : a.m_maskBucketID.toNat = 2 ^ a.bits - 1
  didRangeMost : a.m_didRangeMost.toNat = 2 ^ (a.bits - 1) - 1

section
variable {a} {id1 id2 : ID}

/-- An id has a bit. -/
theorem bits_pos : 0 < a.bits := Nat.sub_pos_of_lt (Nat.mod_lt _ (by decide))

/-- An id has no more bits than its type. -/
theorem bits_le : a.bits ≤ 32 := Nat.sub_le _ _

/-- The bits of an id and those filled in are 32. -/
theorem bits_add_fill : a.bits + a.m_shfFillMSB % 32 = 32 :=
  Nat.sub_add_cancel (Nat.le_of_lt (Nat.mod_lt _ (by decide)))

/-- Half the circle is positive. -/
theorem half_pos : 0 < a.half := by
  rw [half]
  positivity

/-- The circle is twice its half. -/
theorem circle_eq : a.circle = 2 * a.half := by
  rw [circle, half, ← pow_succ', Nat.sub_add_cancel bits_pos]

/-- The circle is positive. -/
theorem circle_pos : 0 < a.circle := by
  have := half_pos (a := a)
  rw [circle_eq]
  omega

/-- The circle divides the range of the type. -/
theorem circle_dvd : a.circle ∣ 4294967296 := by
  rw [circle, show (4294967296 : Int) = 2 ^ 32 by norm_num]
  exact pow_dvd_pow 2 bits_le

/-- The number of an ID is known up to the circle from its difference to another. -/
theorem toNat_sub_emod : ((id1 - id2).toNat : Int) % a.circle = a.dist id2 id1 := by
  have h2 := id2.isLt
  have hsub : ((id1 - id2).toNat : Int) = ((id1.toNat : Int) - id2.toNat + 4294967296) %
    4294967296 := by
    rw [BitVec.toNat_sub]
    omega
  obtain ⟨c, hc⟩ := circle_dvd (a := a)
  rw [hsub, Int.emod_emod_of_dvd _ circle_dvd, hc, Int.add_mul_emod_self_left]
  rfl

/-- A difference of ids is on the circle, in the high bits. -/
theorem toNat_lidSub : (a.lidSub id1 id2).toNat = (id1 - id2).toNat % 2 ^ a.bits * 2 ^
    (a.m_shfFillMSB % 32) := by
  have hfill : 2 ^ (a.m_shfFillMSB % 32) < 2 ^ 32 :=
    Nat.pow_lt_pow_right (by decide) (Nat.mod_lt _ (by decide))
  rw [lidSub, shl, shl, BitVec.shiftLeft_eq_mul_twoPow, BitVec.shiftLeft_eq_mul_twoPow, ← sub_mul,
    BitVec.toNat_mul,
    BitVec.toNat_twoPow, Nat.mod_eq_of_lt hfill, ← Nat.mul_mod_mul_right, ← pow_add, bits_add_fill]

/-- A distance is not negative. -/
theorem dist_nonneg (id1 id2 : ID) : 0 ≤ a.dist id1 id2 := Circle.dist_nonneg circle_pos _ _

/-- A distance is less than the circle. -/
theorem dist_lt (id1 id2 : ID) : a.dist id1 id2 < a.circle := Circle.dist_lt circle_pos _ _

/-- The difference in the most significant bits as a number. -/
theorem toNat_lidSub_eq :
    ((a.lidSub id1 id2).toNat : Int) = a.dist id2 id1 * 2 ^ (a.m_shfFillMSB % 32) := by
  rw [toNat_lidSub, ← toNat_sub_emod]
  push_cast
  rfl

/-- Half the circle, in the high bits, is the sign bit. -/
theorem pow_fill_mul_half : (2 : Int) ^ (a.m_shfFillMSB % 32) * a.half = 2147483648 := by
  rw [half, ← pow_add, show a.m_shfFillMSB % 32 + (a.bits - 1) = 31 by
    have := bits_add_fill (a := a)
    have := bits_pos (a := a)
    omega]
  norm_num

/-- The difference is negative where its most significant bit is set. -/
theorem lidSub_lt_iff : (a.lidSub id1 id2).toNat < 2147483648 ↔ a.dist id2 id1 < a.half := by
  have hpow : (0 : Int) < 2 ^ (a.m_shfFillMSB % 32) := by positivity
  rw [← Int.ofNat_lt, toNat_lidSub_eq, Int.mul_comm]
  show _ < (2147483648 : Int) ↔ _
  rw [← pow_fill_mul_half (a := a)]
  exact Int.mul_lt_mul_left hpow

/-- An id is below another that is up to half the circle ahead. -/
theorem cmpId_neg_iff : a.cmpId id1 id2 < 0 ↔ a.half ≤ a.dist id2 id1 := by
  have hlt : (a.lidSub id1 id2).toNat < 2147483648 ↔ a.dist id2 id1 < a.half := lidSub_lt_iff
  have hmax := (a.lidSub id1 id2).isLt
  rw [cmpId, BitVec.toInt_eq_toNat_cond, ← Int.not_lt, ← hlt]
  split_ifs <;> omega

/-- Ids compare equal at no distance. -/
theorem cmpId_eq_zero_iff : a.cmpId id1 id2 = 0 ↔ a.dist id2 id1 = 0 := by
  have hpow : (2 : Int) ^ (a.m_shfFillMSB % 32) ≠ 0 := by positivity
  have hzero : (a.lidSub id1 id2).toNat = 0 ↔ a.dist id2 id1 = 0 := by
    rw [← Int.natCast_eq_zero, toNat_lidSub_eq, Int.mul_eq_zero, or_iff_left hpow]
  have hmax := (a.lidSub id1 id2).isLt
  rw [cmpId, BitVec.toInt_eq_toNat_cond, ← hzero]
  split_ifs <;> omega

/-- A difference of less than half of the circle. -/
theorem subId_eq (h : a.dist id2 id1 < a.half) : a.subId id1 id2 = a.dist id2 id1 := by
  have hlt := lidSub_lt_iff.2 h
  have hpow : (2 : Int) ^ (a.m_shfFillMSB % 32) ≠ 0 := by positivity
  rw [subId, BitVec.toInt_sshiftRight, BitVec.toInt_eq_toNat_cond, if_pos (by omega),
    toNat_lidSub_eq,
    Int.shiftRight_eq_div_pow]
  push_cast
  exact Int.mul_ediv_cancel _ hpow

/-- An id moved along the circle. -/
theorem toNat_deltaId (h : a.Masked) (did : Int) :
    ((a.deltaId id1 did).toNat : Int) = (id1.toNat + did) % a.circle := by
  rw [deltaId, BitVec.toNat_and, h.maskBucketID, Nat.and_two_pow_sub_one_eq_mod, BitVec.toNat_add,
    BitVec.toNat_ofInt]
  have hdid : ((did % ((2 ^ 32 : Nat) : Int)).toNat : Int) = did % 4294967296 :=
    Int.toNat_of_nonneg (Int.emod_nonneg _ (by decide))
  rw [← Int.emod_emod_of_dvd (id1.toNat + did) (circle_dvd (a := a)), Int.natCast_mod,
    Int.natCast_mod, Int.natCast_add,
    hdid]
  show ((id1.toNat : Int) + did % 4294967296) % 4294967296 % a.circle = _
  rw [Int.add_emod_emod]

/-- A move adds to the distance. -/
theorem dist_deltaId (h : a.Masked) (did : Int) :
    a.dist id1 (a.deltaId id2 did) = (a.dist id1 id2 + did) % a.circle := by
  have hdelta : ((a.deltaId id2 did).toNat : Int) % a.circle = (id2.toNat + did) % a.circle := by
    rw [toNat_deltaId h, Int.emod_emod]
  rw [dist, Circle.dist_congr rfl hdelta, dist, Circle.dist, Circle.dist, Int.emod_add_emod]
  congr 1
  omega

/-- The way between two IDs by the ways to them from the first ID of the range. -/
theorem dist_sub (id id1 id2 : ID) : a.dist id1 id2 = if a.dist id id1 ≤ a.dist id id2
    then a.dist id id2 - a.dist id id1
    else a.dist id id2 - a.dist id id1 + a.circle := Circle.dist_sub circle_pos _ _ _

/-- An id is at no distance from itself. -/
theorem dist_self (id : ID) : a.dist id id = 0 := Circle.dist_self _

/-- The widest range is one less than half the circle. -/
theorem toInt_didRangeMost (h : a.Masked) : a.m_didRangeMost.toInt = a.half - 1 := by
  have hle : 2 ^ (a.bits - 1) ≤ 2 ^ 31 :=
    Nat.pow_le_pow_right (by decide) (Nat.sub_le_sub_right (bits_le (a := a)) 1)
  have hpos : 0 < 2 ^ (a.bits - 1) := Nat.two_pow_pos _
  rw [BitVec.toInt_eq_toNat_cond, if_pos (by rw [h.didRangeMost]; omega), h.didRangeMost, half,
    Nat.cast_sub hpos]
  push_cast
  rfl

/-! ### Comparisons by the ways from the first ID of the range -/

/-- The comparison of ids by their distances from a third. -/
theorem cmpId_neg_iff_dist (id : ID) : a.cmpId id1 id2 < 0 ↔
    a.dist id id2 + a.half ≤ a.dist id id1 ∨ a.dist id id1 < a.dist id id2 ∧
      a.dist id id2 ≤ a.dist id id1 + a.half := by
  have hcircle := circle_eq (a := a)
  have hhalf := half_pos (a := a)
  rw [cmpId_neg_iff, dist_sub id]
  split_ifs <;> omega

/-- The equality of ids by their distances from a third. -/
theorem cmpId_eq_zero_iff_dist (id : ID) : a.cmpId id1 id2 = 0 ↔ a.dist id id1 = a.dist id id2 := by
  have h1 := dist_nonneg (a := a) id id1
  have h2 := dist_lt (a := a) id id2
  rw [cmpId_eq_zero_iff, dist_sub id]
  split_ifs <;> omega

/-- The comparison of ids by their distances from a third. -/
theorem cmpId_nonpos_iff_dist (id : ID) : a.cmpId id1 id2 ≤ 0 ↔
    a.dist id id2 + a.half ≤ a.dist id id1 ∨ a.dist id id1 ≤ a.dist id id2 ∧
      a.dist id id2 ≤ a.dist id id1 + a.half := by
  have hhalf := half_pos (a := a)
  rw [Int.le_iff_lt_or_eq, cmpId_neg_iff_dist id, cmpId_eq_zero_iff_dist id]
  omega

/-! ## The extension of the range -/

/-- The range is empty or less than half of the circle. -/
def Ranged (a : CApproximateIndex w) : Prop :=
  a.m_cidRange ≠ 0 → a.dist a.m_idRangeFirst a.m_idRangeLast < a.half

/-- The cases of `_FExpandIdRange` by the way from the first ID of the range to the new one. -/
theorem fExpandIdRange_eq (h : a.Masked) (hranged : a.Ranged) (hcid : a.m_cidRange ≠ 0)
    (idNew : ID) :
    a.fExpandIdRange idNew =
      if a.dist a.m_idRangeFirst idNew ≤ a.dist a.m_idRangeFirst a.m_idRangeLast then
        (true, { a with m_cidRange := a.m_cidRange + 1 })
      else if a.dist a.m_idRangeFirst idNew < a.half then
        (true, { a with m_cidRange := a.m_cidRange + 1, m_idRangeLast := idNew })
      else if a.dist a.m_idRangeFirst idNew ≤ a.half + a.dist a.m_idRangeFirst a.m_idRangeLast
        then (false, a)
      else (true, { a with m_cidRange := a.m_cidRange + 1, m_idRangeFirst := idNew }) := by
  have hd := hranged hcid
  have hcircle := circle_eq (a := a)
  have hhalf := half_pos (a := a)
  have hnew := dist_nonneg (a := a) a.m_idRangeFirst idNew
  have hnew' := dist_lt (a := a) a.m_idRangeFirst idNew
  have hlast := dist_nonneg (a := a) a.m_idRangeFirst a.m_idRangeLast
  have hfirst := dist_self (a := a) a.m_idRangeFirst
  simp only [fExpandIdRange, if_neg hcid, subId_eq hd, toInt_didRangeMost h]
  -- the points before and behind what the range can be extended to
  set d := a.dist a.m_idRangeFirst a.m_idRangeLast with hdef
  have hmic : a.dist a.m_idRangeFirst (a.deltaId a.m_idRangeFirst (-(a.half - 1 - d + 1))) =
    a.half + d := by
    rw [dist_deltaId h, hfirst, Circle.emod_eq (by omega) (by omega), if_pos (by omega)]
    omega
  have hmax : a.dist a.m_idRangeFirst (a.deltaId a.m_idRangeLast (a.half - 1 - d + 1)) =
    a.half := by
    rw [dist_deltaId h, ← hdef, Circle.emod_eq (by omega) (by omega), if_neg (by omega),
      if_pos (by omega)]
    omega
  generalize a.deltaId a.m_idRangeFirst (-(a.half - 1 - d + 1)) = idFirstMic at hmic ⊢
  generalize a.deltaId a.m_idRangeLast (a.half - 1 - d + 1) = idLastMax at hmax ⊢
  simp only [ne_eq, cmpId_neg_iff_dist a.m_idRangeFirst, cmpId_eq_zero_iff_dist a.m_idRangeFirst,
    cmpId_nonpos_iff_dist a.m_idRangeFirst, hmic, hmax, hfirst, ← hdef]
  rcases le_or_gt (a.dist a.m_idRangeFirst idNew) d with hin | hout
  · rw [if_pos hin, if_pos (by omega)]
  rw [if_neg (by omega), if_neg (by omega : ¬ a.dist a.m_idRangeFirst idNew ≤ d)]
  rcases lt_or_ge (a.dist a.m_idRangeFirst idNew) a.half with hbehind | hfar
  · rw [if_pos hbehind, if_neg (by omega), if_neg (by omega)]
  rw [if_neg (by omega : ¬ a.dist a.m_idRangeFirst idNew < a.half)]
  rcases le_or_gt (a.dist a.m_idRangeFirst idNew) (a.half + d) with hnot | hbefore
  · rw [if_pos hnot, if_pos (by omega)]
  · rw [if_neg (by omega), if_pos (by omega), if_neg (by omega)]

/-- The arc of width `did` from `id` on contains the range and the new ID, and is not too wide. -/
def Extends (a : CApproximateIndex w) (idNew : ID) (id did : Int) : Prop :=
  Circle.Extends a.circle a.m_didRangeMost.toInt a.m_idRangeFirst.toNat
    (a.dist a.m_idRangeFirst a.m_idRangeLast)
    idNew.toNat id did

/-- The range of `a'` extends the one of `a` to the new ID, and is contained in every range that
does. -/
def Least (a : CApproximateIndex w) (idNew : ID) (a' : CApproximateIndex w) : Prop :=
  a.Extends idNew a'.m_idRangeFirst.toNat (a.dist a'.m_idRangeFirst a'.m_idRangeLast) ∧
    ∀ id did, a.Extends idNew id did →
      ∀ y, Circle.OnArc a.circle a'.m_idRangeFirst.toNat (a.dist a'.m_idRangeFirst a'.m_idRangeLast)
        y →
        Circle.OnArc a.circle id did y

/-- A new ID is accepted where the range can be extended to it; the new range is the least one, and
a range that cannot be extended stays as it is. -/
theorem fExpandIdRange_spec (h : a.Masked) (hranged : a.Ranged) (hcid : a.m_cidRange ≠ 0)
    (idNew : ID) :
    ((a.fExpandIdRange idNew).1 = true ↔ ∃ id did, a.Extends idNew id did) ∧
      ((a.fExpandIdRange idNew).1 = true → a.Least idNew (a.fExpandIdRange idNew).2) ∧
      ((a.fExpandIdRange idNew).1 = false → (a.fExpandIdRange idNew).2 = a) := by
  have hd := hranged hcid
  have hcircle := circle_eq (a := a)
  have hhalf := half_pos (a := a)
  have hnew := dist_nonneg (a := a) a.m_idRangeFirst idNew
  have hlast := dist_nonneg (a := a) a.m_idRangeFirst a.m_idRangeLast
  have hmost := toInt_didRangeMost h
  have hN : 2 * a.m_didRangeMost.toInt < a.circle := by omega
  have hiff : (∃ id did, a.Extends idNew id did) ↔
      a.dist a.m_idRangeFirst idNew ≤ a.half - 1 ∨
        a.dist idNew a.m_idRangeFirst + a.dist a.m_idRangeFirst a.m_idRangeLast ≤ a.half - 1 := by
    rw [← hmost]
    exact Circle.exists_extends_iff hN hlast (by omega)
  rw [fExpandIdRange_eq h hranged hcid, hiff]
  -- the way back to the first ID
  have hback := dist_sub (a := a) a.m_idRangeFirst idNew a.m_idRangeFirst
  rw [dist_self] at hback
  have hend := dist_sub (a := a) a.m_idRangeFirst idNew a.m_idRangeLast
  split_ifs with hin hbehind hnot
  · refine ⟨iff_of_true rfl (.inl (by omega)), fun _ => ⟨⟨?_, hin, fun _ hy => hy⟩, ?_⟩, nofun⟩
    · show a.dist a.m_idRangeFirst a.m_idRangeLast ≤ a.m_didRangeMost.toInt
      omega
    · exact fun id did hext => hext.arc
  · refine ⟨iff_of_true rfl (.inl (by omega)), fun _ => ?_, nofun⟩
    exact Circle.extends_last hN hlast (by omega) (show a.dist a.m_idRangeFirst idNew ≤ _ by omega)
      (show _ ≤ a.dist a.m_idRangeFirst idNew by omega)
  · refine ⟨iff_of_false nofun ?_, nofun, fun _ => rfl⟩
    rw [if_neg (by omega)] at hback
    omega
  · rw [if_neg (by omega)] at hback
    rw [if_neg (by omega)] at hend
    have hwidth : a.dist idNew a.m_idRangeLast =
        a.dist idNew a.m_idRangeFirst + a.dist a.m_idRangeFirst a.m_idRangeLast := by omega
    refine ⟨iff_of_true rfl (.inr (by omega)), fun _ => ?_, nofun⟩
    show a.Extends idNew idNew.toNat (a.dist idNew a.m_idRangeLast) ∧
      ∀ id did, a.Extends idNew id did →
        ∀ y, Circle.OnArc a.circle idNew.toNat (a.dist idNew a.m_idRangeLast) y →
        Circle.OnArc a.circle id did y
    rw [hwidth]
    exact Circle.extends_first circle_pos hN hlast
      (show a.dist idNew a.m_idRangeFirst + _ ≤ _ by omega)

/-- A range stays less than half of the circle. -/
theorem Ranged.fExpandIdRange (h : a.Masked) (hranged : a.Ranged) (idNew : ID) :
    (a.fExpandIdRange idNew).2.Ranged := by
  rcases Decidable.em (a.m_cidRange = 0) with hcid | hcid
  · rw [CApproximateIndex.fExpandIdRange, if_pos hcid]
    intro _
    show a.dist idNew idNew < a.half
    rw [dist_self]
    exact half_pos
  · obtain ⟨-, hleast, hsame⟩ := fExpandIdRange_spec h hranged hcid idNew
    have hd := hranged hcid
    have hparams : (a.fExpandIdRange idNew).2.circle = a.circle ∧
      (a.fExpandIdRange idNew).2.half = a.half := by
      rw [fExpandIdRange_eq h hranged hcid]
      split_ifs <;> exact ⟨rfl, rfl⟩
    rcases hresult : (a.fExpandIdRange idNew).1 with _ | _
    · rw [hsame hresult]
      exact hranged
    · have hwidth := (hleast hresult).1.width
      rw [toInt_didRangeMost h] at hwidth
      intro _
      rw [dist, hparams.1, hparams.2]
      exact Int.lt_of_le_sub_one hwidth

end

/-! ## The parameters -/

/-- A shifted bit. -/
theorem toNat_shl_one {n : Nat} (h : n < w) : (shl (1 : BitVec w) n).toNat = 2 ^ n := by
  have hw : 1 < 2 ^ w := Nat.one_lt_two_pow (by omega)
  have hone : (1 : BitVec w).toNat = 1 := Nat.mod_eq_of_lt hw
  rw [shl, Nat.mod_eq_of_lt h, BitVec.toNat_shiftLeft, hone, Nat.shiftLeft_eq, Nat.one_mul,
    Nat.mod_eq_of_lt (Nat.pow_lt_pow_right (by decide) h)]

/-- A number of the type has its logarithm within the width. -/
theorem clog_le (d : BitVec w) : Nat.clog 2 d.toNat ≤ w := Nat.clog_le_of_le_pow d.isLt.le

/-- The loop counts the bits of the numbers below `d` and collects a mask of them. -/
theorem countBits_eq (d : BitVec w) (fuel : Nat) :
    ∀ shf (mask : BitVec w), shf + fuel = w → shf ≤ Nat.clog 2 d.toNat → mask.toNat = 2 ^ shf - 1 →
      (countBits d fuel shf mask).1 = Nat.clog 2 d.toNat ∧
        (countBits d fuel shf mask).2.toNat = 2 ^ Nat.clog 2 d.toNat - 1 := by
  induction fuel with
  | zero =>
    intro shf mask hfuel hle hmask
    have hend : shf = Nat.clog 2 d.toNat := hle.antisymm ((clog_le d).trans hfuel.ge)
    rw [← hend]
    exact ⟨rfl, hmask⟩
  | succ fuel ih =>
    intro shf mask hfuel hle hmask
    have hshf : shf < w := by omega
    have hiff : shl 1 shf < d ↔ shf < Nat.clog 2 d.toNat := by
      rw [BitVec.lt_def, toNat_shl_one hshf, Nat.lt_clog_iff_pow_lt Nat.one_lt_two]
    rw [countBits]
    rcases hle.lt_or_eq with hmore | hend
    · rw [if_pos ⟨hiff.2 hmore, hshf⟩]
      refine ih (shf + 1) _ (by omega) hmore ?_
      -- the next bit is set in the mask
      have hpos : 0 < 2 ^ shf := Nat.two_pow_pos shf
      have hor := Nat.two_pow_add_eq_or_of_lt (show 2 ^ shf - 1 < 2 ^ shf by omega) 1
      rw [Nat.mul_one] at hor
      rw [BitVec.toNat_or, toNat_shl_one hshf, hmask, Nat.or_comm, ← hor, pow_succ]
      omega
    · rw [if_neg fun h => hend.not_lt (hiff.1 h.1), ← hend]
      exact ⟨rfl, hmask⟩

/-- The loop over the bits finds the logarithm and its mask. -/
theorem countBits_zero (d : BitVec w) : (countBits d w 0 0).1 = Nat.clog 2 d.toNat ∧
    (countBits d w 0 0).2.toNat = 2 ^ Nat.clog 2 d.toNat - 1 :=
  countBits_eq d w 0 0 (Nat.zero_add w) (Nat.zero_le _) rfl

/-- What the parameters of an index are. -/
structure Valid (a : CApproximateIndex w) : Prop where
  precision : a.m_shfKeyPrecision ≤ w
  uncertainty : a.m_shfKeyUncertainty ≤ a.m_shfKeyPrecision
  fill : a.m_shfFillMSB = 32 + a.m_shfKeyUncertainty - (a.m_shfKeyPrecision + a.m_shfBucketHash)
  maskBucketKey : a.m_maskBucketKey.toNat = 2 ^ min 32
    (a.m_shfKeyPrecision - a.m_shfKeyUncertainty % w) - 1
  maskBucketPtr : a.m_maskBucketPtr.toNat = 2 ^ a.m_shfBucketHash - 1
  masked : a.Masked

/-- A mask of `n` bits, shifted and cut. -/
theorem two_pow_sub_one_div (n k : Nat) : (2 ^ n - 1) / 2 ^ k = 2 ^ (n - k) - 1 := by
  refine Nat.eq_of_testBit_eq fun i => ?_
  rw [Nat.testBit_div_two_pow, Nat.testBit_two_pow_sub_one, Nat.testBit_two_pow_sub_one,
    decide_eq_decide]
  omega

/-- A mask cut to `k` bits. -/
theorem two_pow_sub_one_mod (n k : Nat) : (2 ^ n - 1) % 2 ^ k = 2 ^ min k n - 1 := by
  refine Nat.eq_of_testBit_eq fun i => ?_
  rw [Nat.testBit_mod_two_pow, Nat.testBit_two_pow_sub_one, Nat.testBit_two_pow_sub_one,
    ← Bool.decide_and,
    decide_eq_decide]
  omega

/-- A shift to the right divides. -/
theorem toNat_shr (x : BitVec w) (n : Nat) : (shr x n).toNat = x.toNat / 2 ^ (n % w) := by
  rw [shr, BitVec.toNat_ushiftRight, Nat.shiftRight_eq_div_pow]

/-- The bits to fill in are those that the ids leave. -/
theorem fill_eq (p u h : Nat) : (max ((32 : Int) - p + u - h) 0).toNat = 32 + u - (p + h) := by
  omega

/-- The mask of the ids. -/
theorem toNat_maskBucketID (n : Nat) :
    (shr (~~~(0 : BitVec 32)) n).toNat = 2 ^ (32 - n % 32) - 1 := by
  have hones : (~~~(0 : BitVec 32)).toNat = 2 ^ 32 - 1 := rfl
  rw [toNat_shr, hones, two_pow_sub_one_div]

/-- The parameters that `ErrInit` sets. -/
theorem errInit_valid {init : Init w} {a : CApproximateIndex w} (h : errInit init = some a) :
    a.Valid ∧ a.m_shfKeyPrecision = Nat.clog 2 init.dkeyPrecision.toNat ∧
      a.m_shfKeyUncertainty = Nat.clog 2 init.dkeyUncertainty.toNat ∧
      a.m_shfBucketHash = Nat.clog 2 init.cbucketHashMin.toNat ∧ a.cbEntry = init.cbEntry := by
  have hp := countBits_zero init.dkeyPrecision
  have hu := countBits_zero init.dkeyUncertainty
  have hh := countBits_zero init.cbucketHashMin
  have hmax : countBits (64 : BitVec 32) 32 0 0 = (6, 63) := rfl
  have hple := clog_le init.dkeyPrecision
  rw [errInit, hmax] at h
  generalize countBits init.dkeyPrecision w 0 0 = precision at h hp
  generalize countBits init.dkeyUncertainty w 0 0 = uncertainty at h hu
  generalize countBits init.cbucketHashMin 32 0 0 = hash at h hh
  obtain ⟨m_shfKeyPrecision, maskKey⟩ := precision
  obtain ⟨m_shfKeyUncertainty, _⟩ := uncertainty
  obtain ⟨m_shfBucketHash, m_maskBucketPtr⟩ := hash
  obtain ⟨rfl, hmaskKey⟩ := hp
  obtain ⟨rfl, -⟩ := hu
  obtain ⟨rfl, hmaskPtr⟩ := hh
  simp only at h hmaskKey hmaskPtr
  split_ifs at h with hless hprecision huncertainty
  obtain rfl := Option.some.inj h
  refine ⟨⟨hple, ?_, ?_, ?_, hmaskPtr, ?_, ?_⟩, rfl, rfl, rfl, rfl⟩
  · show Nat.clog 2 init.dkeyUncertainty.toNat ≤ Nat.clog 2 init.dkeyPrecision.toNat
    omega
  · exact fill_eq _ _ _
  · show ((shr maskKey (Nat.clog 2 init.dkeyUncertainty.toNat)).setWidth 32).toNat = _
    rw [BitVec.toNat_setWidth, toNat_shr, hmaskKey, two_pow_sub_one_div, two_pow_sub_one_mod]
  · exact toNat_maskBucketID _
  · show (shr (~~~(0 : BitVec 32)) _ >>> 1).toNat = _
    rw [BitVec.toNat_ushiftRight, Nat.shiftRight_eq_div_pow, toNat_maskBucketID,
      two_pow_sub_one_div]
    rfl

/-! ## The IDs of a key -/

section
variable {a} {id : ID} {key : BitVec w} {pentry : BitVec 64}

/-- The hash of an entry pointer. -/
def ptrHash (a : CApproximateIndex w) (pentry : BitVec 64) : ID :=
  BitVec.ofInt 32 (pentry.toInt.tdiv a.cbEntry) &&& a.m_maskBucketPtr

/-- The null pointer hashes to 0. -/
theorem ptrHash_zero : a.ptrHash 0 = 0 := by
  show BitVec.ofInt 32 ((0 : Int).tdiv a.cbEntry) &&& a.m_maskBucketPtr = 0
  rw [Int.zero_tdiv]
  exact BitVec.zero_and

/-- The id of the first bucket of a key has the key's bits only. -/
theorem idFromKey_eq : a.idFromKey key =
    shl ((shr key a.m_shfKeyUncertainty).setWidth 32 &&& a.m_maskBucketKey) a.m_shfBucketHash := by
  show _ + a.ptrHash 0 = _
  rw [ptrHash_zero]
  exact BitVec.add_zero _

/-- The buckets of a key differ by the hash of the pointer. -/
theorem idFromKeyPtr_eq : a.idFromKeyPtr key pentry = a.idFromKey key + a.ptrHash pentry := by
  rw [idFromKey_eq]
  rfl

/-- The hash of a pointer has its bits. -/
theorem ptrHash_lt (h : a.Valid) (pentry : BitVec 64) :
    (a.ptrHash pentry).toNat < 2 ^ a.m_shfBucketHash := by
  rw [ptrHash, BitVec.toNat_and, h.maskBucketPtr, Nat.and_two_pow_sub_one_eq_mod]
  exact Nat.mod_lt _ (Nat.two_pow_pos _)

/-- A shift to the left multiplies on the type. -/
theorem toNat_shl (x : BitVec w) (n : Nat) : (shl x n).toNat = x.toNat * 2 ^ (n % w) % 2 ^ w := by
  rw [shl, BitVec.toNat_shiftLeft, Nat.shiftLeft_eq]

/-- The lower of two cuts decides. -/
theorem mod_pow_mod_pow {x m n : Nat} (h : n ≤ m) : x % 2 ^ m % 2 ^ n = x % 2 ^ n :=
  Nat.mod_mod_of_dvd x (pow_dvd_pow 2 h)

/-- A number that is shifted up and down again. -/
theorem mul_pow_mod_div {x n : Nat} (h : n ≤ w) : x * 2 ^ n % 2 ^ w / 2 ^ n = x % 2 ^ (w - n) := by
  rw [← Nat.sub_add_cancel h, pow_add, Nat.mul_mod_mul_right, Nat.sub_add_cancel h,
    Nat.mul_div_cancel _ (Nat.two_pow_pos n)]

/-- The key of an ID leads back to the first ID of its key. -/
theorem toNat_idFromKey_keyFromId (id : ID) (h : a.Valid) (hw : 0 < w) (hh : a.m_shfBucketHash < 32)
    (hbits : a.bits ≤ min 32 (a.m_shfKeyPrecision - a.m_shfKeyUncertainty % w) +
      a.m_shfBucketHash) :
    (a.idFromKey (a.keyFromId id)).toNat % 2 ^ a.bits =
      (id.toNat - id.toNat % 2 ^ a.m_shfBucketHash) % 2 ^ a.bits := by
  have hprecision := h.precision
  have hhash : a.m_shfBucketHash % 32 = a.m_shfBucketHash := Nat.mod_eq_of_lt hh
  have hu : a.m_shfKeyUncertainty % w < w := Nat.mod_lt _ hw
  set b := min 32 (a.m_shfKeyPrecision - a.m_shfKeyUncertainty % w) with hb
  -- the bits of the key that the ID has
  have hkey : ((shr (a.keyFromId id) a.m_shfKeyUncertainty).setWidth 32 &&& a.m_maskBucketKey).toNat
      = id.toNat / 2 ^ a.m_shfBucketHash % 2 ^ b := by
    rw [BitVec.toNat_and, h.maskBucketKey, Nat.and_two_pow_sub_one_eq_mod, BitVec.toNat_setWidth,
      toNat_shr, keyFromId,
      toNat_shl, BitVec.toNat_setWidth, toNat_shr, hhash, mul_pow_mod_div hu.le,
      mod_pow_mod_pow (Nat.sub_le _ _),
      mod_pow_mod_pow (by omega), mod_pow_mod_pow (by omega)]
  have hmul : id.toNat / 2 ^ a.m_shfBucketHash * 2 ^ a.m_shfBucketHash =
    id.toNat - id.toNat % 2 ^ a.m_shfBucketHash := by
    have := Nat.div_add_mod id.toNat (2 ^ a.m_shfBucketHash)
    rw [Nat.mul_comm] at this
    omega
  rw [idFromKey_eq, toNat_shl, hkey, hhash, mod_pow_mod_pow bits_le, ← Nat.mul_mod_mul_right,
    ← pow_add,
    mod_pow_mod_pow hbits, hmul]

/-- A sum adds to the distance. -/
theorem dist_add (x y z : ID) : a.dist x (y + z) = (a.dist x y + z.toNat) % a.circle := by
  have hsum : ((y + z).toNat : Int) % a.circle = ((y.toNat : Int) + z.toNat) % a.circle := by
    rw [BitVec.toNat_add, Int.natCast_mod, Int.natCast_add]
    exact Int.emod_emod_of_dvd _ circle_dvd
  rw [dist, Circle.dist_congr rfl hsum, dist, Circle.dist, Circle.dist, Int.emod_add_emod]
  congr 1
  omega

/-- A difference subtracts from the distance. -/
theorem dist_sub_toNat (x y z : ID) : a.dist x (y - z) = (a.dist x y - z.toNat) % a.circle := by
  have hy := dist_add (a := a) x (y - z) z
  rw [BitVec.sub_add_cancel] at hy
  rw [hy, Int.emod_sub_emod, Int.add_sub_cancel, Int.emod_eq_of_lt (dist_nonneg _ _) (dist_lt _ _)]

/-- A remainder may be taken again. -/
theorem emod_sub_add (a b c n : Int) : (a % n - b + c) % n = (a - b + c) % n := by
  have hsum (x : Int) : x - b + c = x + (c - b) := by omega
  rw [hsum, hsum, Int.emod_add_emod]

/-- The buckets of the key of an ID by the way to the ID. -/
theorem dist_idFromKeyPtr (h : a.Valid) (hw : 0 < w) (hh : a.m_shfBucketHash < 32)
    (hbits : a.bits ≤ min 32 (a.m_shfKeyPrecision - a.m_shfKeyUncertainty % w) + a.m_shfBucketHash)
    (hkey : a.idFromKey key = a.idFromKey (a.keyFromId id)) (pentry : BitVec 64) (x : ID) :
    a.dist x (a.idFromKeyPtr key pentry) =
      (a.dist x id - (id.toNat % 2 ^ a.m_shfBucketHash : Nat) + (a.ptrHash pentry).toNat) %
        a.circle := by
  have hfirst : ((a.idFromKey (a.keyFromId id)).toNat : Int) % a.circle =
      ((id.toNat : Int) - (id.toNat % 2 ^ a.m_shfBucketHash : Nat)) % a.circle := by
    have := congrArg (Nat.cast : Nat → Int) (toNat_idFromKey_keyFromId id h hw hh hbits)
    rw [Int.natCast_mod, Int.natCast_mod, Int.natCast_sub (Nat.mod_le _ _), Int.natCast_pow] at this
    exact this
  rw [idFromKeyPtr_eq, hkey, dist_add, dist, Circle.dist_congr rfl hfirst, dist, Circle.dist,
    Circle.dist,
    Int.emod_add_emod, emod_sub_add]
  congr 1
  omega

/-- A new ID is accepted up to half of the circle behind the first ID, and up to half of it before
the last one. -/
theorem fExpandIdRange_iff (h : a.Masked) (hranged : a.Ranged) (hcid : a.m_cidRange ≠ 0)
    (idNew : ID) :
    (a.fExpandIdRange idNew).1 = true ↔
      a.dist a.m_idRangeFirst idNew < a.half ∨
        a.half + a.dist a.m_idRangeFirst a.m_idRangeLast < a.dist a.m_idRangeFirst idNew := by
  have hd := hranged hcid
  rw [fExpandIdRange_eq h hranged hcid]
  split_ifs with hin hbehind hnot
  · exact iff_of_true rfl (.inl (by omega))
  · exact iff_of_true rfl (.inl hbehind)
  · exact iff_of_false nofun (by omega)
  · exact iff_of_true rfl (.inr (by omega))

/-! ## The keys that can be inserted -/

/-- The number of buckets of a key. -/
theorem toNat_cBucketHash (hh : a.m_shfBucketHash < 32) :
    (shl (1 : ID) a.m_shfBucketHash).toNat = 2 ^ a.m_shfBucketHash :=
  toNat_shl_one hh

/-- The number of buckets of a key divides the range of the type. -/
theorem pow_hash_dvd (hh : a.m_shfBucketHash < 32) : 2 ^ a.m_shfBucketHash ∣ 2 ^ 32 :=
  pow_dvd_pow 2 hh.le

/-- An ID rounded down to the last one of a key. -/
theorem round_last (hh : a.m_shfBucketHash < 32) (id : ID) :
    ((id + 1) % shl 1 a.m_shfBucketHash).toNat < 2 ^ a.m_shfBucketHash ∧
      (id - (id + 1) % shl 1 a.m_shfBucketHash).toNat % 2 ^ a.m_shfBucketHash =
        2 ^ a.m_shfBucketHash - 1 := by
  have hpos : 0 < 2 ^ a.m_shfBucketHash := Nat.two_pow_pos _
  have hrem : ((id + 1) % shl 1 a.m_shfBucketHash).toNat =
    (id.toNat + 1) % 2 ^ a.m_shfBucketHash := by
    rw [BitVec.toNat_umod, toNat_cBucketHash hh, BitVec.toNat_add, Nat.mod_mod_of_dvd _
      (pow_hash_dvd hh)]
    rfl
  have hlt := Nat.mod_lt (id.toNat + 1) hpos
  refine ⟨by rw [hrem]; exact hlt, ?_⟩
  have hdiv := Nat.div_add_mod (id.toNat + 1) (2 ^ a.m_shfBucketHash)
  obtain ⟨c, hc⟩ := pow_hash_dvd hh
  have hcpos : 0 < c := by
    rcases Nat.eq_zero_or_pos c with rfl | hcpos
    · rw [Nat.mul_zero] at hc
      exact absurd hc (by decide)
    · exact hcpos
  rw [BitVec.toNat_sub, hrem, Nat.mod_mod_of_dvd _ (pow_hash_dvd hh), hc]
  set m := 2 ^ a.m_shfBucketHash with hm
  set q := (id.toNat + 1) / m with hq
  obtain ⟨c, rfl⟩ := Nat.exists_eq_succ_of_ne_zero hcpos.ne'
  have hsum : m * (c + 1) - (id.toNat + 1) % m + id.toNat = m - 1 + m * (c + q) := by
    rw [Nat.mul_add, Nat.mul_add, Nat.mul_one]
    omega
  rw [Nat.succ_eq_add_one, hsum, Nat.add_mul_mod_self_left, Nat.mod_eq_of_lt (by omega)]

/-- An ID rounded up to the first one of a key. -/
theorem round_first (hh : a.m_shfBucketHash < 32) (id : ID) :
    ((shl 1 a.m_shfBucketHash - id % shl 1 a.m_shfBucketHash) % shl 1 a.m_shfBucketHash).toNat <
      2 ^ a.m_shfBucketHash ∧
      (id + (shl 1 a.m_shfBucketHash - id % shl 1 a.m_shfBucketHash) %
        shl 1 a.m_shfBucketHash).toNat
        % 2 ^ a.m_shfBucketHash = 0 := by
  have hpos : 0 < 2 ^ a.m_shfBucketHash := Nat.two_pow_pos _
  have hrem : ((shl 1 a.m_shfBucketHash - id % shl 1 a.m_shfBucketHash) %
      shl 1 a.m_shfBucketHash).toNat
      = (2 ^ a.m_shfBucketHash - id.toNat % 2 ^ a.m_shfBucketHash) % 2 ^ a.m_shfBucketHash := by
    have hlt := Nat.mod_lt id.toNat hpos
    have hpow : 2 ^ a.m_shfBucketHash < 2 ^ 32 := Nat.pow_lt_pow_right (by decide) hh
    rw [BitVec.toNat_umod, BitVec.toNat_sub, BitVec.toNat_umod, toNat_cBucketHash hh,
      Nat.mod_mod_of_dvd _ (pow_hash_dvd hh)]
    obtain ⟨c, hc⟩ := pow_hash_dvd hh
    rw [show 2 ^ 32 - id.toNat % 2 ^ a.m_shfBucketHash + 2 ^ a.m_shfBucketHash
      = 2 ^ a.m_shfBucketHash - id.toNat % 2 ^ a.m_shfBucketHash + 2 ^ 32 by
        omega, hc, Nat.add_mul_mod_self_left]
  refine ⟨by rw [hrem]; exact Nat.mod_lt _ hpos, ?_⟩
  rw [BitVec.toNat_add, hrem, Nat.mod_mod_of_dvd _ (pow_hash_dvd hh), Nat.add_mod_mod]
  have hdiv := Nat.div_add_mod id.toNat (2 ^ a.m_shfBucketHash)
  have hlt := Nat.mod_lt id.toNat hpos
  set m := 2 ^ a.m_shfBucketHash with hm
  have hsum : id.toNat + (m - id.toNat % m) = m * (id.toNat / m + 1) := by
    rw [Nat.mul_add, Nat.mul_one]
    omega
  rw [hsum, Nat.mul_mod_right]

/-- The ID of a key and an entry pointer. -/
def IsId (a : CApproximateIndex w) (id : ID) : Prop := ∃ key pentry, a.idFromKeyPtr key pentry = id

/-- Every key with the buckets of the greatest or of the least key can be inserted, for every entry
pointer. -/
structure Insertable (a : CApproximateIndex w) : Prop where
  most : ∀ key pentry, a.idFromKey key = a.idFromKey a.keyInsertMost →
    (a.fExpandIdRange (a.idFromKeyPtr key pentry)).1 = true
  least : ∀ key pentry, a.idFromKey key = a.idFromKey a.keyInsertLeast →
    (a.fExpandIdRange (a.idFromKeyPtr key pentry)).1 = true

/-- The conditions under which the key of an ID leads back to the first ID of its key. -/
structure Regular (a : CApproximateIndex w) : Prop extends a.Valid where
  width_pos : 0 < w
  hash_lt : a.m_shfBucketHash < 32
  bits_le : a.bits ≤ min 32 (a.m_shfKeyPrecision - a.m_shfKeyUncertainty % w) + a.m_shfBucketHash

/-- The widest range is one less than half the circle. -/
theorem toNat_didRangeMost (h : a.Masked) : (a.m_didRangeMost.toNat : Int) = a.half - 1 := by
  rw [h.didRangeMost, half, Nat.cast_sub (Nat.two_pow_pos _)]
  push_cast
  rfl

/-- What `KeyInsertMost` rounds away. -/
def roundMost (a : CApproximateIndex w) : Nat :=
  ((a.m_idRangeFirst + a.m_didRangeMost + 1) % shl 1 a.m_shfBucketHash).toNat

/-- The buckets of the greatest key by the way from the first ID of the range. -/
theorem dist_keyInsertMost (h : a.Regular) (hkey : a.idFromKey key = a.idFromKey a.keyInsertMost)
    (pentry : BitVec 64) :
    a.dist a.m_idRangeFirst (a.idFromKeyPtr key pentry) =
      (a.half - 1 - a.roundMost - (2 ^ a.m_shfBucketHash - 1 : Nat) + (a.ptrHash pentry).toNat) %
        a.circle := by
  obtain ⟨-, hround⟩ := round_last h.hash_lt (a.m_idRangeFirst + a.m_didRangeMost)
  have hdist :=
    dist_idFromKeyPtr h.toValid h.width_pos h.hash_lt h.bits_le hkey pentry a.m_idRangeFirst
  rwa [hround, dist_sub_toNat, dist_add, dist_self, toNat_didRangeMost h.masked, Int.emod_sub_emod,
    emod_sub_add,
    Int.zero_add] at hdist

/-- Where half of the circle has room for the buckets of two keys, what is rounded away leaves room
for one. -/
theorem insertable_of_room (h : a.Regular) (hranged : a.Ranged) (hcid : a.m_cidRange ≠ 0)
    (hroom : 2 * 2 ^ a.m_shfBucketHash ≤ a.half + 1) : a.Insertable := by
  have hcircle := circle_eq (a := a)
  have hhalf := half_pos (a := a)
  have hd := hranged hcid
  have hlast := dist_nonneg (a := a) a.m_idRangeFirst a.m_idRangeLast
  have hpow : ((2 ^ a.m_shfBucketHash : Nat) : Int) = 2 ^ a.m_shfBucketHash := by push_cast; rfl
  have hpos : 0 < 2 ^ a.m_shfBucketHash := Nat.two_pow_pos _
  rw [← hpow] at hroom
  constructor
  · intro key pentry hkey
    have hptr := ptrHash_lt h.toValid pentry
    have hrem : a.roundMost < 2 ^ a.m_shfBucketHash := (round_last h.hash_lt _).1
    rw [fExpandIdRange_iff h.masked hranged hcid, dist_keyInsertMost h hkey, Int.emod_eq_of_lt
      (by omega) (by omega)]
    left
    omega
  · intro key pentry hkey
    have hptr := ptrHash_lt h.toValid pentry
    obtain ⟨hrem, hround⟩ := round_first h.hash_lt (a.m_idRangeLast - a.m_didRangeMost)
    have hdist :=
      dist_idFromKeyPtr h.toValid h.width_pos h.hash_lt h.bits_le hkey pentry a.m_idRangeLast
    rw [hround, dist_add, dist_sub_toNat, dist_self, toNat_didRangeMost h.masked, Int.emod_add_emod,
      emod_sub_add,
      Circle.emod_eq (by omega) (by omega)] at hdist
    -- the new ID is behind the point opposite to the last one
    have hback : a.dist (a.idFromKeyPtr key pentry) a.m_idRangeLast < a.half := by
      rw [dist_sub a.m_idRangeLast, dist_self, hdist]
      split_ifs <;> omega
    rw [fExpandIdRange_iff h.masked hranged hcid]
    rw [dist_sub a.m_idRangeFirst] at hback
    split_ifs at hback with hle
    · left
      omega
    · right
      omega

/-- The low bits of an ID are the hash of the pointer. -/
theorem toNat_idFromKeyPtr_mod (h : a.Valid) (hh : a.m_shfBucketHash < 32) (key : BitVec w)
    (pentry : BitVec 64) :
    (a.idFromKeyPtr key pentry).toNat % 2 ^ a.m_shfBucketHash = (a.ptrHash pentry).toNat := by
  rw [idFromKeyPtr_eq, idFromKey_eq, BitVec.toNat_add, Nat.mod_mod_of_dvd _ (pow_hash_dvd hh),
    toNat_shl,
    Nat.mod_eq_of_lt hh, Nat.add_mod, Nat.mod_mod_of_dvd _ (pow_hash_dvd hh), Nat.mul_mod_left,
    Nat.zero_add,
    Nat.mod_mod, Nat.mod_eq_of_lt (ptrHash_lt h pentry)]

/-- Every hash is the one of a pointer. -/
theorem exists_ptrHash (h : a.Valid) (hh : a.m_shfBucketHash < 32) (hcb : 0 < a.cbEntry)
    (hcb' : a.cbEntry < 2 ^ 31)
    {n : Nat} (hn : n < 2 ^ a.m_shfBucketHash) : ∃ pentry, (a.ptrHash pentry).toNat = n := by
  have hpow : 2 ^ a.m_shfBucketHash ≤ 2 ^ 31 :=
    Nat.pow_le_pow_right (by decide) (Nat.le_of_lt_succ hh)
  have hmul : n * a.cbEntry < 2 ^ 62 := by
    calc n * a.cbEntry ≤ n * 2 ^ 31 := Nat.mul_le_mul_left _ hcb'.le
      _ < 2 ^ 31 * 2 ^ 31 := Nat.mul_lt_mul_of_pos_right (by omega) (by decide)
      _ = 2 ^ 62 := by norm_num
  refine ⟨BitVec.ofNat 64 (n * a.cbEntry), ?_⟩
  have hint : (BitVec.ofNat 64 (n * a.cbEntry)).toInt = n * a.cbEntry := by
    rw [BitVec.toInt_eq_toNat_cond, BitVec.toNat_ofNat, Nat.mod_eq_of_lt (by omega),
      if_pos (by omega)]
    push_cast
    rfl
  rw [ptrHash, hint, Int.mul_tdiv_cancel _ (by omega), BitVec.toNat_and, h.maskBucketPtr,
    Nat.and_two_pow_sub_one_eq_mod,
    BitVec.toNat_ofInt]
  have hmod : ((n : Int) % ((2 ^ 32 : Nat) : Int)).toNat = n := by omega
  rw [hmod, Nat.mod_eq_of_lt hn]

/-- The index with another range. -/
def withRange (a : CApproximateIndex w) (cidRange : Int) (idFirst idLast : ID) :
    CApproximateIndex w :=
  { a with m_cidRange := cidRange, m_idRangeFirst := idFirst, m_idRangeLast := idLast }

/-- The range is no part of a valid setting. -/
theorem Valid.withRange (h : a.Valid) (cidRange : Int) (idFirst idLast : ID) :
    (a.withRange cidRange idFirst idLast).Valid :=
  ⟨h.precision, h.uncertainty, h.fill, h.maskBucketKey, h.maskBucketPtr,
    ⟨h.masked.maskBucketID, h.masked.didRangeMost⟩⟩

/-- What the arithmetic of the IDs is for: the range of an index is extended to every new ID that it
can be extended to, as little as possible, and the keys said to be the greatest and the least that
can be inserted can be. -/
structure Expands (a : CApproximateIndex w) : Prop where
  empty : a.m_cidRange = 0 → ∀ idNew, a.fExpandIdRange idNew = (true, a.withRange 1 idNew idNew)
  accepts : a.m_cidRange ≠ 0 → ∀ idNew, (a.fExpandIdRange idNew).1 = true ↔
    ∃ id did, a.Extends idNew id did
  least : a.m_cidRange ≠ 0 → ∀ idNew, (a.fExpandIdRange idNew).1 = true →
    a.Least idNew (a.fExpandIdRange idNew).2
  unchanged : a.m_cidRange ≠ 0 → ∀ idNew, (a.fExpandIdRange idNew).1 = false →
    (a.fExpandIdRange idNew).2 = a
  insertable : a.m_cidRange ≠ 0 → a.IsId a.m_idRangeFirst → a.IsId a.m_idRangeLast → a.Insertable

/-- Where the range can be extended, it is. -/
theorem expands_of_insertable (h : a.Valid) (hranged : a.Ranged)
    (hinsert : a.m_cidRange ≠ 0 → a.IsId a.m_idRangeFirst → a.IsId a.m_idRangeLast → a.Insertable) :
      a.Expands :=
  ⟨fun hcid _ => if_pos hcid, fun hcid idNew => (fExpandIdRange_spec h.masked hranged hcid idNew).1,
    fun hcid idNew => (fExpandIdRange_spec h.masked hranged hcid idNew).2.1,
    fun hcid idNew => (fExpandIdRange_spec h.masked hranged hcid idNew).2.2, hinsert⟩

/-- With one bucket for all keys there is one ID. -/
theorem insertable_of_single (h : a.Valid) (hranged : a.Ranged) (hcid : a.m_cidRange ≠ 0)
    (hkey : a.m_maskBucketKey.toNat = 0) (hh : a.m_shfBucketHash = 0)
      (hfirst : a.IsId a.m_idRangeFirst) :
    a.Insertable := by
  have hid (key : BitVec w) (pentry : BitVec 64) : a.idFromKeyPtr key pentry = 0 := by
    have hptr := ptrHash_lt h pentry
    rw [hh] at hptr
    have hmask : a.m_maskBucketKey = 0 := BitVec.eq_of_toNat_eq hkey
    have hhash : a.ptrHash pentry = 0 := BitVec.eq_of_toNat_eq (by
      show _ = 0
      omega)
    rw [idFromKeyPtr_eq, idFromKey_eq, hmask, hhash, hh]
    show shl (_ &&& 0#32) 0 + 0#32 = 0#32
    rw [BitVec.and_zero]
    rfl
  obtain ⟨key, pentry, hfirst⟩ := hfirst
  rw [hid] at hfirst
  have haccept (key : BitVec w) (pentry : BitVec 64) :
    (a.fExpandIdRange (a.idFromKeyPtr key pentry)).1 = true := by
    rw [fExpandIdRange_iff h.masked hranged hcid, hid, ← hfirst, dist_self]
    exact .inl half_pos
  exact ⟨fun key pentry _ => haccept key pentry, fun key pentry _ => haccept key pentry⟩

end

section
variable {init : Init w} {a : CApproximateIndex w}

/-- The precision leaves room for the buckets of two keys, or each key has one bucket. -/
def Roomy (init : Init w) : Prop :=
  init.cbucketHashMin.toNat ≤ 1 ∨
    Nat.clog 2 init.dkeyUncertainty.toNat + 2 ≤ Nat.clog 2 init.dkeyPrecision.toNat

/-- The conditions on a range that has room in the circle. -/
theorem expands_of_room (h : a.Regular) (hroom : 2 * 2 ^ a.m_shfBucketHash ≤ a.half + 1)
    (hranged : a.Ranged) :
    a.Expands :=
  expands_of_insertable h.toValid hranged fun hcid _ _ => insertable_of_room h hranged hcid hroom

/-- A power below the circle is within its half. -/
theorem two_pow_le_half {n : Nat} (h : n < a.bits) : (2 : Int) ^ n ≤ a.half :=
  pow_le_pow_right₀ (by decide) (Nat.le_sub_one_of_lt h)

/-- An index with more than one ID is regular. -/
theorem errInit_regular (hinit : errInit init = some a)
    (hpos : 0 < min 32 (a.m_shfKeyPrecision - a.m_shfKeyUncertainty % w) + a.m_shfBucketHash) :
      a.Regular := by
  obtain ⟨h, -, -, hh, -⟩ := errInit_valid hinit
  have hw := init.hw
  have hfill := h.fill
  have hprecision := h.precision
  have huncertainty := h.uncertainty
  have hhash : a.m_shfBucketHash ≤ 30 := hh.trans_le (Nat.clog_le_of_le_pow init.hcbucketHashMin)
  refine ⟨h, by omega, by omega, ?_⟩
  rcases Nat.lt_or_ge a.m_shfKeyUncertainty w with hlt | hge
  · rw [Nat.mod_eq_of_lt hlt] at hpos ⊢
    rw [bits, Nat.mod_eq_of_lt (show a.m_shfFillMSB < 32 by omega)]
    omega
  · rw [show a.m_shfKeyUncertainty = w by omega, Nat.mod_self]
    have := bits_le (a := a)
    omega

/-- The range is no part of a regular setting. -/
theorem Regular.withRange (h : a.Regular) (cidRange : Int) (idFirst idLast : ID) :
    (a.withRange cidRange idFirst idLast).Regular :=
  ⟨h.toValid.withRange _ _ _, h.width_pos, h.hash_lt, h.bits_le⟩

/-- With room for a whole key the range is extended as the code says. -/
theorem expands_of_roomy (hinit : errInit init = some a) (hroomy : Roomy init) (cidRange : Int)
    (idFirst idLast : ID)
    (hranged : (a.withRange cidRange idFirst idLast).Ranged) :
      (a.withRange cidRange idFirst idLast).Expands := by
  obtain ⟨h, hp, hu, hh, -⟩ := errInit_valid hinit
  have hw := init.hw
  have hfill := h.fill
  have hprecision := h.precision
  have hhash : a.m_shfBucketHash ≤ 30 := hh.trans_le (Nat.clog_le_of_le_pow init.hcbucketHashMin)
  rw [Roomy, ← hp, ← hu] at hroomy
  rcases hroomy with hone | hroomy
  · have hzero : a.m_shfBucketHash = 0 := by
      rw [hh]
      exact Nat.eq_zero_of_le_zero (Nat.clog_le_of_le_pow hone)
    rcases Nat.lt_or_ge 0 (min 32 (a.m_shfKeyPrecision - a.m_shfKeyUncertainty % w)) with hsome |
      hnone
    · refine expands_of_room ((errInit_regular hinit (by omega)).withRange _ _ _) ?_ hranged
      show 2 * 2 ^ a.m_shfBucketHash ≤ a.half + 1
      have := half_pos (a := a)
      rw [hzero]
      omega
    · have hkey : a.m_maskBucketKey.toNat = 0 := by
        rw [h.maskBucketKey, Nat.eq_zero_of_le_zero hnone]
        rfl
      exact expands_of_insertable (h.withRange _ _ _) hranged fun hcid hfirst _ =>
        insertable_of_single (h.withRange _ _ _) hranged hcid hkey hzero hfirst
  · have hbits : a.bits =
        min 32 (a.m_shfKeyPrecision - a.m_shfKeyUncertainty + a.m_shfBucketHash) := by
      rw [bits, Nat.mod_eq_of_lt (show a.m_shfFillMSB < 32 by omega)]
      omega
    have hpos : 0 < min 32 (a.m_shfKeyPrecision - a.m_shfKeyUncertainty % w) +
      a.m_shfBucketHash := by
      rw [Nat.mod_eq_of_lt (by omega)]
      omega
    refine expands_of_room ((errInit_regular hinit hpos).withRange _ _ _) ?_ hranged
    show 2 * 2 ^ a.m_shfBucketHash ≤ a.half + 1
    have hpow := two_pow_le_half (show a.m_shfBucketHash + 1 < a.bits by omega)
    rw [pow_succ] at hpow
    omega

/-- What the rounding to a whole key takes off. -/
theorem roundMost_eq (hh : a.m_shfBucketHash < 32) :
    a.roundMost = (a.m_idRangeFirst.toNat % 2 ^ a.m_shfBucketHash + a.m_didRangeMost.toNat + 1) %
      2 ^ a.m_shfBucketHash := by
  rw [roundMost, BitVec.toNat_umod, toNat_cBucketHash hh, BitVec.toNat_add, BitVec.toNat_add,
    Nat.mod_mod_of_dvd _ (pow_hash_dvd hh)]
  show ((a.m_idRangeFirst.toNat + a.m_didRangeMost.toNat) % 2 ^ 32 + 1) % _ = _
  rw [Nat.add_mod, Nat.mod_mod_of_dvd _ (pow_hash_dvd hh), ← Nat.add_mod, Nat.add_assoc,
    Nat.add_assoc, Nat.mod_add_mod]

/-- A range with the greatest key refused: what is rounded away leaves one of the buckets of the key
out of reach. -/
theorem not_expands_of_dist (h : a.Regular) {idFirst idLast : ID} (hfirst : a.IsId idFirst)
    (hlast : a.IsId idLast)
    (hranged : a.dist idFirst idLast < a.half) {pentry : BitVec 64} {r : Nat} {z : Int}
    (hround : (idFirst.toNat % 2 ^ a.m_shfBucketHash + a.m_didRangeMost.toNat + 1) %
      2 ^ a.m_shfBucketHash = r)
    (hz : (a.half - 1 - r - (2 ^ a.m_shfBucketHash - 1 : Nat) + (a.ptrHash pentry).toNat) %
      a.circle = z)
    (hhalf : a.half ≤ z) (hfar : z ≤ a.half + a.dist idFirst idLast) :
    (a.withRange 1 idFirst idLast).Ranged ∧ ¬ (a.withRange 1 idFirst idLast).Expands := by
  have hcid : (a.withRange 1 idFirst idLast).m_cidRange ≠ 0 := one_ne_zero
  have hrange : (a.withRange 1 idFirst idLast).Ranged := fun _ => hranged
  have hregular := h.withRange 1 idFirst idLast
  have hmost : (a.withRange 1 idFirst idLast).roundMost = r := by
    rw [roundMost_eq hregular.hash_lt]
    exact hround
  have hdist := dist_keyInsertMost hregular rfl pentry
  rw [hmost] at hdist
  refine ⟨hrange, fun hexpands => ?_⟩
  have haccept := (hexpands.insertable hcid hfirst hlast).most _ pentry rfl
  rw [fExpandIdRange_iff hregular.masked hrange hcid, hdist.trans hz] at haccept
  rcases haccept with hlt | hlt
  · exact hlt.not_ge hhalf
  · exact hlt.not_ge hfar

/-- The circle of a precision of at most one bit over the uncertainty. -/
theorem bits_of_lt (hinit : errInit init = some a) (hhash : 0 < a.m_shfBucketHash)
    (hone : a.m_shfKeyPrecision ≤ a.m_shfKeyUncertainty + 1) :
    a.bits = a.m_shfBucketHash + (a.m_shfKeyPrecision - a.m_shfKeyUncertainty) := by
  obtain ⟨h, -, -, hh, -⟩ := errInit_valid hinit
  have hfill := h.fill
  have huncertainty := h.uncertainty
  have hlt : a.m_shfBucketHash ≤ 30 := hh.trans_le (Nat.clog_le_of_le_pow init.hcbucketHashMin)
  rw [bits, Nat.mod_eq_of_lt (show a.m_shfFillMSB < 32 by omega)]
  omega

/-- A precision of one bit over the uncertainty: the range from the second bucket of a key to the
first one of the next. -/
theorem exists_not_expands_of_one (hinit : errInit init = some a) (hhash : 0 < a.m_shfBucketHash)
    (hone : a.m_shfKeyPrecision = a.m_shfKeyUncertainty + 1) :
    ∃ idFirst idLast, (a.withRange 1 idFirst idLast).Ranged ∧
      ¬ (a.withRange 1 idFirst idLast).Expands := by
  have h := errInit_regular hinit (by omega)
  obtain ⟨-, -, -, -, hcbEntry⟩ := errInit_valid hinit
  have hbits := bits_of_lt hinit hhash (by omega)
  rw [hone, Nat.add_sub_cancel_left] at hbits
  have hpow : 1 < 2 ^ a.m_shfBucketHash := Nat.one_lt_two_pow hhash.ne'
  have hhalf : a.half = (2 ^ a.m_shfBucketHash : Nat) := by
    rw [half, hbits, Nat.add_sub_cancel]
    push_cast
    rfl
  have hcircle := circle_eq (a := a)
  obtain ⟨pentry, hpentry⟩ := exists_ptrHash h.toValid h.hash_lt (hcbEntry ▸ init.hcbEntry.1)
    (hcbEntry ▸ init.hcbEntry.2) hpow
  -- the second bucket of a key, and the first one of the next
  have hfirst : a.dist 0 (a.idFromKeyPtr (a.keyFromId 0) pentry) = 1 := by
    rw [dist_idFromKeyPtr h.toValid h.width_pos h.hash_lt h.bits_le rfl, dist_self, hpentry]
    show (0 - ((0 % 2 ^ a.m_shfBucketHash : Nat) : Int) + 1) % a.circle = 1
    rw [Nat.zero_mod, Int.emod_eq_of_lt] <;> omega
  have hlast : a.dist 0 (a.idFromKeyPtr (a.keyFromId (shl 1 a.m_shfBucketHash)) 0) = a.half := by
    have hzero : a.dist 0 (shl 1 a.m_shfBucketHash) = a.half := by
      rw [dist, Circle.dist, toNat_cBucketHash h.hash_lt, hhalf]
      show ((2 ^ a.m_shfBucketHash : Nat) - 0 : Int) % a.circle = _
      rw [Int.sub_zero, Int.emod_eq_of_lt] <;> omega
    rw [dist_idFromKeyPtr h.toValid h.width_pos h.hash_lt h.bits_le rfl, hzero,
      toNat_cBucketHash h.hash_lt, Nat.mod_self,
      ptrHash_zero]
    show (a.half - ((0 : Nat) : Int) + ((0 : Nat) : Int)) % a.circle = _
    rw [Int.emod_eq_of_lt] <;> omega
  have hmod := toNat_idFromKeyPtr_mod h.toValid h.hash_lt (a.keyFromId 0) pentry
  rw [hpentry] at hmod
  have hdist : a.dist (a.idFromKeyPtr (a.keyFromId 0) pentry)
      (a.idFromKeyPtr (a.keyFromId (shl 1 a.m_shfBucketHash)) 0) = a.half - 1 := by
    rw [dist_sub 0, hfirst, hlast, if_pos (by omega)]
  have hmost := toNat_didRangeMost h.masked
  have hround : ((a.idFromKeyPtr (a.keyFromId 0) pentry).toNat % 2 ^ a.m_shfBucketHash +
      a.m_didRangeMost.toNat + 1)
      % 2 ^ a.m_shfBucketHash = 1 := by
    rw [hmod, show 1 + a.m_didRangeMost.toNat + 1 = 1 + 2 ^ a.m_shfBucketHash by omega,
      Nat.add_mod_right,
      Nat.mod_eq_of_lt hpow]
  have hz : (a.half - 1 - (1 : Nat) - (2 ^ a.m_shfBucketHash - 1 : Nat) + (a.ptrHash 0).toNat) %
      a.circle
      = a.circle - 1 := by
    rw [ptrHash_zero]
    show (a.half - 1 - (1 : Nat) - (2 ^ a.m_shfBucketHash - 1 : Nat) + ((0 : Nat) : Int)) %
      a.circle = _
    rw [Circle.emod_eq (by omega) (by omega), if_pos (by omega)]
    omega
  have hlt := Int.lt_of_le_sub_one hdist.le
  exact ⟨_, _, not_expands_of_dist h ⟨_, _, rfl⟩ ⟨_, _, rfl⟩ hlt hround hz (by omega) (by omega)⟩

/-- A precision that is the uncertainty: there is one key, and the range of its first bucket leaves
out the one opposite. -/
theorem exists_not_expands_of_zero (hinit : errInit init = some a) (hhash : 0 < a.m_shfBucketHash)
    (hzero : a.m_shfKeyPrecision = a.m_shfKeyUncertainty) :
    ∃ idFirst idLast, (a.withRange 1 idFirst idLast).Ranged ∧
      ¬ (a.withRange 1 idFirst idLast).Expands := by
  have h := errInit_regular hinit (by omega)
  obtain ⟨-, -, -, -, hcbEntry⟩ := errInit_valid hinit
  have hbits := bits_of_lt hinit hhash (by omega)
  rw [hzero, Nat.sub_self, Nat.add_zero] at hbits
  have hdouble : 2 ^ a.m_shfBucketHash = 2 * 2 ^ (a.m_shfBucketHash - 1) := by
    rw [← pow_succ', Nat.sub_add_cancel hhash]
  have hpos : 0 < 2 ^ (a.m_shfBucketHash - 1) := Nat.two_pow_pos _
  have hhalf : a.half = (2 ^ (a.m_shfBucketHash - 1) : Nat) := by
    rw [half, hbits]
    push_cast
    rfl
  have hcircle := circle_eq (a := a)
  obtain ⟨pentry, hpentry⟩ := exists_ptrHash h.toValid h.hash_lt (hcbEntry ▸ init.hcbEntry.1)
    (hcbEntry ▸ init.hcbEntry.2) (show 2 ^ (a.m_shfBucketHash - 1) < 2 ^ a.m_shfBucketHash by omega)
  have hmod : (a.idFromKeyPtr 0 0).toNat % 2 ^ a.m_shfBucketHash = 0 := by
    rw [toNat_idFromKeyPtr_mod h.toValid h.hash_lt, ptrHash_zero]
    rfl
  have hmost := toNat_didRangeMost h.masked
  have hround : ((a.idFromKeyPtr 0 0).toNat % 2 ^ a.m_shfBucketHash + a.m_didRangeMost.toNat + 1)
      % 2 ^ a.m_shfBucketHash = 2 ^ (a.m_shfBucketHash - 1) := by
    rw [hmod, show 0 + a.m_didRangeMost.toNat + 1 = 2 ^ (a.m_shfBucketHash - 1) by omega,
      Nat.mod_eq_of_lt (by omega)]
  have hz : (a.half - 1 - (2 ^ (a.m_shfBucketHash - 1) : Nat) - (2 ^ a.m_shfBucketHash - 1 : Nat)
      + (a.ptrHash pentry).toNat) % a.circle = a.half := by
    rw [hpentry, Circle.emod_eq (by omega) (by omega), if_pos (by omega)]
    omega
  have hlt : a.dist (a.idFromKeyPtr 0 0) (a.idFromKeyPtr 0 0) < a.half :=
    (dist_self _).trans_lt half_pos
  exact ⟨_, _, not_expands_of_dist h ⟨_, _, rfl⟩ ⟨_, _, rfl⟩ hlt hround hz le_rfl
    (by rw [dist_self, Int.add_zero])⟩

/-- An index does its arithmetic right, for every range, exactly where its precision leaves room for
the buckets of two keys or each key has one bucket. -/
theorem errInit_expands_iff (hinit : errInit init = some a) :
    (∀ cidRange idFirst idLast, (a.withRange cidRange idFirst idLast).Ranged →
      (a.withRange cidRange idFirst idLast).Expands) ↔ Roomy init := by
  refine ⟨fun hexpands => ?_, fun hroomy => expands_of_roomy hinit hroomy⟩
  by_contra hroomy
  obtain ⟨h, hp, hu, hh, -⟩ := errInit_valid hinit
  have huncertainty := h.uncertainty
  rw [Roomy, not_or, ← hp, ← hu] at hroomy
  have hhash : 0 < a.m_shfBucketHash := by
    rw [hh]
    exact Nat.clog_pos Nat.one_lt_two (by omega)
  obtain ⟨idFirst, idLast, hranged, hnot⟩ :
      ∃ idFirst idLast, (a.withRange 1 idFirst idLast).Ranged ∧
      ¬ (a.withRange 1 idFirst idLast).Expands := by
    rcases Nat.lt_or_ge a.m_shfKeyUncertainty a.m_shfKeyPrecision with hlt | hge
    · exact exists_not_expands_of_one hinit hhash (by omega)
    · exact exists_not_expands_of_zero hinit hhash (by omega)
  exact hnot (hexpands 1 idFirst idLast hranged)

end

/-- Keys of 12 bits with an uncertainty of 6 bits, and four buckets for a key. -/
theorem errInit_expands_iff_twelve :
    ∃ a, errInit (w := 32) ⟨4096, 64, 4, 8, by decide, by decide, by decide⟩ = some a ∧
    ∀ cidRange idFirst idLast, (a.withRange cidRange idFirst idLast).Ranged →
      (a.withRange cidRange idFirst idLast).Expands := by
  obtain ⟨a, hinit⟩ : ∃ a, errInit (w := 32) ⟨4096, 64, 4, 8, by decide, by decide, by decide⟩ =
    some a := ⟨_, rfl⟩
  have hroomy : Nat.clog 2 64 + 2 ≤ Nat.clog 2 4096 := by decide +kernel
  exact ⟨a, hinit, (errInit_expands_iff hinit).2 (.inr hroomy)⟩

/-- Keys of 7 bits with an uncertainty of 6 bits, and two buckets for a key: in the range from the
ID 1 to the ID 2 the key said to be the greatest that can be inserted is refused for the null
pointer. -/
theorem errInit_not_expands :
    ∃ a, errInit (w := 32) ⟨128, 64, 2, 8, by decide, by decide, by decide⟩ = some a ∧
    (a.withRange 1 1 2).Ranged ∧ a.IsId 1 ∧ a.IsId 2 ∧ ¬ (a.withRange 1 1 2).Expands := by
  refine ⟨_, rfl, fun _ => by decide, ⟨0, 8, rfl⟩, ⟨64, 0, rfl⟩, fun hexpands => ?_⟩
  have haccept := (hexpands.insertable (by decide) ⟨0, 8, rfl⟩ ⟨64, 0, rfl⟩).most _ 0 rfl
  exact absurd haccept (by decide)

end CApproximateIndex

end Ese
