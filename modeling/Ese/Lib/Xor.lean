import Mathlib.Tactic.Ring

/-!
# XOR sums of bit vectors

`xorSum n f` is the XOR of `f 0`, …, `f (n - 1)`. Everything a checksum accumulates with `^=` is
one of these sums, and two ways to accumulate the same data are equal because the sum is linear in
its terms and can be regrouped: by rows (`xorSum_mul`), by columns (`xorSum_comm`), under a mask
(`xorSum_and`).

`indexSum bits idx n` is the XOR of `idx i` over the positions `i < n` whose bit is set. For data
given as `v`-bit words, a field of it that does not depend on the position inside a word is a sum of
word parities (`indexSum_and_of_word`), and one that depends on that position only is the index sum
of the XOR of the words (`indexSum_and_of_bit`).
-/

namespace Ese

/-- The XOR of `f 0`, …, `f (n - 1)`. -/
def xorSum {w : Nat} : Nat → (Nat → BitVec w) → BitVec w
  | 0, _ => 0#w
  | n + 1, f => xorSum n f ^^^ f n

/-- `x` where `b` holds, zero elsewhere. -/
def pick {w : Nat} (b : Bool) (x : BitVec w) : BitVec w := if b then x else 0#w

/-- The XOR of `idx i` over the set bits `i < n`. -/
def indexSum {w : Nat} (bits : Nat → Bool) (idx : Nat → BitVec w) (n : Nat) : BitVec w :=
  xorSum n fun i => pick (bits i) (idx i)

/-- All ones where `x` has an odd number of set bits, zero elsewhere. -/
def parityMask {v : Nat} (w : Nat) (x : BitVec v) : BitVec w :=
  indexSum x.getLsbD (fun _ => BitVec.allOnes w) v

/-- Bit `i` of an array of `v`-bit words, the low bit of word zero first. -/
def wordBit {v : Nat} (a : Nat → BitVec v) (i : Nat) : Bool := (a (i / v)).getLsbD (i % v)

section
variable {w v u : Nat} {f g : Nat → BitVec w}

/-! ## Sums -/

/-- The empty sum. -/
@[simp] theorem xorSum_zero (f : Nat → BitVec w) : xorSum 0 f = 0#w := rfl

/-- The sum with its last term. -/
theorem xorSum_succ (n : Nat) (f : Nat → BitVec w) : xorSum (n + 1) f = xorSum n f ^^^ f n := rfl

/-- Equal terms have equal sums. -/
theorem xorSum_congr {n : Nat} (h : ∀ i < n, f i = g i) : xorSum n f = xorSum n g := by
  induction n with
  | zero => rfl
  | succ n ih => rw [xorSum_succ, xorSum_succ, ih fun i hi => h i (by omega), h n (by omega)]

/-- A map that keeps zero and XOR goes under the sum. -/
theorem map_xorSum (φ : BitVec w → BitVec v) (h0 : φ 0#w = 0#v)
    (hx : ∀ x y, φ (x ^^^ y) = φ x ^^^ φ y) (n : Nat) (f : Nat → BitVec w) :
    φ (xorSum n f) = xorSum n fun i => φ (f i) := by
  induction n with
  | zero => exact h0
  | succ n ih => rw [xorSum_succ, xorSum_succ, hx, ih]

/-- A mask distributes over the sum of two. -/
theorem xor_and_distrib (x y m : BitVec w) : (x ^^^ y) &&& m = (x &&& m) ^^^ (y &&& m) := by
  ext i
  simp only [BitVec.getElem_and, BitVec.getElem_xor, Bool.and_xor_distrib_right]

/-- Values under disjoint masks are joined by either operation. -/
theorem or_eq_xor_of_disjoint {A B : BitVec w} (h : A &&& B = 0#w) (x y : BitVec w) :
    A &&& x ||| B &&& y = (A &&& x) ^^^ (B &&& y) := by
  ext i hi
  have hb : (A[i] && B[i]) = false := by
    rw [← BitVec.getElem_and, h, BitVec.getElem_zero]
  simp only [BitVec.getElem_or, BitVec.getElem_xor, BitVec.getElem_and]
  revert hb
  cases A[i] <;> cases B[i] <;> simp

/-- A mask distributes over a sum. -/
theorem xorSum_and (n : Nat) (f : Nat → BitVec w) (m : BitVec w) :
    xorSum n f &&& m = xorSum n fun i => f i &&& m :=
  map_xorSum (fun x => x &&& m) (by simp) (fun _ _ => xor_and_distrib ..) n f

/-- A sum of zeros. -/
@[simp] theorem xorSum_const_zero (n : Nat) : (xorSum n fun _ => 0#w) = 0#w := by
  induction n with
  | zero => rfl
  | succ n ih => rw [xorSum_succ, ih, BitVec.xor_zero]

/-- The sum of sums. -/
theorem xorSum_xor (n : Nat) (f g : Nat → BitVec w) :
    (xorSum n fun i => f i ^^^ g i) = xorSum n f ^^^ xorSum n g := by
  induction n with
  | zero => simp
  | succ n ih =>
    rw [xorSum_succ, xorSum_succ, xorSum_succ, ih]
    ac_rfl

/-- A sum in two parts. -/
theorem xorSum_add (m n : Nat) (f : Nat → BitVec w) :
    xorSum (m + n) f = xorSum m f ^^^ xorSum n fun i => f (m + i) := by
  induction n with
  | zero => simp
  | succ n ih => rw [← Nat.add_assoc, xorSum_succ, xorSum_succ, ih, BitVec.xor_assoc]

/-- A sum over `n` rows of `m` terms, row by row. -/
theorem xorSum_mul (n m : Nat) (f : Nat → BitVec w) :
    xorSum (n * m) f = xorSum n fun r => xorSum m fun j => f (m * r + j) := by
  induction n with
  | zero => simp
  | succ n ih => rw [Nat.succ_mul, xorSum_add, xorSum_succ, ih, Nat.mul_comm n m]

/-- A double sum in either order. -/
theorem xorSum_comm (n m : Nat) (f : Nat → Nat → BitVec w) :
    (xorSum n fun i => xorSum m fun j => f i j) = xorSum m fun j => xorSum n fun i => f i j := by
  induction n with
  | zero =>
    induction m with
    | zero => rfl
    | succ m ih => rw [xorSum_succ, ← ih]; simp
  | succ n ih =>
    rw [xorSum_succ, ih, ← xorSum_xor]
    rfl

/-- A sum with one term that is not zero. -/
theorem xorSum_single {n k : Nat} (hk : k < n) (x : BitVec w) :
    (xorSum n fun i => pick (decide (i = k)) x) = x := by
  have h0 : ∀ j ≤ k, (xorSum j fun i => pick (decide (i = k)) x) = 0#w := by
    intro j hj
    induction j with
    | zero => rfl
    | succ j ih =>
      rw [xorSum_succ, ih (by omega)]
      simp [pick, show j ≠ k by omega]
  induction n with
  | zero => omega
  | succ n ih =>
    rw [xorSum_succ]
    rcases Nat.lt_succ_iff_lt_or_eq.1 hk with h | h
    · rw [ih h]
      simp [pick, show n ≠ k by omega]
    · subst h
      rw [h0 k (Nat.le_refl k)]
      simp [pick]

/-! ## Picked terms -/

/-- A set bit picks the value. -/
@[simp] theorem pick_true (x : BitVec w) : pick true x = x := rfl

/-- A clear bit picks nothing. -/
@[simp] theorem pick_false (x : BitVec w) : pick false x = 0#w := rfl

/-- Bits that cancel pick values that do. -/
theorem pick_xor (a b : Bool) (x : BitVec w) : pick (a ^^ b) x = pick a x ^^^ pick b x := by
  cases a <;> cases b <;> simp

/-- A mask of what is picked. -/
theorem pick_and (b : Bool) (x m : BitVec w) : pick b x &&& m = pick b (x &&& m) := by
  cases b <;> simp

/-- A mask that is picked. -/
theorem pick_allOnes_and (b : Bool) (x : BitVec w) :
    pick b (BitVec.allOnes w) &&& x = pick b x := by
  cases b <;> simp

/-- A mask of the indices. -/
theorem indexSum_and (bits : Nat → Bool) (idx : Nat → BitVec w) (n : Nat) (m : BitVec w) :
    indexSum bits idx n &&& m = indexSum bits (fun i => idx i &&& m) n := by
  simp only [indexSum, xorSum_and, pick_and]

/-- Equal indices have equal sums. -/
theorem indexSum_congr {n : Nat} {bits : Nat → Bool} {idx idx' : Nat → BitVec w}
    (h : ∀ i < n, idx i = idx' i) : indexSum bits idx n = indexSum bits idx' n :=
  xorSum_congr fun i hi => by rw [h i hi]

/-- Equal bits have equal sums. -/
theorem indexSum_congr_bits {n : Nat} {bits bits' : Nat → Bool} {idx : Nat → BitVec w}
    (h : ∀ i < n, bits i = bits' i) : indexSum bits idx n = indexSum bits' idx n :=
  xorSum_congr fun i hi => by rw [h i hi]

/-- Two indices next to each other in one vector are summed side by side. -/
theorem indexSum_append (bits : Nat → Bool) (hi : Nat → BitVec w) (lo : Nat → BitVec v) (n : Nat) :
    indexSum bits (fun i => hi i ++ lo i) n = indexSum bits hi n ++ indexSum bits lo n := by
  induction n with
  | zero => simp [indexSum]
  | succ n ih =>
    simp only [indexSum, xorSum_succ] at ih ⊢
    rw [ih]
    cases bits n <;> simp [BitVec.xor_append]

/-- One flipped bit changes the sum by its index. -/
theorem indexSum_flip {n k : Nat} (hk : k < n) (bits : Nat → Bool) (idx : Nat → BitVec w) :
    indexSum (fun i => bits i ^^ decide (i = k)) idx n = indexSum bits idx n ^^^ idx k := by
  have h1 : indexSum (fun i => bits i ^^ decide (i = k)) idx n
      = indexSum bits idx n ^^^ xorSum n fun i => pick (decide (i = k)) (idx i) := by
    simp only [indexSum, pick_xor, xorSum_xor]
  have h2 : (xorSum n fun i => pick (decide (i = k)) (idx i))
      = xorSum n fun i => pick (decide (i = k)) (idx k) := by
    refine xorSum_congr fun i _ => ?_
    by_cases h : i = k
    · rw [h]
    · simp [h]
  rw [h1, h2, xorSum_single hk]

/-- A word is the sum of its set bits. -/
theorem indexSum_twoPow (x : BitVec w) : indexSum x.getLsbD (BitVec.twoPow w) w = x := by
  have h : ∀ n ≤ w, ∀ j, (indexSum x.getLsbD (BitVec.twoPow w) n).getLsbD j
      = (decide (j < n) && x.getLsbD j) := by
    intro n hn j
    induction n with
    | zero => simp [indexSum]
    | succ n ih =>
      rw [indexSum, xorSum_succ, ← indexSum, BitVec.getLsbD_xor, ih (by omega)]
      by_cases hj : j = n
      · subst hj
        cases x.getLsbD j <;> simp [show j < w by omega]
      · have hlt : j < n + 1 ↔ j < n := by omega
        cases x.getLsbD n <;> simp [BitVec.getLsbD_twoPow, Ne.symm hj, hlt]
  refine BitVec.eq_of_getLsbD_eq fun j hj => ?_
  rw [h w (Nat.le_refl w)]
  simp [hj]

/-! ## Parities -/

/-- Zero has even parity. -/
@[simp] theorem parityMask_zero : parityMask w 0#v = 0#w := by
  simp [parityMask, indexSum]

/-- Parity is additive. -/
theorem parityMask_xor (x y : BitVec v) :
    parityMask w (x ^^^ y) = parityMask w x ^^^ parityMask w y := by
  simp only [parityMask, indexSum, BitVec.getLsbD_xor, pick_xor, xorSum_xor]

/-- Parity is additive over sums. -/
theorem parityMask_xorSum (n : Nat) (f : Nat → BitVec v) :
    parityMask w (xorSum n f) = xorSum n fun i => parityMask w (f i) :=
  map_xorSum (parityMask w) parityMask_zero parityMask_xor n f

/-- The parity of a vector is the parity of its two parts. -/
theorem parityMask_split (x : BitVec (u + v)) :
    parityMask w x = parityMask w (x.setWidth u) ^^^ parityMask w ((x >>> u).setWidth v) := by
  rw [parityMask, indexSum, xorSum_add]
  congr 1
  · exact xorSum_congr fun i hi => by simp [hi]
  · exact xorSum_congr fun i hi => by simp [hi]

/-- The parity of two values side by side. -/
theorem parityMask_append (x : BitVec v) (y : BitVec u) :
    parityMask w (x ++ y) = parityMask w x ^^^ parityMask w y := by
  have hadd (f : Nat → BitVec w) : xorSum (v + u) f = xorSum u f ^^^ xorSum v fun i =>
    f (u + i) := by
    rw [Nat.add_comm, xorSum_add]
  rw [parityMask, indexSum, hadd, BitVec.xor_comm]
  congr 1
  · exact xorSum_congr fun i _ => by simp [BitVec.getLsbD_append]
  · exact xorSum_congr fun i hi => by simp [BitVec.getLsbD_append, hi]

/-- A parity mask is all ones or zero. -/
theorem parityMask_eq_pick (x : BitVec v) :
    ∃ b, ∀ w, parityMask w x = pick b (BitVec.allOnes w) := by
  have h (n : Nat) : ∃ b, ∀ w, indexSum x.getLsbD (fun _ => BitVec.allOnes w) n
      = pick b (BitVec.allOnes w) := by
    induction n with
    | zero => exact ⟨false, fun _ => rfl⟩
    | succ n ih =>
      obtain ⟨b, hb⟩ := ih
      refine ⟨b ^^ x.getLsbD n, fun w => ?_⟩
      rw [indexSum, xorSum_succ, ← indexSum, hb, pick_xor]
  exact h v

/-- A constant index is picked by the parity. -/
theorem indexSum_const (x : BitVec v) (g : BitVec w) :
    indexSum x.getLsbD (fun _ => g) v = parityMask w x &&& g := by
  rw [parityMask, indexSum_and]
  simp

/-- Terms with one index are picked by the parity of their XOR. -/
theorem xorSum_parityMask_and (n : Nat) (a : Nat → BitVec v) (g : BitVec w) :
    (xorSum n fun k => parityMask w (a k) &&& g) = parityMask w (xorSum n a) &&& g := by
  rw [parityMask_xorSum, xorSum_and]

/-- A sum of word parities whose index is the row's, by rows of `m` words. -/
theorem xorSum_parityMask_rows {R m : Nat} {a : Nat → BitVec v} {h : Nat → BitVec w}
    (hg : ∀ r < R, ∀ j < m, g (m * r + j) = h r) :
    (xorSum (R * m) fun k => parityMask w (a k) &&& g k)
      = xorSum R fun r => parityMask w (xorSum m fun j => a (m * r + j)) &&& h r := by
  rw [xorSum_mul]
  refine xorSum_congr fun r hr => ?_
  rw [← xorSum_parityMask_and]
  exact xorSum_congr fun j hj => by rw [hg r hr j hj]

/-- A sum of word parities whose index is the column's, by columns of `R` words. -/
theorem xorSum_parityMask_cols {R m : Nat} {a : Nat → BitVec v} {h : Nat → BitVec w}
    (hg : ∀ r < R, ∀ j < m, g (m * r + j) = h j) :
    (xorSum (R * m) fun k => parityMask w (a k) &&& g k)
      = xorSum m fun j => parityMask w (xorSum R fun r => a (m * r + j)) &&& h j := by
  rw [xorSum_mul, xorSum_comm]
  refine xorSum_congr fun j hj => ?_
  rw [← xorSum_parityMask_and]
  exact xorSum_congr fun r hr => by rw [hg r hr j hj]

/-! ## Index sums of words -/

/-- The index sum of an array of words, word by word. -/
theorem indexSum_wordBit (hv : 0 < v) (n : Nat) (a : Nat → BitVec v) (idx : Nat → BitVec w) :
    indexSum (wordBit a) idx (n * v)
      = xorSum n fun k => indexSum (a k).getLsbD (fun b => idx (v * k + b)) v := by
  rw [indexSum, xorSum_mul]
  refine xorSum_congr fun k _ => xorSum_congr fun b hb => ?_
  have hd : (v * k + b) / v = k := by
    rw [Nat.mul_add_div hv, Nat.div_eq_of_lt hb, Nat.add_zero]
  have hm : (v * k + b) % v = b := by
    rw [Nat.mul_add_mod, Nat.mod_eq_of_lt hb]
  rw [wordBit, hd, hm]

/-- The XOR of words, bit by bit. -/
theorem xorSum_eq_indexSum (hv : 0 < v) (n : Nat) (a : Nat → BitVec v) :
    xorSum n a = indexSum (wordBit a) (fun i => BitVec.twoPow v (i % v)) (n * v) := by
  rw [indexSum_wordBit hv]
  refine xorSum_congr fun k _ => ?_
  rw [indexSum_congr (fun b hb => by rw [Nat.mul_add_mod, Nat.mod_eq_of_lt hb]), indexSum_twoPow]

/-- A field of the index that is the word's is picked by the parity of the word. -/
theorem indexSum_and_of_word (hv : 0 < v) {n : Nat} {a : Nat → BitVec v} {idx : Nat → BitVec w}
    {F : BitVec w} (h : ∀ k < n, ∀ b < v, idx (v * k + b) &&& F = g k) :
    indexSum (wordBit a) idx (n * v) &&& F = xorSum n fun k => parityMask w (a k) &&& g k := by
  rw [indexSum_wordBit hv, xorSum_and]
  refine xorSum_congr fun k hk => ?_
  rw [indexSum_and, ← indexSum_const]
  exact indexSum_congr fun b hb => h k hk b hb

/-- A field of the index that is the bit's inside its word is the index sum of the XOR of the
words. -/
theorem indexSum_and_of_bit (hv : 0 < v) {n : Nat} {a : Nat → BitVec v} {idx : Nat → BitVec w}
    {F : BitVec w} (h : ∀ k < n, ∀ b < v, idx (v * k + b) &&& F = g b) :
    indexSum (wordBit a) idx (n * v) &&& F = indexSum (xorSum n a).getLsbD g v := by
  have hx (m : Nat) : indexSum (xorSum m a).getLsbD g v
      = xorSum m fun k => indexSum (a k).getLsbD g v := by
    refine map_xorSum (fun x : BitVec v => indexSum x.getLsbD g v) ?_ ?_ m a
    · simp [indexSum]
    · intro x y
      simp only [indexSum, BitVec.getLsbD_xor, pick_xor, xorSum_xor]
  rw [indexSum_wordBit hv, xorSum_and, hx]
  refine xorSum_congr fun k hk => ?_
  rw [indexSum_and]
  exact indexSum_congr fun b hb => h k hk b hb

end

end Ese
