import Ese.Collection.RedBlackTree

/-!
# Balance

`Llrb c n t`: the subtree `t` has a root of color `c`, black height `n`, no red right child and no
two red nodes in a row. Rotations and flips on the way down leave trees outside this invariant; the
results say what `Fixup_` makes of them on the way up. Nothing is assumed of the color of the node
an operation starts at, so the results hold for a root of either color.
-/

namespace Ese.Pnode

open RedBlackTreeColor

variable {KEY CObject : Type}

/-- The nodes in the order of their keys. -/
def toList : Pnode KEY CObject → List (KEY × CObject)
  | null => []
  | node _ l k v r => l.toList ++ (k, v) :: r.toList

/-- The balanced subtrees; the null link counts as black. -/
inductive Llrb : RedBlackTreeColor → Nat → Pnode KEY CObject → Prop
  | null : Llrb Black 0 null
  | red {n : Nat} {l r : Pnode KEY CObject} {k : KEY} {v : CObject} (hl : Llrb Black n l)
      (hr : Llrb Black n r) : Llrb Red n (node Red l k v r)
  | black {c : RedBlackTreeColor} {n : Nat} {l r : Pnode KEY CObject} {k : KEY} {v : CObject}
      (hl : Llrb c n l) (hr : Llrb Black n r) : Llrb Black (n + 1) (node Black l k v r)

/-- A node of color `c` over balanced subtrees of black height `n`, with a black right child. -/
inductive Kids (c : RedBlackTreeColor) (n : Nat) : Pnode KEY CObject → Prop
  | mk {cl : RedBlackTreeColor} {l r : Pnode KEY CObject} {k : KEY} {v : CObject} (hl : Llrb cl n l)
      (hr : Llrb Black n r) : Kids c n (node c l k v r)

/-- A node of color `c` over balanced black subtrees of black height `n`. -/
inductive BlackKids (c : RedBlackTreeColor) (n : Nat) : Pnode KEY CObject → Prop
  | mk {l r : Pnode KEY CObject} {k : KEY} {v : CObject} (hl : Llrb Black n l)
      (hr : Llrb Black n r) : BlackKids c n (node c l k v r)

section
variable {c : RedBlackTreeColor} {n : Nat} {t : Pnode KEY CObject}

/-- The colour of a balanced tree. -/
theorem Llrb.fIsNonNullAndRed (h : Llrb c n t) : t.fIsNonNullAndRed = decide (c = Red) := by
  cases h <;> rfl

/-- A node with black children is a node. -/
theorem BlackKids.kids (h : BlackKids c n t) : Kids c n t := by
  obtain ⟨hl, hr⟩ := h
  exact ⟨hl, hr⟩

/-- A black node adds to the height. -/
theorem Kids.llrb (h : Kids Black n t) : Llrb Black (n + 1) t := by
  obtain ⟨hl, hr⟩ := h
  exact .black hl hr

/-- A red node with black children is balanced. -/
theorem BlackKids.llrb (h : BlackKids Red n t) : Llrb Red n t := by
  obtain ⟨hl, hr⟩ := h
  exact .red hl hr

/-- The black form of a red subtree. -/
theorem Llrb.flipColor (h : Llrb Red n t) : Llrb Black (n + 1) t.flipColor := by
  cases h with
  | red hl hr => exact .black hl hr

end

/-! ## The nodes of a subtree -/

/-- Another colour leaves the entries. -/
@[simp] theorem toList_flipColor (t : Pnode KEY CObject) : t.flipColor.toList = t.toList := by
  cases t <;> rfl

/-- A rotation to the left leaves the entries. -/
theorem toList_rotateLeft {t t' : Pnode KEY CObject} (h : t.rotateLeft = some t') :
    t'.toList = t.toList := by
  match t, h with
  | node c l k v (node _ rl rk rv rr), h =>
    cases h
    simp [toList]

/-- A rotation to the right leaves the entries. -/
theorem toList_rotateRight {t t' : Pnode KEY CObject} (h : t.rotateRight = some t') :
    t'.toList = t.toList := by
  match t, h with
  | node c (node _ ll lk lv lr) k v r, h =>
    cases h
    simp [toList]

/-- Flipped colours leave the entries. -/
theorem toList_flipColors {t t' : Pnode KEY CObject} (h : t.flipColors = some t') :
    t'.toList = t.toList := by
  match t, h with
  | node c l k v r, h =>
    cases h
    simp [toList]

/-- The fixup leaves the entries. -/
theorem toList_fixup {t t' : Pnode KEY CObject} (h : t.fixup = some t') : t'.toList = t.toList := by
  simp only [fixup, Option.bind_eq_bind, Option.bind_eq_some_iff] at h
  obtain ⟨t₁, h₁, t₂, h₂, h₃⟩ := h
  have e₁ : t₁.toList = t.toList := by
    cases t with
    | null => cases h₁
    | node c l k v r =>
      simp only [fixupRight] at h₁
      split_ifs at h₁
      · exact toList_rotateLeft h₁
      · cases h₁
        rfl
  have e₂ : t₂.toList = t₁.toList := by
    cases t₁ with
    | null => cases h₂
    | node c l k v r =>
      simp only [fixupLeft] at h₂
      split_ifs at h₂
      · obtain ⟨ll, -, h₂⟩ := Option.bind_eq_some_iff.1 h₂
        split_ifs at h₂
        · exact toList_rotateRight h₂
        · cases h₂
          rfl
      · cases h₂
        rfl
  have e₃ : t'.toList = t₂.toList := by
    cases t₂ with
    | null => cases h₃
    | node c l k v r =>
      simp only [fixupFlip] at h₃
      split_ifs at h₃
      · exact toList_flipColors h₃
      · cases h₃
        rfl
  rw [e₃, e₂, e₁]

/-! ## Fixup -/

section
variable {c : RedBlackTreeColor} {n : Nat} {l r : Pnode KEY CObject} {k : KEY} {v : CObject}

/-- Nothing to fix. -/
theorem fixup_kids {cl : RedBlackTreeColor} (hl : Llrb cl n l) (hr : Llrb Black n r) :
    fixup (node c l k v r) = some (node c l k v r) := by
  have hrr := hr.fIsNonNullAndRed
  cases hl with
  | null => simp [fixup, fixupRight, fixupLeft, fixupFlip, hrr]
  | red hll hlr =>
    simp [fixup, fixupRight, fixupLeft, fixupFlip, hrr, pnodeLeft, hll.fIsNonNullAndRed]
  | black hll hlr => simp [fixup, fixupRight, fixupLeft, fixupFlip, hrr]

/-- A red right child becomes a red left one. -/
theorem fixup_right (hl : Llrb Black n l) (hr : Llrb Red n r) :
    ∃ t, fixup (node c l k v r) = some t ∧ Kids c n t := by
  cases hr with
  | @red n rl rr rk rv hrl hrr =>
    refine ⟨node c (node Red l k v rl) rk rv rr, ?_, ⟨.red hl hrl, hrr⟩⟩
    simp [fixup, fixupRight, rotateLeft, fixupLeft, fixupFlip, pnodeLeft, hl.fIsNonNullAndRed,
      hrr.fIsNonNullAndRed]

/-- Two red children become black. -/
theorem fixup_both (hl : Llrb Red n l) (hr : Llrb Red n r) :
    ∃ t, fixup (node c l k v r) = some t ∧ BlackKids c.flip (n + 1) t := by
  cases hl with
  | @red n ll lr lk lv hll hlr =>
    cases hr with
    | @red _ rl rr rk rv hrl hrr =>
      refine ⟨node c.flip (node Black ll lk lv lr) k v (node Black rl rk rv rr), ?_,
        ⟨.black hll hlr, .black hrl hrr⟩⟩
      simp [fixup, fixupRight, rotateLeft, rotateRight, fixupLeft, fixupFlip, pnodeLeft,
        flipColors, flipColor, RedBlackTreeColor.flip]

/-- Two red nodes in a row become the red children of one, and then black. -/
theorem fixup_redRed {ll lr : Pnode KEY CObject} {lk : KEY} {lv : CObject} (hll : Llrb Red n ll)
    (hlr : Llrb Black n lr) (hr : Llrb Black n r) :
    ∃ t, fixup (node c (node Red ll lk lv lr) k v r) = some t ∧ BlackKids c.flip (n + 1) t := by
  refine ⟨node c.flip ll.flipColor lk lv (node Black lr k v r), ?_, ⟨hll.flipColor, .black hlr hr⟩⟩
  simp [fixup, fixupRight, rotateRight, fixupLeft, fixupFlip, pnodeLeft, flipColors, flipColor,
    RedBlackTreeColor.flip, hr.fIsNonNullAndRed, hll.fIsNonNullAndRed]

/-- The node after its left subtree has changed. -/
theorem fixup_left_any {cl : RedBlackTreeColor} (hl : Llrb cl n l) (hr : Llrb Black n r) :
    ∃ t, fixup (node c l k v r) = some t ∧ Kids c n t :=
  ⟨_, fixup_kids hl hr, ⟨hl, hr⟩⟩

/-- The node after its right subtree has changed. -/
theorem fixup_right_any {cr : RedBlackTreeColor} (hl : Llrb Black n l) (hr : Llrb cr n r) :
    ∃ t, fixup (node c l k v r) = some t ∧ Kids c n t := by
  cases cr with
  | Red => exact fixup_right hl hr
  | Black => exact fixup_left_any hl hr

/-- The node with a red link to spare after one of its subtrees has changed. -/
theorem fixup_red_left {cr : RedBlackTreeColor} (hl : Llrb Red n l) (hr : Llrb cr n r) :
    ∃ t, fixup (node c l k v r) = some t ∧ (Kids c n t ∨ BlackKids c.flip (n + 1) t) := by
  cases cr with
  | Red =>
    obtain ⟨t, ht, hk⟩ := fixup_both (c := c) (k := k) (v := v) hl hr
    exact ⟨t, ht, .inr hk⟩
  | Black => exact ⟨_, fixup_kids hl hr, .inl ⟨hl, hr⟩⟩

/-- The fixup of a node with a red right child. -/
theorem fixup_red_right {cl : RedBlackTreeColor} (hl : Llrb cl n l) (hr : Llrb Red n r) :
    ∃ t, fixup (node c l k v r) = some t ∧ (Kids c n t ∨ BlackKids c.flip (n + 1) t) := by
  cases cl with
  | Red => exact fixup_red_left hl hr
  | Black =>
    obtain ⟨t, ht, hk⟩ := fixup_right (c := c) (k := k) (v := v) hl hr
    exact ⟨t, ht, .inl hk⟩

end

/-! ## Roots -/

/-- The trees an operation leaves: the root may be red over a red left child. -/
inductive Rooted : Pnode KEY CObject → Prop
  | null : Rooted null
  | node {c : RedBlackTreeColor} {n : Nat} {t : Pnode KEY CObject} (h : Kids c n t) : Rooted t

/-- A balanced tree is a tree once its root is made black. -/
theorem Llrb.rooted {c : RedBlackTreeColor} {n : Nat} {t : Pnode KEY CObject} (h : Llrb c n t) :
    Rooted t := by
  cases h with
  | null => exact .null
  | red hl hr => exact .node ⟨hl, hr⟩
  | black hl hr => exact .node ⟨hl, hr⟩

/-- A red node over balanced subtrees is balanced, or its left child is red too. -/
theorem Kids.red_cases {n : Nat} {t : Pnode KEY CObject} (h : Kids Red n t) :
    Llrb Red n t ∨ ∃ l k v r, t = .node Red l k v r ∧ Llrb Red n l ∧ Llrb Black n r := by
  obtain @⟨cl, l, r, k, v, hl, hr⟩ := h
  cases cl with
  | Red => exact .inr ⟨l, k, v, r, rfl, hl, hr⟩
  | Black => exact .inl (.red hl hr)

/-! ## Insertion -/

section
variable [LinearOrder KEY] {c cl : RedBlackTreeColor} {n : Nat} {l r : Pnode KEY CObject} {k : KEY}
  {v : CObject}

/-- What an insertion makes of a balanced subtree: a red one may be left over a red child. -/
structure Inserted (c : RedBlackTreeColor) (n : Nat) (t : Pnode KEY CObject) : Prop where
  black : c = Black → ∃ c', Llrb c' n t
  red : c = Red → Kids Red n t

omit [LinearOrder KEY] in
omit [LinearOrder KEY] in
/-- The fixup after an insertion on the left. -/
theorem fixup_inserted_left (hl : Inserted cl n l) (hr : Llrb Black n r) :
    ∃ t, fixup (node c l k v r) = some t ∧
      (Kids c n t ∨ (cl = Red ∧ BlackKids c.flip (n + 1) t)) := by
  cases cl with
  | Black =>
    obtain ⟨c', hl'⟩ := hl.black rfl
    exact ⟨_, fixup_kids hl' hr, .inl ⟨hl', hr⟩⟩
  | Red =>
    rcases (hl.red rfl).red_cases with hl' | ⟨ll, lk, lv, lr, rfl, hll, hlr⟩
    · exact ⟨_, fixup_kids hl' hr, .inl ⟨hl', hr⟩⟩
    · obtain ⟨t, ht, hk⟩ := fixup_redRed (c := c) (k := k) (v := v) hll hlr hr
      exact ⟨t, ht, .inr ⟨rfl, hk⟩⟩

omit [LinearOrder KEY] in
/-- The fixup after an insertion on the right. -/
theorem fixup_inserted_right {cr : RedBlackTreeColor} (hl : Llrb cl n l) (hr : Llrb cr n r) :
    ∃ t, fixup (node c l k v r) = some t ∧
      (Kids c n t ∨ (cl = Red ∧ BlackKids c.flip (n + 1) t)) := by
  cases cl with
  | Black =>
    obtain ⟨t, ht, hk⟩ := fixup_right_any (c := c) (k := k) (v := v) hl hr
    exact ⟨t, ht, .inl hk⟩
  | Red =>
    obtain ⟨t, ht, hk⟩ := fixup_red_left (c := c) (k := k) (v := v) hl hr
    exact ⟨t, ht, hk.imp_right fun hk => ⟨rfl, hk⟩⟩

/-- An insertion at a node, given what it does to the node's subtrees. -/
theorem errInsert_node (key : KEY) (object : CObject) (hl : Llrb cl n l) (hr : Llrb Black n r)
    (ihl : ∃ err l', errInsert key object l = some (err, l') ∧ Inserted cl n l')
    (ihr : ∃ err r', errInsert key object r = some (err, r') ∧ Inserted Black n r') :
    ∃ err t, errInsert key object (node c l k v r) = some (err, t)
      ∧ (Kids c n t ∨ (cl = Red ∧ BlackKids c.flip (n + 1) t)) := by
  rw [errInsert]
  by_cases heq : key = k
  · rw [if_pos heq, fixup_kids hl hr]
    exact ⟨_, _, rfl, .inl ⟨hl, hr⟩⟩
  · rw [if_neg heq]
    by_cases hlt : key < k
    · obtain ⟨err, l', hins, hl'⟩ := ihl
      obtain ⟨t, ht, hk⟩ := fixup_inserted_left (c := c) (k := k) (v := v) hl' hr
      refine ⟨err, t, ?_, hk⟩
      simp [hlt, hins, ht]
    · obtain ⟨err, r', hins, hr'⟩ := ihr
      obtain ⟨cr, hr''⟩ := hr'.black rfl
      obtain ⟨t, ht, hk⟩ := fixup_inserted_right (c := c) (k := k) (v := v) hl hr''
      refine ⟨err, t, ?_, hk⟩
      simp [hlt, hins, ht]

/-- Insertion into a balanced subtree. -/
theorem errInsert_llrb (key : KEY) (object : CObject) {t : Pnode KEY CObject} (h : Llrb c n t) :
    ∃ err t', errInsert key object t = some (err, t') ∧ Inserted c n t' := by
  induction h with
  | null => exact ⟨_, _, rfl, fun _ => ⟨Red, .red .null .null⟩, fun h => nomatch h⟩
  | red hl hr ihl ihr =>
    obtain ⟨err, t', hins, hk⟩ := errInsert_node key object hl hr ihl ihr
    refine ⟨err, t', hins, fun h => (nomatch h), fun _ => ?_⟩
    rcases hk with hk | ⟨hc, -⟩
    · exact hk
    · cases hc
  | black hl hr ihl ihr =>
    obtain ⟨err, t', hins, hk⟩ := errInsert_node key object hl hr ihl ihr
    refine ⟨err, t', hins, fun _ => ?_, fun h => nomatch h⟩
    rcases hk with hk | ⟨-, hk⟩
    · exact ⟨Black, hk.llrb⟩
    · exact ⟨Red, hk.llrb⟩

/-- Insertion keeps the tree balanced. -/
theorem errInsert_rooted (key : KEY) (object : CObject) {t : Pnode KEY CObject} (h : Rooted t) :
    ∃ err t', errInsert key object t = some (err, t') ∧ Rooted t' := by
  cases h with
  | null => exact ⟨_, _, rfl, (Llrb.red .null .null).rooted⟩
  | node h =>
    obtain ⟨hl, hr⟩ := h
    obtain ⟨err, t', hins, hk⟩ := errInsert_node key object hl hr (errInsert_llrb key object hl)
      (errInsert_llrb key object hr)
    refine ⟨err, t', hins, ?_⟩
    rcases hk with hk | ⟨-, hk⟩
    · exact .node hk
    · exact .node hk.kids

end

end Ese.Pnode
