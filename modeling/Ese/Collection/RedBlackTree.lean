import Mathlib.Order.Defs.LinearOrder
import Mathlib.Tactic.Linarith

/-!
# The invasive red-black tree

`InvasiveRedBlackTree` is a left-leaning red-black tree whose nodes live in the client's objects. A
node is modelled with the subtrees its links lead to, so a link operation builds the node it leaves;
an object that is inserted is in no tree. `none` is the dereference of a null link. Unlike the
textbook version no operation forces the root to be black.
-/

namespace Ese

/-- The color of a node in a Red-Black tree. -/
inductive RedBlackTreeColor where
  | Red
  | Black
  deriving DecidableEq, Repr

namespace RedBlackTreeColor

/-- The other colour. -/
def flip : RedBlackTreeColor → RedBlackTreeColor
  | Red => Black
  | Black => Red

/-- The other colour than red is black. -/
@[simp] theorem flip_red : Red.flip = Black := rfl

/-- The other colour than black is red. -/
@[simp] theorem flip_black : Black.flip = Red := rfl

/-- The other colour of the other one is the colour. -/
@[simp] theorem flip_flip (c : RedBlackTreeColor) : c.flip.flip = c := by cases c <;> rfl

end RedBlackTreeColor

/-- A link to a node: its color, left link, key, object and right link. -/
inductive Pnode (KEY CObject : Type) where
  | null
  | node (color : RedBlackTreeColor) (left : Pnode KEY CObject) (key : KEY) (object : CObject)
      (right : Pnode KEY CObject)
  deriving DecidableEq, Repr

namespace Pnode

open RedBlackTreeColor

variable {KEY CObject : Type}

/-- The number of nodes. -/
def size : Pnode KEY CObject → Nat
  | null => 0
  | node _ l _ _ r => l.size + r.size + 1

/-- `FIsNonNullAndRed`. -/
def fIsNonNullAndRed : Pnode KEY CObject → Bool
  | node Red _ _ _ _ => true
  | _ => false

/-- The null tree is not red. -/
@[simp] theorem fIsNonNullAndRed_null : (null : Pnode KEY CObject).fIsNonNullAndRed = false := rfl

/-- A red node is red. -/
@[simp] theorem fIsNonNullAndRed_red (l r : Pnode KEY CObject) (k : KEY) (v : CObject) :
    (node Red l k v r).fIsNonNullAndRed = true := rfl

/-- A black node is not red. -/
@[simp] theorem fIsNonNullAndRed_black (l r : Pnode KEY CObject) (k : KEY) (v : CObject) :
    (node Black l k v r).fIsNonNullAndRed = false := rfl

/-- Whether the tree is null. -/
def fNull : Pnode KEY CObject → Bool
  | null => true
  | _ => false

/-- The left child; the null tree has none to dereference. -/
def pnodeLeft : Pnode KEY CObject → Option (Pnode KEY CObject)
  | null => none
  | node _ l _ _ _ => some l

/-- `RotateLeft`, which dereferences the right child. -/
def rotateLeft : Pnode KEY CObject → Option (Pnode KEY CObject)
  | node c l k v (node _ rl rk rv rr) => some (node c (node Red l k v rl) rk rv rr)
  | _ => none

/-- `RotateRight`, which dereferences the left child. -/
def rotateRight : Pnode KEY CObject → Option (Pnode KEY CObject)
  | node c (node _ ll lk lv lr) k v r => some (node c ll lk lv (node Red lr k v r))
  | _ => none

/-- `FlipColor` of a child, if there is one. -/
def flipColor : Pnode KEY CObject → Pnode KEY CObject
  | null => null
  | node c l k v r => node c.flip l k v r

/-- `FlipColors` of a node and its children. -/
def flipColors : Pnode KEY CObject → Option (Pnode KEY CObject)
  | null => none
  | node c l k v r => some (node c.flip l.flipColor k v r.flipColor)

/-- The rotation of a right-leaning red node. -/
def fixupRight : Pnode KEY CObject → Option (Pnode KEY CObject)
  | null => none
  | t@(node _ _ _ _ r) => if r.fIsNonNullAndRed then t.rotateLeft else return t

/-- The rotation of two red nodes in a row. -/
def fixupLeft : Pnode KEY CObject → Option (Pnode KEY CObject)
  | null => none
  | t@(node _ l _ _ _) =>
    if l.fIsNonNullAndRed then do
      if (← l.pnodeLeft).fIsNonNullAndRed then t.rotateRight else return t
    else return t

/-- The flip of two red children. -/
def fixupFlip : Pnode KEY CObject → Option (Pnode KEY CObject)
  | null => none
  | t@(node _ l _ _ r) => if l.fIsNonNullAndRed ∧ r.fIsNonNullAndRed then t.flipColors else return t

/-- `Fixup`, on the way up from an insertion or a deletion. -/
def fixup (t : Pnode KEY CObject) : Option (Pnode KEY CObject) := do
  (← (← t.fixupRight).fixupLeft).fixupFlip

/-- `MoveRedRight`, which makes the right child or a child of it red. -/
def moveRedRight (t : Pnode KEY CObject) : Option (Pnode KEY CObject) := do
  let t ← t.flipColors
  let l ← t.pnodeLeft
  if (← l.pnodeLeft).fIsNonNullAndRed then (← t.rotateRight).flipColors else return t

/-- `MoveRedLeft`, which makes the left child or a child of it red. -/
def moveRedLeft (t : Pnode KEY CObject) : Option (Pnode KEY CObject) := do
  match ← t.flipColors with
  | null => none
  | node c l k v r =>
    if (← r.pnodeLeft).fIsNonNullAndRed then
      (← (node c l k v (← r.rotateRight)).rotateLeft).flipColors
    else return node c l k v r

/-- Neither the child nor its left child is red; the test of the latter dereferences the child. -/
def fNoRed (t : Pnode KEY CObject) : Option Bool :=
  if t.fIsNonNullAndRed then return false else do return !(← t.pnodeLeft).fIsNonNullAndRed

/-- The step before a descent to the left. -/
def stepLeft : Pnode KEY CObject → Option (Pnode KEY CObject)
  | null => none
  | t@(node _ l _ _ _) => do if ← l.fNoRed then t.moveRedLeft else return t

/-- The step before a descent to the right. -/
def stepRight : Pnode KEY CObject → Option (Pnode KEY CObject)
  | null => none
  | t@(node _ _ _ _ r) => do if ← r.fNoRed then t.moveRedRight else return t

/-- The rotation before the comparison with the key. -/
def leanRight : Pnode KEY CObject → Option (Pnode KEY CObject)
  | null => none
  | t@(node _ l _ _ _) => if l.fIsNonNullAndRed then t.rotateRight else return t

/-! ## Sizes -/

/-- Another colour leaves the number of nodes. -/
@[simp] theorem size_flipColor (t : Pnode KEY CObject) : t.flipColor.size = t.size := by
  cases t <;> rfl

/-- A rotation to the left leaves the number of nodes. -/
theorem size_rotateLeft {t t' : Pnode KEY CObject} (h : t.rotateLeft = some t') :
    t'.size = t.size := by
  match t, h with
  | node c l k v (node _ rl rk rv rr), h =>
    cases h
    simp only [size]
    omega

/-- A rotation to the right leaves the number of nodes. -/
theorem size_rotateRight {t t' : Pnode KEY CObject} (h : t.rotateRight = some t') :
    t'.size = t.size := by
  match t, h with
  | node c (node _ ll lk lv lr) k v r, h =>
    cases h
    simp only [size]
    omega

/-- Flipped colours leave the number of nodes. -/
theorem size_flipColors {t t' : Pnode KEY CObject} (h : t.flipColors = some t') :
    t'.size = t.size := by
  match t, h with
  | node c l k v r, h =>
    cases h
    simp [size]

/-- Moving red to the right leaves the number of nodes. -/
theorem size_moveRedRight {t t' : Pnode KEY CObject} (h : t.moveRedRight = some t') :
    t'.size = t.size := by
  simp only [moveRedRight, Option.bind_eq_bind, Option.bind_eq_some_iff] at h
  obtain ⟨t₁, h₁, l, -, ll, -, h⟩ := h
  split_ifs at h
  · obtain ⟨t₂, h₂, h₃⟩ := Option.bind_eq_some_iff.1 h
    rw [size_flipColors h₃, size_rotateRight h₂, size_flipColors h₁]
  · cases h
    exact size_flipColors h₁

/-- Moving red to the left leaves the number of nodes. -/
theorem size_moveRedLeft {t t' : Pnode KEY CObject} (h : t.moveRedLeft = some t') :
    t'.size = t.size := by
  simp only [moveRedLeft, Option.bind_eq_bind, Option.bind_eq_some_iff] at h
  obtain ⟨t₁, h₁, h⟩ := h
  match t₁, h with
  | node c l k v r, h =>
    obtain ⟨rl, -, h⟩ := Option.bind_eq_some_iff.1 h
    split_ifs at h
    · obtain ⟨r', hr, h⟩ := Option.bind_eq_some_iff.1 h
      obtain ⟨t₂, h₂, h₃⟩ := Option.bind_eq_some_iff.1 h
      have hsize : (node c l k v r').size = (node c l k v r).size := by
        simp only [size, size_rotateRight hr]
      rw [size_flipColors h₃, size_rotateLeft h₂, hsize, size_flipColors h₁]
    · cases h
      exact size_flipColors h₁

/-- The step to the left leaves the number of nodes. -/
theorem size_stepLeft {t t' : Pnode KEY CObject} (h : t.stepLeft = some t') : t'.size = t.size := by
  cases t with
  | null => cases h
  | node c l k v r =>
    simp only [stepLeft, Option.bind_eq_bind, Option.bind_eq_some_iff] at h
    obtain ⟨f, -, h⟩ := h
    split_ifs at h
    · exact size_moveRedLeft h
    · cases h
      rfl

/-- The step to the right leaves the number of nodes. -/
theorem size_stepRight {t t' : Pnode KEY CObject} (h : t.stepRight = some t') :
    t'.size = t.size := by
  cases t with
  | null => cases h
  | node c l k v r =>
    simp only [stepRight, Option.bind_eq_bind, Option.bind_eq_some_iff] at h
    obtain ⟨f, -, h⟩ := h
    split_ifs at h
    · exact size_moveRedRight h
    · cases h
      rfl

/-- Leaning right leaves the number of nodes. -/
theorem size_leanRight {t t' : Pnode KEY CObject} (h : t.leanRight = some t') :
    t'.size = t.size := by
  cases t with
  | null => cases h
  | node c l k v r =>
    rw [leanRight] at h
    split_ifs at h
    · exact size_rotateRight h
    · cases h
      rfl

/-! ## Deletion -/

/-- The key and object of the leftmost node. -/
def pnodeMin : Pnode KEY CObject → Option (KEY × CObject)
  | null => none
  | node _ null k v _ => some (k, v)
  | node _ l _ _ _ => pnodeMin l

/-- Removes the minimum (leftmost) node from the subtree. -/
def removeMinNode (t : Pnode KEY CObject) : Option (Pnode KEY CObject) := do
  match ← t.pnodeLeft with
  | null => return null
  | _ =>
    match _h : t.stepLeft with
    | some (node c l k v r) => fixup (node c (← removeMinNode l) k v r)
    | _ => none
termination_by t.size
decreasing_by
  have hsize := size_stepLeft _h
  simp only [size] at hsize
  omega

variable [LinearOrder KEY]

/-- The deletion of a key that is in the tree: the tree it leaves and the object of the deleted
node. -/
def delete (key : KEY) : Pnode KEY CObject → Option (Pnode KEY CObject × CObject)
  | null => none
  | node c₀ l₀ k₀ v₀ r₀ =>
    if key < k₀ then
      match _h : (node c₀ l₀ k₀ v₀ r₀).stepLeft with
      | some (node c l k v r) => do
        let (l, pnodeDeleted) ← delete key l
        return (← fixup (node c l k v r), pnodeDeleted)
      | _ => none
    else
      match _hlean : (node c₀ l₀ k₀ v₀ r₀).leanRight with
      | some (node c₁ l₁ k₁ v₁ r₁) =>
        if key = k₁ ∧ r₁.fNull then return (null, v₁)
        else
          match _hstep : (node c₁ l₁ k₁ v₁ r₁).stepRight with
          | some (node c l k v r) =>
            if key = k then do
              -- the minimum node of the right subtree takes the place of the deleted one
              let (kMin, vMin) ← r.pnodeMin
              let r ← r.removeMinNode
              return (← fixup (node c l kMin vMin r), v)
            else do
              let (r, pnodeDeleted) ← delete key r
              return (← fixup (node c l k v r), pnodeDeleted)
          | _ => none
      | _ => none
termination_by t => t.size
decreasing_by
  · have hsize := size_stepLeft _h
    simp only [size] at hsize ⊢
    omega
  · have hsize := size_leanRight _hlean
    have hsize' := size_stepRight _hstep
    simp only [size] at hsize hsize' ⊢
    omega

/-! ## The tree's operations -/

/-- `Find_`: the object under the key. -/
def find (key : KEY) : Pnode KEY CObject → Option CObject
  | null => none
  | node _ l k v r => if key = k then some v else if key < k then find key l else find key r

/-- API Error Codes -/
inductive ERR where
  | errSuccess
  | errEntryNotFound
  | errDuplicateEntry
  deriving DecidableEq, Repr

/-- `ErrInsert_`: the error and the subtree. -/
def errInsert (key : KEY) (object : CObject) : Pnode KEY CObject → Option (ERR × Pnode KEY CObject)
  | null => some (.errSuccess, node Red null key object null)
  | node c l k v r =>
    if key = k then do return (.errDuplicateEntry, ← fixup (node c l k v r))
    else if key < k then do
      let (err, l) ← errInsert key object l
      return (err, ← fixup (node c l k v r))
    else do
      let (err, r) ← errInsert key object r
      return (err, ← fixup (node c l k v r))

/-- `ErrDelete`: the error, the object of the deleted node and the tree. -/
def errDelete (key : KEY) (t : Pnode KEY CObject) :
    Option (ERR × Option CObject × Pnode KEY CObject) :=
  if (t.find key).isNone then return (.errEntryNotFound, none, t)
  else do
    let (t, pnodeDeleted) ← delete key t
    return (.errSuccess, some pnodeDeleted, t)

end Pnode

end Ese
