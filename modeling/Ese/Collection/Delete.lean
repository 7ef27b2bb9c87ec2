import Ese.Collection.Balance

/-!
# Deletion

A descent needs a red link at the node or at its left child, which it pushes down; at a root with
two black children and no red link it makes the whole tree one black node lower instead (`Shrunk`).
The induction is on the size of the subtree, since the steps before a descent rotate it.
-/

namespace Ese.Pnode

open RedBlackTreeColor

variable {KEY CObject : Type}

/-! ## The steps before a descent -/

section
variable {c cl : RedBlackTreeColor} {n : Nat} {l r : Pnode KEY CObject} {k : KEY} {v : CObject}

/-- A black subtree with a node: its left child is red, or both of its children are black. -/
theorem Llrb.black_cases (h : Llrb Black n l) (hne : l.toList ≠ []) :
    ∃ m ll lk lv lr, n = m + 1 ∧ l = node Black ll lk lv lr ∧ Llrb Black m lr
      ∧ (Llrb Red m ll ∨ Llrb Black m ll) := by
  cases h with
  | null => exact absurd rfl hne
  | @black c' m ll lr lk lv hll hlr =>
    refine ⟨m, ll, lk, lv, lr, rfl, rfl, hlr, ?_⟩
    cases c' with
    | Red => exact .inl hll
    | Black => exact .inr hll

/-- With a red left child there is nothing to do. -/
theorem stepLeft_red (hl : Llrb Red n l) : (node c l k v r).stepLeft = some (node c l k v r) := by
  simp [stepLeft, fNoRed, hl.fIsNonNullAndRed]

/-- With a red left grandchild there is nothing to do. -/
theorem stepLeft_redLeft {ll lr : Pnode KEY CObject} {lk : KEY} {lv : CObject}
    (hll : Llrb Red n ll) :
    (node c (node Black ll lk lv lr) k v r).stepLeft =
      some (node c (node Black ll lk lv lr) k v r) := by
  simp [stepLeft, fNoRed, pnodeLeft, hll.fIsNonNullAndRed]

/-- Where the sibling has no red left child, the colours are flipped. -/
theorem stepLeft_flip {ll lr rl rr : Pnode KEY CObject} {lk rk : KEY} {lv rv : CObject}
    (hll : Llrb Black n ll) (hrl : Llrb Black n rl) :
    (node c (node Black ll lk lv lr) k v (node Black rl rk rv rr)).stepLeft
      = some (node c.flip (node Red ll lk lv lr) k v (node Red rl rk rv rr)) := by
  simp [stepLeft, fNoRed, pnodeLeft, moveRedLeft, flipColors, flipColor, RedBlackTreeColor.flip,
    hll.fIsNonNullAndRed, hrl.fIsNonNullAndRed]

/-- A red left child of the sibling is rotated over to the left. -/
theorem stepLeft_rotate {ll lr a b rr : Pnode KEY CObject} {lk rk xk : KEY} {lv rv xv : CObject}
    (hll : Llrb Black n ll) :
    (node c (node Black ll lk lv lr) k v (node Black (node Red a xk xv b) rk rv rr)).stepLeft
      = some (node c (node Black (node Red ll lk lv lr) k v a) xk xv (node Black b rk rv rr)) := by
  simp [stepLeft, fNoRed, pnodeLeft, moveRedLeft, flipColors, flipColor, rotateRight, rotateLeft,
    hll.fIsNonNullAndRed]

/-- With a red right child there is nothing to do. -/
theorem stepRight_red (hr : Llrb Red n r) : (node c l k v r).stepRight = some (node c l k v r) := by
  simp [stepRight, fNoRed, hr.fIsNonNullAndRed]

/-- With a red left child of the right child there is nothing to do. -/
theorem stepRight_redLeft {rl rr : Pnode KEY CObject} {rk : KEY} {rv : CObject}
    (hrl : Llrb Red n rl) :
    (node c l k v (node Black rl rk rv rr)).stepRight =
      some (node c l k v (node Black rl rk rv rr)) := by
  simp [stepRight, fNoRed, pnodeLeft, hrl.fIsNonNullAndRed]

/-- Where the sibling has no red left child, the colours are flipped. -/
theorem stepRight_flip {ll lr rl rr : Pnode KEY CObject} {lk rk : KEY} {lv rv : CObject}
    (hll : Llrb Black n ll) (hrl : Llrb Black n rl) :
    (node c (node Black ll lk lv lr) k v (node Black rl rk rv rr)).stepRight
      = some (node c.flip (node Red ll lk lv lr) k v (node Red rl rk rv rr)) := by
  simp [stepRight, fNoRed, pnodeLeft, moveRedRight, flipColors, flipColor, RedBlackTreeColor.flip,
    hll.fIsNonNullAndRed, hrl.fIsNonNullAndRed]

/-- A red left child of the sibling is rotated over to the right. -/
theorem stepRight_rotate {ll lr rl rr : Pnode KEY CObject} {lk rk : KEY} {lv rv : CObject}
    (hll : Llrb Red n ll) (hrl : Llrb Black n rl) :
    (node c (node Black ll lk lv lr) k v (node Black rl rk rv rr)).stepRight
      = some (node c ll.flipColor lk lv (node Black lr k v (node Red rl rk rv rr))) := by
  simp [stepRight, fNoRed, pnodeLeft, moveRedRight, flipColors, flipColor, rotateRight,
    RedBlackTreeColor.flip, hll.fIsNonNullAndRed, hrl.fIsNonNullAndRed]
  cases c <;> rfl

/-- A node that does not lean left stays. -/
theorem leanRight_black (hl : Llrb Black n l) :
    (node c l k v r).leanRight = some (node c l k v r) := by
  simp [leanRight, hl.fIsNonNullAndRed]

/-- A node that leans left is rotated to lean right. -/
theorem leanRight_red {ll lr : Pnode KEY CObject} {lk : KEY} {lv : CObject} :
    (node c (node Red ll lk lv lr) k v r).leanRight =
      some (node c ll lk lv (node Red lr k v r)) := by
  simp [leanRight, rotateRight]

end

/-! ## What a deletion leaves -/

/-- What a deletion makes of a node of color `c` over black subtrees of black height `n`. -/
inductive Shrunk (c : RedBlackTreeColor) : Nat → Pnode KEY CObject → Prop
  | null : Shrunk c 0 null
  | same {n : Nat} {t : Pnode KEY CObject} (h : BlackKids c n t) : Shrunk c n t
  | less {n : Nat} {t : Pnode KEY CObject} (h : Kids c.flip n t) : Shrunk c (n + 1) t

section
variable {c : RedBlackTreeColor} {n : Nat} {t : Pnode KEY CObject}

/-- What is left of a red node is balanced at the height. -/
theorem Shrunk.llrb (h : Shrunk Red n t) : ∃ c, Llrb c n t := by
  cases h with
  | null => exact ⟨_, .null⟩
  | same h => exact ⟨_, h.llrb⟩
  | less h => exact ⟨_, h.llrb⟩

/-- What is left is a tree once its root is made black. -/
theorem Shrunk.rooted (h : Shrunk c n t) : Rooted t := by
  cases h with
  | null => exact .null
  | same h => exact .node h.kids
  | less h => exact .node h

/-- A flipped node after one of its red subtrees has changed. -/
theorem Shrunk.of_flip (h : Kids c.flip n t ∨ BlackKids c.flip.flip (n + 1) t) :
    Shrunk c (n + 1) t := by
  rcases h with h | h
  · exact .less h
  · rw [RedBlackTreeColor.flip_flip] at h
    exact .same h

end

/-! ## The minimum -/

/-- A node has an entry. -/
theorem toList_ne_nil (c : RedBlackTreeColor) (l r : Pnode KEY CObject) (k : KEY) (v : CObject) :
    (node c l k v r).toList ≠ [] := by
  simp [toList]

/-- The least node has the first entry. -/
theorem pnodeMin_eq (t : Pnode KEY CObject) : t.pnodeMin = t.toList.head? := by
  induction t with
  | null => rfl
  | node c l k v r ihl _ =>
    cases l with
    | null => rfl
    | node cl ll lk lv lr =>
      obtain ⟨a, as, h⟩ := List.exists_cons_of_ne_nil (toList_ne_nil cl ll lr lk lv)
      rw [pnodeMin, ihl, toList.eq_2 c, h]
      · rfl
      · intro h
        cases h

section
variable {c : RedBlackTreeColor} {n : Nat} {l r : Pnode KEY CObject} {k : KEY} {v : CObject}

/-- Removal of the minimum from a subtree with a left child. -/
theorem removeMinNode_left {c' : RedBlackTreeColor} {l' r' : Pnode KEY CObject} {k' : KEY}
    {v' : CObject}
    (hne : l.toList ≠ []) (hstep : (node c l k v r).stepLeft = some (node c' l' k' v' r')) :
    removeMinNode (node c l k v r) = (removeMinNode l').bind fun l =>
      fixup (node c' l k' v' r') := by
  rw [removeMinNode]
  cases l with
  | null => exact absurd rfl hne
  | node cl ll lk lv lr =>
    simp only [pnodeLeft, Option.bind_eq_bind, Option.bind_some]
    split
    · rename_i heq
      rw [hstep] at heq
      cases heq
      rfl
    · rename_i hno
      exact absurd hstep (hno _ _ _ _ _)

/-- What the removal of the minimum does to a subtree. -/
def RemovesMin (t : Pnode KEY CObject) (P : Pnode KEY CObject → Prop) : Prop :=
  ∃ t', removeMinNode t = some t' ∧ P t' ∧ t'.toList = t.toList.tail

/-- A removal with a property has every weaker one. -/
theorem RemovesMin.mono {t : Pnode KEY CObject} {P Q : Pnode KEY CObject → Prop}
    (h : RemovesMin t P)
    (hPQ : ∀ t, P t → Q t) : RemovesMin t Q := by
  obtain ⟨t', h₁, h₂, h₃⟩ := h
  exact ⟨t', h₁, hPQ _ h₂, h₃⟩

/-- The step to the left subtree, given what `Fixup_` makes of the node. -/
theorem RemovesMin.step {c' : RedBlackTreeColor} {l' r' : Pnode KEY CObject} {k' : KEY}
    {v' : CObject}
    {P Q : Pnode KEY CObject → Prop} (hne : l.toList ≠ [])
    (hstep : (node c l k v r).stepLeft = some (node c' l' k' v' r'))
    (hlist : (node c' l' k' v' r').toList = (node c l k v r).toList) (hne' : l'.toList ≠ [])
    (ih : RemovesMin l' P)
    (hfix : ∀ l, P l → ∃ t, fixup (node c' l k' v' r') = some t ∧ Q t) :
    RemovesMin (node c l k v r) Q := by
  obtain ⟨l₁, hrun, hP, htail⟩ := ih
  obtain ⟨t, ht, hQ⟩ := hfix l₁ hP
  refine ⟨t, ?_, hQ, ?_⟩
  · rw [removeMinNode_left hne hstep, hrun, Option.bind_some, ht]
  · rw [toList_fixup ht, ← hlist, toList, toList, htail, List.tail_append_of_ne_nil hne']

/-- Removal of the minimum from a node with a red left child, and from one with black children. -/
theorem removesMin (N : Nat) :
    (∀ (c : RedBlackTreeColor) (n : Nat) (l : Pnode KEY CObject) (k : KEY) (v : CObject)
      (r : Pnode KEY CObject), (node c l k v r).size ≤ N → Llrb Red n l → Llrb Black n r →
        RemovesMin (node c l k v r) (Kids c n))
    ∧ (∀ (c : RedBlackTreeColor) (n : Nat) (l : Pnode KEY CObject) (k : KEY) (v : CObject)
      (r : Pnode KEY CObject), (node c l k v r).size ≤ N → Llrb Black n l → Llrb Black n r →
        RemovesMin (node c l k v r) (Shrunk c n)) := by
  induction N with
  | zero =>
    refine ⟨fun c n l k v r hN => ?_, fun c n l k v r hN => ?_⟩
    · simp [size] at hN
    · simp [size] at hN
  | succ N ih =>
    obtain ⟨ihLeft, ihBoth⟩ := ih
    have ihRed (n : Nat) (t : Pnode KEY CObject) (hN : t.size ≤ N) (h : Llrb Red n t) :
        RemovesMin t (fun t => ∃ c, Llrb c n t) := by
      cases h with
      | red hl hr => exact (ihBoth _ _ _ _ _ _ hN hl hr).mono fun t ht => ht.llrb
    refine ⟨fun c n l k v r hN hl hr => ?_, fun c n l k v r hN hl hr => ?_⟩
    · have hne : l.toList ≠ [] := by
        cases hl
        exact toList_ne_nil _ _ _ _ _
      have hsize : l.size ≤ N := by
        simp only [size] at hN
        omega
      refine RemovesMin.step hne (stepLeft_red hl) rfl hne (ihRed n l hsize hl) fun l' hl' => ?_
      obtain ⟨c', hl'⟩ := hl'
      exact fixup_left_any hl' hr
    · by_cases hne : l.toList = []
      · cases hl with
        | null =>
          cases hr
          refine ⟨null, ?_, .null, rfl⟩
          rw [removeMinNode]
          rfl
        | black hll hlr => exact absurd hne (toList_ne_nil _ _ _ _ _)
      · obtain ⟨m, ll, lk, lv, lr, rfl, rfl, hlr, hll⟩ := hl.black_cases hne
        cases hr with
        | @black crl _ rl rr rk rv hrl hrr =>
          simp only [size] at hN
          rcases hll with hll | hll
          · refine RemovesMin.step hne (stepLeft_redLeft hll) rfl hne
              (ihLeft _ m _ _ _ _ (by simp only [size]; omega) hll hlr) fun l' hl' => ?_
            exact ⟨_, fixup_kids hl'.llrb (.black hrl hrr), .same ⟨hl'.llrb, .black hrl hrr⟩⟩
          · cases crl with
            | Red =>
              cases hrl with
              | @red _ a b xk xv ha hb =>
                refine RemovesMin.step hne (stepLeft_rotate hll) (by simp [toList])
                  (toList_ne_nil _ _ _ _ _)
                  (ihLeft _ m _ _ _ _ (by simp only [size] at hN ⊢; omega) (.red hll hlr) ha)
                    fun l' hl' => ?_
                exact ⟨_, fixup_kids hl'.llrb (.black hb hrr), .same ⟨hl'.llrb, .black hb hrr⟩⟩
            | Black =>
              refine RemovesMin.step hne (stepLeft_flip hll hrl) rfl (toList_ne_nil _ _ _ _ _)
                (ihRed m _ (by simp only [size]; omega) (.red hll hlr)) fun l' hl' => ?_
              obtain ⟨c', hl'⟩ := hl'
              obtain ⟨t, ht, hk⟩ := fixup_red_right (c := c.flip) (k := k) (v := v) hl'
                (.red (k := rk) (v := rv) hrl hrr)
              exact ⟨t, ht, .of_flip hk⟩

end

/-! ## Sorted nodes -/

section
variable [LinearOrder KEY]

/-- The binary search property: the keys increase from left to right. -/
def Sorted (t : Pnode KEY CObject) : Prop := t.toList.Pairwise fun a b => a.1 < b.1

/-- The key is in the tree. -/
def HasKey (key : KEY) (t : Pnode KEY CObject) : Prop := ∃ v, (key, v) ∈ t.toList

section
variable {c : RedBlackTreeColor} {l r : Pnode KEY CObject} {k key : KEY} {v : CObject}

/-- The keys on both sides of a node of a sorted tree. -/
theorem Sorted.split (h : Sorted (node c l k v r)) :
    Sorted l ∧ Sorted r ∧ (∀ a ∈ l.toList, a.1 < k) ∧ (∀ a ∈ r.toList, k < a.1)
      ∧ ∀ a ∈ l.toList, ∀ b ∈ r.toList, a.1 < b.1 := by
  rw [Sorted, toList, List.pairwise_append, List.pairwise_cons] at h
  obtain ⟨hl, ⟨hk, hr⟩, hlr⟩ := h
  exact ⟨hl, hr, fun a ha => hlr a ha _ (List.mem_cons_self ..), hk,
    fun a ha b hb => hlr a ha b (List.mem_cons_of_mem _ hb)⟩

omit [LinearOrder KEY] in
/-- A key of a node is on its left, at it or on its right. -/
theorem HasKey.cases (h : HasKey key (node c l k v r)) : HasKey key l ∨ key = k ∨ HasKey key r := by
  obtain ⟨v', hv⟩ := h
  rw [toList, List.mem_append, List.mem_cons] at hv
  rcases hv with hv | hv | hv
  · exact .inl ⟨v', hv⟩
  · exact .inr (.inl (congrArg Prod.fst hv))
  · exact .inr (.inr ⟨v', hv⟩)

/-- A key below a node's is on its left. -/
theorem HasKey.left (h : HasKey key (node c l k v r)) (hs : Sorted (node c l k v r))
    (hlt : key < k) :
    HasKey key l := by
  rcases h.cases with h | h | ⟨v', h⟩
  · exact h
  · exact absurd hlt (h ▸ lt_irrefl k)
  · exact absurd (hs.split.2.2.2.1 _ h) (lt_asymm hlt)

/-- A key above a node's is on its right. -/
theorem HasKey.right (h : HasKey key (node c l k v r)) (hs : Sorted (node c l k v r))
    (hlt : k < key) :
    HasKey key r := by
  rcases h.cases with ⟨v', h⟩ | h | h
  · exact absurd (hs.split.2.2.1 _ h) (lt_asymm hlt)
  · exact absurd hlt (h ▸ lt_irrefl key)
  · exact h

omit [LinearOrder KEY] in
/-- A tree with a key is not empty. -/
theorem HasKey.ne_nil {t : Pnode KEY CObject} (h : HasKey key t) : t.toList ≠ [] := by
  obtain ⟨v', h⟩ := h
  exact List.ne_nil_of_mem h

end

/-! ## The equations of a deletion -/

section
variable {c₀ c₁ c : RedBlackTreeColor} {l₀ r₀ l₁ r₁ l r : Pnode KEY CObject} {k₀ k₁ k key : KEY}
  {v₀ v₁ v : CObject}

/-- A deletion below the key goes left, after the step that makes it red there. -/
theorem delete_left (hlt : key < k₀)
    (hstep : (node c₀ l₀ k₀ v₀ r₀).stepLeft = some (node c l k v r)) :
    delete key (node c₀ l₀ k₀ v₀ r₀)
      = (delete key l).bind fun p => (fixup (node c p.1 k v r)).bind fun t => some (t, p.2) := by
  rw [delete, if_pos hlt]
  split
  · rename_i heq
    rw [hstep] at heq
    cases heq
    rfl
  · rename_i hno
    exact absurd hstep (hno _ _ _ _ _)

/-- The node is a leaf. -/
theorem delete_leaf (hge : ¬ key < k₀)
    (hlean : (node c₀ l₀ k₀ v₀ r₀).leanRight = some (node c₁ l₁ key v₁ null)) :
    delete key (node c₀ l₀ k₀ v₀ r₀) = some (null, v₁) := by
  rw [delete, if_neg hge]
  split
  · rename_i heq
    rw [hlean] at heq
    cases heq
    rw [if_pos ⟨rfl, rfl⟩]
    rfl
  · rename_i hno
    exact absurd hlean (hno _ _ _ _ _)

/-- A deletion at the key or above it goes right, after leaning the node and the step there. -/
theorem delete_step (hge : ¬ key < k₀)
    (hlean : (node c₀ l₀ k₀ v₀ r₀).leanRight = some (node c₁ l₁ k₁ v₁ r₁)) (hnull : r₁.toList ≠ [])
    (hstep : (node c₁ l₁ k₁ v₁ r₁).stepRight = some (node c l k v r)) :
    delete key (node c₀ l₀ k₀ v₀ r₀)
      = if key = k then
          r.pnodeMin.bind fun p => r.removeMinNode.bind fun r =>
            (fixup (node c l p.1 p.2 r)).bind fun t => some (t, v)
        else (delete key r).bind fun p => (fixup (node c l k v p.1)).bind fun t =>
          some (t, p.2) := by
  have hnull' : ¬ (key = k₁ ∧ r₁.fNull = true) := by
    cases r₁ with
    | null => exact absurd rfl hnull
    | node => exact fun h => nomatch h.2
  rw [delete, if_neg hge]
  split
  · rename_i heq
    rw [hlean] at heq
    cases heq
    rw [if_neg hnull']
    split
    · rename_i heq
      rw [hstep] at heq
      cases heq
      rfl
    · rename_i hno
      exact absurd hstep (hno _ _ _ _ _)
  · rename_i hno
    exact absurd hlean (hno _ _ _ _ _)

end

/-! ## The deleted node -/

/-- The nodes without the one under the key. -/
def Removes (key : KEY) (object : CObject) (xs ys : List (KEY × CObject)) : Prop :=
  ∃ xs₁ xs₂, xs = xs₁ ++ (key, object) :: xs₂ ∧ ys = xs₁ ++ xs₂

omit [LinearOrder KEY] in
/-- A removal from a part is one from the whole. -/
theorem Removes.append {key : KEY} {object : CObject} {xs ys : List (KEY × CObject)}
    (h : Removes key object xs ys) (as bs : List (KEY × CObject)) :
    Removes key object (as ++ xs ++ bs) (as ++ ys ++ bs) := by
  obtain ⟨xs₁, xs₂, rfl, rfl⟩ := h
  exact ⟨as ++ xs₁, xs₂ ++ bs, by simp, by simp⟩

/-- What a deletion does to a subtree. -/
def Deletes (key : KEY) (t : Pnode KEY CObject) (P : Pnode KEY CObject → Prop) : Prop :=
  ∃ t' object, delete key t = some (t', object) ∧ P t' ∧ Removes key object t.toList t'.toList

/-- A deletion with a property has every weaker one. -/
theorem Deletes.mono {key : KEY} {t : Pnode KEY CObject} {P Q : Pnode KEY CObject → Prop}
    (h : Deletes key t P) (hPQ : ∀ t, P t → Q t) : Deletes key t Q := by
  obtain ⟨t', object, h₁, h₂, h₃⟩ := h
  exact ⟨t', object, h₁, hPQ _ h₂, h₃⟩

section
variable {c₀ c₁ c : RedBlackTreeColor} {l₀ r₀ l₁ r₁ l r : Pnode KEY CObject} {k₀ k₁ k key : KEY}
  {v₀ v₁ v : CObject} {P Q : Pnode KEY CObject → Prop}

/-- The descent to the left, given what `Fixup_` makes of the node. -/
theorem Deletes.left (hlt : key < k₀)
    (hstep : (node c₀ l₀ k₀ v₀ r₀).stepLeft = some (node c l k v r))
    (hlist : (node c l k v r).toList = (node c₀ l₀ k₀ v₀ r₀).toList) (ih : Deletes key l P)
    (hfix : ∀ l, P l → ∃ t, fixup (node c l k v r) = some t ∧ Q t) :
    Deletes key (node c₀ l₀ k₀ v₀ r₀) Q := by
  obtain ⟨l', object, hrun, hP, hrem⟩ := ih
  obtain ⟨t, ht, hQ⟩ := hfix l' hP
  refine ⟨t, object, ?_, hQ, ?_⟩
  · rw [delete_left hlt hstep, hrun]
    simp [ht]
  · rw [toList_fixup ht, ← hlist, toList, toList]
    exact hrem.append [] _

/-- The descent to the right: the key is below, or the minimum takes the place of the node. -/
theorem Deletes.right (hge : ¬ key < k₀)
    (hlean : (node c₀ l₀ k₀ v₀ r₀).leanRight = some (node c₁ l₁ k₁ v₁ r₁)) (hnull : r₁.toList ≠ [])
    (hstep : (node c₁ l₁ k₁ v₁ r₁).stepRight = some (node c l k v r))
    (hlist : (node c l k v r).toList = (node c₀ l₀ k₀ v₀ r₀).toList) (hne : r.toList ≠ [])
    (ih : key ≠ k → Deletes key r P) (hmin : key = k → RemovesMin r P)
    (hfix : ∀ k v r, P r → ∃ t, fixup (node c l k v r) = some t ∧ Q t) :
    Deletes key (node c₀ l₀ k₀ v₀ r₀) Q := by
  by_cases hk : key = k
  · subst hk
    obtain ⟨r', hrun, hP, htail⟩ := hmin rfl
    obtain ⟨⟨kMin, vMin⟩, as, has⟩ := List.exists_cons_of_ne_nil hne
    obtain ⟨t, ht, hQ⟩ := hfix kMin vMin r' hP
    refine ⟨t, v, ?_, hQ, ?_⟩
    · rw [delete_step hge hlean hnull hstep, if_pos rfl, pnodeMin_eq, has]
      simp [hrun, ht]
    · rw [toList_fixup ht, ← hlist, toList, toList, htail, has]
      exact ⟨l.toList, (kMin, vMin) :: as, rfl, rfl⟩
  · obtain ⟨r', object, hrun, hP, hrem⟩ := ih hk
    obtain ⟨t, ht, hQ⟩ := hfix k v r' hP
    refine ⟨t, object, ?_, hQ, ?_⟩
    · rw [delete_step hge hlean hnull hstep, if_neg hk, hrun]
      simp [ht]
    · rw [toList_fixup ht, ← hlist, toList, toList]
      have := hrem.append (l.toList ++ [(k, v)]) []
      simpa using this

end

/-- A leaf is deleted. -/
theorem Deletes.leaf {c : RedBlackTreeColor} {key : KEY} {v : CObject} :
    Deletes key (node c null key v null) (Shrunk c 0) :=
  ⟨null, v, delete_leaf (lt_irrefl key) (leanRight_black .null), .null, [], [], rfl, rfl⟩

/-! ## Deletion keeps the balance -/

/-- Deletion from subtrees of at most `N` nodes: from a node with a red left child, from one with a
red right child whose key is not above the deleted one, and from one with two black children. -/
structure DeletesUpTo (key : KEY) (CObject : Type) (N : Nat) : Prop where
  left : ∀ {c : RedBlackTreeColor} {n : Nat} {l r : Pnode KEY CObject} {k : KEY} {v : CObject},
    (node c l k v r).size ≤ N → Llrb Red n l → Llrb Black n r → Sorted (node c l k v r) →
      HasKey key (node c l k v r) → Deletes key (node c l k v r) (Kids c n)
  right : ∀ {c : RedBlackTreeColor} {n : Nat} {l r : Pnode KEY CObject} {k : KEY} {v : CObject},
    (node c l k v r).size ≤ N → Llrb Black n l → Llrb Red n r → ¬ key < k →
      Sorted (node c l k v r) →
      HasKey key (node c l k v r) → Deletes key (node c l k v r) (Kids c n)
  both : ∀ {c : RedBlackTreeColor} {n : Nat} {l r : Pnode KEY CObject} {k : KEY} {v : CObject},
    (node c l k v r).size ≤ N → Llrb Black n l → Llrb Black n r → Sorted (node c l k v r) →
      HasKey key (node c l k v r) → Deletes key (node c l k v r) (Shrunk c n)

omit [LinearOrder KEY] in
/-- A red tree is not empty. -/
theorem Llrb.red_ne_nil {n : Nat} {t : Pnode KEY CObject} (h : Llrb Red n t) : t.toList ≠ [] := by
  cases h
  exact toList_ne_nil _ _ _ _ _

omit [LinearOrder KEY] in
/-- The least entry of a red tree can be removed at its height. -/
theorem Llrb.removesMin {n : Nat} {t : Pnode KEY CObject} (h : Llrb Red n t) :
    RemovesMin t (fun t => ∃ c, Llrb c n t) := by
  cases h with
  | red hl hr =>
    exact ((Pnode.removesMin _).2 _ _ _ _ _ _ (Nat.le_refl _) hl hr).mono fun t ht => ht.llrb

omit [LinearOrder KEY] in
/-- A key depends on the entries only. -/
theorem HasKey.of_toList {key : KEY} {t t' : Pnode KEY CObject} (h : HasKey key t)
    (ht : t'.toList = t.toList) : HasKey key t' := by
  rw [HasKey, ht]
  exact h

/-- The order of a tree depends on the entries only. -/
theorem Sorted.of_toList {t t' : Pnode KEY CObject} (h : Sorted t) (ht : t'.toList = t.toList) :
    Sorted t' := by
  rw [Sorted, ht]
  exact h

section
variable {key : KEY} {N : Nat} (ih : DeletesUpTo key CObject N) {c : RedBlackTreeColor} {n : Nat}
  {l r : Pnode KEY CObject} {k : KEY} {v : CObject}
include ih

/-- A key of a red tree can be deleted at its height. -/
theorem DeletesUpTo.red {t : Pnode KEY CObject} (hN : t.size ≤ N) (h : Llrb Red n t) (hs : Sorted t)
    (hk : HasKey key t) : Deletes key t (fun t => ∃ c, Llrb c n t) := by
  cases h with
  | red hl hr => exact (ih.both hN hl hr hs hk).mono fun t ht => ht.llrb

/-- A red left child is rotated to the right, unless the descent is to the left. -/
theorem DeletesUpTo.left_succ (hN : (node c l k v r).size ≤ N + 1) (hl : Llrb Red n l)
    (hr : Llrb Black n r) (hs : Sorted (node c l k v r)) (hk : HasKey key (node c l k v r)) :
    Deletes key (node c l k v r) (Kids c n) := by
  simp only [size] at hN
  by_cases hlt : key < k
  · refine Deletes.left hlt (stepLeft_red hl) rfl
      (ih.red (by omega) hl hs.split.1 (hk.left hs hlt)) fun l' hl' => ?_
    obtain ⟨c', hl'⟩ := hl'
    exact fixup_left_any hl' hr
  · cases hl with
    | @red _ ll lr lk lv hll hlr =>
      have hlk : lk < key := lt_of_lt_of_le
        (hs.split.2.2.1 (lk, lv) (by simp [toList])) (not_lt.1 hlt)
      have hlist : (node c ll lk lv (node Red lr k v r)).toList
          = (node c (node Red ll lk lv lr) k v r).toList := by simp [toList]
      have hs' := hs.of_toList hlist
      have hred : Llrb Red n (node Red lr k v r) := .red hlr hr
      refine Deletes.right hlt leanRight_red hred.red_ne_nil (stepRight_red hred) hlist
        hred.red_ne_nil (fun _ => ih.red (by simp only [size] at hN ⊢; omega) hred hs'.split.2.1
          ((hk.of_toList hlist).right hs' hlk))
        (fun heq => absurd hlk (heq ▸ lt_irrefl _)) fun k' v' r' hr' => ?_
      obtain ⟨c', hr'⟩ := hr'
      exact fixup_right_any hll hr'

/-- A key at or above that of a node with a red right child can be deleted. -/
theorem DeletesUpTo.right_succ (hN : (node c l k v r).size ≤ N + 1) (hl : Llrb Black n l)
    (hr : Llrb Red n r) (hge : ¬ key < k) (hs : Sorted (node c l k v r))
    (hk : HasKey key (node c l k v r)) : Deletes key (node c l k v r) (Kids c n) := by
  simp only [size] at hN
  refine Deletes.right hge (leanRight_black hl) hr.red_ne_nil (stepRight_red hr) rfl
    hr.red_ne_nil (fun hne => ih.red (by omega) hr hs.split.2.1
      (hk.right hs (lt_of_le_of_ne (not_lt.1 hge) (Ne.symm hne))))
    (fun _ => hr.removesMin) fun k' v' r' hr' => ?_
  obtain ⟨c', hr'⟩ := hr'
  exact fixup_right_any hl hr'

/-- The descent to the left from a node without a red link. -/
theorem DeletesUpTo.both_left (hN : (node c l k v r).size ≤ N + 1) (hl : Llrb Black n l)
    (hr : Llrb Black n r) (hs : Sorted (node c l k v r)) (hk : HasKey key (node c l k v r))
    (hlt : key < k) : Deletes key (node c l k v r) (Shrunk c n) := by
  have hkl := hk.left hs hlt
  obtain ⟨m, ll, lk, lv, lr, rfl, rfl, hlr, hll⟩ := hl.black_cases hkl.ne_nil
  cases hr with
  | @black crl _ rl rr rk rv hrl hrr =>
    simp only [size] at hN
    rcases hll with hll | hll
    · refine Deletes.left hlt (stepLeft_redLeft hll) rfl
        (ih.left (by simp only [size]; omega) hll hlr hs.split.1 hkl) fun l' hl' => ?_
      exact ⟨_, fixup_kids hl'.llrb (.black hrl hrr), .same ⟨hl'.llrb, .black hrl hrr⟩⟩
    · cases crl with
      | Red =>
        -- the right child lends a node
        cases hrl with
        | @red _ a b xk xv ha hb =>
          have hlist : (node c (node Black (node Red ll lk lv lr) k v a) xk xv
                (node Black b rk rv rr)).toList
              = (node c (node Black ll lk lv lr) k v
                (node Black (node Red a xk xv b) rk rv rr)).toList := by simp [toList]
          have hs' := hs.of_toList hlist
          have hkx : key < xk := lt_trans hlt (hs'.split.2.2.1 (k, v) (by simp [toList]))
          refine Deletes.left hlt (stepLeft_rotate hll) hlist
            (ih.left (by simp only [size] at hN ⊢; omega) (.red hll hlr) ha hs'.split.1
              ((hk.of_toList hlist).left hs' hkx)) fun l' hl' => ?_
          exact ⟨_, fixup_kids hl'.llrb (.black hb hrr), .same ⟨hl'.llrb, .black hb hrr⟩⟩
      | Black =>
        refine Deletes.left hlt (stepLeft_flip hll hrl) rfl
          (ih.red (by simp only [size]; omega) (.red hll hlr) hs.split.1 hkl) fun l' hl' => ?_
        obtain ⟨c', hl'⟩ := hl'
        obtain ⟨t, ht, hkids⟩ := fixup_red_right (c := c.flip) (k := k) (v := v) hl'
          (.red (k := rk) (v := rv) hrl hrr)
        exact ⟨t, ht, .of_flip hkids⟩

/-- The descent to the right from a node without a red link. -/
theorem DeletesUpTo.both_right (hN : (node c l k v r).size ≤ N + 1) (hl : Llrb Black n l)
    (hr : Llrb Black n r) (hs : Sorted (node c l k v r)) (hk : HasKey key (node c l k v r))
    (hge : ¬ key < k) (hne : r.toList ≠ []) : Deletes key (node c l k v r) (Shrunk c n) := by
  obtain ⟨m, rl, rk, rv, rr, rfl, rfl, hrr, hrl⟩ := hr.black_cases hne
  have hkr (hkne : key ≠ k) := hk.right hs (lt_of_le_of_ne (not_lt.1 hge) (Ne.symm hkne))
  cases hl with
  | @black cll _ ll lr lk lv hll hlr =>
    have hlblack : Llrb Black (m + 1) (node Black ll lk lv lr) := .black hll hlr
    have hlean := leanRight_black (c := c) (k := k) (v := v) (r := node Black rl rk rv rr) hlblack
    simp only [size] at hN
    rcases hrl with hrl | hrl
    · refine Deletes.right hge hlean hne (stepRight_redLeft hrl) rfl hne
        (fun hkne => ih.left (by simp only [size]; omega) hrl hrr hs.split.2.1 (hkr hkne))
        (fun _ => (removesMin _).1 _ _ _ _ _ _ (Nat.le_refl _) hrl hrr) fun k' v' r' hr' => ?_
      exact ⟨_, fixup_kids hlblack hr'.llrb, .same ⟨hlblack, hr'.llrb⟩⟩
    · cases cll with
      | Red =>
        -- the left child lends a node
        have hlist : (node c ll.flipColor lk lv (node Black lr k v (node Red rl rk rv rr))).toList
            = (node c (node Black ll lk lv lr) k v (node Black rl rk rv rr)).toList := by
          simp [toList]
        have hs' := hs.of_toList hlist
        have hlk : lk < key := lt_of_lt_of_le
          (hs.split.2.2.1 (lk, lv) (by simp [toList])) (not_lt.1 hge)
        refine Deletes.right hge hlean hne (stepRight_rotate hll hrl) hlist
          (toList_ne_nil _ _ _ _ _)
          (fun _ => ih.right (by simp only [size] at hN ⊢; omega) hlr (.red hrl hrr) hge
            hs'.split.2.1 ((hk.of_toList hlist).right hs' hlk))
          (fun heq => absurd hlk (heq ▸ lt_irrefl _)) fun k' v' r' hr' => ?_
        exact ⟨_, fixup_kids hll.flipColor hr'.llrb, .same ⟨hll.flipColor, hr'.llrb⟩⟩
      | Black =>
        have hred : Llrb Red m (node Red rl rk rv rr) := .red hrl hrr
        refine Deletes.right hge hlean hne (stepRight_flip hll hrl) rfl (toList_ne_nil _ _ _ _ _)
          (fun hkne => ih.red (by simp only [size]; omega) hred hs.split.2.1 (hkr hkne))
          (fun _ => hred.removesMin) fun k' v' r' hr' => ?_
        obtain ⟨c', hr'⟩ := hr'
        obtain ⟨t, ht, hkids⟩ := fixup_red_left (c := c.flip) (k := k') (v := v')
          (.red (k := lk) (v := lv) hll hlr) hr'
        exact ⟨t, ht, .of_flip hkids⟩

/-- A key of a node with black children can be deleted, and the node may shrink. -/
theorem DeletesUpTo.both_succ (hN : (node c l k v r).size ≤ N + 1) (hl : Llrb Black n l)
    (hr : Llrb Black n r) (hs : Sorted (node c l k v r)) (hk : HasKey key (node c l k v r)) :
    Deletes key (node c l k v r) (Shrunk c n) := by
  by_cases hlt : key < k
  · exact ih.both_left hN hl hr hs hk hlt
  · by_cases hne : r.toList = []
    · cases hr with
      | black => exact absurd hne (toList_ne_nil _ _ _ _ _)
      | null =>
        cases hl
        obtain ⟨v', hv'⟩ := hk
        obtain ⟨rfl, rfl⟩ : key = k ∧ v' = v := by simpa [toList] using hv'
        exact Deletes.leaf
    · exact ih.both_right hN hl hr hs hk hlt hne

end

/-- A key of a sorted balanced tree can be deleted, by induction on the size. -/
theorem deletesUpTo (key : KEY) (N : Nat) : DeletesUpTo key CObject N := by
  induction N with
  | zero =>
    refine ⟨fun hN => ?_, fun hN => ?_, fun hN => ?_⟩
    · simp [size] at hN
    · simp [size] at hN
    · simp [size] at hN
  | succ N ih => exact ⟨ih.left_succ, ih.right_succ, ih.both_succ⟩

/-- Deletion of a key from a tree that has it. -/
theorem delete_rooted {key : KEY} {t : Pnode KEY CObject} (h : Rooted t) (hs : Sorted t)
    (hk : HasKey key t) : Deletes key t Rooted := by
  cases h with
  | null => exact absurd rfl hk.ne_nil
  | node h =>
    obtain @⟨cl, l, r, k, v, hl, hr⟩ := h
    cases cl with
    | Red => exact ((deletesUpTo key _).left (Nat.le_refl _) hl hr hs hk).mono fun _ ht => .node ht
    | Black => exact ((deletesUpTo key _).both (Nat.le_refl _) hl hr hs hk).mono fun _ ht =>
      ht.rooted

end

end Ese.Pnode
