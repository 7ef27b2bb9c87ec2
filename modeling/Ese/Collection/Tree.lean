import Mathlib.Logic.Function.Basic
import Ese.Collection.Delete
import Ese.Lib.Run

/-!
# Runs of the tree

A tree stands for a map from keys to objects. Any sequence of insertions, deletions, merges and
`MakeEmpty` on a family of trees does to the maps what it should, and leaves every tree balanced; no
operation dereferences a null link, since the run is defined.
-/

namespace Ese.Pnode

open RedBlackTreeColor

variable {KEY CObject : Type}

/-! ## ErrMerge -/

/-- A tree has a node for each entry. -/
theorem size_eq_length (t : Pnode KEY CObject) : t.size = t.toList.length := by
  induction t with
  | null => rfl
  | node c l k v r ihl ihr =>
    rw [size, toList, List.length_append, List.length_cons, ihl, ihr]
    omega

/-- The fixup leaves the number of nodes. -/
theorem size_fixup {t t' : Pnode KEY CObject} (h : t.fixup = some t') : t'.size = t.size := by
  rw [size_eq_length, size_eq_length, toList_fixup h]

/-- A removal leaves fewer nodes. -/
theorem size_removeMinNode {t t' : Pnode KEY CObject} (h : t.removeMinNode = some t') :
    t'.size < t.size := by
  fun_induction removeMinNode t generalizing t' with
  | case1 t ih =>
    cases t with
    | null => cases h
    | node c₀ l₀ k₀ v₀ r₀ =>
      cases l₀ with
      | null =>
        cases h
        simp only [size]
        omega
      | node =>
        simp only [pnodeLeft, Option.bind_eq_bind, Option.bind_some] at h
        split at h
        · rename_i c l k v r hstep
          obtain ⟨l', hl', hfix⟩ := Option.bind_eq_some_iff.1 h
          have h₁ := ih _ _ _ _ _ hstep hl'
          have h₂ := size_stepLeft hstep
          rw [size_fixup hfix]
          simp only [size] at h₂ ⊢
          omega
        · cases h

variable [LinearOrder KEY]

/-- A deletion leaves fewer nodes. -/
theorem size_delete {key : KEY} {t t' : Pnode KEY CObject} {object : CObject}
    (h : delete key t = some (t', object)) : t'.size < t.size := by
  fun_induction delete key t generalizing t' object with
  | case1 | case3 | case7 | case8 => cases h
  | case2 _ _ _ _ _ _ _ _ _ _ _ hstep ih =>
    simp only [Option.bind_eq_bind, Option.bind_eq_some_iff] at h
    obtain ⟨p, hp, t₁, hfix, he⟩ := h
    cases he
    have h₁ := ih hp
    have h₂ := size_stepLeft hstep
    rw [size_fixup hfix]
    simp only [size] at h₂ ⊢
    omega
  | case4 =>
    cases h
    simp only [size]
    omega
  | case5 _ _ _ _ _ _ _ _ _ _ _ hlean _ _ _ _ _ hstep =>
    simp only [Option.bind_eq_bind, Option.bind_eq_some_iff] at h
    obtain ⟨p, -, r', hr', t₁, hfix, he⟩ := h
    cases he
    have h₁ := size_removeMinNode hr'
    have h₂ := size_leanRight hlean
    have h₃ := size_stepRight hstep
    rw [size_fixup hfix]
    simp only [size] at h₂ h₃ ⊢
    omega
  | case6 _ _ _ _ _ _ _ _ _ _ _ hlean _ _ _ _ _ _ hstep _ ih =>
    simp only [Option.bind_eq_bind, Option.bind_eq_some_iff] at h
    obtain ⟨p, hp, t₁, hfix, he⟩ := h
    cases he
    have h₁ := ih hp
    have h₂ := size_leanRight hlean
    have h₃ := size_stepRight hstep
    rw [size_fixup hfix]
    simp only [size] at h₂ h₃ ⊢
    omega

/-- The deletion of the root's key removes a node. -/
theorem size_errDelete_root {c : RedBlackTreeColor} {l r t' : Pnode KEY CObject} {k : KEY}
    {v : CObject}
    {err : ERR} {o : Option CObject} (h : errDelete k (node c l k v r) = some (err, o, t')) :
    t'.size < (node c l k v r).size := by
  have hfind : (find k (node c l k v r)).isNone = false := by simp [find]
  simp only [errDelete, hfind, Option.bind_eq_bind, Option.bind_eq_some_iff, Bool.false_eq_true,
    if_false] at h
  obtain ⟨p, hp, he⟩ := h
  cases he
  exact size_delete hp

/-- The loop of `ErrMerge`: the destination and the left overs once the source is empty. -/
def mergeLoop (dst leftOvers : Pnode KEY CObject) :
    Pnode KEY CObject → Option (Pnode KEY CObject × Pnode KEY CObject)
  | null => some (dst, leftOvers)
  | node c l keyMove pnodeMove r =>
    match _h : errDelete keyMove (node c l keyMove pnodeMove r) with
    | none => none
    | some (_, _, src) => do
      let (errMove, dst) ← errInsert keyMove pnodeMove dst
      if errMove ≠ .errSuccess then
        let (_, leftOvers) ← errInsert keyMove pnodeMove leftOvers
        mergeLoop dst leftOvers src
      else mergeLoop dst leftOvers src
termination_by t => t.size
decreasing_by
  · exact size_errDelete_root _h
  · exact size_errDelete_root _h

/-- `ErrMerge`: the error, this tree and the source, which are different trees. -/
def errMerge (dst src : Pnode KEY CObject) :
    Option (ERR × Pnode KEY CObject × Pnode KEY CObject) := do
  -- an empty destination takes the source's root
  let (dst, src) := if dst.fNull then (src, null) else (dst, src)
  let (dst, leftOvers) ← mergeLoop dst null src
  if !leftOvers.fNull then return (.errDuplicateEntry, dst, leftOvers)
  else return (.errSuccess, dst, null)

/-! ## The map a tree stands for -/

/-- A tree stands for a map from keys to objects. -/
def Rep (t : Pnode KEY CObject) (m : KEY → Option CObject) : Prop :=
  ∀ k v, (k, v) ∈ t.toList ↔ m k = some v

/-- The trees that stand for maps: search trees that are balanced. -/
structure Tree (t : Pnode KEY CObject) (m : KEY → Option CObject) : Prop where
  rooted : Rooted t
  sorted : Sorted t
  rep : Rep t m

/-- The null tree is the empty map. -/
theorem Tree.null : Tree (null : Pnode KEY CObject) fun _ => none :=
  ⟨.null, List.Pairwise.nil, fun k v => by simp [toList]⟩

/-- The search finds the entries of the tree. -/
theorem find_iff {key : KEY} {t : Pnode KEY CObject} (hs : Sorted t) (v : CObject) :
    find key t = some v ↔ (key, v) ∈ t.toList := by
  induction t with
  | null => simp [find, toList]
  | node c l k v' r ihl ihr =>
    obtain ⟨hsl, hsr, hl, hr, -⟩ := hs.split
    rw [find, toList, List.mem_append, List.mem_cons]
    have hl' (hk : k ≤ key) : (key, v) ∉ l.toList := fun h => absurd (hl _ h) (not_lt.2 hk)
    have hr' (hk : key ≤ k) : (key, v) ∉ r.toList := fun h => absurd (hr _ h) (not_lt.2 hk)
    by_cases heq : key = k
    · subst heq
      simp [hl', hr', eq_comm]
    · by_cases hlt : key < k
      · rw [if_neg heq, if_pos hlt, ihl hsl]
        simp [heq, hr' (le_of_lt hlt)]
      · rw [if_neg heq, if_neg hlt, ihr hsr]
        simp [heq, hl' (not_lt.1 hlt)]

/-- The search reads the map. -/
theorem Tree.find_eq {t : Pnode KEY CObject} {m : KEY → Option CObject} (h : Tree t m) (key : KEY) :
    find key t = m key :=
  Option.ext fun v => (find_iff h.sorted v).trans (h.rep key v)

/-! ## The operations on the map -/

/-- The map of `ErrInsert`. -/
def insertMap (m : KEY → Option CObject) (key : KEY) (object : CObject) :
    ERR × (KEY → Option CObject) :=
  if (m key).isSome then (.errDuplicateEntry, m)
  else (.errSuccess, Function.update m key (some object))

/-- The map of `ErrDelete`, with the object under the key. -/
def deleteMap (m : KEY → Option CObject) (key : KEY) :
    ERR × Option CObject × (KEY → Option CObject) :=
  if (m key).isSome then (.errSuccess, m key, Function.update m key none)
  else (.errEntryNotFound, none, m)

open Classical in
/-- The maps of `ErrMerge`: the destination's own objects win, the source keeps the duplicates. -/
noncomputable def mergeMap (dst src : KEY → Option CObject) :
    ERR × (KEY → Option CObject) × (KEY → Option CObject) :=
  (if ∃ k, (dst k).isSome ∧ (src k).isSome then .errDuplicateEntry else .errSuccess,
    fun k => (dst k).or (src k), fun k => if (dst k).isSome then src k else none)

/-- An insertion adds the entry in its place, or finds the key there. -/
theorem errInsert_toList {key : KEY} {object : CObject} {t t' : Pnode KEY CObject} {err : ERR}
    (h : errInsert key object t = some (err, t')) (hs : Sorted t) :
    (err = .errSuccess ∧ ∃ xs ys, t.toList = xs ++ ys ∧ t'.toList = xs ++ (key, object) :: ys
      ∧ (∀ a ∈ xs, a.1 < key) ∧ ∀ b ∈ ys, key < b.1)
    ∨ (err = .errDuplicateEntry ∧ HasKey key t ∧ t'.toList = t.toList) := by
  induction t generalizing err t' with
  | null =>
    cases h
    exact .inl ⟨rfl, [], [], rfl, rfl, by simp, by simp⟩
  | node c l k v r ihl ihr =>
    obtain ⟨hsl, hsr, hl, hr, -⟩ := hs.split
    simp only [errInsert] at h
    split_ifs at h with heq hlt
    · subst heq
      simp only [Option.bind_eq_bind, Option.bind_eq_some_iff] at h
      obtain ⟨t₁, hfix, he⟩ := h
      cases he
      exact .inr ⟨rfl, ⟨v, by simp [toList]⟩, toList_fixup hfix⟩
    · simp only [Option.bind_eq_bind, Option.bind_eq_some_iff] at h
      obtain ⟨⟨err', l'⟩, hins, t₁, hfix, he⟩ := h
      cases he
      rw [toList_fixup hfix, toList, toList]
      rcases ihl hins hsl with ⟨rfl, xs, ys, hxy, hxy', hx, hy⟩ | ⟨rfl, ⟨v', hv'⟩, hl'⟩
      · refine .inl ⟨rfl, xs, ys ++ (k, v) :: r.toList, by simp [hxy], by simp [hxy'], hx,
          fun b hb => ?_⟩
        rcases List.mem_append.1 hb with hb | hb
        · exact hy b hb
        · rcases List.mem_cons.1 hb with rfl | hb
          · exact hlt
          · exact lt_trans hlt (hr b hb)
      · exact .inr ⟨rfl, ⟨v', List.mem_append_left _ hv'⟩, by rw [hl']⟩
    · have hgt : k < key := lt_of_le_of_ne (not_lt.1 hlt) (Ne.symm heq)
      simp only [Option.bind_eq_bind, Option.bind_eq_some_iff] at h
      obtain ⟨⟨err', r'⟩, hins, t₁, hfix, he⟩ := h
      cases he
      rw [toList_fixup hfix, toList, toList]
      rcases ihr hins hsr with ⟨rfl, xs, ys, hxy, hxy', hx, hy⟩ | ⟨rfl, ⟨v', hv'⟩, hr'⟩
      · refine .inl ⟨rfl, l.toList ++ (k, v) :: xs, ys, by simp [hxy], by simp [hxy'], fun a ha =>
          ?_, hy⟩
        rcases List.mem_append.1 ha with ha | ha
        · exact lt_trans (hl a ha) hgt
        · rcases List.mem_cons.1 ha with rfl | ha
          · exact hgt
          · exact hx a ha
      · exact .inr ⟨rfl, ⟨v', List.mem_append_right _ (List.mem_cons_of_mem _ hv')⟩, by rw [hr']⟩

section
variable {t : Pnode KEY CObject} {m : KEY → Option CObject} (h : Tree t m) (key : KEY)
include h

/-- A key is in the tree when the map has it. -/
theorem Tree.hasKey_iff : HasKey key t ↔ (m key).isSome = true := by
  rw [Option.isSome_iff_exists]
  exact exists_congr fun v => h.rep key v

/-- An insertion into the tree is one into the map. -/
theorem Tree.errInsert (object : CObject) :
    ∃ t', Pnode.errInsert key object t = some ((insertMap m key object).1, t')
      ∧ Tree t' (insertMap m key object).2 := by
  obtain ⟨err, t', hins, hrooted⟩ := errInsert_rooted key object h.rooted
  rw [insertMap]
  rcases errInsert_toList hins h.sorted with ⟨rfl, xs, ys, hxy, hxy', hx, hy⟩ | ⟨rfl, hk, hl⟩
  · have hnew : (m key).isSome = false := by
      rw [Bool.eq_false_iff, Ne, ← h.hasKey_iff key]
      rintro ⟨v, hv⟩
      rw [hxy, List.mem_append] at hv
      exact hv.elim (fun hv => lt_irrefl _ (hx _ hv)) fun hv => lt_irrefl _ (hy _ hv)
    have hsorted := h.sorted
    rw [Sorted, hxy, List.pairwise_append] at hsorted
    simp only [hnew, Bool.false_eq_true, if_false]
    refine ⟨t', hins, hrooted, ?_, fun k v => ?_⟩
    · rw [Sorted, hxy', List.pairwise_append, List.pairwise_cons]
      refine ⟨hsorted.1, ⟨hy, hsorted.2.1⟩, fun a ha b hb => ?_⟩
      rcases List.mem_cons.1 hb with rfl | hb
      · exact hx a ha
      · exact hsorted.2.2 a ha b hb
    · have hrep := h.rep k v
      rw [hxy, List.mem_append] at hrep
      rw [hxy', List.mem_append, List.mem_cons, or_left_comm, hrep]
      by_cases hkk : k = key
      · subst hkk
        rw [Function.update_self]
        simp [Option.isSome_eq_false_iff, Option.isNone_iff_eq_none] at hnew
        simp [hnew, eq_comm]
      · rw [Function.update_of_ne hkk]
        simp [hkk]
  · have hold := (h.hasKey_iff key).1 hk
    simp only [hold, if_true]
    refine ⟨t', hins, hrooted, h.sorted.of_toList hl, fun k v => ?_⟩
    rw [hl]
    exact h.rep k v

/-- A deletion from the tree is one from the map. -/
theorem Tree.errDelete :
    ∃ t', Pnode.errDelete key t = some ((deleteMap m key).1, (deleteMap m key).2.1, t')
      ∧ Tree t' (deleteMap m key).2.2 := by
  rw [Pnode.errDelete, h.find_eq, deleteMap]
  cases hk : m key with
  | none => exact ⟨t, rfl, h⟩
  | some o =>
    have hhas : HasKey key t := (h.hasKey_iff key).2 (by rw [hk]; rfl)
    obtain ⟨t', object, hdel, hrooted, xs, ys, hxs, hys⟩ := delete_rooted h.rooted h.sorted hhas
    have hrep := h.rep
    have hobj : object = o := by
      have := (hrep key object).1 (by rw [hxs]; simp)
      rw [hk] at this
      exact (Option.some.inj this).symm
    subst hobj
    have hsorted := h.sorted
    rw [Sorted, hxs, List.pairwise_append, List.pairwise_cons] at hsorted
    obtain ⟨hx, ⟨hky, hy⟩, hxy⟩ := hsorted
    refine ⟨t', ?_, hrooted, ?_, fun k v => ?_⟩
    · simp [hdel]
    · rw [Sorted, hys, List.pairwise_append]
      exact ⟨hx, hy, fun a ha b hb => hxy a ha b (List.mem_cons_of_mem _ hb)⟩
    · have hkv := hrep k v
      rw [hxs, List.mem_append, List.mem_cons] at hkv
      rw [hys, List.mem_append]
      show _ ↔ Function.update m key none k = some v
      by_cases hkk : k = key
      · subst hkk
        rw [Function.update_self]
        constructor
        · rintro (hv | hv)
          · exact absurd (hxy _ hv _ (List.mem_cons_self ..)) (lt_irrefl _)
          · exact absurd (hky _ hv) (lt_irrefl _)
        · intro hv
          cases hv
      · rw [Function.update_of_ne hkk, ← hkv]
        simp [hkk]

end

/-! ## Merging -/

/-- Equal maps have the same trees. -/
theorem Tree.congr {t : Pnode KEY CObject} {m m' : KEY → Option CObject} (h : Tree t m)
    (hm : ∀ k, m k = m' k) : Tree t m' := by
  rw [← funext hm]
  exact h

/-- A null tree stands for the empty map. -/
theorem Tree.null_eq {m : KEY → Option CObject} (h : Tree (.null : Pnode KEY CObject) m) :
    m = fun _ => none :=
  funext fun k => (h.find_eq k).symm

/-- The loop of `ErrMerge` on an empty source. -/
theorem Tree.mergeLoop_null {dst leftOvers : Pnode KEY CObject} {md ml ms : KEY → Option CObject}
    (hd : Tree dst md) (hl : Tree leftOvers ml) (hs : Tree (.null : Pnode KEY CObject) ms) :
    ∃ dst' leftOvers', Pnode.mergeLoop dst leftOvers .null = some (dst', leftOvers')
      ∧ Tree dst' (fun k => (md k).or (ms k))
      ∧ Tree leftOvers' (fun k => if (md k).isSome ∧ (ms k).isSome then ms k else ml k) := by
  have hms := hs.null_eq
  subst hms
  exact ⟨dst, leftOvers, by rw [Pnode.mergeLoop], by simpa using hd, by simpa using hl⟩

/-- The loop of `ErrMerge`, whose left overs have no key of the source. -/
theorem Tree.mergeLoop (N : Nat) {dst leftOvers src : Pnode KEY CObject}
    {md ml ms : KEY → Option CObject}
    (hN : src.size ≤ N) (hd : Tree dst md) (hl : Tree leftOvers ml) (hs : Tree src ms)
    (hdisj : ∀ k, (ms k).isSome → ml k = none) :
    ∃ dst' leftOvers', Pnode.mergeLoop dst leftOvers src = some (dst', leftOvers')
      ∧ Tree dst' (fun k => (md k).or (ms k))
      ∧ Tree leftOvers' (fun k => if (md k).isSome ∧ (ms k).isSome then ms k else ml k) := by
  induction N generalizing dst leftOvers src md ml ms with
  | zero =>
    cases src with
    | node => simp [size] at hN
    | null => exact hd.mergeLoop_null hl hs
  | succ N ih =>
    cases src with
    | null => exact hd.mergeLoop_null hl hs
    | node c l k v r =>
      have hmk : ms k = some v := (hs.rep k v).1 (by simp [toList])
      obtain ⟨src', hdel, hs'⟩ := hs.errDelete k
      have hsize := size_errDelete_root hdel
      obtain ⟨dst', hins, hd'⟩ := hd.errInsert k v
      have hms' : (deleteMap ms k).2.2 = Function.update ms k none := by
        rw [deleteMap, hmk]
        rfl
      rw [hms'] at hs'
      rw [Pnode.mergeLoop]
      split
      · rename_i hnone
        rw [hdel] at hnone
        cases hnone
      · rename_i heq
        rw [hdel] at heq
        cases heq
        simp only [hins, Option.bind_eq_bind, Option.bind_some]
        by_cases hdup : (md k).isSome = true
        · -- a duplicate goes to the left overs
          obtain ⟨leftOvers', hins', hl'⟩ := hl.errInsert k v
          have hlk : ml k = none := hdisj k (by rw [hmk]; rfl)
          have herr : (insertMap md k v).1 ≠ .errSuccess := by
            rw [insertMap, if_pos hdup]
            intro h
            cases h
          have hmd' : (insertMap md k v).2 = md := by rw [insertMap, if_pos hdup]
          have hml' : (insertMap ml k v).2 = Function.update ml k (some v) := by
            rw [insertMap, hlk]
            rfl
          rw [hmd'] at hd'
          rw [hml'] at hl'
          rw [if_pos herr, hins']
          simp only [Option.bind_some]
          obtain ⟨dst'', leftOvers'', hrun, hd'', hl''⟩ :=
            ih (by omega) hd' hl' hs' fun k' hk' => by
            by_cases hkk : k' = k
            · subst hkk
              simp at hk'
            · rw [Function.update_of_ne hkk] at hk' ⊢
              exact hdisj k' hk'
          refine ⟨dst'', leftOvers'', hrun, ?_, ?_⟩
          · refine hd''.congr fun k' => ?_
            by_cases hkk : k' = k
            · subst hkk
              obtain ⟨o, ho⟩ := Option.isSome_iff_exists.1 hdup
              simp [ho]
            · simp [Function.update_of_ne hkk]
          · refine hl''.congr fun k' => ?_
            by_cases hkk : k' = k
            · subst hkk
              simp [hdup, hmk]
            · simp [Function.update_of_ne hkk]
        · have herr : ¬ (insertMap md k v).1 ≠ .errSuccess := by
            rw [insertMap, if_neg hdup]
            exact fun h => h rfl
          have hmd' : (insertMap md k v).2 = Function.update md k (some v) := by
            rw [insertMap, if_neg hdup]
          rw [hmd'] at hd'
          rw [if_neg herr]
          obtain ⟨dst'', leftOvers'', hrun, hd'', hl''⟩ := ih (by omega) hd' hl hs' fun k' hk' => by
            by_cases hkk : k' = k
            · subst hkk
              simp at hk'
            · rw [Function.update_of_ne hkk] at hk'
              exact hdisj k' hk'
          have hdk : md k = none := by simpa using hdup
          refine ⟨dst'', leftOvers'', hrun, ?_, ?_⟩
          · refine hd''.congr fun k' => ?_
            by_cases hkk : k' = k
            · subst hkk
              simp [hdk, hmk]
            · simp [Function.update_of_ne hkk]
          · refine hl''.congr fun k' => ?_
            by_cases hkk : k' = k
            · subst hkk
              simp [hdk]
            · simp [Function.update_of_ne hkk]

omit [LinearOrder KEY] in
/-- The source is left empty when there is no duplicate. -/
theorem mergeMap_of_disjoint {md ms : KEY → Option CObject} (h : ∀ k, (md k).isSome → ms k = none) :
    mergeMap md ms = (.errSuccess, fun k => (md k).or (ms k), fun _ => none) := by
  rw [mergeMap, if_neg]
  · refine congrArg _ (congrArg _ (funext fun k => ?_))
    split_ifs with hk
    · exact h k hk
    · rfl
  · rintro ⟨k, hd, hs⟩
    rw [h k hd] at hs
    cases hs

/-- A merge of trees is one of maps. -/
theorem Tree.errMerge {dst src : Pnode KEY CObject} {md ms : KEY → Option CObject}
    (hd : Tree dst md)
    (hs : Tree src ms) :
    ∃ dst' src', Pnode.errMerge dst src = some ((mergeMap md ms).1, dst', src')
      ∧ Tree dst' (mergeMap md ms).2.1 ∧ Tree src' (mergeMap md ms).2.2 := by
  cases dst with
  | null =>
    have hmd := hd.null_eq
    subst hmd
    have hempty : mergeMap (fun _ => none) ms =
        (.errSuccess, fun k => (none : Option CObject).or (ms k),
        fun _ => none) := mergeMap_of_disjoint fun k hk => by simp at hk
    refine ⟨src, .null, ?_, hs.congr fun k => (Option.none_or ..).symm, Tree.null.congr fun k => ?_⟩
    · rw [hempty]
      simp [Pnode.errMerge, fNull, Pnode.mergeLoop]
    · rw [hempty]
  | node c l k v r =>
    obtain ⟨dst', leftOvers, hrun, hd', hl⟩ :=
      hd.mergeLoop src.size (Nat.le_refl _) Tree.null hs fun k _ => rfl
    simp only [Pnode.errMerge, fNull, Bool.false_eq_true, if_false, hrun, Option.bind_eq_bind,
      Option.bind_some]
    have hleft : Tree leftOvers fun k' => (mergeMap md ms).2.2 k' := hl.congr fun k' => by
      show _ = if (md k').isSome then ms k' else none
      cases hmd : md k' with
      | none => simp
      | some o => cases ms k' <;> simp
    cases leftOvers with
    | null =>
      have hdisj (k' : KEY) (hk : (md k').isSome) : ms k' = none := by
        have := congrFun hleft.null_eq k'
        rw [mergeMap] at this
        simpa [hk] using this
      refine ⟨dst', .null, ?_, hd', hleft⟩
      rw [mergeMap_of_disjoint hdisj]
      rfl
    | node cl ll lk lv lr =>
      refine ⟨dst', .node cl ll lk lv lr, ?_, hd', hleft⟩
      have hdup : ∃ k, (md k).isSome ∧ (ms k).isSome := by
        have := (hl.rep lk lv).1 (by simp [toList])
        split_ifs at this with hk
        · exact ⟨lk, hk⟩
      rw [mergeMap, if_pos hdup]
      rfl

/-! ## Runs -/

/-- The operations on a family of trees. The object of an insertion is in no tree. -/
inductive Op (ι KEY CObject : Type) where
  | ErrInsert (i : ι) (key : KEY) (pObject : CObject)
  | ErrDelete (i : ι) (key : KEY)
  | ErrMerge (i j : ι) (hij : i ≠ j)
  | MakeEmpty (i : ι)

section
variable {ι : Type} [DecidableEq ι]

/-- An operation on the trees: the error, and the object a deletion returns. -/
def apply (s : ι → Pnode KEY CObject) : Op ι KEY CObject →
    Option ((ι → Pnode KEY CObject) × (ERR × Option CObject))
  | .ErrInsert i key pObject => do
    let (err, t) ← errInsert key pObject (s i)
    return (Function.update s i t, (err, none))
  | .ErrDelete i key => do
    let (err, pObject, t) ← errDelete key (s i)
    return (Function.update s i t, (err, pObject))
  | .ErrMerge i j _ => do
    let (err, dst, src) ← errMerge (s i) (s j)
    return (Function.update (Function.update s i dst) j src, (err, none))
  | .MakeEmpty i => return (Function.update s i null, (.errSuccess, none))

/-- An operation on the maps the trees stand for. -/
noncomputable def applyMap (m : ι → KEY → Option CObject) : Op ι KEY CObject →
    (ι → KEY → Option CObject) × (ERR × Option CObject)
  | .ErrInsert i key pObject =>
    (Function.update m i (insertMap (m i) key pObject).2, ((insertMap (m i) key pObject).1, none))
  | .ErrDelete i key =>
    (Function.update m i (deleteMap (m i) key).2.2,
      ((deleteMap (m i) key).1, (deleteMap (m i) key).2.1))
  | .ErrMerge i j _ =>
    (Function.update (Function.update m i (mergeMap (m i) (m j)).2.1) j (mergeMap (m i) (m j)).2.2,
      ((mergeMap (m i) (m j)).1, none))
  | .MakeEmpty i => (Function.update m i fun _ => none, (.errSuccess, none))

/-- A change of one tree keeps the others. -/
theorem Tree.update {s : ι → Pnode KEY CObject} {m : ι → KEY → Option CObject}
    (h : ∀ i, Tree (s i) (m i))
    (i : ι) {t : Pnode KEY CObject} {mt : KEY → Option CObject} (ht : Tree t mt) (j : ι) :
    Tree (Function.update s i t j) (Function.update m i mt j) := by
  by_cases hj : j = i
  · subst hj
    rw [Function.update_self, Function.update_self]
    exact ht
  · rw [Function.update_of_ne hj, Function.update_of_ne hj]
    exact h j

/-- An operation does to the trees what it does to the maps. -/
theorem apply_refines (op : Op ι KEY CObject) (s : ι → Pnode KEY CObject)
    (m : ι → KEY → Option CObject) (h : ∀ i, Tree (s i) (m i)) :
    ∃ s', apply s op = some (s', (applyMap m op).2) ∧ ∀ i, Tree (s' i) ((applyMap m op).1 i) := by
  cases op with
  | ErrInsert i key pObject =>
    obtain ⟨t, hins, ht⟩ := (h i).errInsert key pObject
    exact ⟨Function.update s i t, by simp [apply, hins, applyMap], Tree.update h i ht⟩
  | ErrDelete i key =>
    obtain ⟨t, hdel, ht⟩ := (h i).errDelete key
    exact ⟨Function.update s i t, by simp [apply, hdel, applyMap], Tree.update h i ht⟩
  | ErrMerge i j hij =>
    obtain ⟨dst, src, hmerge, hd, hs⟩ := (h i).errMerge (h j)
    exact ⟨Function.update (Function.update s i dst) j src, by simp [apply, hmerge, applyMap],
      Tree.update (Tree.update h i hd) j hs⟩
  | MakeEmpty i => exact ⟨Function.update s i null, rfl, Tree.update h i Tree.null⟩

end

/-! ## The invariants of the tree -/

/-- The number of black nodes of each path from the root to a null link. -/
def blackCounts : Pnode KEY CObject → List Nat
  | null => [0]
  | node c l _ _ r => (l.blackCounts ++ r.blackCounts).map fun n => if c = Black then n + 1 else n

/-- The nodes of a tree, as the subtrees they are the roots of. -/
def nodes : Pnode KEY CObject → List (Pnode KEY CObject)
  | null => []
  | t@(node _ l _ _ r) => t :: (l.nodes ++ r.nodes)

/-- The nodes of a tree other than its root. -/
def properNodes : Pnode KEY CObject → List (Pnode KEY CObject)
  | null => []
  | node _ l _ _ r => l.nodes ++ r.nodes

/-- The invariants of the tree. -/
structure Valid (t : Pnode KEY CObject) : Prop where
  sorted : t.toList.Pairwise fun a b => a.1 < b.1
  black : ∃ n, ∀ m ∈ t.blackCounts, m = n
  /-- A red right child has a red sibling. -/
  right : ∀ c l k v r, node c l k v r ∈ t.nodes → r.fIsNonNullAndRed = true →
    l.fIsNonNullAndRed = true
  /-- Below the root no red node has a red left child. -/
  left : ∀ l k v r, node Red l k v r ∈ t.properNodes → l.fIsNonNullAndRed = false

section
omit [LinearOrder KEY]
variable {c : RedBlackTreeColor} {n : Nat} {t : Pnode KEY CObject}

/-- Every path of a balanced tree has as many black nodes. -/
theorem Llrb.blackCounts (h : Llrb c n t) : ∀ m ∈ t.blackCounts, m = n := by
  induction h with
  | null => simp [Pnode.blackCounts]
  | red hl hr ihl ihr =>
    intro m hm
    obtain ⟨m', hm', rfl⟩ := List.mem_map.1 hm
    exact (List.mem_append.1 hm').elim (ihl m') (ihr m')
  | black hl hr ihl ihr =>
    intro m hm
    obtain ⟨m', hm', rfl⟩ := List.mem_map.1 hm
    rw [(List.mem_append.1 hm').elim (ihl m') (ihr m')]
    rfl

/-- No node has a red right child. -/
theorem Llrb.right (h : Llrb c n t) :
    ∀ c l k v r, node c l k v r ∈ t.nodes → r.fIsNonNullAndRed = false := by
  induction h with
  | null => exact fun _ _ _ _ _ h => nomatch h
  | red hl hr ihl ihr | black hl hr ihl ihr =>
    intro c l k v r hm
    rcases List.mem_cons.1 hm with he | hm
    · cases he
      exact hr.fIsNonNullAndRed
    · exact (List.mem_append.1 hm).elim (ihl c l k v r) (ihr c l k v r)

/-- No red node has a red left child. -/
theorem Llrb.left (h : Llrb c n t) : ∀ l k v r, node Red l k v r ∈ t.nodes →
    l.fIsNonNullAndRed = false := by
  induction h with
  | null => exact fun _ _ _ _ h => nomatch h
  | red hl hr ihl ihr =>
    intro l k v r hm
    rcases List.mem_cons.1 hm with he | hm
    · cases he
      exact hl.fIsNonNullAndRed
    · exact (List.mem_append.1 hm).elim (ihl l k v r) (ihr l k v r)
  | black hl hr ihl ihr =>
    intro l k v r hm
    rcases List.mem_cons.1 hm with he | hm
    · cases he
    · exact (List.mem_append.1 hm).elim (ihl l k v r) (ihr l k v r)

end

/-- A balanced search tree has the invariants. -/
theorem Tree.valid {t : Pnode KEY CObject} {m : KEY → Option CObject} (h : Tree t m) : Valid t := by
  obtain ⟨hroot, hsorted, -⟩ := h
  cases hroot with
  | null =>
    exact ⟨hsorted, ⟨0, by simp [blackCounts]⟩, fun _ _ _ _ _ h => (nomatch h), fun _ _ _ _ h =>
      nomatch h⟩
  | @node c n _ h =>
    obtain @⟨cl, l, r, k, v, hl, hr⟩ := h
    refine ⟨hsorted, ⟨if c = Black then n + 1 else n, fun m hm => ?_⟩, fun c' l' k' v' r' hm hred =>
      ?_, fun l' k' v' r' hm => ?_⟩
    · obtain ⟨m', hm', rfl⟩ := List.mem_map.1 hm
      rw [(List.mem_append.1 hm').elim (hl.blackCounts m') (hr.blackCounts m')]
    · have hr' : r'.fIsNonNullAndRed = false := by
        rcases List.mem_cons.1 hm with he | hm
        · cases he
          exact hr.fIsNonNullAndRed
        · exact (List.mem_append.1 hm).elim (hl.right c' l' k' v' r') (hr.right c' l' k' v' r')
      rw [hr'] at hred
      cases hred
    · exact (List.mem_append.1 hm).elim (hl.left l' k' v' r') (hr.left l' k' v' r')

/-- Every run of operations on trees that start empty is defined, returns what the operations on
maps return, and leaves trees with the invariants that hold the keys and objects of the maps. -/
theorem run_valid {ι : Type} [DecidableEq ι] (ops : List (Op ι KEY CObject)) :
    ∃ s : ι → Pnode KEY CObject,
      runM apply (fun _ => null) ops
        = some (s, (runF applyMap (fun _ _ => (none : Option CObject)) ops).2)
      ∧ ∀ i, Valid (s i) ∧ ∀ k v, (k, v) ∈ (s i).toList ↔
          (runF applyMap (fun _ _ => (none : Option CObject)) ops).1 i k = some v := by
  have hR (op : Op ι KEY CObject) (s : ι → Pnode KEY CObject) (m : ι → KEY → Option CObject)
      (h : ∀ i, Tree (s i) (m i)) := apply_refines op s m h
  obtain ⟨s, hrun, hs⟩ := runM_refines hR ops (s := fun _ => null) (t := fun _ _ => none)
    fun _ => Tree.null
  exact ⟨s, hrun, fun i => ⟨(hs i).valid, (hs i).rep⟩⟩

end Ese.Pnode
