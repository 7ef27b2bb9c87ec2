import Ese.Collection.Array
import Ese.Lib.Segment

/-!
# The sorts of the table

`CTable` sorts the entries of its array in place: by insertion, or by a quicksort that keeps the
partitions to sort on a stack of 16 and calls itself when that is full. The entries are at indices
of type `size_t`, of which only the ones that step down from an index can wrap. `quickSort_spec`
says that either sort returns and orders the entries.
-/

namespace Ese

/-- What the user of a table implements: the comparisons of an entry with another one and with a
key. -/
structure CTable.KeyEntry (α κ : Type) where
  cmp : α → α → Int
  cmpKey : α → κ → Int

namespace CTable

variable {α κ : Type} (e : KeyEntry α κ)

/-- The index before `ikeyentry`. -/
def decrement (ikeyentry : Nat) : Nat := sizeT (ikeyentry + SIZE_MAX)

def setEntry (ikeyentry : Nat) (keyentry : α) (a : CArray α) : Option (CArray α) :=
  a.setEntry (a.pEntry ikeyentry) keyentry

def swapEntry (ikeyentry1 ikeyentry2 : Nat) (a : CArray α) : Option (CArray α) := do
  let keyentryT ← a.entry ikeyentry1
  let a ← setEntry ikeyentry1 (← a.entry ikeyentry2) a
  setEntry ikeyentry2 keyentryT a

/-- The loop that moves the entries above `keyentryKey` up by one, from the one before
`ikeyentryFirst` down. -/
def moveUp (ikeyentryMinIn : Nat) (keyentryKey : α) : Nat → CArray α → Option (Nat × CArray α)
  | 0, a => some (decrement 0, a)
  | ikeyentryFirst + 1, a =>
    if ikeyentryMinIn + 1 ≤ ikeyentryFirst + 1 then do
      let keyentry ← a.entry ikeyentryFirst
      if 0 < e.cmp keyentry keyentryKey then
        moveUp ikeyentryMinIn keyentryKey ikeyentryFirst
          (← setEntry (ikeyentryFirst + 1) keyentry a)
      else some (ikeyentryFirst, a)
    else some (ikeyentryFirst, a)

/-- One round of the insertion sort: the last entry is put among the ones before it. -/
def insert (ikeyentryMinIn ikeyentryFirst ikeyentryLast : Nat) (a : CArray α) :
    Option (CArray α) := do
  if 0 < e.cmp (← a.entry ikeyentryFirst) (← a.entry ikeyentryLast) then
    let keyentryKey ← a.entry ikeyentryLast
    let a ← setEntry ikeyentryLast (← a.entry ikeyentryFirst) a
    let (ikeyentryFirst, a) ← moveUp e ikeyentryMinIn keyentryKey ikeyentryFirst a
    setEntry (sizeT (ikeyentryFirst + 1)) keyentryKey a
  else return a

/-- The insertion sort has `n` rounds left. -/
def insertionLoop (ikeyentryMinIn : Nat) : Nat → Nat → Nat → CArray α → Option (CArray α)
  | 0, _, _, a => some a
  | n + 1, ikeyentryFirst, ikeyentryLast, a => do
    insertionLoop ikeyentryMinIn n ikeyentryLast (ikeyentryLast + 1)
      (← insert e ikeyentryMinIn ikeyentryFirst ikeyentryLast a)

def insertionSort (ikeyentryMinIn ikeyentryMaxIn : Nat) (a : CArray α) : Option (CArray α) :=
  insertionLoop e ikeyentryMinIn (ikeyentryMaxIn - (ikeyentryMinIn + 1)) ikeyentryMinIn
    (ikeyentryMinIn + 1) a

/-- The quicksort cutoff. -/
def ckeyentryMin : Nat := 32

/-- The size of the partition stack. -/
def cpartMax : Nat := 16

/-- Two entries that are not in order are exchanged. -/
def sortPair (ikeyentry1 ikeyentry2 : Nat) (a : CArray α) : Option (CArray α) := do
  if 0 < e.cmp (← a.entry ikeyentry1) (← a.entry ikeyentry2) then swapEntry ikeyentry1 ikeyentry2 a
  else return a

/-- The first, middle, and last entries are sorted. -/
def sortThree (ikeyentryFirst ikeyentryMid ikeyentryLast : Nat) (a : CArray α) :
    Option (CArray α) := do
  let a ← sortPair e ikeyentryFirst ikeyentryMid a
  let a ← sortPair e ikeyentryFirst ikeyentryLast a
  sortPair e ikeyentryMid ikeyentryLast a

/-- The loop past all entries that are not above the divisor, for less than `n` entries. -/
def advance (ikeyentryMin ikeyentryLast : Nat) (a : CArray α) : Nat → Nat → Option Nat
  | 0, _ => none
  | n + 1, ikeyentryFirst =>
    if ikeyentryFirst ≤ ikeyentryLast then do
      if e.cmp (← a.entry ikeyentryFirst) (← a.entry ikeyentryMin) ≤ 0 then
        advance ikeyentryMin ikeyentryLast a n (ikeyentryFirst + 1)
      else return ikeyentryFirst
    else some ikeyentryFirst

/-- The loop past all entries above the divisor, for less than `n` entries. -/
def retreat (ikeyentryMin ikeyentryFirst : Nat) (a : CArray α) : Nat → Nat → Option Nat
  | 0, _ => none
  | n + 1, ikeyentryLast =>
    if ikeyentryFirst ≤ ikeyentryLast then do
      if 0 < e.cmp (← a.entry ikeyentryLast) (← a.entry ikeyentryMin) then
        retreat ikeyentryMin ikeyentryFirst a n (decrement ikeyentryLast)
      else return ikeyentryLast
    else some ikeyentryLast

/-- A pair that is found is exchanged. -/
def swapPair (ikeyentryFirst ikeyentryLast : Nat) (a : CArray α) : Option (Nat × Nat × CArray α) :=
  if ikeyentryFirst < ikeyentryLast then do
    return (ikeyentryFirst + 1, decrement ikeyentryLast, ← swapEntry ikeyentryFirst ikeyentryLast a)
  else some (ikeyentryFirst, ikeyentryLast, a)

/-- The loop that exchanges pairs until the indices cross, for at most `n` rounds; a partition has
`ckeyentry` entries. -/
def partitionLoop (ikeyentryMin ckeyentry : Nat) : Nat → Nat → Nat → CArray α →
    Option (Nat × Nat × CArray α)
  | 0, _, _, _ => none
  | n + 1, ikeyentryFirst, ikeyentryLast, a => do
    let ikeyentryFirst ← advance e ikeyentryMin ikeyentryLast a (ckeyentry + 1) ikeyentryFirst
    let ikeyentryLast ← retreat e ikeyentryMin ikeyentryFirst a (ckeyentry + 1) ikeyentryLast
    let (ikeyentryFirst, ikeyentryLast, a) ← swapPair ikeyentryFirst ikeyentryLast a
    if ikeyentryFirst ≤ ikeyentryLast
      then partitionLoop ikeyentryMin ckeyentry n ikeyentryFirst ikeyentryLast a
    else return (ikeyentryFirst, ikeyentryLast, a)

/-- The limits of the smaller and the larger sub-partition. -/
def subpartitions (ikeyentryMin ikeyentryMax ikeyentryFirst ikeyentryLast : Nat) :
    (Nat × Nat) × (Nat × Nat) :=
  if ikeyentryMax - ikeyentryFirst = 0
    then ((ikeyentryLast, ikeyentryMax), (ikeyentryMin, ikeyentryLast))
  else if ikeyentryFirst - ikeyentryMin < ikeyentryMax - ikeyentryFirst then
    ((ikeyentryMin, ikeyentryFirst), (ikeyentryFirst, ikeyentryMax))
  else ((ikeyentryFirst, ikeyentryMax), (ikeyentryMin, ikeyentryFirst))

/-- A large partition is split into two smaller ones. -/
def partition (ikeyentryMin ikeyentryMax : Nat) (a : CArray α) :
    Option (((Nat × Nat) × (Nat × Nat)) × CArray α) := do
  let ikeyentryMid := ikeyentryMin + (ikeyentryMax - ikeyentryMin) / 2
  let a ← sortThree e ikeyentryMin ikeyentryMid (decrement ikeyentryMax) a
  let (ikeyentryFirst, ikeyentryLast, a) ←
    partitionLoop e ikeyentryMin (ikeyentryMax - ikeyentryMin)
      (ikeyentryMax - ikeyentryMin + 1) ikeyentryMin
      (decrement ikeyentryMax) a
  let a ← swapEntry ikeyentryMin ikeyentryLast a
  return (subpartitions ikeyentryMin ikeyentryMax ikeyentryFirst ikeyentryLast, a)

/-- The loop over the current partition and those on the stack, for at most `n` rounds deep. -/
def quickSortLoop : Nat → List (Nat × Nat) → Nat → Nat → CArray α → Option (CArray α)
  | 0, _, _, _, _ => none
  | n + 1, rgpart, ikeyentryMin, ikeyentryMax, a =>
    if ikeyentryMax - ikeyentryMin < ckeyentryMin then do
      let a ← insertionSort e ikeyentryMin ikeyentryMax a
      match rgpart with
      | [] => return a
      | part :: rgpart => quickSortLoop n rgpart part.1 part.2 a
    else do
      let ((small, large), a) ← partition e ikeyentryMin ikeyentryMax a
      if rgpart.length < cpartMax then quickSortLoop n (large :: rgpart) small.1 small.2 a
      else
        -- the stack is full
        let a ← quickSortLoop n [] large.1 large.2 a
        quickSortLoop n rgpart small.1 small.2 a

/-- The quicksort of a partition takes less than two rounds for an entry. -/
def quickSort (ikeyentryMinIn ikeyentryMaxIn : Nat) (a : CArray α) : Option (CArray α) :=
  quickSortLoop e (2 * (ikeyentryMaxIn - ikeyentryMinIn) + 1) [] ikeyentryMinIn ikeyentryMaxIn a

/-- The comparisons are those of the keys of the entries. -/
structure KeyEntry.Compares [LinearOrder κ] (e : KeyEntry α κ) (key : α → κ) : Prop where
  cmp_neg : ∀ x y, e.cmp x y < 0 ↔ key x < key y
  cmp_pos : ∀ x y, 0 < e.cmp x y ↔ key y < key x
  cmpKey_neg : ∀ x k, e.cmpKey x k < 0 ↔ key x < k
  cmpKey_pos : ∀ x k, 0 < e.cmpKey x k ↔ k < key x

/-- The entries of an array, put in an allocation of its capacity. -/
def put (a : CArray α) (f : Nat → α) : CArray α := { a with m_rgentry := some ⟨a.m_centryMax, f⟩ }

/-- The order of entries by their keys. -/
abbrev keyLe [LinearOrder κ] (key : α → κ) (x y : α) : Prop := key x ≤ key y

section
variable {a : CArray α} {f : Nat → α} {i j : Nat} {x : α}

theorem entry_put (ha : a.Consistent) (hi : i < a.m_centry) : (put a f).entry i = some (f i) := by
  rw [CArray.entry, CArray.pEntry, if_pos (show i < (put a f).m_centry from hi)]
  exact if_pos (hi.trans_le ha.size_le)

theorem setEntry_put (ha : a.Consistent) (hi : i < a.m_centry) :
    setEntry i x (put a f) = some (put a (Function.update f i x)) := by
  rw [setEntry, CArray.setEntry, CArray.pEntry, if_pos (show i < (put a f).m_centry from hi)]
  simp only [Option.bind_eq_bind, Option.bind_some]
  rw [CArray.Entries.write_eq (show i < a.m_centryMax from hi.trans_le ha.size_le)]
  rfl

theorem swapEntry_put (ha : a.Consistent) (hi : i < a.m_centry) (hj : j < a.m_centry) :
    swapEntry i j (put a f) = some (put a (Function.update (Function.update f i (f j)) j (f i))) :=
      by
  rw [swapEntry]
  simp only [entry_put ha hi, entry_put ha hj, setEntry_put ha hi, Option.bind_eq_bind,
    Option.bind_some]
  exact setEntry_put ha hj

theorem decrement_eq (hpos : 0 < i) (hi : i ≤ SIZE_MAX) : decrement i = i - 1 := by
  rw [SIZE_MAX] at hi
  rw [decrement, sizeT, SIZE_MAX]
  omega

theorem sizeT_eq (hi : i ≤ SIZE_MAX) : sizeT i = i := by
  rw [SIZE_MAX] at hi
  exact Nat.mod_eq_of_lt (Nat.lt_succ_of_le hi)

end

/-! ## The insertion sort -/

section
variable {e} [LinearOrder κ] {key : α → κ} {a : CArray α} {f : Nat → α}
  {ikeyentryMin ikeyentryFirst ikeyentryLast ikeyentryMax h n : Nat}

/-- An entry that is not before those below its place and before those above it is put there. -/
theorem orderedOn_update {g : Nat → α} {keyentryKey : α}
    (hord : ∀ i j, ikeyentryMin ≤ i → i < j → j ≤ ikeyentryLast → i ≠ h → j ≠ h →
    key (g i) ≤ key (g j))
    (habove : ∀ j, h < j → j ≤ ikeyentryLast → key keyentryKey ≤ key (g j))
    (hbelow : ∀ i, ikeyentryMin ≤ i → i < h → key (g i) ≤ key keyentryKey) :
    OrderedOn (keyLe key) (ikeyentryMin, ikeyentryLast + 1) (Function.update g h keyentryKey) := by
  intro i j hi hij hj
  have hj' : j ≤ ikeyentryLast := Nat.le_of_lt_succ hj
  show key _ ≤ key _
  rcases eq_or_ne i h with rfl | hih
  · rw [Function.update_self, Function.update_of_ne hij.ne']
    exact habove j hij hj'
  · rw [Function.update_of_ne hih]
    rcases eq_or_ne j h with rfl | hjh
    · rw [Function.update_self]
      exact hbelow i hi hij
    · rw [Function.update_of_ne hjh]
      exact hord i j hi hij hj' hih hjh

/-- The entries above `keyentryKey` are moved up, and it is put in the place that is left. By
induction on the place `h` that is free: the entries on both sides of it are ordered, and those
behind it are above the key. -/
theorem moveUp_spec (g : Nat → α) (keyentryKey : α) (he : e.Compares key) (ha : a.Consistent)
    (hlast : ikeyentryLast < a.m_centry)
    (hmin : ikeyentryMin ≤ h) (hh : h ≤ ikeyentryLast)
    (hord : ∀ i j, ikeyentryMin ≤ i → i < j → j ≤ ikeyentryLast → i ≠ h → j ≠ h →
      key (g i) ≤ key (g j))
    (habove : ∀ j, h < j → j ≤ ikeyentryLast → key keyentryKey ≤ key (g j)) :
    ∃ r f', moveUp e ikeyentryMin keyentryKey h (put a g) = some r ∧
      setEntry (sizeT (r.1 + 1)) keyentryKey r.2 = some (put a f') ∧
      Rearranges [(ikeyentryMin, ikeyentryLast + 1)] (Function.update g h keyentryKey) f' ∧
      OrderedOn (keyLe key) (ikeyentryMin, ikeyentryLast + 1) f' := by
  have hmax : a.m_centry ≤ SIZE_MAX := ha.size_le.trans ha.capacity_le
  induction h generalizing g with
  | zero =>
    refine ⟨_, Function.update g 0 keyentryKey, rfl, ?_, .refl _ _, ?_⟩
    · rw [show sizeT (decrement 0 + 1) = 0 from rfl]
      exact setEntry_put ha (hh.trans_lt hlast)
    · exact orderedOn_update hord habove fun i _ hi => absurd hi (Nat.not_lt_zero i)
  | succ h ih =>
    have hsize : sizeT (h + 1) = h + 1 := sizeT_eq (by omega)
    rw [moveUp]
    split_ifs with hcond
    · have hbound : h < a.m_centry := by omega
      simp only [entry_put ha hbound, Option.bind_eq_bind, Option.bind_some]
      split_ifs with hmore
      · rw [setEntry_put ha (hh.trans_lt hlast), Option.bind_some]
        have hkey : key keyentryKey < key (g h) := (he.cmp_pos _ _).1 hmore
        obtain ⟨r, f', hloop, hset, hrearranges, hordered⟩ :=
          ih (Function.update g (h + 1) (g h)) (by omega) (by omega)
          (by
            intro i j hi hij hj hih hjh
            rcases eq_or_ne j (h + 1) with rfl | hjh'
            · rw [Function.update_self, Function.update_of_ne hij.ne]
              exact hord i h hi (by omega) (by omega) hij.ne (Nat.lt_succ_self h).ne
            · rw [Function.update_of_ne hjh']
              rcases eq_or_ne i (h + 1) with rfl | hih'
              · rw [Function.update_self]
                exact hord h j (by omega) (by omega) hj (Nat.lt_succ_self h).ne hjh'
              · rw [Function.update_of_ne hih']
                exact hord i j hi hij hj hih' hjh')
          (by
            intro j hj hj'
            rcases eq_or_ne j (h + 1) with rfl | hjh
            · rw [Function.update_self]
              exact hkey.le
            · rw [Function.update_of_ne hjh]
              exact habove j (by omega) hj')
        refine ⟨r, f', hloop, hset, .trans (.shift ⟨?_, ?_⟩ ⟨?_, ?_⟩) hrearranges, hordered⟩ <;>
          dsimp only <;> omega
      · -- the entry before the place is not above the key, nor is any other before it
        have hkey : key (g h) ≤ key keyentryKey :=
          not_lt.1 fun hlt => hmore ((he.cmp_pos _ _).2 hlt)
        refine ⟨_, Function.update g (h + 1) keyentryKey, rfl, ?_, .refl _ _,
          orderedOn_update hord habove ?_⟩
        · rw [hsize]
          exact setEntry_put ha (hh.trans_lt hlast)
        · intro i hi hih
          rcases Nat.lt_succ_iff_lt_or_eq.1 hih with hlt | rfl
          · exact (hord i h hi hlt (by omega) (by omega) (by omega)).trans hkey
          · exact hkey
    · refine ⟨_, Function.update g (h + 1) keyentryKey, rfl, ?_, .refl _ _,
        orderedOn_update hord habove ?_⟩
      · rw [hsize]
        exact setEntry_put ha (hh.trans_lt hlast)
      · intro i hi hih
        omega

/-- One round puts the last entry among the ordered ones before it. -/
theorem insert_spec (he : e.Compares key) (ha : a.Consistent) (hmin : ikeyentryMin ≤ ikeyentryFirst)
    (hlast : ikeyentryFirst + 1 < a.m_centry)
      (hord : OrderedOn (keyLe key) (ikeyentryMin, ikeyentryFirst + 1) f) :
    ∃ f', insert e ikeyentryMin ikeyentryFirst (ikeyentryFirst + 1) (put a f) = some (put a f') ∧
      Rearranges [(ikeyentryMin, ikeyentryFirst + 2)] f f' ∧
      OrderedOn (keyLe key) (ikeyentryMin, ikeyentryFirst + 2) f' := by
  have hfirst : ikeyentryFirst < a.m_centry := Nat.lt_of_succ_lt hlast
  rw [insert]
  simp only [entry_put ha hfirst, entry_put ha hlast, setEntry_put ha hlast, Option.bind_eq_bind,
    Option.bind_some]
  split_ifs with hmore
  · have hkey : key (f (ikeyentryFirst + 1)) < key (f ikeyentryFirst) := (he.cmp_pos _ _).1 hmore
    obtain ⟨r, f', hloop, hset, hrearranges, hordered⟩ := moveUp_spec
      (Function.update f (ikeyentryFirst + 1) (f ikeyentryFirst))
      (f (ikeyentryFirst + 1)) he ha hlast hmin (Nat.le_succ _)
      (by
        intro i j hi hij hj hih hjh
        rw [Function.update_of_ne (by omega)]
        rcases eq_or_ne j (ikeyentryFirst + 1) with rfl | hlt
        · rw [Function.update_self]
          exact hord i ikeyentryFirst hi (by omega) (Nat.lt_succ_self _)
        · rw [Function.update_of_ne hlt]
          exact hord i j hi hij (by dsimp only; omega))
      (by
        intro j hj hj'
        obtain rfl : j = ikeyentryFirst + 1 := by omega
        rw [Function.update_self]
        exact hkey.le)
    refine ⟨f', ?_, .trans (.swap ⟨?_, ?_⟩ ⟨hmin, ?_⟩) hrearranges, hordered⟩
    · rw [hloop]
      exact hset
    all_goals dsimp only; omega
  · have hkey : key (f ikeyentryFirst) ≤ key (f (ikeyentryFirst + 1)) :=
      not_lt.1 fun hlt => hmore ((he.cmp_pos _ _).2 hlt)
    refine ⟨f, rfl, .refl _ _, fun i j hi hij hj => ?_⟩
    rcases Nat.lt_succ_iff_lt_or_eq.1 hj with hlt | rfl
    · exact hord i j hi hij hlt
    · rcases Nat.lt_succ_iff_lt_or_eq.1 hij with hlt | rfl
      · exact (show key (f i) ≤ key (f ikeyentryFirst) from hord i _ hi hlt
          (Nat.lt_succ_self _)).trans hkey
      · exact hkey

theorem insertionLoop_spec (he : e.Compares key) (ha : a.Consistent)
    (hmin : ikeyentryMin ≤ ikeyentryFirst)
    (hmax : ikeyentryFirst + 1 + n ≤ a.m_centry)
      (hord : OrderedOn (keyLe key) (ikeyentryMin, ikeyentryFirst + 1) f) :
    ∃ f', insertionLoop e ikeyentryMin n ikeyentryFirst (ikeyentryFirst + 1) (put a f) =
      some (put a f') ∧
      Sorts (keyLe key) [(ikeyentryMin, ikeyentryFirst + 1 + n)] f f' := by
  induction n generalizing ikeyentryFirst f with
  | zero => exact ⟨f, rfl, .refl _ _, fun p hp => List.mem_singleton.1 hp ▸ hord⟩
  | succ n ih =>
    obtain ⟨g, hround, hrearranges, hordered⟩ := insert_spec he ha hmin (by omega) hord
    obtain ⟨f', hloop, hrest, hsorted⟩ := ih (hmin.trans (Nat.le_succ _)) (by omega) hordered
    rw [show ikeyentryFirst + 1 + 1 + n = ikeyentryFirst + 1 + (n + 1) by omega] at hrest hsorted
    refine ⟨f', ?_, .trans (hrearranges.mono fun p hp => ?_) hrest, hsorted⟩
    · rw [insertionLoop, hround]
      exact hloop
    · obtain rfl := List.mem_singleton.1 hp
      have hinside : Inside (ikeyentryMin, ikeyentryFirst + 2)
        (ikeyentryMin, ikeyentryFirst + 1 + (n + 1)) :=
        ⟨le_rfl, by dsimp only; omega⟩
      exact ⟨⟨_, List.mem_singleton.2 rfl, hinside⟩, fun q hq =>
        .inl (List.mem_singleton.1 hq ▸ hinside)⟩

/-- The entries of a segment without a second one are ordered. -/
theorem orderedOn_of_le (hle : ikeyentryMax ≤ ikeyentryMin + 1) :
    OrderedOn (keyLe key) (ikeyentryMin, ikeyentryMax) f := by
  intro i j hi hij hj
  dsimp only at hi hj
  omega

theorem insertionSort_spec (ikeyentryMin : Nat) (he : e.Compares key) (ha : a.Consistent)
    (hmax : ikeyentryMax ≤ a.m_centry) (f : Nat → α) :
    ∃ f', insertionSort e ikeyentryMin ikeyentryMax (put a f) = some (put a f') ∧
      Sorts (keyLe key) [(ikeyentryMin, ikeyentryMax)] f f' := by
  rw [insertionSort]
  rcases Nat.lt_or_ge (ikeyentryMin + 1) ikeyentryMax with hlt | hge
  · have hrounds : ikeyentryMin + 1 + (ikeyentryMax - (ikeyentryMin + 1)) = ikeyentryMax := by omega
    have hloop := insertionLoop_spec he ha le_rfl (hrounds.trans_le hmax)
      (orderedOn_of_le (f := f) le_rfl)
    rwa [hrounds] at hloop
  · rw [Nat.sub_eq_zero_of_le hge]
    exact ⟨f, rfl, .refl _ _, fun p hp => List.mem_singleton.1 hp ▸ orderedOn_of_le hge⟩

end

/-! ## The quicksort -/

section
variable {e} {a : CArray α}
    {ikeyentryMin ikeyentryMax ikeyentryFirst ikeyentryLast ikeyentryMid : Nat}

theorem sortPair_spec (ha : a.Consistent) (hmax : ikeyentryMax ≤ a.m_centry) {i j : Nat}
    (hi : Within (ikeyentryMin, ikeyentryMax) i) (hj : Within (ikeyentryMin, ikeyentryMax) j)
      (f : Nat → α) :
    ∃ f', sortPair e i j (put a f) = some (put a f') ∧
      Rearranges [(ikeyentryMin, ikeyentryMax)] f f' := by
  have hi' : i < a.m_centry := hi.2.trans_le hmax
  have hj' : j < a.m_centry := hj.2.trans_le hmax
  rw [sortPair]
  simp only [entry_put ha hi', entry_put ha hj', Option.bind_eq_bind, Option.bind_some]
  split_ifs
  · exact ⟨_, swapEntry_put ha hi' hj', .swap hi hj⟩
  · exact ⟨f, rfl, .refl _ _⟩

/-- The choice of the divisor only rearranges the partition. -/
theorem sortThree_spec (ha : a.Consistent) (hmax : ikeyentryMax ≤ a.m_centry)
    (hfirst : Within (ikeyentryMin, ikeyentryMax) ikeyentryFirst)
    (hmid : Within (ikeyentryMin, ikeyentryMax) ikeyentryMid)
    (hlast : Within (ikeyentryMin, ikeyentryMax) ikeyentryLast) (f : Nat → α) :
    ∃ f', sortThree e ikeyentryFirst ikeyentryMid ikeyentryLast (put a f) = some (put a f') ∧
      Rearranges [(ikeyentryMin, ikeyentryMax)] f f' := by
  obtain ⟨f₁, h₁, hf₁⟩ := sortPair_spec (e := e) ha hmax hfirst hmid f
  obtain ⟨f₂, h₂, hf₂⟩ := sortPair_spec (e := e) ha hmax hfirst hlast f₁
  obtain ⟨f₃, h₃, hf₃⟩ := sortPair_spec (e := e) ha hmax hmid hlast f₂
  refine ⟨f₃, ?_, (hf₁.trans hf₂).trans hf₃⟩
  simp only [sortThree, h₁, h₂, h₃, Option.bind_eq_bind, Option.bind_some]

end

section
variable {e} [LinearOrder κ] {key : α → κ} {a : CArray α} {f g : Nat → α}
  {ikeyentryMin ikeyentryMax ikeyentryFirst ikeyentryLast n : Nat}

/-- The entries from `ikeyentryFirst` to the index that the loop stops at are not above the
divisor. -/
theorem advance_spec (he : e.Compares key) (ha : a.Consistent) (hlast : ikeyentryLast < a.m_centry)
    (hmin : ikeyentryMin < a.m_centry) (hle : ikeyentryFirst ≤ ikeyentryLast + 1)
    (hn : ikeyentryLast + 1 - ikeyentryFirst < n) :
    ∃ i, advance e ikeyentryMin ikeyentryLast (put a f) n ikeyentryFirst = some i ∧
      ikeyentryFirst ≤ i ∧
      i ≤ ikeyentryLast + 1 ∧ (∀ j, ikeyentryFirst ≤ j → j < i → key (f j) ≤ key (f ikeyentryMin)) ∧
      (i ≤ ikeyentryLast → key (f ikeyentryMin) < key (f i)) := by
  induction n generalizing ikeyentryFirst with
  | zero => omega
  | succ n ih =>
    rw [advance]
    split_ifs with hin
    · simp only [entry_put ha (hin.trans_lt hlast), entry_put ha hmin, Option.bind_eq_bind,
        Option.bind_some]
      split_ifs with hcmp
      · have hkey : key (f ikeyentryFirst) ≤ key (f ikeyentryMin) := not_lt.1 fun hlt => by
          have hpos := (he.cmp_pos _ _).2 hlt
          omega
        obtain ⟨i, hloop, hlei, hi, hbelow, hstop⟩ := @ih (ikeyentryFirst + 1) (by omega) (by omega)
        refine ⟨i, hloop, Nat.le_of_succ_le hlei, hi, fun j hj hji => ?_, hstop⟩
        rcases hj.eq_or_lt with rfl | hlt
        · exact hkey
        · exact hbelow j hlt hji
      · refine ⟨ikeyentryFirst, rfl, le_rfl, hle, fun j hj hji => absurd (hj.trans_lt hji)
          (lt_irrefl _), fun _ => ?_⟩
        exact (he.cmp_pos _ _).1 (by omega)
    · exact ⟨ikeyentryFirst, rfl, le_rfl, hle, fun j hj hji => absurd (hj.trans_lt hji)
        (lt_irrefl _),
        fun hle => absurd hle hin⟩

/-- The entries from the index that the loop stops at to `ikeyentryLast` are above the divisor. -/
theorem retreat_spec (he : e.Compares key) (ha : a.Consistent) (hlast : ikeyentryLast < a.m_centry)
    (hmin : ikeyentryMin < a.m_centry) (hpos : 0 < ikeyentryFirst)
    (hle : ikeyentryFirst ≤ ikeyentryLast + 1)
    (hn : ikeyentryLast + 1 - ikeyentryFirst < n) :
    ∃ i, retreat e ikeyentryMin ikeyentryFirst (put a f) n ikeyentryLast = some i ∧
      i ≤ ikeyentryLast ∧
      ikeyentryFirst ≤ i + 1 ∧ (∀ j, i < j → j ≤ ikeyentryLast → key (f ikeyentryMin) < key (f j)) ∧
      (ikeyentryFirst ≤ i → key (f i) ≤ key (f ikeyentryMin)) := by
  have hmax : a.m_centry ≤ SIZE_MAX := ha.size_le.trans ha.capacity_le
  induction n generalizing ikeyentryLast with
  | zero => omega
  | succ n ih =>
    rw [retreat]
    split_ifs with hin
    · simp only [entry_put ha hlast, entry_put ha hmin, Option.bind_eq_bind, Option.bind_some]
      split_ifs with hcmp
      · have hkey : key (f ikeyentryMin) < key (f ikeyentryLast) := (he.cmp_pos _ _).1 hcmp
        rw [decrement_eq (by omega) (by omega)]
        obtain ⟨i, hloop, hi, hlei, habove, hstop⟩ :=
          @ih (ikeyentryLast - 1) (by omega) (by omega) (by omega)
        refine ⟨i, hloop, by omega, hlei, fun j hij hj => ?_, hstop⟩
        rcases hj.eq_or_lt with rfl | hlt
        · exact hkey
        · exact habove j hij (by omega)
      · refine ⟨ikeyentryLast, rfl, le_rfl, hle, fun j hij hj => absurd (hij.trans_le hj)
          (lt_irrefl _), fun _ => ?_⟩
        exact not_lt.1 fun hlt => hcmp ((he.cmp_pos _ _).2 hlt)
    · exact ⟨ikeyentryLast, rfl, le_rfl, hle, fun j hij hj => absurd (hij.trans_le hj)
        (lt_irrefl _),
        fun hle => absurd hle hin⟩

/-- The entries before `ikeyentryFirst` are not above the divisor, and those behind `ikeyentryLast`
are. -/
structure Split (key : α → κ) (ikeyentryMin ikeyentryMax ikeyentryFirst ikeyentryLast : Nat)
    (f : Nat → α) : Prop where
  below : ∀ i, ikeyentryMin ≤ i → i < ikeyentryFirst → key (f i) ≤ key (f ikeyentryMin)
  above : ∀ i, ikeyentryLast < i → i < ikeyentryMax → key (f ikeyentryMin) < key (f i)

/-- The exchange of a pair extends both parts of the split by one of the two. -/
theorem Split.swap (h : Split key ikeyentryMin ikeyentryMax ikeyentryFirst ikeyentryLast f)
    (hmin : ikeyentryMin < ikeyentryFirst)
    (hlt : ikeyentryFirst < ikeyentryLast) (hfirst : key (f ikeyentryMin) < key (f ikeyentryFirst))
    (hlast : key (f ikeyentryLast) ≤ key (f ikeyentryMin)) :
    Split key ikeyentryMin ikeyentryMax (ikeyentryFirst + 1) (ikeyentryLast - 1)
      (Function.update (Function.update f ikeyentryFirst (f ikeyentryLast)) ikeyentryLast
        (f ikeyentryFirst)) := by
  have hdivisor : Function.update (Function.update f ikeyentryFirst (f ikeyentryLast)) ikeyentryLast
      (f ikeyentryFirst)
      ikeyentryMin = f ikeyentryMin := by
    rw [Function.update_of_ne (by omega), Function.update_of_ne (by omega)]
  constructor
  · intro i hi hilt
    rw [hdivisor, Function.update_of_ne (by omega)]
    rcases Nat.lt_succ_iff_lt_or_eq.1 hilt with hilt | rfl
    · rw [Function.update_of_ne hilt.ne]
      exact h.below i hi hilt
    · rwa [Function.update_self]
  · intro i hi hilt
    rw [hdivisor]
    rcases eq_or_ne i ikeyentryLast with rfl | hne
    · rwa [Function.update_self]
    · rw [Function.update_of_ne hne, Function.update_of_ne (by omega)]
      exact h.above i (by omega) hilt

/-- The indices cross where the entries not above the divisor end. -/
theorem partitionLoop_spec (he : e.Compares key)
    (ha : a.Consistent) (hmax : ikeyentryMax ≤ a.m_centry)
    (hmin : ikeyentryMin ≤ ikeyentryFirst) (hle : ikeyentryFirst ≤ ikeyentryLast)
    (hlast : ikeyentryLast < ikeyentryMax)
    (hsplit : Split key ikeyentryMin ikeyentryMax ikeyentryFirst ikeyentryLast f)
    (hn : ikeyentryLast + 1 - ikeyentryFirst < n) :
    ∃ i f', partitionLoop e ikeyentryMin (ikeyentryMax - ikeyentryMin) n ikeyentryFirst
        ikeyentryLast (put a f) =
        some (i, i - 1, put a f') ∧
      Rearranges [(ikeyentryMin + 1, ikeyentryMax)] f f' ∧ ikeyentryMin < i ∧ i ≤ ikeyentryMax ∧
      Split key ikeyentryMin ikeyentryMax i (i - 1) f' := by
  have hsize : a.m_centry ≤ SIZE_MAX := ha.size_le.trans ha.capacity_le
  induction n generalizing ikeyentryFirst ikeyentryLast f with
  | zero => omega
  | succ n ih =>
    obtain ⟨i, hadvance, hlei, hi, hbelow, hstop⟩ :=
      advance_spec (f := f) (n := ikeyentryMax - ikeyentryMin + 1) he ha
      (hlast.trans_le hmax) (show ikeyentryMin < a.m_centry by omega) (hle.trans (Nat.le_succ _))
      (by omega)
    -- the divisor is not above itself
    have hmini : ikeyentryMin < i := by
      refine lt_of_le_of_ne (hmin.trans hlei) ?_
      rintro rfl
      exact absurd (hstop (hmin.trans hle)) (lt_irrefl _)
    obtain ⟨j, hretreat, hj, hij, habove, hstop'⟩ :=
      retreat_spec (f := f) (n := ikeyentryMax - ikeyentryMin + 1) he ha
      (hlast.trans_le hmax) (show ikeyentryMin < a.m_centry by omega) (Nat.zero_lt_of_lt hmini) hi
      (by omega)
    have hsplit' : Split key ikeyentryMin ikeyentryMax i j f := by
      refine ⟨fun k hk hki => ?_, fun k hk hkmax => ?_⟩
      · rcases Nat.lt_or_ge k ikeyentryFirst with hlt | hge
        · exact hsplit.below k hk hlt
        · exact hbelow k hge hki
      · rcases Nat.lt_or_ge ikeyentryLast k with hlt | hge
        · exact hsplit.above k hlt hkmax
        · exact habove k hk hge
    rw [partitionLoop]
    simp only [hadvance, hretreat, Option.bind_eq_bind, Option.bind_some]
    rcases Nat.lt_or_ge i j with hlt | hge
    · have hswap : swapPair i j (put a f) =
          some (i + 1, j - 1, put a (Function.update (Function.update f i (f j)) j (f i))) := by
        rw [swapPair, if_pos hlt, swapEntry_put ha (by omega) (by omega), decrement_eq (by omega)
          (by omega)]
        rfl
      have hsplit'' := hsplit'.swap hmini hlt (hstop (by omega)) (hstop' hlt.le)
      have hrearranges : Rearranges [(ikeyentryMin + 1, ikeyentryMax)] f
          (Function.update (Function.update f i (f j)) j (f i)) :=
        .swap ⟨hmini, by dsimp only; omega⟩ ⟨by dsimp only; omega, by dsimp only; omega⟩
      simp only [hswap, Option.bind_some]
      split_ifs with hmore
      · obtain ⟨k, f', hloop, hrest, hk, hkmax, hdone⟩ :=
          ih (by omega) hmore (by omega) hsplit'' (by omega)
        exact ⟨k, f', hloop, hrearranges.trans hrest, hk, hkmax, hdone⟩
      · obtain rfl : j = i + 1 := by omega
        exact ⟨i + 1, _, rfl, hrearranges, by omega, by omega, hsplit''⟩
    · -- an entry that both loops stop at would be above the divisor and not above it
      obtain rfl : i = j + 1 := by
        rcases hij.eq_or_lt with heq | hlt
        · exact heq
        · obtain rfl : i = j := by omega
          exact absurd (hstop (by omega)) (hstop' le_rfl).not_gt
      have hswap : swapPair (j + 1) j (put a f) = some (j + 1, j, put a f) := by
        rw [swapPair, if_neg (by omega)]
      simp only [hswap, Option.bind_some]
      rw [if_neg (by omega)]
      exact ⟨j + 1, f, rfl, .refl _ _, hmini, by omega, hsplit'⟩

/-- The divisor moves to the end of the part that is not above it. -/
theorem Split.swap_divisor
    (h : Split key ikeyentryMin ikeyentryMax ikeyentryFirst (ikeyentryFirst - 1) f)
    (hmin : ikeyentryMin < ikeyentryFirst) {f' : Nat → α}
    (hf' : f' = Function.update (Function.update f ikeyentryMin (f (ikeyentryFirst - 1)))
      (ikeyentryFirst - 1) (f ikeyentryMin)) :
    f' (ikeyentryFirst - 1) = f ikeyentryMin ∧
      (∀ i, ikeyentryMin ≤ i → i < ikeyentryFirst → key (f' i) ≤ key (f ikeyentryMin)) ∧
      ∀ i, ikeyentryFirst ≤ i → i < ikeyentryMax → key (f ikeyentryMin) < key (f' i) := by
  subst hf'
  refine ⟨Function.update_self _ _ _, fun i hi hlt => ?_, fun i hi hlt => ?_⟩
  · rcases eq_or_ne i (ikeyentryFirst - 1) with rfl | hne
    · rw [Function.update_self]
    · rw [Function.update_of_ne hne]
      rcases eq_or_ne i ikeyentryMin with rfl | hne'
      · rw [Function.update_self]
        exact h.below _ (by omega) (by omega)
      · rw [Function.update_of_ne hne']
        exact h.below i hi hlt
  · rw [Function.update_of_ne (by omega), Function.update_of_ne (by omega)]
    exact h.above i (by omega) hlt

/-- A partition is split in two at an index inside it, and no entry of the lower part is above one
of the upper part. -/
structure Parts (key : α → κ) (ikeyentryMin ikeyentryMax : Nat) (small large : Nat × Nat)
    (f : Nat → α) (m : Nat) : Prop where
  lower : ikeyentryMin < m
  upper : m < ikeyentryMax
  parts : small = (ikeyentryMin, m) ∧ large = (m, ikeyentryMax) ∨ small = (m, ikeyentryMax) ∧
    large = (ikeyentryMin, m)
  ordered : ∀ i j, ikeyentryMin ≤ i → i < m → m ≤ j → j < ikeyentryMax → key (f i) ≤ key (f j)

theorem partition_spec (he : e.Compares key) (ha : a.Consistent) (hmax : ikeyentryMax ≤ a.m_centry)
    (hlarge : ikeyentryMin + 1 < ikeyentryMax) (f : Nat → α) :
    ∃ small large f' m, partition e ikeyentryMin ikeyentryMax (put a f) =
      some ((small, large), put a f') ∧
      Rearranges [(ikeyentryMin, ikeyentryMax)] f f' ∧
        Parts key ikeyentryMin ikeyentryMax small large f' m := by
  have hsize : a.m_centry ≤ SIZE_MAX := ha.size_le.trans ha.capacity_le
  have hlast : decrement ikeyentryMax = ikeyentryMax - 1 := decrement_eq (by omega) (by omega)
  have hwithin (i : Nat) (hi : ikeyentryMin ≤ i) (hi' : i < ikeyentryMax) :
    Within (ikeyentryMin, ikeyentryMax) i := ⟨hi, hi'⟩
  obtain ⟨f₁, hsort, hf₁⟩ :=
    sortThree_spec (e := e) ha hmax (hwithin ikeyentryMin le_rfl (by omega))
    (hwithin (ikeyentryMin + (ikeyentryMax - ikeyentryMin) / 2) (by omega) (by omega))
    (hwithin (ikeyentryMax - 1) (by omega) (by omega)) f
  have hstart : Split key ikeyentryMin ikeyentryMax ikeyentryMin (ikeyentryMax - 1) f₁ :=
    ⟨fun k hk hlt => absurd (hk.trans_lt hlt) (lt_irrefl _), fun k hk hlt => by omega⟩
  obtain ⟨i, f₂, hloop, hf₂, hi, himax, hsplit⟩ :=
    partitionLoop_spec (n := ikeyentryMax - ikeyentryMin + 1) he ha hmax
    le_rfl (by omega) (by omega) hstart (by omega)
  have hswap : swapEntry ikeyentryMin (i - 1) (put a f₂) = _ :=
    swapEntry_put ha (by omega) (by omega)
  obtain ⟨hdivisor, hbelow, habove⟩ := hsplit.swap_divisor hi rfl
  have hf₃ : Rearranges [(ikeyentryMin, ikeyentryMax)] f₂
      (Function.update (Function.update f₂ ikeyentryMin (f₂ (i - 1))) (i - 1) (f₂ ikeyentryMin)) :=
    .swap (hwithin _ le_rfl (by omega)) (hwithin _ (by omega) (by omega))
  have hf₂' : Rearranges [(ikeyentryMin, ikeyentryMax)] f₁ f₂ := hf₂.mono fun p hp => by
    obtain rfl := List.mem_singleton.1 hp
    have hinside : Inside (ikeyentryMin + 1, ikeyentryMax) (ikeyentryMin, ikeyentryMax) :=
      ⟨Nat.le_succ _, le_rfl⟩
    exact ⟨⟨_, List.mem_singleton.2 rfl, hinside⟩, fun q hq =>
      .inl (List.mem_singleton.1 hq ▸ hinside)⟩
  generalize Function.update (Function.update f₂ ikeyentryMin (f₂ (i - 1))) (i - 1)
    (f₂ ikeyentryMin) = f₃ at *
  refine ⟨(subpartitions ikeyentryMin ikeyentryMax i (i - 1)).1,
    (subpartitions ikeyentryMin ikeyentryMax i (i - 1)).2, f₃,
    if ikeyentryMax - i = 0 then i - 1 else i, ?_, (hf₁.trans hf₂').trans hf₃, ?_⟩
  · rw [partition]
    simp only [hlast, hsort, hloop, hswap, Option.bind_eq_bind, Option.bind_some]
    rfl
  · rw [subpartitions]
    split_ifs with hempty hside
    · -- all other entries are at most the divisor, which is the last one
      refine ⟨by omega, by omega, .inr ⟨rfl, rfl⟩, fun k l hk hkm hml hl => ?_⟩
      obtain rfl : l = i - 1 := by omega
      rw [hdivisor]
      exact hbelow k hk (by omega)
    all_goals
      refine ⟨hi, by omega, ?_, fun k l hk hkm hml hl => (hbelow k hk hkm).trans
      (habove l hml hl).le⟩
    · exact .inl ⟨rfl, rfl⟩
    · exact .inr ⟨rfl, rfl⟩

/-- The rounds that partitions take at most: a partition of a single entry takes one, and its parts
no more than it. -/
def weight (parts : List (Nat × Nat)) : Nat := (parts.map fun part => 2 * (part.2 - part.1) - 1).sum

theorem weight_cons (part : Nat × Nat) (parts : List (Nat × Nat)) :
    weight (part :: parts) = 2 * (part.2 - part.1) - 1 + weight parts := by
  rw [weight, List.map_cons, List.sum_cons, weight]

/-- The partitions that are left to sort are not empty, are in the array, and are apart from each
other. -/
structure Pending (centry : Nat) (parts : List (Nat × Nat)) : Prop where
  nonempty : ∀ part ∈ parts, part.1 < part.2
  bound : ∀ part ∈ parts, part.2 ≤ centry
  apart : parts.Pairwise Separate

theorem Pending.sublist {centry : Nat} {parts parts' : List (Nat × Nat)} (h : Pending centry parts)
    (hsub : parts'.Sublist parts) : Pending centry parts' :=
  ⟨fun p hp => h.nonempty p (hsub.subset hp), fun p hp => h.bound p (hsub.subset hp),
    h.apart.sublist hsub⟩

theorem Pending.tail {centry : Nat} {part : Nat × Nat} {parts : List (Nat × Nat)}
    (h : Pending centry (part :: parts)) :
    Pending centry parts := h.sublist (List.sublist_cons_self _ _)

theorem Pending.swap {centry : Nat} {part part' : Nat × Nat} {parts : List (Nat × Nat)}
    (h : Pending centry (part :: part' :: parts)) : Pending centry (part' :: part :: parts) := by
  have hperm := List.Perm.swap part part' parts
  have : Std.Symm Separate := ⟨fun _ _ => Separate.symm⟩
  exact ⟨fun p hp => h.nonempty p (hperm.subset hp), fun p hp => h.bound p (hperm.subset hp),
    h.apart.perm hperm.symm fun hpq => hpq.symm⟩

/-- A partition is replaced by its parts. -/
theorem Pending.parts {centry m : Nat} {small large : Nat × Nat} {parts : List (Nat × Nat)}
    (h : Pending centry ((ikeyentryMin, ikeyentryMax) :: parts))
    (hparts : Parts key ikeyentryMin ikeyentryMax small large f m) :
      Pending centry (small :: large :: parts) := by
  obtain ⟨hapart, hpairs⟩ := List.pairwise_cons.1 h.apart
  have hbound : ikeyentryMax ≤ centry := h.bound _ List.mem_cons_self
  have hlower := hparts.lower
  have hupper := hparts.upper
  have hinside (p : Nat × Nat) (hp : Inside p (ikeyentryMin, ikeyentryMax)) (q : Nat × Nat)
    (hq : q ∈ parts) : Separate p q :=
    hp.apart (hapart q hq)
  obtain ⟨rfl, rfl⟩ | ⟨rfl, rfl⟩ := hparts.parts
  all_goals
    refine ⟨?_, ?_, ?_⟩
    · exact List.forall_mem_cons.2
        ⟨by dsimp only; omega, List.forall_mem_cons.2 ⟨by dsimp only; omega, h.tail.nonempty⟩⟩
    · exact List.forall_mem_cons.2
        ⟨by dsimp only; omega, List.forall_mem_cons.2 ⟨by dsimp only; omega, h.tail.bound⟩⟩
    · refine List.pairwise_cons.2 ⟨List.forall_mem_cons.2 ⟨?_, hinside _ ⟨?_, ?_⟩⟩,
        List.pairwise_cons.2 ⟨hinside _ ⟨?_, ?_⟩, hpairs⟩⟩
      all_goals first | exact .inl le_rfl | exact .inr le_rfl | (dsimp only; omega)

theorem Parts.weight_eq {m : Nat} {small large : Nat × Nat}
    (h : Parts key ikeyentryMin ikeyentryMax small large f m)
    (parts : List (Nat × Nat)) :
    weight (small :: large :: parts) + 1 = weight ((ikeyentryMin, ikeyentryMax) :: parts) := by
  have hlower := h.lower
  have hupper := h.upper
  rw [weight_cons, weight_cons, weight_cons]
  obtain ⟨rfl, rfl⟩ | ⟨rfl, rfl⟩ := h.parts <;> dsimp only <;> omega

/-- The sort of the parts sorts the partition. -/
theorem Parts.sorts {m centry : Nat} {small large : Nat × Nat} {parts qs : List (Nat × Nat)}
    {f' f'' : Nat → α}
    (h : Parts key ikeyentryMin ikeyentryMax small large f' m)
    (hpending : Pending centry ((ikeyentryMin, ikeyentryMax) :: parts))
    (hrearranges : Rearranges [(ikeyentryMin, ikeyentryMax)] f f')
      (hsorts : Sorts (keyLe key) qs f' f'')
    (hqs : ∀ q, q ∈ qs ↔ q = small ∨ q = large ∨ q ∈ parts) :
    Sorts (keyLe key) ((ikeyentryMin, ikeyentryMax) :: parts) f f'' := by
  refine .of_parts h.lower.le h.upper.le hrearranges h.ordered hsorts ?_ ?_ ?_ ?_ hpending.apart
  · rw [hqs]
    obtain ⟨rfl, -⟩ | ⟨-, rfl⟩ := h.parts
    · exact .inl rfl
    · exact .inr (.inl rfl)
  · rw [hqs]
    obtain ⟨-, rfl⟩ | ⟨rfl, -⟩ := h.parts
    · exact .inr (.inl rfl)
    · exact .inl rfl
  · intro q hq
    obtain ⟨rfl, rfl⟩ | ⟨rfl, rfl⟩ := h.parts
    · exact (hqs q).1 hq
    · rcases (hqs q).1 hq with hq | hq | hq
      · exact .inr (.inl hq)
      · exact .inl hq
      · exact .inr (.inr hq)
  · exact fun p hp => (hqs p).2 (.inr (.inr hp))

/-- The loop sorts the current partition and those on the stack. By induction on the rounds that are
left, which are enough for the weight of these partitions. -/
theorem quickSortLoop_spec (he : e.Compares key) (ha : a.Consistent) {rgpart : List (Nat × Nat)}
    (hpending : Pending a.m_centry ((ikeyentryMin, ikeyentryMax) :: rgpart))
    (hn : weight ((ikeyentryMin, ikeyentryMax) :: rgpart) ≤ n) :
    ∃ f', quickSortLoop e n rgpart ikeyentryMin ikeyentryMax (put a f) = some (put a f') ∧
      Sorts (keyLe key) ((ikeyentryMin, ikeyentryMax) :: rgpart) f f' := by
  have hnonempty : ikeyentryMin < ikeyentryMax := hpending.nonempty _ List.mem_cons_self
  induction n generalizing rgpart ikeyentryMin ikeyentryMax f with
  | zero =>
    rw [weight_cons] at hn
    dsimp only at hn
    omega
  | succ n ih =>
    have hbound : ikeyentryMax ≤ a.m_centry := hpending.bound _ List.mem_cons_self
    by_cases hsmall : ikeyentryMax - ikeyentryMin < ckeyentryMin
    · rw [quickSortLoop, if_pos hsmall]
      obtain ⟨f₁, hinsertion, hsorts⟩ := insertionSort_spec ikeyentryMin he ha hbound f
      simp only [hinsertion, Option.bind_eq_bind, Option.bind_some]
      cases rgpart with
      | nil => exact ⟨f₁, rfl, hsorts⟩
      | cons part rgpart =>
        obtain ⟨ikeyentryMin', ikeyentryMax'⟩ := part
        rw [weight_cons] at hn
        dsimp only at hn
        obtain ⟨f', hloop, hrest⟩ :=
          ih (f := f₁) hpending.tail (by omega) (hpending.tail.nonempty _ List.mem_cons_self)
        exact ⟨f', hloop, hsorts.cons hrest hpending.apart⟩
    · have hlarge : ikeyentryMin + 1 < ikeyentryMax := by
        rw [ckeyentryMin] at hsmall
        omega
      obtain ⟨small, large, f₁, m, hpartition, hrearranges, hparts⟩ :=
        partition_spec he ha hbound hlarge f
      have hpending' := hpending.parts hparts
      have hweight := hparts.weight_eq rgpart
      rw [quickSortLoop, if_neg hsmall]
      simp only [hpartition, Option.bind_eq_bind, Option.bind_some]
      split_ifs with hroom
      · have hfuel : weight (small :: large :: rgpart) ≤ n := by omega
        obtain ⟨f', hloop, hsorts⟩ :=
          ih (f := f₁) hpending' hfuel (hpending'.nonempty _ List.mem_cons_self)
        refine ⟨f', hloop, hparts.sorts hpending hrearranges hsorts fun q => ?_⟩
        rw [List.mem_cons, List.mem_cons]
      · -- the larger part is sorted by a call, the smaller one and the stack by this loop
        rw [weight_cons, weight_cons] at hweight
        have hlargePending : Pending a.m_centry [large] :=
          hpending'.tail.sublist (List.singleton_sublist.2 List.mem_cons_self)
        have hrestPending : Pending a.m_centry (small :: rgpart) := hpending'.swap.tail
        have hlargeFuel : weight [large] ≤ n := by
          rw [weight_cons, weight, List.map_nil, List.sum_nil]
          omega
        have hrestFuel : weight (small :: rgpart) ≤ n := by
          rw [weight_cons]
          omega
        obtain ⟨f₂, hcall, hlargeSorts⟩ := ih (f := f₁) hlargePending hlargeFuel
          (hlargePending.nonempty large List.mem_cons_self)
        obtain ⟨f', hloop, hsorts⟩ :=
          ih (f := f₂) hrestPending hrestFuel (hrestPending.nonempty small List.mem_cons_self)
        simp only [hcall, Option.bind_some]
        refine ⟨f', hloop, hparts.sorts hpending hrearranges
          (hlargeSorts.cons hsorts hpending'.swap.apart) fun q => ?_⟩
        rw [List.mem_cons, List.mem_cons]
        exact or_left_comm

/-- The quicksort returns, and orders the entries of the partition. -/
theorem quickSort_spec (he : e.Compares key) (ha : a.Consistent) (hlt : ikeyentryMin < ikeyentryMax)
    (hmax : ikeyentryMax ≤ a.m_centry) (f : Nat → α) :
    ∃ f', quickSort e ikeyentryMin ikeyentryMax (put a f) = some (put a f') ∧
      Sorts (keyLe key) [(ikeyentryMin, ikeyentryMax)] f f' := by
  refine quickSortLoop_spec he ha
    ⟨List.forall_mem_singleton.2 hlt, List.forall_mem_singleton.2 hmax,
    List.pairwise_singleton _ _⟩ ?_
  rw [weight_cons, weight, List.map_nil, List.sum_nil]
  dsimp only
  omega

end

end CTable

end Ese
