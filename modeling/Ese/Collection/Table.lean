import Mathlib.Data.List.NodupEquivFin
import Ese.Collection.TableSort

/-!
# The table

`CTable` keeps entries in an array that is sorted by their keys, and seeks among them. The
documentation of a seek names the relation of the entry to the key, and the bias of its position
among entries with the same key. `seeks_iff` says for which keys all seeks do what it names.
-/

namespace Ese

/-- The search that a table is configured with. -/
inductive CTable.PfnSearch
  | linearSearch | binarySearch
  deriving DecidableEq, Repr

/-- The error codes of `CTable`. -/
inductive CTable.ERR
  | errSuccess | errInvalidParameter | errOutOfMemory | errKeyChange
  deriving DecidableEq, Repr

/-- The array of entries in the order of their keys, and the search that its size calls for. -/
structure CTable (α : Type) where
  m_arrayKeyEntry : CArray α
  m_pfnSearch : CTable.PfnSearch

namespace CTable

variable {α κ : Type} (e : KeyEntry α κ) (t : CTable α)

/-- `CTable::CTable`; `entry` is what the constructor of the entries makes. -/
def init (entry : α) : CTable α := ⟨CArray.init 1 entry, .linearSearch⟩

/-- `Size`. -/
def size : Nat := t.m_arrayKeyEntry.m_centry

/-- `PEntry`: the index of an entry; `none` for the null pointer. -/
def pEntry (ientry : Nat) : Option Nat := t.m_arrayKeyEntry.pEntry ientry

/-- The number of bits of `n`, by as many rounds as `fuel` allows. -/
def log2n : Nat → Nat → Nat
  | 0, _ => 0
  | fuel + 1, n => if n = 0 then 0 else log2n fuel (n / 2) + 1

/-- `ConfigureSearch_`, which sorts the entries and picks the search. -/
def configureSearch (fInOrder : Bool) : Option (CTable α) := do
  if 2 * log2n t.size t.size < t.size then
    let a ← if fInOrder then some t.m_arrayKeyEntry else quickSort e 0 t.size t.m_arrayKeyEntry
    return ⟨a, .binarySearch⟩
  else
    let a ← if fInOrder then some t.m_arrayKeyEntry else insertionSort e 0 t.size t.m_arrayKeyEntry
    return ⟨a, .linearSearch⟩

/-- The loop that sets the entries from `ientry` on. -/
def loadLoop : Nat → List α → CArray α → Option (CArray α)
  | _, [], a => some a
  | ientry, entry :: rgentry, a => do
    let (a, _) ← a.errSetEntry ientry entry none
    loadLoop (ientry + 1) rgentry a

/-- `ErrLoad`. -/
def errLoad (rgentry : List α) (alloc : Option (Nat → α)) : Option (CTable α × ERR) := do
  let ientryMin := t.size
  match ← t.m_arrayKeyEntry.errSetSize (sizeT (t.size + rgentry.length)) alloc with
  | (a, .errSuccess) =>
    let a ← loadLoop ientryMin rgentry a
    return (← configureSearch e { t with m_arrayKeyEntry := a } false, .errSuccess)
  | (a, _) => return ({ t with m_arrayKeyEntry := a }, .errOutOfMemory)

/-- The searches go on behind an entry below the key, or equal to it if they are for the high
end. -/
def fBelow (cmp : Int) (fHigh : Bool) : Bool := cmp < 0 || cmp == 0 && fHigh

/-- The linear search has `n` entries left. -/
def linearLoop (key : κ) (fHigh : Bool) : Nat → Nat → Option Nat
  | 0, ikeyentry => some ikeyentry
  | n + 1, ikeyentry => do
    let cmp := e.cmpKey (← t.m_arrayKeyEntry.entry ikeyentry) key
    if !fBelow cmp fHigh then return ikeyentry else linearLoop key fHigh n (ikeyentry + 1)

/-- `LinearSearch_`. -/
def linearSearch (key : κ) (fHigh : Bool) : Option Nat := linearLoop e t key fHigh t.size 0

/-- The binary search, for at most `n` rounds. -/
def binaryLoop (key : κ) (fHigh : Bool) : Nat → Nat → Nat → Option Nat
  | 0, _, _ => none
  | n + 1, ikeyentryMin, ikeyentryMax =>
    if ikeyentryMin < ikeyentryMax then do
      let ikeyentryMid := ikeyentryMin + (ikeyentryMax - ikeyentryMin) / 2
      let cmp := e.cmpKey (← t.m_arrayKeyEntry.entry ikeyentryMid) key
      if fBelow cmp fHigh then binaryLoop key fHigh n (ikeyentryMid + 1) ikeyentryMax
      else binaryLoop key fHigh n ikeyentryMin ikeyentryMid
    else some ikeyentryMax

/-- `BinarySearch_`. -/
def binarySearch (key : κ) (fHigh : Bool) : Option Nat :=
  binaryLoop e t key fHigh (t.size + 1) 0 t.size

/-- The search that was picked. -/
def search (key : κ) (fHigh : Bool) : Option Nat :=
  match t.m_pfnSearch with
  | .linearSearch => linearSearch e t key fHigh
  | .binarySearch => binarySearch e t key fHigh

/-- Whether an entry compares as asked for, if its index is one to look at. -/
def fCompares (fLook : Bool) (ikeyentry : Nat) (fMatch : Int → Bool) (key : κ) : Option Bool :=
  if fLook then do
    return fMatch (e.cmpKey (← t.m_arrayKeyEntry.entry ikeyentry) key)
  else some false

/-- `SeekLT`. -/
def seekLT (key : κ) : Option (Option Nat) := do
  let ikeyentry ← search e t key false
  if ← fCompares e t (ikeyentry < t.size) ikeyentry (· < 0) key then return t.pEntry ikeyentry
  else return t.pEntry (decrement ikeyentry)

/-- `SeekLE`. -/
def seekLE (key : κ) : Option (Option Nat) := do
  let ikeyentry ← search e t key false
  if ← fCompares e t (ikeyentry < t.size) ikeyentry (· ≤ 0) key then return t.pEntry ikeyentry
  else return t.pEntry (decrement ikeyentry)

/-- `SeekEQ`. -/
def seekEQ (key : κ) : Option (Option Nat) := do
  let ikeyentry ← search e t key false
  if ← fCompares e t (ikeyentry < t.size) ikeyentry (· == 0) key then return t.pEntry ikeyentry
  else return none

/-- `SeekHI`. -/
def seekHI (key : κ) : Option (Option Nat) := do
  let ikeyentry ← search e t key true
  if ← fCompares e t (0 < ikeyentry) (decrement ikeyentry) (· == 0) key
    then return t.pEntry (decrement ikeyentry)
  else return none

/-- `SeekGE`. -/
def seekGE (key : κ) : Option (Option Nat) := do
  let ikeyentry ← search e t key true
  if ← fCompares e t (0 < ikeyentry) (decrement ikeyentry) (· == 0) key
    then return t.pEntry (decrement ikeyentry)
  else return t.pEntry ikeyentry

/-- `SeekGT`. -/
def seekGT (key : κ) : Option (Option Nat) := do return t.pEntry (← search e t key true)

/-! ## What is documented -/

/-- The seeks, by the suffixes of their names. -/
inductive Seek
  | LT | LE | EQ | HI | GE | GT
  deriving DecidableEq, Repr

/-- The seek of a kind. -/
def seek (key : κ) : Seek → Option (Option Nat)
  | .LT => seekLT e t key
  | .LE => seekLE e t key
  | .EQ => seekEQ e t key
  | .HI => seekHI e t key
  | .GE => seekGE e t key
  | .GT => seekGT e t key

/-- The end of the table that a seek is biased to. -/
inductive Bias
  | low | high

/-- The relation of the key of an entry to the key that is sought. -/
def Seek.Rel [LinearOrder κ] : Seek → κ → κ → Prop
  | .LT => (· < ·)
  | .LE => (· ≤ ·)
  | .EQ | .HI => (· = ·)
  | .GE => (· ≥ ·)
  | .GT => (· > ·)

/-- The first of two keys in the relation is as close to the key that is sought as the second. -/
def Seek.Closer [LinearOrder κ] : Seek → κ → κ → Prop
  | .LT | .LE => (· ≥ ·)
  | .EQ | .HI => (· = ·)
  | .GE | .GT => (· ≤ ·)

/-- The positional bias of a seek. -/
def Seek.bias : Seek → Bias
  | .LT | .HI | .GE => .high
  | .LE | .EQ | .GT => .low

/-- The index is the lowest or highest one of the entries with its key. -/
def Bias.Meets (key : α → κ) (l : List α) (i : Nat) (x : α) : Bias → Prop
  | .low => ∀ (j : Nat) (y : α), l[j]? = some y → key y = key x → i ≤ j
  | .high => ∀ (j : Nat) (y : α), l[j]? = some y → key y = key x → j ≤ i

/-- What is documented of a seek: it lands on an entry in the relation, as close to the key as any
and at the end of those with the same key that its bias names, or nowhere if no entry is in the
relation. -/
def Documented [LinearOrder κ] (key : α → κ) (l : List α) (k : κ) (s : Seek) : Option Nat → Prop
  | none => ∀ x ∈ l, ¬ s.Rel (key x) k
  | some i => ∃ x, l[i]? = some x ∧ s.Rel (key x) k ∧
      (∀ y ∈ l, s.Rel (key y) k → s.Closer (key x) (key y)) ∧
      s.bias.Meets key l i x

/-! ## Entries -/

section
variable {e} {t} {k : κ} {i n : Nat}

/-- An index within the table has an entry. -/
theorem pEntry_of_lt (hn : n < t.size) : t.pEntry n = some n := if_pos hn

/-- An index past the table has none. -/
theorem pEntry_of_le (hn : t.size ≤ n) : t.pEntry n = none := if_neg (Nat.not_lt.2 hn)

/-- Before the first index there is no entry. -/
theorem pEntry_decrement_zero (ht : t.m_arrayKeyEntry.Consistent) :
    t.pEntry (decrement 0) = none := by
  refine pEntry_of_le ?_
  exact ht.size_le.trans ht.capacity_le

/-- Before another index there is one. -/
theorem pEntry_decrement (ht : t.m_arrayKeyEntry.Consistent) (hn : n ≠ 0) (hle : n ≤ t.size) :
    t.pEntry (decrement n) = some (n - 1) := by
  have hmax : t.size ≤ SIZE_MAX := ht.size_le.trans ht.capacity_le
  rw [decrement_eq (Nat.pos_of_ne_zero hn) (hle.trans hmax)]
  exact pEntry_of_lt (by omega)

/-- A comparison that is made is of the entry at the index. -/
theorem fCompares_spec (ht : t.m_arrayKeyEntry.Consistent) {fLook : Bool} (f : Int → Bool)
    (hlook : fLook = true → i < t.size) :
    ∃ b, fCompares e t fLook i f k = some b ∧
      (b = true ↔ fLook = true ∧ ∃ x, t.m_arrayKeyEntry.content[i]? = some x ∧
        f (e.cmpKey x k) = true) := by
  cases fLook with
  | false => exact ⟨false, rfl, fun h => Bool.noConfusion h, fun h => Bool.noConfusion h.1⟩
  | true =>
    have hlt : i < t.m_arrayKeyEntry.content.length :=
      (hlook rfl).trans_eq CArray.length_content.symm
    have hentry := List.getElem?_eq_getElem hlt
    refine ⟨f (e.cmpKey t.m_arrayKeyEntry.content[i] k), ?_, fun h => ⟨rfl, _, hentry, h⟩, ?_⟩
    · rw [fCompares, if_pos rfl, ht.entry_eq, hentry]
      rfl
    · rintro ⟨-, x, hx, hmatch⟩
      rwa [Option.some.inj (hentry.symm.trans hx)]

end

/-! ## The searches -/

/-- An index that the entries with a property end at. -/
structure Boundary (P : α → Prop) (l : List α) (c : Nat) : Prop where
  le : c ≤ l.length
  below : ∀ i x, l[i]? = some x → i < c → P x
  above : ∀ i x, l[i]? = some x → c ≤ i → ¬ P x

/-- There is one boundary at most. -/
theorem Boundary.unique {P : α → Prop} {l : List α} {c c' : Nat} (h : Boundary P l c)
    (h' : Boundary P l c') : c = c' := by
  rcases Nat.lt_trichotomy c c' with hlt | heq | hlt
  · have hentry := List.getElem?_eq_getElem (hlt.trans_le h'.le)
    exact absurd (h'.below c _ hentry hlt) (h.above c _ hentry le_rfl)
  · exact heq
  · have hentry := List.getElem?_eq_getElem (hlt.trans_le h.le)
    exact absurd (h.below c' _ hentry hlt) (h'.above c' _ hentry le_rfl)

/-- The keys that a search goes on behind. -/
def Below [LinearOrder κ] (key : α → κ) (k : κ) (fHigh : Bool) (x : α) : Prop :=
  key x < k ∨ key x = k ∧ fHigh = true

/-- The entries are sorted by their keys. -/
abbrev Sorted [LinearOrder κ] (key : α → κ) (l : List α) : Prop :=
  l.Pairwise fun x y => key x ≤ key y

section
variable {e} {t} [LinearOrder κ] {key : α → κ} {k : κ} {fHigh : Bool} {l : List α} {x y : α}
    {i j n : Nat}

/-- An entry of a smaller key is below where a larger one is. -/
theorem Below.mono (h : Below key k fHigh y) (hle : key x ≤ key y) : Below key k fHigh x := by
  rcases h with h | ⟨h, hhigh⟩
  · exact .inl (hle.trans_lt h)
  · exact (h ▸ hle).lt_or_eq.imp_right fun heq => ⟨heq, hhigh⟩

/-- An entry compares equal with its own key only. -/
theorem KeyEntry.Compares.cmpKey_eq (he : e.Compares key) : e.cmpKey x k = 0 ↔ key x = k := by
  have hneg := he.cmpKey_neg x k
  have hpos := he.cmpKey_pos x k
  constructor
  · intro hcmp
    rw [hcmp] at hneg hpos
    exact le_antisymm (not_lt.1 fun hlt => absurd (hpos.2 hlt) (lt_irrefl 0))
      (not_lt.1 fun hlt => absurd (hneg.2 hlt) (lt_irrefl 0))
  · intro hkey
    have hlt : ¬ e.cmpKey x k < 0 := fun hcmp => (hneg.1 hcmp).ne hkey
    have hgt : ¬ 0 < e.cmpKey x k := fun hcmp => (hpos.1 hcmp).ne' hkey
    omega

/-- The comparison tells whether the entry is below. -/
theorem KeyEntry.Compares.fBelow_iff (he : e.Compares key) : fBelow (e.cmpKey x k) fHigh = true ↔
    Below key k fHigh x := by
  simp only [fBelow, Bool.or_eq_true, Bool.and_eq_true, beq_iff_eq, decide_eq_true_eq,
    he.cmpKey_neg, he.cmpKey_eq, Below]

/-- In a sorted table the keys are in the order of the indices. -/
theorem Sorted.key_le (h : Sorted key l) (hi : l[i]? = some x) (hj : l[j]? = some y) (hij : i ≤ j) :
    key x ≤ key y := by
  rcases hij.eq_or_lt with rfl | hlt
  · rw [Option.some.inj (hi.symm.trans hj)]
  · obtain ⟨hi', rfl⟩ := List.getElem?_eq_some_iff.1 hi
    obtain ⟨hj', rfl⟩ := List.getElem?_eq_some_iff.1 hj
    exact List.pairwise_iff_getElem.1 h i j hi' hj' hlt

/-- The index of the first entry that is not below the key. -/
theorem Sorted.boundary (h : Sorted key l) (hi : i ≤ l.length) (hbelow : ∀ j x, l[j]? = some x →
    j < i → Below key k fHigh x)
    (hstop : ∀ x, l[i]? = some x → ¬ Below key k fHigh x) : Boundary (Below key k fHigh) l i := by
  refine ⟨hi, hbelow, fun j y hj hij hy => ?_⟩
  have hlt : i < l.length := hij.trans_lt (List.getElem?_eq_some_iff.1 hj).1
  have hentry := List.getElem?_eq_getElem hlt
  exact hstop _ hentry (hy.mono (h.key_le hentry hj hij))

/-- The linear search finds the boundary. -/
theorem linearLoop_spec (he : e.Compares key) (ht : t.m_arrayKeyEntry.Consistent)
    (hsorted : Sorted key t.m_arrayKeyEntry.content) (hn : i + n = t.size)
    (hbelow : ∀ j x, t.m_arrayKeyEntry.content[j]? = some x → j < i → Below key k fHigh x) :
    ∃ c, linearLoop e t k fHigh n i = some c ∧
      Boundary (Below key k fHigh) t.m_arrayKeyEntry.content c := by
  have hlength : t.m_arrayKeyEntry.content.length = t.size := CArray.length_content
  induction n generalizing i with
  | zero =>
    refine ⟨i, rfl, hsorted.boundary (by omega) hbelow fun x hx => ?_⟩
    have hlt := (List.getElem?_eq_some_iff.1 hx).1
    omega
  | succ n ih =>
    have hentry := List.getElem?_eq_getElem (show i < t.m_arrayKeyEntry.content.length by omega)
    rw [linearLoop, ht.entry_eq, hentry]
    simp only [Option.bind_eq_bind, Option.bind_some]
    split_ifs with hstop
    · refine ⟨i, rfl, hsorted.boundary (by omega) hbelow fun x hx hx' => ?_⟩
      rw [Option.some.inj (hentry.symm.trans hx), he.fBelow_iff.2 hx'] at hstop
      exact Bool.noConfusion hstop
    · refine ih (by omega) fun j x hx hj => ?_
      rcases Nat.lt_succ_iff_lt_or_eq.1 hj with hlt | rfl
      · exact hbelow j x hx hlt
      · rw [Bool.not_eq_true', Bool.not_eq_false, Option.some.inj (hentry.symm.trans hx)] at hstop
        exact he.fBelow_iff.1 hstop

/-- The first entry that is not below the key is within the bounds of the search. -/
theorem binaryLoop_spec (he : e.Compares key) (ht : t.m_arrayKeyEntry.Consistent)
    (hsorted : Sorted key t.m_arrayKeyEntry.content) (hij : i ≤ j) (hj : j ≤ t.size)
    (hn : j - i < n)
    (hbelow : ∀ m x, t.m_arrayKeyEntry.content[m]? = some x → m < i → Below key k fHigh x)
    (hstop : ∀ x, t.m_arrayKeyEntry.content[j]? = some x → ¬ Below key k fHigh x) :
    ∃ c, binaryLoop e t k fHigh n i j = some c ∧
      Boundary (Below key k fHigh) t.m_arrayKeyEntry.content c := by
  have hlength : t.m_arrayKeyEntry.content.length = t.size := CArray.length_content
  induction n generalizing i j with
  | zero => omega
  | succ n ih =>
    rw [binaryLoop]
    split_ifs with hlt
    · have hentry :=
        List.getElem?_eq_getElem (show i + (j - i) / 2 < t.m_arrayKeyEntry.content.length by omega)
      simp only [ht.entry_eq, hentry, Option.bind_eq_bind, Option.bind_some]
      split_ifs with hcmp
      · refine ih (by omega) hj (by omega) (fun m x hx hm => ?_) hstop
        exact (he.fBelow_iff.1 hcmp).mono (hsorted.key_le hx hentry (Nat.le_of_lt_succ hm))
      · refine ih (by omega) (by omega) (by omega) hbelow fun x hx hx' => hcmp ?_
        rw [Option.some.inj (hentry.symm.trans hx)]
        exact he.fBelow_iff.2 hx'
    · obtain rfl : i = j := by omega
      exact ⟨i, rfl, hsorted.boundary (by omega) hbelow hstop⟩

/-- Either search finds the index of the first entry that is not below the key. -/
theorem search_spec (he : e.Compares key) (ht : t.m_arrayKeyEntry.Consistent)
    (hsorted : Sorted key t.m_arrayKeyEntry.content) (k : κ) (fHigh : Bool) :
    ∃ c, search e t k fHigh = some c ∧
      Boundary (Below key k fHigh) t.m_arrayKeyEntry.content c := by
  have hnone (j : Nat) (x : α) (_ : t.m_arrayKeyEntry.content[j]? = some x) (hj : j < 0) :
    Below key k fHigh x :=
    absurd hj (Nat.not_lt_zero j)
  rw [search]
  cases t.m_pfnSearch with
  | linearSearch => exact linearLoop_spec he ht hsorted (Nat.zero_add _) hnone
  | binarySearch =>
    refine binaryLoop_spec he ht hsorted (Nat.zero_le _) le_rfl (Nat.lt_succ_of_le (Nat.sub_le _ _))
      hnone fun x hx => ?_
    have hlt := (List.getElem?_eq_some_iff.1 hx).1
    rw [CArray.length_content] at hlt
    exact absurd hlt (lt_irrefl _)

/-! ## The seeks -/

/-- The entry before a boundary is the last one with its key, and the greatest with the property. -/
theorem Boundary.last (h : Boundary (Below key k fHigh) l n) (hsorted : Sorted key l) (hn : n ≠ 0) :
    ∃ x, l[n - 1]? = some x ∧ Below key k fHigh x ∧ (∀ y ∈ l, Below key k fHigh y → key y ≤ key x) ∧
      Bias.high.Meets key l (n - 1) x := by
  have hlt : n - 1 < l.length := by
    have hle := h.le
    omega
  have hentry := List.getElem?_eq_getElem hlt
  have hx := h.below _ _ hentry (by omega)
  have hindex (j : Nat) (y : α) (hj : l[j]? = some y) (hy : Below key k fHigh y) : j ≤ n - 1 := by
    by_contra hmore
    exact h.above j y hj (by omega) hy
  refine ⟨_, hentry, hx, fun y hy hyb => ?_, fun j y hj hkey => hindex j y hj (hx.mono hkey.le)⟩
  obtain ⟨j, hj⟩ := List.mem_iff_getElem?.1 hy
  exact hsorted.key_le hj hentry (hindex j y hj hyb)

/-- The entry at a boundary is the first one with its key, and the least without the property. -/
theorem Boundary.first (h : Boundary (Below key k fHigh) l n) (hsorted : Sorted key l)
    (hn : n < l.length) :
    ∃ x, l[n]? = some x ∧ ¬ Below key k fHigh x ∧ (∀ y ∈ l, ¬ Below key k fHigh y → key x ≤ key y) ∧
      Bias.low.Meets key l n x := by
  have hentry := List.getElem?_eq_getElem hn
  have hx := h.above _ _ hentry le_rfl
  have hindex (j : Nat) (y : α) (hj : l[j]? = some y) (hy : ¬ Below key k fHigh y) : n ≤ j := by
    by_contra hless
    exact hy (h.below j y hj (by omega))
  refine ⟨_, hentry, hx, fun y hy hyb => ?_, fun j y hj hkey => hindex j y hj fun hy =>
    hx (hy.mono hkey.ge)⟩
  obtain ⟨j, hj⟩ := List.mem_iff_getElem?.1 hy
  exact hsorted.key_le hentry hj (hindex j y hj hyb)

/-- At the boundary 0 no entry is below. -/
theorem Boundary.not_below_of_zero (h : Boundary (Below key k fHigh) l 0) (hx : x ∈ l) :
    ¬ Below key k fHigh x := by
  obtain ⟨j, hj⟩ := List.mem_iff_getElem?.1 hx
  exact h.above j x hj (Nat.zero_le j)

/-- At the boundary past the end every entry is below. -/
theorem Boundary.below_of_length (h : Boundary (Below key k fHigh) l n) (hn : l.length ≤ n)
    (hx : x ∈ l) :
    Below key k fHigh x := by
  obtain ⟨j, hj⟩ := List.mem_iff_getElem?.1 hx
  exact h.below j x hj ((List.getElem?_eq_some_iff.1 hj).1.trans_le hn)

/-- Below with a low bias is a smaller key. -/
theorem below_false : Below key k false x ↔ key x < k := by
  simp only [Below, Bool.false_eq_true, and_false, or_false]

/-- Below with a high bias is a smaller key or an equal one. -/
theorem below_true : Below key k true x ↔ key x ≤ k := by
  rw [Below, and_iff_left rfl, le_iff_lt_or_eq]

/-- A key that is there twice is that of two entries. -/
theorem two_le_count_iff {z : κ} : 2 ≤ (l.map key).count z ↔
    ∃ (i j : Nat) (x y : α), i < j ∧ l[i]? = some x ∧ l[j]? = some y ∧ key x = z ∧ key y = z := by
  rw [← List.duplicate_iff_two_le_count, List.duplicate_iff_exists_distinct_get]
  constructor
  · rintro ⟨i, j, hij, hi, hj⟩
    have hi' : i.val < l.length := i.isLt.trans_eq (List.length_map key)
    have hj' : j.val < l.length := j.isLt.trans_eq (List.length_map key)
    refine ⟨i, j, l[i.val], l[j.val], hij, List.getElem?_eq_getElem hi',
      List.getElem?_eq_getElem hj', ?_, ?_⟩
    · rw [hi, List.get_eq_getElem, List.getElem_map]
    · rw [hj, List.get_eq_getElem, List.getElem_map]
  · rintro ⟨i, j, x, y, hij, hi, hj, hx, hy⟩
    obtain ⟨hi', rfl⟩ := List.getElem?_eq_some_iff.1 hi
    obtain ⟨hj', rfl⟩ := List.getElem?_eq_some_iff.1 hj
    refine ⟨⟨i, by rwa [List.length_map]⟩, ⟨j, by rwa [List.length_map]⟩, hij, ?_, ?_⟩
    · rw [List.get_eq_getElem, List.getElem_map, hx]
    · rw [List.get_eq_getElem, List.getElem_map, hy]

/-- The keys next to `k`, below and above it, that entries have when no nearer entry hides them, are
those of a single entry. -/
def NearestSingle (key : α → κ) (l : List α) (k : κ) : Prop :=
  (∀ z, z < k → 2 ≤ (l.map key).count z → ∃ y ∈ l, z < key y ∧ key y ≤ k) ∧
    ∀ z, k < z → 2 ≤ (l.map key).count z → ∃ y ∈ l, k ≤ key y ∧ key y < z

section
variable (he : e.Compares key) (ht : t.m_arrayKeyEntry.Consistent)
    (hsorted : Sorted key t.m_arrayKeyEntry.content) (k : κ)
include he ht hsorted

/-- `SeekLT` finds what it documents. -/
theorem seekLT_spec : ∃ r, seekLT e t k = some r ∧
    Documented key t.m_arrayKeyEntry.content k .LT r := by
  obtain ⟨c, hsearch, hc⟩ := search_spec he ht hsorted k false
  have hle : c ≤ t.size := hc.le.trans_eq CArray.length_content
  obtain ⟨b, hcompares, hb⟩ :=
    fCompares_spec (e := e) (k := k) ht (i := c) (fun cmp => decide (cmp < 0)) of_decide_eq_true
  have hfalse : b ≠ true := by
    intro htrue
    obtain ⟨-, x, hx, hcmp⟩ := hb.1 htrue
    exact hc.above c x hx le_rfl (below_false.2 ((he.cmpKey_neg x k).1 (of_decide_eq_true hcmp)))
  refine ⟨t.pEntry (decrement c), ?_, ?_⟩
  · simp only [seekLT, hsearch, Option.bind_eq_bind, Option.bind_some, hcompares]
    rw [if_neg hfalse]
    rfl
  · rcases eq_or_ne c 0 with rfl | hzero
    · rw [pEntry_decrement_zero ht]
      exact fun x hx hlt => hc.not_below_of_zero hx (below_false.2 hlt)
    · rw [pEntry_decrement ht hzero hle]
      obtain ⟨x, hx, hbelow, hgreatest, hhigh⟩ := hc.last hsorted hzero
      exact ⟨x, hx, below_false.1 hbelow, fun y hy hlt => hgreatest y hy (below_false.2 hlt), hhigh⟩

/-- `SeekGT` finds what it documents. -/
theorem seekGT_spec : ∃ r, seekGT e t k = some r ∧
    Documented key t.m_arrayKeyEntry.content k .GT r := by
  obtain ⟨c, hsearch, hc⟩ := search_spec he ht hsorted k true
  refine ⟨t.pEntry c, ?_, ?_⟩
  · simp only [seekGT, hsearch, Option.bind_eq_bind, Option.bind_some]
    rfl
  · rcases Nat.lt_or_ge c t.size with hlt | hge
    · rw [pEntry_of_lt hlt]
      obtain ⟨x, hx, habove, hleast, hlow⟩ :=
        hc.first hsorted (hlt.trans_eq CArray.length_content.symm)
      refine ⟨x, hx, not_le.1 fun hle => habove (below_true.2 hle), fun y hy hlt =>
        hleast y hy fun hbelow => ?_, hlow⟩
      exact absurd (below_true.1 hbelow) (not_le.2 hlt)
    · rw [pEntry_of_le hge]
      intro x hx hlt
      exact absurd (below_true.1 (hc.below_of_length (CArray.length_content.trans_le hge) hx))
        (not_le.2 hlt)

/-- `SeekEQ` finds what it documents. -/
theorem seekEQ_spec : ∃ r, seekEQ e t k = some r ∧
    Documented key t.m_arrayKeyEntry.content k .EQ r := by
  obtain ⟨c, hsearch, hc⟩ := search_spec he ht hsorted k false
  obtain ⟨b, hcompares, hb⟩ :=
    fCompares_spec (e := e) (k := k) ht (i := c) (fun cmp => cmp == 0) of_decide_eq_true
  simp only [seekEQ, hsearch, Option.bind_eq_bind, Option.bind_some, hcompares]
  cases b with
  | true =>
    obtain ⟨hlt, x, hx, hcmp⟩ := hb.1 rfl
    have hkey : key x = k := he.cmpKey_eq.1 (beq_iff_eq.1 hcmp)
    obtain ⟨y, hy, -, -, hlow⟩ := hc.first hsorted (List.getElem?_eq_some_iff.1 hx).1
    obtain rfl := Option.some.inj (hx.symm.trans hy)
    refine ⟨some c, ?_, x, hx, hkey, fun z _ hz => hkey.trans hz.symm, hlow⟩
    rw [if_pos rfl, pEntry_of_lt (of_decide_eq_true hlt)]
    rfl
  | false =>
    refine ⟨none, rfl, fun y hy hkey => ?_⟩
    -- the first entry that is not below the key would have it
    have hlt : c < t.m_arrayKeyEntry.content.length := Nat.lt_of_not_le fun hge =>
      absurd (below_false.1 (hc.below_of_length hge hy)) hkey.ge.not_gt
    obtain ⟨x, hx, habove, hleast, -⟩ := hc.first hsorted hlt
    have hle : key x ≤ k := (hleast y hy fun hbelow => (below_false.1 hbelow).ne hkey).trans_eq hkey
    have hge : k ≤ key x := not_lt.1 fun hlt => habove (below_false.2 hlt)
    refine Bool.noConfusion (hb.2 ⟨decide_eq_true (hlt.trans_eq CArray.length_content), x, hx, ?_⟩)
    exact beq_iff_eq.2 (he.cmpKey_eq.2 (le_antisymm hle hge))

/-- `SeekLE` finds what it documents unless it lands on several entries of a smaller key. -/
theorem seekLE_spec : ∃ r, seekLE e t k = some r ∧
    (Documented key t.m_arrayKeyEntry.content k .LE r ↔
    ∀ z, z < k → 2 ≤ (t.m_arrayKeyEntry.content.map key).count z →
      ∃ y ∈ t.m_arrayKeyEntry.content, z < key y ∧ key y ≤ k) := by
  obtain ⟨c, hsearch, hc⟩ := search_spec he ht hsorted k false
  have hle : c ≤ t.size := hc.le.trans_eq CArray.length_content
  obtain ⟨b, hcompares, hb⟩ :=
    fCompares_spec (e := e) (k := k) ht (i := c) (fun cmp => decide (cmp ≤ 0)) of_decide_eq_true
  have hmatch (x : α) : e.cmpKey x k ≤ 0 ↔ key x ≤ k := by
    have hpos := he.cmpKey_pos x k
    rw [← not_lt, ← not_lt, hpos]
  simp only [seekLE, hsearch, Option.bind_eq_bind, Option.bind_some, hcompares]
  cases b with
  | true =>
    obtain ⟨hlt, x, hx, hcmp⟩ := hb.1 rfl
    obtain ⟨y, hy, habove, -, hlow⟩ := hc.first hsorted (List.getElem?_eq_some_iff.1 hx).1
    obtain rfl := Option.some.inj (hx.symm.trans hy)
    have hkey : key x = k :=
      le_antisymm ((hmatch x).1 (of_decide_eq_true hcmp))
        (not_lt.1 fun hlt => habove (below_false.2 hlt))
    refine ⟨some c, ?_, iff_of_true ⟨x, hx, hkey.le, fun z _ hz => hz.trans_eq hkey.symm, hlow⟩
      fun z hz _ => ?_⟩
    · rw [if_pos rfl, pEntry_of_lt (of_decide_eq_true hlt)]
      rfl
    · exact ⟨x, List.mem_of_getElem? hx, hz.trans_eq hkey.symm, hkey.le⟩
  | false =>
    -- no entry has the key
    have hnone (y : α) (hy : y ∈ t.m_arrayKeyEntry.content) (hley : key y ≤ k) :
      Below key k false y := by
      by_contra hbelow
      have hlt : c < t.m_arrayKeyEntry.content.length :=
        Nat.lt_of_not_le fun hge => hbelow (hc.below_of_length hge hy)
      obtain ⟨x, hx, -, hleast, -⟩ := hc.first hsorted hlt
      refine Bool.noConfusion
        (hb.2 ⟨decide_eq_true (hlt.trans_eq CArray.length_content), x, hx, decide_eq_true ?_⟩)
      exact (hmatch x).2 ((hleast y hy hbelow).trans hley)
    refine ⟨t.pEntry (decrement c), rfl, ?_⟩
    rcases eq_or_ne c 0 with rfl | hzero
    · rw [pEntry_decrement_zero ht]
      refine iff_of_true (fun y hy hley => hc.not_below_of_zero hy (hnone y hy hley))
        fun z hz hcount => ?_
      obtain ⟨i, -, y, -, -, hi, -, rfl, -⟩ := two_le_count_iff.1 hcount
      exact absurd (below_false.2 hz) (hc.not_below_of_zero (List.mem_of_getElem? hi))
    · rw [pEntry_decrement ht hzero hle]
      obtain ⟨x, hx, hbelow, hgreatest, hhigh⟩ := hc.last hsorted hzero
      have hmem := List.mem_of_getElem? hx
      constructor
      · rintro ⟨x', hx', -, -, hlow⟩ z hz hcount
        obtain rfl := Option.some.inj (hx.symm.trans hx')
        obtain ⟨i, j, y, y', hij, hi, hj, rfl, hkey⟩ := two_le_count_iff.1 hcount
        by_contra hnear
        -- the entry would have the key, and both entries with it would be at its index
        have hge : key y ≤ key x := hgreatest y (List.mem_of_getElem? hi) (below_false.2 hz)
        have heq : key y = key x :=
          hge.antisymm (not_lt.1 fun hlt => hnear ⟨x, hmem, hlt, (below_false.1 hbelow).le⟩)
        have hlast := hhigh j y' hj (hkey.trans heq)
        have hfirst := hlow i y hi heq
        omega
      · intro hsingle
        refine ⟨x, hx, (below_false.1 hbelow).le, fun y hy hley => hgreatest y hy (hnone y hy hley),
          fun j y hj hkey => ?_⟩
        by_contra hless
        obtain ⟨z, hz, hlt, hlek⟩ := hsingle (key x) (below_false.1 hbelow)
          (two_le_count_iff.2 ⟨j, c - 1, y, x, Nat.lt_of_not_le hless, hj, hx, hkey, rfl⟩)
        exact absurd (hgreatest z hz (hnone z hz hlek)) hlt.not_ge

/-- The entry before the end of the entries with the key, which the seeks for the high end look
at. -/
theorem fCompares_decrement {c : Nat}
    (hc : Boundary (Below key k true) t.m_arrayKeyEntry.content c) :
    ∃ b, fCompares e t (0 < c) (decrement c) (fun cmp => cmp == 0) k = some b ∧
      (b = true → c ≠ 0 ∧ ∃ x, t.m_arrayKeyEntry.content[c - 1]? = some x ∧ key x = k) ∧
      (b = false → ∀ y ∈ t.m_arrayKeyEntry.content, key y ≠ k) := by
  have hle : c ≤ t.size := hc.le.trans_eq CArray.length_content
  have hmax : t.size ≤ SIZE_MAX := ht.size_le.trans ht.capacity_le
  have hindex (hpos : 0 < c) : decrement c = c - 1 := decrement_eq hpos (hle.trans hmax)
  obtain ⟨b, hcompares, hb⟩ := fCompares_spec (e := e) (k := k) ht (i := decrement c)
    (fun cmp => cmp == 0) (by
    intro hlook
    rw [hindex (of_decide_eq_true hlook)]
    have hpos := of_decide_eq_true hlook
    omega)
  refine ⟨b, hcompares, ?_, ?_⟩
  · rintro rfl
    obtain ⟨hlook, x, hx, hcmp⟩ := hb.1 rfl
    have hpos : 0 < c := of_decide_eq_true hlook
    rw [hindex hpos] at hx
    exact ⟨hpos.ne', x, hx, he.cmpKey_eq.1 (beq_iff_eq.1 hcmp)⟩
  · rintro rfl y hy hkey
    have hzero : c ≠ 0 := by
      rintro rfl
      exact hc.not_below_of_zero hy (below_true.2 hkey.le)
    obtain ⟨x, hx, hbelow, hgreatest, -⟩ := hc.last hsorted hzero
    have hge : k ≤ key x := hkey.ge.trans (hgreatest y hy (below_true.2 hkey.le))
    refine Bool.noConfusion (hb.2 ⟨decide_eq_true (Nat.pos_of_ne_zero hzero), x, ?_, ?_⟩)
    · rwa [hindex (Nat.pos_of_ne_zero hzero)]
    · exact beq_iff_eq.2 (he.cmpKey_eq.2 ((below_true.1 hbelow).antisymm hge))

/-- `SeekHI` finds what it documents. -/
theorem seekHI_spec :
    ∃ r, seekHI e t k = some r ∧ Documented key t.m_arrayKeyEntry.content k .HI r := by
  obtain ⟨c, hsearch, hc⟩ := search_spec he ht hsorted k true
  obtain ⟨b, hcompares, hfound, hnone⟩ := fCompares_decrement he ht hsorted k hc
  simp only [seekHI, hsearch, Option.bind_eq_bind, Option.bind_some, hcompares]
  cases b with
  | true =>
    obtain ⟨hzero, x, hx, hkey⟩ := hfound rfl
    obtain ⟨y, hy, -, -, hhigh⟩ := hc.last hsorted hzero
    obtain rfl := Option.some.inj (hx.symm.trans hy)
    refine ⟨some (c - 1), ?_, x, hx, hkey, fun z _ hz => hkey.trans hz.symm, hhigh⟩
    rw [if_pos rfl, pEntry_decrement ht hzero (hc.le.trans_eq CArray.length_content)]
    rfl
  | false => exact ⟨none, rfl, hnone rfl⟩

/-- `SeekGE` finds what it documents unless it lands on several entries of a larger key. -/
theorem seekGE_spec :
    ∃ r, seekGE e t k = some r ∧ (Documented key t.m_arrayKeyEntry.content k .GE r ↔
    ∀ z, k < z → 2 ≤ (t.m_arrayKeyEntry.content.map key).count z →
      ∃ y ∈ t.m_arrayKeyEntry.content, k ≤ key y ∧ key y < z) := by
  obtain ⟨c, hsearch, hc⟩ := search_spec he ht hsorted k true
  obtain ⟨b, hcompares, hfound, hnone⟩ := fCompares_decrement he ht hsorted k hc
  simp only [seekGE, hsearch, Option.bind_eq_bind, Option.bind_some, hcompares]
  cases b with
  | true =>
    obtain ⟨hzero, x, hx, hkey⟩ := hfound rfl
    obtain ⟨y, hy, -, -, hhigh⟩ := hc.last hsorted hzero
    obtain rfl := Option.some.inj (hx.symm.trans hy)
    refine ⟨some (c - 1), ?_, iff_of_true ⟨x, hx, hkey.ge, fun z _ hz => hkey.trans_le hz, hhigh⟩
      fun z hz _ => ?_⟩
    · rw [if_pos rfl, pEntry_decrement ht hzero (hc.le.trans_eq CArray.length_content)]
      rfl
    · exact ⟨x, List.mem_of_getElem? hx, hkey.ge, hkey.trans_lt hz⟩
  | false =>
    -- no entry has the key
    have habove (y : α) (hy : y ∈ t.m_arrayKeyEntry.content) (hge : k ≤ key y) :
      ¬ Below key k true y := fun hbelow =>
      hnone rfl y hy ((below_true.1 hbelow).antisymm hge)
    refine ⟨t.pEntry c, rfl, ?_⟩
    rcases Nat.lt_or_ge c t.size with hlt | hge
    · rw [pEntry_of_lt hlt]
      obtain ⟨x, hx, hxk, hleast, hlow⟩ :=
        hc.first hsorted (hlt.trans_eq CArray.length_content.symm)
      have hmem := List.mem_of_getElem? hx
      have hkx : k < key x := not_le.1 fun hle => hxk (below_true.2 hle)
      constructor
      · rintro ⟨x', hx', -, -, hhigh⟩ z hz hcount
        obtain rfl := Option.some.inj (hx.symm.trans hx')
        obtain ⟨i, j, y, y', hij, hi, hj, rfl, hkey⟩ := two_le_count_iff.1 hcount
        by_contra hnear
        -- the entry would have the key, and both entries with it would be at its index
        have hle : key x ≤ key y :=
          hleast y (List.mem_of_getElem? hi) (habove y (List.mem_of_getElem? hi) hz.le)
        have heq : key y = key x :=
          (hle.antisymm (not_lt.1 fun hlt => hnear ⟨x, hmem, hkx.le, hlt⟩)).symm
        have hlast := hhigh j y' hj (hkey.trans heq)
        have hfirst := hlow i y hi heq
        omega
      · intro hsingle
        refine ⟨x, hx, hkx.le, fun y hy hge => hleast y hy (habove y hy hge), fun j y hj hkey => ?_⟩
        by_contra hmore
        obtain ⟨z, hz, hkz, hlt⟩ := hsingle (key x) hkx
          (two_le_count_iff.2 ⟨c, j, x, y, Nat.lt_of_not_le hmore, hx, hj, rfl, hkey⟩)
        exact absurd (hleast z hz (habove z hz hkz)) hlt.not_ge
    · rw [pEntry_of_le hge]
      have hall (y : α) (hy : y ∈ t.m_arrayKeyEntry.content) : Below key k true y :=
        hc.below_of_length (CArray.length_content.trans_le hge) hy
      refine iff_of_true (fun y hy hge => habove y hy hge (hall y hy)) fun z hz hcount => ?_
      obtain ⟨i, -, y, -, -, hi, -, rfl, -⟩ := two_le_count_iff.1 hcount
      exact absurd (below_true.1 (hall y (List.mem_of_getElem? hi))) hz.not_ge

/-- All seeks return, and do what is documented for the keys whose nearest ones are single. -/
theorem seek_documented_iff :
    (∀ s, ∃ r, seek e t k s = some r ∧ Documented key t.m_arrayKeyEntry.content k s r) ↔
    NearestSingle key t.m_arrayKeyEntry.content k := by
  obtain ⟨rLE, hLE, hLE'⟩ := seekLE_spec he ht hsorted k
  obtain ⟨rGE, hGE, hGE'⟩ := seekGE_spec he ht hsorted k
  constructor
  · intro hall
    obtain ⟨r, hr, hdocumented⟩ := hall .LE
    obtain ⟨r', hr', hdocumented'⟩ := hall .GE
    obtain rfl := Option.some.inj (hLE.symm.trans hr)
    obtain rfl := Option.some.inj (hGE.symm.trans hr')
    exact ⟨hLE'.1 hdocumented, hGE'.1 hdocumented'⟩
  · intro hsingle s
    cases s with
    | LT => exact seekLT_spec he ht hsorted k
    | LE => exact ⟨rLE, hLE, hLE'.2 hsingle.1⟩
    | EQ => exact seekEQ_spec he ht hsorted k
    | HI => exact seekHI_spec he ht hsorted k
    | GE => exact ⟨rGE, hGE, hGE'.2 hsingle.2⟩
    | GT => exact seekGT_spec he ht hsorted k

end

/-! ## Loading -/

/-- Every entry that is set in the loop is within the size. -/
theorem loadLoop_spec {a : CArray α} (ha : a.Consistent) (rgentry : List α) {ientry : Nat}
    (hbound : ientry + rgentry.length ≤ a.m_centry) : ∃ a', loadLoop ientry rgentry a = some a' ∧
      a'.Consistent ∧
      a'.content = a.content.take ientry ++ rgentry ++ a.content.drop
        (ientry + rgentry.length) := by
  induction rgentry generalizing a ientry with
  | nil =>
    refine ⟨a, rfl, ha, ?_⟩
    rw [List.append_nil, List.length_nil, Nat.add_zero, List.take_append_drop]
  | cons entry rgentry ih =>
    rw [List.length_cons] at hbound
    obtain ⟨a₁, hset, h₁, -, hcontent₁⟩ :=
      ha.errSetEntry_of_lt entry (show ientry < a.m_centry by omega) none
    have hsize : a₁.m_centry = a.m_centry := by
      rw [← CArray.length_content, hcontent₁, List.length_set, CArray.length_content]
    obtain ⟨a', hloop, h', hcontent⟩ :=
      ih h₁ (show ientry + 1 + rgentry.length ≤ a₁.m_centry by omega)
    refine ⟨a', ?_, h', ?_⟩
    · rw [loadLoop, hset]
      exact hloop
    · have hlt : ientry < a.content.length := by
        rw [CArray.length_content]
        omega
      rw [hcontent, hcontent₁, List.drop_set_of_lt (by omega), List.take_succ_eq_append_getElem
        (by rwa [List.length_set]),
        List.getElem_set_self, List.take_set_of_le le_rfl, List.length_cons, List.append_assoc
        (List.take _ _),
        List.singleton_append, show ientry + 1 + rgentry.length = ientry + (rgentry.length + 1) by
          omega]

/-- The entries of an array are those of an allocation of its capacity. -/
theorem exists_put {a : CArray α} (ha : a.Consistent) (hsize : a.m_centry ≠ 0) :
    ∃ f, a = put a f := by
  have hentries : some (⟨a.m_centryMax, a.rgentry.rgentry⟩ : CArray.Entries α) = a.m_rgentry := by
    rw [ha.m_rgentry_eq hsize, ← ha.capacity]
  exact ⟨a.rgentry.rgentry, by rw [put, hentries]⟩

/-- New entries leave the array consistent. -/
theorem put_consistent {a : CArray α} (ha : a.Consistent) (f : Nat → α) : (put a f).Consistent :=
  ⟨ha.size_le, rfl, ha.capacity_le, ha.growth_pos, ha.growth_le⟩

/-- What a sort of the array leaves. -/
theorem exists_of_sorts {a : CArray α} {f f' : Nat → α} (ha : a.Consistent)
    (h : Sorts (keyLe key) [(0, a.m_centry)] f f') :
    (put a f').Consistent ∧ (put a f').content.Perm (put a f).content ∧
      Sorted key (put a f').content := by
  refine ⟨put_consistent ha f', h.1.perm, List.pairwise_iff_getElem.2 fun i j hi hj hij => ?_⟩
  have hget (m : Nat) (hm : m < (put a f').content.length) : (put a f').content[m] = f' m :=
    CArray.Entries.getElem_toList hm
  rw [hget i hi, hget j hj]
  exact h.2 _ List.mem_cons_self i j (Nat.zero_le i) hij (hj.trans_eq CArray.length_content)

/-- Whichever search the table is configured with, its entries are sorted for it. -/
theorem configureSearch_spec (he : e.Compares key) (ht : t.m_arrayKeyEntry.Consistent) :
    ∃ t', configureSearch e t false = some t' ∧ t'.m_arrayKeyEntry.Consistent ∧
      t'.m_arrayKeyEntry.content.Perm t.m_arrayKeyEntry.content ∧
        Sorted key t'.m_arrayKeyEntry.content := by
  rcases eq_or_ne t.size 0 with hzero | hsize
  · have hcontent : t.m_arrayKeyEntry.content = [] :=
      List.eq_nil_of_length_eq_zero (CArray.length_content.trans hzero)
    refine ⟨⟨t.m_arrayKeyEntry, .linearSearch⟩, ?_, ht, .refl _, ?_⟩
    · rw [configureSearch, hzero]
      rfl
    · rw [hcontent]
      exact .nil
  · obtain ⟨f, hf⟩ := exists_put ht hsize
    obtain ⟨f₁, hquick, hsorts₁⟩ := quickSort_spec he ht (Nat.pos_of_ne_zero hsize) le_rfl f
    obtain ⟨f₂, hinsertion, hsorts₂⟩ := insertionSort_spec 0 he ht le_rfl f
    rw [← hf] at hquick hinsertion
    obtain ⟨h₁, hperm₁, hsorted₁⟩ := exists_of_sorts ht hsorts₁
    obtain ⟨h₂, hperm₂, hsorted₂⟩ := exists_of_sorts ht hsorts₂
    rw [← hf] at hperm₁ hperm₂
    have hquick' : quickSort e 0 t.size t.m_arrayKeyEntry = some (put t.m_arrayKeyEntry f₁) :=
      hquick
    have hinsertion' : insertionSort e 0 t.size t.m_arrayKeyEntry =
      some (put t.m_arrayKeyEntry f₂) := hinsertion
    rw [configureSearch]
    by_cases hmany : 2 * log2n t.size t.size < t.size
    · refine ⟨⟨put t.m_arrayKeyEntry f₁, .binarySearch⟩, ?_, h₁, hperm₁, hsorted₁⟩
      rw [if_pos hmany, if_neg Bool.false_ne_true, hquick']
      rfl
    · refine ⟨⟨put t.m_arrayKeyEntry f₂, .linearSearch⟩, ?_, h₂, hperm₂, hsorted₂⟩
      rw [if_neg hmany, if_neg Bool.false_ne_true, hinsertion']
      rfl

/-- A load adds its entries to the table, which is sorted then, or finds no memory and leaves the
table as it is. -/
theorem errLoad_spec (he : e.Compares key) (ht : t.m_arrayKeyEntry.Consistent) {rgentry : List α}
    (hsize : t.size + rgentry.length ≤ SIZE_MAX) (alloc : Option (Nat → α)) :
    (∃ t', errLoad e t rgentry alloc = some (t', .errSuccess) ∧ t'.m_arrayKeyEntry.Consistent ∧
      t'.m_arrayKeyEntry.content.Perm (t.m_arrayKeyEntry.content ++ rgentry) ∧
      Sorted key t'.m_arrayKeyEntry.content) ∨
    (errLoad e t rgentry alloc = some (t, .errOutOfMemory) ∧ alloc = none) := by
  obtain ⟨⟨a, err⟩, hset, houtcome⟩ := ht.errSetSize_spec (t.size + rgentry.length) hsize alloc
  have hset' : t.m_arrayKeyEntry.errSetSize (sizeT (t.size + rgentry.length)) alloc =
    some (a, err) := by
    rw [sizeT_eq hsize, hset]
  cases houtcome with
  | outOfMemory hnone =>
    refine .inr ⟨?_, hnone⟩
    rw [errLoad]
    simp only [hset', Option.bind_eq_bind, Option.bind_some]
    rfl
  | success ha hsettings hcontent =>
    obtain ⟨l', -, hlength, hcontent⟩ := hcontent
    have hold : t.m_arrayKeyEntry.content.length = t.size := CArray.length_content
    have hlength' : l'.length = rgentry.length := hlength.trans (Nat.add_sub_cancel_left _ _)
    rw [List.take_of_length_le (hold.trans_le (Nat.le_add_right _ _))] at hcontent
    have hbound : a.m_centry = t.size + rgentry.length := by
      rw [← CArray.length_content, hcontent, List.length_append, hold, hlength']
    obtain ⟨a', hloop, ha', hloaded⟩ := loadLoop_spec ha rgentry hbound.ge
    obtain ⟨t', hconfigure, ht', hperm, hsorted⟩ :=
      configureSearch_spec (t := { t with m_arrayKeyEntry := a' }) he ha'
    refine .inl ⟨t', ?_, ht', hperm.trans (.of_eq ?_), hsorted⟩
    · rw [errLoad]
      simp only [hset', hloop, hconfigure, Option.bind_eq_bind, Option.bind_some]
      rfl
    · show a'.content = _
      rw [hloaded, hcontent, List.take_left' hold, List.drop_of_length_le, List.append_nil]
      rw [List.length_append, hold, hlength']

/-! ## Runs -/

/-- A load of entries that fit in the table, what the heap has to give to it, and what it
returns. -/
def Load (e : KeyEntry α κ) (load : List α × Option (Nat → α) × ERR) (t t' : CTable α) : Prop :=
  t.size + load.1.length ≤ SIZE_MAX ∧ errLoad e t load.1 load.2.1 = some (t', load.2.2)

/-- Everything that was loaded. -/
def loaded (loads : List (List α × Option (Nat → α) × ERR)) : List α :=
  loads.flatMap fun load => if load.2.2 = .errSuccess then load.1 else []

/-- The entries of two runs of loads. -/
theorem loaded_append (loads loads' : List (List α × Option (Nat → α) × ERR)) :
    loaded (loads ++ loads') = loaded loads ++ loaded loads' := List.flatMap_append

/-- The entries of one load, if it succeeds. -/
theorem loaded_singleton (load : List α × Option (Nat → α) × ERR) :
    loaded [load] = if load.2.2 = .errSuccess then load.1 else [] := List.flatMap_singleton _ _

/-- After any loads the table holds everything that was loaded, sorted. -/
theorem run_spec (he : e.Compares key) {entry : α} {loads : List (List α × Option (Nat → α) × ERR)}
    (hrun : Run (Load e) (init entry) loads t) : t.m_arrayKeyEntry.Consistent ∧
      t.m_arrayKeyEntry.content.Perm (loaded loads) ∧ Sorted key t.m_arrayKeyEntry.content := by
  induction hrun with
  | refl => exact ⟨CArray.init_consistent (by decide) entry, .refl _, .nil⟩
  | snoc _ hload ih =>
    obtain ⟨hsize, hload⟩ := hload
    obtain ⟨ht, hperm, hsorted⟩ := ih
    rw [loaded_append]
    rcases errLoad_spec he ht hsize _ with ⟨t', hload', ht', hperm', hsorted'⟩ | ⟨hload', -⟩
    · obtain ⟨rfl, herr⟩ := Prod.mk.inj (Option.some.inj (hload'.symm.trans hload))
      refine ⟨ht', hperm'.trans ?_, hsorted'⟩
      rw [loaded_singleton, ← herr, if_pos rfl]
      exact hperm.append_right _
    · obtain ⟨rfl, herr⟩ := Prod.mk.inj (Option.some.inj (hload'.symm.trans hload))
      refine ⟨ht, ?_, hsorted⟩
      rw [loaded_singleton, ← herr, if_neg ERR.noConfusion, List.append_nil]
      exact hperm

/-- The order of the entries does not matter. -/
theorem NearestSingle.perm {l l' : List α} (hperm : l.Perm l') :
    NearestSingle key l k ↔ NearestSingle key l' k := by
  have hcount (z : κ) : (l.map key).count z = (l'.map key).count z := (hperm.map key).count_eq z
  simp only [NearestSingle, hcount, hperm.mem_iff]

/-- The seeks do not depend on the search that the table is configured with. -/
theorem seek_pfnSearch (he : e.Compares key) (ht : t.m_arrayKeyEntry.Consistent)
    (hsorted : Sorted key t.m_arrayKeyEntry.content) (k : κ) (s : Seek) (pfn : PfnSearch) :
    seek e { t with m_pfnSearch := pfn } k s = seek e t k s := by
  have hsearch (fHigh : Bool) :
    search e { t with m_pfnSearch := pfn } k fHigh = search e t k fHigh := by
    obtain ⟨c, hc, hboundary⟩ := search_spec he ht hsorted k fHigh
    obtain ⟨c', hc', hboundary'⟩ :=
      search_spec (t := { t with m_pfnSearch := pfn }) he ht hsorted k fHigh
    rw [hc, hc', hboundary'.unique hboundary]
  cases s with
  | LT => rw [seek, seekLT, hsearch, seek, seekLT]; rfl
  | LE => rw [seek, seekLE, hsearch, seek, seekLE]; rfl
  | EQ => rw [seek, seekEQ, hsearch, seek, seekEQ]; rfl
  | HI => rw [seek, seekHI, hsearch, seek, seekHI]; rfl
  | GE => rw [seek, seekGE, hsearch, seek, seekGE]; rfl
  | GT => rw [seek, seekGT, hsearch, seek, seekGT]; rfl

/-- After any loads the next one returns, and adds its entries if there is memory for them. The
table holds everything that was loaded, sorted, either search gives the same seeks, and all of them
do what is documented, exactly for the keys whose nearest ones are single. -/
theorem seeks_iff (he : e.Compares key) {entry : α}
    {loads : List (List α × Option (Nat → α) × ERR)} (hrun : Run (Load e) (init entry) loads t) :
    (∀ rgentry alloc, t.size + rgentry.length ≤ SIZE_MAX → ∃ t' err,
      Load e (rgentry, alloc, err) t t' ∧ (alloc.isSome = true → err = .errSuccess)) ∧
    ∀ k, (t.m_arrayKeyEntry.content.Perm (loaded loads) ∧ Sorted key t.m_arrayKeyEntry.content ∧
        (∀ s pfn, seek e { t with m_pfnSearch := pfn } k s = seek e t k s) ∧
        ∀ s, ∃ r, seek e t k s = some r ∧ Documented key t.m_arrayKeyEntry.content k s r) ↔
      NearestSingle key (loaded loads) k := by
  obtain ⟨ht, hperm, hsorted⟩ := run_spec he hrun
  refine ⟨fun rgentry alloc hsize => ?_, fun k => ?_⟩
  · rcases errLoad_spec he ht hsize alloc with ⟨t', hload, -⟩ | ⟨hload, hnone⟩
    · exact ⟨t', .errSuccess, ⟨hsize, hload⟩, fun _ => rfl⟩
    · refine ⟨t, .errOutOfMemory, ⟨hsize, hload⟩, fun hsome => ?_⟩
      rw [hnone] at hsome
      cases hsome
  · rw [← NearestSingle.perm hperm, ← seek_documented_iff he ht hsorted k]
    exact ⟨fun h => h.2.2.2, fun h =>
      ⟨hperm, hsorted, fun s pfn => seek_pfnSearch he ht hsorted k s pfn, h⟩⟩

end

/-- Entries that are their own keys. -/
def KeyEntry.nat : KeyEntry Nat Nat where
  cmp x y := (x : Int) - y
  cmpKey x k := (x : Int) - k

/-- Numbers are compared by their order. -/
theorem KeyEntry.nat_compares : KeyEntry.nat.Compares id := by
  refine ⟨fun x y => ?_, fun x y => ?_, fun x k => ?_, fun x k => ?_⟩
  · show (x : Int) - y < 0 ↔ x < y
    omega
  · show 0 < (x : Int) - y ↔ y < x
    omega
  · show (x : Int) - k < 0 ↔ x < k
    omega
  · show 0 < (x : Int) - k ↔ k < x
    omega

/-- Two entries, another one for which there is no memory, and a third one. -/
def natLoads : List (List Nat × Option (Nat → Nat) × ERR) :=
  [([2, 1], some fun _ => 0, .errSuccess), ([7], none, .errOutOfMemory),
    ([2], some fun _ => 0, .errSuccess)]

theorem natLoads_run : ∃ t, Run (Load KeyEntry.nat) (init 0) natLoads t ∧
    t.m_arrayKeyEntry.content = [1, 2, 2] :=
  ⟨_, .snoc (.snoc (.snoc (.refl _) ⟨by decide, rfl⟩) ⟨by decide, rfl⟩) ⟨by decide, rfl⟩, rfl⟩

/-- The key of two of the entries is sought, and twenty more entries are loaded. -/
theorem seeks_iff_nat : ∃ t, Run (Load KeyEntry.nat) (init 0) natLoads t ∧
    (∀ s, ∃ r, seek KeyEntry.nat t 2 s = some r ∧ Documented id [1, 2, 2] 2 s r) ∧
    ∃ t', Load KeyEntry.nat (List.range 20, some fun _ => 0, .errSuccess) t t' := by
  obtain ⟨t, hrun, hcontent⟩ := natLoads_run
  obtain ⟨hloads, hseeks⟩ := seeks_iff KeyEntry.nat_compares hrun
  have hsize : t.size = 3 := by
    have hlength := congrArg List.length hcontent
    rwa [CArray.length_content] at hlength
  have hfits : t.size + (List.range 20).length ≤ SIZE_MAX := by
    rw [hsize]
    decide
  obtain ⟨t', err, hload, herr⟩ := hloads (List.range 20) (some fun _ => 0) hfits
  obtain rfl := herr rfl
  refine ⟨t, hrun, hcontent ▸ ((hseeks 2).2 ⟨?_, ?_⟩).2.2.2, t', hload⟩
  · intro z hz hcount
    exact ⟨2, by decide, hz, le_rfl⟩
  · intro z hz hcount
    exact ⟨2, by decide, le_rfl, hz⟩

/-- Of two entries with the next lower key, the seek that is biased to the low end lands on the high
one. -/
theorem seekLE_high :
    ∃ t, Run (Load KeyEntry.nat) (init 0) [([1, 1], some fun _ => 0, .errSuccess)] t ∧
    seekLE KeyEntry.nat t 2 = some (some 1) ∧ ¬ Documented id t.m_arrayKeyEntry.content 2 .LE
      (some 1) := by
  refine ⟨_, .single ⟨show 2 ≤ SIZE_MAX by decide, rfl⟩, rfl, ?_⟩
  rintro ⟨x, hx, -, -, hlow⟩
  obtain rfl : 1 = x := Option.some.inj hx
  exact absurd (hlow 0 1 rfl rfl) (by decide)

end CTable

end Ese
