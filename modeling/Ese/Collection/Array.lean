import Mathlib.Data.List.Basic
import Mathlib.Data.List.Destutter
import Mathlib.Data.List.Range
import Mathlib.Data.List.Sort
import Ese.Lib.Endian
import Ese.Lib.Run

/-!
# The array

`CArray` keeps `m_centry` entries in an allocation of `m_centryMax`. Growing and shrinking moves the
entries to another allocation; the new entries of a larger size are the default entry where one is
set, and whatever the allocation holds where none is. An access through a null pointer or past the
end of the allocation is `none`. Sizes are those of `size_t`.
-/

namespace Ese

/-- `SIZE_MAX`. -/
def SIZE_MAX : Nat := 18446744073709551615

/-- The value of a `size_t` expression. -/
def sizeT (x : Nat) : Nat := x % 18446744073709551616

/-- The error codes of `CArray`. -/
inductive CArray.ERR
  | errSuccess | errOutOfMemory | errInvalidData
  deriving DecidableEq, Repr

/-- An allocation of `centry` entries. -/
structure CArray.Entries (α : Type) where
  centry : Nat
  rgentry : Nat → α

namespace CArray.Entries

variable {α : Type} (rg : Entries α)

/-- A read of an entry, undefined outside the array. -/
def read (ientry : Nat) : Option α := if ientry < rg.centry then some (rg.rgentry ientry) else none

/-- A write of an entry, undefined outside the array. -/
def write (ientry : Nat) (entry : α) : Option (Entries α) :=
  if ientry < rg.centry then some { rg with rgentry := Function.update rg.rgentry ientry entry }
  else none

/-- The loop that copies the first entries of another allocation. -/
def copy (rgentry : Entries α) : Nat → Entries α → Option (Entries α)
  | 0, rgentryNew => some rgentryNew
  | n + 1, rgentryNew => do
    let rgentryNew ← copy rgentry n rgentryNew
    rgentryNew.write n (← rgentry.read n)

/-- The loop that sets `n` entries from `ientry` on. -/
def fill (entry : α) (ientry : Nat) : Nat → Entries α → Option (Entries α)
  | 0, rgentry => some rgentry
  | n + 1, rgentry => do
    let rgentry ← fill entry ientry n rgentry
    rgentry.write (ientry + n) entry

/-- The copy of entries from outside. -/
def load (ientry : Nat) : List α → Entries α → Option (Entries α)
  | [], rgentry => some rgentry
  | entry :: rgdata, rgentry => do load (ientry + 1) rgdata (← rgentry.write ientry entry)

/-- The first `n` entries. -/
def toList (rg : Entries α) (n : Nat) : List α := (List.range n).map rg.rgentry

end CArray.Entries

/-- What an array needs of its entries: their size in bytes, what they are in bytes, and the sort of
the runtime. -/
structure CArray.Entry (α : Type) where
  cb : Nat
  ofBytes : List Byte → α
  qsort : (α → α → Int) → List α → List α

/-- The members of the array; `m_rgentry` is `none` for the null pointer. -/
structure CArray (α : Type) where
  m_centry : Nat
  m_centryMax : Nat
  m_rgentry : Option (CArray.Entries α)
  m_entryDefault : α
  m_fEntryDefault : Bool
  m_centryGrowth : Nat

namespace CArray

variable {α : Type} (a : CArray α)

/-- The allocation; a null pointer is one without entries. -/
def rgentry : Entries α := a.m_rgentry.getD ⟨0, fun _ => a.m_entryDefault⟩

/-- What `new CEntry[ centry ]` returns; `alloc` is what the heap has to give. -/
def newEntries (centry : Nat) (alloc : Option (Nat → α)) : Option (Entries α) :=
  alloc.map fun rgentry => ⟨centry, rgentry⟩

/-- `SetCapacityGrowth`. -/
def setCapacityGrowth (centryGrowth : Nat) : CArray α :=
  { a with m_centryGrowth := if centryGrowth = 0 then 1 else centryGrowth }

/-- `CArray::CArray`; `entry` is what the constructor of the entries makes. -/
def init (centryGrowth : Nat) (entry : α) : CArray α :=
  setCapacityGrowth ⟨0, 0, none, entry, false, 0⟩ centryGrowth

/-- `SetEntryDefault`. -/
def setEntryDefault (entry : α) : CArray α :=
  { a with m_entryDefault := entry, m_fEntryDefault := true }

/-- `ErrSetCapacity`. -/
def errSetCapacity (centryMax : Nat) (alloc : Option (Nat → α)) : Option (CArray α × ERR) :=
  if a.m_centryMax ≠ centryMax then
    if centryMax ≠ 0 then
      match newEntries centryMax alloc with
      | none => some (a, .errOutOfMemory)
      | some rgentryNew => do
        let m_centry := if a.m_centry > centryMax then centryMax else a.m_centry
        let rgentryNew ← a.rgentry.copy m_centry rgentryNew
        return ({ a with m_centry, m_centryMax := centryMax, m_rgentry := some rgentryNew },
          .errSuccess)
    else some ({ a with m_centry := 0, m_centryMax := 0, m_rgentry := none }, .errSuccess)
  else some (a, .errSuccess)

/-- The capacity for `centry` entries: the next bucket of growth. -/
def centryGrown (centry : Nat) : Nat :=
  let centryT := a.m_centryMax + (centry - a.m_centryMax - 1) / a.m_centryGrowth * a.m_centryGrowth
  if centryT ≤ SIZE_MAX - a.m_centryGrowth then centryT + a.m_centryGrowth else centry

/-- The size is set once the capacity is there. -/
def setSize (centry : Nat) : Option (CArray α × ERR) := do
  if a.m_fEntryDefault ∧ a.m_centry < centry then
    let rgentry ← Entries.fill a.m_entryDefault a.m_centry (centry - a.m_centry) a.rgentry
    return ({ a with m_centry := centry, m_rgentry := some rgentry }, .errSuccess)
  else return ({ a with m_centry := centry }, .errSuccess)

/-- `ErrSetSize`, which grows the capacity where it has to. -/
def errSetSize (centry : Nat) (alloc : Option (Nat → α)) : Option (CArray α × ERR) :=
  if a.m_centryMax < centry then do
    match ← a.errSetCapacity (a.centryGrown centry) alloc with
    | (a, .errSuccess) => a.setSize centry
    | failed => return failed
  else a.setSize centry

/-- `PEntry`: the index of an entry; `none` for the null pointer. -/
def pEntry (ientry : Nat) : Option Nat := if ientry < a.m_centry then some ientry else none

/-- `Entry`, undefined at the null pointer. -/
def entry (ientry : Nat) : Option α := do a.rgentry.read (← a.pEntry ientry)

/-- `SetEntry`, undefined at the null pointer. -/
def setEntry (pentry : Option Nat) (entry : α) : Option (CArray α) := do
  let rgentry ← a.rgentry.write (← pentry) entry
  return { a with m_rgentry := some rgentry }

/-- `ErrSetEntry`, which grows the array where it has to. -/
def errSetEntry (ientry : Nat) (entry : α) (alloc : Option (Nat → α)) :
    Option (CArray α × ERR) := do
  let centryReq := sizeT (ientry + 1)
  if a.m_centry < centryReq then
    match ← a.errSetSize centryReq alloc with
    | (a, .errSuccess) => return (← a.setEntry (a.pEntry ientry) entry, .errSuccess)
    | failed => return failed
  else return (← a.setEntry (a.pEntry ientry) entry, .errSuccess)

/-- `ErrClone`. -/
def errClone (array : CArray α) (alloc : Option (Nat → α)) : Option (CArray α × ERR) :=
  if array.m_centryMax ≠ 0 then
    match newEntries array.m_centryMax alloc with
    | none => some (a, .errOutOfMemory)
    | some rgentryNew => do
      let rgentryNew ← array.rgentry.copy array.m_centry rgentryNew
      return ({ array with m_rgentry := some rgentryNew }, .errSuccess)
  else do
    -- nothing to copy to the null pointer
    let _ ← array.rgentry.copy array.m_centry ⟨0, fun _ => array.m_entryDefault⟩
    return ({ array with m_rgentry := none }, .errSuccess)

variable (e : Entry α)

/-- The entries that the bytes are. -/
def Entry.ofData (rgbData : List Byte) : Nat → List α
  | 0 => []
  | n + 1 => e.ofBytes (rgbData.take e.cb) :: Entry.ofData (rgbData.drop e.cb) n

/-- `ErrLoadEntries`. -/
def errLoadEntries (rgbData : List Byte) (alloc : Option (Nat → α)) : Option (CArray α × ERR) :=
  if rgbData.length % e.cb ≠ 0 then some (a, .errInvalidData)
  else do
    let centries := rgbData.length / e.cb
    match ← a.errSetCapacity (sizeT (centries + a.m_centry)) alloc with
    | (a, .errSuccess) =>
      let rgentry ← Entries.load a.m_centry (e.ofData rgbData centries) a.rgentry
      return ({ a with m_rgentry := a.m_rgentry.map fun _ => rgentry }, .errSuccess)
    | failed => return failed

/-- `Sort`. -/
def sort (pfnCompare : α → α → Int) : Option (CArray α) :=
  match a.m_rgentry with
  | none => some a
  | some rgentry => do
    let rgentry ← Entries.load 0 (e.qsort pfnCompare (rgentry.toList a.m_centry)) rgentry
    return { a with m_rgentry := some rgentry }

/-- The loop over `n` more entries, from `pEntry` on, that keeps the ones that differ from the last
one kept. -/
def unique (pfnCompare : α → α → Int) : Nat → Nat → Nat → Entries α → Option (Entries α × Nat)
  | 0, _, pEntryUnique, rgentry => some (rgentry, pEntryUnique)
  | n + 1, pEntry, pEntryUnique, rgentry => do
    let entryUnique ← rgentry.read pEntryUnique
    let entry ← rgentry.read pEntry
    if pfnCompare entryUnique entry ≠ 0 then
      unique pfnCompare n (pEntry + 1) (pEntryUnique + 1) (← rgentry.write (pEntryUnique + 1) entry)
    else unique pfnCompare n (pEntry + 1) pEntryUnique rgentry

/-- `SortAndRemoveDuplicates`, which ignores a failure to shrink. -/
def sortAndRemoveDuplicates (pfnCompare : α → α → Int) (alloc : Option (Nat → α)) :
    Option (CArray α) := do
  let a ← a.sort e pfnCompare
  let cInitialSize := a.m_centry
  let (rgentry, pEntryUnique) ← unique pfnCompare cInitialSize 0 0 a.rgentry
  let cFinalSize := pEntryUnique + 1
  let (a, _) ← errSetSize { a with m_rgentry := a.m_rgentry.map fun _ => rgentry }
    (min cInitialSize cFinalSize) alloc
  return a

/-! ## Runs -/

/-- A call, with what the heap has to give to it. -/
inductive Call (α : Type)
  | setSize (centry : Nat) (alloc : Option (Nat → α))
  | setCapacity (centryMax : Nat) (alloc : Option (Nat → α))
  | setEntry (ientry : Nat) (entry : α) (alloc : Option (Nat → α))
  | clone (array : CArray α) (alloc : Option (Nat → α))
  | loadEntries (rgbData : List Byte) (alloc : Option (Nat → α))
  | sortAndRemoveDuplicates (pfnCompare : α → α → Int) (alloc : Option (Nat → α))
  | setCapacityGrowth (centryGrowth : Nat)
  | setEntryDefault (entry : α)

/-- What the heap has to give to a call that may allocate. -/
def Call.alloc : Call α → Option (Option (Nat → α))
  | .setSize _ alloc | .setCapacity _ alloc | .setEntry _ _ alloc | .clone _ alloc
  | .loadEntries _ alloc => some alloc
  | _ => none

/-- A call on the array. -/
def apply : Call α → Option (CArray α × ERR)
  | .setSize centry alloc => a.errSetSize centry alloc
  | .setCapacity centryMax alloc => a.errSetCapacity centryMax alloc
  | .setEntry ientry entry alloc => a.errSetEntry ientry entry alloc
  | .clone array alloc => a.errClone array alloc
  | .loadEntries rgbData alloc => a.errLoadEntries e rgbData alloc
  | .sortAndRemoveDuplicates pfnCompare alloc => do
    let a ← a.sortAndRemoveDuplicates e pfnCompare alloc
    return (a, .errSuccess)
  | .setCapacityGrowth centryGrowth => some (a.setCapacityGrowth centryGrowth, .errSuccess)
  | .setEntryDefault entry => some (a.setEntryDefault entry, .errSuccess)

/-- The entries of an array. -/
def content : List α := a.rgentry.toList a.m_centry

/-- The default entry, if one is set. -/
def default : Option α := if a.m_fEntryDefault then some a.m_entryDefault else none

/-- The size is within the capacity, and the capacity is the one of the allocation. -/
structure Consistent : Prop where
  size_le : a.m_centry ≤ a.m_centryMax
  capacity : a.rgentry.centry = a.m_centryMax
  capacity_le : a.m_centryMax ≤ SIZE_MAX
  growth_pos : 0 < a.m_centryGrowth
  growth_le : a.m_centryGrowth ≤ SIZE_MAX

/-- A function that compares entries by an order of theirs. -/
structure IsCompare (pfnCompare : α → α → Int) : Prop where
  swap : ∀ x y, pfnCompare x y < 0 ↔ 0 < pfnCompare y x
  trans : ∀ x y z, pfnCompare x y ≤ 0 → pfnCompare y z ≤ 0 → pfnCompare x z ≤ 0

/-- What the documentation of the runtime says of its sort. -/
structure Entry.Lawful (e : Entry α) : Prop where
  cb_pos : 0 < e.cb
  perm : ∀ pfnCompare, IsCompare pfnCompare → ∀ l, (e.qsort pfnCompare l).Perm l
  sorted : ∀ pfnCompare, IsCompare pfnCompare → ∀ l, (e.qsort pfnCompare l).Pairwise fun x y =>
    pfnCompare x y ≤ 0

/-- The entries that a larger size adds are the default entry where one is set. -/
def IsExtension (default : Option α) (l : List α) : Prop :=
  ∀ entry ∈ default, l = List.replicate l.length entry

/-- The list sorted, with one entry of those that compare equal. -/
structure IsUnique (pfnCompare : α → α → Int) (l l' : List α) : Prop where
  sorted : l'.Pairwise fun x y => pfnCompare x y < 0
  subset : ∀ x ∈ l', x ∈ l
  exists_eq : ∀ x ∈ l, ∃ y ∈ l', pfnCompare y x = 0

/-- What a list with a default entry may do for a call. -/
inductive Reference (e : Entry α) : List α × Option α → Call α → ERR → List α × Option α → Prop
  | setSize {l : List α} {default : Option α} {centry : Nat} {alloc : Option (Nat → α)}
      (l' : List α)
      (hl' : IsExtension default l') (hlength : l'.length = centry - l.length) :
      Reference e (l, default) (.setSize centry alloc) .errSuccess (l.take centry ++ l', default)
  | setCapacity {l : List α} {default : Option α} {centryMax : Nat} {alloc : Option (Nat → α)} :
      Reference e (l, default) (.setCapacity centryMax alloc) .errSuccess
        (l.take centryMax, default)
  | setEntry {l : List α} {default : Option α} {ientry : Nat} {entry : α} {alloc : Option (Nat → α)}
      (l' : List α)
      (hl' : IsExtension default l') (hlength : l'.length = ientry + 1 - l.length) :
      Reference e (l, default) (.setEntry ientry entry alloc) .errSuccess
        ((l ++ l').set ientry entry, default)
  | clone {l : List α} {default : Option α} {array : CArray α} {alloc : Option (Nat → α)} :
      Reference e (l, default) (.clone array alloc) .errSuccess (array.content, array.default)
  | loadEntries {l : List α} {default : Option α} {rgbData : List Byte} {alloc : Option (Nat → α)}
      (h : rgbData.length % e.cb = 0) :
      Reference e (l, default) (.loadEntries rgbData alloc) .errSuccess
        (l ++ e.ofData rgbData (rgbData.length / e.cb), default)
  | invalidData {l : List α} {default : Option α} {rgbData : List Byte} {alloc : Option (Nat → α)}
      (h : rgbData.length % e.cb ≠ 0) :
      Reference e (l, default) (.loadEntries rgbData alloc) .errInvalidData (l, default)
  | sortAndRemoveDuplicates {l : List α} {default : Option α} {pfnCompare : α → α → Int}
      {alloc : Option (Nat → α)}
      (l' : List α) (h : IsUnique pfnCompare l l') :
      Reference e (l, default) (.sortAndRemoveDuplicates pfnCompare alloc) .errSuccess (l', default)
  | setCapacityGrowth {l : List α} {default : Option α} {centryGrowth : Nat} :
      Reference e (l, default) (.setCapacityGrowth centryGrowth) .errSuccess (l, default)
  | setEntryDefault {l : List α} {default : Option α} {entry : α} :
      Reference e (l, default) (.setEntryDefault entry) .errSuccess (l, some entry)
  | outOfMemory {l : List α} {default : Option α} {call : Call α} (h : call.alloc = some none) :
      Reference e (l, default) call .errOutOfMemory (l, default)

/-- The arguments of a call are of their types, an array that is cloned is consistent, and entries
are compared by an order. -/
def Call.Typed : Call α → Prop
  | .setSize centry _ => centry ≤ SIZE_MAX
  | .setCapacity centryMax _ => centryMax ≤ SIZE_MAX
  | .setEntry ientry _ _ => ientry ≤ SIZE_MAX
  | .clone array _ => array.Consistent
  | .sortAndRemoveDuplicates pfnCompare _ => IsCompare pfnCompare
  | .setCapacityGrowth centryGrowth => centryGrowth ≤ SIZE_MAX
  | _ => True

/-- No entry is set at the last index of the type, and no entries are loaded unless the allocation
for them fails. -/
def Served : Call α → Prop
  | .setEntry ientry _ _ => ientry ≠ SIZE_MAX
  | .loadEntries rgbData alloc => rgbData = [] ∨ rgbData.length % e.cb ≠ 0 ∨
      (alloc = none ∧ sizeT (rgbData.length / e.cb + a.m_centry) ≠ a.m_centryMax ∧
        sizeT (rgbData.length / e.cb + a.m_centry) ≠ 0)
  | _ => True

/-- A call, and what it returns. -/
def Step (step : Call α × ERR) (a a' : CArray α) : Prop :=
  step.1.Typed ∧ a.apply e step.1 = some (a', step.2)

/-! ## The loops over the entries -/

namespace Entries

variable {rg rgNew : Entries α} {i n : Nat} {entry : α} {l : List α}

/-- An entry of the array is read. -/
theorem read_eq (h : i < rg.centry) : rg.read i = some (rg.rgentry i) := if_pos h

/-- An entry of the array is written. -/
theorem write_eq (h : i < rg.centry) :
    rg.write i entry = some { rg with rgentry := Function.update rg.rgentry i entry } :=
  if_pos h

/-- A copy between arrays that have the room. -/
theorem copy_spec (rg rgNew : Entries α) (n : Nat) (hn : n ≤ rg.centry) (hn' : n ≤ rgNew.centry) :
    ∃ rg', rg.copy n rgNew = some rg' ∧ rg'.centry = rgNew.centry ∧
      ∀ i < n, rg'.rgentry i = rg.rgentry i := by
  induction n with
  | zero => exact ⟨rgNew, rfl, rfl, fun i hi => absurd hi (Nat.not_lt_zero i)⟩
  | succ n ih =>
    obtain ⟨rg', hcopy, hcentry, hrg'⟩ := ih (Nat.le_of_succ_le hn) (Nat.le_of_succ_le hn')
    refine ⟨{ rg' with rgentry := Function.update rg'.rgentry n (rg.rgentry n) }, ?_, hcentry,
      fun i hi => ?_⟩
    · rw [copy, hcopy]
      simp only [Option.bind_eq_bind, Option.bind_some, read_eq hn]
      exact write_eq (hcentry ▸ hn')
    · rcases Nat.lt_succ_iff_lt_or_eq.1 hi with hi | rfl
      · exact (Function.update_of_ne hi.ne _ _).trans (hrg' i hi)
      · exact Function.update_self _ _ _

/-- A fill of entries of the array. -/
theorem fill_spec (rg : Entries α) (i n : Nat) (entry : α) (h : i + n ≤ rg.centry) :
    ∃ rg', fill entry i n rg = some rg' ∧ rg'.centry = rg.centry ∧
      (∀ j < i, rg'.rgentry j = rg.rgentry j) ∧
      ∀ j < n, rg'.rgentry (i + j) = entry := by
  induction n with
  | zero => exact ⟨rg, rfl, rfl, fun _ _ => rfl, fun j hj => absurd hj (Nat.not_lt_zero j)⟩
  | succ n ih =>
    obtain ⟨rg', hfill, hcentry, hold, hnew⟩ := ih (by omega)
    refine ⟨{ rg' with rgentry := Function.update rg'.rgentry (i + n) entry }, ?_, hcentry,
      fun j hj => ?_, fun j hj => ?_⟩
    · rw [fill, hfill]
      exact write_eq (by omega)
    · exact (Function.update_of_ne (by omega) _ _).trans (hold j hj)
    · rcases Nat.lt_succ_iff_lt_or_eq.1 hj with hj | rfl
      · exact (Function.update_of_ne (by omega) _ _).trans (hnew j hj)
      · exact Function.update_self _ _ _

/-- A load of entries of the array. -/
theorem load_spec (rg : Entries α) (i : Nat) (l : List α) (h : i + l.length ≤ rg.centry) :
    ∃ rg', load i l rg = some rg' ∧ rg'.centry = rg.centry ∧
      (∀ j < i, rg'.rgentry j = rg.rgentry j) ∧
      ∀ j (hj : j < l.length), rg'.rgentry (i + j) = l[j] := by
  induction l generalizing rg i with
  | nil => exact ⟨rg, rfl, rfl, fun _ _ => rfl, fun j hj => absurd hj (Nat.not_lt_zero j)⟩
  | cons entry l ih =>
    rw [List.length_cons] at h
    obtain ⟨rg', hload, hcentry, hold, hnew⟩ := ih
      { rg with rgentry := Function.update rg.rgentry i entry } (i + 1)
      (by show i + 1 + l.length ≤ rg.centry; omega)
    refine ⟨rg', ?_, hcentry, fun j hj => ?_, fun j hj => ?_⟩
    · rw [load, write_eq (by omega)]
      exact hload
    · exact (hold j (by omega)).trans (Function.update_of_ne (by omega) _ _)
    · cases j with
      | zero => exact (hold i (Nat.lt_succ_self i)).trans (Function.update_self _ _ _)
      | succ j =>
        have hj' : j < l.length := Nat.lt_of_succ_lt_succ hj
        rw [show i + (j + 1) = i + 1 + j by omega]
        exact hnew j hj'

/-- A list has the entries asked for. -/
theorem length_toList : (rg.toList n).length = n := by
  rw [toList, List.length_map, List.length_range]

/-- The entries of the list are those of the array. -/
theorem getElem_toList (h : i < (rg.toList n).length) : (rg.toList n)[i] = rg.rgentry i := by
  simp [toList]

/-- A list is the first entries where its entries are. -/
theorem toList_eq (hlength : l.length = n) (h : ∀ i (hi : i < l.length), rg.rgentry i = l[i]) :
    rg.toList n = l := by
  refine List.ext_getElem (length_toList.trans hlength.symm) fun i h₁ h₂ => ?_
  rw [getElem_toList]
  exact h i h₂

/-- A list in two parts is the first entries where the entries of the parts are. -/
theorem toList_eq_append {l l' : List α} (hlength : l.length + l'.length = n)
    (h : ∀ i (hi : i < l.length), rg.rgentry i = l[i])
    (h' : ∀ i (hi : i < l'.length), rg.rgentry (l.length + i) = l'[i]) : rg.toList n = l ++ l' := by
  refine toList_eq (List.length_append.trans hlength) fun i hi => ?_
  rcases Nat.lt_or_ge i l.length with hlt | hge
  · rw [List.getElem_append_left hlt]
    exact h i hlt
  · rw [List.length_append] at hi
    rw [List.getElem_append_right hge]
    have hpart := h' (i - l.length) (by omega)
    rwa [Nat.add_sub_cancel' hge] at hpart

/-- The list with one more entry. -/
theorem toList_succ : rg.toList (n + 1) = rg.toList n ++ [rg.rgentry n] := by
  rw [toList, List.range_succ, List.map_append, List.map_singleton, toList]

/-- The entry that is written reads back. -/
theorem rgentry_update :
    ({ rg with rgentry := Function.update rg.rgentry i entry } : Entries α).rgentry i = entry :=
  Function.update_self _ _ _

/-- An entry that is not among the first is written. -/
theorem toList_update :
    ({ rg with rgentry := Function.update rg.rgentry n entry } : Entries α).toList n =
    rg.toList n := by
  refine toList_eq length_toList fun i hi => ?_
  rw [length_toList] at hi
  exact (Function.update_of_ne hi.ne _ _).trans (getElem_toList _).symm

/-- The first entries of the list. -/
theorem toList_take (h : i ≤ n) : (rg.toList n).take i = rg.toList i := by
  rw [toList, ← List.map_take, List.take_range, Nat.min_eq_left h, toList]

end Entries

/-! ## The operations -/

section
variable {a} {e} {a' : CArray α} {centry ientry : Nat} {entry : α} {alloc : Option (Nat → α)}
    {l : List α}

/-- The default entry and the growth of an array are those of another. -/
structure SameSettings (a a' : CArray α) : Prop where
  entryDefault : a'.m_entryDefault = a.m_entryDefault
  fEntryDefault : a'.m_fEntryDefault = a.m_fEntryDefault
  centryGrowth : a'.m_centryGrowth = a.m_centryGrowth

/-- The default entry is a setting. -/
theorem SameSettings.default (h : SameSettings a a') : a'.default = a.default := by
  rw [CArray.default, CArray.default, h.fEntryDefault, h.entryDefault]

/-- Settings that stay twice stay. -/
theorem SameSettings.trans {a₁ a₂ : CArray α} (h : SameSettings a a₁) (h' : SameSettings a₁ a₂) :
    SameSettings a a₂ :=
  ⟨h'.1.trans h.1, h'.2.trans h.2, h'.3.trans h.3⟩

/-- The content has the size of the array. -/
theorem length_content : a.content.length = a.m_centry := Entries.length_toList

/-- A call either fails for want of memory and changes nothing, or leaves a consistent array with
the settings and the contents it should have. -/
inductive Outcome (a : CArray α) (alloc : Option (Nat → α)) (content : List α → Prop) :
    CArray α × ERR → Prop
  | success {a' : CArray α} (h : a'.Consistent) (settings : SameSettings a a')
      (hcontent : content a'.content) :
      Outcome a alloc content (a', .errSuccess)
  | outOfMemory (h : alloc = none) : Outcome a alloc content (a, .errOutOfMemory)

/-- The capacity is set, and the entries that fit are kept. -/
theorem Consistent.errSetCapacity_spec (h : a.Consistent) (centryMax : Nat)
    (hcentryMax : centryMax ≤ SIZE_MAX)
    (alloc : Option (Nat → α)) : ∃ r, a.errSetCapacity centryMax alloc = some r ∧
      Outcome a alloc (fun l => l = a.content.take centryMax) r ∧
      (r.2 = .errSuccess → r.1.m_centryMax = centryMax) ∧
      (r.2 = .errOutOfMemory → centryMax ≠ a.m_centryMax ∧ centryMax ≠ 0) := by
  have hsize := h.size_le
  -- the size is cut to the capacity
  have hmin : (if a.m_centry > centryMax then centryMax else a.m_centry) =
    min centryMax a.m_centry := by
    split_ifs <;> omega
  rw [errSetCapacity, hmin]
  split_ifs with hsame hzero
  · cases alloc with
    | none => exact ⟨_, rfl, .outOfMemory rfl, nofun, fun _ => ⟨hsame.symm, hzero⟩⟩
    | some alloc =>
      obtain ⟨rg', hcopy, hcentry, hrg'⟩ := Entries.copy_spec a.rgentry ⟨centryMax, alloc⟩
        (min centryMax a.m_centry) (by rw [h.capacity]; omega) (Nat.min_le_left _ _)
      refine ⟨({ a with m_centry := min centryMax a.m_centry, m_centryMax := centryMax,
                        m_rgentry := some rg' }, .errSuccess),
        ?_, .success ⟨Nat.min_le_left _ _, hcentry, hcentryMax, h.growth_pos, h.growth_le⟩
        ⟨rfl, rfl, rfl⟩ ?_,
        fun _ => rfl, nofun⟩
      · simp only [newEntries, Option.map_some, hcopy]
        rfl
      · refine Entries.toList_eq ?_ fun i hi => ?_
        · show (a.content.take centryMax).length = min centryMax a.m_centry
          rw [List.length_take, length_content]
        · rw [List.length_take, length_content] at hi
          rw [List.getElem_take]
          exact (hrg' i hi).trans (Entries.getElem_toList _).symm
  · obtain rfl := not_not.1 hzero
    exact ⟨_, rfl, .success ⟨le_rfl, rfl, Nat.zero_le _, h.growth_pos, h.growth_le⟩
      ⟨rfl, rfl, rfl⟩ rfl, fun _ => rfl, nofun⟩
  · obtain rfl := not_not.1 hsame
    refine ⟨_, rfl, .success h ⟨rfl, rfl, rfl⟩ ?_, fun _ => rfl, nofun⟩
    rw [List.take_of_length_le]
    exact length_content.trans_le hsize

/-- The capacity that is asked for is enough. -/
theorem Consistent.centryGrown_spec (h : a.Consistent) (hcentry : centry ≤ SIZE_MAX)
    (hmore : a.m_centryMax < centry) :
    centry ≤ a.centryGrown centry ∧ a.centryGrown centry ≤ SIZE_MAX := by
  have hgrowth := h.growth_pos
  have hgrowth' := h.growth_le
  have hdiv := Nat.div_add_mod (centry - a.m_centryMax - 1) a.m_centryGrowth
  have hmod := Nat.mod_lt (centry - a.m_centryMax - 1) hgrowth
  rw [Nat.mul_comm] at hdiv
  rw [centryGrown]
  split_ifs <;> omega

/-- A size within the capacity: the entries that are added are the default entry where one is
set. -/
theorem Consistent.setSize_spec (h : a.Consistent) (hcentry : centry ≤ a.m_centryMax) :
    ∃ a', a.setSize centry = some (a', .errSuccess) ∧ a'.Consistent ∧ SameSettings a a' ∧
      a'.m_centry = centry ∧
      ∃ l', IsExtension a.default l' ∧ l'.length = centry - a.m_centry ∧
        a'.content = a.content.take centry ++ l' := by
  rw [setSize]
  split_ifs with hdefault
  · obtain ⟨hentry, hmore⟩ := hdefault
    obtain ⟨rg', hfill, hcentry', hold, hnew⟩ :=
      Entries.fill_spec a.rgentry a.m_centry (centry - a.m_centry)
      a.m_entryDefault (by rw [h.capacity]; omega)
    rw [hfill]
    refine ⟨_, rfl, ⟨hcentry, hcentry'.trans h.capacity, h.capacity_le, h.growth_pos, h.growth_le⟩,
      ⟨rfl, rfl, rfl⟩, rfl,
      List.replicate (centry - a.m_centry) a.m_entryDefault, ?_, List.length_replicate, ?_⟩
    · intro entry hmem
      rw [default, if_pos hentry] at hmem
      rw [List.length_replicate, Option.mem_some_iff.1 hmem]
    · show rg'.toList centry = _
      refine Entries.toList_eq_append
        (by rw [List.length_take, length_content, List.length_replicate]; omega) ?_ ?_
      · intro i hi
        rw [List.length_take, length_content] at hi
        rw [List.getElem_take]
        exact (hold i (by omega)).trans (Entries.getElem_toList _).symm
      · intro i hi
        rw [List.length_replicate] at hi
        rw [List.getElem_replicate, List.length_take, length_content, Nat.min_eq_right (by omega)]
        exact hnew i hi
  · refine ⟨_, rfl, ⟨hcentry, h.capacity, h.capacity_le, h.growth_pos, h.growth_le⟩,
      ⟨rfl, rfl, rfl⟩, rfl, ?_⟩
    rcases Nat.lt_or_ge a.m_centry centry with hmore | hless
    · -- without a default entry the allocation says what is added
      refine ⟨(a.rgentry.toList centry).drop a.m_centry, ?_, ?_, ?_⟩
      · intro entry hmem
        rw [default, if_neg fun hentry => hdefault ⟨hentry, hmore⟩] at hmem
        exact absurd hmem (Option.not_mem_none entry)
      · rw [List.length_drop, Entries.length_toList]
      · show a.rgentry.toList centry = _
        rw [List.take_of_length_le (length_content.trans_le hmore.le), content,
          ← Entries.toList_take hmore.le,
          List.take_append_drop]
    · refine ⟨[], fun _ _ => rfl, by rw [Nat.sub_eq_zero_of_le hless]; rfl, ?_⟩
      show a.rgentry.toList centry = _
      rw [content, Entries.toList_take hless, List.append_nil]

/-- A larger size takes a larger capacity first. -/
theorem Consistent.errSetSize_spec (h : a.Consistent) (centry : Nat) (hcentry : centry ≤ SIZE_MAX)
    (alloc : Option (Nat → α)) : ∃ r, a.errSetSize centry alloc = some r ∧ Outcome a alloc (fun l =>
      ∃ l', IsExtension a.default l' ∧ l'.length = centry - a.m_centry ∧
        l = a.content.take centry ++ l') r := by
  rw [errSetSize]
  split_ifs with hmore
  · obtain ⟨hle, hmax⟩ := h.centryGrown_spec hcentry hmore
    obtain ⟨⟨a₁, err⟩, hcapacity, houtcome, hcentryMax, -⟩ :=
      h.errSetCapacity_spec (a.centryGrown centry) hmax alloc
    rw [hcapacity]
    cases houtcome with
    | outOfMemory hnone => exact ⟨_, rfl, .outOfMemory hnone⟩
    | success h₁ hsettings hcontent =>
      -- nothing is cut off on the way to the larger capacity
      rw [List.take_of_length_le
        (by rw [length_content]; exact h.size_le.trans (hmore.le.trans hle))] at hcontent
      have hsize : a₁.m_centry = a.m_centry := by rw [← length_content, hcontent, length_content]
      obtain ⟨a₂, hset, h₂, hsettings₂, -, l', hl', hlength, hcontent₂⟩ :=
        h₁.setSize_spec (hle.trans_eq (hcentryMax rfl).symm)
      refine ⟨_, hset, .success h₂ (hsettings.trans hsettings₂)
        ⟨l', hsettings.default ▸ hl', hsize ▸ hlength, ?_⟩⟩
      rw [hcontent₂, hcontent]
  · obtain ⟨a₂, hset, h₂, hsettings, -, l', hl', hlength, hcontent⟩ :=
      h.setSize_spec (Nat.le_of_not_lt hmore)
    exact ⟨_, hset, .success h₂ hsettings ⟨l', hl', hlength, hcontent⟩⟩

/-- A smaller size cuts the entries off. -/
theorem Consistent.errSetSize_of_le (h : a.Consistent) (hless : centry ≤ a.m_centry)
    (alloc : Option (Nat → α)) :
    ∃ a', a.errSetSize centry alloc = some (a', .errSuccess) ∧ a'.Consistent ∧ SameSettings a a' ∧
      a'.content = a.content.take centry := by
  have hcapacity := hless.trans h.size_le
  obtain ⟨a', hset, h', hsettings, -, l', -, hlength, hcontent⟩ := h.setSize_spec hcapacity
  refine ⟨a', ?_, h', hsettings, ?_⟩
  · rw [errSetSize, if_neg (Nat.not_lt.2 hcapacity), hset]
  · rw [hcontent, List.eq_nil_of_length_eq_zero (hlength.trans (Nat.sub_eq_zero_of_le hless)),
      List.append_nil]

/-- An entry within the size is overwritten. -/
theorem Consistent.setEntry_spec (h : a.Consistent) (entry : α) (hientry : ientry < a.m_centry) :
    ∃ a', a.setEntry (a.pEntry ientry) entry = some a' ∧ a'.Consistent ∧ SameSettings a a' ∧
      a'.content = a.content.set ientry entry := by
  have hbound : ientry < a.rgentry.centry := by
    rw [h.capacity]
    exact hientry.trans_le h.size_le
  rw [setEntry, pEntry, if_pos hientry]
  simp only [Option.bind_eq_bind, Option.bind_some, Entries.write_eq hbound]
  refine ⟨_, rfl, ⟨h.size_le, h.capacity, h.capacity_le, h.growth_pos, h.growth_le⟩,
    ⟨rfl, rfl, rfl⟩, ?_⟩
  refine Entries.toList_eq (by rw [List.length_set, length_content]) fun i hi => ?_
  show Function.update a.rgentry.rgentry ientry entry i = _
  rw [List.getElem_set]
  split_ifs with hsame
  · rw [← hsame, Function.update_self]
  · rw [Function.update_of_ne (Ne.symm hsame)]
    exact (Entries.getElem_toList _).symm

/-- An entry past the size is written once the size includes it. -/
theorem Consistent.errSetEntry_spec (h : a.Consistent) (entry : α) (hientry : ientry < SIZE_MAX)
    (alloc : Option (Nat → α)) : ∃ r, a.errSetEntry ientry entry alloc = some r ∧
      Outcome a alloc (fun l =>
      ∃ l', IsExtension a.default l' ∧ l'.length = ientry + 1 - a.m_centry ∧
        l = (a.content ++ l').set ientry entry) r := by
  have hreq : sizeT (ientry + 1) = ientry + 1 := by
    rw [SIZE_MAX] at hientry
    rw [sizeT]
    omega
  rw [errSetEntry, hreq]
  split_ifs with hmore
  · obtain ⟨⟨a₁, err⟩, hsize, houtcome⟩ := h.errSetSize_spec (ientry + 1) hientry alloc
    rw [hsize]
    cases houtcome with
    | outOfMemory hnone => exact ⟨_, rfl, .outOfMemory hnone⟩
    | success h₁ hsettings hcontent =>
      obtain ⟨l', hl', hlength, hcontent⟩ := hcontent
      rw [List.take_of_length_le (length_content.trans_le hmore.le)] at hcontent
      have hsize₁ : a₁.m_centry = ientry + 1 := by
        rw [← length_content, hcontent, List.length_append, length_content, hlength]
        omega
      obtain ⟨a₂, hset, h₂, hsettings₂, hcontent₂⟩ :=
        h₁.setEntry_spec entry ((Nat.lt_succ_self ientry).trans_eq hsize₁.symm)
      refine ⟨(a₂, .errSuccess), ?_, .success h₂ (hsettings.trans hsettings₂)
        ⟨l', hl', hlength, hcontent ▸ hcontent₂⟩⟩
      simp only [Option.bind_eq_bind, Option.bind_some, hset]
      rfl
  · obtain ⟨a₂, hset, h₂, hsettings, hcontent⟩ :=
      h.setEntry_spec entry (Nat.lt_of_not_le fun hle => hmore (Nat.lt_succ_of_le hle))
    refine ⟨(a₂, .errSuccess), ?_, .success h₂ hsettings ⟨[], fun _ _ => rfl, ?_, ?_⟩⟩
    · rw [hset]
      rfl
    · exact (Nat.sub_eq_zero_of_le (Nat.le_of_not_lt hmore)).symm
    · rw [List.append_nil, hcontent]

/-- An entry within the size needs no memory. -/
theorem Consistent.errSetEntry_of_lt (h : a.Consistent) (entry : α) (hientry : ientry < a.m_centry)
    (alloc : Option (Nat → α)) : ∃ a', a.errSetEntry ientry entry alloc = some (a', .errSuccess) ∧
      a'.Consistent ∧
      SameSettings a a' ∧ a'.content = a.content.set ientry entry := by
  have hmax := h.size_le.trans h.capacity_le
  have hreq : sizeT (ientry + 1) = ientry + 1 := by
    rw [SIZE_MAX] at hmax
    rw [sizeT]
    omega
  obtain ⟨a', hset, h', hsettings, hcontent⟩ := h.setEntry_spec entry hientry
  refine ⟨a', ?_, h', hsettings, hcontent⟩
  rw [errSetEntry, hreq, if_neg (Nat.not_lt.2 hientry), hset]
  rfl

/-- The array that is cloned is copied with its settings. -/
theorem errClone_spec {array : CArray α} (h : array.Consistent) (alloc : Option (Nat → α)) :
    (∃ a', a.errClone array alloc = some (a', .errSuccess) ∧ a'.Consistent ∧ SameSettings array a' ∧
      a'.content = array.content) ∨
        (a.errClone array alloc = some (a, .errOutOfMemory) ∧ alloc = none) := by
  have hsize : array.m_centry ≤ array.rgentry.centry := h.capacity ▸ h.size_le
  rw [errClone]
  split_ifs with hcapacity
  · cases alloc with
    | none => exact .inr ⟨rfl, rfl⟩
    | some alloc =>
      obtain ⟨rg', hcopy, hcentry, hrg'⟩ :=
        Entries.copy_spec array.rgentry ⟨array.m_centryMax, alloc⟩ array.m_centry
        hsize h.size_le
      refine .inl ⟨{ array with m_rgentry := some rg' }, ?_,
        ⟨h.size_le, hcentry, h.capacity_le, h.growth_pos, h.growth_le⟩, ⟨rfl, rfl, rfl⟩, ?_⟩
      · simp only [newEntries, Option.map_some, hcopy]
        rfl
      · refine Entries.toList_eq length_content fun i hi => ?_
        rw [length_content] at hi
        exact (hrg' i hi).trans (Entries.getElem_toList _).symm
  · have hzero : array.m_centryMax = 0 := not_not.1 hcapacity
    have hempty : array.m_centry = 0 := Nat.eq_zero_of_le_zero (hzero ▸ h.size_le)
    refine .inl ⟨{ array with m_rgentry := none }, ?_,
      ⟨h.size_le, hzero.symm, h.capacity_le, h.growth_pos, h.growth_le⟩, ⟨rfl, rfl, rfl⟩, ?_⟩
    · rw [hempty]
      rfl
    · rw [content, content, hempty]
      rfl

end

/-! ## Sorting -/

section
variable {e : Entry α} {pfnCompare : α → α → Int} {x y z : α} {l : List α}

/-- An entry compares equal with itself. -/
theorem IsCompare.refl (h : IsCompare pfnCompare) (x : α) : pfnCompare x x = 0 := by
  have hswap := h.swap x x
  omega

/-- Comparing equal is symmetric. -/
theorem IsCompare.eq_symm (h : IsCompare pfnCompare) (hxy : pfnCompare x y = 0) :
    pfnCompare y x = 0 := by
  have hswap := h.swap x y
  have hswap' := h.swap y x
  omega

/-- Comparing below is transitive. -/
theorem IsCompare.lt_trans (h : IsCompare pfnCompare) (hxy : pfnCompare x y < 0)
    (hyz : pfnCompare y z < 0) :
    pfnCompare x z < 0 := by
  have hle := h.trans x y z hxy.le hyz.le
  refine lt_of_le_of_ne hle fun heq => ?_
  -- otherwise `z` is before `y`
  have hback := h.trans z x y (h.eq_symm heq).le hxy.le
  have hswap := h.swap y z
  omega

/-- The entries that the loop keeps of a list after `x`, the last one kept. -/
abbrev kept (pfnCompare : α → α → Int) (x : α) (l : List α) : List α :=
  l.destutter' (fun entryUnique entry => pfnCompare entryUnique entry ≠ 0) x

/-- Of every entry, one that compares equal is kept. -/
theorem IsCompare.exists_kept (h : IsCompare pfnCompare) (hy : y ∈ x :: l) :
    ∃ z ∈ kept pfnCompare x l, pfnCompare z y = 0 := by
  induction l generalizing x with
  | nil =>
    obtain rfl := List.mem_singleton.1 hy
    exact ⟨y, List.mem_singleton.2 rfl, h.refl y⟩
  | cons entry l ih =>
    rw [kept, List.destutter'_cons]
    split_ifs with hdiffer
    · rcases List.mem_cons.1 hy with rfl | hy
      · exact ⟨y, List.mem_cons_self, h.refl y⟩
      · obtain ⟨z, hz, hzy⟩ := ih hy
        exact ⟨z, List.mem_cons_of_mem _ hz, hzy⟩
    · have hequal : pfnCompare x entry = 0 := not_not.1 hdiffer
      rcases List.mem_cons.1 hy with rfl | hy
      · exact ih List.mem_cons_self
      · rcases List.mem_cons.1 hy with rfl | hy
        · -- an entry that is dropped compares equal to the one kept
          exact ⟨x, List.mem_destutter' _ _ x, hequal⟩
        · exact ih (List.mem_cons_of_mem _ hy)

/-- What the loop keeps of a sorted list is the list without duplicates. -/
theorem IsCompare.isUnique_kept (h : IsCompare pfnCompare)
    (hsorted : (x :: l).Pairwise fun x y => pfnCompare x y ≤ 0) :
    IsUnique pfnCompare (x :: l) (kept pfnCompare x l) := by
  have hsublist :=
    List.destutter'_sublist l (fun entryUnique entry => pfnCompare entryUnique entry ≠ 0) x
  refine ⟨?_, fun y hy => hsublist.subset hy, fun y hy => h.exists_kept hy⟩
  have hchain :=
    List.isChain_destutter' (fun entryUnique entry => pfnCompare entryUnique entry ≠ 0) l x
  have hle := (hsorted.sublist hsublist).isChain
  have : IsTrans α fun x y => pfnCompare x y < 0 := ⟨fun x y z => h.lt_trans⟩
  refine List.isChain_iff_pairwise.1 ?_
  exact List.isChain_iff_getElem.2 fun i hi =>
    lt_of_le_of_ne (List.isChain_iff_getElem.1 hle i hi) (List.isChain_iff_getElem.1 hchain i hi)

/-- The order of the input does not matter to what is unique in it. -/
theorem IsUnique.perm {l₁ l₂ l' : List α} (h : IsUnique pfnCompare l₁ l') (hperm : l₁.Perm l₂) :
    IsUnique pfnCompare l₂ l' :=
  ⟨h.sorted, fun x hx => hperm.subset (h.subset x hx), fun x hx =>
    h.exists_eq x (hperm.mem_iff.2 hx)⟩

/-- The loop, over the rest of a list: the entries that it reads are behind the ones that it
writes. -/
theorem unique_spec (hrefl : ∀ x, pfnCompare x x = 0) (rest : List α) (pEntry pEntryUnique : Nat)
    (rg : Entries α)
    (hle : pEntryUnique ≤ pEntry) (hbound : pEntry + rest.length ≤ rg.centry)
    (hrest : ∀ i (hi : i < rest.length), rg.rgentry (pEntry + i) = rest[i]) :
    ∃ rg' pEntryUnique', unique pfnCompare rest.length pEntry pEntryUnique rg =
      some (rg', pEntryUnique') ∧
      rg'.centry = rg.centry ∧
      rg'.toList (pEntryUnique' + 1) = rg.toList pEntryUnique ++ kept pfnCompare
        (rg.rgentry pEntryUnique) rest := by
  induction rest generalizing pEntry pEntryUnique rg with
  | nil => exact ⟨rg, pEntryUnique, rfl, rfl, Entries.toList_succ⟩
  | cons entry rest ih =>
    have hentry : rg.rgentry pEntry = entry := hrest 0 (Nat.zero_lt_succ _)
    rw [List.length_cons] at hbound
    have hnext : ∀ i (hi : i < rest.length), rg.rgentry (pEntry + 1 + i) = rest[i] := by
      intro i hi
      rw [show pEntry + 1 + i = pEntry + (i + 1) by omega]
      exact hrest (i + 1) (Nat.succ_lt_succ hi)
    rw [List.length_cons, unique]
    simp only [Option.bind_eq_bind, Option.bind_some,
      Entries.read_eq (show pEntryUnique < rg.centry by omega),
      Entries.read_eq (show pEntry < rg.centry by omega), hentry]
    rw [kept, List.destutter'_cons]
    split_ifs with hdiffer
    · -- the two are not the same entry
      have hlt : pEntryUnique < pEntry := by
        refine lt_of_le_of_ne hle fun heq => hdiffer ?_
        rw [heq, hentry]
        exact hrefl entry
      rw [Entries.write_eq (by omega), Option.bind_some]
      obtain ⟨rg', pEntryUnique', hloop, hcentry, htoList⟩ := ih (pEntry + 1) (pEntryUnique + 1)
        { rg with rgentry := Function.update rg.rgentry (pEntryUnique + 1) entry } (by omega)
        (by show pEntry + 1 + rest.length ≤ rg.centry; omega)
        fun i hi => (Function.update_of_ne (by omega) _ _).trans (hnext i hi)
      refine ⟨rg', pEntryUnique', hloop, hcentry, htoList.trans ?_⟩
      rw [Entries.toList_update, Entries.toList_succ, Entries.rgentry_update, List.append_assoc,
        List.singleton_append]
    · exact ih (pEntry + 1) pEntryUnique rg (by omega) (by omega) hnext

/-- The sort of an array without entries leaves it as it is. -/
theorem Entry.Lawful.qsort_nil (he : e.Lawful) (hcompare : IsCompare pfnCompare) :
    e.qsort pfnCompare [] = [] :=
  List.perm_nil.1 (he.perm pfnCompare hcompare [])

section
variable {a : CArray α}

/-- Other entries are put in the allocation. -/
theorem Consistent.setEntries (h : a.Consistent) {rg : Entries α}
    (hrg : rg.centry = a.rgentry.centry) :
    ({ a with m_rgentry := a.m_rgentry.map fun _ => rg } : CArray α).Consistent := by
  refine ⟨h.size_le, ?_, h.capacity_le, h.growth_pos, h.growth_le⟩
  have hcapacity := hrg.trans h.capacity
  cases hnull : a.m_rgentry with
  | none =>
    rw [rgentry, hnull] at hrg
    exact hrg.symm.trans hcapacity
  | some _ => exact hcapacity

/-- The entries are put back. -/
theorem map_rgentry (a : CArray α) :
    ({ a with m_rgentry := a.m_rgentry.map fun _ => a.rgentry } : CArray α) = a := by
  cases hnull : a.m_rgentry with
  | none => rw [Option.map_none, ← hnull]
  | some rg => rw [Option.map_some, rgentry, hnull, Option.getD_some, ← hnull]

/-- An array with entries has its memory. -/
theorem Consistent.m_rgentry_eq (h : a.Consistent) (hsize : a.m_centry ≠ 0) :
    a.m_rgentry = some a.rgentry := by
  cases hnull : a.m_rgentry with
  | none =>
    have hcapacity := h.capacity
    rw [rgentry, hnull] at hcapacity
    exact absurd (Nat.eq_zero_of_le_zero (h.size_le.trans_eq hcapacity.symm)) hsize
  | some rg => rw [rgentry, hnull, Option.getD_some]

/-- An array without memory is empty. -/
theorem Consistent.size_eq (h : a.Consistent) (hnull : a.m_rgentry = none) : a.m_centry = 0 := by
  by_contra hsize
  exact absurd (hnull.symm.trans (h.m_rgentry_eq hsize)) (Option.some_ne_none _).symm

/-- The default entry is not one of the entries, not even of an array without an allocation. -/
theorem Consistent.setEntryDefault_spec (h : a.Consistent) (entry : α) :
    (a.setEntryDefault entry).Consistent ∧ (a.setEntryDefault entry).content = a.content := by
  cases hnull : a.m_rgentry with
  | none =>
    have hcapacity := h.capacity
    rw [rgentry, hnull] at hcapacity
    refine ⟨⟨h.size_le, ?_, h.capacity_le, h.growth_pos, h.growth_le⟩, ?_⟩
    · rw [rgentry, setEntryDefault, hnull]
      exact hcapacity
    · rw [content, content, setEntryDefault, h.size_eq hnull]
      rfl
  | some rg =>
    have hrg : (a.setEntryDefault entry).rgentry = a.rgentry := by
      rw [rgentry, rgentry, setEntryDefault, hnull, Option.getD_some, Option.getD_some]
    exact ⟨⟨h.size_le, hrg ▸ h.capacity, h.capacity_le, h.growth_pos, h.growth_le⟩,
      congrArg (Entries.toList · a.m_centry) hrg⟩

/-- Sorting leaves the array consistent, with its content sorted. -/
theorem Consistent.sort_spec (h : a.Consistent) (he : e.Lawful) (hcompare : IsCompare pfnCompare) :
    ∃ a', a.sort e pfnCompare = some a' ∧ a'.Consistent ∧ SameSettings a a' ∧
      a'.content = e.qsort pfnCompare a.content := by
  cases hnull : a.m_rgentry with
  | none =>
    have hcontent : a.content = [] :=
      List.eq_nil_of_length_eq_zero (length_content.trans (h.size_eq hnull))
    refine ⟨a, by rw [sort, hnull], h, ⟨rfl, rfl, rfl⟩, ?_⟩
    rw [hcontent, he.qsort_nil hcompare]
  | some rg =>
    have hrg : a.rgentry = rg := by rw [rgentry, hnull, Option.getD_some]
    have hcontent : a.content = rg.toList a.m_centry := by rw [content, hrg]
    have hlength : (e.qsort pfnCompare a.content).length = a.m_centry :=
      (he.perm _ hcompare _).length_eq.trans length_content
    obtain ⟨rg', hload, hcentry, -, hnew⟩ := Entries.load_spec rg 0 (e.qsort pfnCompare a.content)
      (by rw [hlength, ← hrg, h.capacity, Nat.zero_add]; exact h.size_le)
    refine ⟨{ a with m_rgentry := some rg' }, ?_, ?_, ⟨rfl, rfl, rfl⟩, ?_⟩
    · rw [sort, hnull]
      simp only [← hcontent, hload]
      rfl
    · exact ⟨h.size_le, hcentry.trans (hrg ▸ h.capacity), h.capacity_le, h.growth_pos, h.growth_le⟩
    · refine Entries.toList_eq hlength fun i hi => ?_
      have hi' := hnew i hi
      rwa [Nat.zero_add] at hi'

/-- The array is sorted, and keeps one entry of those that compare equal. -/
theorem Consistent.sortAndRemoveDuplicates_spec (h : a.Consistent) (he : e.Lawful)
    (hcompare : IsCompare pfnCompare)
    (alloc : Option (Nat → α)) : ∃ a', a.sortAndRemoveDuplicates e pfnCompare alloc = some a' ∧
      a'.Consistent ∧
      SameSettings a a' ∧ IsUnique pfnCompare a.content a'.content := by
  obtain ⟨a₁, hsort, h₁, hsettings₁, hcontent₁⟩ := h.sort_spec he hcompare
  have hperm : a₁.content.Perm a.content := hcontent₁ ▸ he.perm _ hcompare _
  have hsorted : a₁.content.Pairwise fun x y => pfnCompare x y ≤ 0 :=
    hcontent₁ ▸ he.sorted _ hcompare _
  suffices hloop : ∃ rg' pEntryUnique, unique pfnCompare a₁.m_centry 0 0 a₁.rgentry =
      some (rg', pEntryUnique) ∧
      rg'.centry = a₁.rgentry.centry ∧
      ∀ a₂ : CArray α, a₂.content =
        (({ a₁ with m_rgentry := a₁.m_rgentry.map fun _ => rg' } : CArray α).content.take
        (min a₁.m_centry (pEntryUnique + 1))) → IsUnique pfnCompare a₁.content a₂.content by
    obtain ⟨rg', pEntryUnique, hunique, hcentry, hkept⟩ := hloop
    obtain ⟨a₂, hsize, h₂, hsettings₂, hcontent₂⟩ := (h₁.setEntries hcentry).errSetSize_of_le
      (show min a₁.m_centry (pEntryUnique + 1) ≤ a₁.m_centry from Nat.min_le_left _ _) alloc
    refine ⟨a₂, ?_, h₂, hsettings₁.trans ⟨hsettings₂.1, hsettings₂.2, hsettings₂.3⟩,
      (hkept a₂ hcontent₂).perm hperm⟩
    rw [sortAndRemoveDuplicates, hsort]
    simp only [Option.bind_eq_bind, Option.bind_some, hunique, hsize]
    rfl
  cases hlist : a₁.content with
  | nil =>
    have hsize : a₁.m_centry = 0 := by rw [← length_content, hlist, List.length_nil]
    rw [hsize]
    refine ⟨a₁.rgentry, 0, rfl, rfl, fun a₂ hcontent => ?_⟩
    rw [hcontent, Nat.zero_min, List.take_zero]
    exact ⟨List.Pairwise.nil, fun _ hx => hx, fun _ hx => absurd hx List.not_mem_nil⟩
  | cons x rest =>
    have hsize : a₁.m_centry = (x :: rest).length := by rw [← length_content, hlist]
    have hentry : ∀ i (hi : i < (x :: rest).length), a₁.rgentry.rgentry i = (x :: rest)[i] := by
      intro i hi
      rw [← Entries.getElem_toList (by rw [Entries.length_toList]; exact hi)]
      exact List.getElem_of_eq (hsize ▸ hlist) _
    obtain ⟨rg', pEntryUnique, hunique, hcentry, hkept⟩ :=
      unique_spec hcompare.refl (x :: rest) 0 0 a₁.rgentry le_rfl
      (by rw [h₁.capacity, Nat.zero_add, ← hsize]; exact h₁.size_le)
      (fun i hi => (congrArg a₁.rgentry.rgentry (Nat.zero_add i)).trans (hentry i hi))
    -- the first entry compares equal to itself
    have hfirst : a₁.rgentry.rgentry 0 = x := hentry 0 (Nat.zero_lt_succ _)
    rw [hfirst, kept, List.destutter'_cons_neg _ (not_not.2 (hcompare.refl x))] at hkept
    have hle : pEntryUnique + 1 ≤ (x :: rest).length := by
      have hsublist :=
        List.destutter'_sublist rest (fun entryUnique entry => pfnCompare entryUnique entry ≠ 0) x
      have hlength := congrArg List.length hkept
      rw [Entries.length_toList] at hlength
      exact hlength.trans_le hsublist.length_le
    refine ⟨rg', pEntryUnique, hsize ▸ hunique, hcentry, fun a₂ hcontent => ?_⟩
    rw [h₁.m_rgentry_eq (by rw [hsize, List.length_cons]; exact Nat.succ_ne_zero _)] at hcontent
    rw [hcontent, content, Nat.min_eq_right (hle.trans_eq hsize.symm)]
    show IsUnique pfnCompare (x :: rest) ((rg'.toList a₁.m_centry).take (pEntryUnique + 1))
    rw [Entries.toList_take (hle.trans_eq hsize.symm), hkept]
    exact hcompare.isUnique_kept (hlist ▸ hsorted)

end

end

/-! ## Refinement -/

section
variable {a a' : CArray α} {e : Entry α} {call : Call α}

/-- An entry is one of the content. -/
theorem Consistent.entry_eq (h : a.Consistent) (ientry : Nat) :
    a.entry ientry = a.content[ientry]? := by
  rcases Nat.lt_or_ge ientry a.m_centry with hlt | hge
  · have hbound : ientry < a.rgentry.centry := by
      rw [h.capacity]
      exact hlt.trans_le h.size_le
    rw [List.getElem?_eq_getElem (hlt.trans_eq length_content.symm), entry, pEntry, if_pos hlt]
    exact (Entries.read_eq hbound).trans (congrArg some (Entries.getElem_toList _).symm)
  · rw [List.getElem?_eq_none (length_content.trans_le hge), entry, pEntry,
      if_neg (Nat.not_lt.2 hge)]
    rfl

/-- Data of whole entries has one, if it is not empty. -/
theorem Entry.Lawful.length_div_pos (he : e.Lawful) {rgbData : List Byte} (hdata : rgbData ≠ [])
    (hwhole : rgbData.length % e.cb = 0) : 0 < rgbData.length / e.cb :=
  Nat.div_pos (Nat.le_of_dvd (List.length_pos_of_ne_nil hdata) (Nat.dvd_of_mod_eq_zero hwhole))
    he.cb_pos

/-- The data has as many entries as asked for. -/
theorem Entry.length_ofData (rgbData : List Byte) (n : Nat) : (e.ofData rgbData n).length = n := by
  induction n generalizing rgbData with
  | zero => rfl
  | succ n ih => rw [ofData, List.length_cons, ih]

/-- In the reference a load adds the entries of the data. -/
theorem Reference.length_loadEntries {l l' : List α} {default default' : Option α}
    {rgbData : List Byte}
    {alloc : Option (Nat → α)}
    (h : Reference e (l, default) (.loadEntries rgbData alloc) .errSuccess (l', default')) :
    l'.length = l.length + rgbData.length / e.cb := by
  cases h with
  | loadEntries hwhole => rw [List.length_append, Entry.length_ofData]

/-- With the capacity the entries are put behind those there are. -/
theorem errLoadEntries_success {a₁ : CArray α} {rgbData : List Byte} {alloc : Option (Nat → α)}
    (hwhole : rgbData.length % e.cb = 0)
    (hcapacity : a.errSetCapacity (sizeT (rgbData.length / e.cb + a.m_centry)) alloc =
      some (a₁, .errSuccess)) :
    a.errLoadEntries e rgbData alloc =
      (Entries.load a₁.m_centry (e.ofData rgbData (rgbData.length / e.cb)) a₁.rgentry).map
        fun rgentry =>
        ({ a₁ with m_rgentry := a₁.m_rgentry.map fun _ => rgentry }, .errSuccess) := by
  rw [errLoadEntries, if_neg (not_not.2 hwhole)]
  simp only [hcapacity, Option.bind_eq_bind, Option.bind_some]
  cases Entries.load a₁.m_centry (e.ofData rgbData (rgbData.length / e.cb)) a₁.rgentry <;> rfl

/-- Without the capacity nothing is loaded. -/
theorem errLoadEntries_outOfMemory {rgbData : List Byte} {alloc : Option (Nat → α)}
    (hwhole : rgbData.length % e.cb = 0)
    (hcapacity : a.errSetCapacity (sizeT (rgbData.length / e.cb + a.m_centry)) alloc =
      some (a, .errOutOfMemory)) :
    a.errLoadEntries e rgbData alloc = some (a, .errOutOfMemory) := by
  rw [errLoadEntries, if_neg (not_not.2 hwhole)]
  simp only [hcapacity, Option.bind_eq_bind, Option.bind_some]
  rfl

/-- In the reference data is refused if it is not of whole entries. -/
theorem Reference.not_whole {l l' : List α} {default default' : Option α} {rgbData : List Byte}
    {alloc : Option (Nat → α)}
    (h : Reference e (l, default) (.loadEntries rgbData alloc) .errInvalidData (l', default')) :
    rgbData.length % e.cb ≠ 0 := by
  cases h with
  | invalidData hpart => exact hpart

/-- The entries are copied behind the last one, but the size stays. -/
theorem Consistent.length_loadEntries (h : a.Consistent) {rgbData : List Byte}
    {alloc : Option (Nat → α)}
    (hwhole : rgbData.length % e.cb = 0)
      (hload : a.errLoadEntries e rgbData alloc = some (a', .errSuccess)) :
    a'.content.length ≤ a.content.length := by
  obtain ⟨⟨a₁, err⟩, hcapacity, houtcome, -, -⟩ := h.errSetCapacity_spec
    (sizeT (rgbData.length / e.cb + a.m_centry)) (Nat.le_of_lt_succ (Nat.mod_lt _ (by decide)))
    alloc
  cases houtcome with
  | outOfMemory hnone =>
    rw [errLoadEntries_outOfMemory hwhole hcapacity] at hload
    exact absurd (congrArg Prod.snd (Option.some.inj hload)) ERR.noConfusion
  | success h₁ hsettings hcontent =>
    rw [errLoadEntries_success hwhole hcapacity] at hload
    obtain ⟨rg', -, hload⟩ := Option.map_eq_some_iff.1 hload
    obtain rfl := congrArg Prod.fst hload
    have hle : a₁.m_centry ≤ a.content.length := by
      rw [← length_content, hcontent, List.length_take]
      exact Nat.min_le_right _ _
    exact length_content.trans_le hle

/-- Loading no entries leaves the array with its size for a capacity. -/
theorem Consistent.loadEntries_nil (h : a.Consistent) (alloc : Option (Nat → α)) :
    (∃ a', a.errLoadEntries e [] alloc = some (a', .errSuccess) ∧ a'.Consistent ∧
      SameSettings a a' ∧
      a'.content = a.content) ∨ (a.errLoadEntries e [] alloc = some (a, .errOutOfMemory) ∧
        alloc = none) := by
  have hmax := h.size_le.trans h.capacity_le
  have hcentries : sizeT (([] : List Byte).length / e.cb + a.m_centry) = a.m_centry := by
    rw [SIZE_MAX] at hmax
    rw [List.length_nil, Nat.zero_div, Nat.zero_add, sizeT]
    omega
  obtain ⟨⟨a', err⟩, hcapacity, houtcome, -, -⟩ := h.errSetCapacity_spec a.m_centry hmax alloc
  rw [← hcentries] at hcapacity
  cases houtcome with
  | outOfMemory hnone => exact .inr ⟨errLoadEntries_outOfMemory (Nat.zero_mod _) hcapacity, hnone⟩
  | success h' hsettings hcontent =>
    rw [List.take_of_length_le length_content.le] at hcontent
    refine .inl ⟨a', ?_, h', hsettings, hcontent⟩
    rw [errLoadEntries_success (Nat.zero_mod _) hcapacity, List.length_nil, Nat.zero_div,
      Entry.ofData, Entries.load,
      Option.map_some, a'.map_rgentry]

/-- What a call with the condition does to a consistent array. -/
theorem Consistent.apply_spec (h : a.Consistent) (he : e.Lawful) (htyped : call.Typed)
    (hserved : Served a e call) :
    ∃ a' err, a.apply e call = some (a', err) ∧ a'.Consistent ∧
      Reference e (a.content, a.default) call err (a'.content, a'.default) := by
  cases call with
  | setSize centry alloc =>
    obtain ⟨⟨a', err⟩, hsize, houtcome⟩ := h.errSetSize_spec centry htyped alloc
    refine ⟨a', err, hsize, ?_⟩
    cases houtcome with
    | outOfMemory hnone => exact ⟨h, .outOfMemory (congrArg some hnone)⟩
    | success h' hsettings hcontent =>
      obtain ⟨l', hl', hlength, hcontent⟩ := hcontent
      rw [hcontent, hsettings.default]
      exact ⟨h', .setSize l' hl' (hlength.trans (congrArg _ length_content.symm))⟩
  | setCapacity centryMax alloc =>
    obtain ⟨⟨a', err⟩, hcapacity, houtcome, -, -⟩ := h.errSetCapacity_spec centryMax htyped alloc
    refine ⟨a', err, hcapacity, ?_⟩
    cases houtcome with
    | outOfMemory hnone => exact ⟨h, .outOfMemory (congrArg some hnone)⟩
    | success h' hsettings hcontent =>
      rw [hcontent, hsettings.default]
      exact ⟨h', .setCapacity⟩
  | setEntry ientry entry alloc =>
    obtain ⟨⟨a', err⟩, hset, houtcome⟩ :=
      h.errSetEntry_spec entry (lt_of_le_of_ne htyped hserved) alloc
    refine ⟨a', err, hset, ?_⟩
    cases houtcome with
    | outOfMemory hnone => exact ⟨h, .outOfMemory (congrArg some hnone)⟩
    | success h' hsettings hcontent =>
      obtain ⟨l', hl', hlength, hcontent⟩ := hcontent
      rw [hcontent, hsettings.default]
      exact ⟨h', .setEntry l' hl' (hlength.trans (congrArg _ length_content.symm))⟩
  | clone array alloc =>
    rcases errClone_spec (a := a) htyped alloc with ⟨a', hclone, h', hsettings, hcontent⟩ |
      ⟨hclone, hnone⟩
    · refine ⟨a', .errSuccess, hclone, h', ?_⟩
      rw [hcontent, hsettings.default]
      exact .clone
    · exact ⟨a, .errOutOfMemory, hclone, h, .outOfMemory (congrArg some hnone)⟩
  | loadEntries rgbData alloc =>
    rcases hserved with rfl | hpart | ⟨rfl, hdiffer, hzero⟩
    · rcases h.loadEntries_nil (e := e) alloc with ⟨a', hload, h', hsettings, hcontent⟩ |
        ⟨hload, hnone⟩
      · refine ⟨a', .errSuccess, hload, h', ?_⟩
        have hreference : Reference e (a.content, a.default) (.loadEntries [] alloc) .errSuccess
            (a.content ++ e.ofData [] (([] : List Byte).length / e.cb), a.default) :=
              .loadEntries (Nat.zero_mod _)
        rw [List.length_nil, Nat.zero_div, Entry.ofData, List.append_nil] at hreference
        rwa [hcontent, hsettings.default]
      · exact ⟨a, .errOutOfMemory, hload, h, .outOfMemory (congrArg some hnone)⟩
    · exact ⟨a, .errInvalidData, if_pos hpart, h, .invalidData hpart⟩
    · -- the allocation of the larger capacity fails
      by_cases hwhole : rgbData.length % e.cb = 0
      · refine ⟨a, .errOutOfMemory, errLoadEntries_outOfMemory hwhole ?_, h, .outOfMemory rfl⟩
        rw [errSetCapacity, if_pos hdiffer.symm, if_pos hzero]
        rfl
      · exact ⟨a, .errInvalidData, if_pos hwhole, h, .invalidData hwhole⟩
  | sortAndRemoveDuplicates pfnCompare alloc =>
    obtain ⟨a', hsort, h', hsettings, hunique⟩ := h.sortAndRemoveDuplicates_spec he htyped alloc
    refine ⟨a', .errSuccess, ?_, h', ?_⟩
    · rw [apply, hsort]
      rfl
    · rw [hsettings.default]
      exact .sortAndRemoveDuplicates _ hunique
  | setCapacityGrowth centryGrowth =>
    refine ⟨_, .errSuccess, rfl, ⟨h.size_le, h.capacity, h.capacity_le, ?_, ?_⟩, .setCapacityGrowth⟩
    · show 0 < if centryGrowth = 0 then 1 else centryGrowth
      split_ifs <;> omega
    · show (if centryGrowth = 0 then 1 else centryGrowth) ≤ SIZE_MAX
      split_ifs
      · decide
      · exact htyped
  | setEntryDefault entry =>
    obtain ⟨h', hcontent⟩ := h.setEntryDefault_spec entry
    refine ⟨_, .errSuccess, rfl, h', ?_⟩
    rw [hcontent]
    exact .setEntryDefault

/-- The entry at the last index of the type has no place: the pointer to it is null. -/
theorem Consistent.errSetEntry_last (h : a.Consistent) (entry : α) (alloc : Option (Nat → α)) :
    a.errSetEntry SIZE_MAX entry alloc = none := by
  have hle := h.size_le.trans h.capacity_le
  rw [errSetEntry, show sizeT (SIZE_MAX + 1) = 0 from rfl, if_neg (Nat.not_lt_zero _), pEntry,
    if_neg (Nat.not_lt.2 hle)]
  rfl

/-- Exactly the calls with the condition do what a list does. -/
theorem Consistent.served_iff (h : a.Consistent) (he : e.Lawful) (htyped : call.Typed) :
    (∃ a' err, a.apply e call = some (a', err) ∧ Reference e (a.content, a.default) call err
      (a'.content, a'.default)) ↔
      Served a e call := by
  constructor
  · rintro ⟨a', err, hcall, hreference⟩
    cases call with
    | setEntry ientry entry alloc =>
      rintro rfl
      exact absurd ((h.errSetEntry_last entry alloc).symm.trans hcall).symm (Option.some_ne_none _)
    | loadEntries rgbData alloc =>
      by_contra hserved
      rw [Served, not_or, not_or, not_not] at hserved
      obtain ⟨hdata, hwhole, hfits⟩ := hserved
      cases err with
      | errSuccess =>
        have hpos := he.length_div_pos hdata hwhole
        have hmore := hreference.length_loadEntries
        have hsame := h.length_loadEntries hwhole hcall
        omega
      | errOutOfMemory =>
        obtain ⟨⟨a₁, err⟩, hcapacity, houtcome, -, hfail⟩ := h.errSetCapacity_spec
          (sizeT (rgbData.length / e.cb + a.m_centry))
          (Nat.le_of_lt_succ (Nat.mod_lt _ (by decide))) alloc
        cases houtcome with
        | outOfMemory hnone => exact hfits ⟨hnone, hfail rfl⟩
        | success h₁ hsettings hcontent =>
          rw [apply, errLoadEntries_success hwhole hcapacity] at hcall
          obtain ⟨rg', -, hcall⟩ := Option.map_eq_some_iff.1 hcall
          exact absurd (congrArg Prod.snd hcall) ERR.noConfusion
      | errInvalidData => exact hreference.not_whole hwhole
    | _ => trivial
  · intro hserved
    obtain ⟨a', err, hcall, -, hreference⟩ := h.apply_spec he htyped hserved
    exact ⟨a', err, hcall, hreference⟩

/-- An array that a constructor makes. -/
theorem init_consistent {centryGrowth : Nat} (hgrowth : centryGrowth ≤ SIZE_MAX) (entry : α) :
    (init centryGrowth entry).Consistent := by
  refine ⟨le_rfl, rfl, Nat.zero_le _, ?_, ?_⟩
  · show 0 < if centryGrowth = 0 then 1 else centryGrowth
    split_ifs <;> omega
  · show (if centryGrowth = 0 then 1 else centryGrowth) ≤ SIZE_MAX
    split_ifs
    · decide
    · exact hgrowth

/-- The steps of a list with a default entry. -/
def RefStep (e : Entry α) (step : Call α × ERR) (s s' : List α × Option α) : Prop :=
  Reference e s step.1 step.2 s'

/-- A run of calls with the condition is a run of the list, from the empty one. -/
theorem run_spec (he : e.Lawful) {centryGrowth : Nat} (hgrowth : centryGrowth ≤ SIZE_MAX)
    {entry : α}
    {steps : List (Call α × ERR)}
    (hrun : Run (fun step a a' => Served a e step.1 ∧ Step e step a a')
      (init centryGrowth entry) steps a) :
    a.Consistent ∧ Run (RefStep e) ([], none) steps (a.content, a.default) := by
  induction hrun with
  | refl => exact ⟨init_consistent hgrowth entry, .refl _⟩
  | snoc _ hstep ih =>
    obtain ⟨hserved, htyped, hcall⟩ := hstep
    obtain ⟨hconsistent, hreference⟩ := ih
    obtain ⟨a', err, hcall', h', hstep⟩ := hconsistent.apply_spec he htyped hserved
    obtain ⟨rfl, rfl⟩ := Prod.mk.inj (Option.some.inj (hcall'.symm.trans hcall))
    exact ⟨h', .snoc hreference hstep⟩

/-- However the calls are mixed, as long as no entry is set at the last index of the type and no
entries are loaded, the entries are those of a list that makes the calls, the size is within the
capacity, and every further call returns. -/
theorem run_refines (he : e.Lawful) {centryGrowth : Nat} (hgrowth : centryGrowth ≤ SIZE_MAX)
    {entry : α}
    {steps : List (Call α × ERR)}
    (hrun : Run (fun step a a' => Served a e step.1 ∧ Step e step a a')
      (init centryGrowth entry) steps a) :
    ∃ l default, Run (RefStep e) ([], none) steps (l, default) ∧ a.m_centry = l.length ∧
      (∀ i, a.entry i = l[i]?) ∧
      a.m_centry ≤ a.m_centryMax ∧
      ∀ call : Call α, call.Typed → Served a e call → ∃ a' err, a.apply e call =
        some (a', err) := by
  obtain ⟨hconsistent, hreference⟩ := run_spec he hgrowth hrun
  refine ⟨a.content, a.default, hreference, length_content.symm, hconsistent.entry_eq,
    hconsistent.size_le, ?_⟩
  intro call htyped hserved
  obtain ⟨a', err, hcall, -, -⟩ := hconsistent.apply_spec he htyped hserved
  exact ⟨a', err, hcall⟩

/-- Entries that are bytes, and an insertion sort. -/
def Entry.byte : Entry Byte where
  cb := 1
  ofBytes rgb := rgb.headD 0
  qsort pfnCompare l := l.insertionSort fun x y => pfnCompare x y ≤ 0

/-- Bytes are entries of one byte. -/
theorem Entry.byte_lawful : Entry.byte.Lawful := by
  refine ⟨Nat.one_pos, fun _ _ l => List.perm_insertionSort _ l, fun pfnCompare h l => ?_⟩
  have : Std.Total fun x y => pfnCompare x y ≤ 0 := ⟨fun x y => by have hswap := h.swap y x; omega⟩
  have : IsTrans Byte fun x y => pfnCompare x y ≤ 0 := ⟨h.trans⟩
  exact List.pairwise_insertionSort _ l

/-- The comparison of two bytes. -/
def compareByte (x y : Byte) : Int := x.toNat - y.toNat

/-- The comparison of bytes is one. -/
theorem isCompare_compareByte : IsCompare compareByte :=
  ⟨fun x y => by rw [compareByte, compareByte]; omega,
    fun x y z => by rw [compareByte, compareByte, compareByte]; omega⟩

/-- An array of two default entries is set behind its end, sorted, and finds no memory for a larger
capacity. -/
def byteSteps : List (Call Byte × ERR) :=
  [(.setEntryDefault 7, .errSuccess), (.setSize 2 (some fun _ => 0), .errSuccess),
    (.setEntry 3 5 (some fun _ => 0), .errSuccess),
    (.sortAndRemoveDuplicates compareByte none, .errSuccess),
    (.setCapacity 8 none, .errOutOfMemory)]

theorem byteSteps_run :
    ∃ a, Run (fun step a a' => Served a Entry.byte step.1 ∧ Step Entry.byte step a a')
      (init 4 0) byteSteps a ∧
      a.m_centry = 2 ∧ a.entry 0 = some 5 ∧ a.entry 1 = some 7 := by
  have hsize : (Call.setSize 2 (some fun _ => (0 : Byte))).Typed := show 2 ≤ SIZE_MAX by decide
  have hentry : (Call.setEntry 3 (5 : Byte) (some fun _ => 0)).Typed := show 3 ≤ SIZE_MAX by decide
  have hcapacity : (Call.setCapacity 8 none : Call Byte).Typed := show 8 ≤ SIZE_MAX by decide
  have hserved (a : CArray Byte) : Served a Entry.byte (.setEntry 3 5 (some fun _ => 0)) :=
    show 3 ≠ SIZE_MAX by decide
  exact ⟨_, .snoc (.snoc
    (.snoc (.snoc (.snoc (.refl _) ⟨trivial, trivial, rfl⟩) ⟨trivial, hsize, rfl⟩)
    ⟨hserved _, hentry, rfl⟩) ⟨trivial, isCompare_compareByte, rfl⟩) ⟨trivial, hcapacity, rfl⟩, rfl,
    rfl, rfl⟩

/-- The list that goes through these steps ends with the two entries. -/
theorem run_refines_byte : ∃ l default, Run (RefStep Entry.byte) ([], none) byteSteps (l, default) ∧
    l.length = 2 ∧
    l[0]? = some 5 ∧ l[1]? = some 7 := by
  obtain ⟨a, hrun, hsize, h₀, h₁⟩ := byteSteps_run
  obtain ⟨l, default, hreference, hlength, hentry, -, -⟩ :=
    run_refines Entry.byte_lawful (show 4 ≤ SIZE_MAX by decide) hrun
  exact ⟨l, default, hreference, hlength ▸ hsize, hentry 0 ▸ h₀, hentry 1 ▸ h₁⟩

/-- The one byte that is loaded with success is not in the array. -/
theorem errLoadEntries_lost :
    ∃ a : CArray Byte, (init 4 0).errLoadEntries Entry.byte [5] (some fun _ => 0) =
      some (a, .errSuccess) ∧
      a.m_centry = 0 ∧ a.entry 0 = none ∧
      ¬ Reference Entry.byte ([], none) (.loadEntries [5] (some fun _ => 0)) .errSuccess
        (a.content, a.default) := by
  refine ⟨_, rfl, rfl, rfl, fun hreference => ?_⟩
  have hlength := hreference.length_loadEntries
  exact absurd hlength (by decide)

end

end CArray

end Ese
