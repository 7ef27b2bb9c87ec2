import Ese.Lib.Block
import Ese.Lib.Run

/-!
# The queue

`CStupidQueue` is a ring of `m_cAlloc` elements of `m_cbElement` bytes in one block of the heap. The
entries stand behind `m_iHead` up to `m_iTail`; one element stays free, so that a full ring is told
from an empty one. A full ring is copied to a block of twice the size, and what had wrapped round to
its start is moved behind its old end. Sizes and indices are 32-bit. A copy through a null pointer
or past the end of the block is `none`.
-/

namespace Ese

/-- The error codes of `CStupidQueue`. -/
inductive CStupidQueue.ERR
  | errSuccess | errInvalidParameter | errOutOfMemory | wrnEmptyQueue
  deriving DecidableEq, Repr

/-- The value of a `DWORD` expression. -/
def dword (x : Nat) : Nat := x % 4294967296

structure CStupidQueue where
  m_cbElement : Nat
  m_iHead : Nat
  m_iTail : Nat
  m_cAlloc : Nat
  m_rg : Option Block

namespace CStupidQueue

/-- `CStupidQueue::CStupidQueue`. -/
def init (cbElement : Nat) : CStupidQueue := ⟨cbElement, 0, 0, 0, none⟩

variable (q : CStupidQueue)

/-- The offset of an element in the block. -/
def pvElement (iElement : Nat) : Nat := dword (iElement * q.m_cbElement)

/-- The growth factor. -/
def mGrowth : Nat := 2

def errAdjustSize (alloc : Option Mem) : Option (CStupidQueue × ERR) :=
  let cNew := dword (q.m_cAlloc * mGrowth)
  match malloc (dword (q.m_cbElement * cNew)) alloc with
  | none => some (q, .errOutOfMemory)
  | some rgNew => do
    let rg ← q.m_rg
    let rgbOld ← rg.read 0 (dword (q.m_cAlloc * q.m_cbElement))
    let rgNew ← rgNew.write 0 rgbOld
    guard (cNew / mGrowth ≠ 0)
    let iT := dword (q.m_iTail + 1) % (cNew / mGrowth)
    if iT ≠ 0 then
      -- what had wrapped round goes behind the old end
      let rgbFront ← rgNew.read (q.pvElement 0) (dword (iT * q.m_cbElement))
      let rgNew ← rgNew.write (q.pvElement (cNew / mGrowth)) rgbFront
      return ({ q with m_cAlloc := cNew, m_rg := some rgNew,
                       m_iTail := dword (cNew / mGrowth + q.m_iTail) },
        .errSuccess)
    else
      return ({ q with m_cAlloc := cNew, m_rg := some rgNew }, .errSuccess)

/-- The first allocation of `ErrEnqueue`: the capacity is set before its outcome is known. -/
def errFirstAlloc (alloc : Option Mem) : CStupidQueue × ERR :=
  if q.m_cAlloc = 0 then
    let q := { q with m_cAlloc := 32 }
    match malloc (dword (q.m_cbElement * q.m_cAlloc)) alloc with
    | none => ({ q with m_rg := none }, .errOutOfMemory)
    | some rg => ({ q with m_rg := some rg }, .errSuccess)
  else (q, .errSuccess)

/-- The ring is full: the element behind the tail is the head. -/
def FFull : Prop := q.m_iHead = dword (q.m_iTail + 1) % q.m_cAlloc

instance : Decidable q.FFull := inferInstanceAs (Decidable (_ = _))

/-- The tail steps on and the element there is written. -/
def enqueueEntry (pvEntry : Mem) : Option (CStupidQueue × ERR) := do
  let q := { q with m_iTail := dword (q.m_iTail + 1) % q.m_cAlloc }
  let rg ← q.m_rg
  let rg ← rg.write (q.pvElement q.m_iTail) (pvEntry.read 0 q.m_cbElement)
  return ({ q with m_rg := some rg }, .errSuccess)

def errEnqueue (pvEntry : Mem) (alloc : Option Mem) : Option (CStupidQueue × ERR) :=
  match q.errFirstAlloc alloc with
  | (q, .errSuccess) =>
    if q.FFull then do
      match ← q.errAdjustSize alloc with
      | (q, .errSuccess) => q.enqueueEntry pvEntry
      | failed => return failed
    else q.enqueueEntry pvEntry
  | failed => some failed

/-- `ErrPeek`: the error and the bytes stored through `pvEntry`. -/
def errPeek : Option (ERR × List Byte) :=
  if q.m_iHead = q.m_iTail then some (.wrnEmptyQueue, [])
  else do
    guard (q.m_cAlloc ≠ 0)
    let iPeek := dword (q.m_iHead + 1) % q.m_cAlloc
    let rg ← q.m_rg
    let rgb ← rg.read (q.pvElement iPeek) q.m_cbElement
    return (.errSuccess, rgb)

def errDequeue : Option (CStupidQueue × ERR × List Byte) := do
  match ← q.errPeek with
  | (.errSuccess, rgb) => return ({ q with m_iHead := dword (q.m_iHead + 1) % q.m_cAlloc },
    .errSuccess, rgb)
  | failed => return (q, failed)

/-! ## Runs -/

/-- A call, with what the heap has to give to it. -/
inductive Call
  | enqueue (pvEntry : Mem) (alloc : Option Mem)
  | peek
  | dequeue

/-- What a call returns, with the bytes it stores for its caller. -/
abbrev Ret := ERR × List Byte

def apply : Call → Option (CStupidQueue × Ret)
  | .enqueue pvEntry alloc => do
    let (q, err) ← q.errEnqueue pvEntry alloc
    return (q, err, [])
  | .peek => do
    let ret ← q.errPeek
    return (q, ret)
  | .dequeue => q.errDequeue

/-! ## The contents -/

/-- The number of entries. -/
def cEntries : Nat :=
  if q.m_cAlloc = 0 then 0 else (q.m_iTail + q.m_cAlloc - q.m_iHead) % q.m_cAlloc

/-- The bytes of an entry, counted from the head. -/
def entry (i : Nat) : List Byte :=
  match q.m_rg with
  | none => []
  | some rg => rg.rgb.read ((q.m_iHead + 1 + i) % q.m_cAlloc * q.m_cbElement) q.m_cbElement

/-- What the queue holds, first the entry that is dequeued next. -/
def content : List (List Byte) := (List.range q.cEntries).map q.entry

/-- A queue with a capacity has a block, and the head and the tail are elements of it. -/
structure Consistent : Prop where
  rg : q.m_cAlloc ≠ 0 → q.m_rg.isSome = true
  head : q.m_cAlloc ≠ 0 → q.m_iHead < q.m_cAlloc
  tail : q.m_cAlloc ≠ 0 → q.m_iTail < q.m_cAlloc

/-- What a first-in first-out queue of entries of `cbElement` bytes may return for a call, and what
it holds then. -/
inductive Fifo (cbElement : Nat) : List (List Byte) → Call → Ret → List (List Byte) → Prop
  | enqueue (l : List (List Byte)) (pvEntry : Mem) (alloc : Option Mem) :
      Fifo cbElement l (.enqueue pvEntry alloc) (.errSuccess, []) (l ++ [pvEntry.read 0 cbElement])
  | outOfMemory (l : List (List Byte)) (pvEntry : Mem) :
      Fifo cbElement l (.enqueue pvEntry none) (.errOutOfMemory, []) l
  | peek (rgb : List Byte) (l : List (List Byte)) :
    Fifo cbElement (rgb :: l) .peek (.errSuccess, rgb) (rgb :: l)
  | peekEmpty : Fifo cbElement [] .peek (.wrnEmptyQueue, []) []
  | dequeue (rgb : List Byte) (l : List (List Byte)) : Fifo cbElement (rgb :: l) .dequeue
    (.errSuccess, rgb) l
  | dequeueEmpty : Fifo cbElement [] .dequeue (.wrnEmptyQueue, []) []

/-- The first allocation succeeds, and what is allocated has a size of 32 bits. -/
def Served : Call → Prop
  | .enqueue _ alloc =>
    (q.m_cAlloc = 0 → alloc.isSome = true ∧ q.m_cbElement * 32 < 4294967296) ∧
    (q.m_cAlloc ≠ 0 → q.FFull → alloc.isSome = true →
      q.m_cAlloc * 2 < 4294967296 ∧ q.m_cbElement * (q.m_cAlloc * 2) < 4294967296)
  | _ => True

instance : ∀ call, Decidable (q.Served call)
  | .enqueue _ _ => inferInstanceAs (Decidable (_ ∧ _))
  | .peek => inferInstanceAs (Decidable True)
  | .dequeue => inferInstanceAs (Decidable True)

/-! ## The ring -/

/-- A queue with its block. -/
structure Ring (rg : Block) : Prop where
  block : q.m_rg = some rg
  cb : rg.cb = q.m_cAlloc * q.m_cbElement
  cb_lt : q.m_cAlloc * q.m_cbElement < 4294967296
  cAlloc_lt : q.m_cAlloc < 4294967296
  head : q.m_iHead < q.m_cAlloc
  tail : q.m_iTail < q.m_cAlloc

/-- The entries stand behind the head, and the last of them is the tail. -/
structure Holds (l : List (List Byte)) : Prop where
  length : l.length < q.m_cAlloc
  tail : (q.m_iHead + l.length) % q.m_cAlloc = q.m_iTail
  entry : ∀ i (h : i < l.length), q.entry i = l[i]

theorem mod_of_lt_two {x c : Nat} (h : x < 2 * c) : x % c = if x < c then x else x - c := by
  split_ifs with hx
  · exact Nat.mod_eq_of_lt hx
  · rw [Nat.mod_eq_sub_mod (by omega), Nat.mod_eq_of_lt (by omega)]

theorem mul_add_le {i c n : Nat} (h : i < c) : i * n + n ≤ c * n := by
  calc i * n + n = (i + 1) * n := (Nat.succ_mul i n).symm
    _ ≤ c * n := Nat.mul_le_mul_right n h

section
variable {q} {rg : Block} {l : List (List Byte)} {i : Nat}

theorem Ring.pvElement_eq (h : q.Ring rg) (hi : i < q.m_cAlloc) :
    q.pvElement i = i * q.m_cbElement := by
  have := mul_add_le (n := q.m_cbElement) hi
  have := h.cb_lt
  exact Nat.mod_eq_of_lt (by omega)

theorem Ring.entry_eq (h : q.Ring rg) :
    q.entry i = rg.rgb.read ((q.m_iHead + 1 + i) % q.m_cAlloc * q.m_cbElement) q.m_cbElement := by
  rw [CStupidQueue.entry, h.block]

theorem Ring.dword_succ (h : q.Ring rg) (hi : i < q.m_cAlloc) : dword (i + 1) = i + 1 := by
  have := h.cAlloc_lt
  exact Nat.mod_eq_of_lt (by omega)

theorem Ring.content_eq (h : q.Ring rg) (hl : q.Holds l) : q.content = l := by
  have hhead := h.head
  have hlen := hl.length
  have hcount : q.cEntries = l.length := by
    rw [cEntries, if_neg (by omega), ← hl.tail, mod_of_lt_two (x := q.m_iHead + l.length)
      (by omega)]
    split_ifs
    · rw [mod_of_lt_two (by omega), if_neg (by omega)]
      omega
    · rw [Nat.mod_eq_of_lt (by omega)]
      omega
  apply List.ext_getElem
  · simp [content, hcount]
  · intro i _ hi
    simp only [content, List.getElem_map, List.getElem_range]
    exact hl.entry i hi

theorem Ring.full_iff (h : q.Ring rg) (hl : q.Holds l) : q.FFull ↔ l.length + 1 = q.m_cAlloc := by
  have hhead := h.head
  have hlen := hl.length
  rw [FFull, h.dword_succ h.tail, ← hl.tail, mod_of_lt_two (x := q.m_iHead + l.length) (by omega)]
  split_ifs
  · rw [mod_of_lt_two (by omega)]
    split_ifs <;> omega
  · rw [Nat.mod_eq_of_lt (by omega)]
    omega

/-! ## The operations -/

/-- An entry is written behind the tail of a ring that is not full. -/
theorem Ring.enqueueEntry_spec (h : q.Ring rg) (hl : q.Holds l) (hfull : ¬ q.FFull)
    (pvEntry : Mem) :
    ∃ q' rg', q.enqueueEntry pvEntry = some (q', .errSuccess) ∧ q'.m_cbElement = q.m_cbElement ∧
      q'.Ring rg' ∧
      q'.Holds (l ++ [pvEntry.read 0 q.m_cbElement]) := by
  have hhead := h.head
  have hlen := hl.length
  have hroom : l.length + 1 < q.m_cAlloc := by
    rw [h.full_iff hl] at hfull
    omega
  -- the element behind the tail
  have htail : dword (q.m_iTail + 1) % q.m_cAlloc = (q.m_iHead + (l.length + 1)) % q.m_cAlloc := by
    rw [h.dword_succ h.tail, ← hl.tail, ← Nat.add_assoc, Nat.mod_add_mod]
  have hlt : (q.m_iHead + (l.length + 1)) % q.m_cAlloc < q.m_cAlloc := Nat.mod_lt _ (by omega)
  set iTail := (q.m_iHead + (l.length + 1)) % q.m_cAlloc with hiTail
  have hpv := h.pvElement_eq hlt
  have hend := mul_add_le (n := q.m_cbElement) hlt
  have hwrite : rg.write (q.pvElement iTail) (pvEntry.read 0 q.m_cbElement)
      = some { rg with rgb := rg.rgb.write (iTail * q.m_cbElement) (pvEntry.read 0
        q.m_cbElement) } := by
    rw [hpv]
    exact Block.write_eq (by rw [Mem.length_read, h.cb]; exact hend)
  set rg' : Block :=
    { rg with rgb := rg.rgb.write (iTail * q.m_cbElement) (pvEntry.read 0 q.m_cbElement) } with hrg'
  refine ⟨{ q with m_iTail := iTail, m_rg := some rg' }, rg', ?_, rfl,
    ⟨rfl, h.cb, h.cb_lt, h.cAlloc_lt, h.head, hlt⟩, ?_, ?_, ?_⟩
  · unfold enqueueEntry
    have hsame : ({ q with m_iTail := iTail, m_rg := some rg } : CStupidQueue).pvElement iTail =
      q.pvElement iTail := rfl
    simp only [htail, h.block, Option.bind_eq_bind, Option.bind_some, hsame, hwrite]
    rfl
  · rw [List.length_append, List.length_singleton]
    exact hroom
  · rw [List.length_append, List.length_singleton]
  · intro i hi
    rw [List.length_append, List.length_singleton] at hi
    show rg'.rgb.read ((q.m_iHead + 1 + i) % q.m_cAlloc * q.m_cbElement) q.m_cbElement = _
    rcases Nat.lt_or_ge i l.length with hold | hnew
    · -- the other entries stand in other elements
      rw [List.getElem_append_left hold, ← hl.entry i hold, h.entry_eq, hrg']
      have hne : (q.m_iHead + 1 + i) % q.m_cAlloc ≠ iTail := by
        rw [hiTail, mod_of_lt_two (x := q.m_iHead + 1 + i) (by omega),
          mod_of_lt_two (x := q.m_iHead + (l.length + 1))
          (by omega)]
        split_ifs <;> omega
      refine Mem.read_write_disjoint _ _ ?_
      rw [Mem.length_read]
      rcases Nat.lt_or_gt_of_ne hne with hlt' | hgt
      · exact .inl (mul_add_le hlt')
      · exact .inr (mul_add_le hgt)
    · obtain rfl : i = l.length := by omega
      rw [List.getElem_concat_length rfl, hrg']
      have hsame : (q.m_iHead + 1 + l.length) % q.m_cAlloc = iTail := by
        rw [hiTail]
        congr 1
        omega
      rw [hsame]
      have := Mem.read_write_same rg.rgb (iTail * q.m_cbElement) (pvEntry.read 0 q.m_cbElement)
      rwa [Mem.length_read] at this

/-- A ring with its entries in a block of twice the size: they stand behind the head without
wrapping round. -/
theorem Ring.moved (h : q.Ring rg) (hl : q.Holds l) (hcAlloc : q.m_cAlloc * 2 < 4294967296)
    (hcb : q.m_cbElement * (q.m_cAlloc * 2) < 4294967296) (rgb : Mem)
    (hrgb : ∀ i (hi : i < l.length), rgb.read ((q.m_iHead + 1 + i) * q.m_cbElement) q.m_cbElement =
      l[i]) :
    ∃ q', q' = { q with
        m_cAlloc := q.m_cAlloc * 2
        m_rg := some ⟨q.m_cbElement * (q.m_cAlloc * 2), rgb⟩
        m_iTail := q.m_iHead + l.length } ∧
      q'.Ring ⟨q.m_cbElement * (q.m_cAlloc * 2), rgb⟩ ∧ q'.Holds l ∧ ¬ q'.FFull := by
  have hhead := h.head
  have hlen := hl.length
  have hring : Ring { q with
        m_cAlloc := q.m_cAlloc * 2
        m_rg := some ⟨q.m_cbElement * (q.m_cAlloc * 2), rgb⟩
        m_iTail := q.m_iHead + l.length } ⟨q.m_cbElement * (q.m_cAlloc * 2), rgb⟩ :=
    ⟨rfl, Nat.mul_comm _ _, (Nat.mul_comm _ _).trans_lt hcb, hcAlloc, show q.m_iHead <
      q.m_cAlloc * 2 by omega,
      show q.m_iHead + l.length < q.m_cAlloc * 2 by omega⟩
  have hholds : Holds { q with
        m_cAlloc := q.m_cAlloc * 2
        m_rg := some ⟨q.m_cbElement * (q.m_cAlloc * 2), rgb⟩
        m_iTail := q.m_iHead + l.length } l := by
    refine ⟨show l.length < q.m_cAlloc * 2 by omega,
      Nat.mod_eq_of_lt (show q.m_iHead + l.length < q.m_cAlloc * 2 by omega), ?_⟩
    intro i hi
    rw [hring.entry_eq]
    show rgb.read ((q.m_iHead + 1 + i) % (q.m_cAlloc * 2) * q.m_cbElement) q.m_cbElement = _
    rw [Nat.mod_eq_of_lt (by omega)]
    exact hrgb i hi
  refine ⟨_, rfl, hring, hholds, ?_⟩
  rw [hring.full_iff hholds]
  show l.length + 1 ≠ q.m_cAlloc * 2
  omega

/-- A full ring is moved to a block of twice the size. -/
theorem Ring.errAdjustSize_spec (h : q.Ring rg) (hl : q.Holds l) (hfull : q.FFull) (alloc : Mem)
    (hcAlloc : q.m_cAlloc * 2 < 4294967296) (hcb : q.m_cbElement * (q.m_cAlloc * 2) < 4294967296) :
    ∃ q' rg', q.errAdjustSize (some alloc) = some (q', .errSuccess) ∧
      q'.m_cbElement = q.m_cbElement ∧ q'.Ring rg' ∧
      q'.Holds l ∧ ¬ q'.FFull := by
  have hhead := h.head
  have hlen := (h.full_iff hl).1 hfull
  have hiT : dword (q.m_iTail + 1) % q.m_cAlloc = q.m_iHead := hfull.symm
  have hcNew : dword (q.m_cAlloc * mGrowth) = q.m_cAlloc * 2 := Nat.mod_eq_of_lt hcAlloc
  have hhalf : q.m_cAlloc * 2 / mGrowth = q.m_cAlloc := Nat.mul_div_cancel _ (by decide)
  have hcbNew : dword (q.m_cbElement * (q.m_cAlloc * 2)) = q.m_cbElement * (q.m_cAlloc * 2) :=
    Nat.mod_eq_of_lt hcb
  have hcbOld : dword (q.m_cAlloc * q.m_cbElement) = q.m_cAlloc * q.m_cbElement :=
    Nat.mod_eq_of_lt h.cb_lt
  have hsize : q.m_cAlloc * q.m_cbElement + q.m_cAlloc * q.m_cbElement =
    q.m_cbElement * (q.m_cAlloc * 2) := by ring
  have hread : rg.read 0 (q.m_cAlloc * q.m_cbElement) =
    some (rg.rgb.read 0 (q.m_cAlloc * q.m_cbElement)) :=
    Block.read_eq (by rw [h.cb, Nat.zero_add])
  -- the old block at the start of the new one
  set rgb := alloc.write 0 (rg.rgb.read 0 (q.m_cAlloc * q.m_cbElement)) with hrgb
  have hwrite : (⟨q.m_cbElement * (q.m_cAlloc * 2), alloc⟩ : Block).write 0
      (rg.rgb.read 0 (q.m_cAlloc * q.m_cbElement)) = some ⟨q.m_cbElement * (q.m_cAlloc * 2), rgb⟩ :=
    Block.write_eq (by rw [Mem.length_read]; show 0 + _ ≤ q.m_cbElement * (q.m_cAlloc * 2); omega)
  have hold {x : Nat} (hx : x < q.m_cAlloc) :
      rgb.read (x * q.m_cbElement) q.m_cbElement = rg.rgb.read
        (x * q.m_cbElement) q.m_cbElement := by
    have := Mem.read_write_read alloc rg.rgb (a := 0) (b := 0) (mul_add_le (n := q.m_cbElement) hx)
    rwa [Nat.zero_add] at this
  have hentry (i : Nat) (hi : i < l.length) :
      rg.rgb.read ((if q.m_iHead + 1 + i < q.m_cAlloc then q.m_iHead + 1 + i
        else q.m_iHead + 1 + i - q.m_cAlloc)
        * q.m_cbElement) q.m_cbElement = l[i] := by
    rw [← hl.entry i hi, h.entry_eq, mod_of_lt_two (by omega)]
  have hguard : (guard (q.m_cAlloc ≠ 0) : Option Unit) = some () := if_pos (by omega)
  unfold errAdjustSize malloc
  simp only [hcNew, hcbNew, Option.map_some, h.block, hcbOld, hread, hwrite, Option.bind_eq_bind,
    Option.bind_some,
    hhalf, hiT, hguard]
  rcases Nat.eq_zero_or_pos q.m_iHead with h0 | h0
  · -- nothing had wrapped round
    have htail : q.m_iTail = q.m_iHead + l.length := by
      rw [← hl.tail, Nat.mod_eq_of_lt (by omega)]
    obtain ⟨q', hq', hring, hholds, hroom⟩ := h.moved hl hcAlloc hcb rgb fun i hi => by
      rw [hold (by omega), ← hentry i hi, if_pos (by omega)]
    refine ⟨q', _, ?_, by rw [hq'], hring, hholds, hroom⟩
    rw [if_neg (not_not.2 h0), hq', htail]
    rfl
  · -- the entries from the start of the old block follow its end
    have htail : q.m_iTail = q.m_iHead + l.length - q.m_cAlloc := by
      rw [← hl.tail, mod_of_lt_two (by omega), if_neg (by omega)]
    have htail' : dword (q.m_cAlloc + q.m_iTail) = q.m_iHead + l.length := by
      rw [htail, dword, Nat.mod_eq_of_lt (by omega)]
      omega
    have hcbFront : dword (q.m_iHead * q.m_cbElement) = q.m_iHead * q.m_cbElement :=
      h.pvElement_eq hhead
    have hfront : q.m_iHead * q.m_cbElement + q.m_cbElement ≤ q.m_cAlloc * q.m_cbElement :=
      mul_add_le hhead
    have hzero : q.pvElement 0 = 0 := by rw [h.pvElement_eq (by omega), Nat.zero_mul]
    have hend : q.pvElement q.m_cAlloc = q.m_cAlloc * q.m_cbElement := hcbOld
    have hreadFront : (⟨q.m_cbElement * (q.m_cAlloc * 2), rgb⟩ : Block).read 0
        (q.m_iHead * q.m_cbElement)
        = some (rgb.read 0 (q.m_iHead * q.m_cbElement)) :=
      Block.read_eq (show 0 + _ ≤ q.m_cbElement * (q.m_cAlloc * 2) by omega)
    have hwriteFront : (⟨q.m_cbElement * (q.m_cAlloc * 2), rgb⟩ : Block).write
        (q.m_cAlloc * q.m_cbElement)
        (rgb.read 0 (q.m_iHead * q.m_cbElement)) = some ⟨q.m_cbElement * (q.m_cAlloc * 2),
          rgb.write (q.m_cAlloc * q.m_cbElement) (rgb.read 0 (q.m_iHead * q.m_cbElement))⟩ :=
      Block.write_eq (by rw [Mem.length_read]; show _ ≤ q.m_cbElement * (q.m_cAlloc * 2); omega)
    obtain ⟨q', hq', hring, hholds, hroom⟩ := h.moved hl hcAlloc hcb
        (rgb.write (q.m_cAlloc * q.m_cbElement) (rgb.read 0 (q.m_iHead * q.m_cbElement)))
          fun i hi => by
      rcases Nat.lt_or_ge (q.m_iHead + 1 + i) q.m_cAlloc with hlt | hge
      · rw [Mem.read_write_disjoint _ _ (.inl (mul_add_le hlt)), hold hlt, ← hentry i hi,
          if_pos hlt]
      · obtain ⟨x, hx⟩ := Nat.exists_eq_add_of_le hge
        have hlt : x < q.m_iHead := by omega
        rw [hx, Nat.add_mul, Mem.read_write_read _ _ (mul_add_le hlt), Nat.zero_add,
          hold (by omega), ← hentry i hi,
          if_neg (by omega), hx, Nat.add_sub_cancel_left]
    refine ⟨q', _, ?_, by rw [hq'], hring, hholds, hroom⟩
    rw [if_pos (show q.m_iHead ≠ 0 by omega), hzero, hcbFront, hreadFront, hend]
    simp only [Option.bind_some, hwriteFront, htail']
    rw [hq']
    rfl

/-- The first block of a queue is an empty ring. -/
theorem errFirstAlloc_spec (hcAlloc : q.m_cAlloc = 0) (hhead : q.m_iHead = 0)
    (htail : q.m_iTail = 0) (alloc : Mem)
    (hcb : q.m_cbElement * 32 < 4294967296) :
    ∃ q' rg', q.errFirstAlloc (some alloc) = (q', .errSuccess) ∧ q'.m_cbElement = q.m_cbElement ∧
      q'.Ring rg' ∧
      q'.Holds [] := by
  have hsize : dword (q.m_cbElement * 32) = q.m_cbElement * 32 := Nat.mod_eq_of_lt hcb
  refine ⟨{ q with m_cAlloc := 32, m_rg := some ⟨q.m_cbElement * 32, alloc⟩ },
    ⟨q.m_cbElement * 32, alloc⟩, ?_, rfl,
    ⟨rfl, Nat.mul_comm _ _, (Nat.mul_comm _ _).trans_lt hcb, (by decide : 32 < 4294967296), ?_, ?_⟩,
    ?_⟩
  · rw [errFirstAlloc, if_pos hcAlloc]
    simp only [malloc, hsize, Option.map_some]
  · exact hhead.trans_lt (Nat.succ_pos 31)
  · exact htail.trans_lt (Nat.succ_pos 31)
  · refine ⟨(by decide : 0 < 32), ?_, fun i hi => absurd hi (Nat.not_lt_zero i)⟩
    show (q.m_iHead + 0) % 32 = q.m_iTail
    rw [hhead, htail]

/-- What the peek at a queue returns. -/
def front : List (List Byte) → Ret
  | [] => (.wrnEmptyQueue, [])
  | rgb :: _ => (.errSuccess, rgb)

/-- The first entry stands behind the head, and a ring with entries is not empty. -/
theorem Ring.errPeek_spec (h : q.Ring rg) (hl : q.Holds l) :
    q.errPeek = some (front l) := by
  have hhead := h.head
  have hlen := hl.length
  have htail := hl.tail
  cases l with
  | nil =>
    rw [List.length_nil, Nat.add_zero, Nat.mod_eq_of_lt hhead] at htail
    rw [errPeek, if_pos htail]
    rfl
  | cons rgb l =>
    rw [List.length_cons] at hlen htail
    have hne : q.m_iHead ≠ q.m_iTail := by
      rw [← htail, mod_of_lt_two (by omega)]
      split_ifs <;> omega
    have hlt : (q.m_iHead + 1) % q.m_cAlloc < q.m_cAlloc := Nat.mod_lt _ (by omega)
    have hentry := hl.entry 0 (Nat.zero_lt_succ _)
    rw [h.entry_eq, Nat.add_zero, List.getElem_cons_zero] at hentry
    have hread : rg.read (q.pvElement ((q.m_iHead + 1) % q.m_cAlloc)) q.m_cbElement = some rgb := by
      rw [h.pvElement_eq hlt, Block.read_eq (by rw [h.cb]; exact mul_add_le hlt), hentry]
    have hguard : (guard (q.m_cAlloc ≠ 0) : Option Unit) = some () := if_pos (by omega)
    rw [errPeek, if_neg hne]
    simp only [hguard, h.dword_succ hhead, h.block, Option.bind_eq_bind, Option.bind_some, hread]
    rfl

/-- A ring without its first entry. -/
theorem Ring.dequeued (h : q.Ring rg) {rgb : List Byte} (hl : q.Holds (rgb :: l)) :
    Ring { q with m_iHead := dword (q.m_iHead + 1) % q.m_cAlloc } rg ∧
      Holds { q with m_iHead := dword (q.m_iHead + 1) % q.m_cAlloc } l := by
  have hlen := hl.length
  rw [List.length_cons] at hlen
  have hlt : (q.m_iHead + 1) % q.m_cAlloc < q.m_cAlloc := Nat.mod_lt _ (by omega)
  rw [h.dword_succ h.head]
  have hring : Ring { q with m_iHead := (q.m_iHead + 1) % q.m_cAlloc } rg :=
    ⟨h.block, h.cb, h.cb_lt, h.cAlloc_lt, hlt, h.tail⟩
  refine ⟨hring, show l.length < q.m_cAlloc by omega, ?_, fun i hi => ?_⟩
  · show ((q.m_iHead + 1) % q.m_cAlloc + l.length) % q.m_cAlloc = q.m_iTail
    rw [Nat.mod_add_mod, ← hl.tail, List.length_cons, Nat.add_assoc, Nat.add_comm 1]
  · have hnext := hl.entry (i + 1) (Nat.succ_lt_succ hi)
    rw [h.entry_eq, List.getElem_cons_succ] at hnext
    rw [← hnext, hring.entry_eq]
    show rg.rgb.read (((q.m_iHead + 1) % q.m_cAlloc + 1 + i) % q.m_cAlloc * q.m_cbElement)
      q.m_cbElement = _
    rw [Nat.add_assoc ((q.m_iHead + 1) % q.m_cAlloc), Nat.mod_add_mod, Nat.add_comm 1 i,
      Nat.add_assoc]

/-! ## Runs of served calls -/

/-- A queue before its first allocation, or one with its ring. -/
def Inv (q : CStupidQueue) (l : List (List Byte)) : Prop :=
  (q.m_cAlloc = 0 ∧ q.m_iHead = 0 ∧ q.m_iTail = 0 ∧ l = []) ∨ ∃ rg, q.Ring rg ∧ q.Holds l

theorem Inv.content_eq (h : q.Inv l) : q.content = l := by
  obtain ⟨hcAlloc, -, -, rfl⟩ | ⟨rg, hring, hl⟩ := h
  · rw [content, cEntries, if_pos hcAlloc]
    rfl
  · exact hring.content_eq hl

theorem Inv.consistent (h : q.Inv l) : q.Consistent := by
  obtain ⟨hcAlloc, -⟩ | ⟨rg, hring, -⟩ := h
  · exact ⟨fun h => absurd hcAlloc h, fun h => absurd hcAlloc h, fun h => absurd hcAlloc h⟩
  · exact ⟨fun _ => by rw [hring.block]; rfl, fun _ => hring.head, fun _ => hring.tail⟩

/-- What a call of a queue may do: what a first-in first-out queue does, and nothing when an
allocation fails. -/
structure Does (q : CStupidQueue) (l : List (List Byte)) (call : Call) (q' : CStupidQueue)
    (ret : Ret)
    (l' : List (List Byte)) : Prop where
  cbElement : q'.m_cbElement = q.m_cbElement
  inv : q'.Inv l'
  fifo : Fifo q.m_cbElement l call ret l'
  outOfMemory : ret.1 = .errOutOfMemory → q' = q

/-- An entry is appended once there is a ring with room for it. -/
theorem Ring.does_enqueue {q₀ : CStupidQueue} (h : q.Ring rg) (hl : q.Holds l) (hfull : ¬ q.FFull)
    (hcb : q.m_cbElement = q₀.m_cbElement) (pvEntry : Mem) (alloc : Option Mem) :
    ∃ q' l', q.enqueueEntry pvEntry = some (q', .errSuccess) ∧
      q₀.Does l (.enqueue pvEntry alloc) q' (.errSuccess, []) l' := by
  obtain ⟨q', rg', henq, hcb', hring, hholds⟩ := h.enqueueEntry_spec hl hfull pvEntry
  refine ⟨q', _, henq, hcb'.trans hcb, .inr ⟨rg', hring, hholds⟩, ?_, fun h => absurd h (by simp)⟩
  rw [hcb]
  exact .enqueue l pvEntry alloc

theorem Inv.errEnqueue_spec (h : q.Inv l) (pvEntry : Mem) (alloc : Option Mem)
    (hserved : q.Served (.enqueue pvEntry alloc)) :
    ∃ q' err l', q.errEnqueue pvEntry alloc = some (q', err) ∧ q.Does l (.enqueue pvEntry alloc) q'
      (err, []) l' := by
  obtain ⟨hfirst, hgrowth⟩ := hserved
  obtain ⟨hcAlloc, hhead, htail, rfl⟩ | ⟨rg, hring, hl⟩ := h
  · obtain ⟨halloc, hcb⟩ := hfirst hcAlloc
    obtain ⟨alloc, rfl⟩ := Option.isSome_iff_exists.1 halloc
    obtain ⟨q₁, rg₁, halloc₁, hcb₁, hring₁, hl₁⟩ := errFirstAlloc_spec hcAlloc hhead htail alloc hcb
    have hcAlloc₁ : q₁.m_cAlloc = 32 := by
      have := congrArg (fun r => r.1.m_cAlloc) halloc₁
      rw [errFirstAlloc, if_pos hcAlloc] at this
      exact this.symm
    have hroom : ¬ q₁.FFull := by
      rw [hring₁.full_iff hl₁, hcAlloc₁]
      simp
    obtain ⟨q', l', henq, hdoes⟩ := hring₁.does_enqueue hl₁ hroom hcb₁ pvEntry (some alloc)
    refine ⟨q', _, l', ?_, hdoes⟩
    simp only [errEnqueue, halloc₁, if_neg hroom, henq]
  · have hcAlloc : q.m_cAlloc ≠ 0 := by
      have := hring.head
      omega
    have hnone : q.errFirstAlloc alloc = (q, .errSuccess) := if_neg hcAlloc
    simp only [errEnqueue, hnone]
    rcases Decidable.em q.FFull with hfull | hroom
    · rw [if_pos hfull]
      cases alloc with
      | none => exact ⟨q, _, l, rfl, rfl, .inr ⟨rg, hring, hl⟩, .outOfMemory l pvEntry, fun _ =>
        rfl⟩
      | some alloc =>
        obtain ⟨hcAlloc', hcb'⟩ := hgrowth hcAlloc hfull rfl
        obtain ⟨q₁, rg₁, hadjust, hcb₁, hring₁, hl₁, hroom₁⟩ :=
          hring.errAdjustSize_spec hl hfull alloc hcAlloc' hcb'
        obtain ⟨q', l', henq, hdoes⟩ := hring₁.does_enqueue hl₁ hroom₁ hcb₁ pvEntry (some alloc)
        refine ⟨q', _, l', ?_, hdoes⟩
        simp only [hadjust, Option.bind_eq_bind, Option.bind_some, henq]
    · rw [if_neg hroom]
      obtain ⟨q', l', henq, hdoes⟩ := hring.does_enqueue hl hroom rfl pvEntry alloc
      exact ⟨q', _, l', henq, hdoes⟩

/-- A queue before its first allocation is empty. -/
theorem errPeek_empty (h : q.m_iHead = q.m_iTail) : q.errPeek = some (.wrnEmptyQueue, []) :=
  if_pos h

/-- A served call does what the call of a first-in first-out queue does. -/
theorem Inv.apply_spec (h : q.Inv l) (call : Call) (hserved : q.Served call) :
    ∃ q' ret l', q.apply call = some (q', ret) ∧ q.Does l call q' ret l' := by
  cases call with
  | enqueue pvEntry alloc =>
    obtain ⟨q', err, l', henq, hdoes⟩ := h.errEnqueue_spec pvEntry alloc hserved
    refine ⟨q', _, l', ?_, hdoes⟩
    simp only [apply, henq, Option.bind_eq_bind, Option.bind_some]
    rfl
  | peek =>
    obtain ⟨-, hhead, htail, rfl⟩ | ⟨rg, hring, hl⟩ := id h
    · refine ⟨q, _, [], ?_, rfl, h, .peekEmpty, fun _ => rfl⟩
      simp only [apply, errPeek_empty (hhead.trans htail.symm), Option.bind_eq_bind,
        Option.bind_some]
      rfl
    · have hpeek : q.apply .peek = some (q, front l) := by
        simp only [apply, hring.errPeek_spec hl, Option.bind_eq_bind, Option.bind_some]
        rfl
      cases l with
      | nil => exact ⟨q, _, [], hpeek, rfl, h, .peekEmpty, fun _ => rfl⟩
      | cons rgb l => exact ⟨q, _, rgb :: l, hpeek, rfl, h, .peek rgb l, fun h =>
        absurd h (by simp [front])⟩
  | dequeue =>
    obtain ⟨-, hhead, htail, rfl⟩ | ⟨rg, hring, hl⟩ := id h
    · refine ⟨q, _, [], ?_, rfl, h, .dequeueEmpty, fun _ => rfl⟩
      simp only [apply, errDequeue, errPeek_empty (hhead.trans htail.symm), Option.bind_eq_bind,
        Option.bind_some]
      rfl
    · cases l with
      | nil =>
        refine ⟨q, _, [], ?_, rfl, h, .dequeueEmpty, fun _ => rfl⟩
        simp only [apply, errDequeue, hring.errPeek_spec hl, Option.bind_eq_bind, Option.bind_some]
        rfl
      | cons rgb l =>
        obtain ⟨hring', hl'⟩ := hring.dequeued hl
        refine ⟨{ q with m_iHead := dword (q.m_iHead + 1) % q.m_cAlloc }, _, l, ?_, rfl,
          .inr ⟨rg, hring', hl'⟩,
          .dequeue rgb l, fun h => absurd h (by simp)⟩
        simp only [apply, errDequeue, hring.errPeek_spec hl, Option.bind_eq_bind, Option.bind_some]
        rfl

end

/-- A served call that returns. -/
def Step (step : Call × Ret) (q q' : CStupidQueue) : Prop :=
  q.Served step.1 ∧ q.apply step.1 = some (q', step.2)

/-- The entries that were enqueued, in order. -/
def enqueued (cbElement : Nat) (steps : List (Call × Ret)) : List (List Byte) :=
  steps.filterMap fun
    | (.enqueue pvEntry _, .errSuccess, _) => some (pvEntry.read 0 cbElement)
    | _ => none

/-- The entries that were dequeued, in order. -/
def dequeued (steps : List (Call × Ret)) : List (List Byte) :=
  steps.filterMap fun
    | (.dequeue, .errSuccess, rgb) => some rgb
    | _ => none

/-- What a call of a first-in first-out queue moves in and out. -/
theorem Fifo.balance {cbElement : Nat} {l l' : List (List Byte)} {call : Call} {ret : Ret}
    (h : Fifo cbElement l call ret l') :
    l ++ enqueued cbElement [(call, ret)] = dequeued [(call, ret)] ++ l' := by
  cases h with
  | enqueue | outOfMemory | peek | peekEmpty | dequeue | dequeueEmpty => simp [enqueued, dequeued]

/-- Every run of served calls ends in a queue with its invariant, whose entries are what was
enqueued and not dequeued. -/
theorem run_inv {cbElement : Nat} {steps : List (Call × Ret)} {q : CStupidQueue}
    (hrun : Run Step (init cbElement) steps q) :
    q.m_cbElement = cbElement ∧ ∃ l, q.Inv l ∧ enqueued cbElement steps = dequeued steps ++ l := by
  generalize hinit : init cbElement = q₀ at hrun
  induction hrun with
  | refl =>
    subst hinit
    exact ⟨rfl, [], .inl ⟨rfl, rfl, rfl, rfl⟩, rfl⟩
  | @snoc q q' steps step _ hstep ih =>
    obtain ⟨hcb, l, hinv, hsteps⟩ := ih
    obtain ⟨hserved, happly⟩ := hstep
    obtain ⟨q'', ret, l', happly', hdoes⟩ := hinv.apply_spec step.1 hserved
    obtain ⟨rfl, hret⟩ : q'' = q' ∧ ret = step.2 := by
      rw [happly] at happly'
      exact ⟨(congrArg Prod.fst (Option.some.inj happly')).symm,
        (congrArg Prod.snd (Option.some.inj happly')).symm⟩
    have hbalance := hdoes.fifo.balance
    rw [hret, hcb] at hbalance
    refine ⟨hdoes.cbElement.trans hcb, l', hdoes.inv, ?_⟩
    calc enqueued cbElement (steps ++ [step])
        = enqueued cbElement steps ++ enqueued cbElement [step] := List.filterMap_append
      _ = dequeued steps ++ (l ++ enqueued cbElement [step]) := by rw [hsteps, List.append_assoc]
      _ = dequeued (steps ++ [step]) ++ l' := by
        rw [hbalance, ← List.append_assoc]
        exact congrArg (· ++ l') List.filterMap_append.symm

/-- In every run of served calls the queue stays consistent and has dequeued, in order, the first of
what was enqueued and holds the others; and it goes on so: every call that is served returns, does
what a first-in first-out queue does, and changes nothing where it is out of memory. -/
theorem run_fifo {cbElement : Nat} {steps : List (Call × Ret)} {q : CStupidQueue}
    (hrun : Run Step (init cbElement) steps q) :
    q.Consistent ∧ enqueued cbElement steps = dequeued steps ++ q.content ∧
      ∀ call, q.Served call → ∃ q' ret, q.apply call = some (q', ret) ∧ q'.Consistent ∧
        Fifo cbElement q.content call ret q'.content ∧ (ret.1 = .errOutOfMemory → q' = q) := by
  obtain ⟨hcb, l, hinv, hsteps⟩ := run_inv hrun
  rw [hinv.content_eq]
  refine ⟨hinv.consistent, hsteps, fun call hserved => ?_⟩
  obtain ⟨q', ret, l', happly, hdoes⟩ := hinv.apply_spec call hserved
  refine ⟨q', ret, happly, hdoes.inv.consistent, ?_, hdoes.outOfMemory⟩
  rw [hdoes.inv.content_eq, ← hcb]
  exact hdoes.fifo

/-- The step of a call, if it is served and returns what the label says. -/
def stepM (q : CStupidQueue) (step : Call × Ret) : Option CStupidQueue :=
  if q.Served step.1 then (q.apply step.1).bind fun r => if r.2 = step.2 then some r.1 else none
  else none

theorem step_of_stepM (step : Call × Ret) (q q' : CStupidQueue) (h : q.stepM step = some q') :
    Step step q q' := by
  unfold stepM at h
  split_ifs at h with hserved
  obtain ⟨r, happly, h⟩ := Option.bind_eq_some_iff.1 h
  split_ifs at h with hret
  obtain rfl := Option.some.inj h
  exact ⟨hserved, happly.trans (by rw [← hret])⟩

/-- The enqueue of one byte, which may be refused by the heap. -/
def enqueueByte (err : ERR) (b : Nat) : Call × Ret :=
  (.enqueue (fun _ => BitVec.ofNat 8 b) (if err = .errSuccess then some fun _ => 0 else none), err,
    [])

/-- The ring is filled; five bytes are dequeued and five enqueued, so that the tail goes round; the
next byte finds no memory for a larger ring, then it does; one more byte is dequeued. -/
def growthSteps : List (Call × Ret) :=
  (List.range 31).map (enqueueByte .errSuccess) ++
    (List.range 5).map (fun b => (.dequeue, .errSuccess, [BitVec.ofNat 8 b])) ++
    (List.range' 31 5).map (enqueueByte .errSuccess) ++
    [enqueueByte .errOutOfMemory 36, enqueueByte .errSuccess 36, (.dequeue, .errSuccess, [5])]

/-- A run that grows a ring whose entries go round holds what was not dequeued, in order. -/
theorem run_fifo_enqueue :
    ∃ q, Run Step (init 1) growthSteps q ∧ q.m_iHead = 6 ∧ q.m_iTail = 37 ∧ q.m_cAlloc = 64 ∧
      (List.range' 6 31).map (fun b => [BitVec.ofNat 8 b]) = q.content := by
  obtain ⟨q, hrun, hq⟩ := @Run.exists_of_foldlM _ _ Step stepM step_of_stepM growthSteps (init 1)
    (fun q => decide (q.m_iHead = 6 ∧ q.m_iTail = 37 ∧ q.m_cAlloc = 64)) (by decide +kernel)
  obtain ⟨hhead, htail, hcAlloc⟩ := of_decide_eq_true hq
  refine ⟨q, hrun, hhead, htail, hcAlloc, List.append_cancel_left (Eq.trans ?_ (run_fifo hrun).2.1)⟩
  exact (by decide +kernel : dequeued growthSteps ++ (List.range' 6 31).map
    (fun b => [BitVec.ofNat 8 b]) =
    enqueued 1 growthSteps)

/-- The first enqueue that is out of memory leaves a capacity without a block, and the next one
writes through the null pointer. -/
theorem errEnqueue_outOfMemory :
    ∃ q, (init 8).apply (.enqueue (fun _ => 7) none) = some (q, .errOutOfMemory, []) ∧
      (init 8).Consistent ∧
      ¬ q.Consistent ∧ q.apply (.enqueue (fun _ => 7) (some fun _ => 0)) = none := by
  refine ⟨⟨8, 0, 0, 32, none⟩, rfl, ?_, ?_, rfl⟩
  · exact ⟨fun h => absurd rfl h, fun h => absurd rfl h, fun h => absurd rfl h⟩
  · exact fun h => absurd (h.rg (by decide)) (by decide)

end CStupidQueue

end Ese
