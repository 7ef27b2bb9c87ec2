import Mathlib.Data.List.Basic
import Mathlib.Logic.Function.Basic

/-!
# Linked lists in a memory

`Cells deref link c l c'`: from the pointer cell `c`, following the link cell of each element, one
meets the elements `l` and is then at the cell `c'`. In `CellList` the last cell holds the null
pointer. `Linked prev next newer a l newer' a'`: from the element `a`, whose `next` is `newer`,
following `prev`, one meets the elements `l`, whose `next` links lead back, and arrives at `a'`,
whose `next` is to be `newer'`. Both are segments: they append, and a change outside of a segment
leaves it alone.
-/

namespace Ese

universe u v

variable {κ : Type u} {α : Type v}

/-! ## Cells -/

/-- The elements from a cell on, up to a cell. -/
def Cells (deref : κ → α) (link : α → κ) : κ → List α → κ → Prop
  | c, [], c' => c = c'
  | c, a :: l, c' => deref c = a ∧ Cells deref link (link a) l c'

namespace Cells

variable {deref deref' : κ → α} {link : α → κ} {c c' : κ} {l l₁ l₂ : List α} {a : α}

theorem append_iff : Cells deref link c (l₁ ++ l₂) c' ↔ ∃ d, Cells deref link c l₁ d ∧
    Cells deref link d l₂ c' := by
  induction l₁ generalizing c with
  | nil => exact ⟨fun h => ⟨c, rfl, h⟩, fun ⟨_, hd, h⟩ => hd ▸ h⟩
  | cons a l₁ ih =>
    rw [List.cons_append, Cells, ih]
    constructor
    · rintro ⟨ha, d, h₁, h₂⟩
      exact ⟨d, ⟨ha, h₁⟩, h₂⟩
    · rintro ⟨d, ⟨ha, h₁⟩, h₂⟩
      exact ⟨ha, d, h₁, h₂⟩

theorem append (h₁ : Cells deref link c l₁ c') {d : κ} (h₂ : Cells deref link c' l₂ d) :
    Cells deref link c (l₁ ++ l₂) d :=
  append_iff.2 ⟨c', h₁, h₂⟩

/-- The cell after a segment is where it starts, or the link of one of its elements. -/
theorem end_mem (h : Cells deref link c l c') : (l = [] ∧ c' = c) ∨ ∃ a ∈ l, c' = link a := by
  induction l generalizing c with
  | nil => exact .inl ⟨rfl, h.symm⟩
  | cons a l ih =>
    rcases ih h.2 with ⟨-, he⟩ | ⟨b, hb, he⟩
    · exact .inr ⟨a, List.mem_cons_self, he⟩
    · exact .inr ⟨b, List.mem_cons_of_mem _ hb, he⟩

/-- A segment reads its first cell and the links of its elements only. -/
theorem congr (h : Cells deref link c l c') (hc : l ≠ [] → deref' c = deref c)
    (hl : ∀ a ∈ l, link a ≠ c' → deref' (link a) = deref (link a)) (hinj : Function.Injective link)
    (hnd : l.Nodup) : Cells deref' link c l c' := by
  induction l generalizing c with
  | nil => exact h
  | cons a l ih =>
    obtain ⟨ha, hrest⟩ := h
    rw [List.nodup_cons] at hnd
    refine ⟨(hc (List.cons_ne_nil _ _)).trans ha, ih hrest (fun hne => ?_)
      (fun b hb => hl b (List.mem_cons_of_mem _ hb)) hnd.2⟩
    refine hl a List.mem_cons_self fun he => ?_
    rcases hrest.end_mem with ⟨hnil, -⟩ | ⟨b, hb, hend⟩
    · exact hne hnil
    · rw [hend] at he
      exact hnd.1 (hinj he ▸ hb)

end Cells

/-- The elements from a cell on, up to a cell with the null pointer. -/
def CellList (deref : κ → α) (link : α → κ) (nil : α) : κ → List α → Prop
  | c, [] => deref c = nil
  | c, a :: l => deref c = a ∧ CellList deref link nil (link a) l

namespace CellList

variable {deref deref' : κ → α} {link : α → κ} {nil : α} {c c' : κ} {l l₁ l₂ : List α} {a : α}

theorem append_iff : CellList deref link nil c (l₁ ++ l₂)
    ↔ ∃ d, Cells deref link c l₁ d ∧ CellList deref link nil d l₂ := by
  induction l₁ generalizing c with
  | nil => exact ⟨fun h => ⟨c, rfl, h⟩, fun ⟨_, hd, h⟩ => hd ▸ h⟩
  | cons a l₁ ih =>
    rw [List.cons_append, CellList, ih]
    constructor
    · rintro ⟨ha, d, h₁, h₂⟩
      exact ⟨d, ⟨ha, h₁⟩, h₂⟩
    · rintro ⟨d, ⟨ha, h₁⟩, h₂⟩
      exact ⟨ha, d, h₁, h₂⟩

/-- The list goes on from any cell with the same pointer. -/
theorem congr (h : CellList deref link nil c l) (hc : deref' c' = deref c)
    (hl : ∀ a ∈ l, deref' (link a) = deref (link a)) : CellList deref' link nil c' l := by
  induction l generalizing c c' with
  | nil => exact hc.trans h
  | cons a l ih =>
    exact ⟨hc.trans h.1, ih h.2 (hl a List.mem_cons_self) fun b hb =>
      hl b (List.mem_cons_of_mem _ hb)⟩

section
variable {d : κ} (h₁ : Cells deref link c l₁ d) (h₂ : CellList deref link nil (link a) l₂)
  (hinj : Function.Injective link) (hnd : l₁.Nodup) (hc : l₁ ≠ [] → deref' c = deref c)
  (hl₁ : ∀ b ∈ l₁, link b ≠ d → deref' (link b) = deref (link b))
  (hl₂ : ∀ b ∈ l₂, deref' (link b) = deref (link b))
include h₁ h₂ hinj hnd hc hl₁ hl₂

/-- The cell of an element is redirected to one that takes over its link. -/
theorem replace {a' : α} (hd : deref' d = a') (hlink : deref' (link a') = deref (link a)) :
    CellList deref' link nil c (l₁ ++ a' :: l₂) :=
  append_iff.2 ⟨d, h₁.congr hc hl₁ hinj hnd, hd, h₂.congr hlink hl₂⟩

/-- The cell of an element is redirected past it. -/
theorem remove (hd : deref' d = deref (link a)) : CellList deref' link nil c (l₁ ++ l₂) :=
  append_iff.2 ⟨d, h₁.congr hc hl₁ hinj hnd, h₂.congr hd hl₂⟩

end

end CellList

/-! ## Doubly linked segments -/

/-- A doubly linked segment. -/
def Linked (prev next : α → α) : α → α → List α → α → α → Prop
  | newer, s, [], newer', e => newer' = newer ∧ e = s
  | newer, s, a :: l, newer', e => s = a ∧ next a = newer ∧ Linked prev next a (prev a) l newer' e

namespace Linked

variable {prev next prev' next' : α → α} {newer newer' s e : α} {l l₁ l₂ : List α} {a : α}

theorem append_iff : Linked prev next newer s (l₁ ++ l₂) newer' e
    ↔ ∃ n m, Linked prev next newer s l₁ n m ∧ Linked prev next n m l₂ newer' e := by
  induction l₁ generalizing newer s with
  | nil =>
    constructor
    · exact fun h => ⟨newer, s, ⟨rfl, rfl⟩, h⟩
    · rintro ⟨n, m, ⟨rfl, rfl⟩, h⟩
      exact h
  | cons a l₁ ih =>
    rw [List.cons_append, Linked, ih]
    constructor
    · rintro ⟨hs, hn, n, m, h₁, h₂⟩
      exact ⟨n, m, ⟨hs, hn, h₁⟩, h₂⟩
    · rintro ⟨n, m, ⟨hs, hn, h₁⟩, h₂⟩
      exact ⟨hs, hn, n, m, h₁, h₂⟩

theorem append (h₁ : Linked prev next newer s l₁ newer' e) {n m : α}
    (h₂ : Linked prev next newer' e l₂ n m) :
    Linked prev next newer s (l₁ ++ l₂) n m :=
  append_iff.2 ⟨newer', e, h₁, h₂⟩

/-- A segment reads the links of its elements only. -/
theorem congr (h : Linked prev next newer s l newer' e) (hp : ∀ a ∈ l, prev' a = prev a)
    (hn : ∀ a ∈ l, next' a = next a) : Linked prev' next' newer s l newer' e := by
  induction l generalizing newer s with
  | nil => exact h
  | cons a l ih =>
    obtain ⟨hs, hnext, hrest⟩ := h
    refine ⟨hs, (hn a List.mem_cons_self).trans hnext, ?_⟩
    rw [hp a List.mem_cons_self]
    exact ih hrest (fun b hb => hp b (List.mem_cons_of_mem _ hb)) fun b hb =>
      hn b (List.mem_cons_of_mem _ hb)

/-- The last element of a segment, with the segment before it. -/
theorem concat_iff : Linked prev next newer s (l ++ [a]) newer' e
    ↔ newer' = a ∧ prev a = e ∧ ∃ n, next a = n ∧ Linked prev next newer s l n a := by
  rw [append_iff]
  constructor
  · rintro ⟨n, m, h, hm, hn, hnewer, he⟩
    exact ⟨hnewer, he.symm, n, hn, hm ▸ h⟩
  · rintro ⟨hnewer, he, n, hn, h⟩
    exact ⟨n, a, h, rfl, hn, hnewer, he.symm⟩

/-- The end of a segment is redirected: one link of its last element changes. -/
theorem set_end (h : Linked prev next newer s (l ++ [a]) newer' e) {e' : α}
    (ha : prev' a = e') (hp : ∀ b ∈ l, prev' b = prev b) (hn : ∀ b ∈ l ++ [a], next' b = next b) :
    Linked prev' next' newer s (l ++ [a]) a e' := by
  obtain ⟨-, -, n, hna, hl⟩ := concat_iff.1 h
  refine concat_iff.2 ⟨rfl, ha, n, (hn a (by simp)).trans hna, ?_⟩
  exact hl.congr hp fun b hb => hn b (List.mem_append_left _ hb)

/-- The newer side of a segment is redirected: one link of its first element changes. -/
theorem set_newer (h : Linked prev next newer s (a :: l) newer' e) {n : α} (ha : next' a = n)
    (hp : ∀ b ∈ a :: l, prev' b = prev b) (hn : ∀ b ∈ l, next' b = next b) :
    Linked prev' next' n s (a :: l) newer' e := by
  obtain ⟨hs, -, hl⟩ := h
  refine ⟨hs, ha, ?_⟩
  rw [hp a List.mem_cons_self]
  exact hl.congr (fun b hb => hp b (List.mem_cons_of_mem _ hb)) hn

/-- Where a segment begins: its first element, or its end. -/
theorem start_eq (h : Linked prev next newer s l newer' e) : s = l.headD e := by
  cases l with
  | nil => exact h.2.symm
  | cons a l => exact h.1

/-- What follows the element `a` is spliced: its `prev` link leads through `mid` to the segment
`l₂`, whose first element links back. -/
theorem splice {n n' m m' q : α} (h₁ : Linked prev next newer s (l₁ ++ [a]) n m)
    (h₂ : Linked prev next n' m' l₂ newer' e) (mid : List α)
    (hmid : Linked prev' next' a (prev' a) mid q (l₂.headD e))
    (hp₁ : ∀ b ∈ l₁, prev' b = prev b) (hn₁ : ∀ b ∈ l₁ ++ [a], next' b = next b)
    (hp₂ : ∀ b ∈ l₂, prev' b = prev b) (hn₂ : ∀ b ∈ l₂.tail, next' b = next b)
    (hhead : ∀ b ∈ l₂.head?, next' b = q) :
    ∃ newer'', Linked prev' next' newer s (l₁ ++ a :: (mid ++ l₂)) newer'' e := by
  have hfirst := (h₁.set_end rfl hp₁ hn₁).append hmid
  have hassoc : l₁ ++ a :: (mid ++ l₂) = (l₁ ++ [a] ++ mid) ++ l₂ := by simp
  rw [hassoc]
  cases l₂ with
  | nil => exact ⟨q, hfirst.append ⟨rfl, rfl⟩⟩
  | cons b l =>
    have hm : m' = b := h₂.start_eq
    subst hm
    exact ⟨newer', hfirst.append (h₂.set_newer (hhead m' rfl) hp₂ hn₂)⟩

end Linked

end Ese
