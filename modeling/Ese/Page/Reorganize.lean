import Mathlib.Algebra.BigOperators.Group.List.Basic
import Mathlib.Data.List.Pairwise
import Ese.Page.Update

/-!
# Compaction

`Layout` is the invariant of a page: the space equation, the bounds of the lines and their
disjointness. `reorganizeData_` moves every line towards the start of the data area, in the order
of their offsets; sources and destinations overlap, and what keeps a line's bytes from being
overwritten before they are moved is that everything at or past the next line's offset is still
untouched. The loop lemma carries exactly that, and `freeSpace_spec` is what the line operations
use: the lines are the same, the layout holds, and the room asked for is there.
-/

namespace Ese

namespace CPage

variable {p q : CPage} {i j r : Nat}

/-- The bytes of all tags together. -/
def cbLines (p : CPage) : Nat := ((List.range p.itagMicFree).map p.cb).sum

/-- The page invariant. The first `r` tags are reserved: tag 0, the external header, and those
`IAddReservedTag` has added. -/
structure Layout (r : Nat) (p : CPage) : Prop where
  ctagReserved : p.ctagReserved = r
  pos : 1 ≤ r
  reserved : r ≤ p.itagMicFree
  space : p.cbFree + p.cbLines + cbTag * p.itagMicFree = p.cbPageData
  room : p.ibMicFree + cbTag * p.itagMicFree ≤ p.cbPageData
  bounded : ∀ i, i < p.itagMicFree → p.cb i ≠ 0 → p.ib i + p.cb i ≤ p.ibMicFree
  disjoint : ∀ i j, i < p.itagMicFree → j < p.itagMicFree → i ≠ j → p.cb i ≠ 0 → p.cb j ≠ 0 →
    p.ib i + p.cb i ≤ p.ib j ∨ p.ib j + p.cb j ≤ p.ib i

/-- The tag array fits on the page. -/
theorem Layout.tagsFit (h : Layout r p) : p.TagsFit := by
  have := h.space
  unfold TagsFit; omega

/-- The free space begins before the tag array. -/
theorem Layout.ibMicFree_le (h : Layout r p) : p.ibMicFree ≤ p.ibTagArray := by
  have := h.room
  unfold ibTagArray; omega

/-- The tag array begins on the page. -/
theorem ibTagArray_le (p : CPage) : p.ibTagArray ≤ p.cbPageData := Nat.sub_le _ _

/-- Offsets on the page fit into a tag. -/
theorem cbPageData_lt (p : CPage) : p.cbPageData < Tag.ibCbMac p.fSmallFormat :=
  p.size.cbPageData_lt

/-- Sizes on the page fit into a SHORT. -/
theorem cbPageData_lt_short (p : CPage) : p.cbPageData < 32768 := p.size.cbPageData_lt_short

/-- `q` shows the same lines as `p` in the same slots, at whatever offsets. -/
structure SameLines (p q : CPage) : Prop where
  size : q.size = p.size
  itagMicFree : q.itagMicFree = p.itagMicFree
  ctagReserved : q.ctagReserved = p.ctagReserved
  cbFree : q.cbFree = p.cbFree
  line : ∀ j, j < p.itagMicFree → q.getPtr_ j = p.getPtr_ j

/-- A page has its own lines. -/
theorem SameLines.refl (p : CPage) : SameLines p p := ⟨rfl, rfl, rfl, rfl, fun _ _ => rfl⟩

/-- Lines that stay have their sizes. -/
theorem SameLines.cb (h : SameLines p q) (hj : j < p.itagMicFree) : q.cb j = p.cb j := by
  rw [← length_getPtr, h.line j hj, length_getPtr]

/-- Pages with the same lines have the same size. -/
theorem SameLines.cbPageData (h : SameLines p q) : q.cbPageData = p.cbPageData := by
  unfold CPage.cbPageData; rw [h.size]

/-- Pages with the same lines have the same size of lines. -/
theorem SameLines.cbLines (h : SameLines p q) : q.cbLines = p.cbLines := by
  unfold CPage.cbLines
  rw [h.itagMicFree]
  congr 1
  exact List.map_congr_left fun j hj => h.cb (List.mem_range.1 hj)

/-! ## One move -/

/-- The body of the loop of `ReorganizeData_`, past its overlap check. -/
def moveLine (p : CPage) (itag ibDest : Nat) : CPage :=
  CPage.setIb (if p.cb itag ≠ 0 then { p with data := p.data.move ibDest (p.ib itag) (p.cb itag) }
    else p) itag ibDest

/-- Moving a line down changes its offset and the bytes at its destination, and nothing a reader
of the line sees. -/
theorem moveLine_spec (hp : p.TagsFit) (hi : i < p.itagMicFree) {ibDest : Nat}
    (hge : p.cb i ≠ 0 → ibDest ≤ p.ib i) (hend : p.cb i ≠ 0 → p.ib i + p.cb i ≤ p.ibTagArray)
    (hdest : ibDest ≤ p.ibTagArray) :
    Touches p (p.moveLine i ibDest) i ibDest (ibDest + p.cb i) ∧
      (p.moveLine i ibDest).ib i = ibDest ∧ (p.moveLine i ibDest).getPtr_ i = p.getPtr_ i := by
  set p₁ : CPage := if p.cb i ≠ 0 then { p with data := p.data.move ibDest (p.ib i) (p.cb i) }
    else p with hp₁
  have ht₁ : Touches p p₁ i ibDest (ibDest + p.cb i) := by
    rw [hp₁]
    split_ifs with hc
    · exact Touches.of_data hp (fun a _ => Mem.move_apply_of_not_mem _ (by
        have := hge hc; have := hend hc; omega)) (fun a ha => Mem.move_apply_of_not_mem _ ha)
    · exact Touches.refl _ _ _ _
  have htag : p₁.tag i = p.tag i := by
    rw [hp₁]
    split_ifs with hc
    · exact tag_of_data hp hi fun a _ => Mem.move_apply_of_not_mem _ (by
        have := hge hc; have := hend hc; omega)
    · rfl
  have hread : p₁.data.read ibDest (p.cb i) = p.data.read (p.ib i) (p.cb i) := by
    rw [hp₁]
    split_ifs with hc
    · exact Mem.read_move_same _ _ _ _
    · rw [not_not.1 hc]
      rfl
  have hfs := ht₁.fSmallFormat
  have hfit₁ := ht₁.tagsFit hp
  have hi₁ : i < p₁.itagMicFree := by rw [ht₁.itagMicFree]; exact hi
  have hv : ibDest < Tag.ibCbMac p₁.fSmallFormat := by
    have := p.ibTagArray_le
    have := p.cbPageData_lt
    rw [hfs]; omega
  have ht₂ : Touches p₁ (p₁.setIb i ibDest) i ibDest (ibDest + p.cb i) :=
    touches_setIb hfit₁ hi₁ ibDest
  have hib₂ : (p₁.setIb i ibDest).ib i = ibDest := ib_setIb hv
  have hcb₁ : p₁.cb i = p.cb i := by unfold CPage.cb; rw [htag, hfs]
  refine ⟨ht₁.trans ht₂, hib₂, ?_⟩
  show (p₁.setIb i ibDest).getPtr_ i = _
  have hread₂ : (p₁.setIb i ibDest).data.read ibDest (p.cb i) = p₁.data.read ibDest (p.cb i) := by
    refine Mem.read_congr fun a h₁ h₂ => setTag_data _ (.inl ?_)
    have := hfit₁.ibTagArray_le hi₁
    have := ht₁.ibTagArray
    rcases Nat.eq_zero_or_pos (p.cb i) with hz | hz
    · omega
    · have := hge (by omega)
      have := hend (by omega)
      omega
  rw [getPtr_eq, getPtr_eq, hib₂, cb_setIb, hcb₁, hread₂, hread, ht₂.fSmallFormat, hfs]
  unfold Line.ofBytes
  split_ifs with hs
  · rw [tagFlags_setIb (by rw [hfs]; exact hs) hv, htag]
  · rfl

/-- A line that is moved leaves the free space. -/
theorem cbFree_moveLine (p : CPage) (i ibDest : Nat) :
    (p.moveLine i ibDest).cbFree = p.cbFree ∧ (p.moveLine i ibDest).ibMicFree = p.ibMicFree := by
  unfold moveLine
  split_ifs <;> exact ⟨rfl, rfl⟩

/-- The loop moves one line after the other. -/
theorem reorganizeLoop_cons (i : Nat) (rest : List Nat) (ibDest : Nat) (p : CPage)
    (h : p.cb i ≠ 0 → ibDest ≤ p.ib i) :
    reorganizeLoop (i :: rest) ibDest p
      = reorganizeLoop rest (ushort (ibDest + (p.moveLine i ibDest).cb i))
          (p.moveLine i ibDest) := by
  rw [reorganizeLoop, if_neg (by rintro ⟨h₁, h₂⟩; have := h h₁; omega)]
  rfl

/-! ## The loop -/

/-- What the loop needs of the lines still to be moved: they are in offset order, at or past the
destination, and below the tag array. -/
structure Pending (p : CPage) (rest : List Nat) (ibDest : Nat) : Prop where
  nodup : rest.Nodup
  lt : ∀ j ∈ rest, j < p.itagMicFree
  ordered : rest.Pairwise fun j k => p.cb j ≠ 0 → p.cb k ≠ 0 → p.ib j + p.cb j ≤ p.ib k
  ge : ∀ j ∈ rest, p.cb j ≠ 0 → ibDest ≤ p.ib j
  le : ∀ j ∈ rest, p.cb j ≠ 0 → p.ib j + p.cb j ≤ p.ibTagArray
  dest : ibDest ≤ p.ibTagArray

/-- What the loop leaves: the lines of `rest` packed from `ibDest` on, in order, and everything
below `ibDest` and every other tag untouched. -/
structure Packed (p q : CPage) (rest : List Nat) (ibDest ibEnd : Nat) : Prop where
  size : q.size = p.size
  itagMicFree : q.itagMicFree = p.itagMicFree
  ctagReserved : q.ctagReserved = p.ctagReserved
  cbFree : q.cbFree = p.cbFree
  line : ∀ j ∈ rest, q.getPtr_ j = p.getPtr_ j
  tag : ∀ j, j < p.itagMicFree → j ∉ rest → q.tag j = p.tag j
  data : ∀ a, a < ibDest → q.data a = p.data a
  sum : ibEnd = ibDest + (rest.map p.cb).sum
  endLe : ibEnd ≤ p.ibTagArray
  mem : ∀ j ∈ rest, ibDest ≤ q.ib j ∧ q.ib j + q.cb j ≤ ibEnd
  ordered : rest.Pairwise fun j k => q.ib j + q.cb j ≤ q.ib k

/-- **The compaction loop packs the lines.** By induction on the lines still to be moved: the
first goes to `ibDest`, and since it starts at or past `ibDest` the bytes it is moved over end
before the next line starts. -/
theorem reorganizeLoop_spec (rest : List Nat) : ∀ {ibDest : Nat} {p : CPage}, p.TagsFit →
    Pending p rest ibDest →
    ∃ q ibEnd, reorganizeLoop rest ibDest p = some (q, ibEnd) ∧ Packed p q rest ibDest ibEnd := by
  induction rest with
  | nil =>
    intro ibDest p _ h
    refine ⟨p, ibDest, rfl, rfl, rfl, rfl, rfl, by simp, fun _ _ _ => rfl, fun _ _ => rfl, by simp,
      h.dest, by simp, .nil⟩
  | cons i rest ih =>
    intro ibDest p hp h
    obtain ⟨hord, hord'⟩ := List.pairwise_cons.1 h.ordered
    obtain ⟨hni, hnd'⟩ := List.nodup_cons.1 h.nodup
    have hi := h.lt i (by simp)
    have hge := h.ge i (by simp)
    have hle := h.le i (by simp)
    obtain ⟨ht, hib, hline⟩ := moveLine_spec hp hi hge hle h.dest
    set p₁ := p.moveLine i ibDest with hp₁
    have hcb₁ : p₁.cb i = p.cb i := by rw [← length_getPtr, hline, length_getPtr]
    have hend : ibDest + p.cb i ≤ p.ibTagArray := by
      have := h.dest
      rcases Nat.eq_zero_or_pos (p.cb i) with hz | hz
      · omega
      · have := hge (by omega)
        have := hle (by omega)
        omega
    have hush : ushort (ibDest + p₁.cb i) = ibDest + p.cb i := by
      have := p.ibTagArray_le
      have := p.cbPageData_lt_short
      rw [hcb₁]
      exact_mod_cast ushort_natCast (n := ibDest + p.cb i) (by omega)
    have hne : ∀ j ∈ rest, j ≠ i := fun j hj he => hni (he ▸ hj)
    have hltr : ∀ j ∈ rest, j < p.itagMicFree := fun j hj => h.lt j (List.mem_cons_of_mem _ hj)
    have hcb : ∀ j ∈ rest, p₁.cb j = p.cb j := fun j hj => ht.cb (hne j hj) (hltr j hj)
    have hibr : ∀ j ∈ rest, p₁.ib j = p.ib j := fun j hj => ht.ib (hne j hj) (hltr j hj)
    -- the next lines start past the bytes just written
    have hpast : ∀ j ∈ rest, p.cb j ≠ 0 → ibDest + p.cb i ≤ p.ib j := fun j hj hc => by
      have := h.ge j (List.mem_cons_of_mem _ hj) hc
      rcases Nat.eq_zero_or_pos (p.cb i) with hz | hz
      · omega
      · have := hord j hj (by omega) hc
        have := hge (by omega)
        omega
    have hliner : ∀ j ∈ rest, p₁.getPtr_ j = p.getPtr_ j := fun j hj =>
      ht.getPtr_ (hne j hj) (hltr j hj) (by
        rcases Nat.eq_zero_or_pos (p.cb j) with hz | hz
        · exact .inl hz
        · exact .inr ⟨h.le j (List.mem_cons_of_mem _ hj) (by omega),
            .inr (hpast j hj (by omega))⟩)
    have hpend : Pending p₁ rest (ibDest + p.cb i) := by
      refine ⟨hnd', fun j hj => by rw [ht.itagMicFree]; exact hltr j hj, ?_, ?_, ?_, ?_⟩
      · refine hord'.imp_of_mem fun {j k} hj hk hjk => ?_
        rw [hcb j hj, hcb k hk, hibr j hj, hibr k hk]
        exact hjk
      · intro j hj hc
        rw [hcb j hj] at hc
        rw [hibr j hj]
        exact hpast j hj hc
      · intro j hj hc
        rw [hcb j hj] at hc
        rw [hcb j hj, hibr j hj, ht.ibTagArray]
        exact h.le j (List.mem_cons_of_mem _ hj) hc
      · rw [ht.ibTagArray]; exact hend
    obtain ⟨q, ibEnd, hq, hk⟩ := ih (ht.tagsFit hp) hpend
    have hqi : q.tag i = p₁.tag i := hk.tag i (by rw [ht.itagMicFree]; exact hi) hni
    have hfs : q.fSmallFormat = p₁.fSmallFormat := by unfold fSmallFormat; rw [hk.size]
    have hqib : q.ib i = ibDest := by rw [← hib]; unfold ib; rw [hqi, hfs]
    have hqcb : q.cb i = p.cb i := by rw [← hcb₁]; unfold cb; rw [hqi, hfs]
    have hqline : q.getPtr_ i = p.getPtr_ i := by
      rw [← hline, getPtr_eq, getPtr_eq, hqib, hqcb, hib, hcb₁, hqi, hfs]
      congr 1
      exact Mem.read_congr fun a _ h₂ => hk.data a h₂
    refine ⟨q, ibEnd, ?_, hk.size.trans ht.size, hk.itagMicFree.trans ht.itagMicFree,
      hk.ctagReserved.trans ht.ctagReserved,
      hk.cbFree.trans (cbFree_moveLine p i ibDest).1, ?_, ?_, ?_, ?_, ?_, ?_, ?_⟩
    · rw [reorganizeLoop_cons i rest ibDest p hge, ← hp₁, hush, hq]
    · intro j hj
      rcases List.mem_cons.1 hj with rfl | hj
      · exact hqline
      · rw [hk.line j hj, hliner j hj]
    · intro j hlt hj
      rw [List.mem_cons, not_or] at hj
      rw [hk.tag j (by rw [ht.itagMicFree]; exact hlt) hj.2, ht.tag j hj.1 hlt]
    · intro a ha
      rw [hk.data a (by omega), ht.data a (by have := h.dest; omega) (.inl ha)]
    · rw [hk.sum, List.map_cons, List.sum_cons, List.map_congr_left hcb, Nat.add_assoc]
    · rw [← ht.ibTagArray]; exact hk.endLe
    · intro j hj
      rcases List.mem_cons.1 hj with rfl | hj
      · rw [hqib, hqcb]
        exact ⟨le_rfl, by rw [hk.sum]; omega⟩
      · have := hk.mem j hj
        omega
    · refine List.pairwise_cons.2 ⟨fun j hj => ?_, hk.ordered⟩
      rw [hqib, hqcb]
      exact (hk.mem j hj).1

/-! ## Unused bytes -/

/-- Bytes that belong to no line and to no tag may change: lines and layout are as before. -/
theorem Layout.of_unused (h : Layout r p) {d : Mem}
    (hd : ∀ j, j < p.itagMicFree → ∀ a, p.ib j ≤ a → a < p.ib j + p.cb j → d a = p.data a)
    (ha : ∀ a, p.ibTagArray ≤ a → d a = p.data a) :
    SameLines p { p with data := d } ∧ Layout r { p with data := d } := by
  have htag : ∀ j, j < p.itagMicFree → CPage.tag { p with data := d } j = p.tag j :=
    fun j hj => tag_of_data h.tagsFit hj ha
  have hcb : ∀ j, j < p.itagMicFree → CPage.cb { p with data := d } j = p.cb j := fun j hj => by
    unfold cb; rw [htag j hj]; rfl
  have hib : ∀ j, j < p.itagMicFree → CPage.ib { p with data := d } j = p.ib j := fun j hj => by
    unfold ib; rw [htag j hj]; rfl
  have hs : SameLines p { p with data := d } := by
    refine ⟨rfl, rfl, rfl, rfl, fun j hj => ?_⟩
    rw [getPtr_eq, getPtr_eq, hcb j hj, hib j hj, htag j hj]
    congr 1
    exact Mem.read_congr (hd j hj)
  refine ⟨hs, h.ctagReserved, h.pos, h.reserved, ?_, h.room, ?_, ?_⟩
  · rw [hs.cbLines]; exact h.space
  · intro i hi hc
    rw [hcb i hi] at hc ⊢
    rw [hib i hi]
    exact h.bounded i hi hc
  · intro i j hi hj hne hci hcj
    rw [hcb i hi] at hci ⊢
    rw [hcb j hj] at hcj ⊢
    rw [hib i hi, hib j hj]
    exact h.disjoint i j hi hj hne hci hcj

/-- The contiguous free space is that before the tag array. -/
theorem Layout.cbContiguousFree (h : Layout r p) :
    p.cbContiguousFree_ = (p.ibTagArray - p.ibMicFree : Nat) := by
  have := h.room
  unfold cbContiguousFree_ ibTagArray cbTagArray_ cbTag at *
  omega

/-- Filling the bytes between the last line and the tag array changes no line. -/
theorem Layout.fill_free (h : Layout r p) (b : Byte) :
    SameLines p { p with data := p.data.fill p.ibMicFree p.cbContiguousFree_.toNat b } ∧
      Layout r { p with data := p.data.fill p.ibMicFree p.cbContiguousFree_.toNat b } := by
  have hcf := h.cbContiguousFree
  have := h.ibMicFree_le
  refine h.of_unused (fun j hj a h₁ h₂ => Mem.fill_apply_of_not_mem _ _ ?_)
    (fun a ha => Mem.fill_apply_of_not_mem _ _ (by omega))
  have := h.bounded j hj (by omega)
  omega

/-! ## Making room -/

/-- Compaction keeps the lines and makes all free bytes contiguous, where the temporary buffer holds
the tags. -/
theorem reorganizeData_spec (env : PageEnv) (h : Layout r p)
    (htags : p.itagMicFree ≤ env.cptagMax) :
    ∃ q, p.reorganizeData_ env = some q ∧ SameLines p q ∧ Layout r q ∧
      q.cbContiguousFree_ = q.cbFree := by
  set rest := env.tagSort.sort p.ib (List.range p.itagMicFree) with hrest
  have hperm : rest.Perm (List.range p.itagMicFree) := env.tagSort.perm _ _
  have hnd : rest.Nodup := hperm.nodup_iff.2 List.nodup_range
  have hmem : ∀ j, j ∈ rest ↔ j < p.itagMicFree := fun j => by
    rw [hperm.mem_iff, List.mem_range]
  have hmic := h.ibMicFree_le
  have hpend : Pending p rest 0 := by
    refine ⟨hnd, fun j hj => (hmem j).1 hj, ?_, fun _ _ _ => Nat.zero_le _, ?_, Nat.zero_le _⟩
    · -- sorted by offset and disjoint, so each line ends before the next begins
      refine ((env.tagSort.sorted p.ib (List.range p.itagMicFree)).and hnd).imp_of_mem
        fun {j k} hj hk ⟨hle, hne⟩ hcj hck => ?_
      have := h.disjoint j k ((hmem j).1 hj) ((hmem k).1 hk) hne hcj hck
      omega
    · intro j hj hc
      have := h.bounded j ((hmem j).1 hj) hc
      omega
  obtain ⟨q, ibEnd, hq, hk⟩ := reorganizeLoop_spec rest h.tagsFit hpend
  set q' : CPage := { q with ibMicFree := ibEnd } with hq'
  have hsame : SameLines p q' := ⟨hk.size, hk.itagMicFree, hk.ctagReserved, hk.cbFree,
    fun j hj => hk.line j ((hmem j).2 hj)⟩
  have hsum : ibEnd = p.cbLines := by
    rw [hk.sum, Nat.zero_add]
    exact (hperm.map p.cb).sum_eq
  have hmem' : ∀ j, j < q'.itagMicFree → j ∈ rest := fun j hj =>
    (hmem j).2 (by rw [← hk.itagMicFree]; exact hj)
  have hlay : Layout r q' := by
    refine ⟨hk.ctagReserved.trans h.ctagReserved, h.pos, ?_, ?_, ?_, ?_, ?_⟩
    · rw [hsame.itagMicFree]; exact h.reserved
    · rw [hsame.cbFree, hsame.cbLines, hsame.itagMicFree, hsame.cbPageData]; exact h.space
    · have := hk.endLe
      have := h.space
      rw [hsame.itagMicFree, hsame.cbPageData]
      unfold ibTagArray at *
      show ibEnd + _ ≤ _
      omega
    · intro i hi _
      exact (hk.mem i (hmem' i hi)).2
    · intro i j hi hj hne _ _
      have : Std.Symm fun j k => q.ib j + q.cb j ≤ q.ib k ∨ q.ib k + q.cb k ≤ q.ib j :=
        ⟨fun _ _ => Or.symm⟩
      have hapart := hk.ordered.imp
        (S := fun j k => q.ib j + q.cb j ≤ q.ib k ∨ q.ib k + q.cb k ≤ q.ib j) fun hjk => .inl hjk
      exact hapart.forall (hmem' i hi) (hmem' j hj) hne
  have hcont : q'.cbContiguousFree_ = q'.cbFree := by
    have := hlay.cbContiguousFree
    have := hlay.space
    have := hsame.cbLines
    have he : q'.ibMicFree = p.cbLines := hsum
    unfold ibTagArray at *
    omega
  unfold reorganizeData_
  rw [if_neg (Nat.not_lt.2 htags)]
  simp only [← hrest, hq, Option.bind_eq_bind, Option.bind_some, ← hq']
  split_ifs with hscrub
  · obtain ⟨hs₂, hl₂⟩ := hlay.fill_free chPAGEReorgContiguousFreeFill
    exact ⟨_, rfl, ⟨hs₂.size.trans hsame.size, hs₂.itagMicFree.trans hsame.itagMicFree,
      hs₂.ctagReserved.trans hsame.ctagReserved, hs₂.cbFree.trans hsame.cbFree, fun j hj =>
        (hs₂.line j (by rw [hsame.itagMicFree]; exact hj)).trans (hsame.line j hj)⟩, hl₂, hcont⟩
  · exact ⟨q', rfl, hsame, hlay, hcont⟩

/-- If `cb` bytes are to be freed by compaction, the temporary buffer holds the tags. -/
def Compactable (p : CPage) (env : PageEnv) (cb : Nat) : Prop :=
  p.cbContiguousFree_ < cb → p.itagMicFree ≤ env.cptagMax

/-- `FreeSpace_` leaves a page alone that has the room. -/
theorem freeSpace_of_le (env : PageEnv) {cb : Nat} (h : (cb : Int) ≤ p.cbContiguousFree_) :
    p.freeSpace_ env cb = some p := by
  unfold freeSpace_
  rw [if_neg (Int.not_lt.2 h)]
  simp only [Option.bind_eq_bind, Option.bind_some, if_pos h]

/-- Where there are too many tags for the buffer it writes past its end. -/
theorem freeSpace_eq_none (env : PageEnv) {cb : Nat} (h : ¬ p.Compactable env cb) :
    p.freeSpace_ env cb = none := by
  unfold Compactable at h
  push Not at h
  unfold freeSpace_ reorganizeData_
  rw [if_pos h.1, if_pos h.2]
  rfl

/-- `FreeSpace_` succeeds whenever `cbFree` allows it, by compaction if need be. -/
theorem freeSpace_spec (env : PageEnv) (h : Layout r p) {cb : Nat} (hcb : cb ≤ p.cbFree)
    (hc : p.Compactable env cb) :
    ∃ q, p.freeSpace_ env cb = some q ∧ SameLines p q ∧ Layout r q ∧
      q.ibMicFree + cb ≤ q.ibTagArray := by
  have room : ∀ {q : CPage}, Layout r q → (cb : Int) ≤ q.cbContiguousFree_ →
      q.ibMicFree + cb ≤ q.ibTagArray := fun hq hge => by
    have := hq.cbContiguousFree
    have := hq.ibMicFree_le
    omega
  by_cases hlt : p.cbContiguousFree_ < cb
  · obtain ⟨q, hq, hs, hl, hcont⟩ := reorganizeData_spec env h (hc hlt)
    have hge : (cb : Int) ≤ q.cbContiguousFree_ := by
      have := hs.cbFree
      omega
    refine ⟨q, ?_, hs, hl, room hl hge⟩
    unfold freeSpace_
    rw [if_pos hlt, hq]
    simp only [Option.bind_eq_bind, Option.bind_some, if_pos hge]
  · have hge : (cb : Int) ≤ p.cbContiguousFree_ := by omega
    exact ⟨p, freeSpace_of_le env hge, SameLines.refl p, h, room h hge⟩

end CPage

end Ese
