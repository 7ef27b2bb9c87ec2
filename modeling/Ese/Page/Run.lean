import Ese.Lib.Run
import Ese.Page.Delete
import Ese.Page.Replace

/-!
# Runs of page operations

A page is for keeping a header and a list of lines. `PageView` is that purpose, `PageView.apply`
what each operation does to it, and `page_run` says that the page of `cpage.cxx` refines it: after
any run of operations that were given enough free space, the page invariant holds and a reader sees
the header and lines the operations lead to. The next operation fails no enforce, but to compact the
page or to fill its holes it puts a pointer to every tag into a buffer of the size of the largest
page. A page of short lines has too many tags for that.
-/

namespace Ese

/-- The operations on the lines of a page. -/
inductive PageOp
  | insert (iline : Nat) (rgdata : List (List Byte)) (fFlags : BitVec 16)
  | replace (iline : Nat) (rgdata : List (List Byte)) (fFlags : BitVec 16)
  | delete (iline : Nat)
  | setExternalHeader (rgdata : List (List Byte)) (fFlags : BitVec 16)
  | replaceFlags (iline : Nat) (fFlags : BitVec 16)
  | overwriteUnusedSpace (chZero : Byte)

namespace CPage

variable {p q : CPage}

/-- A freshly initialised page: its only tag is the empty external header. -/
def newPage (size : PageSize) (fResvTagFormatEnabled : Bool) : CPage :=
  (preInitializeNewPage_ size fResvTagFormatEnabled).consumePreInitPage

/-- An operation, with the line index turned into a tag index. -/
def apply (p : CPage) (env : PageEnv) : PageOp → Option CPage
  | .insert iline rgdata fFlags => p.insert_ env (iline + p.ctagReserved) rgdata fFlags
  | .replace iline rgdata fFlags => p.replace_ env (iline + p.ctagReserved) rgdata fFlags
  | .delete iline => some (p.delete_ env (iline + p.ctagReserved))
  | .setExternalHeader rgdata fFlags => p.replace_ env 0 rgdata fFlags
  | .replaceFlags iline fFlags => some (p.replaceFlags_ (iline + p.ctagReserved) fFlags)
  | .overwriteUnusedSpace chZero => p.overwriteUnusedSpace env chZero

/-- What a caller owes an operation: an existing line, and free space for the growth. -/
def Allows (p : CPage) : PageOp → Prop
  | .insert iline rgdata _ =>
    iline + p.ctagReserved ≤ p.itagMicFree ∧ cbDataTotal_ rgdata + cbTag ≤ p.cbFree
  | .replace iline rgdata _ =>
    iline + p.ctagReserved < p.itagMicFree ∧
      cbDataTotal_ rgdata ≤ p.cbFree + p.cb (iline + p.ctagReserved)
  | .delete iline => iline + p.ctagReserved < p.itagMicFree
  | .setExternalHeader rgdata _ => cbDataTotal_ rgdata ≤ p.cbFree + p.cb 0
  | .replaceFlags iline _ => iline + p.ctagReserved < p.itagMicFree
  | .overwriteUnusedSpace _ => True

instance (p : CPage) (op : PageOp) : Decidable (p.Allows op) := by
  cases op <;> unfold Allows <;> infer_instance

/-- If an operation compacts the page or fills its holes, the temporary buffer holds the tags. -/
def FitsBuffer (p : CPage) (env : PageEnv) : PageOp → Prop
  | .insert _ rgdata _ => p.Compactable env (cbDataTotal_ rgdata + cbTag)
  | .replace iline rgdata _ => p.Moves (iline + p.ctagReserved) (cbDataTotal_ rgdata) →
    p.Compactable env (cbDataTotal_ rgdata)
  | .setExternalHeader rgdata _ => p.Moves 0 (cbDataTotal_ rgdata) →
    p.Compactable env (cbDataTotal_ rgdata)
  | .overwriteUnusedSpace _ => p.Scrubbable env
  | .delete _ | .replaceFlags _ _ => True

/-- One operation of a run, under any library sort and with or without scrubbing. -/
def Step (a : PageEnv × PageOp) (p q : CPage) : Prop := p.Allows a.2 ∧ p.apply a.1 a.2 = some q

end CPage

/-! ## The purpose of a page -/

/-- A header and a list of lines. -/
@[ext] structure PageView where
  header : Line
  lines : List Line
  deriving DecidableEq

/-- What each operation does to the lines. -/
def PageView.apply (fSmallFormat : Bool) (v : PageView) : PageOp → PageView
  | .insert iline rgdata fFlags =>
    { v with lines := v.lines.insertIdx iline (Line.store fSmallFormat false rgdata.flatten
      fFlags) }
  | .replace iline rgdata fFlags =>
    { v with lines := v.lines.set iline (Line.store fSmallFormat false rgdata.flatten fFlags) }
  | .delete iline => { v with lines := v.lines.eraseIdx iline }
  | .setExternalHeader rgdata fFlags =>
    { v with header := Line.store fSmallFormat true rgdata.flatten fFlags }
  | .replaceFlags iline fFlags =>
    { v with lines := v.lines.modify iline fun l => Line.store fSmallFormat false l.pv fFlags }
  | .overwriteUnusedSpace _ => v

/-- The view of an empty page. -/
def PageView.empty : PageView := ⟨⟨[], 0⟩, []⟩

namespace CPage

variable {p q : CPage}

/-- What a reader of the page sees. -/
def observe (p : CPage) : PageView := ⟨p.getPtr_ 0, p.lines.drop p.ctagReserved⟩

/-- The lines split into the header and the rest. -/
theorem Layout.lines_eq (h : Layout 1 p) : p.lines = p.observe.header :: p.observe.lines := by
  have hN := h.reserved
  obtain ⟨l, ls, hl⟩ : ∃ l ls, p.lines = l :: ls :=
    List.exists_cons_of_length_pos (by rw [length_lines]; omega)
  have h0 : p.getPtr_ 0 = l := by
    rw [← getElem_lines p (j := 0) (by rw [length_lines]; omega)]
    simp [hl]
  unfold observe
  rw [h.ctagReserved, h0, hl]
  rfl

/-- A page whose lines are known shows them. -/
theorem Layout.observe_eq (h : Layout 1 p) {l : Line} {ls : List Line} (hl : p.lines = l :: ls) :
    p.observe = ⟨l, ls⟩ := by
  have he := h.lines_eq
  rw [hl] at he
  injection he with h₁ h₂
  exact PageView.ext h₁.symm h₂.symm

/-! ## The steps -/

/-- A new page satisfies the invariant and is empty. -/
theorem newPage_spec (size : PageSize) (resv : Bool) :
    Layout 1 (newPage size resv) ∧ (newPage size resv).size = size ∧
      (newPage size resv).observe = PageView.empty := by
  have hshort := size.cbPageData_lt_short
  have hpos : 4 ≤ size.cbPageData := by cases size <;> decide
  have hlim : ∀ s, 0 < Tag.ibCbMac s := fun s => by cases s <;> decide
  set p₀ := (preInitializeNewPage_ size resv).setITagState_ 1 1
  set p₁ : CPage := { p₀ with cbFree := ushort (p₀.cbFree - cbTag) }
  have hN : p₁.itagMicFree = 1 := rfl
  have hcbf : p₁.cbFree = size.cbPageData - 4 := by
    have h₀ : p₀.cbFree = size.cbPageData := ushort_natCast (by omega)
    show ushort ((p₀.cbFree : Int) - cbTag) = _
    rw [h₀]
    exact ushort_of_nonneg (by unfold cbTag; omega) (by omega)
  have hfit₁ : p₁.TagsFit := by
    unfold TagsFit cbTag
    rw [hN]
    exact hpos
  have ht₂ : Touches p₁ (p₁.setIb 0 0) 0 0 0 := touches_setIb hfit₁ (by omega) 0
  set p₂ := p₁.setIb 0 0
  have ht₃ : Touches p₁ (p₂.setCb 0 0) 0 0 0 :=
    ht₂.trans (touches_setCb (ht₂.tagsFit hfit₁) (by rw [ht₂.itagMicFree, hN]; omega) 0)
  set p₃ := p₂.setCb 0 0
  have hcb₃ : p₃.cb 0 = 0 := cb_setCb (hlim _)
  have hst : Stored p₃ (newPage size resv) 0 0 0 (p₃.getPtr_ 0).pv 0 :=
    stored_setFlags (ht₃.tagsFit hfit₁) (by rw [ht₃.itagMicFree, hN]; omega) 0 (.inl hcb₃)
  have ht := ht₃.trans hst.touches
  set q := newPage size resv
  have hNq : q.itagMicFree = 1 := ht.itagMicFree
  have hcb : q.cb 0 = 0 := hst.cb.trans hcb₃
  have hD : q.cbPageData = size.cbPageData := ht.cbPageData
  have hall : ∀ j, j < q.itagMicFree → q.cb j = 0 := fun j hj => by
    obtain rfl : j = 0 := by omega
    exact hcb
  have hsum : q.cbLines = 0 := by
    unfold cbLines
    rw [hNq]
    simp [hcb]
  have hcbq : q.cbFree = size.cbPageData - 4 := hst.cbFree.trans hcbf
  have hmic : q.ibMicFree = 0 := hst.ibMicFree
  have hl : Layout 1 q := by
    refine ⟨ht.ctagReserved, le_rfl, by omega, ?_, ?_, fun j hj hc => absurd (hall j hj) hc,
      fun j _ hj _ _ hc => absurd (hall j hj) hc⟩
    · rw [hcbq, hsum, hNq, hD]
      unfold cbTag
      omega
    · rw [hmic, hNq, hD]
      unfold cbTag
      omega
  refine ⟨hl, ht.size, hl.observe_eq ?_⟩
  have hpv : (p₃.getPtr_ 0).pv = [] := List.eq_nil_of_length_eq_zero (by rw [length_getPtr, hcb₃])
  have hline : q.getPtr_ 0 = ⟨[], 0⟩ := by
    rw [hst.line, hpv]
    unfold Line.store
    split_ifs <;> rfl
  unfold lines
  rw [hNq]
  simp [hline]

/-- **One step refines the view.** An allowed operation succeeds where the buffer holds the tags,
keeps the invariant and does to the lines what its view does. -/
theorem apply_spec (env : PageEnv) (h : Layout 1 p) {op : PageOp} (ha : p.Allows op)
    (hf : p.FitsBuffer env op) :
    ∃ q, p.apply env op = some q ∧ Layout 1 q ∧ q.size = p.size ∧
      q.observe = p.observe.apply p.fSmallFormat op := by
  have hls := h.lines_eq
  have hR := h.ctagReserved
  cases op with
  | insert iline rgdata fFlags =>
    rw [Allows, cbDataTotal_eq, hR] at ha
    rw [FitsBuffer, cbDataTotal_eq] at hf
    obtain ⟨q, hq, hl, hsz, hlines⟩ := insert_spec env h (show 1 ≤ iline + 1 by omega) ha.1
      fFlags ha.2 hf
    refine ⟨q, by rw [apply, hR]; exact hq, hl, hsz, ?_⟩
    rw [hls, List.insertIdx_succ_cons] at hlines
    exact hl.observe_eq hlines
  | replace iline rgdata fFlags =>
    rw [Allows, cbDataTotal_eq, hR] at ha
    rw [FitsBuffer, cbDataTotal_eq, hR] at hf
    obtain ⟨q, hq, hl, hsz, hlines⟩ := replace_spec env h (i := iline + 1) ha.1 fFlags ha.2 hf
    refine ⟨q, by rw [apply, hR]; exact hq, hl, hsz, ?_⟩
    rw [hls, List.set_cons_succ] at hlines
    exact hl.observe_eq hlines
  | delete iline =>
    rw [Allows, hR] at ha
    obtain ⟨hl, hsz, hlines⟩ := delete_spec env h (i := iline + 1) (by omega) ha
    refine ⟨_, by rw [apply, hR], hl, hsz, ?_⟩
    rw [hls, List.eraseIdx_cons_succ] at hlines
    exact hl.observe_eq hlines
  | setExternalHeader rgdata fFlags =>
    rw [Allows, cbDataTotal_eq] at ha
    rw [FitsBuffer, cbDataTotal_eq] at hf
    obtain ⟨q, hq, hl, hsz, hlines⟩ := replace_spec env h (i := 0) (by have := h.reserved; omega)
      fFlags ha hf
    refine ⟨q, hq, hl, hsz, ?_⟩
    rw [hls, List.set_cons_zero] at hlines
    exact hl.observe_eq hlines
  | replaceFlags iline fFlags =>
    rw [Allows, hR] at ha
    obtain ⟨hl, hsz, hlines⟩ := replaceFlags_spec h (i := iline + 1) ha fFlags
    refine ⟨_, by rw [apply, hR], hl, hsz, ?_⟩
    have hlen : iline < p.observe.lines.length := by
      have := congrArg List.length hls
      rw [length_lines, List.length_cons] at this
      omega
    have hline : p.getPtr_ (iline + 1) = p.observe.lines[iline] := by
      rw [← getElem_lines p (j := iline + 1) (by rw [length_lines]; exact ha)]
      simp only [hls, List.getElem_cons_succ]
    rw [hls, List.set_cons_succ, hline] at hlines
    rw [hl.observe_eq hlines]
    refine PageView.ext rfl (List.ext_getElem (by simp [PageView.apply]) fun k _ _ => ?_)
    simp only [PageView.apply, List.getElem_set, List.getElem_modify]
    split_ifs with he
    · subst he; rfl
    · rfl
  | overwriteUnusedSpace chZero =>
    obtain ⟨q, hq, hl, hsz, hlines⟩ := overwriteUnusedSpace_spec env h chZero hf
    rw [hls] at hlines
    exact ⟨q, hq, hl, hsz, hl.observe_eq hlines⟩

/-- Where the buffer does not hold them the operation writes past its end. -/
theorem apply_eq_none {env : PageEnv} (h : Layout 1 p) {op : PageOp} (ha : p.Allows op)
    (hf : ¬ p.FitsBuffer env op) : p.apply env op = none := by
  have hR := h.ctagReserved
  have hspace := h.space
  have hshort := p.cbPageData_lt_short
  cases op with
  | insert iline rgdata fFlags =>
    rw [Allows, cbDataTotal_eq, hR] at ha
    rw [FitsBuffer, cbDataTotal_eq] at hf
    exact insert_eq_none (by omega) hf
  | replace iline rgdata fFlags =>
    rw [Allows, cbDataTotal_eq, hR] at ha
    rw [FitsBuffer, cbDataTotal_eq, hR] at hf
    obtain ⟨hm, hc⟩ := Classical.not_imp.1 hf
    rw [apply, hR]
    exact replace_eq_none h ha.1 ha.2 hm hc
  | delete iline => exact absurd trivial hf
  | setExternalHeader rgdata fFlags =>
    rw [Allows, cbDataTotal_eq] at ha
    rw [FitsBuffer, cbDataTotal_eq] at hf
    obtain ⟨hm, hc⟩ := Classical.not_imp.1 hf
    exact replace_eq_none h (by have := h.reserved; omega) ha hm hc
  | replaceFlags iline fFlags => exact absurd trivial hf
  | overwriteUnusedSpace chZero => exact overwriteUnusedSpace_eq_none hf

/-- An allowed operation returns exactly where the buffer holds the tags. -/
theorem apply_iff (env : PageEnv) (h : Layout 1 p) {op : PageOp} (ha : p.Allows op) :
    (∃ q, p.apply env op = some q) ↔ p.FitsBuffer env op := by
  refine ⟨fun ⟨q, hq⟩ => ?_, fun hf => ?_⟩
  · by_contra hf
    rw [apply_eq_none h ha hf] at hq
    cases hq
  · obtain ⟨q, hq, _⟩ := apply_spec env h ha hf
    exact ⟨q, hq⟩

/-- **The page refines its view.** After any run of allowed operations on a new page, of either
format, with any sort and any scrubbing: the invariant holds, the page shows what the operations
lead to, and an operation that is allowed next succeeds if and only if the temporary buffer holds
the tags where it compacts the page or fills its holes. -/
theorem page_run (size : PageSize) (resv : Bool) {as : List (PageEnv × PageOp)} {p : CPage}
    (hrun : Run Step (newPage size resv) as p) :
    (p.cbFree + p.cbLines + cbTag * p.itagMicFree = p.cbPageData ∧
      (∀ i, i < p.itagMicFree → p.cb i ≠ 0 → p.ib i + p.cb i ≤ p.ibMicFree) ∧
      (∀ i j, i < p.itagMicFree → j < p.itagMicFree → i ≠ j → p.cb i ≠ 0 → p.cb j ≠ 0 →
        p.ib i + p.cb i ≤ p.ib j ∨ p.ib j + p.cb j ≤ p.ib i) ∧
      p.ibMicFree + cbTag * p.itagMicFree ≤ p.cbPageData ∧ p.ctagReserved = 1) ∧
    p.observe = as.foldl (fun v a => v.apply size.fSmallPage a.2) PageView.empty ∧
    ∀ env op, p.Allows op → ((∃ q, p.apply env op = some q) ↔ p.FitsBuffer env op) := by
  obtain ⟨hl₀, hsz₀, hv₀⟩ := newPage_spec size resv
  have hstep : ∀ (a : PageEnv × PageOp) (p q : CPage) (v : PageView),
      (Layout 1 p ∧ p.size = size ∧ p.observe = v) → Step a p q →
      Layout 1 q ∧ q.size = size ∧ q.observe = v.apply size.fSmallPage a.2 := by
    rintro ⟨env, op⟩ p q v ⟨hl, hsz, rfl⟩ ⟨ha, hq⟩
    obtain ⟨q', hq', hl', hsz', hv'⟩ := apply_spec env hl ha ((apply_iff env hl ha).1 ⟨q, hq⟩)
    obtain rfl : q' = q := by rw [hq] at hq'; exact (Option.some.inj hq').symm
    refine ⟨hl', hsz'.trans hsz, ?_⟩
    rw [hv', ← hsz]
    rfl
  obtain ⟨hl, _, hv⟩ := hrun.refines hstep ⟨hl₀, hsz₀, hv₀⟩
  exact ⟨⟨hl.space, hl.bounded, hl.disjoint, hl.room, hl.ctagReserved⟩, hv,
    fun env op ha => apply_iff env hl ha⟩

/-- The sort of the standard library as a `TagSort`. -/
def mergeTagSort : TagSort where
  sort ib l := l.mergeSort fun i j => ib i ≤ ib j
  perm _ l := List.mergeSort_perm l _
  sorted ib l := by
    have h := @List.pairwise_mergeSort _ (fun i j => decide (ib i ≤ ib j))
      (fun a b c h₁ h₂ => by simp only [decide_eq_true_eq] at *; omega)
      (fun a b => by simp only [Bool.or_eq_true, decide_eq_true_eq]; omega) l
    exact h.imp fun h => by simpa using h

/-- The page after operations that are each allowed and return. -/
def applyAll (env : PageEnv) : List PageOp → CPage → Option CPage
  | [], p => some p
  | op :: ops, p => if p.Allows op then (p.apply env op).bind (applyAll env ops) else none

theorem run_of_applyAll {env : PageEnv} {ops : List PageOp} (h : applyAll env ops p = some q) :
    Run Step p (ops.map fun op => (env, op)) q := by
  induction ops generalizing p with
  | nil => exact Option.some.inj h ▸ .refl _
  | cons op ops ih =>
    rw [applyAll] at h
    split_ifs at h with ha
    obtain ⟨p', hp', hq⟩ := Option.bind_eq_some_iff.1 h
    exact .cons (a := (env, op)) ⟨ha, hp'⟩ (ih hq)

/-- Three lines on a 4 KB page; the second grows and moves, and the first is deleted. -/
def holeOps : List PageOp :=
  [.insert 0 [List.replicate 1500 1] 1, .insert 1 [List.replicate 1000 2] 2, .insert 2 [[3, 4]] 0,
    .replace 1 [List.replicate 1200 5] 4, .delete 0]

/-- Behind the hole there is no room for 2000 bytes: the page is compacted. -/
theorem page_run_compacted : let env : PageEnv := ⟨mergeTagSort, true, 4096⟩
    let op : PageOp := .insert 1 [List.replicate 2000 6] 0
    ∃ p q, applyAll env holeOps (newPage .kb4 false) = some p ∧ p.cbContiguousFree_ < 2004 ∧
      p.apply env op = some q ∧
      q.cbFree + q.cbLines + cbTag * q.itagMicFree = q.cbPageData ∧
      q.observe = ⟨⟨[], 0⟩,
        [⟨List.replicate 1200 5, 4⟩, ⟨List.replicate 2000 6, 0⟩, ⟨[3, 4], 0⟩]⟩ := by
  intro env op
  -- the counts of the page before the last insert
  obtain ⟨p, hp, hcounts⟩ := Option.map_eq_some_iff.1 (show
    (applyAll env holeOps (newPage .kb4 false)).map
        (fun p => (p.cbContiguousFree_, p.itagMicFree, decide (p.Allows op)))
      = some (342, 3, true) by decide +kernel)
  obtain ⟨hcont, hN, ha⟩ : p.cbContiguousFree_ = 342 ∧ p.itagMicFree = 3 ∧ p.Allows op := by
    simpa using hcounts
  have hrun := run_of_applyAll hp
  obtain ⟨_, _, hnext⟩ := page_run .kb4 false hrun
  obtain ⟨q, hq⟩ := (hnext env op ha).2 (fun _ => by rw [hN]; decide)
  obtain ⟨⟨hspace, _⟩, hobs, _⟩ := page_run .kb4 false (hrun.snoc (a := (env, op)) ⟨ha, hq⟩)
  refine ⟨p, q, hp, by omega, hq, hspace, ?_⟩
  rw [hobs]
  decide +kernel

/-! ## A page of short lines -/

/-- A page with `n` lines of two bytes, each behind the one before it. -/
structure TwoByteLines (p : CPage) (n : Nat) : Prop where
  layout : Layout 1 p
  size : p.size = .kb4
  itagMicFree : p.itagMicFree = n + 1
  ibMicFree : p.ibMicFree = 2 * n
  cbFree : p.cbFree + 6 * n = 4052
  cb : ∀ k, k < n → p.cb (k + 1) = 2
  ib : ∀ k, k < n → p.ib (k + 1) = 2 * k

theorem TwoByteLines.cbContiguousFree {n : Nat} (h : TwoByteLines p n) :
    p.cbContiguousFree_ = p.cbFree := by
  have hcbf := h.cbFree
  unfold cbContiguousFree_ cbTagArray_ cbPageData cbTag
  rw [h.size, h.itagMicFree, h.ibMicFree, show PageSize.cbPageData .kb4 = 4056 from rfl]
  omega

/-- An insert behind all lines makes one more of them. -/
theorem TwoByteLines.step (env : PageEnv) {n : Nat} (h : TwoByteLines p n)
    (hn : 6 * (n + 1) ≤ 4052) :
    ∃ q, Step (env, .insert n [[1, 2]] 0) p q ∧ TwoByteLines q (n + 1) := by
  have hcbf := h.cbFree
  have hR := h.layout.ctagReserved
  have hN := h.itagMicFree
  have hroom : ([[1, 2]] : List (List Byte)).flatten.length + cbTag ≤ p.cbFree :=
    show 6 ≤ p.cbFree by omega
  obtain ⟨q, hq, hl, hx⟩ := insert_of_le env h.layout (show 1 ≤ n + 1 by omega) (by omega) 0 hroom
    (by rw [h.cbContiguousFree]; exact_mod_cast hroom)
  have htag : ∀ k, k < n → q.cb (k + 1) = p.cb (k + 1) ∧ q.ib (k + 1) = p.ib (k + 1) :=
    fun k hk => by
    unfold CPage.cb CPage.ib fSmallFormat
    rw [hx.tagLow (k + 1) (by omega), hx.size]
    exact ⟨rfl, rfl⟩
  refine ⟨q, ⟨⟨by omega, hroom⟩, by rw [apply, hR]; exact hq⟩, hl, hx.size.trans h.size, ?_, ?_, ?_,
    fun k hk => ?_, fun k hk => ?_⟩
  · rw [hx.itagMicFree, hN]
  · rw [hx.ibMicFree, h.ibMicFree]
    rfl
  · have e : q.cbFree + 6 = p.cbFree := hx.cbFree
    omega
  · rcases Nat.lt_or_ge k n with hlt | hge
    · rw [(htag k hlt).1, h.cb k hlt]
    · obtain rfl : k = n := by omega
      exact hx.cb
  · rcases Nat.lt_or_ge k n with hlt | hge
    · rw [(htag k hlt).2, h.ib k hlt]
    · obtain rfl : k = n := by omega
      rw [hx.ib, h.ibMicFree]

theorem twoByteLines_newPage : TwoByteLines (newPage .kb4 false) 0 where
  layout := (newPage_spec .kb4 false).1
  size := rfl
  itagMicFree := by decide +kernel
  ibMicFree := by decide +kernel
  cbFree := by decide +kernel
  cb := by omega
  ib := by omega

theorem run_twoByteLines (env : PageEnv) (n : Nat) (hn : 6 * n ≤ 4052) :
    ∃ as p, Run Step (newPage .kb4 false) as p ∧ TwoByteLines p n := by
  induction n with
  | zero => exact ⟨_, _, .refl _, twoByteLines_newPage⟩
  | succ n ih =>
    obtain ⟨as, p, hrun, h⟩ := ih (by omega)
    obtain ⟨q, hs, hq⟩ := h.step env hn
    exact ⟨_, q, hrun.snoc hs, hq⟩

/-- A 4 KB page takes 513 lines of two bytes. Once one of them is deleted, an insert that needs its
two bytes compacts the page, and the pointers to 513 tags do not fit into 4096 bytes. -/
theorem page_run_overflows : let env : PageEnv := ⟨mergeTagSort, false, PageSize.kb4.cbPage⟩
    ∃ as p op, Run Step (newPage .kb4 false) as p ∧ p.Allows op ∧ p.apply env op = none := by
  intro env
  obtain ⟨as, p, hrun, h⟩ := run_twoByteLines env 513 (by omega)
  have hR := h.layout.ctagReserved
  have hN := h.itagMicFree
  have hcbf := h.cbFree
  have hcb : p.cb 1 = 2 := h.cb 0 (by omega)
  have hib : p.ib 1 = 0 := h.ib 0 (by omega)
  have hdel : p.Allows (.delete 0) := show 0 + p.ctagReserved < p.itagMicFree by omega
  obtain ⟨q, hx, hr, he⟩ := delete_slotDelete env h.layout (i := 1) (by omega) (by omega)
  have hsz : q.size = .kb4 := hx.size.trans h.size
  have hNq : q.itagMicFree = 513 := by rw [hx.itagMicFree, hN]
  have hcbfq : q.cbFree = 980 := by
    rw [hx.cbFree, hcb]
    unfold cbTag
    omega
  have hmic : q.ibMicFree = 1026 := by
    rw [hx.ibMicFree, hcb, hib, h.ibMicFree]
    rfl
  rw [hcbfq, hsz, if_neg (by decide)] at he
  have hq : p.apply env (.delete 0) = some q := by
    rw [apply, hR, Nat.zero_add, he]
  have hlen : (List.replicate 976 (0 : Byte)).length = 976 := List.length_replicate
  refine ⟨_, q, .insert 0 [List.replicate 976 0] 0,
    hrun.snoc (a := (env, .delete 0)) ⟨hdel, hq⟩, ⟨by omega, ?_⟩, insert_eq_none ?_ fun hc => ?_⟩
  · rw [cbDataTotal_eq, List.flatten_singleton, hlen, hcbfq]
    decide
  · rw [List.flatten_singleton, hlen]
    decide
  · -- 978 bytes are contiguous, and 980 are wanted
    have hcont : q.cbContiguousFree_ = 978 := by
      unfold cbContiguousFree_ cbTagArray_ cbPageData
      rw [hsz, hNq, hmic]
      rfl
    unfold Compactable at hc
    rw [hcont, hNq, List.flatten_singleton, hlen] at hc
    exact absurd (hc (by decide)) (by decide)

end CPage

end Ese
