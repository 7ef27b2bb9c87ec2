import Ese.Page.Run

/-!
# Reserved tags

The tags before the lines are reserved: tag 0 is the external header, and `IAddReservedTag` appends
up to six more. They share the tag array and the data area with the lines, so the page invariant
speaks of both at once.

Two of their operations do less than the lines' own. `IAddReservedTag` asks `FreeSpace_` for the
bytes of the data alone and then takes a tag as well, so where the data just fits the new line
runs into the tag array. `ReplaceReservedTag` stores its data as a line's, which on a large page
stamps the flag bits on it. The theorems say exactly when each of them does its work.
-/

namespace Ese

namespace CPage

/-- `CTAG_RESERVED_MAX`. -/
def CTAG_RESERVED_MAX : Nat := 7

variable (p : CPage)

/-- `SetCTagReserved_`. -/
def setCTagReserved_ (ctagReserved : Nat) : CPage := p.setITagState_ p.itagMicFree ctagReserved

/-- `IAddReservedTag`: append a reserved tag of `cb` bytes, all `fill`. The result is the page and
the new tag's index, or `-1` where no tag can be added. -/
def iAddReservedTag (env : PageEnv) (cb : Nat) (fill : Byte) : Option (CPage × Int) :=
  let itag := p.ctagReserved
  if p.fResvTagFormatEnabled ∧ itag < CTAG_RESERVED_MAX then do
    let p ← p.freeSpace_ env cb
    let p := p.expandTagArray_ itag
    let p := p.setCTagReserved_ (itag + 1)
    let p := ((p.setCb itag 0).setIb itag 0).setFlags itag 0
    let p := p.setIb itag p.ibMicFree
    let p := { p with ibMicFree := ushort (p.ibMicFree + cb) }
    let p := p.setCb itag (ushort cb)
    let p := { p with cbFree := ushort (p.cbFree - cb - cbTag) }
    some ({ p with data := p.data.fill (p.ib itag) (p.cb itag) fill }, itag)
  else some (p, -1)

/-- `ReplaceReservedTag`. -/
def replaceReservedTag (env : PageEnv) (itag : Nat) (rgdata : List (List Byte)) : Option CPage :=
  p.replace_ env itag rgdata 0

/-- `GetPtrReservedTag`. -/
def getPtrReservedTag (itag : Nat) : Line := p.getPtr_ itag

variable {p} {q : CPage} {i r itag : Nat}

/-! ## Adding a reserved tag -/

/-- What adding the reserved tag `itag` with `cbTotal` bytes owes: the tag names the bytes taken
from the free space, they meet neither the tag array nor the bytes of another tag, every other
tag shows the line it showed, and the space equation holds. -/
structure ReservedTagAdded (p q : CPage) (itag cbTotal : Nat) : Prop where
  ib : q.ib itag + cbTotal = q.ibMicFree
  cb : q.cb itag = cbTotal
  tagArray : q.ib itag + q.cb itag ≤ q.ibTagArray
  disjoint : ∀ j, j < q.itagMicFree → j ≠ itag → q.cb j ≠ 0 →
    q.ib j + q.cb j ≤ q.ib itag ∨ q.ib itag + q.cb itag ≤ q.ib j
  lines : q.lines.eraseIdx itag = p.lines
  space : q.cbFree + q.cbLines + cbTag * q.itagMicFree = q.cbPageData

/-- The end of `IAddReservedTag`: the tag is pointed at `ibMicFree`, the counts follow, and the
bytes are filled. -/
def addLine (p : CPage) (i cbTotal : Nat) (fill : Byte) : CPage :=
  let p := p.setIb i p.ibMicFree
  let p := { p with ibMicFree := ushort (p.ibMicFree + cbTotal) }
  let p := p.setCb i (ushort cbTotal)
  let p := { p with cbFree := ushort (p.cbFree - cbTotal - cbTag) }
  { p with data := p.data.fill (p.ib i) (p.cb i) fill }

/-- What `IAddReservedTag` does once the room is there. -/
def addTag (p : CPage) (i cbTotal : Nat) (fill : Byte) : CPage :=
  let p := (p.expandTagArray_ i).setCTagReserved_ (i + 1)
  (((p.setCb i 0).setIb i 0).setFlags i 0).addLine i cbTotal fill

theorem iAddReservedTag_eq (env : PageEnv) (cbTotal : Nat) (fill : Byte)
    (hresv : p.fResvTagFormatEnabled = true) (hr : p.ctagReserved < CTAG_RESERVED_MAX) :
    p.iAddReservedTag env cbTotal fill
      = (p.freeSpace_ env cbTotal).map fun q =>
          (q.addTag p.ctagReserved cbTotal fill, (p.ctagReserved : Int)) := by
  unfold iAddReservedTag
  rw [if_pos ⟨hresv, hr⟩]
  cases p.freeSpace_ env cbTotal <;> rfl

/-- The counts after `IAddReservedTag`, whether or not the new line met the tag array. -/
theorem addTag_counts (h : Layout r p) {cbTotal : Nat} (fill : Byte)
    (hroom : p.ibMicFree + cbTotal ≤ p.ibTagArray) :
    (p.addTag r cbTotal fill).size = p.size ∧
      (p.addTag r cbTotal fill).itagMicFree = p.itagMicFree + 1 ∧
      (p.addTag r cbTotal fill).ibMicFree = p.ibMicFree + cbTotal := by
  have hshort := p.cbPageData_lt_short
  have hle := p.ibTagArray_le
  have hfit := h.tagsFit
  have hN : p.itagMicFree + 1 < 65536 := by unfold TagsFit cbTag at hfit; omega
  set p₁ := (p.expandTagArray_ r).setCTagReserved_ (r + 1) with hp₁
  have hx : (p.expandTagArray_ r).size = p.size ∧ (p.expandTagArray_ r).ibMicFree = p.ibMicFree ∧
      (p.expandTagArray_ r).itagMicFree = p.itagMicFree + 1 := by
    unfold expandTagArray_
    refine ⟨?_, ?_, ?_⟩
    · split_ifs <;> rfl
    · split_ifs <;> rfl
    · have e : ∀ q : CPage, q.itagMicFree = p.itagMicFree →
          (q.setITagMicFree_ (q.itagMicFree + 1)).itagMicFree = p.itagMicFree + 1 := fun q hq => by
        show ushort ((q.itagMicFree + 1 : Nat) : Int) = _
        rw [hq]
        exact ushort_natCast hN
      refine e _ ?_
      split_ifs <;> rfl
  have hN₁ : p₁.itagMicFree = p.itagMicFree + 1 := by
    show ushort ((p.expandTagArray_ r).itagMicFree : Int) = _
    rw [hx.2.2]
    exact ushort_natCast hN
  have hF : ∀ q : CPage, (q.setFlags r 0).size = q.size ∧
      (q.setFlags r 0).itagMicFree = q.itagMicFree := fun q => by
    unfold setFlags
    constructor <;> split_ifs <;> rfl
  refine ⟨?_, ?_, ?_⟩
  · show (((p₁.setCb r 0).setIb r 0).setFlags r 0).size = _
    rw [(hF _).1]
    exact hx.1
  · show (((p₁.setCb r 0).setIb r 0).setFlags r 0).itagMicFree = _
    rw [(hF _).2]
    exact hN₁
  · show ushort ((((p₁.setCb r 0).setIb r 0).setFlags r 0).ibMicFree + cbTotal) = _
    rw [ibMicFree_setFlags]
    show ushort (((p.expandTagArray_ r).ibMicFree : Int) + cbTotal) = _
    rw [hx.2.1]
    exact_mod_cast ushort_natCast (n := p.ibMicFree + cbTotal) (by omega)

/-- **Where the room is enough for the data and for the tag, the reserved tag is added.** -/
theorem addTag_spec (h : Layout r p) (hr : r < CTAG_RESERVED_MAX) {cbTotal : Nat} (fill : Byte)
    (hcbFree : cbTotal + cbTag ≤ p.cbFree)
    (hroom : p.ibMicFree + (cbTotal + cbTag) ≤ p.ibTagArray) :
    ReservedTagAdded p (p.addTag r cbTotal fill) r cbTotal ∧
      Layout (r + 1) (p.addTag r cbTotal fill) := by
  have hshort := p.cbPageData_lt_short
  have hle := p.ibTagArray_le
  have hspace := h.space
  have hrN := h.reserved
  have hush : ushort cbTotal = cbTotal := ushort_natCast (by omega)
  have hfit : cbTag * (p.itagMicFree + 1) ≤ p.cbPageData := by unfold ibTagArray cbTag at *; omega
  have hx := expandTagArray_spec (h.ctagReserved.trans_le hrN) hrN hfit
  set p₁ := p.expandTagArray_ r with hp₁
  set p₂ := p₁.setCTagReserved_ (r + 1) with hp₂
  have hN₂ : p₂.itagMicFree = p.itagMicFree + 1 := by
    show ushort (p₁.itagMicFree : Int) = _
    rw [hx.itagMicFree]
    exact ushort_natCast (by unfold cbTag at hfit; omega)
  have hR₂ : p₂.ctagReserved = r + 1 := by
    show ushort ((r + 1 : Nat) : Int) = _
    exact ushort_natCast (by unfold CTAG_RESERVED_MAX at hr; omega)
  have hsz₂ : p₂.size = p.size := hx.size
  have hD₂ : p₂.cbPageData = p.cbPageData := by unfold cbPageData; rw [hsz₂]
  have htag₂ : ∀ j, p₂.tag j = p₁.tag j := fun _ => rfl
  have hmic₂ : p₂.ibMicFree = p.ibMicFree := hx.ibMicFree
  have hi₂ : r < p₂.itagMicFree := by omega
  have hroom₂ : p₂.ibMicFree + cbTotal ≤ p₂.ibTagArray := by
    unfold ibTagArray cbTag at *
    omega
  have hfit₂ : p₂.TagsFit := by
    unfold TagsFit
    rw [hN₂, hD₂]
    exact hfit
  obtain ⟨ht₃, hcb₃, hmic₃, hcbf₃⟩ :=
    touches_emptySlot p₂.ibMicFree (p₂.ibMicFree + cbTotal) hfit₂ hi₂
  set p₃ := ((p₂.setCb r 0).setIb r 0).setFlags r 0 with hp₃
  have hi₃ : r < p₃.itagMicFree := by rw [ht₃.itagMicFree]; exact hi₂
  -- the slot is pointed at the end of the lines and filled there
  have hlt := p₂.cbPageData_lt
  have ht₄ : Touches p₂ (p₃.setIb r p₃.ibMicFree) r p₂.ibMicFree (p₂.ibMicFree + cbTotal) :=
    ht₃.trans (touches_setIb (ht₃.tagsFit hfit₂) hi₃ _)
  have hib₄ : (p₃.setIb r p₃.ibMicFree).ib r = p.ibMicFree := by
    rw [ib_setIb (by rw [ht₃.fSmallFormat]; omega), hmic₃, hmic₂]
  set p₄ := p₃.setIb r p₃.ibMicFree
  set p₅ : CPage := { p₄ with ibMicFree := ushort (p₄.ibMicFree + cbTotal) }
  have ht₅ : Touches p₂ p₅ r p₂.ibMicFree (p₂.ibMicFree + cbTotal) :=
    ht₄.trans (Touches.header p₄.cbFree _)
  have hi₅ : r < p₅.itagMicFree := by rw [ht₅.itagMicFree]; exact hi₂
  have hcb₆ : (p₅.setCb r (ushort cbTotal)).cb r = cbTotal := by
    rw [hush]
    exact cb_setCb (by rw [ht₅.fSmallFormat]; omega)
  have hib₆ : (p₅.setCb r (ushort cbTotal)).ib r = p.ibMicFree := by rw [ib_setCb]; exact hib₄
  have ht₆ : Touches p₂ (p₅.setCb r (ushort cbTotal)) r p₂.ibMicFree (p₂.ibMicFree + cbTotal) :=
    ht₅.trans (touches_setCb (ht₅.tagsFit hfit₂) hi₅ _)
  set p₆ := p₅.setCb r (ushort cbTotal)
  set p₇ : CPage := { p₆ with cbFree := ushort (p₆.cbFree - cbTotal - cbTag) }
  have ht₇ : Touches p₂ p₇ r p₂.ibMicFree (p₂.ibMicFree + cbTotal) :=
    ht₆.trans (Touches.header _ p₆.ibMicFree)
  have hi₇ : r < p₇.itagMicFree := by rw [ht₇.itagMicFree]; exact hi₂
  have hib₇ : p₇.ib r = p.ibMicFree := hib₆
  have hcb₇ : p₇.cb r = cbTotal := hcb₆
  set d : Mem := p₇.data.fill (p₇.ib r) (p₇.cb r) fill with hd
  have hdo : ∀ a, a < p₂.ibMicFree ∨ p₂.ibMicFree + cbTotal ≤ a → d a = p₇.data a := fun a ha => by
    rw [hd, hib₇, hcb₇, ← hmic₂]
    exact Mem.fill_apply_of_not_mem _ _ ha
  have hta₇ : p₇.ibTagArray = p₂.ibTagArray := ht₇.ibTagArray
  have hda : ∀ a, p₇.ibTagArray ≤ a → d a = p₇.data a := fun a ha => hdo a (by omega)
  set q : CPage := { p₇ with data := d } with hq
  have ht₈ : Touches p₇ q r p₂.ibMicFree (p₂.ibMicFree + cbTotal) :=
    Touches.of_data (ht₇.tagsFit hfit₂) hda hdo
  have ht := ht₇.trans ht₈
  have htag : q.tag r = p₇.tag r := tag_of_data (ht₇.tagsFit hfit₂) hi₇ hda
  have hmic : q.ibMicFree = p.ibMicFree + cbTotal := by
    show ushort ((p₃.ibMicFree : Int) + cbTotal) = _
    rw [hmic₃, hmic₂]
    exact_mod_cast ushort_natCast (n := p.ibMicFree + cbTotal) (by omega)
  have hcbf : q.cbFree + (cbTotal + cbTag) = p.cbFree := by
    have e : q.cbFree = ushort ((p₃.cbFree : Int) - cbTotal - cbTag) := rfl
    have hF : p₃.cbFree = p.cbFree := hcbf₃.trans hx.cbFree
    rw [e, hF, ushort_of_nonneg (n := p.cbFree - (cbTotal + cbTag)) (by omega) (by omega)]
    omega
  have hcb : q.cb r = cbTotal := by rw [← hcb₇]; unfold cb; rw [htag]; rfl
  have hib : q.ib r = p.ibMicFree := by rw [← hib₇]; unfold ib; rw [htag]; rfl
  have hins : SlotInsert p q r cbTotal := by
    refine ⟨ht.size.trans hsz₂, ht.itagMicFree.trans hN₂, fun j hj => ?_, fun j hj hlt => ?_,
      fun a ha => ?_, hib, hcb, hmic, hcbf⟩
    · rw [ht.tag j (by omega) (by omega), htag₂, hx.tagLow j hj]
    · rw [ht.tag (j + 1) (by omega) (by omega), htag₂, hx.tagHigh j hj hlt]
    · rw [ht.data a (by omega) (.inl (by omega))]
      exact hx.data a (by unfold ibTagArray cbTag at *; omega)
  have hRq : q.ctagReserved = r + 1 := ht.ctagReserved.trans hR₂
  obtain ⟨hl, hlines⟩ := hins.layout h hrN hroom hRq (by omega) (by omega)
  have hqe : p.addTag r cbTotal fill = q := rfl
  have hNq : q.itagMicFree = p.itagMicFree + 1 := hins.itagMicFree
  have hDq : q.cbPageData = p.cbPageData := by unfold cbPageData; rw [hins.size]
  rw [hqe]
  refine ⟨⟨by omega, hcb, by unfold ibTagArray cbTag at *; omega, fun j hj hne hc => ?_, ?_,
    hl.space⟩, hl⟩
  · -- the lines of the other tags end where the new one begins
    left
    rcases Nat.lt_or_ge j r with hlt | hge
    · obtain ⟨_, hcbj, hibj⟩ := carry (j := j) hins.size (hins.tagLow j hlt) fun a ha₁ ha₂ =>
        hins.data a (by have := h.bounded j (by omega) (by omega); omega)
      have := h.bounded j (by omega) (by omega)
      omega
    · obtain ⟨k, rfl⟩ : ∃ k, j = k + 1 := ⟨j - 1, by omega⟩
      obtain ⟨_, hcbj, hibj⟩ := carry (j := k) hins.size (hins.tagHigh k (by omega) (by omega))
        fun a ha₁ ha₂ => hins.data a (by have := h.bounded k (by omega) (by omega); omega)
      have := h.bounded k (by omega) (by omega)
      omega
  · rw [hlines, List.eraseIdx_insertIdx_self]

/-- **`IAddReservedTag` is sound exactly when the tag fits as well.** `FreeSpace_` makes room for
the data only. If it compacts the page, for which the temporary buffer has to hold the tags, all
free bytes are contiguous and the tag has its room too; if it does not, the tag has room only where
four more bytes are free there. -/
theorem iAddReservedTag_sound_iff (env : PageEnv) (h : Layout r p)
    (hresv : p.fResvTagFormatEnabled = true) (hr : r < CTAG_RESERVED_MAX) {cbTotal : Nat}
    (hcb : 0 < cbTotal) (hfree : cbTotal + cbTag ≤ p.cbFree) (fill : Byte) :
    ((∃ q, p.iAddReservedTag env cbTotal fill = some (q, (r : Int))) ↔ p.Compactable env cbTotal) ∧
    ∀ q, p.iAddReservedTag env cbTotal fill = some (q, (r : Int)) →
      (ReservedTagAdded p q r cbTotal ↔
        ¬ ((cbTotal : Int) ≤ p.cbContiguousFree_ ∧ p.cbContiguousFree_ < cbTotal + cbTag)) := by
  have hcont := h.cbContiguousFree
  have hmic := h.ibMicFree_le
  rw [iAddReservedTag_eq env cbTotal fill hresv (by rw [h.ctagReserved]; exact hr),
    h.ctagReserved]
  by_cases hc : p.Compactable env cbTotal
  swap
  · rw [freeSpace_eq_none env hc]
    exact ⟨iff_of_false (fun ⟨_, hq⟩ => by cases hq) hc, fun _ hq => by cases hq⟩
  obtain ⟨p₁, hf, hs₁, hl₁, _⟩ := freeSpace_spec env h (show cbTotal ≤ p.cbFree by omega) hc
  rw [hf]
  refine ⟨iff_of_true ⟨_, rfl⟩ hc, fun q hq => ?_⟩
  obtain rfl : p₁.addTag r cbTotal fill = q := congrArg Prod.fst (Option.some.inj hq)
  by_cases hlt : p.cbContiguousFree_ < cbTotal
  · -- the page is compacted
    obtain ⟨p₂, hp₂, hs₂, _, hc₂⟩ := reorganizeData_spec env h (hc hlt)
    have hge : p₂.cbContiguousFree_ ≥ cbTotal := by
      have := hs₂.cbFree
      omega
    obtain rfl : p₁ = p₂ := by
      unfold freeSpace_ at hf
      rw [if_pos hlt, hp₂] at hf
      simp only [Option.bind_eq_bind, Option.bind_some, if_pos hge, Option.some.injEq] at hf
      exact hf.symm
    have hcbF := hs₁.cbFree
    have hc₁' := hl₁.cbContiguousFree
    have hmic₁ := hl₁.ibMicFree_le
    obtain ⟨ha, _⟩ := addTag_spec hl₁ hr fill
      (show cbTotal + cbTag ≤ p₁.cbFree by omega) (by omega)
    refine iff_of_true ?_ (by omega)
    exact ⟨ha.ib, ha.cb, ha.tagArray, ha.disjoint, ha.lines.trans hs₁.lines, ha.space⟩
  · obtain rfl : p₁ = p := by
      rw [freeSpace_of_le env (by omega)] at hf
      exact (Option.some.inj hf).symm
    by_cases hroom : p₁.ibMicFree + (cbTotal + cbTag) ≤ p₁.ibTagArray
    · exact iff_of_true (addTag_spec h hr fill hfree hroom).1 (by omega)
    · refine iff_of_false (fun ha => ?_) (by omega)
      -- the new line ends past the start of the grown tag array
      obtain ⟨hsz, hN, hmic'⟩ := addTag_counts h fill
        (show p₁.ibMicFree + cbTotal ≤ p₁.ibTagArray by omega)
      have hD : (p₁.addTag r cbTotal fill).cbPageData = p₁.cbPageData := by
        unfold cbPageData; rw [hsz]
      have h₁ := ha.ib
      have h₂ := ha.cb
      have h₃ := ha.tagArray
      unfold ibTagArray cbTag at *
      omega

/-- A 4 KB page whose only line, of 4000 bytes, stands behind a hole of thirty bytes and leaves
eighteen bytes before the tag array. -/
def tightPage : CPage where
  size := .kb4
  fResvTagFormatEnabled := true
  itagMicFree := 2
  ctagReserved := 1
  cbFree := 48
  ibMicFree := 4030
  itagState := 0x1002
  data := (Mem.writeU16 (fun _ => 0) 4048 4000).writeU16 4050 30

theorem tightPage_layout : Layout 1 tightPage where
  ctagReserved := rfl
  pos := le_rfl
  reserved := by decide
  space := by decide
  room := by decide
  bounded := by
    intro i hi
    have hi : i < 2 := hi
    interval_cases i <;> decide
  disjoint := by
    intro i j hi hj
    have hi : i < 2 := hi
    have hj : j < 2 := hj
    interval_cases i <;> interval_cases j <;> decide

/-- A reserved tag of 16 bytes on that page: its last two bytes are the length of the page's line,
which is gone. -/
theorem iAddReservedTag_overlaps : ∃ q,
    tightPage.iAddReservedTag ⟨mergeTagSort, false, 4096⟩ 16 0 = some (q, 1) ∧
      Layout 1 tightPage ∧ 16 + cbTag ≤ tightPage.cbFree ∧
      q.ibTagArray < q.ib 1 + q.cb 1 ∧ q.getPtr_ 2 ≠ tightPage.getPtr_ 1 ∧
      q.cbFree + q.cbLines + cbTag * q.itagMicFree ≠ q.cbPageData := by
  refine ⟨tightPage.addTag 1 16 0, rfl, tightPage_layout, by decide, by decide, fun h => ?_,
    by decide⟩
  have hcb : (tightPage.addTag 1 16 0).cb 2 = tightPage.cb 1 := by
    rw [← length_getPtr, h, length_getPtr]
  exact absurd hcb (by decide)

/-- On that page compacted, a larger tag is added. -/
theorem iAddReservedTag_sound_iff_tight : ∃ q,
    tightPage.iAddReservedTag ⟨mergeTagSort, false, 4096⟩ 24 0 = some (q, 1) ∧
      ReservedTagAdded tightPage q 1 24 := by
  obtain ⟨hreturns, hiff⟩ := iAddReservedTag_sound_iff ⟨mergeTagSort, false, 4096⟩
    tightPage_layout rfl (by decide) (show 0 < 24 by decide) (by decide) 0
  obtain ⟨q, hq⟩ := hreturns.2 fun _ => by decide
  exact ⟨q, hq, (hiff q hq).2 (by decide)⟩

/-! ## Replacing a reserved tag -/

/-- Stamping no flags keeps the bytes exactly when they show none. -/
theorem stampBytes_zero_iff (bytes : List Byte) :
    stampBytes bytes 0 = bytes ↔ highFlags bytes = 0 := by
  rcases bytes with _ | ⟨b₀, _ | ⟨b₁, bytes⟩⟩
  · exact iff_of_true rfl rfl
  · exact iff_of_true rfl rfl
  · have hb : ∀ b : Byte, (b &&& 0x1f ||| (0 : BitVec 16).setWidth 8 <<< 5 = b ↔
        (b >>> 5).setWidth 16 = 0) := by decide +kernel
    show (b₀ :: _ :: bytes = _ ↔ _)
    rw [List.cons_inj_right, List.cons.injEq, and_iff_left rfl]
    exact hb b₁

/-- **`ReplaceReservedTag` stores its data verbatim exactly when no bit of it is a flag.** The data
of a large page's reserved tag is stored as a line without flags, so the bits its first word has
in the flags' place are cleared. Every other tag shows the line it showed. It returns where the
temporary buffer holds the tags, if the line moves and the page is compacted for it. -/
theorem replaceReservedTag_verbatim_iff (env : PageEnv) (h : Layout r p) (hi : 1 ≤ itag)
    (hr : itag < p.ctagReserved) {rgdata : List (List Byte)}
    (hfit : cbDataTotal_ rgdata ≤ p.cbFree + p.cb itag) :
    ((∃ q, p.replaceReservedTag env itag rgdata = some q) ↔
      (p.Moves itag (cbDataTotal_ rgdata) → p.Compactable env (cbDataTotal_ rgdata))) ∧
    ∀ q, p.replaceReservedTag env itag rgdata = some q → Layout r q ∧
      (((q.getPtrReservedTag itag).pv = rgdata.flatten ∧
          (∀ j, j < p.ctagReserved → j ≠ itag → q.getPtrReservedTag j = p.getPtrReservedTag j) ∧
          q.lines.drop q.ctagReserved = p.lines.drop p.ctagReserved) ↔
        p.fSmallFormat = true ∨ highFlags rgdata.flatten = 0) := by
  have hrr := h.ctagReserved
  have hrN := h.reserved
  have hi' : itag < p.itagMicFree := by omega
  rw [cbDataTotal_eq] at hfit ⊢
  by_cases hc : p.Moves itag rgdata.flatten.length → p.Compactable env rgdata.flatten.length
  swap
  · obtain ⟨hm, hc'⟩ := Classical.not_imp.1 hc
    have hnone : p.replaceReservedTag env itag rgdata = none := replace_eq_none h hi' hfit hm hc'
    rw [hnone]
    exact ⟨iff_of_false (fun ⟨_, hq⟩ => by cases hq) hc, fun _ hq => by cases hq⟩
  obtain ⟨q', hq', hl, hsz, hlines⟩ := replace_spec env h hi' 0 hfit hc
  refine ⟨iff_of_true ⟨q', hq'⟩ hc, fun q hq => ?_⟩
  obtain rfl : q' = q := Option.some.inj (hq'.symm.trans hq)
  clear hq
  rename' q' => q, hq' => hq
  refine ⟨hl, ?_⟩
  have hN : q.itagMicFree = p.itagMicFree := by
    rw [← length_lines, hlines, List.length_set, length_lines]
  have hz : (itag == 0) = false := by simpa using (by omega : itag ≠ 0)
  rw [hz] at hlines
  have hget : ∀ j, j < p.itagMicFree → q.getPtr_ j
      = if itag = j then Line.store p.fSmallFormat false rgdata.flatten 0 else p.getPtr_ j :=
    fun j hj => by
      rw [← getElem_lines q (by rw [length_lines, hN]; exact hj)]
      simp only [hlines, List.getElem_set, getElem_lines]
  have hother : ∀ j, j < p.ctagReserved → j ≠ itag →
      q.getPtrReservedTag j = p.getPtrReservedTag j := fun j hj hne => by
    unfold getPtrReservedTag
    rw [hget j (by omega), if_neg (Ne.symm hne)]
  have hdrop : q.lines.drop q.ctagReserved = p.lines.drop p.ctagReserved := by
    rw [hl.ctagReserved, hrr, hlines, List.drop_set_of_lt (by omega)]
  have hpv : (q.getPtrReservedTag itag).pv
      = if p.fSmallFormat then rgdata.flatten else stampBytes rgdata.flatten 0 := by
    unfold getPtrReservedTag
    rw [hget itag (by omega), if_pos rfl]
    cases p.fSmallFormat <;> rfl
  constructor
  · rintro ⟨hp, _, _⟩
    rw [hpv] at hp
    split_ifs at hp with hs
    · exact .inl hs
    · exact .inr ((stampBytes_zero_iff _).1 hp)
  · intro hc
    refine ⟨?_, hother, hdrop⟩
    rw [hpv]
    split_ifs with hs
    · rfl
    · exact (stampBytes_zero_iff _).2 (hc.resolve_left hs)

/-- A 16 KB page with a reserved tag of two bytes. -/
def reservedPage : CPage where
  size := .kb16
  fResvTagFormatEnabled := true
  itagMicFree := 2
  ctagReserved := 2
  cbFree := 16294
  ibMicFree := 2
  itagState := 0x2002
  data := Mem.writeU16 (fun _ => 0) 16296 2

theorem reservedPage_layout : Layout 2 reservedPage where
  ctagReserved := rfl
  pos := by decide
  reserved := by decide
  space := by decide
  room := by decide
  bounded := by
    intro i hi
    have hi : i < 2 := hi
    interval_cases i <;> decide
  disjoint := by
    intro i j hi hj
    have hi : i < 2 := hi
    have hj : j < 2 := hj
    interval_cases i <;> interval_cases j <;> decide

/-- The top bits of the second byte are lost. -/
theorem replaceReservedTag_clears : ∃ q,
    reservedPage.replaceReservedTag ⟨mergeTagSort, false, 16384⟩ 1 [[0x01, 0xff]] = some q ∧
      Layout 2 reservedPage ∧ (q.getPtrReservedTag 1).pv = [0x01, 0x1f] :=
  ⟨_, rfl, reservedPage_layout, by decide⟩

/-- Bytes without those bits are read back. -/
theorem replaceReservedTag_verbatim_iff_clear : ∃ q,
    reservedPage.replaceReservedTag ⟨mergeTagSort, false, 16384⟩ 1 [[0x01, 0x1f, 0xff]] = some q ∧
      (q.getPtrReservedTag 1).pv = [0x01, 0x1f, 0xff] := by
  obtain ⟨hreturns, hiff⟩ := replaceReservedTag_verbatim_iff ⟨mergeTagSort, false, 16384⟩
    reservedPage_layout (show 1 ≤ 1 by decide) (by decide)
    (show cbDataTotal_ [[0x01, 0x1f, 0xff]] ≤ _ by decide)
  obtain ⟨q, hq⟩ := hreturns.2 fun _ _ => by decide
  exact ⟨q, hq, ((hiff q hq).2.2 (.inr (by decide))).1⟩

end CPage

end Ese
