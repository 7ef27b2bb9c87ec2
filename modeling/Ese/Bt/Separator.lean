import Ese.Bt.Seek

/-!
# Separator keys

A split puts into the parent page a key between the last node that stays and the first that moves:
the start that both have in common and one more byte of the second. In a unique tree the start is
that of the keys; otherwise, of equal keys, the data go on. Nodes are ordered by key and then by
data, but the search in the parent compares a line with key and data put together; these orders are
one when keys are equal or neither starts the other (`cmpKeyData_eq`), and then a bookmark finds its
side of the separator (`separator_routes`).
-/

namespace Ese.Bt

section
variable (m : Mem) (fUnique : Bool)

/-- `NDGetBookmarkFromKDF`. -/
def ndGetBookmarkFromKDF (kdf : KEYDATA) : KEYDATA :=
  ⟨kdf.key, if fUnique then .null else kdf.data⟩

/-- `ErrBTIComputeSeparatorKey`, to the bytes of the separator; `fAlloc` is whether there is memory
for them. -/
def errBTIComputeSeparatorKey (fAlloc : Bool) (kdfPrev kdfSplit : KEYDATA) :
    Except ERR (List Byte) :=
  let cbKeyCommon := cbCommonKey m kdfSplit.key kdfPrev.key
  let fKeysEqual : Bool := cbKeyCommon = kdfSplit.key.cb ∧ cbKeyCommon = kdfPrev.key.cb
  let cbDataCommon := if fKeysEqual then cbCommonData m kdfSplit.data kdfPrev.data else 0
  if ¬fAlloc then .error .errOutOfMemory
  else
    let pv := copyIntoBuffer m kdfSplit.key cbKeyCommon
    if ¬fKeysEqual then
      if kdfSplit.key.prefixData.cb > cbKeyCommon then
        .ok (pv ++ [m (kdfSplit.key.prefixData.pv + cbKeyCommon)])
      else
        .ok (pv ++ [m (kdfSplit.key.suffixData.pv + (cbKeyCommon - kdfSplit.key.prefixData.cb))])
    else
      .ok (pv ++ m.read kdfSplit.data.pv cbDataCommon ++ [m (kdfSplit.data.pv + cbDataCommon)])

/-- In a unique tree bookmarks are keys; in another one, keys are equal or neither starts the
other. -/
def Comparable (bm1 bm2 : KEYDATA) : Prop :=
  if fUnique then bm1.data.cb = 0 ∧ bm2.data.cb = 0
  else bm1.key.bytes m = bm2.key.bytes m ∨
    ¬bm1.key.bytes m <+: bm2.key.bytes m ∧ ¬bm2.key.bytes m <+: bm1.key.bytes m

/-- The key and the data of a bookmark are the same in both memories. -/
def SameBookmark (m m' : Mem) (bm : KEYDATA) : Prop :=
  bm.key.bytes m' = bm.key.bytes m ∧ bm.data.bytes m' = bm.data.bytes m

/-- The line `iline` of a page leads to the page that is split between two bookmarks. -/
structure Child (lines : List KEY) (iline : Nat) (bmPrev bmSplit : KEYDATA) : Prop where
  page : InternalPage m lines
  lt : iline < lines.length
  before : ∀ iline' < iline, cmpKeyWithKeyData m (keyOf lines iline') bmPrev ≤ 0
  after : (keyOf lines iline).bytes m = [] ∨ 0 < cmpKeyWithKeyData m (keyOf lines iline) bmSplit

/-- A key is above the first bookmark and not above the second, as the search in an internal page
compares them. -/
def Separates (key : KEY) (bmPrev bmSplit : KEYDATA) : Prop :=
  0 < cmpKeyWithKeyData m key bmPrev ∧ cmpKeyWithKeyData m key bmSplit ≤ 0

/-- A key goes to the line `iline` of a page, and there bookmarks up to the first of two descend at
the key or before it and bookmarks from the second on descend after it; only a bookmark that is not
above the page can end up in it, and one of a tree that is not unique has a key. -/
structure Routes (lines : List KEY) (iline : Nat) (key : KEY) (bmPrev bmSplit : KEYDATA) :
    Prop where
  seek : errBTISeekSeparatorKey m lines key = .ok iline
  page : InternalPage m (lines.insertIdx iline key)
  left : ∀ bm, Comparable m fUnique bm bmPrev → cmpKeyData m bm bmPrev ≤ 0 →
    ∃ err iline', errNDISeekInternalPage m (lines.insertIdx iline key) bm = .ok (err, iline') ∧
      iline' ≤ iline
  right : ∀ bm, Comparable m fUnique bmSplit bm → cmpKeyData m bmSplit bm ≤ 0 →
    (fUnique = false → bm.key.bytes m ≠ []) →
    ((keyOf lines (lines.length - 1)).bytes m = [] ∨
      0 < cmpKeyWithKeyData m (keyOf lines (lines.length - 1)) bm) →
    ∃ err iline', errNDISeekInternalPage m (lines.insertIdx iline key) bm = .ok (err, iline') ∧
      iline < iline'

end

variable {m : Mem} {fUnique : Bool}

/-! ## One order -/

theorem DATA_bytes_nil {data : DATA} (h : data.cb = 0) : data.bytes m = [] :=
  List.eq_nil_of_length_eq_zero (by rw [DATA.length_bytes, h])

/-- The order of the nodes is that of key and data put together. -/
theorem cmpKeyData_eq {bm1 bm2 : KEYDATA} (h : Comparable m fUnique bm1 bm2) :
    cmpKeyData m bm1 bm2 = cmpBytes (bm1.bytes m) (bm2.bytes m) := by
  have hsame : bm1.key.bytes m = bm2.key.bytes m →
      cmpKeyData m bm1 bm2 = cmpBytes (bm1.bytes m) (bm2.bytes m) := by
    intro he
    have hz : cmpKey m bm1.key bm2.key = 0 := by rw [cmpKey_eq, he, cmpBytes, lexCmp_self]
    unfold cmpKeyData KEYDATA.bytes
    dsimp only
    rw [if_pos hz, cmpData_eq, he, cmpBytes, cmpBytes, lexCmp_append_left]
  have hdiff : bm1.key.bytes m ≠ bm2.key.bytes m →
      cmpKeyData m bm1 bm2 = cmpBytes (bm1.key.bytes m) (bm2.key.bytes m) := by
    intro hne
    have hnz : cmpKey m bm1.key bm2.key ≠ 0 := fun hz =>
      hne (eq_of_lexCmp_eq_zero toNat_injective (by rw [cmpKey_eq] at hz; exact hz))
    unfold cmpKeyData
    dsimp only
    rw [if_neg hnz, cmpKey_eq]
  by_cases he : bm1.key.bytes m = bm2.key.bytes m
  · exact hsame he
  · rw [hdiff he]
    unfold Comparable at h
    unfold KEYDATA.bytes
    split at h
    · rw [DATA_bytes_nil h.1, DATA_bytes_nil h.2, List.append_nil, List.append_nil]
    · obtain ⟨hst, hts⟩ := h.resolve_left he
      exact (lexCmp_append toNat_injective hst hts _ _).symm

theorem Comparable.same {m' : Mem} {bm1 bm2 : KEYDATA} (h : Comparable m fUnique bm1 bm2)
    (h₁ : SameBookmark m m' bm1) (h₂ : SameBookmark m m' bm2) : Comparable m' fUnique bm1 bm2 := by
  unfold Comparable at h ⊢
  rwa [h₁.1, h₂.1]

theorem SameBookmark.bytes_eq {m' : Mem} {bm : KEYDATA} (h : SameBookmark m m' bm) :
    bm.bytes m' = bm.bytes m := by
  rw [KEYDATA.bytes, h.1, h.2, KEYDATA.bytes]

/-! ## The bytes of the separator -/

/-- The bytes copied and the byte of difference are a start of the node's bytes. -/
theorem take_append_byte {l : List Byte} {b : Byte} {rest : List Byte} {n : Nat}
    (h : l.drop n = b :: rest) : l.take n ++ [b] = l.take (n + 1) := by
  rw [List.take_add, h]
  rfl

theorem DATA.bytes_drop (data : DATA) {ib : Nat} (h : ib < data.cb) :
    (data.bytes m).drop ib = m (data.pv + ib) :: (data.bytes m).drop (ib + 1) := by
  unfold DATA.bytes
  rw [read_drop, read_drop, show data.cb - ib = data.cb - (ib + 1) + 1 by omega, read_succ,
    Nat.add_assoc]

/-- The separator of nodes of one key goes on with their data. -/
theorem errBTIComputeSeparatorKey_keys_eq {kdfPrev kdfSplit : KEYDATA}
    (hkey : kdfPrev.key.bytes m = kdfSplit.key.bytes m)
    (hlt : commonLen (kdfPrev.data.bytes m) (kdfSplit.data.bytes m) < kdfSplit.data.cb) :
    errBTIComputeSeparatorKey m true kdfPrev kdfSplit =
      .ok ((kdfSplit.bytes m).take (commonLen (kdfPrev.bytes m) (kdfSplit.bytes m) + 1)) := by
  have hcommon := (commonLen_eq_length_iff (s := kdfSplit.key.bytes m) (t := kdfPrev.key.bytes m)).2
    hkey.symm
  rw [KEY.length_bytes, KEY.length_bytes] at hcommon
  have hcb : kdfPrev.key.cb = kdfSplit.key.cb := hcommon.2.symm.trans hcommon.1
  have hread : ∀ {n}, n ≤ kdfSplit.data.cb →
      m.read kdfSplit.data.pv n = (kdfSplit.data.bytes m).take n := by
    intro n hle
    obtain ⟨k, hk⟩ := Nat.exists_eq_add_of_le hle
    rw [DATA.bytes, hk, m.read_add, List.take_left' (m.length_read _ _)]
  unfold errBTIComputeSeparatorKey KEYDATA.bytes
  simp only [cbCommonKey_eq, hcommon.1, hcb, decide_true, and_self, not_true_eq_false, if_true,
    if_false, cbCommonData_eq]
  rw [copyIntoBuffer_eq _ le_rfl, commonLen_comm (kdfSplit.data.bytes m), hread hlt.le,
    List.append_assoc, take_append_byte (DATA.bytes_drop _ hlt), hkey, commonLen_append_left,
    KEY.length_bytes, Nat.add_assoc, ← KEY.length_bytes (m := m) kdfSplit.key,
    List.take_length_add_append, List.take_length]

/-- The separator of nodes of different keys is a start of the second key. -/
theorem errBTIComputeSeparatorKey_keys_ne {kdfPrev kdfSplit : KEYDATA}
    (hkey : kdfPrev.key.bytes m ≠ kdfSplit.key.bytes m)
    (hlt : commonLen (kdfPrev.key.bytes m) (kdfSplit.key.bytes m) < kdfSplit.key.cb) :
    errBTIComputeSeparatorKey m true kdfPrev kdfSplit =
      .ok ((kdfSplit.key.bytes m).take
        (commonLen (kdfPrev.key.bytes m) (kdfSplit.key.bytes m) + 1)) := by
  have hcommon : ¬(commonLen (kdfSplit.key.bytes m) (kdfPrev.key.bytes m) = kdfSplit.key.cb ∧
      commonLen (kdfSplit.key.bytes m) (kdfPrev.key.bytes m) = kdfPrev.key.cb) := by
    rw [← KEY.length_bytes (m := m) kdfSplit.key, ← KEY.length_bytes (m := m) kdfPrev.key,
      commonLen_eq_length_iff]
    exact Ne.symm hkey
  have hbyte := kdfSplit.key.bytes_drop (m := m) hlt
  unfold KEY.addr at hbyte
  unfold errBTIComputeSeparatorKey
  simp only [cbCommonKey_eq, hcommon, decide_false, Bool.false_eq_true, not_true_eq_false,
    not_false_eq_true, if_true, if_false]
  rw [copyIntoBuffer_eq _ (by rw [commonLen_comm]; exact hlt.le),
    commonLen_comm (kdfSplit.key.bytes m)]
  split
  · next hin =>
    rw [if_pos hin] at hbyte
    rw [take_append_byte hbyte]
  · next hout =>
    rw [if_neg hout] at hbyte
    rw [take_append_byte hbyte]

/-- The separator is the common start of both bookmarks and one more byte of the second. -/
theorem errBTIComputeSeparatorKey_eq {kdfPrev kdfSplit : KEYDATA}
    (h : Comparable m fUnique (ndGetBookmarkFromKDF fUnique kdfPrev)
      (ndGetBookmarkFromKDF fUnique kdfSplit))
    (hlt : cmpKeyData m (ndGetBookmarkFromKDF fUnique kdfPrev)
      (ndGetBookmarkFromKDF fUnique kdfSplit) < 0) :
    errBTIComputeSeparatorKey m true kdfPrev kdfSplit =
      .ok (((ndGetBookmarkFromKDF fUnique kdfSplit).bytes m).take
        (commonLen ((ndGetBookmarkFromKDF fUnique kdfPrev).bytes m)
          ((ndGetBookmarkFromKDF fUnique kdfSplit).bytes m) + 1)) := by
  rw [cmpKeyData_eq h] at hlt
  have hcommon := (separator toNat_injective hlt).1
  by_cases hkey : kdfPrev.key.bytes m = kdfSplit.key.bytes m
  · cases fUnique with
    | true =>
      -- keys of a unique tree are different
      simp [ndGetBookmarkFromKDF, KEYDATA.bytes, hkey] at hlt
    | false =>
      refine errBTIComputeSeparatorKey_keys_eq hkey ?_
      simp only [ndGetBookmarkFromKDF, Bool.false_eq_true, if_false, KEYDATA.bytes, hkey,
        commonLen_append_left, List.length_append, DATA.length_bytes] at hcommon
      omega
  · cases fUnique with
    | true =>
      simp only [ndGetBookmarkFromKDF, if_true, KEYDATA.bytes, DATA.bytes_null, List.append_nil,
        KEY.length_bytes] at hcommon ⊢
      exact errBTIComputeSeparatorKey_keys_ne hkey hcommon
    | false =>
      simp only [Comparable, ndGetBookmarkFromKDF, Bool.false_eq_true, if_false] at h
      obtain ⟨hst, hts⟩ := h.resolve_left hkey
      simp only [ndGetBookmarkFromKDF, Bool.false_eq_true, if_false, KEYDATA.bytes]
      obtain ⟨heq, hlen⟩ := commonLen_append hst hts (kdfPrev.data.bytes m) (kdfSplit.data.bytes m)
      rw [heq, List.take_append_of_le_length hlen]
      exact errBTIComputeSeparatorKey_keys_ne hkey (by rwa [KEY.length_bytes] at hlen)

/-! ## The parent page -/

theorem keyOf_insertIdx {lines : List KEY} {iline : Nat} (h : iline ≤ lines.length) (key : KEY)
    (iline' : Nat) :
    keyOf (lines.insertIdx iline key) iline' =
      if iline' < iline then keyOf lines iline'
      else if iline' = iline then key else keyOf lines (iline' - 1) := by
  unfold keyOf
  rw [List.getD_eq_getElem?_getD, List.getElem?_insertIdx]
  split
  · rw [List.getD_eq_getElem?_getD]
  · split
    · rw [if_pos (by omega), Option.getD_some]
    · rw [List.getD_eq_getElem?_getD]

section
variable {lines : List KEY} {iline : Nat} {bmPrev bmSplit : KEYDATA} {key : KEY}

/-- A separator is above the lines before the page that is split and below the line of that page. -/
theorem Child.between (h : Child m lines iline bmPrev bmSplit)
    (hprev : 0 < cmpKeyWithKeyData m key bmPrev) (hsplit : cmpKeyWithKeyData m key bmSplit ≤ 0) :
    (∀ iline' < iline, cmpBytes ((keyOf lines iline').bytes m) (key.bytes m) < 0) ∧
      ((keyOf lines iline).bytes m ≠ [] →
        cmpBytes (key.bytes m) ((keyOf lines iline).bytes m) < 0) := by
  rw [cmp_eq, cmpBytes, lexCmp_antisymm] at hprev
  rw [cmp_eq] at hsplit
  refine ⟨fun iline' hlt => ?_, fun hne => ?_⟩
  · have hle := h.before iline' hlt
    rw [cmp_eq] at hle
    exact lexCmp_lt_of_le_of_lt toNat_injective hle (by omega)
  · have hpos := h.after.resolve_left hne
    rw [cmp_eq, cmpBytes, lexCmp_antisymm] at hpos
    exact lexCmp_lt_of_le_of_lt toNat_injective hsplit (by omega)

/-- Nothing is below an empty key, so a separator is not empty. -/
theorem key_ne_nil (hprev : 0 < cmpKeyWithKeyData m key bmPrev) : key.bytes m ≠ [] := by
  intro hnil
  rw [cmp_eq, hnil, cmpBytes, lexCmp_nil_left] at hprev
  omega

/-- The separator is inserted at the line of the page that is split. -/
theorem Child.errBTISeekSeparatorKey_eq (h : Child m lines iline bmPrev bmSplit)
    (hprev : 0 < cmpKeyWithKeyData m key bmPrev) (hsplit : cmpKeyWithKeyData m key bmSplit ≤ 0) :
    errBTISeekSeparatorKey m lines key = .ok iline := by
  obtain ⟨hbefore, hafter⟩ := h.between hprev hsplit
  have hlt := h.lt
  obtain ⟨compare, hseek, hfound⟩ := seek_spec h.page ⟨key, .null⟩
  have hcmp : ∀ key', cmpKeyWithKeyData m key' ⟨key, .null⟩ = cmpBytes (key'.bytes m)
    (key.bytes m) := by
    intro key'
    rw [cmp_eq, KEYDATA.bytes, DATA.bytes_null, List.append_nil]
  obtain ⟨i, hi⟩ : ∃ i, (ilineNDISeekGEQInternal m lines ⟨key, .null⟩).1 = i := ⟨_, rfl⟩
  rw [hi] at hseek
  have hc := hseek.compare_eq
  rw [hcmp] at hc
  -- the line of the page is null and the last, or above the separator
  have hline : (keyOf lines iline).bytes m = [] ∧ iline = lines.length - 1 ∨
      0 < cmpBytes ((keyOf lines iline).bytes m) (key.bytes m) := by
    by_cases hnil : (keyOf lines iline).bytes m = []
    · refine Or.inl ⟨hnil, ?_⟩
      by_contra hne
      exact h.page.notNull iline (by omega) hnil
    · have habove := hafter hnil
      rw [cmpBytes, lexCmp_antisymm] at habove
      exact Or.inr (by rw [cmpBytes]; omega)
  have hge : iline ≤ i := by
    by_contra hgt
    have hneg := hbefore i (by omega)
    have := hseek.last (by omega)
    omega
  have hle : i ≤ iline := by
    by_contra hgt
    have hneg := hseek.below iline (by omega)
    have hin := hseek.lt
    rw [hcmp] at hneg
    rcases hline with ⟨_, hlast⟩ | hpos
    · omega
    · omega
  have heq : i = iline := Nat.le_antisymm hle hge
  have hnfound : (ilineNDISeekGEQInternal m lines ⟨key, .null⟩).2 ≠ 0 := by
    intro hz
    rw [(hfound.1 hz).1, heq] at hc
    rcases hline with ⟨hnil, _⟩ | hpos
    · rw [hnil, cmpBytes, lexCmp_nil_left] at hc
      have := List.length_pos_iff.2 (key_ne_nil hprev)
      omega
    · omega
  unfold errBTISeekSeparatorKey errNDISeekInternalPage
  dsimp only
  rw [if_neg hnfound, hi, heq]
  rfl

/-- With the separator the page has growing keys again. -/
theorem Child.insert (h : Child m lines iline bmPrev bmSplit)
    (hprev : 0 < cmpKeyWithKeyData m key bmPrev) (hsplit : cmpKeyWithKeyData m key bmSplit ≤ 0) :
    InternalPage m (lines.insertIdx iline key) := by
  obtain ⟨hbefore, hafter⟩ := h.between hprev hsplit
  have hlen : (lines.insertIdx iline key).length = lines.length + 1 :=
    List.length_insertIdx_of_le_length h.lt.le _
  have hlt := h.lt
  -- what follows the line of the page is above that line
  have hrest : ∀ iline', iline ≤ iline' → iline' < lines.length →
      (keyOf lines iline').bytes m ≠ [] →
      cmpBytes (key.bytes m) ((keyOf lines iline').bytes m) < 0 := by
    intro iline' hle hin hne
    rcases Nat.eq_or_lt_of_le hle with rfl | hlt'
    · exact hafter hne
    · exact lexCmp_lt_of_lt_of_le toNat_injective (hafter (h.page.notNull iline (by omega)))
        (h.page.sorted iline iline' hlt' hin hne).le
  refine ⟨by omega, fun i hi => ?_, fun i i' hii' hi' => ?_⟩
  · rw [keyOf_insertIdx hlt.le]
    split
    · exact h.page.notNull i (by omega)
    · split
      · exact key_ne_nil hprev
      · exact h.page.notNull (i - 1) (by omega)
  · rw [keyOf_insertIdx hlt.le, keyOf_insertIdx hlt.le]
    rcases Nat.lt_trichotomy i iline with hi | rfl | hi
    · rw [if_pos hi]
      rcases Nat.lt_trichotomy i' iline with hi' | rfl | hi'
      · rw [if_pos hi']
        exact h.page.sorted i i' hii' (by omega)
      · rw [if_neg (Nat.lt_irrefl _), if_pos rfl]
        exact fun _ => hbefore i hi
      · rw [if_neg (by omega), if_neg (by omega)]
        exact h.page.sorted i (i' - 1) (by omega) (by omega)
    · rw [if_neg (Nat.lt_irrefl _), if_pos rfl, if_neg (by omega), if_neg (by omega)]
      exact hrest (i' - 1) (by omega) (by omega)
    · rw [if_neg (by omega), if_neg (by omega), if_neg (by omega), if_neg (by omega)]
      exact h.page.sorted (i - 1) (i' - 1) (by omega) (by omega)

/-- A key between two bookmarks routes both sides of it. -/
theorem Child.routes (h : Child m lines iline bmPrev bmSplit)
    (hsep : Separates m key bmPrev bmSplit) :
    Routes m fUnique lines iline key bmPrev bmSplit := by
  obtain ⟨hprev, hsplit⟩ := hsep
  have hpage := h.insert hprev hsplit
  have hlt := h.lt
  have hlen : (lines.insertIdx iline key).length = lines.length + 1 :=
    List.length_insertIdx_of_le_length hlt.le _
  have hkey : keyOf (lines.insertIdx iline key) iline = key := by
    rw [keyOf_insertIdx hlt.le, if_neg (Nat.lt_irrefl _), if_pos rfl]
  refine ⟨h.errBTISeekSeparatorKey_eq hprev hsplit, hpage, fun bm hcomp hle => ?_,
    fun bm hcomp hle hnull hlast => ?_⟩
  · refine seek_le hpage (by omega) ?_
    rw [cmpKeyData_eq hcomp] at hle
    rw [cmp_eq, cmpBytes, lexCmp_antisymm] at hprev
    rw [hkey, cmp_eq, cmpBytes, lexCmp_antisymm]
    have hprev' : cmpBytes (bmPrev.bytes m) (key.bytes m) < 0 := by
      rw [cmpBytes]
      omega
    have := lexCmp_lt_of_le_of_lt toNat_injective hle hprev'
    omega
  · rw [cmpKeyData_eq hcomp] at hle
    have hend : keyOf (lines.insertIdx iline key) ((lines.insertIdx iline key).length - 1)
        = keyOf lines (lines.length - 1) := by
      rw [hlen, keyOf_insertIdx hlt.le, if_neg (by omega), if_neg (by omega), Nat.add_sub_cancel]
    rw [cmp_eq] at hsplit
    have hbelow := lexCmp_le_trans toNat_injective hsplit hle
    refine seek_gt hpage (by omega) (by rw [hkey, cmp_eq]; exact hbelow) ?_
      (by rw [hend]; exact hlast)
    cases hu : fUnique with
    | false => exact hnull hu
    | true =>
      -- the key is all of a bookmark, and nothing is below an empty one
      intro hnil
      rw [hu, Comparable, if_pos rfl] at hcomp
      rw [KEYDATA.bytes, hnil, DATA_bytes_nil hcomp.2, List.append_nil, lexCmp_nil_right] at hbelow
      have := List.length_pos_iff.2 (key_ne_nil hprev)
      omega

end

/-- The separator is above the bookmark before the split and not above the one after it, no shorter
key is, and in a page with a line for the page that is split it takes bookmarks to their sides. -/
theorem separator_routes {kdfPrev kdfSplit : KEYDATA}
    (h : Comparable m fUnique (ndGetBookmarkFromKDF fUnique kdfPrev)
      (ndGetBookmarkFromKDF fUnique kdfSplit))
    (hlt : cmpKeyData m (ndGetBookmarkFromKDF fUnique kdfPrev)
      (ndGetBookmarkFromKDF fUnique kdfSplit) < 0) :
    ∃ separator, errBTIComputeSeparatorKey m true kdfPrev kdfSplit = .ok separator ∧
      ∀ m', SameBookmark m m' (ndGetBookmarkFromKDF fUnique kdfPrev) →
        SameBookmark m m' (ndGetBookmarkFromKDF fUnique kdfSplit) → ∀ key : KEY,
        (key.cb < separator.length → ¬Separates m' key (ndGetBookmarkFromKDF fUnique kdfPrev)
          (ndGetBookmarkFromKDF fUnique kdfSplit)) ∧
        (key.bytes m' = separator →
          Separates m' key (ndGetBookmarkFromKDF fUnique kdfPrev)
            (ndGetBookmarkFromKDF fUnique kdfSplit) ∧
          ∀ lines iline, Child m' lines iline (ndGetBookmarkFromKDF fUnique kdfPrev)
            (ndGetBookmarkFromKDF fUnique kdfSplit) →
            Routes m' fUnique lines iline key (ndGetBookmarkFromKDF fUnique kdfPrev)
              (ndGetBookmarkFromKDF fUnique kdfSplit)) := by
  refine ⟨_, errBTIComputeSeparatorKey_eq h hlt, fun m' hprev hsplit key => ?_⟩
  rw [cmpKeyData_eq h] at hlt
  obtain ⟨hlen, hsep, hshort⟩ := separator toNat_injective hlt
  have hcmp : ∀ {bm : KEYDATA}, SameBookmark m m' bm →
      cmpKeyWithKeyData m' key bm = cmpBytes (key.bytes m') (bm.bytes m) := by
    intro bm hsame
    rw [cmp_eq, hsame.bytes_eq]
  refine ⟨fun hcb hkey => ?_, fun hkey => ?_⟩
  · rw [Separates, hcmp hprev, hcmp hsplit, cmpBytes, lexCmp_antisymm] at hkey
    have hle := hshort (key.bytes m') (by omega) hkey.2
    rw [KEY.length_bytes] at hle
    rw [List.length_take] at hcb
    omega
  · have hkeysep : Separates m' key (ndGetBookmarkFromKDF fUnique kdfPrev)
        (ndGetBookmarkFromKDF fUnique kdfSplit) := by
      rw [Separates, hcmp hprev, hcmp hsplit, hkey, cmpBytes, lexCmp_antisymm]
      exact ⟨by omega, lexCmp_take _ _⟩
    exact ⟨hkeysep, fun lines iline hchild => hchild.routes hkeysep⟩

/-- Two nodes of one key in a tree that is not unique, the prefix shared: their data, one byte and
two, are told apart by a key of three bytes. -/
theorem separator_routes_data :
    ∃ separator, errBTIComputeSeparatorKey (fun pv => BitVec.ofNat 8 pv) true
        ⟨⟨⟨1, 1⟩, ⟨2, 1⟩⟩, ⟨5, 1⟩⟩ ⟨⟨⟨1, 1⟩, ⟨2, 1⟩⟩, ⟨6, 2⟩⟩ = .ok separator ∧
      separator = [1, 2, 6] ∧
      ∀ key : KEY, key.bytes (fun pv => BitVec.ofNat 8 pv) = separator →
        Separates (fun pv => BitVec.ofNat 8 pv) key ⟨⟨⟨1, 1⟩, ⟨2, 1⟩⟩, ⟨5, 1⟩⟩
          ⟨⟨⟨1, 1⟩, ⟨2, 1⟩⟩, ⟨6, 2⟩⟩ := by
  obtain ⟨separator, heq, hkeys⟩ := @separator_routes (fun pv => BitVec.ofNat 8 pv) false
    ⟨⟨⟨1, 1⟩, ⟨2, 1⟩⟩, ⟨5, 1⟩⟩ ⟨⟨⟨1, 1⟩, ⟨2, 1⟩⟩, ⟨6, 2⟩⟩ (Or.inl rfl) (by decide)
  refine ⟨separator, heq, ?_, fun key hkey => ((hkeys _ ⟨rfl, rfl⟩ ⟨rfl, rfl⟩ key).2 hkey).1⟩
  have hbytes : errBTIComputeSeparatorKey (fun pv => BitVec.ofNat 8 pv) true
      ⟨⟨⟨1, 1⟩, ⟨2, 1⟩⟩, ⟨5, 1⟩⟩ ⟨⟨⟨1, 1⟩, ⟨2, 1⟩⟩, ⟨6, 2⟩⟩ = .ok [1, 2, 6] := by rfl
  rw [hbytes] at heq
  exact (Except.ok.inj heq).symm

end Ese.Bt
