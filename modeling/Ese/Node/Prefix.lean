import Ese.Node.KeyDataFlags
import Ese.Page.Run

/-!
# Prefix compression of nodes

How much of its key a node leaves to the page prefix changes nothing a reader of the node sees.
`StoresNode` says what a line holds: the count of the key bytes in the page prefix, the others, the
data and the flags. Whatever two parts the key comes in, the pieces of a node put together are
`nodeBytes` of the key without its first `cbPrefix` bytes (`flatten_pieces`), and the line they are
stored in stores that node, although the flags of a large page share its first word
(`storesNode_of_line`). A node that leaves more of its key to the prefix is rewritten from its own
bytes; its two counts end where its old suffix, less the bytes it gives up, begins, so no piece is
overwritten before it is moved (`ndGrowCbPrefix_spec`).
-/

namespace Ese

/-! ## The bytes of a node -/

/-- The line of a node: the counts, the key without its first `cbPrefix` bytes, and the data. -/
def nodeBytes (cbPrefix : Nat) (suffix data : List Byte) : List Byte :=
  (if cbPrefix > 0 then wordBytes (BitVec.ofNat 16 cbPrefix) else []) ++
    wordBytes (BitVec.ofNat 16 suffix.length) ++ suffix ++ data

/-- The flags of a node, `fNDCompressed` set if and only if some of its key is in the prefix. -/
def nodeFlags (cbPrefix : Nat) (fFlags : BitVec 16) : BitVec 16 :=
  if cbPrefix > 0 then fFlags ||| fNDCompressed else fFlags &&& ~~~fNDCompressed

theorem length_nodeBytes (cbPrefix : Nat) (suffix data : List Byte) :
    (nodeBytes cbPrefix suffix data).length
      = (if cbPrefix > 0 then 4 else 2) + suffix.length + data.length := by
  unfold nodeBytes
  split_ifs <;> simp only [List.length_append, length_wordBytes, List.length_nil]

theorem nodeFlags_compressed (cbPrefix : Nat) (fFlags : BitVec 16) :
    nodeFlags cbPrefix fFlags &&& 7 &&& fNDCompressed ≠ 0 ↔ 0 < cbPrefix := by
  unfold nodeFlags
  split_ifs with hc
  · have h : (fFlags ||| fNDCompressed) &&& 7 &&& fNDCompressed = fNDCompressed := by
      apply BitVec.eq_of_getLsbD_eq
      intro i hi
      unfold fNDCompressed
      interval_cases i <;> simp
    rw [h]
    exact ⟨fun _ => hc, fun _ => by decide⟩
  · have h : (fFlags &&& ~~~fNDCompressed) &&& 7 &&& fNDCompressed = 0 := by
      apply BitVec.eq_of_getLsbD_eq
      intro i hi
      unfold fNDCompressed
      interval_cases i <;> simp
    rw [h]
    exact ⟨fun h => absurd rfl h, fun h => absurd h hc⟩

/-- The other two flags are those of the node. -/
theorem nodeFlags_other (cbPrefix : Nat) (fFlags : BitVec 16) :
    nodeFlags cbPrefix fFlags &&& 7 &&& ~~~fNDCompressed = fFlags &&& 7 &&& ~~~fNDCompressed := by
  unfold nodeFlags
  split_ifs with hc
  all_goals
    apply BitVec.eq_of_getLsbD_eq
    intro i hi
    unfold fNDCompressed
    interval_cases i <;> simp

/-- A count is read from the low thirteen bits of its word, whatever the three others are. -/
theorem readU16_and_mask {m : Mem} {a n : Nat} (hn : n < 8192)
    (h₀ : m a = (BitVec.ofNat 16 n).extractLsb' 0 8)
    (h₁ : m (a + 1) &&& 0x1f = (BitVec.ofNat 16 n).extractLsb' 8 8 &&& 0x1f) :
    (m.readU16 a &&& usNDCbKeyMask).toNat = n := by
  have hw : m.readU16 a &&& usNDCbKeyMask = BitVec.ofNat 16 n &&& usNDCbKeyMask := by
    rw [Mem.readU16, h₀]
    apply BitVec.eq_of_getLsbD_eq
    intro i hi
    by_cases hlow : i < 8
    · rw [BitVec.getLsbD_and, BitVec.getLsbD_and, BitVec.getLsbD_append, if_pos hlow]
      simp [hlow]
    · have hbit := congrArg (fun b : BitVec 8 => b.getLsbD (i - 8)) h₁
      have hi8 : i - 8 < 8 := by omega
      simp only [BitVec.getLsbD_and, BitVec.getLsbD_extractLsb', hi8, decide_true,
        Bool.true_and, show 8 + (i - 8) = i by omega] at hbit
      have hmask : usNDCbKeyMask.getLsbD i = (0x1f : BitVec 8).getLsbD (i - 8) := by
        unfold usNDCbKeyMask
        interval_cases i <;> first | omega | decide
      rw [BitVec.getLsbD_and, BitVec.getLsbD_and, BitVec.getLsbD_append, if_neg hlow, hmask]
      exact hbit
  rw [hw]
  have hlt : n < Tag.ibCbMac true := hn
  exact Tag.ofNat_and_mskIbCb true hlt

/-- Storing a line changes at most the three high bits of its second byte. -/
theorem Line.store_pv (fSmallFormat : Bool) (b₀ b₁ : Byte) (l : List Byte) (f : BitVec 16) :
    ∃ b₁' : Byte, (Line.store fSmallFormat false (b₀ :: b₁ :: l) f).pv = b₀ :: b₁' :: l ∧
      b₁' &&& 0x1f = b₁ &&& 0x1f ∧
      (Line.store fSmallFormat false (b₀ :: b₁ :: l) f).fFlags = f &&& 7 := by
  cases fSmallFormat with
  | true => exact ⟨b₁, rfl, rfl, rfl⟩
  | false =>
    refine ⟨b₁ &&& 0x1f ||| f.setWidth 8 <<< 5, rfl, ?_, by simp [Line.store]⟩
    apply BitVec.eq_of_getLsbD_eq
    intro i hi
    interval_cases i <;> simp

/-! ## What a line stores -/

namespace CPage

variable {p q : CPage} {i r : Nat}

/-- The line of tag `i` is a node that leaves `cbPrefix` bytes of its key to the page prefix. -/
def StoresNode (p : CPage) (i cbPrefix : Nat) (suffix data : List Byte) (fFlags : BitVec 16) :
    Prop :=
  ∃ kdf, p.ndiLineToKeydataflags i = some kdf ∧ kdf.prefixData.cb = cbPrefix ∧
    kdf.suffixData.bytes p.data = suffix ∧ kdf.data.bytes p.data = data ∧ kdf.fFlags = fFlags

/-- A line stored from `nodeBytes` stores the node. -/
theorem storesNode_of_line {cbPrefix : Nat} {suffix data : List Byte} {f : BitVec 16}
    (hc : cbPrefix < 8192) (hs : suffix.length < 8192)
    (hl : p.getPtr_ i = Line.store p.fSmallFormat false (nodeBytes cbPrefix suffix data)
      (nodeFlags cbPrefix f)) :
    p.StoresNode i cbPrefix suffix data (nodeFlags cbPrefix f &&& 7) := by
  have hcb : p.cb i = (if cbPrefix > 0 then 4 else 2) + suffix.length + data.length := by
    have h := congrArg (fun l : Line => l.pv.length) hl
    simp only [length_getPtr] at h
    rw [h, ← length_nodeBytes]
    unfold Line.store
    cases p.fSmallFormat <;> simp
  have hholds : p.data.Holds (p.ib i) (p.getPtr_ i).pv := by
    unfold Mem.Holds
    rw [length_getPtr]
    rfl
  have hcomp := nodeFlags_compressed cbPrefix f
  set F := nodeFlags cbPrefix f
  unfold nodeBytes at hl
  rcases Nat.eq_zero_or_pos cbPrefix with hz | hz
  · -- the line starts with the count of the suffix
    subst hz
    set w := BitVec.ofNat 16 suffix.length with hw
    obtain ⟨b, hpv, hb, hf⟩ := Line.store_pv p.fSmallFormat (w.extractLsb' 0 8)
      (w.extractLsb' 8 8) (suffix ++ data) F
    change p.getPtr_ i = Line.store p.fSmallFormat false
      (w.extractLsb' 0 8 :: w.extractLsb' 8 8 :: (suffix ++ data)) F at hl
    rw [hl, hpv, Mem.holds_cons, Mem.holds_cons, Mem.holds_append] at hholds
    obtain ⟨h₀, h₁, hsuf, hdat⟩ := hholds
    have hcount := readU16_and_mask hs h₀ (by rw [h₁, hb])
    have hno : ¬ F &&& 7 &&& fNDCompressed ≠ 0 := fun h => absurd (hcomp.1 h) (by omega)
    rw [if_neg (by omega)] at hcb
    unfold StoresNode ndiLineToKeydataflags
    simp only [hl, hf, hno, if_false, hcount]
    rw [if_neg (by unfold cbKeyCount; omega), if_neg (by unfold cbKeyCount; omega)]
    refine ⟨_, rfl, rfl, hsuf, ?_, rfl⟩
    have hlen : p.cb i - suffix.length - cbKeyCount = data.length := by unfold cbKeyCount; omega
    show p.data.read (p.ib i + cbKeyCount + suffix.length) (p.cb i - suffix.length - cbKeyCount) = _
    rw [hlen]
    exact hdat
  · -- the count of the page prefix comes first
    set w := BitVec.ofNat 16 cbPrefix with hw
    set v := BitVec.ofNat 16 suffix.length with hv
    obtain ⟨b, hpv, hb, hf⟩ := Line.store_pv p.fSmallFormat (w.extractLsb' 0 8)
      (w.extractLsb' 8 8) (wordBytes v ++ suffix ++ data) F
    rw [if_pos hz] at hl hcb
    change p.getPtr_ i = Line.store p.fSmallFormat false
      (w.extractLsb' 0 8 :: w.extractLsb' 8 8 :: (wordBytes v ++ suffix ++ data)) F at hl
    rw [hl, hpv, Mem.holds_cons, Mem.holds_cons, Mem.holds_append, Mem.holds_append] at hholds
    obtain ⟨h₀, h₁, ⟨hword, hsuf⟩, hdat⟩ := hholds
    have hpre := readU16_and_mask hc h₀ (by rw [h₁, hb])
    have hcount : (p.data.readU16 (p.ib i + cbPrefixOverhead) &&& usNDCbKeyMask).toNat
        = suffix.length := by
      have hv' : p.data.readU16 (p.ib i + cbPrefixOverhead) = v := wordBytes_append v hword
      rw [hv']
      exact Tag.ofNat_and_mskIbCb true (show suffix.length < Tag.ibCbMac true from hs)
    have hyes : F &&& 7 &&& fNDCompressed ≠ 0 := hcomp.2 hz
    unfold StoresNode ndiLineToKeydataflags
    simp only [hl, hf, hyes, ne_eq, not_false_eq_true, if_true, hpre, hcount]
    rw [if_neg (by unfold cbPrefixOverhead cbKeyCount; omega),
      if_neg (by unfold cbPrefixOverhead cbKeyCount; omega)]
    refine ⟨_, rfl, rfl, hsuf, ?_, rfl⟩
    have hlen : p.cb i - suffix.length - (cbKeyCount + cbPrefixOverhead) = data.length := by
      unfold cbPrefixOverhead cbKeyCount; omega
    show p.data.read (p.ib i + cbPrefixOverhead + cbKeyCount + suffix.length)
      (p.cb i - suffix.length - (cbKeyCount + cbPrefixOverhead)) = _
    have hstart : p.ib i + cbPrefixOverhead + cbKeyCount + suffix.length
        = p.ib i + 1 + 1 + (wordBytes v ++ suffix).length := by
      rw [List.length_append, length_wordBytes]
      unfold cbPrefixOverhead cbKeyCount
      omega
    rw [hlen, hstart]
    exact hdat

/-- The node at `iline` of a non-root page is read with key `key`. -/
def ReadsNode (p : CPage) (iline : Nat) (key data : List Byte) (fFlags : BitVec 16) : Prop :=
  ∀ fSpaceTree, ∃ kdf, p.ndiGetKeydataflags false fSpaceTree iline = some kdf ∧
    kdf.key p.data = key ∧ kdf.data.bytes p.data = data ∧ kdf.fFlags = fFlags

/-- A stored node is read with the bytes of the page prefix in front of its own. -/
theorem StoresNode.readsNode {iline cbPrefix : Nat} {suffix data pfx : List Byte} {f : BitVec 16}
    (h : p.StoresNode (iline + p.ctagReserved) cbPrefix suffix data (nodeFlags cbPrefix f &&& 7))
    (hlen : pfx.length = cbPrefix) (hpfx : pfx <+: (p.getPtr_ 0).pv) :
    p.ReadsNode iline (pfx ++ suffix) data (nodeFlags cbPrefix f &&& 7) := by
  intro fSpaceTree
  obtain ⟨kdf, hkdf, hcb, hsuf, hdat, hf⟩ := h
  have hcomp := nodeFlags_compressed cbPrefix f
  have hread : p.data.read (p.ib 0) cbPrefix = pfx := by
    have hle := hpfx.length_le
    rw [length_getPtr, hlen] at hle
    have hsplit : (p.getPtr_ 0).pv
        = p.data.read (p.ib 0) cbPrefix ++ p.data.read (p.ib 0 + cbPrefix) (p.cb 0 - cbPrefix) := by
      rw [← Mem.read_add, Nat.add_sub_cancel' hle]
      rfl
    have htake := List.prefix_iff_eq_take.1 hpfx
    rw [htake, hlen, hsplit, List.take_left' (Mem.length_read ..)]
  unfold ndiGetKeydataflags
  simp only [hkdf, Option.bind_eq_bind, Option.bind_some, hf, Bool.not_false, if_true]
  rcases Nat.eq_zero_or_pos cbPrefix with hz | hz
  · obtain rfl : pfx = [] := List.eq_nil_of_length_eq_zero (by omega)
    rw [if_neg fun hc => absurd (hcomp.1 hc) (by omega)]
    exact ⟨_, rfl, hsuf, hdat, rfl⟩
  · rw [if_pos (hcomp.2 hz)]
    refine ⟨_, rfl, ?_, hdat, rfl⟩
    show p.data.read (p.ib 0) kdf.prefixData.cb ++ kdf.suffixData.bytes p.data = pfx ++ suffix
    rw [hcb, hread, hsuf]

/-! ## The pieces of a node -/

/-- The pieces put together are the node: the suffix comes from the old suffix only, or from the end
of the old prefix and the old suffix. -/
theorem flatten_pieces (kdf : KEYDATAFLAGS) (m : Mem) {cbPrefix : Nat} (hc : cbPrefix ≤ kdf.cbKey) :
    (piecesAt m (cdataNDIPrefixAndKeydataflagsToDataflags kdf cbPrefix).1).flatten
      = nodeBytes cbPrefix ((kdf.key m).drop cbPrefix) (kdf.data.bytes m) := by
  have hplen := PageDATA.length_bytes m kdf.prefixData
  have hslen := PageDATA.length_bytes m kdf.suffixData
  unfold KEYDATAFLAGS.cbKey at hc
  have hdrop : (kdf.key m).drop cbPrefix
      = if kdf.prefixData.cb ≤ cbPrefix then
          (kdf.suffixData.bytes m).drop (cbPrefix - kdf.prefixData.cb)
        else (kdf.prefixData.bytes m).drop cbPrefix ++ kdf.suffixData.bytes m := by
    unfold KEYDATAFLAGS.key
    split_ifs with hle
    · rw [List.drop_append, List.drop_eq_nil_of_le (by omega), List.nil_append, hplen]
    · rw [List.drop_append_of_le_length (by omega)]
  unfold cdataNDIPrefixAndKeydataflagsToDataflags nodeBytes
  rw [hdrop]
  by_cases hle : kdf.prefixData.cb ≤ cbPrefix
  · have hadv : (kdf.suffixData.advance (cbPrefix - kdf.prefixData.cb)).bytes m
        = (kdf.suffixData.bytes m).drop (cbPrefix - kdf.prefixData.cb) :=
      PageDATA.bytes_advance m (by omega)
    simp only [if_pos hle, piecesAt, List.map_append, List.map_cons, List.map_nil,
      List.flatten_append, List.flatten_cons, List.flatten_nil, List.append_nil, hadv,
      List.length_drop, hslen, PageDATA.bytes_off]
    split_ifs <;> simp
  · have hadv : (kdf.prefixData.advance cbPrefix).bytes m
        = (kdf.prefixData.bytes m).drop cbPrefix := PageDATA.bytes_advance m (by omega)
    have hlen : kdf.suffixData.cb + (kdf.prefixData.cb - cbPrefix)
        = ((kdf.prefixData.bytes m).drop cbPrefix ++ kdf.suffixData.bytes m).length := by
      rw [List.length_append, List.length_drop, hplen, hslen, Nat.add_comm]
    simp only [if_neg hle, piecesAt, List.map_append, List.map_cons, List.map_nil,
      List.flatten_append, List.flatten_cons, List.flatten_nil, List.append_nil, hadv, hlen,
      PageDATA.bytes_off]
    split_ifs <;> simp

/-- With key and data that are not on the page the pieces are not. -/
theorem offPage_pieces {kp ks d : List Byte} (f : BitVec 16) (cbPrefix : Nat) :
    OffPage (cdataNDIPrefixAndKeydataflagsToDataflags ⟨.off kp, .off ks, .off d, f⟩ cbPrefix).1 :=
      by
  have hword : ∀ w x, x ∈ (if cbPrefix > 0 then [PageDATA.off w] else []) → x = .off w := by
    intro w x hx
    split_ifs at hx
    · exact List.mem_singleton.1 hx
    · cases hx
  intro x hx
  unfold cdataNDIPrefixAndKeydataflagsToDataflags at hx
  by_cases hle : (PageDATA.off kp).cb ≤ cbPrefix
  · simp only [if_pos hle, List.mem_append, List.mem_cons, List.not_mem_nil, or_false] at hx
    rcases hx with (hx | rfl | rfl) | rfl
    · exact ⟨_, hword _ x hx⟩
    · exact ⟨_, rfl⟩
    · exact ⟨_, rfl⟩
    · exact ⟨_, rfl⟩
  · simp only [if_neg hle, List.mem_append, List.mem_cons, List.not_mem_nil, or_false] at hx
    rcases hx with (hx | rfl | rfl | rfl) | rfl
    · exact ⟨_, hword _ x hx⟩
    · exact ⟨_, rfl⟩
    · exact ⟨_, rfl⟩
    · exact ⟨_, rfl⟩
    · exact ⟨_, rfl⟩

/-! ## The operations -/

/-- The line of `iline` holds the node with `cbPrefix` bytes of its key left to the page prefix: on
every page that has this line and an external header that starts with these bytes, the node is
read with its whole key. -/
def HoldsNode (q : CPage) (iline cbPrefix : Nat) (key data : List Byte) (fFlags : BitVec 16) :
    Prop :=
  ∀ q' : CPage, q'.size = q.size → q'.ctagReserved = q.ctagReserved →
    q'.getPtr_ (iline + q'.ctagReserved) = q.getPtr_ (iline + q'.ctagReserved) →
    key.take cbPrefix <+: (q'.getPtr_ 0).pv → q'.ReadsNode iline key data fFlags

theorem holdsNode_of_line {iline cbPrefix : Nat} {key data : List Byte} {f : BitVec 16}
    (hk : key.length < 8192) (hc : cbPrefix ≤ key.length)
    (hl : q.getPtr_ (iline + q.ctagReserved) = Line.store q.fSmallFormat false
      (nodeBytes cbPrefix (key.drop cbPrefix) data) (nodeFlags cbPrefix f)) :
    q.HoldsNode iline cbPrefix key data (nodeFlags cbPrefix f &&& 7) := by
  intro q' hsize hr hline hpfx
  have hfs : q'.fSmallFormat = q.fSmallFormat := by unfold CPage.fSmallFormat; rw [hsize]
  rw [hr, hl, ← hfs, ← hr] at hline
  have hst := storesNode_of_line (by omega) (by rw [List.length_drop]; omega) hline
  have hread := hst.readsNode
    (show (key.take cbPrefix).length = cbPrefix by rw [List.length_take]; exact Nat.min_eq_left hc)
    hpfx
  rwa [List.take_append_drop] at hread

/-- `NDInsert` adds one line, and the node is read from it. -/
theorem ndInsert_spec (env : PageEnv) (h : p.Layout r) {iline cbPrefix : Nat}
    {kp ks data : List Byte} (f : BitVec 16) (hi : iline + r ≤ p.itagMicFree)
    (hk : (kp ++ ks).length < 8192) (hc : cbPrefix ≤ (kp ++ ks).length)
    (hroom : (nodeBytes cbPrefix ((kp ++ ks).drop cbPrefix) data).length + cbTag ≤ p.cbFree)
    (hbuf : p.Compactable env
      ((nodeBytes cbPrefix ((kp ++ ks).drop cbPrefix) data).length + cbTag)) :
    ∃ q, p.ndInsert env iline ⟨.off kp, .off ks, .off data, f⟩ cbPrefix = some q ∧ q.Layout r ∧
      q.lines = p.lines.insertIdx (iline + r) (q.getPtr_ (iline + r)) ∧
      q.StoresNode (iline + r) cbPrefix ((kp ++ ks).drop cbPrefix) data
        (nodeFlags cbPrefix f &&& 7) ∧
      q.HoldsNode iline cbPrefix (kp ++ ks) data (nodeFlags cbPrefix f &&& 7) := by
  have hus : ushort (cbPrefix : Int) = cbPrefix := ushort_natCast (by omega)
  have hoff : OffPage (cdataNDIPrefixAndKeydataflagsToDataflags
      ⟨.off kp, .off ks, .off data, f⟩ cbPrefix).1 := offPage_pieces f cbPrefix
  have hflat := flatten_pieces ⟨.off kp, .off ks, .off data, f⟩ p.data
    (show cbPrefix ≤ kp.length + ks.length by rwa [List.length_append] at hc)
  obtain ⟨q, hq, hl, hsize, hlines⟩ := insert_spec env h (Nat.le_add_left r iline) hi
    (nodeFlags cbPrefix f) (by rw [hflat]; exact hroom) (by rw [hflat]; exact hbuf)
  rw [hflat] at hlines
  have hq0 : q.getPtr_ (iline + r) = Line.store p.fSmallFormat false
      (nodeBytes cbPrefix ((kp ++ ks).drop cbPrefix) data) (nodeFlags cbPrefix f) := by
    have hlen : iline + r < q.lines.length := by
      rw [hlines, List.length_insertIdx_of_le_length (by rw [length_lines]; exact hi),
        length_lines]
      omega
    rw [← getElem_lines q hlen]
    simp only [hlines, List.getElem_insertIdx_self]
    rfl
  have hfs : q.fSmallFormat = p.fSmallFormat := by unfold CPage.fSmallFormat; rw [hsize]
  refine ⟨q, ?_, hl, by rw [hq0]; exact hlines, ?_, ?_⟩
  · unfold ndInsert
    rw [hus, h.ctagReserved]
    exact (hoff.insertFrom_eq env _ p.data).trans hq
  · exact storesNode_of_line (by omega) (by rw [List.length_drop]; omega) (by rw [hq0, hfs])
  · refine holdsNode_of_line hk hc ?_
    rw [hl.ctagReserved, hq0, hfs]

/-- Replacing the line of a node by the pieces of the node with another split of its key. -/
theorem replaceNode_spec (env : PageEnv) (h : p.Layout r) {iline cbPrefix : Nat}
    {kdf : KEYDATAFLAGS} {pfx : List Byte} (hi : iline + r < p.itagMicFree)
    (hc : cbPrefix ≤ kdf.cbKey) (hk : kdf.cbKey < 8192) (hpfx : pfx.length = kdf.prefixData.cb)
    (hdrop : (kdf.key p.data).drop cbPrefix
      = (pfx ++ kdf.suffixData.bytes p.data).drop cbPrefix)
    (hroom : (nodeBytes cbPrefix ((kdf.key p.data).drop cbPrefix)
      (kdf.data.bytes p.data)).length ≤ p.cbFree + p.cb (iline + r))
    (hbuf : p.Moves (iline + r) (nodeBytes cbPrefix ((kdf.key p.data).drop cbPrefix)
      (kdf.data.bytes p.data)).length → p.Compactable env (nodeBytes cbPrefix
        ((kdf.key p.data).drop cbPrefix) (kdf.data.bytes p.data)).length) :
    ∃ q, p.replace_ env (iline + r)
        (piecesAt p.data (cdataNDIPrefixAndKeydataflagsToDataflags kdf cbPrefix).1)
        (nodeFlags cbPrefix kdf.fFlags) = some q ∧ q.Layout r ∧
      q.lines = p.lines.set (iline + r) (q.getPtr_ (iline + r)) ∧
      q.StoresNode (iline + r) cbPrefix ((pfx ++ kdf.suffixData.bytes p.data).drop cbPrefix)
        (kdf.data.bytes p.data) (nodeFlags cbPrefix kdf.fFlags &&& 7) ∧
      q.HoldsNode iline cbPrefix (pfx ++ kdf.suffixData.bytes p.data) (kdf.data.bytes p.data)
        (nodeFlags cbPrefix kdf.fFlags &&& 7) := by
  have hflat := flatten_pieces kdf p.data hc
  obtain ⟨q, hq, hl, hsize, hlines⟩ := replace_spec env h hi (nodeFlags cbPrefix kdf.fFlags)
    (by rw [hflat]; exact hroom) (by rw [hflat]; exact hbuf)
  have hpos := h.pos
  have hne : (iline + r == 0) = false := by simp; omega
  rw [hflat, hne, hdrop] at hlines
  have hlen : iline + r < q.lines.length := by
    rw [hlines, List.length_set, length_lines]
    exact hi
  have hq0 : q.getPtr_ (iline + r) = Line.store p.fSmallFormat false
      (nodeBytes cbPrefix ((pfx ++ kdf.suffixData.bytes p.data).drop cbPrefix)
        (kdf.data.bytes p.data)) (nodeFlags cbPrefix kdf.fFlags) := by
    rw [← getElem_lines q hlen]
    simp only [hlines, List.getElem_set_self]
  have hfs : q.fSmallFormat = p.fSmallFormat := by unfold CPage.fSmallFormat; rw [hsize]
  have hklen : (pfx ++ kdf.suffixData.bytes p.data).length = kdf.cbKey := by
    rw [List.length_append, hpfx, PageDATA.length_bytes]
    rfl
  refine ⟨q, hq, hl, by rw [hq0]; exact hlines, ?_, ?_⟩
  · exact storesNode_of_line (by omega) (by rw [List.length_drop]; omega) (by rw [hq0, hfs])
  · refine holdsNode_of_line (by omega) (by omega) ?_
    rw [hl.ctagReserved, hq0, hfs]

/-- Where a node that was read has its parts: the suffix after one or two counts, the data from
there to the end of the line. -/
theorem ndiGetKeydataflags_parts {fSpaceTree : Bool} {iline : Nat} {kdf : KEYDATAFLAGS}
    (h : p.ndiGetKeydataflags false fSpaceTree iline = some kdf) :
    ∃ cbCounts cbSuffix, (cbCounts = 4 ∨ cbCounts = 2 ∧ kdf.prefixData.cb = 0) ∧
      cbCounts + cbSuffix ≤ p.cb (iline + p.ctagReserved) ∧
      kdf.suffixData = .on (p.ib (iline + p.ctagReserved) + cbCounts) cbSuffix ∧
      kdf.data = .on (p.ib (iline + p.ctagReserved) + cbCounts + cbSuffix)
        (p.cb (iline + p.ctagReserved) - cbSuffix - cbCounts) := by
  unfold ndiGetKeydataflags at h
  obtain ⟨kdf', hline, h⟩ := Option.bind_eq_some_iff.1 h
  unfold ndiLineToKeydataflags at hline
  set itag := iline + p.ctagReserved
  simp only [Bool.not_false, if_true] at h
  by_cases hcomp : (p.getPtr_ itag).fFlags &&& fNDCompressed ≠ 0
  · simp only [hcomp, ne_eq, not_false_eq_true, if_true] at hline
    split_ifs at hline with h₁ h₂
    injection hline with hline
    subst hline
    rw [if_pos hcomp] at h
    injection h with h
    subst h
    refine ⟨4, _, .inl rfl, ?_, rfl, rfl⟩
    change ¬ p.cb itag < _ + 4 at h₂
    omega
  · simp only [hcomp, if_false] at hline
    split_ifs at hline with h₁ h₂
    injection hline with hline
    subst hline
    rw [if_neg hcomp] at h
    injection h with h
    subst h
    refine ⟨2, _, .inr ⟨rfl, rfl⟩, ?_, rfl, rfl⟩
    change ¬ p.cb itag < _ + 2 at h₂
    omega

/-- The bytes a key has after more than its prefix do not depend on the prefix. -/
theorem drop_key {kdf : KEYDATAFLAGS} {m : Mem} {pfx : List Byte} {n : Nat}
    (hpfx : pfx.length = kdf.prefixData.cb) (hn : kdf.prefixData.cb ≤ n) :
    (kdf.key m).drop n = (pfx ++ kdf.suffixData.bytes m).drop n := by
  have hlen := PageDATA.length_bytes m kdf.prefixData
  have h₁ : (kdf.prefixData.bytes m).drop n = [] := List.drop_eq_nil_of_le (by omega)
  have h₂ : pfx.drop n = [] := List.drop_eq_nil_of_le (by omega)
  unfold KEYDATAFLAGS.key
  rw [List.drop_append, List.drop_append, h₁, h₂, hpfx, hlen]

/-- `NDGrowCbPrefix` of a node with `cbPrefixNew` above the bytes in the prefix so far: the node is
rewritten from its own bytes. -/
theorem ndGrowCbPrefix_spec (env : PageEnv) (h : p.Layout r) {fSpaceTree : Bool}
    {iline cbPrefixNew : Nat} {kdf : KEYDATAFLAGS} {pfx : List Byte}
    (hi : iline + r < p.itagMicFree)
    (hget : p.ndiGetKeydataflags false fSpaceTree iline = some kdf)
    (hpfx : pfx.length = kdf.prefixData.cb) (hgrow : kdf.prefixData.cb < cbPrefixNew)
    (hover : cbPrefixOverhead < cbPrefixNew) (hc : cbPrefixNew ≤ kdf.cbKey)
    (hk : kdf.cbKey < 8192) :
    ∃ q, p.ndGrowCbPrefix env iline kdf cbPrefixNew = some q ∧ q.Layout r ∧
      q.lines = p.lines.set (iline + r) (q.getPtr_ (iline + r)) ∧
      q.StoresNode (iline + r) cbPrefixNew
        ((pfx ++ kdf.suffixData.bytes p.data).drop cbPrefixNew) (kdf.data.bytes p.data)
        (nodeFlags cbPrefixNew kdf.fFlags &&& 7) ∧
      q.HoldsNode iline cbPrefixNew (pfx ++ kdf.suffixData.bytes p.data)
        (kdf.data.bytes p.data) (nodeFlags cbPrefixNew kdf.fFlags &&& 7) := by
  obtain ⟨k, s, hcounts, hle, hsuf, hdat⟩ := ndiGetKeydataflags_parts hget
  rw [h.ctagReserved] at hle hsuf hdat
  set itag := iline + r
  change 2 < cbPrefixNew at hover
  have hus : ushort (cbPrefixNew : Int) = cbPrefixNew := ushort_natCast (by omega)
  have hbound := h.bounded itag hi (by omega)
  have hmic := h.ibMicFree_le
  set kdf' := kdf.ndiSetCompressed with hkdf'
  have hscb : kdf.suffixData.cb = s := by rw [hsuf]; rfl
  set n := cbPrefixNew - kdf.prefixData.cb with hn
  have hns : n ≤ s := by unfold KEYDATAFLAGS.cbKey at hc; omega
  have hpieces : (cdataNDIPrefixAndKeydataflagsToDataflags kdf' cbPrefixNew).1
      = [.off (wordBytes (BitVec.ofNat 16 cbPrefixNew)),
        .off (wordBytes (BitVec.ofNat 16 (s - n))), .on (p.ib itag + k + n) (s - n),
        .on (p.ib itag + k + s) (p.cb itag - s - k)] := by
    have hle' : kdf'.prefixData.cb ≤ cbPrefixNew := hgrow.le
    have hs' : kdf'.suffixData = .on (p.ib itag + k) s := hsuf
    have hd' : kdf'.data = .on (p.ib itag + k + s) (p.cb itag - s - k) := hdat
    unfold cdataNDIPrefixAndKeydataflagsToDataflags
    simp only [if_pos hle', if_pos (show cbPrefixNew > 0 by omega), hs', hd']
    rfl
  have hflags : nodeFlags cbPrefixNew kdf'.fFlags = nodeFlags cbPrefixNew kdf.fFlags := by
    unfold nodeFlags
    rw [if_pos (by omega), if_pos (by omega), hkdf']
    unfold KEYDATAFLAGS.ndiSetCompressed
    rw [BitVec.or_assoc, BitVec.or_self]
  have htotal : cbTotalFrom (cdataNDIPrefixAndKeydataflagsToDataflags kdf' cbPrefixNew).1
      = 4 + (s - n) + (p.cb itag - s - k) := by
    rw [hpieces]
    show 2 + (2 + ((s - n) + ((p.cb itag - s - k) + 0))) = _
    omega
  have hreplace := replaceFrom_eq env h hi (nodeFlags cbPrefixNew kdf'.fFlags)
    (show cbTotalFrom (cdataNDIPrefixAndKeydataflagsToDataflags kdf' cbPrefixNew).1 ≤ p.cb itag by
      rw [htotal]; omega)
    (by
      -- each piece starts at or past the end of the pieces before it
      rw [hpieces]
      show p.ib itag + 2 + 2 ≤ p.ib itag + k + n ∧
        p.ib itag + 2 + 2 + (s - n) ≤ p.ib itag + k + s ∧ True
      exact ⟨by omega, by omega, trivial⟩)
    (fun ib cb hmem => by
      rw [hpieces] at hmem
      simp only [List.mem_cons, reduceCtorEq, PageDATA.on.injEq, List.not_mem_nil, or_false,
        false_or] at hmem
      rcases hmem with ⟨rfl, rfl⟩ | ⟨rfl, rfl⟩ <;> omega)
  have hkey : kdf'.key = kdf.key := rfl
  -- the node does not grow, so it stays where it is
  have hlen : (nodeBytes cbPrefixNew ((kdf'.key p.data).drop cbPrefixNew)
      (kdf'.data.bytes p.data)).length ≤ p.cb itag := by
    rw [← flatten_pieces kdf' p.data hc, ← cbDataTotal_eq, ← cbTotalFrom_eq, htotal]
    omega
  obtain ⟨q, hq, hl, hlines, hstores, hnode⟩ := replaceNode_spec env h hi
    (show cbPrefixNew ≤ kdf'.cbKey from hc) hk hpfx (drop_key hpfx hgrow.le)
    (hlen.trans (Nat.le_add_left _ _))
    (fun hm => absurd hm.1 (Nat.not_lt.2 hlen))
  rw [hflags] at hstores hnode
  refine ⟨q, ?_, hl, hlines, hstores, hnode⟩
  unfold ndGrowCbPrefix
  rw [hus, h.ctagReserved]
  exact hreplace.trans hq

/-- `NDShrinkCbPrefix` of a node with `cbPrefixNew` below the bytes in the prefix so far, which are
the first bytes of the old page prefix. -/
theorem ndShrinkCbPrefix_spec (env : PageEnv) (h : p.Layout r) {iline cbPrefixNew : Nat}
    {kdf : KEYDATAFLAGS} {dataOldPrefix : List Byte} (hi : iline + r < p.itagMicFree)
    (hold : kdf.prefixData.cb ≤ dataOldPrefix.length) (hshrink : cbPrefixNew < kdf.prefixData.cb)
    (hk : kdf.cbKey < 8192)
    (hroom : (nodeBytes cbPrefixNew ((dataOldPrefix.take kdf.prefixData.cb ++
      kdf.suffixData.bytes p.data).drop cbPrefixNew) (kdf.data.bytes p.data)).length
        ≤ p.cbFree + p.cb (iline + r))
    (hbuf : p.Moves (iline + r) (nodeBytes cbPrefixNew ((dataOldPrefix.take kdf.prefixData.cb ++
      kdf.suffixData.bytes p.data).drop cbPrefixNew) (kdf.data.bytes p.data)).length →
        p.Compactable env (nodeBytes cbPrefixNew ((dataOldPrefix.take kdf.prefixData.cb ++
          kdf.suffixData.bytes p.data).drop cbPrefixNew) (kdf.data.bytes p.data)).length) :
    ∃ q, p.ndShrinkCbPrefix env iline kdf dataOldPrefix cbPrefixNew = some q ∧ q.Layout r ∧
      q.lines = p.lines.set (iline + r) (q.getPtr_ (iline + r)) ∧
      q.StoresNode (iline + r) cbPrefixNew ((dataOldPrefix.take kdf.prefixData.cb ++
        kdf.suffixData.bytes p.data).drop cbPrefixNew) (kdf.data.bytes p.data)
        (nodeFlags cbPrefixNew kdf.fFlags &&& 7) ∧
      q.HoldsNode iline cbPrefixNew (dataOldPrefix.take kdf.prefixData.cb ++
        kdf.suffixData.bytes p.data) (kdf.data.bytes p.data)
        (nodeFlags cbPrefixNew kdf.fFlags &&& 7) := by
  set pfx := dataOldPrefix.take kdf.prefixData.cb with hpfx
  have hplen : pfx.length = kdf.prefixData.cb := by
    rw [hpfx, List.length_take]
    exact Nat.min_eq_left hold
  unfold KEYDATAFLAGS.cbKey at hk
  have hus : ushort (cbPrefixNew : Int) = cbPrefixNew := ushort_natCast (by omega)
  set f := if cbPrefixNew > 0 then kdf.fFlags ||| fNDCompressed
    else kdf.fFlags &&& ~~~fNDCompressed with hf
  set kdf' : KEYDATAFLAGS := ⟨.off pfx, .off (kdf.suffixData.bytes p.data),
    .off (kdf.data.bytes p.data), f⟩ with hkdf'
  have hcb' : kdf'.cbKey = kdf.prefixData.cb + kdf.suffixData.cb := by
    show pfx.length + (kdf.suffixData.bytes p.data).length = _
    rw [hplen, PageDATA.length_bytes]
  have hflags : nodeFlags cbPrefixNew f = nodeFlags cbPrefixNew kdf.fFlags := by
    unfold nodeFlags
    rw [hf]
    split_ifs
    · rw [BitVec.or_assoc, BitVec.or_self]
    · rw [BitVec.and_assoc, BitVec.and_self]
  obtain ⟨q, hq, hl, hlines, hstores, hnode⟩ := replaceNode_spec env h hi
    (show cbPrefixNew ≤ kdf'.cbKey by omega) (show kdf'.cbKey < 8192 by omega)
    (show pfx.length = kdf'.prefixData.cb from rfl) rfl hroom hbuf
  refine ⟨q, ?_, hl, hlines, ?_, ?_⟩
  · have hoff : OffPage (cdataNDIPrefixAndKeydataflagsToDataflags kdf' cbPrefixNew).1 :=
      offPage_pieces f cbPrefixNew
    have hmodel : p.ndShrinkCbPrefix env iline kdf dataOldPrefix cbPrefixNew
        = p.replaceFrom_ env (iline + r)
          (cdataNDIPrefixAndKeydataflagsToDataflags kdf' cbPrefixNew).1
          (nodeFlags cbPrefixNew f) := by
      unfold ndShrinkCbPrefix
      rw [hus, h.ctagReserved, hkdf', hf]
      split_ifs <;> rfl
    rw [hmodel]
    exact (hoff.replaceFrom_eq env _ p.data).trans hq
  · rw [hflags] at hstores
    exact hstores
  · rw [hflags] at hnode
    exact hnode

/-- Prefix compression is transparent. `NDInsert`, with any prefix the page and the key share, adds
one line from which the node is read with its whole key, its data and its flags, `fNDCompressed`
set if and only if some of the key is left to the prefix. `NDGrowCbPrefix` and `NDShrinkCbPrefix`
replace the line of the node, which then leaves `cbPrefixNew` bytes to the prefix, and leave every
other line alone; with any page prefix that starts with these bytes, the node is read with the same
key, data and other flags. `pfx` and `dataOldPrefix` are the old page prefix, which is no longer on
the page when a split changes it. The caller lets a prefix of `cbPrefixOverhead` bytes or less be
none, no key is as long as the counts allow, and where a line needs the page compacted the temporary
buffer holds the tags. -/
theorem nodePrefix_transparent (env : PageEnv) (h : p.Layout r) (iline : Nat) :
    (∀ cbPrefix kp ks data f, iline + r ≤ p.itagMicFree → (kp ++ ks).length < 8192 →
      cbPrefix ≤ (kp ++ ks).length → (kp ++ ks).take cbPrefix <+: (p.getPtr_ 0).pv →
      (nodeBytes cbPrefix ((kp ++ ks).drop cbPrefix) data).length + cbTag ≤ p.cbFree →
      p.Compactable env ((nodeBytes cbPrefix ((kp ++ ks).drop cbPrefix) data).length + cbTag) →
      ∃ q, p.ndInsert env iline ⟨.off kp, .off ks, .off data, f⟩ cbPrefix = some q ∧ q.Layout r ∧
        q.lines = p.lines.insertIdx (iline + r) (q.getPtr_ (iline + r)) ∧
        q.StoresNode (iline + r) cbPrefix ((kp ++ ks).drop cbPrefix) data
          (nodeFlags cbPrefix f &&& 7) ∧
        q.ReadsNode iline (kp ++ ks) data (nodeFlags cbPrefix f &&& 7)) ∧
    (∀ fSpaceTree kdf, iline + r < p.itagMicFree →
      p.ndiGetKeydataflags false fSpaceTree iline = some kdf → kdf.cbKey < 8192 →
      (∀ cbPrefixNew pfx, pfx.length = kdf.prefixData.cb → kdf.prefixData.cb < cbPrefixNew →
        cbPrefixOverhead < cbPrefixNew → cbPrefixNew ≤ kdf.cbKey →
        ∃ q, p.ndGrowCbPrefix env iline kdf cbPrefixNew = some q ∧ q.Layout r ∧
          q.lines = p.lines.set (iline + r) (q.getPtr_ (iline + r)) ∧
          q.StoresNode (iline + r) cbPrefixNew
            ((pfx ++ kdf.suffixData.bytes p.data).drop cbPrefixNew) (kdf.data.bytes p.data)
            (nodeFlags cbPrefixNew kdf.fFlags &&& 7) ∧
          q.HoldsNode iline cbPrefixNew (pfx ++ kdf.suffixData.bytes p.data)
            (kdf.data.bytes p.data) (nodeFlags cbPrefixNew kdf.fFlags &&& 7)) ∧
      (∀ cbPrefixNew dataOldPrefix, kdf.prefixData.cb ≤ dataOldPrefix.length →
        cbPrefixNew < kdf.prefixData.cb →
        (nodeBytes cbPrefixNew ((dataOldPrefix.take kdf.prefixData.cb ++
          kdf.suffixData.bytes p.data).drop cbPrefixNew) (kdf.data.bytes p.data)).length
            ≤ p.cbFree + p.cb (iline + r) →
        (p.Moves (iline + r) (nodeBytes cbPrefixNew ((dataOldPrefix.take kdf.prefixData.cb ++
          kdf.suffixData.bytes p.data).drop cbPrefixNew) (kdf.data.bytes p.data)).length →
          p.Compactable env (nodeBytes cbPrefixNew ((dataOldPrefix.take kdf.prefixData.cb ++
            kdf.suffixData.bytes p.data).drop cbPrefixNew) (kdf.data.bytes p.data)).length) →
        ∃ q, p.ndShrinkCbPrefix env iline kdf dataOldPrefix cbPrefixNew = some q ∧ q.Layout r ∧
          q.lines = p.lines.set (iline + r) (q.getPtr_ (iline + r)) ∧
          q.StoresNode (iline + r) cbPrefixNew ((dataOldPrefix.take kdf.prefixData.cb ++
            kdf.suffixData.bytes p.data).drop cbPrefixNew) (kdf.data.bytes p.data)
            (nodeFlags cbPrefixNew kdf.fFlags &&& 7) ∧
          q.HoldsNode iline cbPrefixNew (dataOldPrefix.take kdf.prefixData.cb ++
            kdf.suffixData.bytes p.data) (kdf.data.bytes p.data)
            (nodeFlags cbPrefixNew kdf.fFlags &&& 7))) := by
  refine ⟨fun cbPrefix kp ks data f hi hk hc hpfx hroom hbuf => ?_, fun fSpaceTree kdf hi hget hk =>
    ⟨fun cbPrefixNew pfx hlen hgrow hover hc => ?_,
      fun cbPrefixNew old hold hshrink hroom hbuf => ?_⟩⟩
  · obtain ⟨q, hq, hl, hlines, hstores, hnode⟩ := ndInsert_spec env h f hi hk hc hroom hbuf
    refine ⟨q, hq, hl, hlines, hstores, hnode q rfl rfl rfl ?_⟩
    -- the external header is the first line, and the new one comes after it
    have hpos := h.pos
    have hres := h.reserved
    have hhdr : q.getPtr_ 0 = p.getPtr_ 0 := by
      have hlenq : 0 < q.lines.length := by
        rw [hlines, List.length_insertIdx_of_le_length (by rw [length_lines]; exact hi)]
        omega
      rw [← getElem_lines q hlenq, ← getElem_lines p (j := 0) (by rw [length_lines]; omega)]
      have e := List.getElem_insertIdx_of_lt (l := p.lines) (x := q.getPtr_ (iline + r))
        (i := iline + r) (j := 0) (by omega)
        (by rw [List.length_insertIdx_of_le_length (by rw [length_lines]; exact hi)]; omega)
      rw [← e]
      congr 1
    rw [hhdr]
    exact hpfx
  · exact ndGrowCbPrefix_spec env h hi hget hlen hgrow hover hc hk
  · exact ndShrinkCbPrefix_spec env h hi hold hshrink hk hroom hbuf

/-- A 4 KB page with the page prefix 1 2 3 4 5 and one node, not compressed, with key 1 2 3 4 9 9
and one byte of data. -/
def nodePage : CPage where
  size := .kb4
  fResvTagFormatEnabled := false
  itagMicFree := 2
  ctagReserved := 1
  cbFree := 4034
  ibMicFree := 14
  itagState := 2
  data := fun a => if a = 4052 then 5 else if a = 4048 then 9 else if a = 4050 then 5
    else ([1, 2, 3, 4, 5, 6, 0, 1, 2, 3, 4, 9, 9, 7] : List Byte).getD a 0

theorem layout_nodePage : nodePage.Layout 1 := by
  have hcases : ∀ i, i < nodePage.itagMicFree → i = 0 ∨ i = 1 := fun i hi => by
    change i < 2 at hi
    omega
  refine ⟨rfl, le_rfl, by decide, by decide +kernel, by decide, fun i hi _ => ?_,
    fun i j hi hj hij _ _ => ?_⟩
  · rcases hcases i hi with rfl | rfl <;> decide +kernel
  · rcases hcases i hi with rfl | rfl <;> rcases hcases j hj with rfl | rfl
    · exact absurd rfl hij
    · decide +kernel
    · decide +kernel
    · exact absurd rfl hij

theorem nodePrefix_transparent_nodePage : let env : PageEnv := ⟨mergeTagSort, true, 4096⟩
    (∃ q, nodePage.ndInsert env 1 ⟨.off [1, 2], .off [3, 8], .off [7], 1⟩ 3 = some q ∧
      q.ReadsNode 1 [1, 2, 3, 8] [7] 5) ∧
    ∃ kdf q, nodePage.ndiGetKeydataflags false false 0 = some kdf ∧
      nodePage.ndGrowCbPrefix env 0 kdf 4 = some q ∧ q.StoresNode 1 4 [9, 9] [7] 4 ∧
      q.HoldsNode 0 4 [1, 2, 3, 4, 9, 9] [7] 4 := by
  intro env
  obtain ⟨hinsert, -⟩ := nodePrefix_transparent env layout_nodePage 1
  obtain ⟨q, hq, -, -, -, hread⟩ := hinsert 3 [1, 2] [3, 8] [7] 1 (by decide) (by decide)
    (by decide) (by decide +kernel) (by decide) (fun _ => by decide)
  obtain ⟨-, hsplit⟩ := nodePrefix_transparent env layout_nodePage 0
  have hget : nodePage.ndiGetKeydataflags false false 0
      = some ⟨.off [], .on 7 6, .on 13 1, 0⟩ := by decide +kernel
  obtain ⟨hgrow, -⟩ := hsplit false _ (by decide) hget (by decide)
  obtain ⟨q', hq', -, -, hstores, hnode⟩ := hgrow 4 [] rfl (by decide) (by decide) (by decide)
  exact ⟨⟨q, hq, hread⟩, _, q', hget, hq', hstores, hnode⟩

end CPage

end Ese
