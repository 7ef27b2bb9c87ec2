import Ese.Lib.LexCmp
import Ese.Lib.Memory

/-!
# Keys and data

A key is in memory in two parts, a prefix that the nodes of a page share and a suffix of its own.
The comparisons and the search for a common start go over the parts without putting them together;
that two prefixes are at one address saves them a look at the bytes. Whatever the parts are, the
comparisons are those of the bytes they hold (`cmpKey_eq`, `cmpKeyWithKeyData_eq`), and the common
start is that of the bytes (`cbCommonKey_eq`).
-/

namespace Ese

/-- The bytes at `pv` up to `pv + cb`. -/
structure DATA where
  pv : Nat
  cb : Nat
  deriving DecidableEq, Repr

/-- `DATA::Nullify`. -/
def DATA.null : DATA := ⟨0, 0⟩

/-- A key: a prefix, kept once for the page, and the rest. -/
structure KEY where
  prefixData : DATA
  suffixData : DATA
  deriving DecidableEq, Repr

/-- A bookmark, and a node of which no more matters. -/
structure KEYDATA where
  key : KEY
  data : DATA
  deriving DecidableEq, Repr

namespace KEY

variable (key : KEY)

/-- The length of the key. -/
def cb : Nat := key.prefixData.cb + key.suffixData.cb

/-- `FNull`. -/
def fNull : Bool := key.prefixData.cb = 0 ∧ key.suffixData.cb = 0

/-- `KEY::Advance`, of no more bytes than the key has. -/
def advance (cb : Nat) : KEY :=
  if cb < key.prefixData.cb then
    { key with prefixData := ⟨key.prefixData.pv + cb, key.prefixData.cb - cb⟩ }
  else
    ⟨.null, ⟨key.suffixData.pv + (cb - key.prefixData.cb),
      key.suffixData.cb - (cb - key.prefixData.cb)⟩⟩

end KEY

section
variable (m : Mem)

/-- The difference of the first bytes that differ, or zero. -/
def memcmp (pv1 pv2 cb : Nat) : Int :=
  prefixCmp (fun b : Byte => b.toNat) (m.read pv1 cb) (m.read pv2 cb)

/-- `KEY::CopyIntoBuffer`. -/
def copyIntoBuffer (key : KEY) (cbMax : Nat) : List Byte :=
  m.read key.prefixData.pv (min key.prefixData.cb cbMax) ++
    m.read key.suffixData.pv (min key.suffixData.cb (cbMax - key.prefixData.cb))

/-- `CmpData`. -/
def cmpData (data1 data2 : DATA) : Int :=
  let db : Int := data1.cb - data2.cb
  let cmp := memcmp m data1.pv data2.pv (if db < 0 then data1.cb else data2.cb)
  if cmp = 0 then db else cmp

/-- `CmpKeyShortest`: the prefixes, what is left of the longer prefix with the other suffix, and the
rest. -/
def cmpKeyShortest (key1 key2 : KEY) : Int :=
  let fReversed : Bool := ¬key1.prefixData.cb < key2.prefixData.cb
  let keySmallestPrefix := if fReversed then key2 else key1
  let keyLargestPrefix := if fReversed then key1 else key2
  let pb1 := keySmallestPrefix.prefixData.pv
  let pb2 := keyLargestPrefix.prefixData.pv
  let cbCompare := keySmallestPrefix.prefixData.cb
  let cmp := if pb1 = pb2 then 0 else memcmp m pb1 pb2 cbCompare
  let cmp := if cmp = 0 then
      let pb1 := keySmallestPrefix.suffixData.pv
      let pb2 := pb2 + cbCompare
      let cbCompare :=
        min (keyLargestPrefix.prefixData.cb - cbCompare) keySmallestPrefix.suffixData.cb
      let cmp := memcmp m pb1 pb2 cbCompare
      if cmp = 0 then
        memcmp m (pb1 + cbCompare) keyLargestPrefix.suffixData.pv
          (min (keySmallestPrefix.suffixData.cb - cbCompare) keyLargestPrefix.suffixData.cb)
      else cmp
    else cmp
  if fReversed then -cmp else cmp

/-- `CmpKey`. -/
def cmpKey (key1 key2 : KEY) : Int :=
  let cmp := cmpKeyShortest m key1 key2
  if cmp = 0 then (key1.cb : Int) - key2.cb else cmp

/-- `CmpKeyData`. -/
def cmpKeyData (kd1 kd2 : KEYDATA) : Int :=
  let cmp := cmpKey m kd1.key kd2.key
  if cmp = 0 then cmpData m kd1.data kd2.data else cmp

/-- `CmpKeyWithKeyData`: a key with a key and the data that continue it. -/
def cmpKeyWithKeyData (key : KEY) (keydata : KEYDATA) : Int :=
  let cmp := cmpKeyShortest m key keydata.key
  let cmp := if cmp = 0 ∧ key.cb > keydata.key.cb then
      cmpKeyShortest m (key.advance keydata.key.cb) ⟨.null, keydata.data⟩
    else cmp
  if cmp = 0 then (key.cb : Int) - (keydata.key.cb + keydata.data.cb) else cmp

/-- The loop of `CbCommonData`, with what is left of `cbMax`. -/
def cbCommonDataLoop (data1 data2 : DATA) : Nat → Nat → Nat
  | 0, ib => ib
  | cb + 1, ib =>
    if m (data1.pv + ib) = m (data2.pv + ib) then cbCommonDataLoop data1 data2 cb (ib + 1) else ib

/-- `CbCommonData`. -/
def cbCommonData (data1 data2 : DATA) : Nat :=
  cbCommonDataLoop m data1 data2 (min data1.cb data2.cb) 0

/-- The loop of `CbCommonKey`, with what is left of `cbMax`. -/
def cbCommonKeyLoop (key1 key2 : KEY) : Nat → Nat → Nat → Nat → Nat
  | 0, ib, _, _ => ib
  | cb + 1, ib, pb1, pb2 =>
    let pb1 := if key1.prefixData.cb = ib then key1.suffixData.pv else pb1
    let pb2 := if key2.prefixData.cb = ib then key2.suffixData.pv else pb2
    if m pb1 ≠ m pb2 then ib else cbCommonKeyLoop key1 key2 cb (ib + 1) (pb1 + 1) (pb2 + 1)

/-- `CbCommonKey`. -/
def cbCommonKey (key1 key2 : KEY) : Nat :=
  let cbMax := min key1.cb key2.cb
  let pb1 := key1.prefixData.pv
  let pb2 := key2.prefixData.pv
  let ib := if pb1 = pb2 then min key1.prefixData.cb key2.prefixData.cb else 0
  cbCommonKeyLoop m key1 key2 (cbMax - ib) ib (pb1 + ib) (pb2 + ib)

/-! ## The bytes of keys and data -/

/-- The bytes of data. -/
def DATA.bytes (data : DATA) : List Byte := m.read data.pv data.cb

/-- The bytes of a key. -/
def KEY.bytes (key : KEY) : List Byte := key.prefixData.bytes m ++ key.suffixData.bytes m

/-- The bytes that a key is compared with: those of a key and the data that follow them. -/
def KEYDATA.bytes (keydata : KEYDATA) : List Byte := keydata.key.bytes m ++ keydata.data.bytes m

/-- The order of bytes and byte strings. -/
abbrev cmpBytes (a b : List Byte) : Int := lexCmp (fun b : Byte => b.toNat) a b

end

/-- Bytes are their numbers. -/
theorem toNat_injective : Function.Injective fun b : Byte => (b.toNat : Int) := fun _ _ h =>
  BitVec.eq_of_toNat_eq (by simpa using h)

variable {m : Mem}

/-- The bytes are as many as the data says. -/
@[simp] theorem DATA.length_bytes (data : DATA) : (data.bytes m).length = data.cb :=
  Mem.length_read _ _ _

/-- The bytes are as many as the key says. -/
@[simp] theorem KEY.length_bytes (key : KEY) : (key.bytes m).length = key.cb := by
  rw [bytes, List.length_append, DATA.length_bytes, DATA.length_bytes, cb]

/-- Null data has no bytes. -/
@[simp] theorem DATA.bytes_null : DATA.null.bytes m = [] := rfl

/-- A null key has no bytes. -/
theorem KEY.fNull_iff (key : KEY) : key.fNull = true ↔ key.bytes m = [] := by
  rw [← List.length_eq_zero_iff, KEY.length_bytes, fNull, cb, decide_eq_true_eq]
  omega

/-- The bytes of a key past the first `cb`. -/
theorem KEY.bytes_advance (key : KEY) {cb : Nat} (h : cb ≤ key.cb) :
    (key.advance cb).bytes m = (key.bytes m).drop cb := by
  unfold KEY.cb at h
  unfold advance
  split
  · next hlt =>
    have hread := m.read_add key.prefixData.pv cb (key.prefixData.cb - cb)
    rw [Nat.add_sub_cancel' hlt.le] at hread
    unfold bytes
    rw [List.drop_append_of_le_length (by rw [DATA.length_bytes]; exact hlt.le)]
    unfold DATA.bytes
    dsimp only
    rw [hread, List.drop_left' (m.length_read _ _)]
  · next hge =>
    obtain ⟨n, rfl⟩ := Nat.exists_eq_add_of_le (Nat.le_of_not_lt hge)
    have hread := m.read_add key.suffixData.pv n (key.suffixData.cb - n)
    rw [Nat.add_sub_cancel' (by omega)] at hread
    unfold bytes
    rw [DATA.bytes_null, List.nil_append]
    unfold DATA.bytes
    dsimp only
    rw [Nat.add_sub_cancel_left, ← List.drop_drop, List.drop_left' (m.length_read _ _), hread,
      List.drop_left' (m.length_read _ _)]

/-- The copy has the first bytes of the key. -/
theorem copyIntoBuffer_eq (key : KEY) {cbMax : Nat} (h : cbMax ≤ key.cb) :
    copyIntoBuffer m key cbMax = (key.bytes m).take cbMax := by
  have hread : ∀ (pv : Nat) {n k : Nat}, n ≤ k → m.read pv n = (m.read pv k).take n := by
    intro pv n k hle
    obtain ⟨j, rfl⟩ := Nat.exists_eq_add_of_le hle
    rw [m.read_add, List.take_left' (m.length_read _ _)]
  unfold KEY.cb at h
  unfold copyIntoBuffer KEY.bytes DATA.bytes
  rw [List.take_append, Mem.length_read, hread _ (min_le_left _ _), hread _ (min_le_left _ _)]
  congr 1
  · rw [List.take_eq_take_iff, Mem.length_read]
    omega
  · rw [List.take_eq_take_iff, Mem.length_read]
    omega

/-! ## Comparisons -/

/-- Memory compares equal with itself. -/
theorem memcmp_self (pv cb : Nat) : memcmp m pv pv cb = 0 := by
  have h := prefixCmp_antisymm (v := fun b : Byte => (b.toNat : Int)) (m.read pv cb) (m.read pv cb)
  unfold memcmp
  omega

/-- Bytes of one length are compared before what follows them. -/
theorem memcmp_append (pv1 pv2 cb : Nat) (s t : List Byte) :
    prefixCmp (fun b : Byte => (b.toNat : Int)) (m.read pv1 cb ++ s) (m.read pv2 cb ++ t)
      = if memcmp m pv1 pv2 cb = 0 then prefixCmp (fun b : Byte => (b.toNat : Int)) s t
        else memcmp m pv1 pv2 cb :=
  prefixCmp_append (by rw [Mem.length_read, Mem.length_read]) toNat_injective s t

/-- Only the length of the shorter of both counts. -/
theorem prefixCmp_read (pv1 pv2 cb1 cb2 : Nat) :
    prefixCmp (fun b : Byte => (b.toNat : Int)) (m.read pv1 cb1) (m.read pv2 cb2)
      = memcmp m pv1 pv2 (min cb1 cb2) := by
  rcases Nat.le_total cb1 cb2 with h | h
  · obtain ⟨k, rfl⟩ := Nat.exists_eq_add_of_le h
    have hcut := prefixCmp_take (v := fun b : Byte => (b.toNat : Int)) (m.read pv1 cb1)
      (m.read pv2 (cb1 + k)) cb1 (by rw [Mem.length_read])
    rw [← hcut, m.read_add, List.take_left' (m.length_read _ _), min_eq_left h]
    rfl
  · obtain ⟨k, rfl⟩ := Nat.exists_eq_add_of_le h
    have hcut := prefixCmp_take (v := fun b : Byte => (b.toNat : Int)) (m.read pv2 cb2)
      (m.read pv1 (cb2 + k)) cb2 (by rw [Mem.length_read])
    rw [prefixCmp_antisymm, ← hcut, m.read_add, List.take_left' (m.length_read _ _),
      min_eq_right h, prefixCmp_antisymm, neg_neg]
    rfl

/-- `CmpData` is the order of the bytes. -/
theorem cmpData_eq (data1 data2 : DATA) :
    cmpData m data1 data2 = cmpBytes (data1.bytes m) (data2.bytes m) := by
  have hmin : (if (data1.cb : Int) - data2.cb < 0 then data1.cb else data2.cb)
      = min data1.cb data2.cb := by
    split <;> omega
  unfold cmpData cmpBytes lexCmp
  dsimp only
  rw [hmin, DATA.length_bytes, DATA.length_bytes]
  unfold DATA.bytes
  rw [prefixCmp_read]
  split <;> simp_all

/-- The comparison of a key of the shorter prefix with one of the longer. -/
theorem prefixCmp_bytes {key1 key2 : KEY} (h : key1.prefixData.cb ≤ key2.prefixData.cb) :
    prefixCmp (fun b : Byte => (b.toNat : Int)) (key1.bytes m) (key2.bytes m) =
      if memcmp m key1.prefixData.pv key2.prefixData.pv key1.prefixData.cb = 0 then
        let cb := min (key2.prefixData.cb - key1.prefixData.cb) key1.suffixData.cb
        if memcmp m key1.suffixData.pv (key2.prefixData.pv + key1.prefixData.cb) cb = 0 then
          memcmp m (key1.suffixData.pv + cb) key2.suffixData.pv
            (min (key1.suffixData.cb - cb) key2.suffixData.cb)
        else memcmp m key1.suffixData.pv (key2.prefixData.pv + key1.prefixData.cb) cb
      else memcmp m key1.prefixData.pv key2.prefixData.pv key1.prefixData.cb := by
  obtain ⟨k, hk⟩ := Nat.exists_eq_add_of_le h
  unfold KEY.bytes DATA.bytes
  rw [hk, m.read_add, List.append_assoc, memcmp_append, Nat.add_sub_cancel_left]
  split
  · dsimp only
    rcases Nat.le_total k key1.suffixData.cb with hle | hle
    · -- the prefix of the second key ends within the suffix of the first
      obtain ⟨j, hj⟩ := Nat.exists_eq_add_of_le hle
      rw [hj, m.read_add, memcmp_append, min_eq_left (by omega), prefixCmp_read,
        Nat.add_sub_cancel_left]
    · obtain ⟨j, rfl⟩ := Nat.exists_eq_add_of_le hle
      have hcut := prefixCmp_take (v := fun b : Byte => (b.toNat : Int))
        (m.read key1.suffixData.pv key1.suffixData.cb)
        (m.read (key2.prefixData.pv + key1.prefixData.cb) (key1.suffixData.cb + j) ++
          m.read key2.suffixData.pv key2.suffixData.cb) key1.suffixData.cb (by rw [Mem.length_read])
      rw [m.read_add, List.append_assoc, List.take_left' (m.length_read _ _)] at hcut
      rw [m.read_add, List.append_assoc, ← hcut, min_eq_right hle, Nat.sub_self,
        Nat.zero_min]
      have hnil : memcmp m (key1.suffixData.pv + key1.suffixData.cb) key2.suffixData.pv 0 = 0 := rfl
      rw [hnil]
      unfold memcmp
      split
      · next hz => exact hz
      · rfl
  · rfl

/-- `CmpKeyShortest` compares over the shorter length. -/
theorem cmpKeyShortest_eq (key1 key2 : KEY) :
    cmpKeyShortest m key1 key2
      = prefixCmp (fun b : Byte => (b.toNat : Int)) (key1.bytes m) (key2.bytes m) := by
  have hpv : ∀ pv1 pv2 cb, (if pv1 = pv2 then 0 else memcmp m pv1 pv2 cb) =
    memcmp m pv1 pv2 cb := by
    intro pv1 pv2 cb
    split
    · next he => rw [he, memcmp_self]
    · rfl
  unfold cmpKeyShortest
  dsimp only
  by_cases h : key1.prefixData.cb < key2.prefixData.cb
  · simp only [h, not_true_eq_false, decide_false, Bool.false_eq_true, if_false]
    rw [hpv, prefixCmp_bytes h.le]
  · simp only [h, not_false_eq_true, decide_true, if_true]
    rw [hpv, prefixCmp_antisymm (key2.bytes m), prefixCmp_bytes (Nat.le_of_not_lt h)]

/-- `CmpKey` is the order of the bytes. -/
theorem cmpKey_eq (key1 key2 : KEY) :
    cmpKey m key1 key2 = cmpBytes (key1.bytes m) (key2.bytes m) := by
  unfold cmpKey cmpBytes lexCmp
  dsimp only
  rw [cmpKeyShortest_eq, KEY.length_bytes, KEY.length_bytes]
  split <;> simp_all

/-- A key is compared with the bytes of the other key and of the data that follow it. -/
theorem cmpKeyWithKeyData_eq (key : KEY) (keydata : KEYDATA) :
    cmpKeyWithKeyData m key keydata
      = cmpBytes (key.bytes m) (keydata.bytes m) := by
  have hdata : KEY.bytes m ⟨.null, keydata.data⟩ = keydata.data.bytes m := by
    rw [KEY.bytes, DATA.bytes_null, List.nil_append]
  have hlen : ((keydata.key.bytes m ++ keydata.data.bytes m).length : Int)
      = keydata.key.cb + keydata.data.cb := by
    rw [List.length_append, KEY.length_bytes, DATA.length_bytes, Nat.cast_add]
  unfold cmpKeyWithKeyData KEYDATA.bytes cmpBytes lexCmp
  dsimp only
  rw [hlen, KEY.length_bytes, cmpKeyShortest_eq, cmpKeyShortest_eq, hdata]
  by_cases hcb : key.cb > keydata.key.cb
  · rw [KEY.bytes_advance key hcb.le]
    have happ := prefixCmp_append (s := (key.bytes m).take keydata.key.cb)
      (t := keydata.key.bytes m)
      (by rw [List.length_take, KEY.length_bytes, KEY.length_bytes]; omega)
      toNat_injective ((key.bytes m).drop keydata.key.cb) (keydata.data.bytes m)
    have hcut := prefixCmp_take (v := fun b : Byte => (b.toNat : Int)) (keydata.key.bytes m)
      (key.bytes m) keydata.key.cb (by rw [KEY.length_bytes])
    rw [List.take_append_drop, prefixCmp_antisymm (keydata.key.bytes m) ((key.bytes m).take _),
      hcut,
      ← prefixCmp_antisymm] at happ
    rw [happ]
    split <;> simp_all
  · have hcut := prefixCmp_take (v := fun b : Byte => (b.toNat : Int)) (key.bytes m)
      (keydata.key.bytes m ++ keydata.data.bytes m) keydata.key.cb
      (by rw [KEY.length_bytes]; omega)
    rw [List.take_left' (KEY.length_bytes _)] at hcut
    rw [hcut]
    simp only [hcb, and_false, if_false]
    split <;> simp_all

/-! ## Common starts -/

/-- The rest of a read. -/
theorem read_drop (pv cb ib : Nat) : (m.read pv cb).drop ib = m.read (pv + ib) (cb - ib) := by
  rcases Nat.le_total ib cb with h | h
  · obtain ⟨k, rfl⟩ := Nat.exists_eq_add_of_le h
    rw [m.read_add, List.drop_left' (m.length_read _ _), Nat.add_sub_cancel_left]
  · rw [List.drop_eq_nil_of_le (by rw [Mem.length_read]; exact h), Nat.sub_eq_zero_of_le h]
    rfl

/-- The first byte of a read. -/
theorem read_succ (pv cb : Nat) : m.read pv (cb + 1) = m pv :: m.read (pv + 1) cb := by
  rw [Nat.add_comm, m.read_add]
  rfl

/-- The loop counts the bytes that the data share. -/
theorem cbCommonDataLoop_eq (data1 data2 : DATA) {cb ib : Nat}
    (h : ib + cb = min data1.cb data2.cb) :
    cbCommonDataLoop m data1 data2 cb ib
      = ib + commonLen ((data1.bytes m).drop ib) ((data2.bytes m).drop ib) := by
  unfold DATA.bytes
  rw [read_drop, read_drop]
  induction cb generalizing ib with
  | zero =>
    rw [cbCommonDataLoop]
    rcases Nat.le_total data1.cb data2.cb with hle | hle
    · rw [show data1.cb - ib = 0 by omega, Mem.read_zero, commonLen_nil_left, Nat.add_zero]
    · rw [show data2.cb - ib = 0 by omega, Mem.read_zero, commonLen_nil_right, Nat.add_zero]
  | succ cb ih =>
    obtain ⟨k, hk⟩ : ∃ k, data1.cb - ib = k + 1 := ⟨data1.cb - ib - 1, by omega⟩
    obtain ⟨k', hk'⟩ : ∃ k, data2.cb - ib = k + 1 := ⟨data2.cb - ib - 1, by omega⟩
    rw [cbCommonDataLoop, hk, hk', read_succ, read_succ]
    split
    · next he =>
      rw [ih (by omega), he, commonLen_cons_self, ← Nat.add_assoc, ← Nat.add_assoc,
        show data1.cb - (ib + 1) = k by omega, show data2.cb - (ib + 1) = k' by omega]
      omega
    · next hne => rw [commonLen_cons_ne hne, Nat.add_zero]

/-- `CbCommonData` is the number of bytes that the data share. -/
theorem cbCommonData_eq (data1 data2 : DATA) :
    cbCommonData m data1 data2 = commonLen (data1.bytes m) (data2.bytes m) := by
  unfold cbCommonData
  rw [cbCommonDataLoop_eq data1 data2 (Nat.zero_add _), Nat.zero_add, List.drop_zero,
    List.drop_zero]

/-- The address of a byte of a key. -/
def KEY.addr (key : KEY) (ib : Nat) : Nat :=
  if ib < key.prefixData.cb then key.prefixData.pv + ib
  else key.suffixData.pv + (ib - key.prefixData.cb)

/-- The next byte of the key. -/
theorem KEY.bytes_drop (key : KEY) {ib : Nat} (h : ib < key.cb) :
    (key.bytes m).drop ib = m (key.addr ib) :: (key.bytes m).drop (ib + 1) := by
  unfold KEY.cb at h
  unfold bytes addr DATA.bytes
  rw [List.drop_append, List.drop_append, Mem.length_read, read_drop, read_drop, read_drop,
    read_drop]
  split
  · next hlt =>
    obtain ⟨k, hk⟩ := Nat.exists_eq_add_of_lt hlt
    rw [show key.prefixData.cb - ib = k + 1 by omega,
      show key.prefixData.cb - (ib + 1) = k by omega, read_succ, Nat.add_assoc, List.cons_append,
      show ib - key.prefixData.cb = 0 by omega, show ib + 1 - key.prefixData.cb = 0 by omega]
  · next hge =>
    obtain ⟨k, rfl⟩ := Nat.exists_eq_add_of_le (Nat.le_of_not_lt hge)
    rw [show key.prefixData.cb - (key.prefixData.cb + k) = 0 by omega,
      show key.prefixData.cb - (key.prefixData.cb + k + 1) = 0 by
        omega, Mem.read_zero, Mem.read_zero,
      List.nil_append, List.nil_append, Nat.add_sub_cancel_left,
      show key.prefixData.cb + k + 1 - key.prefixData.cb = k + 1 by omega,
      show key.suffixData.cb - k = key.suffixData.cb - (k + 1) + 1 by
        omega, read_succ, Nat.add_assoc]

/-- The pointer is moved to the suffix where the prefix ends. -/
theorem KEY.addr_reset {key : KEY} {ib pb : Nat} (h : key.prefixData.cb ≠ ib → pb = key.addr ib) :
    (if key.prefixData.cb = ib then key.suffixData.pv else pb) = key.addr ib := by
  split
  · next he => rw [← he, addr, if_neg (Nat.lt_irrefl _), Nat.sub_self, Nat.add_zero]
  · next hne => exact h hne

/-- The next byte is behind this one, within the prefix or the suffix. -/
theorem KEY.addr_succ {key : KEY} {ib : Nat} (h : key.prefixData.cb ≠ ib + 1) :
    key.addr ib + 1 = key.addr (ib + 1) := by
  unfold addr
  split <;> split <;> omega

/-- Past the key there are no bytes. -/
theorem KEY.bytes_drop_nil (key : KEY) {ib : Nat} (h : key.cb ≤ ib) : (key.bytes m).drop ib = [] :=
  List.drop_eq_nil_of_le (by rw [length_bytes]; exact h)

/-- The loop looks at the bytes of both keys, one after the other. -/
theorem cbCommonKeyLoop_eq {key1 key2 : KEY} {cb ib pb1 pb2 : Nat}
    (h : ib + cb = min key1.cb key2.cb) (h₁ : key1.prefixData.cb ≠ ib → pb1 = key1.addr ib)
    (h₂ : key2.prefixData.cb ≠ ib → pb2 = key2.addr ib) :
    cbCommonKeyLoop m key1 key2 cb ib pb1 pb2
      = ib + commonLen ((key1.bytes m).drop ib) ((key2.bytes m).drop ib) := by
  induction cb generalizing ib pb1 pb2 with
  | zero =>
    rw [cbCommonKeyLoop]
    rcases Nat.le_total key1.cb key2.cb with hle | hle
    · rw [key1.bytes_drop_nil (by omega), commonLen_nil_left, Nat.add_zero]
    · rw [key2.bytes_drop_nil (by omega), commonLen_nil_right, Nat.add_zero]
  | succ cb ih =>
    rw [cbCommonKeyLoop, KEY.addr_reset h₁, KEY.addr_reset h₂, key1.bytes_drop (by omega),
      key2.bytes_drop (by omega)]
    split
    · next hne => rw [commonLen_cons_ne hne, Nat.add_zero]
    · next he =>
      rw [not_not] at he
      rw [he, commonLen_cons_self, ih (by omega) KEY.addr_succ KEY.addr_succ]
      omega

/-- Whatever the parts of the keys, and whether their prefixes are at one address or not. -/
theorem cbCommonKey_eq (key1 key2 : KEY) :
    cbCommonKey m key1 key2 = commonLen (key1.bytes m) (key2.bytes m) := by
  unfold cbCommonKey
  dsimp only
  split
  · next hpv =>
    obtain ⟨ib, hib⟩ : ∃ ib, min key1.prefixData.cb key2.prefixData.cb = ib := ⟨_, rfl⟩
    rw [hib]
    have hcommon : m.read key1.prefixData.pv ib = m.read key2.prefixData.pv ib := by rw [hpv]
    -- both keys start with the bytes at that address
    have hstart : ∀ key : KEY, ib ≤ key.prefixData.cb →
        key.bytes m = m.read key.prefixData.pv ib ++ (key.bytes m).drop ib := by
      intro key hle
      obtain ⟨k, hk⟩ := Nat.exists_eq_add_of_le hle
      have htake : (key.bytes m).take ib = m.read key.prefixData.pv ib := by
        unfold KEY.bytes DATA.bytes
        rw [hk, m.read_add, List.append_assoc, List.take_left' (m.length_read _ _)]
      rw [← htake, List.take_append_drop]
    have hle : ib ≤ min key1.cb key2.cb := by
      unfold KEY.cb
      omega
    rw [cbCommonKeyLoop_eq (Nat.add_sub_cancel' hle), hstart key1 (by omega),
      hstart key2 (by omega), ← hcommon, commonLen_append_left, Mem.length_read,
      List.drop_left' (m.length_read _ _), List.drop_left' (m.length_read _ _)]
    · intro hne
      rw [KEY.addr, if_pos (by omega)]
    · intro hne
      rw [KEY.addr, if_pos (by omega)]
  · have haddr : ∀ {key : KEY}, key.prefixData.cb ≠ 0 → key.prefixData.pv + 0 = key.addr 0 := by
      intro key hne
      rw [KEY.addr, if_pos (Nat.pos_of_ne_zero hne)]
    rw [cbCommonKeyLoop_eq (by omega) haddr haddr, Nat.zero_add, List.drop_zero, List.drop_zero]

end Ese
