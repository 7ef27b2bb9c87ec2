import Ese.Page.Replace

/-!
# Line operations whose data is on the page

Some callers of `Replace_` pass pointers into the page, even into the line that is replaced. A
`PageDATA` is such a pointer or bytes elsewhere; the copy loop moves the pieces one after the other,
so a piece is read when the pieces before it are already in place. A line that does not grow keeps
its place, and if no piece lies below the offset it is copied to, the pieces before it have not
reached it: the operation is then `replace_` of the bytes the pieces had at the start
(`replaceFrom_eq`).
-/

namespace Ese

/-- A `DATA` handed to a line operation: bytes that are not on the page, or `cb` bytes of the page
from offset `ib` on. -/
inductive PageDATA
  | off (rgb : List Byte)
  | on (ib cb : Nat)
  deriving DecidableEq, Repr

namespace PageDATA

/-- `DATA::Cb`. -/
def cb : PageDATA → Nat
  | off rgb => rgb.length
  | on _ cb => cb

/-- The bytes a `DATA` has on a page. -/
def bytes (data : Mem) : PageDATA → List Byte
  | off rgb => rgb
  | on ib cb => data.read ib cb

/-- The `DATA` without its first `n` bytes. -/
def advance (n : Nat) : PageDATA → PageDATA
  | off rgb => off (rgb.drop n)
  | on ib cb => on (ib + n) (cb - n)

@[simp] theorem bytes_off (data : Mem) (rgb : List Byte) : (off rgb).bytes data = rgb := rfl

@[simp] theorem length_bytes (data : Mem) (d : PageDATA) : (d.bytes data).length = d.cb := by
  cases d <;> simp [bytes, cb]

@[simp] theorem cb_advance (n : Nat) (d : PageDATA) : (d.advance n).cb = d.cb - n := by
  cases d <;> simp [advance, cb]

theorem bytes_advance (data : Mem) {n : Nat} {d : PageDATA} (h : n ≤ d.cb) :
    (d.advance n).bytes data = (d.bytes data).drop n := by
  cases d with
  | off rgb => rfl
  | on ib cb =>
    change n ≤ cb at h
    show data.read (ib + n) (cb - n) = (data.read ib cb).drop n
    have hsplit : data.read ib cb = data.read ib n ++ data.read (ib + n) (cb - n) := by
      rw [← Mem.read_add, Nat.add_sub_cancel' h]
    rw [hsplit, List.drop_left' (Mem.length_read ..)]

end PageDATA

namespace CPage

variable (p : CPage)

/-- The copy loop of `CopyData_`: each piece is moved to the end of the one before it. -/
def copyFrom (a : Nat) : List PageDATA → Mem → Mem
  | [], data => data
  | d :: rgdata, data => copyFrom (a + d.cb) rgdata (data.write a (d.bytes data))

/-- `CopyData_`. -/
def copyDataFrom_ (itag : Nat) (rgdata : List PageDATA) : CPage :=
  let usFlags := (p.tag itag).fFlags p.data p.fSmallFormat
  let p := { p with data := copyFrom (p.ib itag) rgdata p.data }
  if itag ≠ 0 then p.setFlags itag usFlags else p

/-- `CbDataTotal_`. -/
def cbTotalFrom (rgdata : List PageDATA) : Nat := (rgdata.map PageDATA.cb).sum

/-- `Insert_`. -/
def insertFrom_ (env : PageEnv) (itag : Nat) (rgdata : List PageDATA) (fFlags : BitVec 16) :
    Option CPage := do
  let cbTotal := ushort (cbTotalFrom rgdata)
  let p ← p.freeSpace_ env (cbTotal + cbTag)
  let p := p.expandTagArray_ itag
  let p := ((p.setCb itag 0).setIb itag 0).setFlags itag 0
  let p := p.setIb itag p.ibMicFree
  let p := { p with ibMicFree := ushort (p.ibMicFree + cbTotal) }
  let p := p.setCb itag cbTotal
  let p := { p with cbFree := ushort (p.cbFree - (cbTotal + cbTag)) }
  let p := p.setFlags itag fFlags
  some (p.copyDataFrom_ itag rgdata)

/-- `Replace_`. -/
def replaceFrom_ (env : PageEnv) (itag : Nat) (rgdata : List PageDATA) (fFlags : BitVec 16) :
    Option CPage := do
  let cbTotal := ushort (cbTotalFrom rgdata)
  let cbDiff := short ((p.cb itag : Int) - cbTotal)
  let p ←
    if cbDiff ≥ 0 ∨ p.ib itag + p.cb itag = p.ibMicFree ∧ p.cbContiguousFree_ ≥ -cbDiff then
      let p := if p.ib itag + p.cb itag = p.ibMicFree then
          { p with ibMicFree := ushort (p.ibMicFree - cbDiff) }
        else p
      some { p with cbFree := ushort (p.cbFree + cbDiff) }
    else do
      let p := if env.fRuntimeScrubbing then
          { p with data := p.data.fill (p.ib itag) (p.cb itag) chPAGEReplaceFill }
        else p
      let p := { p with cbFree := ushort (p.cbFree + p.cb itag) }
      let p := ((p.setIb itag 0).setCb itag 0).setFlags itag 0
      let p ← p.freeSpace_ env cbTotal
      let p := p.setIb itag p.ibMicFree
      let p := { p with ibMicFree := ushort (p.ibMicFree + cbTotal) }
      some { p with cbFree := ushort (p.cbFree - cbTotal) }
  let p := p.setCb itag cbTotal
  let p := p.setFlags itag fFlags
  let p := p.copyDataFrom_ itag rgdata
  if cbDiff > 0 ∧ env.fRuntimeScrubbing then
    some { p with
      data := p.data.fill (p.ib itag + p.cb itag) cbDiff.toNat chPAGEReplaceFill }
  else some p

variable {p : CPage} {i r : Nat}

/-! ## Data elsewhere -/

/-- The bytes of the pieces at one time. -/
def piecesAt (data : Mem) (rgdata : List PageDATA) : List (List Byte) :=
  rgdata.map (PageDATA.bytes data)

theorem cbTotalFrom_eq (data : Mem) (rgdata : List PageDATA) :
    cbTotalFrom rgdata = cbDataTotal_ (piecesAt data rgdata) := by
  unfold cbTotalFrom cbDataTotal_ piecesAt
  rw [List.map_map]
  congr 1
  exact List.map_congr_left fun d _ => (PageDATA.length_bytes data d).symm

/-- No piece is on the page. -/
def OffPage (rgdata : List PageDATA) : Prop := ∀ d ∈ rgdata, ∃ rgb, d = .off rgb

/-- Bytes that are not on the page are the same at all times. -/
theorem OffPage.piecesAt_eq {rgdata : List PageDATA} (h : OffPage rgdata) (data data' : Mem) :
    piecesAt data rgdata = piecesAt data' rgdata :=
  List.map_congr_left fun d hd => by
    obtain ⟨rgb, rfl⟩ := h d hd
    rfl

/-! ## Data on the page -/

/-- Copied to `a` on, no piece on the page lies below the offset it is copied to. -/
def Ahead (a : Nat) : List PageDATA → Prop
  | [] => True
  | .off rgb :: rgdata => Ahead (a + rgb.length) rgdata
  | .on ib cb :: rgdata => a ≤ ib ∧ Ahead (a + cb) rgdata

theorem Ahead.cons {a : Nat} {d : PageDATA} {rgdata : List PageDATA} (h : Ahead a (d :: rgdata)) :
    Ahead (a + d.cb) rgdata := by
  cases d with
  | off rgb => exact h
  | on ib cb => exact h.2

/-- A piece at or past `a` reads the same when only bytes below `a` have changed. -/
theorem Ahead.piecesAt_eq {a b : Nat} {rgdata : List PageDATA} {data data' : Mem}
    (h : Ahead a rgdata) (hd : ∀ k, b ≤ k → data' k = data k) (hb : b ≤ a) :
    piecesAt data' rgdata = piecesAt data rgdata := by
  induction rgdata generalizing a with
  | nil => rfl
  | cons d rgdata ih =>
    have hrest := ih h.cons (by omega)
    have hd' : d.bytes data' = d.bytes data := by
      cases d with
      | off rgb => rfl
      | on ib cb => exact Mem.read_congr fun k hk _ => hd k (by have := h.1; omega)
    show d.bytes data' :: piecesAt data' rgdata = d.bytes data :: piecesAt data rgdata
    rw [hd', hrest]

/-- The moves of the copy loop read what the pieces had at the start. -/
theorem copyFrom_eq {a : Nat} {rgdata : List PageDATA} {data : Mem} (h : Ahead a rgdata) :
    copyFrom a rgdata data = copyPieces a (piecesAt data rgdata) data := by
  induction rgdata generalizing a data with
  | nil => rfl
  | cons d rgdata ih =>
    show copyFrom (a + d.cb) rgdata (data.write a (d.bytes data))
      = copyPieces (a + (d.bytes data).length) (piecesAt data rgdata)
          (data.write a (d.bytes data))
    rw [ih h.cons, PageDATA.length_bytes]
    congr 1
    refine h.cons.piecesAt_eq (b := a + d.cb) (fun k hk => ?_) le_rfl
    exact Mem.write_apply_ge _ _ (by rw [PageDATA.length_bytes]; exact hk)

/-- Data that is not on the page is copied as it is. -/
theorem OffPage.ahead {rgdata : List PageDATA} (h : OffPage rgdata) (a : Nat) : Ahead a rgdata := by
  induction rgdata generalizing a with
  | nil => trivial
  | cons d rgdata ih =>
    obtain ⟨rgb, rfl⟩ := h d (List.mem_cons_self ..)
    exact ih (fun d' hd' => h d' (List.mem_cons_of_mem _ hd')) _

theorem copyDataFrom_eq {rgdata : List PageDATA} (h : Ahead (p.ib i) rgdata) :
    p.copyDataFrom_ i rgdata = p.copyData_ i (piecesAt p.data rgdata) := by
  unfold copyDataFrom_ copyData_
  rw [copyFrom_eq h]

/-- With data that is not on the page the operation is `replace_`. -/
theorem OffPage.replaceFrom_eq {rgdata : List PageDATA} (h : OffPage rgdata) (env : PageEnv)
    (f : BitVec 16) (data : Mem) :
    p.replaceFrom_ env i rgdata f = p.replace_ env i (piecesAt data rgdata) f := by
  have hcopy : ∀ q : CPage, q.copyDataFrom_ i rgdata = q.copyData_ i (piecesAt data rgdata) :=
    fun q => by rw [copyDataFrom_eq (h.ahead _), h.piecesAt_eq q.data data]
  unfold replaceFrom_ replace_
  rw [cbTotalFrom_eq data]
  simp only [hcopy]

/-- With data that is not on the page the operation is `insert_`. -/
theorem OffPage.insertFrom_eq {rgdata : List PageDATA} (h : OffPage rgdata) (env : PageEnv)
    (f : BitVec 16) (data : Mem) :
    p.insertFrom_ env i rgdata f = p.insert_ env i (piecesAt data rgdata) f := by
  have hcopy : ∀ q : CPage, q.copyDataFrom_ i rgdata = q.copyData_ i (piecesAt data rgdata) :=
    fun q => by rw [copyDataFrom_eq (h.ahead _), h.piecesAt_eq q.data data]
  unfold insertFrom_ insert_
  rw [cbTotalFrom_eq data]
  simp only [hcopy]

/-- `SetFlags` changes no byte of a line but the two of the flag word. -/
theorem data_setFlags (hp : p.TagsFit) (hi : i < p.itagMicFree) (f : BitVec 16) {a : Nat}
    (ha : a < p.ibTagArray) (hout : a < p.ib i ∨ p.ib i + 2 ≤ a) :
    (p.setFlags i f).data a = p.data a := by
  have htag := hp.ibTagArray_le hi
  unfold setFlags
  split_ifs
  · exact setTag_data _ (.inl (by omega))
  · exact Mem.writeU16_apply_of_not_mem _ _ hout
  · rfl

theorem Layout.cb_lt (h : Layout r p) (hi : i < p.itagMicFree) :
    p.cb i < 32768 ∧ p.cb i < Tag.ibCbMac p.fSmallFormat := by
  have hle := p.ibTagArray_le
  have hshort := p.cbPageData_lt_short
  have hmac := p.cbPageData_lt
  have hmic := h.ibMicFree_le
  by_cases hz : p.cb i = 0
  · omega
  · have := h.bounded i hi hz
    omega

/-- The copy into a line that keeps its place, once it has its new length and flags. -/
theorem copyDataFrom_shrunk (h : Layout r p) (hi : i < p.itagMicFree) {rgdata : List PageDATA}
    (f : BitVec 16) (hcb : cbTotalFrom rgdata ≤ p.cb i) (hahead : Ahead (p.ib i) rgdata)
    (hon : ∀ ib cb, .on ib cb ∈ rgdata → p.ib i + 2 ≤ ib ∧ ib + cb ≤ p.ibTagArray)
    {ibMicFree cbFree : Nat} {q : CPage}
    (hq : q = (CPage.setCb { p with ibMicFree, cbFree } i (cbTotalFrom rgdata)).setFlags i f) :
    q.copyDataFrom_ i rgdata = q.copyData_ i (piecesAt p.data rgdata) := by
  obtain ⟨-, hmac⟩ := h.cb_lt hi
  have hmic := h.ibMicFree_le
  set p₁ : CPage := { p with ibMicFree, cbFree } with hp₁
  have ht₂ : Touches p₁ (p₁.setCb i (cbTotalFrom rgdata)) i 0 0 :=
    touches_setCb (show p₁.TagsFit from h.tagsFit) hi _
  set p₂ := p₁.setCb i (cbTotalFrom rgdata) with hp₂
  have hcb₂ : p₂.cb i = cbTotalFrom rgdata :=
    cb_setCb (show cbTotalFrom rgdata < Tag.ibCbMac p.fSmallFormat by omega)
  have hib₂ : p₂.ib i = p.ib i := ib_setCb _
  have hta₂ : p₂.ibTagArray = p.ibTagArray := ht₂.ibTagArray
  have hi₂ : i < p₂.itagMicFree := hi
  have hfit₂ : p₂.TagsFit := ht₂.tagsFit h.tagsFit
  have hw : p₂.Within i 0 p.ibTagArray := by
    unfold Within
    rw [hcb₂, hib₂, hta₂]
    by_cases hz : p.cb i = 0
    · omega
    · have := h.bounded i hi hz
      omega
  have hibq : q.ib i = p.ib i := by
    rw [hq, ib_setFlags hfit₂ hi₂ f hw, hib₂]
  have hdata : ∀ ib cb, .on ib cb ∈ rgdata → q.data.read ib cb = p.data.read ib cb := by
    intro ib cb hmem
    obtain ⟨hlo, hhi⟩ := hon ib cb hmem
    refine Mem.read_congr fun a ha₁ ha₂ => ?_
    have e₁ : q.data a = p₂.data a := by
      rw [hq]
      exact data_setFlags hfit₂ hi₂ f (by omega) (.inr (by omega))
    have e₂ : p₂.data a = p.data a :=
      ht₂.data a (show a < p.ibTagArray by omega) (.inr (by omega))
    rw [e₁, e₂]
  have hpieces : piecesAt q.data rgdata = piecesAt p.data rgdata :=
    List.map_congr_left fun d hd => by
      cases d with
      | off rgb => rfl
      | on ib cb => exact hdata ib cb hd
  rw [copyDataFrom_eq (by rw [hibq]; exact hahead), hpieces]

/-- **A line that does not grow may be replaced from its own bytes.** If the pieces that are on the
page lie past the flag word of the line and below the tag array, and none lies below the offset it
is copied to, `Replace_` stores the bytes the pieces had before it. -/
theorem replaceFrom_eq (env : PageEnv) (h : Layout r p) (hi : i < p.itagMicFree)
    {rgdata : List PageDATA} (f : BitVec 16) (hcb : cbTotalFrom rgdata ≤ p.cb i)
    (hahead : Ahead (p.ib i) rgdata)
    (hon : ∀ ib cb, .on ib cb ∈ rgdata → p.ib i + 2 ≤ ib ∧ ib + cb ≤ p.ibTagArray) :
    p.replaceFrom_ env i rgdata f = p.replace_ env i (piecesAt p.data rgdata) f := by
  obtain ⟨hshort, -⟩ := h.cb_lt hi
  have hush : ushort (cbTotalFrom rgdata) = cbTotalFrom rgdata := ushort_natCast (by omega)
  have hdiff : short ((p.cb i : Int) - cbTotalFrom rgdata) = (p.cb i : Int) - cbTotalFrom rgdata :=
    short_of_mem (by omega) (by omega)
  unfold replaceFrom_ replace_
  rw [← cbTotalFrom_eq]
  simp only [hush, hdiff]
  have hin : (p.cb i : Int) - cbTotalFrom rgdata ≥ 0 ∨ p.ib i + p.cb i = p.ibMicFree ∧
      p.cbContiguousFree_ ≥ -((p.cb i : Int) - cbTotalFrom rgdata) := .inl (by omega)
  simp only [if_pos hin, Option.bind_eq_bind, Option.bind_some]
  split_ifs with hlast <;> rw [copyDataFrom_shrunk h hi f hcb hahead hon rfl]

end CPage

end Ese
