import Mathlib.Algebra.Order.BigOperators.Group.Finset
import Mathlib.Tactic.Ring
import Ese.Ver.NodeReserve
import Ese.Lib.Run

/-!
# Rollback finds its space

What a node reserves is its largest size in the transaction less its size now. The invariant of a
page: its count of uncommitted free space covers what its nodes reserve, and is within its free
space. The before-image of the newest replace is no larger than the largest size, so the node's own
reservation has the room for it; taking the image back leaves the invariant for the replace before.
-/

namespace Ese.NodeReserve

variable {ι PIB : Type} [Fintype ι] [DecidableEq ι] [DecidableEq PIB]

/-! ## The reservation of a node -/

/-- The largest size of the node that a replace RCE records, as a number. -/
def RCE.cbMax (prce : RCE PIB) : Int := prce.verreplace.cbMaxSize.toInt

/-- The change of size that a replace RCE records, as a number. -/
def RCE.cbDelta (prce : RCE PIB) : Int := prce.verreplace.cbDelta.toInt

/-- What the versions of a node of size `cb` should reserve. -/
def expected (rces : List (RCE PIB)) (cb : Nat) : Int :=
  match rces with
  | [] => 0
  | prce :: _ => prce.cbMax - cb

/-- The versions of a node with the given data. -/
inductive Chain : List (RCE PIB) → List Byte → Prop
  | nil (data : List Byte) : Chain [] data
  | cons {prce : RCE PIB} {rces : List (RCE PIB)} {data : List Byte}
      (hsum : prce.cbDelta + expected rces prce.verreplace.rgbBeforeImage.length =
      prce.cbMax - data.length)
      (hdata : (data.length : Int) ≤ prce.cbMax)
      (hbefore : (prce.verreplace.rgbBeforeImage.length : Int) ≤ prce.cbMax)
      (hmax : expected rces 0 ≤ prce.cbMax)
      (hempty : prce.fEmptyDiff = true → prce.verreplace.rgbBeforeImage = data ∧ prce.cbDelta = 0)
      (hrest : Chain rces prce.verreplace.rgbBeforeImage) : Chain (prce :: rces) data

/-- What the versions of a node reserve. -/
def reserve (n : Node PIB) : Int := cbVERGetNodeReserve none n

/-- What a node reserves is the sum over its RCEs. -/
theorem reserve_eq_sum (n : Node PIB) : reserve n = (n.rces.map RCE.cbDelta).sum := by
  simp only [reserve, cbVERGetNodeReserve, true_or, decide_true, List.filter_true]
  rfl

omit [DecidableEq PIB] in
/-- Along a chain the changes of size add up to what rolling back needs. -/
theorem Chain.sum_eq {rces : List (RCE PIB)} {data : List Byte} (h : Chain rces data) :
    (rces.map RCE.cbDelta).sum = expected rces data.length := by
  induction h with
  | nil => rfl
  | cons hsum _ _ _ _ _ ih =>
    rw [List.map_cons, List.sum_cons, ih, hsum]
    rfl

omit [DecidableEq PIB] in
/-- A node reserves no negative space. -/
theorem Chain.expected_nonneg {rces : List (RCE PIB)} {data : List Byte} (h : Chain rces data) :
    0 ≤ expected rces data.length := by
  cases h with
  | nil => exact le_refl _
  | cons _ hdata => exact Int.sub_nonneg.2 hdata

/-- The node's reservation is the newest `cbMaxSize` less its size. -/
theorem Chain.reserve_eq {n : Node PIB} (h : Chain n.rces n.data) :
    reserve n = expected n.rces n.data.length := by
  rw [reserve_eq_sum, h.sum_eq]

/-- A node reserves no negative space. -/
theorem Chain.reserve_nonneg {n : Node PIB} (h : Chain n.rces n.data) : 0 ≤ reserve n :=
  h.reserve_eq ▸ h.expected_nonneg

omit [DecidableEq PIB] in
/-- A recorded size is a SHORT. -/
theorem RCE.cbMax_lt (prce : RCE PIB) : prce.cbMax < 2 ^ 15 := by
  have := BitVec.toInt_lt (x := prce.verreplace.cbMaxSize)
  rw [RCE.cbMax]
  omega

/-- A small number is kept as a SHORT. -/
theorem toInt_ofNat {n : Nat} (h : n < 2 ^ 15) : (BitVec.ofNat 16 n).toInt = n := by
  have hnat : (BitVec.ofNat 16 n).toNat = n := by
    rw [BitVec.toNat_ofNat, Nat.mod_eq_of_lt (by omega)]
  rw [BitVec.toInt_eq_toNat_of_lt (by omega), hnat]

/-- A number in the range of a SHORT is kept. -/
theorem toInt_ofInt {z : Int} (h₁ : -2 ^ 15 ≤ z) (h₂ : z < 2 ^ 15) :
    (BitVec.ofInt 16 z).toInt = z := by
  rw [BitVec.toInt_ofInt, Int.bmod_eq_of_le (by omega) (by omega)]

/-- A number in the range of a USHORT is kept. -/
theorem toNat_ofInt {z : Int} (h₁ : 0 ≤ z) (h₂ : z < 2 ^ 16) :
    ((BitVec.ofInt 16 z).toNat : Int) = z := by
  rw [BitVec.toNat_ofInt]
  omega

/-! ## The versions of a replace -/

omit [DecidableEq PIB] in
/-- A new version does not change the reservation. -/
theorem Chain.setup {n : Node PIB} (h : Chain n.rces n.data) (hcb : n.data.length < 2 ^ 15)
    (ppib : PIB) :
    Chain (setupInsertedDMLRCE ppib n :: n.rces) n.data := by
  have hcbDelta : (setupInsertedDMLRCE ppib n).cbDelta = 0 := rfl
  cases hr : n.rces with
  | nil =>
    have hmax : (setupInsertedDMLRCE ppib n).cbMax = n.data.length := by
      rw [RCE.cbMax, setupInsertedDMLRCE, hr]
      exact toInt_ofNat hcb
    refine .cons ?_ (le_of_eq hmax.symm) (le_of_eq hmax.symm) ?_ (fun h => nomatch h) (.nil _)
    · rw [hcbDelta, hmax, expected]
      omega
    · rw [hmax, expected]
      omega
  | cons prev rces =>
    have hmax : (setupInsertedDMLRCE ppib n).cbMax = prev.cbMax := by
      rw [RCE.cbMax, setupInsertedDMLRCE, hr]
      rfl
    rw [hr] at h
    have hle : (n.data.length : Int) ≤ prev.cbMax := by
      cases h with
      | cons _ hdata => exact hdata
    refine .cons ?_ (hmax ▸ hle) (hmax ▸ hle) ?_ (fun h => nomatch h) h
    · rw [hcbDelta, hmax, expected, Int.zero_add]
      rfl
    · rw [hmax, expected]
      omega

omit [DecidableEq PIB] in
/-- `VERSetCbAdjust` moves the reservation to the new size. -/
theorem setCbAdjust_spec {prce : RCE PIB} {cbDataNew cbDataOld : Nat} (hdelta : prce.cbDelta = 0)
    (hold : (cbDataOld : Int) ≤ prce.cbMax) (hnew : cbDataNew < 2 ^ 15) :
    ∃ prce' cbDelta, setCbAdjust prce cbDataNew cbDataOld = (prce', cbDelta)
      ∧ prce'.ppib = prce.ppib ∧ prce'.fEmptyDiff = prce.fEmptyDiff
      ∧ prce'.verreplace.rgbBeforeImage = prce.verreplace.rgbBeforeImage
      ∧ prce'.cbMax = max prce.cbMax cbDataNew ∧ prce'.cbDelta = -cbDelta
      ∧ cbDelta = (prce.cbMax - cbDataOld) - (prce'.cbMax - cbDataNew) := by
  have hlt := prce.cbMax_lt
  rw [setCbAdjust]
  rw [RCE.cbDelta] at hdelta
  rw [RCE.cbMax] at hold hlt
  by_cases hgt : (cbDataNew : Int) > prce.verreplace.cbMaxSize.toInt
  · simp only [if_pos hgt, hdelta]
    refine ⟨_, _, rfl, rfl, rfl, rfl, ?_, ?_, ?_⟩
    · rw [RCE.cbMax, RCE.cbMax, toInt_ofNat hnew]
      omega
    · rw [RCE.cbDelta, toInt_ofInt (by omega) (by omega)]
      omega
    · rw [RCE.cbMax, RCE.cbMax, toInt_ofNat hnew]
      omega
  · simp only [if_neg hgt, hdelta]
    refine ⟨_, _, rfl, rfl, rfl, rfl, ?_, ?_, ?_⟩
    · show prce.verreplace.cbMaxSize.toInt = max prce.verreplace.cbMaxSize.toInt (cbDataNew : Int)
      omega
    · rw [RCE.cbDelta, toInt_ofInt (by omega) (by omega)]
      omega
    · show _ = (prce.verreplace.cbMaxSize.toInt - (cbDataOld : Int))
        - (prce.verreplace.cbMaxSize.toInt - (cbDataNew : Int))
      omega

omit [DecidableEq PIB] in
/-- The versions of a node after `VERSetCbAdjust` of a new one. -/
theorem Chain.adjust {n : Node PIB} {ppib : PIB} {data : List Byte} {prce' : RCE PIB}
    {cbDelta : Int}
    (h : Chain (setupInsertedDMLRCE ppib n :: n.rces) n.data)
    (hadjust : setCbAdjust (setupInsertedDMLRCE ppib n) data.length n.data.length =
      (prce', cbDelta))
    (hnew : data.length < 2 ^ 15) : Chain (prce' :: n.rces) data := by
  cases h with
  | cons hsum hdata hbefore hmax hempty hrest =>
    have himage : (setupInsertedDMLRCE ppib n).verreplace.rgbBeforeImage = n.data := rfl
    have hzero : (setupInsertedDMLRCE ppib n).cbDelta = 0 := rfl
    obtain ⟨prce₁, cbDelta₁, hadjust', -, he, hb, hm, hd, hdelta⟩ :=
      setCbAdjust_spec hzero hdata hnew
    rw [hadjust] at hadjust'
    cases hadjust'
    rw [himage] at hsum hbefore hrest hb
    refine .cons ?_ (by omega) (by rw [hb]; omega) (by omega) (fun h => ?_) ?_
    · rw [hb]
      omega
    · rw [he] at h
      cases h
    · rw [hb]
      exact hrest

/-! ## The invariant of a page -/

/-- What the nodes of the page reserve together. -/
def Page.total (pg : Page ι PIB) : Int := ∑ i, reserve (pg.node i)

/-- The size of the data of all nodes. -/
def Page.size (pg : Page ι PIB) : Nat := ∑ i, (pg.node i).data.length

/-- The invariant of a page. Its free space and data are within the largest page of 32 KB, so sizes
are within a `SHORT`. -/
structure Inv (pg : Page ι PIB) : Prop where
  chain : ∀ i, Chain (pg.node i).rces (pg.node i).data
  owner : ∀ i, ∀ prce ∈ (pg.node i).rces, ∀ prce' ∈ (pg.node i).rces, prce.ppib = prce'.ppib
  total_le : pg.total ≤ pg.cbUncommittedFree.toNat
  count_le : pg.cbUncommittedFree.toNat ≤ pg.cbFree
  size_lt : pg.cbFree + pg.size < 2 ^ 15

omit [DecidableEq PIB] in
/-- A sum over the nodes when one of them changes. -/
theorem sum_update (f : Node PIB → Int) (g : ι → Node PIB) (i : ι) (n : Node PIB) :
    ∑ j, f (Function.update g i n j) + f (g i) = ∑ j, f (g j) + f n := by
  rw [← Finset.add_sum_erase _ _ (Finset.mem_univ i), ← Finset.add_sum_erase _ (fun j => f (g j))
    (Finset.mem_univ i), Function.update_self]
  have hrest : ∑ j ∈ Finset.univ.erase i, f (Function.update g i n j) = ∑ j ∈ Finset.univ.erase i,
    f (g j) :=
    Finset.sum_congr rfl fun j hj => by rw [Function.update_of_ne (Finset.ne_of_mem_erase hj)]
  rw [hrest]
  ring

section
variable {pg : Page ι PIB} (h : Inv pg)
include h

omit [DecidableEq ι] in
/-- A node reserves no more than the page. -/
theorem Inv.reserve_le_total (i : ι) : reserve (pg.node i) ≤ pg.total :=
  Finset.single_le_sum (f := fun i => reserve (pg.node i)) (fun j _ => (h.chain j).reserve_nonneg)
    (Finset.mem_univ i)

omit [DecidableEq ι] in
/-- The data of a node and the free space are on the page. -/
theorem Inv.data_lt (i : ι) : pg.cbFree + (pg.node i).data.length < 2 ^ 15 := by
  have hle : (pg.node i).data.length ≤ pg.size :=
    Finset.single_le_sum (f := fun i => (pg.node i).data.length) (fun _ _ => Nat.zero_le _)
      (Finset.mem_univ i)
  have := h.size_lt
  omega

/-- A change of one node. -/
theorem Inv.set {i : ι} {n : Node PIB} {cbFree : Nat} {c : USHORT} (hchain : Chain n.rces n.data)
    (howner : ∀ prce ∈ n.rces, ∀ prce' ∈ n.rces, prce.ppib = prce'.ppib)
    (htotal : pg.total - reserve (pg.node i) + reserve n ≤ c.toNat) (hcount : c.toNat ≤ cbFree)
    (hsize : cbFree + n.data.length = pg.cbFree + (pg.node i).data.length) :
    Inv (⟨cbFree, c, Function.update pg.node i n⟩ : Page ι PIB) := by
  refine ⟨fun j => ?_, fun j => ?_, ?_, hcount, ?_⟩
  · by_cases hj : j = i
    · subst hj
      show Chain (Function.update pg.node j n j).rces (Function.update pg.node j n j).data
      rw [Function.update_self]
      exact hchain
    · show Chain (Function.update pg.node i n j).rces (Function.update pg.node i n j).data
      rw [Function.update_of_ne hj]
      exact h.chain j
  · show ∀ prce ∈ (Function.update pg.node i n j).rces, ∀ prce' ∈
      (Function.update pg.node i n j).rces, _
    by_cases hj : j = i
    · subst hj
      rw [Function.update_self]
      exact howner
    · rw [Function.update_of_ne hj]
      exact h.owner j
  · have hsum := sum_update reserve pg.node i n
    show ∑ j, reserve (Function.update pg.node i n j) ≤ c.toNat
    rw [Page.total] at htotal
    omega
  · have hsum := sum_update (fun n => (n.data.length : Int)) pg.node i n
    have hlt := h.size_lt
    show cbFree + ∑ j, (Function.update pg.node i n j).data.length < 2 ^ 15
    rw [Page.size] at hlt
    have e₁ : ((∑ j, (Function.update pg.node i n j).data.length : Nat) : Int)
        = ∑ j, ((Function.update pg.node i n j).data.length : Int) := Nat.cast_sum _ _
    have e₂ : ((∑ j, (pg.node j).data.length : Nat) : Int) = ∑ j, ((pg.node j).data.length : Int) :=
      Nat.cast_sum _ _
    omega

end

/-! ## The space check -/

/-- What the space check may do to the page's count: it is left, or is set to what the nodes
reserve. -/
structure Checked (pg : Page ι PIB) (c : USHORT) : Prop where
  total_le : pg.total ≤ c.toNat
  le_count : c.toNat ≤ pg.cbUncommittedFree.toNat
  exact : c = pg.cbUncommittedFree ∨ (c.toNat : Int) = pg.total

section
variable {pg : Page ι PIB} (h : Inv pg) {fPageRecentlyDirtied : Bool}
  (hrec : fPageRecentlyDirtied = false → pg.total = 0)
include h hrec

omit h [DecidableEq ι] in
/-- The code's sum over the RCEs is what the nodes reserve. -/
theorem cbNDUncommittedFree_eq : cbNDUncommittedFree fPageRecentlyDirtied pg = pg.total := by
  cases fPageRecentlyDirtied with
  | false => exact (hrec rfl).symm
  | true => rfl

omit [DecidableEq ι] in
/-- Space that is found is left by the reservations; only the count may be corrected. -/
theorem fndFreePageSpace_spec (cbReq : Nat) :
    ∃ b c, fndFreePageSpace fPageRecentlyDirtied pg cbReq = (b, { pg with cbUncommittedFree := c })
      ∧ Checked pg c ∧ (b = true → (cbReq : Int) ≤ pg.cbFree - c.toNat) := by
  have hsame : Checked pg pg.cbUncommittedFree := ⟨h.total_le, le_refl _, .inl rfl⟩
  have htotal : 0 ≤ pg.total := Finset.sum_nonneg fun i _ => (h.chain i).reserve_nonneg
  rw [fndFreePageSpace]
  by_cases hfree : pg.cbFree < cbReq
  · rw [if_pos hfree]
    exact ⟨false, _, rfl, hsame, fun hb => nomatch hb⟩
  · rw [if_neg hfree, fverCheckUncommittedFreedSpace, cbNDUncommittedFree_eq hrec]
    by_cases hreq : (cbReq : Int) > pg.cbFree - pg.cbUncommittedFree.toNat
    · rw [if_pos hreq]
      by_cases heq : pg.total = pg.cbUncommittedFree.toNat
      · rw [if_pos heq]
        exact ⟨false, _, rfl, hsame, fun hb => nomatch hb⟩
      · have hle := h.total_le
        have hlt := pg.cbUncommittedFree.isLt
        have hc := toNat_ofInt htotal (by omega)
        rw [if_neg heq]
        refine ⟨_, _, rfl, ⟨le_of_eq hc.symm, by omega, .inr hc⟩, fun hb => ?_⟩
        rw [hc]
        exact of_decide_eq_true hb
    · rw [if_neg hreq]
      exact ⟨true, _, rfl, hsame, fun _ => not_lt.1 hreq⟩

omit [DecidableEq ι] in
/-- A replace that is let through finds the room that the reservations of the other nodes leave;
only the count may be corrected. -/
theorem checkReplace_spec {i : ι} {ppib : PIB} (howner : ∀ prce ∈ (pg.node i).rces, prce.ppib =
    ppib)
    (data : List Byte) :
    ∃ b c, checkReplace fPageRecentlyDirtied ppib pg i data =
      (b, { pg with cbUncommittedFree := c })
      ∧ Checked pg c ∧ (b = true → (data.length : Int) - (pg.node i).data.length
          ≤ max 0 (reserve (pg.node i) + pg.cbFree - c.toNat)) := by
  have hsame : Checked pg pg.cbUncommittedFree := ⟨h.total_le, le_refl _, .inl rfl⟩
  have hreserve : cbVERGetNodeReserve (some ppib) (pg.node i) = reserve (pg.node i) := by
    have hf (o : Option PIB) (ho : o = none ∨ o = some ppib) :
        (pg.node i).rces.filter (fun prce => o = none ∨ some prce.ppib = o) = (pg.node i).rces :=
      List.filter_eq_self.2 fun prce hprce => by
        rcases ho with rfl | rfl
        · simp
        · simp [howner prce hprce]
    rw [reserve, cbVERGetNodeReserve, cbVERGetNodeReserve, hf _ (.inr rfl), hf _ (.inl rfl)]
  have hnonneg := (h.chain i).reserve_nonneg
  have hle := h.reserve_le_total i
  have hlt := h.data_lt i
  rw [checkReplace]
  by_cases hreq : (data.length : Int) - (pg.node i).data.length > 0
  · obtain ⟨b, c, hrun, hc, hb⟩ :=
      fndFreePageSpace_spec h hrec ((data.length : Int) - (pg.node i).data.length).toNat
    simp only [if_pos hreq, hrun]
    cases b with
    | true =>
      refine ⟨true, c, rfl, hc, fun _ => ?_⟩
      have := hb rfl
      omega
    | false =>
      refine ⟨_, c, rfl, hc, fun hb => ?_⟩
      have hmod : (reserve (pg.node i) + pg.cbFree - c.toNat) % 2 ^ 32
          = reserve (pg.node i) + pg.cbFree - c.toNat := by
        have h₁ := hc.le_count
        have h₂ := h.count_le
        have h₃ := h.total_le
        exact Int.emod_eq_of_lt (by omega) (by omega)
      have := of_decide_eq_true hb
      rw [hreserve, hmod] at this
      omega
  · rw [if_neg hreq]
    exact ⟨true, _, rfl, hsame, fun _ => by omega⟩

end

/-! ## A replace -/

/-- What a replace of node `i` by a session does to a page whose count the space check left at
`c`. -/
structure Replaced (ppib : PIB) (pg pg' : Page ι PIB) (i : ι) (data : List Byte) (c : USHORT) :
    Prop where
  inv : Inv pg'
  data : (pg'.node i).data = data
  rces : ∃ prce, (pg'.node i).rces = prce :: (pg.node i).rces ∧ prce.ppib = ppib
    ∧ prce.verreplace.rgbBeforeImage = (pg.node i).data
  other : ∀ j ≠ i, pg'.node j = pg.node j
  count : (pg'.cbUncommittedFree.toNat : Int) =
    c.toNat + (reserve (pg'.node i) - reserve (pg.node i))

/-- The page with a node changed. -/
def Page.withNode (pg : Page ι PIB) (i : ι) (n : Node PIB) (cbFree : Nat) (c : USHORT) :
    Page ι PIB :=
  ⟨cbFree, c, Function.update pg.node i n⟩

section
omit [Fintype ι] [DecidableEq PIB]
variable (pg : Page ι PIB) (i : ι) (n : Node PIB) (cbFree : Nat) (c : USHORT)

/-- The node that is put reads back. -/
@[simp] theorem withNode_node : (pg.withNode i n cbFree c).node i = n := Function.update_self ..

/-- The free space that is put reads back. -/
@[simp] theorem withNode_cbFree : (pg.withNode i n cbFree c).cbFree = cbFree := rfl

/-- The count that is put reads back. -/
@[simp] theorem withNode_count : (pg.withNode i n cbFree c).cbUncommittedFree = c := rfl

/-- New RCEs of a node leave its data and the free space. -/
@[simp] theorem setRCEs_eq (rces : List (RCE PIB)) :
    pg.setRCEs i rces = pg.withNode i ⟨(pg.node i).data, rces⟩ pg.cbFree pg.cbUncommittedFree := rfl

/-- New RCEs of a node that was put. -/
@[simp] theorem withNode_setRCEs (rces : List (RCE PIB)) :
    (pg.withNode i n cbFree c).setRCEs i rces = pg.withNode i ⟨n.data, rces⟩ cbFree c := by
  rw [setRCEs_eq, withNode_node, Page.withNode, Page.withNode, Page.withNode, Function.update_idem]

/-- A replace of a node that was put pays with the free space. -/
@[simp] theorem withNode_replace (data : List Byte) :
    (pg.withNode i n cbFree c).replace i data
      = pg.withNode i ⟨data, n.rces⟩ (cbFree + n.data.length - data.length) c := by
  rw [Page.replace, withNode_node, withNode_cbFree, withNode_count, Page.withNode, Page.withNode,
    Function.update_idem]

/-- `VERSetCbAdjust` on a page. -/
theorem verSetCbAdjust_withNode (data : List Byte) {prce prce' : RCE PIB} (rces : List (RCE PIB))
    {cbDataNew cbDataOld : Nat} {cbDelta : Int}
    (hadjust : setCbAdjust prce cbDataNew cbDataOld = (prce', cbDelta))
    (hlo : cbDelta ≤ c.toNat) (hhi : c.toNat - cbDelta < 2 ^ 16) :
    ∃ c' : USHORT,
      verSetCbAdjust (pg.withNode i ⟨data, prce :: rces⟩ cbFree c) i cbDataNew cbDataOld true
        = pg.withNode i ⟨data, prce' :: rces⟩ cbFree c' ∧ (c'.toNat : Int) = c.toNat - cbDelta := by
  simp only [verSetCbAdjust, withNode_node, hadjust, if_true, withNode_setRCEs]
  by_cases hpos : cbDelta > 0
  · exact ⟨_, by rw [if_pos hpos]; rfl, toNat_ofInt (by omega) hhi⟩
  · by_cases hneg : cbDelta < 0
    · refine ⟨_, by rw [if_neg hpos, if_pos hneg]; rfl, ?_⟩
      show ((BitVec.ofInt 16 (c.toNat + -cbDelta)).toNat : Int) = _
      rw [toNat_ofInt (by omega) (by omega)]
      omega
    · exact ⟨c, by rw [if_neg hpos, if_neg hneg], by omega⟩

end

/-- The replaced node, given the version that `VERSetCbAdjust` leaves. -/
theorem replaced_of_chain {pg : Page ι PIB} (h : Inv pg) {i : ι} {ppib : PIB} {data : List Byte}
    {prce : RCE PIB} {c c' : USHORT} {cbFree : Nat}
    (howner : ∀ prce ∈ (pg.node i).rces, prce.ppib = ppib) (hc : Checked pg c)
    (hcheck : (data.length : Int) - (pg.node i).data.length
      ≤ max 0 (reserve (pg.node i) + pg.cbFree - c.toNat))
    (hppib : prce.ppib = ppib) (hbefore : prce.verreplace.rgbBeforeImage = (pg.node i).data)
    (hchain : Chain (prce :: (pg.node i).rces) data)
    (hfree : cbFree + data.length = pg.cbFree + (pg.node i).data.length)
    (hcount : (c'.toNat : Int) = c.toNat + (prce.cbMax - data.length - reserve (pg.node i)))
    (hmax : data.length ≤ (pg.node i).data.length + (reserve (pg.node i)).toNat
      → prce.cbMax = (pg.node i).data.length + reserve (pg.node i))
    (hmax' : (pg.node i).data.length + (reserve (pg.node i)).toNat < data.length
      → prce.cbMax = data.length) :
    Replaced ppib pg (pg.withNode i ⟨data, prce :: (pg.node i).rces⟩ cbFree c') i data c := by
  have hreserve : reserve (⟨data, prce :: (pg.node i).rces⟩ : Node PIB) =
    prce.cbMax - data.length :=
    hchain.reserve_eq (n := ⟨data, prce :: (pg.node i).rces⟩)
  have hnonneg := (h.chain i).reserve_nonneg
  have hle := h.reserve_le_total i
  have h₁ := hc.le_count
  have h₂ := h.count_le
  have h₃ := hc.total_le
  refine ⟨h.set hchain (fun p hp p' hp' => ?_) ?_ ?_ hfree, ?_, ⟨prce, ?_, hppib, hbefore⟩,
    fun j hj => Function.update_of_ne hj .., ?_⟩
  · have hall (q : RCE PIB) (hq : q ∈ prce :: (pg.node i).rces) : q.ppib = ppib := by
      rcases List.mem_cons.1 hq with rfl | hq
      · exact hppib
      · exact howner q hq
    rw [hall p hp, hall p' hp']
  · rw [hreserve]
    omega
  · by_cases hgt : data.length ≤ (pg.node i).data.length + (reserve (pg.node i)).toNat
    · have := hmax hgt
      omega
    · have := hmax' (by omega)
      omega
  · rw [withNode_node]
  · rw [withNode_node]
  · rw [withNode_node, hreserve, withNode_count, hcount]

section
variable {pg : Page ι PIB} (h : Inv pg) {fPageRecentlyDirtied : Bool} {i : ι} {ppib : PIB}
  (howner : ∀ prce ∈ (pg.node i).rces, prce.ppib = ppib) {data : List Byte} {c : USHORT}
include h howner

/-- A new version does not change what the page's nodes reserve. -/
theorem Inv.setup :
    let prce := setupInsertedDMLRCE ppib (pg.node i)
    let pg₁ :=
      pg.withNode i ⟨(pg.node i).data, prce :: (pg.node i).rces⟩ pg.cbFree pg.cbUncommittedFree
    Inv pg₁ ∧ pg₁.total = pg.total ∧ reserve (pg₁.node i) = reserve (pg.node i)
      ∧ prce.cbMax = (pg.node i).data.length + reserve (pg.node i) := by
  intro prce pg₁
  have hcb := h.data_lt i
  have hchain := (h.chain i).setup (by omega) ppib
  have hreserve : reserve (⟨(pg.node i).data, prce :: (pg.node i).rces⟩ : Node PIB) =
    reserve (pg.node i) := by
    rw [reserve_eq_sum, reserve_eq_sum, List.map_cons, List.sum_cons]
    exact Int.zero_add _
  have hsum := sum_update reserve pg.node i ⟨(pg.node i).data, prce :: (pg.node i).rces⟩
  have htotal : pg₁.total = pg.total := by
    show ∑ j, reserve (Function.update pg.node i _ j) = ∑ j, reserve (pg.node j)
    omega
  have hle := h.total_le
  refine ⟨h.set hchain (fun p hp p' hp' => ?_) (by omega) h.count_le rfl, htotal, ?_, ?_⟩
  · have hall (q : RCE PIB) (hq : q ∈ prce :: (pg.node i).rces) : q.ppib = ppib := by
      rcases List.mem_cons.1 hq with rfl | hq
      · rfl
      · exact howner q hq
    rw [hall p hp, hall p' hp']
  · rw [withNode_node, hreserve]
  · have hmax : reserve (⟨(pg.node i).data, prce :: (pg.node i).rces⟩ : Node PIB)
        = prce.cbMax - (pg.node i).data.length :=
      hchain.reserve_eq (n := ⟨(pg.node i).data, prce :: (pg.node i).rces⟩)
    omega

/-- The version and the page after the space check has passed. -/
theorem errNDReplace_passed (fLogDiff : Bool) (hc : Checked pg c)
    (hcheck : (data.length : Int) - (pg.node i).data.length
      ≤ max 0 (reserve (pg.node i) + pg.cbFree - c.toNat))
    (hrun : checkReplace fPageRecentlyDirtied ppib (pg.withNode i ⟨(pg.node i).data,
        setupInsertedDMLRCE ppib (pg.node i) :: (pg.node i).rces⟩ pg.cbFree pg.cbUncommittedFree) i
        data
      = (true, pg.withNode i ⟨(pg.node i).data,
        setupInsertedDMLRCE ppib (pg.node i) :: (pg.node i).rces⟩ pg.cbFree c)) :
    ∃ pg', errNDReplace fPageRecentlyDirtied fLogDiff ppib (pg.withNode i ⟨(pg.node i).data,
        setupInsertedDMLRCE ppib (pg.node i) :: (pg.node i).rces⟩ pg.cbFree pg.cbUncommittedFree) i
        data true
      = (true, pg') ∧ Replaced ppib pg pg' i data c := by
  obtain ⟨-, -, -, hmax⟩ := h.setup howner
  have hcb := h.data_lt i
  have hchain := (h.chain i).setup (by omega) ppib
  have hnonneg := (h.chain i).reserve_nonneg
  have h₀ := h.reserve_le_total i
  have h₁ := hc.le_count
  have h₂ := h.count_le
  have h₃ := hc.total_le
  set prce := setupInsertedDMLRCE ppib (pg.node i) with hprce
  have hbefore : prce.verreplace.rgbBeforeImage = (pg.node i).data := rfl
  have hrest := h.chain i
  simp only [errNDReplace, hrun, withNode_node, true_and]
  by_cases hempty : fLogDiff = true ∧ data = (pg.node i).data
  · -- an empty diff leaves the data
    obtain ⟨hlog, rfl⟩ := hempty
    rw [if_pos ⟨hlog, rfl⟩]
    refine ⟨pg.withNode i ⟨(pg.node i).data, { prce with fEmptyDiff := true } :: (pg.node i).rces⟩
      pg.cbFree c, ?_, ?_⟩
    · rw [Page.flagEmptyDiff, withNode_node]
      simp only [withNode_setRCEs]
    · refine replaced_of_chain h howner hc hcheck rfl hbefore ?_ rfl ?_ (fun _ => hmax)
        (fun hlt => ?_)
      · cases hchain with
        | cons hsum hdata hbf hm he hr => exact .cons hsum hdata hbf hm (fun _ => ⟨rfl, rfl⟩) hr
      · show (c.toNat : Int) = c.toNat + (prce.cbMax - _ - _)
        omega
      · omega
  · rw [if_neg hempty]
    by_cases hzero : (data.length : Int) = (pg.node i).data.length
    · -- the size does not change
      refine ⟨pg.withNode i ⟨data, prce :: (pg.node i).rces⟩
        (pg.cbFree + (pg.node i).data.length - data.length) c, ?_, ?_⟩
      · have hgrow : ¬ (data.length : Int) - (pg.node i).data.length > 0 := by omega
        have hshrink : ¬ (data.length : Int) - (pg.node i).data.length < 0 := by omega
        rw [if_neg hshrink, if_neg hgrow, withNode_replace]
      · refine replaced_of_chain h howner hc hcheck rfl hbefore ?_ (by omega) (by omega)
          (fun _ => hmax)
          (fun hlt => by omega)
        cases hchain with
        | cons hsum hdata hbf hm he hr =>
          exact .cons (by omega) (by omega) hbf hm (fun he => nomatch he) hr
    · have hnew : data.length < 2 ^ 15 := by omega
      have hold : ((pg.node i).data.length : Int) ≤ prce.cbMax := by omega
      obtain ⟨prce', cbDelta, hadjust, hp', he', hb', hm', hd', hdelta⟩ :=
        setCbAdjust_spec rfl hold hnew
      have hchain' := hchain.adjust hadjust hnew
      have hfree : pg.cbFree + (pg.node i).data.length - data.length + data.length
          = pg.cbFree + (pg.node i).data.length := by omega
      have hreplaced (c' : USHORT) (hc' : (c'.toNat : Int) = c.toNat - cbDelta) :=
        replaced_of_chain h howner hc hcheck hp' (hb'.trans hbefore) hchain' hfree
          (show (c'.toNat : Int) =
          c.toNat + (prce'.cbMax - data.length - reserve (pg.node i)) by omega)
          (fun hle => by omega) (fun hlt => by omega)
      by_cases hgrow : (data.length : Int) - (pg.node i).data.length > 0
      · obtain ⟨c', hset, hc'⟩ := verSetCbAdjust_withNode pg i pg.cbFree c (pg.node i).data
          (pg.node i).rces hadjust (by omega) (by omega)
        have hshrink : ¬ (data.length : Int) - (pg.node i).data.length < 0 := by omega
        refine ⟨_, ?_, hreplaced c' hc'⟩
        rw [if_neg hshrink, if_pos hgrow, hset, withNode_replace]
      · obtain ⟨c', hset, hc'⟩ := verSetCbAdjust_withNode pg i
          (pg.cbFree + (pg.node i).data.length - data.length) c data (pg.node i).rces hadjust
          (by omega)
          (by omega)
        have hshrink : (data.length : Int) - (pg.node i).data.length < 0 := by omega
        refine ⟨_, ?_, hreplaced c' hc'⟩
        rw [if_pos hshrink, if_neg hgrow, withNode_replace, hset]

end

/-- The three results of a replace. -/
theorem errBTReplace_spec {pg : Page ι PIB} (h : Inv pg) {fPageRecentlyDirtied : Bool}
    (hrec : fPageRecentlyDirtied = false → ∀ i, (pg.node i).rces = []) (fLogDiff : Bool)
    (ppib : PIB) (i : ι)
    (data : List Byte) :
    errBTReplace fPageRecentlyDirtied fLogDiff ppib pg i data = (.JET_errWriteConflict, pg)
      ∨ ∃ c, Checked pg c ∧
        (errBTReplace fPageRecentlyDirtied fLogDiff ppib pg i data
            = (.errPMOutOfPageSpace, { pg with cbUncommittedFree := c })
          ∨ ∃ pg', errBTReplace fPageRecentlyDirtied fLogDiff ppib pg i data =
            (.JET_errSuccess, pg')
            ∧ Replaced ppib pg pg' i data c) := by
  by_cases hconflict : (pg.node i).rces.any fun prce => prce.ppib ≠ ppib
  · left
    rw [errBTReplace]
    exact if_pos hconflict
  · have howner (prce : RCE PIB) (hprce : prce ∈ (pg.node i).rces) : prce.ppib = ppib := by
      by_contra hne
      exact hconflict (List.any_eq_true.2 ⟨prce, hprce, decide_eq_true hne⟩)
    have hrec' : fPageRecentlyDirtied = false → pg.total = 0 := fun hf =>
      Finset.sum_eq_zero fun j _ => by rw [reserve_eq_sum, hrec hf j]; rfl
    obtain ⟨hinv, htotal, hreserve, -⟩ := h.setup howner
    right
    rw [errBTReplace]
    simp only [hconflict, Bool.false_eq_true, if_false, setRCEs_eq]
    have howner' (prce : RCE PIB) (hprce : prce ∈ ((pg.withNode i ⟨(pg.node i).data,
        setupInsertedDMLRCE ppib (pg.node i) :: (pg.node i).rces⟩ pg.cbFree
          pg.cbUncommittedFree).node i).rces) :
        prce.ppib = ppib := by
      rw [withNode_node] at hprce
      rcases List.mem_cons.1 hprce with rfl | hprce
      · rfl
      · exact howner prce hprce
    obtain ⟨b, c, hrun, hc, hb⟩ := checkReplace_spec hinv (htotal ▸ hrec') howner' data
    have hc' : Checked pg c := ⟨htotal ▸ hc.total_le, hc.le_count, htotal ▸ hc.exact⟩
    refine ⟨c, hc', ?_⟩
    cases b with
    | false =>
      left
      simp only [errNDReplace, hrun]
      rw [show ({ pg.withNode i
          ⟨(pg.node i).data, setupInsertedDMLRCE ppib (pg.node i) :: (pg.node i).rces⟩
          pg.cbFree pg.cbUncommittedFree with cbUncommittedFree := c } : Page ι PIB)
        = pg.withNode i ⟨(pg.node i).data, setupInsertedDMLRCE ppib (pg.node i) :: (pg.node i).rces⟩
          pg.cbFree c from rfl]
      simp only [Page.withNode, Function.update_idem, Function.update_self]
      rw [show (⟨(pg.node i).data, (pg.node i).rces⟩ : Node PIB) = pg.node i from rfl,
        Function.update_eq_self]
    | true =>
      right
      have hcheck := hb rfl
      rw [hreserve] at hcheck
      rw [withNode_node] at hcheck
      obtain ⟨pg', hrun', hreplaced⟩ := errNDReplace_passed h howner fLogDiff hc' hcheck hrun
      exact ⟨pg', by rw [hrun'], hreplaced⟩

/-! ## Undo -/

/-- Undo of the newest replace finds its space, and the page's count changes with the
reservation. -/
theorem undoReplace_spec {pg : Page ι PIB} (h : Inv pg) (fPageRecentlyDirtied : Bool) {i : ι}
    {prce : RCE PIB}
    {rces : List (RCE PIB)} (hr : (pg.node i).rces = prce :: rces) :
    (prce.verreplace.rgbBeforeImage.length : Int) - (pg.node i).data.length
        ≤ pg.cbFree - (pg.total - reserve (pg.node i))
      ∧ ∃ pg', undoReplace fPageRecentlyDirtied pg i = (true, pg') ∧ Inv pg'
        ∧ pg'.node i = ⟨prce.verreplace.rgbBeforeImage, rces⟩ ∧ (∀ j ≠ i, pg'.node j = pg.node j)
        ∧ (pg'.cbUncommittedFree.toNat : Int)
          = pg.cbUncommittedFree.toNat + (reserve (pg'.node i) - reserve (pg.node i)) := by
  have hchain := h.chain i
  have hreserve := hchain.reserve_eq
  have hle := h.reserve_le_total i
  have htotal := h.total_le
  have hcount := h.count_le
  have hlt := h.data_lt i
  have hmaxlt := prce.cbMax_lt
  rw [hr] at hchain hreserve
  cases hchain with
  | cons hsum hdata hbefore hmax hempty hrest =>
    have hnew : reserve (⟨prce.verreplace.rgbBeforeImage, rces⟩ : Node PIB)
        = expected rces prce.verreplace.rgbBeforeImage.length :=
      hrest.reserve_eq (n := ⟨prce.verreplace.rgbBeforeImage, rces⟩)
    have hnonneg := hrest.expected_nonneg
    have hexp : expected rces prce.verreplace.rgbBeforeImage.length
        ≤ prce.cbMax - prce.verreplace.rgbBeforeImage.length := by
      cases rces with
      | nil => exact Int.sub_nonneg.2 hbefore
      | cons q qs =>
        rw [expected] at hmax ⊢
        omega
    rw [expected] at hreserve
    refine ⟨by omega, ?_⟩
    have howner (p : RCE PIB) (hp : p ∈ rces) (p' : RCE PIB) (hp' : p' ∈ rces) : p.ppib = p'.ppib :=
      h.owner i p (hr ▸ List.mem_cons_of_mem _ hp) p' (hr ▸ List.mem_cons_of_mem _ hp')
    have hundone (c' : USHORT)
      (hc' : (c'.toNat : Int) = pg.cbUncommittedFree.toNat - prce.cbDelta) :
        Inv (pg.withNode i ⟨prce.verreplace.rgbBeforeImage, rces⟩
            (pg.cbFree + (pg.node i).data.length - prce.verreplace.rgbBeforeImage.length) c')
          ∧ (c'.toNat : Int) = pg.cbUncommittedFree.toNat
            + (reserve (⟨prce.verreplace.rgbBeforeImage, rces⟩ : Node PIB) - reserve (pg.node i)) :=
      ⟨h.set hrest howner (by omega) (by omega) (by simp only; omega), by omega⟩
    have hother (c' : USHORT) (f : Nat) (j : ι) (hj : j ≠ i) :
        (pg.withNode i ⟨prce.verreplace.rgbBeforeImage, rces⟩ f c').node j = pg.node j :=
      Function.update_of_ne hj ..
    by_cases hdiff : prce.fEmptyDiff = true
    · -- nothing was changed
      obtain ⟨hsame, hzero⟩ := hempty hdiff
      obtain ⟨hinv, hc⟩ := hundone pg.cbUncommittedFree (by omega)
      rw [show pg.cbFree + (pg.node i).data.length - prce.verreplace.rgbBeforeImage.length =
        pg.cbFree by
        rw [hsame]; omega] at hinv
      refine ⟨_, ?_, hinv, by rw [withNode_node], hother _ _, by rw [withNode_node]; exact hc⟩
      simp only [undoReplace, hr, hdiff, if_true, setRCEs_eq, hsame]
    · -- the page before the replace, without the reservation that the undo consumes
      obtain ⟨c₁, hpg₁, hc₁⟩ : ∃ c₁ : USHORT,
          (if prce.cbDelta > 0 then pg.reclaimUncommittedFreed prce.cbDelta else pg)
              = { pg with cbUncommittedFree := c₁ }
            ∧ (c₁.toNat : Int) = pg.cbUncommittedFree.toNat - max 0 prce.cbDelta := by
        by_cases hpos : prce.cbDelta > 0
        · exact ⟨_, by rw [if_pos hpos]; rfl, by rw [toNat_ofInt (by omega) (by omega)]; omega⟩
        · exact ⟨pg.cbUncommittedFree, by rw [if_neg hpos], by omega⟩
      have hcheck : checkReplace fPageRecentlyDirtied prce.ppib { pg with cbUncommittedFree := c₁ }
          i
          prce.verreplace.rgbBeforeImage = (true, { pg with cbUncommittedFree := c₁ }) := by
        rw [checkReplace]
        by_cases hreq : (prce.verreplace.rgbBeforeImage.length : Int) - (pg.node i).data.length > 0
        · have hfree : ¬ pg.cbFree
              < ((prce.verreplace.rgbBeforeImage.length : Int) - (pg.node i).data.length).toNat :=
                by omega
          have hunc : ¬ ((((prce.verreplace.rgbBeforeImage.length : Int)
              - (pg.node i).data.length).toNat : Int) > pg.cbFree - c₁.toNat) := by omega
          simp only [if_pos hreq, fndFreePageSpace, if_neg hfree, fverCheckUncommittedFreedSpace,
            if_neg hunc]
        · simp only [if_neg hreq]
      obtain ⟨c₂, hpg₂, hc₂⟩ : ∃ c₂ : USHORT,
          (∀ n f, (if prce.cbDelta < 0 then (pg.withNode i n f c₁).addUncommittedFreed
              (-prce.cbDelta)
              else pg.withNode i n f c₁) = pg.withNode i n f c₂)
            ∧ (c₂.toNat : Int) = pg.cbUncommittedFree.toNat - prce.cbDelta := by
        by_cases hneg : prce.cbDelta < 0
        · refine ⟨BitVec.ofInt 16 (c₁.toNat + -prce.cbDelta), fun n f => ?_, ?_⟩
          · rw [if_pos hneg]
            rfl
          · rw [toNat_ofInt (by omega) (by omega)]
            omega
        · exact ⟨c₁, fun n f => if_neg hneg, by omega⟩
      obtain ⟨hinv, hc⟩ := hundone c₂ hc₂
      refine ⟨_, ?_, hinv, by rw [withNode_node], hother _ _, by rw [withNode_node]; exact hc⟩
      have hreplace : ({ pg with cbUncommittedFree := c₁ } : Page ι PIB).replace i
          prce.verreplace.rgbBeforeImage
        = pg.withNode i ⟨prce.verreplace.rgbBeforeImage, (pg.node i).rces⟩
          (pg.cbFree + (pg.node i).data.length - prce.verreplace.rgbBeforeImage.length) c₁ := rfl
      rw [RCE.cbDelta] at hpg₁ hpg₂
      simp only [undoReplace, hr, hdiff, Bool.false_eq_true, if_false, hpg₁, errNDReplace, hcheck,
        false_and,
        hreplace, hpg₂, withNode_setRCEs]

/-- Undo of the newest `k` replaces of a node, newest first. -/
def rollback (fPageRecentlyDirtied : Bool) (i : ι) : Nat → Page ι PIB → Bool × Page ι PIB
  | 0, pg => (true, pg)
  | k + 1, pg =>
    match undoReplace fPageRecentlyDirtied pg i with
    | (false, pg) => (false, pg)
    | (true, pg) => rollback fPageRecentlyDirtied i k pg

/-- A rollback of the `k` newest RCEs of a node succeeds, and gives back what they reserved. -/
theorem rollback_spec {pg : Page ι PIB} (h : Inv pg) (fPageRecentlyDirtied : Bool) {i : ι} {k : Nat}
    (hk : k ≤ (pg.node i).rces.length) :
    ∃ pg', rollback fPageRecentlyDirtied i k pg = (true, pg') ∧ Inv pg'
      ∧ (pg'.node i).rces = (pg.node i).rces.drop k
      ∧ (pg'.cbUncommittedFree.toNat : Int)
        = pg.cbUncommittedFree.toNat + (reserve (pg'.node i) - reserve (pg.node i)) := by
  induction k generalizing pg with
  | zero => exact ⟨pg, rfl, h, rfl, by omega⟩
  | succ k ih =>
    obtain ⟨prce, rces, hr⟩ :=
      List.exists_cons_of_length_pos (show 0 < (pg.node i).rces.length by omega)
    obtain ⟨-, pg₁, hundo, hinv₁, hnode, -, hcount₁⟩ := undoReplace_spec h fPageRecentlyDirtied hr
    rw [hr, List.length_cons] at hk
    obtain ⟨pg', hrun, hinv', hrces, hcount'⟩ :=
      ih hinv₁ (by rw [hnode]; show k ≤ rces.length; omega)
    refine ⟨pg', ?_, hinv', ?_, by omega⟩
    · rw [rollback, hundo]
      exact hrun
    · rw [hrces, hnode, hr, List.drop_succ_cons]

/-! ## Runs -/

/-- The operations on a page. `fPageRecentlyDirtied` is the outcome of `FPageRecentlyDirtied`. -/
inductive Op (ι PIB : Type) where
  | Replace (ppib : PIB) (i : ι) (data : List Byte) (fPageRecentlyDirtied fLogDiff : Bool)
  | Undo (i : ι) (fPageRecentlyDirtied : Bool)
  | Commit (ppib : PIB)
  | Insert (cbReq : Nat) (fPageRecentlyDirtied : Bool)
  | SplitReplace (ppib : PIB) (i : ι) (data : List Byte)

/-- The replace of a node that does not fit: the split moves the node to a page on which `pg'` has
the nodes that stay with it and whose counts it sets. -/
structure SplitReplace (ppib : PIB) (i : ι) (data : List Byte) (pg pg' : Page ι PIB) : Prop where
  owner : ∀ prce ∈ (pg.node i).rces, prce.ppib = ppib
  grows : (pg.node i).data.length < data.length
  node : pg'.node i = ⟨data, (setCbAdjust (setupInsertedDMLRCE ppib (pg.node i)) data.length
    (pg.node i).data.length).1 :: (pg.node i).rces⟩
  other : ∀ j ≠ i, pg'.node j = pg.node j ∨ pg'.node j = ⟨[], []⟩
  total_le : pg'.total ≤ pg'.cbUncommittedFree.toNat
  count_le : pg'.cbUncommittedFree.toNat ≤ pg'.cbFree
  size_lt : pg'.cbFree + pg'.size < 2 ^ 15

/-- The steps of a page. A page that is not recently dirtied has no uncommitted version. -/
def Step : Op ι PIB → Page ι PIB → Page ι PIB → Prop
  | .Replace ppib i data fPageRecentlyDirtied fLogDiff, pg, pg' =>
    (fPageRecentlyDirtied = false → ∀ j, (pg.node j).rces = [])
      ∧ pg' = (errBTReplace fPageRecentlyDirtied fLogDiff ppib pg i data).2
  | .Undo i fPageRecentlyDirtied, pg, pg' => pg' = (undoReplace fPageRecentlyDirtied pg i).2
  | .Commit ppib, pg, pg' => pg' = commit ppib pg
  | .Insert cbReq fPageRecentlyDirtied, pg, pg' =>
    (fPageRecentlyDirtied = false → ∀ j, (pg.node j).rces = [])
      ∧ pg' = (errNDInsert fPageRecentlyDirtied pg cbReq).2
  | .SplitReplace ppib i data, pg, pg' => SplitReplace ppib i data pg pg'

/-- A page without uncommitted versions. Its count may be stale. -/
structure Initial (pg : Page ι PIB) : Prop where
  rces : ∀ i, (pg.node i).rces = []
  count_le : pg.cbUncommittedFree.toNat ≤ pg.cbFree
  size_lt : pg.cbFree + pg.size < 2 ^ 15

omit [DecidableEq ι] in
/-- A corrected count keeps the invariant. -/
theorem Checked.inv {pg : Page ι PIB} (h : Inv pg) {c : USHORT} (hc : Checked pg c) :
    Inv { pg with cbUncommittedFree := c } :=
  ⟨h.chain, h.owner, hc.total_le, Nat.le_trans hc.le_count h.count_le, h.size_lt⟩

omit [DecidableEq ι] in
/-- A page without versions satisfies the invariant. -/
theorem Initial.inv {pg : Page ι PIB} (h : Initial pg) : Inv pg := by
  refine ⟨fun i => ?_, fun i prce hprce => ?_, ?_, h.count_le, h.size_lt⟩
  · rw [h.rces]
    exact .nil _
  · rw [h.rces] at hprce
    cases hprce
  · have htotal : pg.total = 0 := Finset.sum_eq_zero fun i _ => by rw [reserve_eq_sum, h.rces]; rfl
    omega

omit [DecidableEq ι] in
/-- A commit keeps the invariant. -/
theorem commit_inv {pg : Page ι PIB} (h : Inv pg) (ppib : PIB) : Inv (commit ppib pg) := by
  -- all the versions of a node are the session's, or none is
  have hnode (i : ι) : ((commit ppib pg).node i).rces = (pg.node i).rces
      ∨ ((commit ppib pg).node i).rces = [] := by
    by_cases hall : ∀ prce ∈ (pg.node i).rces, prce.ppib ≠ ppib
    · exact .inl (List.filter_eq_self.2 fun prce hprce => decide_eq_true (hall prce hprce))
    · simp only [not_forall, not_not] at hall
      obtain ⟨q, hq, rfl⟩ := hall
      refine .inr (List.filter_eq_nil_iff.2 fun prce hprce => ?_)
      simp [h.owner i prce hprce q hq]
  have hreserve (i : ι) : reserve ((commit ppib pg).node i) ≤ reserve (pg.node i) := by
    have := (h.chain i).reserve_nonneg
    rcases hnode i with he | he
    · rw [reserve_eq_sum, he, ← reserve_eq_sum]
    · rw [reserve_eq_sum, he]
      exact this
  have htotal : (commit ppib pg).total ≤ pg.total := Finset.sum_le_sum fun i _ => hreserve i
  refine ⟨fun i => ?_, fun i => ?_, le_trans htotal h.total_le, h.count_le, h.size_lt⟩
  · rcases hnode i with he | he
    · rw [he]
      exact h.chain i
    · rw [he]
      exact .nil _
  · rcases hnode i with he | he
    · rw [he]
      exact h.owner i
    · rw [he]
      exact fun prce hprce => nomatch hprce

/-- A replace in a split keeps the invariant. -/
theorem splitReplace_inv {pg pg' : Page ι PIB} (h : Inv pg) {ppib : PIB} {i : ι} {data : List Byte}
    (hs : SplitReplace ppib i data pg pg') : Inv pg' := by
  obtain ⟨howner, hgrows, hnode, hother, htotal, hcount, hsize⟩ := hs
  obtain ⟨-, -, -, hmax⟩ := h.setup howner
  have hcb := h.data_lt i
  have hnonneg := (h.chain i).reserve_nonneg
  have hnew : data.length < 2 ^ 15 := by
    have hle : (pg'.node i).data.length ≤ pg'.size :=
      Finset.single_le_sum (f := fun i => (pg'.node i).data.length) (fun _ _ => Nat.zero_le _)
        (Finset.mem_univ i)
    rw [hnode] at hle
    simp only at hle
    omega
  have hold : ((pg.node i).data.length : Int) ≤ (setupInsertedDMLRCE ppib (pg.node i)).cbMax := by
    omega
  obtain ⟨prce', cbDelta, hadjust, hp', he', hb', hm', hd', hdelta⟩ :=
    setCbAdjust_spec rfl hold hnew
  have hchain := (h.chain i).setup (by omega) ppib
  rw [hadjust] at hnode
  refine ⟨fun j => ?_, fun j => ?_, htotal, hcount, hsize⟩
  · by_cases hj : j = i
    · subst hj
      rw [hnode]
      exact hchain.adjust hadjust hnew
    · rcases hother j hj with he | he
      · rw [he]
        exact h.chain j
      · rw [he]
        exact .nil _
  · by_cases hj : j = i
    · subst hj
      rw [hnode]
      have hall (q : RCE PIB) (hq : q ∈ prce' :: (pg.node j).rces) : q.ppib = ppib := by
        rcases List.mem_cons.1 hq with rfl | hq
        · exact hp'
        · exact howner q hq
      exact fun p hp p' hp' => (hall p hp).trans (hall p' hp').symm
    · rcases hother j hj with he | he
      · rw [he]
        exact h.owner j
      · rw [he]
        exact fun prce hprce => nomatch hprce

omit [DecidableEq ι] in
/-- An insertion keeps the invariant. -/
theorem errNDInsert_inv {pg : Page ι PIB} (h : Inv pg) {fPageRecentlyDirtied : Bool}
    (hrec : fPageRecentlyDirtied = false → ∀ i, (pg.node i).rces = []) (cbReq : Nat) :
    Inv (errNDInsert fPageRecentlyDirtied pg cbReq).2 := by
  have hrec' : fPageRecentlyDirtied = false → pg.total = 0 := fun hf =>
    Finset.sum_eq_zero fun j _ => by rw [reserve_eq_sum, hrec hf j]; rfl
  obtain ⟨b, c, hrun, hc, hb⟩ := fndFreePageSpace_spec h hrec' cbReq
  cases b with
  | false =>
    simp only [errNDInsert, hrun]
    exact hc.inv h
  | true =>
    simp only [errNDInsert, hrun]
    have hle := hb rfl
    have hlt := h.size_lt
    refine ⟨h.chain, h.owner, hc.total_le, ?_, ?_⟩
    · show c.toNat ≤ pg.cbFree - cbReq
      omega
    · show pg.cbFree - cbReq + pg.size < 2 ^ 15
      omega

/-- Every step keeps the invariant. -/
theorem step_inv (op : Op ι PIB) (pg pg' : Page ι PIB) (h : Inv pg) (hs : Step op pg pg') :
    Inv pg' := by
  cases op with
  | Replace ppib i data fPageRecentlyDirtied fLogDiff =>
    obtain ⟨hrec, rfl⟩ := hs
    rcases errBTReplace_spec h hrec fLogDiff ppib i data with he | ⟨c, hc, he | ⟨pg', he, hr⟩⟩
    · rw [he]
      exact h
    · rw [he]
      exact hc.inv h
    · rw [he]
      exact hr.inv
  | Undo i fPageRecentlyDirtied =>
    cases hs
    cases hr : (pg.node i).rces with
    | nil =>
      rw [undoReplace, hr]
      exact h
    | cons prce rces =>
      obtain ⟨-, pg', hundo, hinv, -⟩ := undoReplace_spec h fPageRecentlyDirtied hr
      rw [hundo]
      exact hinv
  | Commit ppib =>
    cases hs
    exact commit_inv h ppib
  | Insert cbReq fPageRecentlyDirtied =>
    obtain ⟨hrec, rfl⟩ := hs
    exact errNDInsert_inv h hrec cbReq
  | SplitReplace ppib i data => exact splitReplace_inv h hs

/-- In every page a run reaches: a node's reservation is the newest `cbMaxSize` less its size; a
replace and an undo change the page's count by the change of the reservation, a replace after the
space check, which leaves the count or sets it to what the nodes reserve; the before-image of the
newest replace fits in the free space less what the other nodes reserve; and any number of replaces
can be undone. -/
theorem run_reserve {pg₀ pg : Page ι PIB} (h₀ : Initial pg₀) {ops : List (Op ι PIB)}
    (hrun : Run Step pg₀ ops pg) :
    (∀ i, cbVERGetNodeReserve none (pg.node i) =
        match (pg.node i).rces with
        | [] => 0
        | prce :: _ => prce.verreplace.cbMaxSize.toInt - (pg.node i).data.length)
    ∧ (∀ ppib i data fPageRecentlyDirtied fLogDiff pg',
        (fPageRecentlyDirtied = false → ∀ j, (pg.node j).rces = []) →
        errBTReplace fPageRecentlyDirtied fLogDiff ppib pg i data = (.JET_errSuccess, pg') →
        (pg'.node i).data = data ∧ (∀ j ≠ i, pg'.node j = pg.node j)
        ∧ ∃ c : USHORT,
          (c = pg.cbUncommittedFree ∨ (c.toNat : Int) = ∑ j, cbVERGetNodeReserve none (pg.node j))
          ∧ (pg'.cbUncommittedFree.toNat : Int)
            = c.toNat + (cbVERGetNodeReserve none (pg'.node i) - cbVERGetNodeReserve none
            (pg.node i)))
    ∧ (∀ i prce rces fPageRecentlyDirtied, (pg.node i).rces = prce :: rces →
        (prce.verreplace.rgbBeforeImage.length : Int) - (pg.node i).data.length
          ≤ pg.cbFree - (∑ j, cbVERGetNodeReserve none (pg.node j) - cbVERGetNodeReserve none
          (pg.node i))
        ∧ ∃ pg', undoReplace fPageRecentlyDirtied pg i = (true, pg')
          ∧ pg'.node i = ⟨prce.verreplace.rgbBeforeImage, rces⟩ ∧ (∀ j ≠ i, pg'.node j = pg.node j)
          ∧ (pg'.cbUncommittedFree.toNat : Int) = pg.cbUncommittedFree.toNat
            + (cbVERGetNodeReserve none (pg'.node i) - cbVERGetNodeReserve none (pg.node i)))
    ∧ ∀ i k fPageRecentlyDirtied, k ≤ (pg.node i).rces.length →
        ∃ pg', rollback fPageRecentlyDirtied i k pg = (true, pg')
          ∧ (pg'.node i).rces = (pg.node i).rces.drop k
          ∧ (pg'.cbUncommittedFree.toNat : Int) = pg.cbUncommittedFree.toNat
            + (cbVERGetNodeReserve none (pg'.node i) - cbVERGetNodeReserve none (pg.node i)) := by
  have h : Inv pg := hrun.invariant step_inv h₀.inv
  refine ⟨fun i => ?_, fun ppib i data fRec fLogDiff pg' hrec he => ?_,
    fun i prce rces fRec hr => ?_, fun i k fRec hk => ?_⟩
  · have hres := (h.chain i).reserve_eq
    cases hr : (pg.node i).rces with
    | nil =>
      rw [hr] at hres
      exact hres
    | cons prce rces =>
      rw [hr] at hres
      exact hres
  · rcases errBTReplace_spec h hrec fLogDiff ppib i data with he' | ⟨c, hc, he' | ⟨pg₁, he', hr⟩⟩
    · rw [he'] at he
      cases he
    · rw [he'] at he
      cases he
    · rw [he'] at he
      cases he
      exact ⟨hr.data, hr.other, c, hc.exact, hr.count⟩
  · obtain ⟨hspace, pg', hundo, -, hnode, hother, hcount⟩ := undoReplace_spec h fRec hr
    exact ⟨hspace, pg', hundo, hnode, hother, hcount⟩
  · obtain ⟨pg', hroll, -, hrces, hcount⟩ := rollback_spec h fRec hk
    exact ⟨pg', hroll, hrces, hcount⟩

/-- A run of one replace, which shrinks the only node of a page from three bytes to one. -/
theorem run_reserve_shrink :
    let pg₀ : Page Unit Unit := ⟨10, 0, fun _ => ⟨[1, 2, 3], []⟩⟩
    let pg := (errBTReplace true false () pg₀ () [1]).2
    cbVERGetNodeReserve none (pg.node ()) = 2 := by
  intro pg₀ pg
  have h₀ : Initial pg₀ := ⟨fun _ => rfl, by decide, by decide⟩
  have hrun : Run Step pg₀ [.Replace () () [1] true false] pg :=
    Run.single ⟨fun _ _ => rfl, rfl⟩
  exact ((run_reserve h₀ hrun).1 ()).trans (by decide)

end Ese.NodeReserve
