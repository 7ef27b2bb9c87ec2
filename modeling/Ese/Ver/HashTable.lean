import Mathlib.Data.List.Flatten
import Mathlib.Data.List.Nodup
import Mathlib.Data.List.Pairwise
import Ese.Lib.LinkedList
import Ese.Lib.Run
import Ese.Ver.HashChain

/-!
# The chains of the hash table

The abstract table has for each bucket the list of its chains, each a list of RCEs from the head on.
The links in memory represent it: the buckets are the lists of the heads through their overflow
links, the chains are doubly linked, and no two chains are of one node. An insertion adds an RCE to
the chain of its node or starts one, a deletion takes an RCE out of its chain.
-/

namespace Ese.HashChain

open VER

/-- What an RCE keeps: everything but its links. -/
structure Ident where
  ifmp : Nat
  pgnoFDP : Nat
  bookmark : BOOKMARK
  rceid : RCEID
  uiHash : Nat

/-- The node of an RCE. -/
structure NodeId where
  ifmp : Nat
  pgnoFDP : Nat
  bookmark : BOOKMARK

/-- What the RCE keeps. -/
def RCE.ident (r : RCE) : Ident := ⟨r.m_ifmp, r.m_pgnoFDP, r.bookmark, r.m_rceid, r.m_uiHash⟩

/-- What the RCE at `p` keeps. -/
def VER.ident (ver : VER) (p : Nat) : Ident := (ver.rce p).ident

/-- The node that an RCE is of. -/
def Ident.nodeId (i : Ident) : NodeId := ⟨i.ifmp, i.pgnoFDP, i.bookmark⟩

/-- The node of the RCE at `p`. -/
def VER.nodeId (ver : VER) (p : Nat) : NodeId := (ver.ident p).nodeId

/-- What a new RCE keeps, its hash value included. -/
def NewRCE.ident (uiRCHashFunc : Nat → Nat → BOOKMARK → Nat) (r : NewRCE) : Ident :=
  ⟨r.ifmp, r.pgnoFDP, r.bookmark, r.rceid, uiRCHashFunc r.ifmp r.pgnoFDP r.bookmark⟩

/-- The RCE `older` is older than the RCE `newer`. -/
def VER.Older (ver : VER) (older newer : Nat) : Prop :=
  rceidCmp (ver.ident older).rceid (ver.ident newer).rceid < 0

/-- The links in memory represent the chain `c` of bucket `h`. In a debug build an RCE that is not
the head has no overflow link; with `fInOrder` the chain goes from newest to oldest. -/
structure Chain (fDebug : Bool) (fInOrder : Prop) (ver : VER) (h : Nat) (c : List Nat) : Prop where
  nonempty : c ≠ []
  linked : ∃ p, Linked ver.prcePrevOfNode ver.prceNextOfNode prceNil (c.headD prceNil) c p prceNil
  node : ∀ p ∈ c, ∀ q ∈ c, ver.nodeId p = ver.nodeId q
  hash : ∀ p ∈ c, (ver.ident p).uiHash = h
  tail : fDebug = true → ∀ p ∈ c.tail, ver.prceHashOverflow p = prceInvalid
  ordered : fInOrder → c.Pairwise fun newer older => ver.Older older newer

/-- The links in memory represent the chains `cs` of bucket `h`: the overflow list has their heads,
and they are of different nodes. -/
structure Bucket (fDebug : Bool) (fInOrder : Prop) (ver : VER) (h : Nat) (cs : List (List Nat)) :
    Prop where
  chains : ∀ c ∈ cs, Chain fDebug fInOrder ver h c
  heads : CellList ver.deref .hashOverflow prceNil (.chain h) (cs.map (·.headD prceNil))
  nodes : cs.Pairwise fun c c' => ∀ p ∈ c, ∀ q ∈ c', ver.nodeId p ≠ ver.nodeId q
  nodup : cs.flatten.Nodup

/-- The hash table with the chains `B` has the RCEs `live`, created as `created` says. -/
structure Table (uiRCHashFunc : Nat → Nat → BOOKMARK → Nat) (fDebug : Bool) (fInOrder : Prop)
    (ver : VER)
    (B : Nat → List (List Nat)) (live : List Nat) (created : Nat → NewRCE) : Prop where
  bucket : ∀ h, Bucket fDebug fInOrder ver h (B h)
  mem : ∀ h p, p ∈ (B h).flatten ↔ p ∈ live ∧ (ver.ident p).uiHash = h
  nodup : live.Nodup
  ident : ∀ p ∈ live, ver.ident p = (created p).ident uiRCHashFunc
  ne_nil : ∀ p ∈ live, p ≠ prceNil
  rceid : ∀ p ∈ live, (created p).rceid ≠ rceidNull
  count : ver.cVERcrceHashEntries = live.length

/-! ## What the setters change -/

section
variable (ver : VER) (p q : Nat)

/-- A new overflow link is the new content of its cell. -/
@[simp] theorem deref_setPrceHashOverflow :
    (ver.setPrceHashOverflow p q).deref = Function.update ver.deref (.hashOverflow p) q := by
  funext c
  cases c with
  | chain => rfl
  | hashOverflow x =>
    by_cases hx : x = p
    · subst hx
      simp [setPrceHashOverflow, setRCE, deref, prceHashOverflow]
    · have hne : PPRCE.hashOverflow x ≠ .hashOverflow p := fun h => hx (by cases h; rfl)
      simp [setPrceHashOverflow, setRCE, deref, prceHashOverflow, Function.update_of_ne hx,
        Function.update_of_ne hne]

/-- A link to the next RCE of the node is in no cell. -/
@[simp] theorem deref_setPrceNextOfNode : (ver.setPrceNextOfNode p q).deref = ver.deref := by
  funext c
  cases c with
  | chain => rfl
  | hashOverflow x =>
    by_cases hx : x = p
    · subst hx
      simp [setPrceNextOfNode, setRCE, deref, prceHashOverflow]
    · simp [setPrceNextOfNode, setRCE, deref, prceHashOverflow, Function.update_of_ne hx]

/-- A link to the previous RCE of the node is in no cell. -/
@[simp] theorem deref_setPrcePrevOfNode : (ver.setPrcePrevOfNode p q).deref = ver.deref := by
  funext c
  cases c with
  | chain => rfl
  | hashOverflow x =>
    by_cases hx : x = p
    · subst hx
      simp [setPrcePrevOfNode, setRCE, deref, prceHashOverflow]
    · simp [setPrcePrevOfNode, setRCE, deref, prceHashOverflow, Function.update_of_ne hx]

/-- An assignment through a cell's address changes that cell. -/
@[simp] theorem deref_assign (c : PPRCE) :
    (ver.assign c q).deref = Function.update ver.deref c q := by
  cases c with
  | chain h =>
    funext d
    cases d with
    | chain h' =>
      by_cases hh : h' = h
      · subst hh
        simp [assign, deref]
      · have hne : PPRCE.chain h' ≠ .chain h := fun he => hh (by cases he; rfl)
        simp [assign, deref, Function.update_of_ne hh, Function.update_of_ne hne]
    | hashOverflow x =>
      have hne : PPRCE.hashOverflow x ≠ .chain h := fun he => by cases he
      simp only [Function.update_of_ne hne]
      rfl
  | hashOverflow x => exact deref_setPrceHashOverflow ver x q

/-- A new overflow link leaves the links to the previous RCE. -/
@[simp] theorem prev_setPrceHashOverflow :
    (ver.setPrceHashOverflow p q).prcePrevOfNode = ver.prcePrevOfNode := by
  funext x
  by_cases hx : x = p
  · subst hx
    simp [setPrceHashOverflow, setRCE, prcePrevOfNode]
  · simp [setPrceHashOverflow, setRCE, prcePrevOfNode, Function.update_of_ne hx]

/-- A new overflow link leaves the links to the next RCE. -/
@[simp] theorem next_setPrceHashOverflow :
    (ver.setPrceHashOverflow p q).prceNextOfNode = ver.prceNextOfNode := by
  funext x
  by_cases hx : x = p
  · subst hx
    simp [setPrceHashOverflow, setRCE, prceNextOfNode]
  · simp [setPrceHashOverflow, setRCE, prceNextOfNode, Function.update_of_ne hx]

/-- A new overflow link leaves what the RCEs keep. -/
@[simp] theorem ident_setPrceHashOverflow : (ver.setPrceHashOverflow p q).ident = ver.ident := by
  funext x
  by_cases hx : x = p
  · subst hx
    simp [setPrceHashOverflow, setRCE, VER.ident, RCE.ident]
  · simp [setPrceHashOverflow, setRCE, VER.ident, Function.update_of_ne hx]

/-- A new link to the next RCE leaves the links to the previous one. -/
@[simp] theorem prev_setPrceNextOfNode :
    (ver.setPrceNextOfNode p q).prcePrevOfNode = ver.prcePrevOfNode := by
  funext x
  by_cases hx : x = p
  · subst hx
    simp [setPrceNextOfNode, setRCE, prcePrevOfNode]
  · simp [setPrceNextOfNode, setRCE, prcePrevOfNode, Function.update_of_ne hx]

/-- A new link to the next RCE is the one of its RCE. -/
@[simp] theorem next_setPrceNextOfNode :
    (ver.setPrceNextOfNode p q).prceNextOfNode = Function.update ver.prceNextOfNode p q := by
  funext x
  by_cases hx : x = p
  · subst hx
    simp [setPrceNextOfNode, setRCE, prceNextOfNode]
  · simp [setPrceNextOfNode, setRCE, prceNextOfNode, Function.update_of_ne hx]

/-- A new link to the next RCE leaves what the RCEs keep. -/
@[simp] theorem ident_setPrceNextOfNode : (ver.setPrceNextOfNode p q).ident = ver.ident := by
  funext x
  by_cases hx : x = p
  · subst hx
    simp [setPrceNextOfNode, setRCE, VER.ident, RCE.ident]
  · simp [setPrceNextOfNode, setRCE, VER.ident, Function.update_of_ne hx]

/-- A new link to the previous RCE is the one of its RCE. -/
@[simp] theorem prev_setPrcePrevOfNode :
    (ver.setPrcePrevOfNode p q).prcePrevOfNode = Function.update ver.prcePrevOfNode p q := by
  funext x
  by_cases hx : x = p
  · subst hx
    simp [setPrcePrevOfNode, setRCE, prcePrevOfNode]
  · simp [setPrcePrevOfNode, setRCE, prcePrevOfNode, Function.update_of_ne hx]

/-- A new link to the previous RCE leaves the links to the next one. -/
@[simp] theorem next_setPrcePrevOfNode :
    (ver.setPrcePrevOfNode p q).prceNextOfNode = ver.prceNextOfNode := by
  funext x
  by_cases hx : x = p
  · subst hx
    simp [setPrcePrevOfNode, setRCE, prceNextOfNode]
  · simp [setPrcePrevOfNode, setRCE, prceNextOfNode, Function.update_of_ne hx]

/-- A new link to the previous RCE leaves what the RCEs keep. -/
@[simp] theorem ident_setPrcePrevOfNode : (ver.setPrcePrevOfNode p q).ident = ver.ident := by
  funext x
  by_cases hx : x = p
  · subst hx
    simp [setPrcePrevOfNode, setRCE, VER.ident, RCE.ident]
  · simp [setPrcePrevOfNode, setRCE, VER.ident, Function.update_of_ne hx]

/-- An assignment to a cell leaves the links to the previous RCE. -/
@[simp] theorem prev_assign (c : PPRCE) : (ver.assign c q).prcePrevOfNode = ver.prcePrevOfNode := by
  cases c with
  | chain => rfl
  | hashOverflow x => exact prev_setPrceHashOverflow ver x q

/-- An assignment to a cell leaves the links to the next RCE. -/
@[simp] theorem next_assign (c : PPRCE) : (ver.assign c q).prceNextOfNode = ver.prceNextOfNode := by
  cases c with
  | chain => rfl
  | hashOverflow x => exact next_setPrceHashOverflow ver x q

/-- An assignment to a cell leaves what the RCEs keep. -/
@[simp] theorem ident_assign (c : PPRCE) : (ver.assign c q).ident = ver.ident := by
  cases c with
  | chain => rfl
  | hashOverflow x => exact ident_setPrceHashOverflow ver x q

end

/-! ## Frames -/

/-- Different RCEs have different overflow cells. -/
theorem hashOverflow_injective : Function.Injective PPRCE.hashOverflow := fun _ _ h => by
  cases h; rfl

/-- `ver'` differs from `ver` in the cell `pprce` and in links of the RCEs `l` at most. -/
structure Touches (ver ver' : VER) (pprce : PPRCE) (l : List Nat) : Prop where
  prev : ∀ p ∉ l, ver'.prcePrevOfNode p = ver.prcePrevOfNode p
  next : ∀ p ∉ l, ver'.prceNextOfNode p = ver.prceNextOfNode p
  ident : ∀ p, ver'.ident p = ver.ident p
  link : ∀ p ∉ l, .hashOverflow p ≠ pprce → ver'.prceHashOverflow p = ver.prceHashOverflow p
  chain : ∀ h, .chain h ≠ pprce → ver'.chain h = ver.chain h

section
variable {fDebug : Bool} {o o' : Prop} {ver ver' : VER} {h : Nat} {c c' : List Nat}
    {cs cs₁ cs₂ : List (List Nat)}

/-- An RCE that keeps what it kept is of the node it was of. -/
theorem VER.nodeId_congr {p : Nat} (h : ver'.ident p = ver.ident p) :
    ver'.nodeId p = ver.nodeId p := by
  rw [VER.nodeId, VER.nodeId, h]

/-- A chain in order is a chain under a weaker demand for order. -/
theorem Chain.mono (hc : Chain fDebug o ver h c) (ho : o' → o) : Chain fDebug o' ver h c :=
  { hc with ordered := fun h => hc.ordered (ho h) }

/-- A chain stays where its links and what its RCEs keep stay. -/
theorem Chain.congr (hc : Chain fDebug o ver h c)
    (hp : ∀ p ∈ c, ver'.prcePrevOfNode p = ver.prcePrevOfNode p)
    (hn : ∀ p ∈ c, ver'.prceNextOfNode p = ver.prceNextOfNode p)
    (hi : ∀ p ∈ c, ver'.ident p = ver.ident p)
    (ho : ∀ p ∈ c.tail, ver'.prceHashOverflow p = ver.prceHashOverflow p) :
      Chain fDebug o ver' h c := by
  obtain ⟨e, hlinked⟩ := hc.linked
  constructor
  · exact hc.nonempty
  · exact ⟨e, hlinked.congr hp hn⟩
  · intro p hpc q hqc
    rw [VER.nodeId_congr (hi p hpc), VER.nodeId_congr (hi q hqc)]
    exact hc.node p hpc q hqc
  · intro p hpc
    rw [hi p hpc]
    exact hc.hash p hpc
  · intro hd p hpc
    rw [ho p hpc]
    exact hc.tail hd p hpc
  · intro hord
    refine (hc.ordered hord).imp_of_mem fun hpc hqc hlt => ?_
    rw [VER.Older, hi _ hpc, hi _ hqc]
    exact hlt

/-- A bucket in order is a bucket under a weaker demand for order. -/
theorem Bucket.mono (hb : Bucket fDebug o ver h cs) (ho : o' → o) : Bucket fDebug o' ver h cs :=
  { hb with chains := fun c hc => (hb.chains c hc).mono ho }

/-- The head of a chain is in it. -/
theorem headD_mem (hc : c ≠ []) : c.headD prceNil ∈ c := by
  cases c with
  | nil => exact absurd rfl hc
  | cons a l => exact List.mem_cons_self

section
variable (hb : Bucket fDebug o ver h cs)
include hb

/-- The head of a chain of the bucket is in that chain. -/
theorem Bucket.head_mem (hc : c ∈ cs) : c.headD prceNil ∈ c := headD_mem (hb.chains c hc).nonempty

/-- The head of a chain is an RCE of the bucket. -/
theorem Bucket.head_mem_flatten (hc : c ∈ cs) : c.headD prceNil ∈ cs.flatten :=
  List.mem_flatten_of_mem hc (hb.head_mem hc)

/-- An RCE is in one chain only. -/
theorem Bucket.chain_eq (hc : c ∈ cs) (hc' : c' ∈ cs) {p : Nat} (hp : p ∈ c) (hp' : p ∈ c') :
    c = c' := by
  by_contra hne
  have hd := (List.nodup_flatten.1 hb.nodup).2
  have hsymm : Std.Symm fun c c' : List Nat => c.Disjoint c' :=
    ⟨fun _ _ h _ hc' hc => h hc hc'⟩
  exact hd.forall hc hc' hne hp hp'

/-- A head is not in the tail of a chain. -/
theorem Bucket.head_notMem_tail (hc : c ∈ cs) (hc' : c' ∈ cs) : c.headD prceNil ∉ c'.tail := by
  intro hp
  have he := hb.chain_eq hc hc' (hb.head_mem hc) (List.mem_of_mem_tail hp)
  subst he
  have hnd := (List.nodup_flatten.1 hb.nodup).1 c hc
  cases c with
  | nil => simp at hp
  | cons a l => exact (List.nodup_cons.1 hnd).1 hp

/-- Different chains have different heads. -/
theorem Bucket.heads_nodup : (cs.map (·.headD prceNil)).Nodup := by
  have hd := (List.nodup_flatten.1 hb.nodup).2
  refine List.pairwise_map.2 (hd.imp_of_mem fun hc hc' hdis he => ?_)
  exact hdis (hb.head_mem hc) (he ▸ hb.head_mem hc')

end

/-- The cell of a head is the bucket's, or the link of a head before it. -/
theorem cell_cases {pprce : PPRCE}
    (hpre : Cells ver.deref .hashOverflow (.chain h) (cs₁.map (·.headD prceNil)) pprce) :
    (cs₁ = [] ∧ pprce = .chain h) ∨ ∃ c₁ ∈ cs₁, pprce = .hashOverflow (c₁.headD prceNil) := by
  rcases hpre.end_mem with ⟨hnil, he⟩ | ⟨a, ha, he⟩
  · exact .inl ⟨List.map_eq_nil_iff.1 hnil, he⟩
  · obtain ⟨c₁, hc₁, rfl⟩ := List.mem_map.1 ha
    exact .inr ⟨c₁, hc₁, he⟩

/-- The nodes beside the chain of the cell stay different. -/
theorem Bucket.nodes_frame {pprce : PPRCE} {l : List Nat}
    (hb : Bucket fDebug o ver h (cs₁ ++ c :: cs₂))
    (ht : Touches ver ver' pprce l) :
    (cs₁ ++ cs₂).Pairwise fun c c' => ∀ p ∈ c, ∀ q ∈ c', ver'.nodeId p ≠ ver'.nodeId q := by
  have hsub : (cs₁ ++ cs₂).Sublist (cs₁ ++ c :: cs₂) :=
    List.Sublist.append_left (List.sublist_cons_self c cs₂) cs₁
  refine (hb.nodes.sublist hsub).imp fun hne p hp q hq => ?_
  rw [VER.nodeId_congr (ht.ident p), VER.nodeId_congr (ht.ident q)]
  exact hne p hp q hq

section
variable {pprce : PPRCE} {l : List Nat} (hb : Bucket fDebug o ver h (cs₁ ++ c :: cs₂))
  (hpre : Cells ver.deref .hashOverflow (.chain h) (cs₁.map (·.headD prceNil)) pprce)
  (ht : Touches ver ver' pprce l) (hl : ∀ p ∈ l, p ∉ (cs₁ ++ cs₂).flatten)
include hb hpre ht hl

/-- The chains beside the one of the cell `pprce` stay. -/
theorem Bucket.chains_frame : ∀ c' ∈ cs₁ ++ cs₂, Chain fDebug o ver' h c' := by
  intro c' hc'
  have hmem : c' ∈ cs₁ ++ c :: cs₂ := by
    rcases List.mem_append.1 hc' with hc' | hc'
    · exact List.mem_append_left _ hc'
    · exact List.mem_append_right _ (List.mem_cons_of_mem _ hc')
  have hout : ∀ p ∈ c', p ∉ l := fun p hp hpl => hl p hpl (List.mem_flatten_of_mem hc' hp)
  refine (hb.chains c' hmem).congr (fun p hp => ht.prev p (hout p hp))
    (fun p hp => ht.next p (hout p hp))
    (fun p _ => ht.ident p) fun p hp => ht.link p (hout p (List.mem_of_mem_tail hp)) fun he => ?_
  rcases cell_cases hpre with ⟨-, hcell⟩ | ⟨c₁, hc₁, hcell⟩
  · rw [hcell] at he
    cases he
  · rw [hcell] at he
    rw [hashOverflow_injective he] at hp
    exact hb.head_notMem_tail (List.mem_append_left _ hc₁) hmem hp

/-- The cells beside `pprce` keep their content. -/
theorem Bucket.heads_frame :
    (cs₁.map (·.headD prceNil) ≠ [] → ver'.deref (.chain h) = ver.deref (.chain h))
      ∧ (∀ a ∈ cs₁.map (·.headD prceNil), PPRCE.hashOverflow a ≠ pprce →
          ver'.deref (.hashOverflow a) = ver.deref (.hashOverflow a))
      ∧ ∀ a ∈ cs₂.map (·.headD prceNil), ver'.deref (.hashOverflow a) = ver.deref
        (.hashOverflow a) := by
  have hout : ∀ c' ∈ cs₁ ++ cs₂, c' ∈ cs₁ ++ c :: cs₂ → c'.headD prceNil ∉ l :=
    fun c' hc' hmem hpl =>
    hl _ hpl (List.mem_flatten_of_mem hc' (hb.head_mem hmem))
  refine ⟨fun hne => ht.chain h fun he => ?_, fun a ha hne => ?_, fun a ha => ?_⟩
  · rcases cell_cases hpre with ⟨hnil, -⟩ | ⟨c₁, -, hcell⟩
    · exact hne (List.map_eq_nil_iff.2 hnil)
    · rw [hcell] at he
      cases he
  · obtain ⟨c₁, hc₁, rfl⟩ := List.mem_map.1 ha
    exact ht.link _ (hout c₁ (List.mem_append_left _ hc₁) (List.mem_append_left _ hc₁)) hne
  · obtain ⟨c₂, hc₂, rfl⟩ := List.mem_map.1 ha
    have hmem : c₂ ∈ cs₁ ++ c :: cs₂ := List.mem_append_right _ (List.mem_cons_of_mem _ hc₂)
    refine ht.link _ (hout c₂ (List.mem_append_right _ hc₂) hmem) fun he => ?_
    rcases cell_cases hpre with ⟨-, hcell⟩ | ⟨c₁, hc₁, hcell⟩
    · rw [hcell] at he
      cases he
    · -- the heads of two chains of the bucket are different
      rw [hcell] at he
      have hnd := hb.heads_nodup
      rw [List.map_append, List.nodup_append] at hnd
      exact hnd.2.2 _ (List.mem_map_of_mem hc₁) _ (List.mem_map_of_mem (List.mem_cons_of_mem _ hc₂))
        (hashOverflow_injective he).symm

/-- A chain takes the place of another of the same node. -/
theorem Bucket.replace (hc' : Chain fDebug o ver' h c')
    (hnode : ∀ q ∈ c', ∃ p ∈ c, ver'.nodeId q = ver.nodeId p)
    (hnd : (cs₁ ++ c' :: cs₂).flatten.Nodup) (hd : ver'.deref pprce = c'.headD prceNil)
    (hlink : ver'.deref (.hashOverflow (c'.headD prceNil)) = ver.deref
      (.hashOverflow (c.headD prceNil))) :
    Bucket fDebug o ver' h (cs₁ ++ c' :: cs₂) := by
  have hchains := hb.chains_frame hpre ht hl
  obtain ⟨hf₀, hf₁, hf₂⟩ := hb.heads_frame hpre ht hl
  constructor
  · intro c'' hmem
    rcases List.mem_append.1 hmem with hmem | hmem
    · exact hchains c'' (List.mem_append_left _ hmem)
    · rcases List.mem_cons.1 hmem with rfl | hmem
      · exact hc'
      · exact hchains c'' (List.mem_append_right _ hmem)
  · have hheads := hb.heads
    have hndh := hb.heads_nodup
    rw [List.map_append, List.map_cons] at hheads hndh ⊢
    obtain ⟨d, hd', hrest⟩ := CellList.append_iff.1 hheads
    exact CellList.replace hpre hrest.2 hashOverflow_injective (List.nodup_append.1 hndh).1 hf₀ hf₁
      hf₂ hd hlink
  · have hn := hb.nodes_frame ht
    have hold := hb.nodes
    rw [List.pairwise_append, List.pairwise_cons] at hold ⊢
    rw [List.pairwise_append] at hn
    refine ⟨hn.1, ⟨fun c₂ hc₂ q hq p hp => ?_, hn.2.1⟩, fun c₁ hc₁ c₂ hc₂ p hp q hq => ?_⟩
    · obtain ⟨q', hq', he⟩ := hnode q hq
      rw [he, VER.nodeId_congr (ht.ident p)]
      exact hold.2.1.1 c₂ hc₂ q' hq' p hp
    · rcases List.mem_cons.1 hc₂ with rfl | hc₂
      · obtain ⟨q', hq', he⟩ := hnode q hq
        rw [he, VER.nodeId_congr (ht.ident p)]
        exact hold.2.2 c₁ hc₁ c List.mem_cons_self p hp q' hq'
      · exact hn.2.2 c₁ hc₁ c₂ hc₂ p hp q hq
  · exact hnd

/-- A chain is taken out. -/
theorem Bucket.remove (hd : ver'.deref pprce = ver.deref (.hashOverflow (c.headD prceNil))) :
    Bucket fDebug o ver' h (cs₁ ++ cs₂) := by
  obtain ⟨hf₀, hf₁, hf₂⟩ := hb.heads_frame hpre ht hl
  constructor
  · exact hb.chains_frame hpre ht hl
  · have hheads := hb.heads
    have hndh := hb.heads_nodup
    rw [List.map_append, List.map_cons] at hheads hndh
    rw [List.map_append]
    obtain ⟨d, hd', hrest⟩ := CellList.append_iff.1 hheads
    exact CellList.remove hpre hrest.2 hashOverflow_injective (List.nodup_append.1 hndh).1 hf₀ hf₁
      hf₂ hd
  · exact hb.nodes_frame ht
  · refine hb.nodup.sublist (List.Sublist.flatten ?_)
    exact List.Sublist.append_left (List.sublist_cons_self c cs₂) cs₁

end

/-- A bucket that is not touched stays. -/
theorem Bucket.frame {pprce : PPRCE} {l : List Nat} (hb : Bucket fDebug o ver h cs)
    (ht : Touches ver ver' pprce l)
    (hl : ∀ p ∈ l, p ∉ cs.flatten) (hchain : PPRCE.chain h ≠ pprce)
    (hlink : ∀ p ∈ cs.flatten, PPRCE.hashOverflow p ≠ pprce) : Bucket fDebug o ver' h cs := by
  have hout : ∀ p ∈ cs.flatten, p ∉ l := fun p hp hpl => hl p hpl hp
  constructor
  · intro c hc
    have hmem : ∀ p ∈ c, p ∈ cs.flatten := fun p hp => List.mem_flatten_of_mem hc hp
    exact (hb.chains c hc).congr (fun p hp => ht.prev p (hout p (hmem p hp)))
      (fun p hp => ht.next p (hout p (hmem p hp))) (fun p _ => ht.ident p)
      fun p hp => ht.link p (hout p (hmem p (List.mem_of_mem_tail hp)))
        (hlink p (hmem p (List.mem_of_mem_tail hp)))
  · refine hb.heads.congr (ht.chain h hchain) fun a ha => ?_
    obtain ⟨c, hc, rfl⟩ := List.mem_map.1 ha
    have hmem := hb.head_mem_flatten hc
    exact ht.link _ (hout _ hmem) (hlink _ hmem)
  · refine hb.nodes.imp fun hne p hp q hq => ?_
    rw [VER.nodeId_congr (ht.ident p), VER.nodeId_congr (ht.ident q)]
    exact hne p hp q hq
  · exact hb.nodup

/-- A chain is started. -/
theorem Bucket.cons {l : List Nat} (hb : Bucket fDebug o ver h cs)
    (ht : Touches ver ver' (.chain h) l)
    (hl : ∀ p ∈ l, p ∉ cs.flatten) (hc : Chain fDebug o ver' h c)
    (hnode : ∀ p ∈ c, ∀ q ∈ cs.flatten, ver'.nodeId p ≠ ver.nodeId q)
      (hnd : (c :: cs).flatten.Nodup)
    (hd : ver'.chain h = c.headD prceNil) (hlink : ver'.prceHashOverflow (c.headD prceNil) =
      ver.chain h) :
    Bucket fDebug o ver' h (c :: cs) := by
  have hout : ∀ p ∈ cs.flatten, p ∉ l := fun p hp hpl => hl p hpl hp
  have hlinks : ∀ p ∈ cs.flatten, ver'.prceHashOverflow p = ver.prceHashOverflow p := fun p hp =>
    ht.link p (hout p hp) fun he => by cases he
  constructor
  · intro c' hc'
    rcases List.mem_cons.1 hc' with rfl | hc'
    · exact hc
    · have hmem : ∀ p ∈ c', p ∈ cs.flatten := fun p hp => List.mem_flatten_of_mem hc' hp
      exact (hb.chains c' hc').congr (fun p hp => ht.prev p (hout p (hmem p hp)))
        (fun p hp => ht.next p (hout p (hmem p hp))) (fun p _ => ht.ident p)
        fun p hp => hlinks p (hmem p (List.mem_of_mem_tail hp))
  · refine ⟨hd, hb.heads.congr hlink fun a ha => ?_⟩
    obtain ⟨c', hc', rfl⟩ := List.mem_map.1 ha
    exact hlinks _ (hb.head_mem_flatten hc')
  · refine List.pairwise_cons.2 ⟨fun c' hc' p hp q hq => ?_, hb.nodes.imp fun hne p hp q hq => ?_⟩
    · rw [VER.nodeId_congr (ht.ident q)]
      exact hnode p hp q (List.mem_flatten_of_mem hc' hq)
    · rw [VER.nodeId_congr (ht.ident p), VER.nodeId_congr (ht.ident q)]
      exact hne p hp q hq
  · exact hnd

/-- The number of entries is no part of what a frame says. -/
theorem Touches.setCount {pprce : PPRCE} {l : List Nat} (ht : Touches ver ver' pprce l) (n : Nat) :
    Touches ver { ver' with cVERcrceHashEntries := n } pprce l :=
  ⟨ht.prev, ht.next, ht.ident, ht.link, ht.chain⟩

/-- The number of entries is no part of a bucket. -/
theorem Bucket.setCount (hb : Bucket fDebug o ver h cs) (n : Nat) :
    Bucket fDebug o { ver with cVERcrceHashEntries := n } h cs :=
  ⟨fun c hc => (hb.chains c hc).congr (fun _ _ => rfl) (fun _ _ => rfl) (fun _ _ => rfl) fun _ _ =>
    rfl,
    hb.heads, hb.nodes, hb.nodup⟩

end

end Ese.HashChain
