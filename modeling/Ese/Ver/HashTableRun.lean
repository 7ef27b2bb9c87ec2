import Mathlib.Algebra.BigOperators.Group.List.Basic
import Mathlib.Data.List.Perm.Subperm
import Ese.Ver.HashTable

/-!
# Runs of the hash table

The lookups find the chain of a node and the place of a rceid in it. One insertion or deletion
changes one bucket, and by induction the hash table represents what has been inserted and not
deleted, in every run. The chains go from newest to oldest as long as the RCEs come in that order
outside of recovery.
-/

namespace Ese.HashChain

open VER

/-! ## Comparison of rceids -/

/-- Within half of the circle the comparison of rceids is that of the distances from a rceid. -/
theorem rceidCmp_neg_iff {rceid0 rceid1 rceid2 : RCEID} (h1 : rceid1 ≠ rceidNull)
    (h2 : rceid2 ≠ rceidNull)
    (hw1 : (rceid1 - rceid0).toNat < 2 ^ 31) (hw2 : (rceid2 - rceid0).toNat < 2 ^ 31) :
    rceidCmp rceid1 rceid2 < 0 ↔ (rceid1 - rceid0).toNat < (rceid2 - rceid0).toNat := by
  have hd : (rceid1 - rceid2) = (rceid1 - rceid0) - (rceid2 - rceid0) := by bv_omega
  rw [rceidCmp, if_neg h1.symm, if_neg h2.symm, hd]
  generalize hx : rceid1 - rceid0 = x at hw1
  generalize hy : rceid2 - rceid0 = y at hw2
  split
  · rename_i he
    rw [← hx, ← hy, he]
    simp
  · rw [BitVec.toInt_eq_toNat_cond, BitVec.toNat_sub]
    split
    · omega
    · omega

/-! ## Lookups -/

theorem fRCECorrect_iff {n : NodeId} {r : RCE} :
    fRCECorrect n.ifmp n.pgnoFDP n.bookmark r = true ↔ r.ident.nodeId = n := by
  obtain ⟨ifmp, pgnoFDP, bookmark⟩ := n
  simp only [fRCECorrect, decide_eq_true_eq, RCE.ident, Ident.nodeId, NodeId.mk.injEq]
  constructor
  · rintro ⟨h1, h2, -, -, h5⟩
    exact ⟨h1, h2, h5.symm⟩
  · rintro ⟨h1, h2, h3⟩
    exact ⟨h1, h2, by rw [h3], by rw [h3], h3.symm⟩

section
variable {fDebug : Bool} {o : Prop} {ver : VER} {h : Nat} {c : List Nat} {cs : List (List Nat)}

/-- The walk over the heads ends at the head of the node, or with the null pointer. -/
theorem pprceRCEChainGet_spec (n : NodeId) (fuel : Nat) {l : List Nat} {pprce : PPRCE}
    (hl : CellList ver.deref .hashOverflow prceNil pprce l) (hnil : ∀ p ∈ l, p ≠ prceNil)
      (hfuel : l.length < fuel) :
    ((∀ p ∈ l, ver.nodeId p ≠ n)
        ∧ ver.pprceRCEChainGet n.ifmp n.pgnoFDP n.bookmark fuel pprce = some none)
      ∨ ∃ l₁ a l₂ pprceChain, l = l₁ ++ a :: l₂ ∧ Cells ver.deref .hashOverflow pprce l₁ pprceChain
        ∧ ver.deref pprceChain = a ∧ ver.nodeId a = n
        ∧ ver.pprceRCEChainGet n.ifmp n.pgnoFDP n.bookmark fuel pprce = some (some pprceChain) := by
  induction l generalizing pprce fuel with
  | nil =>
    obtain ⟨fuel, rfl⟩ := Nat.exists_eq_succ_of_ne_zero (Nat.pos_iff_ne_zero.1 hfuel)
    refine .inl ⟨fun p hp => absurd hp List.not_mem_nil, ?_⟩
    rw [pprceRCEChainGet]
    exact if_pos hl
  | cons a l ih =>
    obtain ⟨fuel, rfl⟩ :=
      Nat.exists_eq_succ_of_ne_zero (Nat.ne_of_gt (Nat.lt_of_le_of_lt (Nat.zero_le _) hfuel))
    obtain ⟨ha, hrest⟩ := hl
    have hne : ver.deref pprce ≠ prceNil := ha ▸ hnil a List.mem_cons_self
    rw [pprceRCEChainGet]
    rw [if_neg hne, ha]
    by_cases hcorrect : fRCECorrect n.ifmp n.pgnoFDP n.bookmark (ver.rce a) = true
    · rw [if_pos hcorrect]
      exact .inr ⟨[], a, l, pprce, rfl, rfl, ha, fRCECorrect_iff.1 hcorrect, rfl⟩
    · rw [if_neg hcorrect]
      have hfirst : ver.nodeId a ≠ n := fun he => hcorrect (fRCECorrect_iff.2 he)
      rcases ih fuel hrest (fun p hp => hnil p (List.mem_cons_of_mem _ hp))
        (by simpa using hfuel) with
        ⟨hall, heq⟩ | ⟨l₁, b, l₂, d, rfl, hcells, hd, hb, heq⟩
      · exact .inl ⟨List.forall_mem_cons.2 ⟨hfirst, hall⟩, heq⟩
      · exact .inr ⟨a :: l₁, b, l₂, d, rfl, ⟨ha, hcells⟩, hd, hb, heq⟩

/-- `PprceRCEChainGet` finds the chain of the node of an RCE if there is one. -/
theorem pprceOf_spec {prce : Nat} (hb : Bucket fDebug o ver (ver.ident prce).uiHash cs)
    (hnil : ∀ p ∈ cs.flatten, p ≠ prceNil) (hcount : cs.length ≤ ver.cVERcrceHashEntries) :
    ((∀ p ∈ cs.flatten, ver.nodeId p ≠ ver.nodeId prce) ∧ ver.pprceOf prce = some none)
      ∨ ∃ cs₁ c cs₂ pprceChain, cs = cs₁ ++ c :: cs₂
        ∧ Cells ver.deref .hashOverflow (.chain (ver.ident prce).uiHash)
        (cs₁.map (·.headD prceNil)) pprceChain
        ∧ ver.deref pprceChain = c.headD prceNil ∧ (∀ p ∈ c, ver.nodeId p = ver.nodeId prce)
        ∧ ver.pprceOf prce = some (some pprceChain) := by
  have hheads : ∀ p ∈ cs.map (·.headD prceNil), p ≠ prceNil := by
    intro p hp
    obtain ⟨c, hc, rfl⟩ := List.mem_map.1 hp
    exact hnil _ (hb.head_mem_flatten hc)
  rcases pprceRCEChainGet_spec (ver.nodeId prce) (ver.cVERcrceHashEntries + 1) hb.heads hheads
    (by rw [List.length_map]; omega) with ⟨hall, heq⟩ | ⟨l₁, a, l₂, d, hl, hcells, hd, ha, heq⟩
  · refine .inl ⟨fun p hp he => ?_, heq⟩
    obtain ⟨c, hc, hpc⟩ := List.mem_flatten.1 hp
    refine hall _ (List.mem_map_of_mem hc) ?_
    rw [← he]
    exact (hb.chains c hc).node _ (hb.head_mem hc) _ hpc
  · obtain ⟨cs₁, cs', rfl, rfl, hcs'⟩ := List.map_eq_append_iff.1 hl
    obtain ⟨c, cs₂, rfl, rfl, -⟩ := List.map_eq_cons_iff.1 hcs'
    have hmem : c ∈ cs₁ ++ c :: cs₂ := List.mem_append_right _ List.mem_cons_self
    refine .inr ⟨cs₁, c, cs₂, d, rfl, hcells, hd, fun p hp => ?_, heq⟩
    rw [← ha]
    exact (hb.chains c hmem).node p hp _ (hb.head_mem hmem)

/-- The walk of the insertion in recovery stops between newer and older RCEs, or finds the rceid. -/
theorem seekRceid_spec (rceid : RCEID) {l : List Nat} {n s n' : Nat} {fuel : Nat}
    (hl : Linked ver.prcePrevOfNode ver.prceNextOfNode n s l n' prceNil)
    (hnil : ∀ p ∈ l, p ≠ prceNil)
    (hfuel : l.length < fuel) :
    (∃ p ∈ l, (ver.rce p).m_rceid = rceid ∧ ver.seekRceid rceid fuel n s = some none)
      ∨ ∃ l₁ l₂, l = l₁ ++ l₂
        ∧ (∀ p ∈ l₁, rceidCmp (ver.rce p).m_rceid rceid ≥ 0 ∧ (ver.rce p).m_rceid ≠ rceid)
        ∧ (∀ p ∈ l₂.head?, rceidCmp (ver.rce p).m_rceid rceid < 0)
        ∧ ver.seekRceid rceid fuel n s = some (some (l₁.getLastD n, l₂.headD prceNil)) := by
  induction l generalizing n s fuel with
  | nil =>
    obtain ⟨fuel, rfl⟩ := Nat.exists_eq_succ_of_ne_zero (Nat.pos_iff_ne_zero.1 hfuel)
    obtain ⟨-, hs⟩ := hl
    refine .inr ⟨[], [], rfl, fun p hp => absurd hp List.not_mem_nil, fun p hp => by simp at hp, ?_⟩
    rw [seekRceid, if_neg fun hc => hc.1 hs.symm, ← hs]
    rfl
  | cons a l ih =>
    obtain ⟨fuel, rfl⟩ :=
      Nat.exists_eq_succ_of_ne_zero (Nat.ne_of_gt (Nat.lt_of_le_of_lt (Nat.zero_le _) hfuel))
    obtain ⟨rfl, hn, hrest⟩ := hl
    have hne := hnil s List.mem_cons_self
    rw [seekRceid]
    by_cases hcmp : rceidCmp (ver.rce s).m_rceid rceid ≥ 0
    · rw [if_pos ⟨hne, hcmp⟩]
      by_cases heq : (ver.rce s).m_rceid = rceid
      · rw [if_pos heq]
        exact .inl ⟨s, List.mem_cons_self, heq, rfl⟩
      · rw [if_neg heq]
        rcases ih hrest (fun p hp => hnil p (List.mem_cons_of_mem _ hp)) (by simpa using hfuel) with
          ⟨p, hp, hp'⟩ | ⟨l₁, l₂, rfl, hnewer, holder, hres⟩
        · exact .inl ⟨p, List.mem_cons_of_mem _ hp, hp'⟩
        · refine .inr ⟨s :: l₁, l₂, rfl, List.forall_mem_cons.2 ⟨⟨hcmp, heq⟩, hnewer⟩, holder, ?_⟩
          rw [hres]
          cases l₁ with
          | nil => rfl
          | cons b l₁ => rfl
    · rw [if_neg fun hc => hcmp hc.2]
      refine .inr ⟨[], s :: l, rfl, fun p hp => absurd hp List.not_mem_nil, fun p hp => ?_, rfl⟩
      cases hp
      exact Int.not_le.1 hcmp

end

/-! ## One bucket changes -/

section
variable {uiRCHashFunc : Nat → Nat → BOOKMARK → Nat} {fDebug : Bool} {o o' : Prop} {ver ver' : VER}
  {B : Nat → List (List Nat)} {live : List Nat} {created : Nat → NewRCE} {h : Nat} {c c' : List Nat}
  {cs cs' : List (List Nat)} {prce : Nat} {r : NewRCE}

theorem Table.mono (hT : Table uiRCHashFunc fDebug o ver B live created) (ho : o' → o) :
    Table uiRCHashFunc fDebug o' ver B live created :=
  { hT with bucket := fun h => (hT.bucket h).mono ho }

theorem Bucket.length_le (hb : Bucket fDebug o ver h cs) : cs.length ≤ cs.flatten.length := by
  rw [List.length_flatten]
  have hlen : cs.length = (cs.map List.length).length := (List.length_map _).symm
  rw [hlen]
  refine List.length_le_sum_of_one_le _ fun n hn => ?_
  obtain ⟨c, hc, rfl⟩ := List.mem_map.1 hn
  exact List.length_pos_of_ne_nil (hb.chains c hc).nonempty

section
variable (hT : Table uiRCHashFunc fDebug o ver B live created)
include hT

theorem Table.mem_live {p : Nat} (hp : p ∈ (B h).flatten) : p ∈ live := ((hT.mem h p).1 hp).1

/-- The counter bounds the walks over a bucket and over a chain. -/
theorem Table.length_le : (B h).flatten.length ≤ ver.cVERcrceHashEntries := by
  rw [hT.count]
  exact ((hT.bucket h).nodup.subperm fun p hp => hT.mem_live hp).length_le

/-- A change of bucket `h` leaves the others alone. -/
theorem Table.bucket_update {pprce : PPRCE} {l : List Nat} (ht : Touches ver ver' pprce l)
    (hl : ∀ p ∈ l, p ∉ live ∨ p ∈ (B h).flatten)
    (hcell : pprce = .chain h ∨ ∃ p ∈ (B h).flatten, pprce = .hashOverflow p)
    (hb : Bucket fDebug o ver' h cs') (h' : Nat) :
      Bucket fDebug o ver' h' (Function.update B h cs' h') := by
  by_cases hh : h' = h
  · subst hh
    rw [Function.update_self]
    exact hb
  · rw [Function.update_of_ne hh]
    have hother : ∀ p ∈ (B h).flatten, p ∉ (B h').flatten := fun p hp hp' =>
      hh (((hT.mem h' p).1 hp').2.symm.trans ((hT.mem h p).1 hp).2)
    refine (hT.bucket h').frame ht (fun p hp hp' => ?_) (fun he => ?_) fun p hp he => ?_
    · rcases hl p hp with hnew | hmem
      · exact hnew (hT.mem_live hp')
      · exact hother p hmem hp'
    · rcases hcell with hcell | ⟨q, -, hcell⟩
      · rw [hcell] at he
        cases he
        exact hh rfl
      · rw [hcell] at he
        cases he
    · rcases hcell with hcell | ⟨q, hq, hcell⟩
      · rw [hcell] at he
        cases he
      · rw [hcell] at he
        exact hother q hq (hashOverflow_injective he ▸ hp)

/-- An RCE is added to bucket `h`. -/
theorem Table.insert {pprce : PPRCE} {l : List Nat} (ht : Touches ver ver' pprce l)
    (hl : ∀ p ∈ l, p ∉ live ∨ p ∈ (B h).flatten)
    (hcell : pprce = .chain h ∨ ∃ p ∈ (B h).flatten, pprce = .hashOverflow p)
    (hb : Bucket fDebug o ver' h cs') (hperm : cs'.flatten.Perm (prce :: (B h).flatten))
    (hnew : prce ∉ live) (hnil : prce ≠ prceNil) (hident : ver.ident prce = r.ident uiRCHashFunc)
    (hrceid : r.rceid ≠ rceidNull)
      (hcount : ver'.cVERcrceHashEntries = ver.cVERcrceHashEntries + 1) :
    Table uiRCHashFunc fDebug o ver' (Function.update B h cs') (prce :: live)
      (Function.update created prce r) := by
  have hold : ∀ p ∈ live, p ≠ prce := fun p hp he => hnew (he ▸ hp)
  have hmem : ∀ p, p ∈ cs'.flatten ↔ p = prce ∨ p ∈ (B h).flatten := fun p => by
    rw [hperm.mem_iff, List.mem_cons]
  constructor
  · exact hT.bucket_update ht hl hcell hb
  · intro h' p
    rw [ht.ident p]
    have hhash : (ver.ident prce).uiHash = h := by
      obtain ⟨c, hc, hp⟩ := List.mem_flatten.1 ((hmem prce).2 (.inl rfl))
      rw [← ht.ident prce]
      exact (hb.chains c hc).hash prce hp
    by_cases hh : h' = h
    · subst hh
      rw [Function.update_self, hmem, hT.mem, List.mem_cons]
      constructor
      · rintro (rfl | hp)
        · exact ⟨.inl rfl, hhash⟩
        · exact ⟨.inr hp.1, hp.2⟩
      · rintro ⟨rfl | hp, hp'⟩
        · exact .inl rfl
        · exact .inr ⟨hp, hp'⟩
    · rw [Function.update_of_ne hh, hT.mem, List.mem_cons]
      constructor
      · exact fun hp => ⟨.inr hp.1, hp.2⟩
      · rintro ⟨rfl | hp, hp'⟩
        · exact absurd (hp'.symm.trans hhash) hh
        · exact ⟨hp, hp'⟩
  · exact List.nodup_cons.2 ⟨hnew, hT.nodup⟩
  · refine List.forall_mem_cons.2 ⟨?_, fun p hp => ?_⟩
    · rw [ht.ident, Function.update_self, hident]
    · rw [ht.ident, Function.update_of_ne (hold p hp)]
      exact hT.ident p hp
  · exact List.forall_mem_cons.2 ⟨hnil, hT.ne_nil⟩
  · refine List.forall_mem_cons.2 ⟨?_, fun p hp => ?_⟩
    · rw [Function.update_self]
      exact hrceid
    · rw [Function.update_of_ne (hold p hp)]
      exact hT.rceid p hp
  · rw [hcount, hT.count, List.length_cons]

/-- An RCE is taken out of bucket `h`. -/
theorem Table.delete {pprce : PPRCE} {l : List Nat} (ht : Touches ver ver' pprce l)
    (hl : ∀ p ∈ l, p ∈ (B h).flatten)
    (hcell : pprce = .chain h ∨ ∃ p ∈ (B h).flatten, pprce = .hashOverflow p)
    (hb : Bucket fDebug o ver' h cs') (hperm : (prce :: cs'.flatten).Perm (B h).flatten)
    (hcount : ver'.cVERcrceHashEntries = ver.cVERcrceHashEntries - 1) :
    Table uiRCHashFunc fDebug o ver' (Function.update B h cs') (live.erase prce) created := by
  have hprce : prce ∈ (B h).flatten := hperm.mem_iff.1 List.mem_cons_self
  have hnd : (prce :: cs'.flatten).Nodup := hperm.nodup_iff.2 (hT.bucket h).nodup
  have hlive : ∀ p, p ∈ live.erase prce ↔ p ≠ prce ∧ p ∈ live := fun p => hT.nodup.mem_erase_iff
  have hmem : ∀ p, p ∈ cs'.flatten ↔ p ≠ prce ∧ p ∈ (B h).flatten := by
    intro p
    rw [← hperm.mem_iff, List.mem_cons]
    constructor
    · exact fun hp => ⟨fun he => (List.nodup_cons.1 hnd).1 (he ▸ hp), .inr hp⟩
    · rintro ⟨hne, rfl | hp⟩
      · exact absurd rfl hne
      · exact hp
  constructor
  · exact hT.bucket_update ht (fun p hp => .inr (hl p hp)) hcell hb
  · intro h' p
    rw [ht.ident p, hlive]
    by_cases hh : h' = h
    · subst hh
      rw [Function.update_self, hmem, hT.mem, and_assoc]
    · rw [Function.update_of_ne hh, hT.mem]
      constructor
      · refine fun hp => ⟨⟨fun he => ?_, hp.1⟩, hp.2⟩
        rw [he] at hp
        exact hh (hp.2.symm.trans ((hT.mem h prce).1 hprce).2)
      · exact fun hp => ⟨hp.1.2, hp.2⟩
  · exact hT.nodup.erase prce
  · intro p hp
    rw [ht.ident]
    exact hT.ident p ((hlive p).1 hp).2
  · exact fun p hp => hT.ne_nil p ((hlive p).1 hp).2
  · exact fun p hp => hT.rceid p ((hlive p).1 hp).2
  · rw [hcount, hT.count, List.length_erase_of_mem (hT.mem_live hprce)]

end

/-- A new RCE in memory changes nothing in the table. -/
theorem Table.construct (hT : Table uiRCHashFunc fDebug o ver B live created) (hnew : prce ∉ live)
    (r : RCE) :
    Table uiRCHashFunc fDebug o (ver.setRCE prce r) B live created := by
  have hsame : ∀ p ∈ live, (ver.setRCE prce r).rce p = ver.rce p := by
    intro p hp
    have hne : p ≠ prce := fun he => hnew (he ▸ hp)
    exact Function.update_of_ne hne _ _
  have hident : ∀ p ∈ live, (ver.setRCE prce r).ident p = ver.ident p := fun p hp => by
    rw [VER.ident, hsame p hp, VER.ident]
  constructor
  · intro h
    have hb := hT.bucket h
    have hmem : ∀ c ∈ B h, ∀ p ∈ c, p ∈ live :=
      fun c hc p hp => hT.mem_live (List.mem_flatten_of_mem hc hp)
    constructor
    · intro c hc
      refine (hb.chains c hc).congr (fun p hp => ?_) (fun p hp => ?_)
        (fun p hp => hident p (hmem c hc p hp))
        fun p hp => ?_
      · rw [prcePrevOfNode, hsame p (hmem c hc p hp), prcePrevOfNode]
      · rw [prceNextOfNode, hsame p (hmem c hc p hp), prceNextOfNode]
      · rw [prceHashOverflow, hsame p (hmem c hc p (List.mem_of_mem_tail hp)), prceHashOverflow]
    · refine hb.heads.congr rfl fun p hp => ?_
      obtain ⟨c, hc, rfl⟩ := List.mem_map.1 hp
      rw [deref, deref, prceHashOverflow, hsame _ (hmem c hc _ (hb.head_mem hc)), prceHashOverflow]
    · refine hb.nodes.imp_of_mem fun hc hc' hne p hp q hq => ?_
      rw [VER.nodeId_congr (hident p (hmem _ hc p hp)),
        VER.nodeId_congr (hident q (hmem _ hc' q hq))]
      exact hne p hp q hq
    · exact hb.nodup
  · intro h p
    rw [hT.mem]
    constructor
    · exact fun hp => ⟨hp.1, (hident p hp.1).symm ▸ hp.2⟩
    · exact fun hp => ⟨hp.1, hident p hp.1 ▸ hp.2⟩
  · exact hT.nodup
  · exact fun p hp => (hident p hp).trans (hT.ident p hp)
  · exact hT.ne_nil
  · exact hT.rceid
  · exact hT.count

end

/-! ## The links of an insertion -/

section
variable {fDebug : Bool} {o : Prop} {ver ver' : VER} {h : Nat} {c c₁ c₂ : List Nat} {prce : Nat}

/-- The new RCE starts a chain. -/
theorem newChain (fDebug : Bool) (o : Prop) (hnext : ver.prceNextOfNode prce = prceNil)
    (hprev : ver.prcePrevOfNode prce = prceNil)
    (hhash : (ver.ident prce).uiHash = h)
    (hver : ver' = (ver.setPrceHashOverflow prce (ver.chain h)).assign (.chain h) prce) :
    Chain fDebug o ver' h [prce] ∧ Touches ver ver' (.chain h) [prce] ∧ ver'.chain h = prce
      ∧ ver'.prceHashOverflow prce = ver.chain h := by
  have hcell : PPRCE.hashOverflow prce ≠ .chain h := fun he => by cases he
  have hderef : ver'.deref
      = Function.update (Function.update ver.deref (.hashOverflow prce) (ver.chain h))
      (.chain h) prce := by simp [hver]
  have hprev' : ver'.prcePrevOfNode = ver.prcePrevOfNode := by simp [hver]
  have hnext' : ver'.prceNextOfNode = ver.prceNextOfNode := by simp [hver]
  have hident : ver'.ident = ver.ident := by simp [hver]
  refine ⟨?_, ?_, ?_, ?_⟩
  · constructor
    · exact List.cons_ne_nil _ _
    · exact ⟨prce, rfl, by rw [hnext', hnext], rfl, by rw [hprev', hprev]⟩
    · intro p hp q hq
      rw [List.mem_singleton.1 hp, List.mem_singleton.1 hq]
    · intro p hp
      rw [List.mem_singleton.1 hp, hident, hhash]
    · exact fun _ p hp => absurd hp List.not_mem_nil
    · exact fun _ => List.pairwise_singleton _ _
  · constructor
    · exact fun p _ => by rw [hprev']
    · exact fun p _ => by rw [hnext']
    · exact fun p => by rw [hident]
    · intro p hp hne
      have hpne : PPRCE.hashOverflow p ≠ .hashOverflow prce := fun he =>
        hp (List.mem_singleton.2 (hashOverflow_injective he))
      change ver'.deref (.hashOverflow p) = _
      rw [hderef, Function.update_of_ne hne, Function.update_of_ne hpne]
      rfl
    · intro h' hne
      have hne' : PPRCE.chain h' ≠ .hashOverflow prce := fun he => by cases he
      change ver'.deref (.chain h') = _
      rw [hderef, Function.update_of_ne hne, Function.update_of_ne hne']
      rfl
  · change ver'.deref (.chain h) = _
    rw [hderef, Function.update_self]
  · change ver'.deref (.hashOverflow prce) = _
    rw [hderef, Function.update_of_ne hcell, Function.update_self]

/-- The new RCE is put before the head of its chain. -/
theorem linkRCE_head {pprce : PPRCE} {a : Nat} {l : List Nat} (hc : Chain fDebug o ver h (a :: l))
    (hnd : (prce :: a :: l).Nodup) (ha : a ≠ prceNil) (hd : ver.deref pprce = a)
    (hcell : ∀ p ∈ prce :: a :: l, pprce ≠ .hashOverflow p)
      (hnext : ver.prceNextOfNode prce = prceNil)
    (hnode : ver.nodeId prce = ver.nodeId a) (hhash : (ver.ident prce).uiHash = h)
    (ho : o → ∀ p ∈ a :: l, ver.Older p prce) :
    Chain fDebug o (ver.linkRCE fDebug pprce prce prceNil a) h (prce :: a :: l)
      ∧ Touches ver (ver.linkRCE fDebug pprce prce prceNil a) pprce (prce :: a :: l)
      ∧ (ver.linkRCE fDebug pprce prce prceNil a).deref pprce = prce
      ∧ (ver.linkRCE fDebug pprce prce prceNil a).deref (.hashOverflow prce) = ver.deref
        (.hashOverflow a) := by
  obtain ⟨hprce, hndc⟩ := List.nodup_cons.1 hnd
  have hne : prce ≠ a := fun he => hprce (he ▸ List.mem_cons_self)
  have hcell0 : PPRCE.hashOverflow prce ≠ pprce := (hcell prce List.mem_cons_self).symm
  have hcella : PPRCE.hashOverflow a ≠ pprce := (hcell a (by simp)).symm
  have hcellne : PPRCE.hashOverflow prce ≠ .hashOverflow a :=
    fun he => hne (hashOverflow_injective he)
  generalize hver : ver.linkRCE fDebug pprce prce prceNil a = ver'
  have hident : ver'.ident = ver.ident := by
    rw [← hver]
    cases fDebug <;> simp [linkRCE, ha]
  have hprev : ver'.prcePrevOfNode = Function.update ver.prcePrevOfNode prce a := by
    rw [← hver]
    cases fDebug <;> simp [linkRCE, ha]
  have hnext' : ver'.prceNextOfNode = Function.update ver.prceNextOfNode a prce := by
    rw [← hver]
    cases fDebug <;> simp [linkRCE, ha]
  have hderef : ver'.deref = if fDebug then
      Function.update (Function.update (Function.update ver.deref (.hashOverflow prce)
        (ver.deref (.hashOverflow a))) pprce prce) (.hashOverflow a) prceInvalid
      else Function.update
        (Function.update ver.deref (.hashOverflow prce) (ver.deref (.hashOverflow a))) pprce
        prce := by
    rw [← hver]
    cases fDebug <;> simp [linkRCE, ha, hd] <;> rfl
  have hother : ∀ d, d ≠ pprce → d ≠ .hashOverflow prce → d ≠ .hashOverflow a →
    ver'.deref d = ver.deref d := by
    intro d h1 h2 h3
    rw [hderef]
    split
    · rw [Function.update_of_ne h3, Function.update_of_ne h1, Function.update_of_ne h2]
    · rw [Function.update_of_ne h1, Function.update_of_ne h2]
  have hlinked : ∃ p, Linked ver'.prcePrevOfNode ver'.prceNextOfNode prceNil prce
    (prce :: a :: l) p prceNil := by
    obtain ⟨e, hl⟩ := hc.linked
    refine ⟨e, rfl, ?_, ?_⟩
    · rw [hnext', Function.update_of_ne hne, hnext]
    · have hstart : ver'.prcePrevOfNode prce = a := by rw [hprev, Function.update_self]
      rw [hstart]
      refine hl.set_newer ?_ (fun p hp => ?_) fun p hp => ?_
      · rw [hnext', Function.update_self]
      · have hpne : p ≠ prce := fun he => hprce (he ▸ hp)
        rw [hprev, Function.update_of_ne hpne]
      · have hpne : p ≠ a := fun he => (List.nodup_cons.1 hndc).1 (he ▸ hp)
        rw [hnext', Function.update_of_ne hpne]
  refine ⟨?_, ?_, ?_, ?_⟩
  · have hnodes : ∀ p ∈ prce :: a :: l, ver'.nodeId p = ver.nodeId a := by
      intro p hp
      rw [VER.nodeId, hident, ← VER.nodeId]
      rcases List.mem_cons.1 hp with rfl | hp
      · exact hnode
      · exact hc.node p hp a List.mem_cons_self
    constructor
    · exact List.cons_ne_nil _ _
    · exact hlinked
    · exact fun p hp q hq => (hnodes p hp).trans (hnodes q hq).symm
    · rw [hident]
      exact List.forall_mem_cons.2 ⟨hhash, hc.hash⟩
    · intro hdebug p hp
      rcases List.mem_cons.1 hp with rfl | hpl
      · -- the old head has no overflow link any more
        change ver'.deref (.hashOverflow p) = _
        rw [hderef, if_pos hdebug, Function.update_self]
      · refine (hother (.hashOverflow p) (hcell p (by simp [hpl])).symm (fun he => ?_) fun he =>
          ?_).trans
          (hc.tail hdebug p hpl)
        · exact hprce (hashOverflow_injective he ▸ hp)
        · exact (List.nodup_cons.1 hndc).1 (hashOverflow_injective he ▸ hpl)
    · intro hord
      simp only [VER.Older, hident]
      exact List.pairwise_cons.2 ⟨ho hord, hc.ordered hord⟩
  · constructor
    · intro p hp
      have hpne : p ≠ prce := fun he => hp (by simp [he])
      rw [hprev, Function.update_of_ne hpne]
    · intro p hp
      have hpne : p ≠ a := fun he => hp (by simp [he])
      rw [hnext', Function.update_of_ne hpne]
    · exact fun p => by rw [hident]
    · exact fun p hp hne => hother _ hne (fun he => hp (by simp [hashOverflow_injective he]))
        fun he => hp (by simp [hashOverflow_injective he])
    · exact fun h hne => hother (.chain h) hne (fun he => by cases he) fun he => by cases he
  · rw [hderef]
    split
    · rw [Function.update_of_ne hcella.symm, Function.update_self]
    · rw [Function.update_self]
  · rw [hderef]
    split
    · rw [Function.update_of_ne hcellne, Function.update_of_ne hcell0, Function.update_self]
    · rw [Function.update_of_ne hcell0, Function.update_self]

/-- The head of a chain that is not empty. -/
theorem headD_of_head {p : Nat} (hp : p ∈ c.head?) : c.headD prceNil = p := by
  rw [List.headD_eq_head?_getD, Option.mem_def.1 hp, Option.getD_some]

/-- The head of a chain does not come again. -/
theorem not_mem_tail {p : Nat} (hnd : c.Nodup) (hp : p ∈ c.head?) : p ∉ c.tail := by
  cases c with
  | nil => exact List.not_mem_nil
  | cons a l =>
    cases hp
    exact (List.nodup_cons.1 hnd).1

/-- In recovery the new RCE is put between newer and older ones. -/
theorem linkRCE_mid (pprce : PPRCE) {b prcePrev : Nat} (hpp : prcePrev = c₂.headD prceNil)
    (hc : Chain fDebug o ver h (c₁ ++ b :: c₂))
    (hnd : (prce :: (c₁ ++ b :: c₂)).Nodup) (hb : b ≠ prceNil) (hnil : ∀ p ∈ c₂, p ≠ prceNil)
    (hnode : ∀ p ∈ c₁ ++ b :: c₂, ver.nodeId prce = ver.nodeId p)
      (hhash : (ver.ident prce).uiHash = h)
    (hinvalid : fDebug = true → ver.prceHashOverflow prce = prceInvalid)
    (hnewer : o → ∀ p ∈ c₁ ++ [b], ver.Older prce p) (holder : o → ∀ p ∈ c₂, ver.Older p prce) :
    Chain fDebug o (ver.linkRCE fDebug pprce prce b prcePrev) h (c₁ ++ b :: prce :: c₂)
      ∧ Touches ver (ver.linkRCE fDebug pprce prce b prcePrev) pprce (prce :: (c₁ ++ b :: c₂))
      ∧ (ver.linkRCE fDebug pprce prce b prcePrev).deref = ver.deref := by
  obtain ⟨hprce, hndc⟩ := List.nodup_cons.1 hnd
  have hmem : ∀ p ∈ c₂, p ∈ c₁ ++ b :: c₂ := fun p hp => by simp [hp]
  have hbmem : b ∈ c₁ ++ b :: c₂ := by simp
  obtain ⟨hndc₁, hndb, hdis⟩ := List.nodup_append.1 hndc
  obtain ⟨hbc₂, hndc₂⟩ := List.nodup_cons.1 hndb
  have hbc₁ : b ∉ c₁ := fun hp => hdis b hp b List.mem_cons_self rfl
  have hne : prce ≠ b := fun he => hprce (he ▸ hbmem)
  generalize hver : ver.linkRCE fDebug pprce prce b prcePrev = ver'
  have hident : ver'.ident = ver.ident := by
    rw [← hver]
    by_cases hp : prcePrev = prceNil <;> simp [linkRCE, hb, hp]
  have hderef : ver'.deref = ver.deref := by
    rw [← hver]
    by_cases hp : prcePrev = prceNil <;> simp [linkRCE, hb, hp]
  have hprev : ver'.prcePrevOfNode
      = Function.update (Function.update ver.prcePrevOfNode b prce) prce prcePrev := by
    rw [← hver]
    by_cases hp : prcePrev = prceNil <;> simp [linkRCE, hb, hp]
  have hnext : ver'.prceNextOfNode = if prcePrev ≠ prceNil then
      Function.update (Function.update ver.prceNextOfNode prce b) prcePrev prce
      else Function.update ver.prceNextOfNode prce b := by
    rw [← hver]
    by_cases hp : prcePrev = prceNil <;> simp [linkRCE, hb, hp]
  have hprev' : ∀ p, p ≠ b → p ≠ prce → ver'.prcePrevOfNode p = ver.prcePrevOfNode p := by
    intro p h1 h2
    rw [hprev, Function.update_of_ne h2, Function.update_of_ne h1]
  have hnext' : ∀ p, p ≠ prce → p ∉ c₂.head? → ver'.prceNextOfNode p = ver.prceNextOfNode p := by
    intro p h1 h2
    rw [hnext]
    split
    · rename_i hnn
      have hp : p ≠ prcePrev := by
        cases c₂ with
        | nil => exact absurd hpp hnn
        | cons a l => exact fun he => h2 (by simp [he, hpp])
      rw [Function.update_of_ne hp, Function.update_of_ne h1]
    · rw [Function.update_of_ne h1]
  have hnotprce : ∀ p ∈ c₁ ++ b :: c₂, p ≠ prce := fun p hp he => hprce (he ▸ hp)
  have hnotmem : ∀ p ∈ c₁ ++ [b], p ∉ c₂.head? := by
    intro p hp hp'
    have hpc₂ : p ∈ c₂ := List.mem_of_mem_head? hp'
    rcases List.mem_append.1 hp with hp | hp
    · exact hdis p hp p (List.mem_cons_of_mem _ hpc₂) rfl
    · exact hbc₂ (List.mem_singleton.1 hp ▸ hpc₂)
  refine ⟨?_, ?_, hderef⟩
  · have hnodes : ∀ p ∈ c₁ ++ b :: prce :: c₂, ver'.nodeId p = ver.nodeId prce := by
      intro p hp
      rw [VER.nodeId, hident, ← VER.nodeId]
      by_cases he : p = prce
      · rw [he]
      · exact (hnode p (by simpa [he] using hp)).symm
    constructor
    · simp
    · obtain ⟨e, hl⟩ := hc.linked
      have hassoc : c₁ ++ b :: c₂ = (c₁ ++ [b]) ++ c₂ := by simp
      have hhead : (c₁ ++ b :: prce :: c₂).headD prceNil = (c₁ ++ b :: c₂).headD prceNil := by
        cases c₁ <;> rfl
      rw [hhead]
      generalize (c₁ ++ b :: c₂).headD prceNil = s at hl ⊢
      rw [hassoc] at hl
      obtain ⟨n, m, hl₁, hl₂⟩ := Linked.append_iff.1 hl
      have hprevb : ver'.prcePrevOfNode b = prce := by
        rw [hprev, Function.update_of_ne hne.symm, Function.update_self]
      have hprevprce : ver'.prcePrevOfNode prce = prcePrev := by rw [hprev, Function.update_self]
      have hnextprce : ver'.prceNextOfNode prce = b := by
        rw [hnext]
        split
        · rename_i hh
          have hc₂ : c₂ ≠ [] := fun hn => hh (by rw [hpp, hn]; rfl)
          have hp : prce ≠ prcePrev := fun he => hprce (hmem _ (he.trans hpp ▸ headD_mem hc₂))
          rw [Function.update_of_ne hp, Function.update_self]
        · rw [Function.update_self]
      refine hl₁.splice hl₂ [prce] ⟨hprevb, hnextprce, rfl, (hprevprce.trans hpp).symm⟩
        (fun p hp => ?_) (fun p hp => ?_) (fun p hp => ?_) (fun p hp => ?_) fun p hp => ?_
      · exact hprev' p (fun he => hbc₁ (he ▸ hp)) (hnotprce p (List.mem_append_left _ hp))
      · refine hnext' p (hnotprce p ?_) (hnotmem p hp)
        rw [hassoc]
        exact List.mem_append_left _ hp
      · exact hprev' p (fun he => hbc₂ (he ▸ hp)) (hnotprce p (hmem p hp))
      · refine hnext' p (hnotprce p (hmem p (List.mem_of_mem_tail hp))) fun he => ?_
        exact not_mem_tail hndc₂ he hp
      · have hp' : prcePrev = p := hpp.trans (headD_of_head hp)
        rw [hnext, if_pos (hp' ▸ hnil p (List.mem_of_mem_head? hp)), hp', Function.update_self]
    · exact fun p hp q hq => (hnodes p hp).trans (hnodes q hq).symm
    · intro p hp
      rw [hident]
      by_cases he : p = prce
      · rw [he, hhash]
      · exact hc.hash p (by simpa [he] using hp)
    · intro hdebug p hp
      change ver'.deref (.hashOverflow p) = _
      rw [hderef]
      by_cases he : p = prce
      · rw [he]
        exact hinvalid hdebug
      · refine hc.tail hdebug p ?_
        cases c₁ with
        | nil => simpa [he] using hp
        | cons a l => simpa [he] using hp
    · intro hord
      have hord' := hc.ordered hord
      simp only [VER.Older, hident]
      rw [List.pairwise_append, List.pairwise_cons] at hord' ⊢
      refine ⟨hord'.1, ⟨List.forall_mem_cons.2 ⟨hnewer hord b (by simp), hord'.2.1.1⟩,
        List.pairwise_cons.2 ⟨holder hord, hord'.2.1.2⟩⟩, fun p hp => ?_⟩
      obtain ⟨hpb, hpc₂⟩ := List.forall_mem_cons.1 (hord'.2.2 p hp)
      exact List.forall_mem_cons.2
        ⟨hpb, List.forall_mem_cons.2 ⟨hnewer hord p (by simp [hp]), hpc₂⟩⟩
  · constructor
    · exact fun p hp => hprev' p (fun he => hp (by simp [he])) fun he => hp (by simp [he])
    · refine fun p hp => hnext' p (fun he => hp (by simp [he])) fun he => hp ?_
      exact List.mem_cons_of_mem _ (hmem p (List.mem_of_mem_head? he))
    · exact fun p => by rw [hident]
    · exact fun p _ _ => congrFun hderef (.hashOverflow p)
    · exact fun h _ => congrFun hderef (.chain h)

end

/-! ## Insertion -/

def NewRCE.nodeId (r : NewRCE) : NodeId := ⟨r.ifmp, r.pgnoFDP, r.bookmark⟩

/-- The new RCE keeps the order of its chain: outside of recovery it is newer than the RCEs of its
node, and with them it lies on half of the circle of rceids. -/
def InOrder (live : List Nat) (created : Nat → NewRCE) (fRecovering : Bool) (r : NewRCE) : Prop :=
  (fRecovering = false → ∀ p ∈ live, (created p).nodeId = r.nodeId →
    rceidCmp (created p).rceid r.rceid < 0)
    ∧ ∃ rceid0, (r.rceid - rceid0).toNat < 2 ^ 31
      ∧ ∀ p ∈ live, (created p).nodeId = r.nodeId → ((created p).rceid - rceid0).toNat < 2 ^ 31

section
variable {uiRCHashFunc : Nat → Nat → BOOKMARK → Nat} {fDebug : Bool} {o : Prop} {ver : VER}
  {B : Nat → List (List Nat)} {live : List Nat} {created : Nat → NewRCE} {prce : Nat} {r : NewRCE}
  (hT : Table uiRCHashFunc fDebug o ver B live created)
include hT

theorem Table.nodeId_eq {p : Nat} (hp : p ∈ live) : ver.nodeId p = (created p).nodeId := by
  rw [VER.nodeId, hT.ident p hp]
  rfl

theorem Table.rceid_eq {p : Nat} (hp : p ∈ live) : (ver.ident p).rceid = (created p).rceid := by
  rw [hT.ident p hp]
  rfl

/-- In recovery the place of the new RCE is between the newer and the older RCEs of its node. -/
theorem order_of_seek {c₁ c₂ : List Nat} (hr : r.rceid ≠ rceidNull)
    (hident : ver.ident prce = r.ident uiRCHashFunc)
    (hlive : ∀ p ∈ c₁ ++ c₂, p ∈ live ∧ (created p).nodeId = r.nodeId)
    (hord : (c₁ ++ c₂).Pairwise fun newer older => ver.Older older newer)
    (hw : ∃ rceid0, (r.rceid - rceid0).toNat < 2 ^ 31
      ∧ ∀ p ∈ live, (created p).nodeId = r.nodeId → ((created p).rceid - rceid0).toNat < 2 ^ 31)
    (hnewer : ∀ p ∈ c₁, rceidCmp (ver.rce p).m_rceid r.rceid ≥ 0 ∧ (ver.rce p).m_rceid ≠ r.rceid)
    (holder : ∀ p ∈ c₂.head?, rceidCmp (ver.rce p).m_rceid r.rceid < 0) :
    (∀ p ∈ c₁, ver.Older prce p) ∧ ∀ p ∈ c₂, ver.Older p prce := by
  obtain ⟨rceid0, hw0, hw⟩ := hw
  -- `d p` is how far the rceid of `p` is along the half circle
  let d := fun p => ((ver.ident p).rceid - rceid0).toNat
  have hprce : (ver.ident prce).rceid = r.rceid := by rw [hident]; rfl
  have hnull : ∀ p ∈ c₁ ++ c₂, (ver.ident p).rceid ≠ rceidNull := fun p hp => by
    rw [hT.rceid_eq (hlive p hp).1]
    exact hT.rceid p (hlive p hp).1
  have hd : ∀ p ∈ c₁ ++ c₂, d p < 2 ^ 31 := fun p hp => by
    have hwp := hw p (hlive p hp).1 (hlive p hp).2
    rw [← hT.rceid_eq (hlive p hp).1] at hwp
    exact hwp
  have hlt : ∀ p ∈ c₁ ++ c₂, (rceidCmp (ver.ident p).rceid r.rceid < 0 ↔
    d p < (r.rceid - rceid0).toNat) :=
    fun p hp => rceidCmp_neg_iff (hnull p hp) hr (hd p hp) hw0
  constructor
  · intro p hp
    have hmem : p ∈ c₁ ++ c₂ := List.mem_append_left _ hp
    obtain ⟨hge, hne⟩ := hnewer p hp
    rw [VER.Older, hprce, rceidCmp_neg_iff hr (hnull p hmem) hw0 (hd p hmem)]
    have hnot : ¬ d p < (r.rceid - rceid0).toNat := fun h => Int.not_lt.2 hge ((hlt p hmem).2 h)
    have hdne : d p ≠ (r.rceid - rceid0).toNat := by
      intro he
      have hsub : (ver.rce p).m_rceid - rceid0 = r.rceid - rceid0 := BitVec.eq_of_toNat_eq he
      exact hne (by bv_omega)
    change (r.rceid - rceid0).toNat < d p
    omega
  · intro p hp
    have hmem : p ∈ c₁ ++ c₂ := List.mem_append_right _ hp
    rw [VER.Older, hprce, hlt p hmem]
    cases c₂ with
    | nil => exact absurd hp List.not_mem_nil
    | cons a l =>
      have hamem : a ∈ c₁ ++ a :: l := by simp
      have ha : d a < (r.rceid - rceid0).toNat := (hlt a hamem).1 (holder a rfl)
      rcases List.mem_cons.1 hp with rfl | hp
      · exact ha
      · have hpa : ver.Older p a := (List.pairwise_cons.1 (List.pairwise_append.1 hord).2.1).1 p hp
        have hdpa : d p < d a :=
          (rceidCmp_neg_iff (hnull p hmem) (hnull a hamem) (hd p hmem) (hd a hamem)).1 hpa
        exact Nat.lt_trans hdpa ha

omit hT in
theorem count_linkRCE (pprceChain : PPRCE) (prceNext prcePrev : Nat) :
    (ver.linkRCE fDebug pprceChain prce prceNext prcePrev).cVERcrceHashEntries =
      ver.cVERcrceHashEntries := by
  rw [linkRCE]
  cases pprceChain <;> cases fDebug <;> by_cases hn : prceNext = prceNil <;> by_cases hp :
    prcePrev = prceNil <;>
    simp [hn, hp] <;> rfl

omit hT in
theorem errVERIInsertRCEIntoHash_eq (fDebug fRecovering : Bool) {pprceChain : PPRCE}
    (heq : ver.pprceOf prce = some (some pprceChain)) :
    ver.errVERIInsertRCEIntoHash fDebug fRecovering prce
      = (if fRecovering = true then
          ver.seekRceid (ver.rce prce).m_rceid (ver.cVERcrceHashEntries + 1) prceNil
            (ver.deref pprceChain)
        else some (some (prceNil, ver.deref pprceChain))).map fun found =>
          match found with
          | none => (.JET_errPreviousVersion, ver)
          | some (prceNext, prcePrev) => (.JET_errSuccess,
            { ver.linkRCE fDebug pprceChain prce prceNext prcePrev with
              cVERcrceHashEntries := ver.cVERcrceHashEntries + 1 }) := by
  rw [errVERIInsertRCEIntoHash, heq]
  simp only [Option.bind_eq_bind, Option.bind_some, count_linkRCE]
  cases fRecovering with
  | false => rfl
  | true =>
    simp only [if_true]
    rcases ver.seekRceid (ver.rce prce).m_rceid (ver.cVERcrceHashEntries + 1) prceNil
      (ver.deref pprceChain) with
      _ | _ | found
    · rfl
    · rfl
    · rfl

/-- An RCE that is not in the table yet, as it is constructed. -/
structure Fresh (uiRCHashFunc : Nat → Nat → BOOKMARK → Nat) (fDebug : Bool) (ver : VER)
    (live : List Nat)
    (prce : Nat) (r : NewRCE) : Prop where
  notMem : prce ∉ live
  ne_nil : prce ≠ prceNil
  rce : ver.rce prce = r.rce uiRCHashFunc fDebug
  rceid : r.rceid ≠ rceidNull

/-- The RCE `prce` has the chain `c` for its node, to which `pprceChain` points, in a bucket of the
chains `cs₁`, `c` and `cs₂`. -/
structure Finds (ver : VER) (cs₁ : List (List Nat)) (c : List Nat) (cs₂ cs : List (List Nat))
    (pprceChain : PPRCE) (prce : Nat) : Prop where
  chains : cs = cs₁ ++ c :: cs₂
  cells : Cells ver.deref .hashOverflow (.chain (ver.ident prce).uiHash)
    (cs₁.map (·.headD prceNil)) pprceChain
  head : ver.deref pprceChain = c.headD prceNil
  node : ∀ p ∈ c, ver.nodeId p = ver.nodeId prce

section
variable (hf : Fresh uiRCHashFunc fDebug ver live prce r)
include hf

omit hT in
theorem Fresh.ident : ver.ident prce = r.ident uiRCHashFunc := by rw [VER.ident, hf.rce]; rfl

omit hT in
theorem Fresh.nodeId : ver.nodeId prce = r.nodeId := by rw [VER.nodeId, hf.ident]; rfl

omit hT in
theorem Fresh.next : ver.prceNextOfNode prce = prceNil := by rw [prceNextOfNode, hf.rce]; rfl

/-- The RCE is in no chain. -/
theorem Fresh.notMem_flatten (h : Nat) : prce ∉ (B h).flatten :=
  fun hp => hf.notMem (hT.mem_live hp)

/-- An insertion of an RCE whose node has no chain starts one. -/
theorem Fresh.insert_alone {fRecovering : Bool}
    (hall : ∀ p ∈ (B (ver.ident prce).uiHash).flatten, ver.nodeId p ≠ ver.nodeId prce)
    (heq : ver.pprceOf prce = some none) :
    ∃ ver' B', ver.errVERIInsertRCEIntoHash fDebug fRecovering prce = some (.JET_errSuccess, ver')
      ∧ Table uiRCHashFunc fDebug o ver' B' (prce :: live) (Function.update created prce r) := by
  have hprev : ver.prcePrevOfNode prce = prceNil := by rw [prcePrevOfNode, hf.rce]; rfl
  generalize hh : (ver.ident prce).uiHash = h at hall
  have huiHash : (ver.rce prce).m_uiHash = h := hh
  have hb : Bucket fDebug o ver h (B h) := hT.bucket h
  have hnotin := hf.notMem_flatten hT h
  rw [errVERIInsertRCEIntoHash, heq, huiHash]
  refine ⟨_, Function.update B h ([prce] :: B h), rfl, ?_⟩
  obtain ⟨hchain, ht, hfirst, hlink⟩ := newChain fDebug o hf.next hprev hh rfl
  refine hT.insert (ht.setCount _) (fun p hp => .inl (List.mem_singleton.1 hp ▸ hf.notMem))
    (.inl rfl) ?_
    (List.Perm.refl _) hf.notMem hf.ne_nil hf.ident hf.rceid rfl
  refine (hb.cons ht (fun p hp => List.mem_singleton.1 hp ▸ hnotin) hchain (fun p hp q hq he => ?_)
    (List.nodup_cons.2 ⟨hnotin, hb.nodup⟩) hfirst hlink).setCount _
  rw [VER.nodeId_congr (ht.ident p), List.mem_singleton.1 hp] at he
  exact hall q hq he.symm

section
variable {h : Nat} {cs₁ cs₂ : List (List Nat)} {c : List Nat} {pprceChain : PPRCE}
  (hh : (ver.ident prce).uiHash = h) (hfinds : Finds ver cs₁ c cs₂ (B h) pprceChain prce)
include hh hfinds

/-- Whatever place the new RCE gets in its chain, the bucket and the table follow. -/
theorem Fresh.insert_perm {c' : List Nat} {ver' : VER} (hperm : c'.Perm (prce :: c))
    (hc' : Chain fDebug o ver' h c') (ht : Touches ver ver' pprceChain (prce :: c))
    (hfirst : ver'.deref pprceChain = c'.headD prceNil)
    (hlink : ver'.deref (.hashOverflow (c'.headD prceNil)) = ver.deref
      (.hashOverflow (c.headD prceNil))) :
    Table uiRCHashFunc fDebug o { ver' with cVERcrceHashEntries := ver.cVERcrceHashEntries + 1 }
      (Function.update B h (cs₁ ++ c' :: cs₂)) (prce :: live) (Function.update created prce r) := by
  have hb : Bucket fDebug o ver h (B h) := hT.bucket h
  have hcs := hfinds.chains
  have hpre := hfinds.cells
  rw [hh] at hpre
  have hnotin := hf.notMem_flatten hT h
  have hcmem : c ∈ B h := hcs ▸ List.mem_append_right _ List.mem_cons_self
  have hne : c ≠ [] := (hb.chains c hcmem).nonempty
  have hcflat : ∀ p ∈ c, p ∈ (B h).flatten := fun p hp => List.mem_flatten_of_mem hcmem hp
  have hpprce : pprceChain = .chain h ∨ ∃ p ∈ (B h).flatten, pprceChain = .hashOverflow p := by
    rcases cell_cases hpre with ⟨-, he⟩ | ⟨c₁, hc₁, he⟩
    · exact .inl he
    · exact .inr ⟨_, hb.head_mem_flatten (hcs ▸ List.mem_append_left _ hc₁), he⟩
  have hflat : (cs₁ ++ c' :: cs₂).flatten.Perm (prce :: (B h).flatten) := by
    rw [hcs, List.flatten_append, List.flatten_append, List.flatten_cons, List.flatten_cons]
    have hin : List.Perm (cs₁.flatten ++ (c' ++ cs₂.flatten))
      (cs₁.flatten ++ (prce :: c ++ cs₂.flatten)) :=
      (hperm.append_right _).append_left _
    exact hin.trans List.perm_middle
  have hnd : (cs₁ ++ c' :: cs₂).flatten.Nodup :=
    hflat.nodup_iff.2 (List.nodup_cons.2 ⟨hnotin, hb.nodup⟩)
  refine hT.insert (ht.setCount _)
    (List.forall_mem_cons.2 ⟨.inl hf.notMem, fun p hp => .inr (hcflat p hp)⟩) hpprce ?_
    hflat hf.notMem hf.ne_nil hf.ident hf.rceid rfl
  rw [hcs] at hb
  refine (hb.replace hpre ht ?_ hc' (fun q hq => ⟨_, headD_mem hne, ?_⟩) hnd hfirst hlink).setCount
    _
  · intro p hp hpf
    have hpc' : p ∈ c' := hperm.mem_iff.2 hp
    rw [List.flatten_append, List.flatten_cons, List.nodup_append, List.nodup_append] at hnd
    rw [List.flatten_append] at hpf
    rcases List.mem_append.1 hpf with hpf | hpf
    · exact hnd.2.2 p hpf p (List.mem_append_left _ hpc') rfl
    · exact hnd.2.1.2.2 p hpc' p hpf rfl
  · rw [VER.nodeId_congr (ht.ident q), hfinds.node _ (headD_mem hne)]
    rcases List.mem_cons.1 (hperm.mem_iff.1 hq) with rfl | hq
    · rfl
    · exact hfinds.node q hq

/-- The chain is not hung on an RCE of its own. -/
theorem Fresh.cell_ne : ∀ p ∈ prce :: c, pprceChain ≠ .hashOverflow p := by
  have hb : Bucket fDebug o ver h (B h) := hT.bucket h
  have hcs := hfinds.chains
  have hpre := hfinds.cells
  rw [hh] at hpre
  intro p hp he
  rcases cell_cases hpre with ⟨-, he'⟩ | ⟨c₁, hc₁, he'⟩
  · rw [he'] at he
    cases he
  · rw [he'] at he
    have hpc₁ : p ∈ cs₁.flatten :=
      hashOverflow_injective he ▸ List.mem_flatten_of_mem hc₁
        (hb.head_mem (hcs ▸ List.mem_append_left _ hc₁))
    have hnd := hb.nodup
    rw [hcs, List.flatten_append, List.flatten_cons, List.nodup_append] at hnd
    rcases List.mem_cons.1 hp with rfl | hp
    · refine hf.notMem_flatten hT h ?_
      rw [hcs, List.flatten_append]
      exact List.mem_append_left _ hpc₁
    · exact hnd.2.2 p hpc₁ p (List.mem_append_left _ hp) rfl

omit hh in
/-- The RCEs of the chain are those of the node, and the new one is not among them. -/
theorem Fresh.chain_live : (∀ p ∈ c, p ∈ live ∧ (created p).nodeId = r.nodeId) ∧
    Chain fDebug o ver h c ∧
    (prce :: c).Nodup ∧ c.length ≤ ver.cVERcrceHashEntries := by
  have hb : Bucket fDebug o ver h (B h) := hT.bucket h
  have hcmem : c ∈ B h := hfinds.chains ▸ List.mem_append_right _ List.mem_cons_self
  have hcflat : ∀ p ∈ c, p ∈ (B h).flatten := fun p hp => List.mem_flatten_of_mem hcmem hp
  refine ⟨fun p hp => ?_, hb.chains c hcmem, List.nodup_cons.2
      ⟨fun hp => hf.notMem_flatten hT h (hcflat prce hp),
      (List.nodup_flatten.1 hb.nodup).1 c hcmem⟩,
    Nat.le_trans (List.sublist_flatten_of_mem hcmem).length_le hT.length_le⟩
  have hpl := hT.mem_live (hcflat p hp)
  exact ⟨hpl, by rw [← hT.nodeId_eq hpl, hfinds.node p hp, hf.nodeId]⟩

end

variable {h : Nat} {cs₁ cs₂ : List (List Nat)} {a : Nat} {l c₁ c₂ : List Nat} {b : Nat}
    {pprceChain : PPRCE}
  (hh : (ver.ident prce).uiHash = h)
include hh

/-- The new RCE becomes the head of its chain. -/
theorem Fresh.insert_head (hfinds : Finds ver cs₁ (a :: l) cs₂ (B h) pprceChain prce)
    (hord : o → ∀ p ∈ a :: l, ver.Older p prce) :
    ∃ B', Table uiRCHashFunc fDebug o
      { ver.linkRCE fDebug pprceChain prce prceNil
      a with cVERcrceHashEntries := ver.cVERcrceHashEntries + 1 } B'
      (prce :: live) (Function.update created prce r) := by
  obtain ⟨hclive, hc, hndc, -⟩ := hf.chain_live hT hfinds
  obtain ⟨hc', ht, hfirst, hlink⟩ :=
    linkRCE_head hc hndc (hT.ne_nil a (hclive a List.mem_cons_self).1)
    hfinds.head (hf.cell_ne hT hh hfinds) hf.next (hfinds.node a List.mem_cons_self).symm hh hord
  exact ⟨_, hf.insert_perm hT hh hfinds (List.Perm.refl _) hc' ht hfirst hlink⟩

/-- The new RCE is put between two RCEs of its chain, or behind the last. -/
theorem Fresh.insert_between (hfinds : Finds ver cs₁ (c₁ ++ b :: c₂) cs₂ (B h) pprceChain prce)
    (hnewer : o → ∀ p ∈ c₁ ++ [b], ver.Older prce p) (holder : o → ∀ p ∈ c₂, ver.Older p prce) :
    ∃ B', Table uiRCHashFunc fDebug o
      { ver.linkRCE fDebug pprceChain prce b (c₂.headD prceNil) with
        cVERcrceHashEntries := ver.cVERcrceHashEntries + 1 } B'
      (prce :: live) (Function.update created prce r) := by
  obtain ⟨hclive, hc, hndc, -⟩ := hf.chain_live hT hfinds
  have hinvalid : fDebug = true → ver.prceHashOverflow prce = prceInvalid := by
    intro hdebug
    rw [prceHashOverflow, hf.rce]
    exact if_pos hdebug
  have hbnil : b ≠ prceNil := hT.ne_nil b (hclive b (by simp)).1
  obtain ⟨hc', ht, hderef⟩ := linkRCE_mid pprceChain rfl hc hndc hbnil
    (fun p hp => hT.ne_nil p (hclive p (by simp [hp])).1) (fun p hp => (hfinds.node p hp).symm) hh
    hinvalid
    hnewer holder
  have hperm : (c₁ ++ b :: prce :: c₂).Perm (prce :: (c₁ ++ b :: c₂)) :=
    (List.Perm.swap prce b c₂ |>.append_left c₁).trans List.perm_middle
  have hheadD : (c₁ ++ b :: prce :: c₂).headD prceNil = (c₁ ++ b :: c₂).headD prceNil := by
    cases c₁ <;> rfl
  refine ⟨_, hf.insert_perm hT hh hfinds hperm hc' ht ?_ ?_⟩
  · rw [hderef, hfinds.head, hheadD]
  · rw [hderef, hheadD]

/-- In recovery the new RCE is put between the newer and the older RCEs of its node, if it is not
there. -/
theorem Fresh.insert_recovering (ho : o → InOrder live created true r)
    (hfinds : Finds ver cs₁ (a :: l) cs₂ (B h) pprceChain prce)
    (heq : ver.pprceOf prce = some (some pprceChain)) :
    (∃ ver' B', ver.errVERIInsertRCEIntoHash fDebug true prce = some (.JET_errSuccess, ver')
        ∧ Table uiRCHashFunc fDebug o ver' B' (prce :: live) (Function.update created prce r))
      ∨ (∃ p ∈ live, (created p).nodeId = r.nodeId ∧ (created p).rceid = r.rceid)
        ∧ ver.errVERIInsertRCEIntoHash fDebug true prce = some (.JET_errPreviousVersion, ver) := by
  obtain ⟨hclive, hc, -, hlen⟩ := hf.chain_live hT hfinds
  have hrceid : (ver.rce prce).m_rceid = r.rceid := by rw [hf.rce]; rfl
  have hresult := errVERIInsertRCEIntoHash_eq fDebug true heq
  rw [if_pos rfl, hfinds.head, hrceid] at hresult
  obtain ⟨e, hlinked⟩ := hc.linked
  rcases seekRceid_spec r.rceid hlinked (fun p hp => hT.ne_nil p (hclive p hp).1)
    (Nat.lt_succ_of_le hlen) with
    ⟨p, hp, hpr, hseek⟩ | ⟨c₁, c₂, hsplit, hnewer, holder, hseek⟩
  · refine .inr ⟨⟨p, (hclive p hp).1, (hclive p hp).2, ?_⟩, ?_⟩
    · rw [← hT.rceid_eq (hclive p hp).1]
      exact hpr
    · rw [hresult]
      exact congrArg _ hseek
  · rw [hresult, hseek]
    have hlook : ∀ p ∈ c₁ ++ c₂, p ∈ live ∧ (created p).nodeId = r.nodeId := hsplit ▸ hclive
    have horder : o → (∀ p ∈ c₁, ver.Older prce p) ∧ ∀ p ∈ c₂, ver.Older p prce := fun hord =>
      order_of_seek hT hf.rceid hf.ident hlook (hsplit ▸ hc.ordered hord) (ho hord).2 hnewer holder
    rcases List.eq_nil_or_concat c₁ with rfl | ⟨c₁, b, rfl⟩
    · rw [List.nil_append] at hsplit
      obtain ⟨B', hT'⟩ := hf.insert_head hT hh hfinds fun hord => hsplit ▸ (horder hord).2
      rw [← hsplit]
      exact .inl ⟨_, B', rfl, hT'⟩
    · rw [List.concat_eq_append] at hsplit horder ⊢
      rw [hsplit, List.append_assoc, List.singleton_append] at hfinds
      rw [List.getLastD_concat]
      obtain ⟨B', hT'⟩ := hf.insert_between hT hh hfinds (fun hord => (horder hord).1) fun hord =>
        (horder hord).2
      exact .inl ⟨_, B', rfl, hT'⟩

omit hh in
/-- What an insertion does. -/
theorem insert_spec {fRecovering : Bool} (ho : o → InOrder live created fRecovering r) :
    (∃ ver' B', ver.errVERIInsertRCEIntoHash fDebug fRecovering prce = some (.JET_errSuccess, ver')
        ∧ Table uiRCHashFunc fDebug o ver' B' (prce :: live) (Function.update created prce r))
      ∨ (fRecovering = true ∧
        (∃ p ∈ live, (created p).nodeId = r.nodeId ∧ (created p).rceid = r.rceid)
        ∧ ver.errVERIInsertRCEIntoHash fDebug fRecovering prce =
          some (.JET_errPreviousVersion, ver)) := by
  have hb : Bucket fDebug o ver (ver.ident prce).uiHash (B (ver.ident prce).uiHash) := hT.bucket _
  rcases pprceOf_spec hb (fun p hp => hT.ne_nil p (hT.mem_live hp))
    (Nat.le_trans hb.length_le hT.length_le) with
    ⟨hall, heq⟩ | ⟨cs₁, c, cs₂, pprceChain, hcs, hpre, hd, hnodes, heq⟩
  · exact .inl (hf.insert_alone hT hall heq)
  have hfinds : Finds ver cs₁ c cs₂ (B (ver.ident prce).uiHash) pprceChain prce :=
    ⟨hcs, hpre, hd, hnodes⟩
  obtain ⟨hclive, hc, -⟩ := hf.chain_live hT hfinds
  obtain ⟨a, l, rfl⟩ := List.exists_cons_of_ne_nil hc.nonempty
  cases fRecovering with
  | false =>
    obtain ⟨B', hT'⟩ := hf.insert_head hT rfl hfinds fun hord p hp => by
      obtain ⟨hpl, hpn⟩ := hclive p hp
      rw [VER.Older, hT.rceid_eq hpl, hf.ident]
      exact (ho hord).1 rfl p hpl hpn
    refine .inl ⟨_, B', ?_, hT'⟩
    rw [errVERIInsertRCEIntoHash_eq _ _ heq, if_neg Bool.false_ne_true, hd]
    rfl
  | true =>
    rcases hf.insert_recovering hT rfl ho hfinds heq with hinserted | hprevious
    · exact .inl hinserted
    · exact .inr ⟨rfl, hprevious⟩

end

end

/-! ## Deletion -/

section
variable {fDebug : Bool} {o : Prop} {ver ver' : VER} {h : Nat} {c₁ c₂ : List Nat}
    {prce a b prcePrev : Nat} {l : List Nat}

/-- The head of a chain is taken out before its successor. -/
theorem unlinkHead {pprce : PPRCE} (hc : Chain fDebug o ver h (prce :: a :: l))
    (hnd : (prce :: a :: l).Nodup)
    (hcell : ∀ p ∈ prce :: a :: l, pprce ≠ .hashOverflow p)
    (hver : ver' = ((((ver.setPrceHashOverflow a (ver.prceHashOverflow prce)).assign pprce
      a).setPrceNextOfNode a
      prceNil).setPrceNextOfNode prce prceNil).setPrcePrevOfNode prce prceNil) :
    Chain fDebug o ver' h (a :: l) ∧ Touches ver ver' pprce (prce :: a :: l) ∧ ver'.deref pprce = a
      ∧ ver'.deref (.hashOverflow a) = ver.deref (.hashOverflow prce) := by
  obtain ⟨hprce, hndc⟩ := List.nodup_cons.1 hnd
  have hal := (List.nodup_cons.1 hndc).1
  have hcella : PPRCE.hashOverflow a ≠ pprce := (hcell a (by simp)).symm
  have hident : ver'.ident = ver.ident := by simp [hver]
  have hprev : ver'.prcePrevOfNode = Function.update ver.prcePrevOfNode prce prceNil := by
    simp [hver]
  have hnext : ver'.prceNextOfNode
      = Function.update (Function.update ver.prceNextOfNode a prceNil) prce prceNil := by
        simp [hver]
  have hderef : ver'.deref
      = Function.update (Function.update ver.deref (.hashOverflow a)
        (ver.deref (.hashOverflow prce))) pprce a := by
    simp [hver]
    rfl
  have hnotprce : ∀ p ∈ a :: l, p ≠ prce := fun p hp he => hprce (he ▸ hp)
  refine ⟨?_, ?_, ?_, ?_⟩
  · have hsub : ∀ p ∈ a :: l, p ∈ prce :: a :: l := fun p hp => List.mem_cons_of_mem _ hp
    constructor
    · exact List.cons_ne_nil _ _
    · obtain ⟨e, -, -, hl⟩ := hc.linked
      have hs : ver.prcePrevOfNode prce = a := hl.start_eq
      rw [hs] at hl
      refine ⟨e, hl.set_newer ?_ (fun p hp => ?_) fun p hp => ?_⟩
      · rw [hnext, Function.update_of_ne (hnotprce a List.mem_cons_self), Function.update_self]
      · rw [hprev, Function.update_of_ne (hnotprce p hp)]
      · have hpa : p ≠ a := fun he => hal (he ▸ hp)
        rw [hnext, Function.update_of_ne (hnotprce p (List.mem_cons_of_mem _ hp)),
          Function.update_of_ne hpa]
    · intro p hp q hq
      rw [VER.nodeId, VER.nodeId, hident]
      exact hc.node p (hsub p hp) q (hsub q hq)
    · intro p hp
      rw [hident]
      exact hc.hash p (hsub p hp)
    · intro hdebug p hp
      have hpa : PPRCE.hashOverflow p ≠ .hashOverflow a :=
        fun he => hal (hashOverflow_injective he ▸ hp)
      have hpc : PPRCE.hashOverflow p ≠ pprce := (hcell p (hsub p (List.mem_cons_of_mem _ hp))).symm
      change ver'.deref (.hashOverflow p) = _
      rw [hderef, Function.update_of_ne hpc, Function.update_of_ne hpa]
      exact hc.tail hdebug p (List.mem_cons_of_mem _ hp)
    · intro hord
      simp only [VER.Older, hident]
      exact (List.pairwise_cons.1 (hc.ordered hord)).2
  · constructor
    · intro p hp
      have hpne : p ≠ prce := fun he => hp (by simp [he])
      rw [hprev, Function.update_of_ne hpne]
    · intro p hp
      have hpne : p ≠ prce := fun he => hp (by simp [he])
      have hpa : p ≠ a := fun he => hp (by simp [he])
      rw [hnext, Function.update_of_ne hpne, Function.update_of_ne hpa]
    · exact fun p => by rw [hident]
    · intro p hp hne
      have hpa : PPRCE.hashOverflow p ≠ .hashOverflow a :=
        fun he => hp (by simp [hashOverflow_injective he])
      change ver'.deref (.hashOverflow p) = _
      rw [hderef, Function.update_of_ne hne, Function.update_of_ne hpa]
      rfl
    · intro h' hne
      have hne' : PPRCE.chain h' ≠ .hashOverflow a := fun he => by cases he
      change ver'.deref (.chain h') = _
      rw [hderef, Function.update_of_ne hne, Function.update_of_ne hne']
      rfl
  · rw [hderef, Function.update_self]
  · rw [hderef, Function.update_of_ne hcella, Function.update_self]

/-- The only RCE of a chain is taken out. -/
theorem unlinkOnly (ver : VER) (prce : Nat) (pprce : PPRCE) {ver' : VER}
    (hver : ver' = ((ver.assign pprce (ver.prceHashOverflow prce)).setPrceNextOfNode prce
      prceNil).setPrcePrevOfNode
      prce prceNil) :
    Touches ver ver' pprce [prce] ∧ ver'.deref pprce = ver.deref (.hashOverflow prce) := by
  have hderef : ver'.deref = Function.update ver.deref pprce (ver.deref (.hashOverflow prce)) := by
    simp [hver]
    rfl
  have hprev : ver'.prcePrevOfNode = Function.update ver.prcePrevOfNode prce prceNil := by
    simp [hver]
  have hnext : ver'.prceNextOfNode = Function.update ver.prceNextOfNode prce prceNil := by
    simp [hver]
  refine ⟨?_, ?_⟩
  · constructor
    · intro p hp
      have hpne : p ≠ prce := fun he => hp (by simp [he])
      rw [hprev, Function.update_of_ne hpne]
    · intro p hp
      have hpne : p ≠ prce := fun he => hp (by simp [he])
      rw [hnext, Function.update_of_ne hpne]
    · exact fun p => by simp [hver]
    · intro p _ hne
      change ver'.deref (.hashOverflow p) = _
      rw [hderef, Function.update_of_ne hne]
      rfl
    · intro h' hne
      change ver'.deref (.chain h') = _
      rw [hderef, Function.update_of_ne hne]
      rfl
  · rw [hderef, Function.update_self]

/-- An RCE that is not the head is taken out of its chain. -/
theorem unlinkMid (pprce : PPRCE) (hc : Chain fDebug o ver h (c₁ ++ b :: prce :: c₂))
    (hnd : (c₁ ++ b :: prce :: c₂).Nodup) (hnil : ∀ p ∈ c₂, p ≠ prceNil)
    (hpp : prcePrev = c₂.headD prceNil)
    (hver : ver' = ((if prcePrev ≠ prceNil then (ver.setPrcePrevOfNode b prcePrev).setPrceNextOfNode
      prcePrev b
      else ver.setPrcePrevOfNode b prcePrev).setPrceNextOfNode prce prceNil).setPrcePrevOfNode prce
        prceNil) :
    Chain fDebug o ver' h (c₁ ++ b :: c₂) ∧ Touches ver ver' pprce (c₁ ++ b :: prce :: c₂) ∧
      ver'.deref = ver.deref := by
  have hsublist : (c₁ ++ b :: c₂).Sublist (c₁ ++ b :: prce :: c₂) :=
    ((List.sublist_cons_self prce c₂).cons_cons b).append_left c₁
  have hsub : ∀ p ∈ c₁ ++ b :: c₂, p ∈ c₁ ++ b :: prce :: c₂ := fun p hp => hsublist.subset hp
  have hnotprce : ∀ p ∈ c₁ ++ b :: c₂, p ≠ prce := by
    have hperm : (c₁ ++ b :: prce :: c₂).Perm (prce :: (c₁ ++ b :: c₂)) :=
      ((List.Perm.swap prce b c₂).append_left c₁).trans List.perm_middle
    intro p hp he
    exact (List.nodup_cons.1 (hperm.nodup_iff.1 hnd)).1 (he ▸ hp)
  have hnd' : (c₁ ++ b :: c₂).Nodup := hnd.sublist hsublist
  obtain ⟨hndc₁, hndb, hdis⟩ := List.nodup_append.1 hnd'
  obtain ⟨hbc₂, hndc₂⟩ := List.nodup_cons.1 hndb
  have hbc₁ : b ∉ c₁ := fun hp => hdis b hp b List.mem_cons_self rfl
  have hident : ver'.ident = ver.ident := by
    rw [hver]
    by_cases hp : prcePrev = prceNil <;> simp [hp]
  have hderef : ver'.deref = ver.deref := by
    rw [hver]
    by_cases hp : prcePrev = prceNil <;> simp [hp]
  have hprev : ver'.prcePrevOfNode = Function.update (Function.update ver.prcePrevOfNode b prcePrev)
    prce prceNil := by
    rw [hver]
    by_cases hp : prcePrev = prceNil <;> simp [hp]
  have hnext : ver'.prceNextOfNode = Function.update (if prcePrev ≠ prceNil then
      Function.update ver.prceNextOfNode prcePrev b else ver.prceNextOfNode) prce prceNil := by
    rw [hver]
    by_cases hp : prcePrev = prceNil <;> simp [hp]
  have hprev' : ∀ p, p ≠ b → p ≠ prce → ver'.prcePrevOfNode p = ver.prcePrevOfNode p := by
    intro p h1 h2
    rw [hprev, Function.update_of_ne h2, Function.update_of_ne h1]
  have hnext' : ∀ p, p ≠ prce → p ∉ c₂.head? → ver'.prceNextOfNode p = ver.prceNextOfNode p := by
    intro p h1 h2
    rw [hnext, Function.update_of_ne h1]
    split
    · rename_i hnn
      have hp : p ≠ prcePrev := by
        cases c₂ with
        | nil => exact absurd hpp hnn
        | cons a l => exact fun he => h2 (by simp [he, hpp])
      rw [Function.update_of_ne hp]
    · rfl
  have hnotmem : ∀ p ∈ c₁ ++ [b], p ∉ c₂.head? := by
    intro p hp hp'
    have hpc₂ : p ∈ c₂ := List.mem_of_mem_head? hp'
    rcases List.mem_append.1 hp with hp | hp
    · exact hdis p hp p (List.mem_cons_of_mem _ hpc₂) rfl
    · exact hbc₂ (List.mem_singleton.1 hp ▸ hpc₂)
  refine ⟨?_, ?_, hderef⟩
  · constructor
    · simp
    · obtain ⟨e, hl⟩ := hc.linked
      have hassoc : c₁ ++ b :: prce :: c₂ = (c₁ ++ [b]) ++ prce :: c₂ := by simp
      have hassoc' : c₁ ++ b :: c₂ = (c₁ ++ [b]) ++ c₂ := by simp
      have hhead : (c₁ ++ b :: c₂).headD prceNil = (c₁ ++ b :: prce :: c₂).headD prceNil := by
        cases c₁ <;> rfl
      rw [hhead]
      generalize (c₁ ++ b :: prce :: c₂).headD prceNil = s at hl ⊢
      rw [hassoc] at hl
      obtain ⟨n, m, hl₁, -, -, hl₂⟩ := Linked.append_iff.1 hl
      have hprevb : ver'.prcePrevOfNode b = prcePrev := by
        rw [hprev, Function.update_of_ne (hnotprce b (by simp)), Function.update_self]
      refine hl₁.splice hl₂ [] ⟨rfl, (hprevb.trans hpp).symm⟩
        (fun p hp => ?_) (fun p hp => ?_) (fun p hp => ?_) (fun p hp => ?_) fun p hp => ?_
      · exact hprev' p (fun he => hbc₁ (he ▸ hp)) (hnotprce p (List.mem_append_left _ hp))
      · exact hnext' p (hnotprce p (hassoc' ▸ List.mem_append_left _ hp)) (hnotmem p hp)
      · exact hprev' p (fun he => hbc₂ (he ▸ hp)) (hnotprce p (by simp [hp]))
      · exact hnext' p (hnotprce p (by simp [List.mem_of_mem_tail hp]))
          fun he => not_mem_tail hndc₂ he hp
      · have hmem := List.mem_of_mem_head? hp
        have hp' : prcePrev = p := hpp.trans (headD_of_head hp)
        rw [hnext, Function.update_of_ne (hnotprce p (by simp [hmem])), hp', if_pos (hnil p hmem),
          Function.update_self]
    · intro p hp q hq
      rw [VER.nodeId, VER.nodeId, hident]
      exact hc.node p (hsub p hp) q (hsub q hq)
    · intro p hp
      rw [hident]
      exact hc.hash p (hsub p hp)
    · intro hdebug p hp
      change ver'.deref (.hashOverflow p) = _
      rw [hderef]
      refine hc.tail hdebug p ?_
      cases c₁ with
      | nil => exact List.mem_cons_of_mem _ hp
      | cons a l => exact (((List.sublist_cons_self prce c₂).cons_cons b).append_left l).subset hp
    · intro hord
      simp only [VER.Older, hident]
      exact (hc.ordered hord).sublist hsublist
  · constructor
    · exact fun p hp => hprev' p (fun he => hp (by simp [he])) fun he => hp (by simp [he])
    · refine fun p hp => hnext' p (fun he => hp (by simp [he])) fun he => hp ?_
      exact hsub p (List.mem_append_right _ (List.mem_cons_of_mem _ (List.mem_of_mem_head? he)))
    · exact fun p => by rw [hident]
    · exact fun p _ _ => congrFun hderef (.hashOverflow p)
    · exact fun h _ => congrFun hderef (.chain h)

end

section
variable {uiRCHashFunc : Nat → Nat → BOOKMARK → Nat} {fDebug : Bool} {o : Prop} {ver : VER}
  {B : Nat → List (List Nat)} {live : List Nat} {created : Nat → NewRCE} {prce : Nat}

/-- A RCE of the table is in a chain, which `PprceRCEChainGet` finds. -/
theorem Table.chain_of_mem (hT : Table uiRCHashFunc fDebug o ver B live created)
    (hlive : prce ∈ live) :
    ∃ h cs₁ c cs₂ pprce, B h = cs₁ ++ c :: cs₂ ∧ prce ∈ c
      ∧ Cells ver.deref .hashOverflow (.chain h) (cs₁.map (·.headD prceNil)) pprce
      ∧ ver.deref pprce = c.headD prceNil ∧ ver.pprceOf prce = some (some pprce) := by
  generalize hh : (ver.ident prce).uiHash = h
  have hmem : prce ∈ (B h).flatten := (hT.mem h prce).2 ⟨hlive, hh⟩
  rcases pprceOf_spec (by rw [hh]; exact hT.bucket h : Bucket fDebug o ver (ver.ident prce).uiHash
    (B h))
    (fun p hp => hT.ne_nil p (hT.mem_live hp)) (Nat.le_trans (hT.bucket h).length_le hT.length_le)
      with
    ⟨hall, -⟩ | ⟨cs₁, c, cs₂, pprce, hcs, hpre, hd, hnodes, heq⟩
  · exact absurd rfl (hall prce hmem)
  · refine ⟨h, cs₁, c, cs₂, pprce, hcs, ?_, hh ▸ hpre, hd, heq⟩
    -- another chain would be of the same node
    obtain ⟨c', hc', hp⟩ := List.mem_flatten.1 hmem
    have hcmem : c ∈ B h := hcs ▸ List.mem_append_right _ List.mem_cons_self
    by_contra hnot
    have hne : c' ≠ c := fun he => hnot (he ▸ hp)
    have hhead := (hT.bucket h).head_mem hcmem
    have hsymm : Std.Symm fun c c' : List Nat => ∀ p ∈ c, ∀ q ∈ c', ver.nodeId p ≠ ver.nodeId q :=
      ⟨fun _ _ hne p hp q hq he => hne q hq p hp he.symm⟩
    exact (hT.bucket h).nodes.forall hc' hcmem hne prce hp _ hhead (hnodes _ hhead).symm

theorem count_assign (ver : VER) (pprce : PPRCE) (p : Nat) :
    (ver.assign pprce p).cVERcrceHashEntries = ver.cVERcrceHashEntries := by
  cases pprce <;> rfl

theorem delete_head_eq {pprce : PPRCE} {a : Nat} (heq : ver.pprceOf prce = some (some pprce))
    (hd : ver.deref pprce = prce) (ha : ver.prcePrevOfNode prce = a) (hnil : a ≠ prceNil) :
    ver.veriDeleteRCEFromHash prce =
      some { ((((ver.setPrceHashOverflow a (ver.prceHashOverflow prce)).assign pprce
        a).setPrceNextOfNode a
        prceNil).setPrceNextOfNode prce prceNil).setPrcePrevOfNode prce prceNil with
        cVERcrceHashEntries := ver.cVERcrceHashEntries - 1 } := by
  have hcount := count_assign (ver.setPrceHashOverflow a (ver.prceHashOverflow prce)) pprce a
  rw [veriDeleteRCEFromHash, heq]
  simp only [Option.bind_eq_bind, Option.bind_some, hd, if_true, ha, ne_eq, not_false_eq_true, hnil,
    deref_assign, Function.update_self]
  rw [← show _ = ver.cVERcrceHashEntries from hcount]
  rfl

theorem delete_only_eq {pprce : PPRCE} (heq : ver.pprceOf prce = some (some pprce))
    (hd : ver.deref pprce = prce) (hnil : ver.prcePrevOfNode prce = prceNil) :
    ver.veriDeleteRCEFromHash prce =
      some { ((ver.assign pprce (ver.prceHashOverflow prce)).setPrceNextOfNode prce
        prceNil).setPrcePrevOfNode
        prce prceNil with cVERcrceHashEntries := ver.cVERcrceHashEntries - 1 } := by
  rw [veriDeleteRCEFromHash, heq, ← count_assign ver pprce (ver.prceHashOverflow prce)]
  simp only [Option.bind_eq_bind, Option.bind_some, hd, if_true, hnil, ne_eq, not_true_eq_false,
    if_false]
  rfl

theorem delete_mid_eq {pprce : PPRCE} {b prcePrev : Nat}
    (heq : ver.pprceOf prce = some (some pprce))
    (hd : prce ≠ ver.deref pprce) (hb : ver.prceNextOfNode prce = b) (hnil : b ≠ prceNil)
    (hprev : ver.prcePrevOfNode prce = prcePrev) :
    ver.veriDeleteRCEFromHash prce =
      some { ((if prcePrev ≠ prceNil then (ver.setPrcePrevOfNode b prcePrev).setPrceNextOfNode
        prcePrev b
        else ver.setPrcePrevOfNode b prcePrev).setPrceNextOfNode prce prceNil).setPrcePrevOfNode
          prce prceNil with
        cVERcrceHashEntries := ver.cVERcrceHashEntries - 1 } := by
  rw [veriDeleteRCEFromHash, heq]
  simp only [Option.bind_eq_bind, Option.bind_some, if_neg hd, hb, if_neg hnil, hprev,
    prev_setPrcePrevOfNode,
    Function.update_self]
  by_cases hp : prcePrev = prceNil
  · simp only [hp, ne_eq, not_true_eq_false, if_false]
    rfl
  · simp only [hp, ne_eq, not_false_eq_true, if_true]
    rfl

/-- An element of a list is its first, or there is one before it. -/
theorem head_or_behind {c : List Nat} (hp : prce ∈ c) :
    (∃ l, c = prce :: l) ∨ ∃ c₁ b c₂, c = c₁ ++ b :: prce :: c₂ := by
  obtain ⟨c₁, c₂, rfl⟩ := List.append_of_mem hp
  rcases List.eq_nil_or_concat c₁ with rfl | ⟨c₁, b, rfl⟩
  · exact .inl ⟨c₂, rfl⟩
  · exact .inr ⟨c₁, b, c₂, by simp⟩

/-- What a deletion does. -/
theorem delete_spec (hT : Table uiRCHashFunc fDebug o ver B live created) (hlive : prce ∈ live) :
    ∃ ver' B', ver.veriDeleteRCEFromHash prce = some ver'
      ∧ Table uiRCHashFunc fDebug o ver' B' (live.erase prce) created := by
  obtain ⟨h, cs₁, c, cs₂, pprce, hcs, hp, hpre, hd, heq⟩ := hT.chain_of_mem hlive
  have hb := hT.bucket h
  have hcmem : c ∈ B h := hcs ▸ List.mem_append_right _ List.mem_cons_self
  have hc : Chain fDebug o ver h c := hb.chains c hcmem
  have hndc : c.Nodup := (List.nodup_flatten.1 hb.nodup).1 c hcmem
  have hcflat : ∀ p ∈ c, p ∈ (B h).flatten := fun p hp => List.mem_flatten_of_mem hcmem hp
  have hcnil : ∀ p ∈ c, p ≠ prceNil := fun p hp => hT.ne_nil p (hT.mem_live (hcflat p hp))
  have hcell : pprce = .chain h ∨ ∃ p ∈ (B h).flatten, pprce = .hashOverflow p := by
    rcases cell_cases hpre with ⟨-, he⟩ | ⟨c₁, hc₁, he⟩
    · exact .inl he
    · exact .inr ⟨_, hb.head_mem_flatten (hcs ▸ List.mem_append_left _ hc₁), he⟩
  have hout : ∀ p ∈ c, p ∉ (cs₁ ++ cs₂).flatten := by
    intro p hp hpf
    have hnd := hb.nodup
    rw [hcs, List.flatten_append, List.flatten_cons, List.nodup_append, List.nodup_append] at hnd
    rw [List.flatten_append] at hpf
    rcases List.mem_append.1 hpf with hpf | hpf
    · exact hnd.2.2 p hpf p (List.mem_append_left _ hp) rfl
    · exact hnd.2.1.2.2 p hp p hpf rfl
  have hcell' : ∀ p ∈ c, pprce ≠ .hashOverflow p := by
    intro p hp he
    rcases cell_cases hpre with ⟨-, he'⟩ | ⟨c₁, hc₁, he'⟩
    · rw [he'] at he
      cases he
    · rw [he'] at he
      refine hout p hp ?_
      rw [← hashOverflow_injective he, List.flatten_append]
      exact List.mem_append_left _
        (List.mem_flatten_of_mem hc₁ (hb.head_mem (hcs ▸ List.mem_append_left _ hc₁)))
  have hb' : Bucket fDebug o ver h (cs₁ ++ c :: cs₂) := hcs ▸ hb
  -- another chain of the node takes the place of `c`
  have hfinish : ∀ (c' : List Nat) (ver' : VER), (prce :: c').Perm c → Chain fDebug o ver' h c' →
      Touches ver ver' pprce c → ver'.deref pprce = c'.headD prceNil →
      ver'.deref (.hashOverflow (c'.headD prceNil)) = ver.deref (.hashOverflow (c.headD prceNil)) →
      Table uiRCHashFunc fDebug o { ver' with cVERcrceHashEntries := ver.cVERcrceHashEntries - 1 }
        (Function.update B h (cs₁ ++ c' :: cs₂)) (live.erase prce) created := by
    intro c' ver' hperm hc' ht hfirst hlink
    have hflat : (prce :: (cs₁ ++ c' :: cs₂).flatten).Perm (B h).flatten := by
      rw [hcs, List.flatten_append, List.flatten_append, List.flatten_cons, List.flatten_cons]
      have hin : List.Perm (cs₁.flatten ++ (prce :: c' ++ cs₂.flatten))
        (cs₁.flatten ++ (c ++ cs₂.flatten)) :=
        (hperm.append_right _).append_left _
      exact List.perm_middle.symm.trans hin
    refine hT.delete (ht.setCount _) hcflat hcell ?_ hflat rfl
    refine (hb'.replace hpre ht hout hc' (fun q hq => ⟨q, ?_, VER.nodeId_congr (ht.ident q)⟩) ?_
      hfirst hlink).setCount _
    · exact hperm.mem_iff.1 (List.mem_cons_of_mem _ hq)
    · exact (List.nodup_cons.1 (hflat.nodup_iff.2 hb.nodup)).2
  obtain ⟨e, hlinked⟩ := hc.linked
  rcases head_or_behind hp with ⟨c₂, rfl⟩ | ⟨c₁, b, c₂, rfl⟩
  · -- the head of the chain
    obtain ⟨-, -, hrest⟩ := hlinked
    cases c₂ with
    | nil =>
      have hdel := delete_only_eq heq hd hrest.2.symm
      obtain ⟨ht, hlink⟩ := unlinkOnly ver prce pprce rfl
      refine ⟨_, Function.update B h (cs₁ ++ cs₂), hdel, hT.delete (ht.setCount _) hcflat hcell
        ((hb'.remove hpre ht hout hlink).setCount _) ?_ rfl⟩
      rw [hcs, List.flatten_append, List.flatten_append, List.flatten_cons]
      exact List.perm_middle.symm
    | cons a l =>
      have hdel := delete_head_eq heq hd hrest.start_eq (hcnil a (by simp))
      obtain ⟨hc', ht, hfirst, hlink⟩ := unlinkHead hc hndc hcell' rfl
      exact ⟨_, _, hdel, hfinish _ _ (List.Perm.refl _) hc' ht hfirst hlink⟩
  · -- an RCE behind the head
    have hmid : Linked ver.prcePrevOfNode ver.prceNextOfNode prceNil
        ((c₁ ++ b :: prce :: c₂).headD prceNil)
        ((c₁ ++ [b]) ++ prce :: c₂) e prceNil := by
      rw [List.append_assoc, List.singleton_append]
      exact hlinked
    obtain ⟨n, m, hl₁, -, hnext, hl₂⟩ := Linked.append_iff.1 hmid
    have hn : n = b := (Linked.concat_iff.1 hl₁).1
    have hhead : prce ≠ ver.deref pprce := by
      rw [hd]
      intro he
      cases c₁ with
      | nil => exact (List.nodup_cons.1 hndc).1 (List.mem_cons.2 (.inl he.symm))
      | cons x l =>
        refine (List.nodup_cons.1 hndc).1 (List.mem_append_right _ (List.mem_cons_of_mem _ ?_))
        exact List.mem_cons.2 (.inl he.symm)
    have hdel := delete_mid_eq heq hhead (hnext.trans hn) (hcnil b (by simp)) hl₂.start_eq
    obtain ⟨hc', ht, hderef⟩ := unlinkMid pprce hc hndc (fun p hp => hcnil p (by simp [hp])) rfl rfl
    have hperm : (prce :: (c₁ ++ b :: c₂)).Perm (c₁ ++ b :: prce :: c₂) :=
      (((List.Perm.swap prce b c₂).append_left c₁).trans List.perm_middle).symm
    have hheadD : (c₁ ++ b :: prce :: c₂).headD prceNil = (c₁ ++ b :: c₂).headD prceNil := by
      cases c₁ <;> rfl
    refine ⟨_, _, hdel, hfinish _ _ hperm hc' ht ?_ ?_⟩
    · rw [hderef, hd, hheadD]
    · rw [hderef, hheadD]

end

/-! ## Runs -/

/-- The hash table with what has been inserted and not deleted, and whether the order was kept. -/
structure State where
  ver : VER
  live : List Nat
  created : Nat → NewRCE
  fInOrder : Prop

/-- The empty hash table. The memory of the RCEs has any contents. -/
def State.init (rce : Nat → RCE) (created : Nat → NewRCE) : State :=
  ⟨⟨rce, fun _ => prceNil, 0⟩, [], created, True⟩

/-- An RCE is created where none is, with a rceid, and only an RCE of the table is deleted. -/
def Op.Valid (s : State) : Op → Prop
  | .Insert _ prce r => prce ≠ prceNil ∧ prce ∉ s.live ∧ r.rceid ≠ rceidNull
  | .Delete prce => prce ∈ s.live

def State.after (s : State) (op : Op) (err : ERR) (ver : VER) : State :=
  match op, err with
  | .Insert fRecovering prce r, .JET_errSuccess =>
    ⟨ver, prce :: s.live, Function.update s.created prce r, s.fInOrder ∧
      InOrder s.live s.created fRecovering r⟩
  | .Insert _ _ _, .JET_errPreviousVersion => { s with ver := ver }
  | .Delete prce, _ => { s with ver := ver, live := s.live.erase prce }

variable (uiRCHashFunc : Nat → Nat → BOOKMARK → Nat) (fDebug : Bool)

def Step (op : Op) (s s' : State) : Prop :=
  op.Valid s ∧ ∃ err ver, step uiRCHashFunc fDebug op s.ver = some (err, ver) ∧
    s' = s.after op err ver

/-- The operation creates an RCE that recovery has created already. -/
def Op.Redone (s : State) : Op → Prop
  | .Insert fRecovering _ r =>
    fRecovering = true ∧ ∃ p ∈ s.live, (s.created p).nodeId = r.nodeId ∧
      (s.created p).rceid = r.rceid
  | .Delete _ => False

/-- The links in memory represent some chains of the RCEs that are in the table. -/
def State.Represented (s : State) : Prop :=
  ∃ B, Table uiRCHashFunc fDebug s.fInOrder s.ver B s.live s.created

theorem represented_init (rce : Nat → RCE) (created : Nat → NewRCE) :
    (State.init rce created).Represented uiRCHashFunc fDebug := by
  refine ⟨fun _ => [], ?_⟩
  constructor
  · intro h
    constructor
    · exact fun c hc => absurd hc List.not_mem_nil
    · exact (rfl : (State.init rce created).ver.deref (.chain h) = prceNil)
    · exact List.Pairwise.nil
    · exact List.nodup_nil
  · intro h p
    constructor
    · exact fun hp => absurd hp List.not_mem_nil
    · exact fun hp => absurd hp.1 List.not_mem_nil
  · exact List.nodup_nil
  · exact fun p hp => absurd hp List.not_mem_nil
  · exact fun p hp => absurd hp List.not_mem_nil
  · exact fun p hp => absurd hp List.not_mem_nil
  · rfl

section
variable {uiRCHashFunc : Nat → Nat → BOOKMARK → Nat} {fDebug : Bool} {s : State}
  (hs : s.Represented uiRCHashFunc fDebug)
include hs

/-- A valid operation is defined and the table is represented after it. -/
theorem step_represented {op : Op} (hop : op.Valid s) :
    ∃ err ver, step uiRCHashFunc fDebug op s.ver = some (err, ver)
    ∧ (s.after op err ver).Represented uiRCHashFunc fDebug
    ∧ (err = .JET_errPreviousVersion → op.Redone s) := by
  obtain ⟨B, hT⟩ := hs
  cases op with
  | Insert fRecovering prce r =>
    obtain ⟨hnil, hnew, hr⟩ := hop
    have hT₁ := hT.construct hnew (r.rce uiRCHashFunc fDebug)
    have hrce : (s.ver.setRCE prce (r.rce uiRCHashFunc fDebug)).rce prce =
      r.rce uiRCHashFunc fDebug :=
      Function.update_self _ _ _
    have hT₂ : Table uiRCHashFunc fDebug (s.fInOrder ∧ InOrder s.live s.created fRecovering r)
        (s.ver.setRCE prce (r.rce uiRCHashFunc fDebug)) B s.live s.created := hT₁.mono And.left
    rcases insert_spec hT₂ ⟨hnew, hnil, hrce, hr⟩ And.right with ⟨ver', B', heq, hT'⟩ |
      ⟨hrec, hredone, heq⟩
    · exact ⟨_, _, heq, ⟨B', hT'⟩, fun he => by cases he⟩
    · exact ⟨_, _, heq, ⟨B, hT₁⟩, fun _ => ⟨hrec, hredone⟩⟩
  | Delete prce =>
    obtain ⟨ver', B', heq, hT'⟩ := delete_spec hT hop
    exact ⟨.JET_errSuccess, ver', congrArg (Option.map fun ver => (ERR.JET_errSuccess, ver)) heq,
      ⟨B', hT'⟩,
      fun he => by cases he⟩

end

/-- In every run of insertions and deletions the hash table represents what has been inserted and
not deleted, and every further operation is defined; an insertion fails only in recovery, for an RCE
that is there already. -/
theorem run_hashTable {rce : Nat → RCE} {created : Nat → NewRCE} {ops : List Op} {s : State}
    (hrun : Run (Step uiRCHashFunc fDebug) (.init rce created) ops s) :
    (∃ B, Table uiRCHashFunc fDebug s.fInOrder s.ver B s.live s.created)
      ∧ ∀ op : Op, op.Valid s → ∃ err ver, step uiRCHashFunc fDebug op s.ver = some (err, ver)
        ∧ (err = .JET_errPreviousVersion → op.Redone s) := by
  have hs : s.Represented uiRCHashFunc fDebug := by
    refine hrun.invariant (I := fun s => s.Represented uiRCHashFunc fDebug)
      (fun op s t hs hstep => ?_)
      (represented_init uiRCHashFunc fDebug rce created)
    obtain ⟨hop, err, ver, heq, rfl⟩ := hstep
    obtain ⟨err', ver', heq', hs', -⟩ := step_represented hs hop
    rw [heq] at heq'
    cases heq'
    exact hs'
  refine ⟨hs, fun op hop => ?_⟩
  obtain ⟨err, ver, heq, -, hredone⟩ := step_represented hs hop
  exact ⟨err, ver, heq, hredone⟩

/-- RCEs of one hash bucket, of one node for each `pgnoFDP`. -/
def rceOf (pgnoFDP : Nat) (rceid : RCEID) : NewRCE := ⟨1, pgnoFDP, ⟨[1], []⟩, rceid, prceNil⟩

/-- The table before the first of them. -/
def stateFree : State := .init (fun _ => ⟨0, 0, ⟨[], []⟩, 0, 0, 0, 0, 0⟩) fun _ => rceOf 0 0

/-- Two RCEs of one node are inserted and the newer one is deleted. -/
theorem run_hashTable_two : ∃ s : State, s.live = [1] ∧ s.fInOrder
    ∧ ∃ B, Table (fun _ _ _ => 0) true s.fInOrder s.ver B s.live s.created := by
  have hrun : Run (Step (fun _ _ _ => 0) true) stateFree
      [.Insert false 1 (rceOf 1 1), .Insert false 2 (rceOf 1 2), .Delete 2] _ :=
    .snoc (.snoc (.snoc (.refl _) ⟨⟨by decide, by decide, by decide⟩, _, _, rfl, rfl⟩)
      ⟨⟨by decide, by decide, by decide⟩, _, _, rfl, rfl⟩) ⟨List.mem_cons_self, _, _, rfl, rfl⟩
  refine ⟨_, ?_, ?_, (run_hashTable (fun _ _ _ => 0) true hrun).1⟩
  · rfl
  · refine ⟨⟨trivial, fun _ p hp => absurd hp List.not_mem_nil, 0, by decide, fun p hp =>
      absurd hp List.not_mem_nil⟩,
      fun _ p hp _ => ?_, 0, by decide, fun p hp _ => ?_⟩
    · rw [List.mem_singleton.1 hp]
      decide
    · rw [List.mem_singleton.1 hp]
      decide

/-- Outside of debug builds an RCE that is no longer the head keeps its overflow link; outside of
recovery an RCE goes before the head whatever its rceid; and the comparison of rceids has
circles. -/
theorem chains_not_ordered :
    (∃ ops s, Run (Step (fun _ _ _ => 0) false) stateFree ops s ∧ s.ver.chain 0 = 3
      ∧ s.ver.prcePrevOfNode 3 = 2 ∧ s.ver.prceHashOverflow 2 = 1)
    ∧ (∃ ops s, Run (Step (fun _ _ _ => 0) true) stateFree ops s ∧ s.ver.chain 0 = 2
      ∧ s.ver.prcePrevOfNode 2 = 1 ∧ rceidCmp (s.ver.rce 1).m_rceid (s.ver.rce 2).m_rceid > 0)
    ∧ ∃ ops s, Run (Step (fun _ _ _ => 0) true) stateFree ops s ∧
      (∀ op ∈ ops, ∀ prce r, op ≠ .Insert false prce r)
      ∧ s.ver.chain 0 = 3 ∧ s.ver.prcePrevOfNode 3 = 1
      ∧ rceidCmp (s.ver.rce 1).m_rceid (s.ver.rce 3).m_rceid > 0 := by
  refine ⟨?_, ?_, ?_⟩
  · have hrun : Run (Step (fun _ _ _ => 0) false) stateFree
        [.Insert false 1 (rceOf 1 1), .Insert false 2 (rceOf 2 2), .Insert false 3 (rceOf 2 3)] _ :=
      .snoc (.snoc (.snoc (.refl _) ⟨⟨by decide, by decide, by decide⟩, _, _, rfl, rfl⟩)
        ⟨⟨by decide, by decide, by decide⟩, _, _, rfl, rfl⟩)
        ⟨⟨by decide, by decide, by decide⟩, _, _, rfl, rfl⟩
    exact ⟨_, _, hrun, rfl, rfl, rfl⟩
  · have hrun : Run (Step (fun _ _ _ => 0) true) stateFree
        [.Insert false 1 (rceOf 1 2), .Insert false 2 (rceOf 1 1)] _ :=
      .snoc (.snoc (.refl _) ⟨⟨by decide, by decide, by decide⟩, _, _, rfl, rfl⟩)
        ⟨⟨by decide, by decide, by decide⟩, _, _, rfl, rfl⟩
    exact ⟨_, _, hrun, rfl, rfl, by decide⟩
  · have hrun : Run (Step (fun _ _ _ => 0) true) stateFree
        [.Insert true 1 (rceOf 1 1), .Insert true 2 (rceOf 1 0x70000000),
          .Insert true 3 (rceOf 1 0xD0000000),
          .Delete 2] _ :=
      .snoc (.snoc (.snoc (.snoc (.refl _) ⟨⟨by decide, by decide, by decide⟩, _, _, rfl, rfl⟩)
        ⟨⟨by decide, by decide, by decide⟩, _, _, rfl, rfl⟩)
        ⟨⟨by decide, by decide, by decide⟩, _, _, rfl, rfl⟩)
        ⟨List.mem_cons_of_mem _ List.mem_cons_self, _, _, rfl, rfl⟩
    refine ⟨_, _, hrun, ?_, rfl, rfl, by decide⟩
    intro op hop prce r he
    rw [he] at hop
    simp at hop

end Ese.HashChain
