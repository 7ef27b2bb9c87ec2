import Mathlib.Data.List.Nodup
import Mathlib.Data.List.Range
import Mathlib.Logic.Equiv.Basic

/-!
# Sorting segments of a sequence

A sequence is a function of its indices, and a segment is the indices from its first component up to
its second. A sequence is rearranged within segments by a permutation that keeps each segment and
fixes what is in none of them; a bound on the entries of a segment is one on its entries afterwards.
A sort of segments rearranges the sequence within them and leaves each ordered.
-/

namespace Ese

variable {α : Type*} {f f' f'' : Nat → α} {p q : Nat × Nat} {ps qs : List (Nat × Nat)} {i j : Nat}

/-- An index of a segment. -/
def Within (p : Nat × Nat) (i : Nat) : Prop := p.1 ≤ i ∧ i < p.2

/-- A segment inside another one. -/
def Inside (p q : Nat × Nat) : Prop := q.1 ≤ p.1 ∧ p.2 ≤ q.2

/-- Segments without an index in common, by their ends. -/
def Separate (p q : Nat × Nat) : Prop := p.2 ≤ q.1 ∨ q.2 ≤ p.1

/-- The entries of a segment are ordered. -/
def OrderedOn (r : α → α → Prop) (p : Nat × Nat) (f : Nat → α) : Prop :=
  ∀ i j, p.1 ≤ i → i < j → j < p.2 → r (f i) (f j)

/-- The sequence is rearranged within segments. -/
def Rearranges (ps : List (Nat × Nat)) (f f' : Nat → α) : Prop :=
  ∃ σ : Equiv.Perm Nat, f' = f ∘ σ ∧ (∀ i, (∀ p ∈ ps, ¬ Within p i) → σ i = i) ∧
    ∀ p ∈ ps, ∀ i, Within p i → Within p (σ i)

theorem Within.inside (h : Within p i) (hpq : Inside p q) : Within q i :=
  ⟨hpq.1.trans h.1, h.2.trans_le hpq.2⟩

theorem Within.apart (h : Within p i) (hpq : Separate p q) : ¬ Within q i := by
  rintro ⟨hle, hlt⟩
  rcases hpq with hpq | hpq
  · exact absurd (h.2.trans_le (hpq.trans hle)) (lt_irrefl _)
  · exact absurd (hlt.trans_le (hpq.trans h.1)) (lt_irrefl _)

theorem Inside.apart {o : Nat × Nat} (h : Inside p q) (hq : Separate q o) : Separate p o :=
  hq.imp (fun hq => h.2.trans hq) fun hq => hq.trans h.1

theorem Separate.symm (h : Separate p q) : Separate q p := Or.symm h

namespace Rearranges

theorem refl (ps : List (Nat × Nat)) (f : Nat → α) : Rearranges ps f f :=
  ⟨Equiv.refl Nat, rfl, fun _ _ => rfl, fun _ _ _ h => h⟩

theorem trans (h : Rearranges ps f f') (h' : Rearranges ps f' f'') : Rearranges ps f f'' := by
  obtain ⟨σ, rfl, hfix, hkeep⟩ := h
  obtain ⟨τ, rfl, hfix', hkeep'⟩ := h'
  refine ⟨τ.trans σ, rfl, fun i hi => ?_, fun p hp i hi => hkeep p hp _ (hkeep' p hp i hi)⟩
  rw [Equiv.trans_apply, hfix' i hi, hfix i hi]

/-- Segments are inside larger ones, and apart from the rest of them. -/
theorem mono (h : Rearranges ps f f') (hps : ∀ p ∈ ps, (∃ q ∈ qs, Inside p q) ∧
    ∀ q ∈ qs, Inside p q ∨ Separate p q) :
    Rearranges qs f f' := by
  obtain ⟨σ, rfl, hfix, hkeep⟩ := h
  refine ⟨σ, rfl, fun i hi => hfix i fun p hp hpi => ?_, fun q hq i hi => ?_⟩
  · obtain ⟨⟨q, hq, hpq⟩, -⟩ := hps p hp
    exact hi q hq (hpi.inside hpq)
  · by_cases hin : ∃ p ∈ ps, Within p i
    · obtain ⟨p, hp, hpi⟩ := hin
      rcases (hps p hp).2 q hq with hpq | hpq
      · exact (hkeep p hp i hpi).inside hpq
      · exact absurd hi (hpi.apart hpq)
    · rwa [hfix i fun p hp hpi => hin ⟨p, hp, hpi⟩]

/-- What is in no segment stays. -/
theorem eq_of_not_within (h : Rearranges ps f f') (hi : ∀ p ∈ ps, ¬ Within p i) : f' i = f i := by
  obtain ⟨σ, rfl, hfix, -⟩ := h
  exact congrArg f (hfix i hi)

/-- A bound on the entries of a segment. -/
theorem forall_within (h : Rearranges ps f f') (hp : p ∈ ps) {P : α → Prop} (hP : ∀ i, Within p i →
    P (f i)) (i : Nat)
    (hi : Within p i) : P (f' i) := by
  obtain ⟨σ, rfl, -, hkeep⟩ := h
  exact hP _ (hkeep p hp i hi)

/-- A segment that is apart from those that are rearranged stays ordered. -/
theorem orderedOn {r : α → α → Prop} (h : Rearranges ps f f') (hq : ∀ p ∈ ps, Separate p q)
    (hf : OrderedOn r q f) :
    OrderedOn r q f' := by
  intro i j hi hij hj
  have hout (k : Nat) (hk : Within q k) : f' k = f k :=
    h.eq_of_not_within fun p hp => hk.apart (hq p hp).symm
  rw [hout i ⟨hi, hij.trans hj⟩, hout j ⟨hi.trans hij.le, hj⟩]
  exact hf i j hi hij hj

/-- Two entries of a segment are exchanged. -/
theorem swap (hi : Within p i) (hj : Within p j) :
    Rearranges [p] f (Function.update (Function.update f i (f j)) j (f i)) := by
  refine ⟨Equiv.swap i j, ?_, fun k hk => ?_, fun q hq k hk => ?_⟩
  · funext k
    rw [Function.comp_apply]
    rcases eq_or_ne k j with rfl | hkj
    · rw [Function.update_self, Equiv.swap_apply_right]
    · rw [Function.update_of_ne hkj]
      rcases eq_or_ne k i with rfl | hki
      · rw [Function.update_self, Equiv.swap_apply_left]
      · rw [Function.update_of_ne hki, Equiv.swap_apply_of_ne_of_ne hki hkj]
  · refine Equiv.swap_apply_of_ne_of_ne ?_ ?_
    · rintro rfl
      exact hk p List.mem_cons_self hi
    · rintro rfl
      exact hk p List.mem_cons_self hj
  · obtain rfl := List.mem_singleton.1 hq
    rcases eq_or_ne k i with rfl | hki
    · rwa [Equiv.swap_apply_left]
    · rcases eq_or_ne k j with rfl | hkj
      · rwa [Equiv.swap_apply_right]
      · rwa [Equiv.swap_apply_of_ne_of_ne hki hkj]

/-- An entry moves up by one to the place of `key`, which takes its place. -/
theorem shift {key : α} (hi : Within p i) (hi' : Within p (i + 1)) :
    Rearranges [p] (Function.update f (i + 1) key)
      (Function.update (Function.update f (i + 1) (f i)) i key) := by
  have h := swap (f := Function.update f (i + 1) key) hi hi'
  rw [Function.update_self, Function.update_of_ne (Nat.lt_succ_self i).ne] at h
  convert h using 1
  funext k
  rcases eq_or_ne k (i + 1) with rfl | hk
  · rw [Function.update_of_ne (Nat.lt_succ_self i).ne', Function.update_self, Function.update_self]
  · rw [Function.update_of_ne hk]
    rcases eq_or_ne k i with rfl | hk'
    · rw [Function.update_self, Function.update_self]
    · rw [Function.update_of_ne hk', Function.update_of_ne hk', Function.update_of_ne hk,
        Function.update_of_ne hk]

/-- The entries of the segment, as a list, are permuted. -/
theorem perm {n : Nat} (h : Rearranges [(0, n)] f f') :
    ((List.range n).map f').Perm ((List.range n).map f) := by
  obtain ⟨σ, rfl, hfix, hkeep⟩ := h
  rw [← List.map_map]
  refine List.Perm.map f ?_
  refine (List.perm_ext_iff_of_nodup (List.nodup_range.map σ.injective) List.nodup_range).2 fun i =>
    ?_
  rw [List.mem_map, List.mem_range]
  constructor
  · rintro ⟨j, hj, rfl⟩
    exact (hkeep _ List.mem_cons_self j ⟨Nat.zero_le j, List.mem_range.1 hj⟩).2
  · intro hi
    refine ⟨σ.symm i, List.mem_range.2 ?_, σ.apply_symm_apply i⟩
    -- an index behind the segment is fixed, so that its image is behind the segment too
    by_contra hout
    have hfixed := hfix (σ.symm i) fun p hp hin => hout ((List.mem_singleton.1 hp ▸ hin).2)
    rw [σ.apply_symm_apply] at hfixed
    exact hout (hfixed ▸ hi)

end Rearranges

/-- The sequence is rearranged within segments and each is ordered then. -/
def Sorts (r : α → α → Prop) (ps : List (Nat × Nat)) (f f' : Nat → α) : Prop :=
  Rearranges ps f f' ∧ ∀ p ∈ ps, OrderedOn r p f'

namespace Sorts

variable {r : α → α → Prop}

/-- Segments that are apart from each other, each with itself or another one. -/
theorem inside_or_apart (h : ps.Pairwise Separate) (hp : p ∈ ps) (hq : q ∈ ps) :
    Inside p q ∨ Separate p q := by
  rcases eq_or_ne p q with rfl | hne
  · exact .inl ⟨le_rfl, le_rfl⟩
  · have : Std.Symm Separate := ⟨fun _ _ => Separate.symm⟩
    exact .inr (h.forall hp hq hne)

/-- A segment is sorted before the ones that are apart from it. -/
theorem cons (h : Sorts r [p] f f') (h' : Sorts r ps f' f'') (hps : (p :: ps).Pairwise Separate) :
    Sorts r (p :: ps) f f'' := by
  obtain ⟨hp, hpairs⟩ := List.pairwise_cons.1 hps
  refine ⟨.trans (h.1.mono fun q hq => ?_) (h'.1.mono fun q hq => ?_), fun q hq => ?_⟩
  · obtain rfl := List.mem_singleton.1 hq
    exact ⟨⟨q, List.mem_cons_self, le_rfl, le_rfl⟩, fun o ho =>
      inside_or_apart hps List.mem_cons_self ho⟩
  · have hmem : q ∈ p :: ps := List.mem_cons_of_mem _ hq
    exact ⟨⟨q, hmem, le_rfl, le_rfl⟩, fun o ho => inside_or_apart hps hmem ho⟩
  · rcases List.mem_cons.1 hq with rfl | hq
    · exact h'.1.orderedOn (fun o ho => (hp o ho).symm) (h.2 q List.mem_cons_self)
    · exact h'.2 q hq

/-- A segment is sorted by the sort of its two parts, if no entry of the lower part comes after one
of the upper part then. The parts are sorted with other segments. -/
theorem of_parts {a b m : Nat} (ham : a ≤ m) (hmb : m ≤ b) (h : Rearranges [(a, b)] f f')
    (hle : ∀ i j, a ≤ i → i < m → m ≤ j → j < b → r (f' i) (f' j)) (h' : Sorts r qs f' f'')
    (hlower : (a, m) ∈ qs)
    (hupper : (m, b) ∈ qs) (hqs : ∀ q ∈ qs, q = (a, m) ∨ q = (m, b) ∨ q ∈ ps)
      (hsub : ∀ p ∈ ps, p ∈ qs)
    (hps : ((a, b) :: ps).Pairwise Separate) : Sorts r ((a, b) :: ps) f f'' := by
  obtain ⟨hp, hpairs⟩ := List.pairwise_cons.1 hps
  have hpart (q : Nat × Nat) (hq : Inside q (a, b)) : (∃ o ∈ (a, b) :: ps, Inside q o) ∧
      ∀ o ∈ (a, b) :: ps, Inside q o ∨ Separate q o := by
    refine ⟨⟨_, List.mem_cons_self, hq⟩, fun o ho => ?_⟩
    rcases List.mem_cons.1 ho with rfl | ho
    · exact .inl hq
    · exact .inr (hq.apart (hp o ho))
  refine ⟨.trans (h.mono fun q hq => ?_) (h'.1.mono fun q hq => ?_), fun q hq => ?_⟩
  · obtain rfl := List.mem_singleton.1 hq
    exact hpart _ ⟨le_rfl, le_rfl⟩
  · rcases hqs q hq with rfl | rfl | hq
    · exact hpart _ ⟨le_rfl, hmb⟩
    · exact hpart _ ⟨ham, le_rfl⟩
    · have hmem : q ∈ (a, b) :: ps := List.mem_cons_of_mem _ hq
      exact ⟨⟨q, hmem, le_rfl, le_rfl⟩, fun o ho => inside_or_apart hps hmem ho⟩
  · rcases List.mem_cons.1 hq with rfl | hq
    · intro i j hi hij hj
      rcases Nat.lt_or_ge j m with hjm | hjm
      · exact h'.2 _ hlower i j hi hij hjm
      · rcases Nat.lt_or_ge i m with him | him
        · -- both entries come from their parts
          refine h'.1.forall_within (P := fun x => r x (f'' j)) hlower (fun i hi => ?_) i ⟨hi, him⟩
          exact h'.1.forall_within hupper (fun j hj => hle i j hi.1 hi.2 hj.1 hj.2) j ⟨hjm, hj⟩
        · exact h'.2 _ hupper i j him hij hj
    · exact h'.2 q (hsub q hq)

end Sorts

end Ese
