import Mathlib.Data.List.DropRight
import Mathlib.Data.List.Nodup

/-!
# Waiting for a seal or a flush

Sealing and flushing elect their thread alike. A caller brings two waiters, one that is completed
when somebody takes care of the segments it asks for, perhaps the caller itself, and one that is
completed when they are done. The thread in charge works up to a pending position; one more caller
may be registered to be in charge next, and then works for everybody who waits by then.
-/

namespace Ese.Journal

/-- A waiter of a call. -/
structure CWaiter where
  call : Nat
  spos : Nat
  deriving DecidableEq, Repr

/-- The waiters for a seal (`m_pwaiterSealer`, `m_sposSealPending`, `m_pwaiterNextSealer`,
`m_ilWaitersForSeal`) or for a flush (`m_pwaiterFlusher`, `m_sposDurablePending`,
`m_pwaiterNextFlusher`, `m_ilWaitersForFlush`), with the calls whose waiters `to` and `for` it have
been completed. -/
structure Election where
  pwaiter : Option CWaiter
  sposPending : Nat
  pwaiterNext : Option CWaiter
  ilWaitersFor : List CWaiter
  rgcompleteTo : List Nat
  rgcompleteFor : List Nat
  deriving DecidableEq, Repr

/-- `pwaiter` inserted after the last waiter that is not past it. -/
def insertWaiter (pwaiter : CWaiter) (il : List CWaiter) : List CWaiter :=
  il.rdropWhile (fun w => pwaiter.spos < w.spos) ++
    pwaiter :: il.rtakeWhile fun w => pwaiter.spos < w.spos

namespace Election

variable (e : Election)

/-- `waiterFor->Complete()`. -/
def completeFor (call : Nat) : Election := { e with rgcompleteFor := e.rgcompleteFor ++ [call] }

/-- `waiterTo->Complete()`. -/
def completeTo (call : Nat) : Election := { e with rgcompleteTo := e.rgcompleteTo ++ [call] }

/-- The first half of `PrepareToWaitForSeal` and `PrepareToWaitForFlush`: the call waits unless its
segments are done or the journal is down. -/
def prepareFor (call sposFor sposDone : Nat) (fDown : Bool) : Election :=
  if sposDone < sposFor ∧ !fDown then
    { e with ilWaitersFor := insertWaiter ⟨call, sposFor⟩ e.ilWaitersFor }
  else e.completeFor call

/-- The second half: the call is elected, or registered to be next, or somebody else is. -/
def prepareTo (call sposTo : Nat) : Election :=
  if e.sposPending ≥ sposTo then e.completeTo call
  else if e.pwaiter = none ∧ e.sposPending < sposTo then
    { e with pwaiter := some ⟨call, sposTo⟩, sposPending := sposTo }.completeTo call
  else if (e.pwaiter = none ∨ e.sposPending < sposTo) ∧ e.pwaiterNext = none then
    { e with pwaiterNext := some ⟨call, sposTo⟩ }
  else e.completeTo call

/-- `PrepareToWaitForSeal` and `PrepareToWaitForFlush`. -/
def prepareToWait (call sposTo sposFor sposDone : Nat) (fDown : Bool) : Election :=
  (e.prepareFor call sposFor sposDone fDown).prepareTo call sposTo

/-- The call has to leave the critical section. -/
def fMustWait (call : Nat) : Bool :=
  call ∉ e.rgcompleteTo ∨ e.pwaiter.map (·.call) = some call ∨ call ∉ e.rgcompleteFor

/-- The highest segment anybody waits for. -/
def sposWaitersMax : Nat :=
  max (max (e.pwaiter.elim 0 (·.spos)) (e.pwaiterNext.elim 0 (·.spos)))
    (e.ilWaitersFor.getLast?.elim 0 (·.spos))

/-- `PrepareToReleaseNextSealer` and `PrepareToReleaseNextFlusher`, with the completion that follows
them: the next one is put in charge of all waiters when their segments exist up to `sposReady`. -/
def prepareToReleaseNext (sposReady : Nat) (fDown : Bool) : Election :=
  match e.pwaiter, e.pwaiterNext with
  | none, some pwaiterNext =>
    if sposReady ≥ e.sposWaitersMax ∨ fDown then
      { e with pwaiter := some pwaiterNext, sposPending := e.sposWaitersMax,
               pwaiterNext := none }.completeTo pwaiterNext.call
    else e
  | _, _ => e

/-- Nobody is in charge any more. -/
def release : Election := { e with pwaiter := none }

/-- The waiters up to `spos` are completed, in order. -/
def releaseWaiters (spos : Nat) : Election :=
  { e with
    ilWaitersFor := e.ilWaitersFor.dropWhile (·.spos ≤ spos)
    rgcompleteFor := e.rgcompleteFor ++ (e.ilWaitersFor.takeWhile (·.spos ≤ spos)).map (·.call) }

/-! ## What holds of the waiters -/

/-- The waiters `to` that the election knows. -/
def callsTo : List Nat := e.rgcompleteTo ++ e.pwaiterNext.toList.map (·.call)

/-- The waiters `for` that it knows. -/
def callsFor : List Nat := e.rgcompleteFor ++ e.ilWaitersFor.map (·.call)

/-- The waiters wait in the order of their segments; nobody waits for more than what is pending
unless somebody is next; and no waiter is completed twice, nor will be. -/
structure Inv (e : Election) : Prop where
  sorted : e.ilWaitersFor.Pairwise (·.spos ≤ ·.spos)
  covered : ∀ w ∈ e.ilWaitersFor ++ e.pwaiter.toList,
    w.spos ≤ e.sposPending ∨ e.pwaiterNext.isSome
  onceTo : e.callsTo.Nodup
  onceFor : e.callsFor.Nodup

/-- The call has not brought its waiters yet. -/
structure Fresh (e : Election) (call : Nat) : Prop where
  notTo : call ∉ e.callsTo
  notFor : call ∉ e.callsFor

end Election

/-- A waiter joins the list. -/
theorem insertWaiter_perm (pwaiter : CWaiter) (il : List CWaiter) :
    (insertWaiter pwaiter il).Perm (pwaiter :: il) := by
  unfold insertWaiter
  refine List.perm_middle.trans (List.Perm.cons _ ?_)
  rw [List.rdropWhile_append_rtakeWhile]

/-- The list stays in order. -/
theorem insertWaiter_sorted {pwaiter : CWaiter} {il : List CWaiter}
    (h : il.Pairwise (·.spos ≤ ·.spos)) :
    (insertWaiter pwaiter il).Pairwise (·.spos ≤ ·.spos) := by
  unfold insertWaiter
  have hil := h
  rw [← List.rdropWhile_append_rtakeWhile (p := fun w : CWaiter => pwaiter.spos < w.spos) (l := il),
    List.pairwise_append] at hil
  obtain ⟨hle, hgt, hcross⟩ := hil
  have hafter : ∀ w ∈ il.rtakeWhile (fun w => pwaiter.spos < w.spos), pwaiter.spos < w.spos :=
    fun w hw => by simpa using List.mem_rtakeWhile_imp hw
  -- the last waiter before the place is not past it, and those before it are not either
  have hbefore : ∀ w ∈ il.rdropWhile (fun w => pwaiter.spos < w.spos), w.spos ≤ pwaiter.spos := by
    rcases List.eq_nil_or_concat (il.rdropWhile (fun w => pwaiter.spos < w.spos)) with hnil | hlast
    · rw [hnil]
      exact fun w hw => absurd hw List.not_mem_nil
    · obtain ⟨rest, last, heq⟩ := hlast
      rw [List.concat_eq_append] at heq
      have hnot := List.rdropWhile_last_not (fun w : CWaiter => decide (pwaiter.spos < w.spos)) il
        (by rw [heq]; simp)
      simp only [heq, List.getLast_append_singleton, decide_eq_true_eq, Nat.not_lt] at hnot
      rw [heq, List.pairwise_append] at hle
      intro w hw
      rw [heq, List.mem_append, List.mem_singleton] at hw
      rcases hw with hw | rfl
      · exact (hle.2.2 w hw last (List.mem_singleton_self _)).trans hnot
      · exact hnot
  rw [List.pairwise_append, List.pairwise_cons]
  refine ⟨hle, ⟨fun w hw => (hafter w hw).le, hgt⟩, fun a ha b hb => ?_⟩
  rcases List.mem_cons.1 hb with rfl | hb
  · exact hbefore a ha
  · exact hcross a ha b hb

namespace Election

variable {e : Election} {call c : Nat}

/-- The last waiter waits for the most. -/
theorem Inv.le_sposWaitersMax (h : e.Inv) {w : CWaiter} (hw : w ∈ e.ilWaitersFor) :
    w.spos ≤ e.sposWaitersMax := by
  unfold sposWaitersMax
  refine le_trans ?_ (le_max_right _ _)
  rcases List.eq_nil_or_concat e.ilWaitersFor with hnil | ⟨rest, last, heq⟩
  · rw [hnil] at hw
    exact absurd hw List.not_mem_nil
  · rw [List.concat_eq_append] at heq
    have hsorted := h.sorted
    rw [heq, List.pairwise_append] at hsorted
    rw [heq, List.getLast?_concat]
    rw [heq, List.mem_append, List.mem_singleton] at hw
    rcases hw with hw | rfl
    · exact hsorted.2.2 w hw last (List.mem_singleton_self _)
    · exact le_refl _

/-! ### `prepareFor` -/

/-- The call joins the waiters `for`. -/
theorem callsFor_prepareFor_perm (call sposFor sposDone : Nat) (fDown : Bool) :
    (e.prepareFor call sposFor sposDone fDown).callsFor.Perm (call :: e.callsFor) := by
  unfold prepareFor
  split
  · unfold callsFor
    dsimp only
    have hperm := ((insertWaiter_perm ⟨call, sposFor⟩ e.ilWaitersFor).map (·.call)).append_left
      e.rgcompleteFor
    exact hperm.trans List.perm_middle
  · unfold completeFor callsFor
    dsimp only
    rw [List.append_assoc]
    exact List.perm_middle

/-- The waiters `to` stay. -/
theorem callsTo_prepareFor (call sposFor sposDone : Nat) (fDown : Bool) :
    (e.prepareFor call sposFor sposDone fDown).callsTo = e.callsTo := by
  unfold prepareFor
  split <;> rfl

/-- The elected call stays. -/
theorem pwaiter_prepareFor (call sposFor sposDone : Nat) (fDown : Bool) :
    (e.prepareFor call sposFor sposDone fDown).pwaiter = e.pwaiter := by
  unfold prepareFor
  split <;> rfl

/-- The waiter `for` may ask for more than is pending until the waiter `to` is prepared. -/
structure Preparing (e : Election) (sposFor : Nat) : Prop where
  sorted : e.ilWaitersFor.Pairwise (·.spos ≤ ·.spos)
  covered : ∀ w ∈ e.ilWaitersFor ++ e.pwaiter.toList,
    w.spos ≤ max e.sposPending sposFor ∨ e.pwaiterNext.isSome
  pwaiter : ∀ w ∈ e.pwaiter, w.spos ≤ e.sposPending ∨ e.pwaiterNext.isSome
  onceTo : e.callsTo.Nodup
  onceFor : e.callsFor.Nodup

/-- The first half of waiting leaves the second to do. -/
theorem Inv.prepareFor (h : e.Inv) (hfresh : e.Fresh call) (sposFor sposDone : Nat)
    (fDown : Bool) : (e.prepareFor call sposFor sposDone fDown).Preparing sposFor := by
  have honceFor : (e.prepareFor call sposFor sposDone fDown).callsFor.Nodup :=
    (callsFor_prepareFor_perm call sposFor sposDone fDown).nodup_iff.2
      (List.nodup_cons.2 ⟨hfresh.notFor, h.onceFor⟩)
  have honceTo : (e.prepareFor call sposFor sposDone fDown).callsTo.Nodup := by
    rw [callsTo_prepareFor]
    exact h.onceTo
  have hpwaiter : ∀ w ∈ e.pwaiter, w.spos ≤ e.sposPending ∨ e.pwaiterNext.isSome :=
    fun w hw => h.covered w (List.mem_append_right _ (Option.mem_toList.2 hw))
  unfold Election.prepareFor at *
  split
  · next hwait =>
    rw [if_pos hwait] at honceFor honceTo
    refine ⟨insertWaiter_sorted h.sorted, ?_, hpwaiter, honceTo, honceFor⟩
    intro w hw
    dsimp only at hw ⊢
    rw [List.mem_append, (insertWaiter_perm _ _).mem_iff, List.mem_cons] at hw
    rcases hw with (rfl | hw) | hw
    · exact .inl (le_max_right _ _)
    · exact (h.covered w (List.mem_append_left _ hw)).imp_left fun hle =>
        hle.trans (le_max_left _ _)
    · exact (h.covered w (List.mem_append_right _ hw)).imp_left fun hle =>
        hle.trans (le_max_left _ _)
  · next hwait =>
    rw [if_neg hwait] at honceFor honceTo
    exact ⟨h.sorted, fun w hw => (h.covered w hw).imp_left fun hle => hle.trans (le_max_left _ _),
      hpwaiter, honceTo, honceFor⟩

/-! ### `prepareTo` -/

/-- The call joins the waiters `to`. -/
theorem callsTo_prepareTo_perm (call sposTo : Nat) :
    (e.prepareTo call sposTo).callsTo.Perm (call :: e.callsTo) := by
  have hmiddle : ∀ l : List Nat, (e.rgcompleteTo ++ [call] ++ l).Perm
    (call :: (e.rgcompleteTo ++ l)) := by
    intro l
    rw [List.append_assoc]
    exact List.perm_middle
  unfold prepareTo
  split
  · exact hmiddle _
  split
  · exact hmiddle _
  split
  · next hnext =>
    unfold callsTo
    dsimp only
    rw [hnext.2]
    exact List.perm_middle
  · exact hmiddle _

/-- The waiters `for` stay. -/
theorem callsFor_prepareTo (call sposTo : Nat) :
    (e.prepareTo call sposTo).callsFor = e.callsFor := by
  unfold prepareTo
  split
  · rfl
  split
  · rfl
  split <;> rfl

/-- The one in charge stays in charge. -/
theorem pwaiter_prepareTo (call sposTo : Nat) {w : CWaiter} (h : e.pwaiter = some w) :
    (e.prepareTo call sposTo).pwaiter = some w := by
  unfold prepareTo
  split
  · exact h
  split
  · next hnone => rw [h] at hnone; exact absurd hnone.1 (by simp)
  split <;> exact h

/-- The second half of waiting restores the invariant. -/
theorem Preparing.prepareTo {sposFor : Nat} (h : e.Preparing sposFor) (hfresh : call ∉ e.callsTo)
    {sposTo : Nat} (hle : sposFor ≤ sposTo) : (e.prepareTo call sposTo).Inv := by
  have honceTo : (e.prepareTo call sposTo).callsTo.Nodup :=
    (callsTo_prepareTo_perm call sposTo).nodup_iff.2 (List.nodup_cons.2 ⟨hfresh, h.onceTo⟩)
  have honceFor : (e.prepareTo call sposTo).callsFor.Nodup := by
    rw [callsFor_prepareTo]
    exact h.onceFor
  suffices hmain : (e.prepareTo call sposTo).ilWaitersFor = e.ilWaitersFor ∧
      ∀ w ∈ e.ilWaitersFor ++ (e.prepareTo call sposTo).pwaiter.toList,
        w.spos ≤ (e.prepareTo call sposTo).sposPending ∨
          (e.prepareTo call sposTo).pwaiterNext.isSome by
    refine ⟨by rw [hmain.1]; exact h.sorted, ?_, honceTo, honceFor⟩
    rw [hmain.1]
    exact hmain.2
  unfold Election.prepareTo
  split
  · next hpending =>
    refine ⟨rfl, fun w hw => (h.covered w hw).imp_left fun hw => hw.trans ?_⟩
    exact max_le (le_refl _) (hle.trans hpending)
  next hpending =>
  split
  · -- the call is elected, and what it asks for is pending
    refine ⟨rfl, fun w hw => ?_⟩
    rcases List.mem_append.1 hw with hw | hw
    · refine (h.covered w (List.mem_append_left _ hw)).imp_left fun hw => hw.trans ?_
      exact max_le (Nat.le_of_not_le hpending) hle
    · rw [Option.mem_toList] at hw
      cases hw
      exact .inl (le_refl _)
  split
  · exact ⟨rfl, fun w _ => .inr rfl⟩
  · next helected hnext =>
    refine ⟨rfl, fun w hw => .inr ?_⟩
    cases hn : e.pwaiterNext with
    | some _ =>
      show (e.completeTo call).pwaiterNext.isSome
      rw [completeTo, hn]
      rfl
    | none => exact absurd ⟨.inr (Nat.lt_of_not_le hpending), hn⟩ hnext

/-! ### The operations -/

/-- The call is in charge. -/
def Elected (e : Election) (call : Nat) : Prop := e.pwaiter.map (·.call) = some call

instance (e : Election) (call : Nat) : Decidable (e.Elected call) :=
  inferInstanceAs (Decidable (_ = _))

/-- What an operation does to a call that is not involved. -/
structure Frame (e e' : Election) (c : Nat) : Prop where
  fresh : e.Fresh c → e'.Fresh c
  elected : e.Elected c → e'.Elected c

/-- Nothing has changed for the call. -/
theorem Frame.refl (e : Election) (c : Nat) : Frame e e c := ⟨id, id⟩

/-- An elected call stays elected while its waiter does. -/
theorem elected_of_pwaiter {e' : Election} (h : ∀ {w}, e.pwaiter = some w → e'.pwaiter = some w)
    (hc : e.Elected c) : e'.Elected c := by
  obtain ⟨w, hw, rfl⟩ := Option.map_eq_some_iff.1 hc
  unfold Elected
  rw [h hw]
  rfl

/-- A call that begins to wait keeps the invariant. -/
theorem Inv.prepareToWait (h : e.Inv) (hfresh : e.Fresh call) {sposTo sposFor : Nat}
    (hle : sposFor ≤ sposTo) (sposDone : Nat) (fDown : Bool) :
    (e.prepareToWait call sposTo sposFor sposDone fDown).Inv := by
  refine (h.prepareFor hfresh sposFor sposDone fDown).prepareTo ?_ hle
  rw [callsTo_prepareFor]
  exact hfresh.notTo

/-- For the others a call that begins to wait changes nothing. -/
theorem prepareToWait_frame (sposTo sposFor sposDone : Nat) (fDown : Bool) (hc : c ≠ call) :
    Frame e (e.prepareToWait call sposTo sposFor sposDone fDown) c := by
  unfold Election.prepareToWait
  refine ⟨fun h => ⟨?_, ?_⟩, elected_of_pwaiter fun hw => ?_⟩
  · rw [(callsTo_prepareTo_perm call sposTo).mem_iff, callsTo_prepareFor, List.mem_cons]
    exact fun hmem => hmem.elim hc h.notTo
  · rw [callsFor_prepareTo, (callsFor_prepareFor_perm call sposFor sposDone fDown).mem_iff,
      List.mem_cons]
    exact fun hmem => hmem.elim hc h.notFor
  · exact pwaiter_prepareTo call sposTo ((pwaiter_prepareFor call sposFor sposDone fDown).trans hw)

/-- An election leaves the waiters `to`. -/
theorem prepareToReleaseNext_callsTo (sposReady : Nat) (fDown : Bool) :
    (e.prepareToReleaseNext sposReady fDown).callsTo = e.callsTo := by
  unfold prepareToReleaseNext
  split
  · next hn =>
    split
    · unfold completeTo callsTo
      simp [hn]
    · rfl
  · rfl

/-- An election leaves the waiters `for`. -/
theorem prepareToReleaseNext_callsFor (sposReady : Nat) (fDown : Bool) :
    (e.prepareToReleaseNext sposReady fDown).callsFor = e.callsFor := by
  unfold prepareToReleaseNext
  split
  · split <;> rfl
  · rfl

/-- An election keeps the invariant. -/
theorem Inv.prepareToReleaseNext (h : e.Inv) (sposReady : Nat) (fDown : Bool) :
    (e.prepareToReleaseNext sposReady fDown).Inv := by
  have honceTo : (e.prepareToReleaseNext sposReady fDown).callsTo.Nodup := by
    rw [prepareToReleaseNext_callsTo]
    exact h.onceTo
  have honceFor : (e.prepareToReleaseNext sposReady fDown).callsFor.Nodup := by
    rw [prepareToReleaseNext_callsFor]
    exact h.onceFor
  unfold Election.prepareToReleaseNext at *
  split
  · next w hp hn =>
    split
    · next hready =>
      simp only [hp, hn, if_pos hready] at honceTo honceFor
      refine ⟨h.sorted, fun v hv => .inl ?_, honceTo, honceFor⟩
      rcases List.mem_append.1 hv with hv | hv
      · exact h.le_sposWaitersMax hv
      · rw [Option.mem_toList] at hv
        cases hv
        change w.spos ≤ e.sposWaitersMax
        unfold sposWaitersMax
        rw [hn]
        exact (le_max_right _ _).trans (le_max_left _ _)
    · exact h
  · exact h

/-- An elected call stays elected. -/
theorem prepareToReleaseNext_frame (e : Election) (sposReady : Nat) (fDown : Bool) (c : Nat) :
    Frame e (e.prepareToReleaseNext sposReady fDown) c := by
  refine ⟨fun hc => ⟨?_, ?_⟩, elected_of_pwaiter fun hw => ?_⟩
  · rw [prepareToReleaseNext_callsTo]
    exact hc.notTo
  · rw [prepareToReleaseNext_callsFor]
    exact hc.notFor
  · unfold prepareToReleaseNext
    split
    · next hp _ => rw [hp] at hw; cases hw
    · exact hw

/-- The release of the elected call keeps the invariant. -/
theorem Inv.release (h : e.Inv) : e.release.Inv :=
  ⟨h.sorted, fun w hw =>
    h.covered w (List.mem_append_left _ (by simpa [Election.release] using hw)),
    h.onceTo, h.onceFor⟩

/-- Only the one in charge gives up. -/
theorem release_frame (h : e.Elected call) (hc : c ≠ call) : Frame e e.release c :=
  ⟨fun hc => ⟨hc.notTo, hc.notFor⟩, fun h' => absurd (Option.some.inj (h'.symm.trans h)) hc⟩

/-- A release leaves the waiters `for`, completed or not. -/
theorem releaseWaiters_callsFor (spos : Nat) : (e.releaseWaiters spos).callsFor = e.callsFor := by
  unfold releaseWaiters callsFor
  dsimp only
  rw [List.append_assoc, ← List.map_append, List.takeWhile_append_dropWhile]

/-- The release of waiters keeps the invariant. -/
theorem Inv.releaseWaiters (h : e.Inv) (spos : Nat) : (e.releaseWaiters spos).Inv := by
  have hsub : (e.releaseWaiters spos).ilWaitersFor.Sublist e.ilWaitersFor :=
    List.dropWhile_sublist _
  refine ⟨h.sorted.sublist hsub, fun w hw => h.covered w ?_, h.onceTo, ?_⟩
  · exact (List.mem_append.1 hw).elim (fun hw => List.mem_append_left _ (hsub.subset hw))
      (fun hw => List.mem_append_right _ hw)
  · rw [releaseWaiters_callsFor]
    exact h.onceFor

/-- The elected call stays when waiters are released. -/
theorem releaseWaiters_frame (e : Election) (spos : Nat) (c : Nat) :
    Frame e (e.releaseWaiters spos) c :=
  ⟨fun hc => ⟨hc.notTo, by rw [releaseWaiters_callsFor]; exact hc.notFor⟩, id⟩

/-- Frames compose. -/
theorem Frame.trans {e' e'' : Election} (h : Frame e e' c) (h' : Frame e' e'' c) : Frame e e'' c :=
  ⟨fun hc => h'.fresh (h.fresh hc), fun hc => h'.elected (h.elected hc)⟩

end Election

end Ese.Journal
