import Stratumind.Fusion.BatchObservation

/-!
# Bounded waiting of the scheduler

With a fairness window of `f` turns for each of `n` sources, no open source waits longer than
`f * n + n - 1` turns. Once a source is overdue, every turn serves a source that is ahead of it
and thereby puts that source behind it; the waiting time and the number of sources ahead
together never exceed the bound.
-/

namespace Stratumind

open Lib List Function

namespace DynamicRrfSession

variable {W Id F : Type} {n : ℕ} [LinearOrder Id] [ToString Id] [RankArithmetic F]

/-- The states of runs without pause targets, between the calls and between the turns. -/
inductive ReachedUnpaused (fairness : ℕ) : SessionState W Id F n → Prop
  | new {sources : Fin n → DynamicRrfSource W Id} {sourceBatchSize topK rrfK : ℕ}
    {weights : Option (List F)} {sourceCosts : List F} {policy : DynamicRrfPolicy}
    {session : DynamicRrfSession W Id F n} (w : W) :
    policy.fairnessAfterActionsPerSource = some fairness →
    newWithInputs sources sourceBatchSize topK rrfK weights sourceCosts policy = .ok session →
    ReachedUnpaused fairness (session, w)
  | extend {session next : DynamicRrfSession W Id F n} {w : W} {topK : ℕ} :
    ReachedUnpaused fairness (session, w) → session.extendTopK topK = .ok next →
    ReachedUnpaused fairness (next, w)
  | turn {start next : SessionState W Id F n} : ReachedUnpaused fairness start →
    advanceTurn (fun _ => none) start = some (.again next) → ReachedUnpaused fairness next
  | completion {start next : SessionState W Id F n} {fuel : ℕ}
    {result : OperationResult (DynamicRrfExecution Id n)} : ReachedUnpaused fairness start →
    runToCompletion fuel start = some (result, next) → ReachedUnpaused fairness next
  | firstRanks {start next : SessionState W Id F n} {fuel topK : ℕ}
    {result : OperationResult (DynamicRrfExecution Id n)} : ReachedUnpaused fairness start →
    runToPrefix fuel topK start = some (result, next) → ReachedUnpaused fairness next

/-- The sources that are served before a source once all are overdue. -/
def ahead (session : DynamicRrfSession W Id F n) (source : Fin n) : Finset (Fin n) :=
  Finset.univ.filter fun other =>
    session.sourceLastAdvanced other < session.sourceLastAdvanced source ∨
      session.sourceLastAdvanced other = session.sourceLastAdvanced source ∧ other < source

/-- The waiting time of an open source and the sources ahead of it are bounded together. -/
structure Fair (fairness : ℕ) (session : DynamicRrfSession W Id F n) : Prop where
  policy : session.policy.fairnessAfterActionsPerSource = some fairness
  last_le : ∀ source, session.sourceLastAdvanced source ≤ session.advanceActions
  waiting : ∀ source, session.state.exhausted source = false →
    session.wait source + (session.ahead source).card + 1 ≤ fairness * n + n

variable {session next : DynamicRrfSession W Id F n} {fairness : ℕ}

omit [LinearOrder Id] [ToString Id] [RankArithmetic F] in
theorem card_ahead_lt (session : DynamicRrfSession W Id F n) (source : Fin n) :
    (session.ahead source).card < n := by
  have hnot : source ∉ session.ahead source := by simp [ahead]
  have hlt := Finset.card_lt_univ_of_notMem hnot
  rwa [Fintype.card_fin] at hlt

section

variable (h : session.Fair fairness)

include h

omit [LinearOrder Id] [ToString Id] [RankArithmetic F] in
/-- Fairness does not depend on more than the schedule and the open sources. -/
theorem Fair.of_schedule (hpolicy : next.policy = session.policy)
    (hactions : next.advanceActions = session.advanceActions)
    (hlast : next.sourceLastAdvanced = session.sourceLastAdvanced)
    (hopen : ∀ source, next.state.exhausted source = false →
      session.state.exhausted source = false) : next.Fair fairness := by
  refine ⟨by rw [hpolicy, h.policy], ?_, fun source hsource => ?_⟩
  · rw [hlast, hactions]
    exact h.last_le
  · have hwaiting := h.waiting source (hopen source hsource)
    unfold wait ahead at hwaiting ⊢
    rwa [hlast, hactions]

omit [LinearOrder Id] [ToString Id] in
/-- Where a source is overdue, the selected one is ahead of it. -/
theorem mem_ahead_of_overdue {source selected : Fin n}
    (hselected : session.selectSourceToAdvance (fun _ => none) = some selected)
    (hopen : session.state.exhausted source = false)
    (hoverdue : saturatingMul fairness n ≤ session.wait source) (hne : source ≠ selected) :
    selected ∈ session.ahead source := by
  have hmem : source ∈ (finRange n).filter fun source =>
      (session.state.nextPossibleContribution source).isSome &&
        session.belowPauseTarget (fun _ => none) source &&
        session.wait source ≥ saturatingMul fairness n := by
    refine mem_filter.mpr ⟨mem_finRange source, ?_⟩
    simp [nextPossibleContribution_isSome.mpr hopen, belowPauseTarget, hoverdue]
  have hserved : session.overdueSource (fun _ => none) fairness = some selected := by
    unfold selectSourceToAdvance at hselected
    rw [h.policy, Option.bind_some] at hselected
    cases hfound : session.overdueSource (fun _ => none) fairness with
    | some found =>
      rw [hfound, Option.some_or] at hselected
      exact hselected
    | none =>
      rw [overdueSource, maxBy_eq_none] at hfound
      rw [hfound] at hmem
      cases hmem
  let key (source : Fin n) := OrderDual.toDual (rankKey (session.wait source) source)
  have hcompare : ∀ left right, (compare (session.wait left) (session.wait right)).then
      (compare right left) = compare (key left) (key right) := fun _ _ => rfl
  have hle := maxBy_le hcompare hserved source hmem
  rw [OrderDual.toDual_le_toDual, rankKey_le_iff] at hle
  have hlast := h.last_le selected
  unfold wait at hle
  unfold ahead
  grind

omit [LinearOrder Id] [ToString Id] in
/-- Serving the selected source keeps the bound. -/
theorem Fair.schedule {selected : Fin n}
    (hselected : session.selectSourceToAdvance (fun _ => none) = some selected) :
    (session.schedule selected).Fair fairness := by
  refine ⟨h.policy, fun source => ?_, fun source hopen => ?_⟩
  · change update session.sourceLastAdvanced selected _ source ≤
      session.advanceActions + 1
    by_cases heq : source = selected
    · rw [heq, update_self]
    · rw [update_of_ne heq]
      exact (h.last_le source).trans (Nat.le_succ _)
  have hbound := card_ahead_lt (session.schedule selected) source
  have hlast := h.last_le source
  by_cases heq : source = selected
  · have hzero : (session.schedule selected).wait source = 0 := by
      simp [wait, DynamicRrfSession.schedule, heq]
    omega
  have hwait : (session.schedule selected).wait source = session.wait source + 1 := by
    simp only [wait, DynamicRrfSession.schedule, update_of_ne heq]
    omega
  have hsubset : (session.schedule selected).ahead source ⊆
      (session.ahead source).erase selected := by
    intro other hother
    simp only [ahead, DynamicRrfSession.schedule, Finset.mem_filter, Finset.mem_univ, true_and,
      update_of_ne heq] at hother
    have hother' : other ≠ selected := by
      rintro rfl
      rw [update_self] at hother
      omega
    simpa [ahead, hother'] using hother
  have hcard := Finset.card_le_card hsubset
  by_cases hoverdue : saturatingMul fairness n ≤ session.wait source
  · have hmem := mem_ahead_of_overdue h hselected hopen hoverdue heq
    have herase := Finset.card_erase_add_one hmem
    have hwaiting := h.waiting source hopen
    omega
  · have hwindow : saturatingMul fairness n ≤ fairness * n := min_le_left _ _
    omega

/-- A turn keeps the bound, however it ends. -/
theorem Fair.advanceTurn {w : W} {ended}
    (hended : advanceTurn (fun _ => none) (session, w) = some ended) :
    ended.Keeps (fun after => after.1.Fair fairness) fun outcome => outcome.2.1.Fair fairness := by
  have hsame : ∀ {other : DynamicRrfSession W Id F n}, SameSchedule session other →
      other.Fair fairness := fun hother =>
    h.of_schedule hother.policy_eq hother.advanceActions_eq hother.sourceLastAdvanced_eq
      fun source hsource => by rwa [hother.state_eq] at hsource
  rcases advanceTurn_cases (fun _ => none) session w with
    ⟨execution, other, hother, -, hturn⟩ | ⟨other, hother, -, -, hturn⟩ |
    ⟨mid, selected, hother, -, hselected, hturn⟩
  · cases hturn.symm.trans hended
    exact hsame hother
  · cases hturn.symm.trans hended
    exact hsame hother
  have hscheduled := (hsame hother).schedule hselected
  cases hturn.symm.trans hended
  unfold advance
  dsimp only
  cases hpull : (mid.schedule selected).pull selected w with
  | mk pulled w' =>
    cases pulled with
    | error error => exact hscheduled
    | ok batch =>
      dsimp only
      split
      · exact hscheduled
      cases hobserve : (mid.schedule selected).state.observeBatch selected batch with
      | error error => exact hscheduled
      | ok state =>
        refine hscheduled.of_schedule rfl rfl rfl fun source hsource => ?_
        change state.exhausted source = false at hsource
        obtain ⟨⟨_, hopen, -⟩, _, rfl⟩ := DynamicRrfState.observeBatch_eq_ok_iff.mp hobserve
        by_cases heq : source = selected
        · rw [heq]
          exact hopen
        · rwa [DynamicRrfState.applyBatch_exhausted hopen, update_of_ne heq] at hsource

/-- A run to completion keeps the bound. -/
theorem Fair.runToCompletion {w : W} {fuel : ℕ}
    {result : OperationResult (DynamicRrfExecution Id n)} {after : SessionState W Id F n}
    (hrun : runToCompletion fuel (session, w) = some (result, after)) : after.1.Fair fairness := by
  have hloop : ∀ outcome after, advanceUntilEach fuel (replicate n none) (session, w) =
      some (outcome, after) → after.1.Fair fairness := by
    intro outcome after hadvance
    unfold advanceUntilEach at hadvance
    have hlength : (replicate n (none : Option ℕ)).length = n := length_replicate
    simp only [hlength, dif_pos, get_eq_getElem, getElem_replicate] at hadvance
    exact @runLoop_invariant _ _ _ (fun state => state.1.Fair fairness)
      (fun outcome => outcome.2.1.Fair fairness) (fun _ _ hstate => Fair.advanceTurn hstate)
      _ _ _ h hadvance
  unfold DynamicRrfSession.runToCompletion at hrun
  grind

variable {topK : ℕ}

omit [LinearOrder Id] [ToString Id] [RankArithmetic F] in
theorem Fair.extendTopK (hextend : session.extendTopK topK = .ok next) : next.Fair fairness := by
  unfold DynamicRrfSession.extendTopK at hextend
  dsimp only at hextend
  split at hextend
  · cases hextend
  · cases hextend
    exact h.of_schedule rfl rfl rfl fun _ hsource => hsource

theorem Fair.runToPrefix {w : W} {fuel : ℕ} {result : OperationResult (DynamicRrfExecution Id n)}
    {after : SessionState W Id F n}
    (hrun : runToPrefix fuel topK (session, w) = some (result, after)) : after.1.Fair fairness := by
  unfold DynamicRrfSession.runToPrefix at hrun
  split at hrun
  · cases hrun
    exact h
  rename_i extended hextend
  have hextended := h.extendTopK hextend
  split at hrun
  · cases hrun
    exact hextended
  split at hrun
  · cases hrun
  · rename_i hcompletion
    cases hrun
    exact hextended.runToCompletion hcompletion
  rename_i hcompletion
  have hafter := hextended.runToCompletion hcompletion
  split at hrun <;> cases hrun
  · exact hafter.of_schedule rfl rfl rfl fun _ hsource => hsource
  · exact hafter

end

omit [LinearOrder Id] [ToString Id] in
/-- A new session has made no turn. -/
theorem fair_of_newWithInputs {sources : Fin n → DynamicRrfSource W Id} {sourceBatchSize rrfK : ℕ}
    {weights : Option (List F)} {sourceCosts : List F} {policy : DynamicRrfPolicy}
    (hpolicy : policy.fairnessAfterActionsPerSource = some fairness)
    (hnew : newWithInputs sources sourceBatchSize topK rrfK weights sourceCosts policy =
      .ok session) : session.Fair fairness := by
  unfold newWithInputs at hnew
  repeat (split at hnew; · cases hnew)
  split at hnew
  · split at hnew
    · cases hnew
    split at hnew
    · cases hnew
    obtain rfl := Except.ok.inj hnew
    refine ⟨hpolicy, fun source => Nat.le_refl 0, fun source _ => ?_⟩
    unfold wait
    rw [Nat.sub_self, Nat.zero_add]
    exact Nat.le_add_left_of_le (card_ahead_lt _ source)
  · cases hnew

theorem ReachedUnpaused.fair {start : SessionState W Id F n}
    (h : ReachedUnpaused fairness start) : start.1.Fair fairness := by
  induction h with
  | new w hpolicy hnew => exact fair_of_newWithInputs hpolicy hnew
  | extend _ hextend ih => exact ih.extendTopK hextend
  | turn _ hturn ih => exact Fair.advanceTurn ih hturn
  | completion _ hrun ih => exact Fair.runToCompletion ih hrun
  | firstRanks _ hrun ih => exact Fair.runToPrefix ih hrun

/-- In every state of runs without pause targets, no open source has waited for more than
`f * n + n - 1` turns. -/
theorem fusion_bounded_waiting {start : SessionState W Id F n} (h : ReachedUnpaused fairness start)
    (source : Fin n) (hopen : start.1.state.exhausted source = false) :
    start.1.advanceActions - start.1.sourceLastAdvanced source ≤ fairness * n + n - 1 := by
  have hwaiting := h.fair.waiting source hopen
  unfold wait at hwaiting
  omega

/-- A number of turns of the driver loop, none of which ends it. -/
def turns : ℕ → SessionState W Id F n → Option (SessionState W Id F n)
  | 0, start => some start
  | count + 1, start =>
    match advanceTurn (fun _ => none) start with
    | some (.again next) => turns count next
    | _ => none

theorem ReachedUnpaused.turns {count : ℕ} {start next : SessionState W Id F n}
    (h : ReachedUnpaused fairness start) (hturns : turns count start = some next) :
    ReachedUnpaused fairness next := by
  induction count generalizing start with
  | zero =>
    cases hturns
    exact h
  | succ count ih =>
    rw [DynamicRrfSession.turns] at hturns
    split at hturns
    · rename_i middle hmiddle
      exact ih (h.turn hmiddle) hturns
    · cases hturns

end DynamicRrfSession

open DynamicRrfSession in
/-- The first of three sources outweighs the others. After three turns both others are overdue;
the second is served, and the third has waited for four turns. -/
theorem fusion_bounded_waiting_three_sources :
    let sources : Fin 3 → DynamicRrfSource (Fin 3 → ℕ) ℕ := fun source =>
      .point fun w => (some (.ok (w source)), update w source (w source + 1))
    let policy : DynamicRrfPolicy := { DynamicRrfPolicy.default with
      scheduler := .maxNextContribution, fairnessAfterActionsPerSource := some 1 }
    ∃ (session : DynamicRrfSession (Fin 3 → ℕ) ℕ ℚ 3) (next : SessionState (Fin 3 → ℕ) ℕ ℚ 3),
      newWithInputs sources 1 9 60 (some [9, 1, 1]) [1, 1, 1] policy = .ok session ∧
      turns 4 (session, fun _ => 0) = some next ∧ next.1.sourceSchedule = [0, 0, 0, 1] ∧
      next.1.advanceActions - next.1.sourceLastAdvanced 2 = 4 ∧
      next.1.advanceActions - next.1.sourceLastAdvanced 2 ≤ 1 * 3 + 3 - 1 := by
  intro sources policy
  have hrun : ((newWithInputs sources 1 9 60 (some [(9 : ℚ), 1, 1]) [1, 1, 1] policy).toOption.bind
      fun session => (turns 4 (session, fun _ => 0)).map fun next => (next.1.sourceSchedule,
        next.1.advanceActions, next.1.sourceLastAdvanced 2, next.1.state.exhausted 2)) =
      some ([0, 0, 0, 1], 4, 0, false) := by decide +kernel
  obtain ⟨session, hsession, hrun⟩ := Option.bind_eq_some_iff.mp hrun
  obtain ⟨next, hturns, hnext⟩ := Option.map_eq_some_iff.mp hrun
  have hsession : newWithInputs sources 1 9 60 (some [(9 : ℚ), 1, 1]) [1, 1, 1] policy =
      .ok session := by
    generalize newWithInputs sources 1 9 60 (some [(9 : ℚ), 1, 1]) [1, 1, 1] policy = result at *
    cases result with
    | error _ => cases hsession
    | ok _ => exact congrArg Except.ok (Option.some.inj hsession)
  simp only [Prod.mk.injEq] at hnext
  obtain ⟨hschedule, hactions, hlast, hopen⟩ := hnext
  refine ⟨session, next, hsession, hturns, hschedule, by rw [hactions, hlast], ?_⟩
  exact fusion_bounded_waiting (.turns (.new (fun _ => 0) rfl hsession) hturns) 2 hopen

/-!
### The driver loop ends

Over sources that deliver finitely many identities, every call of the driver loop returns: a
turn that goes on either ends a source or observes an identity for the first time. The loop
pauses only where it was asked to.
-/

variable {W Id F : Type} {n : ℕ}

/-- In every world that its pulls lead to, a source delivers identities of a finite set. -/
def DynamicRrfSource.DeliversWithin (reachable : W → Prop) (ids : Finset Id) (batchSize : ℕ) :
    DynamicRrfSource W Id → Prop
  | .point stream => ∀ w, reachable w →
    (∀ id, (stream w).1 = some (.ok id) → id ∈ ids) ∧ reachable (stream w).2
  | .batch pull => ∀ w, reachable w →
    (∀ batch, (pull batchSize w).1 = .ok batch → ∀ id ∈ batch.pointIds, id ∈ ids) ∧
      reachable (pull batchSize w).2

namespace DynamicRrfState

variable [LinearOrder Id] {state : DynamicRrfState Id F n}

/-- What a source may still bring: its end, and identities that it has not delivered. -/
def outstanding (ids : Finset Id) (state : DynamicRrfState Id F n) (source : Fin n) : ℕ :=
  (if state.exhausted source then 0 else 1) +
    (ids.filter fun id => (state.contribution source id).isNone).card

/-- What all sources may still bring. -/
def totalOutstanding (ids : Finset Id) (state : DynamicRrfState Id F n) : ℕ :=
  ∑ source, state.outstanding ids source

variable [ToString Id] [RankArithmetic F]

/-- Every batch that is taken brings something. -/
theorem totalOutstanding_lt {ids : Finset Id} {source : ℕ} {batch : ChannelRankBatch Id}
    {next : DynamicRrfState Id F n} (h : state.observeBatch source batch = .ok next)
    (hids : ∀ id ∈ batch.pointIds, id ∈ ids) :
    next.totalOutstanding ids < state.totalOutstanding ids := by
  obtain ⟨⟨hsource, hopen, -, hempty, hnodup, hnew⟩, _, rfl⟩ := observeBatch_eq_ok_iff.mp h
  have hsubset : ∀ other, (ids.filter fun id =>
      ((state.applyBatch ⟨source, hsource⟩ batch).contribution other id).isNone) ⊆
      ids.filter fun id => (state.contribution other id).isNone := by
    intro other id hid
    rw [Finset.mem_filter, contribution_applyBatch hnodup] at hid
    grind
  refine Finset.sum_lt_sum (fun other _ => ?_) ⟨⟨source, hsource⟩, Finset.mem_univ _, ?_⟩
  · have hcard := Finset.card_le_card (hsubset other)
    unfold outstanding
    rw [applyBatch_exhausted hopen]
    grind
  have hcard := Finset.card_le_card (hsubset ⟨source, hsource⟩)
  unfold outstanding
  rw [applyBatch_exhausted hopen, Function.update_self, hopen]
  cases hend : batch.exhausted with
  | true =>
    simp only [if_true, Bool.false_eq_true, if_false]
    omega
  | false =>
    obtain ⟨first, hfirst⟩ : ∃ first, first ∈ batch.pointIds :=
      exists_mem_of_ne_nil _ fun hnil => hempty ⟨hnil, hend⟩
    have hlt : _ < _ := Finset.card_lt_card (Finset.ssubset_iff_of_subset
      (hsubset ⟨source, hsource⟩) |>.mpr ⟨first, ?_, ?_⟩)
    · omega
    · exact Finset.mem_filter.mpr ⟨hids first hfirst, by rw [hnew first hfirst]; rfl⟩
    · rw [Finset.mem_filter, contribution_applyBatch hnodup, if_pos ⟨rfl, hfirst⟩]
      simp

end DynamicRrfState

namespace DynamicRrfSession

/-- All sources deliver identities of one finite set. -/
def FiniteSources (session : DynamicRrfSession W Id F n) (reachable : W → Prop)
    (ids : Finset Id) : Prop :=
  ∀ source, (session.sources source).DeliversWithin reachable ids session.sourceBatchSize

variable {session : DynamicRrfSession W Id F n} {reachable : W → Prop} {ids : Finset Id}

theorem FiniteSources.pull (h : session.FiniteSources reachable ids) (source : Fin n) {w : W}
    (hw : reachable w) :
    (∀ batch, (session.pull source w).1 = .ok batch → ∀ id ∈ batch.pointIds, id ∈ ids) ∧
      reachable (session.pull source w).2 := by
  have hsource := h source
  unfold DynamicRrfSession.pull
  cases hkind : session.sources source with
  | batch pull =>
    rw [hkind] at hsource
    exact hsource w hw
  | point stream =>
    rw [hkind] at hsource
    obtain ⟨hid, hnext⟩ := hsource w hw
    grind

variable [LinearOrder Id] [RankArithmetic F]

/-- At least one target is set, every set target is met or its source has ended, and the order
is not fixed. -/
structure PausedAsAsked (minimumPulls : List (Option ℕ)) (session : DynamicRrfSession W Id F n) :
    Prop where
  asked : ∃ target, some target ∈ minimumPulls
  reached : ∀ (source : Fin n) (target : ℕ), minimumPulls[source.val]? = some (some target) →
    target ≤ session.sourcePulls source ∨ session.state.exhausted source = true
  notFixed : session.state.fixedTopK = none

theorem pausedAsAsked_of_pauseReached {minimumPulls : List (Option ℕ)}
    (hlength : minimumPulls.length = n)
    (hpause : session.pauseReached (fun source =>
      minimumPulls.get (source.cast hlength.symm)) = true)
    (hfixed : session.state.fixedTopK = none) : session.PausedAsAsked minimumPulls := by
  unfold pauseReached at hpause
  rw [Bool.and_eq_true, any_eq_true, all_eq_true] at hpause
  obtain ⟨⟨gating, -, hgating⟩, hall⟩ := hpause
  refine ⟨?_, fun source target htarget => ?_, hfixed⟩
  · obtain ⟨target, htarget⟩ := Option.isSome_iff_exists.mp hgating
    exact ⟨target, htarget ▸ get_mem _ _⟩
  · have hsource := hall source (mem_finRange source)
    obtain ⟨_, hget⟩ := List.getElem?_eq_some_iff.mp htarget
    simpa [hget] using hsource

variable [ToString Id]

/-- A turn stops, and pauses only where asked, or leaves less to come. -/
theorem FiniteSources.advanceTurn (h : session.FiniteSources reachable ids) {w : W}
    (hw : reachable w) {minimumPulls : List (Option ℕ)} (hlength : minimumPulls.length = n) :
    (∃ result, advanceTurn (fun source =>
        minimumPulls.get (source.cast hlength.symm)) (session, w) = some (.stop result) ∧
      (result.1 = .ok .paused → result.2.1.PausedAsAsked minimumPulls)) ∨
    ∃ next, advanceTurn (fun source =>
        minimumPulls.get (source.cast hlength.symm)) (session, w) = some (.again next) ∧
      (next.1.FiniteSources reachable ids ∧ reachable next.2) ∧
      next.1.state.totalOutstanding ids < session.state.totalOutstanding ids := by
  rcases advanceTurn_cases (fun source => minimumPulls.get (source.cast hlength.symm)) session w
    with ⟨execution, next, -, -, hturn⟩ | ⟨next, hsame, hpause, hfixed, hturn⟩ |
      ⟨mid, source, hsame, -, -, hturn⟩
  · exact Or.inl ⟨_, hturn, by simp⟩
  · refine Or.inl ⟨_, hturn, fun _ => ?_⟩
    refine pausedAsAsked_of_pauseReached hlength ?_ ?_
    · rw [pauseReached_of_sameCore hsame.toSameCore, hpause]
    · rw [hsame.state_eq, hfixed]
  rw [hturn]
  have hmid : (mid.schedule source).FiniteSources reachable ids := by
    unfold FiniteSources schedule
    rw [hsame.sources_eq, hsame.sourceBatchSize_eq]
    exact h
  obtain ⟨hdelivered, hnext⟩ := hmid.pull source hw
  unfold advance
  dsimp only
  cases hpull : (mid.schedule source).pull source w with
  | mk pulled next =>
    rw [hpull] at hdelivered hnext
    cases pulled with
    | error error => exact Or.inl ⟨_, rfl, by simp⟩
    | ok batch =>
      dsimp only
      split
      · exact Or.inl ⟨_, rfl, by simp⟩
      cases hobserve : (mid.schedule source).state.observeBatch source batch with
      | error error => exact Or.inl ⟨_, rfl, by simp⟩
      | ok state =>
        refine Or.inr ⟨_, rfl, ⟨hmid, hnext⟩, ?_⟩
        have hlt := DynamicRrfState.totalOutstanding_lt hobserve (hdelivered batch rfl)
        rwa [show (mid.schedule source).state = session.state from hsame.state_eq] at hlt

/-- Every call of the driver loop returns. -/
theorem FiniteSources.advanceUntilEach_returns (h : session.FiniteSources reachable ids) {w : W}
    (hw : reachable w) (minimumPulls : List (Option ℕ)) :
    ∃ result, Returns (fun fuel => advanceUntilEach fuel minimumPulls (session, w)) result ∧
      (result.1 = .ok .paused → result.2.1.PausedAsAsked minimumPulls) := by
  unfold advanceUntilEach
  by_cases hlength : minimumPulls.length = n
  · simp only [hlength, dif_pos]
    let inv (state : SessionState W Id F n) : Prop :=
      state.1.FiniteSources reachable ids ∧ reachable state.2
    have hinv : inv (session, w) := ⟨h, hw⟩
    obtain ⟨result, hpost, hrun⟩ := exists_runLoop
      (fun state : SessionState W Id F n => state.1.state.totalOutstanding ids)
      (fun state (hstate : inv state) => hstate.1.advanceTurn hstate.2 hlength) hinv
    exact ⟨result, ⟨_, hrun⟩, hpost⟩
  · simp only [hlength, dif_neg, not_false_eq_true]
    exact ⟨_, returns_some _, by simp⟩

/-- Over finite sources every call returns without a panic, pauses only where asked, and
without pause targets never pauses. -/
theorem fusion_driver_total (h : session.FiniteSources reachable ids) {w : W} (hw : reachable w) :
    (∀ minimumPulls, ∃ result,
      Returns (fun fuel => advanceUntilEach fuel minimumPulls (session, w)) result ∧
      (result.1 = .ok .paused → result.2.1.PausedAsAsked minimumPulls)) ∧
    ∃ result, Returns (fun fuel => runToCompletion fuel (session, w)) result := by
  refine ⟨h.advanceUntilEach_returns hw, ?_⟩
  obtain ⟨⟨advanced, next⟩, ⟨enough, hrun⟩, hpause⟩ :=
    h.advanceUntilEach_returns hw (replicate n none)
  unfold runToCompletion
  rcases advanced with error | (execution | _)
  · exact ⟨(.error error, next), enough, fun fuel hfuel => by simp only [hrun fuel hfuel]⟩
  · exact ⟨(.ok execution, next), enough, fun fuel hfuel => by simp only [hrun fuel hfuel]⟩
  · obtain ⟨target, htarget⟩ := (hpause rfl).asked
    cases eq_of_mem_replicate htarget

end DynamicRrfSession

open DynamicRrfSession in
/-- Two sources with two and three identities. -/
theorem fusion_driver_total_two_sources :
    let sources : Fin 2 → DynamicRrfSource (Fin 2 → ℕ) ℕ := fun source =>
      .point fun w => (if w source < 2 + source then some (.ok (w source)) else none,
        Function.update w source (w source + 1))
    ∃ session : DynamicRrfSession (Fin 2 → ℕ) ℕ ℚ 2,
      newWithInputs sources 1 2 60 none [1, 1] .default = .ok session ∧
      (∀ minimumPulls, ∃ result,
        Returns (fun fuel => advanceUntilEach fuel minimumPulls (session, fun _ => 0)) result ∧
        (result.1 = .ok .paused → result.2.1.PausedAsAsked minimumPulls)) ∧
      ∃ result, Returns (fun fuel => runToCompletion fuel (session, fun _ => 0)) result := by
  intro sources
  have hsession : newWithInputs sources 1 2 60 none [(1 : ℚ), 1] .default = .ok _ := rfl
  suffices hfinite : FiniteSources _ (fun _ => True) (Finset.range 4) from
    ⟨_, hsession, fusion_driver_total hfinite trivial⟩
  refine fun source w _ => ⟨fun id hid => ?_, trivial⟩
  dsimp only at hid
  split at hid
  · cases hid
    exact Finset.mem_range.mpr (by omega)
  · cases hid

end Stratumind
