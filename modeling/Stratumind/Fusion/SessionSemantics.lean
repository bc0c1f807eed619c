import Stratumind.Fusion.Exhaustive
import Stratumind.Fusion.Session

/-!
# What a fusion state knows

A state tracks complete source lists when it holds the contributions of a prefix of
each. Its bounds then enclose every total score, so a fixed prefix is a prefix of the
exhaustive order whatever the unread tails hold.
-/

namespace Stratumind

open Lib List Function

namespace DynamicRrfState

variable {Id F : Type} {n : ℕ} [LinearOrder Id]

/-- Every entry of the point table holds the contributions of its identity. -/
theorem contributions_of_mem {state : DynamicRrfState Id F n}
    {entry : Σ _ : Id, PartialRrfPoint F n} (h : entry ∈ state.points.entries) (source : Fin n) :
    entry.2.contributions source = state.contribution source entry.1 := by
  have hlookup : state.points.lookup entry.1 = some entry.2 := AList.mem_lookup_iff.mpr h
  rw [contribution, hlookup, Option.bind_some]

variable [RankArithmetic F] (state : DynamicRrfState Id F n)

/-- The score an identity has received so far. -/
def observedScore (id : Id) : F :=
  sumScores ((finRange n).map fun source => (state.contribution source id).getD 0)

/-- The largest score an identity can still reach. -/
def possibleScore (id : Id) : F :=
  sumScores ((finRange n).map fun source =>
    (state.contribution source id).getD (state.nextContributions source))

/-- The state holds the contributions of `history`, a prefix of the complete lists. -/
structure Tracks (state : DynamicRrfState Id F n) (history lists : Fin n → List Id) : Prop where
  rrfK_pos : 0 < state.rrfK
  contribution_eq : ∀ source id, state.contribution source id =
    if id ∈ history source then
      some (positionScore ((history source).idxOf id) state.rrfK (state.weights source))
    else none
  nextPositions_eq : ∀ source, state.nextPositions source = (history source).length
  history_isPrefix : ∀ source, history source <+: lists source
  complete_of_exhausted : ∀ source, state.exhausted source = true →
    history source = lists source

/-- The exhaustive order of the complete lists under the state's parameters. -/
def exactOrder (lists : Fin n → List Id) : List Id :=
  exhaustiveOrder state.rrfK state.weights lists

section Bounds

variable {state : DynamicRrfState Id F n} {history lists : Fin n → List Id}

/-- The lower bound of an observed point is its observed score. -/
theorem lowerBound_of_mem {entry : Σ _ : Id, PartialRrfPoint F n}
    (h : entry ∈ state.points.entries) : entry.2.lowerBound = state.observedScore entry.1 := by
  simp only [PartialRrfPoint.lowerBound, observedScore, contributions_of_mem h]

/-- The upper bound of an observed point is its possible score. -/
theorem upperBound_of_mem {entry : Σ _ : Id, PartialRrfPoint F n}
    (h : entry ∈ state.points.entries) :
    entry.2.upperBound state.nextContributions = state.possibleScore entry.1 := by
  simp only [PartialRrfPoint.upperBound, possibleScore, contributions_of_mem h]

omit [LinearOrder Id] in
/-- No contribution a source can still make is negative. -/
theorem nextContributions_nonneg (hk : 0 < state.rrfK) (source : Fin n) :
    0 ≤ state.nextContributions source := by
  unfold nextContributions nextPossibleContribution
  split
  · exact le_refl _
  · exact positionScore_nonneg hk _ _

omit [LinearOrder Id] in
/-- The bound of unseen points is not negative. -/
theorem unseenUpperBound_nonneg (hk : 0 < state.rrfK) : 0 ≤ state.unseenUpperBound := by
  apply sumScores_nonneg
  intro s hs
  obtain ⟨source, _, rfl⟩ := mem_map.mp hs
  exact nextContributions_nonneg hk source

section

variable (h : state.Tracks history lists)

include h

private theorem Tracks.contribution_bounds (source : Fin n) (id : Id) :
    (state.contribution source id).getD 0 ≤
        listContribution state.rrfK (state.weights source) (lists source) id ∧
      listContribution state.rrfK (state.weights source) (lists source) id ≤
        (state.contribution source id).getD (state.nextContributions source) := by
  obtain ⟨rest, hrest⟩ := h.history_isPrefix source
  rw [h.contribution_eq, listContribution, ← hrest]
  by_cases hid : id ∈ history source
  · rw [if_pos hid, if_pos (mem_append_left _ hid), idxOf_append_of_mem hid]
    exact ⟨le_rfl, le_rfl⟩
  rw [if_neg hid, Option.getD_none, Option.getD_none, idxOf_append_of_notMem hid]
  split
  · have hopen : state.exhausted source = false := by
      by_contra hexhausted
      have hcomplete := h.complete_of_exhausted source (by simpa using hexhausted)
      exact hid (by rwa [hcomplete, ← hrest])
    refine ⟨positionScore_nonneg h.rrfK_pos _ _, ?_⟩
    rw [nextContributions, nextPossibleContribution, hopen, if_neg (by simp),
      Option.getD_some, h.nextPositions_eq]
    exact positionScore_antitone h.rrfK_pos (by omega) _
  · exact ⟨le_rfl, nextContributions_nonneg h.rrfK_pos source⟩

/-- The observed score is a lower bound of the total score. -/
theorem Tracks.observedScore_le (id : Id) :
    state.observedScore id ≤ totalScore state.rrfK state.weights lists id :=
  sumScores_mono _ fun source _ => (h.contribution_bounds source id).1

/-- The possible score is an upper bound of the total score. -/
theorem Tracks.le_possibleScore (id : Id) :
    totalScore state.rrfK state.weights lists id ≤ state.possibleScore id :=
  sumScores_mono _ fun source _ => (h.contribution_bounds source id).2

/-- A point no source has delivered can reach at most the unseen bound. -/
theorem Tracks.le_unseenUpperBound {id : Id} (hid : id ∉ state.points) :
    totalScore state.rrfK state.weights lists id ≤ state.unseenUpperBound := by
  have hnone : ∀ source, state.contribution source id = none := by
    intro source
    rw [contribution, AList.lookup_eq_none.mpr hid, Option.bind_none]
  have hpossible : state.possibleScore id = state.unseenUpperBound := by
    simp [possibleScore, unseenUpperBound, hnone]
  exact hpossible ▸ h.le_possibleScore id

/-- Once every source has ended, the observed scores are the total scores. -/
theorem Tracks.observedScore_eq (hexhausted : state.allSourcesExhausted = true) (id : Id) :
    state.observedScore id = totalScore state.rrfK state.weights lists id := by
  apply le_antisymm (h.observedScore_le id)
  have hend : ∀ source, state.nextContributions source = 0 := by
    intro source
    have hsource : state.exhausted source = true :=
      all_eq_true.mp hexhausted source (mem_finRange source)
    rw [nextContributions, nextPossibleContribution, if_pos hsource, Option.getD_none]
  have hpossible : state.possibleScore id = state.observedScore id := by
    simp only [possibleScore, observedScore, hend]
  exact hpossible ▸ h.le_possibleScore id

end

omit [LinearOrder Id] in
private theorem nodup_positive :
    ((state.points.entries.filterMap fun entry =>
      if entry.2.lowerBound > 0 then some (entry.1, entry.2.lowerBound) else none).map
        Prod.fst).Nodup := by
  apply pairwise_map.mpr
  apply pairwise_filterMap.mpr
  apply Pairwise.imp _ (nodupKeys_iff_pairwise.mp state.points.nodupKeys)
  intro left right hne p hp q hq
  split at hp <;> split at hq <;> cases hp <;> cases hq
  exact hne

private theorem Tracks.mem_positive (h : state.Tracks history lists)
    (hexhausted : state.allSourcesExhausted = true) {id : Id} {score : F} :
    (id, score) ∈ (state.points.entries.filterMap fun entry =>
        if entry.2.lowerBound > 0 then some (entry.1, entry.2.lowerBound) else none) ↔
      score = totalScore state.rrfK state.weights lists id ∧ 0 < score := by
  rw [mem_filterMap]
  constructor
  · rintro ⟨entry, hmem, hsome⟩
    have hscore := (lowerBound_of_mem hmem).trans (h.observedScore_eq hexhausted entry.1)
    grind
  rintro ⟨hscore, hpos⟩
  have hid : id ∈ state.points := by
    by_contra habsent
    have hzero : state.observedScore id = 0 := by
      apply sumScores_eq_zero
      intro s hs
      obtain ⟨source, _, rfl⟩ := mem_map.mp hs
      rw [contribution, AList.lookup_eq_none.mpr habsent, Option.bind_none, Option.getD_none]
    rw [hscore, ← h.observedScore_eq hexhausted, hzero] at hpos
    exact lt_irrefl _ hpos
  obtain ⟨point, hlookup⟩ := Option.isSome_iff_exists.mp (AList.lookup_isSome.mpr hid)
  have hmem : ⟨id, point⟩ ∈ state.points.entries := AList.mem_lookup_iff.mp hlookup
  have hlower : point.lowerBound = score :=
    ((lowerBound_of_mem hmem).trans (h.observedScore_eq hexhausted id)).trans hscore.symm
  exact ⟨⟨id, point⟩, hmem, by rw [hlower, if_pos hpos]⟩

/-- Once every source has ended, the complete order is the exhaustive order. -/
theorem Tracks.completeOrder_eq (h : state.Tracks history lists)
    (hexhausted : state.allSourcesExhausted = true) :
    state.completeOrder = state.exactOrder lists := by
  apply Ranked.eq_of_mem_iff _ (ranked_exhaustiveOrder state.rrfK state.weights lists)
  · intro id
    rw [mem_exhaustiveOrder, completeOrder, mem_map]
    constructor
    · rintro ⟨⟨i, score⟩, hmem, rfl⟩
      rw [sortBy, mem_insertionSort, h.mem_positive hexhausted] at hmem
      exact hmem.1 ▸ hmem.2
    intro hpos
    refine ⟨(id, totalScore state.rrfK state.weights lists id), ?_, rfl⟩
    rw [sortBy, mem_insertionSort, h.mem_positive hexhausted]
    exact ⟨rfl, hpos⟩
  · apply ranked_map_sortBy_rrfOrder nodup_positive
    rintro ⟨id, score⟩ hmem
    exact ((h.mem_positive hexhausted).mp hmem).1

end Bounds

section Certificate

variable {fixed : List Id}

/-- What one selected winner guarantees: its lower bound beats every unseen point
and it precedes every other remaining point. -/
private theorem selectFixed_succ {unseen : F} {count : ℕ} {remaining : List (BoundedPoint Id F)}
    (h : selectFixed unseen (count + 1) remaining = some fixed) :
    ∃ winner rest fixedRest, remaining.Perm (winner :: rest) ∧ unseen < winner.lowerBound ∧
      (∀ challenger ∈ rest, guaranteedBefore winner.id winner.lowerBound challenger.id
        challenger.upperBound = true) ∧
      selectFixed unseen count rest = some fixedRest ∧ fixed = winner.id :: fixedRest := by
  simp only [selectFixed, Option.bind_eq_bind, Option.bind_eq_some_iff] at h
  obtain ⟨index, _, winner, hwinner, h⟩ := h
  obtain ⟨hlt, _⟩ := List.getElem?_eq_some_iff.mp hwinner
  split at h
  · cases h
  rename_i hunseen
  split at h
  · cases h
  rename_i hany
  obtain ⟨fixedRest, hrest, h⟩ := Option.bind_eq_some_iff.mp h
  refine ⟨winner, swapRemove remaining index, fixedRest, perm_cons_swapRemove hwinner,
    not_le.mp hunseen, ?_, hrest, (Option.some.inj h).symm⟩
  intro challenger hmem
  obtain ⟨i, hne, hget⟩ := (mem_swapRemove hlt).mp hmem
  by_contra hnot
  apply hany
  rw [any_eq_true]
  exact ⟨(challenger, i), mk_mem_zipIdx_iff_getElem?.mpr hget, by simp [hne, hnot]⟩

private theorem selectFixed_eq_take {total : Id → F} {unseen : F} (hunseen : 0 ≤ unseen) (count : ℕ)
    {remaining : List (BoundedPoint Id F)} {ranking : List Id}
    (hranked : Ranked (fun id => rankKey (total id) id) ranking)
    (hcover : ∀ id ∈ ranking, (∃ point ∈ remaining, point.id = id) ∨ total id ≤ unseen)
    (hpositive : ∀ point ∈ remaining, 0 < total point.id → point.id ∈ ranking)
    (hbounds : ∀ point ∈ remaining,
      point.lowerBound ≤ total point.id ∧ total point.id ≤ point.upperBound)
    (hnodup : (remaining.map BoundedPoint.id).Nodup)
    (h : selectFixed unseen count remaining = some fixed) : fixed = ranking.take count := by
  induction count generalizing remaining ranking fixed with
  | zero =>
    rw [selectFixed, Option.some.injEq] at h
    rw [← h, take_zero]
  | succ count ih =>
    obtain ⟨winner, rest, fixedRest, hperm, hwinner, hbefore, hrest, rfl⟩ := selectFixed_succ h
    have hmem : ∀ point, point ∈ remaining ↔ point = winner ∨ point ∈ rest := fun point => by
      rw [hperm.mem_iff, mem_cons]
    have hids := (hperm.map BoundedPoint.id).nodup_iff.mp hnodup
    rw [map_cons, nodup_cons] at hids
    obtain ⟨hlower, _⟩ := hbounds winner ((hmem winner).mpr (Or.inl rfl))
    have hin : winner.id ∈ ranking := by
      grind
    -- Nothing else can precede the winner: an unseen point stays below the unseen
    -- bound, and a remaining one is beaten even at its upper bound.
    have hfirst : ∀ id ∈ ranking, id ≠ winner.id →
        rankKey (total winner.id) winner.id < rankKey (total id) id := by
      intro id hid hne
      rcases hcover id hid with ⟨point, hpoint, rfl⟩ | hle
      · rcases (hmem point).mp hpoint with rfl | hpoint'
        · exact absurd rfl hne
        · exact rankKey_lt_of_guaranteedBefore (hbefore point hpoint') hlower
            (hbounds point hpoint).2
      · exact rankKey_lt_iff.mpr (Or.inl (hle.trans_lt (hwinner.trans_le hlower)))
    obtain ⟨tail, rfl, htail⟩ := hranked.eq_cons_of_forall_lt hin hfirst
    congr 1
    apply ih (ranked_cons.mp hranked).2 _ _ _ hids.2 hrest
    · grind
    · grind
    · exact fun point hpoint => hbounds point ((hmem point).mpr (Or.inr hpoint))

variable {state : DynamicRrfState Id F n} {history lists : Fin n → List Id}

/-- A fixed order is a prefix of the exhaustive order, whatever the unread tails hold. -/
theorem Tracks.fixedTopK_eq_take (h : state.Tracks history lists)
    (hfixed : state.fixedTopK = some fixed) : fixed = (state.exactOrder lists).take state.topK := by
  unfold fixedTopK at hfixed
  split at hfixed
  · rename_i hzero
    rw [hzero, take_zero, Option.some.inj hfixed]
  split at hfixed
  · cases hfixed
  split at hfixed
  · rename_i hexhausted
    rw [← h.completeOrder_eq hexhausted, Option.some.inj hfixed]
  apply selectFixed_eq_take (unseenUpperBound_nonneg h.rrfK_pos) state.topK
    (ranked_exhaustiveOrder state.rrfK state.weights lists) _ _ _ _ hfixed
  · intro id _
    by_cases hid : id ∈ state.points
    · obtain ⟨point, hlookup⟩ := Option.isSome_iff_exists.mp (AList.lookup_isSome.mpr hid)
      exact Or.inl ⟨_, mem_map_of_mem (AList.mem_lookup_iff.mp hlookup), rfl⟩
    · exact Or.inr (h.le_unseenUpperBound hid)
  · exact fun point _ hpos => mem_exhaustiveOrder.mpr hpos
  · intro point hpoint
    obtain ⟨entry, hentry, rfl⟩ := mem_map.mp hpoint
    constructor
    · rw [lowerBound_of_mem hentry]
      exact h.observedScore_le entry.1
    · rw [upperBound_of_mem hentry]
      exact h.le_possibleScore entry.1
  · rw [map_map]
    exact state.points.keys_nodup

/-- Every identity of a fixed order has been read from a source. -/
theorem Tracks.mem_history_of_fixedTopK (h : state.Tracks history lists)
    (hfixed : state.fixedTopK = some fixed) {id : Id} (hid : id ∈ fixed) :
    ∃ source, id ∈ history source := by
  -- The state also tracks sources that end where it has stopped reading.
  have hself : state.Tracks history history :=
    ⟨h.rrfK_pos, h.contribution_eq, h.nextPositions_eq, fun _ => prefix_rfl, fun _ _ => rfl⟩
  rw [hself.fixedTopK_eq_take hfixed] at hid
  have hpos := mem_exhaustiveOrder.mp (mem_of_mem_take hid)
  by_contra habsent
  rw [totalScore_eq_zero fun source hsource => habsent ⟨source, hsource⟩] at hpos
  exact lt_irrefl _ hpos

/-- Once every source has ended, an order is fixed. -/
theorem fixedTopK_isSome (hexhausted : state.allSourcesExhausted = true) :
    state.fixedTopK.isSome = true := by
  unfold fixedTopK
  split
  · rfl
  · simp [hexhausted]

end Certificate

section Observation

/-- The contribution a point table holds for an identity. -/
private def contributionIn (points : AList fun _ : Id => PartialRrfPoint F n) (source : Fin n)
    (id : Id) : Option F :=
  (points.lookup id).bind fun point => point.contributions source

omit [RankArithmetic F] in
private theorem contributionIn_record (points : AList fun _ : Id => PartialRrfPoint F n)
    (source other : Fin n) (id id' : Id) (score : F) :
    contributionIn (recordContribution points source id score) other id' =
      if other = source ∧ id' = id then some score else contributionIn points other id' := by
  unfold contributionIn recordContribution
  by_cases hid : id' = id
  · subst hid
    rw [AList.lookup_insert, Option.bind_some]
    by_cases hsource : other = source
    · subst hsource
      simp
    · simp only [update_of_ne hsource, hsource, false_and, if_false]
      cases points.lookup id' <;> rfl
  · simp [hid]

omit [RankArithmetic F] in
private theorem contributionIn_foldl (source other : Fin n) (score : ℕ → F) (ids : List Id)
    (start : ℕ) (points : AList fun _ : Id => PartialRrfPoint F n) (hnodup : ids.Nodup) (id : Id) :
    contributionIn ((ids.zipIdx start).foldl (fun points entry =>
        recordContribution points source entry.1 (score entry.2)) points) other id =
      if other = source ∧ id ∈ ids then some (score (start + ids.idxOf id))
      else contributionIn points other id := by
  induction ids generalizing start points with
  | nil => simp
  | cons first ids ih =>
    obtain ⟨hfirst, hnodup⟩ := nodup_cons.mp hnodup
    rw [zipIdx_cons, foldl_cons, ih _ _ hnodup, contributionIn_record]
    grind

variable {state : DynamicRrfState Id F n} {history lists : Fin n → List Id} {source : Fin n}

/-- An open source ends exactly when a batch flags its end. -/
theorem applyBatch_exhausted (hopen : state.exhausted source = false)
    (batch : ChannelRankBatch Id) :
    (state.applyBatch source batch).exhausted =
      update state.exhausted source batch.exhausted := by
  unfold applyBatch
  cases batch.exhausted with
  | true => rfl
  | false => exact (update_eq_self_iff.mpr hopen.symm).symm

/-- A batch enters one contribution for each of its identities. -/
theorem contribution_applyBatch {batch : ChannelRankBatch Id} (hnodup : batch.pointIds.Nodup)
    (other : Fin n) (id : Id) :
    (state.applyBatch source batch).contribution other id =
      if other = source ∧ id ∈ batch.pointIds then
        some (positionScore (batch.startRank + batch.pointIds.idxOf id) state.rrfK
          (state.weights source))
      else state.contribution other id := by
  have hfold := contributionIn_foldl source other
    (fun offset => positionScore (batch.startRank + offset) state.rrfK (state.weights source))
    batch.pointIds 0 state.points hnodup id
  rw [Nat.zero_add] at hfold
  exact hfold

variable [ToString Id]

omit [RankArithmetic F] in
/-- A batch passes validation exactly when it repeats no identity of its own and none
the source has already delivered. -/
theorem validateBatch_eq_ok_iff {unique : Finset Id} {ids : List Id} :
    state.validateBatch source unique ids = .ok () ↔
      ids.Nodup ∧ ∀ id ∈ ids, id ∉ unique ∧ state.contribution source id = none := by
  induction ids generalizing unique with
  | nil => simp [validateBatch]
  | cons first ids ih =>
    rw [validateBatch]
    split
    · grind
    split
    · grind
    rename_i hunique hsome
    have hnone : state.contribution source first = none := by simpa using hsome
    grind

/-- A batch that continues a tracked list is applied, and the state tracks the longer prefix. -/
theorem Tracks.observeBatch (h : state.Tracks history lists) {batch : ChannelRankBatch Id}
    {rest : List Id} (hopen : state.exhausted source = false)
    (hstart : batch.startRank = (history source).length)
    (hlist : history source ++ batch.pointIds ++ rest = lists source)
    (hnodup : (lists source).Nodup) (hlast : batch.exhausted = true → rest = [])
    (hempty : batch.pointIds = [] → batch.exhausted = true) :
    ∃ next, state.observeBatch source batch = .ok next ∧
      next.Tracks (update history source (history source ++ batch.pointIds)) lists ∧
      next.exhausted = update state.exhausted source batch.exhausted ∧
      next.rrfK = state.rrfK ∧ next.topK = state.topK ∧ next.weights = state.weights := by
  have hids : (history source ++ batch.pointIds).Nodup :=
    (nodup_append.mp (hlist ▸ hnodup)).1
  obtain ⟨_, hnew, hdisjoint⟩ := nodup_append.mp hids
  have hvalid : state.validateBatch source ∅ batch.pointIds = .ok () := by
    refine validateBatch_eq_ok_iff.mpr ⟨hnew, fun id hid => ⟨by simp, ?_⟩⟩
    rw [h.contribution_eq, if_neg]
    exact fun hmem => hdisjoint id hmem id hid rfl
  have hbatch : (batch.pointIds.isEmpty && !batch.exhausted) = false := by
    cases hcase : batch.pointIds with
    | nil => simp [hempty hcase]
    | cons id ids => rfl
  refine ⟨state.applyBatch source batch, ?_, ?_, applyBatch_exhausted hopen batch, rfl, rfl, rfl⟩
  · unfold DynamicRrfState.observeBatch
    rw [dif_pos source.isLt]
    simp only [Fin.eta, hopen, hstart, h.nextPositions_eq, hbatch, hvalid, ne_eq,
      not_true_eq_false, Bool.false_eq_true, if_false]
  constructor
  · exact h.rrfK_pos
  · intro other id
    refine (contribution_applyBatch hnew other id).trans ?_
    by_cases hother : other = source
    · subst hother
      rw [update_self, hstart]
      by_cases hold : id ∈ history other
      · have hnotnew : id ∉ batch.pointIds := fun hmem => hdisjoint id hold id hmem rfl
        rw [if_neg (by simp [hnotnew]), if_pos (mem_append_left _ hold),
          idxOf_append_of_mem hold]
        exact (h.contribution_eq other id).trans (if_pos hold)
      by_cases hid : id ∈ batch.pointIds
      · rw [if_pos ⟨rfl, hid⟩, if_pos (mem_append_right _ hid),
          idxOf_append_of_notMem hold]
        rfl
      · rw [if_neg (by simp [hid]), if_neg (by simp [hold, hid])]
        exact (h.contribution_eq other id).trans (if_neg hold)
    · rw [if_neg (by simp [hother]), update_of_ne hother]
      exact h.contribution_eq other id
  · intro other
    by_cases hother : other = source
    · subst hother
      simp [applyBatch, h.nextPositions_eq]
    · simp [applyBatch, hother, h.nextPositions_eq]
  · intro other
    have hold := h.history_isPrefix other
    grind
  · intro other hended
    rw [applyBatch_exhausted hopen batch] at hended
    have hold := h.complete_of_exhausted other
    grind

variable {weights : Option (List F)}

omit [LinearOrder Id] [ToString Id] in
/-- Weights resolve exactly when there is one for each source. -/
theorem resolveWeights_eq_ok_iff {resolved : Fin n → F} :
    resolveWeights n weights = .ok resolved ↔ ResolvedWeights weights resolved := by
  cases weights with
  | none => simp [resolveWeights, ResolvedWeights, eq_comm]
  | some list =>
    simp only [resolveWeights, ResolvedWeights]
    split
    · rename_i hlength
      subst hlength
      simp only [Except.ok.injEq]
      constructor
      · rintro rfl
        exact (ofFn_get list).symm
      grind
    grind

omit [LinearOrder Id] [ToString Id] in
/-- The parameters an accepted state has passed, and the state it starts in. -/
theorem new_eq_ok_iff {topK rrfK : ℕ} :
    new n topK rrfK weights = .ok state ↔
      0 < n ∧ 0 < rrfK ∧ ∃ resolved, ResolvedWeights weights resolved ∧
        (∀ source, Score.isFinite (resolved source) = true ∧ 0 ≤ resolved source) ∧
        state = ⟨rrfK, topK, resolved, fun _ => 0, fun _ => false, ∅⟩ := by
  unfold new
  split
  · simp_all
  split
  · simp_all
  rename_i hn hk
  simp only [Nat.pos_iff_ne_zero, ne_eq, hn, hk, not_false_eq_true, true_and,
    ← resolveWeights_eq_ok_iff]
  grind

omit [ToString Id] in
/-- An accepted state tracks any lists from their start. -/
theorem tracks_of_new {topK rrfK : ℕ} (h : new n topK rrfK weights = .ok state)
    (lists : Fin n → List Id) : state.Tracks (fun _ => []) lists := by
  obtain ⟨_, hk, resolved, _, _, rfl⟩ := new_eq_ok_iff.mp h
  exact ⟨hk, fun _ _ => by simp [contribution], fun _ => rfl, fun _ => nil_prefix,
    nofun⟩

end Observation

end DynamicRrfState

/-!
### What a session call can do

Certification and scheduling only touch bookkeeping. A turn of the driver loop
therefore reports a fixed order of the current state, pauses, or advances one open
source; a session whose sources have not all ended always has a source to advance.
-/

namespace DynamicRrfSession

variable {W Id F : Type} {n : ℕ}

/-- The sessions agree on everything but bookkeeping. -/
structure SameCore (before after : DynamicRrfSession W Id F n) : Prop where
  sources_eq : after.sources = before.sources
  sourceBatchSize_eq : after.sourceBatchSize = before.sourceBatchSize
  state_eq : after.state = before.state
  sourcePulls_eq : after.sourcePulls = before.sourcePulls
  sourceHistory_eq : after.sourceHistory = before.sourceHistory
  exhaustedOrder_eq : after.exhaustedOrder = before.exhaustedOrder

variable (session : DynamicRrfSession W Id F n)

theorem SameCore.refl : SameCore session session :=
  ⟨rfl, rfl, rfl, rfl, rfl, rfl⟩

theorem SameCore.symm {before after : DynamicRrfSession W Id F n} (h : SameCore before after) :
    SameCore after before :=
  ⟨h.1.symm, h.2.symm, h.3.symm, h.4.symm, h.5.symm, h.6.symm⟩

theorem SameCore.trans {first second third : DynamicRrfSession W Id F n} (h : SameCore first second)
    (h' : SameCore second third) : SameCore first third :=
  ⟨h'.1.trans h.1, h'.2.trans h.2, h'.3.trans h.3, h'.4.trans h.4, h'.5.trans h.5, h'.6.trans h.6⟩

/-- The sessions agree on the schedule of the sources, too. -/
structure SameSchedule (before after : DynamicRrfSession W Id F n) : Prop
    extends SameCore before after where
  policy_eq : after.policy = before.policy
  advanceActions_eq : after.advanceActions = before.advanceActions
  sourceLastAdvanced_eq : after.sourceLastAdvanced = before.sourceLastAdvanced

theorem SameSchedule.refl : SameSchedule session session :=
  ⟨SameCore.refl session, rfl, rfl, rfl⟩

theorem SameSchedule.trans {first second third : DynamicRrfSession W Id F n}
    (h : SameSchedule first second) (h' : SameSchedule second third) : SameSchedule first third :=
  ⟨h.toSameCore.trans h'.toSameCore, h'.2.trans h.2, h'.3.trans h.3, h'.4.trans h.4⟩

/-- Scheduling a source is bookkeeping. -/
theorem sameCore_schedule (source : Fin n) : SameCore session (session.schedule source) :=
  ⟨rfl, rfl, rfl, rfl, rfl, rfl⟩

variable {session : DynamicRrfSession W Id F n}

/-- Pausing depends on the core only. -/
theorem pauseReached_of_sameCore {other : DynamicRrfSession W Id F n}
    (hcore : SameCore session other) (targets : Fin n → Option ℕ) :
    other.pauseReached targets = session.pauseReached targets := by
  unfold pauseReached
  rw [hcore.sourcePulls_eq, hcore.state_eq]

variable [RankArithmetic F]

/-- A source has a next contribution exactly while it is open. -/
theorem nextPossibleContribution_isSome {state : DynamicRrfState Id F n} :
    (state.nextPossibleContribution source).isSome = true ↔ state.exhausted source = false := by
  unfold DynamicRrfState.nextPossibleContribution
  split <;> simp_all

/-- The selected source is open. -/
theorem exhausted_of_selectSource (h : session.selectSourceToAdvance targets = some source) :
    session.state.exhausted source = false := by
  unfold selectSourceToAdvance at h
  rw [Option.or_eq_some_iff] at h
  rcases h with h | ⟨_, h⟩
  · obtain ⟨fairness, _, h⟩ := Option.bind_eq_some_iff.mp h
    have hmem := maxBy_mem h
    simp only [mem_filter, Bool.and_eq_true] at hmem
    exact nextPossibleContribution_isSome.mp hmem.2.1.1
  obtain ⟨⟨best, _, bound⟩, hbest, rfl⟩ := Option.map_eq_some_iff.mp h
  obtain ⟨other, _, hother⟩ := mem_filterMap.mp (maxBy_mem hbest)
  split at hother
  · obtain ⟨bound', hbound, heq⟩ := Option.map_eq_some_iff.mp hother
    obtain ⟨rfl, _⟩ := Prod.mk.inj heq
    exact nextPossibleContribution_isSome.mp (by rw [hbound]; rfl)
  · cases hother

/-- An open source below its target guarantees that some source is selected. -/
theorem exists_selectSource (hopen : session.state.exhausted source = false)
    (hbelow : session.belowPauseTarget targets source = true) :
    ∃ selected, session.selectSourceToAdvance targets = some selected := by
  rw [← Option.isSome_iff_exists, ← Option.ne_none_iff_isSome]
  intro hnone
  unfold selectSourceToAdvance at hnone
  rw [Option.or_eq_none_iff] at hnone
  have hbest := hnone.2
  rw [bestSource, Option.map_eq_none_iff, maxBy_eq_none, filterMap_eq_nil_iff] at hbest
  have hsource := hbest source (mem_finRange source)
  rw [if_pos hbelow, Option.map_eq_none_iff] at hsource
  have hsome := nextPossibleContribution_isSome.mpr hopen
  rw [hsource] at hsome
  cases hsome

/-- Unless all sources have ended or the pause is reached, a source is selected. -/
theorem exists_selectSource_of_not_pauseReached (hopen : session.state.allSourcesExhausted = false)
    (hpause : session.pauseReached targets = false) :
    ∃ selected, session.selectSourceToAdvance targets = some selected := by
  obtain ⟨source, hsource⟩ : ∃ source, session.state.exhausted source = false := by
    simpa [DynamicRrfState.allSourcesExhausted, all_eq_false] using hopen
  rcases Bool.and_eq_false_iff.mp hpause with hany | hall
  · have htarget : targets source = none := by
      simpa using any_eq_false.mp hany source (mem_finRange source)
    exact exists_selectSource hsource (by rw [belowPauseTarget, htarget]; rfl)
  obtain ⟨gating, _, hgating⟩ := all_eq_false.mp hall
  cases htarget : targets gating with
  | none => simp [htarget] at hgating
  | some target =>
    simp only [htarget, Option.all_some, Bool.or_eq_true, decide_eq_true_eq, ge_iff_le, not_or,
      not_le, Bool.not_eq_true] at hgating
    exact exists_selectSource hgating.2
      (by rw [belowPauseTarget, htarget]; simpa using hgating.1)

/-- An accepted session has a batch size and an accepted state, and has read nothing. -/
theorem newWithInputs_eq_ok {sources : Fin n → DynamicRrfSource W Id}
    {sourceBatchSize topK rrfK : ℕ} {weights : Option (List F)} {sourceCosts : List F}
    {policy : DynamicRrfPolicy}
    (h : newWithInputs sources sourceBatchSize topK rrfK weights sourceCosts policy = .ok session) :
    0 < sourceBatchSize ∧ DynamicRrfState.new n topK rrfK weights = .ok session.state ∧
      session.sources = sources ∧ session.sourceBatchSize = sourceBatchSize ∧
      session.sourcePulls = (fun _ => 0) ∧ session.sourceHistory = (fun _ => []) ∧
      session.exhaustedOrder = none := by
  unfold newWithInputs at h
  repeat (split at h; · cases h)
  grind

/-- Parameters that pass every check give a session. -/
theorem exists_newWithInputs (sources : Fin n → DynamicRrfSource W Id)
    {sourceBatchSize topK rrfK : ℕ} {weights : Option (List F)} {sourceCosts : List F}
    {policy : DynamicRrfPolicy} {resolved : Fin n → F} (hsize : 0 < sourceBatchSize)
    (hwarmup : policy.warmupCheckInterval ≠ some 0)
    (hexhaustive : policy.exhaustiveAfterPullsPerSource ≠ some 0)
    (hfairness : policy.fairnessAfterActionsPerSource ≠ some 0) (hcosts : sourceCosts.length = n)
    (hcost : ∀ cost ∈ sourceCosts, Score.isFinite cost = true ∧ 0 < cost) (hn : 0 < n)
    (hk : 0 < rrfK) (hweights : ResolvedWeights weights resolved)
    (hresolved : ∀ source, Score.isFinite (resolved source) = true ∧ 0 ≤ resolved source) :
    ∃ session, newWithInputs sources sourceBatchSize topK rrfK weights sourceCosts policy =
      .ok session := by
  have hany : (sourceCosts.any fun cost => !Score.isFinite cost || cost ≤ 0) = false := by
    grind
  obtain ⟨state, hnew⟩ : ∃ state : DynamicRrfState Id F n,
      DynamicRrfState.new n topK rrfK weights = .ok state :=
    ⟨_, DynamicRrfState.new_eq_ok_iff.mpr ⟨hn, hk, resolved, hweights, hresolved, rfl⟩⟩
  unfold newWithInputs
  simp only [hsize.ne', hwarmup, hexhaustive, hfairness, hcosts, hany, hnew, if_false, dite_true,
    Bool.false_eq_true]
  exact ⟨_, rfl⟩

variable [LinearOrder Id]

/-- The execution reports an order the state has fixed, and the end of the sources
exactly when all of them have ended. -/
structure Reports (session : DynamicRrfSession W Id F n) (execution : DynamicRrfExecution Id n) :
    Prop where
  fixed : session.state.fixedTopK = some execution.pointIds
  sourceExhausted_eq : execution.sourceExhausted = session.state.exhausted
  stopReason_iff : execution.stopReason = .allSourcesExhausted ↔
    session.state.allSourcesExhausted = true

/-- A report about one session is a report about any other with the same core. -/
theorem Reports.of_sameCore {other : DynamicRrfSession W Id F n}
    {execution : DynamicRrfExecution Id n} (h : other.Reports execution)
    (hcore : SameCore session other) : session.Reports execution := by
  rcases h with ⟨hfixed, hexhausted, hreason⟩
  rw [hcore.state_eq] at hfixed hexhausted hreason
  exact ⟨hfixed, hexhausted, hreason⟩

/-- A certification check touches bookkeeping only, and reports exactly a fixed order. -/
theorem certify_spec :
    SameSchedule session session.certify.2 ∧
      ∀ execution, session.certify.1 = some execution → session.Reports execution := by
  unfold certify
  dsimp only
  cases hfixed : session.state.fixedTopK with
  | some pointIds =>
    refine ⟨⟨⟨rfl, rfl, rfl, rfl, rfl, rfl⟩, rfl, rfl, rfl⟩, ?_⟩
    rintro _ ⟨⟩
    refine ⟨hfixed, rfl, ?_⟩
    unfold execution
    split <;> simp_all
  | none =>
    dsimp only
    split <;> exact ⟨⟨⟨rfl, rfl, rfl, rfl, rfl, rfl⟩, rfl, rfl, rfl⟩, by rintro _ ⟨⟩⟩

/-- A check that reports nothing has found no fixed order. -/
theorem fixedTopK_eq_none_of_certify (h : session.certify.1 = none) :
    session.state.fixedTopK = none := by
  unfold certify at h
  cases hfixed : session.state.fixedTopK with
  | some pointIds => simp [hfixed] at h
  | none => rfl

/-- The check at the start of a turn touches bookkeeping only. When it reports
nothing, some source is still open. -/
theorem checkpoint_spec :
    SameSchedule session session.checkpoint.2 ∧
      (∀ execution, session.checkpoint.1 = some execution → session.Reports execution) ∧
      (session.checkpoint.1 = none → session.state.allSourcesExhausted = false) := by
  obtain ⟨hcore, hreports⟩ := session.certify_spec
  unfold checkpoint
  split
  · cases hcertify : session.certify with
    | mk reported next =>
      rw [hcertify] at hcore hreports
      cases reported with
      | some execution => exact ⟨hcore, hreports, by rintro ⟨⟩⟩
      | none =>
        have hnone : session.state.fixedTopK = none :=
          fixedTopK_eq_none_of_certify (by rw [hcertify])
        refine ⟨hcore.trans ⟨⟨rfl, rfl, rfl, rfl, rfl, rfl⟩, rfl, rfl, rfl⟩, by rintro _ ⟨⟩,
          fun _ => ?_⟩
        by_contra hexhausted
        have hsome := DynamicRrfState.fixedTopK_isSome (by simpa using hexhausted)
        rw [hnone] at hsome
        cases hsome
  · rename_i hdue
    refine ⟨SameSchedule.refl session, by rintro _ ⟨⟩, fun _ => ?_⟩
    simp only [checkDue, Bool.or_eq_true, not_or, Bool.not_eq_true] at hdue
    exact hdue.1

variable {source : Fin n}

variable {targets : Fin n → Option ℕ}

variable [ToString Id]

/-- A turn reports a fixed order, pauses where asked, or advances an open source. -/
theorem advanceTurn_cases (targets : Fin n → Option ℕ) (session : DynamicRrfSession W Id F n)
    (w : W) :
    (∃ execution next, SameSchedule session next ∧ session.Reports execution ∧
      advanceTurn targets (session, w) = some (.stop (.ok (.fixed execution), next, w))) ∨
    (∃ next, SameSchedule session next ∧ session.pauseReached targets = true ∧
      session.state.fixedTopK = none ∧
      advanceTurn targets (session, w) = some (.stop (.ok .paused, next, w))) ∨
    (∃ mid source, SameSchedule session mid ∧ session.state.exhausted source = false ∧
      mid.selectSourceToAdvance targets = some source ∧
      advanceTurn targets (session, w) = some (turnOfAdvance (mid.advance source w))) := by
  obtain ⟨hcore, hreports, hopen⟩ := session.checkpoint_spec
  unfold advanceTurn
  cases hcheck : session.checkpoint with
  | mk reported mid =>
    rw [hcheck] at hcore hreports hopen
    cases reported with
    | some execution => exact Or.inl ⟨execution, mid, hcore, hreports execution rfl, rfl⟩
    | none =>
      have hopen : mid.state.allSourcesExhausted = false := by
        rw [hcore.state_eq]
        exact hopen rfl
      cases hpause : mid.pauseReached targets with
      | true =>
        obtain ⟨hcertified, hreports⟩ := mid.certify_spec
        cases hcertify : mid.certify with
        | mk reported next =>
          rw [hcertify] at hcertified hreports
          cases reported with
          | some execution =>
            exact Or.inl ⟨execution, next, hcore.trans hcertified,
              (hreports execution rfl).of_sameCore hcore.toSameCore,
              by simp only [hpause, if_true, hcertify]⟩
          | none =>
            refine Or.inr (Or.inl ⟨next, hcore.trans hcertified, ?_, ?_,
              by simp only [hpause, if_true, hcertify]⟩)
            · rw [← pauseReached_of_sameCore hcore.toSameCore, hpause]
            · rw [← hcore.state_eq]
              exact fixedTopK_eq_none_of_certify (by rw [hcertify])
      | false =>
        obtain ⟨source, hsource⟩ := exists_selectSource_of_not_pauseReached hopen hpause
        refine Or.inr (Or.inr ⟨mid, source, hcore, ?_, hsource, ?_⟩)
        · rw [← hcore.state_eq]
          exact exhausted_of_selectSource hsource
        · simp only [hpause, hsource, Option.map_some, Bool.false_eq_true, if_false]

end DynamicRrfSession

end Stratumind
