import Stratumind.Fusion.Types

/-!
# The exhaustive fused order

What rank fusion is for: over complete source lists, every identity has a total
score, and the answer lists the identities of positive total by descending score,
ties broken by identity. `exactRrfScoring` computes this order.
-/

namespace Stratumind

open Lib List

variable {Id F : Type} {n : ℕ} [LinearOrder Id] [RankArithmetic F]

/-- The contribution of a complete source list to an identity: that of its rank,
and zero for an identity the list does not hold. -/
def listContribution (k : ℕ) (weight : F) (list : List Id) (id : Id) : F :=
  if id ∈ list then positionScore (list.idxOf id) k weight else 0

/-- The fused score of an identity over complete source lists. -/
def totalScore (k : ℕ) (weights : Fin n → F) (lists : Fin n → List Id) (id : Id) : F :=
  sumScores ((finRange n).map fun source => listContribution k (weights source) (lists source) id)

/-- The key by which the fused order ranks an identity. -/
def fusedKey (k : ℕ) (weights : Fin n → F) (lists : Fin n → List Id) (id : Id) : Fᵒᵈ ×ₗ Id :=
  rankKey (totalScore k weights lists id) id

/-- All identities of positive total score, by descending score and then identity. -/
def exhaustiveOrder (k : ℕ) (weights : Fin n → F) (lists : Fin n → List Id) : List Id :=
  rankBy (fusedKey k weights lists)
    (((finRange n).flatMap lists).dedup.filter fun id => 0 < totalScore k weights lists id)

/-- Appending a summand adds it to the sum. -/
theorem sumScores_concat (l : List F) (s : F) : sumScores (l ++ [s]) = sumScores l + s :=
  foldl_concat ..

/-- Zero summands sum to zero. -/
theorem sumScores_eq_zero {l : List F} (h : ∀ s ∈ l, s = 0) : sumScores l = 0 := by
  induction l with
  | nil => rfl
  | cons s l ih =>
    obtain rfl := h s (by simp)
    unfold sumScores
    rw [foldl_cons, RankArithmetic.zero_add]
    exact ih fun t ht => h t (mem_cons_of_mem _ ht)

/-- An identity that no list holds has no score. -/
theorem totalScore_eq_zero {k : ℕ} {weights : Fin n → F} {lists : Fin n → List Id} {id : Id}
    (h : ∀ source, id ∉ lists source) : totalScore k weights lists id = 0 := by
  apply sumScores_eq_zero
  intro s hs
  obtain ⟨source, _, rfl⟩ := mem_map.mp hs
  exact if_neg (h source)

/-- The exhaustive order lists exactly the identities of positive total score. -/
theorem mem_exhaustiveOrder {k : ℕ} {weights : Fin n → F} {lists : Fin n → List Id} {id : Id} :
    id ∈ exhaustiveOrder k weights lists ↔ 0 < totalScore k weights lists id := by
  unfold exhaustiveOrder
  rw [mem_rankBy, mem_filter, mem_dedup, mem_flatMap, decide_eq_true_eq, and_iff_right_iff_imp]
  intro hpos
  by_contra habsent
  rw [totalScore_eq_zero fun source hsource =>
    habsent ⟨source, mem_finRange source, hsource⟩] at hpos
  exact lt_irrefl _ hpos

/-- The exhaustive order is ranked by the fused key. -/
theorem ranked_exhaustiveOrder (k : ℕ) (weights : Fin n → F) (lists : Fin n → List Id) :
    Ranked (fusedKey k weights lists) (exhaustiveOrder k weights lists) :=
  ranked_rankBy <| ((nodup_dedup _).filter _).map fun _ _ h => (rankKey_inj.mp h).2

/-- Sorting scored entries of distinct identities by the fused order ranks their identities. -/
theorem ranked_map_sortBy_rrfOrder {β : Type} {l : List β} {toId : β → Id} {score : β → F}
    {total : Id → F} (hnodup : (l.map toId).Nodup)
    (hscore : ∀ entry ∈ l, score entry = total (toId entry)) :
    Ranked (fun id => rankKey (total id) id)
      ((sortBy (fun a b => rrfOrder (toId a) (score a) (toId b) (score b)) l).map toId) := by
  have hsort : sortBy (fun a b => rrfOrder (toId a) (score a) (toId b) (score b)) l =
      rankBy (fun entry => rankKey (score entry) (toId entry)) l :=
    sortBy_eq_rankBy (fun _ _ => compare_then_eq_compare_rankKey ..) l
  rw [hsort]
  have hkeys : (l.map fun entry => rankKey (score entry) (toId entry)).Nodup := by
    apply Nodup.of_map (fun key => (ofLex key).2)
    rw [map_map]
    exact hnodup
  apply pairwise_map.mpr
  apply Pairwise.imp_of_mem _ (ranked_rankBy hkeys)
  intro a b ha hb hlt
  rwa [hscore a (mem_rankBy.mp ha), hscore b (mem_rankBy.mp hb)] at hlt

section Scoring

variable {k : ℕ}

/-- The score accumulated for an identity. -/
private def scoreOf (points : AList fun _ : Id => ScoredPoint Id F) (id : Id) : Option F :=
  (points.lookup id).map ScoredPoint.score

/-- Every accumulated point is filed under its own identity. -/
private def SelfKeyed (points : AList fun _ : Id => ScoredPoint Id F) : Prop :=
  ∀ id point, points.lookup id = some point → point.id = id

private theorem scoreOf_accumulatePoint (weight : F) (points : AList fun _ : Id => ScoredPoint Id F)
    (point : ScoredPoint Id F) (position : ℕ) (id : Id) :
    scoreOf (accumulatePoint k weight points (point, position)) id =
      if id = point.id then some ((scoreOf points id).getD 0 + positionScore position k weight)
      else scoreOf points id := by
  unfold scoreOf accumulatePoint
  cases hlookup : points.lookup point.id with
  | none => grind [RankArithmetic.zero_add]
  | some old => grind

private theorem selfKeyed_accumulatePoint {weight : F}
    {points : AList fun _ : Id => ScoredPoint Id F} (h : SelfKeyed points)
    (entry : ScoredPoint Id F × ℕ) : SelfKeyed (accumulatePoint k weight points entry) := by
  intro id point hlookup
  unfold accumulatePoint at hlookup
  cases hold : points.lookup entry.1.id with
  | none => grind [SelfKeyed]
  | some old => grind [SelfKeyed]

private theorem scoreOf_foldl_response (weight : F) (response : List (ScoredPoint Id F)) (start : ℕ)
    (points : AList fun _ : Id => ScoredPoint Id F) (hnodup : (response.map ScoredPoint.id).Nodup)
    (id : Id) :
    scoreOf ((response.zipIdx start).foldl (accumulatePoint k weight) points) id =
      if id ∈ response.map ScoredPoint.id then
        some ((scoreOf points id).getD 0 +
          positionScore (start + (response.map ScoredPoint.id).idxOf id) k weight)
      else scoreOf points id := by
  induction response generalizing start points with
  | nil => simp
  | cons point response ih =>
    rw [map_cons, nodup_cons] at hnodup
    rw [zipIdx_cons, foldl_cons, ih _ _ hnodup.2, scoreOf_accumulatePoint, map_cons]
    by_cases hid : id = point.id
    · subst hid
      simp [hnodup.1]
    grind

/-- The points accumulated over weighted responses. -/
private def accumulated (k : ℕ) (weighted : List (List (ScoredPoint Id F) × F)) :
    AList fun _ : Id => ScoredPoint Id F :=
  weighted.foldl (fun points pair => pair.1.zipIdx.foldl (accumulatePoint k pair.2) points) ∅

private theorem selfKeyed_accumulated (weighted : List (List (ScoredPoint Id F) × F)) :
    SelfKeyed (accumulated k weighted) := by
  refine foldlRecOn (motive := SelfKeyed) weighted _ (by simp [SelfKeyed]) ?_
  intro points hpoints pair _
  exact foldlRecOn (motive := SelfKeyed) _ _ hpoints fun points hpoints entry _ =>
    selfKeyed_accumulatePoint hpoints entry

private theorem scoreOf_accumulated (weighted : List (List (ScoredPoint Id F) × F))
    (hnodup : ∀ pair ∈ weighted, (pair.1.map ScoredPoint.id).Nodup) (id : Id) :
    scoreOf (accumulated k weighted) id =
      if ∃ pair ∈ weighted, id ∈ pair.1.map ScoredPoint.id then
        some (sumScores (weighted.map fun pair =>
          listContribution k pair.2 (pair.1.map ScoredPoint.id) id))
      else none := by
  induction weighted using reverseRecOn with
  | nil => simp [scoreOf, accumulated]
  | append_singleton weighted pair ih =>
    have ih := ih fun p hp => hnodup p (mem_append_left _ hp)
    have hstep := scoreOf_foldl_response (k := k) pair.2 pair.1 0 (accumulated k weighted)
      (hnodup pair (by simp)) id
    rw [accumulated, foldl_concat, ← accumulated, hstep, ih, map_append,
      map_singleton, sumScores_concat]
    by_cases hin : id ∈ pair.1.map ScoredPoint.id
    · have hexists : ∃ p ∈ weighted ++ [pair], id ∈ p.1.map ScoredPoint.id :=
        ⟨pair, by simp, hin⟩
      rw [if_pos hin, if_pos hexists, listContribution, if_pos hin, Nat.zero_add]
      split
      · rfl
      rename_i habsent
      have hzero : sumScores (weighted.map fun p =>
          listContribution k p.2 (p.1.map ScoredPoint.id) id) = 0 := by
        apply sumScores_eq_zero
        intro s hs
        obtain ⟨p, hp, rfl⟩ := mem_map.mp hs
        exact if_neg fun hmem => habsent ⟨p, hp, hmem⟩
      rw [hzero]
      rfl
    · have hiff : (∃ p ∈ weighted ++ [pair], id ∈ p.1.map ScoredPoint.id) ↔
          ∃ p ∈ weighted, id ∈ p.1.map ScoredPoint.id := by
        simp only [mem_append, mem_singleton]
        grind
      rw [if_neg hin, listContribution, if_neg hin, RankArithmetic.add_zero]
      simp only [hiff]

/-- The weights a request gives its `n` sources: its own list, or one for each. -/
def ResolvedWeights (weights : Option (List F)) (resolved : Fin n → F) : Prop :=
  match weights with
  | some list => list = ofFn resolved
  | none => resolved = fun _ => 1

variable {resolved : Fin n → F}

private theorem rrfScoring_eq {weights : Option (List F)}
    (hweights : ResolvedWeights weights resolved) (responses : Fin n → List (ScoredPoint Id F)) :
    rrfScoring (ofFn responses) k weights =
      .ok (sortBy (fun a b => compare b.score a.score)
        ((accumulated k ((finRange n).map fun source =>
          (responses source, resolved source))).entries.map Sigma.snd)) := by
  unfold rrfScoring
  cases weights with
  | none =>
    have hresolved : resolved = fun _ => 1 := hweights
    subst hresolved
    simp only [ofFn_eq_map, map_map, pure_bind]
    rfl
  | some list =>
    have hlist : list = ofFn resolved := hweights
    subst hlist
    simp only [ofFn_eq_map, length_map, ne_eq, not_true_eq_false, if_false, zip_map', pure_bind]
    rfl

private theorem entry_accumulated {responses : Fin n → List (ScoredPoint Id F)}
    (hnodup : ∀ source, ((responses source).map ScoredPoint.id).Nodup)
    {entry : Σ _ : Id, ScoredPoint Id F}
    (hentry : entry ∈ (accumulated k ((finRange n).map fun source =>
      (responses source, resolved source))).entries) :
    entry.2.id = entry.1 ∧ entry.2.score =
      totalScore k resolved (fun source => (responses source).map ScoredPoint.id) entry.1 := by
  obtain ⟨id, point⟩ := entry
  have hlookup := AList.mem_lookup_iff.mpr hentry
  refine ⟨selfKeyed_accumulated _ id point hlookup, ?_⟩
  have hscore := scoreOf_accumulated (k := k) ((finRange n).map fun source =>
    (responses source, resolved source)) (forall_mem_map.mpr fun source _ => hnodup source) id
  rw [scoreOf, Option.mem_def.mp hlookup, Option.map_some] at hscore
  split at hscore
  · rw [Option.some.inj hscore, map_map]
    rfl
  · cases hscore

private theorem exists_entry_accumulated {responses : Fin n → List (ScoredPoint Id F)}
    (hnodup : ∀ source, ((responses source).map ScoredPoint.id).Nodup) {id : Id}
    (hpos : 0 < totalScore k resolved (fun source => (responses source).map ScoredPoint.id) id) :
    ∃ point, (⟨id, point⟩ : Σ _ : Id, ScoredPoint Id F) ∈
      (accumulated k ((finRange n).map fun source =>
        (responses source, resolved source))).entries := by
  have hsource : ∃ source, id ∈ (responses source).map ScoredPoint.id := by
    by_contra habsent
    rw [totalScore_eq_zero fun source hmem => habsent ⟨source, hmem⟩] at hpos
    exact lt_irrefl _ hpos
  obtain ⟨source, hsource⟩ := hsource
  have hscore := scoreOf_accumulated (k := k) ((finRange n).map fun source =>
    (responses source, resolved source)) (forall_mem_map.mpr fun source _ => hnodup source) id
  rw [if_pos ⟨_, mem_map.mpr ⟨source, mem_finRange source, rfl⟩, hsource⟩] at hscore
  obtain ⟨point, hlookup, _⟩ := Option.map_eq_some_iff.mp hscore
  exact ⟨point, AList.mem_lookup_iff.mp hlookup⟩

/-- The exhaustive scoring of complete duplicate-free responses returns the exhaustive order. -/
theorem exactRrfScoring_eq_exhaustiveOrder {weights : Option (List F)}
    (hweights : ResolvedWeights weights resolved) (responses : Fin n → List (ScoredPoint Id F))
    (hnodup : ∀ source, ((responses source).map ScoredPoint.id).Nodup) :
    ∃ ranked, exactRrfScoring (ofFn responses) k weights = .ok ranked ∧
      ranked.map ScoredPoint.id =
        exhaustiveOrder k resolved fun source => (responses source).map ScoredPoint.id := by
  set lists := fun source => (responses source).map ScoredPoint.id with hlists
  set points := accumulated k ((finRange n).map fun source =>
    (responses source, resolved source)) with hpoints
  set positive := (sortBy (fun a b => compare b.score a.score)
    (points.entries.map Sigma.snd)).filter fun point => point.score > 0 with hpositive
  refine ⟨sortBy (fun left right => rrfOrder left.id left.score right.id right.score) positive,
    ?_, ?_⟩
  · rw [exactRrfScoring, rrfScoring_eq hweights]
    rfl
  have hmem : ∀ point, point ∈ positive ↔
      (∃ entry ∈ points.entries, entry.2 = point) ∧ 0 < point.score := by
    intro point
    rw [hpositive, mem_filter, sortBy, mem_insertionSort, mem_map, decide_eq_true_eq]
  have hids : (positive.map ScoredPoint.id).Nodup := by
    have hperm : ((sortBy (fun a b : ScoredPoint Id F => compare b.score a.score)
        (points.entries.map Sigma.snd)).map ScoredPoint.id).Perm points.keys := by
      rw [show points.keys = (points.entries.map Sigma.snd).map ScoredPoint.id by
        rw [map_map]
        exact map_congr_left fun entry hentry => (entry_accumulated hnodup hentry).1.symm]
      exact (perm_insertionSort _ _).map _
    exact (hperm.nodup_iff.mpr points.keys_nodup).sublist (filter_sublist.map _)
  apply Ranked.eq_of_mem_iff _ (ranked_exhaustiveOrder k resolved lists)
  · intro id
    rw [mem_exhaustiveOrder, mem_map]
    constructor
    · rintro ⟨point, hpoint, rfl⟩
      rw [sortBy, mem_insertionSort, hmem] at hpoint
      obtain ⟨⟨entry, hentry, rfl⟩, hpos⟩ := hpoint
      obtain ⟨hid, hscore⟩ := entry_accumulated hnodup hentry
      rwa [hid, ← hscore]
    intro hpos
    obtain ⟨point, hentry⟩ := exists_entry_accumulated hnodup hpos
    obtain ⟨hid, hscore⟩ := entry_accumulated hnodup hentry
    refine ⟨point, ?_, hid⟩
    rw [sortBy, mem_insertionSort, hmem]
    exact ⟨⟨_, hentry, rfl⟩, hscore ▸ hpos⟩
  · apply ranked_map_sortBy_rrfOrder hids
    intro point hpoint
    obtain ⟨⟨entry, hentry, rfl⟩, _⟩ := (hmem point).mp hpoint
    obtain ⟨hid, hscore⟩ := entry_accumulated hnodup hentry
    rw [hscore, hid]

end Scoring

end Stratumind
