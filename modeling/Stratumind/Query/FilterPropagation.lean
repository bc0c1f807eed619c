import Stratumind.Query.PlannedQuery

/-!
# Filters along prefetches

Planning merges the filters on the way from the root of a request to each leaf. `must` and
`must_not` clauses merge into their conjunction; merged `should` and `min_should` clauses only
ask for some conditions of all filters together.
-/

namespace Stratumind.Query

open List

section Paths

variable {C : Type}

/-- The filter that planning attaches to a leaf with these filters above it. -/
def mergePath (path : List (Option (FilterOf C))) : Option (FilterOf C) :=
  path.foldl FilterOf.mergeOpts none

/-- Clauses of one kind, merged. -/
def joinClauses : List (List C) → Option (List C)
  | [] => none
  | clauses => some clauses.flatten

/-- `min_should` clauses, merged. -/
def joinMinShould : List (MinShould C) → Option (MinShould C)
  | [] => none
  | clauses => some ⟨clauses.flatMap MinShould.conditions,
      (clauses.map MinShould.minCount).foldl max 0⟩

/-- The clauses of one kind along a path. -/
def clausesAlong {B : Type} (clause : FilterOf C → Option B) (path : List (Option (FilterOf C))) :
    List B :=
  path.filterMap fun filter => filter.bind clause

theorem mergeComponent_joinClauses (clauses : List (List C)) (other : Option (List C)) :
    mergeComponent (joinClauses clauses) other = joinClauses (clauses ++ other.toList) := by
  cases clauses with
  | nil => cases other <;> simp [joinClauses, mergeComponent]
  | cons clause clauses => cases other <;> simp [joinClauses, mergeComponent]

theorem mergeMinShould_joinMinShould (clauses : List (MinShould C)) (other : Option (MinShould C)) :
    mergeMinShould (joinMinShould clauses) other = joinMinShould (clauses ++ other.toList) := by
  cases clauses with
  | nil => cases other <;> simp [joinMinShould, mergeMinShould]
  | cons clause clauses => cases other <;> simp [joinMinShould, mergeMinShould]

theorem clausesAlong_append {B : Type} (clause : FilterOf C → Option B)
    (path : List (Option (FilterOf C))) (filter : Option (FilterOf C)) :
    clausesAlong clause (path ++ [filter]) =
      clausesAlong clause path ++ (filter.bind clause).toList := by
  unfold clausesAlong
  cases h : filter.bind clause <;> simp [h]

theorem mergePath_append (path : List (Option (FilterOf C))) (filter : Option (FilterOf C)) :
    mergePath (path ++ [filter]) = FilterOf.mergeOpts (mergePath path) filter := by
  rw [mergePath, foldl_append]
  rfl

private theorem mergeComponent_none (clause : Option (List C)) :
    mergeComponent clause none = clause ∧ mergeComponent none clause = clause := by
  cases clause <;> exact ⟨rfl, rfl⟩

private theorem mergeMinShould_none (clause : Option (MinShould C)) :
    mergeMinShould clause none = clause ∧ mergeMinShould none clause = clause := by
  cases clause <;> exact ⟨rfl, rfl⟩

/-- Filters merge clause by clause. -/
private theorem mergeOpts_clauses (this other : Option (FilterOf C)) :
    (FilterOf.mergeOpts this other).bind FilterOf.should =
      mergeComponent (this.bind FilterOf.should) (other.bind FilterOf.should) ∧
    (FilterOf.mergeOpts this other).bind FilterOf.minShould =
      mergeMinShould (this.bind FilterOf.minShould) (other.bind FilterOf.minShould) ∧
    (FilterOf.mergeOpts this other).bind FilterOf.must =
      mergeComponent (this.bind FilterOf.must) (other.bind FilterOf.must) ∧
    (FilterOf.mergeOpts this other).bind FilterOf.mustNot =
      mergeComponent (this.bind FilterOf.mustNot) (other.bind FilterOf.mustNot) := by
  cases this <;> cases other <;>
    simp [FilterOf.mergeOpts, FilterOf.mergeOwned, mergeComponent_none, mergeMinShould_none]

/-- A merged clause is the merge of the clauses along the path. -/
theorem mergePath_clauses (path : List (Option (FilterOf C))) :
    (mergePath path).bind FilterOf.should = joinClauses (clausesAlong FilterOf.should path) ∧
    (mergePath path).bind FilterOf.minShould =
      joinMinShould (clausesAlong FilterOf.minShould path) ∧
    (mergePath path).bind FilterOf.must = joinClauses (clausesAlong FilterOf.must path) ∧
    (mergePath path).bind FilterOf.mustNot = joinClauses (clausesAlong FilterOf.mustNot path) := by
  induction path using reverseRecOn with
  | nil => exact ⟨rfl, rfl, rfl, rfl⟩
  | append_singleton path filter ih =>
    obtain ⟨hshould, hminShould, hmust, hmustNot⟩ := ih
    simp only [mergePath_append, clausesAlong_append, ← mergeComponent_joinClauses,
      ← mergeMinShould_joinMinShould, ← hshould, ← hminShould, ← hmust, ← hmustNot]
    exact mergeOpts_clauses (mergePath path) filter

end Paths

section Acceptance

variable {A : Type} (checker : A → Bool)

/-- Acceptance of an optional filter, clause by clause. -/
theorem checkOptional_eq_true {filter : Option (Filter A)} :
    checkOptional checker filter = true ↔
      checkShould checker (filter.bind FilterOf.should) = true ∧
      checkMinShould checker (filter.bind FilterOf.minShould) = true ∧
      checkMust checker (filter.bind FilterOf.must) = true ∧
      checkMustNot checker (filter.bind FilterOf.mustNot) = true := by
  cases filter with
  | none => simp [checkOptional, checkShould, checkMinShould, checkMust, checkMustNot]
  | some filter =>
    rw [checkOptional, Option.all_some, checkFilter_eq_true]
    rfl

variable {clauses : List (List (Condition A))}

/-- Some merged `should` condition holds if some filter has one that holds. -/
theorem checkShould_joinClauses :
    checkShould checker (joinClauses clauses) = true ↔
      clauses = [] ∨ ∃ clause ∈ clauses, checkShould checker (some clause) = true := by
  cases clauses with
  | nil => simp [joinClauses, checkShould]
  | cons clause clauses =>
    simp [joinClauses, checkShould, anyCondition_eq]

/-- Merged `must` clauses are their conjunction. -/
theorem checkMust_joinClauses :
    checkMust checker (joinClauses clauses) = true ↔
      ∀ clause ∈ clauses, checkMust checker (some clause) = true := by
  cases clauses with
  | nil => simp [joinClauses, checkMust]
  | cons clause clauses =>
    simp [joinClauses, checkMust, allConditions_eq]

/-- Merged `must_not` clauses are their conjunction. -/
theorem checkMustNot_joinClauses :
    checkMustNot checker (joinClauses clauses) = true ↔
      ∀ clause ∈ clauses, checkMustNot checker (some clause) = true := by
  cases clauses with
  | nil => simp [joinClauses, checkMustNot]
  | cons clause clauses =>
    simp [joinClauses, checkMustNot, noCondition_eq]

/-- How many `min_should` conditions of several clauses hold. -/
def minShouldHits (clauses : List (MinShould (Condition A))) : ℕ :=
  (clauses.map fun clause => countConditions checker clause.conditions).sum

/-- A merged `min_should` clause asks all its conditions together for the greatest count. -/
theorem checkMinShould_joinMinShould {clauses : List (MinShould (Condition A))} :
    checkMinShould checker (joinMinShould clauses) = true ↔
      ∀ clause ∈ clauses, clause.minCount ≤ minShouldHits checker clauses := by
  have hcount : ∀ clauses : List (MinShould (Condition A)),
      countConditions checker (clauses.flatMap MinShould.conditions) =
        minShouldHits checker clauses := by
    intro clauses
    induction clauses with
    | nil => rfl
    | cons clause clauses ih =>
      rw [flatMap_cons, countConditions_append, ih, minShouldHits, minShouldHits,
        map_cons, sum_cons]
  have hmax : ∀ (counts : List ℕ) (start bound : ℕ),
      counts.foldl max start ≤ bound ↔ start ≤ bound ∧ ∀ count ∈ counts, count ≤ bound := by
    intro counts
    induction counts with
    | nil => simp
    | cons count counts ih =>
      intro start bound
      rw [foldl_cons, ih, max_le_iff, forall_mem_cons, and_assoc]
  cases clauses with
  | nil => simp [joinMinShould, checkMinShould]
  | cons clause clauses =>
    simp only [joinMinShould]
    rw [checkMinShould_some, hcount, hmax]
    simp

variable {path : List (Option (Filter A))}

theorem mem_clausesAlong {B : Type} {clause : FilterOf (Condition A) → Option B} {b : B} :
    b ∈ clausesAlong clause path ↔ ∃ filter ∈ path, filter.bind clause = some b := by
  rw [clausesAlong, mem_filterMap]

/-- All filters of a path accept if all their clauses do. -/
theorem forall_checkOptional_iff :
    (∀ filter ∈ path, checkOptional checker filter = true) ↔
      (∀ clause ∈ clausesAlong FilterOf.should path, checkShould checker (some clause) = true) ∧
      (∀ clause ∈ clausesAlong FilterOf.minShould path,
        checkMinShould checker (some clause) = true) ∧
      (∀ clause ∈ clausesAlong FilterOf.must path, checkMust checker (some clause) = true) ∧
      ∀ clause ∈ clausesAlong FilterOf.mustNot path,
        checkMustNot checker (some clause) = true := by
  simp only [checkOptional_eq_true, mem_clausesAlong]
  constructor
  · grind
  rintro ⟨hshould, hminShould, hmust, hmustNot⟩ filter hfilter
  refine ⟨?_, ?_, ?_, ?_⟩
  · cases hclause : filter.bind FilterOf.should with
    | none => rfl
    | some clause => exact hshould clause ⟨filter, hfilter, hclause⟩
  · cases hclause : filter.bind FilterOf.minShould with
    | none => rfl
    | some clause => exact hminShould clause ⟨filter, hfilter, hclause⟩
  · cases hclause : filter.bind FilterOf.must with
    | none => rfl
    | some clause => exact hmust clause ⟨filter, hfilter, hclause⟩
  · cases hclause : filter.bind FilterOf.mustNot with
    | none => rfl
    | some clause => exact hmustNot clause ⟨filter, hfilter, hclause⟩

/-- The filter of a leaf accepts exactly what every filter on its path accepts. -/
def Conjunctive (filter : Option (Filter A)) (path : List (Option (Filter A))) : Prop :=
  checkOptional checker filter = true ↔ ∀ above ∈ path, checkOptional checker above = true

/-- On the path at most one `should` clause occurs, perhaps in several filters, and at most one
filter has a `min_should` clause. -/
def OneDisjunction (path : List (Option (Filter A))) : Prop :=
  (∀ clause ∈ clausesAlong FilterOf.should path, ∀ other ∈ clausesAlong FilterOf.should path,
    clause = other) ∧
  (clausesAlong FilterOf.minShould path).length ≤ 1

/-- A merged filter accepts every point that all filters of the path accept. -/
theorem checkOptional_mergePath (h : ∀ filter ∈ path, checkOptional checker filter = true) :
    checkOptional checker (mergePath path) = true := by
  obtain ⟨hshould, hminShould, hmust, hmustNot⟩ := mergePath_clauses path
  rw [checkOptional_eq_true, hshould, hminShould, hmust, hmustNot, checkShould_joinClauses,
    checkMinShould_joinMinShould, checkMust_joinClauses, checkMustNot_joinClauses]
  obtain ⟨hall, hallMin, hmusts, hmustNots⟩ := (forall_checkOptional_iff checker).mp h
  refine ⟨?_, fun clause hclause => ?_, hmusts, hmustNots⟩
  · cases hclauses : clausesAlong FilterOf.should path with
    | nil => exact Or.inl rfl
    | cons clause clauses =>
      have hmem : clause ∈ clausesAlong FilterOf.should path := by
        rw [hclauses]
        exact mem_cons_self
      exact Or.inr ⟨clause, mem_cons_self, hall clause hmem⟩
  · refine ((checkMinShould_some checker).mp (hallMin clause hclause)).trans ?_
    exact single_le_sum (fun _ _ => Nat.zero_le _) _ (mem_map_of_mem hclause)

/-- Merging is conjunction where only one clause is a disjunction. -/
theorem conjunctive_mergePath (h : OneDisjunction path) :
    Conjunctive checker (mergePath path) path := by
  refine ⟨fun haccepted => ?_, checkOptional_mergePath checker⟩
  obtain ⟨hshould, hminShould, hmust, hmustNot⟩ := mergePath_clauses path
  rw [checkOptional_eq_true, hshould, hminShould, hmust, hmustNot, checkShould_joinClauses,
    checkMinShould_joinMinShould, checkMust_joinClauses, checkMustNot_joinClauses] at haccepted
  obtain ⟨hsome, hcounts, hmusts, hmustNots⟩ := haccepted
  refine (forall_checkOptional_iff checker).mpr ⟨?_, ?_, hmusts, hmustNots⟩
  · intro clause hclause
    rcases hsome with hnone | ⟨other, hother, hcheck⟩
    · rw [hnone] at hclause
      exact absurd hclause not_mem_nil
    · rwa [h.1 clause hclause other hother]
  · intro clause hclause
    -- the only clause has all the hits
    obtain ⟨only, honly⟩ := length_eq_one_iff.mp
      (Nat.le_antisymm h.2 (length_pos_of_mem hclause))
    have hcount := hcounts clause hclause
    rw [honly] at hclause hcount
    obtain rfl := mem_singleton.mp hclause
    rw [checkMinShould_some]
    simpa [minShouldHits] using hcount

end Acceptance

section Leaves

variable {D : QueryTypes}

/-- A leaf: its query and the filters from the root down to it. -/
abbrev Leaf (D : QueryTypes) := Option (ScoringQuery D) × List (Option (Filter D.LeafCondition))

mutual

/-- The leaves below a prefetch, with the filters above it. -/
def leavesOf (path : List (Option (Filter D.LeafCondition))) : ShardPrefetch D → List (Leaf D)
  | ⟨prefetches, query, _, _, filter, _⟩ =>
    if prefetches.isEmpty then [(query, path ++ [filter])]
    else leavesOver (path ++ [filter]) prefetches

/-- The leaves below several prefetches. -/
def leavesOver (path : List (Option (Filter D.LeafCondition))) :
    List (ShardPrefetch D) → List (Leaf D)
  | [] => []
  | prefetch :: prefetches => leavesOf path prefetch ++ leavesOver path prefetches

end

/-- The leaves of a request. -/
def ShardQueryRequest.leaves (request : ShardQueryRequest D) : List (Leaf D) :=
  if request.prefetches.isEmpty then [(request.query, [request.filter])]
  else leavesOver [request.filter] request.prefetches

/-- The leaf becomes a search; otherwise a scroll. -/
def isSearch : Option (ScoringQuery D) → Bool
  | some (.vector _) => true
  | some (.mmr _) => true
  | _ => false

/-- The paths of the leaves that become searches. -/
def searchPaths (leaves : List (Leaf D)) : List (List (Option (Filter D.LeafCondition))) :=
  (leaves.filter fun leaf => isSearch leaf.1).map Prod.snd

/-- The paths of the leaves that become scrolls. -/
def scrollPaths (leaves : List (Leaf D)) : List (List (Option (Filter D.LeafCondition))) :=
  (leaves.filter fun leaf => !isSearch leaf.1).map Prod.snd

/-- Planning added a search or scroll with the merged filter for each leaf, in order. -/
def Attached (planned after : PlannedQuery D) (leaves : List (Leaf D)) : Prop :=
  (∃ searches, after.searches = planned.searches ++ searches ∧
    searches.map CoreSearchRequest.filter = (searchPaths leaves).map mergePath) ∧
  ∃ scrolls, after.scrolls = planned.scrolls ++ scrolls ∧
    scrolls.map QueryScrollRequestInternal.filter = (scrollPaths leaves).map mergePath

theorem Attached.append {planned middle after : PlannedQuery D} {first second : List (Leaf D)}
    (hfirst : Attached planned middle first) (hsecond : Attached middle after second) :
    Attached planned after (first ++ second) := by
  obtain ⟨⟨searches, hsearches, hfilters⟩, scrolls, hscrolls, hscrollFilters⟩ := hfirst
  obtain ⟨⟨searches', hsearches', hfilters'⟩, scrolls', hscrolls', hscrollFilters'⟩ := hsecond
  refine ⟨⟨searches ++ searches', ?_, ?_⟩, scrolls ++ scrolls', ?_, ?_⟩
  · rw [hsearches', hsearches, append_assoc]
  · rw [map_append, hfilters, hfilters']
    simp [searchPaths]
  · rw [hscrolls', hscrolls, append_assoc]
  · rw [map_append, hscrollFilters, hscrollFilters']
    simp [scrollPaths]

/-- A leaf source is attached under its own filter. -/
theorem leafSourceFromScoringQuery_attached {planned after : PlannedQuery D}
    {query : Option (ScoringQuery D)} {limit : ℕ} {params : Option D.SearchParams}
    {scoreThreshold : Option D.Score} {path : List (Option (Filter D.LeafCondition))}
    {source : Source D}
    (h : leafSourceFromScoringQuery planned query limit params scoreThreshold (mergePath path) =
      (.ok source, after)) : Attached planned after [(query, path)] := by
  match query with
  | some (.vector _) =>
    cases h
    exact ⟨⟨[_], rfl, rfl⟩, [], by simp, rfl⟩
  | some (.fusion _) => cases h
  | some (.orderBy _) =>
    cases h
    exact ⟨⟨[], by simp, rfl⟩, [_], rfl, rfl⟩
  | some (.formula _) => cases h
  | some (.sample .random) =>
    cases h
    exact ⟨⟨[], by simp, rfl⟩, [_], rfl, rfl⟩
  | some (.mmr _) =>
    cases h
    exact ⟨⟨[_], rfl, rfl⟩, [], by simp, rfl⟩
  | none =>
    cases h
    exact ⟨⟨[], by simp, rfl⟩, [_], rfl, rfl⟩

mutual

/-- Planning prefetches attaches all leaves below them. -/
theorem recursePrefetches_attached {planned after : PlannedQuery D}
    {path : List (Option (Filter D.LeafCondition))} {sources : List (Source D)} :
    (prefetches : List (ShardPrefetch D)) →
    recursePrefetches planned (mergePath path) prefetches = (.ok sources, after) →
    Attached planned after (leavesOver path prefetches)
  | [], h => by
    rw [recursePrefetches] at h
    cases h
    rw [leavesOver]
    exact ⟨⟨[], by simp, rfl⟩, [], by simp, rfl⟩
  | prefetch :: prefetches, h => by
    rw [recursePrefetches] at h
    rw [leavesOver]
    split at h
    · cases h
    rename_i source middle hsource
    split at h
    · cases h
    rename_i rest last hrest
    cases h
    exact (sourceOfPrefetch_attached prefetch hsource).append
      (recursePrefetches_attached prefetches hrest)

/-- Planning a prefetch attaches all leaves below it. -/
theorem sourceOfPrefetch_attached {planned after : PlannedQuery D}
    {path : List (Option (Filter D.LeafCondition))} {source : Source D} :
    (prefetch : ShardPrefetch D) →
    sourceOfPrefetch planned (mergePath path) prefetch = (.ok source, after) →
    Attached planned after (leavesOf path prefetch)
  | ⟨prefetches, query, limit, params, filter, scoreThreshold⟩, h => by
    rw [sourceOfPrefetch] at h
    rw [leavesOf]
    rw [← mergePath_append] at h
    by_cases hempty : prefetches.isEmpty = true
    · rw [if_pos hempty] at h ⊢
      exact leafSourceFromScoringQuery_attached h
    rw [if_neg hempty] at h ⊢
    split at h
    · cases h
    rename_i inner middle hinner
    have hattached := recursePrefetches_attached prefetches hinner
    split at h
    · cases h
    dsimp only at h
    split at h <;> cases h
    exact hattached

end

variable {request : ShardQueryRequest D}

/-- A root plan over prefetches attaches the leaves below them. -/
theorem rootPlanWithPrefetches_attached {planned after : PlannedQuery D} {withVector : WithVector}
    {limit : ℕ} {plan : RootPlan D}
    (h : rootPlanWithPrefetches planned request withVector limit = (.ok plan, after)) :
    Attached planned after (leavesOver [request.filter] request.prefetches) := by
  have hroot : request.filter = mergePath [request.filter] := by
    cases request.filter <;> rfl
  unfold rootPlanWithPrefetches at h
  split at h
  · cases h
  rw [hroot] at h
  split at h
  · cases h
  rename_i sources middle hsources
  dsimp only at h
  split at h <;> cases h
  exact recursePrefetches_attached request.prefetches hsources

/-- A root plan without prefetches attaches the request itself. -/
theorem rootPlanWithoutPrefetches_attached {planned after : PlannedQuery D}
    {withVector : WithVector} {limit : ℕ} {plan : RootPlan D}
    (h : rootPlanWithoutPrefetches planned request withVector limit = (.ok plan, after)) :
    Attached planned after [(request.query, [request.filter])] := by
  have hroot : request.filter = mergePath [request.filter] := by
    cases request.filter <;> rfl
  unfold rootPlanWithoutPrefetches at h
  rw [hroot] at h
  dsimp only at h
  split at h
  · cases h
  rename_i source middle hsource
  split at h <;> cases h
  exact leafSourceFromScoringQuery_attached hsource

/-- Planning a request attaches all its leaves. -/
theorem PlannedQuery.add_attached {planned after : PlannedQuery D}
    (h : planned.add request = (.ok (), after)) : Attached planned after request.leaves := by
  unfold PlannedQuery.add at h
  dsimp only at h
  by_cases hdepth : request.prefetchesDepth > maxPrefetchDepth
  · rw [if_pos hdepth] at h
    cases h
  rw [if_neg hdepth] at h
  unfold ShardQueryRequest.leaves
  by_cases hempty : request.prefetches.isEmpty = true
  · rw [if_pos hempty] at h ⊢
    split at h
    · cases h
    rename_i plan middle hplan
    cases h
    have hattached := rootPlanWithoutPrefetches_attached hplan
    exact hattached
  rw [if_neg hempty] at h ⊢
  split at h
  · cases h
  rename_i plan middle hplan
  cases h
  have hattached := rootPlanWithPrefetches_attached hplan
  exact hattached

/-- If on the way to every leaf only one `should` clause and one filter with a `min_should` clause
occur, then the filter that `PlannedQuery::add` attaches to each leaf accepts exactly the points
that all filters on the way accept. -/
theorem planned_filters_conjunctive {planned after : PlannedQuery D}
    {request : ShardQueryRequest D} (h : planned.add request = (.ok (), after))
    (hone : ∀ leaf ∈ request.leaves, OneDisjunction leaf.2) :
    ∃ searches scrolls, after.searches = planned.searches ++ searches ∧
      after.scrolls = planned.scrolls ++ scrolls ∧
      ∀ checker : D.LeafCondition → Bool,
        Forall₂ (Conjunctive checker) (searches.map CoreSearchRequest.filter)
          (searchPaths request.leaves) ∧
        Forall₂ (Conjunctive checker) (scrolls.map QueryScrollRequestInternal.filter)
          (scrollPaths request.leaves) := by
  obtain ⟨⟨searches, hsearches, hfilters⟩, scrolls, hscrolls, hscrollFilters⟩ :=
    PlannedQuery.add_attached h
  refine ⟨searches, scrolls, hsearches, hscrolls, fun checker => ?_⟩
  have hpaths : ∀ keep : Leaf D → Bool, Forall₂ (Conjunctive checker)
      (((request.leaves.filter keep).map Prod.snd).map mergePath)
      ((request.leaves.filter keep).map Prod.snd) := by
    intro keep
    rw [forall₂_map_left_iff, forall₂_same]
    intro path hpath
    obtain ⟨leaf, hleaf, rfl⟩ := mem_map.mp hpath
    exact conjunctive_mergePath checker (hone leaf (mem_of_mem_filter hleaf))
  rw [hfilters, hscrollFilters]
  exact ⟨hpaths _, hpaths _⟩

end Leaves

section Example

/-- Leaf conditions with numbers, and no other data. -/
def numberedConditions : QueryTypes :=
  ⟨ℕ, Unit, Unit, Unit, Unit, Unit, Unit, Unit, ()⟩

/-- A request with one prefetch, which scrolls, and a filter on both levels. -/
def nestedRequest (outer inner : Filter ℕ) : ShardQueryRequest numberedConditions where
  prefetches := [⟨[], none, 10, none, some inner, none⟩]
  query := some (.vector (.other ()))
  filter := some outer
  scoreThreshold := none
  limit := 10
  offset := 0
  params := none
  withVector := .bool false
  withPayload := ()

/-- The filter with one `should` condition. -/
def newShould (condition : ℕ) : Filter ℕ := ⟨some [.leaf condition], none, none, none⟩

/-- A `should` clause above a filter with clauses of the other kinds, for every point. -/
theorem planned_filters_conjunctive_two_levels :
    let inner : Filter ℕ := ⟨none, some ⟨[.leaf 1, .leaf 2, .leaf 3], 2⟩, some [.leaf 4],
      some [.leaf 5]⟩
    ∃ after, PlannedQuery.add (D := numberedConditions) ⟨[], [], []⟩
        (nestedRequest (newShould 0) inner) = (.ok (), after) ∧
      ∀ checker : ℕ → Bool, Forall₂ (Conjunctive checker)
        (after.scrolls.map QueryScrollRequestInternal.filter)
        [[some (newShould 0), some inner]] := by
  intro inner
  have hadd : PlannedQuery.add (D := numberedConditions) ⟨[], [], []⟩
      (nestedRequest (newShould 0) inner) = (.ok (), _) := rfl
  obtain ⟨searches, scrolls, -, hscrolls, hconjunctive⟩ := planned_filters_conjunctive hadd (by
    intro leaf hleaf
    rw [mem_singleton.mp hleaf]
    refine ⟨fun clause hclause other hother => ?_, le_rfl⟩
    rw [mem_singleton.mp hclause, mem_singleton.mp hother])
  refine ⟨_, hadd, fun checker => ?_⟩
  rw [hscrolls, nil_append]
  exact (hconjunctive checker).2

/-- Of two `should` filters, a leaf only has to pass one. -/
theorem nested_should_not_conjunctive :
    ∃ after filter, PlannedQuery.add (D := numberedConditions) ⟨[], [], []⟩
        (nestedRequest (newShould 0) (newShould 1)) = (.ok (), after) ∧
      after.scrolls.map QueryScrollRequestInternal.filter = [filter] ∧
      checkOptional (fun condition : ℕ => condition == 1) filter = true ∧
      checkOptional (fun condition : ℕ => condition == 1) (some (newShould 0)) = false :=
  ⟨_, _, rfl, rfl, rfl, rfl⟩

end Example

end Stratumind.Query
