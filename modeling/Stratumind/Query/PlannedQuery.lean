import Stratumind.Common.Types
import Stratumind.Query.Filter

/-!
# Cardinality of filters

How `query_estimator.rs` combines estimations of the number of points that pass a condition, with
exact arithmetic for the expected numbers.
-/

namespace Stratumind.Query

/-- `CardinalityEstimation`: the clauses for a first selection of points, and how many points
match at least, probably and at most. -/
structure CardinalityEstimation (P : Type) where
  primaryClauses : List P
  min : ℕ
  exp : ℕ
  max : ℕ
  deriving DecidableEq

variable {P : Type}

/-- `CardinalityEstimation::exact`. -/
def CardinalityEstimation.exact (count : ℕ) : CardinalityEstimation P := ⟨[], count, count, count⟩

/-- Rounds a number that is not negative. -/
def roundCount (x : ℚ) : ℕ := ⌊x + 1 / 2⌋₊

/-- `expected_should_estimation`. -/
def expectedShouldEstimation (estimations : List ℕ) (total : ℕ) : ℕ :=
  if total = 0 then 0
  else roundCount ((1 - (estimations.map fun x : ℕ => 1 - (x : ℚ) / total).prod) * total)

/-- `combine_should_estimations`. A branch without clauses leaves none for the whole. -/
def combineShouldEstimations (estimations : List (CardinalityEstimation P)) (total : ℕ) :
    CardinalityEstimation P where
  primaryClauses :=
    if estimations.any (·.primaryClauses.isEmpty) then []
    else estimations.flatMap (·.primaryClauses)
  min := (estimations.map (·.min)).max?.getD 0
  exp := expectedShouldEstimation (estimations.map (·.exp)) total
  max := Min.min (estimations.map (·.max)).sum total

/-- `combine_must_estimations`. The minimum stays at zero once it has dropped to it. -/
def combineMustEstimations (estimations : List (CardinalityEstimation P)) (total : ℕ) :
    CardinalityEstimation P where
  primaryClauses := (((estimations.filter fun x => !x.primaryClauses.isEmpty).argmin (·.exp)).map
    (·.primaryClauses)).getD []
  min := (estimations.map (·.min)).foldl (fun acc x => acc + x - total) total
  exp := roundCount ((estimations.map fun x => (x.exp : ℚ) / total).prod * total)
  max := (estimations.map (·.max)).min?.getD total

/-- `combinations` of `itertools`: the sublists of a length, in lexicographic order. -/
def combinations {α : Type} : ℕ → List α → List (List α)
  | 0, _ => [[]]
  | _ + 1, [] => []
  | count + 1, x :: xs => (combinations count xs).map (x :: ·) ++ combinations (count + 1) xs

/-- `combine_min_should_estimations`. -/
def combineMinShouldEstimations (estimations : List (CardinalityEstimation P))
    (minCount total : ℕ) : CardinalityEstimation P :=
  if estimations.length < minCount then .exact 0
  else combineShouldEstimations
    ((combinations minCount estimations).map (combineMustEstimations · total)) total

/-- `invert_estimation`. -/
def invertEstimation (estimation : CardinalityEstimation P) (total : ℕ) : CardinalityEstimation P :=
  ⟨[], total - estimation.max, total - estimation.exp, total - estimation.min⟩

/-!
### Optimized filters

`optimizer.rs` turns a filter into one whose leaf conditions are checkers of points and whose
clauses are sorted by the expected number of points. Clauses without conditions are left out.
-/

open List

variable {A P X : Type}

/-- `OptimizedCondition`: a checker of points, or a filter of such conditions. -/
abbrev OptimizedCondition (X : Type) := Condition (X → Bool)

/-- `OptimizedFilter`. -/
abbrev OptimizedFilter (X : Type) := Filter (X → Bool)

/-- `check_optimized_filter`, which checks the clauses as `check_filter` does. -/
def checkOptimizedFilter (filter : OptimizedFilter X) (pointId : X) : Bool :=
  checkFilter (fun checker => checker pointId) filter

/-- Sorts converted conditions and combines their estimations. -/
def sortConverted (key : CardinalityEstimation P → ℤ)
    (combine : List (CardinalityEstimation P) → CardinalityEstimation P)
    (converted : List (OptimizedCondition X × CardinalityEstimation P)) :
    List (OptimizedCondition X) × CardinalityEstimation P :=
  let sorted := converted.insertionSort fun a b => key a.2 ≤ key b.2
  (sorted.map Prod.fst, combine (sorted.map Prod.snd))

section Optimize

variable (conditionCardinality : A → OperationResult (CardinalityEstimation P))
  (conditionConverter : A → X → Bool) (total : ℕ)

mutual

/-- The body of `convert_conditions`. -/
def convertCondition :
    Condition A → OperationResult (OptimizedCondition X × CardinalityEstimation P)
  | .leaf condition => do
    let estimation ← conditionCardinality condition
    return (.leaf (conditionConverter condition), estimation)
  | .filter filter => do
    let (optimizedFilter, estimation) ← optimizeFilter filter
    return (.filter optimizedFilter, estimation)

/-- `convert_conditions`. -/
def convertConditions :
    List (Condition A) → OperationResult (List (OptimizedCondition X × CardinalityEstimation P))
  | [] => .ok []
  | condition :: conditions => do
    let first ← convertCondition condition
    let rest ← convertConditions conditions
    return first :: rest

/-- `optimize_filter`. -/
def optimizeFilter :
    FilterOf (Condition A) → OperationResult (OptimizedFilter X × CardinalityEstimation P)
  | ⟨should, minShould, must, mustNot⟩ => do
    let should ← optimizeShould should
    let minShould ← optimizeMinShould minShould
    let must ← optimizeMust must
    let mustNot ← optimizeMustNot mustNot
    let estimations := (should.map Prod.snd).toList ++ (minShould.map Prod.snd).toList ++
      (must.map Prod.snd).toList ++ (mustNot.map Prod.snd).toList
    return (⟨should.map Prod.fst, minShould.map Prod.fst, must.map Prod.fst, mustNot.map Prod.fst⟩,
      combineMustEstimations estimations total)

/-- `optimize_should`: more probable conditions first. -/
def optimizeShould : Option (List (Condition A)) →
    OperationResult (Option (List (OptimizedCondition X) × CardinalityEstimation P))
  | none => .ok none
  | some conditions => if conditions.isEmpty then .ok none else do
    let converted ← convertConditions conditions
    return some (sortConverted (fun x => -x.exp) (combineShouldEstimations · total) converted)

/-- `optimize_min_should`: more probable conditions first if few of them suffice. -/
def optimizeMinShould : Option (MinShould (Condition A)) →
    OperationResult (Option (MinShould (OptimizedCondition X) × CardinalityEstimation P))
  | none => .ok none
  | some ⟨conditions, minCount⟩ => if conditions.isEmpty then .ok none else do
    let converted ← convertConditions conditions
    let key := fun x : CardinalityEstimation P =>
      if minCount < conditions.length / 2 then -(x.exp : ℤ) else x.exp
    let sorted := sortConverted key (combineMinShouldEstimations · minCount total) converted
    return some (⟨sorted.1, minCount⟩, sorted.2)

/-- `optimize_must`: less probable conditions first. -/
def optimizeMust : Option (List (Condition A)) →
    OperationResult (Option (List (OptimizedCondition X) × CardinalityEstimation P))
  | none => .ok none
  | some conditions => if conditions.isEmpty then .ok none else do
    let converted ← convertConditions conditions
    return some (sortConverted (·.exp) (combineMustEstimations · total) converted)

/-- `optimize_must_not`. -/
def optimizeMustNot : Option (List (Condition A)) →
    OperationResult (Option (List (OptimizedCondition X) × CardinalityEstimation P))
  | none => .ok none
  | some conditions => if conditions.isEmpty then .ok none else do
    let converted ← convertConditions conditions
    return some (sortConverted (·.exp)
      (fun estimations => combineMustEstimations (estimations.map (invertEstimation · total)) total)
      converted)

end

end Optimize

/-- No clause of the filter that rejects points is without conditions. -/
def KeepsClauses (filter : Filter A) : Prop :=
  filter.should ≠ some [] ∧ ∀ minCount, filter.minShould = some ⟨[], minCount⟩ → minCount = 0

/-- A result, if there is one, has a property. -/
private def Yields {α : Type} (good : α → Prop) (result : OperationResult α) : Prop :=
  ∀ value, result = .ok value → good value

private theorem Yields.bind {α β : Type} {good : α → Prop} {good' : β → Prop}
    {result : OperationResult α} {f : α → OperationResult β} (h : Yields good result)
    (hf : ∀ value, good value → Yields good' (f value)) : Yields good' (result >>= f) := by
  cases result with
  | error error => exact fun value hvalue => by cases hvalue
  | ok value => exact hf value (h value rfl)

private theorem yields_ok {α : Type} {good : α → Prop} {value : α} (h : good value) :
    Yields good (.ok value) :=
  fun _ hvalue => Except.ok.inj hvalue ▸ h

section Meaning

variable {conditionCardinality : A → OperationResult (CardinalityEstimation P)}
  {conditionConverter : A → X → Bool} {total : ℕ} {conditions : List (Condition A)}

variable (conditionConverter) in
/-- Conditions hold at a point as the optimized ones do, in some order. -/
private def Agrees (optimized : List (OptimizedCondition X)) (conditions : List (Condition A))
    (pointId : X) : Prop :=
  (optimized.map (checkCondition (· pointId))).Perm
    (conditions.map (checkCondition (conditionConverter · pointId)))

/-- Conditions that hold as others do make up the same clauses. -/
private theorem Agrees.checks {optimized : List (OptimizedCondition X)} {pointId : X}
    (h : Agrees conditionConverter optimized conditions pointId) :
    anyCondition (· pointId) optimized = anyCondition (conditionConverter · pointId) conditions ∧
    allConditions (· pointId) optimized = allConditions (conditionConverter · pointId) conditions ∧
    noCondition (· pointId) optimized = noCondition (conditionConverter · pointId) conditions ∧
    countConditions (· pointId) optimized =
      countConditions (conditionConverter · pointId) conditions := by
  simp only [anyCondition_eq, allConditions_eq, noCondition_eq, countConditions_eq]
  exact ⟨by simpa using h.any_eq (f := id), by simpa using h.all_eq (f := id),
    by simpa [Function.comp_def] using h.all_eq (f := not), by simpa using h.countP_eq id⟩

private theorem convertConditions_agrees (pointId : X)
    (h : ∀ condition ∈ conditions, Yields (fun converted => checkCondition (· pointId) converted.1 =
      checkCondition (conditionConverter · pointId) condition)
      (convertCondition conditionCardinality conditionConverter total condition)) :
    Yields (fun converted => ∀ key combine, Agrees conditionConverter
      (sortConverted key combine converted).1 conditions pointId)
      (convertConditions conditionCardinality conditionConverter total conditions) := by
  suffices hmap : Yields (fun converted => converted.map (fun x => checkCondition (· pointId) x.1) =
      conditions.map (checkCondition (conditionConverter · pointId)))
      (convertConditions conditionCardinality conditionConverter total conditions) by
    intro converted hconverted key combine
    rw [Agrees, ← hmap converted hconverted, sortConverted, map_map]
    exact (perm_insertionSort _ converted).map _
  induction conditions with
  | nil =>
    exact yields_ok rfl
  | cons condition conditions ih =>
    obtain ⟨hfirst, hrest⟩ := forall_mem_cons.mp h
    refine hfirst.bind fun first hfirst => (ih hrest).bind fun rest hrest => yields_ok ?_
    rw [map_cons, map_cons, hfirst, hrest]

/-- A filter without dropped clauses is optimized to one that accepts the same points. -/
private theorem optimizeFilter_agrees {filter : Filter A} (hkeeps : KeepsClauses filter)
    (pointId : X) (h : ∀ condition ∈ filter.conditions,
      Yields (fun converted => checkCondition (· pointId) converted.1 =
        checkCondition (conditionConverter · pointId) condition)
      (convertCondition conditionCardinality conditionConverter total condition)) :
    Yields (fun optimized => checkOptimizedFilter optimized.1 pointId =
        checkFilter (conditionConverter · pointId) filter)
      (optimizeFilter conditionCardinality conditionConverter total filter) := by
  obtain ⟨should, minShould, must, mustNot⟩ := filter
  simp only [FilterOf.conditions, forall_mem_append] at h
  obtain ⟨hshould, hminShould, hmust, hmustNot⟩ := h
  have hshould : Yields (fun clause => checkShould (· pointId) (clause.map Prod.fst) =
      checkShould (conditionConverter · pointId) should)
      (optimizeShould conditionCardinality conditionConverter total should) := by
    cases should with
    | none =>
      exact yields_ok (by simp [checkShould])
    | some conditions =>
      have hne : conditions ≠ [] := fun hempty => hkeeps.1 (congrArg some hempty)
      rw [optimizeShould, if_neg (mt List.isEmpty_iff.mp hne)]
      refine (convertConditions_agrees pointId hshould).bind fun converted hagrees => yields_ok ?_
      exact (hagrees _ _).checks.1
  have hminShould : Yields (fun clause => checkMinShould (· pointId) (clause.map Prod.fst) =
      checkMinShould (conditionConverter · pointId) minShould)
      (optimizeMinShould conditionCardinality conditionConverter total minShould) := by
    cases minShould with
    | none =>
      exact yields_ok (by simp [checkMinShould])
    | some clause =>
      obtain ⟨conditions, minCount⟩ := clause
      rw [optimizeMinShould]
      split
      · rename_i hempty
        obtain rfl := isEmpty_iff.mp hempty
        exact yields_ok (by simp [checkMinShould, hkeeps.2 minCount rfl])
      refine (convertConditions_agrees pointId hminShould).bind fun converted hagrees =>
        yields_ok ?_
      exact congrArg (fun count => decide (min minCount count = minCount))
        (hagrees _ _).checks.2.2.2
  have hmust : Yields (fun clause => checkMust (· pointId) (clause.map Prod.fst) =
      checkMust (conditionConverter · pointId) must)
      (optimizeMust conditionCardinality conditionConverter total must) := by
    cases must with
    | none =>
      exact yields_ok (by simp [checkMust])
    | some conditions =>
      rw [optimizeMust]
      split
      · rename_i hempty
        exact yields_ok (by simp [checkMust, isEmpty_iff.mp hempty, allConditions])
      · refine (convertConditions_agrees pointId hmust).bind fun converted hagrees => yields_ok ?_
        exact (hagrees _ _).checks.2.1
  have hmustNot : Yields (fun clause => checkMustNot (· pointId) (clause.map Prod.fst) =
      checkMustNot (conditionConverter · pointId) mustNot)
      (optimizeMustNot conditionCardinality conditionConverter total mustNot) := by
    cases mustNot with
    | none =>
      exact yields_ok (by simp [checkMustNot])
    | some conditions =>
      rw [optimizeMustNot]
      split
      · rename_i hempty
        exact yields_ok (by simp [checkMustNot, isEmpty_iff.mp hempty, noCondition])
      · refine (convertConditions_agrees pointId hmustNot).bind fun converted hagrees =>
          yields_ok ?_
        exact (hagrees _ _).checks.2.2.1
  refine hshould.bind fun _ hshould => hminShould.bind fun _ hminShould =>
    hmust.bind fun _ hmust => hmustNot.bind fun _ hmustNot => yields_ok ?_
  simp only [checkOptimizedFilter, checkFilter, hshould, hminShould, hmust, hmustNot]

end Meaning

/-- **Optimized filters.** If no filter in the tree has an empty `should` list, or an empty
`min_should` list with a positive count, then the optimized filter accepts the same points,
whatever the estimations are. -/
theorem checkOptimizedFilter_eq
    (conditionCardinality : A → OperationResult (CardinalityEstimation P))
    (conditionConverter : A → X → Bool) (total : ℕ) (filter : Filter A)
    (hkeeps : Everywhere KeepsClauses (.filter filter)) {optimized : OptimizedFilter X}
    {estimation : CardinalityEstimation P}
    (h : optimizeFilter conditionCardinality conditionConverter total filter =
      .ok (optimized, estimation)) (pointId : X) :
    checkOptimizedFilter optimized pointId =
      checkFilter (conditionConverter · pointId) filter := by
  have hcondition : ∀ condition, Everywhere KeepsClauses condition →
      Yields (fun converted => checkCondition (· pointId) converted.1 =
        checkCondition (conditionConverter · pointId) condition)
        (convertCondition conditionCardinality conditionConverter total condition) := by
    intro condition hcondition
    induction hcondition with
    | leaf condition =>
      have hany : Yields (fun _ => True) (conditionCardinality condition) := fun _ _ => trivial
      exact hany.bind fun estimation _ => yields_ok (by simp only [checkCondition])
    | filter hkeeps _ ih =>
      refine (optimizeFilter_agrees hkeeps pointId ih).bind fun optimized hagrees => yields_ok ?_
      exact hagrees
  cases hkeeps with
  | filter hkeeps hconditions =>
    exact optimizeFilter_agrees hkeeps pointId
      (fun condition hmem => hcondition _ (hconditions _ hmem)) _ h

/-- A filter with all kinds of clauses and a nested filter under `should`. -/
theorem checkOptimizedFilter_eq_nested :
    let nested : Filter ℕ := ⟨none, none, some [.leaf 0, .leaf 1], none⟩
    let filter : Filter ℕ := ⟨some [.leaf 2, .filter nested],
      some ⟨[.leaf 0, .leaf 1, .leaf 2], 2⟩, some [.leaf 0, .leaf 1], some [.leaf 3]⟩
    let estimate (condition : ℕ) : OperationResult (CardinalityEstimation Unit) :=
      .ok ⟨[()], 0, 3 - condition, 3⟩
    ∃ optimized estimation,
      optimizeFilter estimate (fun condition pointId => decide (condition ≤ pointId)) 3 filter =
        .ok (optimized, estimation) ∧
      checkOptimizedFilter optimized 1 = checkFilter (fun condition => condition ≤ 1) filter := by
  intro nested filter estimate
  have hnested : Everywhere KeepsClauses (.filter nested) :=
    .filter ⟨by simp [nested], by simp [nested]⟩
      (by simp [nested, FilterOf.conditions, Everywhere.leaf])
  have hkeeps : Everywhere KeepsClauses (.filter filter) :=
    .filter ⟨by simp [filter], by simp [filter]⟩
      (by simp [filter, FilterOf.conditions, Everywhere.leaf, hnested])
  refine ⟨_, _, rfl, ?_⟩
  exact checkOptimizedFilter_eq estimate (fun condition pointId => decide (condition ≤ pointId)) 3
    filter hkeeps rfl 1

/-- A `should` list without conditions: the filter rejects the point that the optimized one
accepts. -/
theorem empty_should_differs :
    let filter : Filter Unit := ⟨some [], none, none, none⟩
    (optimizeFilter (fun _ => .ok (⟨[()], 1, 1, 1⟩ : CardinalityEstimation Unit))
      (fun _ (_ : ℕ) => true) 1 filter).map (fun optimized => checkOptimizedFilter optimized.1 0) =
        .ok true ∧ checkFilter (fun _ => true) filter = false := by
  decide +kernel

/-!
### Query plans

`planned_query.rs` and `validation.rs`: a query request with nested prefetches is flattened
into leaf searches and scrolls and a plan that merges them. What a plan only passes on is
opaque here: vectors, order and formula descriptions, search parameters, scores, payload
selectors and leaf conditions.
-/

/-- The data that planning passes on. -/
structure QueryTypes where
  LeafCondition : Type
  VectorInternal : Type
  /-- The vector queries other than nearest-neighbour ones. -/
  VectorQuery : Type
  OrderBy : Type
  ParsedFormula : Type
  SearchParams : Type
  Score : Type
  WithPayloadInterface : Type
  /-- `WithPayloadInterface::from(false)`. -/
  withoutPayload : WithPayloadInterface

variable {D : QueryTypes}

/-- A query that is scored against vectors. -/
inductive QueryEnum (D : QueryTypes) where
  | nearest (vector : D.VectorInternal) (using_ : String)
  | other (query : D.VectorQuery)

/-- How prefetched results are fused; weights are given for each prefetch. -/
inductive FusionInternal (D : QueryTypes) where
  | rrf (k : ℕ) (weights : Option (List D.Score))
  | dbsf

/-- `SampleInternal`. -/
inductive SampleInternal where
  | random
  deriving DecidableEq, Repr

/-- Maximal marginal relevance. -/
structure MmrInternal (D : QueryTypes) where
  vector : D.VectorInternal
  using_ : String
  lambda : D.Score
  candidatesLimit : ℕ

/-- How the points of a query are scored. -/
inductive ScoringQuery (D : QueryTypes) where
  | vector (query : QueryEnum D)
  | fusion (fusion : FusionInternal D)
  | orderBy (orderBy : D.OrderBy)
  | formula (formula : D.ParsedFormula)
  | sample (sample : SampleInternal)
  | mmr (mmr : MmrInternal D)

/-- Which vectors a response has. -/
inductive WithVector where
  | bool (enabled : Bool)
  | selector (names : List String)
  deriving DecidableEq, Repr

/-- Merges two options, additively. -/
def WithVector.merge : WithVector → WithVector → WithVector
  | .bool true, _ => .bool true
  | _, .bool true => .bool true
  | .bool false, .bool false => .bool false
  | .selector first, .selector second => .selector (first ++ second).eraseDups
  | .bool false, .selector names => .selector names
  | .selector names, .bool false => .selector names

/-- A prefetch, with prefetches of its own. -/
inductive ShardPrefetch (D : QueryTypes) where
  | mk (prefetches : List (ShardPrefetch D)) (query : Option (ScoringQuery D)) (limit : ℕ)
    (params : Option D.SearchParams) (filter : Option (Filter D.LeafCondition))
    (scoreThreshold : Option D.Score)

/-- A universal query request. -/
structure ShardQueryRequest (D : QueryTypes) where
  prefetches : List (ShardPrefetch D)
  query : Option (ScoringQuery D)
  filter : Option (Filter D.LeafCondition)
  scoreThreshold : Option D.Score
  limit : ℕ
  offset : ℕ
  params : Option D.SearchParams
  withVector : WithVector
  withPayload : D.WithPayloadInterface

mutual

/-- How deep prefetches are nested. -/
def ShardPrefetch.depth : ShardPrefetch D → ℕ
  | ⟨prefetches, _, _, _, _, _⟩ => depthOver 1 prefetches

/-- The loop of `depth`. -/
def depthOver (depth : ℕ) : List (ShardPrefetch D) → ℕ
  | [] => depth
  | prefetch :: prefetches => depthOver (max depth (prefetch.depth + 1)) prefetches

end

/-- How deep the prefetches of a request are nested. -/
def ShardQueryRequest.prefetchesDepth (request : ShardQueryRequest D) : ℕ :=
  (request.prefetches.map ShardPrefetch.depth).max?.getD 0

/-- A leaf search. -/
structure CoreSearchRequest (D : QueryTypes) where
  query : QueryEnum D
  filter : Option (Filter D.LeafCondition)
  params : Option D.SearchParams
  limit : ℕ
  offset : ℕ
  withPayload : Option D.WithPayloadInterface
  withVector : Option WithVector
  scoreThreshold : Option D.Score

/-- The order of a scroll. -/
inductive ScrollOrder (D : QueryTypes) where
  | byId
  | byField (orderBy : D.OrderBy)
  | random

/-- A leaf scroll. -/
structure QueryScrollRequestInternal (D : QueryTypes) where
  limit : ℕ
  filter : Option (Filter D.LeafCondition)
  withPayload : D.WithPayloadInterface
  withVector : WithVector
  scrollOrder : ScrollOrder D

/-- How merged points are scored again. -/
structure RescoreParams (D : QueryTypes) where
  rescore : ScoringQuery D
  limit : ℕ
  scoreThreshold : Option D.Score
  params : Option D.SearchParams

/-- Where merged points are scored again. -/
structure RescoreStages (D : QueryTypes) where
  shardLevel : Option (RescoreParams D)
  collectionLevel : Option (RescoreParams D)

/-- Sources with the way they are merged. -/
structure MergePlanOf (D : QueryTypes) (Source : Type) where
  sources : List Source
  rescoreStages : Option (RescoreStages D)

/-- What a plan merges: a leaf search or scroll by its position, or a nested plan. -/
inductive Source (D : QueryTypes) where
  | searchesIdx (index : ℕ)
  | scrollsIdx (index : ℕ)
  | prefetch (plan : MergePlanOf D (Source D))

/-- The plan of a request or of a prefetch. -/
abbrev MergePlan (D : QueryTypes) := MergePlanOf D (Source D)

/-- The plan of a whole request. -/
structure RootPlan (D : QueryTypes) where
  mergePlan : MergePlan D
  withVector : WithVector
  withPayload : D.WithPayloadInterface

/-- The plans of several requests, with all their leaf searches and scrolls. -/
structure PlannedQuery (D : QueryTypes) where
  rootPlans : List (RootPlan D)
  searches : List (CoreSearchRequest D)
  scrolls : List (QueryScrollRequestInternal D)

section Validation

/-- `validate_fusion`: weights are given for every source. -/
def validateFusion (fusion : FusionInternal D) (numSources : ℕ) : OperationResult Unit :=
  match fusion with
  | .rrf _ (some weights) =>
    let count := weights.length
    if count ≠ numSources then
      .error (.validationError
        s!"RRF weights length ({count}) does not match number of prefetches ({numSources})")
    else .ok ()
  | .rrf _ none => .ok ()
  | .dbsf => .ok ()

/-- `validate_query`. -/
def validateQuery (query : ScoringQuery D) (numSources : ℕ) : OperationResult Unit :=
  match query with
  | .vector _ => .ok ()
  | .fusion fusion => validateFusion fusion numSources
  | .orderBy _ => .ok ()
  | .formula _ => .ok ()
  | .sample _ => .ok ()
  | .mmr _ => .ok ()

/-- The weights of a stage that rescores. -/
def validateStage (stage : Option (RescoreParams D)) (numSources : ℕ) : OperationResult Unit :=
  match stage with
  | none => .ok ()
  | some params => validateQuery params.rescore numSources

/-- `validate_fusion_weights`. -/
def validateFusionWeights (rescoreStages : Option (RescoreStages D)) (numSources : ℕ) :
    OperationResult Unit :=
  match rescoreStages with
  | none => .ok ()
  | some stages => do
    validateStage stages.shardLevel numSources
    validateStage stages.collectionLevel numSources

mutual

/-- `MergePlan::validate`: the plan itself, then the nested ones. -/
def validatePlan : MergePlanOf D (Source D) → OperationResult Unit
  | ⟨sources, rescoreStages⟩ => do
    validateFusionWeights rescoreStages sources.length
    validateSources sources

/-- Validates the nested plans of sources. -/
def validateSources : List (Source D) → OperationResult Unit
  | [] => .ok ()
  | source :: sources => do
    validateSource source
    validateSources sources

/-- Validates a nested plan. -/
def validateSource : Source D → OperationResult Unit
  | .searchesIdx _ => .ok ()
  | .scrollsIdx _ => .ok ()
  | .prefetch plan => validatePlan plan

end

/-- `MergePlan::new`: a plan that has been validated. -/
def MergePlan.new (sources : List (Source D)) (rescoreStages : Option (RescoreStages D)) :
    OperationResult (MergePlan D) :=
  match validatePlan ⟨sources, rescoreStages⟩ with
  | .error error => .error error
  | .ok () => .ok ⟨sources, rescoreStages⟩

end Validation

section Planning

/-- Adds a leaf search. -/
def PlannedQuery.pushSearch (planned : PlannedQuery D) (search : CoreSearchRequest D) :
    OperationResult (Source D) × PlannedQuery D :=
  (.ok (.searchesIdx planned.searches.length),
    { planned with searches := planned.searches ++ [search] })

/-- Adds a leaf scroll. -/
def PlannedQuery.pushScroll (planned : PlannedQuery D) (scroll : QueryScrollRequestInternal D) :
    OperationResult (Source D) × PlannedQuery D :=
  (.ok (.scrollsIdx planned.scrolls.length),
    { planned with scrolls := planned.scrolls ++ [scroll] })

/-- `leaf_source_from_scoring_query`: a search or scroll over the segments themselves. -/
def leafSourceFromScoringQuery (planned : PlannedQuery D) (query : Option (ScoringQuery D))
    (limit : ℕ) (params : Option D.SearchParams) (scoreThreshold : Option D.Score)
    (filter : Option (Filter D.LeafCondition)) : OperationResult (Source D) × PlannedQuery D :=
  let scroll (scrollOrder : ScrollOrder D) : QueryScrollRequestInternal D :=
    { limit, filter, withPayload := D.withoutPayload, withVector := .bool false, scrollOrder }
  let search (query : QueryEnum D) (limit : ℕ) : CoreSearchRequest D :=
    { query, filter, params, limit, offset := 0, withPayload := some D.withoutPayload,
      withVector := some (.bool false), scoreThreshold }
  match query with
  | some (.vector queryEnum) => planned.pushSearch (search queryEnum limit)
  | some (.fusion _) =>
    (.error (.validationError "cannot apply Fusion without prefetches"), planned)
  | some (.orderBy orderBy) => planned.pushScroll (scroll (.byField orderBy))
  | some (.formula _) =>
    (.error (.validationError "cannot apply Formula without prefetches"), planned)
  | some (.sample .random) => planned.pushScroll (scroll .random)
  | some (.mmr mmr) =>
    planned.pushSearch (search (.nearest mmr.vector mmr.using_) mmr.candidatesLimit)
  | none => planned.pushScroll (scroll .byId)

mutual

/-- `recurse_prefetches`: the sources of prefetches, under a filter for all of them. -/
def recursePrefetches (planned : PlannedQuery D)
    (propagateFilter : Option (Filter D.LeafCondition)) :
    List (ShardPrefetch D) → OperationResult (List (Source D)) × PlannedQuery D
  | [] => (.ok [], planned)
  | prefetch :: prefetches =>
    match sourceOfPrefetch planned propagateFilter prefetch with
    | (.error error, planned) => (.error error, planned)
    | (.ok source, planned) =>
      match recursePrefetches planned propagateFilter prefetches with
      | (.error error, planned) => (.error error, planned)
      | (.ok sources, planned) => (.ok (source :: sources), planned)

/-- The source of one prefetch: a leaf, or a plan over its own prefetches. -/
def sourceOfPrefetch (planned : PlannedQuery D)
    (propagateFilter : Option (Filter D.LeafCondition)) :
    ShardPrefetch D → OperationResult (Source D) × PlannedQuery D
  | ⟨prefetches, query, limit, params, filter, scoreThreshold⟩ =>
    let filter := FilterOf.mergeOpts propagateFilter filter
    if prefetches.isEmpty then
      leafSourceFromScoringQuery planned query limit params scoreThreshold filter
    else
      match recursePrefetches planned filter prefetches with
      | (.error error, planned) => (.error error, planned)
      | (.ok innerSources, planned) =>
        match query with
        | none => (.error (.validationError "cannot have prefetches without a query"), planned)
        | some rescore =>
          let stages : RescoreStages D := ⟨some ⟨rescore, limit, scoreThreshold, params⟩, none⟩
          match MergePlan.new innerSources (some stages) with
          | .error error => (.error error, planned)
          | .ok plan => (.ok (.prefetch plan), planned)

end

/-- The stages of a root query over prefetches: fusion happens at collection level, relevance
at both, everything else at shard level. -/
def rootStages (rescoringQuery : ScoringQuery D) (limit : ℕ) (scoreThreshold : Option D.Score)
    (params : Option D.SearchParams) : RescoreStages D :=
  match rescoringQuery with
  | .mmr mmr =>
    { shardLevel := some
        ⟨.vector (.nearest mmr.vector mmr.using_), mmr.candidatesLimit, scoreThreshold, params⟩
      collectionLevel := some ⟨.mmr mmr, limit, scoreThreshold, params⟩ }
  | .fusion fusion =>
    { shardLevel := none
      collectionLevel := some ⟨.fusion fusion, limit, scoreThreshold, params⟩ }
  | rescore => { shardLevel := some ⟨rescore, limit, scoreThreshold, params⟩
                 collectionLevel := none }

/-- `root_plan_without_prefetches`: everything comes from a single source. -/
def rootPlanWithoutPrefetches (planned : PlannedQuery D) (request : ShardQueryRequest D)
    (withVector : WithVector) (limit : ℕ) : OperationResult (RootPlan D) × PlannedQuery D :=
  let rescoreStages : Option (RescoreStages D) := match request.query with
    | some (.mmr mmr) =>
      some ⟨none, some ⟨.mmr mmr, limit, request.scoreThreshold, request.params⟩⟩
    | _ => none
  match leafSourceFromScoringQuery planned request.query limit request.params
      request.scoreThreshold request.filter with
  | (.error error, planned) => (.error error, planned)
  | (.ok source, planned) =>
    match MergePlan.new [source] rescoreStages with
    | .error error => (.error error, planned)
    | .ok mergePlan => (.ok ⟨mergePlan, withVector, request.withPayload⟩, planned)

/-- `root_plan_with_prefetches`. -/
def rootPlanWithPrefetches (planned : PlannedQuery D) (request : ShardQueryRequest D)
    (withVector : WithVector) (limit : ℕ) : OperationResult (RootPlan D) × PlannedQuery D :=
  match request.query with
  | none => (.error (.validationError "cannot have prefetches without a query"), planned)
  | some rescoringQuery =>
    match recursePrefetches planned request.filter request.prefetches with
    | (.error error, planned) => (.error error, planned)
    | (.ok sources, planned) =>
      let stages := rootStages rescoringQuery limit request.scoreThreshold request.params
      match MergePlan.new sources (some stages) with
      | .error error => (.error error, planned)
      | .ok mergePlan => (.ok ⟨mergePlan, withVector, request.withPayload⟩, planned)

/-- `MAX_PREFETCH_DEPTH`. -/
def maxPrefetchDepth : ℕ := 64

/-- `PlannedQuery::add`: plans one more request. Leaves that were added before an error stay. -/
def PlannedQuery.add (planned : PlannedQuery D) (request : ShardQueryRequest D) :
    OperationResult Unit × PlannedQuery D :=
  let depth := request.prefetchesDepth
  if depth > maxPrefetchDepth then
    (.error (.validationError
      s!"prefetches depth {depth} exceeds max depth {maxPrefetchDepth}"), planned)
  else
    let limit := request.limit + request.offset
    let withVector := match request.query with
      | some (.mmr mmr) => request.withVector.merge (.selector [mmr.using_])
      | _ => request.withVector
    let result := if request.prefetches.isEmpty then
        rootPlanWithoutPrefetches planned request withVector limit
      else rootPlanWithPrefetches planned request withVector limit
    match result with
    | (.error error, planned) => (.error error, planned)
    | (.ok rootPlan, planned) =>
      (.ok (), { planned with rootPlans := planned.rootPlans ++ [rootPlan] })

end Planning

end Stratumind.Query
