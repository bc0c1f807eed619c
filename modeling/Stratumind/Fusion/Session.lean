import Stratumind.Fusion.Types
import Stratumind.Lib.Loop

/-!
# Incremental fusion state

The state of `reciprocal_rank_fusion/state.rs` over `n` exact, rank-ordered input
streams. The state fixes a result only when no observed or still-unseen point can
change its position. Source indices are of type `Fin n`; a caller's raw index is
checked where it enters.
-/

namespace Stratumind

open Lib Function

/-- The contributions a point has received so far, one slot for each source. -/
structure PartialRrfPoint (F : Type) (n : ℕ) where
  contributions : Fin n → Option F

/-- Incremental fusion state. -/
structure DynamicRrfState (Id F : Type) (n : ℕ) where
  rrfK : ℕ
  topK : ℕ
  weights : Fin n → F
  nextPositions : Fin n → ℕ
  exhausted : Fin n → Bool
  points : AList fun _ : Id => PartialRrfPoint F n

/-- A point with the bounds of its final score. -/
structure BoundedPoint (Id F : Type) where
  id : Id
  lowerBound : F
  upperBound : F

namespace PartialRrfPoint

variable {F : Type} {n : ℕ} [Zero F] [Add F]

/-- The sum of the contributions received so far. -/
def lowerBound (point : PartialRrfPoint F n) : F :=
  sumScores ((List.finRange n).map fun source => (point.contributions source).getD 0)

/-- The sum when every missing contribution comes at the next rank of its source. -/
def upperBound (nextContributions : Fin n → F) (point : PartialRrfPoint F n) : F :=
  sumScores ((List.finRange n).map fun source =>
    (point.contributions source).getD (nextContributions source))

end PartialRrfPoint

namespace DynamicRrfState

variable {Id F : Type} {n : ℕ} [LinearOrder Id] [ToString Id] [RankArithmetic F]

/-- The weights of `n` sources: the given ones, or one for each. -/
def resolveWeights (n : ℕ) : Option (List F) → OperationResult (Fin n → F)
  | some weights =>
    if h : weights.length = n then .ok fun source => weights.get (source.cast h.symm)
    else
      let got := weights.length
      .error (.validationError
        s!"Number of weights in Dynamic RRF should match number of sources: got {got}, expected {n}")
  | none => .ok fun _ => 1

/-- An empty state for `n` sources, after checking the parameters. -/
def new (n topK rrfK : ℕ) (weights : Option (List F)) : OperationResult (DynamicRrfState Id F n) :=
  if n = 0 then .error (.validationError "Dynamic RRF requires at least one source")
  else if rrfK = 0 then
    .error (.validationError "Dynamic RRF requires k to be greater than zero")
  else
    match resolveWeights n weights with
    | .error error => .error error
    | .ok weights =>
      if (List.finRange n).any fun source =>
          !Score.isFinite (weights source) || weights source < 0 then
        .error (.validationError "Dynamic RRF weights must be finite and non-negative")
      else
        .ok
          { rrfK, topK, weights
            nextPositions := fun _ => 0
            exhausted := fun _ => false
            points := ∅ }

/-- The contribution a point has received from a source. -/
def contribution (state : DynamicRrfState Id F n) (source : Fin n) (id : Id) : Option F :=
  (state.points.lookup id).bind fun point => point.contributions source

/-- Enters the contribution of one rank. -/
def recordContribution (points : AList fun _ : Id => PartialRrfPoint F n) (source : Fin n) (id : Id)
    (contribution : F) : AList fun _ : Id => PartialRrfPoint F n :=
  let point := (points.lookup id).getD ⟨fun _ => none⟩
  points.insert id ⟨update point.contributions source (some contribution)⟩

/-- Applies the next rank of a source. -/
def observe (state : DynamicRrfState Id F n) (source : ℕ) (id : Id) :
    OperationResult (DynamicRrfState Id F n) :=
  if h : source < n then
    let index : Fin n := ⟨source, h⟩
    if state.exhausted index then
      .error (.validationError s!"Dynamic RRF source {source} was already exhausted")
    else if (state.contribution index id).isSome then
      .error (.validationError s!"Point {id} occurs more than once in Dynamic RRF source {source}")
    else
      .ok { state with
        points := recordContribution state.points index id
          (positionScore (state.nextPositions index) state.rrfK (state.weights index))
        nextPositions := update state.nextPositions index (state.nextPositions index + 1) }
  else .error (.validationError s!"Dynamic RRF source {source} is out of range")

/-- Rejects a batch that repeats an identity of its own or of the observed prefix. -/
def validateBatch (state : DynamicRrfState Id F n) (source : Fin n) :
    Finset Id → List Id → OperationResult Unit
  | _, [] => .ok ()
  | unique, id :: ids =>
    if id ∈ unique then
      .error (.validationError
        s!"Point {id} occurs more than once in one Dynamic RRF source {source} batch")
    else if (state.contribution source id).isSome then
      .error (.validationError s!"Point {id} occurs more than once in Dynamic RRF source {source}")
    else state.validateBatch source (insert id unique) ids

/-- Enters the ranks of a validated batch. -/
def applyBatch (state : DynamicRrfState Id F n) (source : Fin n) (batch : ChannelRankBatch Id) :
    DynamicRrfState Id F n :=
  { state with
    points := batch.pointIds.zipIdx.foldl
      (fun points entry => recordContribution points source entry.1
        (positionScore (batch.startRank + entry.2) state.rrfK (state.weights source)))
      state.points
    nextPositions := update state.nextPositions source
      (state.nextPositions source + batch.pointIds.length)
    exhausted := if batch.exhausted then update state.exhausted source true
      else state.exhausted }

/-- Applies a contiguous exact-rank batch, entirely or not at all. -/
def observeBatch (state : DynamicRrfState Id F n) (source : ℕ) (batch : ChannelRankBatch Id) :
    OperationResult (DynamicRrfState Id F n) :=
  if h : source < n then
    let index : Fin n := ⟨source, h⟩
    let expected := state.nextPositions index
    let start := batch.startRank
    if state.exhausted index then
      .error (.validationError s!"Dynamic RRF source {source} was already exhausted")
    else if start ≠ expected then
      .error (.validationError
        s!"Dynamic RRF source {source} batch starts at rank {start}; expected {expected}")
    else if batch.pointIds.isEmpty && !batch.exhausted then
      .error (.validationError
        s!"Dynamic RRF source {source} returned an empty non-exhausted batch")
    else
      match state.validateBatch index ∅ batch.pointIds with
      | .error error => .error error
      | .ok () => .ok (state.applyBatch index batch)
  else .error (.validationError s!"Dynamic RRF source {source} is out of range")

/-- Marks a source as exhausted. -/
def finishSource (state : DynamicRrfState Id F n) (source : ℕ) :
    OperationResult (DynamicRrfState Id F n) :=
  if h : source < n then
    .ok { state with exhausted := update state.exhausted ⟨source, h⟩ true }
  else .error (.validationError s!"Dynamic RRF source {source} is out of range")

/-- The largest contribution a source can still make. -/
def nextPossibleContribution (state : DynamicRrfState Id F n) (source : Fin n) : Option F :=
  if state.exhausted source then none
  else some (positionScore (state.nextPositions source) state.rrfK (state.weights source))

/-- Every source has reported its end. -/
def allSourcesExhausted (state : DynamicRrfState Id F n) : Bool :=
  (List.finRange n).all state.exhausted

/-- The largest contributions still possible, zero for an exhausted source. -/
def nextContributions (state : DynamicRrfState Id F n) (source : Fin n) : F :=
  (state.nextPossibleContribution source).getD 0

/-- The largest score a point seen in no source can have. -/
def unseenUpperBound (state : DynamicRrfState Id F n) : F :=
  sumScores ((List.finRange n).map state.nextContributions)

/-- Approximates how many still-competitive identities miss each source. Only the
scheduler reads it; the stop decision never does. -/
def competitiveMissingCounts (state : DynamicRrfState Id F n) : Fin n → ℕ :=
  if state.allSourcesExhausted then fun _ => 0
  else if state.points.entries.length < state.topK then
    fun source =>
      if state.exhausted source then 0 else max (state.topK - state.points.entries.length) 1
  else
    let lowerBounds := sortBy (fun left right : F => compare right left)
      (state.points.entries.map fun entry => entry.2.lowerBound)
    let threshold := lowerBounds.getD (state.topK - 1) 0
    fun source =>
      if state.exhausted source then 0
      else
        (state.points.entries.filter fun entry =>
          !(entry.2.upperBound state.nextContributions < threshold) &&
            (entry.2.contributions source).isNone).length +
          (if state.unseenUpperBound ≥ threshold then 1 else 0)

/-- The fused order of the observed points with a positive score. -/
def completeOrder (state : DynamicRrfState Id F n) : List Id :=
  let points := state.points.entries.filterMap fun entry =>
    if entry.2.lowerBound > 0 then some (entry.1, entry.2.lowerBound) else none
  (sortBy (fun left right => rrfOrder left.1 left.2 right.1 right.2) points).map Prod.fst

/-- Index of the remaining point that comes first by its lower bound. -/
def winnerIndex (remaining : List (BoundedPoint Id F)) : Option ℕ :=
  (minBy (fun a b : BoundedPoint Id F × ℕ =>
    rrfOrder a.1.id a.1.lowerBound b.1.id b.1.lowerBound) remaining.zipIdx).map Prod.snd

/-- Selects the next `count` points whose positions are fixed. Fails when some
remaining or unseen point could still overtake a winner. -/
def selectFixed (unseenUpperBound : F) : ℕ → List (BoundedPoint Id F) → Option (List Id)
  | 0, _ => some []
  | count + 1, remaining => do
    let index ← winnerIndex remaining
    let winner ← remaining[index]?
    if winner.lowerBound ≤ unseenUpperBound then none
    else if remaining.zipIdx.any fun challenger =>
        challenger.2 != index &&
          !guaranteedBefore winner.id winner.lowerBound challenger.1.id challenger.1.upperBound then
      none
    else
      let fixed ← selectFixed unseenUpperBound count (swapRemove remaining index)
      some (winner.id :: fixed)

/-- The exact fused identity order once it is fixed. -/
def fixedTopK (state : DynamicRrfState Id F n) : Option (List Id) :=
  if state.topK = 0 then some []
  else if !state.allSourcesExhausted && state.points.entries.length < state.topK then none
  else if state.allSourcesExhausted then some (state.completeOrder.take state.topK)
  else
    selectFixed state.unseenUpperBound state.topK
      (state.points.entries.map fun entry =>
        ⟨entry.1, entry.2.lowerBound, entry.2.upperBound state.nextContributions⟩)

end DynamicRrfState

/-!
### Fusion sessions

The recoverable session of `reciprocal_rank_fusion/session.rs` over `n` sources, and
the one-shot executions of `executor.rs`. Streams are closures over a world, so a call
takes the session and the world and returns both together with its result, also when
the result is an error. The driver loop runs on fuel; no result at all stands for a
loop that has not returned within its fuel or has panicked.
-/

/-- Bounds of the interval between two certification checks after the warm-up. -/
def minCertificationInterval : ℕ := 64

@[inherit_doc minCertificationInterval]
def maxCertificationInterval : ℕ := 1024

/-- Recoverable exact fusion session. -/
structure DynamicRrfSession (W Id F : Type) (n : ℕ) where
  sources : Fin n → DynamicRrfSource W Id
  sourceBatchSize : ℕ
  state : DynamicRrfState Id F n
  sourcePulls : Fin n → ℕ
  sourceHistory : Fin n → List Id
  sourceCosts : Fin n → F
  sourceLastAdvanced : Fin n → ℕ
  sourceSchedule : List (Fin n)
  competitiveMissing : Fin n → ℕ
  policy : DynamicRrfPolicy
  warmupPulls : ℕ
  totalPulls : ℕ
  advanceActions : ℕ
  pullsSinceCheck : ℕ
  certificationChecks : ℕ
  forceCheck : Bool
  exhaustedOrder : Option (List Id)

/-- A session and the world its streams live in. -/
abbrev SessionState (W Id F : Type) (n : ℕ) := DynamicRrfSession W Id F n × W

namespace DynamicRrfSession

variable {W Id F : Type} {n : ℕ} [LinearOrder Id] [ToString Id] [RankArithmetic F]

/-- A session over point-wise or batched sources, after checking the parameters. -/
def newWithInputs (sources : Fin n → DynamicRrfSource W Id) (sourceBatchSize topK rrfK : ℕ)
    (weights : Option (List F)) (sourceCosts : List F) (policy : DynamicRrfPolicy) :
    OperationResult (DynamicRrfSession W Id F n) :=
  let got := sourceCosts.length
  if sourceBatchSize = 0 then
    .error (.validationError "Dynamic RRF source batch size must be positive")
  else if policy.warmupCheckInterval = some 0 then
    .error (.validationError "Dynamic RRF warmup check interval must be positive")
  else if policy.exhaustiveAfterPullsPerSource = some 0 then
    .error (.validationError "Dynamic RRF exhaustive pull budget must be positive")
  else if policy.fairnessAfterActionsPerSource = some 0 then
    .error (.validationError "Dynamic RRF fairness interval must be positive")
  else if h : sourceCosts.length = n then
    if sourceCosts.any fun cost => !Score.isFinite cost || cost ≤ 0 then
      .error (.validationError "Dynamic RRF source costs must be finite and positive")
    else
      match DynamicRrfState.new n topK rrfK weights with
      | .error error => .error error
      | .ok state =>
        .ok
          { sources, sourceBatchSize, state, policy
            sourcePulls := fun _ => 0
            sourceHistory := fun _ => []
            sourceCosts := fun source => sourceCosts.get (source.cast h.symm)
            sourceLastAdvanced := fun _ => 0
            sourceSchedule := []
            competitiveMissing := fun _ => max topK 1
            warmupPulls := saturatingMul (saturatingMul topK n) 2
            totalPulls := 0
            advanceActions := 0
            pullsSinceCheck := 0
            certificationChecks := 0
            forceCheck := true
            exhaustedOrder := none }
  else
    .error (.validationError s!"Dynamic RRF source costs have length {got}; expected {n}")

/-- A session over batched streams of equal cost. -/
def newBatched (sources : Fin n → ExactRrfBatchStream W Id) (sourceBatchSize topK rrfK : ℕ)
    (weights : Option (List F)) (policy : DynamicRrfPolicy) :
    OperationResult (DynamicRrfSession W Id F n) :=
  newWithInputs (fun source => .batch (sources source)) sourceBatchSize topK rrfK weights
    (List.replicate n 1) policy

variable (session : DynamicRrfSession W Id F n)

/-- Extends the exact prefix requested from the session; it cannot decrease. -/
def extendTopK (topK : ℕ) : OperationResult (DynamicRrfSession W Id F n) :=
  let current := session.state.topK
  if topK < current then
    .error (.validationError s!"Dynamic RRF prefix target cannot decrease from {current} to {topK}")
  else
    .ok { session with
      state := { session.state with topK }
      warmupPulls := max session.warmupPulls (saturatingMul (saturatingMul topK n) 2)
      forceCheck := true }

/-- The streams are drained once the pull budget is spent. -/
def drainToExhaustion : Bool :=
  session.policy.exhaustiveAfterPullsPerSource.any fun budget =>
    session.totalPulls ≥ saturatingMul budget n

/-- Pulls between two certification checks. -/
def checkInterval : ℕ :=
  if session.totalPulls ≤ session.warmupPulls then session.policy.warmupCheckInterval.getD n
  else max minCertificationInterval (min (session.totalPulls / 8) maxCertificationInterval)

/-- Whether a certification check is due at the start of a turn. -/
def checkDue : Bool :=
  session.state.allSourcesExhausted ||
    (!session.drainToExhaustion &&
      (session.forceCheck || session.pullsSinceCheck ≥ session.checkInterval))

/-- The execution reported for a fixed order. -/
def execution (pointIds : List Id) : DynamicRrfExecution Id n where
  pointIds
  sourcePulls := session.sourcePulls
  sourceExhausted := session.state.exhausted
  certificationChecks := session.certificationChecks
  stopReason := if session.state.allSourcesExhausted then .allSourcesExhausted else .topKFixed

/-- One certification check. When the order is not fixed, the advisory competitor
snapshot is refreshed on a doubling schedule. -/
def certify : Option (DynamicRrfExecution Id n) × DynamicRrfSession W Id F n :=
  let checks := session.certificationChecks + 1
  let session := { session with certificationChecks := checks }
  match session.state.fixedTopK with
  | some pointIds => (some (session.execution pointIds), session)
  | none =>
    if session.policy.scheduler = .competitorCostAware && (checks ≤ 4 || isPowerOfTwo checks) then
      (none, { session with competitiveMissing := session.state.competitiveMissingCounts })
    else (none, session)

variable (minimumPulls : Fin n → Option ℕ)

/-- Every gating source has reached its pull target or its end. -/
def pauseReached : Bool :=
  (List.finRange n).any (fun source => (minimumPulls source).isSome) &&
    (List.finRange n).all fun source =>
      (minimumPulls source).all fun target =>
        session.sourcePulls source ≥ target || session.state.exhausted source

variable (source : Fin n)

/-- The source has not yet been pulled to its target. -/
def belowPauseTarget : Bool :=
  (minimumPulls source).all fun target => session.sourcePulls source < target

/-- Turns since the source was last advanced. -/
def wait : ℕ :=
  session.advanceActions - session.sourceLastAdvanced source

/-- The longest waiting source beyond the fairness window. -/
def overdueSource (fairness : ℕ) : Option (Fin n) :=
  maxBy (fun left right =>
      (compare (session.wait left) (session.wait right)).then (compare right left))
    ((List.finRange n).filter fun source =>
      (session.state.nextPossibleContribution source).isSome &&
        session.belowPauseTarget minimumPulls source &&
        session.wait source ≥ saturatingMul fairness n)

/-- The scheduling priority of a source whose next contribution is `bound`. -/
def priority (bound : F) : F :=
  match session.policy.scheduler with
  | .maxNextContribution => bound
  | .competitorCostAware =>
    let nextBound := positionScore (saturatingAdd (session.state.nextPositions source) 1)
      session.state.rrfK (session.state.weights source)
    let boundReduction := max (bound - nextBound) 0
    let liveCompetitors : F := (max (session.competitiveMissing source) 1 : ℕ)
    boundReduction * liveCompetitors / session.sourceCosts source

/-- The open source of highest priority, then of highest bound, then of lowest index. -/
def bestSource : Option (Fin n) :=
  (maxBy (fun left right : Fin n × F × F =>
      ((compare left.2.1 right.2.1).then (compare left.2.2 right.2.2)).then
        (compare right.1 left.1))
    ((List.finRange n).filterMap fun source =>
      if session.belowPauseTarget minimumPulls source then
        (session.state.nextPossibleContribution source).map fun bound =>
          (source, session.priority source bound, bound)
      else none)).map Prod.fst

/-- The source the next turn pulls. `none` is the panic of an unfinished session
without a source to advance. -/
def selectSourceToAdvance : Option (Fin n) :=
  (session.policy.fairnessAfterActionsPerSource.bind (session.overdueSource minimumPulls)).or
    (session.bestSource minimumPulls)

/-- Pulls one source. -/
def pull (w : W) : OperationResult (ChannelRankBatch Id) × W :=
  match session.sources source with
  | .point stream =>
    match stream w with
    | (some (.ok id), w) => (.ok ⟨session.sourcePulls source, [id], false⟩, w)
    | (some (.error error), w) => (.error error, w)
    | (none, w) => (.ok ⟨session.sourcePulls source, [], true⟩, w)
  | .batch pull => pull session.sourceBatchSize w

/-- Records that a source is about to be pulled. -/
def schedule : DynamicRrfSession W Id F n :=
  { session with
    sourceSchedule := session.sourceSchedule ++ [source]
    advanceActions := session.advanceActions + 1
    sourceLastAdvanced :=
      update session.sourceLastAdvanced source (session.advanceActions + 1) }

/-- Records an observed batch. -/
def record (batch : ChannelRankBatch Id)
    (state : DynamicRrfState Id F n) : DynamicRrfSession W Id F n :=
  { session with
    state
    sourcePulls := update session.sourcePulls source
      (session.sourcePulls source + batch.pointIds.length)
    sourceHistory := update session.sourceHistory source
      (session.sourceHistory source ++ batch.pointIds)
    totalPulls := session.totalPulls + batch.pointIds.length
    pullsSinceCheck := session.pullsSinceCheck + batch.pointIds.length
    forceCheck := session.forceCheck || batch.exhausted }

/-- Pulls a source and observes what it returns. -/
def advance (w : W) : OperationResult Unit × SessionState W Id F n :=
  let session := session.schedule source
  match session.pull source w with
  | (.error error, w) => (.error error, session, w)
  | (.ok batch, w) =>
    let got := batch.pointIds.length
    let size := session.sourceBatchSize
    if got > size then
      (.error (.validationError
        s!"Dynamic RRF source {source} returned {got} identities for a maximum batch size of {size}"),
        session, w)
    else
      match session.state.observeBatch source batch with
      | .error error => (.error error, session, w)
      | .ok state => (.ok (), session.record source batch state, w)

/-- The certification check at the start of a turn, when it is due. -/
def checkpoint : Option (DynamicRrfExecution Id n) × DynamicRrfSession W Id F n :=
  if session.checkDue then
    match session.certify with
    | (some execution, session) => (some execution, session)
    | (none, session) => (none, { session with pullsSinceCheck := 0, forceCheck := false })
  else (none, session)

/-- How a turn ends after it has pulled a source. -/
def turnOfAdvance : OperationResult Unit × SessionState W Id F n →
    Turn (SessionState W Id F n)
      (OperationResult (DynamicRrfAdvance Id n) × SessionState W Id F n)
  | (.error error, next) => .stop (.error error, next)
  | (.ok (), next) => .again next

/-- One turn of the driver loop. A pause boundary is also a certification boundary. -/
def advanceTurn (start : SessionState W Id F n) :
    Option (Turn (SessionState W Id F n)
      (OperationResult (DynamicRrfAdvance Id n) × SessionState W Id F n)) :=
  match start.1.checkpoint with
  | (some execution, session) => some (.stop (.ok (.fixed execution), session, start.2))
  | (none, session) =>
    if session.pauseReached minimumPulls then
      match session.certify with
      | (some execution, session) => some (.stop (.ok (.fixed execution), session, start.2))
      | (none, session) => some (.stop (.ok .paused, session, start.2))
    else
      (session.selectSourceToAdvance minimumPulls).map fun source =>
        turnOfAdvance (session.advance source start.2)

/-- Advances until the order is fixed or every gating source reaches its target. -/
def advanceUntilEach (fuel : ℕ) (minimumPulls : List (Option ℕ)) (start : SessionState W Id F n) :
    Option (OperationResult (DynamicRrfAdvance Id n) × SessionState W Id F n) :=
  let got := minimumPulls.length
  if h : minimumPulls.length = n then
    runLoop (advanceTurn fun source => minimumPulls.get (source.cast h.symm)) fuel start
  else
    some (.error (.validationError
      s!"Dynamic RRF pause targets have length {got}; expected {n}"), start)

/-- Advances without pause targets. A pause would be a panic. -/
def runToCompletion (fuel : ℕ) (start : SessionState W Id F n) :
    Option (OperationResult (DynamicRrfExecution Id n) × SessionState W Id F n) :=
  match advanceUntilEach fuel (List.replicate n none) start with
  | none => none
  | some (.error error, next) => some (.error error, next)
  | some (.ok (.fixed execution), next) => some (.ok execution, next)
  | some (.ok .paused, _) => none

/-- Runs to an extended exact prefix. A complete order is kept for later calls. -/
def runToPrefix (fuel topK : ℕ) (start : SessionState W Id F n) :
    Option (OperationResult (DynamicRrfExecution Id n) × SessionState W Id F n) :=
  match start.1.extendTopK topK with
  | .error error => some (.error error, start)
  | .ok session =>
    match session.exhaustedOrder with
    | some order =>
      some (.ok ⟨order.take topK, session.sourcePulls, session.state.exhausted,
        session.certificationChecks, .allSourcesExhausted⟩, session, start.2)
    | none =>
      match runToCompletion fuel (session, start.2) with
      | none => none
      | some (.error error, next) => some (.error error, next)
      | some (.ok execution, session, w) =>
        if execution.stopReason = .allSourcesExhausted then
          let order := session.state.completeOrder
          some (.ok { execution with pointIds := order.take topK },
            { session with exhaustedOrder := some order }, w)
        else some (.ok execution, session, w)

/-- Replays the observed prefix from a replacement stream, from the given rank on. -/
def replayHistory (source : ℕ) (replacement : ExactRrfStream W Id) :
    ℕ → List Id → W → OperationResult Unit × W
  | _, [], w => (.ok (), w)
  | rank, expected :: history, w =>
    match replacement w with
    | (some (.error error), w) => (.error error, w)
    | (none, w) =>
      (.error (.validationError
        s!"Dynamic RRF replacement source {source} ended before observed rank {rank}"), w)
    | (some (.ok actual), w) =>
      if actual ≠ expected then
        (.error (.validationError
          s!"Dynamic RRF replacement source {source} disagrees at rank {rank}: expected {expected}, got {actual}"),
          w)
      else replayHistory source replacement (rank + 1) history w

/-- Replaces a source by an equivalent stream, trusted only after its whole observed
prefix has matched. -/
def replaceSource (source : ℕ) (replacement : ExactRrfStream W Id)
    (start : SessionState W Id F n) : OperationResult Unit × SessionState W Id F n :=
  if h : source < n then
    if start.1.state.exhausted ⟨source, h⟩ then
      (.error (.validationError
        s!"Dynamic RRF source {source} is already exhausted and cannot be replaced"), start)
    else
      match replayHistory source replacement 0 (start.1.sourceHistory ⟨source, h⟩) start.2 with
      | (.error error, w) => (.error error, start.1, w)
      | (.ok (), w) =>
        (.ok (), { start.1 with
          sources := update start.1.sources ⟨source, h⟩ (.point replacement) }, w)
  else
    (.error (.validationError s!"Dynamic RRF replacement source {source} is out of range"), start)

end DynamicRrfSession

section Executor

variable {W Id F : Type} {n : ℕ} [LinearOrder Id] [ToString Id] [RankArithmetic F]

/-- One execution over batched streams. -/
def executeDynamicRrfBatchesWithPolicy (fuel : ℕ) (sources : Fin n → ExactRrfBatchStream W Id)
    (sourceBatchSize topK rrfK : ℕ) (weights : Option (List F)) (policy : DynamicRrfPolicy)
    (w : W) : Option (OperationResult (DynamicRrfExecution Id n) × W) :=
  match DynamicRrfSession.newBatched sources sourceBatchSize topK rrfK weights policy with
  | .error error => some (.error error, w)
  | .ok session =>
    (DynamicRrfSession.runToCompletion fuel (session, w)).map fun (result, _, w) => (result, w)

end Executor

end Stratumind
