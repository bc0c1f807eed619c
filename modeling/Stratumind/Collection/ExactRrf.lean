import Stratumind.Fusion.Session
import Stratumind.Shard.MergeRuns
import Stratumind.Shard.MergeSteps
import Stratumind.Stream.KWay
import Stratumind.Stream.KWayExactness

/-!
# Exact hybrid retrieval

The session of `collection/src/collection/exact_rrf` over `shards` Shards: every Shard
merges its Segments, every channel merges its Shards, and the two channels are fused.
A Segment is given by the score sources it opens, one for each channel. Channel `0` is
dense and channel `1` is sparse. Each Shard stream reads the cancellation flag at its own
times.
-/

namespace Stratumind

open Lib Function

/-- Default of the batch size of Shard streams. -/
def defaultExactBatchSize : ℕ := 64

/-- Batch size of the channel merges and of the fusion. -/
def exactFusionBatchSize : ℕ := 16

/-- What a request asks of the fusion. -/
structure ExactRrfRequest (F : Type) where
  limit : ℕ
  rrfK : ℕ
  weights : Fin 2 → F
  batchSize : ℕ

/-- The result of a request. -/
structure ExactRrfResult (Id : Type) where
  pointIds : List Id
  versions : AList fun _ : Id => ℕ
  stopReason : DynamicRrfStopReason
  sourcePulls : Fin 2 → ℕ
  sourceExhausted : Fin 2 → Bool
  certificationChecks : ℕ
  sourcePointsMaterialized : Fin 2 → ℕ
  /-- Physical Segment-session reply batches fetched per channel. -/
  sourceBatchRequests : Fin 2 → ℕ
  /-- Physical scored points received per channel. -/
  sourcePointsReceived : Fin 2 → ℕ
  exhaustiveFallbackSources : ℕ
  visiblePointCopies : ℕ
  shardCount : ℕ

/-- What the closures of the channel merges share: the Shard streams, the counters last
read from them, and the versions observed so far. -/
structure ShardWorld (Id S : Type) {shards : ℕ} (segments : Fin shards → ℕ) where
  streams : Fin 2 → (shard : Fin shards) → ExactShardMergeState Id S (segments shard)
  physical : Fin 2 → Fin shards → ExactShardStreamTelemetry
  versions : AList fun _ : Id => ℕ

/-- What the closures of the fusion share: the channel merges and the counts of the ranks
they handed out. -/
structure ChannelWorld (Id S : Type) {shards : ℕ} (segments : Fin shards → ℕ) where
  world : ShardWorld Id S segments
  merged : Fin 2 → KWayExactScoreStream (ShardWorld Id S segments) Id S shards
  materialized : Fin 2 → ℕ

section Sources

variable {Id S F : Type} {shards : ℕ} {segments : Fin shards → ℕ} [LinearOrder Id] [ToString Id]
  [Score S] [RankArithmetic F]

/-- Checks the versions of a batch against the observed ones and against each other, and
collects them. -/
def batchVersions (observed : AList fun _ : Id => ℕ) :
    (AList fun _ : Id => ℕ) → List (ScoredPoint Id S) →
      OperationResult (AList fun _ : Id => ℕ)
  | versions, [] => .ok versions
  | versions, point :: points =>
    let id := point.id
    let version := point.version
    match (observed.lookup id).filter (· ≠ version) with
    | some other => .error (.inconsistentStorage
        s!"exact RRF observed point {id} at conflicting versions {other} and {version}")
    | none =>
      match (versions.lookup id).filter (· ≠ version) with
      | some other => .error (.inconsistentStorage
          s!"exact RRF batch observed point {id} at conflicting versions {other} and {version}")
      | none => batchVersions observed (versions.insert id version) points

/-- The score stream of a Shard. A short batch is the last one. -/
def exactScoreBatchStream
    (next : ℕ → ShardWorld Id S segments →
      OperationResult (List (ScoredPoint Id S)) × ShardWorld Id S segments) :
    ExactScoreBatchStream (ShardWorld Id S segments) Id S := fun maxResults w =>
  match next maxResults w with
  | (.error error, w) => (.error error, w)
  | (.ok points, w) =>
    match batchVersions w.versions ∅ points with
    | .error error => (.error error, w)
    | .ok versions =>
      (.ok ⟨points.map fun point => ⟨point.id, point.score⟩, decide (points.length < maxResults)⟩,
        { w with versions := versions ∪ w.versions })

/-- Pulls the stream of one Shard and notes its counters. -/
def nextShardBatch (channel : Fin 2) (shard : Fin shards) (maxResults : ℕ)
    (w : ShardWorld Id S segments) :
    OperationResult (List (ScoredPoint Id S)) × ShardWorld Id S segments :=
  let (result, stream) := (w.streams channel shard).nextBatch maxResults
  (result, { w with
    streams := update w.streams channel
      (update (w.streams channel) shard stream)
    physical := update w.physical channel
      (update (w.physical channel) shard stream.telemetry) })

/-- The rank stream of a channel, counting the ranks it hands out. -/
def observedRankBatchStream (channel : Fin 2) :
    ExactRrfBatchStream (ChannelWorld Id S segments) Id := fun maxResults w =>
  match (w.merged channel).nextRankBatch maxResults w.world with
  | (.error error, merged, world) =>
    (.error error, { w with world, merged := update w.merged channel merged })
  | (.ok batch, merged, world) =>
    (.ok batch, { w with
      world
      merged := update w.merged channel merged
      materialized := update w.materialized channel
        (w.materialized channel + batch.pointIds.length) })

omit [LinearOrder Id] [ToString Id] [Score S] [RankArithmetic F] in
/-- Collects fallible results in order, up to the first error. -/
def collectResults : {n : ℕ} → {α : Fin n → Type} → ((i : Fin n) → OperationResult (α i)) →
    OperationResult ((i : Fin n) → α i)
  | 0, _, _ => .ok fun i => i.elim0
  | _ + 1, _, results =>
    match results 0 with
    | .error error => .error error
    | .ok first =>
      match collectResults fun i => results i.succ with
      | .error error => .error error
      | .ok rest => .ok (Fin.cons first rest)

/-- Name of a channel in error texts. -/
def channelName : Fin 2 → String := ![ "Dense", "Sparse"]

/-- Opens the streams of all Shards for one channel. -/
def openChannel (sources : (shard : Fin shards) → Fin (segments shard) → SegmentScoreSource Id S)
    (visiblePointCopies : Fin shards → ℕ) (batchSize : ℕ) (stopped : Fin shards → ℕ → Bool)
    (channel : Fin 2) :
    OperationResult ((shard : Fin shards) → ExactShardMergeState Id S (segments shard)) :=
  collectResults fun shard => ExactShardMergeState.openMerge (sources shard)
    (visiblePointCopies shard) batchSize (stopped shard) (channelName channel)

/-- Starts the merge of one channel over its Shard streams. -/
def mergeChannel (channel : Fin 2) (world : ShardWorld Id S segments) :
    OperationResult (KWayExactScoreStream (ShardWorld Id S segments) Id S shards) ×
      ShardWorld Id S segments :=
  KWayExactScoreStream.newBatched
    (fun shard => exactScoreBatchStream (nextShardBatch channel shard)) exactFusionBatchSize world

omit [Score S] in
/-- The observed versions of the given identities. -/
def resultVersions (observed : AList fun _ : Id => ℕ) :
    List Id → OperationResult (AList fun _ : Id => ℕ)
  | [] => .ok ∅
  | id :: ids =>
    match observed.lookup id with
    | none => .error (.inconsistentStorage s!"exact RRF result {id} has no visible version")
    | some version => (resultVersions observed ids).map fun versions => versions.insert id version

omit [Score S] in
/-- The result of a request after the fusion, given the sparse streams as they were opened. -/
def hybridResult (sparse : (shard : Fin shards) → ExactShardMergeState Id S (segments shard)) :
    OperationResult (DynamicRrfExecution Id 2) × ChannelWorld Id S segments →
      OperationResult (ExactRrfResult Id)
  | (.error error, _) => .error error
  | (.ok execution, final) =>
    (resultVersions final.world.versions execution.pointIds).map fun versions =>
      { pointIds := execution.pointIds
        versions
        stopReason := execution.stopReason
        sourcePulls := execution.sourcePulls
        sourceExhausted := execution.sourceExhausted
        certificationChecks := execution.certificationChecks
        sourcePointsMaterialized := final.materialized
        sourceBatchRequests := fun channel => ((List.finRange shards).map fun shard =>
          (final.world.physical channel shard).batchRequests).sum
        sourcePointsReceived := fun channel => ((List.finRange shards).map fun shard =>
          (final.world.physical channel shard).pointsReceived).sum
        exhaustiveFallbackSources := ((List.finRange shards).map fun shard =>
          (sparse shard).telemetry.exhaustiveFallbackSources).sum
        visiblePointCopies := ((List.finRange shards).map fun shard =>
          (sparse shard).telemetry.visiblePointCopies).sum
        shardCount := 0 }

/-- `ExactHybridSession::execute`, from the score sources of the Segments on. -/
def executeHybrid (fuel : ℕ)
    (sources : Fin 2 → (shard : Fin shards) → Fin (segments shard) → SegmentScoreSource Id S)
    (visiblePointCopies : Fin shards → ℕ) (request : ExactRrfRequest F)
    (stopped : Fin 2 → Fin shards → ℕ → Bool) : Option (OperationResult (ExactRrfResult Id)) :=
  let batchSize := if request.batchSize = 0 then defaultExactBatchSize else request.batchSize
  match openChannel (sources 1) visiblePointCopies batchSize (stopped 1) 1 with
  | .error error => some (.error error)
  | .ok sparse =>
    match openChannel (sources 0) visiblePointCopies batchSize (stopped 0) 0 with
    | .error error => some (.error error)
    | .ok dense =>
      let streams := ![dense, sparse]
      let world : ShardWorld Id S segments :=
        { streams
          physical := fun channel shard => (streams channel shard).telemetry
          versions := ∅ }
      match mergeChannel 0 world with
      | (.error error, _) => some (.error error)
      | (.ok denseStream, world) =>
        match mergeChannel 1 world with
        | (.error error, _) => some (.error error)
        | (.ok sparseStream, world) =>
          (executeDynamicRrfBatchesWithPolicy fuel observedRankBatchStream exactFusionBatchSize
            request.limit request.rrfK (some (List.ofFn request.weights))
            { DynamicRrfPolicy.default with scheduler := .maxNextContribution }
            ⟨world, ![denseStream, sparseStream], fun _ => 0⟩).map (hybridResult sparse)

end Sources

/-!
### The sources of a channel

A corpus is split into Shards and Segments. Every Shard stream serves the sorted union of
its Segments to the channel merge, and every channel merge serves the ranking of the whole
channel to the fusion. The versions of all points handed out are observed.
-/

open List

variable {Id S : Type} {shards : ℕ} {segments : Fin shards → ℕ} [LinearOrder Id] [Score S]

/-- The identity and score of a point. -/
def ScoredPoint.identity (point : ScoredPoint Id S) : ExactScoredIdentity Id S :=
  ⟨point.id, point.score⟩

/-- The points of every channel, Shard and Segment, as the Segments deliver them. Copies of
a point inside a Shard agree, and no identity occurs in two Shards. -/
structure IsSplit
    (lists : Fin 2 → (shard : Fin shards) → Fin (segments shard) → List (ScoredPoint Id S)) :
    Prop where
  ordered : ∀ channel shard, ExactShardMergeState.Ordered (lists channel shard)
  consistent : ∀ channel shard, ExactShardMergeState.Consistent (lists channel shard)
  versions_agree : ∀ channel other shard segment segment',
    ∀ point ∈ lists channel shard segment, ∀ copy ∈ lists other shard segment',
      point.id = copy.id → point.version = copy.version
  shard_unique : ∀ channel other shard shard' segment segment',
    ∀ point ∈ lists channel shard segment, ∀ copy ∈ lists other shard' segment',
      point.id = copy.id → shard = shard'

variable {lists : Fin 2 → (shard : Fin shards) → Fin (segments shard) → List (ScoredPoint Id S)}
  {shard : Fin shards} {channel : Fin 2}

/-- All points with one identity have one version. -/
theorem IsSplit.version_eq (h : IsSplit lists) {other : Fin 2} {shard' : Fin shards}
    {segment : Fin (segments shard)} {segment' : Fin (segments shard')}
    {point copy : ScoredPoint Id S} (hpoint : point ∈ lists channel shard segment)
    (hcopy : copy ∈ lists other shard' segment') (hid : point.id = copy.id) :
    point.version = copy.version := by
  obtain rfl := h.shard_unique channel other shard shard' segment segment' point hpoint copy hcopy
    hid
  exact h.versions_agree channel other shard segment segment' point hpoint copy hcopy hid

/-- What a Shard serves to the merge of a channel. -/
def shardRanking
    (lists : Fin 2 → (shard : Fin shards) → Fin (segments shard) → List (ScoredPoint Id S))
    (channel : Fin 2) (shard : Fin shards) : List (ExactScoredIdentity Id S) :=
  (ExactShardMergeState.shardOrder (lists channel shard)).map ScoredPoint.identity

theorem mem_shardRanking {identity : ExactScoredIdentity Id S} :
    identity ∈ shardRanking lists channel shard ↔
      ∃ segment, ∃ point ∈ lists channel shard segment, point.identity = identity := by
  simp only [shardRanking, mem_map, ExactShardMergeState.mem_shardOrder]
  grind

/-- The Shards of a channel merge. -/
theorem IsSplit.mergeable (h : IsSplit lists) (channel : Fin 2) :
    KWayExactScoreStream.Mergeable (shardRanking lists channel) := by
  refine ⟨?_, ?_, ?_⟩
  · intro shard identity hmem
    obtain ⟨segment, point, hpoint, rfl⟩ := mem_shardRanking.mp hmem
    exact (h.ordered channel shard).finite segment point hpoint
  · intro shard
    have hranked := ExactShardMergeState.ranked_shardOrder (h.consistent channel shard).copies_agree
    exact pairwise_map.mpr (Pairwise.imp (fun hlt => hlt.le) hranked)
  rw [map_flatMap, nodup_flatMap]
  constructor
  · intro shard _
    have hnodup :=
      ExactShardMergeState.shardOrder_ids_nodup (h.consistent channel shard).copies_agree
    rw [shardRanking, map_map]
    exact hnodup
  refine (nodup_finRange shards).imp fun {shard other} hne id hleft hright => hne ?_
  obtain ⟨_, hmem, rfl⟩ := mem_map.mp hleft
  obtain ⟨_, hmem', hid⟩ := mem_map.mp hright
  obtain ⟨segment, point, hpoint, rfl⟩ := mem_shardRanking.mp hmem
  obtain ⟨segment', copy, hcopy, rfl⟩ := mem_shardRanking.mp hmem'
  exact h.shard_unique channel channel shard other segment segment' point hpoint copy hcopy
    hid.symm

section Versions

variable [ToString Id]

omit [Score S] in
/-- Versions that agree with the observed ones and with each other are collected. -/
theorem batchVersions_eq_ok {observed versions : AList fun _ : Id => ℕ}
    {points : List (ScoredPoint Id S)}
    (hobserved : ∀ point ∈ points, ∀ version, observed.lookup point.id = some version →
      version = point.version)
    (hversions : ∀ point ∈ points, ∀ version, versions.lookup point.id = some version →
      version = point.version)
    (hpoints : ∀ point ∈ points, ∀ copy ∈ points, point.id = copy.id →
      point.version = copy.version) :
    ∃ collected, batchVersions observed versions points = .ok collected ∧
      ∀ id version, collected.lookup id = some version ↔
        versions.lookup id = some version ∨
          ∃ point ∈ points, point.id = id ∧ point.version = version := by
  induction points generalizing versions with
  | nil => exact ⟨versions, rfl, by simp⟩
  | cons point points ih =>
    have hnone : ∀ found : Option ℕ, (∀ version, found = some version → version = point.version) →
        found.filter (· ≠ point.version) = none := by
      intro found hfound
      cases found with
      | none => rfl
      | some version => simp [Option.filter, hfound version rfl]
    have hversions' : ∀ other ∈ points, ∀ version,
        (versions.insert point.id point.version).lookup other.id = some version →
          version = other.version := by
      intro other hother version hlookup
      grind
    obtain ⟨collected, hrun, hlookup⟩ := ih
      (fun other hother => hobserved other (mem_cons_of_mem _ hother)) hversions'
      fun other hother copy hcopy => hpoints other (mem_cons_of_mem _ hother) copy
        (mem_cons_of_mem _ hcopy)
    refine ⟨collected, ?_, fun id version => ?_⟩
    · rw [batchVersions]
      simp only [hnone _ (hobserved point (by simp)), hnone _ (hversions point (by simp))]
      exact hrun
    constructor
    · grind
    · grind

end Versions

/-- The Shard streams have handed out beginnings of their rankings, and exactly versions of
points of the corpus have been observed, among them those of all points handed out. -/
structure ShardSupply
    (lists : Fin 2 → (shard : Fin shards) → Fin (segments shard) → List (ScoredPoint Id S))
    (w : ShardWorld Id S segments) (feeds : Fin 2 × Fin shards → Feed (ExactScoredIdentity Id S)) :
    Prop where
  streams : ∀ channel shard, ∃ past head emitted,
    ExactShardMergeState.Merging (lists channel shard) (w.streams channel shard) past head
      emitted ∧
    (feeds (channel, shard)).taken = emitted.map ScoredPoint.identity ∧
    emitted.map ScoredPoint.identity ++ (feeds (channel, shard)).rest =
      shardRanking lists channel shard ∧
    ∀ point ∈ emitted, w.versions.lookup point.id = some point.version
  versions : ∀ id version, w.versions.lookup id = some version →
    ∃ channel shard segment, ∃ point ∈ lists channel shard segment,
      point.id = id ∧ point.version = version

variable {size : ℕ}

private theorem drop_eq_nil_of_short {α : Type} {points : List α}
    (h : (points.take size).length < size) : points.drop size = [] := by
  rw [length_take] at h
  exact drop_eq_nil_of_le (by omega)

private theorem update_update_of_ne {β : Fin shards → Type}
    (f : Fin 2 → (shard : Fin shards) → β shard) {channel' : Fin 2} {shard' : Fin shards}
    (value : β shard) (h : (channel', shard') ≠ (channel, shard)) :
    update f channel (update (f channel) shard value) channel' shard' =
      f channel' shard' := by
  by_cases hchannel : channel' = channel
  · subst hchannel
    have hshard : shard' ≠ shard := fun heq => h (by rw [heq])
    rw [update_self, update_of_ne hshard]
  · rw [update_of_ne hchannel]

variable [ToString Id]

/-- The stream of a Shard serves its ranking to the channel merge. -/
theorem exactScoreBatchStream_serves (hsplit : IsSplit lists) (channel : Fin 2) (shard : Fin shards)
    (hsize : 0 < size) :
    ServesBatches (ShardSupply lists)
      (exactScoreBatchStream (nextShardBatch channel shard) size) ExactScoreBatch.points
      ExactScoreBatch.exhausted (fun _ _ => True) size (channel, shard) := by
  intro w feeds hsupply _
  obtain ⟨past, head, emitted, hmerging, htaken, hlist, hobserved⟩ := hsupply.streams channel shard
  have hordered := hsplit.ordered channel shard
  have hconsistent := hsplit.consistent channel shard
  obtain ⟨points, next, past', head', hpoints, hrun, hnext⟩ :=
    hmerging.nextBatch_eq hordered hconsistent hsize
  obtain ⟨later, hlater⟩ := hmerging.emitted_prefix hordered hconsistent
  rw [← hlater, drop_left] at hpoints
  have hrest : (feeds (channel, shard)).rest = later.map ScoredPoint.identity := by
    rw [shardRanking, ← hlater, map_append] at hlist
    exact append_cancel_left hlist
  have hmem : ∀ point ∈ points, ∃ segment, point ∈ lists channel shard segment :=
    fun point hpoint => hnext.exists_mem_list point (mem_append_right _ hpoint)
  -- The versions of the batch agree with every observed version.
  obtain ⟨collected, hversions, hlookup⟩ : ∃ collected,
      batchVersions w.versions ∅ points = .ok collected ∧
      ∀ id version, collected.lookup id = some version ↔
        (∅ : AList fun _ : Id => ℕ).lookup id = some version ∨
          ∃ point ∈ points, point.id = id ∧ point.version = version := by
    apply batchVersions_eq_ok
    · intro point hpoint version hfound
      obtain ⟨segment, hsegment⟩ := hmem point hpoint
      obtain ⟨_, _, _, copy, hcopy, hid, rfl⟩ := hsupply.versions _ _ hfound
      exact hsplit.version_eq hcopy hsegment hid
    · intro point _ version hfound
      cases hfound
    intro point hpoint copy hcopy hid
    obtain ⟨segment, hsegment⟩ := hmem point hpoint
    obtain ⟨segment', hsegment'⟩ := hmem copy hcopy
    exact hsplit.version_eq hsegment hsegment' hid
  have hlookup : ∀ id version, collected.lookup id = some version ↔
      ∃ point ∈ points, point.id = id ∧ point.version = version := by
    intro id version
    rw [hlookup, AList.lookup_empty]
    simp
  have hkeep : ∀ id version, w.versions.lookup id = some version →
      (collected ∪ w.versions).lookup id = some version := by
    intro id version hfound
    rw [AList.lookup_union_eq_some]
    by_cases hid : id ∈ collected
    · left
      obtain ⟨version', hversion'⟩ := Option.isSome_iff_exists.mp (AList.lookup_isSome.mpr hid)
      obtain ⟨point, hpoint, rfl, rfl⟩ := (hlookup _ _).mp hversion'
      obtain ⟨segment, hsegment⟩ := hmem point hpoint
      obtain ⟨_, _, _, copy, hcopy, hid, rfl⟩ := hsupply.versions _ _ hfound
      rw [hversion', hsplit.version_eq hcopy hsegment hid]
    · exact Or.inr ⟨hid, hfound⟩
  refine ⟨⟨points.map ScoredPoint.identity, decide (points.length < size)⟩,
    (later.drop size).map ScoredPoint.identity,
    { w with
      streams := update w.streams channel
        (update (w.streams channel) shard next)
      physical := update w.physical channel
        (update (w.physical channel) shard next.telemetry)
      versions := collected ∪ w.versions }, ?_, trivial, ?_, ?_, ?_, ?_, ?_, ?_⟩
  · simp only [exactScoreBatchStream, nextShardBatch, hrun, hversions]
    rfl
  · rw [hrest, hpoints, ← map_append, take_append_drop]
  · rw [hpoints, length_map]
    exact length_take_le ..
  · intro hshort
    rw [decide_eq_true_eq, hpoints] at hshort
    rw [drop_eq_nil_of_short hshort, map_nil]
  · intro hempty
    rw [map_eq_nil_iff] at hempty
    simpa [hempty] using hsize
  · intro channel' shard'
    by_cases hplace : (channel', shard') = (channel, shard)
    · obtain ⟨rfl, rfl⟩ := Prod.mk.inj hplace
      refine ⟨past', head', emitted ++ points, ?_, ?_, ?_, ?_⟩
      · simpa using hnext
      · simp [htaken]
      · rw [update_self, shardRanking, ← hlater, ← map_append, hpoints]
        simp
      intro point hpoint
      rcases mem_append.mp hpoint with hpoint | hpoint
      · exact hkeep _ _ (hobserved point hpoint)
      · exact AList.lookup_union_eq_some.mpr
          (Or.inl ((hlookup _ _).mpr ⟨point, hpoint, rfl, rfl⟩))
    · obtain ⟨past, head, emitted, hold, htaken, hlist, hobserved⟩ :=
        hsupply.streams channel' shard'
      refine ⟨past, head, emitted, ?_, ?_, ?_, fun point hpoint =>
        hkeep _ _ (hobserved point hpoint)⟩
      · dsimp only
        rw [update_update_of_ne w.streams next hplace]
        exact hold
      · rw [update_of_ne hplace, htaken]
      · rw [update_of_ne hplace, hlist]
  · intro id version hfound
    rcases AList.lookup_union_eq_some.mp hfound with hnew | ⟨_, hold⟩
    · grind
    · exact hsupply.versions id version hold

/-- The channel merges have handed out beginnings of the rankings of their channels. -/
def ChannelSupply
    (lists : Fin 2 → (shard : Fin shards) → Fin (segments shard) → List (ScoredPoint Id S))
    (w : ChannelWorld Id S segments) (feeds : Fin 2 → Feed Id) : Prop :=
  ∃ inner, ∀ channel, ∃ past head emitted,
    KWayExactScoreStream.Merging (ShardSupply lists) (shardRanking lists channel)
      (fun shard => (channel, shard)) (w.merged channel) w.world inner past head emitted ∧
    (feeds channel).taken = emitted.map ExactScoredIdentity.id ∧
    emitted.map ExactScoredIdentity.id ++ (feeds channel).rest =
      (KWayExactScoreStream.mergedOrder (shardRanking lists channel)).map ExactScoredIdentity.id

/-- The merge of a channel serves the ranking of the channel to the fusion. -/
theorem observedRankBatchStream_serves (hsplit : IsSplit lists) (channel : Fin 2)
    (hsize : 0 < size) :
    ServesBatches (ChannelSupply lists) (observedRankBatchStream channel size)
      ChannelRankBatch.pointIds ChannelRankBatch.exhausted
      (fun feed batch => batch.startRank = feed.taken.length) size channel := by
  rintro w feeds ⟨inner, hchannels⟩ _
  obtain ⟨past, head, emitted, hmerging, htaken, hlist⟩ := hchannels channel
  have hmerge := hsplit.mergeable channel
  obtain ⟨points, next, world, inner', past', head', hpoints, hrun, hnext, helsewhere⟩ :=
    hmerging.nextRankBatch_eq hmerge hsize
  obtain ⟨later, hlater⟩ := hmerging.emitted_prefix hmerge
  rw [← hlater, drop_left] at hpoints
  have hrest : (feeds channel).rest = later.map ExactScoredIdentity.id := by
    rw [← hlater, map_append] at hlist
    exact append_cancel_left hlist
  refine ⟨⟨emitted.length, points.map ExactScoredIdentity.id, decide (points.length < size)⟩,
    (later.drop size).map ExactScoredIdentity.id,
    { world
      merged := update w.merged channel next
      materialized := update w.materialized channel
        (w.materialized channel + (points.map ExactScoredIdentity.id).length) }, ?_, ?_, ?_, ?_, ?_,
    ?_, ⟨inner', fun channel' => ?_⟩⟩
  · simp only [observedRankBatchStream, hrun]
  · dsimp only
    rw [htaken, length_map]
  · rw [hrest, hpoints, ← map_append, take_append_drop]
  · rw [hpoints, length_map]
    exact length_take_le ..
  · intro hshort
    rw [decide_eq_true_eq, hpoints] at hshort
    rw [drop_eq_nil_of_short hshort, map_nil]
  · intro hempty
    rw [map_eq_nil_iff] at hempty
    simpa [hempty] using hsize
  by_cases hchannel : channel' = channel
  · subst hchannel
    refine ⟨past', head', emitted ++ points, ?_, ?_, ?_⟩
    · simpa using hnext
    · simp [htaken]
    · rw [update_self, ← hlater, ← map_append, hpoints]
      simp
  obtain ⟨past, head, emitted, hold, htaken, hlist⟩ := hchannels channel'
  refine ⟨past, head, emitted, ?_, ?_, ?_⟩
  · dsimp only
    rw [update_of_ne hchannel]
    -- The other channel keeps its own Shard feeds.
    refine hold.frame hnext.feeding.supplied fun shard => helsewhere _ fun other heq => ?_
    exact hchannel (Prod.mk.inj heq).1.symm
  · rw [update_of_ne hchannel, htaken]
  · rw [update_of_ne hchannel, hlist]

omit [ToString Id] in
/-- Every identity a channel has handed out has an observed version. -/
theorem ChannelSupply.exists_version {w : ChannelWorld Id S segments} {feeds : Fin 2 → Feed Id}
    (h : ChannelSupply lists w feeds) {id : Id} (hid : id ∈ (feeds channel).taken) :
    ∃ version, w.world.versions.lookup id = some version := by
  obtain ⟨inner, hchannels⟩ := h
  obtain ⟨past, head, emitted, hmerging, htaken, _⟩ := hchannels channel
  rw [htaken] at hid
  obtain ⟨identity, hidentity, rfl⟩ := mem_map.mp hid
  obtain ⟨shard, _, hpast⟩ :=
    mem_flatMap.mp (hmerging.heaped.emitted_perm.mem_iff.mp hidentity)
  have hfeed : identity ∈ (inner (channel, shard)).taken := by
    rw [(hmerging.feeding.fed shard).taken_eq]
    exact mem_append_left _ (mem_append_left _ hpast)
  obtain ⟨_, _, handed, _, hhanded, _, hobserved⟩ :=
    hmerging.feeding.supplied.streams channel shard
  rw [hhanded] at hfeed
  obtain ⟨point, hpoint, rfl⟩ := mem_map.mp hfeed
  exact ⟨point.version, hobserved point hpoint⟩

end Stratumind
