import Stratumind.Collection.ExactRrf
import Stratumind.Fusion.SessionRuns

/-!
# Exactness of hybrid retrieval

However a corpus is split into Shards and Segments, and whatever the batch size, a request
returns the exact fusion of the rankings of the whole channels.
-/

namespace Stratumind

open Lib List

variable {Id S F : Type} {shards : ℕ} {segments : Fin shards → ℕ} [LinearOrder Id] [ToString Id]
  [Score S] [RankArithmetic F]

omit [LinearOrder Id] [ToString Id] [Score S] [RankArithmetic F] in
/-- Collecting results that all succeed. -/
theorem collectResults_eq_ok : ∀ {n : ℕ} {α : Fin n → Type}
    {results : (i : Fin n) → OperationResult (α i)} {values : (i : Fin n) → α i},
    (∀ i, results i = .ok (values i)) → collectResults results = .ok values
  | 0, _, _, values, _ => by
    rw [collectResults]
    congr 1
    funext i
    exact i.elim0
  | _ + 1, _, _, values, h => by
    rw [collectResults, h 0, collectResults_eq_ok fun i => h i.succ]
    exact congrArg Except.ok (Fin.cons_self_tail values)

omit [RankArithmetic F] [Score S] in
/-- The versions of observed identities are found. -/
theorem exists_resultVersions {observed : AList fun _ : Id => ℕ} {ids : List Id}
    (h : ∀ id ∈ ids, ∃ version, observed.lookup id = some version) :
    ∃ versions, resultVersions observed ids = .ok versions := by
  induction ids with
  | nil => exact ⟨∅, rfl⟩
  | cons id ids ih =>
    obtain ⟨version, hversion⟩ := h id (by simp)
    obtain ⟨versions, hversions⟩ := ih fun other hother => h other (mem_cons_of_mem _ hother)
    rw [resultVersions, hversion]
    simp only [hversions]
    exact ⟨_, rfl⟩

variable {lists : Fin 2 → (shard : Fin shards) → Fin (segments shard) → List (ScoredPoint Id S)}
  {pulls : Fin 2 → (shard : Fin shards) → Fin (segments shard) → PullBatch Id S}

omit [RankArithmetic F] [ToString Id] in
/-- Every Shard stream opens. -/
theorem exists_openChannel (hsplit : IsSplit lists) {channel : Fin 2}
    (hpulls : ∀ shard segment, (pulls channel shard segment).Delivers (lists channel shard segment))
    (modes : (shard : Fin shards) → Fin (segments shard) → ExactSourceMode)
    (visiblePointCopies : Fin shards → ℕ) {batchSize : ℕ} (hbatch : 0 < batchSize) :
    ∃ streams, openChannel
        (fun shard segment => .onDemand (pulls channel shard segment) (modes shard segment))
        visiblePointCopies batchSize (fun _ _ => false) channel = .ok streams ∧
      ∀ shard, ∃ head, ExactShardMergeState.Merging (lists channel shard) (streams shard)
        (fun _ => []) head [] := by
  have hopen := fun shard => ExactShardMergeState.openMerge_eq (hsplit.ordered channel shard)
    (modes shard) (hpulls shard) (visiblePointCopies shard) hbatch (channelName channel)
  choose streams head hstreams hmerging using hopen
  exact ⟨streams, collectResults_eq_ok hstreams, fun shard => ⟨head shard, hmerging shard⟩⟩

omit [RankArithmetic F] in
/-- The merge of a channel starts on Shard streams that have handed out nothing to it. -/
theorem exists_mergeChannel (hsplit : IsSplit lists) (hshards : 0 < shards) (channel : Fin 2)
    {w : ShardWorld Id S segments} {feeds : Fin 2 × Fin shards → Feed (ExactScoredIdentity Id S)}
    (hsupply : ShardSupply lists w feeds)
    (hfeeds : ∀ shard, feeds (channel, shard) = Feed.fresh (shardRanking lists channel shard)) :
    ∃ stream w' feeds' head, mergeChannel channel w = (.ok stream, w') ∧
      KWayExactScoreStream.Merging (ShardSupply lists) (shardRanking lists channel)
        (fun shard => (channel, shard)) stream w' feeds' (fun _ => []) head [] ∧
      ∀ other shard, other ≠ channel → feeds' (other, shard) = feeds (other, shard) := by
  have hinner : Function.Injective fun shard : Fin shards => (channel, shard) :=
    fun _ _ heq => (Prod.mk.inj heq).2
  have hsize : 0 < exactFusionBatchSize := by decide
  let sources : Fin shards → ExactScoreSource (ShardWorld Id S segments) Id S :=
    fun shard => .batch (exactScoreBatchStream (nextShardBatch channel shard)) [] false
  have hfresh : ∀ shard, (sources shard).IsFresh := fun _ => ⟨rfl, rfl⟩
  have hserves : ∀ shard,
      (sources shard).Serves (ShardSupply lists) exactFusionBatchSize (channel, shard) :=
    fun shard => exactScoreBatchStream_serves hsplit channel shard hsize
  rcases KWayExactScoreStream.newWithSources_cases hshards hsize hfresh hinner hserves hsupply
    hfeeds with ⟨_, _, _, hbad⟩ | ⟨stream, w', feeds', head, hnew, hmerging, helsewhere⟩
  · exact absurd (hsplit.mergeable channel) hbad
  · refine ⟨stream, w', feeds', head, hnew, hmerging, fun other shard hother => helsewhere _ ?_⟩
    exact fun _ heq => hother (Prod.mk.inj heq).1.symm

/-- The ranking of a whole channel. -/
def channelRanking
    (lists : Fin 2 → (shard : Fin shards) → Fin (segments shard) → List (ScoredPoint Id S))
    (channel : Fin 2) : List Id :=
  (KWayExactScoreStream.mergedOrder (shardRanking lists channel)).map ExactScoredIdentity.id

omit [ToString Id] [RankArithmetic F] in
/-- The ranking of a channel is that of its points, however they are split. -/
theorem IsSplit.channelRanking_eq (hsplit : IsSplit lists) {channel : Fin 2}
    {corpus : List (ScoredPoint Id S)} (hnodup : corpus.Nodup)
    (hcorpus : ∀ point, point ∈ corpus ↔ ∃ shard segment, point ∈ lists channel shard segment) :
    channelRanking lists channel = (rankBy ScoredPoint.key corpus).map ScoredPoint.id := by
  have hkeys : (corpus.map ScoredPoint.key).Nodup := by
    refine hnodup.map_on fun left hleft right hright heq => ?_
    obtain ⟨shard, segment, hleft⟩ := (hcorpus left).mp hleft
    obtain ⟨shard', segment', hright⟩ := (hcorpus right).mp hright
    have hid : left.id = right.id := (rankKey_inj.mp heq).2
    obtain rfl := hsplit.shard_unique channel channel shard shard' segment segment' left hleft
      right hright hid
    exact (hsplit.consistent channel shard).copies_agree segment segment' left hleft right hright
      hid
  have hranked : Ranked ExactScoredIdentity.key
      ((rankBy ScoredPoint.key corpus).map ScoredPoint.identity) :=
    pairwise_map.mpr (ranked_rankBy hkeys)
  have heq := hranked.eq_of_mem_iff (hsplit.mergeable channel).ranked_mergedOrder fun identity => by
    rw [KWayExactScoreStream.mem_mergedOrder]
    simp only [mem_map, mem_rankBy, hcorpus, mem_shardRanking]
    grind
  rw [channelRanking, ← heq, map_map]
  rfl

omit [ToString Id] [RankArithmetic F] in
/-- The ranking of a channel lists every identity once. -/
theorem IsSplit.channelRanking_nodup (hsplit : IsSplit lists) (channel : Fin 2) :
    (channelRanking lists channel).Nodup := by
  have hperm : (KWayExactScoreStream.mergedOrder (shardRanking lists channel)).Perm
      ((finRange shards).flatMap (shardRanking lists channel)) := rankBy_perm _
  exact (hperm.map _).nodup_iff.mpr (hsplit.mergeable channel).ids_nodup

/-- Fusing channel merges that have handed out nothing gives the exact prefix, and the
versions of its identities have been observed. -/
theorem exists_executeDynamicRrfBatches (hsplit : IsSplit lists) {w : ChannelWorld Id S segments}
    (hsupply : ChannelSupply lists w fun channel => Feed.fresh (channelRanking lists channel))
    (limit : ℕ) {rrfK : ℕ} (hk : 0 < rrfK) {weights : Fin 2 → F}
    (hweights : ∀ channel, Score.isFinite (weights channel) = true ∧ 0 ≤ weights channel)
    {policy : DynamicRrfPolicy} (hwarmup : policy.warmupCheckInterval ≠ some 0)
    (hexhaustive : policy.exhaustiveAfterPullsPerSource ≠ some 0)
    (hfairness : policy.fairnessAfterActionsPerSource ≠ some 0)
    (hone : Score.isFinite (1 : F) = true ∧ 0 < (1 : F)) :
    ∃ execution final,
      Returns (fun fuel => executeDynamicRrfBatchesWithPolicy fuel observedRankBatchStream
        exactFusionBatchSize limit rrfK (some (ofFn weights)) policy w)
        (.ok execution, final) ∧
      execution.pointIds = (exhaustiveOrder rrfK weights (channelRanking lists)).take limit ∧
      ∀ id ∈ execution.pointIds, ∃ version, final.world.versions.lookup id = some version := by
  have hsize : 0 < exactFusionBatchSize := by decide
  obtain ⟨session, hnew⟩ : ∃ session : DynamicRrfSession (ChannelWorld Id S segments) Id F 2,
      DynamicRrfSession.newBatched observedRankBatchStream exactFusionBatchSize limit rrfK
        (some (ofFn weights)) policy = .ok session := by
    refine DynamicRrfSession.exists_newWithInputs _ hsize hwarmup hexhaustive hfairness
      (length_replicate ..) (fun cost hcost => ?_) (by decide) hk rfl hweights
    rw [eq_of_mem_replicate hcost]
    exact hone
  obtain ⟨_, hstate, _⟩ := DynamicRrfSession.newWithInputs_eq_ok hnew
  obtain ⟨_, _, resolved, hresolved, _, hstart⟩ := DynamicRrfState.new_eq_ok_iff.mp hstate
  have hstateWeights : session.state.weights = weights := by
    rw [hstart]
    exact ofFn_injective hresolved.symm
  let input : FusionInput Id F 2 :=
    ⟨rrfK, weights, channelRanking lists, hsplit.channelRanking_nodup⟩
  have hserves : ∀ channel, (DynamicRrfSource.batch (observedRankBatchStream channel) :
      DynamicRrfSource (ChannelWorld Id S segments) Id).Serves (ChannelSupply lists)
        exactFusionBatchSize (id channel) :=
    fun channel => observedRankBatchStream_serves hsplit channel hsize
  have hlinked : DynamicRrfSession.Linked (ChannelSupply lists) input id session w
      fun channel => Feed.fresh (channelRanking lists channel) :=
    DynamicRrfSession.linked_of_newWithInputs hnew hstateWeights hsupply Function.injective_id
      hserves fun _ => rfl
  obtain ⟨execution, ⟨after, final⟩, ⟨feeds, hafter, _, htop⟩, hreports, hreturns⟩ :=
    hlinked.exists_runToCompletion
  refine ⟨execution, final, ?_, ?_, fun id hid => ?_⟩
  · have hmapped := hreturns.map fun (result, _, w) => (result, w)
    simpa only [executeDynamicRrfBatchesWithPolicy, hnew] using hmapped
  · have hlimit : session.state.topK = limit := by rw [hstart]
    rw [hafter.pointIds_eq hreports, htop, hlimit]
    rfl
  · obtain ⟨channel, hchannel⟩ := hafter.tracks.mem_history_of_fixedTopK hreports.fixed hid
    rw [← hafter.taken_eq channel] at hchannel
    exact hafter.supplied.exists_version hchannel

omit [ToString Id] [RankArithmetic F] in
/-- Opened Shard streams supply rankings of which nothing has been handed out. -/
theorem shardSupply_of_open
    {streams : Fin 2 → (shard : Fin shards) → ExactShardMergeState Id S (segments shard)}
    (hstreams : ∀ channel shard, ∃ head, ExactShardMergeState.Merging (lists channel shard)
      (streams channel shard) (fun _ => []) head []) :
    ShardSupply lists ⟨streams, fun channel shard => (streams channel shard).telemetry, ∅⟩
      fun place => Feed.fresh (shardRanking lists place.1 place.2) := by
  constructor
  · intro channel shard
    obtain ⟨head, hmerging⟩ := hstreams channel shard
    exact ⟨_, head, [], hmerging, rfl, rfl, by simp⟩
  · intro id version hfound
    cases hfound

/-- A request over no Shard fails, and so does one that meets an infinite score. -/
theorem hybrid_retrieval_no_shard_or_infinite :
    (∀ (fuel : ℕ)
      (sources : Fin 2 → (shard : Fin 0) → Fin (Fin.elim0 shard) → SegmentScoreSource ℕ ℚ)
      (visiblePointCopies : Fin 0 → ℕ) (request : ExactRrfRequest ℚ),
      executeHybrid fuel sources visiblePointCopies request (fun _ _ _ => false) =
        some (.error (.validationError "exact score merge requires at least one source"))) ∧
    let segments : Fin 1 → ℕ := fun _ => 1
    let sources : Fin 2 → (shard : Fin 1) → Fin (segments shard) →
        SegmentScoreSource ℕ (WithTop ℚ) :=
      fun _ _ _ => .onDemand (.ofBatches [[⟨7, 0, ⊤⟩]]) .exact
    ∀ fuel, executeHybrid fuel sources (fun _ => 1) (⟨1, 60, fun _ => 1, 1⟩ : ExactRrfRequest ℚ)
        (fun _ _ _ => false) =
      some (.error (.validationError "exact Segment source 0 produced a non-finite score")) :=
  ⟨fun _ _ _ _ => rfl, fun _ => rfl⟩

/-- End-to-end exactness. Whatever the split into at least one Shard and any Segments, and
whatever the batch size, a request returns the first identities of the fusion of the
rankings of the whole channels. -/
theorem hybrid_retrieval_exact (hsplit : IsSplit lists) (hshards : 0 < shards)
    (hpulls : ∀ channel shard segment,
      (pulls channel shard segment).Delivers (lists channel shard segment))
    (modes : Fin 2 → (shard : Fin shards) → Fin (segments shard) → ExactSourceMode)
    (visiblePointCopies : Fin shards → ℕ) (request : ExactRrfRequest F) (hk : 0 < request.rrfK)
    (hweights : ∀ channel, Score.isFinite (request.weights channel) = true ∧
      0 ≤ request.weights channel)
    (hone : Score.isFinite (1 : F) = true ∧ 0 < (1 : F))
    {corpus : Fin 2 → List (ScoredPoint Id S)} (hnodup : ∀ channel, (corpus channel).Nodup)
    (hcorpus : ∀ channel point, point ∈ corpus channel ↔
      ∃ shard segment, point ∈ lists channel shard segment) (embed : S → F) :
    ∃ ranked result,
      exactRrfScoring (ofFn fun channel => (rankBy ScoredPoint.key (corpus channel)).map
        fun point => ⟨point.id, point.version, embed point.score⟩) request.rrfK
        (some (ofFn request.weights)) = .ok ranked ∧
      Returns (fun fuel => executeHybrid fuel (fun channel shard segment =>
          .onDemand (pulls channel shard segment) (modes channel shard segment))
        visiblePointCopies request fun _ _ _ => false) (.ok result) ∧
      result.pointIds = (ranked.map ScoredPoint.id).take request.limit := by
  have hbatch : 0 < if request.batchSize = 0 then defaultExactBatchSize else request.batchSize := by
    split
    · decide
    · omega
  obtain ⟨sparse, hsparse, hsparse'⟩ := exists_openChannel hsplit (hpulls 1) (modes 1)
    visiblePointCopies hbatch
  obtain ⟨dense, hdense, hdense'⟩ := exists_openChannel hsplit (hpulls 0) (modes 0)
    visiblePointCopies hbatch
  have hstreams : ∀ channel shard, ∃ head, ExactShardMergeState.Merging (lists channel shard)
      (![dense, sparse] channel shard) (fun _ => []) head [] :=
    Fin.forall_fin_two.mpr ⟨hdense', hsparse'⟩
  obtain ⟨denseStream, world, feeds, head, hmerge, hmerging, hothers⟩ :=
    exists_mergeChannel hsplit hshards 0 (shardSupply_of_open hstreams) fun _ => rfl
  obtain ⟨sparseStream, world', feeds', head', hmerge', hmerging', hothers'⟩ :=
    exists_mergeChannel hsplit hshards 1 hmerging.feeding.supplied fun shard =>
      hothers 1 shard (by decide)
  have hsupply : ChannelSupply lists ⟨world', ![denseStream, sparseStream], fun _ => 0⟩
      fun channel => Feed.fresh (channelRanking lists channel) := by
    have hdenseMerging := hmerging.frame hmerging'.feeding.supplied fun shard =>
      hothers' 0 shard (by decide)
    exact ⟨feeds', Fin.forall_fin_two.mpr ⟨⟨_, head, [], hdenseMerging, rfl, rfl⟩,
      ⟨_, head', [], hmerging', rfl, rfl⟩⟩⟩
  have hpolicy : ({ DynamicRrfPolicy.default with scheduler := .maxNextContribution } :
      DynamicRrfPolicy).warmupCheckInterval ≠ some 0 := by decide
  obtain ⟨execution, final, hreturns, hids, hversions⟩ := exists_executeDynamicRrfBatches hsplit
    hsupply request.limit hk hweights hpolicy (by decide) (by decide) hone
  obtain ⟨versions, hversions⟩ := exists_resultVersions hversions
  obtain ⟨result, hresult, hresultIds⟩ : ∃ result,
      hybridResult sparse (.ok execution, final) = .ok result ∧
        result.pointIds = execution.pointIds := by
    simp only [hybridResult, hversions]
    exact ⟨_, rfl, rfl⟩
  have hresponses : ∀ channel, ((rankBy ScoredPoint.key (corpus channel)).map fun point =>
      (⟨point.id, point.version, embed point.score⟩ : ScoredPoint Id F)).map ScoredPoint.id =
        channelRanking lists channel := by
    intro channel
    rw [hsplit.channelRanking_eq (hnodup channel) (hcorpus channel), map_map]
    rfl
  have hweights : ResolvedWeights (some (ofFn request.weights)) request.weights := rfl
  obtain ⟨ranked, hscoring, hranked⟩ := exactRrfScoring_eq_exhaustiveOrder (k := request.rrfK)
    hweights (fun channel => (rankBy ScoredPoint.key (corpus channel)).map
      fun point => ⟨point.id, point.version, embed point.score⟩) fun channel => by
        rw [hresponses]
        exact hsplit.channelRanking_nodup channel
  refine ⟨ranked, result, hscoring, ?_, ?_⟩
  · have hmapped := hreturns.map (hybridResult sparse)
    rw [hresult] at hmapped
    simpa only [executeHybrid, hsparse, hdense, hmerge, hmerge'] using hmapped
  rw [hresultIds, hids, hranked]
  congr 2
  funext channel
  exact (hresponses channel).symm

/-- Two Shards of two Segments, with a point copied inside a Shard. -/
theorem hybrid_retrieval_exact_two_shards :
    let segments : Fin 2 → ℕ := fun _ => 2
    let batches : Fin 2 → (shard : Fin 2) → Fin (segments shard) →
        List (List (ScoredPoint ℕ ℚ)) :=
      ![![![[[⟨1, 3, 9⟩], [], [⟨2, 0, 4⟩]], [[⟨1, 3, 9⟩]]], ![[[⟨5, 1, 6⟩]], []]],
        ![![[[⟨2, 0, 7⟩]], []], ![[], [[⟨5, 1, 2⟩]]]]]
    ∃ result, Returns (fun fuel => executeHybrid fuel (fun channel shard segment =>
        .onDemand (.ofBatches (batches channel shard segment)) .exact) (fun _ => 2)
        (⟨2, 60, fun _ => 1, 1⟩ : ExactRrfRequest ℚ) fun _ _ _ => false) (.ok result) ∧
      result.pointIds = [2, 5] := by
  intro segments batches
  let lists : Fin 2 → (shard : Fin 2) → Fin (segments shard) → List (ScoredPoint ℕ ℚ) :=
    fun channel shard segment => (batches channel shard segment).flatten
  let corpus : Fin 2 → List (ScoredPoint ℕ ℚ) := fun channel =>
    ((finRange 2).flatMap fun shard =>
      (finRange 2).flatMap fun segment => lists channel shard segment).dedup
  have hfinite : ∀ channel shard segment, ∀ point ∈ lists channel shard segment,
      Score.isFinite point.score = true := by decide
  have hsorted : ∀ channel shard segment,
      (lists channel shard segment).Pairwise fun left right => left.key ≤ right.key := by decide
  have hagree : ∀ channel shard segment segment', ∀ point ∈ lists channel shard segment,
      ∀ copy ∈ lists channel shard segment', point.id = copy.id → point = copy := by decide
  have hids : ∀ channel shard segment,
      ((lists channel shard segment).map ScoredPoint.id).Nodup := by decide
  have hsplit : IsSplit lists :=
    ⟨fun channel shard => ⟨hfinite channel shard, hsorted channel shard⟩,
      fun channel shard => ⟨hagree channel shard, hids channel shard⟩, by decide, by decide⟩
  have hcorpus : ∀ channel point, point ∈ corpus channel ↔
      ∃ shard segment, point ∈ lists channel shard segment := by
    intro channel point
    simp [corpus, mem_flatMap, segments]
  obtain ⟨ranked, result, hscoring, hreturns, hresult⟩ := hybrid_retrieval_exact hsplit
    (by decide) (fun channel shard segment => PullBatch.delivers_ofBatches _)
    (fun _ _ _ => .exact) (fun _ => 2) (⟨2, 60, fun _ => 1, 1⟩ : ExactRrfRequest ℚ) (by decide)
    (by decide) (by decide) (fun channel => nodup_dedup _) hcorpus id
  have hranked : ((exactRrfScoring (ofFn fun channel =>
      (rankBy ScoredPoint.key (corpus channel)).map fun point =>
        (⟨point.id, point.version, id point.score⟩ : ScoredPoint ℕ ℚ)) 60
      (some (ofFn fun _ : Fin 2 => (1 : ℚ)))).toOption.map fun ranked =>
        (ranked.map ScoredPoint.id).take 2) = some [2, 5] := by decide +kernel
  refine ⟨result, hreturns, ?_⟩
  rw [show exactRrfScoring _ 60 _ = .ok ranked from hscoring] at hranked
  rw [hresult]
  exact Option.some.inj hranked

end Stratumind
