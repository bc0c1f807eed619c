import Stratumind.Stream.KWayExactness

/-!
# Runs of batch calls on a k-way merge

A caller pulls batches of any sizes, also after a failed call. The replies to a merge of
lists that merge are consecutive parts of their sorted union. The batches delivered by any
merge are sorted and without repeated identities, and one that is flagged as the last
shows that the lists merge.
-/

namespace Stratumind

open Lib List

variable {V κ Id S : Type} {m : ℕ} [DecidableEq κ] [LinearOrder Id] [ToString Id] [Score S]

/-- The batches among the replies. -/
def delivered {β : Type} (replies : List (OperationResult β)) : List β :=
  replies.filterMap Except.toOption

namespace KWayExactScoreStream

/-- Pulls batches of the given sizes one after the other. -/
def rankBatches : List ℕ → KWayExactScoreStream V Id S m → V →
    List (OperationResult (ChannelRankBatch Id))
  | [], _, _ => []
  | size :: sizes, stream, v =>
    let (reply, next, w) := stream.nextRankBatch size v
    reply :: rankBatches sizes next w

/-- The replies that hand out `ranking` from position `start` on. A batch is flagged as
the last when fewer members remain than it asks for. -/
def rankingReplies (ranking : List Id) : ℕ → List ℕ → List (OperationResult (ChannelRankBatch Id))
  | _, [] => []
  | start, 0 :: sizes =>
    .error (.validationError "exact score merge batch size must be positive") ::
      rankingReplies ranking start sizes
  | start, (size + 1) :: sizes =>
    let remaining := ranking.drop start
    .ok ⟨start, remaining.take (size + 1), decide (remaining.length < size + 1)⟩ ::
      rankingReplies ranking (start + (remaining.take (size + 1)).length) sizes

/-- Every batch starts where the batches before it ended. -/
def Contiguous : ℕ → List (ChannelRankBatch Id) → Prop
  | _, [] => True
  | start, batch :: batches =>
    batch.startRank = start ∧ Contiguous (start + batch.pointIds.length) batches

omit [LinearOrder Id] [ToString Id] in
theorem delivered_rankingReplies (ranking : List Id) (start : ℕ) (sizes : List ℕ) :
    (delivered (rankingReplies ranking start sizes)).flatMap ChannelRankBatch.pointIds =
      (ranking.drop start).take sizes.sum := by
  induction sizes generalizing start with
  | nil => simp [rankingReplies, delivered]
  | cons size sizes ih =>
    cases size with
    | zero =>
      rw [rankingReplies, sum_cons, Nat.zero_add, ← ih]
      rfl
    | succ size =>
      have hcons : delivered (rankingReplies ranking start ((size + 1) :: sizes)) =
          ⟨start, (ranking.drop start).take (size + 1),
            decide ((ranking.drop start).length < size + 1)⟩ ::
          delivered (rankingReplies ranking
            (start + ((ranking.drop start).take (size + 1)).length) sizes) := rfl
      rw [hcons, flatMap_cons, ih, sum_cons, ← drop_drop]
      generalize ranking.drop start = remaining
      have hsplit : remaining.take (size + 1 + sizes.sum) =
          remaining.take (size + 1) ++ (remaining.drop (size + 1)).take sizes.sum :=
        take_add
      rw [hsplit, length_take]
      rcases le_total (size + 1) remaining.length with hle | hle
      · rw [min_eq_left hle]
      · rw [min_eq_right hle, drop_of_length_le le_rfl, drop_of_length_le hle]

omit [LinearOrder Id] [ToString Id] in
theorem contiguous_rankingReplies (ranking : List Id) (start : ℕ) (sizes : List ℕ) :
    Contiguous start (delivered (rankingReplies ranking start sizes)) := by
  induction sizes generalizing start with
  | nil => trivial
  | cons size sizes ih =>
    cases size with
    | zero => exact ih start
    | succ size => exact ⟨rfl, ih _⟩

omit [LinearOrder Id] [ToString Id] in
theorem exhausted_rankingReplies {ranking : List Id} {start : ℕ} {sizes : List ℕ} {size : ℕ}
    {batch : ChannelRankBatch Id}
    (h : (size, .ok batch) ∈ sizes.zip (rankingReplies ranking start sizes)) :
    (batch.exhausted = true ↔ batch.pointIds.length < size) ∧
      (batch.exhausted = true ↔ ranking.length - batch.startRank < size) := by
  induction sizes generalizing start with
  | nil => simp at h
  | cons first sizes ih =>
    cases first with
    | zero =>
      rcases mem_cons.mp h with h | h
      · simp at h
      · exact ih h
    | succ first =>
      rcases mem_cons.mp h with h | h
      · obtain ⟨rfl, hbatch⟩ := Prod.mk.inj h
        cases hbatch
        simp
      · exact ih h

variable {supply : Supply V κ (ExactScoredIdentity Id S)}
  {lists past : Fin m → List (ExactScoredIdentity Id S)} {inner : Fin m → κ}
  {head : Fin m → Option (ExactScoredIdentity Id S)} {emitted : List (ExactScoredIdentity Id S)}
  {stream : KWayExactScoreStream V Id S m} {v : V} {feeds : κ → Feed (ExactScoredIdentity Id S)}

/-- The replies of a merge of lists that merge hand out their sorted union. -/
theorem Merging.rankBatches_eq (h : Merging supply lists inner stream v feeds past head emitted)
    (hmerge : Mergeable lists) (sizes : List ℕ) :
    rankBatches sizes stream v =
      rankingReplies ((mergedOrder lists).map ExactScoredIdentity.id) emitted.length sizes := by
  induction sizes generalizing stream v feeds past head emitted with
  | nil => rfl
  | cons size sizes ih =>
    cases size with
    | zero => exact congrArg _ (ih h)
    | succ size =>
      obtain ⟨points, next, w, feeds', past', head', hpoints, hrun, hmerging, _⟩ :=
        h.nextRankBatch_eq hmerge (Nat.succ_pos size)
      have hids : ((mergedOrder lists).map ExactScoredIdentity.id |>.drop emitted.length).take
          (size + 1) = points.map ExactScoredIdentity.id := by
        rw [hpoints, map_take, map_drop]
      have hshort : points.length < size + 1 ↔
          ((mergedOrder lists).map ExactScoredIdentity.id |>.drop emitted.length).length <
            size + 1 := by
        rw [hpoints]
        simp
      have hnext := ih hmerging
      rw [rankBatches, hrun, rankingReplies, hids, decide_eq_decide.mpr hshort, length_map,
        ← length_append, ← hnext]

omit [DecidableEq κ] in
/-- A failed merge delivers nothing. -/
theorem delivered_rankBatches_of_failed {error : OperationError}
    (herror : stream.terminalError = some error) (sizes : List ℕ) :
    delivered (rankBatches sizes stream v) = [] := by
  induction sizes with
  | nil => rfl
  | cons size sizes ih =>
    have hrun : ∃ error, stream.nextRankBatch size v = (.error error, stream, v) := by
      unfold nextRankBatch
      rw [herror]
      split
      · exact ⟨_, rfl⟩
      · exact ⟨_, rfl⟩
    obtain ⟨error, hrun⟩ := hrun
    rw [rankBatches, hrun]
    exact ih

/-- The batches any merge delivers continue a sequence that it has returned, and one that
is flagged as the last shows that the lists merge. -/
theorem Merging.delivered_rankBatches
    (h : Merging supply lists inner stream v feeds past head emitted) (sizes : List ℕ) :
    let batches := delivered (rankBatches sizes stream v)
    (∀ batch ∈ batches, batch.exhausted = true → Mergeable lists) ∧
    Contiguous emitted.length batches ∧
    ∃ points, batches.flatMap ChannelRankBatch.pointIds = points.map ExactScoredIdentity.id ∧
      ∃ stream' v' feeds' past' head',
        Merging supply lists inner stream' v' feeds' past' head' (emitted ++ points) := by
  induction sizes generalizing stream v feeds past head emitted with
  | nil =>
    refine ⟨by simp [rankBatches, delivered], trivial, [], rfl, stream, v, feeds, past, head, ?_⟩
    rw [append_nil]
    exact h
  | cons size sizes ih =>
    cases size with
    | zero => exact ih h
    | succ size =>
      rcases h.nextRankBatch_cases (Nat.succ_pos size) with ⟨error, next, w, hrun, herror, _⟩ |
        ⟨points, next, w, feeds', past', head', hrun, hlength, hshort, hmerging, _⟩
      · have hnone : delivered (rankBatches ((size + 1) :: sizes) stream v) = [] := by
          rw [rankBatches, hrun]
          exact delivered_rankBatches_of_failed herror sizes
        rw [hnone]
        refine ⟨by simp, trivial, [], rfl, stream, v, feeds, past, head, ?_⟩
        rw [append_nil]
        exact h
      obtain ⟨hlast, hcontiguous, more, hmore, hfinal⟩ := ih hmerging
      rw [rankBatches, hrun]
      refine ⟨?_, ⟨rfl, ?_⟩, points ++ more, ?_, ?_⟩
      · intro batch hbatch hexhausted
        rcases mem_cons.mp hbatch with rfl | hbatch
        · obtain rfl := hshort (of_decide_eq_true hexhausted)
          exact hmerging.heaped.mergeable
        · exact hlast batch hbatch hexhausted
      · have hlength : (emitted ++ points).length =
            emitted.length + (points.map ExactScoredIdentity.id).length := by simp
        rw [hlength] at hcontiguous
        exact hcontiguous
      · rw [map_append, ← hmore]
        rfl
      · rw [← append_assoc]
        exact hfinal

/-- A full batch that takes the last point is not flagged as the last. -/
theorem full_batch_not_flagged :
    let lists : Fin 1 → List (ExactScoredIdentity ℕ ℚ) := ![[⟨7, 1⟩]]
    let world : Fin 1 → Feed (ExactScoredIdentity ℕ ℚ) := fun source => Feed.fresh (lists source)
    let sources : Fin 1 → ExactScoreStream (Fin 1 → Feed (ExactScoredIdentity ℕ ℚ)) ℕ ℚ :=
      ![ownNext 0]
    ∃ stream w, new sources world = (.ok stream, w) ∧ mergedOrder lists = [⟨7, 1⟩] ∧
      rankBatches [1] stream w = [.ok ⟨0, [7], false⟩] := by
  exact ⟨_, _, rfl, rfl, rfl⟩

/-- A merge of fresh sources is exact or fails closed. If the lists merge, then it opens
and the replies hand out their sorted union: contiguous batches, flagged as the last
exactly when they are short, that is when fewer points remained than were asked for.
Otherwise no batch is ever flagged, and the batches form a sorted sequence of points of
the lists without repeated identities. -/
theorem merge_exact_or_fails_closed {sources : Fin m → ExactScoreSource V Id S}
    {sourceRefillBatchSize : ℕ} (hm : 0 < m) (hsize : 0 < sourceRefillBatchSize)
    (hsources : ∀ source, (sources source).IsFresh) (hinner : Function.Injective inner)
    (hserves : ∀ source, (sources source).Serves supply sourceRefillBatchSize (inner source))
    (hsupply : supply v feeds)
    (hfeeds : ∀ source, feeds (inner source) = Feed.fresh (lists source)) :
    (Mergeable lists → ∃ stream w,
      newWithSources sources sourceRefillBatchSize v = (.ok stream, w) ∧ ∀ sizes,
        rankBatches sizes stream w =
          rankingReplies ((mergedOrder lists).map ExactScoredIdentity.id) 0 sizes ∧
        Contiguous 0 (delivered (rankBatches sizes stream w)) ∧
        (delivered (rankBatches sizes stream w)).flatMap ChannelRankBatch.pointIds =
          ((mergedOrder lists).map ExactScoredIdentity.id).take sizes.sum ∧
        ∀ size batch, (size, .ok batch) ∈ sizes.zip (rankBatches sizes stream w) →
          (batch.exhausted = true ↔ batch.pointIds.length < size) ∧
          (batch.exhausted = true ↔ (mergedOrder lists).length - batch.startRank < size)) ∧
    (¬Mergeable lists → ∀ stream w,
      newWithSources sources sourceRefillBatchSize v = (.ok stream, w) → ∀ sizes,
        (∀ batch ∈ delivered (rankBatches sizes stream w), batch.exhausted = false) ∧
        Contiguous 0 (delivered (rankBatches sizes stream w)) ∧
        ∃ points : List (ExactScoredIdentity Id S),
          (delivered (rankBatches sizes stream w)).flatMap ChannelRankBatch.pointIds =
            points.map ExactScoredIdentity.id ∧
          points.Pairwise (fun left right => left.key ≤ right.key) ∧
          (points.map ExactScoredIdentity.id).Nodup ∧
          points.Subperm ((finRange m).flatMap lists)) := by
  rcases newWithSources_cases hm hsize hsources hinner hserves hsupply hfeeds with
    ⟨error, w, hnew, hbad⟩ | ⟨stream, w, feeds', head, hnew, hmerging, _⟩
  · refine ⟨fun hmerge => absurd hmerge hbad, fun _ stream w' hok => ?_⟩
    rw [hnew] at hok
    cases hok
  refine ⟨fun hmerge => ⟨stream, w, hnew, fun sizes => ?_⟩, fun hbad stream' w' hok sizes => ?_⟩
  · have hreplies := hmerging.rankBatches_eq hmerge sizes
    rw [hreplies]
    refine ⟨rfl, contiguous_rankingReplies _ 0 sizes, ?_, fun size batch hbatch => ?_⟩
    · exact delivered_rankingReplies _ 0 sizes
    · have hflags := exhausted_rankingReplies hbatch
      rwa [length_map] at hflags
  · rw [hnew] at hok
    cases hok
    obtain ⟨hlast, hcontiguous, points, hpoints, _, _, _, _, _, hfinal⟩ :=
      hmerging.delivered_rankBatches sizes
    refine ⟨fun batch hbatch => ?_, hcontiguous, points, hpoints, hfinal.heaped.emitted_sorted,
      hfinal.heaped.emitted_ids_nodup, hfinal.emitted_subperm⟩
    exact Bool.eq_false_iff.mpr fun hexhausted => hbad (hlast batch hbatch hexhausted)

/-- A point source and a batched source that merge. -/
theorem merge_exact_or_fails_closed_two_sources :
    let lists : Fin 2 → List (ExactScoredIdentity ℕ ℚ) := ![[⟨1, 9⟩, ⟨4, 3⟩], [⟨2, 9⟩, ⟨3, 5⟩]]
    let sources : Fin 2 → ExactScoreSource (Fin 2 → Feed (ExactScoredIdentity ℕ ℚ)) ℕ ℚ :=
      ![.point (ownNext 0), .batch (ownBatch (fun _ => ExactScoreBatch.mk) 1) [] false]
    ∃ stream w, newWithSources sources 1 (fun source => Feed.fresh (lists source)) =
        (.ok stream, w) ∧
      ∀ sizes, (delivered (rankBatches sizes stream w)).flatMap ChannelRankBatch.pointIds =
        [1, 2, 3, 4].take sizes.sum := by
  intro lists sources
  have hbatch : (sources 1).Serves ownSupply 1 1 := by
    unfold ExactScoreSource.Serves
    exact ownBatch_serves (fun _ _ _ => rfl) (fun _ _ _ => rfl) (fun _ _ _ => trivial) (by decide) 1
  have hserves : ∀ source, (sources source).Serves ownSupply 1 (id source) :=
    Fin.forall_fin_two.mpr ⟨ownNext_serves 0, hbatch⟩
  have hfresh : ∀ source, (sources source).IsFresh :=
    Fin.forall_fin_two.mpr ⟨trivial, rfl, rfl⟩
  have hmerge : Mergeable lists := ⟨by decide, by decide, by decide⟩
  obtain ⟨hexact, _⟩ := merge_exact_or_fails_closed (by decide) (by decide) hfresh
    Function.injective_id hserves (show ownSupply (fun source => Feed.fresh (lists source)) _
      from rfl) fun _ => rfl
  obtain ⟨stream, w, hnew, hruns⟩ := hexact hmerge
  exact ⟨stream, w, hnew, fun sizes => (hruns sizes).2.2.1⟩

end KWayExactScoreStream

end Stratumind
