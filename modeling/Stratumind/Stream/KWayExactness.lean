import Stratumind.Stream.KWayMerge

/-!
# Exactness of a k-way merge

A merge of lists that merge hands out their sorted union, in batches of the sizes asked
for. A merge of other lists never reports its end: it hands out a sorted sequence without
repeated identities and then fails for good.
-/

namespace Stratumind

open Lib List

variable {V κ Id S : Type} {m : ℕ} [DecidableEq κ] [LinearOrder Id] [Score S]

/-- A source that has not been pulled. -/
def ExactScoreSource.IsFresh : ExactScoreSource V Id S → Prop
  | .point _ => True
  | .batch _ buffer exhausted => buffer = [] ∧ exhausted = false

namespace KWayExactScoreStream

variable {supply : Supply V κ (ExactScoredIdentity Id S)}
  {lists past : Fin m → List (ExactScoredIdentity Id S)} {inner : Fin m → κ}
  {head : Fin m → Option (ExactScoredIdentity Id S)} {emitted : List (ExactScoredIdentity Id S)}
  {stream : KWayExactScoreStream V Id S m} {v : V} {feeds : κ → Feed (ExactScoredIdentity Id S)}

section Opening

variable [ToString Id] {sources : Fin m → ExactScoreSource V Id S} {sourceRefillBatchSize : ℕ}

/-- Priming the remaining sources fails on lists that do not merge, or starts the merge. -/
theorem prime_cases {todo : List (Fin m)} (htodo : todo.Nodup)
    (hfeeding : Feeding supply lists inner stream v feeds (frontOf (fun _ => []) head))
    (hheaped : Heaped stream (fun _ => []) head []) (hrefill : stream.refillSource = none)
    (hnone : ∀ source ∈ todo, head source = none)
    (hdone : ∀ source ∉ todo, head source = none → stream.telemetry.sourceExhausted source = true) :
    (∃ error w, prime todo stream v = (.error error, w) ∧ ¬Mergeable lists) ∨
    (∃ next w feeds' head', prime todo stream v = (.ok next, w) ∧
      Merging supply lists inner next w feeds' (fun _ => []) head' [] ∧
      SameElsewhere inner feeds feeds') := by
  induction todo generalizing stream v feeds head with
  | nil =>
    refine Or.inr ⟨stream, v, feeds, head, rfl, ⟨hfeeding, hheaped, ?_, ?_⟩, fun _ _ => rfl⟩
    · exact fun source hsource => Or.inr (hdone source (by simp) hsource)
    · intro source hsource
      rw [hrefill] at hsource
      cases hsource
  | cons source todo ih =>
    obtain ⟨hsource, htodo⟩ := nodup_cons.mp htodo
    rw [prime]
    rcases refill_cases hfeeding hheaped (hnone source (by simp)) (by simp) with
      ⟨error, next, w, hrun, hbad⟩ |
      ⟨next, w, feeds', head', hrun, hfeeding', hheaped', helsewhere, hnext, hothers, hself⟩
    · exact Or.inl ⟨error, w, by rw [hrun], hbad⟩
    rw [hrun]
    have hnone' : ∀ other ∈ todo, head' other = none := by
      grind
    have hdone' : ∀ other ∉ todo, head' other = none →
        next.telemetry.sourceExhausted other = true := by
      grind
    rcases ih htodo hfeeding' hheaped' (hnext.trans hrefill) hnone' hdone' with
      ⟨error, w', hprime, hbad⟩ | ⟨final, w', feeds'', head'', hprime, hmerging, helsewhere'⟩
    · exact Or.inl ⟨error, w', hprime, hbad⟩
    · exact Or.inr ⟨final, w', feeds'', head'', hprime, hmerging,
        fun k hk => (helsewhere' k hk).trans (helsewhere k hk)⟩

/-- Opening a merge of fresh sources fails on lists that do not merge, or starts the
merge. -/
theorem newWithSources_cases (hm : 0 < m) (hsize : 0 < sourceRefillBatchSize)
    (hsources : ∀ source, (sources source).IsFresh) (hinner : Function.Injective inner)
    (hserves : ∀ source, (sources source).Serves supply sourceRefillBatchSize (inner source))
    (hsupply : supply v feeds)
    (hfeeds : ∀ source, feeds (inner source) = Feed.fresh (lists source)) :
    (∃ error w, newWithSources sources sourceRefillBatchSize v = (.error error, w) ∧
      ¬Mergeable lists) ∨
    (∃ stream w feeds' head, newWithSources sources sourceRefillBatchSize v = (.ok stream, w) ∧
      Merging supply lists inner stream w feeds' (fun _ => []) head [] ∧
      SameElsewhere inner feeds feeds') := by
  unfold newWithSources
  rw [if_neg (by omega), if_neg (by omega)]
  have hbuffer : ∀ source, (sources source).buffer = [] := by
    intro source
    have hfresh := hsources source
    cases hform : sources source with
    | point _ => rfl
    | batch _ _ _ =>
      rw [hform] at hfresh
      exact hfresh.1
  have hpullable : ∀ source, (sources source).pullable false = true := by
    intro source
    have hfresh := hsources source
    cases hform : sources source with
    | point _ => rfl
    | batch _ _ _ =>
      rw [hform] at hfresh
      simp [ExactScoreSource.pullable, hfresh.2]
  have hfeeding : Feeding supply lists inner (unprimed sources sourceRefillBatchSize) v feeds
      (frontOf (fun _ => []) fun _ => none) := by
    refine ⟨hsupply, hinner, hsize, hserves, fun source => ?_⟩
    constructor <;> simp [frontOf, unprimed, hbuffer, hpullable, hfeeds, Feed.fresh]
  have hheaped : Heaped (unprimed sources sourceRefillBatchSize) (fun _ => [])
      (fun _ => none) [] := by
    constructor <;> simp [unprimed]
  exact prime_cases (nodup_finRange m) hfeeding hheaped rfl (fun _ _ => rfl)
    fun source hsource => absurd (mem_finRange source) hsource

end Opening

/-- The sorted union of the lists. -/
def mergedOrder (lists : Fin m → List (ExactScoredIdentity Id S)) :
    List (ExactScoredIdentity Id S) :=
  rankBy ExactScoredIdentity.key ((finRange m).flatMap lists)

omit [DecidableEq κ] [LinearOrder Id] [Score S] in
private theorem keys_nodup {points : List (ExactScoredIdentity Id S)}
    (h : (points.map ExactScoredIdentity.id).Nodup) :
    (points.map ExactScoredIdentity.key).Nodup := by
  have hid : points.map ExactScoredIdentity.id =
      (points.map ExactScoredIdentity.key).map fun key => (ofLex key).2 := by
    rw [map_map]
    rfl
  rw [hid] at h
  exact h.of_map _

omit [DecidableEq κ] in

/-- The union of lists that merge is sorted. -/
theorem Mergeable.ranked_mergedOrder (h : Mergeable lists) :
    Ranked ExactScoredIdentity.key (mergedOrder lists) :=
  ranked_rankBy (keys_nodup h.ids_nodup)

omit [DecidableEq κ] in
theorem mem_mergedOrder {point : ExactScoredIdentity Id S} :
    point ∈ mergedOrder lists ↔ ∃ source, point ∈ lists source := by
  rw [mergedOrder, mem_rankBy, mem_flatMap]
  simp

/-- The merge only depends on the feeds of its own sources. -/
theorem Merging.frame (h : Merging supply lists inner stream v feeds past head emitted) {v' : V}
    {feeds' : κ → Feed (ExactScoredIdentity Id S)} (hsupply : supply v' feeds')
    (hfeeds : ∀ source, feeds' (inner source) = feeds (inner source)) :
    Merging supply lists inner stream v' feeds' past head emitted := by
  have hf := h.feeding
  refine ⟨⟨hsupply, hf.injective, hf.size_pos, hf.serves, fun source => ?_⟩, h.heaped, h.primed,
    h.ready⟩
  rw [hfeeds]
  exact hf.fed source

/-- Once everything has been returned, the lists are known to merge. -/
theorem Heaped.mergeable (h : Heaped stream lists head emitted) : Mergeable lists := by
  refine ⟨?_, ?_, ?_⟩
  · intro source point hpoint
    exact h.finite source point (mem_append_left _ hpoint)
  · intro source
    exact (pairwise_append.mp (h.sorted source)).1
  · exact (h.emitted_perm.map _).nodup_iff.mp h.emitted_ids_nodup

section

variable (h : Merging supply lists inner stream v feeds past head emitted)

include h

/-- No unread point precedes a returned one when the lists merge. -/
theorem Merging.le_unread (hmerge : Mergeable lists) {source : Fin m}
    {unread : List (ExactScoredIdentity Id S)} (hunread : past source ++ unread = lists source) :
    ∀ earlier ∈ emitted, ∀ later ∈ unread, earlier.key ≤ later.key := by
  intro earlier hearlier later hlater
  have hfed := h.feeding.fed source
  have hlist := hfed.list_eq
  have hsorted := hmerge.sorted source
  cases hhead : head source with
  | some point =>
    rw [← hunread, frontOf, hhead, Option.toList_some, append_assoc, append_assoc,
      append_cancel_left_eq] at hlist
    have hle := h.heaped.emitted_le_head source point hhead earlier hearlier
    grind
  | none =>
    rcases h.primed source hhead with hrefill | hexhausted
    · obtain ⟨last, hlast, hle⟩ := (h.ready source hrefill).2 earlier hearlier
      grind
    obtain ⟨hbuffer, hrest⟩ := hfed.drained hexhausted
    rw [← hunread, frontOf, hhead, hbuffer, hrest] at hlist
    simp only [Option.toList_none, append_nil, self_eq_append_right] at hlist
    rw [hlist] at hlater
    cases hlater

/-- Every returned point is one of the lists', returned no more often than listed. -/
theorem Merging.emitted_subperm : emitted.Subperm ((finRange m).flatMap lists) := by
  choose unread hunread using h.feeding.past_prefix
  have hperm := flatMap_perm_append_unread h.heaped.emitted_perm hunread
  exact (sublist_append_left ..).subperm.trans hperm.symm.subperm

/-- The returned sequence is the beginning of the sorted union when the lists merge. -/
theorem Merging.emitted_prefix (hmerge : Mergeable lists) : emitted <+: mergedOrder lists := by
  choose unread hunread using h.feeding.past_prefix
  have hperm := flatMap_perm_append_unread h.heaped.emitted_perm hunread
  have hnodup := (hperm.map ExactScoredIdentity.id).nodup_iff.mp hmerge.ids_nodup
  have hkeys := keys_nodup hnodup
  rw [map_append, nodup_append] at hkeys
  obtain ⟨_, hunreadKeys, hdisjoint⟩ := hkeys
  have hranked : Ranked ExactScoredIdentity.key
      (emitted ++ rankBy ExactScoredIdentity.key ((finRange m).flatMap unread)) := by
    refine ranked_append.mpr ⟨Pairwise.imp₂ (fun _ _ => lt_of_le_of_ne)
      h.heaped.emitted_sorted (pairwise_map.mp (keys_nodup h.heaped.emitted_ids_nodup)),
      ranked_rankBy hunreadKeys, fun earlier hearlier later hlater => ?_⟩
    rw [mem_rankBy] at hlater
    obtain ⟨source, _, hsource⟩ := mem_flatMap.mp hlater
    refine lt_of_le_of_ne (h.le_unread hmerge (hunread source) earlier hearlier later hsource) ?_
    exact hdisjoint _ (mem_map_of_mem hearlier) _ (mem_map_of_mem hlater)
  have heq := hranked.eq_rankBy (keys_nodup hmerge.ids_nodup) fun point => by
    rw [hperm.mem_iff, mem_append, mem_append, mem_rankBy]
  exact ⟨_, heq⟩

end

/-- The returned sequence is the whole sorted union once every source has been returned. -/
theorem Merging.emitted_eq (h : Merging supply lists inner stream v feeds lists head emitted) :
    emitted = mergedOrder lists := by
  refine (h.emitted_prefix h.heaped.mergeable).eq_of_length ?_
  exact h.heaped.emitted_perm.length_eq.trans (rankBy_perm _).length_eq.symm

section Batches

variable [ToString Id]

section

variable (h : Merging supply lists inner stream v feeds past head emitted)

include h

/-- Collecting fails for good on lists that do not merge, or collects points that extend
the returned sequence, and stops early only at the end of every source. -/
theorem Merging.collectRanks_cases (count : ℕ) :
    (∃ error next w, stream.collectRanks count v = (.error error, next, w) ∧
      next.terminalError = some error ∧ ¬Mergeable lists) ∨
    (∃ points next w feeds' past' head', stream.collectRanks count v =
        (.ok (points.map ExactScoredIdentity.id, decide (points.length < count)), next, w) ∧
      points.length ≤ count ∧ (points.length < count → past' = lists) ∧
      Merging supply lists inner next w feeds' past' head' (emitted ++ points) ∧
      SameElsewhere inner feeds feeds') := by
  induction count generalizing stream v feeds past head emitted with
  | zero =>
    refine Or.inr ⟨[], stream, v, feeds, past, head, rfl, le_rfl, by simp, ?_, fun _ _ => rfl⟩
    rw [append_nil]
    exact h
  | succ count ih =>
    rw [collectRanks]
    rcases h.nextInner_cases with ⟨error, next, w, hnext, hbad⟩ |
      ⟨point, mid, w, feeds', past', head', hnext, hmerging, hpast, helsewhere⟩
    · exact Or.inl ⟨error, next.fail error, w, by rw [hnext], rfl, hbad⟩
    rw [hnext]
    cases point with
    | none =>
      exact Or.inr ⟨[], mid, w, feeds', past', head', by simp, by simp, fun _ => hpast rfl,
        hmerging, helsewhere⟩
    | some point =>
    dsimp only
    rcases ih hmerging with ⟨error, next, w', hrest, herror, hbad⟩ |
      ⟨points, next, w', feeds'', past'', head'', hrest, hlength, hshort, hmerging', helsewhere'⟩
    · exact Or.inl ⟨error, next, w', by rw [hrest], herror, hbad⟩
    refine Or.inr ⟨point :: points, next, w', feeds'', past'', head'', ?_, ?_, ?_, ?_,
      fun k hk => (helsewhere' k hk).trans (helsewhere k hk)⟩
    · rw [hrest]
      simp
    · simpa using hlength
    · intro hlt
      exact hshort (by simpa using hlt)
    · simpa using hmerging'

/-- A batch of a positive size fails for good on lists that do not merge, or is the next
part of the returned sequence, and is short only at the end of every source. -/
theorem Merging.nextRankBatch_cases {maxResults : ℕ} (hpos : 0 < maxResults) :
    (∃ error next w, stream.nextRankBatch maxResults v = (.error error, next, w) ∧
      next.terminalError = some error ∧ ¬Mergeable lists) ∨
    (∃ points next w feeds' past' head', stream.nextRankBatch maxResults v = (.ok ⟨emitted.length,
        points.map ExactScoredIdentity.id, decide (points.length < maxResults)⟩, next, w) ∧
      points.length ≤ maxResults ∧ (points.length < maxResults → past' = lists) ∧
      Merging supply lists inner next w feeds' past' head' (emitted ++ points) ∧
      SameElsewhere inner feeds feeds') := by
  unfold nextRankBatch
  rw [if_neg (by omega), h.heaped.healthy, h.heaped.pointsEmitted_eq]
  rcases h.collectRanks_cases maxResults with ⟨error, next, w, hrun, herror, hbad⟩ |
    ⟨points, next, w, feeds', past', head', hrun, hrest⟩
  · exact Or.inl ⟨error, next, w, by rw [hrun], herror, hbad⟩
  · exact Or.inr ⟨points, next, w, feeds', past', head', by rw [hrun], hrest⟩

/-- A batch of lists that merge holds the next members of the sorted union. -/
theorem Merging.nextRankBatch_eq (hmerge : Mergeable lists) {maxResults : ℕ}
    (hpos : 0 < maxResults) :
    ∃ points next w feeds' past' head',
      points = ((mergedOrder lists).drop emitted.length).take maxResults ∧
      stream.nextRankBatch maxResults v = (.ok ⟨emitted.length,
        points.map ExactScoredIdentity.id, decide (points.length < maxResults)⟩, next, w) ∧
      Merging supply lists inner next w feeds' past' head' (emitted ++ points) ∧
      SameElsewhere inner feeds feeds' := by
  rcases h.nextRankBatch_cases hpos with ⟨_, _, _, _, _, hbad⟩ |
    ⟨points, next, w, feeds', past', head', hrun, hlength, hshort, hmerging, helsewhere⟩
  · exact absurd hmerge hbad
  refine ⟨points, next, w, feeds', past', head', ?_, hrun, hmerging, helsewhere⟩
  obtain ⟨rest, hrest⟩ := hmerging.emitted_prefix hmerge
  rw [← hrest, append_assoc, drop_left]
  rcases hlength.lt_or_eq with hlt | heq
  · obtain rfl := hshort hlt
    rw [← hmerging.emitted_eq, append_right_eq_self] at hrest
    rw [hrest, append_nil, take_of_length_le hlength]
  · rw [← heq, take_left]

end

end Batches

end KWayExactScoreStream

end Stratumind
