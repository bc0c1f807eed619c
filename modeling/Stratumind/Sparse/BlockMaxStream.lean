import Stratumind.Sparse.SearchContext

/-!
# Best-first ranking over bounded ranges

Every point of a range that has not been scored comes after the key made of the range's bound
and first id. So a pending point whose key is below that of the first range comes before all
points that have not been returned. This is kept while points are returned and ranges are
scored, and makes the returned points a growing prefix of the ranking of all points.
-/

namespace Stratumind.BlockMax

open Lib List

variable {I T S : Type} [LinearOrder S]

/-- The rank of a point: higher scores first, then smaller offsets. -/
def pointKey (point : ScoredPointOffset S) : Sᵒᵈ ×ₗ ℕ := rankKey point.score point.idx

/-- The rank that no point of a range can precede. -/
def PendingBatch.key (batch : PendingBatch S) : Sᵒᵈ ×ₗ ℕ := rankKey batch.upperBound batch.start

/-- The heap orders compare ranks the other way round. -/
theorem pendingBlockPoint_cmp (a b : ScoredPointOffset S) :
    PendingBlockPoint.cmp a b = compare (pointKey b) (pointKey a) :=
  compare_then_eq_compare_rankKey b.score a.score b.idx a.idx

theorem pendingPoint_cmp (a b : PendingPoint S) :
    PendingPoint.cmp a b = compare (pointKey b.point) (pointKey a.point) :=
  compare_then_eq_compare_rankKey b.point.score a.point.score b.point.idx a.point.idx

theorem pendingBatch_cmp (a b : PendingBatch S) : PendingBatch.cmp a b = compare b.key a.key :=
  compare_then_eq_compare_rankKey b.upperBound a.upperBound b.start a.start

variable [CommRing S]

/-- The non-zero points of a range. -/
def PendingBatch.points (score : ℕ → S) (batch : PendingBatch S) : List (ScoredPointOffset S) :=
  rangePoints score batch.start batch.last

/-- The bound of a range holds for its scores. -/
structure PendingBatch.Admissible (score : ℕ → S) (batch : PendingBatch S) : Prop where
  start_le : batch.start ≤ batch.last
  score_le : ∀ id, batch.start ≤ id → id ≤ batch.last → score id ≤ batch.upperBound

variable {point : ScoredPointOffset S}

theorem mem_rangePoints {score : ℕ → S} {start last : ℕ} (hle : start ≤ last) :
    point ∈ rangePoints score start last ↔
      start ≤ point.idx ∧ point.idx ≤ last ∧ point.score = score point.idx ∧
        score point.idx ≠ 0 := by
  obtain ⟨idx, value⟩ := point
  simp only [rangePoints, mem_map, mem_filter, mem_range'_1, decide_eq_true_eq,
    ScoredPointOffset.mk.injEq]
  grind

/-- No point of a range precedes its key. -/
theorem PendingBatch.Admissible.key_le {score : ℕ → S} {batch : PendingBatch S}
    (h : batch.Admissible score) (hmem : point ∈ batch.points score) :
    batch.key ≤ pointKey point := by
  obtain ⟨hge, hle, hscore, _⟩ := (mem_rangePoints h.start_le).mp hmem
  have hbound := h.score_le point.idx hge hle
  rw [← hscore] at hbound
  rcases hbound.lt_or_eq with hlt | heq
  · exact rankKey_le_iff.mpr (Or.inl hlt)
  · exact rankKey_le_iff.mpr (Or.inr ⟨heq.symm, hge⟩)

section Expand

variable [InvertedIndex I T] [PostingListIter T S]

/-- Scoring a range of the index for the query gives the scores. -/
def Computes (index : I) (query : RemappedSparseVector S) (score : ℕ → S) : Prop :=
  ∃ postings : List (WeightedPosting T S), openPostings index query = .ok postings ∧
    ∀ start last, start ≤ last → (scorePostingBatch postings start last).1 =
      (range' start (last - start + 1)).map score

/-- Scoring a range with an admissible bound finds it empty or gives its best point. -/
theorem PostingBlockMaxKernel.expand_cases {index : I} {score : ℕ → S}
    {kernel : PostingBlockMaxKernel S} (hcomputes : Computes (T := T) index kernel.query score)
    {batch : PendingBatch S} (h : batch.Admissible score) :
    (batch.points score = [] ∧ ∃ scores, kernel.expand index batch (fun _ => false) =
      (.ok none, { kernel with scores }, fun _ => false)) ∨
    ∃ point rest scores, popMax PendingBlockPoint.cmp (batch.points score) = some (point, rest) ∧
      kernel.expand index batch (fun _ => false) =
        (.ok (some ⟨point, kernel.activeBatches.length⟩),
          { kernel with scores, activeBatches := kernel.activeBatches ++ [rest] },
          fun _ => false) := by
  obtain ⟨postings, hopen, hscores⟩ := hcomputes
  have hstart := h.start_le
  have hcollect : collectScoredPoints batch.upperBound batch.start
      ((range' batch.start (batch.last - batch.start + 1)).map score) (fun _ => false) =
      (.ok (batch.points score), fun _ => false) :=
    collectScoredPoints_eq _ _ fun id hge hlt => h.score_le id hge (by omega)
  unfold expand
  simp only [Bool.false_eq_true, if_false, hopen, hscores _ _ hstart, hcollect]
  cases hpop : popMax PendingBlockPoint.cmp (batch.points score) with
  | none => exact Or.inl ⟨popMax_eq_none.mp hpop, _, rfl⟩
  | some popped => exact Or.inr ⟨popped.1, popped.2, _, rfl, rfl⟩

end Expand

/-- The points that have not been returned: the pending ones, the rest of the scored ranges,
and the ranges that have not been scored. -/
def PostingBlockMaxState.unread (score : ℕ → S) (state : PostingBlockMaxState S) :
    List (ScoredPointOffset S) :=
  state.pendingPoints.map PendingPoint.point ++ state.kernel.activeBatches.flatten ++
    state.pendingBatches.flatMap (PendingBatch.points score)

/-- Of the points `all` those in `emitted` have been returned and rank before the others;
every scored range that has points left is headed by its best one. -/
structure Streaming (score : ℕ → S) (query : RemappedSparseVector S)
    (all emitted : List (ScoredPointOffset S)) (state : PostingBlockMaxState S) : Prop where
  healthy : state.terminalError = none
  query_eq : state.kernel.query = query
  admissible : ∀ batch ∈ state.pendingBatches, batch.Admissible score
  perm : (emitted ++ state.unread score).Perm all
  distinct : (all.map pointKey).Nodup
  ranked : Ranked pointKey emitted
  first : ∀ point ∈ emitted, ∀ later ∈ state.unread score, pointKey point < pointKey later
  headed : ∀ batchIndex heap, state.kernel.activeBatches[batchIndex]? = some heap → heap ≠ [] →
    ∃ pending ∈ state.pendingPoints, pending.batchIndex = batchIndex ∧
      ∀ later ∈ heap, pointKey pending.point ≤ pointKey later
  index_lt : ∀ pending ∈ state.pendingPoints,
    pending.batchIndex < state.kernel.activeBatches.length
  index_nodup : (state.pendingPoints.map PendingPoint.batchIndex).Nodup

namespace Streaming

variable {score : ℕ → S} {query : RemappedSparseVector S}
  {all emitted : List (ScoredPointOffset S)} {state : PostingBlockMaxState S}

section

variable (h : Streaming score query all emitted state)

include h

/-- Replacing the state by one with the same points to come. -/
theorem ranks_of_perm {points : List (ScoredPointOffset S)}
    (hperm : (state.unread score).Perm points) :
    (emitted ++ points).Perm all ∧
      ∀ point ∈ emitted, ∀ later ∈ points, pointKey point < pointKey later := by
  constructor
  · exact (hperm.symm.append_left emitted).trans h.perm
  · exact fun point hpoint later hlater => h.first point hpoint later (hperm.mem_iff.mpr hlater)

/-- The best pending point goes before the rest of all scored ranges. -/
theorem pending_le {pending : PendingPoint S} {rest : List (PendingPoint S)}
    (hpop : popMax PendingPoint.cmp state.pendingPoints = some (pending, rest)) :
    ∀ later ∈ state.pendingPoints.map PendingPoint.point ++ state.kernel.activeBatches.flatten,
      pointKey pending.point ≤ pointKey later := by
  have hleast : ∀ other ∈ state.pendingPoints,
      pointKey pending.point ≤ pointKey other.point := by
    intro other hother
    rcases mem_cons.mp ((popMax_perm hpop).mem_iff.mp hother) with rfl | hrest
    · exact le_rfl
    · exact popMax_key_le pendingPoint_cmp hpop other hrest
  intro later hlater
  rcases mem_append.mp hlater with hlater | hlater
  · obtain ⟨other, hother, rfl⟩ := mem_map.mp hlater
    exact hleast other hother
  obtain ⟨heap, hheap, hmem⟩ := mem_flatten.mp hlater
  obtain ⟨batchIndex, hget⟩ := mem_iff_getElem?.mp hheap
  obtain ⟨head, hhead, _, hle⟩ := h.headed batchIndex heap hget (ne_nil_of_mem hmem)
  exact (hleast head hhead).trans (hle later hmem)

/-- Moving the first of the points to come to the returned ones. -/
theorem emit {points : List (ScoredPointOffset S)}
    (hunread : (state.unread score).Perm (point :: points))
    (hleast : ∀ later ∈ points, pointKey point ≤ pointKey later) :
    (emitted ++ [point] ++ points).Perm all ∧ Ranked pointKey (emitted ++ [point]) ∧
      ∀ other ∈ emitted ++ [point], ∀ later ∈ points, pointKey other < pointKey later := by
  obtain ⟨hperm, hfirst⟩ := h.ranks_of_perm hunread
  have hnodup : ((point :: points).map pointKey).Nodup := by
    have hdistinct := (hperm.map pointKey).nodup_iff.mpr h.distinct
    rw [map_append] at hdistinct
    exact (nodup_append.mp hdistinct).2.1
  rw [append_cons] at hperm
  refine ⟨hperm, ?_, ?_⟩
  · refine ranked_append.mpr ⟨h.ranked, pairwise_singleton _ _, ?_⟩
    grind
  intro other hother later hlater
  rcases mem_append.mp hother with hother | hother
  · exact hfirst other hother later (mem_cons_of_mem _ hlater)
  rw [mem_singleton.mp hother]
  refine lt_of_le_of_ne (hleast later hlater) fun heq => ?_
  rw [map_cons, nodup_cons] at hnodup
  exact hnodup.1 (heq ▸ mem_map_of_mem hlater)

/-- Returning the best point, when no range that has not been scored can precede it. -/
theorem popNextPoint {pending : PendingPoint S} {rest : List (PendingPoint S)}
    (hpop : popMax PendingPoint.cmp state.pendingPoints = some (pending, rest))
    (hfixed : ∀ later ∈ state.pendingBatches.flatMap (PendingBatch.points score),
      pointKey pending.point ≤ pointKey later) :
    ∃ next, state.popNextPoint = (some pending.point, next) ∧
      next.pendingBatches = state.pendingBatches ∧
      Streaming score query all (emitted ++ [pending.point]) next := by
  have hperm := popMax_perm hpop
  have hleast : ∀ points, (state.unread score).Perm (pending.point :: points) →
      ∀ later ∈ points, pointKey pending.point ≤ pointKey later := by
    intro points hunread later hlater
    have hmem := hunread.mem_iff.mpr (mem_cons_of_mem _ hlater)
    rcases mem_append.mp hmem with hmem | hmem
    · exact h.pending_le hpop later hmem
    · exact hfixed later hmem
  have hindices := (hperm.map PendingPoint.batchIndex).nodup_iff.mp h.index_nodup
  have hlt : ∀ other ∈ pending :: rest, other.batchIndex < state.kernel.activeBatches.length :=
    fun other hother => h.index_lt other (hperm.mem_iff.mpr hother)
  have hkeep : ∀ other ∈ state.pendingPoints, other.batchIndex ≠ pending.batchIndex →
      other ∈ rest := by
    grind
  have hmap := hperm.map PendingPoint.point
  unfold PostingBlockMaxState.popNextPoint
  rw [hpop]
  dsimp only
  rcases state.kernel.popActive_cases pending.batchIndex with
    ⟨hactive, hempty⟩ | ⟨before, heap, after, point, left, hsplit, hindex, hheap, hactive⟩
  · rw [hactive]
    refine ⟨_, rfl, rfl, ?_⟩
    have hunread := (hmap.append_right state.kernel.activeBatches.flatten).append_right
      (state.pendingBatches.flatMap (PendingBatch.points score))
    obtain ⟨hall, hranked, hfirst⟩ := h.emit hunread (hleast _ hunread)
    refine ⟨h.healthy, h.query_eq, h.admissible, hall, h.distinct, hranked, hfirst, ?_,
      fun other hother => hlt other (mem_cons_of_mem _ hother), hindices.of_cons⟩
    intro batchIndex heap hget hne
    obtain ⟨head, hhead, hhead_index, hle⟩ := h.headed batchIndex heap hget hne
    grind
  rw [hactive]
  refine ⟨_, rfl, rfl, ?_⟩
  have hflatten : state.kernel.activeBatches.flatten.Perm
      (point :: (before ++ left :: after).flatten) := by
    rw [hsplit, flatten_append, flatten_cons, flatten_append, flatten_cons]
    exact (((popMax_perm hheap).append_right _).append_left _).trans perm_middle
  have hunread : (state.unread score).Perm (pending.point ::
      ((point :: rest.map PendingPoint.point) ++ (before ++ left :: after).flatten ++
        state.pendingBatches.flatMap (PendingBatch.points score))) :=
    ((hmap.append hflatten).trans (perm_middle.cons _)).append_right _
  obtain ⟨hall, hranked, hfirst⟩ := h.emit hunread (hleast _ hunread)
  refine ⟨h.healthy, h.query_eq, h.admissible, hall, h.distinct, hranked, hfirst, ?_, ?_, hindices⟩
  · intro batchIndex other hget hne
    dsimp only at hget
    by_cases hsame : batchIndex = before.length
    · subst hsame
      obtain rfl : left = other := by simpa using hget
      exact ⟨⟨point, pending.batchIndex⟩, mem_cons_self, hindex.symm,
        popMax_key_le pendingBlockPoint_cmp hheap⟩
    have hold : state.kernel.activeBatches[batchIndex]? = some other := by
      rw [hsplit, ← hget, getElem?_append, getElem?_append, getElem?_cons, getElem?_cons]
      split
      · rfl
      · rw [if_neg (by omega), if_neg (by omega)]
    obtain ⟨head, hhead, hhead_index, hle⟩ := h.headed batchIndex other hold hne
    refine ⟨head, mem_cons_of_mem _ (hkeep head hhead ?_), hhead_index, hle⟩
    omega
  grind

/-- A fixed point precedes all points of the ranges that have not been scored. -/
theorem exists_of_nextPointIsFixed (hfixed : state.nextPointIsFixed = true) :
    ∃ pending rest, popMax PendingPoint.cmp state.pendingPoints = some (pending, rest) ∧
      ∀ later ∈ state.pendingBatches.flatMap (PendingBatch.points score),
        pointKey pending.point ≤ pointKey later := by
  unfold PostingBlockMaxState.nextPointIsFixed peekMax at hfixed
  cases hpop : popMax PendingPoint.cmp state.pendingPoints with
  | none => simp [hpop] at hfixed
  | some popped =>
    obtain ⟨pending, rest⟩ := popped
    refine ⟨pending, rest, rfl, fun later hlater => ?_⟩
    obtain ⟨batch, hbatch, hmem⟩ := mem_flatMap.mp hlater
    have hkey := (h.admissible batch hbatch).key_le hmem
    cases htop : popMax PendingBatch.cmp state.pendingBatches with
    | none =>
      rw [popMax_eq_none.mp htop] at hbatch
      cases hbatch
    | some top =>
      obtain ⟨top, others⟩ := top
      simp only [hpop, htop, Option.map_some, Bool.or_eq_true, Bool.and_eq_true, gt_iff_lt,
        decide_eq_true_eq] at hfixed
      have hbefore : pointKey pending.point < top.key := rankKey_lt_iff.mpr hfixed
      have htop_le : top.key ≤ batch.key := by
        rcases mem_cons.mp ((popMax_perm htop).mem_iff.mp hbatch) with rfl | hmem
        · exact le_rfl
        · exact popMax_key_le pendingBatch_cmp htop batch hmem
      exact (hbefore.le.trans htop_le).trans hkey

/-- Without a pending point there is no scored point left. -/
theorem activeBatches_flatten
    (hnone : state.pendingPoints = []) : state.kernel.activeBatches.flatten = [] := by
  rw [flatten_eq_nil_iff]
  intro heap hheap
  by_contra hne
  obtain ⟨batchIndex, hget⟩ := mem_iff_getElem?.mp hheap
  obtain ⟨head, hhead, _⟩ := h.headed batchIndex heap hget hne
  rw [hnone] at hhead
  cases hhead

/-- Draining when all ranges have been scored. -/
theorem drainPoints (hbatches : state.pendingBatches = []) (count : ℕ) :
    ∃ points next, state.drainPoints count = (points, next) ∧
      Streaming score query all (emitted ++ points) next ∧ points.length ≤ count ∧
      (points.length < count → next.unread score = []) := by
  induction count generalizing emitted state with
  | zero =>
    refine ⟨[], state, rfl, ?_, Nat.le_refl _, by simp⟩
    rw [append_nil]
    exact h
  | succ count ih =>
    rw [PostingBlockMaxState.drainPoints]
    cases hpop : popMax PendingPoint.cmp state.pendingPoints with
    | none =>
      have hnone := popMax_eq_none.mp hpop
      have hpopNext : state.popNextPoint = (none, state) := by
        unfold PostingBlockMaxState.popNextPoint
        rw [hpop]
      rw [hpopNext]
      refine ⟨[], state, rfl, ?_, Nat.zero_le _, fun _ => ?_⟩
      · rw [append_nil]
        exact h
      · simp [PostingBlockMaxState.unread, hnone, hbatches, h.activeBatches_flatten hnone]
    | some popped =>
      obtain ⟨next, hpopNext, hnext, hstreaming⟩ := h.popNextPoint hpop (by simp [hbatches])
      grind

/-- Scoring a range moves its points to the scored ones. -/
theorem expand {batch : PendingBatch S} {others : List (PendingBatch S)}
    (hbatch : popMax PendingBatch.cmp state.pendingBatches = some (batch, others))
    {rest : List (ScoredPointOffset S)}
    (hpoints : popMax PendingBlockPoint.cmp (batch.points score) = some (point, rest))
    (scores : List S) :
    Streaming score query all emitted
      { state with
        kernel := { state.kernel with
          scores, activeBatches := state.kernel.activeBatches ++ [rest] }
        pendingBatches := others
        pendingPoints := ⟨point, state.kernel.activeBatches.length⟩ :: state.pendingPoints } := by
  have hbatches := popMax_perm hbatch
  have hunread : (state.unread score).Perm
      ((point :: state.pendingPoints.map PendingPoint.point) ++
        (state.kernel.activeBatches ++ [rest]).flatten ++
        others.flatMap (PendingBatch.points score)) := by
    have hsplit : (state.pendingBatches.flatMap (PendingBatch.points score)).Perm
        (point :: (rest ++ others.flatMap (PendingBatch.points score))) :=
      (hbatches.flatMap_right _).trans ((popMax_perm hpoints).append_right _)
    refine (hsplit.append_left _).trans (perm_middle.trans ?_)
    simp
  obtain ⟨hall, hfirst⟩ := h.ranks_of_perm hunread
  refine ⟨h.healthy, h.query_eq, ?_, hall, h.distinct, h.ranked, hfirst, ?_, ?_, ?_⟩
  · exact fun other hother =>
      h.admissible other (hbatches.mem_iff.mpr (mem_cons_of_mem _ hother))
  · intro batchIndex heap hget hne
    rw [getElem?_append] at hget
    split at hget
    · obtain ⟨head, hhead, hindex, hle⟩ := h.headed batchIndex heap hget hne
      exact ⟨head, mem_cons_of_mem _ hhead, hindex, hle⟩
    obtain ⟨hlt, rfl⟩ := List.getElem?_eq_some_iff.mp hget
    have hindex : batchIndex - state.kernel.activeBatches.length = 0 := by simpa using hlt
    refine ⟨_, mem_cons_self, by dsimp only; omega, ?_⟩
    simpa [hindex] using popMax_key_le pendingBlockPoint_cmp hpoints
  · intro pending hpending
    dsimp only at hpending ⊢
    rw [length_append, length_singleton]
    rcases mem_cons.mp hpending with rfl | hpending
    · exact Nat.lt_succ_self _
    · exact (h.index_lt pending hpending).trans (Nat.lt_succ_self _)
  · rw [map_cons, nodup_cons]
    refine ⟨fun hmem => ?_, h.index_nodup⟩
    obtain ⟨pending, hpending, hindex⟩ := mem_map.mp hmem
    dsimp only at hindex
    have := h.index_lt pending hpending
    omega

/-- Scoring a range without points only takes it away. -/
theorem expand_empty {batch : PendingBatch S} {others : List (PendingBatch S)}
    (hbatch : popMax PendingBatch.cmp state.pendingBatches = some (batch, others))
    (hpoints : batch.points score = []) (scores : List S) :
    Streaming score query all emitted
      { state with kernel := { state.kernel with scores }, pendingBatches := others } := by
  have hbatches := popMax_perm hbatch
  have hunread : (state.unread score).Perm
      (state.pendingPoints.map PendingPoint.point ++ state.kernel.activeBatches.flatten ++
        others.flatMap (PendingBatch.points score)) := by
    refine ((hbatches.flatMap_right (PendingBatch.points score)).append_left _).trans ?_
    rw [flatMap_cons, hpoints, nil_append]
  obtain ⟨hall, hfirst⟩ := h.ranks_of_perm hunread
  exact ⟨h.healthy, h.query_eq,
    fun other hother => h.admissible other (hbatches.mem_iff.mpr (mem_cons_of_mem _ hother)),
    hall, h.distinct, h.ranked, hfirst, h.headed, h.index_lt, h.index_nodup⟩

end

section Run

variable [InvertedIndex I T] [PostingListIter T S] {index : I}

/-- The loop extends the returned points, without an error, and returns nothing only when
nothing is left. -/
theorem nextBatchLoop (hcomputes : Computes (T := T) index query score) {maxResults : ℕ}
    {points : List (ScoredPointOffset S)} {state : PostingBlockMaxState S}
    (hlt : points.length < maxResults) (h : Streaming score query all (emitted ++ points) state) :
    ∃ more next, state.nextBatchLoop index maxResults points (fun _ => false) =
        (.ok (points ++ more), next) ∧
      Streaming score query all (emitted ++ (points ++ more)) next ∧
      (points ++ more).length ≤ maxResults ∧ (points ++ more = [] → next.unread score = []) := by
  rw [PostingBlockMaxState.nextBatchLoop]
  cases hfixed : state.nextPointIsFixed with
  | true =>
    obtain ⟨pending, rest, hpop, hle⟩ := h.exists_of_nextPointIsFixed hfixed
    obtain ⟨next, hpopNext, hbatches, hnext⟩ := h.popNextPoint hpop hle
    rw [append_assoc] at hnext
    simp only [if_true]
    split
    · rename_i heq
      simp [hpopNext] at heq
    rename_i heq
    rw [hpopNext] at heq
    cases heq
    split
    · rename_i hfull
      exact ⟨[pending.point], next, rfl, hnext, hfull.le, by simp⟩
    rename_i hnotfull
    have hshort : (points ++ [pending.point]).length < maxResults := by
      rw [length_append, length_singleton] at hnotfull ⊢
      omega
    have hdecrease : next.buffered < state.buffered := by
      have := (PostingBlockMaxState.popNextPoint_buffered hpopNext).2
      omega
    obtain ⟨more, final, hrun, hfinal, hlength, hended⟩ :=
      nextBatchLoop hcomputes hshort hnext
    grind
  | false =>
    simp only [Bool.false_eq_true, if_false]
    split
    · rename_i hempty
      have hbatches : state.pendingBatches = [] := by simpa using hempty
      obtain ⟨more, next, hdrain, hnext, hlength, hended⟩ :=
        h.drainPoints hbatches (maxResults - points.length)
      rw [hdrain]
      rw [append_assoc] at hnext
      refine ⟨more, next, rfl, hnext, ?_, fun hnil => hended ?_⟩
      · rw [length_append]
        omega
      · rw [(append_eq_nil_iff.mp hnil).2, length_nil]
        omega
    split
    · refine ⟨[], state, by simp, by simpa using h, by simpa using hlt.le, fun hnil => ?_⟩
      simp_all
    rename_i hsome hnil
    split
    · rename_i hpop
      simp [popMax_eq_none.mp hpop] at hsome
    rename_i batch others hpop
    have hadmissible : batch.Admissible score :=
      h.admissible batch ((popMax_perm hpop).mem_iff.mpr mem_cons_self)
    have hdecrease : others.length < state.pendingBatches.length := by
      rw [(popMax_perm hpop).length_eq, length_cons]
      exact Nat.lt_succ_self _
    have hquery : Computes (T := T) index state.kernel.query score := by
      rw [h.query_eq]
      exact hcomputes
    rcases PostingBlockMaxKernel.expand_cases hquery hadmissible with
      ⟨hpoints, scores, hexpand⟩ | ⟨point, rest, scores, hpoints, hexpand⟩
    · rw [hexpand]
      exact nextBatchLoop hcomputes hlt (h.expand_empty hpop hpoints scores)
    · rw [hexpand]
      exact nextBatchLoop hcomputes hlt (h.expand hpop hpoints scores)
termination_by (state.pendingBatches.length, state.buffered)
decreasing_by
  · exact Prod.Lex.left _ _ hdecrease
  · exact Prod.Lex.left _ _ hdecrease
  · rw [hbatches]
    exact Prod.Lex.right _ hdecrease

/-- The returned points begin the ranking of all points. -/
theorem rankBy_all (h : Streaming score query all emitted state) :
    rankBy pointKey all = emitted ++ rankBy pointKey (state.unread score) := by
  have hnodup : ((state.unread score).map pointKey).Nodup := by
    have hdistinct := (h.perm.map pointKey).nodup_iff.mpr h.distinct
    rw [map_append] at hdistinct
    exact (nodup_append.mp hdistinct).2.1
  refine (Ranked.eq_rankBy ?_ h.distinct fun point => ?_).symm
  · refine ranked_append.mpr ⟨h.ranked, ranked_rankBy hnodup, fun point hpoint later hlater => ?_⟩
    exact h.first point hpoint later (mem_rankBy.mp hlater)
  · rw [← h.perm.mem_iff, mem_append, mem_append, mem_rankBy]

end Run

end Streaming

section Run

variable [InvertedIndex I T] [PostingListIter T S]

/-- Asks for batches of the given sizes, one after the other and without cancellation. -/
def nextBatches (index : I) :
    List ℕ → PostingBlockMaxState S →
      List (Except (ExactSparseStreamError S) (List (ScoredPointOffset S)))
  | [], _ => []
  | maxResults :: sizes, state =>
    match state.nextBatchWith index maxResults fun _ => false with
    | none => []
    | some (reply, next) => reply :: nextBatches index sizes next

/-- Repeated calls deliver exactly `points`: no call fails, the batches follow each other in
`points`, an empty batch is returned only at the end, and the end is reached. -/
def Drains (index : I) (state : PostingBlockMaxState S) (points : List (ScoredPointOffset S)) :
    Prop :=
  ∀ sizes : List ℕ, (∀ size ∈ sizes, 0 < size) →
    ∃ batches : List (List (ScoredPointOffset S)),
      nextBatches index sizes state = batches.map Except.ok ∧ batches.flatten <+: points ∧
      (∀ before after, batches = before ++ [] :: after → before.flatten = points) ∧
      (points.length ≤ sizes.length → batches.flatten = points)

/-- A stream delivers the ranking of all its points. -/
theorem Streaming.drains {index : I} {score : ℕ → S} {query : RemappedSparseVector S}
    {all emitted : List (ScoredPointOffset S)} {state : PostingBlockMaxState S}
    (hcomputes : Computes (T := T) index query score)
    (h : Streaming score query all emitted state) :
    Drains index state (rankBy pointKey (state.unread score)) := by
  intro sizes hsizes
  induction sizes generalizing emitted state with
  | nil =>
    refine ⟨[], rfl, nil_prefix, by simp, fun hlength => ?_⟩
    have hnil : (rankBy pointKey (state.unread score)).length = 0 := by simpa using hlength
    exact (length_eq_zero_iff.mp hnil).symm
  | cons size sizes ih =>
    obtain ⟨hsize, hsizes⟩ := forall_mem_cons.mp hsizes
    have hstart : Streaming score query all (emitted ++ []) state := by
      rw [append_nil]
      exact h
    obtain ⟨batch, next, hrun, hnext, _, hended⟩ := hstart.nextBatchLoop hcomputes hsize
    rw [nil_append] at hrun hnext hended
    obtain ⟨batches, hruns, hfront, hempty, hcomplete⟩ := ih hnext hsizes
    have hcall : state.nextBatchWith index size (fun _ => false) = some (.ok batch, next) := by
      unfold PostingBlockMaxState.nextBatchWith
      rw [if_neg (by omega), h.healthy]
      simp only [Bool.false_eq_true, if_false, hrun]
    have hsplit : rankBy pointKey (state.unread score) =
        batch ++ rankBy pointKey (next.unread score) := by
      have hall := hnext.rankBy_all
      rw [h.rankBy_all, append_assoc] at hall
      exact append_cancel_left hall
    rw [hsplit]
    refine ⟨batch :: batches, by rw [nextBatches, hcall]; simp [hruns], ?_, ?_, ?_⟩
    · exact (prefix_append_right_inj batch).mpr hfront
    · intro before after hbatches
      cases before with
      | nil =>
        obtain ⟨rfl, rfl⟩ := cons.inj hbatches
        rw [hended rfl]
        rfl
      | cons first before =>
        obtain ⟨rfl, hrest⟩ := cons.inj hbatches
        rw [flatten_cons, hempty before after hrest]
    intro hlength
    rw [flatten_cons]
    by_cases hbatch : batch = []
    · have hnil : rankBy pointKey (next.unread score) = [] := by
        rw [hended hbatch]
        rfl
      rw [hnil] at hfront ⊢
      rw [prefix_nil.mp hfront]
    · rw [hcomplete]
      have hpos := length_pos_iff.mpr hbatch
      rw [length_append, length_cons] at hlength
      omega

end Run

end Stratumind.BlockMax
