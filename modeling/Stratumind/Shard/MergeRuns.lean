import Stratumind.Shard.MergeSteps

/-!
# Runs of batch calls on a Shard merge

A caller pulls batches of any positive sizes. The batches of consistent lists are
consecutive parts of their sorted union. Copies that disagree are never passed over: no
batch is short, so a drain ends in an error. An error is returned again by every later
call.
-/

namespace Stratumind

open Lib List

variable {Id S : Type} {m : ℕ} [LinearOrder Id] [Score S]

/-- A session that replies with the given batches whatever the limit, and flags the last. -/
def PullBatch.ofBatches : List (List (ScoredPoint Id S)) → PullBatch Id S
  | [] => .ended
  | batch :: batches => .step (fun _ => .ok ⟨batch, batches.isEmpty⟩) fun _ => ofBatches batches

omit [LinearOrder Id] [Score S] in
/-- Such a session delivers its batches. -/
theorem PullBatch.delivers_ofBatches (batches : List (List (ScoredPoint Id S))) :
    (PullBatch.ofBatches batches).Delivers batches.flatten := by
  induction batches with
  | nil => rfl
  | cons batch batches ih =>
    refine fun limit _ => ⟨_, batches.flatten, rfl, rfl, fun hlast => ?_, ih⟩
    rw [isEmpty_iff.mp hlast, flatten_nil]

namespace ExactShardMergeState

variable {lists past : Fin m → List (ScoredPoint Id S)}
  {head : Fin m → Option (ScoredPoint Id S)} {state : ExactShardMergeState Id S m}
  {emitted : List (ScoredPoint Id S)}

/-- The sorted union of the lists, with one copy of each point. -/
def shardOrder (lists : Fin m → List (ScoredPoint Id S)) : List (ScoredPoint Id S) :=
  rankBy ScoredPoint.key ((finRange m).flatMap lists).dedup

theorem mem_shardOrder {point : ScoredPoint Id S} :
    point ∈ shardOrder lists ↔ ∃ source, point ∈ lists source := by
  rw [shardOrder, mem_rankBy, mem_dedup, mem_flatMap]
  simp

private theorem dedup_keys_nodup (h : CopiesAgree lists) :
    (((finRange m).flatMap lists).dedup.map ScoredPoint.key).Nodup := by
  refine (nodup_dedup _).map_on fun left hleft right hright heq => ?_
  obtain ⟨source, _, hsource⟩ := mem_flatMap.mp (mem_dedup.mp hleft)
  obtain ⟨other, _, hother⟩ := mem_flatMap.mp (mem_dedup.mp hright)
  exact h source other left hsource right hother (rankKey_inj.mp heq).2

/-- The union is sorted when copies agree. -/
theorem ranked_shardOrder (h : CopiesAgree lists) : Ranked ScoredPoint.key (shardOrder lists) :=
  ranked_rankBy (dedup_keys_nodup h)

/-- Every identity occurs once in the union when copies agree. -/
theorem shardOrder_ids_nodup (h : CopiesAgree lists) :
    ((shardOrder lists).map ScoredPoint.id).Nodup := by
  refine (ranked_shardOrder h).nodup.map_on fun left hleft right hright heq => ?_
  obtain ⟨source, hsource⟩ := mem_shardOrder.mp hleft
  obtain ⟨other, hother⟩ := mem_shardOrder.mp hright
  exact h source other left hsource right hother heq

private theorem ranked_of_ids_nodup {points : List (ScoredPoint Id S)}
    (hsorted : points.Pairwise fun left right => left.key ≤ right.key)
    (hnodup : (points.map ScoredPoint.id).Nodup) : Ranked ScoredPoint.key points := by
  refine Pairwise.imp₂ (fun left right hle hne => lt_of_le_of_ne hle fun heq => ?_) hsorted
    (pairwise_map.mp hnodup)
  exact hne (rankKey_inj.mp heq).2

/-- Once every Segment has been returned, copies are known to agree and the returned
sequence is the sorted union. -/
theorem Merging.emitted_eq (h : Merging lists state lists head emitted) :
    CopiesAgree lists ∧ emitted = shardOrder lists := by
  have hagree : CopiesAgree lists := by
    intro source other point hpoint copy hcopy hid
    exact inj_on_of_nodup_map h.ids_nodup ((h.mem_emitted _).mpr ⟨source, hpoint⟩)
      ((h.mem_emitted _).mpr ⟨other, hcopy⟩) hid
  refine ⟨hagree, ?_⟩
  refine (ranked_of_ids_nodup h.sorted h.ids_nodup).eq_of_mem_iff (ranked_shardOrder hagree) ?_
  intro point
  rw [h.mem_emitted, mem_shardOrder]

section Runs

variable (h : Merging lists state past head emitted)

include h

/-- Every returned point comes from a Segment. -/
theorem Merging.exists_mem_list : ∀ point ∈ emitted, ∃ source, point ∈ lists source := by
  intro point hpoint
  obtain ⟨source, hsource⟩ := (h.mem_emitted point).mp hpoint
  obtain ⟨unread, _, hlist⟩ := h.heads.holds source
  refine ⟨source, ?_⟩
  rw [← hlist]
  exact mem_append_left _ (mem_append_left _ hsource)

variable (hordered : Ordered lists)

include hordered

/-- The returned sequence is the beginning of the sorted union of consistent lists. -/
theorem Merging.emitted_prefix (hconsistent : Consistent lists) : emitted <+: shardOrder lists := by
  have hagree := hconsistent.copies_agree
  set later := (shardOrder lists).filter (fun point => point ∉ emitted) with hlater
  have hranked : Ranked ScoredPoint.key (emitted ++ later) := by
    refine ranked_append.mpr ⟨ranked_of_ids_nodup h.sorted h.ids_nodup,
      Pairwise.sublist filter_sublist (ranked_shardOrder hagree), ?_⟩
    intro earlier hearlier point hpoint
    obtain ⟨hmem, hunread⟩ := mem_filter.mp hpoint
    obtain ⟨source, hsource⟩ := mem_shardOrder.mp hmem
    obtain ⟨unread, _, hlist⟩ := h.heads.holds source
    have hpast : point ∉ past source := by
      intro hpast
      exact (of_decide_eq_true hunread) ((h.mem_emitted point).mpr ⟨source, hpast⟩)
    -- The point is the head of its Segment or follows it.
    cases hhead : head source with
    | none =>
      have hall := (h.heads.drained source hhead).resolve_left (by simp)
      rw [hall] at hpast
      exact absurd hsource hpast
    | some first =>
      rw [hhead, append_assoc] at hlist
      have hsorted := hordered.sorted source
      have hnodup := hconsistent.ids_nodup source
      rw [← hlist] at hsource hsorted hnodup
      have hfirst : earlier.key < first.key := by
        refine (h.lt_head source first hhead earlier hearlier).resolve_right fun hrepeat => ?_
        rw [map_append, nodup_append] at hnodup
        exact hnodup.2.2 _ hrepeat first.id (by simp) rfl
      have hrest := (mem_append.mp hsource).resolve_left hpast
      rcases mem_cons.mp hrest with rfl | hrest
      · exact hfirst
      · refine hfirst.trans_le ?_
        exact (pairwise_cons.mp (pairwise_append.mp hsorted).2.1).1 point hrest
  have heq : emitted ++ later = shardOrder lists := by
    refine hranked.eq_of_mem_iff (ranked_shardOrder hagree) fun point => ?_
    rw [mem_append, hlater, mem_filter, mem_shardOrder, decide_eq_true_eq]
    constructor
    · rintro (hpoint | hpoint)
      · exact h.exists_mem_list point hpoint
      · exact hpoint.1
    grind
  exact ⟨later, heq⟩

omit h in
/-- Opening a merge of Segments whose lists are in order succeeds. -/
theorem openMerge_eq {pulls : Fin m → PullBatch Id S} (modes : Fin m → ExactSourceMode)
    (hpulls : ∀ source, (pulls source).Delivers (lists source)) (visiblePointCopies : ℕ)
    {batchSize : ℕ} (hbatch : 0 < batchSize) (channel : String) :
    ∃ state head, openMerge (fun source => .onDemand (pulls source) (modes source))
        visiblePointCopies batchSize (fun _ => false) channel = .ok state ∧
      Merging lists state (fun _ => []) head [] := by
  set start : ExactShardMergeState Id S m :=
    { sources := fun source => .onDemand (pulls source) (modes source)
      pending := [], seen := ∅, batchSize, stopped := fun _ => false, channel
      telemetry := openTelemetry (fun source => .onDemand (pulls source) (modes source))
        visiblePointCopies
      terminalError := none } with hstart
  have hheads : Heads lists start (fun _ => []) (fun _ => none) (finRange m) := by
    refine ⟨rfl, fun _ => rfl, hbatch, fun source => ?_, fun _ => rfl, nodup_nil, by simp [hstart],
      fun source _ => Or.inl (mem_finRange source)⟩
    refine ⟨lists source, ⟨lists source, hpulls source, rfl, fun hend => ?_⟩, rfl⟩
    cases hend
  obtain ⟨next, head, hpull, hnext, _, hseen⟩ :=
    hheads.pullSources hordered (nodup_finRange m) (fun _ _ => rfl) Nat.one_pos
  refine ⟨next, head, ?_, hnext, by simp, ?_, by simp, by simp, by simp, by simp⟩
  · unfold openMerge
    rw [if_neg (by omega)]
    simp only [← hstart]
    rw [hpull]
  · rw [hseen]
    rfl

variable [ToString Id]

/-- A batch fails for good on inconsistent lists, or is the next part of the returned
sequence, and is short only when every Segment has been returned. -/
theorem Merging.nextBatch_cases {maxResults : ℕ} (hpos : 0 < maxResults) :
    (∃ error next, state.nextBatch maxResults = (.error error, next) ∧
      next.terminalError = some error ∧ ¬Consistent lists) ∨
    (∃ points next past' head', state.nextBatch maxResults = (.ok points, next) ∧
      Merging lists next past' head' (emitted ++ points) ∧ points.length ≤ maxResults ∧
      (points.length < maxResults →
        ∃ head'', Merging lists next lists head'' (emitted ++ points))) := by
  unfold nextBatch
  rw [if_neg (by omega), h.heads.healthy]
  -- Each step keeps an explanation of what this batch has added to `emitted`.
  have hsteps := collect_cases nextInner
    (fun returned state => ∃ past head, Merging lists state past head (emitted ++ returned))
    (fun returned state => ∃ head, Merging lists state lists head (emitted ++ returned))
    (fun _ => ¬Consistent lists) ?_ maxResults [] state ⟨past, head, by rwa [append_nil]⟩
  · grind
  rintro returned current ⟨past, head, hcurrent⟩
  rcases hcurrent.nextInner_cases hordered with ⟨error, next, hrun, hbad⟩ |
    ⟨next, hrun, rfl, hnext⟩ | ⟨point, next, past', head', hrun, hnext⟩
  · exact Or.inl ⟨error, next, hrun, hbad⟩
  · exact Or.inr (Or.inl ⟨next, hrun, ⟨_, head, hnext⟩, head, hnext⟩)
  · rw [append_assoc] at hnext
    exact Or.inr (Or.inr ⟨point, next, hrun, past', head', hnext⟩)

/-- A batch of consistent lists holds the next members of the sorted union. -/
theorem Merging.nextBatch_eq (hconsistent : Consistent lists) {maxResults : ℕ}
    (hpos : 0 < maxResults) :
    ∃ points next past' head', points = ((shardOrder lists).drop emitted.length).take maxResults ∧
      state.nextBatch maxResults = (.ok points, next) ∧
      Merging lists next past' head' (emitted ++ points) := by
  rcases h.nextBatch_cases hordered hpos with ⟨_, _, _, _, hbad⟩ |
    ⟨points, next, past', head', hrun, hnext, hle, hend⟩
  · exact absurd hconsistent hbad
  refine ⟨points, next, past', head', ?_, hrun, hnext⟩
  obtain ⟨rest, hrest⟩ := hnext.emitted_prefix hordered hconsistent
  rw [← hrest, append_assoc, drop_left]
  rcases hle.lt_or_eq with hlt | heq
  · obtain ⟨_, hall⟩ := hend hlt
    rw [← hall.emitted_eq.2, append_right_eq_self] at hrest
    rw [hrest, append_nil, take_of_length_le hle]
  · rw [← heq, take_left]

/-- Pulls batches of the given sizes one after the other. -/
def nextBatches : List ℕ → ExactShardMergeState Id S m →
    List (OperationResult (List (ScoredPoint Id S)))
  | [], _ => []
  | size :: sizes, state => (state.nextBatch size).1 :: nextBatches sizes (state.nextBatch size).2

variable {sizes : List ℕ}

/-- The batches of consistent lists are consecutive parts of the sorted union. -/
theorem Merging.nextBatches_eq (hconsistent : Consistent lists)
    (hsizes : ∀ size ∈ sizes, 0 < size) :
    nextBatches sizes state =
      (slices ((shardOrder lists).drop emitted.length) sizes).map Except.ok := by
  induction sizes generalizing state past head emitted with
  | nil => rfl
  | cons size sizes ih =>
    obtain ⟨hsize, hsizes⟩ := forall_mem_cons.mp hsizes
    obtain ⟨points, next, past', head', hpoints, hrun, hnext⟩ :=
      h.nextBatch_eq hordered hconsistent hsize
    simp only [nextBatches, hrun, slices, map_cons, ih hnext hsizes, ← hpoints, drop_drop]
    congr 3
    have hlength : points.length = min size ((shardOrder lists).length - emitted.length) := by
      rw [hpoints, length_take, length_drop]
    rw [length_append, hlength]
    -- Past the end of the ranking, both starts leave nothing.
    rcases le_total size ((shardOrder lists).length - emitted.length) with hle | hle
    · rw [min_eq_left hle]
    · rw [min_eq_right hle, drop_of_length_le (by omega), drop_of_length_le (by omega)]

omit h hordered in
/-- Once a call has failed, every later call returns its error. -/
theorem nextBatches_of_failed {error : OperationError} (herror : state.terminalError = some error)
    (hsizes : ∀ size ∈ sizes, 0 < size) :
    nextBatches sizes state = sizes.map fun _ => .error error := by
  induction sizes with
  | nil => rfl
  | cons size sizes ih =>
    obtain ⟨hsize, hsizes⟩ := forall_mem_cons.mp hsizes
    have hrun : state.nextBatch size = (.error error, state) := by
      unfold nextBatch
      rw [if_neg (by omega), herror]
    simp only [nextBatches, hrun, map_cons, ih hsizes]

omit h hordered in
/-- A failed call leaves its error behind. -/
theorem terminalError_of_nextBatch {size : ℕ} (hsize : 0 < size) {error : OperationError}
    {next : ExactShardMergeState Id S m} (hrun : state.nextBatch size = (.error error, next)) :
    next.terminalError = some error := by
  unfold nextBatch at hrun
  grind

/-- When copies disagree, a run delivers full batches without repeated identities and then
fails for good. -/
theorem Merging.nextBatches_conflict (hconflict : ¬CopiesAgree lists)
    (hsizes : ∀ size ∈ sizes, 0 < size) :
    ∃ (full : List (List (ScoredPoint Id S))) (error : OperationError), nextBatches sizes state =
        full.map Except.ok ++ (sizes.drop full.length).map (fun _ => .error error) ∧
      full.map length = sizes.take full.length ∧
      ((emitted ++ full.flatten).map ScoredPoint.id).Nodup ∧
      ∀ point ∈ emitted ++ full.flatten, ∃ source, point ∈ lists source := by
  induction sizes generalizing state past head emitted with
  | nil =>
    refine ⟨[], .serviceError "", rfl, rfl, ?_, ?_⟩
    · simpa using h.ids_nodup
    · simpa using h.exists_mem_list
  | cons size sizes ih =>
    obtain ⟨hsize, hsizes'⟩ := forall_mem_cons.mp hsizes
    rcases h.nextBatch_cases hordered hsize with ⟨error, next, hrun, herror, _⟩ |
      ⟨points, next, past', head', hrun, hnext, hle, hend⟩
    · refine ⟨[], error, ?_, rfl, ?_, ?_⟩
      · simp only [nextBatches, hrun, nextBatches_of_failed herror hsizes']
        rfl
      · simpa using h.ids_nodup
      · simpa using h.exists_mem_list
    obtain ⟨full, error, hreplies, hlengths, hnodup, hmem⟩ := ih hnext hsizes'
    have hfull : points.length = size := by
      refine hle.antisymm (not_lt.mp fun hshort => hconflict ?_)
      obtain ⟨_, hall⟩ := hend hshort
      exact hall.emitted_eq.1
    refine ⟨points :: full, error, ?_, ?_, ?_, ?_⟩
    · simp only [nextBatches, hrun, hreplies]
      rfl
    · simp [hfull, hlengths]
    · simpa using hnodup
    · simpa using hmem

end Runs

/-- A rejected size is not remembered, a Segment that repeats a point fails although the
copies agree, and an infinite score is not accepted. -/
theorem shard_merge_zero_repeat_infinite :
    (∃ state : ExactShardMergeState ℕ ℚ 1,
      openMerge (fun _ => .onDemand (.ofBatches [[⟨7, 0, 1⟩]]) .exact) 1 1 (fun _ => false) "Test" =
        .ok state ∧
      ∃ error, nextBatches [0, 1] state = [.error error, .ok [⟨7, 0, 1⟩]]) ∧
    (∃ state : ExactShardMergeState ℕ ℚ 1,
      openMerge (fun _ => .onDemand (.ofBatches [[⟨7, 0, 1⟩, ⟨7, 0, 1⟩]]) .exact) 2 1
        (fun _ => false) "Test" = .ok state ∧
      ∃ error, nextBatches [1, 1] state = [.ok [⟨7, 0, 1⟩], .error error]) ∧
    ∃ error, (openMerge (fun _ => .onDemand (.ofBatches [[⟨7, 0, ⊤⟩]]) .exact) 1 1
        (fun _ => false) "Test" : OperationResult (ExactShardMergeState ℕ (WithTop ℚ) 1)) =
      .error error :=
  ⟨⟨_, rfl, .validationError "exact Test Shard output batch size must be positive",
      by decide +kernel⟩,
    ⟨_, rfl, .inconsistentStorage "exact Test Shard generation emitted point 7 more than once",
      by decide +kernel⟩,
    _, rfl⟩

variable [ToString Id]

/-- A Shard merge of ordered lists is exact and fails closed. Consistent lists are handed
out as their sorted union, with every identity once, and a batch is short only when it
completes the union. If copies of an identity disagree, a run delivers full batches
without repeated identities and then fails, at the latest when it asks for more points
than there are. After any failed call every later call fails with the same error. -/
theorem shard_merge_exact_or_fails_closed (hordered : Ordered lists)
    {pulls : Fin m → PullBatch Id S} (modes : Fin m → ExactSourceMode)
    (hpulls : ∀ source, (pulls source).Delivers (lists source)) (visiblePointCopies : ℕ)
    {batchSize : ℕ} (hbatch : 0 < batchSize) (channel : String) :
    (∃ state : ExactShardMergeState Id S m,
      openMerge (fun source => .onDemand (pulls source) (modes source)) visiblePointCopies
        batchSize (fun _ => false) channel = .ok state ∧
      (Consistent lists → Ranked ScoredPoint.key (shardOrder lists) ∧
        ((shardOrder lists).map ScoredPoint.id).Nodup ∧
        ∀ sizes, (∀ size ∈ sizes, 0 < size) →
          nextBatches sizes state = (slices (shardOrder lists) sizes).map Except.ok ∧
          (slices (shardOrder lists) sizes).flatten = (shardOrder lists).take sizes.sum ∧
          ∀ before size after batch, sizes = before ++ size :: after →
            (nextBatches sizes state)[before.length]? = some (.ok batch) → batch.length < size →
            (shardOrder lists).take (before.sum + size) = shardOrder lists) ∧
      (¬CopiesAgree lists → ∀ sizes, (∀ size ∈ sizes, 0 < size) →
        ∃ (full : List (List (ScoredPoint Id S))) (error : OperationError),
          nextBatches sizes state =
            full.map Except.ok ++ (sizes.drop full.length).map (fun _ => .error error) ∧
          full.map length = sizes.take full.length ∧
          (full.flatten.map ScoredPoint.id).Nodup ∧
          (((finRange m).flatMap lists).length < sizes.sum → full.length < sizes.length))) ∧
    ∀ (state next : ExactShardMergeState Id S m) (size : ℕ) (error : OperationError), 0 < size →
      state.nextBatch size = (.error error, next) → ∀ sizes, (∀ size ∈ sizes, 0 < size) →
        nextBatches sizes next = sizes.map fun _ => .error error := by
  obtain ⟨state, head, hopen, hmerging⟩ :=
    openMerge_eq hordered modes hpulls visiblePointCopies hbatch channel
  refine ⟨⟨state, hopen, fun hconsistent => ?_, fun hconflict sizes hsizes => ?_⟩, ?_⟩
  · refine ⟨ranked_shardOrder hconsistent.copies_agree,
      shardOrder_ids_nodup hconsistent.copies_agree, fun sizes hsizes => ?_⟩
    have hreplies := hmerging.nextBatches_eq hordered hconsistent hsizes
    rw [length_nil, drop_zero] at hreplies
    refine ⟨hreplies, flatten_slices _ sizes, ?_⟩
    intro before size after batch hsplit hbatch hshort
    rw [hreplies, hsplit, getElem?_map, getElem?_slices, Option.map_some, Option.some.injEq,
      Except.ok.injEq] at hbatch
    rw [← hbatch, length_take, length_drop] at hshort
    exact take_of_length_le (by omega)
  · obtain ⟨full, error, hreplies, hlengths, hnodup, hmem⟩ :=
      hmerging.nextBatches_conflict hordered hconflict hsizes
    refine ⟨full, error, hreplies, hlengths, hnodup, fun hmore => not_le.mp fun hle => ?_⟩
    rw [take_of_length_le hle] at hlengths
    have hcount : full.flatten.length = sizes.sum := by rw [length_flatten, hlengths]
    have hsubperm : full.flatten.Subperm ((finRange m).flatMap lists) := by
      refine (hnodup.of_map _).subperm fun point hpoint => ?_
      obtain ⟨source, hsource⟩ := hmem point hpoint
      exact mem_flatMap.mpr ⟨source, mem_finRange source, hsource⟩
    have := hsubperm.length_le
    omega
  · intro stream next size error hsize hrun sizes hsizes
    exact nextBatches_of_failed (terminalError_of_nextBatch hsize hrun) hsizes

/-- Two Segments that share a point, one of them with an empty reply in the middle. -/
theorem shard_merge_exact_or_fails_closed_two_segments :
    let batches : Fin 2 → List (List (ScoredPoint ℕ ℚ)) :=
      ![[[⟨7, 3, 9⟩], [], [⟨8, 0, 7⟩]], [[⟨7, 3, 9⟩, ⟨9, 0, 8⟩]]]
    ∃ state : ExactShardMergeState ℕ ℚ 2,
      openMerge (fun source => .onDemand (.ofBatches (batches source)) .exact) 4 4
        (fun _ => false) "Test" = .ok state ∧
      ∀ sizes, (∀ size ∈ sizes, 0 < size) →
        nextBatches sizes state =
          (slices [⟨7, 3, 9⟩, ⟨9, 0, 8⟩, ⟨8, 0, 7⟩] sizes).map Except.ok := by
  intro batches
  have hordered : Ordered fun source => (batches source).flatten := ⟨by decide, by decide⟩
  have hconsistent : Consistent fun source => (batches source).flatten :=
    ⟨by unfold CopiesAgree; decide, by decide⟩
  obtain ⟨⟨state, hopen, hexact, _⟩, _⟩ := shard_merge_exact_or_fails_closed hordered
    (fun _ => .exact) (fun source => PullBatch.delivers_ofBatches (batches source)) 4
    (show 0 < 4 by decide) "Test"
  exact ⟨state, hopen, fun sizes hsizes => ((hexact hconsistent).2.2 sizes hsizes).1⟩

end ExactShardMergeState

end Stratumind
