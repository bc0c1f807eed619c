import Stratumind.Sparse.BlockMaxStream

/-!
# Plans of id ranges

Both planners cut the ids of the posting lists into ranges of one width and keep those with a
non-zero bound. The bound of a range adds up one maximum for each posting list, which covers
every weight that the list stores in the range.
-/

namespace Stratumind.BlockMax

open Lib List

variable {I T S : Type} [CommRing S] [LinearOrder S]

/-- The range with a given number. -/
def rangeBatch (minId maxId width range : ℕ) (upperBound : S) : PendingBatch S :=
  ⟨minId + range * width, min (minId + range * width + (width - 1)) maxId, upperBound⟩

/-- The entry of a range in the plan. -/
def planEntry (minId maxId width : ℕ) (bound : ℕ → S) (range : ℕ) : Option (PendingBatch S) :=
  if bound range = 0 then none else some (rangeBatch minId maxId width range (bound range))

/-- The ranges with a non-zero bound. -/
def rangePlan (minId maxId width : ℕ) (bound : ℕ → S) : List (PendingBatch S) :=
  (range ((maxId - minId) / width + 1)).filterMap (planEntry minId maxId width bound)

section Ranges

variable {minId maxId width : ℕ} {bound score : ℕ → S}

theorem mem_rangePlan {batch : PendingBatch S} :
    batch ∈ rangePlan minId maxId width bound ↔ ∃ range ≤ (maxId - minId) / width,
      bound range ≠ 0 ∧ batch = rangeBatch minId maxId width range (bound range) := by
  simp only [rangePlan, planEntry, mem_filterMap, mem_range, Nat.lt_succ_iff]
  grind

/-- The ids of a range are those that fall into it by division. -/
theorem mem_range_iff (hwidth : 0 < width) {range id : ℕ} :
    minId + range * width ≤ id ∧ id ≤ min (minId + range * width + (width - 1)) maxId ↔
      minId ≤ id ∧ id ≤ maxId ∧ (id - minId) / width = range := by
  rw [Nat.div_eq_iff hwidth, le_min_iff]
  omega

/-- The points of a plan are the non-zero points whose range has a non-zero bound. -/
theorem mem_rangePlan_points (hwidth : 0 < width) (hle : minId ≤ maxId)
    {point : ScoredPointOffset S} :
    point ∈ (rangePlan minId maxId width bound).flatMap (PendingBatch.points score) ↔
      (minId ≤ point.idx ∧ point.idx ≤ maxId ∧ bound ((point.idx - minId) / width) ≠ 0) ∧
        point.score = score point.idx ∧ score point.idx ≠ 0 := by
  have hstart : ∀ range ≤ (maxId - minId) / width,
      minId + range * width ≤ min (minId + range * width + (width - 1)) maxId := by
    intro range hrange
    have := (Nat.le_div_iff_mul_le hwidth).mp hrange
    omega
  rw [mem_flatMap]
  constructor
  · rintro ⟨batch, hbatch, hpoint⟩
    obtain ⟨range, hrange, hne, rfl⟩ := mem_rangePlan.mp hbatch
    obtain ⟨hge, hlast, hscore⟩ := (mem_rangePoints (hstart range hrange)).mp hpoint
    obtain ⟨hmin, hmax, rfl⟩ := (mem_range_iff hwidth).mp ⟨hge, hlast⟩
    exact ⟨⟨hmin, hmax, hne⟩, hscore⟩
  rintro ⟨⟨hmin, hmax, hne⟩, hscore⟩
  have hrange : (point.idx - minId) / width ≤ (maxId - minId) / width :=
    Nat.div_le_div_right (by omega)
  obtain ⟨hge, hlast⟩ := (mem_range_iff hwidth).mpr ⟨hmin, hmax, rfl⟩
  exact ⟨_, mem_rangePlan.mpr ⟨_, hrange, hne, rfl⟩,
    (mem_rangePoints (hstart _ hrange)).mpr ⟨hge, hlast, hscore⟩⟩

/-- The points of a plan have increasing offsets. -/
theorem rangePlan_points_increasing (hwidth : 0 < width) :
    ((rangePlan minId maxId width bound).flatMap (PendingBatch.points score)).Pairwise
      fun left right => left.idx < right.idx := by
  rw [pairwise_flatMap]
  constructor
  · intro batch _
    unfold PendingBatch.points rangePoints
    rw [pairwise_map]
    exact Pairwise.filter _ pairwise_lt_range'
  refine Pairwise.filterMap _ ?_ pairwise_lt_range
  intro range later hlt batch hbatch next hnext left hleft right hright
  unfold planEntry at hbatch hnext
  split at hbatch
  · cases hbatch
  split at hnext
  · cases hnext
  cases hbatch
  cases hnext
  simp only [PendingBatch.points, rangePoints, rangeBatch, mem_map, mem_filter,
    mem_range'_1] at hleft hright
  obtain ⟨id, ⟨⟨hge, hlast⟩, _⟩, rfl⟩ := hleft
  obtain ⟨id', ⟨⟨hge', _⟩, _⟩, rfl⟩ := hright
  have hnext : (range + 1) * width ≤ later * width := Nat.mul_le_mul_right width hlt
  rw [Nat.succ_mul] at hnext
  dsimp only
  omega

/-- The points of a plan have distinct ranks. -/
theorem rangePlan_points_nodup (hwidth : 0 < width) :
    (((rangePlan minId maxId width bound).flatMap (PendingBatch.points score)).map
      pointKey).Nodup := by
  rw [Nodup, pairwise_map]
  refine (rangePlan_points_increasing hwidth).imp fun hlt heq => ?_
  have := (rankKey_inj.mp heq).2
  omega

end Ranges

section Bounds

variable [IsStrictOrderedRing S]

/-- The sum of the maxima of all posting lists in a range, with their query weights. -/
def boundOver (maxima : List ((ℕ → S) × S)) (range : ℕ) : S :=
  (maxima.map fun maximum => maximum.1 range * maximum.2).sum

/-- A maximum for each range that covers every weight stored in it, and zero. -/
structure Envelope (minId width : ℕ) (elements : List (PostingElement S)) (maximum : ℕ → S) :
    Prop where
  nonneg : ∀ range, 0 ≤ maximum range
  weight_le : ∀ e ∈ elements, e.weight ≤ maximum ((e.recordId - minId) / width)

omit [IsStrictOrderedRing S] in
/-- What a list stores for a record is covered by the maximum of the record's range. -/
theorem Envelope.storedWeight_le {minId width : ℕ} {elements : Elements S}
    {maximum : ℕ → S} (h : Envelope minId width elements maximum) (id : ℕ) :
    storedWeight elements id ≤ maximum ((id - minId) / width) := by
  unfold storedWeight
  cases hlookup : lookup id elements with
  | none => exact h.nonneg _
  | some e =>
    have hid : e.recordId = id := by simpa using find?_some hlookup
    rw [← hid]
    exact h.weight_le e (mem_of_find?_eq_some hlookup)

variable {minId width : ℕ} {maxima : List ((ℕ → S) × S)}
  {terms : Terms S}

/-- The maxima of a term cover its list and come with its query weight. -/
def Bounded (minId width : ℕ) (maximum : (ℕ → S) × S) (term : List (PostingElement S) × S) : Prop :=
  Envelope minId width term.1 maximum.1 ∧ maximum.2 = term.2 ∧ 0 ≤ term.2

/-- The bound of a range covers the scores in it. -/
theorem scoreOver_le_boundOver (h : Forall₂ (Bounded minId width) maxima terms) (id : ℕ) :
    scoreOver terms id ≤ boundOver maxima ((id - minId) / width) := by
  unfold scoreOver boundOver
  induction h with
  | nil => exact le_rfl
  | @cons maximum term maxima terms hbounded _ ih =>
    obtain ⟨henvelope, hweight, hnonneg⟩ := hbounded
    rw [map_cons, map_cons, sum_cons, sum_cons, hweight]
    exact add_le_add (mul_le_mul_of_nonneg_right (henvelope.storedWeight_le id) hnonneg) ih

/-- Bounds are not negative, and not zero exactly where some list with a positive query
weight has a positive maximum. -/
theorem boundOver_nonneg_and_ne_zero_iff (h : Forall₂ (Bounded minId width) maxima terms)
    (range : ℕ) :
    0 ≤ boundOver maxima range ∧ (boundOver maxima range ≠ 0 ↔
      ∃ maximum ∈ maxima, 0 < maximum.2 ∧ 0 < maximum.1 range) := by
  unfold boundOver
  induction h with
  | nil => simp
  | @cons maximum term maxima terms hbounded _ ih =>
    obtain ⟨henvelope, hweight, hnonneg⟩ := hbounded
    obtain ⟨hsum, hiff⟩ := ih
    rw [← hweight] at hnonneg
    have hmax := henvelope.nonneg range
    have hterm : 0 ≤ maximum.1 range * maximum.2 := mul_nonneg hmax hnonneg
    rw [map_cons, sum_cons]
    refine ⟨add_nonneg hterm hsum, ?_⟩
    rw [ne_eq, add_eq_zero_iff_of_nonneg hterm hsum, not_and_or, ← ne_eq, ← ne_eq, hiff,
      mul_ne_zero_iff, exists_mem_cons_iff, hmax.lt_iff_ne', hnonneg.lt_iff_ne', and_comm]

end Bounds

/-- The least id of the posting lists. -/
def firstId (terms : List (List (PostingElement S) × S)) : ℕ :=
  (terms.flatMap fun term => term.1.map PostingElement.recordId).min?.getD 0

/-- The id at a position. -/
def idAt (elements : List (PostingElement S)) (position : ℕ) : ℕ :=
  (elements[position]?.map PostingElement.recordId).getD 0

omit [CommRing S] [LinearOrder S] in
theorem idAt_eq {elements : Elements S} {position : ℕ} {e : PostingElement S}
    (h : elements[position]? = some e) : idAt elements position = e.recordId := by
  rw [idAt, h]
  rfl

/-- A position that stands for its own id only. -/
def pointSpan (elements : List (PostingElement S)) (position : ℕ) : ℕ × ℕ :=
  (idAt elements position, idAt elements position)

/-- Some positive query weight meets a positive stored weight whose span of ids reaches the
range of the id. -/
def HasGain (span : List (PostingElement S) → ℕ → ℕ × ℕ)
    (terms : List (List (PostingElement S) × S)) (width id : ℕ) : Prop :=
  ∃ term ∈ terms, 0 < term.2 ∧ ∃ position e, term.1[position]? = some e ∧ 0 < e.weight ∧
    ((span term.1 position).1 - firstId terms) / width ≤ (id - firstId terms) / width ∧
    (id - firstId terms) / width ≤ ((span term.1 position).2 - firstId terms) / width

/-- The maxima of a term cover its list, and a positive one comes from a positive weight
whose span reaches the range. -/
def Spanned (span : List (PostingElement S) → ℕ → ℕ × ℕ) (minId width : ℕ)
    (maximum : (ℕ → S) × S) (term : List (PostingElement S) × S) : Prop :=
  Bounded minId width maximum term ∧ ∀ range, 0 < maximum.1 range ↔
    ∃ position e, term.1[position]? = some e ∧ 0 < e.weight ∧
      ((span term.1 position).1 - minId) / width ≤ range ∧
      range ≤ ((span term.1 position).2 - minId) / width

/-- Maxima with spans tell which ranges have a gain. -/
theorem exists_pos_iff_hasGain {span : Elements S → ℕ → ℕ × ℕ} {width id : ℕ}
    {maxima : List ((ℕ → S) × S)} {terms : Terms S}
    (h : Forall₂ (Spanned span (firstId terms) width) maxima terms) :
    (∃ maximum ∈ maxima, 0 < maximum.2 ∧ 0 < maximum.1 ((id - firstId terms) / width)) ↔
      HasGain span terms width id := by
  obtain ⟨hleft, hright⟩ := forall₂_exists h
  constructor
  · rintro ⟨maximum, hmaximum, hweight, hpos⟩
    obtain ⟨term, hterm, ⟨_, hquery, _⟩, hspan⟩ := hleft maximum hmaximum
    exact ⟨term, hterm, hquery ▸ hweight, (hspan _).mp hpos⟩
  · rintro ⟨term, hterm, hweight, hgain⟩
    obtain ⟨maximum, hmaximum, ⟨_, hquery, _⟩, hspan⟩ := hright term hterm
    exact ⟨maximum, hmaximum, hquery ▸ hweight, (hspan _).mpr hgain⟩

section Opening

variable [PostingListIter T S]
  {Reads : CursorReads T S}
  {postings : List (WeightedPosting T S)} {terms : Terms S}

omit [CommRing S] [LinearOrder S] [PostingListIter T S] in
private theorem filterMap_fresh (h : Forall₂ (Fresh Reads) postings terms) {f : T → Option ℕ}
    {g : Elements S → Option ℕ} (hfg : ∀ it elements, Reads it [] elements → f it = g elements) :
    postings.filterMap (fun posting => f posting.iterator) =
      terms.filterMap fun term => g term.1 := by
  induction h with
  | nil => rfl
  | cons hposting _ ih => rw [filterMap_cons, filterMap_cons, hfg _ _ hposting.1, ih]

omit [CommRing S] [LinearOrder S] in
/-- The bounds of the ids are the least and the greatest id of the posting lists. -/
theorem idBounds_cases (hcursor : IsCursor Reads) (h : Forall₂ (Fresh Reads) postings terms)
    (hne : ∀ term ∈ terms, term.1 ≠ []) :
    (terms = [] ∧ idBounds postings = none) ∨
    ∃ maxId, idBounds postings = some (firstId terms, maxId) ∧
      (∃ term ∈ terms, ∃ e ∈ term.1, e.recordId = firstId terms) ∧
      (∃ term ∈ terms, ∃ e ∈ term.1, e.recordId = maxId) ∧
      ∀ term ∈ terms, ∀ e ∈ term.1, firstId terms ≤ e.recordId ∧ e.recordId ≤ maxId := by
  have hfirst := filterMap_fresh h
    (f := fun it => (PostingListIter.peek it).1.map fun e => e.recordId)
    (g := fun elements => elements.head?.map PostingElement.recordId) fun it elements hreads => by
      rw [← hcursor.peek_eq hreads, Option.map_map]
      rfl
  have hlast := filterMap_fresh h (f := PostingListIter.lastId)
    (g := fun elements => elements.getLast?.map PostingElement.recordId)
    fun it elements hreads => hcursor.lastId_eq hreads
  have hinc : ∀ term ∈ terms, Increasing term.1 := by
    intro term hterm
    obtain ⟨posting, _, hreads, _⟩ := (forall₂_exists h).2 term hterm
    exact hcursor.increasing hreads
  by_cases hterms : terms = []
  · subst hterms
    cases h
    exact Or.inl ⟨rfl, rfl⟩
  obtain ⟨term, hterm⟩ := exists_mem_of_ne_nil _ hterms
  obtain ⟨e, he⟩ := exists_mem_of_ne_nil _ (hne term hterm)
  let firsts := terms.filterMap fun term => term.1.head?.map PostingElement.recordId
  let lasts := terms.filterMap fun term => term.1.getLast?.map PostingElement.recordId
  -- Every record of a list lies between the ends of its list.
  have hbetween : ∀ term ∈ terms, ∀ e ∈ term.1,
      (∃ id ∈ firsts, id ≤ e.recordId) ∧ ∃ id ∈ lasts, e.recordId ≤ id := by
    intro term hterm e he
    obtain ⟨⟨first, hfirst, hle⟩, last, hlast, hge⟩ := (hinc term hterm).between he
    exact ⟨⟨first.recordId, mem_filterMap.mpr ⟨term, hterm, by simp [hfirst]⟩, hle⟩,
      last.recordId, mem_filterMap.mpr ⟨term, hterm, by simp [hlast]⟩, hge⟩
  obtain ⟨⟨first, hfirstMem, _⟩, last, hlastMem, _⟩ := hbetween term hterm e he
  obtain ⟨minId, hmin⟩ := Option.isSome_iff_exists.mp (isSome_min?_of_mem hfirstMem)
  obtain ⟨maxId, hmax⟩ := Option.isSome_iff_exists.mp (isSome_max?_of_mem hlastMem)
  obtain ⟨hminMem, hminLe⟩ := min?_eq_some_iff.mp hmin
  obtain ⟨hmaxMem, hmaxLe⟩ := max?_eq_some_iff.mp hmax
  have hbounds : ∀ term ∈ terms, ∀ e ∈ term.1, minId ≤ e.recordId ∧ e.recordId ≤ maxId := by
    intro term hterm e he
    obtain ⟨⟨first, hfirst, hle⟩, last, hlast, hge⟩ := hbetween term hterm e he
    exact ⟨(hminLe first hfirst).trans hle, hge.trans (hmaxLe last hlast)⟩
  have hleast : ∃ term ∈ terms, ∃ e ∈ term.1, e.recordId = minId := by
    obtain ⟨term, hterm, hhead⟩ := mem_filterMap.mp hminMem
    obtain ⟨e, he, rfl⟩ := Option.map_eq_some_iff.mp hhead
    exact ⟨term, hterm, e, mem_of_head? he, rfl⟩
  have hgreatest : ∃ term ∈ terms, ∃ e ∈ term.1, e.recordId = maxId := by
    obtain ⟨term, hterm, hlast⟩ := mem_filterMap.mp hmaxMem
    obtain ⟨e, he, rfl⟩ := Option.map_eq_some_iff.mp hlast
    exact ⟨term, hterm, e, mem_of_getLast? he, rfl⟩
  have hfirstId : firstId terms = minId := by
    have hids : (terms.flatMap fun term => term.1.map PostingElement.recordId).min? =
        some minId := by
      rw [min?_eq_some_iff]
      constructor
      · obtain ⟨term, hterm, e, he, rfl⟩ := hleast
        exact mem_flatMap.mpr ⟨term, hterm, mem_map_of_mem he⟩
      intro id hid
      obtain ⟨term, hterm, hid⟩ := mem_flatMap.mp hid
      obtain ⟨e, he, rfl⟩ := mem_map.mp hid
      exact (hbounds term hterm e he).1
    rw [firstId, hids, Option.getD_some]
  rw [hfirstId]
  refine Or.inr ⟨maxId, ?_, hleast, hgreatest, hbounds⟩
  unfold idBounds
  rw [hfirst, hlast, hmin, hmax]

end Opening

/-- A query that a ranking accepts: indices strictly increase and weights are not negative. -/
structure ValidQuery (query : RemappedSparseVector S) : Prop where
  length_eq : query.indices.length = query.values.length
  sorted : query.indices.Pairwise (· < ·)
  nonneg : ∀ weight ∈ query.values, 0 ≤ weight

theorem ValidQuery.term_nonneg {query : RemappedSparseVector S} (h : ValidQuery query)
    (lists : ℕ → Elements S) : ∀ term ∈ queryPostings lists query, 0 ≤ term.2 := by
  intro term hterm
  obtain ⟨pair, hpair, rfl⟩ := mem_map.mp (mem_of_mem_filter hterm)
  exact h.nonneg _ (of_mem_zip hpair).2

omit [CommRing S] [LinearOrder S] in
theorem queryPostings_ne_nil {lists : ℕ → Elements S}
    {query : RemappedSparseVector S} : ∀ term ∈ queryPostings lists query, term.1 ≠ [] := by
  intro term hterm
  simpa using (mem_filter.mp hterm).2

section New

variable [IsStrictOrderedRing S] [InvertedIndex I T] [PostingListIter T S]
  {Reads : CursorReads T S} {index : I}
  {lists : ℕ → Elements S} {query : RemappedSparseVector S}
  {postings : List (WeightedPosting T S)} {batchSize : ℕ}

omit [IsStrictOrderedRing S] in
/-- A new state delivers the ranking of the points in its plan. -/
theorem new_drains (hcursor : IsCursor Reads) (hopens : Opens Reads index lists query)
    (hquery : ValidQuery query) (hsize : 0 < batchSize)
    (hopen : openPostings index query = .ok postings) {batches : List (PendingBatch S)}
    (hplan : (planBatchesNative postings batchSize).or (planBatches postings batchSize) =
      some batches)
    (hadmissible : ∀ batch ∈ batches, batch.Admissible (dotProduct lists query))
    (hnodup : ((batches.flatMap (PendingBatch.points (dotProduct lists query))).map
      pointKey).Nodup) :
    ∃ state, PostingBlockMaxState.new index query batchSize = some (.ok state) ∧
      Drains index state (rankBy pointKey
        (batches.flatMap (PendingBatch.points (dotProduct lists query)))) := by
  have hcomputes : Computes (T := T) index query (dotProduct lists query) := by
    obtain ⟨postings, hopen, hfresh⟩ := openPostings_eq hcursor hopens
    refine ⟨postings, hopen, fun start last hle => ?_⟩
    rw [scorePostingBatch_eq hcursor hfresh hle]
    exact map_congr_left fun id _ => scoreOver_queryPostings lists query id
  have hvalid : ¬(batchSize = 0 ∨ query.indices.length ≠ query.values.length ∨
      query.isSorted = false ∨ (query.values.all fun weight => weight ≥ 0) = false) := by
    simp only [not_or, RemappedSparseVector.isSorted, decide_eq_false_iff_not, not_not,
      Bool.not_eq_false, all_eq_true, decide_eq_true_eq]
    exact ⟨by omega, hquery.length_eq, hquery.sorted, hquery.nonneg⟩
  let state : PostingBlockMaxState S :=
    { kernel := { query, activeBatches := [], scores := [] }
      pendingBatches := batches
      pendingPoints := []
      terminalError := none }
  have hstreaming : Streaming (dotProduct lists query) query
      (batches.flatMap (PendingBatch.points (dotProduct lists query))) [] state := by
    refine ⟨rfl, rfl, hadmissible, ?_, hnodup, ranked_nil, ?_, ?_, ?_, nodup_nil⟩
    · exact Perm.refl _
    · intro point hpoint
      cases hpoint
    · intro batchIndex heap hget
      cases hget
    · intro pending hpending
      cases hpending
  refine ⟨state, ?_, hstreaming.drains hcomputes⟩
  unfold PostingBlockMaxState.new
  rw [if_neg hvalid, hopen]
  dsimp only
  rw [hplan]
  rfl

/-- A plan by ranges delivers every point with a non-zero score whose range has a gain. -/
theorem exists_ranking (hcursor : IsCursor Reads) (hopens : Opens Reads index lists query)
    (hquery : ValidQuery query) (hsize : 0 < batchSize)
    (hopen : openPostings index query = .ok postings)
    (hfresh : Forall₂ (Fresh Reads) postings (queryPostings lists query))
    {span : Elements S → ℕ → ℕ × ℕ} {maxima : List ((ℕ → S) × S)}
    (hspanned : Forall₂ (Spanned span (firstId (queryPostings lists query)) batchSize) maxima
      (queryPostings lists query))
    (hnone : idBounds postings = none →
      (planBatchesNative postings batchSize).or (planBatches postings batchSize) = some [])
    (hsome : ∀ maxId, idBounds postings = some (firstId (queryPostings lists query), maxId) →
      firstId (queryPostings lists query) ≤ maxId →
      (planBatchesNative postings batchSize).or (planBatches postings batchSize) =
        some (rangePlan (firstId (queryPostings lists query)) maxId batchSize (boundOver maxima))) :
    ∃ state points, PostingBlockMaxState.new index query batchSize = some (.ok state) ∧
      Drains index state points ∧ Ranked pointKey points ∧ ∀ point, point ∈ points ↔
        HasGain span (queryPostings lists query) batchSize point.idx ∧
        point.score = dotProduct lists query point.idx ∧ dotProduct lists query point.idx ≠ 0 := by
  set terms := queryPostings lists query with hterms
  have hbounded := hspanned.imp fun _ _ h => h.1
  have hscore : ∀ id, scoreOver terms id = dotProduct lists query id :=
    scoreOver_queryPostings lists query
  rcases idBounds_cases hcursor hfresh queryPostings_ne_nil with
    ⟨hempty, hidBounds⟩ | ⟨maxId, hidBounds, -, ⟨term, hterm, e, he, hmaxId⟩, hbetween⟩
  · obtain ⟨state, hnew, hdrains⟩ := new_drains hcursor hopens hquery hsize hopen
      (hnone hidBounds) (by simp) (by simp)
    refine ⟨state, [], hnew, hdrains, ranked_nil, fun point => ?_⟩
    have hzero : dotProduct lists query point.idx = 0 := by
      rw [← hscore, hempty]
      rfl
    simp [hzero]
  have hle : firstId terms ≤ maxId := hmaxId ▸ (hbetween term hterm e he).1
  have hnodup : (((rangePlan (firstId terms) maxId batchSize (boundOver maxima)).flatMap
      (PendingBatch.points (dotProduct lists query))).map pointKey).Nodup :=
    rangePlan_points_nodup hsize
  have hadmissible : ∀ batch ∈ rangePlan (firstId terms) maxId batchSize (boundOver maxima),
      batch.Admissible (dotProduct lists query) := by
    intro batch hbatch
    obtain ⟨range, hrange, _, rfl⟩ := mem_rangePlan.mp hbatch
    constructor
    · have := (Nat.le_div_iff_mul_le hsize).mp hrange
      simp only [rangeBatch, le_min_iff]
      omega
    intro id hge hlast
    obtain ⟨_, _, rfl⟩ := (mem_range_iff hsize).mp ⟨hge, hlast⟩
    rw [← hscore]
    exact scoreOver_le_boundOver hbounded id
  obtain ⟨state, hnew, hdrains⟩ := new_drains hcursor hopens hquery hsize hopen
    (hsome maxId hidBounds hle) hadmissible hnodup
  refine ⟨state, _, hnew, hdrains, ranked_rankBy hnodup, fun point => ?_⟩
  rw [mem_rankBy, mem_rangePlan_points hsize hle,
    (boundOver_nonneg_and_ne_zero_iff hbounded _).2, exists_pos_iff_hasGain hspanned]
  constructor
  · rintro ⟨⟨_, _, hpositive⟩, hpoint⟩
    exact ⟨hpositive, hpoint⟩
  rintro ⟨hpositive, hscored, hne⟩
  rw [← hscore] at hne
  obtain ⟨term, hterm, e, he, hid⟩ := exists_of_scoreOver_ne_zero hne
  grind

end New

end Stratumind.BlockMax
