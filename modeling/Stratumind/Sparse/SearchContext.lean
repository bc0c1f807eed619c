import Stratumind.Lib.Loop
import Stratumind.Sparse.CompressedCodec
import Stratumind.Sparse.PostingBlockMax
import Stratumind.Sparse.TopK

/-!
# Scores of id ranges

The score of a record is the dot product of its stored weights with the query. The scoring
kernel computes it for every id of a range, whatever cursor the posting lists have.
-/

namespace Stratumind

open Lib BlockMax List

variable {I T S : Type}

section Scores

variable [CommRing S]

/-- The weight that a posting list stores for a record; zero where it has none. -/
def storedWeight (elements : List (PostingElement S)) (id : ℕ) : S :=
  ((lookup id elements).map PostingElement.weight).getD 0

/-- The dot product of a record with the query; `lists` are the posting lists of the
dimensions. -/
def dotProduct (lists : ℕ → List (PostingElement S)) (query : RemappedSparseVector S) (id : ℕ) :
    S :=
  (query.terms.map fun term => storedWeight (lists term.1) id * term.2).sum

@[simp] theorem storedWeight_nil (id : ℕ) : storedWeight ([] : Elements S) id = 0 :=
  rfl

/-- Looking up in a part of the list that keeps the record. -/
theorem storedWeight_filter {elements : Elements S} {p : PostingElement S → Bool}
    {id : ℕ} (h : ∀ e ∈ elements, e.recordId = id → p e = true) :
    storedWeight (elements.filter p) id = storedWeight elements id := by
  have hlookup : lookup id (elements.filter p) = lookup id elements := by
    induction elements with
    | nil => rfl
    | cons e elements ih =>
      obtain ⟨he, helements⟩ := forall_mem_cons.mp h
      by_cases hid : e.recordId = id
      · simp [lookup, hid, he hid]
      · have hrest := ih helements
        unfold lookup at hrest ⊢
        cases hp : p e <;> simp [hp, hid, hrest]
  unfold storedWeight
  rw [hlookup]

variable {start : ℕ}

/-- Adding the weights of increasing records to a buffer adds each one at its own place. -/
theorem getElem?_foldl_addWeights {elements : Elements S} (hinc : Increasing elements)
    (hge : ∀ e ∈ elements, start ≤ e.recordId) (queryWeight : S) (scores : List S) (i : ℕ) :
    (elements.foldl (fun scores e =>
      scores.modify (e.recordId - start) (· + e.weight * queryWeight)) scores)[i]? =
      scores[i]?.map (· + storedWeight elements (start + i) * queryWeight) := by
  induction elements generalizing scores with
  | nil => simp
  | cons e elements ih =>
    obtain ⟨hhead, htail⟩ := pairwise_cons.mp hinc
    obtain ⟨hstart, hrest⟩ := forall_mem_cons.mp hge
    rw [foldl_cons, ih htail hrest, getElem?_modify]
    by_cases hid : e.recordId = start + i
    · have habsent : lookup (start + i) elements = none :=
        lookup_eq_none fun e' he' => hid ▸ hhead e' he'
      have hpresent : storedWeight (e :: elements) (start + i) = e.weight := by
        simp [storedWeight, lookup, hid]
      have hindex : e.recordId - start = i := by omega
      rw [hpresent, storedWeight, habsent]
      cases scores[i]? <;> simp [hindex]
    · have hskip : storedWeight (e :: elements) (start + i) =
          storedWeight elements (start + i) := by
        simp [storedWeight, lookup, hid]
      grind

variable [PostingListIter T S]
  {Reads : CursorReads T S} {last : ℕ}

/-- One posting list adds its weighted stored weights to the scores of a range. -/
theorem scorePosting_getElem? (hcursor : IsCursor Reads) {posting : WeightedPosting T S}
    {past rest : Elements S} (h : Reads posting.iterator past rest) (scores : List S)
    {i : ℕ} (hi : start + i ≤ last) :
    (scorePosting start last posting scores).1[i]? =
      scores[i]?.map (· + storedWeight rest (start + i) * posting.queryWeight) := by
  have hskip := hcursor.skipTo_reads start h
  have hinc : Increasing rest := (pairwise_append.mp (hcursor.increasing h)).2.1
  unfold scorePosting
  rw [hcursor.forEach_eq _ _ _ hskip, getElem?_foldl_addWeights
    (Pairwise.filter _ (Pairwise.filter _ hinc)), filter_filter,
    storedWeight_filter]
  · grind
  grind

/-- The cursor of a posting stands at the start of a list with the weight of its term. -/
def Fresh (Reads : T → List (PostingElement S) → List (PostingElement S) → Prop)
    (posting : WeightedPosting T S) (term : List (PostingElement S) × S) : Prop :=
  Reads posting.iterator [] term.1 ∧ posting.queryWeight = term.2

/-- The score of a record over posting lists with query weights. -/
def scoreOver (terms : List (List (PostingElement S) × S)) (id : ℕ) : S :=
  (terms.map fun term => storedWeight term.1 id * term.2).sum

variable {terms : Terms S}

omit [PostingListIter T S] in
/-- A record with a non-zero score is in some list. -/
theorem exists_of_scoreOver_ne_zero {id : ℕ}
    (h : scoreOver terms id ≠ 0) : ∃ term ∈ terms, ∃ e ∈ term.1, e.recordId = id := by
  by_contra hnone
  push Not at hnone
  refine h (sum_eq_zero fun value hvalue => ?_)
  obtain ⟨term, hterm, rfl⟩ := mem_map.mp hvalue
  have hlookup : lookup id term.1 = none :=
    find?_eq_none.mpr fun e he => by simpa using hnone term hterm e he
  rw [storedWeight, hlookup, Option.map_none, Option.getD_none, zero_mul]

variable {postings : List (WeightedPosting T S)}

/-- All posting lists together add the scores of a range. -/
theorem scorePostings_getElem? (hcursor : IsCursor Reads)
    (h : Forall₂ (Fresh Reads) postings terms) (scores : List S) {i : ℕ}
    (hi : start + i ≤ last) :
    (scorePostings start last postings scores).1[i]? =
      scores[i]?.map (· + scoreOver terms (start + i)) := by
  induction h generalizing scores with
  | nil => simp [scorePostings, scoreOver]
  | @cons posting term postings terms hposting _ ih =>
    obtain ⟨hreads, hweight⟩ := hposting
    rw [scorePostings]
    rw [ih, scorePosting_getElem? hcursor hreads scores hi, hweight]
    cases scores[i]? with
    | none => rfl
    | some score => simp [scoreOver, add_assoc]

theorem scorePostings_length (hcursor : IsCursor Reads)
    (h : Forall₂ (Fresh Reads) postings terms) (scores : List S) :
    (scorePostings start last postings scores).1.length = scores.length := by
  induction h generalizing scores with
  | nil => rfl
  | @cons posting term postings terms hposting _ ih =>
    rw [scorePostings]
    rw [ih]
    unfold scorePosting
    rw [hcursor.forEach_eq _ _ _ (hcursor.skipTo_reads start hposting.1)]
    refine foldlRecOn (motive := fun buffer : List S => buffer.length = scores.length)
      _ _ rfl ?_
    intro buffer hbuffer e _
    rw [length_modify, hbuffer]

/-- The scoring kernel computes the score of every id of a range. -/
theorem scorePostingBatch_eq (hcursor : IsCursor Reads)
    (h : Forall₂ (Fresh Reads) postings terms) (hle : start ≤ last) :
    (scorePostingBatch postings start last).1 =
      (range' start (last - start + 1)).map (scoreOver terms) := by
  apply ext_getElem?
  intro i
  unfold scorePostingBatch
  by_cases hi : start + i ≤ last
  · rw [scorePostings_getElem? hcursor h _ hi, getElem?_map,
      getElem?_replicate_of_lt (by omega), getElem?_range' (by omega)]
    simp
  rw [getElem?_eq_none, getElem?_eq_none]
  · simp
    omega
  · rw [scorePostings_length hcursor h, length_replicate]
    omega

end Scores

section Opening

variable [PostingListIter T S] [InvertedIndex I T]
  {Reads : CursorReads T S} {index : I}
  {lists : ℕ → Elements S} {query : RemappedSparseVector S}

/-- The index gives a cursor at the start of the posting list of every query dimension. -/
def Opens (Reads : T → List (PostingElement S) → List (PostingElement S) → Prop) (index : I)
    (lists : ℕ → List (PostingElement S)) (query : RemappedSparseVector S) : Prop :=
  ∀ term ∈ query.terms, ∃ it, InvertedIndex.get index term.1 = .ok it ∧ Reads it [] (lists term.1)

/-- The non-empty posting lists of the query with their query weights. -/
def queryPostings (lists : ℕ → List (PostingElement S)) (query : RemappedSparseVector S) :
    List (List (PostingElement S) × S) :=
  (query.terms.map fun term => (lists term.1, term.2)).filter fun term => !term.1.isEmpty

private theorem openTerms_eq (hcursor : IsCursor Reads) {terms : List (ℕ × S)}
    (h : ∀ term ∈ terms, ∃ it, InvertedIndex.get index term.1 = .ok it ∧
      Reads it [] (lists term.1)) :
    ∃ postings, openTerms index terms = .ok postings ∧ Forall₂ (Fresh Reads) postings
      ((terms.map fun term => (lists term.1, term.2)).filter fun term => !term.1.isEmpty) := by
  induction terms with
  | nil => exact ⟨[], rfl, Forall₂.nil⟩
  | cons term terms ih =>
    obtain ⟨⟨it, hget, hreads⟩, hterms⟩ := forall_mem_cons.mp h
    obtain ⟨postings, hopen, hpostings⟩ := ih hterms
    have hlast := hcursor.lastId_eq hreads
    rw [openTerms, hget, hopen, map_cons]
    cases hlist : lists term.1 with
    | nil =>
      rw [hlist] at hlast
      refine ⟨postings, by simp [hlast], ?_⟩
      simpa [hlist] using hpostings
    | cons e rest =>
      refine ⟨⟨it, term.2⟩ :: postings, by simp [hlast, hlist], ?_⟩
      exact Forall₂.cons ⟨hlist ▸ hreads, rfl⟩ hpostings

/-- Opening gives fresh cursors of the non-empty posting lists. -/
theorem openPostings_eq (hcursor : IsCursor Reads) (h : Opens Reads index lists query) :
    ∃ postings, openPostings index query = .ok postings ∧
      Forall₂ (Fresh Reads) postings (queryPostings lists query) :=
  openTerms_eq hcursor h

end Opening

section Points

variable [CommRing S]

/-- Empty posting lists do not count. -/
theorem scoreOver_queryPostings (lists : ℕ → Elements S) (query : RemappedSparseVector S) (id : ℕ) :
    scoreOver (queryPostings lists query) id = dotProduct lists query id := by
  unfold scoreOver queryPostings dotProduct
  induction query.terms with
  | nil => rfl
  | cons term terms ih =>
    rw [map_cons, map_cons, sum_cons, ← ih]
    cases hlist : lists term.1 with
    | nil => simp
    | cons e rest => simp

variable [LinearOrder S]

/-- The points of a range with non-zero scores. -/
def rangePoints (score : ℕ → S) (start last : ℕ) : List (ScoredPointOffset S) :=
  ((range' start (last - start + 1)).filter fun id => score id ≠ 0).map fun id =>
    ⟨id, score id⟩

/-- Scores that respect the bound are collected without the zeros. -/
theorem collectScoredPoints_eq {score : ℕ → S} {upperBound : S} (count start : ℕ)
    (h : ∀ id, start ≤ id → id < start + count → score id ≤ upperBound) :
    collectScoredPoints upperBound start ((range' start count).map score) (fun _ => false) =
      (.ok (((range' start count).filter fun id => score id ≠ 0).map fun id =>
        ⟨id, score id⟩), fun _ => false) := by
  induction count generalizing start with
  | zero => rfl
  | succ count ih =>
    rw [range'_succ, map_cons, collectScoredPoints]
    grind

end Points

/-!
### The batched search of the sparse index

`SearchContext` of `search_context.rs`. The posting lists of the query are read in batches of
consecutive record ids. Batches are skipped by block maxima, the longest posting list by its
maximal next weights, and the last posting list is scored without a buffer. Cancellation and
telemetry are left out; the maximum of a batch of ids saturates as its type does.
-/

/-- Maximum stored weights of the first and the last physical block of a posting list. -/
class BlockMaxEndpoints (T : Type) (S : outParam Type) where
  blockMaxEndpoints : T → Option (S × S)

instance : BlockMaxEndpoints (PostingListIterator S) S where
  blockMaxEndpoints _ := none

instance {W : Type} [Weight W S] [Zero S] [Max S] :
    BlockMaxEndpoints (CompressedPostingListIterator W) S where
  blockMaxEndpoints it :=
    let params := it.list.quantizationParams
    let remainderMax : Option S := if it.list.remainders.isEmpty then none
      else some ((it.list.remainders.map fun e => Weight.toF32 params e.weight).foldl max 0)
    let first := (it.list.chunks.head?.map (decodedChunkMax params)).or remainderMax
    let last := remainderMax.or (it.list.chunks.getLast?.map (decodedChunkMax params))
    first.bind fun first => last.map fun last => (first, last)

/-- A posting list iterator with the weight of its dimension in the query. -/
structure IndexedPostingListIterator (T S : Type) where
  postingListIterator : T
  queryWeight : S

/-- `ADVANCE_BATCH_SIZE`. -/
def advanceBatchSize : ℕ := 10000

/-- A search for the largest dot products with a query. -/
structure SearchContext (T S : Type) where
  postingsIterators : List (IndexedPostingListIterator T S)
  top : ℕ
  topResults : TopK S
  /-- Least record id across all posting lists. -/
  minRecordId : Option ℕ
  /-- Greatest record id across all posting lists. -/
  maxRecordId : ℕ
  usePruning : Bool
  useBlockPruning : Bool
  blockPruneFailureLimit : Option ℕ
  consecutiveBlockPruneFailures : ℕ
  blockPruneHasSucceeded : Bool
  batchSize : ℕ

namespace SearchContext

variable [PostingListIter T S]

section Opening

/-- The opened posting lists with the bounds of their record ids. -/
structure OpenedLists (T S : Type) where
  postingsIterators : List (IndexedPostingListIterator T S)
  minRecordId : ℕ
  maxRecordId : ℕ

/-- Opens the dimensions of a query in turn. A query without a value for a dimension that has
postings panics. -/
def openLists [InvertedIndex I T] (index : I) (values : List S) :
    List (ℕ × ℕ) → OpenedLists T S → Option (Except UniversalIoError (OpenedLists T S))
  | [], opened => some (.ok opened)
  | (id, queryWeightOffset) :: rest, opened =>
    match InvertedIndex.get index id with
    | .error error => some (.error error)
    | .ok it =>
      let (first, it) := PostingListIter.peek it
      match first, PostingListIter.lastId it with
      | some first, some lastId =>
        match values[queryWeightOffset]? with
        | none => none
        | some queryWeight =>
          openLists index values rest
            { postingsIterators := opened.postingsIterators ++ [⟨it, queryWeight⟩]
              minRecordId := min opened.minRecordId first.recordId
              maxRecordId := max opened.maxRecordId lastId }
      | _, _ => openLists index values rest opened

/-- `SearchContext::new`. Queries with negative values cannot use pruning. -/
def new [InvertedIndex I T] [LE S] [DecidableLE S] [Zero S] (index : I)
    (query : RemappedSparseVector S) (top : ℕ) :
    Option (Except UniversalIoError (SearchContext T S)) :=
  (openLists index query.values query.indices.zipIdx ⟨[], pointOffsetMax, 0⟩).map fun opened =>
    opened.map fun opened =>
      { postingsIterators := opened.postingsIterators
        top
        topResults := TopK.new top
        minRecordId := some opened.minRecordId
        maxRecordId := opened.maxRecordId
        usePruning := PostingListIter.reliableMaxNextWeight T && query.values.all (0 ≤ ·)
        useBlockPruning := PostingListIter.reliableBlockMax T && query.values.all (0 ≤ ·)
        blockPruneFailureLimit := none
        consecutiveBlockPruneFailures := 0
        blockPruneHasSucceeded := false
        batchSize := advanceBatchSize }

end Opening

section Settings

variable [BlockMaxEndpoints T S] [Zero S] [Add S] [Mul S] [LE S] [DecidableLE S]

def setBlockPruning (enabled : Bool) (context : SearchContext T S) : SearchContext T S :=
  { context with useBlockPruning := context.useBlockPruning && enabled }

def setPostingPruning (enabled : Bool) (context : SearchContext T S) : SearchContext T S :=
  { context with usePruning := context.usePruning && enabled }

/-- The limit must be positive. -/
def setBlockPruneFailureLimit (limit : Option ℕ) (context : SearchContext T S) :
    Option (SearchContext T S) :=
  if limit = some 0 then none else some { context with blockPruneFailureLimit := limit }

/-- The weighted maxima of the first and the last blocks, if all posting lists know them. -/
def endpointUpperBounds (postings : List (IndexedPostingListIterator T S)) : Option (S × S) :=
  postings.foldlM (fun bounds posting =>
    (BlockMaxEndpoints.blockMaxEndpoints posting.postingListIterator).map fun endpoints =>
      (bounds.1 + endpoints.1 * posting.queryWeight,
        bounds.2 + endpoints.2 * posting.queryWeight)) (0, 0)

/-- Disables block pruning when the last blocks have the larger envelope. -/
def applyBlockMaxEndpointTrendRouter (context : SearchContext T S) : SearchContext T S :=
  if !context.useBlockPruning then context
  else
    match endpointUpperBounds context.postingsIterators with
    | none => context
    | some (firstUpperBound, lastUpperBound) =>
      if firstUpperBound ≤ lastUpperBound then { context with useBlockPruning := false }
      else context

/-- The width of a batch must be positive and fit the type of record ids. -/
def setBatchSize (batchSize : ℕ) (context : SearchContext T S) : Option (SearchContext T S) :=
  if 0 < batchSize ∧ batchSize ≤ pointOffsetMax then some { context with batchSize } else none

/-- A call of one of the setters. -/
inductive Setting where
  | blockPruning (enabled : Bool)
  | postingPruning (enabled : Bool)
  | blockPruneFailureLimit (limit : Option ℕ)
  | blockMaxEndpointTrendRouter
  | batchSize (batchSize : ℕ)
  deriving DecidableEq, Repr

/-- The effect of a setter. -/
def set (context : SearchContext T S) : Setting → Option (SearchContext T S)
  | .blockPruning enabled => some (context.setBlockPruning enabled)
  | .postingPruning enabled => some (context.setPostingPruning enabled)
  | .blockPruneFailureLimit limit => context.setBlockPruneFailureLimit limit
  | .blockMaxEndpointTrendRouter => some context.applyBlockMaxEndpointTrendRouter
  | .batchSize batchSize => context.setBatchSize batchSize

end Settings

section Batches

variable [Zero S] [Add S] [Mul S] [LinearOrder S] [UnstableSort S]

/-- Adds the weighted postings of a batch of ids to its scores and passes them. -/
def advancePostings (batchStartId batchLastId : ℕ) :
    List (IndexedPostingListIterator T S) → List S →
      List S × List (IndexedPostingListIterator T S)
  | [], scores => (scores, [])
  | posting :: postings, scores =>
    let (scores, it) := PostingListIter.forEachTillId batchLastId
      (fun scores id weight => scores.modify (id - batchStartId) (· + weight * posting.queryWeight))
      scores posting.postingListIterator
    let (scores, postings) := advancePostings batchStartId batchLastId postings scores
    (scores, { posting with postingListIterator := it } :: postings)

/-- Pushes the scores of a batch that are not zero, above the threshold, and pass the filter. -/
def pushScores (batchStartId : ℕ) (filterCondition : ℕ → Bool) (scores : List S)
    (topResults : TopK S) : TopK S :=
  scores.zipIdx.foldl (fun topResults (score, localIndex) =>
    if score ≠ 0 ∧ topResults.threshold < score then
      let realId := batchStartId + localIndex
      if !filterCondition realId then topResults else topResults.push ⟨realId, score⟩
    else topResults) topResults

/-- Scores and passes a batch of ids. The length of the batch is an offset. If it wraps around to
zero there is no result: the sum panics, or the scores are written out of bounds. -/
def advanceBatch (batchStartId batchLastId : ℕ) (filterCondition : ℕ → Bool)
    (context : SearchContext T S) : Option (SearchContext T S) :=
  let batchLen := (batchLastId - batchStartId + 1) % (pointOffsetMax + 1)
  if batchLen = 0 then none
  else
    let (scores, postingsIterators) := advancePostings batchStartId batchLastId
      context.postingsIterators (List.replicate batchLen 0)
    some { context with
      postingsIterators
      topResults := pushScores batchStartId filterCondition scores context.topResults }

/-- Scores what is left of the last posting list, without a buffer. -/
def processLastPostingList (filterCondition : ℕ → Bool) (context : SearchContext T S) :
    SearchContext T S :=
  match context.postingsIterators with
  | [] => context
  | posting :: postings =>
    let (topResults, it) := PostingListIter.forEachTillId pointOffsetMax
      (fun topResults id weight => if !filterCondition id then topResults
        else topResults.push ⟨id, weight * posting.queryWeight⟩)
      context.topResults posting.postingListIterator
    { context with
      postingsIterators := { posting with postingListIterator := it } :: postings
      topResults }

end Batches

section Positions

/-- The smaller one of the id of a next element and an id already seen. -/
def lowerMinId (next : Option (PostingElementEx S)) (minRecordId : Option ℕ) : Option ℕ :=
  match next, minRecordId with
  | none, _ => minRecordId
  | some next, none => some next.recordId
  | some next, some minIdSeen =>
    if next.recordId < minIdSeen then some next.recordId else some minIdSeen

/-- The least record id at the head of the posting lists, from an id already seen. -/
def nextMinIdFrom (minRecordId : Option ℕ) :
    List (IndexedPostingListIterator T S) → Option ℕ × List (IndexedPostingListIterator T S)
  | [] => (minRecordId, [])
  | posting :: postings =>
    let (next, it) := PostingListIter.peek posting.postingListIterator
    let (minRecordId, postings) := nextMinIdFrom (lowerMinId next minRecordId) postings
    (minRecordId, { posting with postingListIterator := it } :: postings)

/-- The least record id to come; none if all posting lists are exhausted. -/
def nextMinId (toInspect : List (IndexedPostingListIterator T S)) :
    Option ℕ × List (IndexedPostingListIterator T S) :=
  nextMinIdFrom none toInspect

/-- Notes the least record id to come. -/
def updateMinRecordId (context : SearchContext T S) : SearchContext T S :=
  let (minRecordId, postingsIterators) := nextMinId context.postingsIterators
  { context with minRecordId, postingsIterators }

/-- Removes the exhausted posting lists. -/
def retainUnfinished (context : SearchContext T S) : SearchContext T S :=
  { context with
    postingsIterators := context.postingsIterators.filter fun posting =>
      PostingListIter.lenToEnd posting.postingListIterator != 0 }

/-- Swaps the longest posting list to the head. -/
def promoteLongestPostingListsToTheFront (context : SearchContext T S) : SearchContext T S :=
  let postingIndex := (maxBy (fun a b =>
    compare (PostingListIter.lenToEnd a.1.postingListIterator)
      (PostingListIter.lenToEnd b.1.postingListIterator))
    context.postingsIterators.zipIdx).map Prod.snd
  match postingIndex with
  | some postingIndex =>
    if postingIndex ≠ 0 then
      { context with postingsIterators := swap context.postingsIterators 0 postingIndex }
    else context
  | none => context

end Positions

section Pruning

variable [Zero S] [Add S] [Mul S] [LinearOrder S]

/-- The weighted maxima of the posting lists through an id. -/
def batchUpperBound (lastBatchId : ℕ) (postings : List (IndexedPostingListIterator T S)) : S :=
  postings.foldl (fun upperBound posting =>
    match PostingListIter.maxWeightTillId lastBatchId posting.postingListIterator with
    | some maxWeight => upperBound + maxWeight * posting.queryWeight
    | none => upperBound) 0

/-- Skips a batch that cannot reach the threshold. Before the first success, a limited number
of failures disables block pruning. -/
def pruneBatchIfSafe (lastBatchId : ℕ) (context : SearchContext T S) : Bool × SearchContext T S :=
  if !context.useBlockPruning || context.topResults.len < context.top then (false, context)
  else if context.topResults.threshold ≤ batchUpperBound lastBatchId context.postingsIterators then
    if !context.blockPruneHasSucceeded then
      let failures := context.consecutiveBlockPruneFailures + 1
      let context := { context with consecutiveBlockPruneFailures := failures }
      if context.blockPruneFailureLimit.any (· ≤ failures) then
        (false, { context with useBlockPruning := false })
      else (false, context)
    else (false, context)
  else
    (true, { context with
      blockPruneHasSucceeded := true
      consecutiveBlockPruneFailures := 0
      postingsIterators := context.postingsIterators.map fun posting =>
        { posting with
          postingListIterator :=
            PostingListIter.skipTillId lastBatchId posting.postingListIterator } })

/-- The greatest weight from an element on, as its note says. -/
def maxWeightFromList (element : PostingElementEx S) : S :=
  max element.weight (element.maxNextWeight.unbotD element.weight)

/-- Skips the part of the longest posting list, at the head, that no other list shares and
that cannot reach the score. -/
def pruneLongestPostingList (minScore : WithBot S) (context : SearchContext T S) :
    Bool × SearchContext T S :=
  match context.postingsIterators with
  | [] => (false, context)
  | longest :: rest =>
    let (peeked, it) := PostingListIter.peek longest.postingListIterator
    match peeked with
    | none =>
      (false, { context with
        postingsIterators := { longest with postingListIterator := it } :: rest })
    | some element =>
      let (nextMinIdInOthers, rest) := nextMinId rest
      let keep := { context with
        postingsIterators := { longest with postingListIterator := it } :: rest }
      let maxScoreContribution := maxWeightFromList element * longest.queryWeight
      match nextMinIdInOthers with
      | some nextMinId =>
        if element.recordId < nextMinId then
          if (maxScoreContribution : WithBot S) < minScore then
            let skipped := (PostingListIter.skipTo nextMinId it).2
            (PostingListIter.currentIndex skipped - PostingListIter.currentIndex it != 0,
              { context with
                postingsIterators := { longest with postingListIterator := skipped } :: rest })
          else (false, keep)
        else (false, keep)
      | none =>
        if (maxScoreContribution : WithBot S) < minScore then
          (true, { context with
            postingsIterators :=
              { longest with postingListIterator := PostingListIter.skipToEnd it } :: rest })
        else (false, keep)

end Pruning

section Search

variable [Zero S] [Add S] [Mul S] [LinearOrder S] [UnstableSort S]

/-- Prunes the longest posting list if the threshold has improved since the last pruning. -/
def pruneTurn (context : SearchContext T S) (bestMinScore : WithBot S) :
    SearchContext T S × WithBot S :=
  if context.usePruning && context.top ≤ context.topResults.len then
    let newMinScore := context.topResults.threshold
    if newMinScore = bestMinScore then (context, bestMinScore)
    else
      let (pruned, context) :=
        context.promoteLongestPostingListsToTheFront.pruneLongestPostingList newMinScore
      (if pruned then context.updateMinRecordId else context, newMinScore)
  else (context, bestMinScore)

/-- One turn of the search loop. -/
def searchTurn (filterCondition : ℕ → Bool) (state : SearchContext T S × WithBot S) :
    Option (Turn (SearchContext T S × WithBot S) (SearchContext T S)) :=
  let (context, bestMinScore) := state
  match context.minRecordId with
  | none => some (.stop context)
  | some startBatchId =>
    let lastBatchId := min (min (startBatchId + context.batchSize) pointOffsetMax)
      context.maxRecordId
    let (pruned, context) := context.pruneBatchIfSafe lastBatchId
    if pruned then some (.again (context.retainUnfinished.updateMinRecordId, bestMinScore))
    else
      (context.advanceBatch startBatchId lastBatchId filterCondition).map fun context =>
        let context := context.retainUnfinished.updateMinRecordId
        if context.postingsIterators.isEmpty then .stop context
        else if context.postingsIterators.length = 1 && !context.useBlockPruning then
          .stop (context.processLastPostingList filterCondition)
        else .again (context.pruneTurn bestMinScore)

/-- Searches the largest scores that satisfy the filter condition. -/
def search (filterCondition : ℕ → Bool) (context : SearchContext T S) (fuel : ℕ) :
    Option (List (ScoredPointOffset S)) :=
  if context.postingsIterators.isEmpty then some []
  else (runLoop (searchTurn filterCondition) fuel (context, ⊥)).map fun context =>
    context.topResults.intoVec

end Search

end SearchContext

end Stratumind
