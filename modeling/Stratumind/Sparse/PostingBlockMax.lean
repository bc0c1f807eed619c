import Stratumind.Lib.MaxHeap
import Stratumind.Sparse.PostingList

/-!
# The exact sparse rank state

The best-first ranking of `posting_block_max` over id ranges with upper bounds, and the
scoring kernel of `posting_batch.rs`. The cancellation flag is the sequence of the values it
has at the reads to come; functions that read it return what is left of the sequence.
-/

namespace Stratumind.BlockMax

open Lib List

/-- Why a stream failed. -/
inductive ExactSparseStreamError (S : Type) where
  | cancelled
  | readerFailure (message : String)
  | certificateViolation (point : ℕ) (score upperBound : S)
  deriving DecidableEq, Repr

/-- A posting iterator with the weight of its dimension in the query. -/
structure WeightedPosting (T S : Type) where
  iterator : T
  queryWeight : S

/-- An id range that has not been scored, with a bound on its scores. -/
structure PendingBatch (S : Type) where
  start : ℕ
  /-- The last id of the range. -/
  last : ℕ
  upperBound : S
  deriving DecidableEq, Repr

/-- The best point of a scored range that has not been returned. -/
structure PendingPoint (S : Type) where
  point : ScoredPointOffset S
  batchIndex : ℕ
  deriving DecidableEq, Repr

section Orders

variable {S : Type} [LinearOrder S]

/-- The heap order of ranges. -/
def PendingBatch.cmp (self other : PendingBatch S) : Ordering :=
  (compare self.upperBound other.upperBound).then (compare other.start self.start)

/-- The heap order of the points of a scored range. -/
def PendingBlockPoint.cmp (self other : ScoredPointOffset S) : Ordering :=
  (compare self.score other.score).then (compare other.idx self.idx)

/-- The heap order of pending points. -/
def PendingPoint.cmp (self other : PendingPoint S) : Ordering :=
  (compare self.point.score other.point.score).then (compare other.point.idx self.point.idx)

end Orders

section Kernel

variable {I T S : Type} [PostingListIter T S] [CommRing S] [LinearOrder S]

/-- Adds the contributions of one posting list to the scores of a range. -/
def scorePosting (start last : ℕ) (posting : WeightedPosting T S) (scores : List S) :
    List S × WeightedPosting T S :=
  let iterator := (PostingListIter.skipTo start posting.iterator).2
  let (scores, iterator) := PostingListIter.forEachTillId last
    (fun scores id weight => scores.modify (id - start) (· + weight * posting.queryWeight))
    scores iterator
  (scores, { posting with iterator })

/-- Adds the contributions of all posting lists. -/
def scorePostings (start last : ℕ) :
    List (WeightedPosting T S) → List S → List S × List (WeightedPosting T S)
  | [], scores => (scores, [])
  | posting :: postings, scores =>
    let (scores, posting) := scorePosting start last posting scores
    let (scores, postings) := scorePostings start last postings scores
    (scores, posting :: postings)

variable (postings : List (WeightedPosting T S))

/-- `score_posting_batch`: the scores of an inclusive id range. -/
def scorePostingBatch (start last : ℕ) : List S × List (WeightedPosting T S) :=
  scorePostings start last postings (replicate (last - start + 1) 0)

/-- The posting lists of the given dimensions that are not empty. -/
def openTerms [InvertedIndex I T] (index : I) :
    List (ℕ × S) → Except UniversalIoError (List (WeightedPosting T S))
  | [] => .ok []
  | (id, queryWeight) :: terms =>
    match InvertedIndex.get index id with
    | .error error => .error error
    | .ok iterator =>
      match openTerms index terms with
      | .error error => .error error
      | .ok postings =>
        if (PostingListIter.lastId iterator).isSome then .ok (⟨iterator, queryWeight⟩ :: postings)
        else .ok postings

/-- `open_postings`. -/
def openPostings [InvertedIndex I T] (index : I) (query : RemappedSparseVector S) :
    Except UniversalIoError (List (WeightedPosting T S)) :=
  openTerms index query.terms

/-- Keeps the non-zero scores of a range, after checking them against its bound. -/
def collectScoredPoints (upperBound : S) :
    ℕ → List S → (ℕ → Bool) →
      Except (ExactSparseStreamError S) (List (ScoredPointOffset S)) × (ℕ → Bool)
  | _, [], stopped => (.ok [], stopped)
  | id, score :: scores, stopped =>
    let later := fun read => stopped (read + 1)
    if stopped 0 then (.error .cancelled, later)
    else if score = 0 then collectScoredPoints upperBound (id + 1) scores later
    else if score > upperBound then (.error (.certificateViolation id score upperBound), later)
    else
      match collectScoredPoints upperBound (id + 1) scores later with
      | (.error error, stopped) => (.error error, stopped)
      | (.ok points, stopped) => (.ok (⟨id, score⟩ :: points), stopped)

/-- The least first id and the greatest last id of the posting lists. -/
def idBounds : Option (ℕ × ℕ) :=
  match (postings.filterMap fun posting =>
      (PostingListIter.peek posting.iterator).1.map fun e => e.recordId).min?,
    (postings.filterMap fun posting => PostingListIter.lastId posting.iterator).max? with
  | some minId, some maxId => some (minId, maxId)
  | _, _ => none

/-- The bound of a range that ends with `last`, for iterators at its start. -/
def rangeUpperBound (last : ℕ) (postings : List (WeightedPosting T S)) : S :=
  postings.foldl (fun upperBound posting =>
    match PostingListIter.maxWeightTillId last posting.iterator with
    | some maxWeight => upperBound + maxWeight * posting.queryWeight
    | none => upperBound) 0

/-- The ranges from `start` on that have a positive bound. The source adds offsets with
saturation, which is not visible under the minimum with `maxId`. -/
def planLoop (batchWidth maxId : ℕ) (postings : List (WeightedPosting T S)) (start : ℕ) :
    List (PendingBatch S) :=
  let last := min (start + (batchWidth - 1)) maxId
  let upperBound := rangeUpperBound last postings
  let rest :=
    if last = maxId then []
    else
      planLoop batchWidth maxId
        (postings.map fun posting =>
          { posting with iterator := PostingListIter.skipTillId last posting.iterator })
        (last + 1)
  if upperBound > 0 then ⟨start, last, upperBound⟩ :: rest else rest
termination_by maxId + 1 - start
decreasing_by omega

/-- `plan_batches`, for posting lists without range maxima. No result is the panic of a
batch size that does not fit an offset. -/
def planBatches (batchSize : ℕ) : Option (List (PendingBatch S)) :=
  if batchSize > pointOffsetMax then none
  else
    match idBounds postings with
    | none => some []
    | some (minId, maxId) =>
      -- Looking for the first ids moves the cursors' caches.
      some (planLoop batchSize maxId (postings.map fun posting =>
          { posting with iterator := (PostingListIter.peek posting.iterator).2 }) minId)

/-- Sums the weighted range maxima of all posting lists; the buffer of the term maxima is
used again for each list. -/
def nativeBounds (minId batchWidth : ℕ) :
    List (WeightedPosting T S) → List S → List S → Option (List S)
  | [], bounds, _ => some bounds
  | posting :: postings, bounds, termMaxima =>
    match PostingListIter.fillBlockMaxRanges minId batchWidth termMaxima posting.iterator with
    | (false, _) => none
    | (true, termMaxima) =>
      nativeBounds minId batchWidth postings
        (bounds.zipWith (fun bound maximum => bound + maximum * posting.queryWeight) termMaxima)
        termMaxima

/-- `plan_batches_native`, from the range maxima of the posting lists. The number of ranges is an
offset, and the sum wraps around. -/
def planBatchesNative (batchWidth : ℕ) : Option (List (PendingBatch S)) :=
  if batchWidth > pointOffsetMax then none
  else
    match idBounds postings with
    | none => some []
    | some (minId, maxId) =>
      let rangeCount := ((maxId - minId) / batchWidth + 1) % (pointOffsetMax + 1)
      (nativeBounds minId batchWidth postings (replicate rangeCount 0)
        (replicate rangeCount 0)).map fun bounds =>
        bounds.zipIdx.filterMap fun (upperBound, range) =>
          if upperBound = 0 then none
          else
            let start := minId + range * batchWidth
            some ⟨start, min (start + (batchWidth - 1)) maxId, upperBound⟩

end Kernel

/-- What is left of scored ranges, and the query they are scored for. -/
structure PostingBlockMaxKernel (S : Type) where
  query : RemappedSparseVector S
  /-- One heap for each range that had points. -/
  activeBatches : List (List (ScoredPointOffset S))
  /-- Score buffer. -/
  scores : List S

/-- Complete state of one exact sparse ranking. -/
structure PostingBlockMaxState (S : Type) where
  kernel : PostingBlockMaxKernel S
  pendingBatches : List (PendingBatch S)
  pendingPoints : List (PendingPoint S)
  terminalError : Option (ExactSparseStreamError S)

section Points

variable {S : Type} [LinearOrder S]

/-- Takes the best remaining point of a scored range. -/
def PostingBlockMaxKernel.popActive (kernel : PostingBlockMaxKernel S) (batchIndex : ℕ) :
    Option (ScoredPointOffset S) × PostingBlockMaxKernel S :=
  match kernel.activeBatches[batchIndex]?.bind (popMax PendingBlockPoint.cmp) with
  | none => (none, kernel)
  | some (point, rest) =>
    (some point, { kernel with activeBatches := kernel.activeBatches.set batchIndex rest })

/-- A scored range has no point left, or gives its best one. -/
theorem PostingBlockMaxKernel.popActive_cases (kernel : PostingBlockMaxKernel S) (batchIndex : ℕ) :
    (kernel.popActive batchIndex = (none, kernel) ∧
      ∀ heap, kernel.activeBatches[batchIndex]? = some heap → heap = []) ∨
    ∃ before heap after point rest, kernel.activeBatches = before ++ heap :: after ∧
      before.length = batchIndex ∧ popMax PendingBlockPoint.cmp heap = some (point, rest) ∧
      kernel.popActive batchIndex =
        (some point, { kernel with activeBatches := before ++ rest :: after }) := by
  unfold popActive
  cases hactive : kernel.activeBatches[batchIndex]? with
  | none => exact Or.inl ⟨rfl, by simp⟩
  | some heap =>
    cases hpop : popMax PendingBlockPoint.cmp heap with
    | none =>
      refine Or.inl ⟨by simp [hpop], ?_⟩
      rintro _ ⟨⟩
      exact popMax_eq_none.mp hpop
    | some popped =>
      obtain ⟨point, rest⟩ := popped
      obtain ⟨before, after, hsplit, hlength⟩ := exists_split_of_getElem? hactive
      refine Or.inr ⟨before, heap, after, point, rest, hsplit, hlength, hpop, ?_⟩
      subst hlength
      simp [hpop, hsplit]

namespace PostingBlockMaxState

/-- No range can hold a point that goes before the best pending point. -/
def nextPointIsFixed (state : PostingBlockMaxState S) : Bool :=
  match peekMax PendingPoint.cmp state.pendingPoints with
  | none => false
  | some point =>
    match peekMax PendingBatch.cmp state.pendingBatches with
    | none => true
    | some batch =>
      point.point.score > batch.upperBound ||
        (point.point.score = batch.upperBound && point.point.idx < batch.start)

/-- Returns the best pending point and puts the next point of its range in its place. -/
def popNextPoint (state : PostingBlockMaxState S) :
    Option (ScoredPointOffset S) × PostingBlockMaxState S :=
  match popMax PendingPoint.cmp state.pendingPoints with
  | none => (none, state)
  | some (pending, rest) =>
    match state.kernel.popActive pending.batchIndex with
    | (none, kernel) => (some pending.point, { state with kernel, pendingPoints := rest })
    | (some point, kernel) =>
      (some pending.point,
        { state with kernel, pendingPoints := ⟨point, pending.batchIndex⟩ :: rest })

/-- Returns up to `count` pending points. -/
def drainPoints :
    ℕ → PostingBlockMaxState S → List (ScoredPointOffset S) × PostingBlockMaxState S
  | 0, state => ([], state)
  | count + 1, state =>
    match state.popNextPoint with
    | (none, state) => ([], state)
    | (some point, state) =>
      let (points, state) := drainPoints count state
      (point :: points, state)

/-- The number of points that have been scored and not returned. -/
def buffered (state : PostingBlockMaxState S) : ℕ :=
  state.pendingPoints.length + (state.kernel.activeBatches.map length).sum

/-- Returning a point takes one of the scored points. -/
theorem popNextPoint_buffered {state next : PostingBlockMaxState S} {point : ScoredPointOffset S}
    (h : state.popNextPoint = (some point, next)) :
    next.pendingBatches = state.pendingBatches ∧ next.buffered + 1 = state.buffered := by
  unfold popNextPoint at h
  split at h
  · cases h
  rename_i pending rest hpop
  have hlength := (popMax_perm hpop).length_eq
  rw [length_cons] at hlength
  rcases state.kernel.popActive_cases pending.batchIndex with
    ⟨hactive, _⟩ | ⟨before, heap, after, next, left, hsplit, _, hheap, hactive⟩
  · rw [hactive] at h
    cases h
    refine ⟨rfl, ?_⟩
    simp only [buffered]
    omega
  rw [hactive] at h
  cases h
  have hheap := (popMax_perm hheap).length_eq
  simp only [length_cons] at hheap
  refine ⟨rfl, ?_⟩
  simp only [buffered, hsplit, map_append, map_cons, sum_append, sum_cons, length_cons]
  omega

end PostingBlockMaxState

end Points

section State

variable {I T S : Type} [InvertedIndex I T] [PostingListIter T S] [CommRing S] [LinearOrder S]

/-- Scores a range and keeps all its points but the best, which is returned. -/
def PostingBlockMaxKernel.expand (kernel : PostingBlockMaxKernel S) (index : I)
    (batch : PendingBatch S) (stopped : ℕ → Bool) :
    Except (ExactSparseStreamError S) (Option (PendingPoint S)) × PostingBlockMaxKernel S ×
      (ℕ → Bool) :=
  let later := fun read => stopped (read + 1)
  if stopped 0 then (.error .cancelled, kernel, later)
  else
    match openPostings index kernel.query with
    | .error error => (.error (.readerFailure error.description), kernel, later)
    | .ok postings =>
      let scores := (scorePostingBatch postings batch.start batch.last).1
      let kernel := { kernel with scores }
      match collectScoredPoints batch.upperBound batch.start scores later with
      | (.error error, stopped) => (.error error, kernel, stopped)
      | (.ok points, stopped) =>
        match popMax PendingBlockPoint.cmp points with
        | none => (.ok none, kernel, stopped)
        | some (point, rest) =>
          (.ok (some ⟨point, kernel.activeBatches.length⟩),
            { kernel with activeBatches := kernel.activeBatches ++ [rest] }, stopped)

namespace PostingBlockMaxState

/-- A state before any range is scored. No result is the panic of a failed assertion. -/
def new (index : I) (query : RemappedSparseVector S) (batchSize : ℕ) :
    Option (Except UniversalIoError (PostingBlockMaxState S)) :=
  if batchSize = 0 ∨ query.indices.length ≠ query.values.length ∨ query.isSorted = false ∨
      (query.values.all fun weight => weight ≥ 0) = false then none
  else
    match openPostings index query with
    | .error error => some (.error error)
    | .ok postings =>
      ((planBatchesNative postings batchSize).or (planBatches postings batchSize)).map
        fun batches => .ok
          { kernel := { query, activeBatches := [], scores := [] }
            pendingBatches := batches
            pendingPoints := []
            terminalError := none }

/-- Notes a failure and drops all pending work. -/
def fail (state : PostingBlockMaxState S) (error : ExactSparseStreamError S) :
    PostingBlockMaxState S where
  kernel := { state.kernel with activeBatches := [], scores := [] }
  pendingBatches := []
  pendingPoints := []
  terminalError := some error

/-- The loop of `next_batch_with`: returns fixed points, and scores the most promising range
while it has none. -/
def nextBatchLoop (index : I) (maxResults : ℕ) (points : List (ScoredPointOffset S))
    (state : PostingBlockMaxState S) (stopped : ℕ → Bool) :
    Except (ExactSparseStreamError S) (List (ScoredPointOffset S)) × PostingBlockMaxState S :=
  if state.nextPointIsFixed then
    match _hpop : state.popNextPoint with
    | (none, next) => (.ok points, next)
    | (some point, next) =>
      let points := points ++ [point]
      if points.length = maxResults then (.ok points, next)
      else nextBatchLoop index maxResults points next stopped
  else if state.pendingBatches.isEmpty then
    let (rest, next) := state.drainPoints (maxResults - points.length)
    (.ok (points ++ rest), next)
  else if !points.isEmpty then (.ok points, state)
  else
    match _hbatch : popMax PendingBatch.cmp state.pendingBatches with
    | none => (.ok points, state)
    | some (batch, pendingBatches) =>
      match state.kernel.expand index batch stopped with
      | (.ok (some point), kernel, stopped) =>
        nextBatchLoop index maxResults points
          { state with kernel, pendingBatches, pendingPoints := point :: state.pendingPoints }
          stopped
      | (.ok none, kernel, stopped) =>
        nextBatchLoop index maxResults points { state with kernel, pendingBatches } stopped
      | (.error error, kernel, _) =>
        (.error error, fail { state with kernel, pendingBatches } error)
termination_by (state.pendingBatches.length, state.buffered)
decreasing_by
  · obtain ⟨hbatches, hbuffered⟩ := popNextPoint_buffered _hpop
    rw [hbatches]
    exact Prod.Lex.right _ (by omega)
  all_goals
    have hlength := (popMax_perm _hbatch).length_eq
    exact Prod.Lex.left _ _ (by simp only [length_cons] at hlength; omega)

/-- Returns up to `maxResults` points in exact order. No result is the panic of a failed
assertion. -/
def nextBatchWith (state : PostingBlockMaxState S) (index : I) (maxResults : ℕ)
    (stopped : ℕ → Bool) :
    Option (Except (ExactSparseStreamError S) (List (ScoredPointOffset S)) ×
      PostingBlockMaxState S) :=
  if maxResults = 0 then none
  else
    match state.terminalError with
    | some error => some (.error error, state)
    | none =>
      if stopped 0 then
        some (.error .cancelled, { state with terminalError := some .cancelled })
      else
        some (nextBatchLoop index maxResults [] state fun read => stopped (read + 1))

end PostingBlockMaxState

end State

end Stratumind.BlockMax
