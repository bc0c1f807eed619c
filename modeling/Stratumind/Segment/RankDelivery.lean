import Stratumind.Fusion.Types
import Stratumind.Lib.Loop
import Stratumind.Sparse.PostingList

/-!
# Delivery of ranked points from a segment

A segment pulls offsets from its rank state and hands them out under their external ids. Points
of equal score are collected and sorted by external id before any of them is returned; what is
left of a group, the offsets that have been pulled and the point that ended a group stay in the
state. The rank state is reached through its `next_batch`. A call that panics has no outcome.
-/

namespace Stratumind.SegmentRank

open Lib

variable {R C Id S : Type} [LinearOrder Id] [ToString Id] [Score S]

/-- What the read view of a segment says about its offsets. -/
structure SegmentReadView (Id : Type) where
  externalId : ℕ → Option Id
  internalVersion : ℕ → Option ℕ
  deletedVectors : List Bool
  deletedPoints : List Bool
  deferredFrom : Option ℕ
  filterContext : Option (ℕ → Bool)

/-- `check_deleted_condition`. -/
def checkDeletedCondition (point : ℕ) (vecDeleted pointDeleted : List Bool) : Bool :=
  !(vecDeleted[point]?.getD false) && !(pointDeleted[point]?.getD true)

variable (view : SegmentReadView Id)

/-- An offset that is neither deleted nor deferred and passes the filter. -/
def SegmentReadView.visible (idx : ℕ) : Bool :=
  !(!checkDeletedCondition idx view.deletedVectors view.deletedPoints ||
    view.deferredFrom.any (fun deferred => decide (deferred ≤ idx)) ||
    view.filterContext.any fun check => !check idx)

/-- The point of an offset, as the closures `pull_visible` build it. -/
def SegmentReadView.scoredPoint (kind : String)
    (point : ScoredPointOffset S) : OperationResult (ScoredPoint Id S) :=
  match view.externalId point.idx with
  | none => .error (.inconsistentStorage
      ("exact " ++ kind ++ " rank state returned unmapped internal point " ++ toString point.idx))
  | some id =>
    match view.internalVersion point.idx with
    | none => .error (.inconsistentStorage
        ("exact " ++ kind ++ " rank state returned unversioned point " ++ toString id))
    | some version => .ok ⟨id, version, point.score⟩

/-- `DenseSegmentRankState`, and `SparseRankState` without its batch size. -/
structure SegmentRankState (R Id S : Type) where
  rank : R
  internalBuffer : List (ScoredPointOffset S)
  externalBuffer : List (ScoredPoint Id S)
  lookahead : Option (ScoredPoint Id S)

/-- `SparseRankState`. -/
structure SparseRankState (R Id S : Type) extends SegmentRankState R Id S where
  postingBatchSize : ℕ

/-- A state from which nothing has been pulled. -/
def SegmentRankState.fresh (rank : R) : SegmentRankState R Id S := ⟨rank, [], [], none⟩

/-- `next_batch` of a rank state. -/
abbrev NextBatch (R S : Type) :=
  ℕ → R → Option (OperationResult (List (ScoredPointOffset S)) × R)

/-! ### Pulling -/

variable (nextBatch : NextBatch R S)

/-- Refills an empty buffer and pops its first offset. -/
def SegmentRankState.popInternal (limit : ℕ) (state : SegmentRankState R Id S) :
    Option (OperationResult (Option (ScoredPointOffset S)) × SegmentRankState R Id S) :=
  match state.internalBuffer with
  | point :: rest => some (.ok (some point), { state with internalBuffer := rest })
  | [] =>
    match nextBatch limit state.rank with
    | none => none
    | some (.error error, rank) => some (.error error, { state with rank })
    | some (.ok [], rank) => some (.ok none, { state with rank })
    | some (.ok (point :: rest), rank) =>
      some (.ok (some point), { state with rank, internalBuffer := rest })

/-- `pull_visible` of the Dense state, whose eligible points are visible. -/
def pullDense (limit : ℕ) (current : SegmentRankState R Id S × C) :
    Option (OperationResult (Option (ScoredPoint Id S)) × SegmentRankState R Id S × C) :=
  (current.1.popInternal nextBatch limit).map fun (popped, state) =>
    match popped with
    | .error error => (.error error, state, current.2)
    | .ok none => (.ok none, state, current.2)
    | .ok (some point) =>
      match view.scoredPoint "Dense" point with
      | .error error => (.error error, state, current.2)
      | .ok scored => (.ok (some scored), state, current.2)

/-- One turn of `pull_visible` of the Sparse state. The flag is read once in each turn. -/
def pullSparseTurn (limit : ℕ) (current : SegmentRankState R Id S × (ℕ → Bool)) :
    Option (Turn (SegmentRankState R Id S × (ℕ → Bool))
      (OperationResult (Option (ScoredPoint Id S)) × SegmentRankState R Id S × (ℕ → Bool))) :=
  let (state, stopped) := current
  let later := fun read => stopped (read + 1)
  if stopped 0 then
    some (.stop (.error (.cancelled "Operation is stopped externally"), state, later))
  else
    match state.popInternal nextBatch limit with
    | none => none
    | some (.error error, state) => some (.stop (.error error, state, later))
    | some (.ok none, state) => some (.stop (.ok none, state, later))
    | some (.ok (some point), state) =>
      if view.visible point.idx = false then some (.again (state, later))
      else
        match view.scoredPoint "Sparse" point with
        | .error error => some (.stop (.error error, state, later))
        | .ok scored => some (.stop (.ok (some scored), state, later))

/-- `pull_visible` of the Sparse state. -/
def pullSparse (limit fuel : ℕ) (current : SegmentRankState R Id S × (ℕ → Bool)) :
    Option (OperationResult (Option (ScoredPoint Id S)) × SegmentRankState R Id S × (ℕ → Bool)) :=
  runLoop (pullSparseTurn view nextBatch limit) fuel current

/-! ### Groups of equal score -/

/-- A closure that pulls the next visible point. -/
abbrev Pull (R C Id S : Type) := SegmentRankState R Id S × C →
  Option (OperationResult (Option (ScoredPoint Id S)) × SegmentRankState R Id S × C)

/-- One turn of the loop that collects the points of one score. -/
def groupTurn (pull : Pull R C Id S) (score : S)
    (current : List (ScoredPoint Id S) × SegmentRankState R Id S × C) :
    Option (Turn (List (ScoredPoint Id S) × SegmentRankState R Id S × C)
      (OperationResult (List (ScoredPoint Id S)) × SegmentRankState R Id S × C)) :=
  match pull current.2 with
  | none => none
  | some (.error error, state, context) => some (.stop (.error error, state, context))
  | some (.ok none, state, context) => some (.stop (.ok current.1, state, context))
  | some (.ok (some point), state, context) =>
    if point.score = score then some (.again (current.1 ++ [point], state, context))
    else some (.stop (.ok current.1, { state with lookahead := some point }, context))

/-- The first point of the next group: the one that ended the last group, or the next one. -/
def takeFirst (pull : Pull R C Id S) (current : SegmentRankState R Id S × C) :
    Option (OperationResult (Option (ScoredPoint Id S)) × SegmentRankState R Id S × C) :=
  match current.1.lookahead with
  | some point => some (.ok (some point), { current.1 with lookahead := none }, current.2)
  | none => pull current

/-- Collects the next group if the buffer is empty. The result says whether there is anything to
return. -/
def refillExternal (pull : Pull R C Id S) (fuel : ℕ) (current : SegmentRankState R Id S × C) :
    Option (OperationResult Bool × SegmentRankState R Id S × C) :=
  if current.1.externalBuffer.isEmpty = false then some (.ok true, current)
  else
    match takeFirst pull current with
    | none => none
    | some (.error error, current) => some (.error error, current)
    | some (.ok none, current) => some (.ok false, current)
    | some (.ok (some first), current) =>
      match runLoop (groupTurn pull first.score) fuel ([first], current) with
      | none => none
      | some (.error error, current) => some (.error error, current)
      | some (.ok group, state, context) =>
        let sorted := sortBy (fun left right => compare left.id right.id) group
        some (.ok true, { state with externalBuffer := sorted }, context)

/-- One turn of the loop that fills the output. -/
def deliverTurn (pull : Pull R C Id S) (fuel maxResults : ℕ)
    (current : List (ScoredPoint Id S) × SegmentRankState R Id S × C) :
    Option (Turn (List (ScoredPoint Id S) × SegmentRankState R Id S × C)
      (OperationResult (List (ScoredPoint Id S)) × SegmentRankState R Id S × C)) :=
  let (output, current) := current
  if maxResults ≤ output.length then some (.stop (.ok output, current))
  else
    match refillExternal pull fuel current with
    | none => none
    | some (.error error, current) => some (.stop (.error error, current))
    | some (.ok false, current) => some (.stop (.ok output, current))
    | some (.ok true, state, context) =>
      let count := min (maxResults - output.length) state.externalBuffer.length
      some (.again (output ++ state.externalBuffer.take count,
        { state with externalBuffer := state.externalBuffer.drop count }, context))

/-- The part that both kinds of state share. -/
def deliver (kind : String) (pull : Pull R C Id S) (fuel maxResults : ℕ)
    (current : SegmentRankState R Id S × C) :
    Option (OperationResult (List (ScoredPoint Id S)) × SegmentRankState R Id S × C) :=
  if maxResults = 0 then
    some (.error (.validationError ("exact " ++ kind ++ " delivery batch must be positive")),
      current)
  else runLoop (deliverTurn pull fuel maxResults) fuel ([], current)

/-- `advance_exact_dense_segment_state`. -/
def advanceExactDenseSegmentState (fuel maxResults : ℕ) (state : SegmentRankState R Id S) :
    Option (OperationResult (List (ScoredPoint Id S)) × SegmentRankState R Id S) :=
  (deliver "Dense" (pullDense view nextBatch (max maxResults 16)) fuel maxResults
    (state, ())).map fun (points, state, _) => (points, state)

/-- `advance_exact_sparse_rank_state`. -/
def advanceExactSparseRankState (fuel maxResults : ℕ) (state : SparseRankState R Id S)
    (stopped : ℕ → Bool) :
    Option (OperationResult (List (ScoredPoint Id S)) × SparseRankState R Id S × (ℕ → Bool)) :=
  (deliver "Sparse" (pullSparse view nextBatch state.postingBatchSize fuel) fuel maxResults
    (state.toSegmentRankState, stopped)).map fun (points, next, stopped) =>
      (points, { state with toSegmentRankState := next }, stopped)

end Stratumind.SegmentRank
