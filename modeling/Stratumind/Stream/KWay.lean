import Stratumind.Fusion.Types
import Stratumind.Lib.MaxHeap

/-!
# The k-way merge of exact score streams

The fail-closed merge of `segment/src/index/exact_rank_stream.rs` over `m` sources.
Sources are closures over a world `V`; a call on the merge takes the merge and the
world and returns both together with its result.
-/

namespace Stratumind

open Lib Function

/-- An identity with its score in one channel. -/
structure ExactScoredIdentity (Id S : Type) where
  id : Id
  score : S
  deriving DecidableEq, Repr

/-- Exact, locally ordered scored results for one channel, pulled point by point. -/
abbrev ExactScoreStream (V Id S : Type) :=
  V → Option (OperationResult (ExactScoredIdentity Id S)) × V

/-- A batch of exact, locally ordered scored results. -/
structure ExactScoreBatch (Id S : Type) where
  points : List (ExactScoredIdentity Id S)
  exhausted : Bool
  deriving DecidableEq, Repr

/-- Exact, locally ordered scored results for one channel, pulled in batches. -/
abbrev ExactScoreBatchStream (V Id S : Type) :=
  ℕ → V → OperationResult (ExactScoreBatch Id S) × V

/-- One source of a merge. A batched source keeps what it has not handed out. -/
inductive ExactScoreSource (V Id S : Type) where
  | point (stream : ExactScoreStream V Id S)
  | batch (pull : ExactScoreBatchStream V Id S) (buffer : List (ExactScoredIdentity Id S))
      (exhausted : Bool)

/-- What a merge reports about its sources. -/
structure ExactScoreMergeTelemetry (m : ℕ) where
  sourcePulls : Fin m → ℕ
  sourceExhausted : Fin m → Bool
  pointsEmitted : ℕ

/-- The local head of a source. -/
structure PendingExactScore (Id S : Type) (m : ℕ) where
  source : Fin m
  point : ExactScoredIdentity Id S

/-- Lazily restores one global channel order from exact local score streams. -/
structure KWayExactScoreStream (V Id S : Type) (m : ℕ) where
  sources : Fin m → ExactScoreSource V Id S
  sourceRefillBatchSize : ℕ
  pending : List (PendingExactScore Id S m)
  previous : Fin m → Option (ExactScoredIdentity Id S)
  refillSource : Option (Fin m)
  seen : Finset Id
  telemetry : ExactScoreMergeTelemetry m
  terminalError : Option OperationError
  errorDelivered : Bool

variable {V Id S : Type} {m : ℕ}

/-- The descending score and ascending identity order. -/
def exactScoreOrder [LinearOrder Id] [LinearOrder S] (left right : ExactScoredIdentity Id S) :
    Ordering :=
  (compare right.score left.score).then (compare left.id right.id)

/-- The heap order of local heads: the greatest head is the next to be returned. -/
def PendingExactScore.cmp [LinearOrder Id] [LinearOrder S] (self other : PendingExactScore Id S m) :
    Ordering :=
  ((compare self.point.score other.point.score).then (compare other.point.id self.point.id)).then
    (compare other.source self.source)

namespace KWayExactScoreStream

variable [LinearOrder Id] [ToString Id] [Score S]

/-- Checks a pulled batch against the previous point, the points already returned and
itself. -/
def validateBatch (source : Fin m) (seen : Finset Id) :
    Option (ExactScoredIdentity Id S) → Finset Id → List (ExactScoredIdentity Id S) →
      OperationResult Unit
  | _, _, [] => .ok ()
  | previous, batchIds, point :: points =>
    let id := point.id
    if !Score.isFinite point.score then
      .error (.validationError s!"exact score source {source} produced a non-finite score")
    else if previous.any fun previous => exactScoreOrder previous point = .gt then
      .error (.validationError
        s!"exact score source {source} violated descending score/identity order inside a batch")
    else if id ∈ seen ∨ id ∈ batchIds then
      .error (.validationError
        s!"exact score source {source} repeated visible identity {id} inside a batch")
    else validateBatch source seen (some point) (insert id batchIds) points

variable (stream : KWayExactScoreStream V Id S m)

/-- Checks the shape and the points of a pulled batch. -/
def checkBatch (source : Fin m) (batch : ExactScoreBatch Id S) : OperationResult Unit :=
  let got := batch.points.length
  let size := stream.sourceRefillBatchSize
  if got > size then
    .error (.validationError
      s!"exact score source {source} returned {got} points for a maximum refill size of {size}")
  else if batch.points.isEmpty && !batch.exhausted then
    .error (.validationError s!"exact score source {source} returned an empty non-exhausted batch")
  else validateBatch source stream.seen (stream.previous source) ∅ batch.points

/-- Stores what is left of a batched source's buffer after its first point is removed. -/
def popBuffer (source : Fin m) (pull : ExactScoreBatchStream V Id S)
    (buffer : List (ExactScoredIdentity Id S)) (exhausted : Bool) : KWayExactScoreStream V Id S m :=
  { stream with
    sources := update stream.sources source (.batch pull buffer.tail exhausted) }

/-- Takes the next point of a source, pulling a batch when its buffer is empty. -/
def takePoint (source : Fin m) (v : V) :
    OperationResult (Option (ExactScoredIdentity Id S)) × KWayExactScoreStream V Id S m × V :=
  match stream.sources source with
  | .point next =>
    match next v with
    | (some (.ok point), v) => (.ok (some point), stream, v)
    | (some (.error error), v) => (.error error, stream, v)
    | (none, v) => (.ok none, stream, v)
  | .batch pull buffer exhausted =>
    if buffer.isEmpty && !exhausted then
      match pull stream.sourceRefillBatchSize v with
      | (.error error, v) => (.error error, stream, v)
      | (.ok batch, v) =>
        match stream.checkBatch source batch with
        | .error error => (.error error, stream, v)
        | .ok () =>
          (.ok batch.points.head?, stream.popBuffer source pull batch.points batch.exhausted, v)
    else (.ok buffer.head?, stream.popBuffer source pull buffer exhausted, v)

/-- Notes that a source has ended. -/
def markExhausted (source : Fin m) : KWayExactScoreStream V Id S m :=
  { stream with telemetry := { stream.telemetry with
    sourceExhausted := update stream.telemetry.sourceExhausted source true } }

/-- Puts a point of a source on the heap. -/
def pushHead (source : Fin m) (point : ExactScoredIdentity Id S) : KWayExactScoreStream V Id S m :=
  { stream with
    telemetry := { stream.telemetry with
      sourcePulls := update stream.telemetry.sourcePulls source
        (stream.telemetry.sourcePulls source + 1) }
    previous := update stream.previous source (some point)
    pending := ⟨source, point⟩ :: stream.pending }

/-- Puts the next point of a source on the heap, or notes that the source has ended. -/
def refill (source : Fin m) (v : V) : OperationResult Unit × KWayExactScoreStream V Id S m × V :=
  if stream.telemetry.sourceExhausted source then (.ok (), stream, v)
  else
    match stream.takePoint source v with
    | (.error error, stream, v) => (.error error, stream, v)
    | (.ok none, stream, v) => (.ok (), stream.markExhausted source, v)
    | (.ok (some point), stream, v) =>
      if !Score.isFinite point.score then
        (.error (.validationError s!"exact score source {source} produced a non-finite score"),
          stream, v)
      else if (stream.previous source).any fun previous => exactScoreOrder previous point = .gt then
        (.error (.validationError
          s!"exact score source {source} violated descending score/identity order"), stream, v)
      else (.ok (), stream.pushHead source point, v)

/-- Primes the given sources one after the other. -/
def prime : List (Fin m) → KWayExactScoreStream V Id S m → V →
    OperationResult (KWayExactScoreStream V Id S m) × V
  | [], stream, v => (.ok stream, v)
  | source :: sources, stream, v =>
    match stream.refill source v with
    | (.error error, _, v) => (.error error, v)
    | (.ok (), stream, v) => prime sources stream v

/-- A merge before any source is primed. -/
def unprimed (sources : Fin m → ExactScoreSource V Id S) (sourceRefillBatchSize : ℕ) :
    KWayExactScoreStream V Id S m where
  sources
  sourceRefillBatchSize
  pending := []
  previous := fun _ => none
  refillSource := none
  seen := ∅
  telemetry := ⟨fun _ => 0, fun _ => false, 0⟩
  terminalError := none
  errorDelivered := false

/-- A merge with every source primed. -/
def newWithSources (sources : Fin m → ExactScoreSource V Id S) (sourceRefillBatchSize : ℕ)
    (v : V) : OperationResult (KWayExactScoreStream V Id S m) × V :=
  if m = 0 then
    (.error (.validationError "exact score merge requires at least one source"), v)
  else if sourceRefillBatchSize = 0 then
    (.error (.validationError "exact score merge source refill batch size must be positive"), v)
  else prime (List.finRange m) (unprimed sources sourceRefillBatchSize) v

/-- A merge of point-wise streams. -/
def new (sources : Fin m → ExactScoreStream V Id S) (v : V) :
    OperationResult (KWayExactScoreStream V Id S m) × V :=
  newWithSources (fun source => .point (sources source)) 1 v

/-- A merge of batched streams. -/
def newBatched (sources : Fin m → ExactScoreBatchStream V Id S) (sourceRefillBatchSize : ℕ)
    (v : V) : OperationResult (KWayExactScoreStream V Id S m) × V :=
  newWithSources (fun source => .batch (sources source) [] false) sourceRefillBatchSize v

/-- Failure is sticky. -/
def fail (error : OperationError) : KWayExactScoreStream V Id S m :=
  { stream with terminalError := some error, pending := [], refillSource := none }

/-- Refills the source of the last returned point, if any. -/
def refillLast (v : V) : OperationResult Unit × KWayExactScoreStream V Id S m × V :=
  match stream.refillSource with
  | some source => refill { stream with refillSource := none } source v
  | none => (.ok (), stream, v)

/-- Returns the greatest local head once the last returned point's source is refilled. -/
def nextInner (v : V) :
    OperationResult (Option (ExactScoredIdentity Id S)) × KWayExactScoreStream V Id S m × V :=
  match stream.refillLast v with
  | (.error error, stream, v) => (.error error, stream, v)
  | (.ok (), stream, v) =>
    match popMax PendingExactScore.cmp stream.pending with
    | none => (.ok none, stream, v)
    | some (pending, rest) =>
      let id := pending.point.id
      let popped := { stream with
        pending := rest
        refillSource := some pending.source
        seen := insert id stream.seen }
      if id ∈ stream.seen then
        (.error (.validationError
          s!"exact score merge observed duplicate visible identity {id}"), popped, v)
      else
        (.ok (some pending.point), { popped with
          telemetry := { stream.telemetry with
            pointsEmitted := stream.telemetry.pointsEmitted + 1 } }, v)

/-- Collects up to `count` points; the flag says that the merge ended first. -/
def collectRanks :
    ℕ → KWayExactScoreStream V Id S m → V →
      OperationResult (List Id × Bool) × KWayExactScoreStream V Id S m × V
  | 0, stream, v => (.ok ([], false), stream, v)
  | count + 1, stream, v =>
    match stream.nextInner v with
    | (.error error, stream, v) => (.error error, stream.fail error, v)
    | (.ok none, stream, v) => (.ok ([], true), stream, v)
    | (.ok (some point), stream, v) =>
      match collectRanks count stream v with
      | (.error error, stream, v) => (.error error, stream, v)
      | (.ok (ids, ended), stream, v) => (.ok (point.id :: ids, ended), stream, v)

/-- Pulls one contiguous channel-global exact-rank batch. -/
def nextRankBatch (maxResults : ℕ) (stream : KWayExactScoreStream V Id S m) (v : V) :
    OperationResult (ChannelRankBatch Id) × KWayExactScoreStream V Id S m × V :=
  if maxResults = 0 then
    (.error (.validationError "exact score merge batch size must be positive"), stream, v)
  else
    match stream.terminalError with
    | some error => (.error error, stream, v)
    | none =>
      match stream.collectRanks maxResults v with
      | (.error error, next, v) => (.error error, next, v)
      | (.ok (pointIds, exhausted), next, v) =>
        (.ok ⟨stream.telemetry.pointsEmitted, pointIds, exhausted⟩, next, v)

/-- `Iterator::next`. -/
def next (v : V) :
    Option (OperationResult (ExactScoredIdentity Id S)) × KWayExactScoreStream V Id S m × V :=
  match stream.terminalError with
  | some error =>
    if stream.errorDelivered then (none, stream, v)
    else (some (.error error), { stream with errorDelivered := true }, v)
  | none =>
    match stream.nextInner v with
    | (.ok (some point), stream, v) => (some (.ok point), stream, v)
    | (.ok none, stream, v) => (none, stream, v)
    | (.error error, stream, v) =>
      (some (.error error), { stream.fail error with errorDelivered := true }, v)

/-- The identity-only stream of the merge, over the world that holds the merge. -/
def intoRankStream : ExactRrfStream (KWayExactScoreStream V Id S m × V) Id :=
  fun w =>
    match w.1.next w.2 with
    | (none, w) => (none, w)
    | (some (.ok point), w) => (some (.ok point.id), w)
    | (some (.error error), w) => (some (.error error), w)

end KWayExactScoreStream

end Stratumind
