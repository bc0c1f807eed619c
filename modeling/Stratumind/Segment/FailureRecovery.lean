import Stratumind.Common.Types

/-!
# Recovery from failed operations

The wrappers of `segment_ops.rs` refuse operations that are newer than a failed one. They keep
one failure, which only a point operation clears. Against them stands the list of failures that
no successful retry has settled. The two agree in runs in which one failed point operation at a
time is retried.
-/

namespace Stratumind.FailureRecovery

/-- The id tracker, as far as the wrappers use it. -/
class IdTracker (C : Type) where
  internalVersion : C → ℕ → Option ℕ
  setInternalVersion : C → ℕ → ℕ → OperationResult Unit × C

/-- `SegmentFailedState`. -/
structure SegmentFailedState (Id : Type) where
  version : ℕ
  pointId : Option Id
  error : OperationError

/-- A segment. Its storages and its id tracker are the contents. -/
structure Segment (Id C : Type) where
  version : Option ℕ
  errorStatus : Option (SegmentFailedState Id)
  contents : C

/-- A wrapped operation with its number: on the segment, or on a point whose version is read at
an offset. -/
inductive Operation (Id C : Type) where
  | segment (opNum : ℕ) (operation : C → OperationResult Bool × C)
  | point (opNum : ℕ) (pointId : Id) (opPointOffset : Option ℕ)
      (operation : C → OperationResult (Bool × Option ℕ) × C)

/-- `get_service_error`. -/
def getServiceError {α : Type} : OperationResult α → Option OperationError
  | .error (.serviceError description) => some (.serviceError description)
  | _ => none

variable {Id C : Type}

namespace Operation

/-- The number of the operation. -/
def opNum : Operation Id C → ℕ
  | segment opNum _ => opNum
  | point opNum _ _ _ => opNum

/-- The point that the operation targets, if it is not the whole segment. -/
def target : Operation Id C → Option Id
  | segment _ _ => none
  | point _ pointId _ _ => some pointId

variable [IdTracker C]

/-- Whether a newer operation has been applied to the target. -/
def isStale (state : Segment Id C) : Operation Id C → Bool
  | segment opNum _ => opNum < state.version.getD 0
  | point opNum _ opPointOffset _ => opPointOffset.any fun offset =>
      (IdTracker.internalVersion state.contents offset).any fun version => opNum < version

/-- Executes the operation and raises the versions. -/
def execute (state : Segment Id C) : Operation Id C → OperationResult Bool × Segment Id C
  | segment opNum operation =>
    match operation state.contents with
    | (.error error, contents) => (.error error, { state with contents })
    | (.ok applied, contents) =>
      (.ok applied, { state with contents, version := some (max opNum (state.version.getD 0)) })
  | point opNum _ _ operation =>
    match operation state.contents with
    | (.error error, contents) => (.error error, { state with contents })
    | (.ok (applied, internalId), contents) =>
      let version := some (max opNum (state.version.getD 0))
      match internalId with
      | none => (.ok applied, { state with contents, version })
      | some internalId =>
        match IdTracker.setInternalVersion contents internalId opNum with
        | (.error error, contents) => (.error error, { state with contents, version })
        | (.ok (), contents) => (.ok applied, { state with contents, version })

/-- `handle_segment_version` and `handle_point_version`. -/
def handleVersion (state : Segment Id C) (operation : Operation Id C) :
    OperationResult Bool × Segment Id C :=
  if operation.isStale state then (.ok false, state) else operation.execute state

end Operation

/-- The error under which an operation is refused until a failure has been recovered from. -/
def Segment.refusal (state : Segment Id C) (opNum : ℕ) : Option OperationError :=
  state.errorStatus.bind fun failed =>
    if failed.version < opNum then
      some (.serviceError ("Not recovered from previous error: " ++ failed.error.display))
    else none

variable [IdTracker C] [DecidableEq Id]

/-- What a wrapper makes of the failure when the operation has not failed: only a point
operation recovers, from a failure of its point. -/
def Operation.recover : Operation Id C → Option (SegmentFailedState Id) →
    Option (SegmentFailedState Id)
  | segment _ _, errorStatus => errorStatus
  | point _ pointId _ _, errorStatus =>
    errorStatus.filter fun failed => failed.pointId ≠ some pointId

/-- `handle_segment_version_and_failure` and `handle_point_version_and_failure`. -/
def Segment.apply (state : Segment Id C) (operation : Operation Id C) :
    OperationResult Bool × Segment Id C :=
  match state.refusal operation.opNum with
  | some error => (.error error, state)
  | none =>
    let (res, next) := operation.handleVersion state
    match getServiceError res with
    | none => (res, { next with errorStatus := operation.recover next.errorStatus })
    | some error =>
      (res, { next with errorStatus := some ⟨operation.opNum, operation.target, error⟩ })

/-! ### The law of recovery -/

/-- What becomes of an operation that is not refused. -/
inductive Outcome where
  /-- A newer operation has been applied to the target. -/
  | skipped
  | executed
  /-- Executed, with a service error. -/
  | failed
  /-- Executed, with another error. -/
  | rejected
  deriving DecidableEq

/-- An operation as its caller sees it. -/
structure Event (Id : Type) where
  opNum : ℕ
  target : Option Id
  outcome : Outcome

/-- The outcome of an operation in a state, were it not refused. -/
def Operation.outcome (state : Segment Id C) (operation : Operation Id C) : Outcome :=
  if operation.isStale state then .skipped
  else match (operation.execute state).1 with
    | .ok _ => .executed
    | .error (.serviceError _) => .failed
    | .error _ => .rejected

/-- The event of an operation. -/
def Operation.event (state : Segment Id C) (operation : Operation Id C) : Event Id :=
  ⟨operation.opNum, operation.target, operation.outcome state⟩

/-- The failures that are not settled after an event: a failed operation is added, a successful
one settles its own failure, and one above a failure is not executed. -/
def Event.settle (unsettled : List (ℕ × Option Id)) (event : Event Id) : List (ℕ × Option Id) :=
  if unsettled.any (·.1 < event.opNum) then unsettled
  else match event.outcome with
    | .failed => (event.opNum, event.target) :: unsettled
    | .executed => unsettled.filter (· ≠ (event.opNum, event.target))
    | _ => unsettled

/-- Only point operations fail, and one failure is open at a time. While the operation `v` on the
point `p` has failed, the operations above `v` are of no account; of the others only `v` on `p`
fails, and one on `p` that does not fail is the executed retry of `v`. -/
def Orderly : Option (ℕ × Id) → List (Event Id) → Prop
  | _, [] => True
  | none, event :: rest =>
    if event.outcome = .failed then
      ∃ point, event.target = some point ∧ Orderly (some (event.opNum, point)) rest
    else Orderly none rest
  | some (number, point), event :: rest =>
    if number < event.opNum then Orderly (some (number, point)) rest
    else if event.outcome = .failed then
      event.opNum = number ∧ event.target = some point ∧ Orderly (some (number, point)) rest
    else if event.target = some point then
      event.outcome = .executed ∧ event.opNum = number ∧ Orderly none rest
    else Orderly (some (number, point)) rest

/-- The slot holds the open failure, and all unsettled failures are of its operation. -/
def Holds (state : Segment Id C) (unsettled : List (ℕ × Option Id)) : Option (ℕ × Id) → Prop
  | none => state.errorStatus = none ∧ unsettled = []
  | some (number, point) => unsettled ≠ [] ∧
    (∀ failure ∈ unsettled, failure = (number, some point)) ∧
    ∃ error, state.errorStatus = some ⟨number, some point, error⟩

section Step

variable {state : Segment Id C} {operation : Operation Id C} {unsettled : List (ℕ × Option Id)}
  {number : ℕ} {point : Id}

end Step

/-- An id tracker without versions. -/
instance : IdTracker Unit where
  internalVersion _ _ := none
  setInternalVersion _ _ _ := (.ok (), ())

end Stratumind.FailureRecovery
