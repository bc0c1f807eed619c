import Stratumind.Collection.WalDelta
import Stratumind.Common.Iter

/-!
# Collection errors

The errors of `collection::operations::types` with the text they are shown under. Backtraces and
the time after which a rate limit may be retried are left out.
-/

namespace Stratumind

/-- `CollectionError`. The id of a missing point is kept as its text. -/
inductive CollectionError where
  | badInput (description : String)
  | notFound (what : String)
  | pointNotFound (missedPointId : String)
  | serviceError (error : String)
  | badRequest (description : String)
  | cancelled (description : String)
  | inconsistentShardFailure (shardsTotal shardsFailed : ℕ) (firstErr : CollectionError)
  | forwardProxyError (peerId : UInt64) (error : CollectionError)
  | outOfMemory (description : String) (free : ℕ)
  | timeout (description : String)
  | preConditionFailed (description : String)
  | objectStoreError (what : String)
  | strictMode (description : String)
  | inferenceError (description : String)
  | rateLimitExceeded (description : String)
  | shardUnavailable (description : String)
  deriving DecidableEq, Repr

namespace CollectionError

/-- The text under which an error is shown. -/
def display : CollectionError → String
  | badInput description => "Wrong input: " ++ description
  | notFound what => what ++ " not found"
  | pointNotFound missedPointId => "No point with id " ++ missedPointId ++ " found"
  | serviceError error => "Service internal error: " ++ error
  | badRequest description => "Bad request: " ++ description
  | cancelled description => "Operation Cancelled: " ++ description
  | inconsistentShardFailure shardsTotal shardsFailed firstErr =>
    toString shardsFailed ++ " out of " ++ toString shardsTotal ++
      " shards failed to apply operation. First error captured: " ++ firstErr.display
  | forwardProxyError peerId error =>
    "Remote shard on " ++ toString peerId ++ " failed during forward proxy operation: " ++
      error.display
  | outOfMemory description free => "Out of memory, free: " ++ toString free ++ ", " ++ description
  | timeout description => "Timeout error: " ++ description
  | preConditionFailed description => "Precondition failed: " ++ description
  | objectStoreError what => "Object Store error: " ++ what
  | strictMode description => "Strict mode error: " ++ description
  | inferenceError description => description
  | rateLimitExceeded description => "Rate limiting exceeded: " ++ description
  | shardUnavailable description => "Shard temporarily unavailable: " ++ description

/-- Whether the operation can be retried, and need not fail on all replicas. -/
def isTransient : CollectionError → Bool
  | serviceError _ | timeout _ | cancelled _ | outOfMemory _ _ | preConditionFailed _
  | shardUnavailable _ => true
  | badInput _ | notFound _ | pointNotFound _ | badRequest _ | inconsistentShardFailure _ _ _
  | forwardProxyError _ _ | objectStoreError _ | strictMode _ | inferenceError _
  | rateLimitExceeded _ => false

def isPreConditionFailed : CollectionError → Bool
  | preConditionFailed _ => true
  | _ => false

def isMissingPoint : CollectionError → Bool
  | notFound what => (what.splitOn "No point with id").length != 1
  | pointNotFound _ => true
  | _ => false

end CollectionError

/-- `CollectionResult`. -/
abbrev CollectionResult (α : Type) := Except CollectionError α

/-!
### Replica states

The states of the replicas of a shard in consensus (`replica_set_state.rs`), and the peers that
this node does not use although consensus has not disabled them yet
(`locally_disabled_peers.rs`). The delays after which consensus is notified again are left out.
-/

/-- The number of a node. -/
abbrev PeerId := UInt64

/-- `ReplicaState`: the state of one replica. -/
inductive ReplicaState
  | active
  | dead
  | partialState
  | initializing
  | listener
  | partialSnapshot
  | recovery
  | resharding
  | reshardingScaleDown
  | activeRead
  | manualRecovery
  deriving DecidableEq, Repr

namespace ReplicaState

def isUpdatable : ReplicaState → Bool
  | active | partialState | initializing | listener | resharding | reshardingScaleDown
  | activeRead => true
  | recovery | partialSnapshot | dead | manualRecovery => false

/-- Whether the replica can be the only receiver of updates. -/
def canBeSourceOfTruth : ReplicaState → Bool
  | active | activeRead | resharding | reshardingScaleDown => true
  | partialState | manualRecovery | initializing | listener | partialSnapshot | recovery
  | dead => false

/-- Whether the state belongs to a shard transfer. -/
def isPartialOrRecovery : ReplicaState → Bool
  | partialState | manualRecovery | partialSnapshot | recovery | resharding | reshardingScaleDown
  | activeRead => true
  | active | dead | initializing | listener => false

def isResharding : ReplicaState → Bool
  | resharding | reshardingScaleDown => true
  | partialState | manualRecovery | partialSnapshot | recovery | active | dead | initializing
  | listener | activeRead => false

def isWriteRateLimitable : ReplicaState → Bool
  | active => true
  | dead | partialState | initializing | listener | partialSnapshot | recovery | resharding
  | reshardingScaleDown | activeRead | manualRecovery => false

end ReplicaState

/-- `ReplicaSetState`: the replicas of a shard as consensus knows them. -/
structure ReplicaSetState where
  thisPeerId : PeerId
  peers : AList fun _ : PeerId => ReplicaState

namespace ReplicaSetState

def getPeerState (state : ReplicaSetState) (peerId : PeerId) : Option ReplicaState :=
  state.peers.lookup peerId

def activeOrReshardingPeers (state : ReplicaSetState) : List PeerId :=
  (state.peers.entries.filter fun entry =>
    entry.2 = .active || entry.2 = .resharding || entry.2 = .reshardingScaleDown).map
      fun entry => entry.1

end ReplicaSetState

/-- The peers that are disabled on this node, with the state they were in. -/
structure Registry where
  locallyDisabledPeers : AList fun _ : PeerId => Option ReplicaState

namespace Registry

def isDisabled (registry : Registry) (peerId : PeerId) : Bool :=
  (registry.locallyDisabledPeers.lookup peerId).isSome

def isAllDisabled (registry : Registry) (peerIds : List PeerId) : Bool :=
  peerIds.all registry.isDisabled

/-- `disable_peer_and_notify_if_elapsed` without the notification. -/
def disablePeer (registry : Registry) (peerId : PeerId) (fromState : Option ReplicaState) :
    Registry :=
  ⟨registry.locallyDisabledPeers.insert peerId fromState⟩

/-- `add_locally_disabled`: the last peer of consensus is not disabled. -/
def addLocallyDisabled (registry : Registry) (state : ReplicaSetState) (peerId : PeerId)
    (fromState : Option ReplicaState) : Registry :=
  let otherPeers := state.activeOrReshardingPeers.filter (· ≠ peerId)
  if !registry.isDisabled peerId && registry.isAllDisabled otherPeers then registry
  else registry.disablePeer peerId fromState

end Registry

/-!
### Updates of a replica set

`replica_set/update.rs`: an update is sent to all replicas that can be updated. If some fail, then
enough must succeed, and the failed ones are disabled. At least one success must be on a replica
that can be a source of truth. A success that was rejected for its clock makes the caller try
again with a newer clock.
-/

open WalDelta (ClockTag)

/-- `UpdateStatus`. -/
inductive UpdateStatus
  | acknowledged
  | completed
  | waitTimeout
  | clockRejected
  deriving DecidableEq, Repr

/-- A higher value means that the status is more significant. -/
def UpdateStatus.priority : UpdateStatus → ℕ
  | .acknowledged => 0
  | .completed => 1
  | .waitTimeout => 2
  | .clockRejected => 3

/-- `UpdateResult`. -/
structure UpdateResult where
  operationId : Option ℕ
  status : UpdateStatus
  clockTag : Option ClockTag
  deriving DecidableEq

/-- `WaitUntil`: when an update is acknowledged. -/
inductive WaitUntil
  | wal
  | segment
  | visible
  deriving DecidableEq, Repr

def WaitUntil.needsCallback : WaitUntil → Bool
  | .segment | .visible => true
  | .wal => false

/-- `ClockGuard`: the clock of an update, which keeps the next tick. -/
structure ClockGuard where
  id : UInt32
  nextTick : UInt64

namespace ClockGuard

/-- The first tick is zero until the clock is advanced. -/
def tickOnce (clock : ClockGuard) : UInt64 × ClockGuard :=
  (clock.nextTick,
    if clock.nextTick = 0 then clock else { clock with nextTick := clock.nextTick + 1 })

def advanceTo (clock : ClockGuard) (newTick : UInt64) : ClockGuard :=
  { clock with
    nextTick := if clock.nextTick < newTick + 1 then newTick + 1 else clock.nextTick }

end ClockGuard

/-- The variants of a shard on this node. -/
inductive Shard
  | plain
  | proxy
  | forwardProxy
  | queueProxy
  | dummy
  deriving DecidableEq, Repr

/-- `ShardReplicaSet`. Every peer has one replica. -/
structure ShardReplicaSet where
  shardId : ℕ
  localShard : Option Shard
  remotes : List PeerId
  replicaState : ReplicaSetState
  locallyDisabledPeers : Registry
  writeConsistencyFactor : ℕ
  nodup : (replicaState.thisPeerId :: remotes).Nodup

namespace ShardReplicaSet

variable (replicaSet : ShardReplicaSet)

def thisPeerId : PeerId := replicaSet.replicaState.thisPeerId

/-- Whether to send updates to the given peer. -/
def isPeerUpdatable (peerId : PeerId) : Bool :=
  match replicaSet.replicaState.getPeerState peerId with
  | none => false
  | some state => state.isUpdatable && !replicaSet.locallyDisabledPeers.isDisabled peerId

def peerIsWriteRateLimitable (peerId : PeerId) : Bool :=
  ((replicaSet.replicaState.getPeerState peerId).map ReplicaState.isWriteRateLimitable).getD false

def localIsUpdatable : Bool :=
  replicaSet.localShard.isSome && replicaSet.isPeerUpdatable replicaSet.thisPeerId

def updatableRemotes : List PeerId :=
  replicaSet.remotes.filter replicaSet.isPeerUpdatable

def replicaCount : ℕ :=
  (if replicaSet.localShard.isSome then 1 else 0) + replicaSet.remotes.length

/-- The replicas that the update is sent to. -/
def updatablePeers : List PeerId :=
  (if replicaSet.localIsUpdatable then [replicaSet.thisPeerId] else []) ++
    replicaSet.updatableRemotes

end ShardReplicaSet

def peerCanBeSourceOfTruth (state : ReplicaSetState) (registry : Registry) (peerId : PeerId) :
    Bool :=
  ((state.getPeerState peerId).map ReplicaState.canBeSourceOfTruth).getD false &&
    !registry.isDisabled peerId

def peerIsResharding (state : ReplicaSetState) (registry : Registry) (peerId : PeerId) : Bool :=
  ((state.getPeerState peerId).map ReplicaState.isResharding).getD false &&
    !registry.isDisabled peerId

/-- What happens around one update: the answers of this node and of all replicas, the order in
which they complete, and the replica states that consensus has reached when the failures are
handled, when waiting for it ends, and when the successes are checked. -/
structure UpdateRun where
  rateLimiter : CollectionResult Unit
  submit : CollectionResult Unit
  reply : PeerId → CollectionResult UpdateResult
  completionOrder : List PeerId → List PeerId
  handled : ReplicaSetState
  waited : ReplicaSetState
  settled : ReplicaSetState

/-- The states of failed replicas that are ignored. -/
def ignoresFailure (peerState : ReplicaState) (err : CollectionError) (updateOnlyExisting : Bool) :
    Bool :=
  peerState = .dead || peerState = .listener || peerState = .manualRecovery ||
    peerState.isPartialOrRecovery && err.isPreConditionFailed ||
    peerState.isPartialOrRecovery && err.isMissingPoint ||
    updateOnlyExisting && err.isMissingPoint

/-- `handle_failed_replicas`: disables the failed replicas and tells whether to wait for it. -/
def handleFailedReplicas (state : ReplicaSetState) (updateOnlyExisting : Bool) :
    List (PeerId × CollectionError) → Registry → Bool × Registry
  | [], registry => (false, registry)
  | (peerId, err) :: failures, registry =>
    match state.getPeerState peerId with
    | none => handleFailedReplicas state updateOnlyExisting failures registry
    | some peerState =>
      if ignoresFailure peerState err updateOnlyExisting then
        handleFailedReplicas state updateOnlyExisting failures registry
      else
        let fromState := (some peerState).filter fun state =>
          !state.isPartialOrRecovery || state.isResharding
        let (wait, registry) := handleFailedReplicas state updateOnlyExisting failures
          (registry.addLocallyDisabled state peerId fromState)
        (err.isTransient || peerState = .initializing || wait, registry)

/-- `merge_successful_update_results`: the reply of the highest peer with the most significant
status. -/
def mergeSuccessfulUpdateResults (successes : List (PeerId × UpdateResult)) : Option UpdateResult :=
  let status := (maxBy (fun left right : UpdateStatus => compare left.priority right.priority)
    (successes.map fun success => success.2.status)).getD .acknowledged
  (maxBy (fun left right => compare left.1 right.1) successes).map fun success =>
    { success.2 with status }

/-- The newest tick that a replica echoed for the clock of the update. -/
def newClockTick (thisPeerId : PeerId) (clockId : UInt32)
    (successes : List (PeerId × UpdateResult)) : Option UInt64 :=
  maxBy compare (successes.filterMap fun success => success.2.clockTag.bind fun echoTag =>
      if echoTag.peerId = thisPeerId ∧ echoTag.clockId = clockId then some echoTag.clockTick
      else none)

/-- The replies of the replicas that succeeded. -/
def successesOf (replies : List (PeerId × CollectionResult UpdateResult)) :
    List (PeerId × UpdateResult) :=
  replies.filterMap fun reply =>
    match reply.2 with
    | .ok result => some (reply.1, result)
    | .error _ => none

/-- The errors of the replicas that failed. -/
def failuresOf (replies : List (PeerId × CollectionResult UpdateResult)) :
    List (PeerId × CollectionError) :=
  replies.filterMap fun reply =>
    match reply.2 with
    | .ok _ => none
    | .error err => some (reply.1, err)

/-- The text about the first failure. -/
def failureError (failures : List (PeerId × CollectionError)) : String :=
  match failures.head? with
  | some (peerId, err) => "Failed peer: " ++ toString peerId ++ ", error: " ++ err.display
  | none => ""

namespace ShardReplicaSet

variable (replicaSet : ShardReplicaSet)

/-- Handles the failures of an update, if there are some: without enough successes the first
error is reported, otherwise the failed replicas are disabled. -/
def handleFailures (wait : WaitUntil) (updateOnlyExisting : Bool) (run : UpdateRun)
    (successes : List (PeerId × UpdateResult))
    (failures : List (PeerId × CollectionError)) : CollectionResult Unit × Registry :=
  let registry := replicaSet.locallyDisabledPeers
  let minimalSuccessCount := min replicaSet.writeConsistencyFactor replicaSet.replicaCount
  match failures with
  | [] => (.ok (), registry)
  | (_, firstErr) :: _ =>
    let hasFullCompletedUpdates := successes.any fun success => success.2.status = .completed
    if minimalSuccessCount ≤ successes.length then
      let failuresToHandle :=
        if hasFullCompletedUpdates then failures
        else failures.filter fun failure => failure.2.isTransient
      let (waitForDeactivation, registry) :=
        handleFailedReplicas run.handled updateOnlyExisting failuresToHandle registry
      if wait.needsCallback && waitForDeactivation then
        -- Replicas that consensus does not know are dead.
        let shardsDisabled := failuresToHandle.all fun failure =>
          !((run.waited.getPeerState failure.1).map ReplicaState.canBeSourceOfTruth).getD false
        if shardsDisabled then (.ok (), registry)
        else
          (.error (.serviceError ("Some replica of shard " ++ toString replicaSet.shardId ++
            " failed to apply operation and deactivation timed out after 30s. Consistency of " ++
            "this update is not guaranteed. Please retry. " ++ failureError failures)), registry)
      else (.ok (), registry)
    else
      let reshardingFailures := failures.filter fun failure =>
        peerIsResharding run.handled registry failure.1
      (.error firstErr,
        (handleFailedReplicas run.handled updateOnlyExisting reshardingFailures registry).2)

/-- Checks the successes of an update and merges them. -/
def acceptSuccesses (settled : ReplicaSetState) (registry : Registry)
    (successes : List (PeerId × UpdateResult)) (failures : List (PeerId × CollectionError)) :
    CollectionResult (Option UpdateResult) :=
  if !successes.any fun success => peerCanBeSourceOfTruth settled registry success.1 then
    .error (.serviceError ("Failed to apply operation to at least one `Active` replica. " ++
      "Consistency of this update is not guaranteed. Please retry. " ++ failureError failures))
  else if successes.any fun success => success.2.status = .clockRejected then .ok none
  else .ok (mergeSuccessfulUpdateResults successes)

/-- The replies of all replicas that the update is sent to. -/
def allReplies (run : UpdateRun) : List (PeerId × CollectionResult UpdateResult) :=
  (run.completionOrder replicaSet.updatablePeers).map fun peerId => (peerId, run.reply peerId)

/-- An error of this node before any replica is asked for a reply. -/
def localError (run : UpdateRun) : CollectionResult Unit := do
  if replicaSet.localIsUpdatable && replicaSet.peerIsWriteRateLimitable replicaSet.thisPeerId then
    run.rateLimiter
  if replicaSet.localIsUpdatable && replicaSet.localShard = some .plain then run.submit

/-- `update_impl`: the result, the clock and the disabled peers. -/
def updateImpl (wait : WaitUntil) (clock : ClockGuard) (updateOnlyExisting : Bool)
    (run : UpdateRun) : CollectionResult (Option UpdateResult) × ClockGuard × Registry :=
  if replicaSet.updatableRemotes.isEmpty && !replicaSet.localIsUpdatable then
    (.error (.serviceError ("The replica set for shard " ++ toString replicaSet.shardId ++
      " on peer " ++ toString replicaSet.thisPeerId ++ " has no active replica")), clock,
      replicaSet.locallyDisabledPeers)
  else
    let (_, clock) := clock.tickOnce
    match replicaSet.localError run with
    | .error err => (.error err, clock, replicaSet.locallyDisabledPeers)
    | .ok () =>
      let successes := successesOf (replicaSet.allReplies run)
      let failures := failuresOf (replicaSet.allReplies run)
      let clock :=
        match newClockTick replicaSet.thisPeerId clock.id successes with
        | some tick => clock.advanceTo tick
        | none => clock
      match replicaSet.handleFailures wait updateOnlyExisting run successes failures with
      | (.error err, registry) => (.error err, clock, registry)
      | (.ok (), registry) =>
        (acceptSuccesses run.settled registry successes failures, clock, registry)

/-- How often an update with a rejected clock is tried. -/
def updateMaxClockRejectedRetries : ℕ := 3

/-- `update`: tries again while the clock is rejected. Each attempt finds the replica set as it
is then. -/
def update (operation : String) (wait : WaitUntil) (updateOnlyExisting : Bool)
    (found : ℕ → ShardReplicaSet × UpdateRun) : ℕ → ClockGuard → CollectionResult UpdateResult
  | 0, _ =>
    .error (.serviceError ("Failed to apply operation " ++ operation ++ " after " ++
      toString updateMaxClockRejectedRetries ++ " attempts, all attempts were rejected"))
  | attempts + 1, clock =>
    let (replicaSet, run) := found attempts
    match replicaSet.updateImpl wait clock updateOnlyExisting run with
    | (.error err, _) => .error err
    | (.ok (some result), _) => .ok result
    | (.ok none, clock, _) => update operation wait updateOnlyExisting found attempts clock

end ShardReplicaSet

/-!
### The write consistency factor

An accepted update is on a replica that can be a source of truth, and no replica rejected its
clock. The number of successes is compared with the write consistency factor only if some replica
failed. Replicas that the update is not sent to do not fail, so the factor is reached exactly if
enough replicas can be updated.
-/

open List

namespace ShardReplicaSet

variable {replicaSet : ShardReplicaSet} {wait : WaitUntil} {clock : ClockGuard}
  {updateOnlyExisting : Bool} {run : UpdateRun} {result : UpdateResult}

/-- The replicas that reported success. -/
def succeeded (replicaSet : ShardReplicaSet) (run : UpdateRun) : List PeerId :=
  replicaSet.updatablePeers.filter fun peerId => (run.reply peerId).isOk

/-- What an accepted update has to have reached; `registry` has the peers disabled by it. -/
structure Reached (replicaSet : ShardReplicaSet) (run : UpdateRun) (registry : Registry) :
    Prop where
  /-- Enough replicas reported success. -/
  enough : min replicaSet.writeConsistencyFactor replicaSet.replicaCount ≤
    (replicaSet.succeeded run).length
  /-- They are different replicas. -/
  distinct : (replicaSet.succeeded run).Nodup
  /-- One of them can be a source of truth. -/
  sourceOfTruth : ∃ peerId ∈ replicaSet.succeeded run,
    peerCanBeSourceOfTruth run.settled registry peerId = true
  /-- None of them rejected the clock. -/
  notRejected : ∀ peerId ∈ replicaSet.succeeded run, ∀ reply, run.reply peerId = .ok reply →
    reply.status ≠ .clockRejected

theorem updatablePeers_nodup (replicaSet : ShardReplicaSet) : replicaSet.updatablePeers.Nodup := by
  obtain ⟨hnot, hremotes⟩ := nodup_cons.mp replicaSet.nodup
  unfold updatablePeers updatableRemotes
  split
  · refine nodup_cons.mpr ⟨fun hmem => hnot (mem_filter.mp hmem).1, ?_⟩
    exact hremotes.filter _
  · exact hremotes.filter _

section

variable (horder : ∀ peers, (run.completionOrder peers).Perm peers)

include horder

/-- The successes are the replies of the replicas that succeeded. -/
theorem mem_successesOf {success : PeerId × UpdateResult} :
    success ∈ successesOf (replicaSet.allReplies run) ↔
      success.1 ∈ replicaSet.updatablePeers ∧ run.reply success.1 = .ok success.2 := by
  unfold successesOf allReplies
  grind

theorem length_successesOf :
    (successesOf (replicaSet.allReplies run)).length = (replicaSet.succeeded run).length := by
  have hfilter : ∀ peers : List PeerId,
      (successesOf (peers.map fun peerId => (peerId, run.reply peerId))).length =
        (peers.filter fun peerId => (run.reply peerId).isOk).length := by
    intro peers
    induction peers with
    | nil => rfl
    | cons peerId peers ih =>
      unfold successesOf at ih ⊢
      rw [map_cons, filterMap_cons, filter_cons]
      cases hreply : run.reply peerId with
      | error err => simpa [Except.isOk, Except.toBool] using ih
      | ok reply => simpa [Except.isOk, Except.toBool] using ih
  unfold allReplies succeeded
  rw [hfilter]
  exact ((horder _).filter _).length_eq

theorem failuresOf_eq_nil_iff :
    failuresOf (replicaSet.allReplies run) = [] ↔
      ∀ peerId ∈ replicaSet.updatablePeers, (run.reply peerId).isOk = true := by
  unfold failuresOf allReplies
  rw [filterMap_map, filterMap_eq_nil_iff]
  simp only [(horder _).mem_iff, Function.comp_apply]
  refine forall₂_congr fun peerId _ => ?_
  cases run.reply peerId <;> simp [Except.isOk, Except.toBool]

end

/-- Failures are only accepted with enough successes. -/
theorem handleFailures_ok {successes : List (PeerId × UpdateResult)}
    {failures : List (PeerId × CollectionError)} {registry : Registry}
    (h : replicaSet.handleFailures wait updateOnlyExisting run successes failures =
      (.ok (), registry)) :
    failures = [] ∨
      min replicaSet.writeConsistencyFactor replicaSet.replicaCount ≤ successes.length := by
  unfold handleFailures at h
  grind

/-- An accepted update has a success on a source of truth, and no rejected one. -/
theorem acceptSuccesses_eq_some_iff {settled : ReplicaSetState} {registry : Registry}
    {successes : List (PeerId × UpdateResult)} {failures : List (PeerId × CollectionError)} :
    (∃ result, acceptSuccesses settled registry successes failures = .ok (some result)) ↔
      (∃ success ∈ successes, peerCanBeSourceOfTruth settled registry success.1 = true) ∧
      ∀ success ∈ successes, success.2.status ≠ .clockRejected := by
  unfold acceptSuccesses
  by_cases hsource : ∃ success ∈ successes,
      peerCanBeSourceOfTruth settled registry success.1 = true
  · have hany := any_eq_true.mpr hsource
    rw [hany]
    simp only [Bool.not_true, Bool.false_eq_true, if_false, hsource, true_and]
    by_cases hrejected : ∃ success ∈ successes, success.2.status = .clockRejected
    · grind
    have hrejectedAny : ¬(successes.any fun success =>
        decide (success.2.status = .clockRejected)) = true := by
      simpa using hrejected
    rw [if_neg hrejectedAny]
    refine ⟨fun _ success hmem hstatus => hrejected ⟨success, hmem, hstatus⟩, fun _ => ?_⟩
    obtain ⟨success, hmem, -⟩ := hsource
    unfold mergeSuccessfulUpdateResults
    cases hmax : maxBy (fun left right : PeerId × UpdateResult => compare left.1 right.1)
        successes with
    | none =>
      rw [maxBy_eq_none.mp hmax] at hmem
      cases hmem
    | some chosen => exact ⟨_, rfl⟩
  · have hany : (successes.any fun success =>
        peerCanBeSourceOfTruth settled registry success.1) = false := by
      simpa using hsource
    rw [hany]
    simp [hsource]

/-- An update that is not an error has handled its failures and checked its successes. -/
theorem updateImpl_eq_ok {outcome : Option UpdateResult}
    (h : (replicaSet.updateImpl wait clock updateOnlyExisting run).1 = .ok outcome) :
    ∃ registry, (replicaSet.updateImpl wait clock updateOnlyExisting run).2.2 = registry ∧
      replicaSet.handleFailures wait updateOnlyExisting run
        (successesOf (replicaSet.allReplies run)) (failuresOf (replicaSet.allReplies run)) =
          (.ok (), registry) ∧
      acceptSuccesses run.settled registry (successesOf (replicaSet.allReplies run))
        (failuresOf (replicaSet.allReplies run)) = .ok outcome := by
  unfold updateImpl at h ⊢
  grind

/-- An accepted update is on a source of truth and not rejected; if some replica failed, then
enough succeeded. -/
theorem updateImpl_accepted (horder : ∀ peers, (run.completionOrder peers).Perm peers)
    (h : (replicaSet.updateImpl wait clock updateOnlyExisting run).1 = .ok (some result)) :
    (replicaSet.succeeded run = replicaSet.updatablePeers ∨
      min replicaSet.writeConsistencyFactor replicaSet.replicaCount ≤
        (replicaSet.succeeded run).length) ∧
    (∃ peerId ∈ replicaSet.succeeded run, peerCanBeSourceOfTruth run.settled
      (replicaSet.updateImpl wait clock updateOnlyExisting run).2.2 peerId = true) ∧
    ∀ peerId ∈ replicaSet.succeeded run, ∀ reply, run.reply peerId = .ok reply →
      reply.status ≠ .clockRejected := by
  obtain ⟨registry, hregistry, hhandled, haccepted⟩ := updateImpl_eq_ok h
  obtain ⟨⟨success, hsuccess, hsource⟩, hstatus⟩ :=
    acceptSuccesses_eq_some_iff.mp ⟨result, haccepted⟩
  rw [hregistry]
  refine ⟨?_, ?_, fun peerId hpeer reply hreply => ?_⟩
  · rcases handleFailures_ok hhandled with hnone | henough
    · refine Or.inl (filter_eq_self.mpr ?_)
      exact (failuresOf_eq_nil_iff horder).mp hnone
    · rw [length_successesOf horder] at henough
      exact Or.inr henough
  · obtain ⟨hpeer, hreply⟩ := (mem_successesOf horder).mp hsuccess
    refine ⟨success.1, mem_filter.mpr ⟨hpeer, ?_⟩, hsource⟩
    rw [hreply]
    rfl
  · have hupdatable := (mem_filter.mp hpeer).1
    exact hstatus (peerId, reply) ((mem_successesOf horder).mpr ⟨hupdatable, hreply⟩)

/-- If no replica fails or rejects the clock, the update is accepted. -/
theorem exists_accepted (hok : ∀ peerId, run.reply peerId = .ok result)
    (hstatus : result.status ≠ .clockRejected) (hlimit : run.rateLimiter = .ok ())
    (hsubmit : run.submit = .ok ()) (horder : ∀ peers, (run.completionOrder peers).Perm peers)
    {peerId : PeerId} (hpeer : peerId ∈ replicaSet.updatablePeers)
    (hsource : peerCanBeSourceOfTruth run.settled replicaSet.locallyDisabledPeers peerId = true) :
    ∃ outcome, (replicaSet.updateImpl wait clock updateOnlyExisting run).1 =
      .ok (some outcome) := by
  have hactive : ¬(replicaSet.updatableRemotes.isEmpty && !replicaSet.localIsUpdatable) = true := by
    intro hnone
    simp only [Bool.and_eq_true, List.isEmpty_iff, Bool.not_eq_true'] at hnone
    unfold updatablePeers at hpeer
    rw [hnone.1, hnone.2] at hpeer
    cases hpeer
  have hlocal : replicaSet.localError run = .ok () := by
    unfold localError
    rw [hlimit, hsubmit]
    split <;> split <;> rfl
  have hfailures : failuresOf (replicaSet.allReplies run) = [] := by
    rw [failuresOf_eq_nil_iff horder]
    intro peerId _
    rw [hok]
    rfl
  have haccepted : ∃ outcome, acceptSuccesses run.settled replicaSet.locallyDisabledPeers
      (successesOf (replicaSet.allReplies run)) (failuresOf (replicaSet.allReplies run)) =
        .ok (some outcome) := by
    rw [acceptSuccesses_eq_some_iff]
    refine ⟨⟨(peerId, result), (mem_successesOf horder).mpr ⟨hpeer, hok peerId⟩, hsource⟩, ?_⟩
    intro success hsuccess
    have hreply := ((mem_successesOf horder).mp hsuccess).2
    rw [hok] at hreply
    rw [← Except.ok.inj hreply]
    exact hstatus
  obtain ⟨outcome, houtcome⟩ := haccepted
  refine ⟨outcome, ?_⟩
  unfold updateImpl
  rw [if_neg hactive]
  rw [hlocal]
  rw [hfailures] at houtcome ⊢
  exact houtcome

/-- Enough replicas can be updated, or none can and nothing is accepted. -/
def EnoughUpdatable (replicaSet : ShardReplicaSet) : Prop :=
  min replicaSet.writeConsistencyFactor replicaSet.replicaCount ≤
    replicaSet.updatablePeers.length ∨ replicaSet.updatablePeers = []

/-- Every accepted update of the replica set has reached its factor, whatever the replicas reply,
in whatever order, and whatever consensus does meanwhile. -/
def AcceptsOnlyReached (replicaSet : ShardReplicaSet) : Prop :=
  ∀ (wait : WaitUntil) (clock : ClockGuard) (updateOnlyExisting : Bool) (run : UpdateRun)
    (result : UpdateResult), (∀ peers, (run.completionOrder peers).Perm peers) →
    (replicaSet.updateImpl wait clock updateOnlyExisting run).1 = .ok (some result) →
    replicaSet.Reached run (replicaSet.updateImpl wait clock updateOnlyExisting run).2.2

/-- All replicas reply with success, and consensus activates the given peer. -/
def successfulRun (replicaSet : ShardReplicaSet) (peerId : PeerId) : UpdateRun where
  rateLimiter := .ok ()
  submit := .ok ()
  reply := fun _ => .ok ⟨none, .completed, none⟩
  completionOrder := id
  handled := replicaSet.replicaState
  waited := replicaSet.replicaState
  settled := { replicaSet.replicaState with
    peers := replicaSet.replicaState.peers.insert peerId .active }

theorem not_isDisabled_of_mem_updatablePeers {peerId : PeerId}
    (h : peerId ∈ replicaSet.updatablePeers) :
    replicaSet.locallyDisabledPeers.isDisabled peerId = false := by
  have hupdatable : replicaSet.isPeerUpdatable peerId = true := by
    rcases mem_append.mp h with hlocal | hremote
    · split at hlocal
      · rename_i hupdatable
        obtain rfl := mem_singleton.mp hlocal
        exact (Bool.and_eq_true_iff.mp hupdatable).2
      · cases hlocal
    · exact (mem_filter.mp hremote).2
  unfold isPeerUpdatable at hupdatable
  grind

/-- A run in which all replicas succeed has to reach the factor. -/
theorem AcceptsOnlyReached.enoughUpdatable (h : replicaSet.AcceptsOnlyReached) :
    replicaSet.EnoughUpdatable := by
  by_cases hnone : replicaSet.updatablePeers = []
  · exact Or.inr hnone
  obtain ⟨peerId, hpeer⟩ := exists_mem_of_ne_nil _ hnone
  have horder : ∀ peers, ((replicaSet.successfulRun peerId).completionOrder peers).Perm
      peers := fun peers => Perm.refl peers
  have hsource : peerCanBeSourceOfTruth (replicaSet.successfulRun peerId).settled
      replicaSet.locallyDisabledPeers peerId = true := by
    unfold peerCanBeSourceOfTruth ReplicaSetState.getPeerState successfulRun
    rw [AList.lookup_insert, not_isDisabled_of_mem_updatablePeers hpeer]
    rfl
  obtain ⟨outcome, houtcome⟩ := @exists_accepted replicaSet .wal ⟨0, 0⟩ false
    (replicaSet.successfulRun peerId) ⟨none, .completed, none⟩ (fun _ => rfl) (by decide) rfl
    rfl horder peerId hpeer hsource
  have hreached := h .wal ⟨0, 0⟩ false (replicaSet.successfulRun peerId) outcome horder houtcome
  exact Or.inl (hreached.enough.trans (length_filter_le _ _))

/-- If enough replicas can be updated, an update without a failure has reached the factor. -/
theorem EnoughUpdatable.acceptsOnlyReached (h : replicaSet.EnoughUpdatable) :
    replicaSet.AcceptsOnlyReached := by
  intro wait clock updateOnlyExisting run result horder haccepted
  obtain ⟨henough, hsource, hstatus⟩ := updateImpl_accepted horder haccepted
  refine ⟨?_, (updatablePeers_nodup replicaSet).filter _, hsource, hstatus⟩
  rcases henough with hall | henough
  · rcases h with hle | hnone
    · rw [hall]
      exact hle
    · obtain ⟨peerId, hpeer, -⟩ := hsource
      rw [hall, hnone] at hpeer
      cases hpeer
  · exact henough

/-- Every accepted update of a replica set has reached the write consistency factor exactly if
enough of its replicas can be updated, or none. -/
theorem accepted_update_reached_iff (replicaSet : ShardReplicaSet) :
    replicaSet.AcceptsOnlyReached ↔ replicaSet.EnoughUpdatable :=
  ⟨AcceptsOnlyReached.enoughUpdatable, EnoughUpdatable.acceptsOnlyReached⟩

/-- An update that succeeds after retries has reached its factor in one of the attempts. -/
theorem update_reached {operation : String} {found : ℕ → ShardReplicaSet × UpdateRun}
    (hfound : ∀ attempt, (found attempt).1.EnoughUpdatable)
    (horder : ∀ attempt peers, ((found attempt).2.completionOrder peers).Perm peers) (attempts : ℕ)
    (clock : ClockGuard)
    (h : update operation wait updateOnlyExisting found attempts clock = .ok result) :
    ∃ attempt < attempts, ∃ registry, (found attempt).1.Reached (found attempt).2 registry := by
  induction attempts generalizing clock with
  | zero => cases h
  | succ attempts ih =>
    rw [update] at h
    dsimp only at h
    cases hrun : (found attempts).1.updateImpl wait clock updateOnlyExisting (found attempts).2 with
    | mk outcome rest =>
      obtain ⟨next, registry⟩ := rest
      rw [hrun] at h
      cases outcome with
      | error err => cases h
      | ok accepted =>
        cases accepted with
        | none =>
          obtain ⟨attempt, hlt, hreached⟩ := ih next h
          exact ⟨attempt, by omega, hreached⟩
        | some reply =>
          have haccepted : ((found attempts).1.updateImpl wait clock updateOnlyExisting
              (found attempts).2).1 = .ok (some reply) := by rw [hrun]
          have hreached := (hfound attempts).acceptsOnlyReached wait clock updateOnlyExisting
            (found attempts).2 reply (horder attempts) haccepted
          exact ⟨attempts, Nat.lt_succ_self attempts, _, hreached⟩

/-- A local replica that is active and two remote replicas that are dead, with a factor of two. -/
def twoOfThreeDead : ShardReplicaSet where
  shardId := 0
  localShard := some .plain
  remotes := [2, 3]
  replicaState := ⟨1, ((∅ : AList fun _ : PeerId => ReplicaState).insert 1 .active).insert 2 .dead
    |>.insert 3 .dead⟩
  locallyDisabledPeers := ⟨∅⟩
  writeConsistencyFactor := 2
  nodup := by decide

/-- One of the remote replicas is active again. All replicas reject the clock of the first attempt,
and the second one reaches the factor of two. -/
theorem update_reached_after_rejection :
    let replicaSet := { twoOfThreeDead with
      replicaState := ⟨1, twoOfThreeDead.replicaState.peers.insert 2 .active⟩ }
    let rejected : UpdateRun := { replicaSet.successfulRun 1 with
      reply := fun _ => .ok ⟨none, .clockRejected, none⟩ }
    let found (attempt : ℕ) :=
      (replicaSet, if attempt = 2 then rejected else replicaSet.successfulRun 1)
    (replicaSet.updateImpl .wal ⟨0, 1⟩ false rejected).1 = .ok none ∧
      ∃ attempt < 3, ∃ registry, (found attempt).1.Reached (found attempt).2 registry := by
  intro replicaSet rejected found
  have horder : ∀ attempt peers, ((found attempt).2.completionOrder peers).Perm peers := by
    intro attempt peers
    dsimp only [found]
    split <;> exact Perm.refl _
  have henough : replicaSet.EnoughUpdatable := by
    unfold EnoughUpdatable
    decide
  exact ⟨by decide, @update_reached .wal false ⟨none, .completed, none⟩ "" found
    (fun _ => henough) horder updateMaxClockRejectedRetries ⟨0, 1⟩ (by decide)⟩

/-- One success of three replicas is accepted with a factor of two. -/
theorem accepted_below_factor :
    (∃ result, (twoOfThreeDead.updateImpl .wal ⟨0, 1⟩ false (twoOfThreeDead.successfulRun 1)).1 =
      .ok (some result)) ∧
    (twoOfThreeDead.succeeded (twoOfThreeDead.successfulRun 1)).length = 1 ∧
    min twoOfThreeDead.writeConsistencyFactor twoOfThreeDead.replicaCount = 2 ∧
    ¬twoOfThreeDead.AcceptsOnlyReached := by
  refine ⟨⟨⟨none, .completed, none⟩, by decide⟩, by decide, by decide, fun h => ?_⟩
  have henough := h.enoughUpdatable
  revert henough
  unfold EnoughUpdatable
  decide

end ShardReplicaSet

end Stratumind
