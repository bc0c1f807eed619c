import Stratumind.Lib.Assoc

/-!
# Clock maps and recovery points

`clock_map.rs` of the local shard. A clock map holds the newest tick and token seen for
every clock; a recovery point is the list of clocks one replica sends to another. Ticks are
64-bit numbers whose addition wraps around. The flag that a map has to be persisted is left
out.
-/

namespace Stratumind.WalDelta

open Lib

/-- The clock of a peer. -/
structure Key where
  peerId : UInt64
  clockId : UInt32
  deriving DecidableEq

/-- The clock tag of an operation. -/
structure ClockTag where
  peerId : UInt64
  clockId : UInt32
  clockTick : UInt64
  token : UInt64
  force : Bool
  deriving DecidableEq

/-- `Key::from_tag`. -/
def Key.fromTag (tag : ClockTag) : Key := ⟨tag.peerId, tag.clockId⟩

/-- `ClockTag::new_with_token`. -/
def ClockTag.newWithToken (peerId : UInt64) (clockId : UInt32) (clockTick token : UInt64) :
    ClockTag :=
  ⟨peerId, clockId, clockTick, token, false⟩

/-- One clock of a clock map. -/
structure Clock where
  currentTick : UInt64
  token : UInt64
  deriving DecidableEq

/-- `Clock::advance_to`: the new clock, whether the tick was accepted, and the current tick. -/
def Clock.advanceTo (clock : Clock) (newTick newToken : UInt64) : Clock × Bool × UInt64 :=
  let clock := if clock.currentTick < newTick then ⟨newTick, newToken⟩ else clock
  (clock, clock.currentTick = newTick && clock.token = newToken, clock.currentTick)

/-- A recovery point: ticks and tokens of clocks. -/
structure RecoveryPoint where
  clocks : AList fun _ : Key => UInt64 × UInt64 := ∅

/-- The newest clocks seen, and the snapshot of them that was taken earlier. -/
structure ClockMap where
  clocks : AList fun _ : Key => Clock := ∅
  snapshot : Option (AList fun _ : Key => Clock) := none

namespace ClockMap

variable (clockMap : ClockMap)

/-- `ClockMap::advance_clock_impl`: the new map, whether the tag was accepted, and the tick. -/
def advanceClockImpl (tag : ClockTag) : ClockMap × Bool × UInt64 :=
  match clockMap.clocks.lookup (Key.fromTag tag) with
  | some clock =>
    let (clock, accepted, tick) := clock.advanceTo tag.clockTick tag.token
    ({ clockMap with clocks := clockMap.clocks.insert (Key.fromTag tag) clock }, accepted, tick)
  | none =>
    if 0 < tag.clockTick then
      ({ clockMap with
          clocks := clockMap.clocks.insert (Key.fromTag tag) ⟨tag.clockTick, tag.token⟩ },
        true, tag.clockTick)
    else (clockMap, false, tag.clockTick)

/-- `ClockMap::advance_clock`. -/
def advanceClock (tag : ClockTag) : ClockMap :=
  (clockMap.advanceClockImpl tag).1

/-- `ClockMap::advance_clock_and_correct_tag`: the new map, whether the operation is accepted,
and its tag, which gets the current tick if it is not. -/
def advanceClockAndCorrectTag (tag : ClockTag) : ClockMap × Bool × ClockTag :=
  let (clockMap, clockAccepted, currentTick) := clockMap.advanceClockImpl tag
  let operationAccepted := clockAccepted || tag.force
  (clockMap, operationAccepted,
    if operationAccepted then tag else { tag with clockTick := currentTick })

/-- `ClockMap::take_snapshot`. -/
def takeSnapshot : ClockMap × Bool :=
  match clockMap.snapshot with
  | some _ => (clockMap, false)
  | none => ({ clockMap with snapshot := some clockMap.clocks }, true)

/-- `ClockMap::clear_snapshot`. -/
def clearSnapshot : ClockMap × Bool :=
  match clockMap.snapshot with
  | none => (clockMap, false)
  | some _ => ({ clockMap with snapshot := none }, true)

/-- `ClockMap::to_recovery_point`: the snapshot if there is one, the current clocks if not. -/
def toRecoveryPoint : RecoveryPoint where
  clocks := mapValues (fun clock : Clock => (clock.currentTick, clock.token))
    (clockMap.snapshot.getD clockMap.clocks)

end ClockMap

namespace RecoveryPoint

variable (point : RecoveryPoint)

/-- `RecoveryPoint::is_empty`. -/
def isEmpty : Bool := point.clocks.entries.isEmpty

/-- `RecoveryPoint::iter_as_clock_tags`. -/
def iterAsClockTags : List ClockTag :=
  point.clocks.entries.map fun entry =>
    ClockTag.newWithToken entry.1.peerId entry.1.clockId entry.2.1 entry.2.2

/-- `RecoveryPoint::increase_all_clocks_by`. -/
def increaseAllClocksBy (ticks : UInt64) : RecoveryPoint where
  clocks := mapValues (fun clock : UInt64 × UInt64 => (clock.1 + ticks, clock.2)) point.clocks

variable (point other : RecoveryPoint)

/-- `RecoveryPoint::has_clocks_not_in`. -/
def hasClocksNotIn : Bool :=
  point.clocks.entries.any fun entry => (other.clocks.lookup entry.1).isNone

/-- `RecoveryPoint::has_any_newer_clocks_than`. -/
def hasAnyNewerClocksThan : Bool :=
  point.clocks.entries.any fun entry =>
    (other.clocks.lookup entry.1).all fun otherClock => entry.2.1 > otherClock.1

/-- `RecoveryPoint::has_any_older_clocks_than`. -/
def hasAnyOlderClocksThan : Bool :=
  point.clocks.entries.any fun entry =>
    (other.clocks.lookup entry.1).any fun otherClock => entry.2.1 < otherClock.1

/-- One turn of `initialize_clocks_missing_from`: `or_insert_with` of the tick 1. -/
def orInsertFirstTick (randomToken : UInt64) (clocks : AList fun _ : Key => UInt64 × UInt64)
    (entry : Sigma fun _ : Key => UInt64 × UInt64) : AList fun _ : Key => UInt64 × UInt64 :=
  match clocks.lookup entry.1 with
  | some _ => clocks
  | none => clocks.insert entry.1 (1, randomToken)

/-- `RecoveryPoint::initialize_clocks_missing_from`, with the random token it draws. -/
def initializeClocksMissingFrom (randomToken : UInt64) : RecoveryPoint where
  clocks := other.clocks.entries.foldl (orInsertFirstTick randomToken) point.clocks

/-- One turn of `remove_clocks_equal_to`. -/
def removeIfEqual (clocks : AList fun _ : Key => UInt64 × UInt64)
    (entry : Sigma fun _ : Key => UInt64 × UInt64) : AList fun _ : Key => UInt64 × UInt64 :=
  match clocks.lookup entry.1 with
  | some clock => if clock.1 = entry.2.1 then clocks.erase entry.1 else clocks
  | none => clocks

/-- `RecoveryPoint::remove_clocks_equal_to`. -/
def removeClocksEqualTo : RecoveryPoint where
  clocks := other.clocks.entries.foldl removeIfEqual point.clocks

/-- `RecoveryPoint::remove_clock_if_newer_or_equal_to_tag`: the new point, and whether a
removed clock was equal to the tick of the tag. -/
def removeClockIfNewerOrEqualToTag (tag : ClockTag) : RecoveryPoint × Bool :=
  match point.clocks.lookup (Key.fromTag tag) with
  | some clock =>
    if clock.1 ≥ tag.clockTick then
      (⟨point.clocks.erase (Key.fromTag tag)⟩, clock.1 = tag.clockTick)
    else (point, false)
  | none => (point, false)

/-- The tick of a clock. -/
def tick (key : Key) : Option UInt64 :=
  (point.clocks.lookup key).map Prod.fst

end RecoveryPoint

/-- The tick of a clock in a clock map. -/
def ClockMap.tick (clockMap : ClockMap) (key : Key) : Option UInt64 :=
  (clockMap.clocks.lookup key).map Clock.currentTick

/-! ### Advancing clocks -/

/-- What advancing a clock map does to a clock: only the clock of the tag changes, and only to a
newer tick. -/
theorem ClockMap.lookup_advanceClock (clockMap : ClockMap) (tag : ClockTag) (key : Key) :
    (clockMap.advanceClock tag).clocks.lookup key =
      if key = Key.fromTag tag then
        match clockMap.clocks.lookup key with
        | some clock => some (clock.advanceTo tag.clockTick tag.token).1
        | none => if 0 < tag.clockTick then some ⟨tag.clockTick, tag.token⟩ else none
      else clockMap.clocks.lookup key := by
  unfold advanceClock advanceClockImpl
  cases hlookup : clockMap.clocks.lookup (Key.fromTag tag) with
  | some clock => grind
  | none => grind

@[simp] theorem ClockMap.snapshot_advanceClock (clockMap : ClockMap) (tag : ClockTag) :
    (clockMap.advanceClock tag).snapshot = clockMap.snapshot := by
  unfold advanceClock advanceClockImpl
  split
  · rfl
  · split <;> rfl

/-- A clock that is advanced is at least at the new tick, and at a larger tick it is the old
clock. -/
theorem Clock.advanceTo_cases (clock : Clock) (newTick newToken : UInt64) :
    (clock.currentTick < newTick ∧ (clock.advanceTo newTick newToken).1 = ⟨newTick, newToken⟩) ∨
      (newTick ≤ clock.currentTick ∧ (clock.advanceTo newTick newToken).1 = clock) := by
  unfold advanceTo
  split <;> grind

/-- An unforced operation is accepted exactly if its clock then has its tick and token, and the
tick is not zero. -/
theorem ClockMap.accepted_iff (clockMap : ClockMap) (tag : ClockTag)
    (hnonzero : ∀ clock, clockMap.clocks.lookup (Key.fromTag tag) = some clock →
      0 < clock.currentTick) :
    (clockMap.advanceClockImpl tag).2.1 = true ↔
      0 < tag.clockTick ∧ (clockMap.advanceClock tag).clocks.lookup (Key.fromTag tag) =
        some ⟨tag.clockTick, tag.token⟩ := by
  rw [lookup_advanceClock, if_pos rfl]
  unfold advanceClockImpl
  cases hlookup : clockMap.clocks.lookup (Key.fromTag tag) with
  | some clock =>
    dsimp only [Clock.advanceTo]
    obtain ⟨currentTick, token⟩ := clock
    split <;> grind
  | none => grind

/-! ### Recovery points by their ticks -/

namespace RecoveryPoint

theorem isEmpty_iff (point : RecoveryPoint) :
    point.isEmpty = true ↔ ∀ key, point.tick key = none := by
  rw [isEmpty, List.isEmpty_iff, entries_eq_nil_iff]
  simp only [tick, Option.map_eq_none_iff]

theorem tick_increaseAllClocksBy (point : RecoveryPoint) (ticks : UInt64) (key : Key) :
    (point.increaseAllClocksBy ticks).tick key = (point.tick key).map (· + ticks) := by
  rw [tick, increaseAllClocksBy, lookup_mapValues, Option.map_map, tick, Option.map_map]
  rfl

private theorem lookup_orInsertFirstTick (randomToken : UInt64)
    (clocks : AList fun _ : Key => UInt64 × UInt64) (entry : Sigma fun _ : Key => UInt64 × UInt64)
    (key : Key) :
    (orInsertFirstTick randomToken clocks entry).lookup key =
      if key = entry.1 then some ((clocks.lookup key).getD (1, randomToken))
      else clocks.lookup key := by
  unfold orInsertFirstTick
  cases hlookup : clocks.lookup entry.1 with
  | some value => grind
  | none => grind

theorem tick_initializeClocksMissingFrom (point other : RecoveryPoint) (randomToken : UInt64)
    (key : Key) : (point.initializeClocksMissingFrom other randomToken).tick key =
      match point.tick key with
      | some tick => some tick
      | none => (other.tick key).map fun _ => 1 := by
  have hlookup := @lookup_foldl_entries Key (UInt64 × UInt64) (UInt64 × UInt64) _
    (orInsertFirstTick randomToken) (fun _ _ old => some (old.getD (1, randomToken)))
    (lookup_orInsertFirstTick randomToken) other.clocks point.clocks key
  rw [tick, initializeClocksMissingFrom, hlookup, tick, tick]
  cases other.clocks.lookup key <;> cases point.clocks.lookup key <;> rfl

private theorem lookup_removeIfEqual (clocks : AList fun _ : Key => UInt64 × UInt64)
    (entry : Sigma fun _ : Key => UInt64 × UInt64) (key : Key) :
    (removeIfEqual clocks entry).lookup key =
      if key = entry.1 then (clocks.lookup key).filter fun clock => clock.1 ≠ entry.2.1
      else clocks.lookup key := by
  unfold removeIfEqual
  cases hlookup : clocks.lookup entry.1 with
  | none => grind
  | some value => grind

theorem tick_removeClocksEqualTo (point other : RecoveryPoint) (key : Key) :
    (point.removeClocksEqualTo other).tick key =
      if point.tick key = other.tick key then none else point.tick key := by
  have hlookup := @lookup_foldl_entries Key (UInt64 × UInt64) (UInt64 × UInt64) _
    removeIfEqual (fun _ value old => old.filter fun clock => clock.1 ≠ value.1)
    lookup_removeIfEqual other.clocks point.clocks key
  rw [tick, removeClocksEqualTo, hlookup, tick, tick]
  cases other.clocks.lookup key with
  | none => cases point.clocks.lookup key <;> rfl
  | some otherClock =>
    cases point.clocks.lookup key with
    | none => rfl
    | some clock =>
      obtain ⟨tick, token⟩ := clock
      by_cases heq : tick = otherClock.1 <;> simp [heq]

/-- Removing a clock for a tag: the clock of the tag goes if its tick is not below the tag's. -/
theorem tick_removeClockIfNewerOrEqualToTag (point : RecoveryPoint) (tag : ClockTag) (key : Key) :
    (point.removeClockIfNewerOrEqualToTag tag).1.tick key =
      if key = Key.fromTag tag ∧ ∃ tick, point.tick key = some tick ∧ tag.clockTick ≤ tick
      then none else point.tick key := by
  unfold removeClockIfNewerOrEqualToTag tick
  cases hlookup : point.clocks.lookup (Key.fromTag tag) with
  | none => grind
  | some clock =>
    dsimp only
    by_cases hkey : key = Key.fromTag tag
    · subst hkey
      split <;> simp [*]
    · split <;> simp [hkey]

/-- The flag tells whether the clock that goes had the tick of the tag. -/
theorem removeClockIfNewerOrEqualToTag_equal (point : RecoveryPoint) (tag : ClockTag) :
    (point.removeClockIfNewerOrEqualToTag tag).2 = true ↔
      point.tick (Key.fromTag tag) = some tag.clockTick := by
  unfold removeClockIfNewerOrEqualToTag tick
  grind

end RecoveryPoint

@[simp] theorem ClockMap.tick_toRecoveryPoint {clockMap : ClockMap} (h : clockMap.snapshot = none)
    (key : Key) : clockMap.toRecoveryPoint.tick key = clockMap.tick key := by
  rw [RecoveryPoint.tick, toRecoveryPoint, lookup_mapValues, h, Option.getD_none,
    Option.map_map, tick]
  rfl

/-! ### Snapshots -/

/-- A call that changes a clock map. -/
inductive ClockCall where
  | advance (tag : ClockTag)
  | takeSnapshot
  | clearSnapshot

/-- The map after a call. -/
def ClockCall.apply (clockMap : ClockMap) : ClockCall → ClockMap
  | .advance tag => clockMap.advanceClock tag
  | .takeSnapshot => clockMap.takeSnapshot.1
  | .clearSnapshot => clockMap.clearSnapshot.1

/-- The tags that were seen, and those that were seen when the snapshot was taken. -/
structure ClockHistory where
  seen : List ClockTag := []
  held : Option (List ClockTag) := none

/-- The history after a call. A snapshot that is held is not taken again. -/
def ClockCall.record (history : ClockHistory) : ClockCall → ClockHistory
  | .advance tag => { history with seen := history.seen ++ [tag] }
  | .takeSnapshot => { history with held := some (history.held.getD history.seen) }
  | .clearSnapshot => { history with held := none }

/-- The newest tick of a clock among tags. Tick zero does not count. -/
def newestTick (tags : List ClockTag) (key : Key) : Option ℕ :=
  ((tags.filter fun tag => key = Key.fromTag tag ∧ 0 < tag.clockTick).map
    fun tag => some tag.clockTick.toNat).foldl (Option.merge max) none

/-- The clocks have the newest ticks of the tags. -/
def HasNewestTicks (clocks : AList fun _ : Key => Clock) (tags : List ClockTag) : Prop :=
  ∀ key, (clocks.lookup key).map (fun clock => clock.currentTick.toNat) = newestTick tags key

theorem newestTick_concat (tags : List ClockTag) (tag : ClockTag) (key : Key) :
    newestTick (tags ++ [tag]) key = (newestTick tags key).merge max
      (if key = Key.fromTag tag ∧ 0 < tag.clockTick then some tag.clockTick.toNat else none) := by
  rw [newestTick, List.filter_append, List.map_append, List.foldl_append]
  split <;> simp_all [newestTick]

/-- Advancing a clock keeps the newest ticks. -/
theorem HasNewestTicks.advance {clockMap : ClockMap} {tags : List ClockTag}
    (h : HasNewestTicks clockMap.clocks tags) (tag : ClockTag) :
    HasNewestTicks (clockMap.advanceClock tag).clocks (tags ++ [tag]) := by
  intro key
  rw [newestTick_concat, ← h key, ClockMap.lookup_advanceClock]
  by_cases hkey : key = Key.fromTag tag
  · rw [if_pos hkey]
    cases clockMap.clocks.lookup key with
    | none => by_cases htick : 0 < tag.clockTick <;> simp [hkey, htick]
    | some clock =>
      -- an older tick leaves the clock as it is, also with another token
      obtain ⟨hlt, hclock⟩ | ⟨hle, hclock⟩ := clock.advanceTo_cases tag.clockTick tag.token
      · have hpos : 0 < tag.clockTick := UInt64.lt_of_le_of_lt UInt64.zero_le hlt
        simp [hkey, hclock, hpos, max_eq_right (UInt64.lt_iff_toNat_lt.mp hlt).le]
      · by_cases htick : 0 < tag.clockTick
        · simp [hkey, hclock, htick, max_eq_left (UInt64.le_iff_toNat_le.mp hle)]
        · simp [hclock, htick]
  · rw [if_neg hkey, if_neg fun hboth => hkey hboth.1, Option.merge_none_right]

/-- The map and its snapshot have the newest ticks of the tags. -/
structure ClockMap.Knows (clockMap : ClockMap) (history : ClockHistory) : Prop where
  clocks : HasNewestTicks clockMap.clocks history.seen
  snapshot : Option.Rel HasNewestTicks clockMap.snapshot history.held

namespace ClockMap.Knows

variable {clockMap : ClockMap} {history : ClockHistory} (h : clockMap.Knows history)

include h

theorem apply (call : ClockCall) : (call.apply clockMap).Knows (call.record history) := by
  obtain ⟨clocks, snapshot⟩ := clockMap
  obtain ⟨seen, held⟩ := history
  obtain ⟨hclocks, hsnapshot⟩ := h
  cases call with
  | advance tag =>
    refine ⟨HasNewestTicks.advance hclocks tag, ?_⟩
    rw [ClockCall.apply, snapshot_advanceClock]
    exact hsnapshot
  | takeSnapshot =>
    cases hsnapshot with
    | some hheld => exact ⟨hclocks, .some hheld⟩
    | none => exact ⟨hclocks, .some hclocks⟩
  | clearSnapshot => cases snapshot <;> exact ⟨hclocks, .none⟩

theorem tick_toRecoveryPoint (key : Key) : (clockMap.toRecoveryPoint.tick key).map UInt64.toNat =
    newestTick (history.held.getD history.seen) key := by
  obtain ⟨clocks, snapshot⟩ := clockMap
  obtain ⟨seen, held⟩ := history
  obtain ⟨hclocks, hsnapshot⟩ := h
  rw [RecoveryPoint.tick, toRecoveryPoint, lookup_mapValues, Option.map_map, Option.map_map]
  cases hsnapshot with
  | some hheld => exact hheld key
  | none => exact hclocks key

end ClockMap.Knows

/-- The recovery point of a clock map has the newest ticks of the tags seen so far, or of those
seen before the snapshot that is held, whatever was taken and cleared in between. -/
theorem recovery_point_newest_ticks (calls : List ClockCall) (key : Key) :
    let history := calls.foldl ClockCall.record {}
    ((calls.foldl ClockCall.apply {}).toRecoveryPoint.tick key).map UInt64.toNat =
      newestTick (history.held.getD history.seen) key := by
  have hknows : (calls.foldl ClockCall.apply {}).Knows (calls.foldl ClockCall.record {}) := by
    induction calls using List.reverseRecOn with
    | nil => exact ⟨fun _ => rfl, .none⟩
    | append_singleton calls call ih =>
      rw [List.foldl_concat, List.foldl_concat]
      exact ih.apply call
  exact hknows.tick_toRecoveryPoint key

/-!
### WAL delta resolution

`wal_delta.rs`: the log of a replica with its newest and oldest clocks, and the backwards
scan that finds from which record on the log has to be sent to another replica. The log is
seen through `SerdeWal`, as records under increasing numbers.
-/

open List

/-- Why no delta can be resolved. -/
inductive WalDeltaError where
  | empty
  | unknownClocks
  | higherThanCurrent
  | cutoff
  | untaggedRecords
  | notFound
  | walReadError (description : String)
  deriving DecidableEq

/-- The loop of `resolve_wal_delta`, over the records from the last to the first. -/
def scanBack (point : RecoveryPoint) (lastOpNum : Option ℕ) :
    List (Except String (ℕ × Option ClockTag)) → Except WalDeltaError (Option ℕ)
  | [] => .error .notFound
  | .error description :: _ => .error (.walReadError description)
  | .ok (_, none) :: _ => .error .untaggedRecords
  | .ok (opNum, some tag) :: entries =>
    let (point, removedEqual) := point.removeClockIfNewerOrEqualToTag tag
    if point.isEmpty then .ok (if removedEqual then some opNum else lastOpNum)
    else scanBack point (some opNum) entries

/-- The clocks that the scan has to satisfy: one tick later than the recovery point, from the
first tick on for clocks it lacks, without those that are up to date. -/
def openClocks (recoveryPoint newestClocks : RecoveryPoint) (randomToken : UInt64) :
    RecoveryPoint :=
  let newestClocks := newestClocks.increaseAllClocksBy 1
  ((recoveryPoint.increaseAllClocksBy 1).initializeClocksMissingFrom newestClocks
    randomToken).removeClocksEqualTo newestClocks

/-- `resolve_wal_delta` on the records in log order, with the random token of
`initialize_clocks_missing_from`. -/
def resolveWalDelta (operations : List (Except String (ℕ × Option ClockTag)))
    (recoveryPoint newestClocks oldestClocks : RecoveryPoint) (randomToken : UInt64) :
    Except WalDeltaError (Option ℕ) :=
  if recoveryPoint.isEmpty then .error .empty
  else if recoveryPoint.hasClocksNotIn newestClocks then .error .unknownClocks
  else if recoveryPoint.hasAnyNewerClocksThan newestClocks then .error .higherThanCurrent
  else
    let extended := (recoveryPoint.increaseAllClocksBy 1).initializeClocksMissingFrom
      (newestClocks.increaseAllClocksBy 1) randomToken
    if extended.hasAnyOlderClocksThan (oldestClocks.increaseAllClocksBy 1) then .error .cutoff
    else
      let point := openClocks recoveryPoint newestClocks randomToken
      if point.isEmpty then .ok none
      else scanBack point none operations.reverse

/-- An operation with the clock tag it was sent with. -/
structure OperationWithClockTag (Op : Type) where
  operation : Op
  clockTag : Option ClockTag

/-- The log with its clocks. -/
structure RecoverableWal (Op : Type) where
  wal : List (ℕ × OperationWithClockTag Op) := []
  nextOpNum : ℕ := 0
  newestClocks : ClockMap := {}
  oldestClocks : ClockMap := {}

namespace RecoverableWal

variable {Op : Type}

/-- The write at the end of `lock_and_write`. -/
def write (wal : RecoverableWal Op) (operation : OperationWithClockTag Op) : RecoverableWal Op :=
  { wal with
    wal := wal.wal ++ [(wal.nextOpNum, operation)]
    nextOpNum := wal.nextOpNum + 1 }

/-- `RecoverableWal::lock_and_write`: the number of the written record, unless the clock tag
is rejected. -/
def lockAndWrite (wal : RecoverableWal Op) (operation : OperationWithClockTag Op) :
    RecoverableWal Op × Option ℕ :=
  match operation.clockTag with
  | none => (wal.write operation, some wal.nextOpNum)
  | some tag =>
    let (newestClocks, accepted, _) := wal.newestClocks.advanceClockAndCorrectTag tag
    let wal := { wal with newestClocks }
    if accepted then (wal.write operation, some wal.nextOpNum) else (wal, none)

/-- `RecoverableWal::update_cutoff`. -/
def updateCutoff (wal : RecoverableWal Op) (cutoff : RecoveryPoint) : RecoverableWal Op :=
  { wal with
    newestClocks := cutoff.iterAsClockTags.foldl ClockMap.advanceClock wal.newestClocks
    oldestClocks := cutoff.iterAsClockTags.foldl ClockMap.advanceClock wal.oldestClocks }

/-- `RecoverableWal::resolve_wal_delta`. -/
def resolveWalDelta (wal : RecoverableWal Op) (recoveryPoint : RecoveryPoint)
    (randomToken : UInt64) : Except WalDeltaError (Option ℕ) :=
  WalDelta.resolveWalDelta (wal.wal.map fun record => .ok (record.1, record.2.clockTag))
    recoveryPoint wal.newestClocks.toRecoveryPoint wal.oldestClocks.toRecoveryPoint randomToken

end RecoverableWal

/-! ### The ticks the scan works with -/

/-- Whether the tick of a tag exceeds the recovery point, which is at tick zero for a clock it
lacks. -/
def Exceeds (point : RecoveryPoint) (tag : ClockTag) : Prop :=
  (point.tick (Key.fromTag tag)).getD 0 < tag.clockTick

/-- The tick from which on records of a clock are asked for. -/
def RecoveryPoint.wantedFrom (point : RecoveryPoint) (key : Key) : UInt64 :=
  (point.tick key).getD 0 + 1

/-- A clock on which the recovery point is behind the newest clocks. -/
def Behind (point newest : RecoveryPoint) (key : Key) : Prop :=
  ∃ newestTick, newest.tick key = some newestTick ∧ (point.tick key).getD 0 ≠ newestTick

/-- A tag at which the scan lets go of a clock. -/
def Satisfies (point : RecoveryPoint) (key : Key) (tag : ClockTag) : Prop :=
  Key.fromTag tag = key ∧ tag.clockTick ≤ point.wantedFrom key

theorem RecoveryPoint.hasClocksNotIn_eq_false (point other : RecoveryPoint) :
    point.hasClocksNotIn other = false ↔
      ∀ key tick, point.tick key = some tick → ∃ otherTick, other.tick key = some otherTick := by
  rw [hasClocksNotIn, any_eq_false]
  constructor
  · intro h key tick htick
    obtain ⟨clock, hclock, -⟩ := Option.map_eq_some_iff.mp htick
    have hentry := h ⟨key, clock⟩ (AList.mem_lookup_iff.mp hclock)
    rw [Bool.not_eq_true, Option.isNone_eq_false_iff, Option.isSome_iff_exists] at hentry
    obtain ⟨otherClock, hother⟩ := hentry
    exact ⟨otherClock.1, by rw [RecoveryPoint.tick, hother, Option.map_some]⟩
  intro h entry hentry
  obtain ⟨otherTick, hother⟩ := h entry.1 entry.2.1 (by
    rw [RecoveryPoint.tick, AList.mem_lookup_iff.mpr hentry, Option.map_some])
  obtain ⟨otherClock, hotherClock, -⟩ := Option.map_eq_some_iff.mp hother
  rw [hotherClock]
  simp

/-- The open clocks are those that are behind, each at the tick from which on it is wanted. -/
theorem tick_openClocks {point newest : RecoveryPoint} (randomToken : UInt64)
    (hknown : point.hasClocksNotIn newest = false)
    (hpositive : ∀ key tick, newest.tick key = some tick → 0 < tick) (key : Key) (tick : UInt64) :
    (openClocks point newest randomToken).tick key = some tick ↔
      Behind point newest key ∧ tick = point.wantedFrom key := by
  dsimp only [openClocks]
  rw [RecoveryPoint.tick_removeClocksEqualTo, RecoveryPoint.tick_initializeClocksMissingFrom,
    RecoveryPoint.tick_increaseAllClocksBy, RecoveryPoint.tick_increaseAllClocksBy, Behind,
    RecoveryPoint.wantedFrom]
  cases hpoint : point.tick key with
  | some current =>
    obtain ⟨newestTick, hnewest⟩ :=
      (RecoveryPoint.hasClocksNotIn_eq_false point newest).mp hknown key current hpoint
    grind
  | none =>
    cases hnewest : newest.tick key with
    | none => simp
    | some newestTick =>
      grind

/-! ### Where the scan stops -/

private theorem lastOpNum_cons (first : ℕ × ClockTag) (after : List (ℕ × ClockTag))
    (lastOpNum : Option ℕ) : ((first :: after).getLast?.map Prod.fst).or lastOpNum =
      (after.getLast?.map Prod.fst).or (some first.1) := by
  cases after with
  | nil => rfl
  | cons head tail =>
    rfl

/-- The scan of tagged records stops at the first record at which every open clock has been
satisfied. It reports that record if it has exactly the tick its clock is wanted from, and the
record after it if not. -/
theorem scanBack_ok_iff (records : List (ℕ × ClockTag)) (point : RecoveryPoint)
    (lastOpNum result : Option ℕ) (hopen : point.isEmpty = false) :
    scanBack point lastOpNum
        (records.map fun record => .ok (record.1, some record.2)) = .ok result ↔
      ∃ after stop before, records = after ++ stop :: before ∧
        (∀ key tick, point.tick key = some tick → ∃ record ∈ after ++ [stop],
          Key.fromTag record.2 = key ∧ record.2.clockTick ≤ tick) ∧
        ∃ tick, point.tick (Key.fromTag stop.2) = some tick ∧ stop.2.clockTick ≤ tick ∧
          (∀ record ∈ after, Key.fromTag record.2 = Key.fromTag stop.2 →
            tick < record.2.clockTick) ∧
          result = if tick = stop.2.clockTick then some stop.1
            else (after.getLast?.map Prod.fst).or lastOpNum := by
  induction records generalizing point lastOpNum with
  | nil =>
    constructor
    · intro h
      cases h
    · rintro ⟨after, stop, before, h, -⟩
      cases after <;> cases h
  | cons first records ih =>
    obtain ⟨opNum, tag⟩ := first
    have hflag := point.removeClockIfNewerOrEqualToTag_equal tag
    have hkept : ∀ key tick, (point.removeClockIfNewerOrEqualToTag tag).1.tick key = some tick ↔
        point.tick key = some tick ∧ ¬(key = Key.fromTag tag ∧ tag.clockTick ≤ tick) := by
      intro key tick
      rw [point.tick_removeClockIfNewerOrEqualToTag tag key]
      split
      · grind
      grind
    rw [map_cons, scanBack]
    generalize hremove : point.removeClockIfNewerOrEqualToTag tag = removed at hkept hflag
    obtain ⟨rest, removedEqual⟩ := removed
    dsimp only at hkept hflag ⊢
    have hrestEmpty : rest.isEmpty = true ↔ ∀ key tick, point.tick key = some tick →
        key = Key.fromTag tag ∧ tag.clockTick ≤ tick := by
      simp [RecoveryPoint.isEmpty_iff, Option.eq_none_iff_forall_ne_some, hkept]
    by_cases hempty : rest.isEmpty = true
    · -- the first record satisfies the last open clock
      have hall := hrestEmpty.mp hempty
      obtain ⟨key, hkey⟩ : ∃ key, point.tick key ≠ none := by
        by_contra hnone
        push Not at hnone
        rw [(RecoveryPoint.isEmpty_iff point).mpr hnone] at hopen
        cases hopen
      obtain ⟨tick, htick⟩ := Option.ne_none_iff_exists'.mp hkey
      obtain ⟨rfl, hle⟩ := hall key tick htick
      have hequal : removedEqual = decide (tick = tag.clockTick) := by
        rw [Bool.eq_iff_iff, hflag, htick, decide_eq_true_eq, Option.some.injEq]
      rw [if_pos hempty, hequal]
      constructor
      · intro h
        refine ⟨[], (opNum, tag), records, rfl, fun other otherTick hother => ?_, tick, htick, hle,
          nofun, ?_⟩
        · obtain ⟨rfl, hotherLe⟩ := hall other otherTick hother
          exact ⟨(opNum, tag), by simp, rfl, hotherLe⟩
        · simpa using (Except.ok.inj h).symm
      rintro ⟨after, stop, before, hsplit, -, stopTick, hstopTick, hstopLe, hfirst, hresult⟩
      cases after with
      | nil =>
        cases hsplit
        rw [htick] at hstopTick
        cases hstopTick
        simp [hresult]
      | cons first after =>
        -- the first record would have satisfied the clock of `stop` already
        grind
    -- some clock is still open: the scan goes on with what is left
    rw [if_neg hempty, ih rest (some opNum) (by simpa using hempty)]
    constructor
    · rintro ⟨after, stop, before, rfl, hsatisfied, tick, htick, hle, hfirst, hresult⟩
      obtain ⟨hpointTick, hnot⟩ := (hkept _ _).mp htick
      refine ⟨(opNum, tag) :: after, stop, before, rfl, fun key other hother => ?_, tick,
        hpointTick, hle, fun record hrecord hkey => ?_, ?_⟩
      · by_cases hsat : key = Key.fromTag tag ∧ tag.clockTick ≤ other
        · exact ⟨(opNum, tag), mem_cons_self .., hsat.1.symm, hsat.2⟩
        · obtain ⟨record, hmem, hrecord⟩ :=
            hsatisfied key other ((hkept _ _).mpr ⟨hother, hsat⟩)
          exact ⟨record, mem_cons_of_mem _ hmem, hrecord⟩
      · grind
      · rw [hresult, lastOpNum_cons]
    rintro ⟨after, stop, before, hsplit, hsatisfied, tick, htick, hle, hfirst, hresult⟩
    cases after with
    | nil =>
      -- all clocks would be satisfied by the first record, so nothing would be left
      cases hsplit
      refine absurd (hrestEmpty.mpr fun key other hother => ?_) hempty
      obtain ⟨record, hmem, hkey, hrecordLe⟩ := hsatisfied key other hother
      rw [nil_append, mem_singleton] at hmem
      subst hmem
      exact ⟨hkey.symm, hrecordLe⟩
    | cons first after =>
      cases hsplit
      have hstopKept : ¬(Key.fromTag stop.2 = Key.fromTag tag ∧ tag.clockTick ≤ tick) := by
        rintro ⟨hkey, hbad⟩
        have hlate := hfirst (opNum, tag) (mem_cons_self ..) hkey.symm
        exact absurd hbad (UInt64.not_le.mpr hlate)
      refine ⟨after, stop, before, rfl, fun key other hother => ?_, tick,
        (hkept _ _).mpr ⟨htick, hstopKept⟩, hle,
        fun record hrecord => hfirst record (mem_cons_of_mem _ hrecord), ?_⟩
      · obtain ⟨hpointTick, hnot⟩ := (hkept _ _).mp hother
        grind
      · rw [hresult, lastOpNum_cons]

end Stratumind.WalDelta
