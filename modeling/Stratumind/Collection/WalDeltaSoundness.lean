import Stratumind.Collection.WalDelta

/-!
# What a resolved delta contains

A replica runs `lock_and_write`, `update_cutoff` and the removal of a prefix of its log.
While no operation is forced, the ticks of every clock go up along the log, and the delta
that the scan resolves has a copy of everything above the recovery point. With forced
operations the ticks may go down, and the scan is right exactly if no record above the
recovery point is followed by a record that satisfies each open clock.
-/

namespace Stratumind.WalDelta

open Lib List

variable {Op : Type}

/-- A replica, with all operations it ever accepted under the numbers they got. -/
structure Replica (Op : Type) where
  wal : RecoverableWal Op := {}
  accepted : List (ℕ × OperationWithClockTag Op) := []

/-- What happens to a replica. Removing a prefix of the log goes with a new cutoff. -/
inductive ReplicaStep (Op : Type) where
  | lockAndWrite (operation : OperationWithClockTag Op)
  | removePrefix (count : ℕ) (cutoff : RecoveryPoint)
  | updateCutoff (cutoff : RecoveryPoint)

namespace Replica

/-- One step of a replica. -/
def step (replica : Replica Op) : ReplicaStep Op → Replica Op
  | .lockAndWrite operation =>
    match replica.wal.lockAndWrite operation with
    | (wal, none) => { replica with wal }
    | (wal, some opNum) => { wal, accepted := replica.accepted ++ [(opNum, operation)] }
  | .removePrefix count cutoff =>
    let wal := replica.wal.updateCutoff cutoff
    { replica with wal := { wal with wal := wal.wal.drop count } }
  | .updateCutoff cutoff => { replica with wal := replica.wal.updateCutoff cutoff }

/-- A whole run of a new replica. -/
def run (steps : List (ReplicaStep Op)) : Replica Op :=
  steps.foldl step {}

end Replica

/-- `transfer_operations_batch`: the operations that are sent, with the force flag set. -/
def transferOperationsBatch (batch : List (ℕ × OperationWithClockTag Op)) :
    List (OperationWithClockTag Op) :=
  batch.map fun entry =>
    { entry.2 with clockTag := entry.2.clockTag.map fun tag => { tag with force := true } }

/-- The records that carry a clock tag. -/
def tagged (records : List (ℕ × OperationWithClockTag Op)) : List (ℕ × ClockTag) :=
  records.filterMap fun record => record.2.clockTag.map fun tag => (record.1, tag)

variable {tag : ClockTag}

theorem mem_tagged {records : List (ℕ × OperationWithClockTag Op)} {opNum : ℕ} :
    (opNum, tag) ∈ tagged records ↔
      ∃ record ∈ records, record.1 = opNum ∧ record.2.clockTag = some tag := by
  simp only [tagged, mem_filterMap, Option.map_eq_some_iff, Prod.mk.injEq]
  grind

theorem map_ok_tagged {records : List (ℕ × OperationWithClockTag Op)}
    (h : ∀ record ∈ records, record.2.clockTag ≠ none) :
    (records.map fun record => (Except.ok (record.1, record.2.clockTag) :
        Except String (ℕ × Option ClockTag))) =
      (tagged records).map fun record => .ok (record.1, some record.2) := by
  induction records with
  | nil => rfl
  | cons record records ih =>
    obtain ⟨hhead, htail⟩ := forall_mem_cons.mp h
    obtain ⟨tag, htag⟩ := Option.ne_none_iff_exists'.mp hhead
    have hcons : tagged (record :: records) = (record.1, tag) :: tagged records := by
      rw [tagged, filterMap_cons_some (by rw [htag, Option.map_some]), tagged]
    rw [hcons, map_cons, map_cons, ih htail, htag]

/-! ### Invariants of the clocks -/

/-- The newest clocks cover the accepted operations, whose numbers go up. -/
structure Covered (replica : Replica Op) : Prop where
  snapshot : replica.wal.newestClocks.snapshot = none
  positive : ∀ key clock, replica.wal.newestClocks.clocks.lookup key = some clock →
    0 < clock.currentTick
  numbered : replica.accepted.Pairwise fun left right => left.1 < right.1
  bounded : ∀ record ∈ replica.accepted, record.1 < replica.wal.nextOpNum
  suffix : replica.wal.wal <:+ replica.accepted
  taggedAll : ∀ record ∈ replica.accepted, record.2.clockTag ≠ none
  newest : ∀ record ∈ tagged replica.accepted, 0 < record.2.clockTick →
    ∃ clock, replica.wal.newestClocks.clocks.lookup (Key.fromTag record.2) = some clock ∧
      record.2.clockTick ≤ clock.currentTick

variable {clock : Clock}

/-- A clock map after clocks were advanced: every clock it had is there, unchanged or raised. -/
structure Advances (old new : ClockMap) : Prop where
  snapshot : new.snapshot = old.snapshot
  positive : (∀ key clock, old.clocks.lookup key = some clock → 0 < clock.currentTick) →
    ∀ key clock, new.clocks.lookup key = some clock → 0 < clock.currentTick
  raises : ∀ key clock, old.clocks.lookup key = some clock →
    ∃ clock', new.clocks.lookup key = some clock' ∧
      (clock' = clock ∨ clock.currentTick < clock'.currentTick)

private theorem advances_advanceClock (clockMap : ClockMap) (tag : ClockTag) :
    Advances clockMap (clockMap.advanceClock tag) := by
  refine ⟨ClockMap.snapshot_advanceClock _ _, fun h key clock hlookup => ?_, fun key clock h => ?_⟩
  · rw [ClockMap.lookup_advanceClock] at hlookup
    have hadvanced := fun old : Clock => old.advanceTo_cases tag.clockTick tag.token
    cases hold : clockMap.clocks.lookup key <;> grind
  · rw [ClockMap.lookup_advanceClock, h]
    have hadvanced := clock.advanceTo_cases tag.clockTick tag.token
    grind

private theorem advances_foldl (tags : List ClockTag) (clockMap : ClockMap) :
    Advances clockMap (tags.foldl ClockMap.advanceClock clockMap) := by
  induction tags generalizing clockMap with
  | nil => exact ⟨rfl, id, fun _ clock h => ⟨clock, h, Or.inl rfl⟩⟩
  | cons tag tags ih =>
    have hfirst := advances_advanceClock clockMap tag
    have hrest := ih (clockMap.advanceClock tag)
    refine ⟨hrest.snapshot.trans hfirst.snapshot, hrest.positive ∘ hfirst.positive,
      fun key clock h => ?_⟩
    obtain ⟨middle, hmiddle, hraised⟩ := hfirst.raises key clock h
    obtain ⟨last, hlast, hraised'⟩ := hrest.raises key middle hmiddle
    grind

/-- A raised clock still covers the ticks the old one covered. -/
private theorem le_of_raised {clock' : Clock} {tick : UInt64}
    (h : clock' = clock ∨ clock.currentTick < clock'.currentTick) (hle : tick ≤ clock.currentTick) :
    tick ≤ clock'.currentTick := by
  rcases h with rfl | hlt
  · exact hle
  · exact UInt64.le_trans hle (UInt64.le_of_lt hlt)

variable {replica : Replica Op} {wal : RecoverableWal Op}

/-- Advancing the newest clocks keeps what they cover. -/
private theorem Covered.advance (h : Covered replica)
    (hadvances : Advances replica.wal.newestClocks wal.newestClocks)
    (hwal : wal.wal <:+ replica.wal.wal) (hnext : wal.nextOpNum = replica.wal.nextOpNum) :
    Covered { replica with wal } where
  snapshot := hadvances.snapshot.trans h.snapshot
  positive := hadvances.positive h.positive
  numbered := h.numbered
  bounded := hnext ▸ h.bounded
  suffix := hwal.trans h.suffix
  taggedAll := h.taggedAll
  newest := by
    intro record hrecord hpositive
    obtain ⟨clock, hclock, hle⟩ := h.newest record hrecord hpositive
    obtain ⟨clock', hclock', hraised⟩ := hadvances.raises _ _ hclock
    exact ⟨clock', hclock', le_of_raised hraised hle⟩

private theorem tagged_append (left right : List (ℕ × OperationWithClockTag Op)) :
    tagged (left ++ right) = tagged left ++ tagged right :=
  filterMap_append

private theorem tagged_singleton {opNum : ℕ} {operation : OperationWithClockTag Op}
    (h : operation.clockTag = some tag) : tagged [(opNum, operation)] = [(opNum, tag)] := by
  rw [tagged, filterMap_cons_some (by rw [h, Option.map_some]), filterMap_nil]

/-- What `lock_and_write` does with a tagged operation: the newest clocks advance, and the
operation is written if it is accepted. -/
theorem Replica.step_lockAndWrite (replica : Replica Op) {operation : OperationWithClockTag Op}
    (htag : operation.clockTag = some tag) :
    ((replica.wal.newestClocks.advanceClockImpl tag).2.1 || tag.force) = true ∧
        replica.step (.lockAndWrite operation) =
          { wal := { replica.wal with
              wal := replica.wal.wal ++ [(replica.wal.nextOpNum, operation)]
              nextOpNum := replica.wal.nextOpNum + 1
              newestClocks := replica.wal.newestClocks.advanceClock tag }
            accepted := replica.accepted ++ [(replica.wal.nextOpNum, operation)] } ∨
      ((replica.wal.newestClocks.advanceClockImpl tag).2.1 || tag.force) = false ∧
        replica.step (.lockAndWrite operation) =
          { replica with wal := { replica.wal with
              newestClocks := replica.wal.newestClocks.advanceClock tag } } := by
  unfold step RecoverableWal.lockAndWrite ClockMap.advanceClockAndCorrectTag
    ClockMap.advanceClock
  dsimp only
  rw [htag]
  dsimp only
  generalize replica.wal.newestClocks.advanceClockImpl tag = advanced
  obtain ⟨clocks, clockAccepted, tick⟩ := advanced
  cases clockAccepted || tag.force with
  | true => exact Or.inl ⟨rfl, rfl⟩
  | false => exact Or.inr ⟨rfl, rfl⟩

private theorem advanceClock_covers_tag (clockMap : ClockMap) (h : 0 < tag.clockTick) :
    ∃ clock, (clockMap.advanceClock tag).clocks.lookup (Key.fromTag tag) = some clock ∧
      tag.clockTick ≤ clock.currentTick := by
  rw [ClockMap.lookup_advanceClock, if_pos rfl]
  cases clockMap.clocks.lookup (Key.fromTag tag) with
  | none => exact ⟨_, if_pos h, UInt64.le_refl _⟩
  | some clock =>
    refine ⟨_, rfl, ?_⟩
    rcases clock.advanceTo_cases tag.clockTick tag.token with ⟨-, heq⟩ | ⟨hle, heq⟩
    · rw [heq]
      exact UInt64.le_refl _
    · rw [heq]
      exact hle

/-- A new operation is covered if the newest clocks have reached its tick. -/
private theorem Covered.append (h : Covered replica) {operation : OperationWithClockTag Op}
    (htag : operation.clockTag = some tag)
    (hclock : 0 < tag.clockTick → ∃ clock,
      replica.wal.newestClocks.clocks.lookup (Key.fromTag tag) = some clock ∧
        tag.clockTick ≤ clock.currentTick) :
    Covered
      { wal := { replica.wal with
          wal := replica.wal.wal ++ [(replica.wal.nextOpNum, operation)]
          nextOpNum := replica.wal.nextOpNum + 1 }
        accepted := replica.accepted ++ [(replica.wal.nextOpNum, operation)] } where
  snapshot := h.snapshot
  positive := h.positive
  numbered := pairwise_append.mpr ⟨h.numbered, pairwise_singleton _ _, fun left hleft =>
    forall_mem_singleton.mpr (h.bounded left hleft)⟩
  bounded := forall_mem_append.mpr ⟨fun record hrecord =>
    Nat.lt_succ_of_lt (h.bounded record hrecord), forall_mem_singleton.mpr (Nat.lt_succ_self _)⟩
  suffix := suffix_append_inj_of_length_eq rfl |>.mpr ⟨h.suffix, rfl⟩
  taggedAll := forall_mem_append.mpr ⟨h.taggedAll,
    forall_mem_singleton.mpr (htag ▸ Option.some_ne_none _)⟩
  newest := by
    rw [tagged_append, tagged_singleton htag]
    exact forall_mem_append.mpr ⟨h.newest, forall_mem_singleton.mpr hclock⟩

/-- Steps keep the newest clocks above everything accepted. -/
theorem Covered.step (h : Covered replica) {step : ReplicaStep Op}
    (htag : ∀ operation, step = .lockAndWrite operation → operation.clockTag ≠ none) :
    Covered (replica.step step) := by
  cases step with
  | updateCutoff cutoff => exact h.advance (advances_foldl _ _) (suffix_refl _) rfl
  | removePrefix count cutoff => exact h.advance (advances_foldl _ _) (drop_suffix count _) rfl
  | lockAndWrite operation =>
    obtain ⟨tag, htag⟩ := Option.ne_none_iff_exists'.mp (htag operation rfl)
    have hadvanced := @Covered.advance _ _
      { replica.wal with newestClocks := replica.wal.newestClocks.advanceClock tag } h
      (advances_advanceClock _ tag) (suffix_refl _) rfl
    rcases replica.step_lockAndWrite htag with ⟨-, hstep⟩ | ⟨-, hstep⟩
    · rw [hstep]
      exact hadvanced.append htag (advanceClock_covers_tag _)
    · rw [hstep]
      exact hadvanced

theorem covered_empty : Covered ({} : Replica Op) where
  snapshot := rfl
  positive := nofun
  numbered := Pairwise.nil
  bounded := nofun
  suffix := suffix_refl _
  taggedAll := nofun
  newest := nofun

/-- In a run of tagged operations the newest clocks stay above everything accepted. -/
theorem Covered.foldl (h : Covered replica) (steps : List (ReplicaStep Op))
    (htag : ∀ operation, .lockAndWrite operation ∈ steps → operation.clockTag ≠ none) :
    Covered (steps.foldl Replica.step replica) := by
  refine foldlRecOn (motive := Covered) steps _ h fun replica hreplica step hstep => ?_
  exact hreplica.step fun operation heq => htag operation (heq ▸ hstep)

/-! ### Reading the result of a resolution -/

/-- The recovery point is refused without a look at the log. -/
def Refused (wal : RecoverableWal Op) (point : RecoveryPoint) : Prop :=
  point.isEmpty = true ∨ point.hasClocksNotIn wal.newestClocks.toRecoveryPoint = true ∨
    point.hasAnyNewerClocksThan wal.newestClocks.toRecoveryPoint = true

/-- The tick from which on records are wanted is not above a tick that exceeds the point. -/
theorem wantedFrom_le_of_exceeds {point : RecoveryPoint}
    (h : Exceeds point tag) : point.wantedFrom (Key.fromTag tag) ≤ tag.clockTick := by
  unfold Exceeds at h
  unfold RecoveryPoint.wantedFrom
  grind

section Resolution

variable {replica : Replica Op} {point : RecoveryPoint} {randomToken : UInt64}

/-- The newest clocks of a covered replica as a recovery point. -/
theorem Covered.newest_positive (h : Covered replica) (key : Key) (tick : UInt64)
    (htick : replica.wal.newestClocks.toRecoveryPoint.tick key = some tick) : 0 < tick := by
  rw [ClockMap.tick_toRecoveryPoint h.snapshot, ClockMap.tick, Option.map_eq_some_iff] at htick
  obtain ⟨clock, hclock, rfl⟩ := htick
  exact h.positive key clock hclock

variable {record : ℕ × ClockTag}

/-- A record above the recovery point belongs to a clock that is behind. -/
theorem Covered.behind_of_exceeds (h : Covered replica) (hrecord : record ∈ tagged replica.accepted)
    (hexceeds : Exceeds point record.2) :
    Behind point replica.wal.newestClocks.toRecoveryPoint (Key.fromTag record.2) := by
  have hpositive : 0 < record.2.clockTick :=
    UInt64.lt_of_le_of_lt (UInt64.le_iff_toNat_le.mpr (Nat.zero_le _)) hexceeds
  obtain ⟨clock, hclock, hle⟩ := h.newest record hrecord hpositive
  refine ⟨clock.currentTick, ?_, fun heq => ?_⟩
  · rw [ClockMap.tick_toRecoveryPoint h.snapshot, ClockMap.tick, hclock, Option.map_some]
  · unfold Exceeds at hexceeds
    rw [heq] at hexceeds
    exact UInt64.lt_irrefl _ (UInt64.lt_of_lt_of_le hexceeds hle)

/-- A resolution that succeeds with a record number has scanned down to a record at which every
clock that is behind is satisfied. -/
theorem Covered.resolve_ok (h : Covered replica) {result : Option ℕ}
    (hresolve : replica.wal.resolveWalDelta point randomToken = .ok result) :
    (result = none ∧ ∀ key, ¬Behind point replica.wal.newestClocks.toRecoveryPoint key) ∨
      ∃ after stop before, (tagged replica.wal.wal).reverse = after ++ stop :: before ∧
        (∀ key, Behind point replica.wal.newestClocks.toRecoveryPoint key →
          ∃ record ∈ after ++ [stop], Satisfies point key record.2) ∧
        Satisfies point (Key.fromTag stop.2) stop.2 ∧
        result = if point.wantedFrom (Key.fromTag stop.2) = stop.2.clockTick then some stop.1
          else after.getLast?.map Prod.fst := by
  have htagged : ∀ record ∈ replica.wal.wal, record.2.clockTag ≠ none :=
    fun record hmem => h.taggedAll record (h.suffix.subset hmem)
  unfold RecoverableWal.resolveWalDelta resolveWalDelta at hresolve
  rw [map_ok_tagged htagged] at hresolve
  split at hresolve
  · cases hresolve
  split at hresolve
  · cases hresolve
  rename_i hknown
  split at hresolve
  · cases hresolve
  dsimp only at hresolve
  split at hresolve
  · cases hresolve
  have hopen := tick_openClocks randomToken (Bool.not_eq_true _ ▸ hknown) h.newest_positive
  split at hresolve
  · rename_i hempty
    refine Or.inl ⟨(Except.ok.inj hresolve).symm, fun key hbehind => ?_⟩
    have hnone := (RecoveryPoint.isEmpty_iff _).mp hempty key
    rw [(hopen key (point.wantedFrom key)).mpr ⟨hbehind, rfl⟩] at hnone
    cases hnone
  rename_i hnonempty
  rw [← map_reverse, scanBack_ok_iff _ _ _ _ (by simpa using hnonempty)] at hresolve
  obtain ⟨after, stop, before, hsplit, hsatisfied, tick, htick, hle, -, hresult⟩ := hresolve
  obtain ⟨-, rfl⟩ := (hopen _ _).mp htick
  refine Or.inr ⟨after, stop, before, hsplit, fun key hbehind => ?_, ⟨rfl, hle⟩, ?_⟩
  · obtain ⟨record, hmem, hkey, hrecordLe⟩ :=
      hsatisfied key (point.wantedFrom key) ((hopen _ _).mpr ⟨hbehind, rfl⟩)
    exact ⟨record, hmem, hkey, hrecordLe⟩
  · rw [hresult, Option.or_none]

/-- Numbers of tagged records go up. -/
theorem Covered.numbered_tagged (h : Covered replica) :
    (tagged replica.accepted).Pairwise fun left right => left.1 < right.1 := by
  refine Pairwise.filterMap _ (fun left right hlt left' hleft right' hright => ?_) h.numbered
  obtain ⟨tag, -, rfl⟩ := Option.map_eq_some_iff.mp hleft
  obtain ⟨tag', -, rfl⟩ := Option.map_eq_some_iff.mp hright
  exact hlt

private theorem tagged_suffix {left right : List (ℕ × OperationWithClockTag Op)}
    (h : left <:+ right) : tagged left <:+ tagged right := by
  obtain ⟨front, rfl⟩ := h
  exact ⟨tagged front, (tagged_append front left).symm⟩

/-- The scanned part of a numbered log is what is not below the record it stops at. -/
theorem mem_scanned_iff {records after before : List (ℕ × ClockTag)} {stop : ℕ × ClockTag}
    (hnumbered : records.Pairwise fun left right => left.1 < right.1)
    (hsplit : records.reverse = after ++ stop :: before) (hmem : record ∈ records) :
    record ∈ after ++ [stop] ↔ stop.1 ≤ record.1 := by
  have hreverse : (after ++ stop :: before).Pairwise fun left right => right.1 < left.1 := by
    rw [← hsplit]
    exact pairwise_reverse.mpr hnumbered
  obtain ⟨-, hright, hcross⟩ := pairwise_append.mp hreverse
  constructor
  · intro h
    rcases mem_append.mp h with h | h
    · exact Nat.le_of_lt (hcross record h stop mem_cons_self)
    · rw [mem_singleton.mp h]
  intro h
  have hmem' : record ∈ after ++ stop :: before := hsplit ▸ mem_reverse.mpr hmem
  rcases mem_append.mp hmem' with hafter | hrest
  · exact mem_append_left _ hafter
  rcases mem_cons.mp hrest with rfl | hbefore
  · simp
  · have hlt := (pairwise_cons.mp hright).1 record hbefore
    omega

/-- A scanned record that is wanted is in the delta. -/
theorem delta_le_of_scanned {records after before : List (ℕ × ClockTag)} {stop : ℕ × ClockTag}
    (hnumbered : records.Pairwise fun left right => left.1 < right.1)
    (hsplit : records.reverse = after ++ stop :: before)
    (hstop : Satisfies point (Key.fromTag stop.2) stop.2) (hmem : record ∈ after ++ [stop])
    (hwanted : point.wantedFrom (Key.fromTag record.2) ≤ record.2.clockTick) :
    ∃ n, (if point.wantedFrom (Key.fromTag stop.2) = stop.2.clockTick then some stop.1
        else after.getLast?.map Prod.fst) = some n ∧ n ≤ record.1 := by
  have hreverse : (after ++ stop :: before).Pairwise fun left right => right.1 < left.1 := by
    rw [← hsplit]
    exact pairwise_reverse.mpr hnumbered
  obtain ⟨hleft, -, hcross⟩ := pairwise_append.mp hreverse
  rcases mem_append.mp hmem with hafter | hlast
  · by_cases hequal : point.wantedFrom (Key.fromTag stop.2) = stop.2.clockTick
    · exact ⟨stop.1, if_pos hequal, Nat.le_of_lt (hcross record hafter stop mem_cons_self)⟩
    have hne : after ≠ [] := ne_nil_of_mem hafter
    refine ⟨(after.getLast hne).1, ?_, ?_⟩
    · rw [if_neg hequal, getLast?_eq_some_getLast hne, Option.map_some]
    -- the last of the scanned records has the least number
    obtain ⟨front, last, rfl⟩ : ∃ front last, after = front ++ [last] :=
      ⟨after.dropLast, after.getLast hne, (dropLast_append_getLast hne).symm⟩
    grind
  · rw [mem_singleton.mp hlast] at hwanted ⊢
    have hequal := UInt64.le_antisymm hwanted hstop.2
    exact ⟨stop.1, if_pos hequal, le_rfl⟩

end Resolution

/-! ### Without forced operations -/

/-- Along the accepted operations the ticks of each clock go up, and an equal tick is the same
tag again. -/
structure Monotone (replica : Replica Op) : Prop where
  covered : Covered replica
  positive : ∀ record ∈ tagged replica.accepted, 0 < record.2.clockTick
  current : ∀ record ∈ tagged replica.accepted, record.2.force = false ∧ ∀ clock,
    replica.wal.newestClocks.clocks.lookup (Key.fromTag record.2) = some clock →
      record.2.clockTick = clock.currentTick → record.2.token = clock.token
  ascending : (tagged replica.accepted).Pairwise fun left right =>
    Key.fromTag left.2 = Key.fromTag right.2 → left.2.clockTick ≤ right.2.clockTick ∧
      (left.2.clockTick = right.2.clockTick → left.2 = right.2)

/-- Advancing the newest clocks keeps the order of the accepted ticks. -/
private theorem Monotone.advance (h : Monotone replica)
    (hadvances : Advances replica.wal.newestClocks wal.newestClocks)
    (hcovered : Covered { replica with wal }) : Monotone { replica with wal } where
  covered := hcovered
  positive := h.positive
  ascending := h.ascending
  current := by
    intro record hrecord
    obtain ⟨hforce, htoken⟩ := h.current record hrecord
    refine ⟨hforce, fun clock' hclock' heq => ?_⟩
    obtain ⟨clock, hclock, hle⟩ := h.covered.newest record hrecord (h.positive record hrecord)
    obtain ⟨raised, hraised, hcases⟩ := hadvances.raises _ _ hclock
    grind

/-- The operations of a step carry a clock tag without force. -/
def ReplicaStep.Unforced (step : ReplicaStep Op) : Prop :=
  ∀ operation, step = .lockAndWrite operation →
    ∃ tag, operation.clockTag = some tag ∧ tag.force = false

theorem Monotone.step (h : Monotone replica) {step : ReplicaStep Op}
    (hunforced : step.Unforced) : Monotone (replica.step step) := by
  have hcovered : Covered (replica.step step) := by
    refine h.covered.step fun operation heq => ?_
    obtain ⟨tag, htag, -⟩ := hunforced operation heq
    rw [htag]
    exact Option.some_ne_none _
  cases step with
  | updateCutoff cutoff => exact h.advance (advances_foldl _ _) hcovered
  | removePrefix count cutoff => exact h.advance (advances_foldl _ _) hcovered
  | lockAndWrite operation =>
    obtain ⟨tag, htag, hforce⟩ := hunforced operation rfl
    have hadvances := advances_advanceClock replica.wal.newestClocks tag
    have hadvanced := @Monotone.advance _ _
      { replica.wal with newestClocks := replica.wal.newestClocks.advanceClock tag } h hadvances
      (h.covered.advance hadvances (suffix_refl _) rfl)
    rcases replica.step_lockAndWrite htag with ⟨haccepted, hstep⟩ | ⟨-, hstep⟩
    · rw [hforce, Bool.or_false] at haccepted
      obtain ⟨hpositive, hnewClock⟩ := (replica.wal.newestClocks.accepted_iff tag
        (h.covered.positive (Key.fromTag tag))).mp haccepted
      rw [hstep] at hcovered ⊢
      refine ⟨hcovered, ?_, ?_, ?_⟩ <;> rw [tagged_append, tagged_singleton htag]
      · exact forall_mem_append.mpr ⟨h.positive, forall_mem_singleton.mpr hpositive⟩
      · refine forall_mem_append.mpr ⟨hadvanced.current, forall_mem_singleton.mpr
          ⟨hforce, fun clock hclock _ => ?_⟩⟩
        exact congrArg Clock.token (Option.some.inj (hnewClock.symm.trans hclock))
      refine pairwise_append.mpr ⟨h.ascending, pairwise_singleton _ _, fun left hleft =>
        forall_mem_singleton.mpr fun hkey => ?_⟩
      -- the clock that accepts the tag has its tick and covers the earlier record
      obtain ⟨clock, hclock, hle⟩ := h.covered.newest left hleft (h.positive left hleft)
      obtain ⟨raised, hraised, hcases⟩ := hadvances.raises _ _ hclock
      obtain rfl : raised = ⟨tag.clockTick, tag.token⟩ := by
        rw [hkey] at hraised
        exact Option.some.inj (hraised.symm.trans hnewClock)
      refine ⟨le_of_raised hcases hle, fun htick => ?_⟩
      obtain ⟨hleftForce, htoken⟩ := hadvanced.current left hleft
      obtain ⟨hpeer, hclockId⟩ := Key.mk.inj hkey
      obtain ⟨opNum, peerId, clockId, clockTick, token, force⟩ := left
      cases tag
      grind
    · rw [hstep]
      exact hadvanced

theorem monotone_run (steps : List (ReplicaStep Op))
    (hunforced : ∀ step ∈ steps, step.Unforced) : Monotone (Replica.run steps) := by
  refine foldlRecOn (motive := Monotone) steps _ ⟨covered_empty, fun _ h => ?_, fun _ h => ?_,
    Pairwise.nil⟩ fun replica hreplica step hstep => hreplica.step (hunforced step hstep)
  · cases h
  · cases h

/-- A record that the recovery point asks for: its tick exceeds the point's, or the point lacks
its clock. -/
def Wanted (point : RecoveryPoint) (tag : ClockTag) : Prop :=
  ∀ tick, point.tick (Key.fromTag tag) = some tick → tick < tag.clockTick

/-- Without forced operations the scanned part of the log holds a copy of every record that
the point asks for. -/
private theorem Monotone.exists_scanned_copy (h : Monotone replica) {point : RecoveryPoint}
    {after before : List (ℕ × ClockTag)} {stop record : ℕ × ClockTag}
    (hsplit : (tagged replica.wal.wal).reverse = after ++ stop :: before)
    (hsatisfied : ∀ key, Behind point replica.wal.newestClocks.toRecoveryPoint key →
      ∃ record ∈ after ++ [stop], Satisfies point key record.2)
    (hrecord : record ∈ tagged replica.accepted) (hexceeds : Exceeds point record.2) :
    ∃ copy ∈ after ++ [stop], copy.2 = record.2 ∧ record.1 ≤ copy.1 := by
  have hnumbered := h.covered.numbered_tagged
  have hsuffix := tagged_suffix h.covered.suffix
  obtain ⟨hit, hhit, hkey, hle⟩ := hsatisfied _ (h.covered.behind_of_exceeds hrecord hexceeds)
  have hhitMem : hit ∈ tagged replica.wal.wal := by
    rw [← mem_reverse, hsplit, append_cons]
    exact mem_append_left _ hhit
  have hwanted := wantedFrom_le_of_exceeds hexceeds
  by_cases horder : hit.1 ≤ record.1
  · -- the record is not older than one that is still in the log
    have hmem : record ∈ tagged replica.wal.wal := by
      obtain ⟨front, hfront⟩ := hsuffix
      grind
    have hwalNumbered := Pairwise.sublist hsuffix.sublist h.covered.numbered_tagged
    have hstopLe := (mem_scanned_iff hwalNumbered hsplit hhitMem).mp hhit
    exact ⟨record, (mem_scanned_iff hwalNumbered hsplit hmem).mpr (by omega), rfl, le_rfl⟩
  -- the satisfying record is a later copy of the same operation
  have hascending : Key.fromTag record.2 = Key.fromTag hit.2 →
      record.2.clockTick ≤ hit.2.clockTick ∧
        (record.2.clockTick = hit.2.clockTick → record.2 = hit.2) := by
    have hboth := h.ascending.and hnumbered
    have hhitAccepted := hsuffix.subset hhitMem
    obtain ⟨front, back, hback⟩ := append_of_mem hrecord
    rw [hback] at hboth hhitAccepted
    obtain ⟨-, hrest, hcross⟩ := pairwise_append.mp hboth
    rcases mem_append.mp hhitAccepted with hfront | hrestMem
    · have hlt := (hcross hit hfront record mem_cons_self).2
      omega
    · rcases mem_cons.mp hrestMem with rfl | hbackMem
      · omega
      · exact ((pairwise_cons.mp hrest).1 hit hbackMem).1
  obtain ⟨htickLe, hsame⟩ := hascending hkey.symm
  have hequal : record.2.clockTick = hit.2.clockTick :=
    UInt64.le_antisymm htickLe (UInt64.le_trans hle hwanted)
  exact ⟨hit, hhit, (hsame hequal).symm, by omega⟩

/-- Without forced operations, a resolved delta holds every accepted record the recovery point
asks for, or a later copy of it under the same clock tag; and if there is nothing to send, no
accepted record is asked for. -/
theorem resolved_delta_complete (steps : List (ReplicaStep Op))
    (hunforced : ∀ step ∈ steps, step.Unforced) (point : RecoveryPoint) (randomToken : UInt64) :
    (∀ n, (Replica.run steps).wal.resolveWalDelta point randomToken = .ok (some n) →
        ∀ record ∈ (Replica.run steps).accepted, ∀ tag, record.2.clockTag = some tag →
          Wanted point tag → ∃ copy ∈ (Replica.run steps).wal.wal,
            copy.2.clockTag = some tag ∧ record.1 ≤ copy.1 ∧ n ≤ copy.1) ∧
      ((Replica.run steps).wal.resolveWalDelta point randomToken = .ok none →
        ∀ record ∈ (Replica.run steps).accepted, ∀ tag, record.2.clockTag = some tag →
          ¬Wanted point tag) := by
  have hmonotone := monotone_run steps hunforced
  generalize Replica.run steps = replica at hmonotone ⊢
  have hsuffix := tagged_suffix hmonotone.covered.suffix
  have hnumbered := Pairwise.sublist hsuffix.sublist hmonotone.covered.numbered_tagged
  have hexceeds : ∀ record ∈ replica.accepted, ∀ tag, record.2.clockTag = some tag →
      Wanted point tag → (record.1, tag) ∈ tagged replica.accepted ∧ Exceeds point tag := by
    intro record hrecord tag htag hwanted
    have hmem : (record.1, tag) ∈ tagged replica.accepted :=
      mem_tagged.mpr ⟨record, hrecord, rfl, htag⟩
    refine ⟨hmem, ?_⟩
    unfold Exceeds
    cases hpoint : point.tick (Key.fromTag tag) with
    | none => exact hmonotone.positive _ hmem
    | some tick => exact hwanted tick hpoint
  have hdelta : ∀ result, replica.wal.resolveWalDelta point randomToken = .ok result →
      ∀ record ∈ replica.accepted, ∀ tag, record.2.clockTag = some tag → Wanted point tag →
        ∃ n, result = some n ∧ ∃ copy ∈ replica.wal.wal, copy.2.clockTag = some tag ∧
          record.1 ≤ copy.1 ∧ n ≤ copy.1 := by
    intro result hresolve record hrecord tag htag hwanted
    obtain ⟨hmem, hexceeds⟩ := hexceeds record hrecord tag htag hwanted
    rcases hmonotone.covered.resolve_ok hresolve with ⟨-, hnone⟩ |
        ⟨after, stop, before, hsplit, hsatisfied, hstop, rfl⟩
    · exact absurd (hmonotone.covered.behind_of_exceeds hmem hexceeds) (hnone _)
    obtain ⟨copy, hcopy, hcopyTag, hle⟩ :=
      hmonotone.exists_scanned_copy hsplit hsatisfied hmem hexceeds
    obtain ⟨n, hresult, hn⟩ := delta_le_of_scanned hnumbered hsplit hstop hcopy
      (by rw [hcopyTag]; exact wantedFrom_le_of_exceeds hexceeds)
    have hcopyMem : copy ∈ tagged replica.wal.wal := by
      rw [← mem_reverse, hsplit, append_cons]
      exact mem_append_left _ hcopy
    obtain ⟨original, horiginal, hnum, htag'⟩ := mem_tagged.mp hcopyMem
    refine ⟨n, hresult, original, horiginal, ?_, by omega, by omega⟩
    rw [htag', hcopyTag]
  grind

/-- An operation under a tag of the given clock of peer 1. -/
def taggedWrite (clockId : UInt32) (clockTick token : UInt64) : ReplicaStep Unit :=
  .lockAndWrite ⟨(), some (ClockTag.newWithToken 1 clockId clockTick token)⟩

/-- A recovery point with one clock of peer 1. -/
def onePoint (clockId : UInt32) (clockTick : UInt64) : RecoveryPoint :=
  ⟨AList.insert ⟨1, clockId⟩ (clockTick, 0) ∅⟩

private theorem taggedWrite_unforced (clockId : UInt32) (clockTick token : UInt64) :
    (taggedWrite clockId clockTick token).Unforced := by
  intro operation h
  cases h
  exact ⟨_, rfl, rfl⟩

/-- Three writes of one clock, the first of which is removed. -/
private def truncatedWrites : List (ReplicaStep Unit) :=
  [taggedWrite 0 1 11, taggedWrite 0 2 12, taggedWrite 0 3 13, .removePrefix 1 (onePoint 0 1)]

private theorem truncatedWrites_unforced : ∀ step ∈ truncatedWrites, step.Unforced := by
  simp only [truncatedWrites, forall_mem_cons, not_mem_nil, IsEmpty.forall_iff,
    implies_true, and_true]
  exact ⟨taggedWrite_unforced _ _ _, taggedWrite_unforced _ _ _, taggedWrite_unforced _ _ _, nofun⟩

/-- The third write is wanted, and it is stored from the resolved number on. -/
theorem resolved_delta_complete_truncated :
    (∀ step ∈ truncatedWrites, step.Unforced) ∧
      (Replica.run truncatedWrites).wal.resolveWalDelta (onePoint 0 2) 0 = .ok (some 2) ∧
      ∃ copy ∈ (Replica.run truncatedWrites).wal.wal,
        copy.2.clockTag = some (ClockTag.newWithToken 1 0 3 13) ∧ 2 ≤ copy.1 ∧ 2 ≤ copy.1 := by
  have hresolve : (Replica.run truncatedWrites).wal.resolveWalDelta (onePoint 0 2) 0 =
      .ok (some 2) := by decide +kernel
  have hwanted : Wanted (onePoint 0 2) (ClockTag.newWithToken 1 0 3 13) := by
    intro tick htick
    cases htick
    decide
  have haccepted : (2, ⟨(), some (ClockTag.newWithToken 1 0 3 13)⟩) ∈
      (Replica.run truncatedWrites).accepted := .tail _ (.tail _ (.head _))
  exact ⟨truncatedWrites_unforced, hresolve,
    (resolved_delta_complete truncatedWrites truncatedWrites_unforced (onePoint 0 2) 0).1 2
      hresolve _ haccepted _ rfl hwanted⟩

/-- One operation of a first clock, and the same operation of a second clock twice. -/
private def repeatedWrites : List (ReplicaStep Unit) :=
  [taggedWrite 0 1 11, taggedWrite 1 1 12, taggedWrite 1 1 12]

/-- A tag that is received again is accepted again, and the delta starts at its last copy. -/
theorem resolved_delta_skips_first_copy :
    (∀ step ∈ repeatedWrites, step.Unforced) ∧
      (Replica.run repeatedWrites).wal.resolveWalDelta (onePoint 0 1) 0 = .ok (some 2) ∧
      ∃ record ∈ (Replica.run repeatedWrites).accepted,
        record.2.clockTag = some (ClockTag.newWithToken 1 1 1 12) ∧
          Wanted (onePoint 0 1) (ClockTag.newWithToken 1 1 1 12) ∧ record.1 < 2 := by
  refine ⟨?_, by decide +kernel, (1, ⟨(), some (ClockTag.newWithToken 1 1 1 12)⟩), ?_, rfl, ?_,
    by decide⟩
  · simp only [repeatedWrites, forall_mem_cons, not_mem_nil, IsEmpty.forall_iff,
      implies_true, and_true]
    exact ⟨taggedWrite_unforced _ _ _, taggedWrite_unforced _ _ _, taggedWrite_unforced _ _ _⟩
  · exact .tail _ (.head _)
  · exact fun tick htick => by cases htick

end Stratumind.WalDelta
