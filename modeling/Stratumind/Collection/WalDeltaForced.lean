import Stratumind.Collection.WalDeltaSoundness

/-!
# Delta resolution after forced operations

A transfer sends records of another log with the force flag, and they are written whatever
their ticks are. The scan stops at the last record that satisfies each open clock, so a
record above the recovery point is missed exactly if every open clock is satisfied by a
record after it.
-/

namespace Stratumind.WalDelta

open Lib List

variable {Op : Type}

/-! ### The scan of satisfied clocks succeeds -/

/-- If every open clock is satisfied by some record, the scan stops. -/
theorem exists_scanBack_ok (records : List (ℕ × ClockTag)) (point : RecoveryPoint)
    (lastOpNum : Option ℕ) (hopen : point.isEmpty = false)
    (hsatisfied : ∀ key tick, point.tick key = some tick → ∃ record ∈ records,
      Key.fromTag record.2 = key ∧ record.2.clockTick ≤ tick) :
    ∃ result, scanBack point lastOpNum
      (records.map fun record => .ok (record.1, some record.2)) = .ok result := by
  induction records generalizing point lastOpNum with
  | nil =>
    have hempty : point.isEmpty = true := by
      refine (RecoveryPoint.isEmpty_iff point).mpr fun key => ?_
      cases htick : point.tick key with
      | none => rfl
      | some tick => grind
    cases hempty.symm.trans hopen
  | cons first records ih =>
    obtain ⟨opNum, tag⟩ := first
    have hremoved := fun key => point.tick_removeClockIfNewerOrEqualToTag tag key
    rw [map_cons, scanBack]
    generalize point.removeClockIfNewerOrEqualToTag tag = removed at hremoved
    obtain ⟨rest, removedEqual⟩ := removed
    dsimp only at hremoved ⊢
    by_cases hempty : rest.isEmpty = true
    · exact ⟨_, if_pos hempty⟩
    rw [if_neg hempty]
    refine ih rest (some opNum) (by simpa using hempty) fun key tick htick => ?_
    rw [hremoved] at htick
    split at htick
    · cases htick
    grind

/-! ### Logs that are only written -/

variable (operations : List (OperationWithClockTag Op))

/-- A run that only writes. -/
def Replica.writes : Replica Op :=
  Replica.run (operations.map .lockAndWrite)

private theorem covered_writes (htag : ∀ operation ∈ operations, operation.clockTag ≠ none) :
    Covered (Replica.writes operations) := by
  refine covered_empty.foldl _ fun operation hmem => ?_
  obtain ⟨other, hother, heq⟩ := mem_map.mp hmem
  cases heq
  exact htag operation hother

private theorem writes_keeps_log (htag : ∀ operation ∈ operations, operation.clockTag ≠ none) :
    (Replica.writes operations).accepted = (Replica.writes operations).wal.wal ∧
      (Replica.writes operations).wal.oldestClocks = {} := by
  refine foldlRecOn (motive := fun replica : Replica Op => replica.accepted = replica.wal.wal ∧
    replica.wal.oldestClocks = {}) _ _ ⟨rfl, rfl⟩ ?_
  rintro replica ⟨hlog, holdest⟩ step hstep
  obtain ⟨operation, hoperation, rfl⟩ := mem_map.mp hstep
  obtain ⟨tag, htag⟩ := Option.ne_none_iff_exists'.mp (htag operation hoperation)
  rcases replica.step_lockAndWrite htag with ⟨-, hrun⟩ | ⟨-, hrun⟩ <;> rw [hrun]
  · exact ⟨by rw [hlog], holdest⟩
  · exact ⟨hlog, holdest⟩

/-- The resolution misses no record whose tick exceeds the recovery point. -/
def ResolvesSoundly (replica : Replica Op) (point : RecoveryPoint) (randomToken : UInt64) : Prop :=
  (∀ n, replica.wal.resolveWalDelta point randomToken = .ok (some n) →
      ∀ record ∈ replica.accepted, ∀ tag, record.2.clockTag = some tag → Exceeds point tag →
        n ≤ record.1) ∧
    (replica.wal.resolveWalDelta point randomToken = .ok none →
      ∀ record ∈ replica.accepted, ∀ tag, record.2.clockTag = some tag → ¬Exceeds point tag)

/-- After every record whose tick exceeds the recovery point, some clock on which the point is
behind has no record up to the first tick that is wanted of it. -/
def NotOvertaken (replica : Replica Op) (point : RecoveryPoint) : Prop :=
  ∀ record ∈ replica.accepted, ∀ tag, record.2.clockTag = some tag → Exceeds point tag →
    ∃ key, Behind point replica.wal.newestClocks.toRecoveryPoint key ∧
      ∀ later ∈ replica.accepted, record.1 < later.1 → ∀ laterTag,
        later.2.clockTag = some laterTag → ¬Satisfies point key laterTag

/-- A recovery point that is not refused is resolved by the scan over the open clocks. -/
private theorem resolve_eq_scan {replica : Replica Op} (h : Covered replica)
    (holdest : replica.wal.oldestClocks = {}) {point : RecoveryPoint} (randomToken : UInt64)
    (hrefused : ¬Refused replica.wal point) :
    replica.wal.resolveWalDelta point randomToken =
        (if (openClocks point replica.wal.newestClocks.toRecoveryPoint randomToken).isEmpty
          then .ok none
          else scanBack (openClocks point replica.wal.newestClocks.toRecoveryPoint randomToken)
            none ((tagged replica.wal.wal).reverse.map
              fun record => .ok (record.1, some record.2))) ∧
      ∀ key tick, (openClocks point replica.wal.newestClocks.toRecoveryPoint
          randomToken).tick key = some tick ↔
        Behind point replica.wal.newestClocks.toRecoveryPoint key ∧
          tick = point.wantedFrom key := by
  have htagged : ∀ record ∈ replica.wal.wal, record.2.clockTag ≠ none :=
    fun record hmem => h.taggedAll record (h.suffix.subset hmem)
  simp only [Refused, not_or, Bool.not_eq_true] at hrefused
  obtain ⟨hempty, hknown, hnewer⟩ := hrefused
  have hcutoff : ∀ extended : RecoveryPoint, extended.hasAnyOlderClocksThan
      (replica.wal.oldestClocks.toRecoveryPoint.increaseAllClocksBy 1) = false := by
    intro extended
    rw [holdest]
    exact any_eq_false.mpr fun entry _ => by simp [RecoveryPoint.increaseAllClocksBy,
      ClockMap.toRecoveryPoint, lookup_mapValues]
  refine ⟨?_, tick_openClocks randomToken hknown h.newest_positive⟩
  unfold RecoverableWal.resolveWalDelta resolveWalDelta
  rw [hempty, hknown, hnewer, map_ok_tagged htagged, map_reverse]
  dsimp only
  rw [hcutoff]
  rfl

/-- With forced operations, a resolution is sound exactly if the recovery point is refused or
no record above it is overtaken on every open clock. -/
theorem forced_resolution_sound_iff (htag : ∀ operation ∈ operations, operation.clockTag ≠ none)
    (point : RecoveryPoint) (randomToken : UInt64) :
    ResolvesSoundly (Replica.writes operations) point randomToken ↔
      Refused (Replica.writes operations).wal point ∨
        NotOvertaken (Replica.writes operations) point := by
  have hcovered := covered_writes operations htag
  obtain ⟨hlog, holdest⟩ := writes_keeps_log operations htag
  generalize Replica.writes operations = replica at hcovered hlog holdest ⊢
  have hnumbered := hcovered.numbered_tagged
  constructor
  · intro hsound
    by_contra hnot
    rw [not_or] at hnot
    obtain ⟨hrefused, hovertaken⟩ := hnot
    unfold NotOvertaken at hovertaken
    push Not at hovertaken
    obtain ⟨record, hrecord, tag, htag, hexceeds, hall⟩ := hovertaken
    obtain ⟨hresolve, hopen⟩ := resolve_eq_scan hcovered holdest randomToken hrefused
    have hmem : (record.1, tag) ∈ tagged replica.accepted :=
      mem_tagged.mpr ⟨record, hrecord, rfl, htag⟩
    have hbehind := hcovered.behind_of_exceeds hmem hexceeds
    have hnonempty : (openClocks point replica.wal.newestClocks.toRecoveryPoint
        randomToken).isEmpty = false := by
      refine Bool.eq_false_iff.mpr fun hempty => ?_
      have hnone := (RecoveryPoint.isEmpty_iff _).mp hempty (Key.fromTag tag)
      rw [(hopen _ _).mpr ⟨hbehind, rfl⟩] at hnone
      cases hnone
    -- the part of the log after the record satisfies all open clocks
    obtain ⟨front, back, hsplit⟩ := append_of_mem hmem
    rw [hsplit] at hnumbered
    obtain ⟨-, htail, hcross⟩ := pairwise_append.mp hnumbered
    have hlater : ∀ later ∈ back, record.1 < later.1 := (pairwise_cons.mp htail).1
    have hsatisfied : ∀ key tick, (openClocks point replica.wal.newestClocks.toRecoveryPoint
        randomToken).tick key = some tick → ∃ later ∈ back.reverse,
          Key.fromTag later.2 = key ∧ later.2.clockTick ≤ tick := by
      intro key tick htick
      obtain ⟨hkeyBehind, rfl⟩ := (hopen _ _).mp htick
      obtain ⟨later, hlaterMem, hlt, laterTag, hlaterTag, hkey, hle⟩ := hall key hkeyBehind
      refine ⟨(later.1, laterTag), mem_reverse.mpr ?_, hkey, hle⟩
      have hlaterTagged : (later.1, laterTag) ∈ tagged replica.accepted :=
        mem_tagged.mpr ⟨later, hlaterMem, rfl, hlaterTag⟩
      grind
    obtain ⟨result, hresult⟩ := exists_scanBack_ok back.reverse _ none hnonempty hsatisfied
    obtain ⟨after, stop, before, hback, hclocks, tick, htick, hle, hfirst, hvalue⟩ :=
      (scanBack_ok_iff _ _ _ _ hnonempty).mp hresult
    have hscan : replica.wal.resolveWalDelta point randomToken = .ok result := by
      rw [hresolve, hnonempty, if_neg Bool.false_ne_true, scanBack_ok_iff _ _ _ _ hnonempty]
      refine ⟨after, stop, before ++ (record.1, tag) :: front.reverse, ?_, hclocks, tick, htick,
        hle, hfirst, hvalue⟩
      grind
    cases result with
    | none => exact hsound.2 hscan record hrecord tag htag hexceeds
    | some n =>
      have hn := hsound.1 n hscan record hrecord tag htag hexceeds
      have hafter : ∀ scanned ∈ after ++ [stop], record.1 < scanned.1 := by
        intro scanned hscanned
        rw [append_cons] at hback
        exact hlater scanned (mem_reverse.mp (hback ▸ mem_append_left _ hscanned))
      split at hvalue
      · have hstop := hafter stop (by simp)
        cases hvalue
        omega
      rw [Option.or_none, eq_comm, Option.map_eq_some_iff] at hvalue
      obtain ⟨last, hlast, rfl⟩ := hvalue
      have hlastLt := hafter last (mem_append_left _ (mem_of_getLast? hlast))
      omega
  · intro hcondition
    -- a record that is not overtaken lies in the scanned part
    have hdelta : ∀ result, replica.wal.resolveWalDelta point randomToken = .ok result →
        ∀ record ∈ replica.accepted, ∀ tag, record.2.clockTag = some tag → Exceeds point tag →
          ∃ n, result = some n ∧ n ≤ record.1 := by
      intro result hresolve record hrecord tag htag hexceeds
      have hmem : (record.1, tag) ∈ tagged replica.accepted :=
        mem_tagged.mpr ⟨record, hrecord, rfl, htag⟩
      have hnotRefused : ¬Refused replica.wal point := by
        rintro (h | h | h) <;>
          simp only [RecoverableWal.resolveWalDelta, resolveWalDelta, h, if_true] at hresolve
        · cases hresolve
        · split at hresolve <;> cases hresolve
        · split at hresolve
          · cases hresolve
          · split at hresolve <;> cases hresolve
      obtain ⟨key, hbehind, hnotSatisfied⟩ :=
        hcondition.resolve_left hnotRefused record hrecord tag htag hexceeds
      rcases hcovered.resolve_ok hresolve with ⟨-, hnone⟩ |
          ⟨after, stop, before, hsplit, hsatisfied, hstop, rfl⟩
      · exact absurd hbehind (hnone key)
      rw [← hlog] at hsplit
      obtain ⟨hit, hhit, hhitSatisfies⟩ := hsatisfied key hbehind
      have hhitMem : hit ∈ tagged replica.accepted := by
        rw [← mem_reverse, hsplit, append_cons]
        exact mem_append_left _ hhit
      have hstopLe := (mem_scanned_iff hnumbered hsplit hhitMem).mp hhit
      have horder : hit.1 ≤ record.1 := by
        by_contra hlt
        obtain ⟨later, hlater, hnum, hlaterTag⟩ := mem_tagged.mp hhitMem
        exact hnotSatisfied later hlater (by omega) hit.2 hlaterTag hhitSatisfies
      have hscanned := (mem_scanned_iff hnumbered hsplit hmem).mpr (by dsimp only; omega)
      exact delta_le_of_scanned hnumbered hsplit hstop hscanned
        (wantedFrom_le_of_exceeds hexceeds)
    constructor
    · grind
    grind

/-- The log of another replica that accepted the second tick of a clock. -/
private def sender : Replica Unit :=
  Replica.writes [⟨(), some (ClockTag.newWithToken 1 0 2 12)⟩]

/-- An operation of the replica, and then the log of the sender. -/
private def transferAfter (clockTick token : UInt64) : List (OperationWithClockTag Unit) :=
  ⟨(), some (ClockTag.newWithToken 1 0 clockTick token)⟩ :: transferOperationsBatch sender.wal.wal

private theorem transferAfter_tagged (clockTick token : UInt64) :
    ∀ operation ∈ transferAfter clockTick token, operation.clockTag ≠ none := by
  have hbatch : transferAfter clockTick token =
      [⟨(), some (ClockTag.newWithToken 1 0 clockTick token)⟩,
        ⟨(), some { ClockTag.newWithToken 1 0 2 12 with force := true }⟩] := rfl
  rw [hbatch]
  simp

/-- A transfer that follows an older write of its clock. -/
theorem forced_resolution_sound_in_order :
    (∀ operation ∈ transferAfter 1 11, operation.clockTag ≠ none) ∧
      ResolvesSoundly (Replica.writes (transferAfter 1 11)) (onePoint 0 1) 0 := by
  have haccepted : (Replica.writes (transferAfter 1 11)).accepted =
      [(0, ⟨(), some (ClockTag.newWithToken 1 0 1 11)⟩),
        (1, ⟨(), some { ClockTag.newWithToken 1 0 2 12 with force := true }⟩)] := rfl
  have hpoint : (onePoint 0 1).tick ⟨1, 0⟩ = some 1 := by decide +kernel
  refine ⟨transferAfter_tagged 1 11, (forced_resolution_sound_iff (transferAfter 1 11)
    (transferAfter_tagged 1 11) (onePoint 0 1) 0).mpr (Or.inr ?_)⟩
  intro record hrecord tag htag hexceeds
  refine ⟨⟨1, 0⟩, ⟨2, by decide +kernel, by rw [hpoint]; decide⟩,
    fun later hlater hlt laterTag hlaterTag => ?_⟩
  rw [haccepted] at hrecord hlater
  simp only [mem_cons, not_mem_nil, or_false] at hrecord hlater
  rcases hrecord with rfl | rfl
  · cases htag
    unfold Exceeds at hexceeds
    exact absurd hexceeds (by decide)
  · rcases hlater with rfl | rfl
    · exact absurd hlt (by decide)
    · exact absurd hlt (by decide)

/-- A transferred record with an older tick hides the newer record before it: nothing is sent
although the fifth tick exceeds the recovery point. -/
theorem forced_resolution_misses_overtaken :
    (∀ operation ∈ transferAfter 5 15, operation.clockTag ≠ none) ∧
      (Replica.writes (transferAfter 5 15)).wal.resolveWalDelta (onePoint 0 3) 0 = .ok none ∧
      ¬ResolvesSoundly (Replica.writes (transferAfter 5 15)) (onePoint 0 3) 0 := by
  have hresolve : (Replica.writes (transferAfter 5 15)).wal.resolveWalDelta (onePoint 0 3) 0 =
      .ok none := by decide +kernel
  have haccepted : (Replica.writes (transferAfter 5 15)).accepted =
      [(0, ⟨(), some (ClockTag.newWithToken 1 0 5 15)⟩),
        (1, ⟨(), some { ClockTag.newWithToken 1 0 2 12 with force := true }⟩)] := rfl
  refine ⟨transferAfter_tagged 5 15, hresolve, fun hsound => ?_⟩
  refine hsound.2 hresolve (0, ⟨(), some (ClockTag.newWithToken 1 0 5 15)⟩)
    (haccepted ▸ mem_cons_self) _ rfl ?_
  unfold Exceeds
  decide

end Stratumind.WalDelta
