import Stratumind.Optimize.Replay

/-!
# Schema changes during an optimization

Every replayed change raises the version of the optimized segment, and a change with a lower
number is then skipped without notice. Vector names are replayed only when the optimization is
finished, after the index changes and point deletions that the build has replayed; index
changes recorded after the build are replayed after all vector names. The schema is therefore
kept exactly when the changes that are skipped make no difference.
-/

namespace Stratumind.Optimize

open List

variable {T : SchemaTypes}

/-! ### The last change of a key -/

section last

variable {β : Type} {f : NumberedOperation T → Option β} {ops : List (NumberedOperation T)}

theorem exists_of_last {value : β} (h : ops.reverse.findSome? f = some value) :
    ∃ op ∈ ops, f op = some value := by
  obtain ⟨op, hop, hvalue⟩ := exists_of_findSome?_eq_some h
  exact ⟨op, mem_reverse.mp hop, hvalue⟩

/-- No operation with a change is above a bound exactly if the last one is not. -/
theorem forall_last_le {number : β → ℕ} (hnumber : ∀ op value, f op = some value →
      number value = op.opNum) (hincreasing : ops.Pairwise fun a b => a.opNum < b.opNum)
    (bound : ℕ) :
    (∀ value, ops.reverse.findSome? f = some value → number value ≤ bound) ↔
      ∀ op ∈ ops, f op ≠ none → op.opNum ≤ bound := by
  induction ops using reverseRecOn with
  | nil => simp
  | append_singleton ops final ih =>
    obtain ⟨hpairwise, -, hlater⟩ := pairwise_append.mp hincreasing
    rw [reverse_append, findSome?_append, reverse_singleton, findSome?_singleton, forall_mem_append]
    cases hfinal : f final with
    | none => simpa [hfinal] using ih hpairwise
    | some value =>
      have hvalue := hnumber final value hfinal
      simp only [Option.some_or, Option.some.injEq, forall_eq', forall_mem_singleton, hfinal,
        hvalue]
      refine ⟨fun hle => ⟨fun op hop _ => ?_, fun _ => hle⟩, fun hall => hall.2 (by simp)⟩
      exact Nat.le_trans (Nat.le_of_lt (hlater op hop final (by simp))) hle

end last

namespace NumberedOperation

variable {op : NumberedOperation T}

theorem version_of_indexChange {key : T.Field} {change : ProxyIndexChange T}
    (h : op.indexChange key = some change) : change.version = op.opNum := by
  grind [indexChange, ProxyIndexChange.version]

theorem eq_of_deletion {id : T.PointId} {number : ℕ}
    (h : op.deletion id = some number) : op.opNum = number ∧ op.operation = .deletePoint id := by
  grind [deletion]

/-- The number of the operation and the configuration it asks for, if it creates or deletes
the named vector. -/
def vectorChange (op : NumberedOperation T) (name : T.VectorName) :
    Option (ℕ × Option T.VectorConfig) :=
  match op.operation with
  | .createVectorName changed config =>
    if name = changed then some (op.opNum, some config) else none
  | .deleteVectorName changed => if name = changed then some (op.opNum, none) else none
  | _ => none

theorem number_of_vectorChange {name : T.VectorName} {number : ℕ} {target : Option T.VectorConfig}
    (h : op.vectorChange name = some (number, target)) : op.opNum = number := by
  grind [vectorChange]

end NumberedOperation

/-- The last change of a named vector: its number and the configuration it asks for. -/
def lastVectorChange (ops : List (NumberedOperation T)) (name : T.VectorName) :
    Option (ℕ × Option T.VectorConfig) :=
  ops.reverse.findSome? fun op => op.vectorChange name

private theorem effect_intentOfCreate (wrapped : Option T.VectorConfig)
    (previous : Option (IntendedVector T)) (config : T.VectorConfig) (version : ℕ) :
    (ProxyVectorNameChanges.intentOfCreate wrapped previous config version).effect wrapped =
      some config := by
  unfold ProxyVectorNameChanges.intentOfCreate
  cases previous.any IntendedVector.taintsWrapped with
  | true => rfl
  | false =>
    cases wrapped with
    | none => rfl
    | some existing =>
      unfold ProxyVectorNameChanges.wrappedCarriesStaleSchema
      by_cases heq : existing = config <;> simp [heq, IntendedVector.effect]

theorem lastVectorChange_append (ops : List (NumberedOperation T)) (op : NumberedOperation T)
    (name : T.VectorName) : lastVectorChange (ops ++ [op]) name =
      (op.vectorChange name).or (lastVectorChange ops name) := by
  unfold lastVectorChange
  rw [reverse_append, findSome?_append, reverse_singleton, findSome?_singleton]

/-- The recorded intent for a name is that of its last change. -/
theorem map_intentAfter (wrapped : Option T.VectorConfig) (ops : List (NumberedOperation T))
    (name : T.VectorName) :
    (intentAfter wrapped ops name).map (fun intent => (intent.version, intent.effect wrapped)) =
      lastVectorChange ops name := by
  induction ops using reverseRecOn with
  | nil => rfl
  | append_singleton ops op ih =>
    rw [lastVectorChange_append, intentAfter_append, ← ih]
    unfold NumberedOperation.recordIntent NumberedOperation.vectorChange
    cases op.operation with
    | createVectorName changed config =>
      by_cases heq : name = changed
      · simp only [heq, if_true, Option.map_some, effect_intentOfCreate]
        rfl
      · simp [heq]
    | deleteVectorName changed =>
      by_cases heq : name = changed <;>
        simp [heq, IntendedVector.version, IntendedVector.effect]
    | _ => rfl

/-- A name that is never changed keeps its configuration. -/
theorem vectorAfter_eq_self {ops : List (NumberedOperation T)} {name : T.VectorName}
    (h : lastVectorChange ops name = none) (initial : Option T.VectorConfig) :
    vectorAfter initial ops name = initial := by
  induction ops using reverseRecOn with
  | nil => rfl
  | append_singleton ops op ih =>
    rw [lastVectorChange_append, Option.or_eq_none_iff] at h
    rw [vectorAfter_append, ih h.2]
    have hother := h.1
    unfold NumberedOperation.vectorChange at hother
    unfold NumberedOperation.applyVector
    cases hoperation : op.operation <;> simp_all

/-! ### The replay of the last changes -/

variable {ops : List (NumberedOperation T)}

/-- The last index changes are replayed: those that are below the version are skipped. -/
structure IndexesReplayed (segment : Segment T) (ops : List (NumberedOperation T))
    (indexed : Segment T) : Prop where
  vectors : indexed.vectors = segment.vectors
  points : indexed.points = segment.points
  version : ∀ bound, indexed.version ≤ bound ↔ segment.version ≤ bound ∧
    ∀ op ∈ ops, (∃ key, op.indexChange key ≠ none) → op.opNum ≤ bound
  applied : ∀ key, (∀ change, lastIndexChange ops key = some change →
    segment.version ≤ change.version) →
    indexed.indexes.lookup key = indexAfter (segment.indexes.lookup key) ops key
  skipped : ∀ key change, lastIndexChange ops key = some change →
    ¬segment.version ≤ change.version →
    indexed.indexes.lookup key = segment.indexes.lookup key

theorem Segment.replayIndexChanges_replayed (segment : Segment T) {changes : ProxyIndexChanges T}
    (hincreasing : ops.Pairwise fun a b => a.opNum < b.opNum)
    (hchanges : ∀ key, changes.lookup key = lastIndexChange ops key) :
    ∃ indexed, segment.replayIndexChanges changes = .ok indexed ∧
      IndexesReplayed segment ops indexed := by
  have hregular : ∀ key change, changes.lookup key = some change → change.Replaces :=
    fun key change hlookup => lastIndexChange_replaces ((hchanges key).symm.trans hlookup)
  obtain ⟨indexed, hindexed, hframe, hversion, hindexes⟩ :=
    Segment.numberedStep_applyIndexChange.replay changes hregular segment
  obtain ⟨hvectors, hpoints⟩ := Prod.ext_iff.mp hframe
  simp only [hchanges] at hversion hindexes
  refine ⟨indexed, hindexed, hvectors, hpoints, fun bound => ?_, fun key hle => ?_,
    fun key change hlast hlt => ?_⟩
  · have hlast := fun key => @forall_last_le T _ (fun op => op.indexChange key) ops _
      (fun _ _ => NumberedOperation.version_of_indexChange) hincreasing bound
    rw [hversion]
    unfold lastIndexChange
    simp only [hlast]
    grind
  · rw [hindexes, indexAfter]
    cases hlast : lastIndexChange ops key with
    | none => rfl
    | some change => exact if_pos (hle change hlast)
  · rw [hindexes, hlast]
    exact if_neg hlt

/-- The index after some operations does not depend on whether the first of them are applied
before. -/
theorem indexAfter_indexAfter {before : List (NumberedOperation T)} (h : before <+: ops)
    (initial : Option T.Schema) (key : T.Field) :
    indexAfter (indexAfter initial before key) ops key = indexAfter initial ops key := by
  obtain ⟨after, rfl⟩ := h
  cases hlast : lastIndexChange (before ++ after) key with
  | none =>
    have hbefore : lastIndexChange before key = none := by
      rw [lastIndexChange, reverse_append, findSome?_append, Option.or_eq_none_iff] at hlast
      exact hlast.2
    simp only [indexAfter, hlast, hbefore]
  | some change =>
    have hreplaces := lastIndexChange_replaces hlast
    simp only [indexAfter, hlast]
    cases change with
    | create schema version => rfl
    | delete version => rfl
    | deleteIfIncompatible version schema => cases hreplaces

/-- The last change of every named vector is replayed unless it comes too late. -/
structure VectorsReplayed (ops : List (NumberedOperation T)) (late : ℕ → Prop)
    (before after : T.VectorName → Option T.VectorConfig) : Prop where
  kept : ∀ name, (∀ number target, lastVectorChange ops name = some (number, target) →
    late number) → after name = before name
  replayed : ∀ name number target, lastVectorChange ops name = some (number, target) →
    ¬late number → after name = target

/-- The named vectors are right exactly if what comes too late makes no difference, and what is
replayed is right. -/
theorem VectorsReplayed.eq_vectorAfter_iff {late : ℕ → Prop}
    {before after : T.VectorName → Option T.VectorConfig}
    (h : VectorsReplayed ops late before after) :
    (∀ name, after name = vectorAfter (before name) ops name) ↔
      (∀ name number target, lastVectorChange ops name = some (number, target) → late number →
        vectorAfter (before name) ops name = before name) ∧
      ∀ name number target, lastVectorChange ops name = some (number, target) → ¬late number →
        vectorAfter (before name) ops name = target := by
  constructor
  · intro hvectors
    refine ⟨fun name number target hlast hlate => ?_, fun name number target hlast hnot => ?_⟩
    · rw [← hvectors]
      refine h.kept name fun other _ hother => ?_
      cases hlast.symm.trans hother
      exact hlate
    · rw [← hvectors, h.replayed name number target hlast hnot]
  rintro ⟨hlate, hreplayed⟩ name
  by_cases hall : ∀ number target, lastVectorChange ops name = some (number, target) → late number
  · rw [h.kept name hall]
    cases hlast : lastVectorChange ops name with
    | none => rw [vectorAfter_eq_self hlast]
    | some last => rw [hlate name _ _ hlast (hall _ _ hlast)]
  push Not at hall
  obtain ⟨number, target, hlast, hnot⟩ := hall
  rw [h.replayed name number target hlast hnot, hreplayed name number target hlast hnot]

/-- The intended vectors are replayed: those that are below the version are skipped. -/
structure VectorNamesReplayed (segment : Segment T) (ops : List (NumberedOperation T))
    (named : Segment T) : Prop where
  indexes : named.indexes = segment.indexes
  points : named.points = segment.points
  version : ∀ bound, named.version ≤ bound ↔ segment.version ≤ bound ∧
    ∀ name change, lastVectorChange ops name = some change → change.1 ≤ bound
  vectors : ∀ late : ℕ → Prop, (∀ name number target,
    lastVectorChange ops name = some (number, target) → (segment.version ≤ number ↔ ¬late number)) →
    VectorsReplayed ops late (segment.vectors.lookup ·) (named.vectors.lookup ·)

theorem Segment.replayVectorNameChanges_replayed {segment : Segment T}
    {changes : ProxyVectorNameChanges T}
    (hchanges : ∀ name, changes.lookup name = intentAfter (segment.vectors.lookup name) ops name) :
    ∃ named, segment.replayVectorNameChanges changes = .ok named ∧
      VectorNamesReplayed segment ops named := by
  obtain ⟨named, hnamed, hframe, hversion, hvectors⟩ :=
    Segment.numberedStep_applyVectorNameChange.replay changes (fun _ _ _ => trivial) segment
  simp only [hchanges] at hversion hvectors
  have hlast := fun name => map_intentAfter (segment.vectors.lookup name) ops name
  obtain ⟨hindexes, hpoints⟩ := Prod.ext_iff.mp hframe
  refine ⟨named, hnamed, hindexes, hpoints, fun bound => ?_, fun late hlate =>
    ⟨fun name hall => ?_, fun name number target hchange hnot => ?_⟩⟩
  · rw [hversion]
    refine and_congr_right fun _ => forall_congr' fun name => ?_
    rw [← hlast]
    simp
  · have hchange := hlast name
    rw [hvectors]
    cases hintent : intentAfter (segment.vectors.lookup name) ops name with
    | none => rfl
    | some intent =>
      rw [hintent, eq_comm] at hchange
      exact if_neg fun hle => (hlate name _ _ hchange).mp hle (hall _ _ hchange)
  · have hle := (hlate name number target hchange).mpr hnot
    rw [← hlast] at hchange
    obtain ⟨intent, hintent, hchange⟩ := Option.map_eq_some_iff.mp hchange
    cases hchange
    rw [hvectors, hintent]
    exact if_pos hle

namespace OptimizationRun

/-! ### The condition -/

/-- The segments of a shard share one schema, which is that of the target, and the operations
have increasing numbers that are newer than the segments. -/
structure Valid (run : OptimizationRun T) : Prop where
  sameIndexes : ∀ segment ∈ run.others, ∀ key,
    segment.indexes.lookup key = run.first.indexes.lookup key
  sameVectors : ∀ segment ∈ run.others, ∀ name,
    segment.vectors.lookup name = run.first.vectors.lookup name
  target : ∀ name, run.target.lookup name = run.first.vectors.lookup name
  increasing : run.operations.Pairwise fun a b => a.opNum < b.opNum
  newer : ∀ segment ∈ run.inputs, ∀ op ∈ run.operations, segment.version < op.opNum

/-- The optimized segment has exactly the indexes and named vectors that every input has after
the same operations. -/
def KeepsSchema (run : OptimizationRun T) (optimized : Segment T) : Prop :=
  ∀ segment ∈ run.inputs, ∃ expected,
    run.operations.foldlM Segment.apply segment = .ok expected ∧
    (∀ key, optimized.indexes.lookup key = expected.indexes.lookup key) ∧
    ∀ name, optimized.vectors.lookup name = expected.vectors.lookup name

/-- The build replays an index change or a point deletion with a higher number, so a vector
name change with this number comes too late. -/
def Overtaken (run : OptimizationRun T) (number : ℕ) : Prop :=
  (∃ op ∈ run.builtOperations, (∃ key, op.indexChange key ≠ none) ∧ number < op.opNum) ∨
    ∃ op ∈ run.beforeBuilder ++ run.beforeDeletedPoints,
      (∃ id, op.operation = .deletePoint id ∧ ∃ segment ∈ run.inputs, id ∈ segment.points) ∧
      number < op.opNum

/-- What is skipped or replaced makes no difference. -/
structure LosesNoChange (run : OptimizationRun T) : Prop where
  /-- A vector name whose last change comes too late ends up as it was. -/
  overtaken : ∀ name number target, lastVectorChange run.operations name = some (number, target) →
    run.Overtaken number →
    vectorAfter (run.first.vectors.lookup name) run.operations name =
      run.first.vectors.lookup name
  /-- A vector name whose last change is replayed gets the configuration of that change. -/
  replayed : ∀ name number target, lastVectorChange run.operations name = some (number, target) →
    ¬run.Overtaken number →
    vectorAfter (run.first.vectors.lookup name) run.operations name = target
  /-- An index whose last change has a lower number than that of a vector name is not changed
  after the build. -/
  indexes : ∀ key change name number target, lastIndexChange run.operations key = some change →
    lastVectorChange run.operations name = some (number, target) → change.version < number →
    indexAfter (run.first.indexes.lookup key) run.operations key =
      indexAfter (run.first.indexes.lookup key) run.builtOperations key

/-! ### The build -/

section build

variable {run : OptimizationRun T} {proxies : List (ProxySegment T)}

private theorem Valid.forall_inputs (h : run.Valid) :
    (∀ segment ∈ run.inputs, ∀ key, segment.indexes.lookup key = run.first.indexes.lookup key) ∧
    ∀ segment ∈ run.inputs, ∀ name,
      segment.vectors.lookup name = run.first.vectors.lookup name :=
  ⟨forall_mem_cons.mpr ⟨fun _ => rfl, h.sameIndexes⟩,
    forall_mem_cons.mpr ⟨fun _ => rfl, h.sameVectors⟩⟩

/-- The segment before any change is replayed. -/
structure Built (run : OptimizationRun T) (optimized : Segment T) : Prop where
  version : ∀ bound, optimized.version ≤ bound ↔
    ∀ segment ∈ run.inputs, segment.version ≤ bound
  vectors : optimized.vectors = run.target
  indexes : ∀ key, optimized.indexes.lookup key =
    indexAfter (run.first.indexes.lookup key) run.beforeBuilder key
  points : ∀ id, (∃ segment ∈ run.inputs, id ∈ segment.points) → id ∈ optimized.points

theorem Valid.buildSegment (h : run.Valid)
    (hproxies : AllRecorded run.inputs run.beforeBuilder proxies) :
    if run.inputs.length > 2 ^ 24 - 1 then
      run.buildSegment proxies = .error (.serviceError "Too many segments to update")
    else ∃ optimized, run.buildSegment proxies = .ok optimized ∧ run.Built optimized := by
  obtain ⟨hindexes, hvectors⟩ := h.forall_inputs
  have htarget : ∀ segment ∈ run.inputs, ∀ name, name ∈ segment.vectors ↔ name ∈ run.target := by
    intro segment hsegment name
    rw [← AList.lookup_isSome, ← AList.lookup_isSome, hvectors segment hsegment, h.target]
  have hupdate := SegmentBuilder.update_new htarget
  unfold OptimizationRun.buildSegment
  split
  · rename_i hlength
    rw [inputs] at hlength ⊢
    rw [hupdate, if_pos hlength]
    rfl
  rename_i hlength
  rw [inputs] at hlength ⊢
  rw [hupdate, if_neg hlength]
  refine ⟨_, rfl, ?_⟩
  obtain ⟨hdata, hversion, hpoints⟩ :=
    SegmentBuilder.foldl_addSegment (run.first :: run.others) (SegmentBuilder.new run.target)
  refine ⟨fun bound => ?_, hdata, fun key => ?_, fun id hid => hpoints id (Or.inr hid)⟩
  · exact (hversion bound).trans ⟨fun hall => hall.2, fun hall => ⟨Nat.zero_le _, hall⟩⟩
  have hfields : ((run.first :: run.others).foldl SegmentBuilder.addSegment
      (SegmentBuilder.new run.target)).indexedFields.lookup key =
      run.first.indexes.lookup key := by
    refine SegmentBuilder.lookup_indexedFields_foldl_addSegment
      (fun segment hsegment => h.sameIndexes segment hsegment key) ?_
    have hmerged : ((SegmentBuilder.new run.target).addSegment run.first).indexedFields.lookup key =
        ((run.first.indexes.lookup key).map id).or none :=
      Lib.lookup_mergeWith _ _ _ _
    rw [hmerged]
    cases run.first.indexes.lookup key <;> rfl
  have hchanges := hproxies.lookup_proxyIndexChanges key
  refine (SegmentBuilder.lookup_foldl_applyIndexChange _ _ key).trans ?_
  rw [hchanges, hfields]
  unfold indexAfter
  cases hlast : lastIndexChange run.beforeBuilder key with
  | none => rfl
  | some change =>
    have hreplaces := lastIndexChange_replaces hlast
    cases change with
    | create schema version => rfl
    | delete version => rfl
    | deleteIfIncompatible version schema => cases hreplaces

/-- The segment after the build has replayed index changes and deleted points. -/
structure BuildReplayed (run : OptimizationRun T) (optimized : Segment T) : Prop where
  version : ∀ number, (∀ segment ∈ run.inputs, segment.version ≤ number) →
    (optimized.version ≤ number ↔ ¬run.Overtaken number)
  vectors : optimized.vectors = run.target
  indexes : ∀ key, optimized.indexes.lookup key =
    indexAfter (run.first.indexes.lookup key) run.builtOperations key

private theorem mem_operations_of_built {op : NumberedOperation T}
    (h : op ∈ run.builtOperations) : op ∈ run.operations :=
  mem_append_left _ (mem_append_left _ h)

private theorem Valid.increasing_built (h : run.Valid) :
    run.builtOperations.Pairwise fun a b => a.opNum < b.opNum :=
  (pairwise_append.mp (pairwise_append.mp h.increasing).1).1

/-- No deletion that the build replays is above a bound exactly if no last deletion of a point
is. -/
private theorem Valid.forall_lastDeletion_le (h : run.Valid)
    (hproxies : AllRecorded run.inputs (run.beforeBuilder ++ run.beforeDeletedPoints) proxies)
    (bound : ℕ) :
    (∀ entry ∈ (proxyDeletedPoints proxies).entries, entry.2.operationVersion ≤ bound) ↔
    ∀ op ∈ run.beforeBuilder ++ run.beforeDeletedPoints,
      (∃ id, op.operation = .deletePoint id ∧ ∃ segment ∈ run.inputs, id ∈ segment.points) →
      op.opNum ≤ bound := by
  have hincreasing := (pairwise_append.mp h.increasing_built).1
  constructor
  · rintro hall op hop ⟨id, hoperation, hheld⟩
    have hlast := @forall_last_le T _ (fun op => op.deletion id) _ (fun number => number)
      (fun _ _ hdeletion => (NumberedOperation.eq_of_deletion hdeletion).1.symm) hincreasing bound
    refine hlast.mp (fun number hnumber => ?_) op hop
      (by simp [NumberedOperation.deletion, hoperation])
    have hlookup := (hproxies.lookup_proxyDeletedPoints id ⟨number, number⟩).mpr
      ⟨hheld, by rw [lastDeletion, hnumber, Option.map_some]⟩
    exact hall ⟨id, ⟨number, number⟩⟩ (AList.mem_lookup_iff.mp hlookup)
  · intro hall entry hentry
    have hlookup := AList.mem_lookup_iff.mpr hentry
    obtain ⟨hheld, hlast⟩ := (hproxies.lookup_proxyDeletedPoints entry.1 entry.2).mp hlookup
    obtain ⟨number, hnumber, hversions⟩ := Option.map_eq_some_iff.mp hlast
    obtain ⟨op, hop, hdeletion⟩ := exists_of_last hnumber
    obtain ⟨hopNum, hoperation⟩ := NumberedOperation.eq_of_deletion hdeletion
    have hbound := hall op hop ⟨entry.1, hoperation, hheld⟩
    rw [← hversions]
    dsimp only
    omega

/-- What the build does to the segment that it has built. -/
theorem Built.replay (h : run.Valid) {optimized : Segment T} (hbuilt : run.Built optimized)
    {deletedProxies : List (ProxySegment T)}
    (hdeleted : AllRecorded run.inputs (run.beforeBuilder ++ run.beforeDeletedPoints)
      deletedProxies)
    (hproxies : AllRecorded run.inputs run.builtOperations proxies) :
    ∃ replayed, optimized.replayIndexChanges (proxyIndexChanges proxies) = .ok replayed ∧
      run.BuildReplayed (replayed.deletePoints (proxyDeletedPoints deletedProxies).entries) := by
  obtain ⟨replayed, hreplayed, hindexed⟩ := optimized.replayIndexChanges_replayed
    h.increasing_built hproxies.lookup_proxyIndexChanges
  obtain ⟨hdeletedIndexes, hdeletedVectors⟩ :=
    replayed.deletePoints_schema (proxyDeletedPoints deletedProxies).entries
  have hnewer : ∀ op ∈ run.operations, optimized.version ≤ op.opNum := fun op hop =>
    (hbuilt.version op.opNum).mpr fun segment hsegment =>
      Nat.le_of_lt (h.newer segment hsegment op hop)
  refine ⟨replayed, hreplayed, fun number hnumber => ?_, ?_, fun key => ?_⟩
  · -- every deleted point is there, with a version below the deletion
    have hthere : ∀ entry ∈ (proxyDeletedPoints deletedProxies).entries, ∃ pointVersion,
        replayed.points.lookup entry.1 = some pointVersion ∧
          pointVersion ≤ entry.2.operationVersion := by
      intro entry hentry
      have hlookup := AList.mem_lookup_iff.mpr hentry
      obtain ⟨hheld, hlast⟩ := (hdeleted.lookup_proxyDeletedPoints entry.1 entry.2).mp hlookup
      obtain ⟨opNum, hopNum, hversions⟩ := Option.map_eq_some_iff.mp hlast
      obtain ⟨op, hop, hdeletion⟩ := exists_of_last hopNum
      obtain ⟨pointVersion, hpoint⟩ := Option.isSome_iff_exists.mp
        (AList.lookup_isSome.mpr (hbuilt.points entry.1 hheld))
      refine ⟨pointVersion, hindexed.points ▸ hpoint, ?_⟩
      have hpointLe := optimized.pointVersion_le entry.1 pointVersion hpoint
      have hopLe := hnewer op (mem_operations_of_built (mem_append_left _ hop))
      have heq := (NumberedOperation.eq_of_deletion hdeletion).1
      rw [← hversions]
      dsimp only
      omega
    rw [Segment.deletePoints_version_le (proxyDeletedPoints deletedProxies).nodupKeys hthere,
      hindexed.version, h.forall_lastDeletion_le hdeleted]
    have hbuiltLe : optimized.version ≤ number := (hbuilt.version number).mpr hnumber
    unfold Overtaken
    constructor
    · grind
    · grind
  · rw [hdeletedVectors, hindexed.vectors, hbuilt.vectors]
  · rw [hdeletedIndexes, hindexed.applied key fun change hlast => ?_, hbuilt.indexes,
      indexAfter_indexAfter ⟨run.beforeDeletedPoints ++ run.beforeIndexChanges, by
        rw [builtOperations, append_assoc]⟩]
    obtain ⟨op, hop, hchange⟩ := exists_of_last hlast
    rw [NumberedOperation.version_of_indexChange hchange]
    exact hnewer op (mem_operations_of_built hop)

end build

/-! ### The end of the optimization -/

/-- The schema of the segment that replaces the proxies. -/
structure Finished (run : OptimizationRun T) (optimized : Segment T) : Prop where
  vectors : VectorsReplayed run.operations run.Overtaken (run.first.vectors.lookup ·)
    (optimized.vectors.lookup ·)
  skippedIndexes : ∀ key change name number target,
    lastIndexChange run.operations key = some change →
    lastVectorChange run.operations name = some (number, target) → change.version < number →
    optimized.indexes.lookup key =
      indexAfter (run.first.indexes.lookup key) run.builtOperations key
  otherIndexes : ∀ key, (∀ change name number target,
    lastIndexChange run.operations key = some change →
    lastVectorChange run.operations name = some (number, target) → number ≤ change.version) →
    optimized.indexes.lookup key = indexAfter (run.first.indexes.lookup key) run.operations key

section finish

variable {run : OptimizationRun T} {proxies : List (ProxySegment T)}

private theorem Valid.newer_of_lastVectorChange (h : run.Valid) {name : T.VectorName} {number : ℕ}
    {target : Option T.VectorConfig}
    (hlast : lastVectorChange run.operations name = some (number, target)) :
    ∀ segment ∈ run.inputs, segment.version ≤ number := by
  obtain ⟨op, hop, hchange⟩ := exists_of_last hlast
  intro segment hsegment
  rw [← NumberedOperation.number_of_vectorChange hchange]
  exact Nat.le_of_lt (h.newer segment hsegment op hop)

/-- An index whose last change the build may have overtaken is already in its final state. -/
private theorem Valid.indexAfter_of_overtaken (h : run.Valid) {key : T.Field}
    {change : ProxyIndexChange T} (hlast : lastIndexChange run.operations key = some change)
    (hovertaken : run.Overtaken change.version) :
    lastIndexChange run.builtOperations key = some change := by
  have hincreasing := h.increasing
  rw [operations, append_assoc] at hlast hincreasing
  rw [lastIndexChange, reverse_append, findSome?_append] at hlast
  rcases Option.or_eq_some_iff.mp hlast with hafter | ⟨-, hbuilt⟩
  swap
  · exact hbuilt
  · -- the change is later than everything that the build replays
    obtain ⟨op, hop, hchange⟩ := exists_of_last hafter
    have hversion := NumberedOperation.version_of_indexChange hchange
    have hlater : ∀ earlier ∈ run.builtOperations, earlier.opNum < op.opNum :=
      fun earlier hearlier => (pairwise_append.mp hincreasing).2.2 earlier hearlier op hop
    rcases hovertaken with ⟨earlier, hearlier, -, hlt⟩ | ⟨earlier, hearlier, -, hlt⟩
    · grind
    · grind [hlater earlier (mem_append_left _ hearlier)]

/-- What `finish_optimization` makes of the segment that was built. -/
theorem BuildReplayed.finish (h : run.Valid) {optimized : Segment T}
    (hbuilt : run.BuildReplayed optimized)
    (hproxies : AllRecorded run.inputs run.operations proxies)
    (alreadyRemoved : AList fun _ : T.PointId => ProxyDeletedPoint) :
    ∃ final, finishOptimization optimized proxies alreadyRemoved = .ok final ∧
      run.Finished final := by
  -- the state of a name before its change is replayed is that of the inputs
  have hbefore : ∀ name, optimized.vectors.lookup name = run.first.vectors.lookup name := by
    intro name
    rw [hbuilt.vectors, h.target]
  have hintents : ∀ name, (proxyVectorNameChanges proxies).lookup name =
      intentAfter (optimized.vectors.lookup name) run.operations name := by
    intro name
    rw [hbefore]
    exact hproxies.lookup_proxyVectorNameChanges name fun segment hsegment =>
      h.sameVectors segment hsegment name
  obtain ⟨named, hnamed, hnames⟩ := Segment.replayVectorNameChanges_replayed hintents
  obtain ⟨indexed, hindexed, hindexes⟩ := named.replayIndexChanges_replayed h.increasing
    hproxies.lookup_proxyIndexChanges
  refine ⟨indexed.deletePoints
    ((proxyDeletedPoints proxies).entries.filter fun entry => entry.1 ∉ alreadyRemoved), ?_, ?_⟩
  · unfold finishOptimization
    rw [hnamed]
    dsimp only [bind, Except.bind]
    rw [hindexed]
    rfl
  obtain ⟨hfinalIndexes, hfinalVectors⟩ := indexed.deletePoints_schema
    ((proxyDeletedPoints proxies).entries.filter fun entry => entry.1 ∉ alreadyRemoved)
  refine ⟨?_, fun key change name number target hchange hlast hlt => ?_, fun key hall => ?_⟩
  · rw [hfinalVectors, hindexes.vectors, ← funext hbefore]
    exact hnames.vectors run.Overtaken fun name number target hlast =>
      hbuilt.version number (h.newer_of_lastVectorChange hlast)
  · have hnot : ¬named.version ≤ change.version := fun hle =>
      Nat.not_le.mpr hlt (((hnames.version change.version).mp hle).2 name _ hlast)
    rw [hfinalIndexes, hindexes.skipped key change hchange hnot, hnames.indexes, hbuilt.indexes]
  have hfront : run.builtOperations <+: run.operations :=
    ⟨run.beforeAlreadyRemoved ++ run.beforeFinish, by rw [operations, append_assoc]⟩
  rw [hfinalIndexes]
  by_cases happlied : ∀ change, lastIndexChange run.operations key = some change →
      named.version ≤ change.version
  · rw [hindexes.applied key happlied, hnames.indexes, hbuilt.indexes,
      indexAfter_indexAfter hfront]
  push Not at happlied
  obtain ⟨change, hchange, hlt⟩ := happlied
  rw [hindexes.skipped key change hchange (Nat.not_le.mpr hlt), hnames.indexes, hbuilt.indexes]
  obtain ⟨op, hop, hopChange⟩ := exists_of_last hchange
  have hnewer : ∀ segment ∈ run.inputs, segment.version ≤ change.version := by
    intro segment hsegment
    rw [NumberedOperation.version_of_indexChange hopChange]
    exact Nat.le_of_lt (h.newer segment hsegment op hop)
  -- no vector name is later, so the build has overtaken the change
  have hovertaken : run.Overtaken change.version := by
    by_contra hnot
    refine Nat.not_le.mpr hlt ((hnames.version change.version).mpr
      ⟨(hbuilt.version change.version hnewer).mpr hnot, fun name last hlast => ?_⟩)
    exact hall change name last.1 last.2 hchange hlast
  unfold indexAfter
  rw [h.indexAfter_of_overtaken hchange hovertaken, hchange]

/-- What the inputs have after the operations is the same for all of them. -/
theorem Valid.keepsSchema_iff (h : run.Valid) (optimized : Segment T) :
    run.KeepsSchema optimized ↔
      (∀ key, optimized.indexes.lookup key =
        indexAfter (run.first.indexes.lookup key) run.operations key) ∧
      ∀ name, optimized.vectors.lookup name =
        vectorAfter (run.first.vectors.lookup name) run.operations name := by
  obtain ⟨hindexes, hvectors⟩ := h.forall_inputs
  have hexpected : ∀ segment ∈ run.inputs, ∃ expected,
      run.operations.foldlM Segment.apply segment = .ok expected ∧
      (∀ key, expected.indexes.lookup key =
        indexAfter (run.first.indexes.lookup key) run.operations key) ∧
      ∀ name, expected.vectors.lookup name =
        vectorAfter (run.first.vectors.lookup name) run.operations name := by
    intro segment hsegment
    obtain ⟨expected, hexpected, -, hexpectedIndexes, hexpectedVectors, -⟩ :=
      segment.foldlM_apply_contents run.operations
        (fun op hop => Nat.le_of_lt (h.newer segment hsegment op hop)) h.increasing
    grind
  constructor
  · intro hkeeps
    obtain ⟨expected, hrun, hsameIndexes, hsameVectors⟩ := hkeeps run.first mem_cons_self
    obtain ⟨expected', hrun', hlookup, hlookupVectors⟩ := hexpected run.first mem_cons_self
    grind
  · rintro ⟨hsameIndexes, hsameVectors⟩ segment hsegment
    grind

/-- An optimization of at most `2 ^ 24 - 1` segments ends. -/
theorem Valid.execute (h : run.Valid) :
    if run.inputs.length > 2 ^ 24 - 1 then
      run.execute = .error (.serviceError "Too many segments to update")
    else ∃ final, run.execute = .ok final ∧ run.Finished final := by
  have hrecord : ∀ {before : List (NumberedOperation T)} {proxies} (ops),
      AllRecorded run.inputs before proxies → before ++ ops <+: run.operations →
      ∃ next, recordAll proxies ops = .ok next ∧ AllRecorded run.inputs (before ++ ops) next :=
    fun ops hproxies hfront => hproxies.recordAll (fun segment hsegment op hop => Nat.le_of_lt
      (h.newer segment hsegment op (hfront.subset (mem_append_right _ hop))))
      (h.increasing.sublist hfront.sublist)
  obtain ⟨proxies₀, hrecord₀, hproxies₀⟩ :=
    hrecord run.beforeBuilder (allRecorded_new run.inputs) (by simp [operations, builtOperations])
  obtain ⟨proxies₁, hrecord₁, hproxies₁⟩ :=
    hrecord run.beforeDeletedPoints hproxies₀ (by simp [operations, builtOperations])
  obtain ⟨proxies₂, hrecord₂, hproxies₂⟩ :=
    hrecord run.beforeIndexChanges hproxies₁ (by simp [operations, builtOperations])
  obtain ⟨proxies₃, hrecord₃, hproxies₃⟩ :=
    hrecord run.beforeAlreadyRemoved hproxies₂ (by simp [operations, builtOperations])
  obtain ⟨proxies₄, hrecord₄, hproxies₄⟩ :=
    hrecord run.beforeFinish hproxies₃ (by simp [operations, builtOperations])
  have hbuild := h.buildSegment hproxies₀
  unfold OptimizationRun.execute
  rw [hrecord₀]
  split
  · rename_i hlength
    rw [if_pos hlength] at hbuild
    dsimp only [bind, Except.bind]
    rw [hbuild]
  rename_i hlength
  rw [if_neg hlength] at hbuild
  obtain ⟨optimized, hoptimized, hbuilt⟩ := hbuild
  obtain ⟨replayed, hreplayed, hbuildReplayed⟩ := hbuilt.replay h hproxies₁ hproxies₂
  obtain ⟨final, hfinal, hfinished⟩ := hbuildReplayed.finish h hproxies₄
    (alreadyRemovePoints (replayed.deletePoints (proxyDeletedPoints proxies₁).entries) proxies₃)
  refine ⟨final, ?_, hfinished⟩
  dsimp only [bind, Except.bind]
  rw [hoptimized]
  rw [hrecord₁]
  dsimp only
  rw [hrecord₂]
  dsimp only
  rw [hreplayed]
  rw [hrecord₃]
  dsimp only
  rw [hrecord₄]
  exact hfinal

end finish

/-- **Schema changes survive an optimization** exactly when none is overtaken to effect. Every
optimization of at most `2 ^ 24 - 1` segments ends, and the segment that it leaves has the
indexes and named vectors of its inputs after the same operations if and only if what the
replay skips makes no difference. -/
theorem keepsSchema_iff_losesNoChange (run : OptimizationRun T) (h : run.Valid) :
    (run.inputs.length ≤ 2 ^ 24 - 1 → ∃ optimized, run.execute = .ok optimized) ∧
      ∀ optimized, run.execute = .ok optimized →
        (run.KeepsSchema optimized ↔ run.LosesNoChange) := by
  have hexecute := h.execute
  constructor
  · grind
  intro optimized hoptimized
  have hfinished : run.Finished optimized := by
    grind
  rw [h.keepsSchema_iff, hfinished.vectors.eq_vectorAfter_iff]
  constructor
  · rintro ⟨hindexes, hovertaken, hreplayed⟩
    refine ⟨hovertaken, hreplayed, fun key change name number target hchange hlast hlt => ?_⟩
    rw [← hindexes, hfinished.skippedIndexes key change name number target hchange hlast hlt]
  intro hloses
  refine ⟨fun key => ?_, hloses.overtaken, hloses.replayed⟩
  by_cases hskipped : ∀ change name number target,
      lastIndexChange run.operations key = some change →
      lastVectorChange run.operations name = some (number, target) → number ≤ change.version
  · exact hfinished.otherIndexes key hskipped
  push Not at hskipped
  obtain ⟨change, name, number, target, hchange, hlast, hlt⟩ := hskipped
  rw [hfinished.skippedIndexes key change name number target hchange hlast hlt,
    hloses.indexes key change name number target hchange hlast hlt]

/-! ### Two optimizations -/

/-- Fields, names, schemas and ids that are numbers. -/
abbrev numberTypes : SchemaTypes where
  Field := ℕ
  Schema := ℕ
  VectorName := ℕ
  VectorConfig := ℕ
  PointId := ℕ
  onlyOnDiskDiffers := fun _ _ => false
  displayField := toString
  displayVectorName := toString

/-- A segment with one point and no schema. -/
def onePointSegment : Segment numberTypes where
  version := 1
  nonAppendable := true
  indexes := ∅
  vectors := ∅
  points := AList.insert (0 : ℕ) 1 ∅
  pointVersion_le := fun (id : ℕ) pointVersion hlookup => by
    rw [Lib.lookup_insert, AList.lookup_empty] at hlookup
    grind

/-- An optimization of one segment, with operations before the first read of the proxies. -/
def onePointRun (ops : List (NumberedOperation numberTypes)) : OptimizationRun numberTypes where
  first := onePointSegment
  others := []
  target := ∅
  nonAppendable := true
  beforeBuilder := ops
  beforeDeletedPoints := []
  beforeIndexChanges := []
  beforeAlreadyRemoved := []
  beforeFinish := []

theorem onePointRun_valid {ops : List (NumberedOperation numberTypes)}
    (hincreasing : ops.Pairwise fun a b => a.opNum < b.opNum) (hnewer : ∀ op ∈ ops, 1 < op.opNum) :
    (onePointRun ops).Valid := by
  have hoperations : (onePointRun ops).operations = ops := by
    simp [operations, builtOperations, onePointRun]
  refine ⟨nofun, nofun, fun _ => rfl, ?_, ?_⟩
  · rwa [hoperations]
  intro segment hsegment op hop
  rw [hoperations] at hop
  have hfirst : segment = onePointSegment := mem_singleton.mp hsegment
  rw [hfirst]
  exact hnewer op hop

/-- A named vector is created after a point is deleted. -/
def vectorAfterDeletion : OptimizationRun numberTypes :=
  onePointRun [⟨5, .deletePoint (0 : ℕ)⟩, ⟨6, .createVectorName (0 : ℕ) (7 : ℕ)⟩]

/-- A named vector is created before a point is deleted. -/
def vectorBeforeDeletion : OptimizationRun numberTypes :=
  onePointRun [⟨5, .createVectorName (0 : ℕ) (7 : ℕ)⟩, ⟨6, .deletePoint (0 : ℕ)⟩]

theorem vectorAfterDeletion_losesNoChange : vectorAfterDeletion.LosesNoChange := by
  have hlast : ∀ (name : ℕ) number target,
      lastVectorChange vectorAfterDeletion.operations name = some (number, target) →
      name = 0 ∧ number = 6 ∧ target = some (7 : ℕ) := by
    intro name number target h
    simp only [lastVectorChange, NumberedOperation.vectorChange, vectorAfterDeletion, operations,
      builtOperations, onePointRun] at h
    grind
  refine ⟨fun name number target h hovertaken => ?_, fun name number target h _ => ?_,
    fun key change name number target hchange _ _ => ?_⟩
  · obtain ⟨-, rfl, -⟩ := hlast name number target h
    -- no operation has a number above six
    have hle : ∀ op ∈ vectorAfterDeletion.builtOperations, op.opNum ≤ 6 := by
      simp [vectorAfterDeletion, builtOperations, onePointRun]
    rcases hovertaken with ⟨op, hop, -, hlt⟩ | ⟨op, hop, -, hlt⟩
    · exact absurd (hle op hop) (Nat.not_le.mpr hlt)
    · exact absurd (hle op (mem_append_left _ hop)) (Nat.not_le.mpr hlt)
  · obtain ⟨rfl, -, rfl⟩ := hlast name number target h
    rfl
  · cases hchange

theorem keepsSchema_of_vectorAfterDeletion :
    ∃ optimized, vectorAfterDeletion.execute = .ok optimized ∧
      vectorAfterDeletion.KeepsSchema optimized := by
  have h := keepsSchema_iff_losesNoChange vectorAfterDeletion
    (onePointRun_valid (by simp) (by simp))
  obtain ⟨optimized, hoptimized⟩ := h.1 (by decide)
  exact ⟨optimized, hoptimized, (h.2 optimized hoptimized).mpr vectorAfterDeletion_losesNoChange⟩

/-- The named vector that was created is missing from the optimized segment. -/
theorem vectorBeforeDeletion_lost :
    vectorBeforeDeletion.Valid ∧ ∃ optimized, vectorBeforeDeletion.execute = .ok optimized ∧
      ¬vectorBeforeDeletion.KeepsSchema optimized := by
  refine ⟨onePointRun_valid (by simp) (by simp), _, rfl, fun hkeeps => ?_⟩
  obtain ⟨expected, hrun, -, hsame⟩ := hkeeps vectorBeforeDeletion.first mem_cons_self
  obtain rfl := Except.ok.inj hrun
  cases hsame (0 : ℕ)

end OptimizationRun

end Stratumind.Optimize
