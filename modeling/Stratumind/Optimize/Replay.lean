import Stratumind.Optimize.ProxySegment

/-!
# Optimizing proxied segments

`execute_optimization` as far as the schema is concerned: the builder merges the wrapped
segments, the changes that the proxies have recorded so far are replayed on the result, and
`finish_optimization` replays what has been recorded since. Operations may be recorded between
any two reads of the proxies.
-/

namespace Stratumind.Optimize

variable {T : SchemaTypes}

/-! ### The changes of all proxies -/

/-- A deleted point of one proxy, with what the proxies before have for it. -/
def mergeDeletedPoint (current : Option ProxyDeletedPoint) (versions : ProxyDeletedPoint) :
    ProxyDeletedPoint :=
  let entry := current.getD versions
  { operationVersion := max entry.operationVersion versions.operationVersion
    localVersion := max entry.localVersion versions.localVersion }

variable (proxies : List (ProxySegment T))

/-- `proxy_deleted_points`. -/
def proxyDeletedPoints : AList fun _ : T.PointId => ProxyDeletedPoint :=
  proxies.foldl (fun deleted proxy => Lib.mergeWith mergeDeletedPoint deleted proxy.deletedPoints) ∅

/-- `proxy_index_changes`. -/
def proxyIndexChanges : ProxyIndexChanges T :=
  proxies.foldl (fun changes proxy => ProxyIndexChanges.merge changes proxy.changedIndexes) ∅

/-- `proxy_vector_name_changes`. -/
def proxyVectorNameChanges : ProxyVectorNameChanges T :=
  proxies.foldl
    (fun changes proxy => ProxyVectorNameChanges.merge changes proxy.changedVectorNames) ∅

/-! ### The builder -/

/-- `SegmentBuilder`. -/
structure SegmentBuilder (T : SchemaTypes) where
  version : ℕ
  vectorData : AList fun _ : T.VectorName => T.VectorConfig
  indexedFields : AList fun _ : T.Field => T.Schema
  points : AList fun _ : T.PointId => ℕ
  pointVersion_le : ∀ id pointVersion, points.lookup id = some pointVersion →
    pointVersion ≤ version

/-- The version of a point of which another copy may have been merged before. -/
def mergePointVersion (current : Option ℕ) (pointVersion : ℕ) : ℕ :=
  max (current.getD pointVersion) pointVersion

namespace SegmentBuilder

/-- `SegmentBuilder::new`. -/
def new (target : AList fun _ : T.VectorName => T.VectorConfig) : SegmentBuilder T where
  version := 0
  vectorData := target
  indexedFields := ∅
  points := ∅
  pointVersion_le := fun id pointVersion h => by
    rw [AList.lookup_empty] at h
    cases h

variable (builder : SegmentBuilder T)

/-- Merges one source segment. -/
def addSegment (segment : Segment T) : SegmentBuilder T where
  version := max builder.version segment.version
  vectorData := builder.vectorData
  indexedFields := Lib.mergeWith (fun _ schema => schema) builder.indexedFields segment.indexes
  points := Lib.mergeWith mergePointVersion builder.points segment.points
  pointVersion_le := fun id pointVersion h => by
    rw [Lib.lookup_mergeWith] at h
    cases hsegment : segment.points.lookup id with
    | none =>
      rw [hsegment, Option.map_none, Option.none_or] at h
      exact le_trans (builder.pointVersion_le id pointVersion h) (le_max_left _ _)
    | some segmentVersion =>
      rw [hsegment, Option.map_some, Option.some_or] at h
      cases h
      have hle := segment.pointVersion_le id segmentVersion hsegment
      unfold mergePointVersion
      cases hbuilder : builder.points.lookup id with
      | none =>
        rw [Option.getD_none]
        omega
      | some builderVersion =>
        have hbuilderLe := builder.pointVersion_le id builderVersion hbuilder
        rw [Option.getD_some]
        omega

/-- A named vector of a source that the target does not have. -/
def extraVectorName (segments : List (Segment T)) : Option T.VectorName :=
  segments.findSome? fun segment =>
    segment.vectors.keys.find? fun name => name ∉ builder.vectorData

/-- A named vector of the target that a source does not have. -/
def missingVectorName (segments : List (Segment T)) : Option T.VectorName :=
  builder.vectorData.keys.find? fun name => segments.any fun segment => name ∉ segment.vectors

/-- `SegmentBuilder::update`. -/
def update (segments : List (Segment T)) : OperationResult (SegmentBuilder T) :=
  if segments.isEmpty then .ok builder
  else if segments.length > 2 ^ 24 - 1 then .error (.serviceError "Too many segments to update")
  else
    match builder.extraVectorName segments with
    | some name =>
      .error (.cancelled ("Cannot update from other segment because it has an extra " ++
        "vector name " ++ T.displayVectorName name ++ " not in the target schema; " ++
        "retry after optimizer config refresh"))
    | none =>
      match builder.missingVectorName segments with
      | some name =>
        .error (.cancelled ("Cannot update from other segment because it is " ++
          "missing vector name " ++ T.displayVectorName name ++ "; " ++
          "retry after optimizer config refresh"))
      | none => .ok (segments.foldl addSegment builder)

/-- An index change that the builder takes over; its version is ignored. -/
def applyIndexChange (fields : AList fun _ : T.Field => T.Schema)
    (entry : Sigma fun _ : T.Field => ProxyIndexChange T) : AList fun _ : T.Field => T.Schema :=
  match entry.2 with
  | .create schema _ => fields.insert entry.1 schema
  | .delete _ => fields.erase entry.1
  | .deleteIfIncompatible _ schema =>
    match fields.lookup entry.1 with
    | none => fields
    | some existing => if existing ≠ schema then fields.erase entry.1 else fields

/-- `SegmentBuilder::build`. -/
def build (nonAppendable : Bool) : Segment T where
  version := builder.version
  nonAppendable := nonAppendable
  indexes := builder.indexedFields
  vectors := builder.vectorData
  points := builder.points
  pointVersion_le := builder.pointVersion_le

end SegmentBuilder

/-! ### Replaying recorded changes -/

variable (segment : Segment T)

/-- Replays the change of a payload index. -/
def Segment.applyIndexChange
    (entry : Sigma fun _ : T.Field => ProxyIndexChange T) : OperationResult (Segment T) :=
  match entry.2 with
  | .create schema version => (segment.createFieldIndex version entry.1 schema).map Prod.fst
  | .delete version => .ok (segment.deleteFieldIndex version entry.1).1
  | .deleteIfIncompatible version schema =>
    .ok (segment.deleteFieldIndexIfIncompatible version entry.1 schema).1

/-- Replays the change of a named vector. A vector that supersedes the wrapped one is deleted
first, because a vector that exists is not created again. -/
def Segment.applyVectorNameChange
    (entry : Sigma fun _ : T.VectorName => IntendedVector T) : OperationResult (Segment T) :=
  match entry.2 with
  | .absent version => .ok (segment.deleteVectorName version entry.1).1
  | .present config version supersedesWrapped =>
    let segment :=
      if supersedesWrapped then (segment.deleteVectorName version entry.1).1 else segment
    .ok (segment.createVectorName version entry.1 config).1

/-- Replays changes of payload indexes in the order of their versions. -/
def Segment.replayIndexChanges (changes : ProxyIndexChanges T) : OperationResult (Segment T) :=
  (Lib.orderedEntries ProxyIndexChange.version changes).foldlM Segment.applyIndexChange segment

/-- Replays changes of named vectors in the order of their versions. -/
def Segment.replayVectorNameChanges (changes : ProxyVectorNameChanges T) :
    OperationResult (Segment T) :=
  (Lib.orderedEntries IntendedVector.version changes).foldlM Segment.applyVectorNameChange segment

/-- Deletes points. -/
def Segment.deletePoints
    (deleted : List (Sigma fun _ : T.PointId => ProxyDeletedPoint)) : Segment T :=
  deleted.foldl
    (fun segment entry => (segment.deletePoint entry.2.operationVersion entry.1).1) segment

/-! ### The optimization -/

/-- An optimization: the segments that are merged, the target they are merged into, and the
operations that are recorded before each read of the proxies. -/
structure OptimizationRun (T : SchemaTypes) where
  first : Segment T
  others : List (Segment T)
  target : AList fun _ : T.VectorName => T.VectorConfig
  nonAppendable : Bool
  beforeBuilder : List (NumberedOperation T)
  beforeDeletedPoints : List (NumberedOperation T)
  beforeIndexChanges : List (NumberedOperation T)
  beforeAlreadyRemoved : List (NumberedOperation T)
  beforeFinish : List (NumberedOperation T)

/-- Records operations in every proxy. -/
def recordAll (ops : List (NumberedOperation T)) : OperationResult (List (ProxySegment T)) :=
  proxies.mapM fun proxy => ops.foldlM ProxySegment.apply proxy

/-- `finish_optimization`: vector names first, then indexes, then points. -/
def finishOptimization (optimized : Segment T) (proxies : List (ProxySegment T))
    (alreadyRemoved : AList fun _ : T.PointId => ProxyDeletedPoint) :
    OperationResult (Segment T) := do
  let optimized ← optimized.replayVectorNameChanges (proxyVectorNameChanges proxies)
  let optimized ← optimized.replayIndexChanges (proxyIndexChanges proxies)
  let pointsDiff := (proxyDeletedPoints proxies).entries.filter fun entry =>
    entry.1 ∉ alreadyRemoved
  pure (optimized.deletePoints pointsDiff)

/-- The points that need not be deleted when the optimization is finished. -/
def alreadyRemovePoints (optimized : Segment T) (proxies : List (ProxySegment T)) :
    AList fun _ : T.PointId => ProxyDeletedPoint :=
  optimized.points.keys.foldl (fun deleted id => deleted.erase id) (proxyDeletedPoints proxies)

namespace OptimizationRun

variable (run : OptimizationRun T)

/-- The segments that are merged. -/
def inputs : List (Segment T) := run.first :: run.others

/-- The operations whose index changes the build replays. -/
def builtOperations : List (NumberedOperation T) :=
  run.beforeBuilder ++ run.beforeDeletedPoints ++ run.beforeIndexChanges

/-- All operations that are recorded while the optimization runs. -/
def operations : List (NumberedOperation T) :=
  run.builtOperations ++ run.beforeAlreadyRemoved ++ run.beforeFinish

/-- The first part of `build_new_segment`, up to the build of the segment. -/
def buildSegment (run : OptimizationRun T) (proxies : List (ProxySegment T)) :
    OperationResult (Segment T) := do
  let builder ← (SegmentBuilder.new run.target).update run.inputs
  let indexedFields := (proxyIndexChanges proxies).entries.foldl SegmentBuilder.applyIndexChange
    builder.indexedFields
  pure ({ builder with indexedFields }.build run.nonAppendable)

/-- `execute_optimization`: the segment that replaces the proxies. -/
def execute : OperationResult (Segment T) := do
  let proxies ← recordAll (run.inputs.map ProxySegment.new) run.beforeBuilder
  let optimized ← run.buildSegment proxies
  let proxies ← recordAll proxies run.beforeDeletedPoints
  let deleted := proxyDeletedPoints proxies
  let proxies ← recordAll proxies run.beforeIndexChanges
  let optimized ← optimized.replayIndexChanges (proxyIndexChanges proxies)
  let optimized := optimized.deletePoints deleted.entries
  let proxies ← recordAll proxies run.beforeAlreadyRemoved
  let alreadyRemoved := alreadyRemovePoints optimized proxies
  let proxies ← recordAll proxies run.beforeFinish
  finishOptimization optimized proxies alreadyRemoved

end OptimizationRun

/-!
### Replaying what the proxies have recorded

What the proxies hold together, what the builder makes of the wrapped segments, and what the
replay of recorded changes does to the schema and to the version of a segment.
-/

open List

/-! ### The changes of all proxies -/

/-- Every segment has a proxy that has recorded the operations. -/
def AllRecorded (inputs : List (Segment T)) (ops : List (NumberedOperation T))
    (proxies : List (ProxySegment T)) : Prop :=
  Forall₂ (fun segment proxy => ProxySegment.Recorded segment ops proxy) inputs proxies

theorem allRecorded_new (inputs : List (Segment T)) :
    AllRecorded inputs [] (inputs.map ProxySegment.new) := by
  induction inputs with
  | nil => exact Forall₂.nil
  | cons segment inputs ih => exact Forall₂.cons (ProxySegment.recorded_new segment) ih

variable {ops : List (NumberedOperation T)} {proxies : List (ProxySegment T)}
  {inputs : List (Segment T)}

/-- More operations are recorded by every proxy. -/
theorem AllRecorded.recordAll {before : List (NumberedOperation T)}
    (h : AllRecorded inputs before proxies)
    (hnewer : ∀ segment ∈ inputs, ∀ op ∈ ops, segment.version ≤ op.opNum)
    (hincreasing : (before ++ ops).Pairwise fun a b => a.opNum < b.opNum) :
    ∃ next, recordAll proxies ops = .ok next ∧ AllRecorded inputs (before ++ ops) next := by
  induction h with
  | nil => exact ⟨[], rfl, Forall₂.nil⟩
  | @cons segment proxy inputs proxies hfirst hrest ih =>
    obtain ⟨hsegment, hinputs⟩ := forall_mem_cons.mp hnewer
    obtain ⟨recorded, hrecorded, hfirst⟩ := hfirst.foldlM hsegment hincreasing
    obtain ⟨next, hnext, hrest⟩ := ih hinputs
    refine ⟨recorded :: next, ?_, Forall₂.cons hfirst hrest⟩
    unfold Optimize.recordAll at hnext ⊢
    rw [mapM_cons, hrecorded, hnext]
    rfl

private theorem AllRecorded.forall_proxy (h : AllRecorded inputs ops proxies)
    {p : ProxySegment T → Prop}
    (hp : ∀ segment ∈ inputs, ∀ proxy, ProxySegment.Recorded segment ops proxy → p proxy) :
    ∀ proxy ∈ proxies, p proxy := by
  induction h with
  | nil => exact nofun
  | cons hfirst _ ih =>
    grind

private theorem AllRecorded.exists_proxy (h : AllRecorded inputs ops proxies) {segment : Segment T}
    (hsegment : segment ∈ inputs) : ∃ proxy ∈ proxies, ProxySegment.Recorded segment ops proxy := by
  induction h with
  | nil => cases hsegment
  | cons hfirst _ ih =>
    grind

section merged

variable {first : Segment T} {others : List (Segment T)} {ops : List (NumberedOperation T)}
  {proxies : List (ProxySegment T)}

/-- The proxies' index changes together are those of each of them. -/
theorem AllRecorded.lookup_proxyIndexChanges (h : AllRecorded (first :: others) ops proxies)
    (key : T.Field) : (proxyIndexChanges proxies).lookup key = lastIndexChange ops key := by
  obtain ⟨proxy, hmem, -⟩ := h.exists_proxy mem_cons_self
  exact Lib.lookup_foldl_mergeWith_const (fun _ => rfl) (fun _ => rfl) ProxySegment.changedIndexes
    (ne_nil_of_mem hmem) (h.forall_proxy fun _ _ _ hproxy => hproxy.indexes key)

private theorem mergeIntent_self (intent : IntendedVector T) :
    ProxyVectorNameChanges.mergeIntent (some intent) intent = intent := by
  unfold ProxyVectorNameChanges.mergeIntent
  dsimp only
  rw [if_neg (Nat.lt_irrefl _)]
  cases intent with
  | present config version supersedesWrapped => cases supersedesWrapped <;> rfl
  | absent version => rfl

/-- The proxies' vector name changes together are those of each of them, when the wrapped
segments have the same named vectors. -/
theorem AllRecorded.lookup_proxyVectorNameChanges (h : AllRecorded (first :: others) ops proxies)
    (name : T.VectorName)
    (hsame : ∀ segment ∈ others, segment.vectors.lookup name = first.vectors.lookup name) :
    (proxyVectorNameChanges proxies).lookup name =
      intentAfter (first.vectors.lookup name) ops name := by
  have hall : ∀ proxy ∈ proxies, proxy.changedVectorNames.lookup name =
      intentAfter (first.vectors.lookup name) ops name := by
    refine h.forall_proxy fun segment hsegment proxy hproxy => ?_
    rcases mem_cons.mp hsegment with rfl | hsegment
    · exact hproxy.vectors name
    · rw [hproxy.vectors, hsame segment hsegment]
  obtain ⟨proxy, hmem, -⟩ := h.exists_proxy mem_cons_self
  exact Lib.lookup_foldl_mergeWith_const (fun _ => rfl) mergeIntent_self
    ProxySegment.changedVectorNames (ne_nil_of_mem hmem) hall

end merged

private theorem mergeDeletedPoint_self (versions : ProxyDeletedPoint) :
    mergeDeletedPoint (some versions) versions = versions := by
  unfold mergeDeletedPoint
  dsimp only [Option.getD_some]
  rw [max_self, max_self]

/-- The proxies' deleted points together are the deleted points that some segment has. -/
theorem AllRecorded.lookup_proxyDeletedPoints (h : AllRecorded inputs ops proxies) (id : T.PointId)
    (versions : ProxyDeletedPoint) :
    (proxyDeletedPoints proxies).lookup id = some versions ↔
      (∃ segment ∈ inputs, id ∈ segment.points) ∧
        (lastDeletion ops id).map (fun number => ⟨number, number⟩) = some versions := by
  have hall : ∀ proxy ∈ proxies, ∀ versions, proxy.deletedPoints.lookup id = some versions →
      (∃ segment ∈ inputs, id ∈ segment.points) ∧
        (lastDeletion ops id).map (fun number => ⟨number, number⟩) = some versions :=
    h.forall_proxy fun segment hsegment proxy hproxy versions hversions => by
      have := hproxy.deleted id
      grind
  rw [proxyDeletedPoints, Lib.lookup_foldl_mergeWith mergeDeletedPoint_self mergeDeletedPoint_self
    ProxySegment.deletedPoints (by simp) fun proxy hproxy other hother =>
      (hall proxy hproxy other hother).2]
  constructor
  · rintro (hempty | ⟨proxy, hproxy, hlookup⟩)
    · cases hempty
    · exact hall proxy hproxy versions hlookup
  · rintro ⟨⟨segment, hsegment, hmem⟩, hlast⟩
    obtain ⟨proxy, hproxyMem, hproxy⟩ := h.exists_proxy hsegment
    exact Or.inr ⟨proxy, hproxyMem, by rw [hproxy.deleted, if_pos hmem, hlast]⟩

/-! ### The builder -/

namespace SegmentBuilder

/-- What merging the segments does. -/
theorem foldl_addSegment (segments : List (Segment T)) (builder : SegmentBuilder T) :
    (segments.foldl addSegment builder).vectorData = builder.vectorData ∧
      (∀ bound, (segments.foldl addSegment builder).version ≤ bound ↔
        builder.version ≤ bound ∧ ∀ segment ∈ segments, segment.version ≤ bound) ∧
      (∀ id, id ∈ builder.points ∨ (∃ segment ∈ segments, id ∈ segment.points) →
        id ∈ (segments.foldl addSegment builder).points) := by
  induction segments generalizing builder with
  | nil =>
    grind
  | cons segment segments ih =>
    obtain ⟨hvectors, hversion, hpoints⟩ := ih (builder.addSegment segment)
    refine ⟨hvectors, fun bound => ?_, fun id h => hpoints id ?_⟩
    · rw [foldl_cons, hversion, forall_mem_cons]
      have hmax : (builder.addSegment segment).version = max builder.version segment.version := rfl
      rw [hmax, Nat.max_le, and_assoc]
    have hmerged : (builder.addSegment segment).points.lookup id =
        ((segment.points.lookup id).map (mergePointVersion (builder.points.lookup id))).or
          (builder.points.lookup id) := Lib.lookup_mergeWith _ _ _ _
    have hmem : id ∈ builder.points ∨ id ∈ segment.points →
        id ∈ (builder.addSegment segment).points := by
      intro hor
      rw [← AList.lookup_isSome, hmerged, Option.isSome_or, Option.isSome_map, Bool.or_eq_true]
      rw [AList.lookup_isSome, AList.lookup_isSome]
      exact hor.symm
    grind

/-- The merged segments have the indexes that they share. -/
theorem lookup_indexedFields_foldl_addSegment {segments : List (Segment T)} {key : T.Field}
    {schema : Option T.Schema} (hsame : ∀ segment ∈ segments, segment.indexes.lookup key = schema)
    {builder : SegmentBuilder T} (hbuilder : builder.indexedFields.lookup key = schema) :
    (segments.foldl addSegment builder).indexedFields.lookup key = schema := by
  induction segments generalizing builder with
  | nil => exact hbuilder
  | cons segment segments ih =>
    obtain ⟨hfirst, hrest⟩ := forall_mem_cons.mp hsame
    refine ih hrest ?_
    have hmerged : (builder.addSegment segment).indexedFields.lookup key =
        ((segment.indexes.lookup key).map id).or
          (builder.indexedFields.lookup key) := Lib.lookup_mergeWith _ _ _ _
    rw [hmerged, hfirst, hbuilder]
    cases schema <;> rfl

private theorem lookup_applyIndexChange (fields : AList fun _ : T.Field => T.Schema)
    (entry : Sigma fun _ : T.Field => ProxyIndexChange T) (key : T.Field) :
    (applyIndexChange fields entry).lookup key =
      if key = entry.1 then
        match entry.2 with
        | .create schema _ => some schema
        | .delete _ => none
        | .deleteIfIncompatible _ schema => (fields.lookup key).filter fun old => old = schema
      else fields.lookup key := by
  unfold applyIndexChange
  grind

/-- The index changes that the builder takes over. -/
theorem lookup_foldl_applyIndexChange (changes : ProxyIndexChanges T)
    (fields : AList fun _ : T.Field => T.Schema) (key : T.Field) :
    (changes.entries.foldl applyIndexChange fields).lookup key =
      match changes.lookup key with
      | none => fields.lookup key
      | some (.create schema _) => some schema
      | some (.delete _) => none
      | some (.deleteIfIncompatible _ schema) =>
        (fields.lookup key).filter fun old => old = schema := by
  have hlookup := @Lib.lookup_foldl_entries T.Field T.Schema (ProxyIndexChange T) _
    applyIndexChange (fun _ change old => match change with
      | .create schema _ => some schema
      | .delete _ => none
      | .deleteIfIncompatible _ schema => old.filter fun old => old = schema)
    lookup_applyIndexChange changes fields key
  rw [hlookup]
  cases changes.lookup key with
  | none => rfl
  | some change => cases change <;> rfl

/-- Segments with exactly the named vectors of the target are merged. -/
theorem update_new {target : AList fun _ : T.VectorName => T.VectorConfig} {first : Segment T}
    {others : List (Segment T)}
    (htarget : ∀ segment ∈ first :: others, ∀ name, name ∈ segment.vectors ↔ name ∈ target) :
    (new target).update (first :: others) =
      if (first :: others).length > 2 ^ 24 - 1 then
        .error (.serviceError "Too many segments to update")
      else .ok ((first :: others).foldl addSegment (new target)) := by
  have hextra : (new target).extraVectorName (first :: others) = none := by
    unfold extraVectorName
    rw [findSome?_eq_none_iff]
    intro segment hsegment
    rw [find?_eq_none]
    intro name hname
    have hmem : name ∈ (new target).vectorData :=
      (htarget segment hsegment name).mp (AList.mem_keys.mpr hname)
    simpa using hmem
  have hmissing : (new target).missingVectorName (first :: others) = none := by
    unfold missingVectorName
    rw [find?_eq_none]
    intro name hname hany
    obtain ⟨segment, hsegment, hnot⟩ := any_eq_true.mp hany
    have hmem : name ∈ segment.vectors :=
      (htarget segment hsegment name).mpr (AList.mem_keys.mpr hname)
    exact of_decide_eq_true hnot hmem
  unfold update
  rw [hextra, hmissing]
  rfl

end SegmentBuilder

/-! ### The replay -/

/-- The change does not depend on the index before. -/
def ProxyIndexChange.Replaces : ProxyIndexChange T → Prop
  | .create _ _ => True
  | .delete _ => True
  | .deleteIfIncompatible _ _ => False

theorem lastIndexChange_replaces {key : T.Field} {change : ProxyIndexChange T}
    (h : lastIndexChange ops key = some change) : change.Replaces := by
  induction ops using reverseRecOn with
  | nil => cases h
  | append_singleton ops op ih =>
    rw [lastIndexChange_append] at h
    cases hchange : op.indexChange key with
    | none =>
      rw [hchange, Option.none_or] at h
      exact ih h
    | some last =>
      rw [hchange, Option.some_or] at h
      cases h
      grind [NumberedOperation.indexChange, ProxyIndexChange.Replaces]

namespace Segment

/-- The replay of an index change leaves named vectors and points alone. -/
theorem numberedStep_applyIndexChange :
    Lib.NumberedStep version (fun (segment : Segment T) key => segment.indexes.lookup key)
      (fun segment => (segment.vectors, segment.points)) ProxyIndexChange.version
      ProxyIndexChange.Replaces ProxyIndexChange.effect applyIndexChange where
  skipped := by
    rintro segment ⟨key, change⟩ hreplaces hversion
    cases change with
    | create schema version =>
      have hskipped := segment.createFieldIndex_skipped hversion key schema
      exact congrArg (Except.map Prod.fst) hskipped
    | delete version =>
      have hskipped : segment.deleteFieldIndex version key = (segment, false) := if_pos hversion
      exact congrArg (fun result => Except.ok result.1) hskipped
    | deleteIfIncompatible version schema => cases hreplaces
  applied := by
    rintro segment ⟨key, change⟩ hreplaces hversion
    cases change with
    | create schema version =>
      obtain ⟨next, applied, hcreate, hnext, hvectors, hpoints, hindexes⟩ :=
        segment.createFieldIndex_applied hversion key schema
      exact ⟨next, congrArg (Except.map Prod.fst) hcreate, hnext, Prod.ext hvectors hpoints,
        hindexes⟩
    | delete version =>
      obtain ⟨hnext, hvectors, hpoints, hindexes⟩ := segment.deleteFieldIndex_applied hversion key
      exact ⟨_, rfl, hnext, Prod.ext hvectors hpoints, hindexes⟩
    | deleteIfIncompatible version schema => cases hreplaces

end Segment

/-- The configuration of a named vector after the change is replayed. -/
def IntendedVector.effect : IntendedVector T → Option T.VectorConfig → Option T.VectorConfig
  | .present config _ true, _ => some config
  | .present config _ false, previous => some (previous.getD config)
  | .absent _, _ => none

namespace Segment

variable {segment : Segment T}

private theorem vectorNameChange_skipped {version : ℕ} (h : version < segment.version)
    (name : T.VectorName) (config : T.VectorConfig) :
    (segment.deleteVectorName version name).1 = segment ∧
      (segment.createVectorName version name config).1 = segment := by
  unfold deleteVectorName createVectorName handleSegmentVersion
  rw [if_pos h, if_pos h]
  exact ⟨rfl, rfl⟩

/-- The replay of one change of a named vector that is not skipped. -/
theorem applyVectorNameChange_applied {entry : Sigma fun _ : T.VectorName => IntendedVector T}
    (h : segment.version ≤ entry.2.version) :
    ∃ next, segment.applyVectorNameChange entry = .ok next ∧ next.version = entry.2.version ∧
      next.indexes = segment.indexes ∧ next.points = segment.points ∧
      ∀ name, next.vectors.lookup name =
        if name = entry.1 then entry.2.effect (segment.vectors.lookup name)
        else segment.vectors.lookup name := by
  obtain ⟨changed, intent⟩ := entry
  cases intent with
  | absent version =>
    obtain ⟨hversion, hindexes, hpoints, hvectors⟩ := segment.deleteVectorName_applied h changed
    exact ⟨_, rfl, hversion, hindexes, hpoints, hvectors⟩
  | present config version supersedesWrapped =>
    cases supersedesWrapped with
    | false =>
      obtain ⟨hversion, hindexes, hpoints, hvectors⟩ :=
        segment.createVectorName_applied h changed config
      exact ⟨_, rfl, hversion, hindexes, hpoints, hvectors⟩
    | true =>
      have h : segment.version ≤ version := h
      obtain ⟨hversion, hindexes, hpoints, hvectors⟩ := segment.deleteVectorName_applied h changed
      obtain ⟨hversion', hindexes', hpoints', hvectors'⟩ :=
        (segment.deleteVectorName version changed).1.createVectorName_applied
          (Nat.le_of_eq hversion) changed config
      refine ⟨_, rfl, hversion', hindexes'.trans hindexes, hpoints'.trans hpoints, fun name => ?_⟩
      rw [if_pos rfl, hvectors', hvectors]
      split <;> rfl

theorem applyVectorNameChange_skipped {entry : Sigma fun _ : T.VectorName => IntendedVector T}
    (h : entry.2.version < segment.version) :
    segment.applyVectorNameChange entry = .ok segment := by
  obtain ⟨changed, intent⟩ := entry
  cases intent with
  | absent version =>
    have hskipped : segment.deleteVectorName version changed = (segment, false) := if_pos h
    unfold applyVectorNameChange
    dsimp only
    rw [hskipped]
  | present config version supersedesWrapped =>
    have h : version < segment.version := h
    obtain ⟨hdelete, hcreate⟩ := vectorNameChange_skipped h changed config
    unfold applyVectorNameChange
    dsimp only
    rw [hdelete, ite_self, hcreate]

/-- The replay of a vector name change leaves indexes and points alone. -/
theorem numberedStep_applyVectorNameChange :
    Lib.NumberedStep version (fun (segment : Segment T) name => segment.vectors.lookup name)
      (fun segment => (segment.indexes, segment.points)) IntendedVector.version (fun _ => True)
      IntendedVector.effect applyVectorNameChange where
  skipped := fun _ _ _ h => applyVectorNameChange_skipped h
  applied := fun segment entry _ h => by
    obtain ⟨next, hnext, hversion, hindexes, hpoints, hvectors⟩ :=
      segment.applyVectorNameChange_applied h
    exact ⟨next, hnext, hversion, Prod.ext hindexes hpoints, hvectors⟩

/-! ### Deleted points -/

theorem deletePoints_schema (segment : Segment T)
    (deleted : List (Sigma fun _ : T.PointId => ProxyDeletedPoint)) :
    (segment.deletePoints deleted).indexes = segment.indexes ∧
      (segment.deletePoints deleted).vectors = segment.vectors := by
  induction deleted generalizing segment with
  | nil => exact ⟨rfl, rfl⟩
  | cons entry deleted ih =>
    obtain ⟨hindexes, hvectors⟩ := ih (segment.deletePoint entry.2.operationVersion entry.1).1
    obtain ⟨hfirstIndexes, hfirstVectors⟩ :=
      segment.deletePoint_schema entry.2.operationVersion entry.1
    exact ⟨hindexes.trans hfirstIndexes, hvectors.trans hfirstVectors⟩

/-- Of the points that are deleted, those that are newer stay. -/
theorem lookup_deletePoints (segment : Segment T)
    {deleted : List (Sigma fun _ : T.PointId => ProxyDeletedPoint)} (hkeys : deleted.NodupKeys)
    (id : T.PointId) :
    (segment.deletePoints deleted).points.lookup id =
      match deleted.dlookup id with
      | none => segment.points.lookup id
      | some versions => (segment.points.lookup id).filter fun pointVersion =>
          versions.operationVersion < pointVersion := by
  have hview := @Lib.view_foldl_entries T.PointId ℕ ProxyDeletedPoint _ _
    (fun segment id => segment.points.lookup id) _
    (fun _ versions point => point.filter fun pointVersion =>
      versions.operationVersion < pointVersion)
    (fun segment entry id => segment.lookup_deletePoint entry.2.operationVersion entry.1 id)
    deleted hkeys segment id
  refine hview.trans ?_
  cases deleted.dlookup id with
  | none => rfl
  | some versions => rfl

/-- Deleting points that are there raises the version to the highest number. -/
theorem deletePoints_version_le {deleted : List (Sigma fun _ : T.PointId => ProxyDeletedPoint)}
    (hkeys : deleted.NodupKeys)
    (hpoints : ∀ entry ∈ deleted, ∃ pointVersion,
      segment.points.lookup entry.1 = some pointVersion ∧
        pointVersion ≤ entry.2.operationVersion) (bound : ℕ) :
    (segment.deletePoints deleted).version ≤ bound ↔
      segment.version ≤ bound ∧ ∀ entry ∈ deleted, entry.2.operationVersion ≤ bound := by
  induction deleted generalizing segment with
  | nil => simp [deletePoints]
  | cons entry deleted ih =>
    obtain ⟨hnotMem, hkeys⟩ := nodupKeys_cons.mp hkeys
    obtain ⟨⟨pointVersion, hlookup, hle⟩, hpoints⟩ := forall_mem_cons.mp hpoints
    obtain ⟨next, hnext⟩ :
        ∃ next, next = (segment.deletePoint entry.2.operationVersion entry.1).1 :=
      ⟨_, rfl⟩
    have hversion : next.version = max entry.2.operationVersion segment.version := by
      rw [hnext, deletePoint, hlookup]
      dsimp only
      rw [if_neg (Nat.not_lt.mpr hle)]
      rfl
    have hothers : ∀ other ∈ deleted, ∃ pointVersion,
        next.points.lookup other.1 = some pointVersion ∧
          pointVersion ≤ other.2.operationVersion := by
      intro other hother
      obtain ⟨otherVersion, hotherLookup, hotherLe⟩ := hpoints other hother
      have hne : other.1 ≠ entry.1 := fun heq => hnotMem (heq ▸ mem_keys_of_mem hother)
      refine ⟨otherVersion, ?_, hotherLe⟩
      rw [hnext, deletePoint, hlookup]
      dsimp only
      rw [if_neg (Nat.not_lt.mpr hle)]
      exact (AList.lookup_erase_ne hne).trans hotherLookup
    have hrest := ih hkeys hothers
    rw [forall_mem_cons]
    have hcons : segment.deletePoints (entry :: deleted) = next.deletePoints deleted := by
      rw [hnext]
      rfl
    rw [hcons, hrest, hversion, Nat.max_le]
    tauto

end Segment

end Stratumind.Optimize
