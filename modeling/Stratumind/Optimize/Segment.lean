import Stratumind.Common.Types
import Stratumind.Lib.Assoc

/-!
# The schema of a segment

The part of `Segment` that schema changes and point deletions touch: its version, payload
indexes, named vectors and points, with the operations of `NonAppendableSegmentEntry` on
them. Payload schemas are expanded, and the configuration of a named vector consists of the
fields the user controls. No operation has failed before.
-/

namespace Stratumind.Optimize

/-- The types of field names, payload schemas, vector names, vector configurations and point
ids, with the parts of them that are looked at. -/
structure SchemaTypes where
  Field : Type
  Schema : Type
  VectorName : Type
  VectorConfig : Type
  PointId : Type
  [fieldEq : DecidableEq Field]
  [schemaEq : DecidableEq Schema]
  [vectorNameEq : DecidableEq VectorName]
  [vectorConfigEq : DecidableEq VectorConfig]
  [pointIdEq : DecidableEq PointId]
  onlyOnDiskDiffers : Schema → Schema → Bool
  displayField : Field → String
  displayVectorName : VectorName → String

attribute [instance] SchemaTypes.fieldEq SchemaTypes.schemaEq SchemaTypes.vectorNameEq
  SchemaTypes.vectorConfigEq SchemaTypes.pointIdEq

variable {T : SchemaTypes}

/-- How one payload schema becomes another. -/
inductive SchemaTransition where
  | identical
  | onlyOnDiskFlipped
  | incompatible
  deriving DecidableEq

/-- `schema_transition::classify`. -/
def classify (old new : T.Schema) : SchemaTransition :=
  if old = new then .identical
  else if T.onlyOnDiskDiffers old new then .onlyOnDiskFlipped
  else .incompatible

/-- A segment. No point has a newer version than its segment. -/
structure Segment (T : SchemaTypes) where
  version : ℕ
  nonAppendable : Bool
  indexes : AList fun _ : T.Field => T.Schema
  vectors : AList fun _ : T.VectorName => T.VectorConfig
  points : AList fun _ : T.PointId => ℕ
  pointVersion_le : ∀ id pointVersion, points.lookup id = some pointVersion →
    pointVersion ≤ version

/-- What `build_field_index` finds. -/
inductive BuildFieldIndexResult (T : SchemaTypes) where
  | skippedByVersion
  | alreadyExists
  | incompatibleSchema
  | built (schema : T.Schema)

namespace Segment

/-- `Segment::bump_segment_version`. -/
def bumpSegmentVersion (segment : Segment T) (opNum : ℕ) : Segment T :=
  { segment with
    version := max opNum segment.version
    pointVersion_le := fun id pointVersion h =>
      le_trans (segment.pointVersion_le id pointVersion h) (le_max_right _ _) }

/-- `Segment::handle_segment_version`: skips an operation that is older than the segment. -/
def handleSegmentVersion (segment : Segment T) (opNum : ℕ)
    (operation : Segment T → Segment T × Bool) : Segment T × Bool :=
  if segment.version > opNum then (segment, false)
  else
    let (segment, applied) := operation segment
    (segment.bumpSegmentVersion opNum, applied)

/-- `PayloadIndex::drop_index`. -/
def dropIndex (segment : Segment T) (key : T.Field) : Segment T :=
  { segment with indexes := segment.indexes.erase key }

/-- `PayloadIndex::drop_index_if_incompatible`. -/
def dropIndexIfIncompatible (segment : Segment T) (key : T.Field) (schema : T.Schema) : Segment T :=
  match segment.indexes.lookup key with
  | none => segment
  | some current =>
    match classify current schema with
    | .identical => segment
    | .onlyOnDiskFlipped => if segment.nonAppendable then segment else segment.dropIndex key
    | .incompatible => segment.dropIndex key

/-- `Segment::delete_field_index`. -/
def deleteFieldIndex (segment : Segment T) (opNum : ℕ) (key : T.Field) : Segment T × Bool :=
  segment.handleSegmentVersion opNum fun segment => (segment.dropIndex key, true)

/-- `Segment::delete_field_index_if_incompatible`. -/
def deleteFieldIndexIfIncompatible (segment : Segment T) (opNum : ℕ) (key : T.Field)
    (schema : T.Schema) : Segment T × Bool :=
  segment.handleSegmentVersion opNum fun segment =>
    (segment.dropIndexIfIncompatible key schema, true)

/-- `Segment::build_field_index`. -/
def buildFieldIndex (segment : Segment T) (opNum : ℕ) (key : T.Field) (schema : T.Schema) :
    BuildFieldIndexResult T :=
  if segment.version > opNum then .skippedByVersion
  else
    match segment.indexes.lookup key with
    | none => .built schema
    | some previous =>
      match classify previous schema with
      | .identical => .alreadyExists
      | .onlyOnDiskFlipped => .built schema
      | .incompatible => .incompatibleSchema

/-- `Segment::apply_field_index`. -/
def applyFieldIndex (segment : Segment T) (opNum : ℕ) (key : T.Field) (schema : T.Schema) :
    Segment T × Bool :=
  segment.handleSegmentVersion opNum fun segment =>
    ({ segment with indexes := segment.indexes.insert key schema }, true)

/-- `create_field_index`: drops an incompatible index, then builds and applies the new one. -/
def createFieldIndex (segment : Segment T) (opNum : ℕ) (key : T.Field) (schema : T.Schema) :
    OperationResult (Segment T × Bool) :=
  let (segment, _) := segment.deleteFieldIndexIfIncompatible opNum key schema
  match segment.buildFieldIndex opNum key schema with
  | .skippedByVersion => .ok (segment, false)
  | .alreadyExists => .ok (segment, false)
  | .incompatibleSchema =>
    .error (.serviceError ("Incompatible schema for field index on field " ++ T.displayField key))
  | .built schema => .ok (segment.applyFieldIndex opNum key schema)

/-- `Segment::create_vector_name`: a name that exists is kept as it is. -/
def createVectorName (segment : Segment T) (opNum : ℕ) (name : T.VectorName)
    (config : T.VectorConfig) : Segment T × Bool :=
  segment.handleSegmentVersion opNum fun segment =>
    match segment.vectors.lookup name with
    | some _ => (segment, false)
    | none => ({ segment with vectors := segment.vectors.insert name config }, true)

/-- `Segment::delete_vector_name`. -/
def deleteVectorName (segment : Segment T) (opNum : ℕ) (name : T.VectorName) : Segment T × Bool :=
  segment.handleSegmentVersion opNum fun segment =>
    match segment.vectors.lookup name with
    | none => (segment, false)
    | some _ => ({ segment with vectors := segment.vectors.erase name }, true)

private theorem lookup_erase_some {points : AList fun _ : T.PointId => ℕ} {erased id : T.PointId}
    {pointVersion : ℕ} (h : (points.erase erased).lookup id = some pointVersion) :
    points.lookup id = some pointVersion := by
  grind

/-- `Segment::delete_point`: a point with a newer version stays. -/
def deletePoint (segment : Segment T) (opNum : ℕ) (id : T.PointId) : Segment T × Bool :=
  match segment.points.lookup id with
  | none => (segment, false)
  | some pointVersion =>
    if pointVersion > opNum then (segment, false)
    else
      (({ segment with
          points := segment.points.erase id
          pointVersion_le := fun other otherVersion h =>
            segment.pointVersion_le other otherVersion (lookup_erase_some h) } :
        Segment T).bumpSegmentVersion opNum, true)

/-! ### What the operations do -/

variable {segment : Segment T} {opNum : ℕ}

theorem createFieldIndex_skipped (h : opNum < segment.version) (key : T.Field) (schema : T.Schema) :
    segment.createFieldIndex opNum key schema = .ok (segment, false) := by
  have hdrop : segment.deleteFieldIndexIfIncompatible opNum key schema = (segment, false) :=
    if_pos h
  unfold createFieldIndex
  rw [hdrop]
  dsimp only
  rw [buildFieldIndex, if_pos h]

/-- Dropping an incompatible index changes that index only, and leaves none that is
incompatible. -/
structure DroppedFor (segment : Segment T) (key : T.Field) (schema : T.Schema)
    (dropped : Segment T) : Prop where
  version : dropped.version = segment.version
  vectors : dropped.vectors = segment.vectors
  points : dropped.points = segment.points
  others : ∀ other, other ≠ key → dropped.indexes.lookup other = segment.indexes.lookup other
  compatible : ∀ current, dropped.indexes.lookup key = some current →
    classify current schema ≠ .incompatible

private theorem droppedFor_dropIndex (segment : Segment T) (key : T.Field) (schema : T.Schema) :
    segment.DroppedFor key schema (segment.dropIndex key) where
  version := rfl
  vectors := rfl
  points := rfl
  others := fun _ hother => AList.lookup_erase_ne hother
  compatible := fun current hcurrent => by
    have hnone : (segment.dropIndex key).indexes.lookup key = none := AList.lookup_erase _ _
    rw [hnone] at hcurrent
    cases hcurrent

private theorem droppedFor_self {key : T.Field} {schema : T.Schema}
    (h : ∀ current, segment.indexes.lookup key = some current →
      classify current schema ≠ .incompatible) :
    segment.DroppedFor key schema segment :=
  ⟨rfl, rfl, rfl, fun _ _ => rfl, h⟩

theorem droppedFor_dropIndexIfIncompatible (segment : Segment T) (key : T.Field)
    (schema : T.Schema) :
    segment.DroppedFor key schema (segment.dropIndexIfIncompatible key schema) := by
  unfold dropIndexIfIncompatible
  cases hlookup : segment.indexes.lookup key with
  | none =>
    refine droppedFor_self fun current hcurrent => ?_
    rw [hlookup] at hcurrent
    cases hcurrent
  | some current =>
    have hself : classify current schema ≠ .incompatible →
        segment.DroppedFor key schema segment := by
      intro hclassify
      refine droppedFor_self fun other hother => ?_
      rw [hlookup] at hother
      cases hother
      exact hclassify
    dsimp only
    cases hclassify : classify current schema with
    | identical => exact hself (by rw [hclassify]; exact SchemaTransition.noConfusion)
    | onlyOnDiskFlipped =>
      dsimp only
      split
      · exact hself (by rw [hclassify]; exact SchemaTransition.noConfusion)
      · exact droppedFor_dropIndex segment key schema
    | incompatible => exact droppedFor_dropIndex segment key schema

section

variable (h : segment.version ≤ opNum)

include h

private theorem buildFieldIndex_compatible {key : T.Field} {schema : T.Schema}
    (hcompatible : ∀ current, segment.indexes.lookup key = some current →
      classify current schema ≠ .incompatible) :
    segment.buildFieldIndex opNum key schema = .alreadyExists ∧
        segment.indexes.lookup key = some schema ∨
      segment.buildFieldIndex opNum key schema = .built schema := by
  rw [buildFieldIndex, if_neg (Nat.not_lt.mpr h)]
  cases hlookup : segment.indexes.lookup key with
  | none => exact Or.inr rfl
  | some current =>
    have hclassify := hcompatible current hlookup
    unfold classify at hclassify ⊢
    grind

/-- An index that is created replaces the one before. -/
theorem createFieldIndex_applied (key : T.Field) (schema : T.Schema) :
    ∃ next applied, segment.createFieldIndex opNum key schema = .ok (next, applied) ∧
      next.version = opNum ∧ next.vectors = segment.vectors ∧ next.points = segment.points ∧
      ∀ other, next.indexes.lookup other =
        if other = key then some schema else segment.indexes.lookup other := by
  have hdropped := droppedFor_dropIndexIfIncompatible segment key schema
  have hdelete : segment.deleteFieldIndexIfIncompatible opNum key schema =
      ((segment.dropIndexIfIncompatible key schema).bumpSegmentVersion opNum, true) :=
    if_neg (Nat.not_lt.mpr h)
  generalize segment.dropIndexIfIncompatible key schema = dropped at hdropped hdelete
  have hbumped : (dropped.bumpSegmentVersion opNum).version = opNum := by
    have hmax : max opNum dropped.version = opNum := by
      rw [hdropped.version, max_eq_left h]
    exact hmax
  unfold createFieldIndex
  rw [hdelete]
  dsimp only
  rcases buildFieldIndex_compatible (Nat.le_of_eq hbumped) hdropped.compatible with
    ⟨hbuild, hlookup⟩ | hbuild
  · rw [hbuild]
    refine ⟨_, _, rfl, hbumped, hdropped.vectors, hdropped.points, fun other => ?_⟩
    split
    · rename_i heq
      rw [heq, hlookup]
    · rename_i hne
      exact hdropped.others other hne
  rw [hbuild]
  have hothers := hdropped.others
  have happly : (dropped.bumpSegmentVersion opNum).applyFieldIndex opNum key schema =
      (({ dropped.bumpSegmentVersion opNum with
        indexes := dropped.indexes.insert key schema } : Segment T).bumpSegmentVersion opNum,
        true) := if_neg (Nat.not_lt.mpr (Nat.le_of_eq hbumped))
  dsimp only
  rw [happly]
  refine ⟨_, _, rfl, ?_, hdropped.vectors, hdropped.points, fun other => ?_⟩
  · have hmax : max opNum (dropped.bumpSegmentVersion opNum).version = opNum := by
      rw [hbumped, max_self]
    exact hmax
  change (dropped.indexes.insert key schema).lookup other = _
  grind

/-- An index that is deleted is gone. -/
theorem deleteFieldIndex_applied (key : T.Field) :
    (segment.deleteFieldIndex opNum key).1.version = opNum ∧
      (segment.deleteFieldIndex opNum key).1.vectors = segment.vectors ∧
      (segment.deleteFieldIndex opNum key).1.points = segment.points ∧
      ∀ other, (segment.deleteFieldIndex opNum key).1.indexes.lookup other =
        if other = key then none else segment.indexes.lookup other := by
  have happly : segment.deleteFieldIndex opNum key =
      ((segment.dropIndex key).bumpSegmentVersion opNum, true) := if_neg (Nat.not_lt.mpr h)
  rw [happly]
  exact ⟨max_eq_left h, rfl, rfl, Lib.lookup_erase segment.indexes key⟩

/-- A named vector that is created stays as it was if it existed. -/
theorem createVectorName_applied (name : T.VectorName) (config : T.VectorConfig) :
    (segment.createVectorName opNum name config).1.version = opNum ∧
      (segment.createVectorName opNum name config).1.indexes = segment.indexes ∧
      (segment.createVectorName opNum name config).1.points = segment.points ∧
      ∀ other, (segment.createVectorName opNum name config).1.vectors.lookup other =
        if other = name then some ((segment.vectors.lookup other).getD config)
        else segment.vectors.lookup other := by
  unfold createVectorName handleSegmentVersion
  rw [if_neg (Nat.not_lt.mpr h)]
  dsimp only
  cases hlookup : segment.vectors.lookup name with
  | some existing =>
    refine ⟨max_eq_left h, rfl, rfl, fun other => ?_⟩
    change segment.vectors.lookup other = _
    grind
  | none =>
    refine ⟨max_eq_left h, rfl, rfl, fun other => ?_⟩
    change (segment.vectors.insert name config).lookup other = _
    grind

/-- A named vector that is deleted is gone. -/
theorem deleteVectorName_applied (name : T.VectorName) :
    (segment.deleteVectorName opNum name).1.version = opNum ∧
      (segment.deleteVectorName opNum name).1.indexes = segment.indexes ∧
      (segment.deleteVectorName opNum name).1.points = segment.points ∧
      ∀ other, (segment.deleteVectorName opNum name).1.vectors.lookup other =
        if other = name then none else segment.vectors.lookup other := by
  unfold deleteVectorName handleSegmentVersion
  rw [if_neg (Nat.not_lt.mpr h)]
  dsimp only
  cases hlookup : segment.vectors.lookup name with
  | none =>
    refine ⟨max_eq_left h, rfl, rfl, fun other => ?_⟩
    change segment.vectors.lookup other = _
    grind
  | some existing => exact ⟨max_eq_left h, rfl, rfl, Lib.lookup_erase segment.vectors name⟩

end

/-- Deleting a point leaves the schema alone. -/
theorem deletePoint_schema (segment : Segment T) (opNum : ℕ) (id : T.PointId) :
    (segment.deletePoint opNum id).1.indexes = segment.indexes ∧
      (segment.deletePoint opNum id).1.vectors = segment.vectors := by
  unfold deletePoint
  split
  · exact ⟨rfl, rfl⟩
  · split <;> exact ⟨rfl, rfl⟩

/-- A point is deleted unless it is newer. -/
theorem lookup_deletePoint (segment : Segment T) (opNum : ℕ) (id other : T.PointId) :
    (segment.deletePoint opNum id).1.points.lookup other =
      if other = id then
        (segment.points.lookup other).filter fun pointVersion => opNum < pointVersion
      else segment.points.lookup other := by
  unfold deletePoint
  cases hlookup : segment.points.lookup id with
  | none =>
    grind
  | some pointVersion =>
    dsimp only
    split
    · grind
    · change (segment.points.erase id).lookup other = _
      grind

end Segment

end Stratumind.Optimize
