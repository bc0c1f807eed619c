import Stratumind.Optimize.Segment
import Stratumind.Lib.NumberedChanges

/-!
# Proxy segments

While a segment is optimized, a `ProxySegment` stands in for it. The wrapped segment stays as
it is; schema changes and point deletions are recorded in the proxy, to be propagated to the
optimized segment later.
-/

namespace Stratumind.Optimize

open List

variable {T : SchemaTypes}

/-! ### Operations -/

/-- An operation that changes the schema or deletes a point. -/
inductive SchemaOperation (T : SchemaTypes) where
  | createIndex (key : T.Field) (schema : T.Schema)
  | deleteIndex (key : T.Field)
  | createVectorName (name : T.VectorName) (config : T.VectorConfig)
  | deleteVectorName (name : T.VectorName)
  | deletePoint (id : T.PointId)

/-- An operation with its number. -/
structure NumberedOperation (T : SchemaTypes) where
  opNum : ℕ
  operation : SchemaOperation T

/-- Applies an operation to a segment that is not proxied. -/
def Segment.apply (segment : Segment T) (op : NumberedOperation T) : OperationResult (Segment T) :=
  match op.operation with
  | .createIndex key schema => (segment.createFieldIndex op.opNum key schema).map Prod.fst
  | .deleteIndex key => .ok (segment.deleteFieldIndex op.opNum key).1
  | .createVectorName name config => .ok (segment.createVectorName op.opNum name config).1
  | .deleteVectorName name => .ok (segment.deleteVectorName op.opNum name).1
  | .deletePoint id => .ok (segment.deletePoint op.opNum id).1

/-! ### Recorded changes -/

/-- The last change of a payload index. -/
inductive ProxyIndexChange (T : SchemaTypes) where
  | create (schema : T.Schema) (version : ℕ)
  | delete (version : ℕ)
  | deleteIfIncompatible (version : ℕ) (schema : T.Schema)

/-- `ProxyIndexChange::version`. -/
def ProxyIndexChange.version : ProxyIndexChange T → ℕ
  | .create _ version => version
  | .delete version => version
  | .deleteIfIncompatible version _ => version

/-- The state that a named vector should end up in. -/
inductive IntendedVector (T : SchemaTypes) where
  | present (config : T.VectorConfig) (version : ℕ) (supersedesWrapped : Bool)
  | absent (version : ℕ)

namespace IntendedVector

/-- `IntendedVector::version`. -/
def version : IntendedVector T → ℕ
  | .present _ version _ => version
  | .absent version => version

/-- `IntendedVector::taints_wrapped`. -/
def taintsWrapped : IntendedVector T → Bool
  | .present _ _ supersedesWrapped => supersedesWrapped
  | .absent _ => true

/-- Marks a vector that should be present as one that supersedes the wrapped one. -/
def supersede : IntendedVector T → IntendedVector T
  | .present config version _ => .present config version true
  | .absent version => .absent version

end IntendedVector

/-- The changes of payload indexes that a proxy has recorded. -/
abbrev ProxyIndexChanges (T : SchemaTypes) := AList fun _ : T.Field => ProxyIndexChange T

/-- The changes of named vectors that a proxy has recorded. -/
abbrev ProxyVectorNameChanges (T : SchemaTypes) :=
  AList fun _ : T.VectorName => IntendedVector T

/-- `ProxyIndexChanges::merge`: the change of the other proxy replaces this one's. -/
def ProxyIndexChanges.merge (self other : ProxyIndexChanges T) : ProxyIndexChanges T :=
  Lib.mergeWith (fun _ change => change) self other

namespace ProxyVectorNameChanges

/-- `wrapped_carries_stale_schema`. -/
def wrappedCarriesStaleSchema (existing : Option T.VectorConfig) (config : T.VectorConfig) : Bool :=
  match existing with
  | none => false
  | some existing => decide (existing ≠ config)

/-- The intent that `record_create` stores, from the wrapped configuration and the intent
recorded before. -/
def intentOfCreate (wrapped : Option T.VectorConfig) (previous : Option (IntendedVector T))
    (config : T.VectorConfig) (version : ℕ) : IntendedVector T :=
  .present config version
    (previous.any IntendedVector.taintsWrapped || wrappedCarriesStaleSchema wrapped config)

/-- `ProxyVectorNameChanges::record_create`. -/
def recordCreate (intent : ProxyVectorNameChanges T) (name : T.VectorName)
    (config : T.VectorConfig) (version : ℕ)
    (wrappedConfig : AList fun _ : T.VectorName => T.VectorConfig) : ProxyVectorNameChanges T :=
  intent.insert name
    (intentOfCreate (wrappedConfig.lookup name) (intent.lookup name) config version)

/-- `ProxyVectorNameChanges::record_delete`. -/
def recordDelete (intent : ProxyVectorNameChanges T) (name : T.VectorName) (version : ℕ) :
    ProxyVectorNameChanges T :=
  intent.insert name (.absent version)

/-- The intent that is left of the intents of two proxies for one name. -/
def mergeIntent (self : Option (IntendedVector T)) (other : IntendedVector T) : IntendedVector T :=
  match self with
  | none => other
  | some self =>
    if other.version > self.version then
      if self.taintsWrapped then other.supersede else other
    else if other.taintsWrapped then self.supersede
    else self

/-- `ProxyVectorNameChanges::merge`: the higher version wins. -/
def merge (self other : ProxyVectorNameChanges T) : ProxyVectorNameChanges T :=
  Lib.mergeWith mergeIntent self other

end ProxyVectorNameChanges

/-! ### The proxy -/

/-- A point that was deleted in a proxy. -/
structure ProxyDeletedPoint where
  localVersion : ℕ
  operationVersion : ℕ
  deriving DecidableEq

/-- A segment that stands in for another one. -/
structure ProxySegment (T : SchemaTypes) where
  wrappedSegment : Segment T
  changedIndexes : ProxyIndexChanges T
  changedVectorNames : ProxyVectorNameChanges T
  deletedPoints : AList fun _ : T.PointId => ProxyDeletedPoint
  version : ℕ

namespace ProxySegment

/-- `ProxySegment::new`. -/
def new (segment : Segment T) : ProxySegment T where
  wrappedSegment := segment
  changedIndexes := ∅
  changedVectorNames := ∅
  deletedPoints := ∅
  version := segment.version

variable (proxy : ProxySegment T) (opNum : ℕ)

/-- The version check that every schema change of a proxy starts with. -/
def recordChange (record : ProxySegment T → ProxySegment T) : ProxySegment T × Bool :=
  if proxy.version > opNum then (proxy, false)
  else (record { proxy with version := max proxy.version opNum }, true)

/-- `ProxySegment::delete_field_index`. -/
def deleteFieldIndex (key : T.Field) : ProxySegment T × Bool :=
  proxy.recordChange opNum fun proxy =>
    { proxy with changedIndexes := proxy.changedIndexes.insert key (.delete opNum) }

/-- `ProxySegment::delete_field_index_if_incompatible`. -/
def deleteFieldIndexIfIncompatible (key : T.Field) (schema : T.Schema) : ProxySegment T × Bool :=
  proxy.recordChange opNum fun proxy =>
    { proxy with
      changedIndexes := proxy.changedIndexes.insert key (.deleteIfIncompatible opNum schema) }

/-- `ProxySegment::build_field_index`: no index is built in a proxy. -/
def buildFieldIndex (schema : T.Schema) : BuildFieldIndexResult T :=
  if proxy.version > opNum then .skippedByVersion else .built schema

/-- `ProxySegment::apply_field_index`. -/
def applyFieldIndex (key : T.Field) (schema : T.Schema) : ProxySegment T × Bool :=
  proxy.recordChange opNum fun proxy =>
    { proxy with changedIndexes := proxy.changedIndexes.insert key (.create schema opNum) }

/-- `create_field_index` on a proxy. -/
def createFieldIndex (key : T.Field) (schema : T.Schema) :
    OperationResult (ProxySegment T × Bool) :=
  let (proxy, _) := proxy.deleteFieldIndexIfIncompatible opNum key schema
  match proxy.buildFieldIndex opNum schema with
  | .skippedByVersion => .ok (proxy, false)
  | .alreadyExists => .ok (proxy, false)
  | .incompatibleSchema =>
    .error (.serviceError ("Incompatible schema for field index on field " ++ T.displayField key))
  | .built schema => .ok (proxy.applyFieldIndex opNum key schema)

/-- `ProxySegment::create_vector_name`. -/
def createVectorName (name : T.VectorName) (config : T.VectorConfig) : ProxySegment T × Bool :=
  proxy.recordChange opNum fun proxy =>
    { proxy with
      changedVectorNames := ProxyVectorNameChanges.recordCreate proxy.changedVectorNames name
        config opNum proxy.wrappedSegment.vectors }

/-- `ProxySegment::delete_vector_name`. -/
def deleteVectorName (name : T.VectorName) : ProxySegment T × Bool :=
  proxy.recordChange opNum fun proxy =>
    { proxy with
      changedVectorNames :=
        ProxyVectorNameChanges.recordDelete proxy.changedVectorNames name opNum }

/-- `ProxySegment::delete_point`: a point that the wrapped segment does not have is not
recorded. -/
def deletePoint (id : T.PointId) : ProxySegment T × Bool :=
  let proxy := { proxy with version := max proxy.version opNum }
  match proxy.wrappedSegment.points.lookup id with
  | none => (proxy, false)
  | some _ =>
    ({ proxy with deletedPoints := proxy.deletedPoints.insert id ⟨opNum, opNum⟩ },
      (proxy.deletedPoints.lookup id).isNone)

/-- Records an operation in a proxy. -/
def apply (op : NumberedOperation T) : OperationResult (ProxySegment T) :=
  match op.operation with
  | .createIndex key schema => (proxy.createFieldIndex op.opNum key schema).map Prod.fst
  | .deleteIndex key => .ok (proxy.deleteFieldIndex op.opNum key).1
  | .createVectorName name config => .ok (proxy.createVectorName op.opNum name config).1
  | .deleteVectorName name => .ok (proxy.deleteVectorName op.opNum name).1
  | .deletePoint id => .ok (proxy.deletePoint op.opNum id).1

end ProxySegment

/-! ### What a sequence of operations does to one key -/

namespace NumberedOperation

/-- The change of a payload index that an operation makes. -/
def indexChange (op : NumberedOperation T) (key : T.Field) : Option (ProxyIndexChange T) :=
  match op.operation with
  | .createIndex changed schema => if key = changed then some (.create schema op.opNum) else none
  | .deleteIndex changed => if key = changed then some (.delete op.opNum) else none
  | _ => none

/-- The intent for a named vector after an operation is recorded. -/
def recordIntent (op : NumberedOperation T) (wrapped : Option T.VectorConfig)
    (name : T.VectorName) (previous : Option (IntendedVector T)) : Option (IntendedVector T) :=
  match op.operation with
  | .createVectorName changed config =>
    if name = changed then
      some (ProxyVectorNameChanges.intentOfCreate wrapped previous config op.opNum)
    else previous
  | .deleteVectorName changed => if name = changed then some (.absent op.opNum) else previous
  | _ => previous

/-- The configuration of a named vector after an operation is applied. -/
def applyVector (op : NumberedOperation T) (name : T.VectorName)
    (previous : Option T.VectorConfig) : Option T.VectorConfig :=
  match op.operation with
  | .createVectorName changed config =>
    if name = changed then some (previous.getD config) else previous
  | .deleteVectorName changed => if name = changed then none else previous
  | _ => previous

/-- The number of the operation if it deletes the point. -/
def deletion (op : NumberedOperation T) (id : T.PointId) : Option ℕ :=
  match op.operation with
  | .deletePoint deleted => if id = deleted then some op.opNum else none
  | _ => none

end NumberedOperation

variable (ops : List (NumberedOperation T))

/-- The last change of a payload index. -/
def lastIndexChange (key : T.Field) : Option (ProxyIndexChange T) :=
  ops.reverse.findSome? fun op => op.indexChange key

/-- The intent for a named vector after all operations are recorded. -/
def intentAfter (wrapped : Option T.VectorConfig) (ops : List (NumberedOperation T))
    (name : T.VectorName) : Option (IntendedVector T) :=
  ops.foldl (fun previous op => op.recordIntent wrapped name previous) none

/-- The configuration of a named vector after all operations are applied. -/
def vectorAfter (initial : Option T.VectorConfig) (ops : List (NumberedOperation T))
    (name : T.VectorName) : Option T.VectorConfig :=
  ops.foldl (fun previous op => op.applyVector name previous) initial

/-- The number of the last deletion of a point. -/
def lastDeletion (id : T.PointId) : Option ℕ :=
  ops.reverse.findSome? fun op => op.deletion id

/-- The index of a field after its last change. -/
def ProxyIndexChange.effect : ProxyIndexChange T → Option T.Schema → Option T.Schema
  | .create schema _, _ => some schema
  | .delete _, _ => none
  | .deleteIfIncompatible _ _, previous => previous

/-- The index of a field after all operations are applied. -/
def indexAfter (initial : Option T.Schema) (ops : List (NumberedOperation T)) (key : T.Field) :
    Option T.Schema :=
  match lastIndexChange ops key with
  | none => initial
  | some change => change.effect initial

theorem lastIndexChange_append (op : NumberedOperation T) (key : T.Field) :
    lastIndexChange (ops ++ [op]) key = (op.indexChange key).or (lastIndexChange ops key) := by
  unfold lastIndexChange
  rw [reverse_append, findSome?_append, reverse_singleton, findSome?_singleton]

theorem intentAfter_append (wrapped : Option T.VectorConfig) (ops : List (NumberedOperation T))
    (op : NumberedOperation T) (name : T.VectorName) :
    intentAfter wrapped (ops ++ [op]) name =
      op.recordIntent wrapped name (intentAfter wrapped ops name) := by
  unfold intentAfter
  rw [foldl_append, foldl_cons, foldl_nil]

theorem lastDeletion_append (op : NumberedOperation T) (id : T.PointId) :
    lastDeletion (ops ++ [op]) id = (op.deletion id).or (lastDeletion ops id) := by
  unfold lastDeletion
  rw [reverse_append, findSome?_append, reverse_singleton, findSome?_singleton]

theorem vectorAfter_append (initial : Option T.VectorConfig) (ops : List (NumberedOperation T))
    (op : NumberedOperation T) (name : T.VectorName) :
    vectorAfter initial (ops ++ [op]) name =
      op.applyVector name (vectorAfter initial ops name) := by
  unfold vectorAfter
  rw [foldl_append, foldl_cons, foldl_nil]

/-! ### What is recorded -/

namespace ProxySegment

/-- One operation recorded in a proxy that is not newer. -/
structure Records (proxy : ProxySegment T) (op : NumberedOperation T) (next : ProxySegment T) :
    Prop where
  wrapped : next.wrappedSegment = proxy.wrappedSegment
  version : next.version = max proxy.version op.opNum
  indexes : ∀ key, next.changedIndexes.lookup key =
    (op.indexChange key).or (proxy.changedIndexes.lookup key)
  vectors : ∀ name, next.changedVectorNames.lookup name =
    op.recordIntent (proxy.wrappedSegment.vectors.lookup name) name
      (proxy.changedVectorNames.lookup name)
  deleted : ∀ id, next.deletedPoints.lookup id =
    if id ∈ proxy.wrappedSegment.points then
      ((op.deletion id).map fun number => ⟨number, number⟩).or (proxy.deletedPoints.lookup id)
    else proxy.deletedPoints.lookup id

variable {proxy : ProxySegment T}

private theorem recordChange_fst {opNum : ℕ} (h : proxy.version ≤ opNum)
    (record : ProxySegment T → ProxySegment T) :
    (proxy.recordChange opNum record).1 =
      record { proxy with version := max proxy.version opNum } := by
  unfold recordChange
  rw [if_neg (Nat.not_lt.mpr h)]

private theorem createFieldIndex_fst {opNum : ℕ} (h : proxy.version ≤ opNum) (key : T.Field)
    (schema : T.Schema) :
    ∃ dropped : ProxySegment T, dropped = { proxy with
        changedIndexes := proxy.changedIndexes.insert key (.deleteIfIncompatible opNum schema)
        version := max proxy.version opNum } ∧
      (proxy.createFieldIndex opNum key schema).map Prod.fst = .ok { dropped with
        changedIndexes := dropped.changedIndexes.insert key (.create schema opNum)
        version := max proxy.version opNum } := by
  refine ⟨_, rfl, ?_⟩
  unfold createFieldIndex deleteFieldIndexIfIncompatible recordChange
  rw [if_neg (Nat.not_lt.mpr h)]
  dsimp only
  unfold buildFieldIndex
  rw [if_neg (by dsimp only; omega)]
  dsimp only
  unfold applyFieldIndex recordChange
  rw [if_neg (by dsimp only; omega)]
  dsimp only [Except.map]
  rw [max_assoc, max_self]

/-- An operation that is newer than the proxy is recorded. -/
theorem apply_records {op : NumberedOperation T}
    (h : proxy.version ≤ op.opNum) : ∃ next, proxy.apply op = .ok next ∧ proxy.Records op next := by
  obtain ⟨opNum, operation⟩ := op
  cases operation with
  | createIndex key schema =>
    obtain ⟨dropped, rfl, hcreate⟩ := createFieldIndex_fst h key schema
    refine ⟨_, hcreate, rfl, rfl, fun other => ?_, fun _ => rfl, fun _ => (ite_self _).symm⟩
    simp only [NumberedOperation.indexChange, Lib.lookup_insert]
    split <;> rfl
  | deleteIndex key =>
    refine ⟨_, rfl, ?_⟩
    unfold deleteFieldIndex
    rw [recordChange_fst h]
    refine ⟨rfl, rfl, fun other => ?_, fun _ => rfl, fun _ => (ite_self _).symm⟩
    simp only [NumberedOperation.indexChange, Lib.lookup_insert]
    split <;> rfl
  | createVectorName name config =>
    refine ⟨_, rfl, ?_⟩
    unfold createVectorName
    rw [recordChange_fst h]
    refine ⟨rfl, rfl, fun _ => rfl, fun other => ?_, fun _ => (ite_self _).symm⟩
    simp only [ProxyVectorNameChanges.recordCreate, NumberedOperation.recordIntent,
      Lib.lookup_insert]
    split <;> grind
  | deleteVectorName name =>
    refine ⟨_, rfl, ?_⟩
    unfold deleteVectorName
    rw [recordChange_fst h]
    refine ⟨rfl, rfl, fun _ => rfl, fun other => ?_, fun _ => (ite_self _).symm⟩
    simp only [ProxyVectorNameChanges.recordDelete, NumberedOperation.recordIntent,
      Lib.lookup_insert]
  | deletePoint id =>
    have hmem : id ∈ proxy.wrappedSegment.points ↔
        (proxy.wrappedSegment.points.lookup id).isSome := AList.lookup_isSome.symm
    refine ⟨_, rfl, ?_⟩
    unfold deletePoint
    dsimp only
    cases hlookup : proxy.wrappedSegment.points.lookup id <;>
      refine ⟨rfl, rfl, fun _ => rfl, fun _ => rfl, fun other => ?_⟩ <;>
      grind [NumberedOperation.deletion]

/-- What a proxy holds after a sequence of operations. -/
structure Recorded (segment : Segment T) (ops : List (NumberedOperation T))
    (proxy : ProxySegment T) : Prop where
  wrapped : proxy.wrappedSegment = segment
  version : ∀ bound, segment.version ≤ bound → (∀ op ∈ ops, op.opNum ≤ bound) →
    proxy.version ≤ bound
  indexes : ∀ key, proxy.changedIndexes.lookup key = lastIndexChange ops key
  vectors : ∀ name, proxy.changedVectorNames.lookup name =
    intentAfter (segment.vectors.lookup name) ops name
  deleted : ∀ id, proxy.deletedPoints.lookup id =
    if id ∈ segment.points then (lastDeletion ops id).map fun number => ⟨number, number⟩
    else none

theorem recorded_new (segment : Segment T) : Recorded segment [] (new segment) where
  wrapped := rfl
  version := fun _ h _ => h
  indexes := fun _ => rfl
  vectors := fun _ => rfl
  deleted := fun _ => (ite_self _).symm

/-- One more recorded operation. -/
theorem Recorded.apply {segment : Segment T} {ops : List (NumberedOperation T)}
    (h : Recorded segment ops proxy) {op : NumberedOperation T}
    (hnewer : segment.version ≤ op.opNum) (hlater : ∀ earlier ∈ ops, earlier.opNum < op.opNum) :
    ∃ next, proxy.apply op = .ok next ∧ Recorded segment (ops ++ [op]) next := by
  have hversion : proxy.version ≤ op.opNum :=
    h.version op.opNum hnewer fun earlier hearlier => Nat.le_of_lt (hlater earlier hearlier)
  obtain ⟨next, hnext, hrecords⟩ := apply_records hversion
  refine ⟨next, hnext, hrecords.wrapped.trans h.wrapped, fun bound hbound hops => ?_,
    fun key => ?_, fun name => ?_, fun id => ?_⟩
  · rw [forall_mem_append] at hops
    have hop := hops.2 op (mem_singleton_self op)
    have hbefore := h.version bound hbound hops.1
    rw [hrecords.version]
    exact max_le hbefore hop
  · rw [hrecords.indexes, h.indexes, lastIndexChange_append]
  · rw [hrecords.vectors, h.vectors, h.wrapped, intentAfter_append]
  rw [hrecords.deleted, h.deleted, h.wrapped, lastDeletion_append]
  split
  · cases op.deletion id with
    | none => rfl
    | some number => rfl
  · rfl

/-- Operations with increasing numbers are all recorded. -/
theorem Recorded.foldlM {segment : Segment T} {before : List (NumberedOperation T)}
    (h : Recorded segment before proxy) {ops : List (NumberedOperation T)}
    (hnewer : ∀ op ∈ ops, segment.version ≤ op.opNum)
    (hincreasing : (before ++ ops).Pairwise fun a b => a.opNum < b.opNum) :
    ∃ next, ops.foldlM ProxySegment.apply proxy = .ok next ∧
      Recorded segment (before ++ ops) next := by
  induction ops generalizing before proxy with
  | nil => exact ⟨proxy, rfl, by rwa [append_nil]⟩
  | cons op ops ih =>
    obtain ⟨hop, hops⟩ := forall_mem_cons.mp hnewer
    have hlater : ∀ earlier ∈ before, earlier.opNum < op.opNum := fun earlier hearlier =>
      (pairwise_append.mp hincreasing).2.2 earlier hearlier op mem_cons_self
    obtain ⟨next, hnext, hrecorded⟩ := h.apply hop hlater
    have happend : before ++ op :: ops = before ++ [op] ++ ops := by simp
    rw [happend] at hincreasing
    obtain ⟨final, hfinal, hrecordedFinal⟩ := ih hrecorded hops hincreasing
    refine ⟨final, ?_, ?_⟩
    · rw [foldlM_cons, hnext]
      exact hfinal
    · rwa [happend]

end ProxySegment

/-! ### What the operations do to a segment -/

/-- One operation that is not older than the segment. -/
theorem Segment.apply_contents {segment : Segment T} {op : NumberedOperation T}
    (h : segment.version ≤ op.opNum) :
    ∃ next, segment.apply op = .ok next ∧ next.version ≤ op.opNum ∧
      (∀ key, next.indexes.lookup key = match op.indexChange key with
        | none => segment.indexes.lookup key
        | some change => change.effect (segment.indexes.lookup key)) ∧
      (∀ name, next.vectors.lookup name = op.applyVector name (segment.vectors.lookup name)) ∧
      ∀ id, next.points.lookup id =
        if op.deletion id = none then segment.points.lookup id else none := by
  obtain ⟨opNum, operation⟩ := op
  cases operation with
  | createIndex key schema =>
    obtain ⟨next, applied, hcreate, hversion, hvectors, hpoints, hindexes⟩ :=
      segment.createFieldIndex_applied h key schema
    have hnext : segment.apply ⟨opNum, .createIndex key schema⟩ = .ok next := by
      unfold Segment.apply
      dsimp only
      rw [hcreate]
      rfl
    refine ⟨next, hnext, Nat.le_of_eq hversion, fun other => ?_, fun name => by rw [hvectors]; rfl,
      fun id => by rw [hpoints]; rfl⟩
    simp only [hindexes, NumberedOperation.indexChange]
    split <;> rfl
  | deleteIndex key =>
    obtain ⟨hversion, hvectors, hpoints, hindexes⟩ := segment.deleteFieldIndex_applied h key
    refine ⟨_, rfl, Nat.le_of_eq hversion, fun other => ?_, fun name => by rw [hvectors]; rfl,
      fun id => by rw [hpoints]; rfl⟩
    simp only [hindexes, NumberedOperation.indexChange]
    split <;> rfl
  | createVectorName name config =>
    obtain ⟨hversion, hindexes, hpoints, hvectors⟩ :=
      segment.createVectorName_applied h name config
    exact ⟨_, rfl, Nat.le_of_eq hversion, fun key => by rw [hindexes]; rfl, hvectors,
      fun id => by rw [hpoints]; rfl⟩
  | deleteVectorName name =>
    obtain ⟨hversion, hindexes, hpoints, hvectors⟩ := segment.deleteVectorName_applied h name
    exact ⟨_, rfl, Nat.le_of_eq hversion, fun key => by rw [hindexes]; rfl, hvectors,
      fun id => by rw [hpoints]; rfl⟩
  | deletePoint deleted =>
    obtain ⟨hindexes, hvectors⟩ := segment.deletePoint_schema opNum deleted
    refine ⟨_, rfl, ?_, fun key => by rw [hindexes]; rfl, fun name => by rw [hvectors]; rfl,
      fun id => ?_⟩
    · unfold Segment.deletePoint
      split
      · exact h
      · split
        · exact h
        · exact Nat.le_of_eq (max_eq_left h)
    -- no point is newer than its segment, so none is newer than the deletion
    have hle := segment.pointVersion_le id
    rw [segment.lookup_deletePoint]
    cases hlookup : segment.points.lookup id <;> grind [NumberedOperation.deletion]

/-- The contents of a segment after operations with increasing numbers. -/
theorem Segment.foldlM_apply_contents {segment : Segment T}
    (hnewer : ∀ op ∈ ops, segment.version ≤ op.opNum)
    (hincreasing : ops.Pairwise fun a b => a.opNum < b.opNum) :
    ∃ final, ops.foldlM Segment.apply segment = .ok final ∧
      (∀ bound, segment.version ≤ bound → (∀ op ∈ ops, op.opNum ≤ bound) → final.version ≤ bound) ∧
      (∀ key, final.indexes.lookup key = indexAfter (segment.indexes.lookup key) ops key) ∧
      (∀ name, final.vectors.lookup name = vectorAfter (segment.vectors.lookup name) ops name) ∧
      ∀ id, final.points.lookup id =
        if lastDeletion ops id = none then segment.points.lookup id else none := by
  -- the last operation is the one that counts for its key, so the induction is from the end
  induction ops using reverseRecOn with
  | nil => exact ⟨segment, rfl, fun _ h _ => h, fun _ => rfl, fun _ => rfl, fun _ => rfl⟩
  | append_singleton ops op ih =>
    obtain ⟨hops, hop⟩ := forall_mem_append.mp hnewer
    obtain ⟨hpairwise, -, hlater⟩ := pairwise_append.mp hincreasing
    obtain ⟨before, hbefore, hversion, hindexes, hvectors, hpoints⟩ := ih hops hpairwise
    have hle : before.version ≤ op.opNum :=
      hversion op.opNum (hop op (mem_singleton_self op)) fun earlier hearlier =>
        Nat.le_of_lt (hlater earlier hearlier op (mem_singleton_self op))
    obtain ⟨final, hfinal, hfinalVersion, hfinalIndexes, hfinalVectors, hfinalPoints⟩ :=
      apply_contents hle
    refine ⟨final, ?_, fun bound _ hbound => ?_, fun key => ?_, fun name => ?_, fun id => ?_⟩
    · have hlast : [op].foldlM Segment.apply before = .ok final := by
        rw [foldlM_cons, hfinal]
        rfl
      rw [foldlM_append, hbefore]
      exact hlast
    · exact le_trans hfinalVersion (hbound op (by simp))
    · rw [hfinalIndexes, hindexes]
      unfold indexAfter
      rw [lastIndexChange_append]
      cases hchange : op.indexChange key with
      | none => rw [Option.none_or]
      | some change =>
        -- the change replaces whatever was there
        cases change with
        | create schema version => rfl
        | delete version => rfl
        | deleteIfIncompatible version schema => grind [NumberedOperation.indexChange]
    · rw [hfinalVectors, hvectors, vectorAfter_append]
    · rw [hfinalPoints, hpoints, lastDeletion_append]
      cases op.deletion id <;> rfl

end Stratumind.Optimize
