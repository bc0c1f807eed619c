import Stratumind.Optimize.SchemaChanges

/-!
# Draining a proxy

`propagate_to_wrapped` writes what a proxy has recorded to the segment that it wraps: index
changes first, then vector names, then deleted points. Indexes and points come out as if the
operations had been applied to the segment directly. A vector name is skipped when an index
change with a higher number is written before it, and of several changes of one name only the
last is written.
-/

namespace Stratumind.Optimize

variable {T : SchemaTypes}

/-- `ProxySegment::propagate_to_wrapped`. -/
def ProxySegment.propagateToWrapped (proxy : ProxySegment T) :
    OperationResult (ProxySegment T) := do
  let wrapped ← proxy.wrappedSegment.replayIndexChanges proxy.changedIndexes
  let wrapped ← wrapped.replayVectorNameChanges proxy.changedVectorNames
  pure { proxy with
    wrappedSegment := wrapped.deletePoints proxy.deletedPoints.entries
    changedIndexes := ∅
    changedVectorNames := ∅
    deletedPoints := ∅ }

/-- Two segments have the same payload indexes, named vectors and points. -/
structure Segment.SameContents (a b : Segment T) : Prop where
  indexes : ∀ key, a.indexes.lookup key = b.indexes.lookup key
  vectors : ∀ name, a.vectors.lookup name = b.vectors.lookup name
  points : ∀ id, a.points.lookup id = b.points.lookup id

/-- An index change with a higher number is written before a vector name with this number. -/
def OvertakenByIndex (ops : List (NumberedOperation T)) (number : ℕ) : Prop :=
  ∃ op ∈ ops, (∃ key, op.indexChange key ≠ none) ∧ number < op.opNum

/-- What is skipped or collapsed makes no difference to any vector name. -/
structure LosesNoVectorName (segment : Segment T) (ops : List (NumberedOperation T)) : Prop where
  /-- A vector name whose last change is skipped ends up as it was. -/
  overtaken : ∀ name number target, lastVectorChange ops name = some (number, target) →
    OvertakenByIndex ops number →
    vectorAfter (segment.vectors.lookup name) ops name = segment.vectors.lookup name
  /-- A vector name whose last change is written gets the configuration of that change. -/
  written : ∀ name number target, lastVectorChange ops name = some (number, target) →
    ¬OvertakenByIndex ops number →
    vectorAfter (segment.vectors.lookup name) ops name = target

section drain

variable {segment : Segment T} {ops : List (NumberedOperation T)} {proxy : ProxySegment T}

/-- The contents of the wrapped segment after its proxy is drained. -/
structure Drained (segment : Segment T) (ops : List (NumberedOperation T))
    (drained : Segment T) : Prop where
  indexes : ∀ key, drained.indexes.lookup key = indexAfter (segment.indexes.lookup key) ops key
  points : ∀ id, drained.points.lookup id =
    if lastDeletion ops id = none then segment.points.lookup id else none
  vectors : VectorsReplayed ops (OvertakenByIndex ops) (segment.vectors.lookup ·)
    (drained.vectors.lookup ·)

private theorem lookup_deletePoints_recorded (hproxy : ProxySegment.Recorded segment ops proxy)
    (hnewer : ∀ op ∈ ops, segment.version ≤ op.opNum) {wrapped : Segment T}
    (hpoints : wrapped.points = segment.points) (id : T.PointId) :
    (wrapped.deletePoints proxy.deletedPoints.entries).points.lookup id =
      if lastDeletion ops id = none then segment.points.lookup id else none := by
  have hlookup := wrapped.lookup_deletePoints proxy.deletedPoints.nodupKeys id
  have hdeleted : proxy.deletedPoints.entries.dlookup id = _ := hproxy.deleted id
  rw [hdeleted, hpoints] at hlookup
  refine hlookup.trans ?_
  by_cases hmem : id ∈ segment.points
  · rw [if_pos hmem]
    cases hlast : lastDeletion ops id with
    | none => rfl
    | some number =>
      -- the deletion is newer than the segment, and so than the point
      obtain ⟨op, hop, hdeletion⟩ := exists_of_last hlast
      rw [if_neg (Option.some_ne_none _), Option.map_some]
      rw [Option.filter_eq_none_iff]
      intro pointVersion hpoint
      have hle := segment.pointVersion_le id pointVersion hpoint
      have hopLe := hnewer op hop
      have hnumber := (NumberedOperation.eq_of_deletion hdeletion).1
      simp only [decide_eq_true_eq]
      omega
  · rw [if_neg hmem]
    rw [AList.lookup_eq_none.mpr hmem, ite_self]

/-- What `propagate_to_wrapped` makes of the wrapped segment. -/
theorem ProxySegment.Recorded.propagateToWrapped (hproxy : ProxySegment.Recorded segment ops proxy)
    (hnewer : ∀ op ∈ ops, segment.version ≤ op.opNum)
    (hincreasing : ops.Pairwise fun a b => a.opNum < b.opNum) :
    ∃ drained, proxy.propagateToWrapped = .ok drained ∧
      Drained segment ops drained.wrappedSegment := by
  obtain ⟨indexed, hindexed, hindexes⟩ :=
    segment.replayIndexChanges_replayed hincreasing hproxy.indexes
  have hintents : ∀ name, proxy.changedVectorNames.lookup name =
      intentAfter (indexed.vectors.lookup name) ops name := by
    intro name
    rw [hindexes.vectors]
    exact hproxy.vectors name
  obtain ⟨named, hnamed, hnames⟩ := Segment.replayVectorNameChanges_replayed hintents
  refine ⟨{ proxy with
    wrappedSegment := named.deletePoints proxy.deletedPoints.entries
    changedIndexes := ∅
    changedVectorNames := ∅
    deletedPoints := ∅ }, ?_, ?_⟩
  · unfold ProxySegment.propagateToWrapped
    rw [hproxy.wrapped, hindexed]
    dsimp only [bind, Except.bind]
    rw [hnamed]
    rfl
  obtain ⟨hfinalIndexes, hfinalVectors⟩ :=
    named.deletePoints_schema proxy.deletedPoints.entries
  -- a name is skipped exactly if an index change has raised the version above it
  have hversion : ∀ name number target, lastVectorChange ops name = some (number, target) →
      (indexed.version ≤ number ↔ ¬OvertakenByIndex ops number) := by
    intro name number target hlast
    obtain ⟨op, hop, hchange⟩ := exists_of_last hlast
    have hle : segment.version ≤ number := by
      rw [← NumberedOperation.number_of_vectorChange hchange]
      exact hnewer op hop
    rw [hindexes.version]
    constructor
    · rintro ⟨-, hall⟩ ⟨later, hlater, hkey, hlt⟩
      exact absurd (hall later hlater hkey) (Nat.not_le.mpr hlt)
    · intro hnot
      exact ⟨hle, fun later hlater hkey => Nat.le_of_not_lt fun hlt =>
        hnot ⟨later, hlater, hkey, hlt⟩⟩
  refine ⟨fun key => ?_, ?_, ?_⟩
  · rw [hfinalIndexes, hnames.indexes]
    refine hindexes.applied key fun change hlast => ?_
    obtain ⟨op, hop, hchange⟩ := exists_of_last hlast
    rw [NumberedOperation.version_of_indexChange hchange]
    exact hnewer op hop
  · exact lookup_deletePoints_recorded hproxy hnewer (hnames.points.trans hindexes.points)
  · rw [hfinalVectors, ← hindexes.vectors]
    exact hnames.vectors _ hversion

end drain

/-- **Draining a proxy** is exact up to vector names. After operations with increasing numbers
that are newer than the segment, the drained segment has the contents that the segment has
after the same operations if and only if no vector name is lost. -/
theorem propagateToWrapped_sameContents_iff (segment : Segment T) (ops : List (NumberedOperation T))
    (hnewer : ∀ op ∈ ops, segment.version < op.opNum)
    (hincreasing : ops.Pairwise fun a b => a.opNum < b.opNum) :
    ∃ proxy drained expected, ops.foldlM ProxySegment.apply (ProxySegment.new segment) = .ok proxy ∧
      proxy.propagateToWrapped = .ok drained ∧ ops.foldlM Segment.apply segment = .ok expected ∧
      (drained.wrappedSegment.SameContents expected ↔ LosesNoVectorName segment ops) := by
  have hle : ∀ op ∈ ops, segment.version ≤ op.opNum := fun op hop => Nat.le_of_lt (hnewer op hop)
  obtain ⟨proxy, hrecord, hproxy⟩ := (ProxySegment.recorded_new segment).foldlM hle
    (by rwa [List.nil_append])
  rw [List.nil_append] at hproxy
  obtain ⟨drained, hdrain, hdrained⟩ := hproxy.propagateToWrapped hle hincreasing
  obtain ⟨expected, hexpected, -, hindexes, hvectors, hpoints⟩ :=
    segment.foldlM_apply_contents ops hle hincreasing
  refine ⟨proxy, drained, expected, hrecord, hdrain, hexpected, ?_⟩
  have hlost := hdrained.vectors.eq_vectorAfter_iff
  constructor
  · intro hsame
    obtain ⟨hovertaken, hwritten⟩ := hlost.mp fun name => (hsame.vectors name).trans (hvectors name)
    exact ⟨hovertaken, hwritten⟩
  intro hloses
  refine ⟨fun key => ?_, fun name => ?_, fun id => ?_⟩
  · rw [hdrained.indexes, hindexes]
  · exact (hlost.mpr ⟨hloses.overtaken, hloses.written⟩ name).trans (hvectors name).symm
  · rw [hdrained.points, hpoints]

/-! ### Two proxies -/

open OptimizationRun

/-- A named vector is created after an index, and a point is deleted at the end. -/
def vectorAfterIndex : List (NumberedOperation numberTypes) :=
  [⟨5, .createIndex (0 : ℕ) (3 : ℕ)⟩, ⟨6, .createVectorName (0 : ℕ) (7 : ℕ)⟩,
    ⟨7, .deletePoint (0 : ℕ)⟩]

/-- A named vector is created before an index. -/
def vectorBeforeIndex : List (NumberedOperation numberTypes) :=
  [⟨5, .createVectorName (0 : ℕ) (7 : ℕ)⟩, ⟨6, .createIndex (0 : ℕ) (3 : ℕ)⟩]

theorem vectorAfterIndex_losesNoVectorName :
    LosesNoVectorName onePointSegment vectorAfterIndex := by
  have hlast : ∀ (name : ℕ) number target,
      lastVectorChange vectorAfterIndex name = some (number, target) →
      name = 0 ∧ number = 6 ∧ target = some (7 : ℕ) := by
    intro name number target h
    simp only [lastVectorChange, NumberedOperation.vectorChange, vectorAfterIndex] at h
    grind
  refine ⟨fun name number target h hovertaken => ?_, fun name number target h _ => ?_⟩
  · obtain ⟨-, rfl, -⟩ := hlast name number target h
    -- the only index change has the number five
    obtain ⟨op, hop, ⟨key, hkey⟩, hlt⟩ := hovertaken
    simp only [vectorAfterIndex, List.mem_cons, List.not_mem_nil, or_false] at hop
    rcases hop with rfl | rfl | rfl
    · exact absurd hlt (by decide)
    · exact absurd rfl hkey
    · exact absurd rfl hkey
  · obtain ⟨rfl, -, rfl⟩ := hlast name number target h
    rfl

theorem propagateToWrapped_sameContents_vectorAfterIndex :
    ∃ proxy drained expected,
      vectorAfterIndex.foldlM ProxySegment.apply (ProxySegment.new onePointSegment) = .ok proxy ∧
      proxy.propagateToWrapped = .ok drained ∧
      vectorAfterIndex.foldlM Segment.apply onePointSegment = .ok expected ∧
      drained.wrappedSegment.SameContents expected := by
  obtain ⟨proxy, drained, expected, hrecord, hdrain, hexpected, hsame⟩ :=
    propagateToWrapped_sameContents_iff onePointSegment vectorAfterIndex
      (by simp [vectorAfterIndex, onePointSegment]) (by simp [vectorAfterIndex])
  exact ⟨proxy, drained, expected, hrecord, hdrain, hexpected,
    hsame.mpr vectorAfterIndex_losesNoVectorName⟩

/-- The named vector that was created is missing from the drained segment. -/
theorem propagateToWrapped_loses_vectorBeforeIndex :
    (∀ op ∈ vectorBeforeIndex, onePointSegment.version < op.opNum) ∧
      (vectorBeforeIndex.Pairwise fun a b => a.opNum < b.opNum) ∧
      ∃ proxy drained expected,
        vectorBeforeIndex.foldlM ProxySegment.apply (ProxySegment.new onePointSegment) =
          .ok proxy ∧
        proxy.propagateToWrapped = .ok drained ∧
        vectorBeforeIndex.foldlM Segment.apply onePointSegment = .ok expected ∧
        ¬drained.wrappedSegment.SameContents expected := by
  refine ⟨by simp [vectorBeforeIndex, onePointSegment], by simp [vectorBeforeIndex],
    _, _, _, rfl, rfl, rfl, fun hsame => ?_⟩
  have hlookup := hsame.vectors (0 : ℕ)
  cases hlookup

/-!
### Reading from a proxy

A proxy hides the points that were deleted in it. Most of its read methods look up whether a
deletion is recorded; `point_version` also compares the number of the deletion with the version
that the wrapped segment stores, and so does the wrapped segment when the proxy is drained. The
methods agree as long as no deletion is older than the point.
-/

open List

namespace Segment

/-- `Segment::has_point`. -/
def hasPoint (segment : Segment T) (id : T.PointId) : Bool := (segment.points.lookup id).isSome

/-- `Segment::point_version`. -/
def pointVersion (segment : Segment T) (id : T.PointId) : Option ℕ := segment.points.lookup id

/-- `Segment::available_point_count`. -/
def availablePointCount (segment : Segment T) : ℕ := segment.points.entries.length

end Segment

namespace ProxySegment

/-- `ProxySegment::has_point`. -/
def hasPoint (proxy : ProxySegment T) (id : T.PointId) : Bool :=
  !(proxy.deletedPoints.lookup id).isSome && proxy.wrappedSegment.hasPoint id

/-- `ProxySegment::point_version`: a point that is newer than its deletion keeps its version. -/
def pointVersion (proxy : ProxySegment T) (id : T.PointId) : Option ℕ := do
  let wrappedVersion ← proxy.wrappedSegment.pointVersion id
  if (proxy.deletedPoints.lookup id).any fun delete => wrappedVersion ≤ delete.localVersion then
    none
  else some wrappedVersion

variable (deferred : T.PointId → Bool)

/-- `ProxySegment::available_point_count`. -/
def availablePointCount (proxy : ProxySegment T) : ℕ :=
  proxy.wrappedSegment.availablePointCount - proxy.deletedPoints.entries.length

theorem deletePoint_frame (proxy : ProxySegment T) (opNum : ℕ) (id : T.PointId) :
    (proxy.deletePoint opNum id).1.wrappedSegment = proxy.wrappedSegment ∧
      (proxy.deletePoint opNum id).1.changedIndexes = proxy.changedIndexes ∧
      (proxy.deletePoint opNum id).1.changedVectorNames = proxy.changedVectorNames := by
  unfold deletePoint
  dsimp only
  split <;> exact ⟨rfl, rfl, rfl⟩

/-- A deletion is recorded if the wrapped segment has the point, whatever its number is. -/
theorem lookup_deletePoint (proxy : ProxySegment T) (opNum : ℕ) (id other : T.PointId) :
    (proxy.deletePoint opNum id).1.deletedPoints.lookup other =
      if other = id ∧ id ∈ proxy.wrappedSegment.points then some ⟨opNum, opNum⟩
      else proxy.deletedPoints.lookup other := by
  unfold deletePoint
  have hmem : id ∈ proxy.wrappedSegment.points ↔
      (proxy.wrappedSegment.points.lookup id).isSome := AList.lookup_isSome.symm
  cases hlookup : proxy.wrappedSegment.points.lookup id <;> grind

/-- A proxy of a segment in which points have been deleted. -/
structure HidesPoints (segment : Segment T) (calls : List (ℕ × T.PointId))
    (proxy : ProxySegment T) : Prop where
  wrapped : proxy.wrappedSegment = segment
  indexes : proxy.changedIndexes = ∅
  vectors : proxy.changedVectorNames = ∅
  deleted : ∀ id delete, proxy.deletedPoints.lookup id = some delete → id ∈ segment.points ∧
    delete.localVersion = delete.operationVersion ∧ (delete.operationVersion, id) ∈ calls

theorem HidesPoints.deletePoint {segment : Segment T} {calls : List (ℕ × T.PointId)}
    {proxy : ProxySegment T} (h : HidesPoints segment calls proxy) (call : ℕ × T.PointId) :
    HidesPoints segment (calls ++ [call]) (proxy.deletePoint call.1 call.2).1 := by
  obtain ⟨hwrapped, hindexes, hvectors⟩ := proxy.deletePoint_frame call.1 call.2
  refine ⟨hwrapped.trans h.wrapped, hindexes.trans h.indexes, hvectors.trans h.vectors,
    fun id delete hlookup => ?_⟩
  rw [proxy.lookup_deletePoint] at hlookup
  split at hlookup
  · rename_i hcall
    cases hlookup
    rw [hcall.1, ← h.wrapped]
    exact ⟨hcall.2, rfl, mem_append_right _ (mem_singleton_self _)⟩
  · obtain ⟨hmem, hlocal, hcalled⟩ := h.deleted id delete hlookup
    exact ⟨hmem, hlocal, mem_append_left _ hcalled⟩

theorem hasPoint_iff {proxy : ProxySegment T} {id : T.PointId} :
    proxy.hasPoint id ↔
      proxy.deletedPoints.lookup id = none ∧ proxy.wrappedSegment.hasPoint id := by
  unfold hasPoint
  rw [Bool.and_eq_true, Bool.not_eq_true', Option.isSome_eq_false_iff, Option.isNone_iff_eq_none]

section reads

variable {segment : Segment T} {calls : List (ℕ × T.PointId)} {proxy : ProxySegment T}

variable (h : HidesPoints segment calls proxy)

include h

/-- Every recorded deletion hides a point of the wrapped segment, so the count is exact. -/
private theorem HidesPoints.count :
    ∃ ids : Finset T.PointId, (∀ id, id ∈ ids ↔ proxy.hasPoint id) ∧
      ids.card = proxy.availablePointCount := by
  have hsubset : proxy.deletedPoints.keys.toFinset ⊆ segment.points.keys.toFinset := by
    intro id hid
    rw [mem_toFinset, ← AList.mem_keys, ← AList.lookup_isSome, Option.isSome_iff_exists] at hid
    obtain ⟨delete, hdelete⟩ := hid
    rw [mem_toFinset, ← AList.mem_keys]
    exact (h.deleted id delete hdelete).1
  have hcard : ∀ {β : Type} (map : AList fun _ : T.PointId => β),
      map.keys.toFinset.card = map.entries.length := by
    intro β map
    rw [toFinset_card_of_nodup map.keys_nodup]
    exact length_map _
  refine ⟨segment.points.keys.toFinset \ proxy.deletedPoints.keys.toFinset, fun id => ?_, ?_⟩
  · rw [Finset.mem_sdiff, mem_toFinset, mem_toFinset, ← AList.mem_keys,
      ← AList.mem_keys, hasPoint_iff, h.wrapped, AList.lookup_eq_none, and_comm]
    exact and_congr_right fun _ => AList.lookup_isSome.symm
  · rw [Finset.card_sdiff_of_subset hsubset, hcard, hcard]
    unfold availablePointCount Segment.availablePointCount
    rw [h.wrapped]

/-- Draining a proxy that has only recorded deletions deletes these points. -/
private theorem HidesPoints.propagateToWrapped :
    proxy.propagateToWrapped = .ok { proxy with
      wrappedSegment := segment.deletePoints proxy.deletedPoints.entries
      changedIndexes := ∅
      changedVectorNames := ∅
      deletedPoints := ∅ } := by
  unfold ProxySegment.propagateToWrapped
  rw [h.indexes, h.vectors, h.wrapped]
  rfl

end reads

end ProxySegment

end Stratumind.Optimize
