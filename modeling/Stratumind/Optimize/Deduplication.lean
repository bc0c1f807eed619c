import Stratumind.Optimize.ProxyReads
import Stratumind.Lib.RankedList

/-!
# Removing duplicated points

Several segments can hold copies of one point, for example after an interrupted optimization.
`find_duplicated_points` groups the copies of every id and decides in one pass over each group
which of them are removed. A deferred copy is not visible yet; while the newest version is only
deferred, all older visible copies stay.
-/

namespace Stratumind.Optimize

open List Lib

variable {T : SchemaTypes}

/-- An original segment of the holder, and which of its points are deferred. -/
structure LockedSegment (T : SchemaTypes) where
  segmentId : ℕ
  segment : Segment T
  pointIsDeferred : T.PointId → Bool

/-- The segments of a holder, none of which is a proxy. -/
structure SegmentHolder (T : SchemaTypes) where
  segments : List (LockedSegment T)
  nodup : (segments.map LockedSegment.segmentId).Nodup

/-- A copy of a point. The version `None` is below every other one. -/
structure DedupPoint (T : SchemaTypes) where
  segmentId : ℕ
  pointId : T.PointId
  version : WithBot ℕ
  isDeferred : Bool
  deriving DecidableEq

/-- The copy of a point in a segment, with its version and its deferred status. -/
def LockedSegment.dedupPoint (locked : LockedSegment T) (id : T.PointId) : DedupPoint T :=
  ⟨locked.segmentId, id, locked.segment.pointVersion id, locked.pointIsDeferred id⟩

/-- The pass over the copies of a point, from the highest to the lowest version: the copies that
are removed. -/
def removedCopies (latestVersion : WithBot ℕ) (latestHasNonDeferred : Bool) :
    Bool → Bool → List (DedupPoint T) → List (DedupPoint T)
  | _, _, [] => []
  | keptDeferred, keptNonDeferred, point :: points =>
    if point.isDeferred then
      let removed := removedCopies latestVersion latestHasNonDeferred true keptNonDeferred points
      if keptDeferred then point :: removed else removed
    else if point.version = latestVersion && !keptNonDeferred then
      removedCopies latestVersion latestHasNonDeferred keptDeferred true points
    else
      let removed :=
        removedCopies latestVersion latestHasNonDeferred keptDeferred keptNonDeferred points
      if latestHasNonDeferred then point :: removed else removed

/-- The copies of one point that are removed. -/
def removedFromGroup (points : List (DedupPoint T)) : List (DedupPoint T) :=
  if points.length < 2 then []
  else
    match rankBy (fun point => rankKey point.version point.segmentId) points with
    | [] => []
    | first :: rest =>
      let latestHasNonDeferred := (first :: rest).any fun point =>
        point.version = first.version && !point.isDeferred
      removedCopies first.version latestHasNonDeferred false false (first :: rest)

/-- A task of `deduplicate_points_tasks`: deletes the listed points under their versions. -/
def Segment.removePoints (segment : Segment T) (points : List T.PointId) : Segment T :=
  points.foldl (fun segment id => match segment.pointVersion id with
    | some pointVersion => (segment.deletePoint pointVersion id).1
    | none => segment) segment

namespace SegmentHolder

variable [LinearOrder T.PointId]

/-- The points of all segments, merged in the order of their ids. -/
def mergedPoints (holder : SegmentHolder T) : List (DedupPoint T) :=
  (holder.segments.flatMap fun locked =>
    (locked.segment.points.keys.insertionSort (· ≤ ·)).map locked.dedupPoint).insertionSort
      fun a b => a.pointId ≤ b.pointId

/-- `SegmentHolder::find_duplicated_points`, by the id of the segment. -/
def findDuplicatedPoints (holder : SegmentHolder T) (segmentId : ℕ) : List T.PointId :=
  let groups := holder.mergedPoints.splitBy fun a b => a.pointId = b.pointId
  ((groups.flatMap removedFromGroup).filter fun point => point.segmentId = segmentId).map
    DedupPoint.pointId

/-- The segments after all tasks of `SegmentHolder::deduplicate_points_tasks`. -/
def deduplicatePoints (holder : SegmentHolder T) : SegmentHolder T where
  segments := holder.segments.map fun locked =>
    { locked with
      segment := locked.segment.removePoints (holder.findDuplicatedPoints locked.segmentId) }
  nodup := by
    rw [map_map]
    exact holder.nodup

/-- The copies of a point. -/
def copies (holder : SegmentHolder T) (id : T.PointId) : List (DedupPoint T) :=
  (holder.segments.filter fun locked => locked.segment.hasPoint id).map (·.dedupPoint id)

end SegmentHolder

/-! ### One pass over the copies -/

section Pass

variable (latestVersion : WithBot ℕ) (latestHasNonDeferred : Bool)

/-- Of the deferred copies all but the first are removed. -/
private theorem mem_removedCopies_deferred (keptDeferred keptNonDeferred : Bool)
    {points : List (DedupPoint T)} (hnodup : points.Nodup) {point : DedupPoint T}
    (hpoint : point.isDeferred = true) :
    point ∈ removedCopies latestVersion latestHasNonDeferred keptDeferred keptNonDeferred points ↔
      point ∈ points ∧ (keptDeferred = false → points.find? (·.isDeferred) ≠ some point) := by
  induction points generalizing keptDeferred keptNonDeferred with
  | nil => simp [removedCopies]
  | cons next points ih =>
    -- the first deferred copy is the next one or the first of the others
    unfold removedCopies
    cases hnext : next.isDeferred <;> grind

/-- If the first of the visible copies has the latest version, then all others are removed. -/
private theorem mem_removedCopies_visible (keptDeferred keptNonDeferred : Bool)
    {points : List (DedupPoint T)} (hnodup : points.Nodup) {point : DedupPoint T}
    (hpoint : point.isDeferred = false)
    (hfirst : latestHasNonDeferred = true → keptNonDeferred = false →
      ∀ first ∈ points.find? (!·.isDeferred), first.version = latestVersion) :
    point ∈ removedCopies latestVersion latestHasNonDeferred keptDeferred keptNonDeferred points ↔
      point ∈ points ∧ latestHasNonDeferred = true ∧
        (keptNonDeferred = false → points.find? (!·.isDeferred) ≠ some point) := by
  induction points generalizing keptDeferred keptNonDeferred with
  | nil => simp [removedCopies]
  | cons next points ih =>
    -- after a visible copy is kept, all later ones are removed
    unfold removedCopies
    cases hnext : next.isDeferred <;> cases keptNonDeferred <;> grind

/-- The first of the visible copies is a newest one of them. -/
private theorem find?_visible_version {points : List (DedupPoint T)}
    (hsorted : points.Pairwise fun a b => b.version ≤ a.version) {newest : DedupPoint T}
    (hnewest : newest ∈ points) (hvisible : newest.isDeferred = false) :
    ∃ first, points.find? (!·.isDeferred) = some first ∧ newest.version ≤ first.version := by
  induction points with
  | nil => cases hnewest
  | cons next points ih =>
    rw [pairwise_cons] at hsorted
    cases hnext : next.isDeferred <;> grind

end Pass

/-- What deduplication leaves of the copies of a point: a copy with the highest version, a
visible one with the highest version of the visible ones, at most one deferred copy, and either
one visible copy or, where the highest version is only deferred, all of them. -/
structure KeepsCopies (before after : List (DedupPoint T)) : Prop where
  subset : after ⊆ before
  newest : ∀ point ∈ before, ∃ kept ∈ after, point.version ≤ kept.version
  visible : ∀ point ∈ before, point.isDeferred = false →
    ∃ kept ∈ after, kept.isDeferred = false ∧ point.version ≤ kept.version
  deferred_unique : ∀ point ∈ after, ∀ other ∈ after,
    point.isDeferred = true → other.isDeferred = true → point = other
  visible_unique : (∃ newest ∈ before, newest.isDeferred = false ∧
      ∀ point ∈ before, point.version ≤ newest.version) →
    ∀ point ∈ after, ∀ other ∈ after,
      point.isDeferred = false → other.isDeferred = false → point = other
  visible_kept : (∀ newest ∈ before, (∀ point ∈ before, point.version ≤ newest.version) →
      newest.isDeferred = true) →
    ∀ point ∈ before, point.isDeferred = false → point ∈ after

/-- Where there is at most one copy, it is kept. -/
private theorem keepsCopies_of_single {before after : List (DedupPoint T)}
    (hone : ∀ point ∈ before, ∀ other ∈ before, point = other)
    (hsame : ∀ point, point ∈ after ↔ point ∈ before) : KeepsCopies before after where
  subset := fun point hpoint => (hsame point).mp hpoint
  newest := fun point hpoint => ⟨point, (hsame point).mpr hpoint, le_refl _⟩
  visible := fun point hpoint hvisible => ⟨point, (hsame point).mpr hpoint, hvisible, le_refl _⟩
  deferred_unique := fun point hpoint other hother _ _ =>
    hone point ((hsame point).mp hpoint) other ((hsame other).mp hother)
  visible_unique := fun _ point hpoint other hother _ _ =>
    hone point ((hsame point).mp hpoint) other ((hsame other).mp hother)
  visible_kept := fun _ point hpoint _ => (hsame point).mpr hpoint

private theorem keepsCopies_of_sorted {first : DedupPoint T}
    {rest before after : List (DedupPoint T)} (hdistinct : (first :: rest).Nodup)
    (hsorted : (first :: rest).Pairwise fun a b => b.version ≤ a.version)
    (hbefore : ∀ point, point ∈ before ↔ point ∈ first :: rest)
    (hafter : ∀ point, point ∈ after ↔ point ∈ before ∧ point ∉ removedCopies first.version
      ((first :: rest).any fun point => point.version = first.version && !point.isDeferred)
      false false (first :: rest)) : KeepsCopies before after := by
  have hlatest : ∀ point ∈ before, point.version ≤ first.version := by
    intro point hpoint
    rcases mem_cons.mp ((hbefore point).mp hpoint) with rfl | hrest
    · exact le_refl _
    · exact (pairwise_cons.mp hsorted).1 point hrest
  generalize hhas : ((first :: rest).any fun point =>
    point.version = first.version && !point.isDeferred) = latestHasNonDeferred at hafter
  have hdeferred : ∀ point ∈ before, point.isDeferred = true →
      (point ∈ after ↔ (first :: rest).find? (·.isDeferred) = some point) := by
    intro point hpoint hisDeferred
    rw [hafter, mem_removedCopies_deferred _ _ _ _ hdistinct hisDeferred]
    constructor
    · rintro ⟨-, hkept⟩
      by_contra hne
      exact hkept ⟨(hbefore point).mp hpoint, fun _ => hne⟩
    · exact fun hfound => ⟨hpoint, fun hremoved => hremoved.2 rfl hfound⟩
  have hfirst : latestHasNonDeferred = true → ∃ newest ∈ before,
      (first :: rest).find? (!·.isDeferred) = some newest ∧ newest.isDeferred = false ∧
        newest.version = first.version := by
    intro htrue
    obtain ⟨newest, hnewest, hmax⟩ := any_eq_true.mp (hhas.trans htrue)
    rw [Bool.and_eq_true, decide_eq_true_eq, Bool.not_eq_true'] at hmax
    obtain ⟨head, hhead, hle⟩ := find?_visible_version hsorted hnewest hmax.2
    rw [hmax.1] at hle
    have hmem := (hbefore head).mpr (mem_of_find?_eq_some hhead)
    exact ⟨head, hmem, hhead, by simpa using find?_some hhead, (hlatest head hmem).antisymm hle⟩
  have hvisible : ∀ point ∈ before, point.isDeferred = false →
      (point ∈ after ↔ (latestHasNonDeferred = true →
        (first :: rest).find? (!·.isDeferred) = some point)) := by
    intro point hpoint hnonDeferred
    rw [hafter, mem_removedCopies_visible _ _ _ _ hdistinct hnonDeferred]
    · constructor
      · rintro ⟨-, hkept⟩ htrue
        by_contra hne
        exact hkept ⟨(hbefore point).mp hpoint, htrue, fun _ => hne⟩
      · exact fun hfound => ⟨hpoint, fun hremoved => hremoved.2.2 rfl (hfound hremoved.2.1)⟩
    · intro htrue _ head hhead
      obtain ⟨newest, -, hnewest, -, hversion⟩ := hfirst htrue
      rwa [← Option.some.inj (hnewest.symm.trans hhead)]
  have hfirstMem : first ∈ before := (hbefore first).mpr mem_cons_self
  have hkept : first ∈ after := by
    cases hisDeferred : first.isDeferred with
    | true => exact (hdeferred first hfirstMem hisDeferred).mpr (find?_cons_of_pos hisDeferred)
    | false =>
      exact (hvisible first hfirstMem hisDeferred).mpr fun _ =>
        find?_cons_of_pos (by simp [hisDeferred])
  have hsubset : ∀ point ∈ after, point ∈ before := fun point hpoint => ((hafter point).mp hpoint).1
  constructor
  · exact hsubset
  · exact fun point hpoint => ⟨first, hkept, hlatest point hpoint⟩
  · intro point hpoint hnonDeferred
    by_cases htrue : latestHasNonDeferred = true
    · obtain ⟨newest, hmem, hfound, hnewest, hversion⟩ := hfirst htrue
      exact ⟨newest, (hvisible newest hmem hnewest).mpr fun _ => hfound, hnewest,
        hversion ▸ hlatest point hpoint⟩
    · exact ⟨point, (hvisible point hpoint hnonDeferred).mpr fun h => absurd h htrue, hnonDeferred,
        le_refl _⟩
  · intro point hpoint other hother hd hd'
    exact Option.some.inj (((hdeferred point (hsubset point hpoint) hd).mp hpoint).symm.trans
      ((hdeferred other (hsubset other hother) hd').mp hother))
  · rintro ⟨newest, hmem, hnonDeferred, hmax⟩ point hpoint other hother hv hv'
    have htrue : latestHasNonDeferred = true := hhas ▸ any_eq_true.mpr
      ⟨newest, (hbefore newest).mp hmem, by
        simp [hnonDeferred, (hlatest newest hmem).antisymm (hmax first hfirstMem)]⟩
    exact Option.some.inj (((hvisible point (hsubset point hpoint) hv).mp hpoint htrue).symm.trans
      ((hvisible other (hsubset other hother) hv').mp hother htrue))
  · intro hall point hpoint hnonDeferred
    refine (hvisible point hpoint hnonDeferred).mpr fun htrue => ?_
    obtain ⟨newest, hmem, -, hnewest, hversion⟩ := hfirst htrue
    rw [hall newest hmem fun other hother => hversion ▸ hlatest other hother] at hnewest
    cases hnewest

private theorem keepsCopies_of_group {points before after : List (DedupPoint T)}
    (hnodup : points.Nodup) (hbefore : ∀ point, point ∈ before ↔ point ∈ points)
    (hafter : ∀ point, point ∈ after ↔ point ∈ before ∧ point ∉ removedFromGroup points) :
    KeepsCopies before after := by
  unfold removedFromGroup at hafter
  split at hafter
  · -- a single copy is all that there is to keep
    rename_i hlength
    refine keepsCopies_of_single (fun point hpoint other hother => ?_) (by simpa using hafter)
    obtain ⟨i, hi, rfl⟩ := getElem_of_mem ((hbefore point).mp hpoint)
    obtain ⟨j, hj, rfl⟩ := getElem_of_mem ((hbefore other).mp hother)
    obtain rfl : i = j := by omega
    rfl
  set key := fun point : DedupPoint T => rankKey point.version point.segmentId
  have hmem : ∀ point, point ∈ before ↔ point ∈ rankBy key points := fun point => by
    rw [mem_rankBy, hbefore]
  have hsorted := rankBy_pairwise key points
  have hdistinct : (rankBy key points).Nodup := (rankBy_perm points).nodup_iff.mpr hnodup
  cases hgroup : rankBy key points with
  | nil =>
    have hnone : ∀ point, point ∉ before := by simpa [hgroup] using hmem
    exact keepsCopies_of_single (fun point hpoint => absurd hpoint (hnone point)) fun point =>
      (hafter point).trans (and_iff_left_of_imp fun hpoint => absurd hpoint (hnone point))
  | cons first rest =>
    rw [hgroup] at hmem hsorted hdistinct hafter
    refine keepsCopies_of_sorted hdistinct (hsorted.imp fun hle => ?_) hmem hafter
    rcases rankKey_le_iff.mp hle with hlt | ⟨heq, -⟩
    · exact hlt.le
    · exact heq.ge

/-! ### All copies of a point are in one group -/

section Groups

variable {α β : Type*} [LinearOrder β] [DecidableEq β] {key : α → β} {l : List α}

private theorem exists_append_filter_append (hsorted : l.Pairwise fun a b => key a ≤ key b)
    (k : β) : ∃ lower upper, l = lower ++ (l.filter (fun a => key a = k) ++ upper) ∧
      (∀ a ∈ lower, key a < k) ∧ ∀ a ∈ upper, k < key a := by
  induction l with
  | nil => exact ⟨[], [], by simp⟩
  | cons a l ih =>
    obtain ⟨hfirst, hrest⟩ := pairwise_cons.mp hsorted
    obtain ⟨lower, upper, hl, hlower, hupper⟩ := ih hrest
    rcases lt_trichotomy (key a) k with hlt | heq | hgt
    · refine ⟨a :: lower, upper, ?_, forall_mem_cons.mpr ⟨hlt, hlower⟩, hupper⟩
      rw [filter_cons_of_neg (by simpa using hlt.ne), cons_append, ← hl]
    · obtain rfl : lower = [] := eq_nil_iff_forall_not_mem.mpr fun b hb =>
        absurd (hfirst b (hl ▸ mem_append_left _ hb)) (heq ▸ (hlower b hb).not_ge)
      refine ⟨[], upper, ?_, hlower, hupper⟩
      rw [nil_append] at hl ⊢
      rw [filter_cons_of_pos (by simpa using heq), cons_append, ← hl]
    have hgreater : ∀ b ∈ a :: l, k < key b :=
      forall_mem_cons.mpr ⟨hgt, fun b hb => hgt.trans_le (hfirst b hb)⟩
    refine ⟨[], a :: l, ?_, by simp, hgreater⟩
    rw [filter_eq_nil_iff.mpr fun b hb => by simpa using (hgreater b hb).ne', nil_append,
      nil_append]

private theorem splitBy_append_of_lt {right : List α} (h : ∀ a ∈ l, ∀ b ∈ right, key a < key b) :
    (l ++ right).splitBy (fun a b => key a = key b) =
      l.splitBy (fun a b => key a = key b) ++ right.splitBy fun a b => key a = key b :=
  splitBy_append fun a ha b hb =>
    decide_eq_false (h a (mem_of_getLast? ha) b (mem_of_head? hb)).ne

/-- Where the keys are in order, each group has all members with its key. -/
private theorem eq_filter_of_mem_splitBy (hsorted : l.Pairwise fun a b => key a ≤ key b)
    {group : List α} (hgroup : group ∈ l.splitBy fun a b => key a = key b) {a : α}
    (ha : a ∈ group) : group = l.filter fun b => key b = key a := by
  have hmem : ∀ {part : List α}, group ∈ part.splitBy (fun a b => key a = key b) → a ∈ part := by
    intro part hpart
    rw [← flatten_splitBy (fun a b => decide (key a = key b)) part]
    exact mem_flatten_of_mem hpart ha
  obtain ⟨lower, upper, hl, hlower, hupper⟩ := exists_append_filter_append hsorted (key a)
  have hsame : ∀ b ∈ l.filter (fun b => key b = key a), key b = key a := by simp
  have hne : l.filter (fun b => key b = key a) ≠ [] :=
    ne_nil_of_mem (mem_filter.mpr ⟨hmem hgroup, decide_eq_true rfl⟩)
  have hchain := (pairwise_of_forall_mem_list fun b hb c hc =>
    decide_eq_true ((hsame b hb).trans (hsame c hc).symm)).isChain
  rw [hl, splitBy_append_of_lt (by grind), splitBy_append_of_lt (by grind),
    splitBy_of_isChain hne hchain, mem_append, mem_append, mem_singleton] at hgroup
  rcases hgroup with hgroup | hgroup | hgroup
  · exact absurd (hlower a (hmem hgroup)) (lt_irrefl _)
  · exact hgroup
  · exact absurd (hupper a (hmem hgroup)) (lt_irrefl _)

end Groups

private theorem removedCopies_sublist (latestVersion : WithBot ℕ) (latestHasNonDeferred : Bool)
    (keptDeferred keptNonDeferred : Bool) (points : List (DedupPoint T)) :
    (removedCopies latestVersion latestHasNonDeferred keptDeferred keptNonDeferred points).Sublist
      points := by
  fun_induction removedCopies <;> grind

private theorem removedFromGroup_subset (points : List (DedupPoint T)) :
    removedFromGroup points ⊆ points := by
  unfold removedFromGroup
  split
  · exact nil_subset _
  split
  · exact nil_subset _
  rename_i first rest hgroup
  intro point hpoint
  have hmem := (removedCopies_sublist _ _ _ _ _).subset hpoint
  rw [← hgroup] at hmem
  exact mem_rankBy.mp hmem

theorem Segment.pointVersion_removePoints (segment : Segment T) (points : List T.PointId)
    (id : T.PointId) :
    (segment.removePoints points).pointVersion id =
      if id ∈ points then none else segment.pointVersion id := by
  induction points generalizing segment with
  | nil => rfl
  | cons point points ih =>
    unfold removePoints at ih ⊢
    rw [foldl_cons, ih]
    unfold pointVersion
    cases hpoint : segment.points.lookup point with
    | none => grind
    | some pointVersion =>
      rw [segment.lookup_deletePoint]
      grind

namespace SegmentHolder

variable [LinearOrder T.PointId]

variable (holder : SegmentHolder T) (id : T.PointId)

/-- The group of a point has exactly its copies. -/
private theorem mergedPoints_filter :
    (holder.mergedPoints.filter fun point => point.pointId = id).Perm (holder.copies id) := by
  have hsegment : ∀ locked : LockedSegment T,
      ((locked.segment.points.keys.insertionSort (· ≤ ·)).map locked.dedupPoint).filter
          (fun point => point.pointId = id) =
        if locked.segment.hasPoint id then [locked.dedupPoint id] else [] := by
    intro locked
    have hnodup : (locked.segment.points.keys.insertionSort (· ≤ ·)).Nodup :=
      (perm_insertionSort _ _).nodup_iff.mpr locked.segment.points.keys_nodup
    have hmem : id ∈ locked.segment.points.keys.insertionSort (· ≤ ·) ↔
        locked.segment.hasPoint id = true := by
      rw [mem_insertionSort, ← AList.mem_keys, ← AList.lookup_isSome, Segment.hasPoint]
    have hids : (locked.segment.points.keys.insertionSort (· ≤ ·)).filter
        (fun other => other = id) = if locked.segment.hasPoint id then [id] else [] := by
      simp only [filter_eq, hnodup.count, hmem]
      split <;> rfl
    rw [filter_map]
    exact (congrArg (map locked.dedupPoint) hids).trans (by split <;> rfl)
  unfold mergedPoints copies
  refine ((perm_insertionSort _ _).filter _).trans (Perm.of_eq ?_)
  rw [filter_flatMap]
  induction holder.segments with
  | nil => rfl
  | cons locked segments ih =>
    rw [flatMap_cons, ih, hsegment, filter_cons]
    split <;> simp_all

/-- The copies of a point are judged in its group. -/
private theorem mem_removed_iff {point : DedupPoint T} :
    point ∈ (holder.mergedPoints.splitBy fun a b => a.pointId = b.pointId).flatMap
        removedFromGroup ↔
      point ∈ removedFromGroup
        (holder.mergedPoints.filter fun other => other.pointId = point.pointId) := by
  have hsorted : holder.mergedPoints.Pairwise fun a b => a.pointId ≤ b.pointId :=
    rankBy_pairwise DedupPoint.pointId _
  rw [mem_flatMap]
  constructor
  · rintro ⟨group, hgroup, hpoint⟩
    rwa [← eq_filter_of_mem_splitBy hsorted hgroup (removedFromGroup_subset group hpoint)]
  intro hpoint
  have hmem := (mem_filter.mp (removedFromGroup_subset _ hpoint)).1
  rw [← flatten_splitBy (fun a b => decide (a.pointId = b.pointId)) holder.mergedPoints,
    mem_flatten] at hmem
  obtain ⟨group, hgroup, hmem⟩ := hmem
  refine ⟨group, hgroup, ?_⟩
  rwa [eq_filter_of_mem_splitBy hsorted hgroup hmem]

private theorem mem_findDuplicatedPoints {locked : LockedSegment T}
    (hlocked : locked ∈ holder.segments) :
    id ∈ holder.findDuplicatedPoints locked.segmentId ↔ locked.dedupPoint id ∈ removedFromGroup
      (holder.mergedPoints.filter fun point => point.pointId = id) := by
  unfold findDuplicatedPoints
  dsimp only
  rw [mem_map]
  constructor
  · rintro ⟨point, hpoint, rfl⟩
    obtain ⟨hremoved, hsegmentId⟩ := mem_filter.mp hpoint
    rw [mem_removed_iff] at hremoved
    have hcopy := (holder.mergedPoints_filter point.pointId).mem_iff.mp
      (removedFromGroup_subset _ hremoved)
    obtain ⟨other, hother, hsame⟩ := mem_map.mp hcopy
    have hids : other.segmentId = locked.segmentId :=
      (congrArg DedupPoint.segmentId hsame).trans (of_decide_eq_true hsegmentId)
    rw [← inj_on_of_nodup_map holder.nodup (mem_filter.mp hother).1 hlocked hids, hsame]
    exact hremoved
  · intro hremoved
    exact ⟨locked.dedupPoint id, mem_filter.mpr ⟨holder.mem_removed_iff.mpr hremoved,
      decide_eq_true rfl⟩, rfl⟩

/-- **Deduplication** keeps, of the copies of every point, one with the highest version, a
visible one with the highest version of the visible ones, and no second deferred copy. A second
visible copy stays only while the highest version is deferred in all segments. -/
theorem keepsCopies_deduplicatePoints :
    KeepsCopies (holder.copies id) (holder.deduplicatePoints.copies id) := by
  have hperm := holder.mergedPoints_filter id
  have hnodup : (holder.copies id).Nodup := by
    refine Nodup.of_map DedupPoint.segmentId ?_
    rw [copies, map_map]
    exact holder.nodup.sublist (filter_sublist.map _)
  refine keepsCopies_of_group (hperm.nodup_iff.mpr hnodup) (fun point => hperm.mem_iff.symm)
    fun point => ?_
  have hsegment : ∀ locked ∈ holder.segments,
      (locked.segment.removePoints (holder.findDuplicatedPoints locked.segmentId)).pointVersion id =
        if locked.dedupPoint id ∈ removedFromGroup
          (holder.mergedPoints.filter fun point => point.pointId = id) then none
        else locked.segment.pointVersion id := by
    intro locked hlocked
    simp only [Segment.pointVersion_removePoints, holder.mem_findDuplicatedPoints id hlocked]
  have hhas : ∀ segment : Segment T, segment.hasPoint id = (segment.pointVersion id).isSome :=
    fun _ => rfl
  unfold deduplicatePoints copies
  simp only [mem_map, mem_filter, hhas]
  constructor
  · rintro ⟨_, ⟨⟨locked, hlocked, rfl⟩, hpoint⟩, rfl⟩
    rw [hsegment locked hlocked] at hpoint
    split at hpoint
    · cases hpoint
    rename_i hkept
    have hsame : LockedSegment.dedupPoint { locked with
        segment := locked.segment.removePoints (holder.findDuplicatedPoints locked.segmentId) } id =
          locked.dedupPoint id := by
      rw [LockedSegment.dedupPoint, hsegment locked hlocked, if_neg hkept]
      rfl
    rw [hsame]
    exact ⟨⟨locked, ⟨hlocked, hpoint⟩, rfl⟩, hkept⟩
  · rintro ⟨⟨locked, ⟨hlocked, hpoint⟩, rfl⟩, hkept⟩
    refine ⟨_, ⟨⟨locked, hlocked, rfl⟩, ?_⟩, ?_⟩
    · rwa [hsegment locked hlocked, if_neg hkept]
    · rw [LockedSegment.dedupPoint, hsegment locked hlocked, if_neg hkept]
      rfl

/-- A segment with a newer copy of the point. -/
def newerPointSegment : Segment OptimizationRun.numberTypes where
  version := 2
  nonAppendable := true
  indexes := ∅
  vectors := ∅
  points := AList.insert (0 : ℕ) 2 ∅
  pointVersion_le := fun (id : ℕ) pointVersion hlookup => by
    cases mem_singleton.mp (AList.mem_lookup_iff.mp hlookup)
    exact le_refl _

/-- Two visible copies of version one stay beside a deferred copy of version two. -/
theorem two_visible_copies_stay : let holder : SegmentHolder OptimizationRun.numberTypes :=
      ⟨[⟨0, OptimizationRun.onePointSegment, fun _ => false⟩,
        ⟨1, OptimizationRun.onePointSegment, fun _ => false⟩,
        ⟨2, newerPointSegment, fun _ => true⟩], by simp⟩
    (deduplicatePoints holder).copies (0 : ℕ) =
      [⟨0, (0 : ℕ), (1 : ℕ), false⟩, ⟨1, (0 : ℕ), (1 : ℕ), false⟩,
        ⟨2, (0 : ℕ), (2 : ℕ), true⟩] := by
  decide +kernel

end SegmentHolder

end Stratumind.Optimize
