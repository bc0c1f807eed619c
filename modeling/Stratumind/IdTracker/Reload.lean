import Stratumind.IdTracker.VersionsFile

/-!
# Reopening a mutable id tracker

The tracker in memory and the loop of `read_mappings` apply the same sequence of mapping
changes. They keep the same links, but only the tracker marks the internal id that an
external id was linked to before as deleted. A reopened tracker therefore agrees with the
one in memory exactly if no link was ever replaced.
-/

namespace Stratumind.IdTracker

open Lib List

/-! ### Two readings of one change -/

/-- The tracker's mappings and the loaded ones hold the same links, and only internal ids that
were linked have a bit that is not set. -/
structure Mirrors (mappings : PointMappings) (loaded : LoadedMappings) (linked : List UInt32) :
    Prop where
  links : loaded.externalToInternal = mappings.externalToInternal
  live : ∀ externalId internalId, mappings.externalToInternal.get externalId = some internalId →
    internalId ∈ linked ∧ mappings.deleted[internalId.toNat]? = some false ∧
      loaded.deleted[internalId.toNat]? = some false ∧
      mappings.internalToExternal[internalId.toNat]? = some externalId
  memory : ∀ internalId : UInt32, mappings.deleted[internalId.toNat]? = some false →
    internalId ∈ linked
  file : ∀ internalId : UInt32, loaded.deleted[internalId.toNat]? = some false →
    internalId ∈ linked

/-- Memory and file agree on every slot. -/
def SameSlots (mappings : PointMappings) (loaded : LoadedMappings) : Prop :=
  loaded.deleted = mappings.deleted ∧ loaded.internalToExternal = mappings.internalToExternal

/-- An internal id that is deleted in memory, but not by the changes in the file. -/
structure Stale (mappings : PointMappings) (loaded : LoadedMappings) (linked : List UInt32)
    (internalId : UInt32) : Prop where
  deleted : mappings.deleted[internalId.toNat]? = some true
  kept : loaded.deleted[internalId.toNat]? = some false
  used : internalId ∈ linked
  unlinked : ∀ externalId, mappings.externalToInternal.get externalId ≠ some internalId

section Changes

variable {mappings : PointMappings} {loaded : LoadedMappings} {linked : List UInt32}

variable {externalId : PointIdType} {internalId : UInt32}

/-- The deleted bits after a link: a replaced internal id is deleted. -/
private theorem deleted_setLink (slot : UInt32) :
    (mappings.setLink externalId internalId).deleted[slot.toNat]? =
      if slot = internalId then some false
      else if slot.toNat < mappings.deleted.length then
        if mappings.externalToInternal.get externalId = some slot then some true
        else mappings.deleted[slot.toNat]?
      else if slot.toNat ≤ internalId.toNat then some true else none := by
  simp only [PointMappings.setLink]
  grind [getElem?_growTo, length_growTo, UInt32.toNat_inj]

/-- The deleted bits after a link is read: a replaced internal id is left as it was. -/
private theorem deleted_insert (slot : UInt32) :
    (loaded.insert externalId internalId).deleted[slot.toNat]? =
      if slot = internalId then some false
      else if slot.toNat < loaded.deleted.length then loaded.deleted[slot.toNat]?
      else if slot.toNat ≤ internalId.toNat then some true else none := by
  simp only [LoadedMappings.insert]
  grind [getElem?_growTo, length_growTo, UInt32.toNat_inj]

private theorem external_setLink (slot : UInt32) :
    (mappings.setLink externalId internalId).internalToExternal[slot.toNat]? =
      if slot = internalId then some externalId
      else if slot.toNat < mappings.internalToExternal.length then
        mappings.internalToExternal[slot.toNat]?
      else if slot.toNat ≤ internalId.toNat then some .unmapped else none := by
  simp only [PointMappings.setLink]
  grind [getElem?_growTo, length_growTo, UInt32.toNat_inj]

private theorem get_setLink (other : PointIdType) :
    (mappings.setLink externalId internalId).externalToInternal.get other =
      if other = externalId then some internalId else mappings.externalToInternal.get other :=
  ExternalToInternal.get_insert ..

section

/-- A link of an external id that has none changes both in the same way. -/
theorem SameSlots.setLink (h : SameSlots mappings loaded)
    (hunlinked : mappings.internalId externalId = none) (internalId : UInt32) :
    SameSlots (mappings.setLink externalId internalId) (loaded.insert externalId internalId) := by
  have hnone : mappings.externalToInternal.get externalId = none := hunlinked
  obtain ⟨hdeleted, hexternal⟩ := h
  simp only [SameSlots, LoadedMappings.insert, PointMappings.setLink, hnone, hdeleted, hexternal,
    and_self]

/-- A stale internal id stays stale when a fresh one is linked. -/
theorem Stale.setLink {stale : UInt32} (h : Stale mappings loaded linked stale)
    (externalId : PointIdType) (hfresh : internalId ∉ linked) :
    Stale (mappings.setLink externalId internalId) (loaded.insert externalId internalId)
      (internalId :: linked) stale := by
  obtain ⟨hdeleted, hkept, hused, hunlinked⟩ := h
  constructor <;> grind [get_setLink, deleted_setLink, deleted_insert]

/-- What removing an external id changes: its link, and the slot of that link. -/
private theorem drop_eq (mappings : PointMappings) (externalId : PointIdType) :
    (mappings.drop externalId).2.externalToInternal =
        mappings.externalToInternal.remove externalId ∧
      (mappings.drop externalId).2.deleted =
        (mappings.externalToInternal.get externalId).elim mappings.deleted
          (fun slot => mappings.deleted.set slot.toNat true) ∧
      (mappings.drop externalId).2.internalToExternal =
        (mappings.externalToInternal.get externalId).elim mappings.internalToExternal
          (fun slot => mappings.internalToExternal.set slot.toNat .unmapped) := by
  unfold PointMappings.drop
  cases mappings.externalToInternal.get externalId <;> exact ⟨rfl, rfl, rfl⟩

variable (h : Mirrors mappings loaded linked)

include h

/-- A link to a fresh internal id. -/
theorem Mirrors.setLink (externalId : PointIdType) (hfresh : internalId ∉ linked) :
    Mirrors (mappings.setLink externalId internalId) (loaded.insert externalId internalId)
      (internalId :: linked) where
  links := by
    have hunused := mt (h.file internalId) hfresh
    simp [LoadedMappings.insert, PointMappings.setLink, hunused, h.links]
  live := by
    -- a slot that is linked to another id is not the one that is replaced
    have hlive := h.live
    simp only [get_setLink, deleted_setLink, deleted_insert, external_setLink]
    grind
  memory := by
    have hmemory := h.memory
    simp only [deleted_setLink]
    grind
  file := by
    have hfile := h.file
    simp only [deleted_insert]
    grind

/-- A link that replaces another leaves the old internal id behind in the file. -/
theorem Mirrors.stale_of_relink {old : UInt32} (hold : mappings.internalId externalId = some old)
    (hfresh : internalId ∉ linked) :
    Stale (mappings.setLink externalId internalId) (loaded.insert externalId internalId)
      (internalId :: linked) old := by
  have hget : mappings.externalToInternal.get externalId = some old := hold
  have hlive := h.live
  constructor <;> grind [get_setLink, deleted_setLink, deleted_insert]

/-- Reading a removal changes the same, as a linked slot exists. -/
private theorem Mirrors.delete_eq (externalId : PointIdType) :
    (loaded.delete externalId).externalToInternal =
        mappings.externalToInternal.remove externalId ∧
      (loaded.delete externalId).deleted =
        (mappings.externalToInternal.get externalId).elim loaded.deleted
          (fun slot => loaded.deleted.set slot.toNat true) ∧
      (loaded.delete externalId).internalToExternal =
        (mappings.externalToInternal.get externalId).elim loaded.internalToExternal
          (fun slot => loaded.internalToExternal.set slot.toNat .unmapped) := by
  unfold LoadedMappings.delete
  rw [h.links]
  cases hget : mappings.externalToInternal.get externalId with
  | none => exact ⟨rfl, rfl, rfl⟩
  | some slot =>
    obtain ⟨-, -, hbit, -⟩ := h.live externalId slot hget
    obtain ⟨hlt, -⟩ := List.getElem?_eq_some_iff.mp hbit
    dsimp only [Option.elim]
    refine ⟨rfl, by rw [growTo, if_neg (by omega)], ?_⟩
    split
    · rfl
    · rw [set_eq_of_length_le (by omega)]

/-- Removing a link. -/
theorem Mirrors.drop (externalId : PointIdType) :
    Mirrors (mappings.drop externalId).2 (loaded.delete externalId) linked := by
  obtain ⟨hlinks, hdeleted, hexternal⟩ := drop_eq mappings externalId
  obtain ⟨hloaded, hfile, -⟩ := h.delete_eq externalId
  have hlive := h.live
  have hmemory := h.memory
  have hread := h.file
  constructor
  · rw [hloaded, hlinks]
  all_goals
    simp only [hlinks, hdeleted, hexternal, hfile, ExternalToInternal.get_remove]
    cases hget : mappings.externalToInternal.get externalId <;>
      grind

end

/-- Removing a link changes the slots in the same way. -/
theorem SameSlots.drop (h : SameSlots mappings loaded) (hmirrors : Mirrors mappings loaded linked)
    (externalId : PointIdType) :
    SameSlots (mappings.drop externalId).2 (loaded.delete externalId) := by
  obtain ⟨-, hdeleted, hexternal⟩ := drop_eq mappings externalId
  obtain ⟨-, hfile, hfile'⟩ := hmirrors.delete_eq externalId
  exact ⟨by rw [hfile, hdeleted, h.1], by rw [hfile', hexternal, h.2]⟩

/-- A stale internal id stays stale when a link is removed. -/
theorem Stale.drop {stale : UInt32} (h : Stale mappings loaded linked stale)
    (hmirrors : Mirrors mappings loaded linked) (externalId : PointIdType) :
    Stale (mappings.drop externalId).2 (loaded.delete externalId) linked stale := by
  obtain ⟨hlinks, hdeleted, -⟩ := drop_eq mappings externalId
  obtain ⟨-, hfile, -⟩ := hmirrors.delete_eq externalId
  have hunlinked := h.unlinked
  refine ⟨?_, ?_, h.used, ?_⟩
  · rw [hdeleted, ← h.deleted]
    cases hget : mappings.externalToInternal.get externalId <;> grind [UInt32.toNat_inj]
  · rw [hfile, ← h.kept]
    cases hget : mappings.externalToInternal.get externalId <;> grind [UInt32.toNat_inj]
  · simp only [hlinks, ExternalToInternal.get_remove]
    grind

/-- Memory and file agree on every slot unless a link was replaced, and then some internal id is
stale. -/
structure Tracks (mappings : PointMappings) (loaded : LoadedMappings) (linked : List UInt32)
    (relinked : Prop) : Prop extends Mirrors mappings loaded linked where
  same : ¬relinked → SameSlots mappings loaded
  stale : relinked → ∃ stale, Stale mappings loaded linked stale

variable {relinked : Prop}

theorem Tracks.setLink (h : Tracks mappings loaded linked relinked) (externalId : PointIdType)
    (hfresh : internalId ∉ linked) :
    Tracks (mappings.setLink externalId internalId) (loaded.insert externalId internalId)
      (internalId :: linked) (relinked ∨ mappings.internalId externalId ≠ none) where
  toMirrors := h.toMirrors.setLink externalId hfresh
  same hnot := (h.same (mt Or.inl hnot)).setLink (not_not.mp (mt Or.inr hnot)) internalId
  stale := by
    rintro (hrelinked | hrelinks)
    · obtain ⟨stale, hstale⟩ := h.stale hrelinked
      exact ⟨stale, hstale.setLink externalId hfresh⟩
    · obtain ⟨old, hold⟩ := Option.ne_none_iff_exists'.mp hrelinks
      exact ⟨old, h.stale_of_relink hold hfresh⟩

theorem Tracks.drop (h : Tracks mappings loaded linked relinked) (externalId : PointIdType) :
    Tracks (mappings.drop externalId).2 (loaded.delete externalId) linked relinked where
  toMirrors := h.toMirrors.drop externalId
  same hnot := (h.same hnot).drop h.toMirrors externalId
  stale hrelinked := (h.stale hrelinked).imp fun _ hstale => hstale.drop h.toMirrors externalId

end Changes

/-! ### Runs -/

/-- The mappings file holds the changes up to the pending ones. -/
structure MappingsKept (state : TrackerState) (stored : List MappingChange) : Prop where
  file : state.files.mappings.getD [] = writeMappingChanges stored
  length : state.tracker.mappingsExpectedLen = (writeMappingChanges stored).length
  outstanding : ∀ changes, state.mappingFlusher = some changes →
    changes <+: state.tracker.pendingMappings

/-- What the file will say once everything pending is stored. -/
def loadedAfter (state : TrackerState) (stored : List MappingChange) : LoadedMappings :=
  (stored ++ state.tracker.pendingMappings).foldl LoadedMappings.apply {}

/-- The internal ids that a step links. -/
def TrackerStep.linkedId : TrackerStep → Option UInt32
  | .setLink _ internalId => some internalId
  | _ => none

/-- Whether a step links an external id that has a link. -/
def TrackerState.Relinks (state : TrackerState) : TrackerStep → Prop
  | .setLink externalId _ => state.tracker.mappings.internalId externalId ≠ none
  | _ => False

instance (state : TrackerState) (step : TrackerStep) : Decidable (state.Relinks step) := by
  cases step <;> unfold TrackerState.Relinks <;> infer_instance

/-- No step of a run replaces a link. -/
def TrackerState.NeverRelinks : TrackerState → List TrackerStep → Prop
  | _, [] => True
  | state, step :: steps => ¬state.Relinks step ∧ (state.step step).NeverRelinks steps

section Runs

variable {state : TrackerState} {stored : List MappingChange} {linked : List UInt32}

private theorem runMappingFlusher_eq (h : MappingsKept state stored) {changes : List MappingChange}
    (hflusher : state.mappingFlusher = some changes) :
    ∃ stored', MappingsKept (state.step .runMappingFlusher) stored' ∧
      loadedAfter (state.step .runMappingFlusher) stored' = loadedAfter state stored ∧
      (state.step .runMappingFlusher).tracker.mappings = state.tracker.mappings := by
  by_cases hempty : changes = []
  · have hstep : state.step .runMappingFlusher = { state with mappingFlusher := none } := by
      simp only [TrackerState.step, hflusher, MutableIdTracker.runMappingFlusher, hempty,
        isEmpty_nil, if_true]
    rw [hstep]
    exact ⟨stored, { h with outstanding := fun _ hnone => by cases hnone }, rfl, rfl⟩
  have hnonempty : changes.isEmpty = false := by simpa using hempty
  obtain ⟨later, hlater⟩ := h.outstanding changes hflusher
  have hstore := storeMappingChanges_eq h.file changes
  rw [← h.length, hnonempty] at hstore
  refine ⟨stored ++ changes, ?_⟩
  simp only [TrackerState.step, hflusher, MutableIdTracker.runMappingFlusher, hnonempty,
    Bool.false_eq_true, if_false, hstore]
  refine ⟨⟨rfl, rfl, fun _ hnone => by cases hnone⟩, ?_, trivial⟩
  dsimp only [loadedAfter]
  rw [← hlater, reconcilePersistedMappingChanges_append, append_assoc]

private theorem runVersionsFlusher_eq (state : TrackerState) :
    ∃ pendingVersions versions versionsFlusher, state.step .runVersionsFlusher =
      { state with
        tracker := { state.tracker with pendingVersions }
        files := { state.files with versions }
        versionsFlusher } := by
  cases hflusher : state.versionsFlusher with
  | none =>
    have hidle : state.step .runVersionsFlusher = state := by
      simp only [TrackerState.step, hflusher]
    exact ⟨state.tracker.pendingVersions, state.files.versions, state.versionsFlusher, hidle⟩
  | some changes =>
    simp only [TrackerState.step, hflusher, MutableIdTracker.runVersionsFlusher]
    split <;> exact ⟨_, _, _, rfl⟩

/-- A step is a link, or leaves memory and what the file will say as much in agreement as they
were. -/
theorem MappingsKept.step (h : MappingsKept state stored) (step : TrackerStep) :
    ∃ stored', MappingsKept (state.step step) stored' ∧
      ((step.linkedId = none ∧ ∀ linked relinked,
          Tracks state.tracker.mappings (loadedAfter state stored) linked relinked →
          Tracks (state.step step).tracker.mappings (loadedAfter (state.step step) stored') linked
            relinked) ∨
        ∃ externalId internalId, step = .setLink externalId internalId ∧
          (state.step step).tracker.mappings =
            state.tracker.mappings.setLink externalId internalId ∧
          loadedAfter (state.step step) stored' =
            (loadedAfter state stored).insert externalId internalId) := by
  have hpush : ∀ {tracker : MutableIdTracker} {change : MappingChange},
      tracker.pendingMappings = state.tracker.pendingMappings ++ [change] →
      tracker.mappingsExpectedLen = state.tracker.mappingsExpectedLen →
      MappingsKept { state with tracker } stored ∧
        loadedAfter { state with tracker } stored = (loadedAfter state stored).apply change := by
    intro tracker change hpending hlength
    refine ⟨⟨h.file, hlength.trans h.length, fun changes hchanges => ?_⟩, ?_⟩
    · rw [hpending]
      exact (h.outstanding changes hchanges).trans (prefix_append _ _)
    · rw [loadedAfter, hpending, ← append_assoc, foldl_append]
      rfl
  cases step with
  | setLink externalId internalId =>
    obtain ⟨hkept, hloaded⟩ := @hpush (state.tracker.setLink externalId internalId) _ rfl rfl
    exact ⟨stored, hkept, Or.inr ⟨externalId, internalId, rfl, rfl, hloaded⟩⟩
  | drop externalId =>
    have hdropped : (state.tracker.drop externalId).mappings =
        (state.tracker.mappings.drop externalId).2 ∧
        (state.tracker.drop externalId).pendingMappings =
          state.tracker.pendingMappings ++ [.delete externalId] ∧
        (state.tracker.drop externalId).mappingsExpectedLen =
          state.tracker.mappingsExpectedLen := by
      unfold MutableIdTracker.drop
      split <;> exact ⟨rfl, rfl, rfl⟩
    obtain ⟨hmappings, hpending, hlength⟩ := hdropped
    obtain ⟨hkept, hloaded⟩ := hpush hpending hlength
    refine ⟨stored, hkept, Or.inl ⟨rfl, fun linked relinked htracks => ?_⟩⟩
    dsimp only [TrackerState.step]
    rw [hmappings, hloaded]
    exact htracks.drop externalId
  | dropInternal internalId =>
    refine ⟨stored, ?_⟩
    dsimp only [TrackerState.step]
    unfold MutableIdTracker.dropInternal
    split
    · exact ⟨{ h with }, Or.inl ⟨rfl, fun _ _ => id⟩⟩
    rename_i externalId _
    obtain ⟨hkept, hloaded⟩ := @hpush ((state.tracker.dropMapping externalId).setInternalVersion
      internalId deletedPointVersion) _ rfl rfl
    refine ⟨hkept, Or.inl ⟨rfl, fun linked relinked htracks => ?_⟩⟩
    rw [hloaded]
    exact htracks.drop externalId
  | setInternalVersion internalId version =>
    exact ⟨stored, { h with }, Or.inl ⟨rfl, fun _ _ => id⟩⟩
  | createMappingFlusher =>
    refine ⟨stored, { h with outstanding := fun changes hchanges => ?_ },
      Or.inl ⟨rfl, fun _ _ => id⟩⟩
    cases hchanges
    exact prefix_refl _
  | runMappingFlusher =>
    cases hflusher : state.mappingFlusher with
    | none =>
      have hstep : state.step .runMappingFlusher = state := by
        simp only [TrackerState.step, hflusher]
      rw [hstep]
      exact ⟨stored, h, Or.inl ⟨rfl, fun _ _ => id⟩⟩
    | some changes =>
      obtain ⟨stored', hkept, hloaded, hmappings⟩ := runMappingFlusher_eq h hflusher
      refine ⟨stored', hkept, Or.inl ⟨rfl, fun _ _ => ?_⟩⟩
      rw [hloaded, hmappings]
      exact id
  | createVersionsFlusher => exact ⟨stored, { h with }, Or.inl ⟨rfl, fun _ _ => id⟩⟩
  | runVersionsFlusher =>
    obtain ⟨pendingVersions, versions, versionsFlusher, hstep⟩ := runVersionsFlusher_eq state
    rw [hstep]
    exact ⟨stored, { h with }, Or.inl ⟨rfl, fun _ _ => id⟩⟩

theorem mappingsKept_initial (deferredInternalId : Option UInt32) :
    MappingsKept (TrackerState.initial deferredInternalId) [] :=
  ⟨rfl, rfl, nofun⟩

theorem tracks_initial (deferredInternalId : Option UInt32) :
    Tracks (TrackerState.initial deferredInternalId).tracker.mappings
      (loadedAfter (TrackerState.initial deferredInternalId) []) [] False := by
  refine ⟨⟨rfl, fun externalId internalId hget => ?_, nofun, nofun⟩, fun _ => ⟨rfl, rfl⟩, nofun⟩
  change ({} : ExternalToInternal).get externalId = some internalId at hget
  rw [ExternalToInternal.get_empty] at hget
  cases hget

/-- Memory and file agree through a run as long as no link is replaced. -/
theorem Tracks.run {relinked : Prop} (hkept : MappingsKept state stored)
    (h : Tracks state.tracker.mappings (loadedAfter state stored) linked relinked)
    (steps : List TrackerStep) (hfresh : (steps.filterMap TrackerStep.linkedId).Nodup)
    (hunused : ∀ internalId ∈ steps.filterMap TrackerStep.linkedId, internalId ∉ linked) :
    ∃ stored' linked', MappingsKept (state.run steps) stored' ∧
      Tracks (state.run steps).tracker.mappings (loadedAfter (state.run steps) stored') linked'
        (relinked ∨ ¬state.NeverRelinks steps) := by
  induction steps generalizing state stored linked relinked with
  | nil =>
    rw [TrackerState.NeverRelinks, not_true, or_false]
    exact ⟨stored, linked, hkept, h⟩
  | cons step steps ih =>
    obtain ⟨stored', hkept', ⟨hnone, hkeeps⟩ | ⟨externalId, internalId, rfl, hmappings, hloaded⟩⟩ :=
      hkept.step step
    · have hrelinks : ¬state.Relinks step := by
        cases step <;> first | exact id | cases hnone
      rw [filterMap_cons_none hnone] at hfresh hunused
      rw [TrackerState.NeverRelinks, and_iff_right hrelinks]
      exact ih hkept' (hkeeps linked relinked h) hfresh hunused
    obtain ⟨hnotMem, hfresh⟩ := nodup_cons.mp hfresh
    obtain ⟨hhead, htail⟩ := forall_mem_cons.mp hunused
    have hlinked := h.setLink externalId hhead
    rw [← hmappings, ← hloaded] at hlinked
    have hunused' : ∀ other ∈ steps.filterMap TrackerStep.linkedId,
        other ∉ internalId :: linked := by
      grind
    rw [TrackerState.NeverRelinks, not_and_or, not_not, ← or_assoc]
    exact ih hkept' hlinked hfresh hunused'

end Runs

/-! ### The reopened tracker -/

/-- Two trackers give the same answers: ids in both directions, deleted bits, the number of
points, and the versions of the points that are not deleted. -/
structure MutableIdTracker.Agrees (tracker reopened : MutableIdTracker) : Prop where
  internalId : ∀ externalId, reopened.mappings.internalId externalId =
    tracker.mappings.internalId externalId
  externalId : ∀ internalId, reopened.mappings.externalId internalId =
    tracker.mappings.externalId internalId
  deleted : ∀ internalId, reopened.mappings.isDeletedPoint internalId =
    tracker.mappings.isDeletedPoint internalId
  count : reopened.mappings.availablePointCount = tracker.mappings.availablePointCount
  version : ∀ internalId, tracker.mappings.isDeletedPoint internalId = false →
    reopened.internalVersion internalId = tracker.internalVersion internalId

theorem isDeletedPoint_of_getElem? {mappings : PointMappings} {internalId : UInt32}
    {bit : Bool} (h : mappings.deleted[internalId.toNat]? = some bit) :
    mappings.isDeletedPoint internalId = bit := by
  obtain ⟨hlt, -⟩ := List.getElem?_eq_some_iff.mp h
  rw [PointMappings.isDeletedPoint, if_neg (by omega), h, Option.getD_some]

/-- What `open` makes of files that are complete. -/
private theorem open_of_kept {state : TrackerState} {stored : List MappingChange}
    {versions : List UInt64} (hkept : MappingsKept state stored)
    (hversions : VersionsKept state versions) (hpending : state.tracker.pendingMappings = [])
    (deferredInternalId : Option UInt32) :
    ∃ reopened, MutableIdTracker.open state.files deferredInternalId = .ok reopened ∧
      reopened.internalToVersion = versions ∧
      reopened.mappings.deleted = (loadedAfter state stored).deleted ∧
      reopened.mappings.internalToExternal = (loadedAfter state stored).internalToExternal ∧
      reopened.mappings.externalToInternal = (loadedAfter state stored).externalToInternal := by
  have hloaded : loadedAfter state stored = stored.foldl LoadedMappings.apply {} := by
    rw [loadedAfter, hpending, append_nil]
  have hstoredVersions : MutableIdTracker.openVersions state.files.versions = versions := by
    have hfile := hversions.file
    cases hfiles : state.files.versions with
    | none =>
      rw [hfiles, Option.getD_none] at hfile
      have hload := loadVersions_encodeVersions versions
      rw [← hfile] at hload
      exact hload
    | some file =>
      rw [hfiles, Option.getD_some] at hfile
      rw [hfile]
      exact loadVersions_encodeVersions versions
  have hfile := hkept.file
  unfold MutableIdTracker.open
  rw [hstoredVersions, hloaded]
  unfold MutableIdTracker.openMappings
  cases hfiles : state.files.mappings with
  | none =>
    rw [hfiles, Option.getD_none] at hfile
    have hempty : stored = [] := by
      cases stored with
      | nil => rfl
      | cons change stored =>
        cases hfile
    subst hempty
    exact ⟨_, rfl, rfl, rfl, rfl, rfl⟩
  | some file =>
    rw [hfiles, Option.getD_some] at hfile
    have hload := readMappings_writeMappingChanges stored deferredInternalId
    simp only [hfile, loadMappings, hload, bind, Except.bind, pure, Except.pure]
    exact ⟨_, rfl, rfl, rfl, rfl, rfl⟩

/-- A tracker that links every internal id at most once and has stored all its changes is
reopened as it was exactly if no link of the run replaced another. -/
theorem reopened_agrees_iff_never_relinks (steps : List TrackerStep)
    (deferredInternalId reopenedDeferredId : Option UInt32)
    (hfresh : (steps.filterMap TrackerStep.linkedId).Nodup)
    (hpending : ((TrackerState.initial deferredInternalId).run steps).NothingPending) :
    (∃ reopened, MutableIdTracker.open
        ((TrackerState.initial deferredInternalId).run steps).files reopenedDeferredId =
          .ok reopened ∧
        ((TrackerState.initial deferredInternalId).run steps).tracker.Agrees reopened) ↔
      (TrackerState.initial deferredInternalId).NeverRelinks steps := by
  obtain ⟨versions, hversions⟩ := (VersionsKept.initial deferredInternalId).run steps
  obtain ⟨stored, linked, hfinal, htracks⟩ :=
    (tracks_initial deferredInternalId).run (mappingsKept_initial deferredInternalId) steps hfresh
      nofun
  obtain ⟨reopened, hopen, hversion, hdeleted, hexternal, hlinks⟩ :=
    open_of_kept hfinal hversions hpending.1 reopenedDeferredId
  have hversion' := hversions.eq_of_nothing_pending hpending.2
  constructor
  · rintro ⟨other, hother, hagrees⟩
    rw [hopen] at hother
    cases hother
    by_contra hnever
    obtain ⟨stale, hstale⟩ := htracks.stale (Or.inr hnever)
    have hkeptBit := hstale.kept
    rw [← hdeleted] at hkeptBit
    have hbit := hagrees.deleted stale
    rw [isDeletedPoint_of_getElem? hkeptBit, isDeletedPoint_of_getElem? hstale.deleted] at hbit
    cases hbit
  intro hnever
  obtain ⟨hsameDeleted, hsameExternal⟩ := htracks.same (by simpa using hnever)
  rw [hsameDeleted] at hdeleted
  rw [hsameExternal] at hexternal
  rw [htracks.links] at hlinks
  refine ⟨reopened, hopen, fun externalId => ?_, fun internalId => ?_, fun internalId => ?_, ?_,
    fun internalId _ => ?_⟩
  · rw [PointMappings.internalId, hlinks, PointMappings.internalId]
  · rw [PointMappings.externalId, hdeleted, hexternal, PointMappings.externalId]
  · rw [PointMappings.isDeletedPoint, hdeleted, PointMappings.isDeletedPoint]
  · rw [PointMappings.availablePointCount, hlinks, PointMappings.availablePointCount]
  · rw [MutableIdTracker.internalVersion, hversion, hversion', MutableIdTracker.internalVersion]

/-- The steps that store everything pending. -/
private def flushAll : List TrackerStep :=
  [.createMappingFlusher, .runMappingFlusher, .createVersionsFlusher, .runVersionsFlusher]

/-- Two points of both kinds of id, one of them dropped after a first flush. -/
private def linkAndDrop : List TrackerStep :=
  [.setLink (.numId 7) 0, .setInternalVersion 0 3, .setLink (.uuid 9) 1, .setInternalVersion 1 4] ++
    flushAll ++ [.drop (.numId 7)] ++ flushAll

/-- The tracker that is opened again knows of the dropped point. -/
theorem reopened_agrees_after_drop :
    (linkAndDrop.filterMap TrackerStep.linkedId).Nodup ∧
      ((TrackerState.initial none).run linkAndDrop).NothingPending ∧
      ∃ reopened, MutableIdTracker.open ((TrackerState.initial none).run linkAndDrop).files none =
          .ok reopened ∧
        ((TrackerState.initial none).run linkAndDrop).tracker.Agrees reopened := by
  have hfresh : (linkAndDrop.filterMap TrackerStep.linkedId).Nodup := by decide
  have hpending : ((TrackerState.initial none).run linkAndDrop).NothingPending := by
    decide +kernel
  have hnever : (TrackerState.initial none).NeverRelinks linkAndDrop := by
    simp only [linkAndDrop, flushAll, cons_append, nil_append, TrackerState.NeverRelinks, and_true]
    decide +kernel
  exact ⟨hfresh, hpending,
    (reopened_agrees_iff_never_relinks linkAndDrop none none hfresh hpending).mpr hnever⟩

/-- A point that is moved to a fresh internal id, as `clone_and_mutate_point` does. -/
private def relink : List TrackerStep :=
  [.setLink (.numId 7) 0, .setLink (.numId 7) 1] ++ flushAll

/-- The old internal id of a moved point is deleted in memory and comes back on reopening. -/
theorem reopened_disagrees_after_relink :
    (relink.filterMap TrackerStep.linkedId).Nodup ∧
      ((TrackerState.initial none).run relink).NothingPending ∧
      ¬∃ reopened, MutableIdTracker.open ((TrackerState.initial none).run relink).files none =
          .ok reopened ∧
        ((TrackerState.initial none).run relink).tracker.Agrees reopened := by
  refine ⟨by decide, by decide +kernel, ?_⟩
  rintro ⟨reopened, hopen, hagrees⟩
  have hmemory : ((TrackerState.initial none).run relink).tracker.mappings.isDeletedPoint 0 =
      true := by decide +kernel
  have hfile : (MutableIdTracker.open ((TrackerState.initial none).run relink).files none).map
      (fun tracker => tracker.mappings.isDeletedPoint 0) = .ok false := by
    decide +kernel
  rw [hopen] at hfile
  have hkept : reopened.mappings.isDeletedPoint 0 = false := Except.ok.inj hfile
  have hbit := hagrees.deleted 0
  rw [hkept, hmemory] at hbit
  cases hbit

/-!
### Mapping flushers in any order

Every call of `mapping_flusher` copies the pending changes, and nothing keeps the flushers
from running in another order than they were created in. A flusher appends its copy whether or
not the changes are in the file already, so a late one may append old changes after newer ones.
-/

/-- A tracker with its files and the copies of the mapping flushers that did not run yet, in the
order of their creation. -/
structure FlushState where
  tracker : MutableIdTracker
  files : TrackerFiles := {}
  flushers : List (List MappingChange) := []

/-- A change of the mappings, the creation of a flusher, or the execution of any created one. -/
inductive FlushStep where
  | setLink (externalId : PointIdType) (internalId : UInt32)
  | drop (externalId : PointIdType)
  | dropInternal (internalId : UInt32)
  | createMappingFlusher
  | runMappingFlusher (position : ℕ)

namespace FlushState

/-- A tracker opened without files. -/
def initial (deferredInternalId : Option UInt32) : FlushState where
  tracker := (TrackerState.initial deferredInternalId).tracker

variable (state : FlushState)

/-- One step. -/
def step : FlushStep → FlushState
  | .setLink externalId internalId =>
    { state with tracker := state.tracker.setLink externalId internalId }
  | .drop externalId => { state with tracker := state.tracker.drop externalId }
  | .dropInternal internalId => { state with tracker := state.tracker.dropInternal internalId }
  | .createMappingFlusher =>
    { state with flushers := state.flushers ++ [state.tracker.pendingMappings] }
  | .runMappingFlusher position =>
    match state.flushers[position]? with
    | none => state
    | some changes =>
      let (_, tracker, files) := state.tracker.runMappingFlusher state.files changes
      { tracker, files, flushers := state.flushers.eraseIdx position }

/-- A whole run. -/
def run (steps : List FlushStep) : FlushState :=
  steps.foldl step state

/-- A link takes an external id without one to an internal id that is not in use, and a flusher
runs while its copy still heads the pending changes. -/
def Orderly : FlushStep → Prop
  | .setLink externalId internalId => state.tracker.mappings.internalId externalId = none ∧
      state.tracker.mappings.isDeletedPoint internalId = true
  | .runMappingFlusher position =>
    ∀ changes ∈ state.flushers[position]?, changes <+: state.tracker.pendingMappings
  | _ => True

/-- Every step of a run is orderly. -/
def OrderlyRun : FlushState → List FlushStep → Prop
  | _, [] => True
  | state, step :: steps => state.Orderly step ∧ (state.step step).OrderlyRun steps

/-- Loading the mappings file gives the mappings in memory. -/
def LoadsAsMemory (deferredInternalId : Option UInt32) : Prop :=
  ∃ mappings readTo file,
    loadMappings (state.files.mappings.getD []) deferredInternalId =
      .ok (mappings, readTo, file) ∧
    mappings.externalToInternal = state.tracker.mappings.externalToInternal ∧
    mappings.internalToExternal = state.tracker.mappings.internalToExternal ∧
    mappings.deleted = state.tracker.mappings.deleted

/-- The same tracker with at most one flusher outstanding. -/
private def single (flusher : Option (List MappingChange)) : TrackerState :=
  ⟨state.tracker, state.files, flusher, none⟩

end FlushState

/-- What is stored and pending is what memory holds. -/
private def Settled (state : TrackerState) : Prop :=
  ∃ stored linked, MappingsKept state stored ∧
    Tracks state.tracker.mappings (loadedAfter state stored) linked False

/-- An internal id that is not in use may be linked as if it never was. -/
private theorem Tracks.unused {mappings : PointMappings} {loaded : LoadedMappings}
    {linked : List UInt32} (h : Tracks mappings loaded linked False) {internalId : UInt32}
    (hdeleted : mappings.isDeletedPoint internalId = true) :
    Tracks mappings loaded (linked.filter (· ≠ internalId)) False := by
  have hsame := h.same id
  have hused : ∀ slot : UInt32, mappings.deleted[slot.toNat]? = some false → slot ≠ internalId := by
    rintro slot hslot rfl
    rw [isDeletedPoint_of_getElem? hslot] at hdeleted
    cases hdeleted
  have hlive := h.live
  have hmemory := h.memory
  exact ⟨⟨h.links, by grind, by grind, by rw [hsame.1]; grind⟩, h.same, nofun⟩

private theorem Settled.step {state : TrackerState} (h : Settled state) (step : TrackerStep)
    (hlink : ∀ externalId internalId, step = .setLink externalId internalId →
      state.tracker.mappings.internalId externalId = none ∧
        state.tracker.mappings.isDeletedPoint internalId = true) :
    Settled (state.step step) := by
  obtain ⟨stored, linked, hkept, htracks⟩ := h
  obtain ⟨stored', hkept', ⟨-, hkeeps⟩ | ⟨externalId, internalId, rfl, hmappings, hloaded⟩⟩ :=
    hkept.step step
  · exact ⟨stored', linked, hkept', hkeeps linked False htracks⟩
  · obtain ⟨hunlinked, hdeleted⟩ := hlink externalId internalId rfl
    have hunused : internalId ∉ linked.filter (· ≠ internalId) := by simp
    have hnext := (htracks.unused hdeleted).setLink externalId hunused
    rw [← hmappings, ← hloaded, hunlinked, ne_self_iff_false, or_self] at hnext
    exact ⟨stored', _, hkept', hnext⟩

private theorem settled_step {state : FlushState} (h : Settled (state.single none))
    {step : FlushStep} (horderly : state.Orderly step) :
    Settled ((state.step step).single none) := by
  cases step with
  | setLink externalId internalId =>
    refine h.step (.setLink externalId internalId) ?_
    rintro _ _ ⟨⟩
    exact horderly
  | drop externalId => exact h.step (.drop externalId) nofun
  | dropInternal internalId => exact h.step (.dropInternal internalId) nofun
  | createMappingFlusher => exact h
  | runMappingFlusher position =>
    cases hget : state.flushers[position]? with
    | none =>
      simp only [FlushState.step, hget]
      exact h
    | some changes =>
      simp only [FlushState.step, hget]
      -- the flusher's copy heads the pending changes, as if it were the only flusher
      obtain ⟨stored, linked, hkept, htracks⟩ := h
      have hcopied : Settled (state.single (some changes)) := by
        refine ⟨stored, linked, { hkept with outstanding := ?_ }, htracks⟩
        rintro _ ⟨⟩
        exact horderly changes hget
      exact hcopied.step .runMappingFlusher nofun

private theorem settled_run {state : FlushState} (h : Settled (state.single none))
    {steps : List FlushStep} (horderly : state.OrderlyRun steps) :
    Settled ((state.run steps).single none) := by
  induction steps generalizing state with
  | nil => exact h
  | cons step steps ih => exact ih (settled_step h horderly.1) horderly.2

/-- Orderly flushers leave a file that is loaded as the mappings in memory. -/
theorem flushed_mappings_load_as_memory (deferredInternalId loadedDeferredId : Option UInt32)
    (steps : List FlushStep) (horderly : (FlushState.initial deferredInternalId).OrderlyRun steps)
    (hpending : ((FlushState.initial deferredInternalId).run steps).tracker.pendingMappings = []) :
    ((FlushState.initial deferredInternalId).run steps).LoadsAsMemory loadedDeferredId := by
  have hinitial : Settled ((FlushState.initial deferredInternalId).single none) :=
    ⟨[], [], mappingsKept_initial deferredInternalId, tracks_initial deferredInternalId⟩
  obtain ⟨stored, linked, hkept, htracks⟩ := settled_run hinitial horderly
  generalize (FlushState.initial deferredInternalId).run steps = final at *
  have hfile : final.files.mappings.getD [] = writeMappingChanges stored := hkept.file
  have hloaded : loadedAfter (final.single none) stored = stored.foldl LoadedMappings.apply {} := by
    rw [loadedAfter, FlushState.single, hpending, append_nil]
  rw [hloaded] at htracks
  rw [FlushState.LoadsAsMemory, hfile, loadMappings, readMappings_writeMappingChanges]
  exact ⟨_, _, _, rfl, htracks.links, (htracks.same id).2, (htracks.same id).1⟩

/-- Two flushers, each of which runs before the next one is created. -/
private def flushInTurn : List FlushStep :=
  [.setLink (.numId 7) 0, .setLink (.uuid 9) 1, .createMappingFlusher, .runMappingFlusher 0,
    .drop (.numId 7), .createMappingFlusher, .runMappingFlusher 0]

/-- Two flushers in turn store the links and the drop. -/
theorem flushed_mappings_load_in_turn :
    (FlushState.initial none).OrderlyRun flushInTurn ∧
      ((FlushState.initial none).run flushInTurn).tracker.pendingMappings = [] ∧
      ((FlushState.initial none).run flushInTurn).LoadsAsMemory none := by
  have horderly : (FlushState.initial none).OrderlyRun flushInTurn := by
    simp only [flushInTurn, FlushState.OrderlyRun, FlushState.Orderly, and_true, true_and]
    decide +kernel
  have hpending : ((FlushState.initial none).run flushInTurn).tracker.pendingMappings = [] := by
    decide +kernel
  exact ⟨horderly, hpending, flushed_mappings_load_as_memory none none _ horderly hpending⟩

/-- A point is linked and dropped with a flusher after each, and the second flusher runs first. -/
private def flushReversed : List FlushStep :=
  [.setLink (.numId 7) 0, .createMappingFlusher, .drop (.numId 7), .createMappingFlusher,
    .runMappingFlusher 1, .runMappingFlusher 0]

/-- All flushers ran and nothing is pending, but the dropped point is back in the file. -/
theorem reversed_flushers_restore_dropped_point :
    ((FlushState.initial none).run flushReversed).flushers = [] ∧
      ((FlushState.initial none).run flushReversed).tracker.pendingMappings = [] ∧
      ¬((FlushState.initial none).run flushReversed).LoadsAsMemory none := by
  refine ⟨by decide +kernel, by decide +kernel, ?_⟩
  rintro ⟨mappings, readTo, file, hload, hlinks, -⟩
  have hfile : (loadMappings (((FlushState.initial none).run flushReversed).files.mappings.getD [])
      none).map (fun loaded => loaded.1.internalId (.numId 7)) = .ok (some 0) := by decide +kernel
  have hmemory : ((FlushState.initial none).run flushReversed).tracker.mappings.internalId
      (.numId 7) = none := by decide +kernel
  rw [hload] at hfile
  have hlink : mappings.internalId (.numId 7) = some 0 := Except.ok.inj hfile
  rw [PointMappings.internalId, ← hlinks, ← PointMappings.internalId, hlink] at hmemory
  cases hmemory

end Stratumind.IdTracker
