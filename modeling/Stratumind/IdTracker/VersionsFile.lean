import Stratumind.IdTracker.MutableIdTracker

/-!
# The versions file follows the versions in memory

A versions file is an array of eight-byte numbers. Writing a version at its offset is the
assignment the tracker makes in memory, and between the two stands only what is pending.
-/

namespace Stratumind.IdTracker

open Lib List

variable (versions : List UInt64) (change : UInt32 × UInt64)

/-- The assignment of one version, growing the array with zeros. -/
def putVersion : List UInt64 :=
  (growTo versions change.1.toNat 0).set change.1.toNat change.2

/-- The bytes of an array of versions. -/
def encodeVersions : List UInt8 :=
  versions.flatMap fun version => leBytes 8 version.toNat

/-! ### The file as an array -/

private theorem length_encodeVersions : (encodeVersions versions).length = 8 * versions.length := by
  induction versions with
  | nil => rfl
  | cons version versions ih =>
    have hcons : encodeVersions (version :: versions) =
        leBytes 8 version.toNat ++ encodeVersions versions := flatMap_cons
    rw [hcons, length_append, length_leBytes, ih, length_cons]
    omega

private theorem encodeVersions_append (left right : List UInt64) :
    encodeVersions (left ++ right) = encodeVersions left ++ encodeVersions right :=
  flatMap_append

private theorem encodeVersions_replicate_zero (count : ℕ) :
    encodeVersions (replicate count 0) = replicate (8 * count) 0 := by
  induction count with
  | zero => rfl
  | succ count ih =>
    have hzero : encodeVersions [0] = replicate 8 0 := by decide
    rw [replicate_succ, ← singleton_append, encodeVersions_append, ih, hzero,
      replicate_append_replicate]
    congr 1
    omega

private theorem readVersions_encodeVersions :
    readVersions versions.length (encodeVersions versions) = versions := by
  induction versions with
  | nil => rfl
  | cons version versions ih =>
    have hcons : encodeVersions (version :: versions) =
        leBytes 8 version.toNat ++ encodeVersions versions := flatMap_cons
    have hlength : (leBytes 8 version.toNat).length = versionElementSize := length_leBytes 8 _
    rw [hcons, length_cons, readVersions, take_left' hlength, drop_left' hlength,
      ofLeBytes_leBytes version.toNat_lt, UInt64.ofNat_toNat, ih]

/-- A file of complete entries is loaded as the array it was written from. -/
theorem loadVersions_encodeVersions : loadVersions (encodeVersions versions) = versions := by
  rw [loadVersions, length_encodeVersions, versionElementSize,
    Nat.mul_div_cancel_left _ (by omega), readVersions_encodeVersions]

private theorem writeAt_append (before old after bytes : List UInt8)
    (hlength : bytes.length = old.length) :
    writeAt (before ++ (old ++ after)) before.length bytes = before ++ (bytes ++ after) := by
  have hdrop : (before ++ (old ++ after)).drop (before.length + bytes.length) = after := by
    rw [← append_assoc, hlength, ← length_append, drop_left]
  rw [writeAt, if_pos (by simp), take_left, hdrop, append_assoc]

private theorem writeAt_beyond {file bytes : List UInt8} {offset : ℕ} (h : file.length ≤ offset) :
    writeAt file offset bytes = file ++ (replicate (offset - file.length) 0 ++ bytes) := by
  have hdrop : file.drop (offset + bytes.length) = [] := drop_eq_nil_of_le (by omega)
  rw [writeAt, hdrop, append_nil]
  split
  · have heq : offset = file.length := by omega
    rw [heq, take_length, Nat.sub_self, replicate_zero, nil_append]
  have hlength : (file ++ replicate (offset - file.length) (0 : UInt8)).length ≤ offset := by
    rw [length_append, length_replicate]
    omega
  rw [resize, take_of_length_le (i := offset) h, take_of_length_le hlength, append_assoc]

/-- A write at the offset of an internal id is an assignment of the array. -/
theorem writeAt_encodeVersions :
    writeAt (encodeVersions versions) (change.1.toNat * versionElementSize)
        (leBytes 8 change.2.toNat) = encodeVersions (putVersion versions change) := by
  obtain ⟨internalId, version⟩ := change
  have hsingle : encodeVersions [version] = leBytes 8 version.toNat :=
    flatMap_singleton _ _
  dsimp only [putVersion, versionElementSize]
  by_cases hlt : internalId.toNat < versions.length
  · -- the entry exists: split the file around it
    have hsplit : versions = versions.take internalId.toNat ++
        ([versions[internalId.toNat]] ++ versions.drop (internalId.toNat + 1)) := by
      rw [singleton_append, ← drop_eq_getElem_cons hlt, take_append_drop]
    have hoffset : internalId.toNat * 8 =
        (encodeVersions (versions.take internalId.toNat)).length := by
      rw [length_encodeVersions, length_take]
      omega
    rw [growTo, if_neg (by omega), set_eq_take_append_cons_drop, if_pos hlt]
    conv_lhs => rw [hsplit]
    rw [encodeVersions_append, encodeVersions_append, hoffset, writeAt_append,
      encodeVersions_append, ← singleton_append, encodeVersions_append, hsingle]
    rw [length_leBytes, length_encodeVersions, length_singleton]
  -- the file grows, and the gap is zeros
  have hlength := length_encodeVersions versions
  rw [growTo, if_pos (by omega), resize, take_of_length_le (by omega),
    writeAt_beyond (by omega), hlength]
  have hgap : internalId.toNat + 1 - versions.length =
      internalId.toNat - versions.length + 1 := by omega
  have hbytes : internalId.toNat * 8 - 8 * versions.length =
      8 * (internalId.toNat - versions.length) := by omega
  have hset : (versions ++ (replicate (internalId.toNat - versions.length) 0 ++
      [(0 : UInt64)])).set internalId.toNat version =
      versions ++ (replicate (internalId.toNat - versions.length) 0 ++ [version]) := by
    rw [set_append_right _ _ (by omega), set_append_right _ _ (by simp),
      length_replicate, Nat.sub_self, set_cons_zero]
  rw [hgap, replicate_succ', hset, encodeVersions_append, encodeVersions_append, hsingle,
    encodeVersions_replicate_zero, hbytes]

variable (changes : List (UInt32 × UInt64))

private theorem writeVersionChanges_encodeVersions :
    writeVersionChanges (encodeVersions versions) changes =
      encodeVersions (changes.foldl putVersion versions) := by
  induction changes generalizing versions with
  | nil => rfl
  | cons change changes ih =>
    rw [foldl_cons, ← ih, ← writeAt_encodeVersions]
    rfl

/-! ### Arrays under assignments -/

/-- The version at a position; an array reads as zero beyond its end. -/
def versionAt (position : ℕ) : UInt64 :=
  versions[position]?.getD 0

private theorem versionAt_growTo (index position : ℕ) :
    versionAt (growTo versions index 0) position = versionAt versions position := by
  unfold versionAt
  rw [getElem?_growTo]
  split
  · rfl
  · rw [getElem?_eq_none (l := versions) (by omega)]
    split <;> rfl

theorem length_putVersion :
    (putVersion versions change).length = max versions.length (change.1.toNat + 1) := by
  rw [putVersion, length_set, length_growTo]

theorem versionAt_putVersion (position : ℕ) : versionAt (putVersion versions change) position =
      if position = change.1.toNat then change.2 else versionAt versions position := by
  split
  · rename_i heq
    rw [heq, versionAt, putVersion, getElem?_set_self (lt_length_growTo ..)]
    rfl
  · rename_i hne
    rw [← versionAt_growTo versions change.1.toNat position, versionAt, versionAt, putVersion,
      getElem?_set_ne (by omega)]

private theorem length_foldl_putVersion (versions : List UInt64) {bound : ℕ} :
    (changes.foldl putVersion versions).length ≤ bound ↔
      versions.length ≤ bound ∧ ∀ change ∈ changes, change.1.toNat < bound := by
  induction changes generalizing versions with
  | nil => simp
  | cons change changes ih =>
    rw [foldl_cons, ih, length_putVersion, forall_mem_cons, ← and_assoc]
    refine and_congr_left fun _ => ?_
    omega

private theorem versionAt_foldl_putVersion (versions : List UInt64)
    (hnodup : (changes.map Prod.fst).Nodup) (position : ℕ) :
    (∀ change ∈ changes, change.1.toNat = position →
        versionAt (changes.foldl putVersion versions) position = change.2) ∧
      ((∀ change ∈ changes, change.1.toNat ≠ position) →
        versionAt (changes.foldl putVersion versions) position = versionAt versions position) := by
  induction changes generalizing versions with
  | nil => simp
  | cons change changes ih =>
    have hrest := ih (putVersion versions change) (nodup_cons.mp hnodup).2
    rw [versionAt_putVersion] at hrest
    grind [UInt32.toNat_inj]

/-! ### Maps of changes -/

/-- The assignment of every change of a map. -/
def putVersions (pending : AList fun _ : UInt32 => UInt64) : List UInt64 :=
  (orderedVersions pending).foldl putVersion versions

section Maps

variable {pending : AList fun _ : UInt32 => UInt64}

private theorem mem_orderedVersions :
    change ∈ orderedVersions pending ↔ pending.lookup change.1 = some change.2 := by
  rw [orderedVersions, mem_insertionSort, ← Option.mem_def, AList.mem_lookup_iff]
  grind

private theorem nodup_orderedVersions : ((orderedVersions pending).map Prod.fst).Nodup := by
  have hperm := (perm_insertionSort (fun a b : UInt32 × UInt64 => a.1 ≤ b.1)
    (pending.entries.map fun entry => (entry.1, entry.2))).map Prod.fst
  refine hperm.nodup_iff.mpr ?_
  rw [map_map]
  exact pending.nodupKeys

private theorem length_putVersions_le {bound : ℕ} :
    (putVersions versions pending).length ≤ bound ↔ versions.length ≤ bound ∧
      ∀ internalId, pending.lookup internalId ≠ none → internalId.toNat < bound := by
  rw [putVersions, length_foldl_putVersion]
  simp only [Prod.forall, mem_orderedVersions, ne_eq, Option.eq_none_iff_forall_ne_some]
  grind

private theorem versionAt_putVersions (position : ℕ) :
    versionAt (putVersions versions pending) position = if position < 2 ^ 32 then
      (pending.lookup (UInt32.ofNat position)).getD (versionAt versions position)
    else versionAt versions position := by
  have hfold := versionAt_foldl_putVersion (orderedVersions pending) versions
    nodup_orderedVersions position
  simp only [Prod.forall, mem_orderedVersions] at hfold
  split
  · rename_i hlt
    have hkey : (UInt32.ofNat position).toNat = position := UInt32.toNat_ofNat_of_lt hlt
    cases hlookup : pending.lookup (UInt32.ofNat position) with
    | none => exact hfold.2 (by grind [UInt32.ofNat_toNat])
    | some version => exact hfold.1 _ _ hlookup hkey
  · exact hfold.2 fun internalId _ _ => by grind [UInt32.toNat_lt]

/-- An array is given by its length and its versions. -/
private theorem eq_of_versionAt {left right : List UInt64}
    (hlength : ∀ bound, left.length ≤ bound ↔ right.length ≤ bound)
    (hversions : ∀ position, versionAt left position = versionAt right position) :
    left = right := by
  have hsame : left.length = right.length :=
    Nat.le_antisymm ((hlength _).mpr le_rfl) ((hlength _).mp le_rfl)
  refine ext_getElem hsame fun position hleft hright => ?_
  have hversion := hversions position
  rwa [versionAt, versionAt, getElem?_eq_getElem hleft, getElem?_eq_getElem hright] at hversion

/-- One more change of the map is one more assignment. -/
private theorem putVersions_insert (internalId : UInt32) (version : UInt64) :
    putVersions versions (pending.insert internalId version) =
      putVersion (putVersions versions pending) (internalId, version) := by
  refine eq_of_versionAt (fun bound => ?_) fun position => ?_
  · rw [length_putVersion, max_le_iff, length_putVersions_le, length_putVersions_le]
    grind
  · have hkey : position < 2 ^ 32 → (UInt32.ofNat position).toNat = position :=
      UInt32.toNat_ofNat_of_lt
    simp only [versionAt_putVersion, versionAt_putVersions, lookup_insert]
    grind [UInt32.toNat_lt, UInt32.ofNat_toNat]

/-- Changes that are assigned already may be taken out of a map that has all their keys. -/
private theorem putVersions_reconcile {changes : AList fun _ : UInt32 => UInt64}
    (hkeys : ∀ internalId, changes.lookup internalId ≠ none → pending.lookup internalId ≠ none) :
    putVersions (putVersions versions changes)
      (reconcilePersistedVersionChanges pending changes) = putVersions versions pending := by
  have hlookup : ∀ internalId, (reconcilePersistedVersionChanges pending changes).lookup
      internalId = if changes.lookup internalId = pending.lookup internalId then none
        else pending.lookup internalId := by
    intro internalId
    refine Option.ext fun version => ?_
    rw [← Option.mem_def, AList.mem_lookup_iff, reconcilePersistedVersionChanges, mem_filter,
      ← AList.mem_lookup_iff, Option.mem_def]
    cases changes.lookup internalId <;> grind
  refine eq_of_versionAt (fun bound => ?_) fun position => ?_
  · simp only [length_putVersions_le, hlookup]
    grind
  · have hkey := hkeys (UInt32.ofNat position)
    simp only [versionAt_putVersions, hlookup]
    generalize changes.lookup (UInt32.ofNat position) = copied at *
    generalize pending.lookup (UInt32.ofNat position) = current at *
    cases copied <;> cases current <;> grind

end Maps

/-! ### What is pending is all that the file lacks -/

/-- The file holds an array that the pending changes take to the one in memory, and every
outstanding change is still pending in some value. -/
structure VersionsKept (state : TrackerState) (stored : List UInt64) : Prop where
  file : state.files.versions.getD [] = encodeVersions stored
  memory : state.tracker.internalToVersion = putVersions stored state.tracker.pendingVersions
  outstanding : ∀ changes, state.versionsFlusher = some changes → ∀ internalId,
    changes.lookup internalId ≠ none → state.tracker.pendingVersions.lookup internalId ≠ none

namespace VersionsKept

variable {state : TrackerState} {stored : List UInt64}

/-- A tracker without files keeps them. -/
theorem initial (deferredInternalId : Option UInt32) :
    VersionsKept (TrackerState.initial deferredInternalId) [] :=
  ⟨rfl, rfl, nofun⟩

variable (h : VersionsKept state stored)

include h

/-- With nothing pending the file holds the array in memory. -/
theorem eq_of_nothing_pending (hpending : state.tracker.pendingVersions.entries = []) :
    stored = state.tracker.internalToVersion := by
  rw [h.memory, putVersions, orderedVersions, hpending]
  rfl

/-- A version is assigned in memory and pending. -/
theorem setInternalVersion (internalId : UInt32) (version : UInt64) : VersionsKept
      { state with tracker := state.tracker.setInternalVersion internalId version } stored where
  file := h.file
  memory := by
    dsimp only [MutableIdTracker.setInternalVersion]
    rw [putVersions_insert, ← h.memory]
    rfl
  outstanding := fun changes hchanges key hkey => by
    have hpending := h.outstanding changes hchanges key hkey
    simp only [MutableIdTracker.setInternalVersion, lookup_insert]
    grind

/-- Running a flusher stores the changes it copied. -/
theorem runVersionsFlusher {changes : AList fun _ : UInt32 => UInt64}
    (hflusher : state.versionsFlusher = some changes) :
    ∃ stored', VersionsKept (state.step .runVersionsFlusher) stored' := by
  by_cases hempty : changes.entries = []
  · refine ⟨stored, ?_⟩
    simp only [TrackerState.step, hflusher, MutableIdTracker.runVersionsFlusher, hempty,
      isEmpty_nil, if_true]
    exact { h with outstanding := nofun }
  have hnonempty : changes.entries.isEmpty = false := by simpa using hempty
  have hvalid : (encodeVersions stored).length / versionElementSize * versionElementSize =
      (encodeVersions stored).length := by
    rw [length_encodeVersions, versionElementSize]
    omega
  have hstore : storeVersionChanges state.files.versions changes =
      some (encodeVersions (putVersions stored changes)) := by
    rw [storeVersionChanges, hnonempty, if_neg Bool.false_ne_true]
    dsimp only
    rw [h.file, hvalid, if_neg (by simp), writeVersionChanges_encodeVersions, putVersions]
  refine ⟨putVersions stored changes, ?_⟩
  simp only [TrackerState.step, hflusher, MutableIdTracker.runVersionsFlusher, hnonempty,
    Bool.false_eq_true, if_false]
  refine ⟨by rw [hstore, Option.getD_some], ?_, nofun⟩
  exact h.memory.trans (putVersions_reconcile stored (h.outstanding changes hflusher)).symm

/-- Every step keeps the file and the array in memory together. -/
theorem step (step : TrackerStep) : ∃ stored', VersionsKept (state.step step) stored' := by
  cases step with
  | setLink externalId internalId => exact ⟨stored, { h with }⟩
  | drop externalId =>
    refine ⟨stored, ?_⟩
    change VersionsKept { state with tracker := state.tracker.drop externalId } stored
    have hdropped : VersionsKept { state with tracker := state.tracker.dropMapping externalId }
        stored := { h with }
    unfold MutableIdTracker.drop
    split
    · exact hdropped
    · exact hdropped.setInternalVersion _ deletedPointVersion
  | dropInternal internalId =>
    refine ⟨stored, ?_⟩
    change VersionsKept { state with tracker := state.tracker.dropInternal internalId } stored
    unfold MutableIdTracker.dropInternal
    split
    · exact h.setInternalVersion internalId deletedPointVersion
    rename_i externalId _
    have hdropped : VersionsKept { state with tracker := state.tracker.dropMapping externalId }
        stored := { h with }
    exact hdropped.setInternalVersion internalId deletedPointVersion
  | setInternalVersion internalId version =>
    exact ⟨stored, h.setInternalVersion internalId version⟩
  | createMappingFlusher => exact ⟨stored, { h with }⟩
  | runMappingFlusher =>
    refine ⟨stored, ?_⟩
    cases hflusher : state.mappingFlusher with
    | none =>
      simp only [TrackerState.step, hflusher]
      exact h
    | some changes =>
      simp only [TrackerState.step, hflusher, MutableIdTracker.runMappingFlusher]
      split
      · exact { h with }
      · split <;> exact { h with }
  | createVersionsFlusher =>
    refine ⟨stored, { h with outstanding := fun changes hchanges => ?_ }⟩
    cases hchanges
    exact fun _ hpending => hpending
  | runVersionsFlusher =>
    cases hflusher : state.versionsFlusher with
    | none =>
      refine ⟨stored, ?_⟩
      simp only [TrackerState.step, hflusher]
      exact h
    | some changes => exact h.runVersionsFlusher hflusher

/-- The same over a whole run. -/
theorem run (steps : List TrackerStep) : ∃ stored', VersionsKept (state.run steps) stored' := by
  induction steps generalizing state stored with
  | nil => exact ⟨stored, h⟩
  | cons next steps ih =>
    obtain ⟨stored', hnext⟩ := h.step next
    exact ih hnext

end VersionsKept

end Stratumind.IdTracker
