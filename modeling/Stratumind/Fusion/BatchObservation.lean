import Stratumind.Fusion.SessionSemantics

/-!
# Observing batches

`observe_batch` changes a state entirely or not at all, and what it changes does not depend on
how a ranking is cut into batches: the result is that of observing the identities one by one.
-/

namespace Stratumind

open List Function

namespace DynamicRrfState

variable {Id F : Type} {n : ℕ} [LinearOrder Id] [ToString Id] [RankArithmetic F]
  (state : DynamicRrfState Id F n)

/-- `observe_batch` as it works on the state: its result, and the state it leaves behind. -/
def observeBatchInPlace (source : ℕ)
    (batch : ChannelRankBatch Id) : OperationResult Unit × DynamicRrfState Id F n :=
  if h : source < n then
    let index : Fin n := ⟨source, h⟩
    let expected := state.nextPositions index
    let start := batch.startRank
    if state.exhausted index then
      (.error (.validationError s!"Dynamic RRF source {source} was already exhausted"), state)
    else if start ≠ expected then
      (.error (.validationError
        s!"Dynamic RRF source {source} batch starts at rank {start}; expected {expected}"), state)
    else if batch.pointIds.isEmpty && !batch.exhausted then
      (.error (.validationError
        s!"Dynamic RRF source {source} returned an empty non-exhausted batch"), state)
    else
      match state.validateBatch index ∅ batch.pointIds with
      | .error error => (.error error, state)
      | .ok () =>
        let state := batch.pointIds.zipIdx.foldl (fun state entry =>
          { state with
            points := recordContribution state.points index entry.1
              (positionScore (start + entry.2) state.rrfK (state.weights index)) }) state
        let state := { state with
          nextPositions := update state.nextPositions index
            (state.nextPositions index + batch.pointIds.length) }
        if batch.exhausted then
          (.ok (), { state with exhausted := update state.exhausted index true })
        else (.ok (), state)
  else (.error (.validationError s!"Dynamic RRF source {source} is out of range"), state)

/-- Observes the identities of a batch one by one, then its end. -/
def observeEach (source : ℕ) (batch : ChannelRankBatch Id) :
    OperationResult (DynamicRrfState Id F n) := do
  let state ← batch.pointIds.foldlM (fun state id => state.observe source id) state
  if batch.exhausted then state.finishSource source else pure state

/-- The conditions for a batch to be taken. -/
def Accepts (source : ℕ) (batch : ChannelRankBatch Id) : Prop :=
  ∃ h : source < n, state.exhausted ⟨source, h⟩ = false ∧
    batch.startRank = state.nextPositions ⟨source, h⟩ ∧
    ¬(batch.pointIds = [] ∧ batch.exhausted = false) ∧
    batch.pointIds.Nodup ∧ ∀ id ∈ batch.pointIds, state.contribution ⟨source, h⟩ id = none

/-- The batches that a ranking from `start` on is cut into. -/
def cutBatches (exhausted : Bool) (last : List Id) (start : ℕ) :
    List (List Id) → List (ChannelRankBatch Id)
  | [] => [⟨start, last, exhausted⟩]
  | part :: parts =>
    ⟨start, part, false⟩ :: cutBatches exhausted last (start + part.length) parts

variable {state : DynamicRrfState Id F n} {batch : ChannelRankBatch Id}

omit [ToString Id] in
/-- Entering the points one state at a time is entering them at once. -/
private theorem foldl_points (index : Fin n) (start : ℕ) (entries : List (Id × ℕ)) :
    entries.foldl (fun state entry => { state with
          points := recordContribution state.points index entry.1
            (positionScore (start + entry.2) state.rrfK (state.weights index)) }) state =
      { state with
        points := entries.foldl (fun points entry => recordContribution points index entry.1
          (positionScore (start + entry.2) state.rrfK (state.weights index))) state.points } := by
  induction entries generalizing state with
  | nil => rfl
  | cons entry entries ih => rw [foldl_cons, ih, foldl_cons]

/-- The state in place is the new state, or the old one where there is none. -/
theorem observeBatchInPlace_eq (source : ℕ) (batch : ChannelRankBatch Id) :
    state.observeBatchInPlace source batch =
      match state.observeBatch source batch with
      | .ok next => (.ok (), next)
      | .error error => (.error error, state) := by
  unfold observeBatchInPlace observeBatch
  by_cases h : source < n
  · rw [dif_pos h, dif_pos h]
    dsimp only
    split
    · rfl
    split
    · rfl
    split
    · rfl
    cases state.validateBatch ⟨source, h⟩ ∅ batch.pointIds with
    | error error => rfl
    | ok _ =>
      rw [foldl_points, applyBatch]
      cases batch.exhausted with
      | true => rfl
      | false => rfl
  · rw [dif_neg h, dif_neg h]

variable {source : ℕ}

theorem observeBatch_eq_ok_iff {next : DynamicRrfState Id F n} :
    state.observeBatch source batch = .ok next ↔
      state.Accepts source batch ∧
        ∃ h : source < n, next = state.applyBatch ⟨source, h⟩ batch := by
  unfold observeBatch Accepts
  by_cases h : source < n
  · simp only [h, dif_pos, exists_true_left]
    split
    · rename_i hexhausted
      simp [hexhausted]
    split
    · rename_i hstart
      simp [hstart]
    split
    · grind
    have hvalid := @validateBatch_eq_ok_iff Id F n _ state ⟨source, h⟩ _ ∅ batch.pointIds
    grind
  · simp [h]

omit [ToString Id] in
/-- A batch does what its two parts do one after the other. -/
theorem applyBatch_append (index : Fin n) (start : ℕ) (part rest : List Id) (exhausted : Bool) :
    state.applyBatch index ⟨start, part ++ rest, exhausted⟩ =
      (state.applyBatch index ⟨start, part, false⟩).applyBatch index
        ⟨start + part.length, rest, exhausted⟩ := by
  unfold applyBatch
  dsimp only
  have hpoints : ∀ points : AList fun _ : Id => PartialRrfPoint F n,
      (rest.zipIdx part.length).foldl (fun points entry => recordContribution points index entry.1
        (positionScore (start + entry.2) state.rrfK (state.weights index))) points =
      rest.zipIdx.foldl (fun points entry => recordContribution points index entry.1
        (positionScore (start + part.length + entry.2) state.rrfK (state.weights index)))
        points := by
    intro points
    rw [zipIdx_eq_map_add, foldl_map]
    simp [Nat.add_assoc]
  rw [zipIdx_append, foldl_append, Nat.zero_add, hpoints, length_append,
    update_self, update_idem, Nat.add_assoc]
  rfl

/-- A batch that is cut in two is taken if and only if both parts are. -/
theorem observeBatch_append_iff {start : ℕ} {part rest : List Id} {exhausted : Bool}
    {final : DynamicRrfState Id F n} (hpart : part ≠ [])
    (hrest : ¬(rest = [] ∧ exhausted = false)) :
    state.observeBatch source ⟨start, part ++ rest, exhausted⟩ = .ok final ↔
      ∃ middle, state.observeBatch source ⟨start, part, false⟩ = .ok middle ∧
        middle.observeBatch source ⟨start + part.length, rest, exhausted⟩ = .ok final := by
  simp only [observeBatch_eq_ok_iff, Accepts]
  constructor
  · rintro ⟨⟨h, hopen, hstart, -, hnodup, hnew⟩, _, rfl⟩
    obtain ⟨hfirst, hsecond, hdisjoint⟩ := nodup_append.mp hnodup
    refine ⟨_, ⟨⟨h, hopen, hstart, by simp [hpart], hfirst,
      fun id hid => hnew id (mem_append_left _ hid)⟩, h, rfl⟩,
      ⟨h, ?_, ?_, hrest, hsecond, fun id hid => ?_⟩, h, applyBatch_append _ _ _ _ _⟩
    · rw [applyBatch_exhausted hopen, update_self]
    · simp only [applyBatch, update_self]
      rw [← hstart]
    · have hother : id ∉ part := fun hmem => hdisjoint id hmem id hid rfl
      rw [contribution_applyBatch hfirst, if_neg (by simp [hother])]
      exact hnew id (mem_append_right _ hid)
  rintro ⟨_, ⟨⟨h, hopen, hstart, -, hfirst, hnew⟩, _, rfl⟩,
    ⟨⟨_, -, -, -, hsecond, hnewSecond⟩, _, rfl⟩⟩
  have hcontribution : ∀ id ∈ rest, id ∉ part ∧ state.contribution ⟨source, h⟩ id = none := by
    intro id hid
    have hnone := hnewSecond id hid
    rw [contribution_applyBatch hfirst] at hnone
    grind
  refine ⟨⟨h, hopen, hstart, by simp [hpart], ?_, ?_⟩, h, (applyBatch_append _ _ _ _ _).symm⟩
  · grind
  grind

/-- An identity that is new to an open source is observed as a batch of one. -/
theorem observe_of_new (h : source < n) {id : Id} (hopen : state.exhausted ⟨source, h⟩ = false)
    (hnew : state.contribution ⟨source, h⟩ id = none) :
    state.observe source id =
      .ok (state.applyBatch ⟨source, h⟩ ⟨state.nextPositions ⟨source, h⟩, [id], false⟩) := by
  unfold observe
  simp only [h, dif_pos, hopen, hnew, Option.isSome_none, Bool.false_eq_true, if_false]
  rfl

/-- Observing new identities one by one is observing them as a batch. -/
theorem foldlM_observe (h : source < n) {ids : List Id}
    (hopen : state.exhausted ⟨source, h⟩ = false) (hnodup : ids.Nodup)
    (hnew : ∀ id ∈ ids, state.contribution ⟨source, h⟩ id = none) :
    ids.foldlM (fun state id => state.observe source id) state =
      .ok (state.applyBatch ⟨source, h⟩ ⟨state.nextPositions ⟨source, h⟩, ids, false⟩) := by
  induction ids generalizing state with
  | nil =>
    have hsame : state.applyBatch ⟨source, h⟩ ⟨state.nextPositions ⟨source, h⟩, [], false⟩ =
        state := by simp [applyBatch]
    rw [hsame]
    rfl
  | cons id ids ih =>
    obtain ⟨hfirst, hrest⟩ := nodup_cons.mp hnodup
    obtain ⟨hid, hids⟩ := forall_mem_cons.mp hnew
    have hnext : (state.applyBatch ⟨source, h⟩
        ⟨state.nextPositions ⟨source, h⟩, [id], false⟩).nextPositions ⟨source, h⟩ =
        state.nextPositions ⟨source, h⟩ + [id].length := by
      simp [applyBatch]
    rw [foldlM_cons, observe_of_new h hopen hid]
    refine (ih ?_ hrest fun other hother => ?_).trans ?_
    · rw [applyBatch_exhausted hopen, update_self]
    · have hne : other ∉ [id] := by
        rintro hmem
        exact hfirst (mem_singleton.mp hmem ▸ hother)
      rw [contribution_applyBatch (nodup_singleton id), if_neg (by simpa using hne)]
      exact hids other hother
    · rw [hnext, ← applyBatch_append]
      rfl

theorem observeEach_of_accepts {next : DynamicRrfState Id F n}
    (h : state.observeBatch source batch = .ok next) :
    state.observeEach source batch = .ok next := by
  obtain ⟨⟨hsource, hopen, hstart, -, hnodup, hnew⟩, _, rfl⟩ := observeBatch_eq_ok_iff.mp h
  obtain ⟨start, ids, exhausted⟩ := batch
  subst hstart
  unfold observeEach
  rw [foldlM_observe hsource hopen hnodup hnew]
  cases exhausted with
  | true =>
    change finishSource _ source = _
    unfold finishSource
    rw [dif_pos hsource]
    rfl
  | false => rfl

/-- Cutting a batch changes neither whether it is taken nor the state it leads to. -/
theorem foldlM_cutBatches_iff {exhausted : Bool} {last : List Id}
    (hlast : ¬(last = [] ∧ exhausted = false)) {parts : List (List Id)}
    (hparts : ∀ part ∈ parts, part ≠ []) {start : ℕ} {final : DynamicRrfState Id F n} :
    (cutBatches exhausted last start parts).foldlM
        (fun state batch => state.observeBatch source batch) state = .ok final ↔
      state.observeBatch source ⟨start, parts.flatten ++ last, exhausted⟩ = .ok final := by
  induction parts generalizing state start with
  | nil =>
    rw [cutBatches, foldlM_cons, flatten_nil, nil_append]
    cases state.observeBatch source ⟨start, last, exhausted⟩ with
    | error error => exact Iff.rfl
    | ok next => exact Iff.rfl
  | cons part parts ih =>
    obtain ⟨hpart, hrest⟩ := forall_mem_cons.mp hparts
    rw [flatten_cons, append_assoc,
      observeBatch_append_iff hpart (by simp only [append_eq_nil_iff]; tauto), cutBatches,
      foldlM_cons]
    cases state.observeBatch source ⟨start, part, false⟩ with
    | error error =>
      change Except.error error = Except.ok final ↔ _
      simp
    | ok middle =>
      change foldlM _ middle _ = _ ↔ _
      rw [ih hrest]
      simp

/-- A batch is taken exactly under its conditions, otherwise nothing changes; a batch that is
taken leads where observing its identities one by one leads, and so does every way to cut it. -/
theorem observe_batch_atomic (source : ℕ) (batch : ChannelRankBatch Id) :
    ((state.observeBatchInPlace source batch).1 = .ok () ↔ state.Accepts source batch) ∧
    ((state.observeBatchInPlace source batch).1 ≠ .ok () →
      (state.observeBatchInPlace source batch).2 = state) ∧
    ((state.observeBatchInPlace source batch).1 = .ok () →
      state.observeEach source batch = .ok (state.observeBatchInPlace source batch).2) ∧
    ∀ parts last, batch.pointIds = parts.flatten ++ last → (∀ part ∈ parts, part ≠ []) →
      ¬(last = [] ∧ batch.exhausted = false) →
      ∀ final, (cutBatches batch.exhausted last batch.startRank parts).foldlM
          (fun state batch => state.observeBatch source batch) state = .ok final ↔
        state.observeBatchInPlace source batch = (.ok (), final) := by
  have haccepts := @observeBatch_eq_ok_iff Id F n _ _ _ state batch source
  have heach := @observeEach_of_accepts Id F n _ _ _ state batch source
  rw [observeBatchInPlace_eq]
  cases hresult : state.observeBatch source batch with
  | error error =>
    rw [hresult] at haccepts
    refine ⟨?_, fun _ => rfl, nofun, ?_⟩
    · simp only [reduceCtorEq, false_iff]
      intro h
      exact absurd (haccepts.mpr ⟨h, h.choose, rfl⟩) (by simp)
    · intro parts last hids hparts hlast final
      rw [foldlM_cutBatches_iff hlast hparts, ← hids, hresult]
      simp
  | ok next =>
    refine ⟨?_, fun h => absurd rfl h, fun _ => heach hresult, ?_⟩
    · simp only [true_iff]
      exact (haccepts.mp hresult).1
    · intro parts last hids hparts hlast final
      rw [foldlM_cutBatches_iff hlast hparts, ← hids, hresult]
      simp

end DynamicRrfState

end Stratumind
