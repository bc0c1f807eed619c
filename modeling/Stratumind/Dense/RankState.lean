import Stratumind.Common.Iter
import Stratumind.Common.Types
import Stratumind.Lib.Assoc
import Stratumind.Lib.Loop
import Stratumind.Lib.MaxHeap
import Stratumind.Sparse.PostingList

/-!
# The exact Dense ranking state

Every eligible point has an interval for its exact score. Points are refined to their exact
score in the order of the upper ends, and a refined point is returned once no interval that is
left can beat it. Without intervals the state scores all points at the first call. Telemetry is
not modelled. A call that panics has no outcome.
-/

namespace Stratumind.Dense

open Lib

/-- Scores with a wider type for the ends of intervals: `f32` and `f64`. -/
class WideScore (S B : Type) [Score S] [Score B] where
  /-- `f64::from`. -/
  wide : S → B
  wide_strictMono : StrictMono wide
  /-- A score between finite ends is finite. -/
  isFinite_of_mem : ∀ {score : S} {lower upper : B}, Score.isFinite lower = true →
    Score.isFinite upper = true → lower ≤ wide score → wide score ≤ upper →
      Score.isFinite score = true
  /-- How a score is shown. -/
  display : S → String
  /-- How an end is shown. -/
  displayEnd : B → String

/-- Rational scores and ends. -/
instance : WideScore ℚ ℚ where
  wide := id
  wide_strictMono := strictMono_id
  isFinite_of_mem _ _ _ _ := rfl
  display score := toString score
  displayEnd value := toString value

/-- `PendingBound`: the interval of a point, `value` being its upper end. -/
structure PendingBound (B : Type) where
  id : ℕ
  lower : B
  value : B

/-- The order of the intervals: higher upper ends, then smaller ids. -/
def PendingBound.cmp {B : Type} [LinearOrder B] (self other : PendingBound B) : Ordering :=
  (compare self.value other.value).then (compare other.id self.id)

/-- The order of `PendingExact`: higher scores, then smaller offsets. -/
def pendingExactCmp {S : Type} [LinearOrder S] (self other : ScoredPointOffset S) : Ordering :=
  (compare self.score other.score).then (compare other.idx self.idx)

/-- `CertificateState`. -/
structure CertificateState (S B : Type) where
  exactRefineBatch : ℕ
  bounds : List (PendingBound B)
  exact : List (ScoredPointOffset S)
  exactScores : AList fun _ : ℕ => S

/-- `ExactScanState`. -/
structure ExactScanState (S : Type) where
  points : Option (List (ScoredPointOffset S))
  next : ℕ

/-- `DenseRankStateInner`. -/
inductive DenseRankStateInner (S B : Type) where
  | certificate (state : CertificateState S B)
  | scan (state : ExactScanState S)

/-- `EligibleUniverse`. -/
inductive EligibleUniverse where
  | explicit (points : List ℕ)
  | contiguous (count : ℕ)

/-- The eligible offsets. -/
def EligibleUniverse.ids : EligibleUniverse → List ℕ
  | .explicit points => points
  | .contiguous count => List.range count

/-- `DenseRankState`. -/
structure DenseRankState (S B : Type) where
  inner : DenseRankStateInner S B
  eligible : EligibleUniverse

/-- An exact scorer fills a score for each of the points it is asked for. -/
abbrev ExactScorer (W S : Type) :=
  W → (ids : List ℕ) → { scores : List S // scores.length = ids.length } × W

variable {W S B : Type} [Score S] [Score B]

/-! ### Construction -/

/-- Whether two neighbours are equal, as `windows(2)` finds them. -/
def hasEqualNeighbours (ids : List ℕ) : Bool :=
  (ids.zip ids.tail).any fun pair => pair.1 == pair.2

/-- An interval that is rejected. -/
def invalidInterval (lower upper : B) : Bool :=
  !Score.isFinite lower || !Score.isFinite upper || decide (upper < lower)

/-- `DenseRankState::from_certificate_bounds_batched`. -/
def DenseRankState.fromCertificateBoundsBatched (eligible : List ℕ) (bounds : List (ℕ × B × B))
    (exactRefineBatch : ℕ) : OperationResult (DenseRankState S B) :=
  if exactRefineBatch = 0 then
    .error (.validationError "exact Dense exact-refine batch must be positive")
  else
    let eligible := eligible.insertionSort (· ≤ ·)
    if hasEqualNeighbours eligible then
      .error (.inconsistentStorage "exact Dense session received duplicate eligible point offsets")
    else
      let boundIds := (bounds.map Prod.fst).insertionSort (· ≤ ·)
      if boundIds ≠ eligible ∨ bounds.any (fun bound => invalidInterval bound.2.1 bound.2.2) then
        .error (.inconsistentStorage
          "exact Dense session bounds do not match its eligible universe")
      else
        .ok
          { inner := .certificate
              { exactRefineBatch
                bounds := bounds.map fun bound => ⟨bound.1, bound.2.1, bound.2.2⟩
                exact := []
                exactScores := ∅ }
            eligible := .explicit eligible }

/-- `DenseRankState::from_contiguous_pending_batched`. -/
def DenseRankState.fromContiguousPendingBatched (pointCount : ℕ) (pending : List (PendingBound B))
    (exactRefineBatch : ℕ) : OperationResult (DenseRankState S B) :=
  if exactRefineBatch = 0 then
    .error (.validationError "exact Dense exact-refine batch must be positive")
  else if pointCount > pointOffsetMax + 1 then
    .error (.inconsistentStorage "contiguous exact Dense universe exceeds PointOffsetType")
  else if pending.length ≠ pointCount ∨ pending.zipIdx.any (fun (bound, ordinal) =>
      bound.id != ordinal || invalidInterval bound.lower bound.value) then
    .error (.inconsistentStorage
      "exact Dense Pending bounds do not match the contiguous eligible universe")
  else
    .ok
      { inner := .certificate { exactRefineBatch, bounds := pending, exact := [], exactScores := ∅ }
        eligible := .contiguous pointCount }

/-- `build_exact_scan_state`. -/
def buildExactScanState (eligible : List ℕ) : DenseRankState S B where
  inner := .scan { points := none, next := 0 }
  eligible := .explicit eligible

/-! ### Refinement -/

/-- The loop over the scores that have been filled in. -/
def CertificateState.storeScores (cursor : CertificateState S B) :
    List (ℕ × S) → OperationResult Unit × CertificateState S B
  | [] => (.ok (), cursor)
  | (id, score) :: scored =>
    if Score.isFinite score = false then
      (.error (.inconsistentStorage
        ("exact Dense exact scorer returned a non-finite score for point " ++ toString id)), cursor)
    else
      CertificateState.storeScores
        { cursor with exactScores := cursor.exactScores.insert id score } scored

/-- The text of the error about a score outside its interval. -/
def certificateViolated [WideScore S B] (bound : PendingBound B) (score : S) : String :=
  "exact Dense certificate violated for point " ++ toString bound.id ++ ": score " ++
    WideScore.display B score ++ ", interval [" ++ WideScore.displayEnd S bound.lower ++ ", " ++
    WideScore.displayEnd S bound.value ++ "]"

/-- The loop over the intervals of the refined points. -/
def CertificateState.pushExact [WideScore S B] (cursor : CertificateState S B) :
    List (PendingBound B) → Option (OperationResult Unit × CertificateState S B)
  | [] => some (.ok (), cursor)
  | bound :: bounds =>
    match cursor.exactScores.lookup bound.id with
    | none => none
    | some score =>
      if WideScore.wide score < bound.lower ∨ bound.value < WideScore.wide score then
        some (.error (.inconsistentStorage (certificateViolated bound score)), cursor)
      else
        CertificateState.pushExact
          { cursor with exact := ⟨bound.id, score⟩ :: cursor.exact } bounds

/-- `refine_bounds_with`. -/
def CertificateState.refineBoundsWith [WideScore S B] (cursor : CertificateState S B)
    (bounds : List (PendingBound B)) (exactScorer : ExactScorer W S) (world : W) :
    Option (OperationResult Unit × CertificateState S B × W) :=
  let unresolved := (bounds.map PendingBound.id).filter fun id =>
    (cursor.exactScores.lookup id).isNone
  let (stored, cursor, world) :=
    if unresolved.isEmpty then ((.ok ()), cursor, world)
    else
      let (scores, world) := exactScorer world unresolved
      let (stored, cursor) := cursor.storeScores (unresolved.zip scores.val)
      (stored, cursor, world)
  match stored with
  | .error error => some (.error error, cursor, world)
  | .ok () => (cursor.pushExact bounds).map fun (pushed, cursor) => (pushed, cursor, world)

/-- Pops up to `count` intervals. -/
def popBounds : ℕ → List (PendingBound B) → List (PendingBound B) × List (PendingBound B)
  | 0, bounds => ([], bounds)
  | count + 1, bounds =>
    match popMax PendingBound.cmp bounds with
    | none => ([], bounds)
    | some (bound, rest) =>
      let (popped, rest) := popBounds count rest
      (bound :: popped, rest)

/-! ### Batches -/

/-- No interval that is left can beat the first refined point. -/
def CertificateState.fixed [WideScore S B] (state : CertificateState S B) : Bool :=
  match peekMax pendingExactCmp state.exact with
  | none => false
  | some exact =>
    match peekMax PendingBound.cmp state.bounds with
    | none => true
    | some bound => decide (bound.value < (WideScore.wide exact.score : B)) ||
        (decide ((WideScore.wide exact.score : B) = bound.value) && decide (exact.idx < bound.id))

/-- Pops the first refined point. -/
def CertificateState.popExact (state : CertificateState S B) :
    Option (ScoredPointOffset S) × CertificateState S B :=
  match popMax pendingExactCmp state.exact with
  | none => (none, state)
  | some (point, rest) => (some point, { state with exact := rest })

/-- One turn of the loop that looks for the next point. -/
def CertificateState.turn [WideScore S B] (exactScorer : ExactScorer W S)
    (current : CertificateState S B × W) :
    Option (Turn (CertificateState S B × W)
      (OperationResult (Option (ScoredPointOffset S)) × CertificateState S B × W)) :=
  let (state, world) := current
  if state.fixed then
    let (point, state) := state.popExact
    some (.stop (.ok point, state, world))
  else
    match popMax PendingBound.cmp state.bounds with
    | none =>
      let (point, state) := state.popExact
      some (.stop (.ok point, state, world))
    | some (bound, bounds) =>
      let (popped, bounds) := popBounds (state.exactRefineBatch - 1) bounds
      match ({ state with bounds } : CertificateState S B).refineBoundsWith (bound :: popped)
          exactScorer world with
      | none => none
      | some (.error error, state, world) => some (.stop (.error error, state, world))
      | some (.ok (), state, world) => some (.again (state, world))

/-- The loop that looks for the next point. Each turn but the last pops an interval. -/
def CertificateState.nextPoint [WideScore S B] (exactScorer : ExactScorer W S)
    (state : CertificateState S B) (world : W) :
    Option (OperationResult (Option (ScoredPointOffset S)) × CertificateState S B × W) :=
  runLoop (CertificateState.turn exactScorer) (state.bounds.length + 1) (state, world)

/-- The next point of a scan, whose points have been scored. -/
def ExactScanState.nextPoint (cursor : ExactScanState S) :
    Option (Option (ScoredPointOffset S) × ExactScanState S) :=
  cursor.points.map fun points =>
    let point := points[cursor.next]?
    (point, { cursor with next := cursor.next + if point.isSome then 1 else 0 })

/-- The next point of either kind of state. -/
def DenseRankStateInner.nextPoint [WideScore S B] (exactScorer : ExactScorer W S)
    (inner : DenseRankStateInner S B) (world : W) :
    Option (OperationResult (Option (ScoredPointOffset S)) × DenseRankStateInner S B × W) :=
  match inner with
  | .scan cursor => cursor.nextPoint.map fun (point, cursor) => (.ok point, .scan cursor, world)
  | .certificate state => (state.nextPoint exactScorer world).map fun (point, state, world) =>
    (point, .certificate state, world)

/-- The loop that fills a batch. -/
def DenseRankStateInner.fill [WideScore S B] (exactScorer : ExactScorer W S) :
    ℕ → DenseRankStateInner S B → W →
      Option (OperationResult (List (ScoredPointOffset S)) × DenseRankStateInner S B × W)
  | 0, inner, world => some (.ok [], inner, world)
  | count + 1, inner, world =>
    match inner.nextPoint exactScorer world with
    | none => none
    | some (.error error, inner, world) => some (.error error, inner, world)
    | some (.ok none, inner, world) => some (.ok [], inner, world)
    | some (.ok (some point), inner, world) =>
      match DenseRankStateInner.fill exactScorer count inner world with
      | none => none
      | some (.error error, inner, world) => some (.error error, inner, world)
      | some (.ok points, inner, world) => some (.ok (point :: points), inner, world)

/-- The order in which a scan ranks its points. -/
def scanCmp (left right : ScoredPointOffset S) : Ordering :=
  (compare right.score left.score).then (compare left.idx right.idx)

/-- Scores the points of a scan if that has not been done. -/
def DenseRankState.prepare (exactScorer : ExactScorer W S) (state : DenseRankState S B)
    (world : W) : OperationResult Unit × DenseRankState S B × W :=
  match state.inner with
  | .scan { points := none, next } =>
    let ids := state.eligible.ids
    let (scores, world) := exactScorer world ids
    if scores.val.any fun score => !Score.isFinite score then
      (.error (.inconsistentStorage "exact Dense scorer returned a non-finite score"), state, world)
    else
      let ranked := sortBy scanCmp ((ids.zip scores.val).map fun (idx, score) => ⟨idx, score⟩)
      (.ok (), { state with inner := .scan { points := some ranked, next } }, world)
  | _ => (.ok (), state, world)

/-- `DenseRankState::next_batch_with`. -/
def DenseRankState.nextBatchWith [WideScore S B] (state : DenseRankState S B) (maxResults : ℕ)
    (exactScorer : ExactScorer W S) (world : W) :
    Option (OperationResult (List (ScoredPointOffset S)) × DenseRankState S B × W) :=
  if maxResults = 0 then
    some (.error (.validationError "exact Dense rank batch must be positive"), state, world)
  else
    match state.prepare exactScorer world with
    | (.error error, state, world) => some (.error error, state, world)
    | (.ok (), state, world) =>
      (state.inner.fill exactScorer maxResults world).map fun (points, inner, world) =>
        (points, { state with inner }, world)

/-- A session: one batch after the other, under the given limits. -/
def DenseRankState.session [WideScore S B] (exactScorer : ExactScorer W S) (limits : List ℕ)
    (state : DenseRankState S B) (world : W) :
    Option (List (OperationResult (List (ScoredPointOffset S))) × DenseRankState S B × W) :=
  calls (fun maxResults current => current.1.nextBatchWith maxResults exactScorer current.2) limits
    (state, world)

/-!
### Exactness of the Dense ranking state

A point that has not been refined scores no more than the upper end of its interval. So a
refined point that beats the first interval beats every point that has not been returned.
-/

open List

/-- The rank of a point: higher scores first, then smaller offsets. -/
def pointKey (point : ScoredPointOffset S) : Sᵒᵈ ×ₗ ℕ := rankKey point.score point.idx

/-- The rank that no point of an interval can precede. -/
def PendingBound.key (bound : PendingBound B) : Bᵒᵈ ×ₗ ℕ := rankKey bound.value bound.id

theorem pendingExactCmp_eq (a b : ScoredPointOffset S) :
    pendingExactCmp a b = compare (pointKey b) (pointKey a) :=
  compare_then_eq_compare_rankKey b.score a.score b.idx a.idx

theorem pendingBound_cmp (a b : PendingBound B) : PendingBound.cmp a b = compare b.key a.key :=
  compare_then_eq_compare_rankKey b.value a.value b.id a.id

theorem scanCmp_eq (a b : ScoredPointOffset S) : scanCmp a b = compare (pointKey a) (pointKey b) :=
  compare_then_eq_compare_rankKey a.score b.score a.idx b.idx

/-- A point with its exact score. -/
def scored (score : ℕ → S) (id : ℕ) : ScoredPointOffset S := ⟨id, score id⟩

/-- The eligible points in the order of their ranks. -/
def ranking (score : ℕ → S) (eligible : List ℕ) : List (ScoredPointOffset S) :=
  rankBy pointKey (eligible.map (scored score))

/-- The scorer of a score function that records the points it is asked for. -/
def recordingScorer (score : ℕ → S) : ExactScorer (List ℕ) S := fun asked ids =>
  (⟨ids.map score, length_map _⟩, asked ++ ids)

variable {ids : List ℕ}

omit [Score S] in
theorem nodup_map_pointKey (score : ℕ → S) (h : ids.Nodup) :
    ((ids.map (scored score)).map pointKey).Nodup := by
  rw [map_map]
  refine h.map fun id other heq => ?_
  exact (rankKey_inj.mp heq).2

/-! ### Refining -/

omit [Score B] in
theorem CertificateState.storeScores_ok {cursor next : CertificateState S B} {score : ℕ → S}
    (h : cursor.storeScores (ids.map fun id => (id, score id)) = (.ok (), next)) :
    ∃ exactScores, next = { cursor with exactScores } ∧
      ∀ id, exactScores.lookup id =
        if id ∈ ids then some (score id) else cursor.exactScores.lookup id := by
  induction ids generalizing cursor with
  | nil =>
    cases h
    exact ⟨_, rfl, fun id => (if_neg not_mem_nil).symm⟩
  | cons first ids ih =>
    rw [map_cons, CertificateState.storeScores] at h
    split at h
    · cases h
    obtain ⟨exactScores, rfl, hlookup⟩ := ih h
    refine ⟨exactScores, rfl, fun id => ?_⟩
    grind

omit [Score B] in
theorem CertificateState.exists_storeScores (cursor : CertificateState S B) {score : ℕ → S}
    (h : ∀ id ∈ ids, Score.isFinite (score id) = true) :
    ∃ next, cursor.storeScores (ids.map fun id => (id, score id)) = (.ok (), next) := by
  induction ids generalizing cursor with
  | nil => exact ⟨cursor, rfl⟩
  | cons first ids ih =>
    rw [map_cons, CertificateState.storeScores,
      if_neg (by rw [h first mem_cons_self]; exact Bool.noConfusion)]
    exact ih _ fun id hmem => h id (mem_cons_of_mem _ hmem)

/-- Of the eligible points those in `asked` have been scored, the scores are known, and the
others have intervals. -/
structure Scored (score : ℕ → S) (eligible : List ℕ) (state : CertificateState S B)
    (asked : List ℕ) : Prop where
  ids_perm : (asked ++ state.bounds.map PendingBound.id).Perm eligible
  known : ∀ id, state.exactScores.lookup id = if id ∈ asked then some (score id) else none
  finite : ∀ bound ∈ state.bounds,
    Score.isFinite bound.lower = true ∧ Score.isFinite bound.value = true

/-- The points that have not been returned: the refined ones and those with intervals. -/
def CertificateState.unread (score : ℕ → S) (state : CertificateState S B) :
    List (ScoredPointOffset S) :=
  state.exact ++ state.bounds.map fun bound => scored score bound.id

section Refining

variable [WideScore S B] {score : ℕ → S}

/-- The exact score lies in the interval. -/
def PendingBound.Within (score : ℕ → S) (bound : PendingBound B) : Prop :=
  bound.lower ≤ WideScore.wide (score bound.id) ∧ WideScore.wide (score bound.id) ≤ bound.value

/-- Intervals that hold have been refined, and nothing has been returned. -/
def Refines (score : ℕ → S) (state next : CertificateState S B) : Prop :=
  (∃ popped, state.bounds.Perm (popped ++ next.bounds) ∧ ∀ bound ∈ popped, bound.Within score) ∧
    (next.unread score).Perm (state.unread score)

theorem Refines.trans {first second third : CertificateState S B} (h : Refines score first second)
    (h' : Refines score second third) : Refines score first third := by
  obtain ⟨⟨popped, hperm, hwithin⟩, hunread⟩ := h
  obtain ⟨⟨popped', hperm', hwithin'⟩, hunread'⟩ := h'
  refine ⟨⟨popped ++ popped', ?_, forall_mem_append.mpr ⟨hwithin, hwithin'⟩⟩,
    hunread'.trans hunread⟩
  rw [append_assoc]
  exact hperm.trans (hperm'.append_left popped)

/-- How the loop ends: with the first refined point, with nothing left, or because a score lies
outside its interval. -/
inductive Stops (score : ℕ → S) (state : CertificateState S B) (asked : List ℕ) :
    OperationResult (Option (ScoredPointOffset S)) × CertificateState S B × List ℕ → Prop
  | emit {point : ScoredPointOffset S} {exact : List (ScoredPointOffset S)}
      (hpop : popMax pendingExactCmp state.exact = some (point, exact))
      (hfixed : state.fixed = true ∨ state.bounds = []) :
      Stops score state asked (.ok (some point), { state with exact }, asked)
  | finish (hexact : state.exact = []) (hbounds : state.bounds = []) :
      Stops score state asked (.ok none, state, asked)
  | violate {bound : PendingBound B} (hmem : bound ∈ state.bounds) (hoff : ¬bound.Within score)
      (error : OperationError) (next : CertificateState S B) (world : List ℕ) :
      Stops score state asked (.error error, next, world)

/-- Refined points are pushed as long as their scores lie in their intervals. -/
theorem CertificateState.pushExact_cases (cursor : CertificateState S B)
    {bounds : List (PendingBound B)}
    (hknown : ∀ bound ∈ bounds, cursor.exactScores.lookup bound.id = some (score bound.id)) :
    ((∀ bound ∈ bounds, bound.Within score) ∧ cursor.pushExact bounds = some (.ok (), { cursor with
        exact := (bounds.map fun bound => scored score bound.id).reverse ++ cursor.exact })) ∨
    ∃ bound ∈ bounds, ¬bound.Within score ∧
      ∃ error next, cursor.pushExact bounds = some (.error error, next) := by
  induction bounds generalizing cursor with
  | nil => exact Or.inl ⟨nofun, rfl⟩
  | cons bound bounds ih =>
    rw [CertificateState.pushExact, hknown bound mem_cons_self]
    dsimp only
    have hcases : WideScore.wide (score bound.id) < bound.lower ∨
        bound.value < WideScore.wide (score bound.id) ↔ ¬bound.Within score := by
      rw [PendingBound.Within, not_and_or, not_le, not_le]
    split
    · rename_i houtside
      exact Or.inr ⟨bound, mem_cons_self, hcases.mp houtside, _, _, rfl⟩
    rename_i hinside
    rcases ih { cursor with exact := ⟨bound.id, score bound.id⟩ :: cursor.exact }
        (fun other hmem => hknown other (mem_cons_of_mem _ hmem)) with
      ⟨hall, hpush⟩ | ⟨other, hmem, hother⟩
    · refine Or.inl ⟨forall_mem_cons.mpr ⟨not_not.mp (mt hcases.mpr hinside), hall⟩, ?_⟩
      rw [hpush, map_cons, reverse_cons, append_assoc]
      rfl
    · exact Or.inr ⟨other, mem_cons_of_mem _ hmem, hother⟩

/-- Popping several intervals splits the heap. -/
theorem popBounds_perm (count : ℕ) (bounds : List (PendingBound B)) :
    bounds.Perm ((popBounds count bounds).1 ++ (popBounds count bounds).2) := by
  induction count generalizing bounds with
  | zero => exact Perm.refl _
  | succ count ih =>
    rw [popBounds]
    split
    · exact Perm.refl _
    · rename_i bound rest hpop
      exact (popMax_perm hpop).trans ((ih rest).cons _)

namespace Scored

variable {eligible asked : List ℕ} {state : CertificateState S B}
  (h : Scored score eligible state asked) (hnodup : eligible.Nodup)
include h

omit [WideScore S B] [Score S] in
theorem asked_subset : asked ⊆ eligible :=
  fun _ hmem => h.ids_perm.mem_iff.mp (mem_append_left _ hmem)

include hnodup

omit [WideScore S B] [Score S] in
theorem asked_nodup : asked.Nodup :=
  (nodup_append.mp (h.ids_perm.nodup_iff.mpr hnodup)).1

/-- Refining some of the intervals, whose points have not been scored. -/
private theorem refine {popped rest : List (PendingBound B)}
    (hperm : state.bounds.Perm (popped ++ rest)) (hne : popped ≠ []) :
    (∃ next asked', ({ state with bounds := rest } : CertificateState S B).refineBoundsWith popped
          (recordingScorer score) asked = some (.ok (), next, asked') ∧
      Scored score eligible next asked' ∧ Refines score state next ∧ next.bounds = rest) ∨
    ∃ bound ∈ popped, ¬bound.Within score ∧ ∃ error next world,
      ({ state with bounds := rest } : CertificateState S B).refineBoundsWith popped
          (recordingScorer score) asked = some (.error error, next, world) := by
  have hids : (asked ++ (popped.map PendingBound.id ++ rest.map PendingBound.id)).Perm
      eligible := by
    rw [← map_append]
    exact ((hperm.map PendingBound.id).symm.append_left asked).trans h.ids_perm
  have hdistinct := hids.nodup_iff.mpr hnodup
  have hunresolved : (popped.map PendingBound.id).filter
      (fun id => (state.exactScores.lookup id).isNone) = popped.map PendingBound.id := by
    refine filter_eq_self.mpr fun id hmem => ?_
    have hfresh : id ∉ asked :=
      fun hasked => disjoint_of_nodup_append hdistinct hasked (mem_append_left _ hmem)
    rw [h.known id, if_neg hfresh]
    rfl
  have hzip : (popped.map PendingBound.id).zip ((popped.map PendingBound.id).map score) =
      (popped.map PendingBound.id).map fun id => (id, score id) :=
    map_prod_left_eq_zip.symm
  unfold CertificateState.refineBoundsWith
  dsimp only
  rw [hunresolved, if_neg (by simpa using hne)]
  dsimp only [recordingScorer]
  rw [hzip]
  generalize hstore : CertificateState.storeScores ({ state with bounds := rest })
    ((popped.map PendingBound.id).map fun id => (id, score id)) = stored
  obtain ⟨result, cursor⟩ := stored
  cases result with
  | error error =>
    -- all scores in the intervals would be finite
    by_contra hnone
    have hfinite : ∀ id ∈ popped.map PendingBound.id, Score.isFinite (score id) = true := by
      intro id hmem
      obtain ⟨bound, hbound, rfl⟩ := mem_map.mp hmem
      obtain ⟨hlower, hupper⟩ := h.finite bound (hperm.mem_iff.mpr (mem_append_left _ hbound))
      have hwithin : bound.Within score := by
        by_contra hoff
        exact hnone (Or.inr ⟨bound, hbound, hoff, error, _, _, rfl⟩)
      exact WideScore.isFinite_of_mem hlower hupper hwithin.1 hwithin.2
    obtain ⟨next, hok⟩ := CertificateState.exists_storeScores
      ({ state with bounds := rest } : CertificateState S B) hfinite
    rw [hok] at hstore
    cases hstore
  | ok _ =>
    obtain ⟨exactScores, rfl, hlookup⟩ := CertificateState.storeScores_ok hstore
    have hknown : ∀ bound ∈ popped, exactScores.lookup bound.id = some (score bound.id) :=
      fun bound hmem => by rw [hlookup, if_pos (mem_map_of_mem hmem)]
    rcases CertificateState.pushExact_cases
        (⟨state.exactRefineBatch, rest, state.exact, exactScores⟩ : CertificateState S B)
        hknown with
      ⟨hall, hpush⟩ | ⟨bound, hmem, hviolated, error, next, hpush⟩
    · refine Or.inl ⟨_, _, by rw [hpush]; rfl, ⟨?_, ?_, ?_⟩, ⟨⟨popped, hperm, hall⟩, ?_⟩, rfl⟩
      · rw [append_assoc]
        exact hids
      · intro id
        rw [hlookup, h.known id]
        grind
      · exact fun bound hmem => h.finite bound (hperm.mem_iff.mpr (mem_append_right _ hmem))
      · have hbounds := (hperm.map fun bound => scored score bound.id).symm
        rw [map_append] at hbounds
        calc (popped.map fun bound => scored score bound.id).reverse ++ state.exact ++
              rest.map (fun bound => scored score bound.id)
            |>.Perm (state.exact ++ popped.map (fun bound => scored score bound.id) ++
              rest.map fun bound => scored score bound.id) :=
              (((reverse_perm _).append_right _).trans perm_append_comm).append_right _
          _ |>.Perm (state.exact ++ state.bounds.map fun bound => scored score bound.id) := by
              rw [append_assoc]
              exact hbounds.append_left _
    · exact Or.inr ⟨bound, hmem, hviolated, error, next, _, by rw [hpush]; rfl⟩

/-- A turn ends the loop or refines intervals. -/
theorem turn_cases :
    (∃ result, CertificateState.turn (recordingScorer score) (state, asked) =
        some (.stop result) ∧ Stops score state asked result) ∨
    ∃ next, CertificateState.turn (recordingScorer score) (state, asked) = some (.again next) ∧
      Scored score eligible next.1 next.2 ∧ Refines score state next.1 ∧
      next.1.bounds.length < state.bounds.length := by
  unfold CertificateState.turn CertificateState.popExact
  dsimp only
  cases hfixed : state.fixed with
  | true =>
    cases hpop : popMax pendingExactCmp state.exact with
    | none =>
      -- nothing is fixed without a refined point
      unfold CertificateState.fixed peekMax at hfixed
      rw [hpop] at hfixed
      cases hfixed
    | some popped => exact Or.inl ⟨_, rfl, .emit hpop (Or.inl hfixed)⟩
  | false =>
    rw [if_neg Bool.false_ne_true]
    cases hbounds : popMax PendingBound.cmp state.bounds with
    | none =>
      have hnil := popMax_eq_none.mp hbounds
      cases hpop : popMax pendingExactCmp state.exact with
      | none => exact Or.inl ⟨_, rfl, .finish (popMax_eq_none.mp hpop) hnil⟩
      | some popped => exact Or.inl ⟨_, rfl, .emit hpop (Or.inr hnil)⟩
    | some popped =>
      obtain ⟨bound, others⟩ := popped
      dsimp only
      have hperm : state.bounds.Perm (bound :: (popBounds (state.exactRefineBatch - 1) others).1 ++
          (popBounds (state.exactRefineBatch - 1) others).2) :=
        (popMax_perm hbounds).trans ((popBounds_perm _ others).cons _)
      rcases h.refine hnodup hperm (cons_ne_nil _ _) with
        ⟨next, asked', hrun, hscored, hrefines, hrest⟩ |
        ⟨violated, hmem, hoff, error, next, world, hrun⟩
      · refine Or.inr ⟨(next, asked'), by rw [hrun], hscored, hrefines, ?_⟩
        rw [hrest, hperm.length_eq, length_append, length_cons]
        omega
      · exact Or.inl ⟨_, by rw [hrun], .violate (hperm.mem_iff.mpr (mem_append_left _ hmem)) hoff
          error next world⟩

/-- The loop refines intervals until it ends. -/
theorem nextPoint : ∃ result final asked',
    state.nextPoint (recordingScorer score) asked = some result ∧
      Scored score eligible final asked' ∧ Refines score state final ∧
      Stops score final asked' result := by
  let inv := fun current : CertificateState S B × List ℕ =>
    Scored score eligible current.1 current.2 ∧ Refines score state current.1
  have hturn : ∀ current, inv current →
      (∃ result, CertificateState.turn (recordingScorer score) current = some (.stop result) ∧
        ∃ final asked', inv (final, asked') ∧ Stops score final asked' result) ∨
      ∃ next, CertificateState.turn (recordingScorer score) current = some (.again next) ∧
        inv next ∧ next.1.bounds.length < current.1.bounds.length := by
    rintro ⟨current, asked⟩ ⟨hscored, hrefines⟩
    rcases hscored.turn_cases hnodup with
      ⟨result, hstop, hstops⟩ | ⟨next, hagain, hnext, hrefines', hlength⟩
    · exact Or.inl ⟨result, hstop, current, asked, ⟨hscored, hrefines⟩, hstops⟩
    · exact Or.inr ⟨next, hagain, ⟨hnext, hrefines.trans hrefines'⟩, hlength⟩
  have hstart : inv (state, asked) := ⟨h, ⟨[], Perm.refl _, by simp⟩, Perm.refl _⟩
  -- the measure is the number of intervals
  obtain ⟨result, ⟨final, asked', ⟨hscored, hrefines⟩, hstops⟩, hrun⟩ :=
    exists_runLoop (fun current => current.1.bounds.length) hturn hstart
  exact ⟨result, final, asked', hrun _ (Nat.lt_succ_self _), hscored, hrefines, hstops⟩

end Scored

/-! ### Returning points in order -/

/-- A fixed point comes before every point with an interval. -/
theorem CertificateState.key_lt_of_fixed {state : CertificateState S B} (h : state.fixed = true)
    {point : ScoredPointOffset S} {exact : List (ScoredPointOffset S)}
    (hpop : popMax pendingExactCmp state.exact = some (point, exact)) {bound : PendingBound B}
    (hmem : bound ∈ state.bounds) (hwithin : bound.Within score) :
    pointKey point < pointKey (scored score bound.id) := by
  unfold CertificateState.fixed peekMax at h
  rw [hpop] at h
  cases hbounds : popMax PendingBound.cmp state.bounds with
  | none =>
    rw [popMax_eq_none.mp hbounds] at hmem
    cases hmem
  | some popped =>
    obtain ⟨top, rest⟩ := popped
    rw [hbounds] at h
    simp only [Option.map_some, Bool.or_eq_true, Bool.and_eq_true, decide_eq_true_eq] at h
    have htop : top.key ≤ bound.key := by
      rcases mem_cons.mp ((popMax_perm hbounds).mem_iff.mp hmem) with rfl | hrest
      · exact le_refl _
      · exact popMax_key_le pendingBound_cmp hbounds bound hrest
    have hvalue : bound.value ≤ top.value ∧ (bound.value = top.value → top.id ≤ bound.id) := by
      rcases rankKey_le_iff.mp htop with hlt | ⟨heq, hle⟩
      · exact ⟨hlt.le, fun heq => absurd heq hlt.ne⟩
      · exact ⟨heq.ge, fun _ => hle⟩
    have hwide : (WideScore.wide (score bound.id) : B) ≤ top.value := hwithin.2.trans hvalue.1
    refine rankKey_lt_iff.mpr ?_
    rcases h with hlt | ⟨heq, hidx⟩
    · exact Or.inl (WideScore.wide_strictMono.lt_iff_lt.mp (hwide.trans_lt hlt))
    rcases hwide.lt_or_eq with hlt | hscore
    · exact Or.inl (WideScore.wide_strictMono.lt_iff_lt.mp (hlt.trans_eq heq.symm))
    refine Or.inr ⟨?_, ?_⟩
    · exact WideScore.wide_strictMono.injective (heq.trans hscore.symm)
    · have hbound : bound.value = top.value := le_antisymm hvalue.1 (hscore ▸ hwithin.2)
      exact hidx.trans_le (hvalue.2 hbound)

/-- The points that have not been returned rank as the rest, and their scores lie in their
intervals. -/
structure Refining (score : ℕ → S) (eligible : List ℕ) (rest : List (ScoredPointOffset S))
    (state : CertificateState S B) (asked : List ℕ) : Prop
    extends Scored score eligible state asked where
  within : ∀ bound ∈ state.bounds, bound.Within score
  distinct : ((state.unread score).map pointKey).Nodup
  rest_eq : rest = rankBy pointKey (state.unread score)

/-- The first refined point comes before all others. -/
private theorem rankBy_emit {state : CertificateState S B}
    (hwithin : ∀ bound ∈ state.bounds, bound.Within score)
    (hdistinct : ((state.unread score).map pointKey).Nodup) {point : ScoredPointOffset S}
    {exact : List (ScoredPointOffset S)}
    (hpop : popMax pendingExactCmp state.exact = some (point, exact))
    (hfixed : state.fixed = true ∨ state.bounds = []) :
    rankBy pointKey (state.unread score) =
        point :: rankBy pointKey (({ state with exact } : CertificateState S B).unread score) ∧
      ((({ state with exact } : CertificateState S B).unread score).map pointKey).Nodup := by
  have hsplit : (state.unread score).Perm
      (point :: ({ state with exact } : CertificateState S B).unread score) :=
    (popMax_perm hpop).append_right _
  have hkeys := (hsplit.map pointKey).nodup_iff.mp hdistinct
  rw [map_cons, nodup_cons] at hkeys
  refine ⟨(Ranked.eq_rankBy (ranked_cons.mpr ⟨fun later hlater => ?_, ranked_rankBy hkeys.2⟩)
    hdistinct fun other => ?_).symm, hkeys.2⟩
  · have hlater := mem_rankBy.mp hlater
    rcases mem_append.mp hlater with hexact | hbound
    · refine lt_of_le_of_ne (popMax_key_le pendingExactCmp_eq hpop later hexact) fun heq => ?_
      exact hkeys.1 (heq ▸ mem_map_of_mem hlater)
    · obtain ⟨bound, hmem, rfl⟩ := mem_map.mp hbound
      rcases hfixed with hfixed | hnil
      · exact CertificateState.key_lt_of_fixed hfixed hpop hmem (hwithin bound hmem)
      · rw [hnil] at hmem
        cases hmem
  · rw [hsplit.mem_iff, mem_cons, mem_cons, mem_rankBy]

/-- The loop returns the next point of the rest. -/
theorem Refining.nextPoint {eligible asked : List ℕ} {rest : List (ScoredPointOffset S)}
    {state : CertificateState S B} (h : Refining score eligible rest state asked)
    (hnodup : eligible.Nodup) :
    ∃ next asked', state.nextPoint (recordingScorer score) asked =
        some (.ok rest.head?, next, asked') ∧ Refining score eligible rest.tail next asked' := by
  obtain ⟨result, final, asked', hrun, hscored, ⟨⟨popped, hperm, -⟩, hunread⟩, hstops⟩ :=
    h.toScored.nextPoint hnodup
  have hwithin : ∀ bound ∈ final.bounds, bound.Within score :=
    fun bound hmem => h.within bound (hperm.mem_iff.mpr (mem_append_right _ hmem))
  have hdistinct := (hunread.map pointKey).nodup_iff.mpr h.distinct
  have hrest : rest = rankBy pointKey (final.unread score) := by
    rw [h.rest_eq]
    exact (ranked_rankBy h.distinct).eq_rankBy hdistinct fun point => by
      rw [mem_rankBy, hunread.mem_iff]
  cases hstops with
  | @emit point exact hpop hfixed =>
    obtain ⟨hcons, hkeys⟩ := rankBy_emit hwithin hdistinct hpop hfixed
    rw [hrest, hcons]
    exact ⟨_, asked', hrun, ⟨hscored.ids_perm, hscored.known, hscored.finite⟩, hwithin, hkeys, rfl⟩
  | finish hexact hbounds =>
    have hnil : final.unread score = [] := by
      rw [CertificateState.unread, hexact, hbounds]
      rfl
    rw [hrest, hnil]
    exact ⟨final, asked', hrun, hscored, hwithin, hdistinct, by rw [hnil]; rfl⟩
  | violate hmem hoff => exact absurd (hwithin _ hmem) hoff

end Refining

end Stratumind.Dense
