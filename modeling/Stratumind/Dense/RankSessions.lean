import Stratumind.Dense.RankState

/-!
# Sessions of the Dense ranking state

The batches of a session are the consecutive parts of the ranking, whether the points are refined
from intervals or scored at once. A score outside its interval is never passed over.
-/

namespace Stratumind.Dense

open Lib List

variable {S B : Type} [Score S] [Score B] [WideScore S B] {score : ℕ → S}

/-! ### Intervals -/

variable {eligible : List ℕ}

/-- A batch is filled with the next points of the rest. -/
private theorem Refining.fill (hnodup : eligible.Nodup) (count : ℕ)
    {rest : List (ScoredPointOffset S)} {state : CertificateState S B} {asked : List ℕ}
    (h : Refining score eligible rest state asked) :
    ∃ next asked', DenseRankStateInner.fill (recordingScorer score) count (.certificate state)
        asked = some (.ok (rest.take count), .certificate next, asked') ∧
      Refining score eligible (rest.drop count) next asked' := by
  induction count generalizing rest state asked with
  | zero => exact ⟨state, asked, rfl, h⟩
  | succ count ih =>
    obtain ⟨next, asked', hrun, hnext⟩ := h.nextPoint hnodup
    rw [DenseRankStateInner.fill, DenseRankStateInner.nextPoint, hrun]
    cases rest with
    | nil => exact ⟨next, asked', rfl, hnext⟩
    | cons point rest =>
      obtain ⟨final, asked'', hfill, hfinal⟩ := ih hnext
      refine ⟨final, asked'', ?_, hfinal⟩
      dsimp only [Option.map_some, head?_cons]
      rw [hfill]
      rfl

/-- The state has the rest of the ranking still to return. -/
def Certifies (score : ℕ → S) (eligible : List ℕ) (rest : List (ScoredPointOffset S))
    (current : DenseRankState S B × List ℕ) : Prop :=
  ∃ certificate, current.1.inner = .certificate certificate ∧
    Refining score eligible rest certificate current.2

/-- A batch is the next part of the ranking. -/
theorem Certifies.nextBatchWith (hnodup : eligible.Nodup) (rest : List (ScoredPointOffset S))
    (current : DenseRankState S B × List ℕ) (maxResults : ℕ) (hpos : 0 < maxResults)
    (h : Certifies score eligible rest current) :
    ∃ next, current.1.nextBatchWith maxResults (recordingScorer score) current.2 =
        some (.ok (rest.take maxResults), next) ∧
      Certifies score eligible (rest.drop maxResults) next := by
  obtain ⟨⟨inner, offsets⟩, asked⟩ := current
  obtain ⟨certificate, hinner, hrefining⟩ := h
  obtain rfl : inner = .certificate certificate := hinner
  obtain ⟨next, asked', hfill, hnext⟩ := hrefining.fill hnodup maxResults
  refine ⟨(⟨.certificate next, offsets⟩, asked'), ?_, next, rfl, hnext⟩
  unfold DenseRankState.nextBatchWith DenseRankState.prepare
  rw [if_neg (by omega)]
  dsimp only
  rw [hfill]
  rfl

variable {bounds : List (PendingBound B)} (hnodup : eligible.Nodup)
  (hids : (bounds.map PendingBound.id).Perm eligible)
  (hfinite : ∀ bound ∈ bounds,
    Score.isFinite bound.lower = true ∧ Score.isFinite bound.value = true)

omit [Score S] [WideScore S B] in
include hids hfinite in
/-- A state with an interval for each eligible point, none of which has been refined. -/
private theorem scored_init (exactRefineBatch : ℕ) :
    Scored score eligible (⟨exactRefineBatch, bounds, [], ∅⟩ : CertificateState S B) [] where
  ids_perm := hids
  known := AList.lookup_empty
  finite := hfinite

omit [Score S] [Score B] [WideScore S B] in
include hids in
private theorem unread_init (exactRefineBatch : ℕ) :
    ((⟨exactRefineBatch, bounds, [], ∅⟩ : CertificateState S B).unread score).Perm
      (eligible.map (scored score)) := by
  have hperm := hids.map (scored score)
  rwa [map_map] at hperm

variable (hwithin : ∀ bound ∈ bounds, bound.Within score) (exactRefineBatch : ℕ)
  (offsets : EligibleUniverse)

include hnodup hids hfinite hwithin

/-- A new state with an interval for each eligible point has the whole ranking to return. -/
theorem certifies_init :
    Certifies score eligible (ranking score eligible)
      ((⟨.certificate ⟨exactRefineBatch, bounds, [], ∅⟩, offsets⟩ : DenseRankState S B), []) := by
  have hunread := @unread_init S B score eligible bounds hids exactRefineBatch
  have hdistinct := nodup_map_pointKey score hnodup
  have hkeys := (hunread.map pointKey).nodup_iff.mpr hdistinct
  refine ⟨_, rfl, scored_init hids hfinite exactRefineBatch, hwithin, hkeys, ?_⟩
  exact (ranked_rankBy hdistinct).eq_rankBy hkeys fun point => by
    rw [mem_rankBy, hunread.mem_iff]

variable {limits : List ℕ}

/-- A session over intervals that hold returns the parts of the ranking. -/
theorem certificate_session (hlimits : ∀ limit ∈ limits, 0 < limit) :
    ∃ next asked, DenseRankState.session (recordingScorer score) limits
        (⟨.certificate ⟨exactRefineBatch, bounds, [], ∅⟩, offsets⟩ : DenseRankState S B) [] =
          some ((slices (ranking score eligible) limits).map .ok, next, asked) ∧
      asked.Nodup ∧ asked ⊆ eligible := by
  obtain ⟨⟨next, asked⟩, hsession, _, _, hrefining⟩ :=
    calls_slices (Certifies.nextBatchWith hnodup) hlimits
      (certifies_init hnodup hids hfinite hwithin exactRefineBatch offsets)
  exact ⟨next, asked, hsession, hrefining.asked_nodup hnodup, hrefining.asked_subset⟩

omit hnodup hids hfinite hwithin

/-! ### Scans -/

/-- The scan has the rest of the ranking still to return. -/
def Scans (score : ℕ → S) (eligible : List ℕ) (rest : List (ScoredPointOffset S))
    (current : DenseRankState S B × List ℕ) : Prop :=
  current.1.eligible = .explicit eligible ∧
    ((current.1.inner = .scan ⟨none, 0⟩ ∧ rest = ranking score eligible ∧ current.2 = []) ∨
      ∃ next, current.1.inner = .scan ⟨some (ranking score eligible), next⟩ ∧
        rest = (ranking score eligible).drop next ∧ current.2 = eligible)

private theorem fill_scan (points : List (ScoredPointOffset S)) (asked : List ℕ) (count next : ℕ) :
    ∃ after, DenseRankStateInner.fill (recordingScorer score) count
        (.scan ⟨some points, next⟩ : DenseRankStateInner S B) asked =
          some (.ok ((points.drop next).take count), .scan ⟨some points, after⟩, asked) ∧
      points.drop after = (points.drop next).drop count := by
  induction count generalizing next with
  | zero => exact ⟨next, rfl, rfl⟩
  | succ count ih =>
    unfold DenseRankStateInner.fill DenseRankStateInner.nextPoint ExactScanState.nextPoint
    dsimp only [Option.map_some]
    cases hget : points[next]? with
    | none =>
      have hnil : points.drop next = [] :=
        drop_of_length_le (getElem?_eq_none_iff.mp hget)
      refine ⟨next, ?_, ?_⟩
      · rw [hnil]
        rfl
      · rw [hnil, drop_nil]
    | some point =>
      obtain ⟨hlt, hpoint⟩ := List.getElem?_eq_some_iff.mp hget
      have hdrop : points.drop next = point :: points.drop (next + 1) := by
        rw [drop_eq_getElem_cons hlt, hpoint]
      obtain ⟨after, hfill, hafter⟩ := ih (next + 1)
      grind

/-- A batch is the next part of the ranking. -/
theorem Scans.nextBatchWith (hfinite : ∀ id ∈ eligible, Score.isFinite (score id) = true)
    (rest : List (ScoredPointOffset S)) (current : DenseRankState S B × List ℕ) (maxResults : ℕ)
    (hpos : 0 < maxResults) (h : Scans score eligible rest current) :
    ∃ next, current.1.nextBatchWith maxResults (recordingScorer score) current.2 =
        some (.ok (rest.take maxResults), next) ∧
      Scans score eligible (rest.drop maxResults) next := by
  obtain ⟨⟨inner, offsets⟩, asked⟩ := current
  obtain ⟨heligible, h⟩ := h
  dsimp only at heligible h
  subst heligible
  -- after the first call the points are ranked
  have hprepare : ∃ next, DenseRankState.prepare (recordingScorer score)
      (⟨inner, .explicit eligible⟩ : DenseRankState S B) asked =
        (.ok (), ⟨.scan ⟨some (ranking score eligible), next⟩, .explicit eligible⟩, eligible) ∧
      rest = (ranking score eligible).drop next := by
    rcases h with ⟨rfl, rfl, rfl⟩ | ⟨next, rfl, hrest, rfl⟩
    · refine ⟨0, ?_, rfl⟩
      have hall : ((eligible.map score).any fun score => !Score.isFinite score) = false := by
        grind
      unfold DenseRankState.prepare
      dsimp only [recordingScorer, EligibleUniverse.ids]
      rw [hall, if_neg Bool.false_ne_true, sortBy_eq_rankBy scanCmp_eq, ← map_prod_left_eq_zip,
        map_map, nil_append]
      rfl
    · exact ⟨next, rfl, hrest⟩
  obtain ⟨next, hprepare, rfl⟩ := hprepare
  obtain ⟨after, hfill, hafter⟩ :=
    @fill_scan S B _ _ _ score (ranking score eligible) eligible maxResults next
  refine ⟨(⟨.scan ⟨some (ranking score eligible), after⟩, .explicit eligible⟩, eligible), ?_, rfl,
    Or.inr ⟨after, rfl, hafter.symm, rfl⟩⟩
  unfold DenseRankState.nextBatchWith
  rw [if_neg (by omega), hprepare]
  dsimp only
  rw [hfill]
  rfl

/-- A session of a scan returns the parts of the ranking. -/
theorem scan_session (hnodup : eligible.Nodup)
    (hfinite : ∀ id ∈ eligible, Score.isFinite (score id) = true)
    (hlimits : ∀ limit ∈ limits, 0 < limit) :
    ∃ next asked, DenseRankState.session (recordingScorer score) limits
        (buildExactScanState eligible : DenseRankState S B) [] =
          some ((slices (ranking score eligible) limits).map .ok, next, asked) ∧
      asked.Nodup ∧ asked ⊆ eligible := by
  have hstart : Scans score eligible (ranking score eligible)
      ((buildExactScanState eligible : DenseRankState S B), []) :=
    ⟨rfl, Or.inl ⟨rfl, rfl, rfl⟩⟩
  obtain ⟨⟨next, asked⟩, hsession, -, hscans⟩ :=
    calls_slices (Scans.nextBatchWith hfinite) hlimits hstart
  refine ⟨next, asked, hsession, ?_⟩
  grind

/-! ### Violated intervals -/

/-- An interval that does not hold has not been refined, after some points were returned. -/
private structure Violated (score : ℕ → S) (eligible : List ℕ) (emitted : ℕ)
    (state : CertificateState S B) (asked : List ℕ) : Prop
    extends Scored score eligible state asked where
  violated : ∃ bound ∈ state.bounds, ¬bound.Within score
  count : emitted + (state.unread score).length = eligible.length

variable {emitted : ℕ} {asked asked' : List ℕ}

private theorem Violated.nextPoint {state : CertificateState S B}
    (h : Violated score eligible emitted state asked) (hnodup : eligible.Nodup)
    {point : Option (ScoredPointOffset S)} {next : CertificateState S B}
    (hrun : state.nextPoint (recordingScorer score) asked = some (.ok point, next, asked')) :
    ∃ found, point = some found ∧ Violated score eligible (emitted + 1) next asked' := by
  obtain ⟨result, final, asked'', hresult, hscored, ⟨⟨popped, hperm, hwithin⟩, hunread⟩, hstops⟩ :=
    h.toScored.nextPoint hnodup
  obtain rfl := Option.some.inj (hresult.symm.trans hrun)
  obtain ⟨bound, hmem, hoff⟩ := h.violated
  -- the interval is not among those that were refined
  have hmem : bound ∈ final.bounds :=
    (mem_append.mp (hperm.mem_iff.mp hmem)).resolve_left fun hpopped => hoff (hwithin bound hpopped)
  cases hstops with
  | @emit found exact hpop hfixed =>
    refine ⟨found, rfl, ⟨hscored.ids_perm, hscored.known, hscored.finite⟩, ⟨bound, hmem, hoff⟩, ?_⟩
    have hcount := h.count
    rw [← hunread.length_eq, CertificateState.unread, length_append,
      (popMax_perm hpop).length_eq, length_cons] at hcount
    rw [CertificateState.unread, length_append]
    dsimp only
    omega
  | finish hexact hbounds =>
    rw [hbounds] at hmem
    cases hmem

private theorem Violated.fill {state : CertificateState S B}
    (h : Violated score eligible emitted state asked) (hnodup : eligible.Nodup) {count : ℕ}
    {points : List (ScoredPointOffset S)} {inner : DenseRankStateInner S B}
    (hrun : DenseRankStateInner.fill (recordingScorer score) count (.certificate state) asked =
      some (.ok points, inner, asked')) :
    points.length = count ∧ ∃ next, inner = .certificate next ∧
      Violated score eligible (emitted + count) next asked' := by
  induction count generalizing emitted state asked points with
  | zero =>
    cases hrun
    exact ⟨rfl, state, rfl, h⟩
  | succ count ih =>
    rw [DenseRankStateInner.fill, DenseRankStateInner.nextPoint] at hrun
    cases hnext : state.nextPoint (recordingScorer score) asked with
    | none =>
      rw [hnext] at hrun
      cases hrun
    | some result =>
      obtain ⟨result, next, asked⟩ := result
      rw [hnext] at hrun
      cases result with
      | error error => cases hrun
      | ok point =>
        obtain ⟨found, rfl, hviolated⟩ := h.nextPoint hnodup hnext
        grind

variable {state : DenseRankState S B}

/-- A session without errors over an interval that does not hold returns full batches only, and
never all points. -/
private theorem violated_session (hnodup : eligible.Nodup) {certificate : CertificateState S B}
    (hinner : state.inner = .certificate certificate)
    (h : Violated score eligible emitted certificate asked)
    {batches : List (List (ScoredPointOffset S))} {next : DenseRankState S B}
    (hrun : state.session (recordingScorer score) limits asked =
      some (batches.map .ok, next, asked')) :
    batches.map length = limits ∧ emitted + limits.sum < eligible.length := by
  unfold DenseRankState.session at hrun
  induction limits generalizing state certificate asked emitted batches with
  | nil =>
    obtain ⟨hbatches, -⟩ := Prod.mk.inj (Option.some.inj hrun)
    rw [map_eq_nil_iff.mp hbatches.symm]
    obtain ⟨bound, hmem, -⟩ := h.violated
    have hcount := h.count
    have hpos := length_pos_of_mem hmem
    rw [CertificateState.unread, length_append, length_map] at hcount
    rw [sum_nil]
    exact ⟨rfl, by omega⟩
  | cons limit limits ih =>
    rw [calls] at hrun
    rw [DenseRankState.nextBatchWith] at hrun
    by_cases hzero : limit = 0
    · rw [if_pos hzero] at hrun
      obtain ⟨⟨rest, final, asked''⟩, -, heq⟩ := Option.map_eq_some_iff.mp hrun
      cases batches with
      | nil => cases heq
      | cons batch batches => cases heq
    rw [if_neg hzero] at hrun
    unfold DenseRankState.prepare at hrun
    rw [hinner] at hrun
    dsimp only at hrun
    rw [hinner] at hrun
    cases hfill : DenseRankStateInner.fill (recordingScorer score) limit
        (.certificate certificate) asked with
    | none =>
      rw [hfill] at hrun
      cases hrun
    | some result =>
      obtain ⟨batch, inner, asked⟩ := result
      rw [hfill] at hrun
      obtain ⟨⟨rest, final, asked''⟩, hsession, heq⟩ := Option.map_eq_some_iff.mp hrun
      cases batches with
      | nil => cases heq
      | cons points batches =>
        cases heq
        obtain ⟨hlength, certificate, rfl, hviolated⟩ := h.fill hnodup hfill
        grind

/-! ### Construction -/

private theorem hasEqualNeighbours_eq_false {ids : List ℕ} (h : ids.Nodup) :
    hasEqualNeighbours ids = false := by
  induction ids with
  | nil => rfl
  | cons first ids ih =>
    cases ids with
    | nil => rfl
    | cons second ids =>
      have hne : first ≠ second := by
        rintro rfl
        exact (nodup_cons.mp h).1 mem_cons_self
      have hrest := ih (nodup_cons.mp h).2
      unfold hasEqualNeighbours at hrest ⊢
      rw [tail_cons, zip_cons_cons, any_cons, Bool.or_eq_false_iff]
      exact ⟨by simpa using hne, hrest⟩

private theorem insertionSort_eq_of_perm {ids others : List ℕ} (h : ids.Perm others) :
    ids.insertionSort (· ≤ ·) = others.insertionSort (· ≤ ·) := by
  have hperm := ((perm_insertionSort (· ≤ ·) ids).trans h).trans
    (perm_insertionSort (· ≤ ·) others).symm
  exact hperm.eq_of_pairwise' (pairwise_insertionSort _ ids)
    (pairwise_insertionSort _ others)

variable {exactRefineBatch : ℕ}

omit [Score S] [WideScore S B] in
/-- Valid intervals, one for each eligible point, are accepted. -/
private theorem fromCertificateBoundsBatched_eq (hnodup : eligible.Nodup)
    {bounds : List (ℕ × B × B)} (hids : (bounds.map Prod.fst).Perm eligible)
    (hvalid : ∀ bound ∈ bounds, Score.isFinite bound.2.1 = true ∧
      Score.isFinite bound.2.2 = true ∧ bound.2.1 ≤ bound.2.2)
    (hbatch : 0 < exactRefineBatch) :
    DenseRankState.fromCertificateBoundsBatched eligible bounds exactRefineBatch =
      .ok (⟨.certificate ⟨exactRefineBatch,
          bounds.map fun bound => ⟨bound.1, bound.2.1, bound.2.2⟩, [], ∅⟩,
        .explicit (eligible.insertionSort (· ≤ ·))⟩ : DenseRankState S B) := by
  have hsorted := (perm_insertionSort (· ≤ ·) eligible).nodup_iff.mpr hnodup
  unfold DenseRankState.fromCertificateBoundsBatched
  dsimp only
  rw [if_neg (by omega), hasEqualNeighbours_eq_false hsorted, if_neg Bool.false_ne_true, if_neg]
  rw [not_or, not_not, Bool.not_eq_true, any_eq_false]
  refine ⟨insertionSort_eq_of_perm hids, fun bound hmem => ?_⟩
  obtain ⟨hlower, hupper, hle⟩ := hvalid bound hmem
  simp [invalidInterval, hlower, hupper, hle]

omit [Score S] [WideScore S B] in
/-- What an accepted state looks like. -/
private theorem eq_of_fromCertificateBoundsBatched {bounds : List (ℕ × B × B)}
    (h : DenseRankState.fromCertificateBoundsBatched eligible bounds exactRefineBatch = .ok state) :
    state.inner = .certificate ⟨exactRefineBatch,
      bounds.map fun bound => ⟨bound.1, bound.2.1, bound.2.2⟩, [], ∅⟩ := by
  unfold DenseRankState.fromCertificateBoundsBatched at h
  grind

/-- A contiguous state with an interval for each point has the same sessions. -/
theorem contiguous_session {pointCount : ℕ} {pending : List (PendingBound B)}
    (h : DenseRankState.fromContiguousPendingBatched pointCount pending exactRefineBatch =
      .ok state)
    (hwithin : ∀ bound ∈ pending, bound.Within score)
    (hlimits : ∀ limit ∈ limits, 0 < limit) :
    ∃ next asked, state.session (recordingScorer score) limits [] =
        some ((slices (ranking score (range pointCount)) limits).map .ok, next, asked) ∧
      asked.Nodup ∧ asked ⊆ range pointCount := by
  unfold DenseRankState.fromContiguousPendingBatched at h
  split at h
  · cases h
  split at h
  · cases h
  split at h
  · cases h
  rename_i hmatch
  cases h
  rw [not_or, not_not, Bool.not_eq_true, any_eq_false] at hmatch
  obtain ⟨hlength, hbounds⟩ := hmatch
  have hbound : ∀ (ordinal : ℕ) (bound : PendingBound B), pending[ordinal]? = some bound →
      bound.id = ordinal ∧ Score.isFinite bound.lower = true ∧
        Score.isFinite bound.value = true := by
    intro ordinal bound hget
    have hvalid := hbounds (bound, ordinal) (mk_mem_zipIdx_iff_getElem?.mpr hget)
    simp only [invalidInterval, Bool.or_eq_true, not_or, Bool.not_eq_true, bne_eq_false_iff_eq,
      Bool.not_eq_false'] at hvalid
    exact ⟨hvalid.1, hvalid.2.1.1, hvalid.2.1.2⟩
  have hids : pending.map PendingBound.id = range pointCount := by
    refine ext_getElem? fun ordinal => ?_
    grind
  have hfinite : ∀ bound ∈ pending,
      Score.isFinite bound.lower = true ∧ Score.isFinite bound.value = true := by
    intro bound hmem
    obtain ⟨ordinal, hget⟩ := getElem?_of_mem hmem
    exact (hbound ordinal bound hget).2
  exact certificate_session nodup_range (by rw [hids]) hfinite hwithin
    exactRefineBatch _ hlimits

theorem contiguous_session_two_points :
    ∃ (state next : DenseRankState ℚ ℚ) (asked : List ℕ),
      DenseRankState.fromContiguousPendingBatched 2 [⟨0, 1, 4⟩, ⟨1, 0, 3⟩] 1 = .ok state ∧
      state.session (recordingScorer fun id => if id = 0 then 2 else 3) [1, 5] [] =
        some ([.ok [⟨1, 3⟩], .ok [⟨0, 2⟩]], next, asked) := by
  obtain ⟨next, asked, hrun, -⟩ := @contiguous_session ℚ ℚ _ _ _
    (fun id => if id = 0 then 2 else 3) [1, 5] _ 1 2 [⟨0, 1, 4⟩, ⟨1, 0, 3⟩] rfl
    (by unfold PendingBound.Within; decide +kernel) (by decide)
  exact ⟨_, next, asked, rfl, hrun⟩

/-- Every session over intervals that hold returns the consecutive parts of the ranking and asks
for no score twice, and so does the scan of the same points. If a score lies outside its
interval, a session without errors returns full batches only, and fewer points than there are. -/
theorem dense_sessions_exact {eligible : List ℕ} (heligible : eligible.Nodup)
    {bounds : List (ℕ × B × B)} (hids : (bounds.map Prod.fst).Perm eligible)
    (hfinite : ∀ bound ∈ bounds, Score.isFinite bound.2.1 = true ∧ Score.isFinite bound.2.2 = true)
    {exactRefineBatch : ℕ} (hbatch : 0 < exactRefineBatch) (score : ℕ → S) :
    Ranked pointKey (ranking score eligible) ∧
    (ranking score eligible).Perm (eligible.map (scored score)) ∧
    ((∀ bound ∈ bounds, bound.2.1 ≤ WideScore.wide (score bound.1) ∧
        WideScore.wide (score bound.1) ≤ bound.2.2) →
      ∃ state : DenseRankState S B,
        DenseRankState.fromCertificateBoundsBatched eligible bounds exactRefineBatch = .ok state ∧
        ∀ limits : List ℕ, (∀ limit ∈ limits, 0 < limit) →
          (slices (ranking score eligible) limits).flatten =
            (ranking score eligible).take limits.sum ∧
          (∃ next asked, state.session (recordingScorer score) limits [] =
              some ((slices (ranking score eligible) limits).map .ok, next, asked) ∧
            asked.Nodup ∧ asked ⊆ eligible) ∧
          ∃ next asked, (buildExactScanState eligible : DenseRankState S B).session
              (recordingScorer score) limits [] =
              some ((slices (ranking score eligible) limits).map .ok, next, asked) ∧
            asked.Nodup ∧ asked ⊆ eligible) ∧
    ((∃ bound ∈ bounds, ¬(bound.2.1 ≤ WideScore.wide (score bound.1) ∧
        WideScore.wide (score bound.1) ≤ bound.2.2)) →
      ∀ state : DenseRankState S B,
        DenseRankState.fromCertificateBoundsBatched eligible bounds exactRefineBatch = .ok state →
        ∀ (limits : List ℕ) (batches : List (List (ScoredPointOffset S))) next asked,
          state.session (recordingScorer score) limits [] = some (batches.map .ok, next, asked) →
          batches.map length = limits ∧ limits.sum < eligible.length) := by
  refine ⟨ranked_rankBy (nodup_map_pointKey score heligible), rankBy_perm _, ?_, ?_⟩
  · intro hwithin
    have hvalid : ∀ bound ∈ bounds, Score.isFinite bound.2.1 = true ∧
        Score.isFinite bound.2.2 = true ∧ bound.2.1 ≤ bound.2.2 := fun bound hmem =>
      ⟨(hfinite bound hmem).1, (hfinite bound hmem).2,
        (hwithin bound hmem).1.trans (hwithin bound hmem).2⟩
    refine ⟨_, fromCertificateBoundsBatched_eq heligible hids hvalid hbatch,
      fun limits hlimits => ⟨flatten_slices _ limits, ?_, ?_⟩⟩
    · refine certificate_session heligible ?_ ?_ ?_ exactRefineBatch _ hlimits
      · rw [map_map]
        exact hids
      · exact forall_mem_map.mpr hfinite
      · exact forall_mem_map.mpr hwithin
    · refine scan_session heligible (fun id hmem => ?_) hlimits
      obtain ⟨bound, hbound, rfl⟩ := mem_map.mp (hids.mem_iff.mpr hmem)
      exact WideScore.isFinite_of_mem (hfinite bound hbound).1 (hfinite bound hbound).2
        (hwithin bound hbound).1 (hwithin bound hbound).2
  · rintro ⟨bound, hmem, hoff⟩ state hstate limits batches next asked hrun
    have hperm : ((bounds.map fun bound => (⟨bound.1, bound.2.1, bound.2.2⟩ : PendingBound B)).map
        PendingBound.id).Perm eligible := by
      rw [map_map]
      exact hids
    have hviolated : Violated score eligible 0
        (⟨exactRefineBatch, bounds.map fun bound => ⟨bound.1, bound.2.1, bound.2.2⟩, [], ∅⟩ :
          CertificateState S B) [] := by
      refine ⟨scored_init hperm (forall_mem_map.mpr hfinite) exactRefineBatch,
        ⟨_, mem_map_of_mem hmem, hoff⟩, ?_⟩
      rw [(unread_init hperm exactRefineBatch).length_eq, length_map, Nat.zero_add]
    have hlengths := violated_session heligible (eq_of_fromCertificateBoundsBatched hstate)
      hviolated hrun
    rwa [Nat.zero_add] at hlengths

/-- Three points with overlapping intervals, refined two at a time. -/
theorem dense_sessions_exact_three_points :
    ∃ state : DenseRankState ℚ ℚ,
      DenseRankState.fromCertificateBoundsBatched [2, 0, 1]
        [(0, 1, 4), (1, 0, 3), (2, 3, 3)] 2 = .ok state ∧
      ∃ next asked, state.session (recordingScorer fun id => if id = 0 then 2 else 3) [2, 5] [] =
          some ([.ok [⟨1, 3⟩, ⟨2, 3⟩], .ok [⟨0, 2⟩]], next, asked) ∧
        asked.Nodup := by
  have hexact := @dense_sessions_exact ℚ ℚ _ _ _ [2, 0, 1] (by decide)
    [(0, 1, 4), (1, 0, 3), (2, 3, 3)] (by decide) (fun _ _ => ⟨rfl, rfl⟩) 2 (by decide)
    (fun id => if id = 0 then 2 else 3)
  obtain ⟨state, hstate, hsessions⟩ := hexact.2.2.1 (by decide +kernel)
  obtain ⟨-, ⟨next, asked, hrun, hnodup, -⟩, -⟩ := hsessions [2, 5] (by decide)
  refine ⟨state, hstate, next, asked, ?_, hnodup⟩
  rw [hrun]
  rfl

end Stratumind.Dense
