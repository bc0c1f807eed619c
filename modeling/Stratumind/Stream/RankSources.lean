import Stratumind.Fusion.Session
import Stratumind.Stream.KWay

/-!
# Session sources built from merges

A merge becomes a session source in point form or in batch form. Both forms keep a failed
merge failed, but they answer a later pull differently: the batch form repeats the error,
the point form delivers it once and then looks like an ended stream.
-/

namespace Stratumind

open Lib Function

variable {V ι Id S : Type} {m : ι → ℕ} [DecidableEq ι] [LinearOrder Id] [ToString Id] [Score S]

namespace KWayExactScoreStream

variable {k : ℕ} {stream : KWayExactScoreStream V Id S k} {v : V}

/-- The merges agree on their failure and on whether it has been delivered. -/
def SameFailure (before after : KWayExactScoreStream V Id S k) : Prop :=
  after.terminalError = before.terminalError ∧ after.errorDelivered = before.errorDelivered

theorem takePoint_sameFailure (source : Fin k) :
    SameFailure stream (stream.takePoint source v).2.1 := by
  unfold takePoint
  split
  · split <;> exact ⟨rfl, rfl⟩
  split
  · split
    · exact ⟨rfl, rfl⟩
    · split <;> exact ⟨rfl, rfl⟩
  · exact ⟨rfl, rfl⟩

theorem refill_sameFailure (source : Fin k) : SameFailure stream (stream.refill source v).2.1 := by
  have htake : SameFailure stream (stream.takePoint source v).2.1 := takePoint_sameFailure source
  unfold refill
  split
  · exact ⟨rfl, rfl⟩
  split
  all_goals
    rename_i heq
    rw [heq] at htake
  · exact htake
  · exact htake
  · split
    · exact htake
    · split <;> exact htake

theorem nextInner_sameFailure : SameFailure stream (stream.nextInner v).2.1 := by
  have hrefill : SameFailure stream (stream.refillLast v).2.1 := by
    unfold refillLast
    split
    · rename_i source _
      have hsource : SameFailure { stream with refillSource := none }
        (refill { stream with refillSource := none } source v).2.1 := refill_sameFailure source
      exact hsource
    · exact ⟨rfl, rfl⟩
  unfold nextInner
  split
  all_goals
    rename_i heq
    rw [heq] at hrefill
  · exact hrefill
  split
  · exact hrefill
  · dsimp only
    split <;> exact hrefill

variable {next : KWayExactScoreStream V Id S k}

/-- A successful batch leaves a merge as healthy as it was. -/
theorem collectRanks_terminalError {count : ℕ} {result : List Id × Bool} {v' : V}
    (h : stream.collectRanks count v = (.ok result, next, v')) :
    next.terminalError = stream.terminalError := by
  induction count generalizing stream v result with
  | zero =>
    cases h
    rfl
  | succ count ih =>
    have hstep : SameFailure stream (stream.nextInner v).2.1 := nextInner_sameFailure
    rw [collectRanks] at h
    split at h
    · cases h
    · rename_i heq
      rw [heq] at hstep
      cases h
      exact hstep.1
    rename_i heq
    rw [heq] at hstep
    split at h
    · cases h
    · rename_i hrest
      cases h
      exact (ih hrest).trans hstep.1

/-- A batch that fails leaves the merge failed. -/
theorem collectRanks_error {count : ℕ} {error : OperationError} {v' : V}
    (h : stream.collectRanks count v = (.error error, next, v')) :
    next.terminalError = some error := by
  induction count generalizing stream v with
  | zero => cases h
  | succ count ih =>
    rw [collectRanks] at h
    split at h
    · cases h
      rfl
    · cases h
    · split at h
      · rename_i hrest
        cases h
        exact ih hrest
      · cases h

/-- What a batch call does to the failure of a merge: a failed merge stays failed and
returns no batch, and a call that returns an error leaves the merge failed. -/
theorem nextRankBatch_failure (maxResults : ℕ) {result : OperationResult (ChannelRankBatch Id)}
    {v' : V} (h : stream.nextRankBatch maxResults v = (result, next, v')) :
    (∀ error, stream.terminalError = some error → next.terminalError = some error) ∧
    (∀ batch, result = .ok batch → next.terminalError = none) ∧
    (0 < maxResults → ∀ error, result = .error error → next.terminalError = some error) := by
  unfold nextRankBatch at h
  split at h
  · rename_i hzero
    cases h
    exact ⟨fun _ herror => herror, by simp, fun hpos => absurd hzero hpos.ne'⟩
  split at h
  · rename_i herror
    cases h
    refine ⟨fun _ herror => herror, by simp, ?_⟩
    rintro _ _ ⟨⟩
    exact herror
  rename_i hnone
  have hhealthy : ∀ error, stream.terminalError ≠ some error := by simp [hnone]
  split at h
  · rename_i hrun
    cases h
    refine ⟨fun error herror => absurd herror (hhealthy error), by simp, ?_⟩
    rintro _ _ ⟨⟩
    exact collectRanks_error hrun
  rename_i hrun
  cases h
  exact ⟨fun error herror => absurd herror (hhealthy error),
    fun _ _ => (collectRanks_terminalError hrun).trans hnone, by simp⟩

/-- What a point call does to the failure of a merge: a failed merge stays failed, and one
that has not delivered an error returns a point or its end only while healthy, and one that
returns an error has failed. -/
theorem next_failure {result : Option (OperationResult (ExactScoredIdentity Id S))} {v' : V}
    (h : stream.next v = (result, next, v')) :
    (∀ error, stream.terminalError = some error → next.terminalError = some error) ∧
    (stream.errorDelivered = false → (∀ error, result ≠ some (.error error)) →
      next.terminalError = none ∧ next.errorDelivered = false) ∧
    ∀ error, result = some (.error error) → next.terminalError = some error := by
  unfold KWayExactScoreStream.next at h
  split at h
  · rename_i error herror
    split at h
    · rename_i hdelivered
      cases h
      exact ⟨fun _ => id, fun hopen => absurd (hopen.symm.trans hdelivered) (by simp), by simp⟩
    · cases h
      refine ⟨fun _ => id, fun _ hok => absurd rfl (hok error), ?_⟩
      rintro _ ⟨⟩
      exact herror
  rename_i hnone
  have hhealthy : ∀ error, stream.terminalError ≠ some error := by simp [hnone]
  have hstep : SameFailure stream (stream.nextInner v).2.1 := nextInner_sameFailure
  split at h
  all_goals
    rename_i heq
    rw [heq] at hstep
    cases h
    refine ⟨fun error herror => absurd herror (hhealthy error), ?_, ?_⟩
  · exact fun hopen _ => ⟨hstep.1.trans hnone, hstep.2.trans hopen⟩
  · simp
  · exact fun hopen _ => ⟨hstep.1.trans hnone, hstep.2.trans hopen⟩
  · simp
  · exact fun _ hok => absurd rfl (hok _)
  · rintro _ ⟨⟩
    rfl

end KWayExactScoreStream

/-- The merges behind a session, and the world of their own sources. -/
abbrev MergeWorld (V Id S : Type) (m : ι → ℕ) :=
  ((k : ι) → KWayExactScoreStream V Id S (m k)) × V

/-- The merge `k` has failed. -/
def Failed (w : MergeWorld V Id S m) (k : ι) : Prop := (w.1 k).terminalError.isSome = true

/-- A session source built from the merge `k`, in point form or in batch form. -/
inductive RankSource (ι : Type) where
  | point (k : ι)
  | batch (k : ι)

namespace RankSource

/-- The merge a source is built from. -/
def merge : RankSource ι → ι
  | .point k => k
  | .batch k => k

/-- The identity stream of the merge `k`. -/
def rankStream (k : ι) : ExactRrfStream (MergeWorld V Id S m) Id := fun w =>
  let (result, stream, v) := KWayExactScoreStream.intoRankStream (w.1 k, w.2)
  (result, update w.1 k stream, v)

/-- The batches of the merge `k`. -/
def rankBatchStream (k : ι) : ExactRrfBatchStream (MergeWorld V Id S m) Id := fun maxResults w =>
  let (result, stream, v) := (w.1 k).nextRankBatch maxResults w.2
  (result, update w.1 k stream, v)

/-- The session source. -/
def source : RankSource ι → DynamicRrfSource (MergeWorld V Id S m) Id
  | .point k => .point (rankStream k)
  | .batch k => .batch (rankBatchStream k)

end RankSource

/-- A point source that has not delivered an error, or a batch source. -/
def Pollable (w : MergeWorld V Id S m) (source : RankSource ι) : Prop :=
  ∀ k, source = .point k → (w.1 k).errorDelivered = false

instance (w : MergeWorld V Id S m) (source : RankSource ι) : Decidable (Pollable w source) :=
  match source with
  | .point k => decidable_of_iff ((w.1 k).errorDelivered = false) (by simp [Pollable])
  | .batch _ => isTrue (by simp [Pollable])

/-- Only the merge `k` has changed, and it has not recovered from a failure. -/
structure Touched (k : ι) (before after : MergeWorld V Id S m) : Prop where
  others : ∀ other, other ≠ k → after.1 other = before.1 other
  failed : Failed before k → Failed after k

/-- Polling a stream touches its own merge. Unless it returns an error, a merge that had
not delivered one is healthy afterwards; if it does, the merge has failed. -/
theorem rankStream_touched {k : ι} {w w' : MergeWorld V Id S m}
    {result : Option (OperationResult Id)} (h : RankSource.rankStream k w = (result, w')) :
    Touched k w w' ∧ ((w.1 k).errorDelivered = false → (∀ error, result ≠ some (.error error)) →
      ¬Failed w' k ∧ (w'.1 k).errorDelivered = false) ∧
      ∀ error, result = some (.error error) → Failed w' k := by
  unfold RankSource.rankStream KWayExactScoreStream.intoRankStream at h
  cases hnext : (w.1 k).next w.2 with
  | mk polled rest =>
    obtain ⟨stream, v⟩ := rest
    obtain ⟨hfailed, hhealthy, herrors⟩ := KWayExactScoreStream.next_failure hnext
    have hw' : w' = (update w.1 k stream, v) := by
      rw [hnext] at h
      rcases polled with _ | _ | _ <;> exact (Prod.mk.inj h).2.symm
    subst hw'
    refine ⟨⟨fun other hother => update_of_ne hother .., ?_⟩, fun hopen hok => ?_,
      fun error hresult => ?_⟩
    · intro hfail
      obtain ⟨error, herror⟩ := Option.isSome_iff_exists.mp hfail
      simp [Failed, hfailed error herror]
    rotate_left
    · have hpolled : polled = some (.error error) := by
        rw [hnext] at h
        rcases polled with _ | _ | _ <;> cases (Prod.mk.inj h).1.trans hresult
        rfl
      simp [Failed, herrors error hpolled]
    have hpolled : ∀ error, polled ≠ some (.error error) := by
      rintro error rfl
      rw [hnext] at h
      exact hok error (Prod.mk.inj h).1.symm
    obtain ⟨hnone, hdelivered⟩ := hhealthy hopen hpolled
    simp [Failed, hnone, hdelivered]

/-- Pulling a batch touches its own merge. A batch shows that the merge is healthy, and an error
that it has failed. -/
theorem rankBatchStream_touched {k : ι} {maxResults : ℕ} {w w' : MergeWorld V Id S m}
    {result : OperationResult (ChannelRankBatch Id)}
    (h : RankSource.rankBatchStream k maxResults w = (result, w')) :
    Touched k w w' ∧ (∀ batch, result = .ok batch → ¬Failed w' k) ∧
      (0 < maxResults → ∀ error, result = .error error → Failed w' k) := by
  unfold RankSource.rankBatchStream at h
  cases hrun : (w.1 k).nextRankBatch maxResults w.2 with
  | mk pulled rest =>
    obtain ⟨hfailed, hhealthy, herrors⟩ :=
      KWayExactScoreStream.nextRankBatch_failure maxResults hrun
    rw [hrun] at h
    cases h
    refine ⟨⟨fun other hother => update_of_ne hother .., ?_⟩, fun batch hbatch => ?_,
      fun hpos error herror => ?_⟩
    · intro hfail
      obtain ⟨error, herror⟩ := Option.isSome_iff_exists.mp hfail
      simp [Failed, hfailed error herror]
    · simp [Failed, hhealthy batch hbatch]
    · simp [Failed, herrors hpos error herror]

end Stratumind
