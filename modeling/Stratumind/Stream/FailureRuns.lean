import Stratumind.Fusion.SessionRuns
import Stratumind.Stream.RankSources

/-!
# Failed merges behind a fusion session

A session may be called again after a call has failed. As long as no call polls a point
source that has delivered its error, the session never takes a failed merge for an
exhausted one.
-/

namespace Stratumind

open Lib Function

variable {V ι Id S F : Type} {m : ι → ℕ} {n : ℕ} [DecidableEq ι] [LinearOrder Id] [ToString Id]
  [Score S] [RankArithmetic F]

/-- The sources of a session are built from distinct merges, pulls ask for a positive number of
points, and a merge whose source has been noted as exhausted has not failed. -/
structure Backed (built : Fin n → RankSource ι)
    (state : SessionState (MergeWorld V Id S m) Id F n) : Prop where
  sources_eq : state.1.sources = fun source => (built source).source
  injective : Injective fun source => (built source).merge
  healthy : ∀ source, state.1.state.exhausted source = true → ¬Failed state.2 (built source).merge
  order_exhausted : state.1.exhaustedOrder.isSome = true →
    state.1.state.allSourcesExhausted = true
  size_pos : 0 < state.1.sourceBatchSize

/-- No merge has recovered from a failure. -/
def StillFailed (before after : MergeWorld V Id S m) : Prop :=
  ∀ k, Failed before k → Failed after k

/-- An execution reports no failed merge as exhausted. -/
structure Truthful (built : Fin n → RankSource ι) (w : MergeWorld V Id S m)
    (execution : DynamicRrfExecution Id n) : Prop where
  source_healthy : ∀ source, execution.sourceExhausted source = true →
    ¬Failed w (built source).merge
  all_healthy : execution.stopReason = .allSourcesExhausted →
    ∀ source, ¬Failed w (built source).merge

variable {built : Fin n → RankSource ι}
  {session : DynamicRrfSession (MergeWorld V Id S m) Id F n} {w : MergeWorld V Id S m}

omit [LinearOrder Id] [ToString Id] [Score S] [RankArithmetic F] in
theorem Touched.stillFailed {k : ι} {before after : MergeWorld V Id S m}
    (h : Touched k before after) : StillFailed before after := by
  intro other hfail
  by_cases hother : other = k
  · rw [hother] at hfail ⊢
    exact h.failed hfail
  · unfold Failed
    rw [h.others other hother]
    exact hfail

variable {source : Fin n}

omit [Score S] in
/-- An observed batch ends its source exactly when it says so. -/
theorem observeBatch_exhausted {state next : DynamicRrfState Id F n} {batch : ChannelRankBatch Id}
    (hopen : state.exhausted source = false) (h : state.observeBatch source batch = .ok next) :
    next.exhausted = update state.exhausted source batch.exhausted := by
  unfold DynamicRrfState.observeBatch at h
  grind [DynamicRrfState.applyBatch_exhausted hopen batch]

omit [RankArithmetic F] in
/-- Pulling a source built from a merge. -/
theorem Backed.pull (h : Backed built (session, w)) (hpollable : Pollable w (built source))
    {result : OperationResult (ChannelRankBatch Id)} {w' : MergeWorld V Id S m}
    (hpull : session.pull source w = (result, w')) :
    Touched (built source).merge w w' ∧
      ∀ batch, result = .ok batch →
        ¬Failed w' (built source).merge ∧ Pollable w' (built source) := by
  rw [DynamicRrfSession.pull, h.sources_eq] at hpull
  beta_reduce at hpull
  cases hbuilt : built source with
  | batch k =>
    rw [hbuilt] at hpull
    obtain ⟨htouched, hhealthy, _⟩ := rankBatchStream_touched hpull
    exact ⟨htouched, fun batch hbatch => ⟨hhealthy batch hbatch, by rintro _ ⟨⟩⟩⟩
  | point k =>
    rw [hbuilt] at hpull hpollable
    have hopen := hpollable k rfl
    simp only [RankSource.source] at hpull
    cases hstream : RankSource.rankStream k w with
    | mk polled w'' =>
      obtain ⟨htouched, hhealthy, _⟩ := rankStream_touched hstream
      have hbatch : w'' = w' ∧ ∀ batch, result = .ok batch →
          ∀ error, polled ≠ some (.error error) := by
        rcases polled with _ | _ | _ <;> grind
      obtain ⟨rfl, hbatch⟩ := hbatch
      refine ⟨htouched, fun batch hok => ?_⟩
      obtain ⟨hnot, hdelivered⟩ := hhealthy hopen (hbatch batch hok)
      refine ⟨hnot, ?_⟩
      rintro _ ⟨⟩
      exact hdelivered

variable {result : OperationResult Unit}

/-- Advancing an open source never notes a failed merge as exhausted, and ends the call if
an error is delivered. -/
theorem Backed.advance (h : Backed built (session, w))
    (hpollable : ∀ source, Pollable w (built source))
    (hopen : session.state.exhausted source = false)
    {next : SessionState (MergeWorld V Id S m) Id F n}
    (hrun : session.advance source w = (result, next)) :
    Backed built next ∧ StillFailed w next.2 ∧
      (result = .ok () → ∀ source, Pollable next.2 (built source)) := by
  have hscheduled : Backed built (session.schedule source, w) :=
    ⟨h.sources_eq, h.injective, h.healthy, h.order_exhausted, h.size_pos⟩
  unfold DynamicRrfSession.advance at hrun
  dsimp only at hrun
  cases hpull : (session.schedule source).pull source w with
  | mk pulled w' =>
    obtain ⟨htouched, hhealthy⟩ := hscheduled.pull (hpollable source) hpull
    -- The other merges are as they were.
    have hothers : ∀ other, other ≠ source →
        w'.1 (built other).merge = w.1 (built other).merge :=
      fun other hother => htouched.others _ fun heq => hother (h.injective heq)
    have hkept : ∀ other, session.state.exhausted other = true →
        ¬Failed w' (built other).merge := by
      intro other hexhausted
      have hother : other ≠ source := fun heq => by simp [heq, hopen] at hexhausted
      unfold Failed
      rw [hothers other hother]
      exact h.healthy other hexhausted
    have hbacked : Backed built (session.schedule source, w') :=
      ⟨h.sources_eq, h.injective, hkept, h.order_exhausted, h.size_pos⟩
    have hpolled : ∀ batch, pulled = .ok batch → ∀ other, Pollable w' (built other) := by
      intro batch hbatch other
      by_cases hother : other = source
      · rw [hother]
        exact (hhealthy batch hbatch).2
      intro k hk
      have hsame := hothers other hother
      rw [hk] at hsame
      rw [show w'.1 k = w.1 k from hsame]
      exact hpollable other k hk
    rw [hpull] at hrun
    cases pulled with
    | error error =>
      cases hrun
      exact ⟨hbacked, htouched.stillFailed, by simp⟩
    | ok batch =>
      dsimp only at hrun
      split at hrun
      · cases hrun
        exact ⟨hbacked, htouched.stillFailed, by simp⟩
      split at hrun
      · cases hrun
        exact ⟨hbacked, htouched.stillFailed, by simp⟩
      rename_i state hobserve
      cases hrun
      have hexhausted := observeBatch_exhausted hopen hobserve
      refine ⟨⟨h.sources_eq, h.injective, ?_, ?_, h.size_pos⟩, htouched.stillFailed,
        fun _ => hpolled batch rfl⟩
      · intro other hother
        change state.exhausted other = true at hother
        rw [hexhausted, update_apply] at hother
        grind
      · -- An order is kept only once every source has ended, but this one is open.
        intro horder
        have hall := List.all_eq_true.mp (h.order_exhausted horder) source
          (List.mem_finRange source)
        rw [hopen] at hall
        cases hall

omit [DecidableEq ι] [LinearOrder Id] [ToString Id] [Score S] [RankArithmetic F] in
theorem StillFailed.trans {first second third : MergeWorld V Id S m} (h : StillFailed first second)
    (h' : StillFailed second third) : StillFailed first third :=
  fun k hfail => h' k (h k hfail)

section

variable (h : Backed built (session, w))

include h

omit [RankArithmetic F] in
/-- Bookkeeping keeps the link to the merges. -/
theorem Backed.of_sameCore {next : DynamicRrfSession (MergeWorld V Id S m) Id F n}
    (hcore : DynamicRrfSession.SameCore session next) : Backed built (next, w) := by
  obtain ⟨hsources, hinjective, hhealthy, horder, hsize⟩ := h
  rw [← hcore.sources_eq] at hsources
  rw [← hcore.state_eq] at hhealthy horder
  rw [← hcore.exhaustedOrder_eq] at horder
  rw [← hcore.sourceBatchSize_eq] at hsize
  exact ⟨hsources, hinjective, hhealthy, horder, hsize⟩

omit [RankArithmetic F] in
/-- Every source of a session whose sources have all ended is healthy. -/
theorem Backed.all_healthy (hall : session.state.allSourcesExhausted = true) (source : Fin n) :
    ¬Failed w (built source).merge :=
  h.healthy source (List.all_eq_true.mp hall source (List.mem_finRange source))

/-- A report of the session's own state is truthful. -/
theorem Backed.truthful {execution : DynamicRrfExecution Id n}
    (hreports : session.Reports execution) : Truthful built w execution := by
  constructor
  · intro source hsource
    rw [hreports.sourceExhausted_eq] at hsource
    exact h.healthy source hsource
  · exact fun hreason => h.all_healthy (hreports.stopReason_iff.mp hreason)

variable {after : SessionState (MergeWorld V Id S m) Id F n} {fuel : ℕ}

variable (hpollable : ∀ source, Pollable w (built source))

include hpollable

/-- The driver loop keeps the link to the merges, and what it reports is the state it
leaves. -/
theorem Backed.advanceUntilEach {targets : List (Option ℕ)}
    {result : OperationResult (DynamicRrfAdvance Id n)}
    (hrun : DynamicRrfSession.advanceUntilEach fuel targets (session, w) = some (result, after)) :
    Backed built after ∧ StillFailed w after.2 ∧
      ∀ execution, result = .ok (.fixed execution) → after.1.Reports execution := by
  unfold DynamicRrfSession.advanceUntilEach at hrun
  split at hrun
  swap
  · cases hrun
    exact ⟨h, fun _ hfail => hfail, by simp⟩
  let inv (state : SessionState (MergeWorld V Id S m) Id F n) : Prop :=
    Backed built state ∧ StillFailed w state.2 ∧ ∀ source, Pollable state.2 (built source)
  let post (outcome : OperationResult (DynamicRrfAdvance Id n) ×
      SessionState (MergeWorld V Id S m) Id F n) : Prop :=
    Backed built outcome.2 ∧ StillFailed w outcome.2.2 ∧
      ∀ execution, outcome.1 = .ok (.fixed execution) → outcome.2.1.Reports execution
  have hinv : inv (session, w) := ⟨h, fun _ hfail => hfail, hpollable⟩
  suffices hpost : post (result, after) from hpost
  refine runLoop_invariant ?_ hinv hrun
  rintro ⟨session, v⟩ ended ⟨hbacked, hstill, hpolls⟩ hturn
  rcases DynamicRrfSession.advanceTurn_cases _ session v with
    ⟨execution, next, ⟨hcore, _⟩, hreports, hcase⟩ | ⟨next, ⟨hcore, _⟩, _, _, hcase⟩ |
    ⟨mid, source, ⟨hcore, _⟩, hopen, _, hcase⟩
  · cases hcase.symm.trans hturn
    refine ⟨hbacked.of_sameCore hcore, hstill, ?_⟩
    rintro _ ⟨⟩
    exact hreports.of_sameCore hcore.symm
  · cases hcase.symm.trans hturn
    exact ⟨hbacked.of_sameCore hcore, hstill, by simp⟩
  rw [← hcore.state_eq] at hopen
  cases hcase.symm.trans hturn
  cases hadvance : mid.advance source v with
  | mk advanced next =>
    obtain ⟨hnext, hfailed, hopened⟩ := (hbacked.of_sameCore hcore).advance hpolls hopen hadvance
    cases advanced with
    | ok _ => exact ⟨hnext, hstill.trans hfailed, hopened rfl⟩
    | error error => exact ⟨hnext, hstill.trans hfailed, by simp⟩

/-- Running to completion keeps the link to the merges. -/
theorem Backed.runToCompletion {result : OperationResult (DynamicRrfExecution Id n)}
    (hrun : DynamicRrfSession.runToCompletion fuel (session, w) = some (result, after)) :
    Backed built after ∧ StillFailed w after.2 ∧
      ∀ execution, result = .ok execution → after.1.Reports execution := by
  unfold DynamicRrfSession.runToCompletion at hrun
  split at hrun
  · cases hrun
  · rename_i hloop
    cases hrun
    obtain ⟨hbacked, hstill, _⟩ := h.advanceUntilEach hpollable hloop
    exact ⟨hbacked, hstill, by simp⟩
  · rename_i hloop
    cases hrun
    obtain ⟨hbacked, hstill, hreports⟩ := h.advanceUntilEach hpollable hloop
    refine ⟨hbacked, hstill, ?_⟩
    rintro _ ⟨⟩
    exact hreports _ rfl
  · cases hrun

omit [RankArithmetic F] hpollable in
/-- Extending the target does not touch the sources. -/
theorem Backed.extendTopK {topK : ℕ} {next : DynamicRrfSession (MergeWorld V Id S m) Id F n}
    (hextend : session.extendTopK topK = .ok next) : Backed built (next, w) := by
  unfold DynamicRrfSession.extendTopK at hextend
  dsimp only at hextend
  split at hextend
  · cases hextend
  · cases hextend
    exact ⟨h.sources_eq, h.injective, h.healthy, h.order_exhausted, h.size_pos⟩

/-- Running to a prefix keeps the link to the merges, also when a kept order answers. -/
theorem Backed.runToPrefix {topK : ℕ} {result : OperationResult (DynamicRrfExecution Id n)}
    (hrun : DynamicRrfSession.runToPrefix fuel topK (session, w) = some (result, after)) :
    Backed built after ∧ StillFailed w after.2 ∧
      ∀ execution, result = .ok execution → Truthful built after.2 execution := by
  unfold DynamicRrfSession.runToPrefix at hrun
  split at hrun
  · cases hrun
    exact ⟨h, fun _ hfail => hfail, by simp⟩
  rename_i extended hextend
  have hextended := h.extendTopK hextend
  split at hrun
  · rename_i order horder
    cases hrun
    refine ⟨hextended, fun _ hfail => hfail, ?_⟩
    rintro execution ⟨⟩
    have hall : extended.state.allSourcesExhausted = true :=
      hextended.order_exhausted (by simp [horder])
    exact ⟨hextended.healthy, fun _ => hextended.all_healthy hall⟩
  split at hrun
  · cases hrun
  · rename_i hloop
    cases hrun
    obtain ⟨hbacked, hstill, _⟩ := hextended.runToCompletion hpollable hloop
    exact ⟨hbacked, hstill, by simp⟩
  rename_i hloop
  obtain ⟨hbacked, hstill, hreports⟩ := hextended.runToCompletion hpollable hloop
  have hreports := hreports _ rfl
  have htruthful := hbacked.truthful hreports
  split at hrun
  · rename_i hreason
    cases hrun
    refine ⟨⟨hbacked.sources_eq, hbacked.injective, hbacked.healthy, fun _ => ?_,
      hbacked.size_pos⟩, hstill, ?_⟩
    · exact hreports.stopReason_iff.mp hreason
    · rintro execution ⟨⟩
      exact ⟨htruthful.source_healthy, htruthful.all_healthy⟩
  · cases hrun
    refine ⟨hbacked, hstill, ?_⟩
    rintro execution ⟨⟩
    exact htruthful

end

/-- Replaying a history touches only the replacement's merge. -/
theorem replayHistory_touched {source rank : ℕ} {k : ι} {history : List Id}
    {w w' : MergeWorld V Id S m}
    (h : DynamicRrfSession.replayHistory source (RankSource.rankStream k) rank history w =
      (result, w')) : Touched k w w' := by
  induction history generalizing rank w with
  | nil =>
    cases h
    exact ⟨fun _ _ => rfl, id⟩
  | cons expected history ih =>
    rw [DynamicRrfSession.replayHistory] at h
    split at h
    · rename_i hstream
      cases h
      exact (rankStream_touched hstream).1
    · rename_i hstream
      cases h
      exact (rankStream_touched hstream).1
    rename_i hstream
    have hfirst := (rankStream_touched hstream).1
    split at h
    · cases h
      exact hfirst
    · have hrest := ih h
      exact ⟨fun other hother => (hrest.others other hother).trans (hfirst.others other hother),
        fun hfail => hrest.failed (hfirst.failed hfail)⟩

omit [RankArithmetic F] in
/-- Replacing a source by a merge of its own keeps the link: the replacement is attached if
it was accepted. -/
theorem Backed.replaceSource (h : Backed built (session, w)) {k : ι}
    (hnew : ∀ source, (built source).merge ≠ k) {source : ℕ}
    (hrun : DynamicRrfSession.replaceSource source (RankSource.rankStream k) (session, w) =
      (result, after)) :
    StillFailed w after.2 ∧
      ((∃ error, result = .error error) ∧ Backed built after ∨
        ∃ hsource : source < n, result = .ok () ∧
          Backed (update built ⟨source, hsource⟩ (.point k)) after) := by
  unfold DynamicRrfSession.replaceSource at hrun
  split at hrun
  swap
  · cases hrun
    exact ⟨fun _ hfail => hfail, Or.inl ⟨⟨_, rfl⟩, h⟩⟩
  rename_i hsource
  split at hrun
  · cases hrun
    exact ⟨fun _ hfail => hfail, Or.inl ⟨⟨_, rfl⟩, h⟩⟩
  have hkept : ∀ w', Touched k w w' → ∀ other, session.state.exhausted other = true →
      ¬Failed w' (built other).merge := by
    intro w' htouched other hexhausted
    unfold Failed
    rw [htouched.others _ (hnew other)]
    exact h.healthy other hexhausted
  split at hrun
  · rename_i hreplay
    have htouched := replayHistory_touched hreplay
    cases hrun
    exact ⟨htouched.stillFailed, Or.inl ⟨⟨_, rfl⟩,
      h.sources_eq, h.injective, hkept _ htouched, h.order_exhausted, h.size_pos⟩⟩
  rename_i hreplay
  have htouched := replayHistory_touched hreplay
  cases hrun
  refine ⟨htouched.stillFailed, Or.inr ⟨hsource, rfl, ?_, ?_, ?_, h.order_exhausted, h.size_pos⟩⟩
  · funext other
    have hother := congrFun h.sources_eq other
    grind [RankSource.source]
  · have hinjective := h.injective
    exact fun left right heq => by
      grind [Injective, RankSource.merge]
  grind

/-!
### Runs of a session over failing merges

A client calls a session again after an error. The run is recorded call by call, together
with the merges that are attached before and after each call.
-/

open Lib List

/-- A call on a session over merges; a replacement is the stream of a merge. -/
inductive RankCall (ι : Type) where
  | advanceUntilEach (minimumPulls : List (Option ℕ))
  | extendTopK (topK : ℕ)
  | runToPrefix (topK : ℕ)
  | runToCompletion
  | replaceSource (source : ℕ) (k : ι)

namespace RankCall

/-- The call the session sees. -/
def call : RankCall ι → SessionCall (MergeWorld V Id S m) Id
  | .advanceUntilEach minimumPulls => .advanceUntilEach minimumPulls
  | .extendTopK topK => .extendTopK topK
  | .runToPrefix topK => .runToPrefix topK
  | .runToCompletion => .runToCompletion
  | .replaceSource source k => .replaceSource source (RankSource.rankStream k)

/-- The call pulls the attached sources. -/
def polls : RankCall ι → Bool
  | .extendTopK _ | .replaceSource .. => false
  | _ => true

/-- The merge a call hands to the session. -/
def replacement : RankCall ι → Option ι
  | .replaceSource _ k => some k
  | _ => none

/-- The attached sources after a call: an accepted replacement takes its place. -/
def rebuilt (built : Fin n → RankSource ι) (reply : SessionReply Id n) :
    RankCall ι → Fin n → RankSource ι
  | .replaceSource source k =>
    match reply with
    | .acknowledged (.ok ()) =>
      if h : source < n then update built ⟨source, h⟩ (.point k) else built
    | _ => built
  | _ => built

end RankCall

variable {built : Fin n → RankSource ι} {state : SessionState (MergeWorld V Id S m) Id F n}

/-- One call keeps the link to the merges and reports the truth about them. -/
theorem Backed.call (h : Backed built state) {call : RankCall ι}
    (hpollable : call.polls = true → ∀ source, Pollable state.2 (built source))
    (hnew : ∀ k, call.replacement = some k → ∀ source, (built source).merge ≠ k) {fuel : ℕ}
    {reply : SessionReply Id n} {next : SessionState (MergeWorld V Id S m) Id F n}
    (hrun : call.call.run fuel state = some (reply, next)) :
    Backed (call.rebuilt built reply) next ∧ StillFailed state.2 next.2 ∧
      ∀ target execution, reply = .advanced target (.ok (.fixed execution)) →
        Truthful (call.rebuilt built reply) next.2 execution := by
  obtain ⟨session, w⟩ := state
  cases call with
  | advanceUntilEach targets =>
    obtain ⟨⟨result, after⟩, hloop, heq⟩ := Option.map_eq_some_iff.mp hrun
    cases heq
    obtain ⟨hbacked, hstill, hreports⟩ := h.advanceUntilEach (hpollable rfl) hloop
    refine ⟨hbacked, hstill, ?_⟩
    rintro target execution ⟨⟩
    exact hbacked.truthful (hreports execution rfl)
  | extendTopK topK =>
    cases hextend : session.extendTopK topK with
    | error error =>
      simp only [RankCall.call, SessionCall.run, hextend] at hrun
      cases hrun
      exact ⟨h, fun _ hfail => hfail, by rintro _ _ ⟨⟩⟩
    | ok extended =>
      simp only [RankCall.call, SessionCall.run, hextend] at hrun
      cases hrun
      exact ⟨h.extendTopK hextend, fun _ hfail => hfail, by rintro _ _ ⟨⟩⟩
  | runToPrefix topK =>
    obtain ⟨⟨result, after⟩, hloop, heq⟩ := Option.map_eq_some_iff.mp hrun
    cases heq
    obtain ⟨hbacked, hstill, htruthful⟩ := h.runToPrefix (hpollable rfl) hloop
    refine ⟨hbacked, hstill, fun target execution hreply => ?_⟩
    cases result with
    | error error => cases hreply
    | ok reported =>
      cases hreply
      exact htruthful execution rfl
  | runToCompletion =>
    obtain ⟨⟨result, after⟩, hloop, heq⟩ := Option.map_eq_some_iff.mp hrun
    cases heq
    obtain ⟨hbacked, hstill, hreports⟩ := h.runToCompletion (hpollable rfl) hloop
    refine ⟨hbacked, hstill, fun target execution hreply => ?_⟩
    cases result with
    | error error => cases hreply
    | ok reported =>
      cases hreply
      exact hbacked.truthful (hreports execution rfl)
  | replaceSource source k =>
    cases hreplace : DynamicRrfSession.replaceSource source (RankSource.rankStream k)
      (session, w) with
    | mk result after =>
      simp only [RankCall.call, SessionCall.run, hreplace] at hrun
      cases hrun
      obtain ⟨hstill, ⟨⟨error, rfl⟩, hbacked⟩ | ⟨hsource, rfl, hbacked⟩⟩ :=
        h.replaceSource (hnew k rfl) hreplace
      · exact ⟨hbacked, hstill, by rintro _ _ ⟨⟩⟩
      have hrebuilt : (RankCall.replaceSource source k).rebuilt built
          (SessionReply.acknowledged (.ok ()) : SessionReply Id n) =
          update built ⟨source, hsource⟩ (.point k) := dif_pos hsource
      rw [hrebuilt]
      exact ⟨hbacked, hstill, by rintro _ _ ⟨⟩⟩

end Stratumind
