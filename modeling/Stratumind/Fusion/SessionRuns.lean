import Stratumind.Fusion.SessionSemantics
import Stratumind.Lib.Feed

/-!
# Exactness of fusion sessions

A session is linked to complete source lists when each of its streams serves one of
them and the session has read a prefix of each. Every call keeps the link, so every
order a session reports is a prefix of the exhaustive order.
-/

namespace Stratumind

open Lib List Function

variable {W ι Id F : Type} {n : ℕ} [DecidableEq ι] [LinearOrder Id] [ToString Id]
  [RankArithmetic F]

/-- The complete source lists of a fusion, with its parameters. -/
structure FusionInput (Id F : Type) (n : ℕ) where
  rrfK : ℕ
  weights : Fin n → F
  lists : Fin n → List Id
  lists_nodup : ∀ source, (lists source).Nodup

/-- The order a fusion of the lists has to report. -/
def FusionInput.order (input : FusionInput Id F n) : List Id :=
  exhaustiveOrder input.rrfK input.weights input.lists

/-- A source of either form serves feed `k` of a supply in batches of at most `size`. -/
def DynamicRrfSource.Serves (supply : Supply W ι Id) (size : ℕ) (k : ι) :
    DynamicRrfSource W Id → Prop
  | .point stream => ServesPoints supply stream k
  | .batch pull => ServesBatches supply (pull size) ChannelRankBatch.pointIds
      ChannelRankBatch.exhausted (fun feed batch => batch.startRank = feed.taken.length) size k

namespace DynamicRrfSession

/-- Each source of the session serves the feed attached to it, and the session has
read exactly what the feed has delivered. -/
structure Linked (supply : Supply W ι Id) (input : FusionInput Id F n) (attached : Fin n → ι)
    (session : DynamicRrfSession W Id F n) (w : W) (feeds : ι → Feed Id) : Prop where
  supplied : supply w feeds
  injective : Injective attached
  size_pos : 0 < session.sourceBatchSize
  serves : ∀ source,
    (session.sources source).Serves supply session.sourceBatchSize (attached source)
  taken_eq : ∀ source, (feeds (attached source)).taken = session.sourceHistory source
  ended_eq : ∀ source, (feeds (attached source)).ended = session.state.exhausted source
  list_eq : ∀ source,
    session.sourceHistory source ++ (feeds (attached source)).rest = input.lists source
  pulls_eq : ∀ source, session.sourcePulls source = (session.sourceHistory source).length
  tracks : session.state.Tracks session.sourceHistory input.lists
  rrfK_eq : session.state.rrfK = input.rrfK
  weights_eq : session.state.weights = input.weights
  exhaustedOrder_eq : ∀ order, session.exhaustedOrder = some order →
    session.state.allSourcesExhausted = true ∧ order = input.order

variable {supply : Supply W ι Id} {input : FusionInput Id F n} {attached : Fin n → ι}
  {session next : DynamicRrfSession W Id F n} {w : W} {feeds : ι → Feed Id}

omit [ToString Id] in
/-- The link only concerns the core of a session. -/
theorem Linked.of_sameCore (h : Linked supply input attached session w feeds)
    (hcore : SameCore session next) : Linked supply input attached next w feeds := by
  cases session
  cases next
  obtain ⟨rfl, rfl, rfl, rfl, rfl, rfl⟩ := hcore
  exact ⟨h.supplied, h.injective, h.size_pos, h.serves, h.taken_eq, h.ended_eq, h.list_eq,
    h.pulls_eq, h.tracks, h.rrfK_eq, h.weights_eq, h.exhaustedOrder_eq⟩

omit [ToString Id] in
/-- A linked session reports a prefix of the order of its input. -/
theorem Linked.pointIds_eq (h : Linked supply input attached session w feeds)
    {execution : DynamicRrfExecution Id n} (hreports : session.Reports execution) :
    execution.pointIds = input.order.take session.state.topK := by
  have hfront := h.tracks.fixedTopK_eq_take hreports.fixed
  rwa [DynamicRrfState.exactOrder, h.rrfK_eq, h.weights_eq] at hfront

variable {source : Fin n}

omit [LinearOrder Id] [ToString Id] [RankArithmetic F] in
/-- Pulling an open source returns the next ranks of the feed it serves. -/
theorem pull_of_serves {k : ι} (hsupply : supply w feeds) (hsize : 0 < session.sourceBatchSize)
    (hserves : (session.sources source).Serves supply session.sourceBatchSize k)
    (hopen : (feeds k).ended = false)
    (hpulls : session.sourcePulls source = (feeds k).taken.length) :
    ∃ batch rest w', session.pull source w = (.ok batch, w') ∧
      batch.startRank = (feeds k).taken.length ∧ (feeds k).rest = batch.pointIds ++ rest ∧
      batch.pointIds.length ≤ session.sourceBatchSize ∧
      (batch.exhausted = true → rest = []) ∧ (batch.pointIds = [] → batch.exhausted = true) ∧
      supply w' (update feeds k ⟨(feeds k).taken ++ batch.pointIds, rest, batch.exhausted⟩) := by
  unfold pull
  cases hsource : session.sources source with
  | batch pull =>
    rw [hsource] at hserves
    exact hserves w feeds hsupply hopen
  | point stream =>
    rw [hsource] at hserves
    obtain ⟨hnext, hend⟩ := hserves w feeds hsupply hopen
    cases hrest : (feeds k).rest with
    | nil =>
      obtain ⟨w', hstream, hsupply'⟩ := hend hrest
      refine ⟨⟨session.sourcePulls source, [], true⟩, [], w', ?_, hpulls, rfl, by simp,
        by simp, by simp, ?_⟩
      · simp only [hstream]
      · simpa using hsupply'
    | cons id rest =>
      obtain ⟨w', hstream, hsupply'⟩ := hnext id rest hrest
      refine ⟨⟨session.sourcePulls source, [id], false⟩, rest, w', ?_, hpulls, rfl, ?_, by simp,
        by simp, hsupply'⟩
      · simp only [hstream]
      · exact hsize

omit [ToString Id] in
/-- A new session is linked to the lists its streams are about to deliver. -/
theorem linked_of_newWithInputs {sources : Fin n → DynamicRrfSource W Id} {sourceBatchSize topK : ℕ}
    {weights : Option (List F)} {sourceCosts : List F} {policy : DynamicRrfPolicy}
    (hnew : newWithInputs sources sourceBatchSize topK input.rrfK weights sourceCosts policy =
      .ok session) (hweights : session.state.weights = input.weights)
    (hsupply : supply w feeds) (hattached : Injective attached)
    (hserves : ∀ source, (sources source).Serves supply sourceBatchSize (attached source))
    (hfeeds : ∀ source, feeds (attached source) = Feed.fresh (input.lists source)) :
    Linked supply input attached session w feeds := by
  obtain ⟨hsize, hstate, hsources, hsize', hpulls, hhistory, horder⟩ := newWithInputs_eq_ok hnew
  have htracks := DynamicRrfState.tracks_of_new hstate input.lists
  obtain ⟨_, _, resolved, _, _, hstart⟩ := DynamicRrfState.new_eq_ok_iff.mp hstate
  refine ⟨hsupply, hattached, hsize'.symm ▸ hsize, ?_, ?_, ?_, ?_, ?_, ?_, ?_, hweights, ?_⟩
  · rw [hsources, hsize']
    exact hserves
  all_goals first | rw [hhistory] | skip
  · exact fun source => by rw [hfeeds]; rfl
  · exact fun source => by rw [hfeeds, hstart]; rfl
  · exact fun source => by rw [hfeeds]; rfl
  · exact fun source => by rw [hpulls]; rfl
  · exact htracks
  · rw [hstart]
  · rw [horder]
    rintro _ ⟨⟩

/-- Ranks and ends still to be read from the complete lists. -/
def unread (lists : Fin n → List Id) (session : DynamicRrfSession W Id F n) : ℕ :=
  ∑ source, ((lists source).length - (session.sourceHistory source).length +
    if session.state.exhausted source then 0 else 1)

omit [LinearOrder Id] [ToString Id] [RankArithmetic F] in
/-- Reading a rank or an end of one open source leaves less to read. -/
theorem unread_record_lt (session : DynamicRrfSession W Id F n) {lists : Fin n → List Id}
    {rest : List Id} {batch : ChannelRankBatch Id} {state : DynamicRrfState Id F n}
    (hopen : session.state.exhausted source = false)
    (hlist : session.sourceHistory source ++ batch.pointIds ++ rest = lists source)
    (hempty : batch.pointIds = [] → batch.exhausted = true)
    (hexhausted : state.exhausted = update session.state.exhausted source batch.exhausted) :
    (session.record source batch state).unread lists < session.unread lists := by
  have hlength := congrArg length hlist
  rw [length_append, length_append] at hlength
  have hsource : (lists source).length - (session.sourceHistory source ++ batch.pointIds).length +
      (if batch.exhausted = true then 0 else 1) <
      (lists source).length - (session.sourceHistory source).length + 1 := by
    rw [length_append]
    cases hids : batch.pointIds with
    | nil =>
      rw [hids] at hempty
      simp [hempty rfl]
    | cons id ids =>
      rw [hids, length_cons] at hlength
      rw [length_cons]
      split <;> omega
  apply Finset.sum_lt_sum
  · intro other _
    by_cases hother : other = source
    · subst hother
      simpa [record, hexhausted, hopen] using hsource.le
    · simp [record, hexhausted, update_of_ne hother]
  · refine ⟨source, Finset.mem_univ source, ?_⟩
    simpa [record, hexhausted, hopen] using hsource

/-- Feeds outside the attached ones are unchanged. -/
def SameElsewhere (attached : Fin n → ι) (before after : ι → Feed Id) : Prop :=
  ∀ k, (∀ source, attached source ≠ k) → after k = before k

omit [ToString Id] in
/-- Recording what an attached feed delivered keeps the link. -/
theorem Linked.record (h : Linked supply input attached session w feeds)
    {batch : ChannelRankBatch Id} {rest : List Id} {state : DynamicRrfState Id F n} {w' : W}
    (hopen : session.state.exhausted source = false)
    (hlist : session.sourceHistory source ++ batch.pointIds ++ rest = input.lists source)
    (htracks : state.Tracks (update session.sourceHistory source
      (session.sourceHistory source ++ batch.pointIds)) input.lists)
    (hexhausted : state.exhausted = update session.state.exhausted source batch.exhausted)
    (hk : state.rrfK = session.state.rrfK) (hweights : state.weights = session.state.weights)
    (hsupply : supply w' (update feeds (attached source)
      ⟨session.sourceHistory source ++ batch.pointIds, rest, batch.exhausted⟩)) :
    Linked supply input attached (session.record source batch state) w'
      (update feeds (attached source)
        ⟨session.sourceHistory source ++ batch.pointIds, rest, batch.exhausted⟩) := by
  have hfeed : ∀ other, other ≠ source → attached other ≠ attached source :=
    fun other hne heq => hne (h.injective heq)
  constructor
  case supplied => exact hsupply
  case injective => exact h.injective
  case size_pos => exact h.size_pos
  case serves => exact h.serves
  case taken_eq =>
    intro other
    by_cases hother : other = source
    · subst hother
      simp [record]
    · simp [DynamicRrfSession.record, update_of_ne, hother, hfeed other hother,
        h.taken_eq]
  case ended_eq =>
    intro other
    by_cases hother : other = source
    · subst hother
      simp [record, hexhausted]
    · simp [DynamicRrfSession.record, update_of_ne, hother, hfeed other hother,
        h.ended_eq, hexhausted]
  case list_eq =>
    intro other
    by_cases hother : other = source
    · subst hother
      simpa [record] using hlist
    · simp [DynamicRrfSession.record, update_of_ne, hother, hfeed other hother,
        h.list_eq]
  case pulls_eq =>
    intro other
    by_cases hother : other = source
    · subst hother
      simp [record, h.pulls_eq]
    · simp [DynamicRrfSession.record, update_of_ne, hother, h.pulls_eq]
  case tracks => exact htracks
  case rrfK_eq => exact hk.trans h.rrfK_eq
  case weights_eq => exact hweights.trans h.weights_eq
  case exhaustedOrder_eq =>
    -- An order is cached only after every source has ended, but this one is open.
    intro order horder
    have hall := all_eq_true.mp (h.exhaustedOrder_eq order horder).1 source
      (mem_finRange source)
    rw [hopen] at hall
    cases hall

/-- Advancing an open source succeeds, keeps the link and leaves less to read. -/
theorem Linked.advance (h : Linked supply input attached session w feeds)
    (hopen : session.state.exhausted source = false) :
    ∃ next w' feeds', session.advance source w = (.ok (), next, w') ∧
      Linked supply input attached next w' feeds' ∧ SameElsewhere attached feeds feeds' ∧
      next.state.topK = session.state.topK ∧
      next.unread input.lists < session.unread input.lists := by
  have hscheduled := h.of_sameCore (sameCore_schedule session source)
  obtain ⟨batch, rest, w', hpull, hstart, hrest, hsize, hlast, hempty, hsupply⟩ :=
    pull_of_serves hscheduled.supplied hscheduled.size_pos (hscheduled.serves source)
      ((h.ended_eq source).trans hopen)
      ((h.pulls_eq source).trans (congrArg length (h.taken_eq source).symm))
  rw [h.taken_eq] at hstart hsupply
  have hlist : session.sourceHistory source ++ batch.pointIds ++ rest = input.lists source := by
    rw [append_assoc, ← hrest, h.list_eq]
  obtain ⟨state, hobserve, htracks, hexhausted, hk, htop, hweights⟩ :=
    h.tracks.observeBatch hopen hstart hlist (input.lists_nodup source) hlast hempty
  have hlink := hscheduled.record hopen hlist htracks hexhausted hk hweights hsupply
  refine ⟨(session.schedule source).record source batch state, w', _, ?_, hlink, ?_, htop, ?_⟩
  · have hlength := not_lt.mpr hsize
    have hobserve' : (session.schedule source).state.observeBatch source batch = .ok state :=
      hobserve
    unfold DynamicRrfSession.advance
    simp only [hpull, if_neg hlength, hobserve']
  · intro k hne
    exact update_of_ne (hne source).symm _ _
  · exact unread_record_lt (session.schedule source) hopen hlist hempty hexhausted

/-- What a call leaves behind: the session is still linked, feeds it does not hold are
untouched, and its target is `topK`. -/
def Settled (supply : Supply W ι Id) (input : FusionInput Id F n) (attached : Fin n → ι)
    (feeds : ι → Feed Id) (topK : ℕ) (after : SessionState W Id F n) : Prop :=
  ∃ feeds', Linked supply input attached after.1 after.2 feeds' ∧
    SameElsewhere attached feeds feeds' ∧ after.1.state.topK = topK

section

variable (h : Linked supply input attached session w feeds)

include h

/-- A linked driver loop returns: it reports an order, or pauses if a target was set. -/
theorem Linked.exists_runLoop (targets : Fin n → Option ℕ) :
    ∃ advanced after, Settled supply input attached feeds session.state.topK after ∧
      (∀ execution, advanced = .fixed execution → after.1.Reports execution) ∧
      (advanced = .paused → ∃ source, (targets source).isSome = true) ∧
      ∀ fuel, session.unread input.lists < fuel →
        runLoop (advanceTurn targets) fuel (session, w) = some (.ok advanced, after) := by
  let inv := Settled supply input attached feeds session.state.topK
  let post := fun result : OperationResult (DynamicRrfAdvance Id n) × SessionState W Id F n =>
    inv result.2 ∧ ∃ advanced, result.1 = .ok advanced ∧
      (∀ execution, advanced = .fixed execution → result.2.1.Reports execution) ∧
      (advanced = .paused → ∃ source, (targets source).isSome = true)
  have hturn : ∀ state, inv state →
      (∃ result, advanceTurn targets state = some (.stop result) ∧ post result) ∨
      ∃ next, advanceTurn targets state = some (.again next) ∧ inv next ∧
        next.1.unread input.lists < state.1.unread input.lists := by
    rintro ⟨current, w'⟩ ⟨feeds', hlinked, helsewhere, htop⟩
    rcases advanceTurn_cases targets current w' with
      ⟨execution, next, ⟨hcore, _⟩, hreports, hturn⟩ | ⟨next, ⟨hcore, _⟩, hpause, _, hturn⟩ |
      ⟨mid, source, ⟨hcore, _⟩, hopen, _, hturn⟩
    · refine Or.inl ⟨_, hturn, ⟨feeds', hlinked.of_sameCore hcore, helsewhere, ?_⟩, _, rfl, ?_,
        by simp⟩
      · rw [hcore.state_eq, htop]
      · rintro _ ⟨⟩
        exact hreports.of_sameCore hcore.symm
    · refine Or.inl ⟨_, hturn, ⟨feeds', hlinked.of_sameCore hcore, helsewhere, ?_⟩, _, rfl,
        by simp, fun _ => ?_⟩
      · rw [hcore.state_eq, htop]
      · obtain ⟨source, _, hsource⟩ := any_eq_true.mp (Bool.and_eq_true_iff.mp hpause).1
        exact ⟨source, hsource⟩
    have hmid := hlinked.of_sameCore hcore
    obtain ⟨next, w'', feeds'', hadvance, hnext, helse, htopK, hlt⟩ :=
      hmid.advance (by rw [hcore.state_eq]; exact hopen)
    refine Or.inr ⟨(next, w''), by rw [hturn, hadvance]; rfl, ⟨feeds'', hnext, ?_, ?_⟩, ?_⟩
    · intro k hk
      rw [helse k hk, helsewhere k hk]
    · rw [htopK, hcore.state_eq, htop]
    · have hunread : mid.unread input.lists = current.unread input.lists := by
        rw [unread, unread, hcore.sourceHistory_eq, hcore.state_eq]
      exact hunread ▸ hlt
  have hstart : inv (session, w) := ⟨feeds, h, fun _ _ => rfl, rfl⟩
  obtain ⟨⟨_, after⟩, ⟨hsettled, advanced, rfl, hreports, hpaused⟩, hrun⟩ :=
    Lib.exists_runLoop (fun state => state.1.unread input.lists) hturn hstart
  exact ⟨advanced, after, hsettled, hreports, hpaused, hrun⟩

/-- Advancing to pause targets returns, and reports prefixes of the order only. -/
theorem Linked.exists_advanceUntilEach (targets : List (Option ℕ)) :
    ∃ result after, Settled supply input attached feeds session.state.topK after ∧
      (∀ execution, result = .ok (.fixed execution) →
        execution.pointIds = input.order.take session.state.topK) ∧
      Returns (fun fuel => advanceUntilEach fuel targets (session, w)) (result, after) := by
  by_cases hlength : targets.length = n
  · obtain ⟨advanced, after, hsettled, hreports, _, hrun⟩ :=
      h.exists_runLoop fun source => targets.get (source.cast hlength.symm)
    refine ⟨.ok advanced, after, hsettled, ?_, session.unread input.lists, fun fuel hfuel => ?_⟩
    · intro execution hexecution
      obtain ⟨feeds', hlinked, _, htop⟩ := hsettled
      rw [hlinked.pointIds_eq (hreports execution (Except.ok.inj hexecution)), htop]
    · exact (dif_pos hlength).trans (hrun fuel hfuel)
  · obtain ⟨error, herror⟩ : ∃ error, ∀ fuel,
        advanceUntilEach fuel targets (session, w) = some (.error error, session, w) :=
      ⟨_, fun fuel => dif_neg hlength⟩
    exact ⟨.error error, (session, w), ⟨feeds, h, fun _ _ => rfl, rfl⟩, by rintro _ ⟨⟩, 0,
      fun fuel _ => herror fuel⟩

/-- Running to completion returns the exact prefix of the current target. -/
theorem Linked.exists_runToCompletion :
    ∃ execution after, Settled supply input attached feeds session.state.topK after ∧
      after.1.Reports execution ∧
      Returns (fun fuel => runToCompletion fuel (session, w)) (.ok execution, after) := by
  obtain ⟨advanced, after, hsettled, hreports, hpaused, hrun⟩ := h.exists_runLoop fun _ => none
  cases advanced with
  | paused =>
    obtain ⟨source, hsource⟩ := hpaused rfl
    cases hsource
  | fixed execution =>
    refine ⟨execution, after, hsettled, hreports execution rfl, session.unread input.lists,
      fun fuel hfuel => ?_⟩
    have hloop : advanceUntilEach fuel (replicate n none) (session, w) =
        some (.ok (.fixed execution), after) := by
      unfold advanceUntilEach
      simp only [length_replicate, dite_true, get_eq_getElem, getElem_replicate]
      exact hrun fuel hfuel
    simp only [runToCompletion, hloop]

omit [ToString Id] in
/-- Extending the target keeps the link. -/
theorem Linked.extendTopK {topK : ℕ} (hextend : session.extendTopK topK = .ok next) :
    Linked supply input attached next w feeds ∧ next.state.topK = topK := by
  unfold DynamicRrfSession.extendTopK at hextend
  dsimp only at hextend
  split at hextend
  · cases hextend
  obtain rfl := Except.ok.inj hextend
  have htracks := h.tracks
  exact ⟨⟨h.supplied, h.injective, h.size_pos, h.serves, h.taken_eq, h.ended_eq, h.list_eq,
    h.pulls_eq, ⟨htracks.rrfK_pos, htracks.contribution_eq, htracks.nextPositions_eq,
    htracks.history_isPrefix, htracks.complete_of_exhausted⟩, h.rrfK_eq, h.weights_eq,
    h.exhaustedOrder_eq⟩, rfl⟩

/-- Running to a prefix returns; what it reports is the exact prefix it was asked for. -/
theorem Linked.exists_runToPrefix (topK : ℕ) :
    ∃ result after target, Settled supply input attached feeds target after ∧
      (∀ execution, result = .ok execution → execution.pointIds = input.order.take topK) ∧
      Returns (fun fuel => runToPrefix fuel topK (session, w)) (result, after) := by
  unfold runToPrefix
  cases hextend : session.extendTopK topK with
  | error error =>
    exact ⟨.error error, (session, w), _, ⟨feeds, h, fun _ _ => rfl, rfl⟩, by rintro _ ⟨⟩, 0,
      fun fuel _ => by simp only⟩
  | ok extended =>
    obtain ⟨hextended, htop⟩ := h.extendTopK hextend
    cases hcached : extended.exhaustedOrder with
    | some order =>
      refine ⟨_, (extended, w), _, ⟨feeds, hextended, fun _ _ => rfl, rfl⟩, ?_, 0,
        fun fuel _ => by simp only [hcached]; rfl⟩
      rintro _ ⟨⟩
      rw [(hextended.exhaustedOrder_eq order hcached).2]
    | none =>
      obtain ⟨execution, ⟨after, w'⟩, ⟨feeds', hlinked, helsewhere, htop'⟩, hreports, enough,
        hrun⟩ := hextended.exists_runToCompletion
      rw [htop] at htop'
      by_cases hreason : execution.stopReason = .allSourcesExhausted
      · have hexhausted := hreports.stopReason_iff.mp hreason
        have horder : after.state.completeOrder = input.order := by
          have hcomplete := hlinked.tracks.completeOrder_eq hexhausted
          rwa [DynamicRrfState.exactOrder, hlinked.rrfK_eq, hlinked.weights_eq] at hcomplete
        refine ⟨.ok { execution with pointIds := after.state.completeOrder.take topK },
          ({ after with exhaustedOrder := some after.state.completeOrder }, w'), topK,
          ⟨feeds', ?_, helsewhere, htop'⟩, ?_, enough, fun fuel hfuel => ?_⟩
        · exact ⟨hlinked.supplied, hlinked.injective, hlinked.size_pos, hlinked.serves,
            hlinked.taken_eq, hlinked.ended_eq, hlinked.list_eq, hlinked.pulls_eq,
            hlinked.tracks, hlinked.rrfK_eq, hlinked.weights_eq,
            fun order hsome => ⟨hexhausted, (Option.some.inj hsome).symm.trans horder⟩⟩
        · rintro _ ⟨⟩
          rw [horder]
        · simp only [hcached, hrun fuel hfuel, hreason, if_true]
      · refine ⟨.ok execution, (after, w'), topK, ⟨feeds', hlinked, helsewhere, htop'⟩, ?_, enough,
          fun fuel hfuel => by simp only [hcached, hrun fuel hfuel, hreason, if_false]⟩
        rintro _ ⟨⟩
        rw [hlinked.pointIds_eq hreports, htop']

end

end DynamicRrfSession

/-!
### Runs of session calls

A client may advance, extend, complete and repair a session in any order. Over a whole
run every reported order is the exact prefix that was asked for.
-/

open DynamicRrfSession

/-- A call a client makes on a session. -/
inductive SessionCall (W Id : Type) where
  | advanceUntilEach (minimumPulls : List (Option ℕ))
  | extendTopK (topK : ℕ)
  | runToPrefix (topK : ℕ)
  | runToCompletion
  | replaceSource (source : ℕ) (replacement : ExactRrfStream W Id)

/-- What a call returns. An advancing call is noted with the target it ran for. -/
inductive SessionReply (Id : Type) (n : ℕ) where
  | advanced (target : ℕ) (result : OperationResult (DynamicRrfAdvance Id n))
  | acknowledged (result : OperationResult Unit)

/-- Makes one call. -/
def SessionCall.run (fuel : ℕ) (start : SessionState W Id F n) :
    SessionCall W Id → Option (SessionReply Id n × SessionState W Id F n)
  | .advanceUntilEach minimumPulls =>
    (DynamicRrfSession.advanceUntilEach fuel minimumPulls start).map fun (result, next) =>
      (.advanced start.1.state.topK result, next)
  | .extendTopK topK =>
    match start.1.extendTopK topK with
    | .error error => some (.acknowledged (.error error), start)
    | .ok session => some (.acknowledged (.ok ()), session, start.2)
  | .runToPrefix topK =>
    (DynamicRrfSession.runToPrefix fuel topK start).map fun (result, next) =>
      (.advanced topK (result.map .fixed), next)
  | .runToCompletion =>
    (DynamicRrfSession.runToCompletion fuel start).map fun (result, next) =>
      (.advanced start.1.state.topK (result.map .fixed), next)
  | .replaceSource source replacement =>
    let (result, next) := DynamicRrfSession.replaceSource source replacement start
    some (.acknowledged result, next)

/-- Makes a list of calls one after the other and collects the replies. -/
def runCalls (fuel : ℕ) :
    List (SessionCall W Id) → SessionState W Id F n →
      Option (List (SessionReply Id n) × SessionState W Id F n)
  | [], start => some ([], start)
  | call :: calls, start =>
    match call.run fuel start with
    | none => none
    | some (reply, next) => (runCalls fuel calls next).map fun (replies, final) =>
        (reply :: replies, final)

/-- The replacement streams of a run: each serves a feed of its own that nobody has
pulled, and that feed holds the complete list of the source it replaces. -/
def Replaces (supply : Supply W ι Id) (full : ι → List Id) (lists : Fin n → List Id) :
    Finset ι → List (SessionCall W Id) → Prop
  | _, [] => True
  | used, .replaceSource source replacement :: calls =>
    ∃ k ∉ used, ServesPoints supply replacement k ∧
      (∀ h : source < n, full k = lists ⟨source, h⟩) ∧
      Replaces supply full lists (insert k used) calls
  | used, _ :: calls => Replaces supply full lists used calls

variable {supply : Supply W ι Id} {input : FusionInput Id F n} {attached : Fin n → ι}
  {session : DynamicRrfSession W Id F n} {w : W} {feeds : ι → Feed Id}

/-- A stream that serves the observed history replays it. -/
theorem replayHistory_of_serves {replacement : ExactRrfStream W Id} {k : ι}
    (hserves : ServesPoints supply replacement k) (source : ℕ) {history taken rest : List Id}
    (rank : ℕ) (hsupply : supply w feeds) (hfeed : feeds k = ⟨taken, history ++ rest, false⟩) :
    ∃ w', replayHistory source replacement rank history w = (.ok (), w') ∧
      supply w' (update feeds k ⟨taken ++ history, rest, false⟩) := by
  induction history generalizing taken rank w feeds with
  | nil =>
    refine ⟨w, rfl, ?_⟩
    rw [List.append_nil, ← List.nil_append rest, ← hfeed, update_eq_self]
    exact hsupply
  | cons expected history ih =>
    obtain ⟨hnext, _⟩ := hserves w feeds hsupply (by rw [hfeed])
    obtain ⟨w', hstream, hsupply'⟩ := hnext expected (history ++ rest) (by rw [hfeed]; rfl)
    obtain ⟨w'', hreplay, hsupply''⟩ := ih (rank + 1) hsupply' (by
      rw [update_self, hfeed])
    refine ⟨w'', ?_, ?_⟩
    · rw [replayHistory, hstream]
      simpa using hreplay
    · simpa [update_idem] using hsupply''

/-- Replacing a source keeps the link, with the replacement's feed attached if the
replacement was accepted. -/
theorem DynamicRrfSession.Linked.replaceSource (h : Linked supply input attached session w feeds)
    {replacement : ExactRrfStream W Id} {k : ι} {list : List Id}
    (hserves : ServesPoints supply replacement k) (hnew : ∀ source, attached source ≠ k)
    (hfeed : feeds k = Feed.fresh list) (source : ℕ)
    (hlist : ∀ h : source < n, list = input.lists ⟨source, h⟩) :
    ∃ attached' feeds',
      Linked supply input attached'
        (replaceSource source replacement (session, w)).2.1
        (replaceSource source replacement (session, w)).2.2 feeds' ∧
      (∀ other, attached' other = attached other ∨ attached' other = k) ∧
      ∀ k', k' ≠ k → (∀ other, attached other ≠ k') → feeds' k' = feeds k' := by
  unfold DynamicRrfSession.replaceSource
  split
  swap
  · exact ⟨attached, feeds, h, fun _ => Or.inl rfl, fun _ _ _ => rfl⟩
  rename_i hsource
  split
  · exact ⟨attached, feeds, h, fun _ => Or.inl rfl, fun _ _ _ => rfl⟩
  rename_i hopen
  set index : Fin n := ⟨source, hsource⟩ with hindex
  rw [hlist hsource, ← h.list_eq index] at hfeed
  obtain ⟨w', hreplay, hsupply⟩ := replayHistory_of_serves hserves source 0 h.supplied hfeed
  simp only [hreplay]
  refine ⟨update attached index k, _, ⟨hsupply, ?_, h.size_pos, ?_, ?_, ?_, ?_, h.pulls_eq,
    h.tracks, h.rrfK_eq, h.weights_eq, h.exhaustedOrder_eq⟩, ?_, ?_⟩
  · have hinjective := h.injective
    exact fun left right heq => by grind
  · intro other
    by_cases hother : other = index
    · subst hother
      simp only [update_self]
      exact hserves
    · simpa [hother] using h.serves other
  · intro other
    have hother := h.taken_eq other
    grind
  · intro other
    have hother := h.ended_eq other
    grind
  · intro other
    have hother := h.list_eq other
    grind
  · grind
  · intro k' hk' _
    exact update_of_ne hk' ..

/-- The session is linked, every attached feed has been used, and no other feed has
been pulled. -/
private def Running (supply : Supply W ι Id) (input : FusionInput Id F n) (full : ι → List Id)
    (used : Finset ι) (state : SessionState W Id F n) : Prop :=
  ∃ attached feeds, Linked supply input attached state.1 state.2 feeds ∧
    (∀ source, attached source ∈ used) ∧ ∀ k ∉ used, feeds k = Feed.fresh (full k)

/-- A reported order is the exact prefix of the target it ran for. -/
private def ExactReply (input : FusionInput Id F n) (reply : SessionReply Id n) : Prop :=
  ∀ target execution, reply = .advanced target (.ok (.fixed execution)) →
    execution.pointIds = input.order.take target

variable {full : ι → List Id}

omit [ToString Id] in
private theorem running_of_settled {used : Finset ι} {topK : ℕ} {after : SessionState W Id F n}
    (hused : ∀ source, attached source ∈ used) (hfresh : ∀ k ∉ used, feeds k = Feed.fresh (full k))
    (h : Settled supply input attached feeds topK after) :
    Running supply input full used after := by
  obtain ⟨feeds', hlinked, helsewhere, _⟩ := h
  refine ⟨attached, feeds', hlinked, hused, fun k hk => ?_⟩
  rw [helsewhere k fun source heq => hk (heq ▸ hused source), hfresh k hk]

private theorem running_call {used : Finset ι} {state : SessionState W Id F n}
    {call : SessionCall W Id} {calls : List (SessionCall W Id)}
    (h : Running supply input full used state)
    (hcalls : Replaces supply full input.lists used (call :: calls)) :
    ∃ reply after used', Returns (fun fuel => call.run fuel state) (reply, after) ∧
      Running supply input full used' after ∧ Replaces supply full input.lists used' calls ∧
      ExactReply input reply := by
  obtain ⟨session, w⟩ := state
  obtain ⟨attached, feeds, hlinked, hused, hfresh⟩ := h
  cases call with
  | advanceUntilEach targets =>
    obtain ⟨result, after, hsettled, hexact, hreturns⟩ :=
      hlinked.exists_advanceUntilEach targets
    refine ⟨.advanced session.state.topK result, after, used, hreturns.map _,
      running_of_settled hused hfresh hsettled, hcalls, ?_⟩
    rintro target execution ⟨⟩
    exact hexact execution rfl
  | extendTopK topK =>
    cases hextend : session.extendTopK topK with
    | error error =>
      exact ⟨.acknowledged (.error error), (session, w), used,
        by simpa only [SessionCall.run, hextend] using returns_some _,
        ⟨attached, feeds, hlinked, hused, hfresh⟩, hcalls, by rintro _ _ ⟨⟩⟩
    | ok next =>
      exact ⟨.acknowledged (.ok ()), (next, w), used,
        by simpa only [SessionCall.run, hextend] using returns_some _,
        ⟨attached, feeds, (hlinked.extendTopK hextend).1, hused, hfresh⟩, hcalls,
        by rintro _ _ ⟨⟩⟩
  | runToPrefix topK =>
    obtain ⟨result, after, _, hsettled, hexact, hreturns⟩ := hlinked.exists_runToPrefix topK
    refine ⟨.advanced topK (result.map .fixed), after, used, hreturns.map _,
      running_of_settled hused hfresh hsettled, hcalls, ?_⟩
    intro target execution hreply
    obtain ⟨rfl, hresult⟩ := SessionReply.advanced.inj hreply
    cases result with
    | error error => cases hresult
    | ok reported =>
      cases hresult
      exact hexact execution rfl
  | runToCompletion =>
    obtain ⟨reported, after, hsettled, hreports, hreturns⟩ := hlinked.exists_runToCompletion
    refine ⟨.advanced session.state.topK (.ok (.fixed reported)), after, used, hreturns.map _,
      running_of_settled hused hfresh hsettled, hcalls, ?_⟩
    rintro target execution ⟨⟩
    obtain ⟨_, hlinked', _, htop⟩ := hsettled
    rw [hlinked'.pointIds_eq hreports, htop]
  | replaceSource source replacement =>
    obtain ⟨k, hk, hserves, hlist, hrest⟩ := hcalls
    obtain ⟨attached', feeds', hlinked', hattached, hfeeds⟩ := hlinked.replaceSource hserves
      (fun other heq => hk (heq ▸ hused other)) (hfresh k hk) source hlist
    refine ⟨.acknowledged (DynamicRrfSession.replaceSource source replacement (session, w)).1,
      (DynamicRrfSession.replaceSource source replacement (session, w)).2, insert k used,
      returns_some _, ⟨attached', feeds', hlinked', ?_, ?_⟩, hrest, by rintro _ _ ⟨⟩⟩
    · intro other
      grind
    grind

private theorem running_calls (calls : List (SessionCall W Id)) :
    ∀ {used : Finset ι} {state : SessionState W Id F n},
      Running supply input full used state → Replaces supply full input.lists used calls →
      ∃ replies final, Returns (fun fuel => runCalls fuel calls state) (replies, final) ∧
        ∀ reply ∈ replies, ExactReply input reply := by
  induction calls with
  | nil => exact fun _ _ => ⟨[], _, returns_some _, by simp⟩
  | cons call calls ih =>
    intro used state h hcalls
    obtain ⟨reply, after, used', ⟨enough, hcall⟩, hrunning, hrest, hexact⟩ :=
      running_call h hcalls
    obtain ⟨replies, final, ⟨more, hruns⟩, hreplies⟩ := ih hrunning hrest
    refine ⟨reply :: replies, final, ⟨max enough more, fun fuel hfuel => ?_⟩, ?_⟩
    · simp only [runCalls, hcall fuel (lt_of_le_of_lt (le_max_left ..) hfuel),
        hruns fuel (lt_of_le_of_lt (le_max_right ..) hfuel), Option.map_some]
    · exact List.forall_mem_cons.mpr ⟨hexact, hreplies⟩

/-- Pulls up to a number of ranks of feed `k` in a world that consists of its feeds. -/
def ownRankBatch (k : ι) : ExactRrfBatchStream (ι → Feed Id) Id :=
  ownBatch (fun feed ids last => ⟨feed.taken.length, ids, last⟩) k

omit [LinearOrder Id] [ToString Id] in
/-- Rank batches of a world that consists of its feeds serve them. -/
theorem ownRankBatch_serves {size : ℕ} (hsize : 0 < size) (k : ι) :
    (DynamicRrfSource.batch (ownRankBatch k)).Serves (ownSupply (α := Id)) size k := by
  unfold DynamicRrfSource.Serves ownRankBatch
  refine ownBatch_serves ?_ ?_ ?_ hsize k <;> exact fun _ _ _ => rfl

/-- Exactness of dynamic rank fusion. In any run of calls on an accepted session whose
streams, replacements included, deliver complete duplicate-free lists, the run returns and
every reported order is the prefix of the exhaustive order that the call asked for. -/
theorem session_reports_exact_prefixes {responses : Fin n → List (ScoredPoint Id F)}
    {sources : Fin n → DynamicRrfSource W Id} {sourceBatchSize topK rrfK : ℕ}
    {weights : Option (List F)} {sourceCosts : List F} {policy : DynamicRrfPolicy}
    (hnew : newWithInputs sources sourceBatchSize topK rrfK weights sourceCosts policy =
      .ok session)
    (hnodup : ∀ source, ((responses source).map ScoredPoint.id).Nodup)
    (hattached : Injective attached)
    (hserves : ∀ source, (sources source).Serves supply sourceBatchSize (attached source))
    {full : ι → List Id}
    (hfull : ∀ source, full (attached source) = (responses source).map ScoredPoint.id)
    (hsupply : supply w fun k => Feed.fresh (full k)) {calls : List (SessionCall W Id)}
    (hcalls : Replaces supply full (fun source => (responses source).map ScoredPoint.id)
      (Finset.univ.image attached) calls) :
    ∃ ranked replies final,
      exactRrfScoring (List.ofFn responses) rrfK weights = .ok ranked ∧
      ranked.map ScoredPoint.id = exhaustiveOrder rrfK session.state.weights
        (fun source => (responses source).map ScoredPoint.id) ∧
      Returns (fun fuel => runCalls fuel calls (session, w)) (replies, final) ∧
      ∀ target execution, .advanced target (.ok (.fixed execution)) ∈ replies →
        execution.pointIds = (ranked.map ScoredPoint.id).take target := by
  obtain ⟨_, hstate, _⟩ := newWithInputs_eq_ok hnew
  obtain ⟨_, _, resolved, hweights, _, hstart⟩ := DynamicRrfState.new_eq_ok_iff.mp hstate
  let input : FusionInput Id F n :=
    ⟨rrfK, session.state.weights, fun source => (responses source).map ScoredPoint.id, hnodup⟩
  obtain ⟨ranked, hscoring, hranked⟩ := exactRrfScoring_eq_exhaustiveOrder (k := rrfK) hweights
    responses hnodup
  have hresolved : session.state.weights = resolved := by rw [hstart]
  have horder : ranked.map ScoredPoint.id = input.order := by
    rw [hranked, ← hresolved]
    rfl
  have hlinked : Linked supply input attached session w fun k => Feed.fresh (full k) :=
    linked_of_newWithInputs hnew rfl hsupply hattached hserves fun source => by rw [hfull]
  have hrunning : Running supply input full (Finset.univ.image attached) (session, w) :=
    ⟨attached, _, hlinked, fun source => Finset.mem_image_of_mem _ (Finset.mem_univ source),
      fun _ _ => rfl⟩
  obtain ⟨replies, final, hreturns, hexact⟩ := running_calls calls hrunning hcalls
  refine ⟨ranked, replies, final, hscoring, horder, hreturns, fun target execution hmem => ?_⟩
  rw [horder]
  exact hexact _ hmem target execution rfl

/-- Two sources, one of them replaced in the middle of the run. -/
theorem session_reports_exact_prefixes_two_sources :
    let lists : Fin 3 → List ℕ := ![[1, 2, 3], [2, 4], [1, 2, 3]]
    let sources : Fin 2 → DynamicRrfSource (Fin 3 → Feed ℕ) ℕ :=
      ![.point (ownNext 0), .batch (ownRankBatch 1)]
    let responses : Fin 2 → List (ScoredPoint ℕ ℚ) :=
      fun source => (lists source.castSucc).map fun id => ⟨id, 0, 0⟩
    let calls : List (SessionCall (Fin 3 → Feed ℕ) ℕ) :=
      [.advanceUntilEach [some 1, none], .runToPrefix 2, .replaceSource 0 (ownNext 2),
        .runToPrefix 4]
    ∃ (session : DynamicRrfSession _ ℕ ℚ 2) (ranked : List (ScoredPoint ℕ ℚ)) (replies : _)
      (final : _),
      newWithInputs sources 2 1 60 (some [1, 2]) [1, 2] .default = .ok session ∧
      exactRrfScoring (List.ofFn responses) 60 (some [1, 2]) = .ok ranked ∧
      Returns (fun fuel => runCalls fuel calls (session, fun k => Feed.fresh (lists k)))
        (replies, final) ∧
      ∀ target execution, .advanced target (.ok (.fixed execution)) ∈ replies →
        execution.pointIds = (ranked.map ScoredPoint.id).take target := by
  intro lists sources responses calls
  have hserves : ∀ source, (sources source).Serves ownSupply 2 source.castSucc :=
    Fin.forall_fin_two.mpr ⟨ownNext_serves 0, ownRankBatch_serves (by decide) 1⟩
  have hcalls : Replaces ownSupply lists (fun source => (responses source).map ScoredPoint.id)
      (Finset.univ.image Fin.castSucc) calls :=
    ⟨2, by decide, ownNext_serves 2, by decide, trivial⟩
  obtain ⟨ranked, replies, final, hscoring, _, hreturns, hexact⟩ :=
    session_reports_exact_prefixes (show newWithInputs sources 2 1 60 (some [(1 : ℚ), 2]) [1, 2]
      .default = .ok _ from rfl) (by decide) (Fin.castSucc_injective 2) hserves (by decide) rfl
      hcalls
  exact ⟨_, ranked, replies, final, rfl, hscoring, hreturns, hexact⟩

end Stratumind
