import Stratumind.Fusion.Types
import Stratumind.Lib.Loop
import Stratumind.Lib.MaxHeap

/-!
# The merge of the Segments of one Shard

The pull and merge machinery of `shard/src/exact_shard_stream.rs` over `m` Segments.
A pull closure is its behaviour: a reply for each limit, and the behaviour that follows.
The shared cancellation flag is the sequence of values it has each time it is read.
Counters are natural numbers.
-/

namespace Stratumind

open Lib

/-- How a Segment produces its ranking. -/
inductive ExactSourceMode where
  | exact
  | exhaustiveFallback
  deriving DecidableEq, Repr

/-- What a merge reports about its work. -/
structure ExactShardStreamTelemetry where
  sources : ℕ
  visiblePointCopies : ℕ
  exactSources : ℕ
  exhaustiveFallbackSources : ℕ
  pointsPulled : ℕ
  pointsEmitted : ℕ
  duplicatesSuppressed : ℕ
  /-- Physical batch replies fetched from Segment sessions. -/
  batchRequests : ℕ
  /-- Physical scored points returned by Segment sessions. -/
  pointsReceived : ℕ
  deriving DecidableEq, Repr

/-- One physical reply of a Segment session. -/
structure BatchReply (Id S : Type) where
  points : List (ScoredPoint Id S)
  eof : Bool

/-- A pull closure: its reply to a limit, and its behaviour after that pull. A session
that has ended keeps replying so. -/
inductive PullBatch (Id S : Type) where
  | ended
  | step (reply : ℕ → OperationResult (BatchReply Id S)) (next : ℕ → PullBatch Id S)

/-- One logical Segment score source. -/
structure SegmentScoreSource (Id S : Type) where
  pull : PullBatch Id S
  buffer : List (ScoredPoint Id S)
  eof : Bool
  mode : ExactSourceMode
  previous : Option (ScoredPoint Id S)

/-- What removing the first point of a source returns. -/
structure SourcePop (Id S : Type) where
  point : Option (ScoredPoint Id S)
  batchRequests : ℕ
  pointsReceived : ℕ

/-- The head of a Segment. -/
structure PendingPoint (Id S : Type) (m : ℕ) where
  source : Fin m
  point : ScoredPoint Id S

/-- Exact score stream merged across every frozen Segment in one Shard. -/
structure ExactShardMergeState (Id S : Type) (m : ℕ) where
  sources : Fin m → SegmentScoreSource Id S
  pending : List (PendingPoint Id S m)
  seen : Finset Id
  batchSize : ℕ
  /-- The values of the cancellation flag at the reads to come. -/
  stopped : ℕ → Bool
  channel : String
  telemetry : ExactShardStreamTelemetry
  terminalError : Option OperationError

variable {Id S : Type} {m : ℕ} [LinearOrder Id] [Score S]

/-- The descending score and ascending identity order of scored points. -/
def SegmentScoreSource.exactScoreOrder (left right : ScoredPoint Id S) : Ordering :=
  (compare right.score left.score).then (compare left.id right.id)

/-- Checks the scores and the order of a pulled batch. -/
def validateSourceBatch (source : Fin m) :
    Option (ScoredPoint Id S) → List (ScoredPoint Id S) → OperationResult Unit
  | _, [] => .ok ()
  | previous, point :: points =>
    if !Score.isFinite point.score then
      .error (.validationError s!"exact Segment source {source} produced a non-finite score")
    else if previous.any fun previous =>
        SegmentScoreSource.exactScoreOrder previous point = .gt then
      .error (.validationError
        s!"exact Segment source {source} violated descending score/identity order")
    else validateSourceBatch source (some point) points

/-- The heap order of heads: the greatest head is the next to be returned. -/
def PendingPoint.cmp (self other : PendingPoint Id S m) : Ordering :=
  (((compare self.point.score other.point.score).then
    (compare other.point.id self.point.id)).then
      (compare self.point.version other.point.version)).then (compare other.source self.source)

namespace SegmentScoreSource

/-- A source that is pulled on demand. -/
def onDemand (pull : PullBatch Id S) (mode : ExactSourceMode) : SegmentScoreSource Id S where
  pull
  buffer := []
  eof := false
  mode
  previous := none

/-- Pulls until the buffer holds a point or the Segment has ended, counting the replies
and the points received. -/
def fill (batchSize : ℕ) (index : Fin m) (source : SegmentScoreSource Id S) :
    PullBatch Id S → List (ScoredPoint Id S) → Bool → ℕ → ℕ →
      OperationResult (ℕ × ℕ) × SegmentScoreSource Id S
  | .ended, buffer, eof, requests, received =>
    if buffer.isEmpty && !eof then
      (.ok (requests + 1, received), { source with pull := .ended, buffer := [], eof := true })
    else (.ok (requests, received), { source with pull := .ended, buffer, eof })
  | .step reply next, buffer, eof, requests, received =>
    if buffer.isEmpty && !eof then
      match reply batchSize with
      | .error error => (.error error, { source with pull := next batchSize, buffer, eof })
      | .ok batch =>
        match validateSourceBatch index source.previous batch.points with
        | .error error =>
          (.error error, { source with pull := next batchSize, buffer, eof := batch.eof })
        | .ok () => fill batchSize index source (next batchSize) batch.points batch.eof
            (requests + 1) (received + batch.points.length)
    else (.ok (requests, received), { source with pull := .step reply next, buffer, eof })

/-- Removes the first point of a source. -/
def pop (batchSize : ℕ) (index : Fin m) (source : SegmentScoreSource Id S) :
    OperationResult (SourcePop Id S) × SegmentScoreSource Id S :=
  match source.fill batchSize index source.pull source.buffer source.eof 0 0 with
  | (.error error, source) => (.error error, source)
  | (.ok (batchRequests, pointsReceived), source) =>
    let point := source.buffer.head?
    (.ok ⟨point, batchRequests, pointsReceived⟩,
      { source with buffer := source.buffer.tail, previous := point.or source.previous })

end SegmentScoreSource

namespace ExactShardMergeState

/-- Puts the next point of a Segment on the heap, if it has one. -/
def pullSource (source : Fin m) (limit : ℕ) (state : ExactShardMergeState Id S m) :
    OperationResult Unit × ExactShardMergeState Id S m :=
  match (state.sources source).pop limit source with
  | (.error error, changed) =>
    (.error error, { state with sources := Function.update state.sources source changed })
  | (.ok result, changed) =>
    let pulled := { state with
      sources := Function.update state.sources source changed
      telemetry := { state.telemetry with
        batchRequests := state.telemetry.batchRequests + result.batchRequests
        pointsReceived := state.telemetry.pointsReceived + result.pointsReceived } }
    match result.point with
    | none => (.ok (), pulled)
    | some point => (.ok (), { pulled with
        telemetry := { pulled.telemetry with pointsPulled := pulled.telemetry.pointsPulled + 1 }
        pending := ⟨source, point⟩ :: pulled.pending })

/-- Pulls the given Segments one after the other. -/
def pullSources (limit : ℕ) : List (Fin m) → ExactShardMergeState Id S m →
    OperationResult Unit × ExactShardMergeState Id S m
  | [], state => (.ok (), state)
  | source :: sources, state =>
    match state.pullSource source limit with
    | (.error error, state) => (.error error, state)
    | (.ok (), state) => pullSources limit sources state

/-- The counters of a merge of the given sources. -/
def openTelemetry (sources : Fin m → SegmentScoreSource Id S) (visiblePointCopies : ℕ) :
    ExactShardStreamTelemetry where
  sources := m
  visiblePointCopies
  exactSources := (List.finRange m).countP fun source => (sources source).mode = .exact
  exhaustiveFallbackSources :=
    (List.finRange m).countP fun source => (sources source).mode = .exhaustiveFallback
  pointsPulled := 0
  pointsEmitted := 0
  duplicatesSuppressed := 0
  batchRequests := 0
  pointsReceived := 0

/-- `open`: a merge with one head pulled from each Segment. -/
def openMerge (sources : Fin m → SegmentScoreSource Id S) (visiblePointCopies batchSize : ℕ)
    (stopped : ℕ → Bool) (channel : String) : OperationResult (ExactShardMergeState Id S m) :=
  if batchSize = 0 then
    .error (.validationError s!"{channel} Shard batch size must be positive")
  else
    let stream : ExactShardMergeState Id S m :=
      { sources, pending := [], seen := ∅, batchSize, stopped, channel
        telemetry := openTelemetry sources visiblePointCopies
        terminalError := none }
    match pullSources 1 (List.finRange m) stream with
    | (.error error, _) => .error error
    | (.ok (), stream) => .ok stream

section Step

variable [ToString Id]

/-- Removes the other heads with the identity and score of `point`, collecting their
sources. They must agree on the version. -/
def suppressDuplicates (channel : String) (point : ScoredPoint Id S)
    (pending : List (PendingPoint Id S m)) (contributing : List (Fin m)) (suppressed : ℕ) :
    OperationResult (List (Fin m)) × List (PendingPoint Id S m) × ℕ :=
  match h : popMax PendingPoint.cmp pending with
  | none => (.ok contributing, pending, suppressed)
  | some (duplicate, rest) =>
    if duplicate.point.id = point.id ∧ duplicate.point.score = point.score then
      if duplicate.point.version ≠ point.version then
        let id := point.id
        let version := point.version
        let other := duplicate.point.version
        (.error (.inconsistentStorage
          (s!"exact {channel} Shard generation contains point {id} at conflicting versions " ++
            s!"{version} and {other}")), rest, suppressed)
      else suppressDuplicates channel point rest (contributing ++ [duplicate.source])
        (suppressed + 1)
    else (.ok contributing, pending, suppressed)
  termination_by pending.length
  decreasing_by
    have hlength := (popMax_perm h).length_eq
    simp at hlength
    omega

/-- Returns the greatest head and refills every Segment that held a copy of it. -/
def nextInner (state : ExactShardMergeState Id S m) :
    OperationResult (Option (ScoredPoint Id S)) × ExactShardMergeState Id S m :=
  let channel := state.channel
  let stopped := state.stopped 0
  let state := { state with stopped := fun read => state.stopped (read + 1) }
  if stopped then
    (.error (.cancelled s!"exact {channel} Shard stream was cancelled"), state)
  else
    match popMax PendingPoint.cmp state.pending with
    | none => (.ok none, state)
    | some (⟨source, point⟩, rest) =>
      match suppressDuplicates channel point rest [source] state.telemetry.duplicatesSuppressed with
      | (.error error, pending, duplicatesSuppressed) =>
        (.error error, { state with
          pending, telemetry := { state.telemetry with duplicatesSuppressed } })
      | (.ok contributing, pending, duplicatesSuppressed) =>
        let popped := { state with
          pending, telemetry := { state.telemetry with duplicatesSuppressed } }
        match pullSources state.batchSize contributing popped with
        | (.error error, state) => (.error error, state)
        | (.ok (), state) =>
          let id := point.id
          if id ∈ state.seen then
            (.error (.inconsistentStorage
              s!"exact {channel} Shard generation emitted point {id} more than once"), state)
          else
            (.ok (some point), { state with
              seen := insert id state.seen
              telemetry := { state.telemetry with
                pointsEmitted := state.telemetry.pointsEmitted + 1 } })

/-- The next points of the Shard, at most `maxResults` of them. A failure is sticky. -/
def nextBatch (maxResults : ℕ) (state : ExactShardMergeState Id S m) :
    OperationResult (List (ScoredPoint Id S)) × ExactShardMergeState Id S m :=
  let channel := state.channel
  if maxResults = 0 then
    (.error (.validationError s!"exact {channel} Shard output batch size must be positive"), state)
  else
    match state.terminalError with
    | some error => (.error error, state)
    | none =>
      match collect nextInner maxResults state with
      | (.error error, state) =>
        (.error error, { state with pending := [], terminalError := some error })
      | (.ok output, state) => (.ok output, state)

end Step

end ExactShardMergeState

/-!
### What a Shard merge has read and returned

The Segments deliver lists through any batching. The state of a merge is explained by what
each Segment has contributed and by the sequence returned so far. Pulling Segments whose
lists are in order never fails.
-/

open List

/-- The key of the descending score and ascending identity order. -/
def ScoredPoint.key (point : ScoredPoint Id S) : Sᵒᵈ ×ₗ Id := rankKey point.score point.id

/-- The order check fails exactly when the earlier point should come later. -/
theorem SegmentScoreSource.exactScoreOrder_eq_gt {left right : ScoredPoint Id S} :
    exactScoreOrder left right = .gt ↔ right.key < left.key := by
  have hcompare : exactScoreOrder left right = compare left.key right.key := rfl
  rw [hcompare, compare_gt_iff_gt]

/-- The heap order is the reverse of the order of keys, descending versions and sources. -/
theorem PendingPoint.cmp_eq (a b : PendingPoint Id S m) :
    a.cmp b = compare
      (toLex (toLex (b.point.key, OrderDual.toDual b.point.version), b.source))
      (toLex (toLex (a.point.key, OrderDual.toDual a.point.version), a.source)) := rfl

/-- The closure delivers the list, in batches of any sizes that may also be empty. The end
may be flagged with the last points or after them. -/
def PullBatch.Delivers : PullBatch Id S → List (ScoredPoint Id S) → Prop
  | .ended, list => list = []
  | .step reply next, list => ∀ limit, 0 < limit → ∃ batch rest, reply limit = .ok batch ∧
      list = batch.points ++ rest ∧ (batch.eof = true → rest = []) ∧ (next limit).Delivers rest

/-- A batch of finite scores that continues the order is accepted. -/
theorem validateSourceBatch_eq_ok {source : Fin m} {points : List (ScoredPoint Id S)}
    {previous : Option (ScoredPoint Id S)}
    (hfinite : ∀ point ∈ points, Score.isFinite point.score = true)
    (hsorted : (previous.toList ++ points).Pairwise fun left right => left.key ≤ right.key) :
    validateSourceBatch source previous points = .ok () := by
  induction points generalizing previous with
  | nil => rfl
  | cons point points ih =>
    have horder : (previous.any fun previous =>
        SegmentScoreSource.exactScoreOrder previous point = .gt) = false := by
      cases previous with
      | none => rfl
      | some previous =>
        have hle : previous.key ≤ point.key := (pairwise_cons.mp hsorted).1 point (by simp)
        rw [Option.any_some, decide_eq_false_iff_not, SegmentScoreSource.exactScoreOrder_eq_gt,
          not_lt]
        exact hle
    rw [validateSourceBatch]
    grind

namespace SegmentScoreSource

/-- The points a source has still to hand out. -/
def Holds (source : SegmentScoreSource Id S) (unread : List (ScoredPoint Id S)) : Prop :=
  ∃ rest, source.pull.Delivers rest ∧ source.buffer ++ rest = unread ∧
    (source.eof = true → rest = [])

/-- Filling the buffer keeps what the source holds, and leaves the buffer empty only when
nothing is left. -/
theorem fill_eq {batchSize : ℕ} (hsize : 0 < batchSize) (index : Fin m)
    {source : SegmentScoreSource Id S} {pull : PullBatch Id S}
    {buffer rest : List (ScoredPoint Id S)}
    {eof : Bool} (hpull : pull.Delivers rest) (heof : eof = true → rest = [])
    (hfinite : ∀ point ∈ rest, Score.isFinite point.score = true)
    (hsorted : (source.previous.toList ++ (buffer ++ rest)).Pairwise
      fun left right => left.key ≤ right.key) (requests received : ℕ) :
    ∃ counts filled,
      source.fill batchSize index pull buffer eof requests received = (.ok counts, filled) ∧
      filled.previous = source.previous ∧ filled.Holds (buffer ++ rest) ∧
      (filled.buffer = [] → buffer ++ rest = []) := by
  induction pull generalizing buffer rest eof requests received with
  | ended =>
    obtain rfl : rest = [] := hpull
    unfold fill
    split
    · rename_i hempty
      have hbuffer : buffer = [] := by
        rw [Bool.and_eq_true, List.isEmpty_iff] at hempty
        exact hempty.1
      subst hbuffer
      exact ⟨_, _, rfl, rfl, ⟨[], rfl, rfl, fun _ => rfl⟩, fun _ => rfl⟩
    · exact ⟨_, _, rfl, rfl, ⟨[], rfl, rfl, fun _ => rfl⟩, fun hnil => by simpa using hnil⟩
  | step reply next ih =>
    unfold fill
    split
    · rename_i hempty
      have hbuffer : buffer = [] := by
        rw [Bool.and_eq_true, List.isEmpty_iff] at hempty
        exact hempty.1
      subst hbuffer
      obtain ⟨batch, rest', hreply, hrest, hend, hnext⟩ := hpull batchSize hsize
      subst hrest
      rw [nil_append] at hsorted
      have hvalid : validateSourceBatch index source.previous batch.points = .ok () := by
        apply validateSourceBatch_eq_ok
        · exact fun point hpoint => hfinite point (mem_append_left _ hpoint)
        · rw [← append_assoc] at hsorted
          exact (pairwise_append.mp hsorted).1
      simp only [hreply, hvalid]
      have hrest : ∀ point ∈ rest', Score.isFinite point.score = true :=
        fun point hpoint => hfinite point (mem_append_right _ hpoint)
      exact ih batchSize hnext hend hrest hsorted _ _
    · rename_i hstop
      refine ⟨_, _, rfl, rfl, ⟨rest, hpull, rfl, heof⟩, fun hnil => ?_⟩
      subst hnil
      have hended : eof = true := by simpa using hstop
      rw [heof hended, append_nil]

/-- Removing the first point of a source whose points are in order. -/
theorem pop_eq {batchSize : ℕ} (hsize : 0 < batchSize) (index : Fin m)
    {source : SegmentScoreSource Id S} {unread : List (ScoredPoint Id S)}
    (hholds : source.Holds unread) (hfinite : ∀ point ∈ unread, Score.isFinite point.score = true)
    (hsorted : (source.previous.toList ++ unread).Pairwise fun left right => left.key ≤ right.key) :
    ∃ requests received popped, source.pop batchSize index =
        (.ok ⟨unread.head?, requests, received⟩, popped) ∧
      popped.previous = unread.head?.or source.previous ∧ popped.Holds unread.tail := by
  obtain ⟨rest, hpull, rfl, heof⟩ := hholds
  obtain ⟨counts, filled, hfill, hprevious, ⟨rest', hpull', hunread, heof'⟩, hempty⟩ :=
    fill_eq hsize index hpull heof
      (fun point hpoint => hfinite point (mem_append_right _ hpoint)) hsorted 0 0
  have hsplit : (source.buffer ++ rest).head? = filled.buffer.head? ∧
      filled.buffer.tail ++ rest' = (source.buffer ++ rest).tail := by
    cases hbuffer : filled.buffer with
    | nil =>
      grind
    | cons point buffer =>
      rw [← hunread, hbuffer]
      exact ⟨rfl, rfl⟩
  refine ⟨counts.1, counts.2, { filled with
    buffer := filled.buffer.tail, previous := filled.buffer.head?.or filled.previous }, ?_, ?_,
    ⟨rest', hpull', hsplit.2, heof'⟩⟩
  · unfold pop
    rw [hfill, hsplit.1]
  · rw [hsplit.1, hprevious]

end SegmentScoreSource

namespace ExactShardMergeState

/-- Every list is in order with finite scores. -/
structure Ordered (lists : Fin m → List (ScoredPoint Id S)) : Prop where
  finite : ∀ source, ∀ point ∈ lists source, Score.isFinite point.score = true
  sorted : ∀ source, (lists source).Pairwise fun left right => left.key ≤ right.key

variable {lists past : Fin m → List (ScoredPoint Id S)}
  {head : Fin m → Option (ScoredPoint Id S)} {state : ExactShardMergeState Id S m}

/-- The heap and the Segments, in terms of what each Segment has contributed: `past` was
returned or suppressed and `head` is on the heap. The Segments in `todo` are to be pulled. -/
structure Heads (lists : Fin m → List (ScoredPoint Id S)) (state : ExactShardMergeState Id S m)
    (past : Fin m → List (ScoredPoint Id S)) (head : Fin m → Option (ScoredPoint Id S))
    (todo : List (Fin m)) : Prop where
  healthy : state.terminalError = none
  running : ∀ read, state.stopped read = false
  size_pos : 0 < state.batchSize
  holds : ∀ source, ∃ unread, (state.sources source).Holds unread ∧
    past source ++ (head source).toList ++ unread = lists source
  previous_eq : ∀ source,
    (state.sources source).previous = (past source ++ (head source).toList).getLast?
  pending_nodup : state.pending.Nodup
  mem_pending : ∀ entry, entry ∈ state.pending ↔ head entry.source = some entry.point
  drained : ∀ source, head source = none → source ∈ todo ∨ past source = lists source

/-- Pulling a Segment without a head whose list is in order. -/
theorem Heads.pullSource (hordered : Ordered lists) {source : Fin m} {todo : List (Fin m)}
    (h : Heads lists state past head (source :: todo)) (hnone : head source = none) {limit : ℕ}
    (hlimit : 0 < limit) :
    ∃ next head', state.pullSource source limit = (.ok (), next) ∧
      Heads lists next past head' todo ∧ (∀ other, other ≠ source → head' other = head other) ∧
      next.seen = state.seen := by
  obtain ⟨unread, hholds, hlist⟩ := h.holds source
  rw [hnone, Option.toList_none, append_nil] at hlist
  have hprevious := h.previous_eq source
  rw [hnone, Option.toList_none, append_nil] at hprevious
  have hsorted := hordered.sorted source
  rw [← hlist] at hsorted
  have hlast : (past source).getLast?.toList.Sublist (past source) := by
    grind
  obtain ⟨requests, received, popped, hpop, hpopped, hunread⟩ :=
    SegmentScoreSource.pop_eq hlimit source hholds
      (fun point hpoint => hordered.finite source point (by
        rw [← hlist]
        exact mem_append_right _ hpoint))
      (by
        rw [hprevious]
        exact hsorted.sublist (hlast.append_right _))
  unfold ExactShardMergeState.pullSource
  rw [hpop]
  cases hhead : unread.head? with
  | none =>
    have hnil : unread = [] := head?_eq_none_iff.mp hhead
    subst hnil
    refine ⟨_, head, rfl, ⟨h.healthy, h.running, h.size_pos, ?_, ?_, h.pending_nodup,
      h.mem_pending, ?_⟩, fun _ _ => rfl, rfl⟩
    · intro other
      by_cases hother : other = source
      · subst hother
        exact ⟨[], by simpa using hunread, by simpa [hnone] using hlist⟩
      · simpa [hother] using h.holds other
    · intro other
      have hold := h.previous_eq other
      grind
    · intro other hother
      have hold := h.drained other hother
      grind
  | some point =>
    obtain ⟨rest, rfl⟩ := head?_eq_some_iff.mp hhead
    refine ⟨_, Function.update head source (some point), rfl, ⟨h.healthy, h.running, h.size_pos,
      ?_, ?_, ?_, ?_, ?_⟩, fun other hother => Function.update_of_ne hother .., rfl⟩
    · intro other
      by_cases hother : other = source
      · subst hother
        exact ⟨rest, by simpa using hunread, by simpa using hlist⟩
      · simpa [hother] using h.holds other
    · intro other
      by_cases hother : other = source
      · subst hother
        simp [hpopped]
      · simpa [hother] using h.previous_eq other
    · refine nodup_cons.mpr ⟨fun hmem => ?_, h.pending_nodup⟩
      cases hnone.symm.trans ((h.mem_pending _).mp hmem)
    · rintro ⟨other, point'⟩
      rw [mem_cons, h.mem_pending, PendingPoint.mk.injEq]
      grind
    intro other hother
    have hold := h.drained other
    grind

/-- Pulling every Segment that is to be pulled. -/
theorem Heads.pullSources (hordered : Ordered lists) {todo : List (Fin m)}
    (h : Heads lists state past head todo) (htodo : todo.Nodup)
    (hnone : ∀ source ∈ todo, head source = none) {limit : ℕ} (hlimit : 0 < limit) :
    ∃ next head', state.pullSources limit todo = (.ok (), next) ∧
      Heads lists next past head' [] ∧ (∀ other ∉ todo, head' other = head other) ∧
      next.seen = state.seen := by
  induction todo generalizing state head with
  | nil => exact ⟨state, head, rfl, h, fun _ _ => rfl, rfl⟩
  | cons source todo ih =>
    obtain ⟨hsource, htodo⟩ := nodup_cons.mp htodo
    obtain ⟨mid, head', hpull, hmid, hothers, hseen⟩ :=
      h.pullSource hordered (hnone source (by simp)) hlimit
    have hnone' : ∀ other ∈ todo, head' other = none := by
      grind
    obtain ⟨next, head'', hrest, hnext, hothers', hseen'⟩ := ih hmid htodo hnone'
    refine ⟨next, head'', ?_, hnext, fun other hother => ?_, hseen'.trans hseen⟩
    · rw [pullSources, hpull]
      exact hrest
    · rw [mem_cons, not_or] at hother
      rw [hothers' other hother.2, hothers other hother.1]

/-!
### Steps of a Shard merge

When a head is returned, every Segment that holds a copy of it has that copy as its head.
A step therefore returns a point of the union together with all its agreeing copies, and
fails only when the lists are inconsistent: two copies of one identity disagree, or a
Segment repeats an identity.
-/

variable {emitted : List (ScoredPoint Id S)}

/-- All copies of an identity agree on version and score. -/
def CopiesAgree (lists : Fin m → List (ScoredPoint Id S)) : Prop :=
  ∀ source other, ∀ point ∈ lists source, ∀ copy ∈ lists other, point.id = copy.id → point = copy

/-- Copies agree and no list repeats an identity. -/
structure Consistent (lists : Fin m → List (ScoredPoint Id S)) : Prop where
  copies_agree : CopiesAgree lists
  ids_nodup : ∀ source, ((lists source).map ScoredPoint.id).Nodup

/-- The greatest head has the least key. -/
theorem popMax_point_key_le {pending rest : List (PendingPoint Id S m)} {top : PendingPoint Id S m}
    (hpop : popMax PendingPoint.cmp pending = some (top, rest)) :
    ∀ entry ∈ rest, top.point.key ≤ entry.point.key := by
  intro entry hentry
  have hle := popMax_key_le (fun a b => PendingPoint.cmp_eq a b) hpop entry hentry
  rw [Prod.Lex.toLex_le_toLex] at hle
  rcases hle with hlt | ⟨heq, _⟩
  · rw [Prod.Lex.toLex_lt_toLex] at hlt
    rcases hlt with hlt | ⟨heq, _⟩
    · exact hlt.le
    · exact heq.le
  · exact (congrArg (fun key => (ofLex key).1) heq).le

section Suppression

variable [ToString Id]

/-- Suppressing duplicates of a least point meets a copy with another version, or removes
exactly the heads that are copies of the point. -/
theorem suppressDuplicates_cases (channel : String) {point : ScoredPoint Id S}
    {pending : List (PendingPoint Id S m)} (contributing : List (Fin m)) (suppressed : ℕ)
    (hleast : ∀ entry ∈ pending, point.key ≤ entry.point.key) :
    (∃ error rest count, suppressDuplicates channel point pending contributing suppressed =
        (.error error, rest, count) ∧
      ∃ entry ∈ pending, entry.point.id = point.id ∧ entry.point ≠ point) ∨
    (∃ copies rest count, suppressDuplicates channel point pending contributing suppressed =
        (.ok (contributing ++ copies.map PendingPoint.source), rest, count) ∧
      pending.Perm (copies ++ rest) ∧ (∀ copy ∈ copies, copy.point = point) ∧
      ∀ entry ∈ rest, point.key < entry.point.key) := by
  induction hlength : pending.length generalizing pending contributing suppressed with
  | zero =>
    obtain rfl := length_eq_zero_iff.mp hlength
    rw [suppressDuplicates]
    exact Or.inr ⟨[], [], suppressed, by simp, Perm.refl _, by simp, by simp⟩
  | succ length ih =>
    obtain ⟨duplicate, rest, hpop⟩ :
        ∃ duplicate rest, popMax PendingPoint.cmp pending = some (duplicate, rest) :=
      exists_popMax (ne_nil_of_length_eq_add_one hlength)
    have hperm := popMax_perm hpop
    have hrest : rest.length = length := by
      have := hperm.length_eq
      rw [hlength, length_cons] at this
      omega
    have hmem : duplicate ∈ pending := hperm.mem_iff.mpr (by simp)
    rw [suppressDuplicates]
    split
    · rename_i hnone
      rw [hpop] at hnone
      cases hnone
    rename_i popped left hpop'
    obtain ⟨rfl, rfl⟩ : duplicate = popped ∧ rest = left := by
      rw [hpop, Option.some.injEq, Prod.mk.injEq] at hpop'
      exact hpop'
    by_cases hsame : duplicate.point.id = point.id ∧ duplicate.point.score = point.score
    · rw [if_pos hsame]
      by_cases hversion : duplicate.point.version = point.version
      · rw [if_neg (not_not.mpr hversion)]
        have hpoint : duplicate.point = point := by
          cases hduplicate : duplicate.point
          cases point
          simp_all
        have hleast' : ∀ entry ∈ rest, point.key ≤ entry.point.key :=
          fun entry hentry => hleast entry (hperm.mem_iff.mpr (mem_cons_of_mem _ hentry))
        rcases ih (contributing ++ [duplicate.source]) (suppressed + 1) hleast' hrest with
          ⟨error, left, count, hrun, entry, hentry, hconflict⟩ |
          ⟨copies, left, count, hrun, hsplit, hcopies, hleft⟩
        · exact Or.inl ⟨error, left, count, hrun, entry,
            hperm.mem_iff.mpr (mem_cons_of_mem _ hentry), hconflict⟩
        refine Or.inr ⟨duplicate :: copies, left, count, ?_, hperm.trans (hsplit.cons _), ?_, hleft⟩
        · rw [hrun]
          simp
        · exact forall_mem_cons.mpr ⟨hpoint, hcopies⟩
      · rw [if_pos hversion]
        refine Or.inl ⟨_, _, _, rfl, duplicate, hmem, hsame.1, fun heq => hversion ?_⟩
        rw [heq]
    · rw [if_neg hsame]
      refine Or.inr ⟨[], pending, suppressed, by simp, Perm.refl _, by simp, ?_⟩
      -- The greatest remaining head is no copy, so no remaining head is one.
      have hstrict : point.key < duplicate.point.key := by
        refine lt_of_le_of_ne (hleast duplicate hmem) fun heq => hsame ?_
        obtain ⟨hscore, hid⟩ := rankKey_inj.mp heq
        exact ⟨hid.symm, hscore.symm⟩
      intro entry hentry
      rcases mem_cons.mp (hperm.mem_iff.mp hentry) with rfl | hentry
      · exact hstrict
      · exact hstrict.trans_le (popMax_point_key_le hpop entry hentry)

end Suppression

variable {point : ScoredPoint Id S}

omit [LinearOrder Id] [Score S] in
/-- Taking copies of one point off the heap leaves their Segments to be pulled. -/
theorem Heads.remove (h : Heads lists state past head []) (next : ExactShardMergeState Id S m)
    {removed rest : List (PendingPoint Id S m)} (hperm : state.pending.Perm (removed ++ rest))
    (hpoint : ∀ entry ∈ removed, entry.point = point)
    (herror : next.terminalError = state.terminalError)
    (hstopped : ∀ read, next.stopped read = false) (hsize : next.batchSize = state.batchSize)
    (hsources : next.sources = state.sources) (hpending : next.pending = rest) :
    let todo := removed.map PendingPoint.source
    todo.Nodup ∧ (∀ source ∈ todo, head source = some point) ∧
    Heads lists next (fun source => if source ∈ todo then past source ++ [point] else past source)
      (fun source => if source ∈ todo then none else head source) todo := by
  intro todo
  have hnodup := hperm.nodup_iff.mp h.pending_nodup
  have hmem : ∀ entry ∈ removed, head entry.source = some point := by
    intro entry hentry
    rw [← hpoint entry hentry]
    exact (h.mem_pending entry).mp (hperm.mem_iff.mpr (mem_append_left _ hentry))
  have hhead : ∀ source ∈ todo, head source = some point := by
    intro source hsource
    obtain ⟨entry, hentry, rfl⟩ := mem_map.mp hsource
    exact hmem entry hentry
  have hfront : ∀ source,
      (if source ∈ todo then past source ++ [point] else past source) ++
        (if source ∈ todo then none else head source).toList =
      past source ++ (head source).toList := by
    intro source
    grind
  refine ⟨?_, hhead, ⟨herror.trans h.healthy, hstopped, hsize ▸ h.size_pos, ?_, ?_, ?_, ?_, ?_⟩⟩
  · refine (nodup_append.mp hnodup).1.map_on fun left hleft right hright heq => ?_
    have hpoints := (hpoint left hleft).trans (hpoint right hright).symm
    cases left
    cases right
    simp_all
  · intro source
    rw [hsources, hfront]
    exact h.holds source
  · intro source
    rw [hsources, hfront]
    exact h.previous_eq source
  · rw [hpending]
    exact (nodup_append.mp hnodup).2.1
  · intro entry
    rw [hpending]
    constructor
    · intro hentry
      have hold := (h.mem_pending entry).mp (hperm.mem_iff.mpr (mem_append_right _ hentry))
      have hsource : entry.source ∉ todo := by
        intro hsource
        obtain ⟨other, hother, heq⟩ := mem_map.mp hsource
        have hsame : other = entry := by
          have hpoints := hpoint other hother
          cases other
          cases entry
          simp_all
        exact (nodup_append.mp hnodup).2.2 other hother entry hentry hsame
      rw [if_neg hsource]
      exact hold
    · intro hentry
      have hold := (mem_append.mp <| hperm.mem_iff.mp <| (h.mem_pending entry).mpr ·)
      grind
  · intro source hsource
    have hdrained := h.drained source
    grind

/-- The merge has returned `emitted` of the lists. Everything read has been returned, and
nothing on the heap precedes it; a head with a returned key repeats an identity of its own
Segment. -/
structure Merging (lists : Fin m → List (ScoredPoint Id S)) (state : ExactShardMergeState Id S m)
    (past : Fin m → List (ScoredPoint Id S)) (head : Fin m → Option (ScoredPoint Id S))
    (emitted : List (ScoredPoint Id S)) : Prop where
  heads : Heads lists state past head []
  mem_emitted : ∀ point, point ∈ emitted ↔ ∃ source, point ∈ past source
  seen_eq : state.seen = (emitted.map ScoredPoint.id).toFinset
  ids_nodup : (emitted.map ScoredPoint.id).Nodup
  sorted : emitted.Pairwise fun left right => left.key ≤ right.key
  le_head : ∀ source point, head source = some point → ∀ earlier ∈ emitted,
    earlier.key ≤ point.key
  lt_head : ∀ source point, head source = some point → ∀ earlier ∈ emitted,
    earlier.key < point.key ∨ point.id ∈ (past source).map ScoredPoint.id

variable {source : Fin m}

variable (h : Merging lists state past head emitted)

include h

/-- Returning a least head with all its copies extends the returned sequence. -/
theorem Merging.extend (hordered : Ordered lists) {todo : List (Fin m)} (hsource : source ∈ todo)
    (hhead : ∀ source ∈ todo, head source = some point)
    (hleast : ∀ other ∉ todo, ∀ later, head other = some later → point.key < later.key)
    (hfresh : point.id ∉ state.seen) {next : ExactShardMergeState Id S m}
    {head' : Fin m → Option (ScoredPoint Id S)}
    (hnext : Heads lists next
      (fun source => if source ∈ todo then past source ++ [point] else past source) head' [])
    (hothers : ∀ other ∉ todo, head' other = head other)
    (hseen : next.seen = insert point.id state.seen) :
    Merging lists next (fun source => if source ∈ todo then past source ++ [point] else past source)
      head' (emitted ++ [point]) := by
  have hle : ∀ earlier ∈ emitted ++ [point], earlier.key ≤ point.key := by
    intro earlier hearlier
    rcases mem_append.mp hearlier with hearlier | hearlier
    · exact h.le_head source point (hhead source hsource) earlier hearlier
    · rw [mem_singleton.mp hearlier]
  -- A refilled head follows the returned point in the list of its Segment.
  have hrefilled : ∀ other ∈ todo, ∀ later, head' other = some later → point.key ≤ later.key := by
    intro other hother later hlater
    obtain ⟨unread, _, hlist⟩ := hnext.holds other
    have hsorted := hordered.sorted other
    rw [← hlist, if_pos hother, hlater, append_assoc, append_assoc] at hsorted
    exact (pairwise_cons.mp (pairwise_append.mp hsorted).2.1).1 later (by simp)
  refine ⟨hnext, ?_, ?_, ?_, ?_, ?_, ?_⟩
  · intro other
    rw [mem_append, mem_singleton, h.mem_emitted]
    constructor
    · grind
    · grind
  · rw [hseen, h.seen_eq]
    simp
  · rw [map_append, nodup_append]
    rw [h.seen_eq, mem_toFinset] at hfresh
    exact ⟨h.ids_nodup, by simp, by grind⟩
  · rw [pairwise_append]
    refine ⟨h.sorted, pairwise_singleton _ _, fun earlier hearlier last hlast => ?_⟩
    rw [mem_singleton.mp hlast]
    exact hle earlier (mem_append_left _ hearlier)
  · intro other later hlater earlier hearlier
    grind
  · intro other later hlater earlier hearlier
    by_cases hother : other ∈ todo
    · rcases (hrefilled other hother later hlater).lt_or_eq with hlt | heq
      · exact Or.inl ((hle earlier hearlier).trans_lt hlt)
      right
      rw [if_pos hother]
      have hid : point.id = later.id := (rankKey_inj.mp heq).2
      simp [hid]
    grind

omit [LinearOrder Id] [Score S] h in
private theorem Heads.mem_list {todo : List (Fin m)} (h : Heads lists state past head todo)
    (hpoint : point ∈ past source ++ (head source).toList) : point ∈ lists source := by
  obtain ⟨unread, _, hlist⟩ := h.holds source
  rw [← hlist]
  exact mem_append_left _ hpoint

/-- A head with a returned identity shows that the lists are inconsistent. -/
theorem Merging.not_consistent_of_seen (hhead : head source = some point)
    (hseen : point.id ∈ state.seen) : ¬Consistent lists := by
  intro hconsistent
  rw [h.seen_eq, mem_toFinset] at hseen
  obtain ⟨earlier, hearlier, hid⟩ := mem_map.mp hseen
  have hpoint : point ∈ lists source := h.heads.mem_list (by simp [hhead])
  rcases h.lt_head source point hhead earlier hearlier with hlt | hrepeat
  · obtain ⟨place, hplace⟩ := (h.mem_emitted earlier).mp hearlier
    have hsame := hconsistent.copies_agree place source earlier
      (h.heads.mem_list (mem_append_left _ hplace)) point hpoint hid
    rw [hsame] at hlt
    exact lt_irrefl _ hlt
  · obtain ⟨unread, _, hlist⟩ := h.heads.holds source
    have hnodup := hconsistent.ids_nodup source
    rw [← hlist, hhead, append_assoc, map_append, nodup_append] at hnodup
    exact hnodup.2.2 _ hrepeat point.id (by simp) rfl

variable [ToString Id]

/-- One step of the merge fails on inconsistent lists, finds every Segment ended and
returned, or returns a point that extends the returned sequence. -/
theorem Merging.nextInner_cases (hordered : Ordered lists) :
    (∃ error next, state.nextInner = (.error error, next) ∧ ¬Consistent lists) ∨
    (∃ next, state.nextInner = (.ok none, next) ∧ past = lists ∧
      Merging lists next past head emitted) ∨
    (∃ point next past' head', state.nextInner = (.ok (some point), next) ∧
      Merging lists next past' head' (emitted ++ [point])) := by
  unfold nextInner
  simp only [h.heads.running 0, Bool.false_eq_true, if_false]
  have hh := h.heads
  cases hpop : popMax PendingPoint.cmp state.pending with
  | none =>
    refine Or.inr (Or.inl ⟨_, rfl, ?_, ⟨⟨hh.healthy, fun read => hh.running (read + 1),
      hh.size_pos, hh.holds, hh.previous_eq, hh.pending_nodup, hh.mem_pending, hh.drained⟩,
      h.mem_emitted, h.seen_eq, h.ids_nodup, h.sorted, h.le_head, h.lt_head⟩⟩)
    have hempty := popMax_eq_none.mp hpop
    funext source
    refine (hh.drained source ?_).resolve_left (by simp)
    cases hhead : head source with
    | none => rfl
    | some point =>
      have hmem := (hh.mem_pending ⟨source, point⟩).mpr hhead
      rw [hempty] at hmem
      cases hmem
  | some popped =>
    obtain ⟨⟨source, point⟩, rest⟩ := popped
    dsimp only
    have hperm := popMax_perm hpop
    have hhead : head source = some point :=
      (hh.mem_pending ⟨source, point⟩).mp (hperm.mem_iff.mpr (by simp))
    rcases suppressDuplicates_cases state.channel [source] state.telemetry.duplicatesSuppressed
      (popMax_point_key_le hpop) with ⟨error, left, count, hrun, entry, hentry, hid, hne⟩ |
      ⟨copies, left, count, hrun, hsplit, hcopies, hleft⟩
    · refine Or.inl ⟨error, _, by rw [hrun], fun hconsistent => hne ?_⟩
      have hentry' := (hh.mem_pending entry).mp (hperm.mem_iff.mpr (mem_cons_of_mem _ hentry))
      exact hconsistent.copies_agree entry.source source entry.point
        (hh.mem_list (by simp [hentry'])) point (hh.mem_list (by simp [hhead])) hid
    rw [hrun]
    dsimp only
    have hremoved : ∀ entry ∈ (⟨source, point⟩ : PendingPoint Id S m) :: copies,
        entry.point = point := forall_mem_cons.mpr ⟨rfl, hcopies⟩
    set popped : ExactShardMergeState Id S m :=
      { state with
        stopped := fun read => state.stopped (read + 1)
        pending := left
        telemetry := { state.telemetry with duplicatesSuppressed := count } } with hpopped
    obtain ⟨htodo, hheads, hnext⟩ := hh.remove popped (hperm.trans (hsplit.cons _)) hremoved rfl
      (fun read => hh.running (read + 1)) rfl rfl rfl
    rw [map_cons] at htodo hheads hnext
    set todo := source :: copies.map PendingPoint.source with htodo_eq
    obtain ⟨next, head', hpull, hfinal, hothers, hseen⟩ :=
      hnext.pullSources hordered htodo (fun other hother => if_pos hother) hh.size_pos
    have hpull' : pullSources state.batchSize ([source] ++ copies.map PendingPoint.source) popped =
        (.ok (), next) := hpull
    rw [hpull']
    dsimp only
    by_cases hfresh : point.id ∈ next.seen
    · rw [if_pos hfresh]
      refine Or.inl ⟨_, _, rfl, h.not_consistent_of_seen hhead ?_⟩
      rw [hseen] at hfresh
      exact hfresh
    rw [if_neg hfresh]
    rw [hseen] at hfresh
    refine Or.inr (Or.inr ⟨point, _,
      fun source => if source ∈ todo then past source ++ [point] else past source, head', rfl, ?_⟩)
    have hsource : source ∈ todo := mem_cons_self
    refine h.extend hordered hsource hheads ?_ hfresh
      ⟨hfinal.healthy, hfinal.running, hfinal.size_pos, hfinal.holds, hfinal.previous_eq,
        hfinal.pending_nodup, hfinal.mem_pending, hfinal.drained⟩ ?_ (by rw [hseen])
    · intro other hother later hlater
      refine hleft ⟨other, later⟩ ((hnext.mem_pending _).mpr ?_)
      rw [if_neg hother]
      exact hlater
    · intro other hother
      rw [hothers other hother, if_neg hother]

end ExactShardMergeState

end Stratumind
