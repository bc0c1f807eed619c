import Stratumind.Wal.SegmentRuns

/-!
# Durability

Appends and flushes of a log that a crash may cut short. Retiring a segment starts a flush in the
background, and nothing waits for it before entries are written to the segment after it. If the
flush has always succeeded by then, a crash keeps all that was flushed, under the same indexes.
-/

namespace Stratumind.WriteAhead

open List

variable {env : Environment}

/-! ### Runs -/

/-- An entry as it is given to the log. -/
abbrev Entry := { data : List UInt8 // data.length < 2 ^ 63 }

/-- How far an append has come. -/
inductive Phase where
  | idle
  | retired (entry : Entry)
  | ready (entry : Entry)
  deriving DecidableEq

/-- A log in use, with all entries that were appended, their number at the last flush, and whether
the background flush has failed. -/
structure LogRun where
  wal : Wal
  phase : Phase
  log : List (List UInt8)
  flushed : ℕ
  flushFailed : Bool := false

/-- The steps of a run. The background flush ends at any time, with success or with an error. -/
inductive Action where
  | retire (entry : Entry)
  | makeRoom (entry : Entry)
  | write
  | completeFlush
  | failFlush
  | flush

/-- One step of a run, if it can be taken. A call that waits for a flush that has failed returns
its error. -/
def LogRun.step (env : Environment) (run : LogRun) : Action → Option LogRun
  | .retire entry =>
    let segment := run.wal.openSegment.segment
    if run.phase = .idle ∧ !segment.sufficientCapacity entry.1.length ∧ !segment.isEmpty ∧
        !run.flushFailed then
      (run.wal.retireOpenSegment env).toOption.map fun wal =>
        { run with wal, phase := .retired entry }
    else none
  | .makeRoom entry =>
    let segment := run.wal.openSegment.segment
    let retires := !segment.sufficientCapacity entry.1.length && !segment.isEmpty
    if (run.phase = .idle ∨ run.phase = .retired entry) ∧ !(retires && run.flushFailed) then
      (run.wal.makeRoom env entry.1.length).bind fun result => result.toOption.map fun wal =>
        { run with wal, phase := .ready entry }
    else none
  | .write =>
    match run.phase with
    | .ready entry =>
      (run.wal.appendToOpen env entry.1).map fun (wal, _) =>
        { run with wal, phase := .idle, log := run.log ++ [entry.1] }
    | _ => none
  | .completeFlush =>
    if run.flushFailed then none else some { run with wal := run.wal.completeFlush }
  | .failFlush =>
    -- a thread that has nothing to flush does not fail
    if run.wal.flush.all fun flush => flush.2 = .nothing then none
    else some { run with flushFailed := true }
  | .flush =>
    if run.phase = .idle then
      some { run with wal := run.wal.flushOpenSegment, flushed := run.log.length }
    else none

/-- The background flush has succeeded, or there is nothing to flush. -/
def Wal.Awaited (wal : Wal) : Prop := ∀ flush ∈ wal.flush, flush.2 = .nothing

/-- The runs of a new log in which every entry is written after the background flush has
succeeded. -/
inductive LogRun.Reaches (env : Environment) (options : WalOptions) : LogRun → Prop where
  | new {dir : List (FileName × List UInt8)} {wal : Wal}
      (hdir : ∀ file ∈ dir, file.1 = .temporary ∨ file.1 = .other)
      (hwal : Wal.withOptions env dir options = some (.ok wal)) :
      Reaches env options { wal, phase := .idle, log := [], flushed := 0 }
  | step {run next : LogRun} {action : Action} (hrun : Reaches env options run)
      (hawaited : action = .write → run.wal.Awaited) (hstep : run.step env action = some next) :
      Reaches env options next

/-! ### Crashes -/

/-- The segments of a log with the names of their files. -/
def Wal.namedSegments (wal : Wal) : List (FileName × Segment) :=
  wal.closedSegments.map (fun closed => (.closedSegment closed.startIndex, closed.segment)) ++
  (wal.openSegment :: wal.creator.pendingSegments).map fun opened =>
    (.openSegment opened.id, opened.segment)

/-- The directories that a crash may leave behind: every segment file is torn, and no CRC matches
by accident. -/
def Wal.CrashDir (env : Environment) (wal : Wal) (dir : List (FileName × List UInt8)) : Prop :=
  ∃ (torn : FileName × Segment → List UInt8) (others : List (FileName × List UInt8)),
    dir.Perm (wal.namedSegments.map (fun named => (named.1, torn named)) ++ others) ∧
    (∀ file ∈ others, file.1 = .temporary ∨ file.1 = .other) ∧
    ∀ named ∈ wal.namedSegments,
      named.2.CrashFile (torn named) ∧ named.2.TornSafe env (torn named)

/-- The segments of the creator are on disk. -/
def SegmentCreator.Fresh (creator : SegmentCreator) : Prop :=
  ∀ opened ∈ creator.pendingSegments, opened.segment.Durable [] 0

namespace SegmentCreator

theorem Fresh.scheduleCreation {creator next : SegmentCreator} (h : creator.Fresh)
    (hnext : creator.scheduleCreation env = .ok next) : next.Fresh :=
  scheduleCreation_all Segment.create_durable h hnext

theorem Fresh.next {creator rest : SegmentCreator} {opened : OpenSegment} (h : creator.Fresh)
    (hnext : creator.next env = .ok (opened, rest)) : rest.Fresh ∧ opened.segment.Durable [] 0 :=
  (next_all Segment.create_durable h hnext).symm

end SegmentCreator

/-! ### What a log has on disk -/

namespace Wal

/-- All closed segments are on disk, and with the first entries of the open segment all that was
flushed. -/
def Settled (wal : Wal) (lists : List (List (List UInt8))) (opened : List (List UInt8))
    (flushed : ℕ) : Prop :=
  (∀ closed ∈ wal.closedSegments, closed.segment.Synced closed.segment.size) ∧
    ∃ count, wal.openSegment.segment.Durable opened count ∧
      flushed ≤ lists.flatten.length + count

/-- Either everything but the open segment is on disk, or the last closed segment is not, and then
the open segment is empty and the background flush is that of the last closed segment. -/
inductive Persists (wal : Wal) (lists : List (List (List UInt8))) (opened : List (List UInt8))
    (flushed : ℕ) : Prop where
  | settled (h : wal.Settled lists opened flushed)
  | unsettled {init : List ClosedSegment} {last : ClosedSegment}
      {initLists : List (List (List UInt8))} {entries : List (List UInt8)} {count : ℕ}
      {pending : PendingFlush} (hsegments : wal.closedSegments = init ++ [last])
      (hlists : lists = initLists ++ [entries]) (hopened : opened = [])
      (hinit : ∀ closed ∈ init, closed.segment.Synced closed.segment.size)
      (hcount : count ≤ entries.length)
      (hlast : last.segment.Synced (headerLen + encodedSize (entries.take count)))
      (hflush : wal.flush = some (last.startIndex, pending))
      (hpending : (last.segment.complete pending).Synced last.segment.size)
      (hopen : wal.openSegment.segment.Durable [] 0)
      (hflushed : flushed ≤ initLists.flatten.length + count)

variable {wal next : Wal} {lists : List (List (List UInt8))} {opened : List (List UInt8)}
  {flushed : ℕ}

private theorem synced_completed {closed : ClosedSegment}
    (h : closed.segment.Synced closed.segment.size) (startIndex : ℕ) (pending : PendingFlush) :
    (if closed.startIndex = startIndex then
        { closed with segment := closed.segment.complete pending }
      else closed).segment.Synced
      (if closed.startIndex = startIndex then
        { closed with segment := closed.segment.complete pending }
      else closed).segment.size := by
  split
  · dsimp only
    rw [Segment.size_complete]
    exact h.complete pending
  · exact h

private theorem length_flatten_concat (lists : List (List (List UInt8)))
    (entries : List (List UInt8)) :
    (lists ++ [entries]).flatten.length = lists.flatten.length + entries.length := by
  rw [flatten_append, flatten_singleton, length_append]

theorem openSegment_completeFlush (wal : Wal) :
    wal.completeFlush.openSegment = wal.openSegment := by
  unfold completeFlush
  split <;> rfl

theorem creator_completeFlush (wal : Wal) : wal.completeFlush.creator = wal.creator := by
  unfold completeFlush
  split <;> rfl

/-- When the background flush ends, every closed segment is on disk. -/
theorem Persists.completeFlush (h : wal.Persists lists opened flushed) :
    wal.completeFlush.Settled lists opened flushed := by
  cases h with
  | settled h =>
    obtain ⟨hclosed, hopen⟩ := h
    refine ⟨?_, by rwa [openSegment_completeFlush]⟩
    unfold Wal.completeFlush
    split
    · exact hclosed
    · exact forall_mem_map.mpr fun closed hmem => synced_completed (hclosed closed hmem) _ _
  | @unsettled init last initLists entries count pending hsegments hlists hopened hinit hcount
      hlast hflush hpending hopen hflushed =>
    subst hopened
    refine ⟨?_, 0, by rwa [openSegment_completeFlush], ?_⟩
    · unfold completeFlush
      rw [hflush]
      rw [hsegments]
      refine forall_mem_map.mpr (forall_mem_append.mpr
        ⟨fun closed hmem => synced_completed (hinit closed hmem) _ _, forall_mem_singleton.mpr ?_⟩)
      rw [if_pos rfl]
      rwa [Segment.size_complete]
    · rw [hlists, length_flatten_concat]
      omega

/-- A log whose background flush has ended. -/
theorem Persists.settle (h : wal.Persists lists opened flushed) (hawaited : wal.Awaited) :
    wal.Settled lists opened flushed := by
  cases h with
  | settled h => exact h
  | @unsettled init last initLists entries count pending hsegments hlists hopened hinit hcount
      hlast hflush hpending hopen hflushed =>
    have hnothing : pending = .nothing := hawaited _ hflush
    subst hnothing hopened
    refine ⟨?_, 0, hopen, ?_⟩
    · rw [hsegments]
      exact forall_mem_append.mpr ⟨hinit, forall_mem_singleton.mpr hpending⟩
    · rw [hlists, length_flatten_concat]
      omega

/-- Retiring the open segment leaves it to the background flush. -/
theorem Settled.retire (h : wal.Settled lists opened flushed) (hfresh : wal.creator.Fresh)
    {startIndex : ℕ} (hretired : wal.Retired env next startIndex) :
    next.Persists (lists ++ [opened]) [] flushed ∧ next.creator.Fresh := by
  obtain ⟨hclosed, -⟩ := (Persists.settled h).completeFlush
  obtain ⟨-, count, hopened, hflushed⟩ := h
  obtain ⟨hnextFresh, hopen⟩ := hfresh.next hretired.creator
  refine ⟨.unsettled hretired.closedSegments rfl rfl hclosed hopened.count_le
    hopened.entries_synced hretired.flush ?_ hopen hflushed, hnextFresh⟩
  have hsynced := hopened.offset_synced.complete_pendingFlush hopened.offset_le
  cases hpending : wal.openSegment.segment.pendingFlush <;> rw [hpending] at hsynced <;>
    exact hsynced

/-- An empty open segment is enlarged. -/
theorem Persists.ensureCapacity (h : wal.Persists lists [] flushed) {entrySize : ℕ}
    {segment : Segment}
    (hsegment : wal.openSegment.segment.ensureCapacity entrySize = some segment) :
    ({ wal with openSegment := { wal.openSegment with segment } } : Wal).Persists lists []
      flushed := by
  cases h with
  | settled h =>
    obtain ⟨hclosed, count, hopened, hflushed⟩ := h
    have hzero : count = 0 := Nat.le_zero.mp hopened.count_le
    subst hzero
    exact .settled ⟨hclosed, 0, hopened.ensureCapacity hsegment, hflushed⟩
  | unsettled hsegments hlists hopened hinit hcount hlast hflush hpending hopen hflushed =>
    exact .unsettled hsegments hlists rfl hinit hcount hlast hflush hpending
      (hopen.ensureCapacity hsegment) hflushed

/-- Flushing the open segment of a settled log flushes everything. -/
theorem Settled.flushOpenSegment (h : wal.Settled lists opened flushed)
    (hholds : wal.Holds env 0 lists opened) :
    wal.flushOpenSegment.Settled lists opened (lists.flatten ++ opened).length := by
  obtain ⟨hclosed, count, hopened, -⟩ := h
  obtain ⟨seed, rest, hsegment⟩ := hholds.opened
  refine ⟨hclosed, opened.length, hopened.flush hsegment, ?_⟩
  rw [length_append]

end Wal

/-! ### Invariant of a run -/

/-- The log holds what was appended, and what was flushed is on disk. -/
structure LogRun.Holds (env : Environment) (run : LogRun) (lists : List (List (List UInt8)))
    (opened : List (List UInt8)) : Prop where
  wal : run.wal.Holds env 0 lists opened
  log : lists.flatten ++ opened = run.log
  fresh : run.wal.creator.Fresh
  persists : run.wal.Persists lists opened run.flushed
  idle : run.phase = .idle → run.wal.Settled lists opened run.flushed
  retired : ∀ entry, run.phase = .retired entry → opened = []

namespace LogRun.Holds

variable {run next : LogRun} {lists : List (List (List UInt8))} {opened : List (List UInt8)}

private theorem log_retire (h : run.Holds env lists opened) :
    (lists ++ [opened]).flatten ++ [] = run.log := by
  rw [append_nil, flatten_append, flatten_singleton, h.log]

variable {entry : Entry}

theorem retire (h : run.Holds env lists opened) (hstep : run.step env (.retire entry) = some next) :
    next.Holds env (lists ++ [opened]) [] := by
  unfold step at hstep
  dsimp only at hstep
  split at hstep
  case isFalse => cases hstep
  case isTrue hcond =>
    obtain ⟨hidle, -, hempty, -⟩ := hcond
    rw [h.wal.opened.isEmpty, Bool.not_eq_true', isEmpty_eq_false_iff] at hempty
    obtain ⟨wal, hwal, hholds, hretired⟩ := h.wal.retireOpenSegment hempty
    rw [hwal] at hstep
    cases hstep
    obtain ⟨hpersists, hfresh⟩ := (h.idle hidle).retire h.fresh hretired
    exact ⟨hholds, h.log_retire, hfresh, hpersists, nofun, fun _ _ => rfl⟩

/-- An empty open segment is enlarged. -/
private theorem ensureCapacity (h : run.Holds env lists []) {wal : Wal}
    (hwal : (match run.wal.openSegment.segment.ensureCapacity entry.1.length with
      | none => none
      | some segment => some (Except.ok
          { run.wal with openSegment := { run.wal.openSegment with segment } })) =
      some (Except.ok wal : IoResult Wal)) :
    ({ run with wal, phase := .ready entry } : LogRun).Holds env lists [] := by
  obtain ⟨seed, rest, hopened⟩ := h.wal.opened
  obtain ⟨segment, segmentRest, hensure, hsegment, -⟩ := hopened.ensureCapacity entry.1.length
  rw [hensure] at hwal
  cases hwal
  exact ⟨h.wal.set_open ⟨seed, segmentRest, hsegment⟩, h.log, h.fresh,
    h.persists.ensureCapacity hensure, nofun,
    nofun⟩

theorem makeRoom (h : run.Holds env lists opened)
    (hstep : run.step env (.makeRoom entry) = some next) :
    ∃ nextLists nextOpened, next.Holds env nextLists nextOpened := by
  unfold step at hstep
  dsimp only at hstep
  split at hstep
  case isFalse => cases hstep
  case isTrue hcond =>
    obtain ⟨hphase, -⟩ := hcond
    obtain ⟨result, hroom, hresult⟩ := Option.bind_eq_some_iff.mp hstep
    obtain ⟨wal, hwal, rfl⟩ := Option.map_eq_some_iff.mp hresult
    cases result with
    | error error => cases hwal
    | ok result =>
      cases hwal
      unfold Wal.makeRoom at hroom
      by_cases hsufficient : run.wal.openSegment.segment.sufficientCapacity entry.1.length
      · -- the open segment is large enough
        rw [if_pos hsufficient] at hroom
        cases hroom
        exact ⟨lists, opened, h.wal, h.log, h.fresh, h.persists, nofun, nofun⟩
      rw [if_neg hsufficient] at hroom
      by_cases hempty : run.wal.openSegment.segment.isEmpty
      · rw [if_pos hempty] at hroom
        rw [h.wal.opened.isEmpty, List.isEmpty_iff] at hempty
        subst hempty
        exact ⟨lists, [], h.ensureCapacity hroom⟩
      -- the open segment is retired first
      rw [if_neg hempty] at hroom
      rw [h.wal.opened.isEmpty, List.isEmpty_iff] at hempty
      have hidle : run.phase = .idle := by
        rcases hphase with hphase | hphase
        · exact hphase
        · exact absurd (h.retired entry hphase) hempty
      obtain ⟨retired, hretire, hholds, hretired⟩ := h.wal.retireOpenSegment hempty
      rw [hretire] at hroom
      obtain ⟨hpersists, hfresh⟩ := (h.idle hidle).retire h.fresh hretired
      have hrun : ({ run with wal := retired, phase := .retired entry } : LogRun).Holds env
          (lists ++ [opened]) [] :=
        ⟨hholds, h.log_retire, hfresh, hpersists, nofun, fun _ _ => rfl⟩
      exact ⟨lists ++ [opened], [], hrun.ensureCapacity hroom⟩

theorem write (h : run.Holds env lists opened) (hawaited : run.wal.Awaited)
    (hstep : run.step env .write = some next) :
    ∃ data, next.Holds env lists (opened ++ [data]) := by
  unfold step at hstep
  dsimp only at hstep
  split at hstep
  case h_2 => cases hstep
  case h_1 entry hphase =>
    obtain ⟨seed, rest, hopened⟩ := h.wal.opened
    obtain ⟨hclosed, count, hdurable, hflushed⟩ := h.persists.settle hawaited
    by_cases hfits : entrySizeDisk entry.1.length ≤ rest.length
    · obtain ⟨segment, happend, hsegment, hdisk, hoffset⟩ := hopened.append entry.2 hfits
      unfold Wal.appendToOpen at hstep
      rw [happend] at hstep
      cases hstep
      have hsettled : ({ run.wal with openSegment := { run.wal.openSegment with segment } } :
          Wal).Settled lists (opened ++ [entry.1]) run.flushed :=
        ⟨hclosed, count, hdurable.append hopened hsegment hdisk hoffset, hflushed⟩
      refine ⟨entry.1, h.wal.set_open ⟨_, _, hsegment⟩, ?_, h.fresh, .settled hsettled,
        fun _ => hsettled, nofun⟩
      rw [← append_assoc, h.log]
    · -- an entry that does not fit is not appended
      have hnone : run.wal.openSegment.segment.append env.crc32cAppend entry.1 = none := by
        unfold Segment.append
        rw [hopened.sufficientCapacity, decide_eq_false hfits]
        rfl
      unfold Wal.appendToOpen at hstep
      rw [hnone] at hstep
      cases hstep

theorem completeFlush (h : run.Holds env lists opened) :
    ({ run with wal := run.wal.completeFlush } : LogRun).Holds env lists opened := by
  have hsettled := h.persists.completeFlush
  have hclosed : ClosedHold env 0 run.wal.completeFlush.closedSegments lists := by
    unfold Wal.completeFlush
    split
    · exact h.wal.closed
    · exact h.wal.closed.map_complete _ _
  have hretain : run.wal.completeFlush.retainClosed = run.wal.retainClosed := by
    unfold Wal.completeFlush
    split <;> rfl
  refine ⟨⟨⟨hclosed, h.wal.start_eq, ?_, ?_, ?_⟩, h.wal.nonempty⟩, h.log, ?_, .settled hsettled,
    fun _ => hsettled, h.retired⟩
  · rw [Wal.openSegment_completeFlush]
    exact h.wal.opened
  · rw [Wal.creator_completeFlush, Wal.openSegment_completeFlush]
    exact h.wal.creator
  · rw [hretain]
    exact h.wal.retain
  · dsimp only
    rw [Wal.creator_completeFlush]
    exact h.fresh

theorem flush (h : run.Holds env lists opened) (hstep : run.step env .flush = some next) :
    next.Holds env lists opened := by
  unfold step at hstep
  dsimp only at hstep
  split at hstep
  case isFalse => cases hstep
  case isTrue hidle =>
    cases hstep
    obtain ⟨seed, rest, hopened⟩ := h.wal.opened
    have hsettled := (h.idle hidle).flushOpenSegment h.wal
    rw [h.log] at hsettled
    exact ⟨h.wal.set_open ⟨seed, rest, hopened.flush⟩, h.log, h.fresh, .settled hsettled,
      fun _ => hsettled, h.retired⟩

end LogRun.Holds

/-- The invariant holds in every run. -/
theorem LogRun.Reaches.holds {options : WalOptions} {run : LogRun}
    (h : LogRun.Reaches env options run) :
    headerLen ≤ options.segmentCapacity ∧ ∃ lists opened, run.Holds env lists opened := by
  induction h with
  | @new dir wal hdir hwal =>
    obtain ⟨hholds, hcapacity, -, creator, hcreator, hnext⟩ := Wal.withOptions_new hdir hwal
    have hempty : SegmentCreator.Fresh
        { pendingSegments := [], segmentCapacity := options.segmentCapacity
          segmentQueueLen := max options.segmentQueueLen 1, currentId := 1 } :=
      nofun
    have hnew : creator.Fresh := hempty.scheduleCreation hcreator
    obtain ⟨hfresh, hopen⟩ := hnew.next hnext
    have hsegments := length_eq_zero_iff.mp hholds.closed.length_eq
    have hsettled : wal.Settled [] [] 0 := by
      refine ⟨?_, 0, hopen, Nat.zero_le _⟩
      rw [hsegments]
      exact nofun
    exact ⟨hcapacity, [], [], hholds, rfl, hfresh, .settled hsettled, fun _ => hsettled, nofun⟩
  | @step run next action _ hawaited hstep ih =>
    obtain ⟨hcapacity, lists, opened, hholds⟩ := ih
    refine ⟨hcapacity, ?_⟩
    cases action with
    | retire entry => exact ⟨_, _, hholds.retire hstep⟩
    | makeRoom entry => exact hholds.makeRoom hstep
    | write =>
      obtain ⟨data, hnext⟩ := hholds.write (hawaited rfl) hstep
      exact ⟨_, _, hnext⟩
    | completeFlush =>
      obtain ⟨-, hstep⟩ := Option.ite_none_left_eq_some.mp hstep
      cases hstep
      exact ⟨_, _, hholds.completeFlush⟩
    | failFlush =>
      obtain ⟨-, hstep⟩ := Option.ite_none_left_eq_some.mp hstep
      cases hstep
      -- what is on disk does not depend on how the thread ended
      exact ⟨_, _, hholds.wal, hholds.log, hholds.fresh, hholds.persists, hholds.idle,
        hholds.retired⟩
    | flush => exact ⟨_, _, hholds.flush hstep⟩

/-! ### Recovery -/

section recovery

variable {torn : FileName × Segment → List UInt8} {lists : List (List (List UInt8))}

/-- The segment that is read back from a torn file. -/
private def reread (env : Environment) (torn : FileName × Segment → List UInt8)
    (named : FileName × Segment) : Segment :=
  (Segment.openFile env.crc32cAppend (torn named)).toOption.getD named.2

private theorem HoldsEntries.reread {name : FileName} {segment : Segment}
    {entries : List (List UInt8)} {count : ℕ} (h : segment.HoldsEntries env entries)
    (htorn : segment.CrashFile (torn (name, segment)) ∧
      segment.TornSafe env (torn (name, segment))) (hcount : count ≤ entries.length)
    (hsynced : segment.Synced (headerLen + encodedSize (entries.take count))) :
    ∃ more, count ≤ more ∧ more ≤ entries.length ∧
      Segment.openFile env.crc32cAppend (torn (name, segment)) =
        .ok (reread env torn (name, segment)) ∧
      (reread env torn (name, segment)).HoldsEntries env (entries.take more) := by
  obtain ⟨seed, rest, h⟩ := h
  obtain ⟨found, more, hle, hmore, hfound, hentries⟩ := h.recover htorn.1 htorn.2 hcount hsynced
  have heq : WriteAhead.reread env torn (name, segment) = found := by
    rw [WriteAhead.reread, hfound]
    rfl
  exact ⟨more, hle, hmore, heq ▸ hfound, heq ▸ hentries⟩

private def ClosedSegment.reread (env : Environment) (torn : FileName × Segment → List UInt8)
    (closed : ClosedSegment) : ClosedSegment × List UInt8 :=
  ({ closed with
      segment := WriteAhead.reread env torn (.closedSegment closed.startIndex, closed.segment) },
    torn (.closedSegment closed.startIndex, closed.segment))

private def OpenSegment.reread (env : Environment) (torn : FileName × Segment → List UInt8)
    (opened : OpenSegment) : OpenSegment × List UInt8 :=
  ({ opened with segment := WriteAhead.reread env torn (.openSegment opened.id, opened.segment) },
    torn (.openSegment opened.id, opened.segment))

/-- Closed segments on disk are read back as they are. -/
private theorem ClosedHold.recover {start : ℕ} {segments : List ClosedSegment}
    (h : ClosedHold env start segments lists)
    (hsynced : ∀ closed ∈ segments, closed.segment.Synced closed.segment.size)
    (htorn : ∀ closed ∈ segments,
      closed.segment.CrashFile (torn (.closedSegment closed.startIndex, closed.segment)) ∧
        closed.segment.TornSafe env (torn (.closedSegment closed.startIndex, closed.segment))) :
    (∀ file ∈ segments.map (ClosedSegment.reread env torn),
        Segment.openFile env.crc32cAppend file.2 = .ok file.1.segment) ∧
      ClosedHold env start ((segments.map (ClosedSegment.reread env torn)).map Prod.fst) lists := by
  induction h with
  | nil start => exact ⟨nofun, .nil start⟩
  | @cons start closed segments entries lists hstart hholds _ ih =>
    obtain ⟨hfirst, hsynced⟩ := forall_mem_cons.mp hsynced
    obtain ⟨hfirstTorn, htorn⟩ := forall_mem_cons.mp htorn
    obtain ⟨hopen, hclosed⟩ := ih hsynced htorn
    have ⟨_, _, hsegment⟩ := hholds
    rw [hsegment.size, ← take_length (l := entries)] at hfirst
    obtain ⟨more, hle, hmore, hsegment, hentries⟩ :=
      HoldsEntries.reread hholds hfirstTorn le_rfl hfirst
    rw [Nat.le_antisymm hmore hle, take_length] at hentries
    exact ⟨forall_mem_cons.mpr ⟨hsegment, hopen⟩, .cons hstart hentries hclosed⟩

/-- The closed segments that are read back hold all entries, or the first ones if no entry comes
after them. -/
private theorem Wal.Persists.recover_closed {wal : Wal} {opened : List (List UInt8)} {flushed : ℕ}
    (h : wal.Persists lists opened flushed) (hholds : wal.Holds env 0 lists opened)
    (htorn : ∀ closed ∈ wal.closedSegments,
      closed.segment.CrashFile (torn (.closedSegment closed.startIndex, closed.segment)) ∧
        closed.segment.TornSafe env (torn (.closedSegment closed.startIndex, closed.segment))) :
    ∃ (kept : List (List (List UInt8))) (count : ℕ),
      (∀ file ∈ wal.closedSegments.map (ClosedSegment.reread env torn),
        Segment.openFile env.crc32cAppend file.2 = .ok file.1.segment) ∧
      ClosedHold env 0 ((wal.closedSegments.map (ClosedSegment.reread env torn)).map Prod.fst)
        kept ∧
      wal.openSegment.segment.Durable opened count ∧
      flushed ≤ kept.flatten.length + count ∧
      ∀ more, kept.flatten ++ opened.take more <+: lists.flatten ++ opened := by
  cases h with
  | settled h =>
    obtain ⟨hsynced, count, hopened, hflushed⟩ := h
    obtain ⟨hopen, hclosed⟩ := hholds.closed.recover hsynced htorn
    refine ⟨lists, count, hopen, hclosed, hopened, hflushed, fun more => ?_⟩
    exact (prefix_append_right_inj _).mpr (List.take_prefix more opened)
  | @unsettled init last initLists entries count pending hsegments hlists hopened hinit hcount
      hlast hflush hpending hopen hflushed =>
    subst hlists hopened
    have hclosed := hholds.closed
    rw [hsegments] at hclosed htorn
    obtain ⟨hinitTorn, hlastTorn⟩ := forall_mem_append.mp htorn
    have hlength : init.length = initLists.length := by
      have := hclosed.length_eq
      simpa using this
    obtain ⟨hfront, hback⟩ := hclosed.split init.length
    rw [take_left, hlength, take_left] at hfront
    rw [drop_left, hlength, drop_left, take_left] at hback
    cases hback with
    | cons hstart hlastHolds _ =>
      obtain ⟨hopenInit, hrecovered⟩ := hfront.recover hinit hinitTorn
      have hlastTorn := forall_mem_singleton.mp hlastTorn
      obtain ⟨more, hle, hmore, hsegment, hentries⟩ :=
        HoldsEntries.reread hlastHolds hlastTorn hcount hlast
      rw [hsegments, map_append, map_append]
      refine ⟨initLists ++ [entries.take more], 0,
        forall_mem_append.mpr ⟨hopenInit, forall_mem_singleton.mpr hsegment⟩,
        hrecovered.append (.cons hstart hentries (.nil _)), hopen, ?_, fun _ => ?_⟩
      · rw [length_flatten_concat, length_take]
        omega
      · rw [take_nil, append_nil, append_nil, flatten_append,
          flatten_append, flatten_singleton, flatten_singleton]
        exact (prefix_append_right_inj _).mpr (List.take_prefix more entries)

/-- The directory that a crash leaves behind is opened as a log with the first entries, among them
all that were flushed. -/
theorem Wal.Persists.recover {wal : Wal} {opened : List (List UInt8)} {flushed : ℕ}
    (h : wal.Persists lists opened flushed) (hholds : wal.Holds env 0 lists opened)
    (hfresh : wal.creator.Fresh) {dir : List (FileName × List UInt8)} (hdir : wal.CrashDir env dir)
    {options : WalOptions} (hcapacity : headerLen ≤ options.segmentCapacity) :
    ∃ next keptLists keptOpened, Wal.withOptions env dir options = some (.ok next) ∧
      next.Stores env 0 keptLists keptOpened ∧
      keptLists.flatten ++ keptOpened <+: lists.flatten ++ opened ∧
      flushed ≤ (keptLists.flatten ++ keptOpened).length := by
  obtain ⟨torn, others, hperm, hothers, htorn⟩ := hdir
  obtain ⟨hclosedTorn, hopenTorn⟩ := forall_mem_append.mp htorn
  obtain ⟨htorn, hpendingTorn⟩ := forall_mem_cons.mp (forall_mem_map.mp hopenTorn)
  obtain ⟨kept, count, hclosedOpen, hclosed, hdurable, hflushed, hfront⟩ :=
    h.recover_closed hholds (forall_mem_map.mp hclosedTorn)
  obtain ⟨more, hle, hmore, hsegment, hentries⟩ :=
    HoldsEntries.reread hholds.opened htorn hdurable.count_le hdurable.entries_synced
  -- unused segments are read back as empty ones
  have hpending : ∀ file ∈ wal.creator.pendingSegments.map (OpenSegment.reread env torn),
      Segment.openFile env.crc32cAppend file.2 = .ok file.1.segment ∧
        file.1.segment.HoldsEntries env [] := by
    refine forall_mem_map.mpr fun unused hunused => ?_
    have hdurable := hfresh unused hunused
    obtain ⟨more, -, -, hsegment, hentries⟩ := HoldsEntries.reread
      (hholds.creator.pending unused hunused) (hpendingTorn unused hunused) hdurable.count_le
      hdurable.entries_synced
    rw [take_nil] at hentries
    exact ⟨hsegment, hentries⟩
  have hids : ((wal.openSegment :: wal.creator.pendingSegments).map fun opened =>
      (OpenSegment.reread env torn opened).1.id).Pairwise (· < ·) := hholds.creator.ids
  obtain ⟨next, hnext, hstores⟩ := @ofSegments_stores env 0 kept (opened.take more) _
    (OpenSegment.reread env torn wal.openSegment).1
    ((wal.creator.pendingSegments.map (OpenSegment.reread env torn)).map Prod.fst) hclosed
    (fun _ => rfl) hentries (forall_mem_map.mpr fun file hfile => (hpending file hfile).2)
    (by simpa using hholds.creator.ne_nil) (by rw [map_map, map_map]; exact hids) options hcapacity
  refine ⟨next, kept, opened.take more, ?_, hstores, hfront more, ?_⟩
  · -- the files of the directory are those of the segments that are read back
    have hfiles := @withOptions_of_files env
      (wal.closedSegments.map (ClosedSegment.reread env torn))
      ((wal.openSegment :: wal.creator.pendingSegments).map (OpenSegment.reread env torn)) dir
      others ?_ hothers hclosedOpen
      (forall_mem_cons.mpr ⟨hsegment, fun file hfile => (hpending file hfile).1⟩) ?_ ?_ options
    · rw [hfiles]
      exact hnext
    · refine hperm.trans (Perm.of_eq ?_)
      rw [namedSegments, map_append, map_map, map_map, map_map, map_map]
      rfl
    · rw [pairwise_map, pairwise_map]
      exact hholds.closed.pairwise_startIndex hholds.nonempty
    · rw [pairwise_map, pairwise_map]
      exact pairwise_map.mp hids
  · rw [length_append, length_take]
    omega

end recovery

end Stratumind.WriteAhead
