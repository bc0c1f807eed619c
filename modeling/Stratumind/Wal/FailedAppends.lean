import Stratumind.Wal.LogOperations

/-!
# Appends that fail

`AppendFaults` says which steps of an append fail, and the log is followed through the early
returns. A segment is retired by replacing the open segment first; the retired one is in no list
until its file is renamed.
-/

namespace Stratumind.WriteAhead

open List

variable {env : Environment}

/-- The steps of `Wal::append` that fail, with their errors. The creator keeps only some of its
segments if it fails; growing a segment fails before or after the segment was flushed. -/
structure AppendFaults where
  next : Option (IoError × ℕ) := none
  join : Option IoError := none
  delete : Option IoError := none
  rename : Option IoError := none
  grow : Option (IoError × Bool) := none

namespace Wal

/-- `Wal::retire_open_segment` after the segments were swapped. -/
def closeRetired (faults : AppendFaults) (wal : Wal) (retired : OpenSegment) :
    Wal × IoResult Unit :=
  match wal.flush.bind fun _ => faults.join with
  | some error => ({ wal with flush := none }, .error error)
  | none =>
    let wal := wal.completeFlush
    let (segment, pending) := retired.segment.flushAsync
    let startIndex := wal.openSegmentStartIndex
    let hasEmpty := wal.closedSegments.getLast?.any fun closed => closed.segment.isEmpty
    let closedSegments := if hasEmpty then wal.closedSegments.dropLast else wal.closedSegments
    match (if hasEmpty then faults.delete else none).or faults.rename with
    | some error =>
      -- the flush of a segment that is dropped covers nothing of the log
      ({ wal with closedSegments, flush := some (startIndex, .nothing) }, .error error)
    | none =>
      ({ wal with
          flush := some (startIndex, pending)
          closedSegments := closedSegments ++ [closeSegment { retired with segment } startIndex] },
        .ok ())

/-- `Wal::retire_open_segment`, whose steps may fail. -/
def retireOpenSegmentWith (env : Environment) (faults : AppendFaults) (wal : Wal) :
    Wal × IoResult Unit :=
  match faults.next with
  | some (error, kept) =>
    let pendingSegments := wal.creator.pendingSegments.take kept
    ({ wal with creator := { wal.creator with pendingSegments } }, .error error)
  | none =>
    match wal.creator.next env with
    | .error error => (wal, .error error)
    | .ok (openSegment, creator) =>
      closeRetired faults { wal with openSegment, creator } wal.openSegment

/-- The steps of `Wal::append` after a segment was retired. -/
def growAndAppend (env : Environment) (faults : AppendFaults) (wal : Wal) (entry : List UInt8) :
    Option (Wal × IoResult ℕ) :=
  match wal.openSegment.segment.ensureCapacity entry.length with
  | none => none
  | some segment =>
    match if wal.openSegment.segment.capacity < segment.capacity then faults.grow else none with
    | some (error, flushed) => some (if flushed then wal.flushOpenSegment else wal, .error error)
    | none =>
      ({ wal with openSegment := { wal.openSegment with segment } }.appendToOpen env entry).map
        fun (next, index) => (next, .ok index)

/-- `Wal::append`, whose steps may fail. -/
def appendWith (env : Environment) (faults : AppendFaults) (wal : Wal) (entry : List UInt8) :
    Option (Wal × IoResult ℕ) :=
  if wal.openSegment.segment.sufficientCapacity entry.length then
    (wal.appendToOpen env entry).map fun (next, index) => (next, .ok index)
  else if wal.openSegment.segment.isEmpty then wal.growAndAppend env faults entry
  else
    match wal.retireOpenSegmentWith env faults with
    | (wal, .error error) => some (wal, .error error)
    | (wal, .ok ()) => wal.growAndAppend env faults entry

private theorem retireOpenSegment_eq (wal : Wal) :
    wal.retireOpenSegment env =
      (wal.retireOpenSegmentWith env {}).2.map fun _ => (wal.retireOpenSegmentWith env {}).1 := by
  unfold retireOpenSegment retireOpenSegmentWith
  cases wal.creator.next env with
  | error error => rfl
  | ok taken =>
    simp [closeRetired, Except.map, bind, Except.bind, pure, Except.pure]

/-- Without faults this is the append of the log. -/
theorem append_eq_appendWith (wal : Wal) (entry : List UInt8) :
    wal.append env entry =
      (wal.appendWith env {} entry).map fun (next, result) => result.map (next, ·) := by
  unfold append makeRoom appendWith
  by_cases hsufficient : wal.openSegment.segment.sufficientCapacity entry.length
  · simp [hsufficient, Function.comp_def, Except.map]
  by_cases hempty : wal.openSegment.segment.isEmpty
  · simp only [hsufficient, hempty, if_true, growAndAppend]
    cases wal.openSegment.segment.ensureCapacity entry.length <;>
      simp [Function.comp_def, Except.map]
  · simp only [hsufficient, hempty, retireOpenSegment_eq, growAndAppend]
    obtain ⟨next, result⟩ := wal.retireOpenSegmentWith env {}
    cases result with
    | error error => rfl
    | ok _ =>
      cases hgrow : next.openSegment.segment.ensureCapacity entry.length <;>
        simp [hgrow, Function.comp_def, Except.map]

/-! ### What the log reads -/

end Wal

private theorem Segment.create_holdsEntries {capacity : ℕ} {seed : UInt32} {segment : Segment}
    (h : Segment.create capacity seed = .ok segment) : segment.HoldsEntries env [] := by
  by_cases hcapacity : headerLen ≤ capacity
  · obtain ⟨created, hcreated, hholds⟩ := @Segment.create_holds env.crc32cAppend _ hcapacity seed
    cases hcreated.symm.trans h
    exact ⟨_, _, hholds⟩
  · unfold Segment.create headerLen at *
    rw [if_pos (by omega)] at h
    cases h

variable {lists : List (List (List UInt8))}

theorem ClosedHold.getLast_isEmpty {start : ℕ} {segments : List ClosedSegment}
    (h : ClosedHold env start segments lists) :
    (segments.getLast?.any fun closed => closed.segment.isEmpty) =
      lists.getLast?.any isEmpty := by
  induction h with
  | nil => rfl
  | cons _ hholds hrest ih =>
    cases hrest with
    | nil => exact hholds.isEmpty
    | cons => exact ih

theorem ClosedHold.dropLast {start : ℕ} {segments : List ClosedSegment}
    (h : ClosedHold env start segments lists) :
    ClosedHold env start segments.dropLast lists.dropLast := by
  rw [dropLast_eq_take, dropLast_eq_take, h.length_eq]
  exact (h.split _).1

namespace Wal

variable {wal : Wal} {start : ℕ} {lists : List (List (List UInt8))} {opened : List (List UInt8)}

/-- Closed segments, an open one and empty ones make a log that reads them. -/
theorem exists_reads (hclosed : ClosedHold env start wal.closedSegments lists)
    (hopened : wal.openSegment.segment.HoldsEntries env opened)
    (hpending : ∀ segment ∈ wal.creator.pendingSegments, segment.segment.HoldsEntries env []) :
    ∃ first ≤ start, wal.Reads env first lists opened := by
  by_cases hnil : lists = []
  · subst hnil
    refine ⟨0, Nat.zero_le _, ?_, fun _ => rfl, hopened, hpending⟩
    rw [length_eq_zero_iff.mp hclosed.length_eq]
    exact .nil 0
  · exact ⟨start, Nat.le_refl _, hclosed, fun h => absurd h hnil, hopened, hpending⟩

theorem readable (hclosed : ClosedHold env start wal.closedSegments lists)
    (hopened : wal.openSegment.segment.HoldsEntries env opened)
    (hpending : ∀ segment ∈ wal.creator.pendingSegments, segment.segment.HoldsEntries env []) :
    ∃ start lists opened, wal.Reads env start lists opened := by
  obtain ⟨first, -, hreads⟩ := exists_reads hclosed hopened hpending
  exact ⟨first, lists, opened, hreads⟩

namespace Reads

section

variable (h : wal.Reads env start lists opened)

include h

/-- An entry is read if it is one of the log. -/
theorem entry_eq_some_iff {index : ℕ} {data : List UInt8} :
    wal.entry index = some (some data) ↔
      start ≤ index ∧ (lists.flatten ++ opened)[index - start]? = some data := by
  by_cases hstart : start ≤ index
  · simp [h.entry hstart, hstart]
  -- an index before the first segment is found in none
  have hopen := h.openSegmentStartIndex
  obtain ⟨closed, rest, hsegments, hfirst⟩ : ∃ closed rest,
      wal.closedSegments = closed :: rest ∧ closed.startIndex = start := by
    have hclosed := h.closed
    cases hsegments : wal.closedSegments with
    | nil =>
      have hlength := h.closed.length_eq
      rw [hsegments, length_nil, eq_comm, length_eq_zero_iff] at hlength
      have := h.start_eq hlength
      omega
    | cons closed rest =>
      rw [hsegments] at hclosed
      cases hclosed with
      | cons hfirst => exact ⟨closed, rest, rfl, hfirst⟩
  have hbefore : wal.entry index = some none := by
    unfold Wal.entry Wal.findClosedSegment
    rw [if_neg (by omega), hsegments, findIdx_cons, decide_eq_true (by omega)]
    simp [show index < closed.startIndex by omega]
  simp [hbefore, hstart]

theorem completeFlush : wal.completeFlush.Reads env start lists opened := by
  unfold Wal.completeFlush
  cases wal.flush with
  | none => exact h
  | some pending => exact { h with closed := h.closed.map_complete pending.1 pending.2 }

end

end Reads

/-- A step that closes a retired segment fails. -/
def ClosingFails (faults : AppendFaults) (wal : Wal) : Prop :=
  wal.flush.isSome ∧ faults.join.isSome ∨
    (wal.closedSegments.getLast?.any fun closed => closed.segment.isEmpty) ∧ faults.delete.isSome ∨
    faults.rename.isSome

/-- The open segment is retired for an entry, another segment takes its place, and then a step
that closes it fails. -/
def LosesOpenSegment (env : Environment) (faults : AppendFaults) (wal : Wal) (entryLen : ℕ) :
    Prop :=
  wal.openSegment.segment.sufficientCapacity entryLen = false ∧
    wal.openSegment.segment.isEmpty = false ∧ faults.next = none ∧
    (wal.creator.next env).isOk ∧ wal.ClosingFails faults

namespace Reads

/-- A retired segment becomes the last closed one, or it is lost. -/
theorem closeRetired (h : wal.Reads env start lists []) (faults : AppendFaults)
    {retired : OpenSegment} (hretired : retired.segment.HoldsEntries env opened) :
    ∃ next result, wal.closeRetired faults retired = (next, result) ∧
      ((result = .ok () ∧ ¬wal.ClosingFails faults ∧ ∃ nextLists,
          next.Reads env start nextLists [] ∧ nextLists.flatten = lists.flatten ++ opened) ∨
        ∃ error, result = .error error ∧ wal.ClosingFails faults ∧ ∃ first nextLists,
          next.Reads env first nextLists [] ∧
            first + nextLists.flatten.length ≤ start + lists.flatten.length) := by
  unfold Wal.closeRetired ClosingFails
  cases hjoin : wal.flush.bind fun _ => faults.join with
  | some error =>
    obtain ⟨pending, hflush, hfault⟩ := Option.bind_eq_some_iff.mp hjoin
    exact ⟨_, _, rfl, Or.inr ⟨error, rfl, Or.inl (by simp [hflush, hfault]), start, lists,
      { h with }, Nat.le_refl _⟩⟩
  | none =>
    have hjoined : ¬(wal.flush.isSome ∧ faults.join.isSome) := by
      cases hflush : wal.flush <;> simp_all
    have hcompleted := h.completeFlush
    have hlast := hcompleted.closed.getLast_isEmpty
    rw [h.closed.getLast_isEmpty]
    dsimp only
    rw [hlast]
    -- without its last segment, if that is empty, the log reads the same entries
    obtain ⟨keptLists, hkept, hflatten⟩ : ∃ keptLists, ClosedHold env start
        (if lists.getLast?.any isEmpty then wal.completeFlush.closedSegments.dropLast
          else wal.completeFlush.closedSegments) keptLists ∧
        keptLists.flatten = lists.flatten := by
      split
      · refine ⟨_, hcompleted.closed.dropLast, ?_⟩
        rcases eq_nil_or_concat lists with rfl | ⟨front, last, rfl⟩ <;> simp_all
      · exact ⟨lists, hcompleted.closed, rfl⟩
    generalize lists.getLast?.any isEmpty = hasEmpty at hkept
    cases hfault : (if hasEmpty then faults.delete else none).or faults.rename with
    | some error =>
      obtain ⟨first, hfirst, hreads⟩ := @exists_reads env { wal.completeFlush with
        closedSegments := if hasEmpty then _ else _
        flush := some (wal.completeFlush.openSegmentStartIndex, .nothing) } _ _ _ hkept
        hcompleted.opened hcompleted.pending
      refine ⟨_, _, rfl, Or.inr ⟨error, rfl, ?_, first, keptLists, hreads, ?_⟩⟩
      · cases hasEmpty <;> cases hdelete : faults.delete <;> simp_all
      · rw [hflatten]
        omega
    | none =>
      refine ⟨_, _, rfl, Or.inl ⟨rfl, ?_, keptLists ++ [opened], ⟨hkept.append ?_, by simp,
        hcompleted.opened, hcompleted.pending⟩, by simp [hflatten]⟩⟩
      · cases hasEmpty <;> simp_all
      · obtain ⟨seed, rest, hholds⟩ := hretired
        refine .cons ?_ ⟨seed, rest, hholds.of_same_bytes rfl rfl rfl⟩ (.nil _)
        rw [hflatten, ← hcompleted.openSegmentStartIndex]
        rfl

section

variable (h : wal.Reads env start lists opened)

include h

/-- Retiring the open segment fails before it is replaced, or the segment is closed or lost. -/
theorem retireOpenSegmentWith (faults : AppendFaults) :
    ∃ next result, wal.retireOpenSegmentWith env faults = (next, result) ∧
      ((∃ nextLists, result = .ok () ∧ ¬wal.ClosingFails faults ∧
          next.Reads env start nextLists [] ∧ nextLists.flatten = lists.flatten ++ opened) ∨
        ∃ error, result = .error error ∧
          ((¬(faults.next = none ∧ (wal.creator.next env).isOk ∧ wal.ClosingFails faults) ∧
              next.Reads env start lists opened) ∨
            (faults.next = none ∧ (wal.creator.next env).isOk ∧ wal.ClosingFails faults) ∧
              ∃ first nextLists, next.Reads env first nextLists [] ∧
                first + nextLists.flatten.length ≤ start + lists.flatten.length)) := by
  unfold Wal.retireOpenSegmentWith
  cases hfault : faults.next with
  | some fault =>
    refine ⟨_, _, rfl, Or.inr ⟨_, rfl, Or.inl ⟨by simp, { h with pending := ?_ }⟩⟩⟩
    exact fun segment hsegment => h.pending segment (mem_of_mem_take hsegment)
  | none =>
    cases hnext : wal.creator.next env with
    | error error =>
      exact ⟨_, _, rfl, Or.inr ⟨_, rfl, Or.inl ⟨(fun hlost => nomatch hlost.2.1), h⟩⟩⟩
    | ok taken =>
      obtain ⟨segment, creator⟩ := taken
      obtain ⟨hsegment, hpending⟩ :=
        SegmentCreator.next_all Segment.create_holdsEntries h.pending hnext
      have hswapped :
          ({ wal with openSegment := segment, creator } : Wal).Reads env start lists [] :=
        ⟨h.closed, h.start_eq, hsegment, hpending⟩
      obtain ⟨next, result, hrun, ⟨hok, hcloses, nextLists, hreads, hflatten⟩ | ⟨error, herror,
        hfails, hlost⟩⟩ := hswapped.closeRetired faults h.opened
      · exact ⟨next, result, hrun, Or.inl ⟨nextLists, hok, hcloses, hreads, hflatten⟩⟩
      · exact ⟨next, result, hrun, Or.inr ⟨error, herror, Or.inr ⟨⟨rfl, rfl, hfails⟩, hlost⟩⟩⟩

/-- The last steps of an append keep what the log reads, and append the entry if they succeed. -/
theorem growAndAppend (faults : AppendFaults) {data : List UInt8} (hlength : data.length < 2 ^ 63) :
    ∃ next result, wal.growAndAppend env faults data = some (next, result) ∧
      ((∃ error, result = .error error ∧ next.Reads env start lists opened) ∨
        result = .ok (start + (lists.flatten ++ opened).length) ∧
          next.Reads env start lists (opened ++ [data])) := by
  obtain ⟨seed, rest, hopened⟩ := h.opened
  obtain ⟨segment, segmentRest, hensure, hsegment, hfits⟩ := hopened.ensureCapacity data.length
  unfold Wal.growAndAppend
  rw [hensure]
  dsimp only
  split
  · rename_i error flushed _
    refine ⟨_, _, rfl, Or.inl ⟨error, rfl, ?_⟩⟩
    cases flushed with
    | true => exact { h with opened := ⟨_, _, hopened.flush⟩ }
    | false => exact h
  · have hgrown := h.set_open ⟨_, _, hsegment⟩
    obtain ⟨_, hnext, hentries⟩ := hgrown.appendToOpen hlength hsegment hfits
    exact ⟨_, _, by rw [hnext]; rfl, Or.inr ⟨rfl, hgrown.set_open hentries⟩⟩

/-- An append that fails keeps what the log reads, if it does not lose the open segment. -/
theorem appendWith (faults : AppendFaults) {data : List UInt8} (hlength : data.length < 2 ^ 63) :
    ∃ next result, wal.appendWith env faults data = some (next, result) ∧
      ((∃ nextLists nextOpened, result = .ok (start + (lists.flatten ++ opened).length) ∧
          next.Reads env start nextLists nextOpened ∧
          nextLists.flatten ++ nextOpened = lists.flatten ++ opened ++ [data]) ∨
        ∃ error, result = .error error ∧
          ((¬wal.LosesOpenSegment env faults data.length ∧ ∃ nextLists nextOpened,
              next.Reads env start nextLists nextOpened ∧
              nextLists.flatten ++ nextOpened = lists.flatten ++ opened) ∨
            wal.LosesOpenSegment env faults data.length ∧ opened ≠ [] ∧ ∃ first nextLists,
              next.Reads env first nextLists [] ∧
              first + nextLists.flatten.length ≤ start + lists.flatten.length)) := by
  obtain ⟨seed, rest, hopened⟩ := h.opened
  unfold Wal.appendWith LosesOpenSegment
  by_cases hsufficient : wal.openSegment.segment.sufficientCapacity data.length
  · have hfits := hsufficient
    rw [hopened.sufficientCapacity, decide_eq_true_eq] at hfits
    obtain ⟨_, hnext, hentries⟩ := h.appendToOpen hlength hopened hfits
    rw [if_pos hsufficient, hnext]
    exact ⟨_, _, rfl, Or.inl ⟨lists, _, rfl, h.set_open hentries, (append_assoc ..).symm⟩⟩
  rw [if_neg hsufficient]
  by_cases hempty : wal.openSegment.segment.isEmpty
  · rw [if_pos hempty]
    obtain ⟨next, result, hrun, ⟨error, herror, hreads⟩ | ⟨hok, hreads⟩⟩ :=
      h.growAndAppend faults hlength
    · exact ⟨next, result, hrun, Or.inr ⟨error, herror, Or.inl ⟨by simp [hempty], lists, opened,
        hreads, rfl⟩⟩⟩
    · exact ⟨next, result, hrun, Or.inl ⟨lists, _, hok, hreads, (append_assoc ..).symm⟩⟩
  rw [if_neg hempty]
  obtain ⟨retired, result, hretire, ⟨retiredLists, rfl, hcloses, hretired, hflatten⟩ |
    ⟨error, rfl, hfails⟩⟩ := h.retireOpenSegmentWith faults
  · rw [hretire]
    obtain ⟨next, result, hrun, ⟨error, herror, hreads⟩ | ⟨hok, hreads⟩⟩ :=
      hretired.growAndAppend faults hlength
    · exact ⟨next, result, hrun, Or.inr ⟨error, herror, Or.inl ⟨fun hlost => hcloses hlost.2.2.2.2,
        _, _, hreads, by rw [hflatten, append_nil]⟩⟩⟩
    · refine ⟨next, result, hrun, Or.inl ⟨_, _, ?_, hreads, ?_⟩⟩
      · rw [hok, hflatten, append_nil]
      · rw [hflatten, nil_append]
  · rw [hretire]
    simp only [Bool.not_eq_true] at hsufficient hempty
    rcases hfails with ⟨hkept, hreads⟩ | ⟨hlost, hreads⟩
    · exact ⟨_, _, rfl, Or.inr ⟨error, rfl, Or.inl ⟨fun hlost => hkept hlost.2.2, lists, opened,
        hreads, rfl⟩⟩⟩
    · refine ⟨_, _, rfl, Or.inr ⟨error, rfl, Or.inr ⟨⟨hsufficient, hempty, hlost⟩, ?_, hreads⟩⟩⟩
      rintro rfl
      rw [h.opened.isEmpty] at hempty
      cases hempty

end

end Reads

/-! ### Logs that calls lead to -/

/-- Every segment of the directory holds entries that were appended to it. -/
def Written (env : Environment) (dir : List (FileName × List UInt8)) : Prop :=
  ∀ file ∈ dir, ∀ segment, Segment.openFile env.crc32cAppend file.2 = .ok segment →
    ∃ entries, segment.HoldsEntries env entries

/-- The logs that calls lead to from any directory of written segments, where the steps of every
append may fail. -/
inductive FaultyReaches (env : Environment) : Wal → Prop where
  | opened {dir : List (FileName × List UInt8)} {options : WalOptions} {wal : Wal}
      (hdir : Written env dir) (h : withOptions env dir options = some (.ok wal)) :
      FaultyReaches env wal
  | append {wal next : Wal} {data : List UInt8} {faults : AppendFaults} {result : IoResult ℕ}
      (h : FaultyReaches env wal) (hlength : data.length < 2 ^ 63)
      (hrun : wal.appendWith env faults data = some (next, result)) : FaultyReaches env next
  | flushOpenSegment {wal : Wal} (h : FaultyReaches env wal) :
      FaultyReaches env wal.flushOpenSegment
  | truncate {wal next : Wal} {fromIndex : ℕ} (h : FaultyReaches env wal)
      (hrun : wal.truncate fromIndex = some next) : FaultyReaches env next
  | prefixTruncate {wal next : Wal} {untilIndex : ℕ} (h : FaultyReaches env wal)
      (hrun : wal.prefixTruncate untilIndex = some next) : FaultyReaches env next
  | setRetention {wal : Wal} (retainClosed : ℕ) (h : FaultyReaches env wal) :
      FaultyReaches env (wal.setRetention retainClosed)

end Wal

section opening

variable {start : ℕ}

private theorem openDirEntries_holds {dir : List (FileName × List UInt8)}
    {opened : List OpenSegment} {closed : List ClosedSegment} (hdir : Wal.Written env dir)
    (h : openDirEntries env dir = .ok (opened, closed)) :
    (∀ segment ∈ opened, ∃ entries, segment.segment.HoldsEntries env entries) ∧
      ∀ segment ∈ closed, ∃ entries, segment.segment.HoldsEntries env entries := by
  induction dir generalizing opened closed with
  | nil =>
    cases h
    simp
  | cons file dir ih =>
    obtain ⟨hfile, hothers⟩ := forall_mem_cons.mp hdir
    obtain ⟨name, bytes⟩ := file
    cases name with
    | temporary => exact ih hothers h
    | other => exact ih hothers h
    | _ number =>
      simp only [openDirEntries, bind, Except.bind, pure, Except.pure] at h
      cases hopen : Segment.openFile env.crc32cAppend bytes with
      | error error =>
        rw [hopen] at h
        cases h
      | ok segment =>
        rw [hopen] at h
        cases hrest : openDirEntries env dir with
        | error error =>
          rw [hrest] at h
          cases h
        | ok rest =>
          rw [hrest] at h
          cases h
          obtain ⟨hopened, hclosed⟩ := ih hothers hrest
          grind

private theorem validateClosed_holds {segments : List ClosedSegment} {next : ℕ}
    (h : validateClosed start segments = some (.ok next))
    (hall : ∀ segment ∈ segments, ∃ entries, segment.segment.HoldsEntries env entries) :
    ∃ lists, ClosedHold env start segments lists ∧ next = start + lists.flatten.length := by
  induction segments generalizing start with
  | nil =>
    cases h
    exact ⟨[], .nil _, rfl⟩
  | cons closed segments ih =>
    obtain ⟨⟨entries, hholds⟩, hall⟩ := forall_mem_cons.mp hall
    rw [validateClosed] at h
    split at h
    · cases h
    split at h
    · rename_i heq
      rw [heq, hholds.len] at h
      obtain ⟨lists, hlists, hnext⟩ := ih h hall
      refine ⟨entries :: lists, .cons heq hholds hlists, ?_⟩
      rw [hnext, flatten_cons, length_append, Nat.add_assoc]
    · cases h

/-- What the loop over the open segments has found can be read. -/
private structure OpenSelection.Readable (env : Environment) (selection : OpenSelection) :
    Prop where
  closed : ∃ start lists, ClosedHold env start selection.closedSegments lists ∧
    selection.nextStartIndex = start + lists.flatten.length
  opened : ∀ segment ∈ selection.openSegment, ∃ entries, segment.segment.HoldsEntries env entries
  unused : ∀ segment ∈ selection.unusedSegments, segment.segment.HoldsEntries env []

private theorem OpenSelection.Readable.foldl {segments : List OpenSegment}
    {selection : OpenSelection} (h : selection.Readable env)
    (hall : ∀ segment ∈ segments, ∃ entries, segment.segment.HoldsEntries env entries) :
    (segments.foldl OpenSelection.step selection).Readable env := by
  refine foldlRecOn (motive := (Readable env ·)) segments _ h ?_
  intro selection h segment hsegment
  obtain ⟨entries, hholds⟩ := hall segment hsegment
  have hlast : ∀ next ∈ some segment, ∃ entries, next.segment.HoldsEntries env entries := by
    rintro _ ⟨⟩
    exact ⟨entries, hholds⟩
  unfold OpenSelection.step
  cases hopen : selection.openSegment with
  | none => split <;> exact { h with opened := hlast }
  | some stranded =>
    split
    · obtain ⟨start, lists, hclosed, hnext⟩ := h.closed
      obtain ⟨strandedEntries, hstranded⟩ := h.opened stranded hopen
      refine ⟨⟨start, lists ++ [strandedEntries],
        hclosed.append (.cons hnext hstranded (.nil _)), ?_⟩, hlast, h.unused⟩
      simp [closeSegment, hnext, hstranded.len, Nat.add_assoc]
    · rename_i hempty
      simp only [Bool.not_eq_true, Bool.not_eq_false', hholds.isEmpty, List.isEmpty_iff] at hempty
      subst hempty
      exact ⟨h.closed, fun next hnext => h.opened next (hopen ▸ hnext),
        forall_mem_append.mpr ⟨h.unused, by simpa using hholds⟩⟩

/-- A log that is put together from segments reads their entries. -/
private theorem Wal.ofSegments_reads {opened : List OpenSegment} {closed : List ClosedSegment}
    {options : WalOptions} {wal : Wal} (h : ofSegments env options opened closed = some (.ok wal))
    (hopened : ∀ segment ∈ opened, ∃ entries, segment.segment.HoldsEntries env entries)
    (hclosed : ∀ segment ∈ closed, ∃ entries, segment.segment.HoldsEntries env entries) :
    ∃ start lists entries, wal.Reads env start lists entries := by
  unfold ofSegments at h
  split at h
  · cases h
  · cases h
  rename_i nextStartIndex hvalid
  obtain ⟨lists, hlists, hnext⟩ := validateClosed_holds hvalid hclosed
  have hselected := @OpenSelection.Readable.foldl env opened ⟨none, [], closed, nextStartIndex⟩
    ⟨⟨_, lists, hlists, hnext⟩, by simp, by simp⟩ hopened
  dsimp only [bind, Except.bind, pure, Except.pure] at h
  obtain ⟨start, lists, hclosed, -⟩ := hselected.closed
  split at h
  · cases h
  rename_i creator hcreator
  have hpending := SegmentCreator.scheduleCreation_all Segment.create_holdsEntries
    hselected.unused hcreator
  split at h
  · rename_i segment hopen
    cases h
    obtain ⟨entries, hholds⟩ := hselected.opened segment hopen
    exact readable hclosed hholds hpending
  split at h
  · cases h
  · rename_i taken htaken
    cases h
    obtain ⟨hholds, hpending⟩ := SegmentCreator.next_all Segment.create_holdsEntries hpending htaken
    exact readable hclosed hholds hpending

/-- An opened log reads the entries of its segments. -/
private theorem Wal.withOptions_reads {dir : List (FileName × List UInt8)} {options : WalOptions}
    {wal : Wal} (hdir : Written env dir) (h : withOptions env dir options = some (.ok wal)) :
    ∃ start lists opened, wal.Reads env start lists opened := by
  unfold withOptions at h
  split at h
  · cases h
  rename_i opened closed hentries
  obtain ⟨hopened, hclosed⟩ := openDirEntries_holds hdir hentries
  exact ofSegments_reads h
    (fun segment hsegment => hopened segment ((perm_insertionSort _ _).mem_iff.mp hsegment))
    fun segment hsegment => hclosed segment ((perm_insertionSort _ _).mem_iff.mp hsegment)

/-- A truncated log reads the entries of what is left of its segments. -/
private theorem Wal.Reads.truncate {wal next : Wal} {opened : List (List UInt8)}
    (h : wal.Reads env start lists opened) {fromIndex : ℕ}
    (hrun : wal.truncate fromIndex = some next) :
    ∃ start lists opened, next.Reads env start lists opened := by
  have htruncate : ∀ {segment : Segment} {entries} (count : ℕ), segment.HoldsEntries env entries →
      (segment.truncate count).HoldsEntries env (entries.take count) := by
    rintro segment entries count ⟨seed, rest, hholds⟩
    exact ⟨seed, hholds.truncate count⟩
  unfold Wal.truncate truncateClosed at hrun
  dsimp only at hrun
  repeat' split at hrun
  all_goals cases hrun
  · exact readable h.closed (htruncate _ h.opened) h.pending
  · exact readable h.closed (htruncate _ h.opened) h.pending
  · exact readable (h.closed.split _).1 (htruncate _ h.opened) h.pending
  · rename_i position _ _ closed hclosed _
    obtain ⟨hbefore, hafter⟩ := h.closed.split position
    obtain ⟨hposition, rfl⟩ := List.getElem?_eq_some_iff.mp hclosed
    rw [drop_eq_getElem_cons hposition] at hafter
    cases hafter' : lists.drop position with
    | nil =>
      rw [hafter'] at hafter
      cases hafter
    | cons entries rest =>
      rw [hafter'] at hafter
      cases hafter with
      | cons hstart hholds =>
        obtain ⟨seed, rest, htruncated⟩ := htruncate (fromIndex - _) hholds
        exact readable (hbefore.append (.cons hstart ⟨seed, rest, htruncated.flush⟩ (.nil _)))
          (htruncate _ h.opened) h.pending
  · exact readable (.nil start) (htruncate _ h.opened) h.pending

/-- Every log that calls lead to reads some entries. -/
theorem Wal.FaultyReaches.reads {wal : Wal} (h : FaultyReaches env wal) :
    ∃ start lists opened, wal.Reads env start lists opened := by
  induction h with
  | opened hdir h => exact withOptions_reads hdir h
  | append _ hlength hrun ih =>
    obtain ⟨start, lists, opened, hreads⟩ := ih
    obtain ⟨next, result, hnext, hcases⟩ := hreads.appendWith _ hlength
    cases hnext.symm.trans hrun
    obtain ⟨_, _, _, hreads, _⟩ |
      ⟨_, _, ⟨_, _, _, hreads, _⟩ | ⟨_, _, _, _, hreads, _⟩⟩ := hcases <;>
      exact ⟨_, _, _, hreads⟩
  | flushOpenSegment _ ih =>
    obtain ⟨start, lists, opened, hreads⟩ := ih
    obtain ⟨seed, rest, hopened⟩ := hreads.opened
    exact ⟨start, lists, opened, { hreads with opened := ⟨seed, rest, hopened.flush⟩ }⟩
  | setRetention _ _ ih =>
    obtain ⟨start, lists, opened, hreads⟩ := ih
    exact ⟨start, lists, opened, { hreads with }⟩
  | truncate _ hrun ih =>
    obtain ⟨start, lists, opened, hreads⟩ := ih
    exact hreads.truncate hrun
  | prefixTruncate _ hrun ih =>
    obtain ⟨start, lists, opened, hreads⟩ := ih
    unfold Wal.prefixTruncate at hrun
    repeat' split at hrun
    all_goals cases hrun
    · exact ⟨_, _, _, hreads⟩
    all_goals exact readable (hreads.closed.split _).2 hreads.opened hreads.pending

end opening

namespace Wal

/-- `Wal::append` for each of the entries; the indexes of those that succeed. -/
def appendAll (env : Environment) : Wal → List (List UInt8) → Option (Wal × List ℕ)
  | wal, [] => some (wal, [])
  | wal, data :: later =>
    match wal.append env data with
    | none => none
    | some (.error _) => wal.appendAll env later
    | some (.ok (next, index)) =>
      (next.appendAll env later).map fun (last, indices) => (last, index :: indices)

private theorem Reads.appendAll {wal : Wal} {start : ℕ} {opened : List (List UInt8)}
    (h : wal.Reads env start lists opened) {later : List (List UInt8)}
    (hlater : ∀ data ∈ later, data.length < 2 ^ 63) :
    ∃ last indices, wal.appendAll env later = some (last, indices) ∧
      indices = range' (start + (lists.flatten ++ opened).length) indices.length := by
  induction later generalizing wal lists opened with
  | nil => exact ⟨wal, [], rfl, rfl⟩
  | cons data later ih =>
    obtain ⟨hdata, hlater⟩ := forall_mem_cons.mp hlater
    obtain ⟨next, result, hrun, hcases⟩ := h.appendWith {} hdata
    rw [appendAll, append_eq_appendWith, hrun]
    obtain ⟨nextLists, nextOpened, rfl, hreads, hentries⟩ | ⟨error, rfl, -⟩ := hcases
    · obtain ⟨last, indices, hlast, hindices⟩ := ih hreads hlater
      refine ⟨last, (start + (lists.flatten ++ opened).length) :: indices, ?_, ?_⟩
      · simp [Except.map, hlast]
      · rw [hentries, length_append, length_singleton, ← Nat.add_assoc] at hindices
        rw [length_cons, range'_succ, ← hindices]
    · exact ih h hlater

/-- An append that fails leaves every entry readable under its index, and the later appends that
succeed get the indexes that follow, exactly if it does not lose the open segment. -/
theorem failed_append_keeps_log_iff {wal next : Wal} (h : FaultyReaches env wal)
    {data : List UInt8} (hlength : data.length < 2 ^ 63) {faults : AppendFaults} {error : IoError}
    (hfail : wal.appendWith env faults data = some (next, .error error)) :
    ((∀ index entry, wal.entry index = some (some entry) → next.entry index = some (some entry)) ∧
      ∀ later : List (List UInt8), (∀ data ∈ later, data.length < 2 ^ 63) →
        ∃ last indices, next.appendAll env later = some (last, indices) ∧
          indices = range' (wal.openSegmentStartIndex + wal.openSegment.segment.len)
            indices.length) ↔
      ¬wal.LosesOpenSegment env faults data.length := by
  obtain ⟨start, lists, opened, hreads⟩ := h.reads
  have hnext : wal.openSegmentStartIndex + wal.openSegment.segment.len =
      start + (lists.flatten ++ opened).length := by
    rw [hreads.openSegmentStartIndex, hreads.opened.len, length_append, Nat.add_assoc]
  rw [hnext]
  obtain ⟨_, _, hrun, hcases⟩ := hreads.appendWith faults hlength
  cases hrun.symm.trans hfail
  obtain ⟨_, _, hok, _⟩ | ⟨_, -, ⟨hkeeps, nextLists, nextOpened, hnextReads, hentries⟩ |
    ⟨hloses, hne, first, nextLists, hnextReads, hle⟩⟩ := hcases
  · cases hok
  · refine iff_of_true ⟨fun index entry hentry => ?_, fun later hlater => ?_⟩ hkeeps
    · rw [hnextReads.entry_eq_some_iff, hentries]
      exact hreads.entry_eq_some_iff.mp hentry
    · obtain ⟨last, indices, hlast, hindices⟩ := hnextReads.appendAll hlater
      rw [hentries] at hindices
      exact ⟨last, indices, hlast, hindices⟩
  · -- the first entry of the lost segment is read no more
    refine iff_of_false (fun hkeeps => ?_) (not_not.mpr hloses)
    obtain ⟨entry, rest, rfl⟩ := exists_cons_of_ne_nil hne
    have hread := hkeeps.1 (start + lists.flatten.length) entry
      (hreads.entry_eq_some_iff.mpr ⟨Nat.le_add_right _ _, by simp⟩)
    obtain ⟨-, hsome⟩ := hnextReads.entry_eq_some_iff.mp hread
    rw [append_nil, getElem?_eq_none (by omega)] at hsome
    cases hsome

/-- The creator fails on the second append, and the entry of the first one stays. -/
theorem failed_append_keeps_first_entry :
    ∃ wal first next error, withOptions constantEnvironment [] smallOptions = some (.ok wal) ∧
      wal.appendWith constantEnvironment {} [5] = some (first, .ok 0) ∧
      first.appendWith constantEnvironment { next := some (⟨.other, "disk full"⟩, 1) } [6] =
        some (next, .error error) ∧ next.entry 0 = some (some [5]) := by
  have hempty : Written constantEnvironment [] := nofun
  have hwal := @FaultyReaches.opened constantEnvironment [] smallOptions _ hempty rfl
  have hfirst := @FaultyReaches.append _ _ _ [5] {} _ hwal (by decide) rfl
  have hkeeps := @failed_append_keeps_log_iff constantEnvironment _ _ hfirst [6] (by decide)
    { next := some (⟨.other, "disk full"⟩, 1) } _ rfl
  exact ⟨_, _, _, _, rfl, rfl, rfl, (hkeeps.mpr fun hloses => by cases hloses.2.2.1).1 0 [5] rfl⟩

/-- The file of a retired segment cannot be renamed: its entry is read no more, and the next
entry gets its index. -/
theorem failed_rename_loses_entry :
    ∃ wal first next last error,
      withOptions constantEnvironment [] smallOptions = some (.ok wal) ∧
      wal.appendWith constantEnvironment {} [5] = some (first, .ok 0) ∧
      first.entry 0 = some (some [5]) ∧
      first.appendWith constantEnvironment { rename := some ⟨.other, "disk full"⟩ } [6] =
        some (next, .error error) ∧ next.entry 0 = some none ∧
      next.append constantEnvironment [7] = some (.ok (last, 0)) :=
  ⟨_, _, _, _, _, rfl, rfl, rfl, rfl, rfl, rfl⟩

end Wal

end Stratumind.WriteAhead
