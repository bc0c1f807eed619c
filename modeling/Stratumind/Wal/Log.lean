import Stratumind.Wal.Segment

/-!
# The write-ahead log

`Wal` appends to one open segment and keeps the segments before it as closed ones. A directory
is the list of its files; opening it sorts them out again. A function that can panic has no
outcome then. Segments are created as soon as they are asked for, not in a thread.
-/

namespace Stratumind.WriteAhead

/-- `OpenSegment`. -/
structure OpenSegment where
  id : ℕ
  segment : Segment

/-- `ClosedSegment`. -/
structure ClosedSegment where
  startIndex : ℕ
  segment : Segment

/-- `WalOptions`. -/
structure WalOptions where
  segmentCapacity : ℕ
  segmentQueueLen : ℕ
  retainClosed : ℕ
  retainClosed_pos : 0 < retainClosed

/-- The names of the files in the directory of a log. -/
inductive FileName where
  | openSegment (id : ℕ)
  | closedSegment (startIndex : ℕ)
  | temporary
  | other
  deriving DecidableEq

/-- What the log takes from its environment: the CRC, and the random seed of each segment. -/
structure Environment where
  crc32cAppend : UInt32 → List UInt8 → UInt32
  seed : ℕ → UInt32

/-! ### The segment creator -/

/-- `SegmentCreatorV2`. -/
structure SegmentCreator where
  pendingSegments : List OpenSegment
  segmentCapacity : ℕ
  segmentQueueLen : ℕ
  currentId : ℕ

namespace SegmentCreator

/-- `create_segments`. -/
def createSegments (env : Environment) (startId count capacity : ℕ) : IoResult (List OpenSegment) :=
  (List.range count).mapM fun i => do
    let segment ← Segment.create capacity (env.seed (startId + i))
    pure { id := startId + i, segment }

/-- `SegmentCreatorV2::schedule_creation`. -/
def scheduleCreation (env : Environment) (creator : SegmentCreator) : IoResult SegmentCreator := do
  let count := creator.segmentQueueLen - creator.pendingSegments.length
  let segments ← createSegments env creator.currentId count creator.segmentCapacity
  pure
    { creator with
      pendingSegments := creator.pendingSegments ++ segments
      currentId := creator.currentId + segments.length }

/-- `SegmentCreatorV2::new`. -/
def new (env : Environment) (openSegment : Option OpenSegment) (unused : List OpenSegment)
    (segmentCapacity segmentQueueLen : ℕ) : IoResult SegmentCreator :=
  scheduleCreation env
    { pendingSegments := unused
      segmentCapacity
      segmentQueueLen := max segmentQueueLen 1
      currentId := (unused.getLast?.or openSegment).elim 1 fun segment => segment.id + 1 }

/-- `SegmentCreatorV2::next`. -/
def next (env : Environment) (creator : SegmentCreator) : IoResult (OpenSegment × SegmentCreator) :=
  match creator.pendingSegments with
  | [] => .error ⟨.other, "no segments available"⟩
  | segment :: pending => do
    let creator ← scheduleCreation env { creator with pendingSegments := pending }
    pure (segment, creator)

end SegmentCreator

/-! ### The log -/

/-- `Wal`. The flush in the background is that of the closed segment with the given start. -/
structure Wal where
  openSegment : OpenSegment
  closedSegments : List ClosedSegment
  creator : SegmentCreator
  retainClosed : ℕ
  flush : Option (ℕ × PendingFlush)

/-- `close_segment`. -/
def closeSegment (segment : OpenSegment) (startIndex : ℕ) : ClosedSegment :=
  { startIndex, segment := segment.segment }

/-- The open and the closed segments among the files of a directory, as `open_dir_entry` finds
them. -/
def openDirEntries (env : Environment) :
    List (FileName × List UInt8) → IoResult (List OpenSegment × List ClosedSegment)
  | [] => .ok ([], [])
  | (.openSegment id, file) :: dir => do
    let segment ← Segment.openFile env.crc32cAppend file
    let (opened, closed) ← openDirEntries env dir
    pure ({ id, segment } :: opened, closed)
  | (.closedSegment startIndex, file) :: dir => do
    let segment ← Segment.openFile env.crc32cAppend file
    let (opened, closed) ← openDirEntries env dir
    pure (opened, { startIndex, segment } :: closed)
  | (.temporary, _) :: dir => openDirEntries env dir
  | (.other, _) :: dir => openDirEntries env dir

/-- The check that closed segments are contiguous: the index after the last of them. -/
def validateClosed : ℕ → List ClosedSegment → Option (IoResult ℕ)
  | nextStartIndex, [] => some (.ok nextStartIndex)
  | nextStartIndex, closed :: rest =>
    if closed.startIndex < nextStartIndex then none
    else if closed.startIndex = nextStartIndex then
      validateClosed (closed.startIndex + closed.segment.len) rest
    else
      some (.error ⟨.invalidData, "missing segment(s) containing wal entries " ++
        toString nextStartIndex ++ " to " ++ toString closed.startIndex⟩)

/-- What the loop over the open segments has found so far. -/
structure OpenSelection where
  openSegment : Option OpenSegment
  unusedSegments : List OpenSegment
  closedSegments : List ClosedSegment
  nextStartIndex : ℕ

/-- One turn of the loop over the open segments. -/
def OpenSelection.step (selection : OpenSelection) (segment : OpenSegment) : OpenSelection :=
  if !segment.segment.isEmpty then
    match selection.openSegment with
    | none => { selection with openSegment := some segment }
    | some stranded =>
      -- a segment whose renaming was lost is closed now
      let closed := closeSegment stranded selection.nextStartIndex
      { selection with
        openSegment := some segment
        nextStartIndex := selection.nextStartIndex + closed.segment.len
        closedSegments := selection.closedSegments ++ [closed] }
  else
    match selection.openSegment with
    | none => { selection with openSegment := some segment }
    | some _ => { selection with unusedSegments := selection.unusedSegments ++ [segment] }

namespace Wal

/-- The second half of `Wal::with_options`, from the sorted segments on. -/
def ofSegments (env : Environment) (options : WalOptions) (opened : List OpenSegment)
    (closed : List ClosedSegment) : Option (IoResult Wal) :=
  match validateClosed (closed.head?.elim 0 ClosedSegment.startIndex) closed with
  | none => none
  | some (.error error) => some (.error error)
  | some (.ok nextStartIndex) =>
    let selection := opened.foldl OpenSelection.step
      { openSegment := none, unusedSegments := [], closedSegments := closed, nextStartIndex }
    some do
      let creator ← SegmentCreator.new env selection.openSegment selection.unusedSegments
        options.segmentCapacity options.segmentQueueLen
      let (openSegment, creator) ←
        match selection.openSegment with
        | some segment => pure (segment, creator)
        | none => creator.next env
      pure
        { openSegment
          closedSegments := selection.closedSegments
          creator
          retainClosed := options.retainClosed
          flush := none }

/-- `Wal::with_options`. -/
def withOptions (env : Environment) (dir : List (FileName × List UInt8)) (options : WalOptions) :
    Option (IoResult Wal) :=
  match openDirEntries env dir with
  | .error error => some (.error error)
  | .ok (opened, closed) =>
    ofSegments env options (opened.insertionSort fun a b => a.id ≤ b.id)
      (closed.insertionSort fun a b => a.startIndex ≤ b.startIndex)

variable (wal : Wal)

/-- The files of a log. -/
def files : List (FileName × List UInt8) :=
  wal.closedSegments.map (fun closed =>
    (.closedSegment closed.startIndex, closed.segment.mmap.bytes)) ++
  (wal.openSegment :: wal.creator.pendingSegments).map fun opened =>
    (.openSegment opened.id, opened.segment.mmap.bytes)

/-- `Wal::open_segment_start_index`. -/
def openSegmentStartIndex : ℕ :=
  wal.closedSegments.getLast?.elim 0 fun closed => closed.startIndex + closed.segment.len

/-- `Wal::first_index`. -/
def firstIndex : ℕ := wal.closedSegments.head?.elim 0 ClosedSegment.startIndex

/-- `Wal::num_entries`. -/
def numEntries : ℕ :=
  wal.openSegmentStartIndex - wal.firstIndex + wal.openSegment.segment.len

/-- `Wal::last_index`. -/
def lastIndex : ℕ := wal.firstIndex + (wal.numEntries - 1)

/-- The flush in the background has ended. -/
def completeFlush : Wal :=
  match wal.flush with
  | none => wal
  | some (startIndex, pending) =>
    { wal with
      closedSegments := wal.closedSegments.map fun closed =>
        if closed.startIndex = startIndex then
          { closed with segment := closed.segment.complete pending }
        else closed
      flush := none }

/-- `Wal::retire_open_segment`: waits for the flush before, and starts one of the segment that
is closed. -/
def retireOpenSegment (env : Environment) (wal : Wal) : IoResult Wal := do
  let (openSegment, creator) ← wal.creator.next env
  let retired := wal.openSegment
  let wal := { wal with openSegment, creator }.completeFlush
  let (segment, pending) := retired.segment.flushAsync
  let startIndex := wal.openSegmentStartIndex
  -- an empty closed segment makes room for the new one
  let closedSegments :=
    if wal.closedSegments.getLast?.any fun closed => closed.segment.isEmpty then
      wal.closedSegments.dropLast
    else wal.closedSegments
  pure
    { wal with
      flush := some (startIndex, pending)
      closedSegments := closedSegments ++ [closeSegment { retired with segment } startIndex] }

/-- The first steps of `Wal::append`: makes an open segment that is large enough. -/
def makeRoom (env : Environment) (wal : Wal) (entryLen : ℕ) : Option (IoResult Wal) :=
  if wal.openSegment.segment.sufficientCapacity entryLen then some (.ok wal)
  else
    let retired := if wal.openSegment.segment.isEmpty then .ok wal else wal.retireOpenSegment env
    match retired with
    | .error error => some (.error error)
    | .ok wal =>
      match wal.openSegment.segment.ensureCapacity entryLen with
      | none => none
      | some segment =>
        some (.ok { wal with openSegment := { wal.openSegment with segment } })

/-- The last steps of `Wal::append`, in a segment that is large enough. -/
def appendToOpen (env : Environment) (wal : Wal) (entry : List UInt8) : Option (Wal × ℕ) :=
  match wal.openSegment.segment.append env.crc32cAppend entry with
  | none => none
  | some (segment, index) =>
    some ({ wal with openSegment := { wal.openSegment with segment } },
      wal.openSegmentStartIndex + index)

/-- `Wal::append`. -/
def append (env : Environment) (wal : Wal) (entry : List UInt8) : Option (IoResult (Wal × ℕ)) :=
  match wal.makeRoom env entry.length with
  | none => none
  | some (.error error) => some (.error error)
  | some (.ok wal) => (wal.appendToOpen env entry).map .ok

/-- `Wal::flush_open_segment`. -/
def flushOpenSegment : Wal :=
  { wal with openSegment := { wal.openSegment with segment := wal.openSegment.segment.flush } }

/-- `Wal::find_closed_segment`: the position of the closed segment with an index, or where it
would be. -/
def findClosedSegment (index : ℕ) : Except ℕ ℕ :=
  let position := wal.closedSegments.findIdx fun closed =>
    decide (index < closed.startIndex + closed.segment.len)
  match wal.closedSegments[position]? with
  | none => .error position
  | some closed => if index < closed.startIndex then .error position else .ok position

/-- `Wal::entry`. -/
def entry (index : ℕ) : Option (Option (List UInt8)) :=
  if index ≥ wal.openSegmentStartIndex then
    some (wal.openSegment.segment.entry (index - wal.openSegmentStartIndex))
  else
    match wal.findClosedSegment index with
    | .ok position =>
      match wal.closedSegments[position]? with
      | none => none
      | some closed => some (closed.segment.entry (index - closed.startIndex))
    | .error position => if position = 0 then some none else none

/-- Truncates the closed segment at a position, and deletes those after it. -/
def truncateClosed (position fromIndex : ℕ) : Wal :=
  match wal.closedSegments[position]? with
  | none => wal
  | some closed =>
    if fromIndex = closed.startIndex then
      { wal with closedSegments := wal.closedSegments.take position }
    else
      let segment := (closed.segment.truncate (fromIndex - closed.startIndex)).flush
      { wal with closedSegments := wal.closedSegments.take position ++ [{ closed with segment }] }

/-- `Wal::truncate`. -/
def truncate (fromIndex : ℕ) : Option Wal :=
  let openStartIndex := wal.openSegmentStartIndex
  if fromIndex ≥ openStartIndex then
    some
      { wal with
        openSegment :=
          { wal.openSegment with
            segment := wal.openSegment.segment.truncate (fromIndex - openStartIndex) } }
  else
    let wal :=
      { wal with
        openSegment := { wal.openSegment with segment := wal.openSegment.segment.truncate 0 } }
    match wal.findClosedSegment fromIndex with
    | .ok position => some (wal.truncateClosed position fromIndex)
    | .error position =>
      if fromIndex ≤ (wal.closedSegments[position]?).elim 0 ClosedSegment.startIndex then
        some { wal with closedSegments := [] }
      else none

/-- `Wal::prefix_truncate`. -/
def prefixTruncate (untilIndex : ℕ) : Option Wal :=
  if untilIndex ≤ wal.firstIndex then some wal
  else
    let retainStartIndex := wal.closedSegments.length - wal.retainClosed
    if untilIndex ≥ wal.openSegmentStartIndex then
      some { wal with closedSegments := wal.closedSegments.drop retainStartIndex }
    else
      match wal.findClosedSegment untilIndex with
      | .error _ => none
      | .ok position =>
        some { wal with closedSegments := wal.closedSegments.drop (min position retainStartIndex) }

/-- `Wal::set_retention`. -/
def setRetention (retainClosed : ℕ) : Wal :=
  { wal with retainClosed := max retainClosed 1 }

end Wal

/-! ### A small log -/

/-- An environment in which every CRC is one and every seed is zero. -/
def constantEnvironment : Environment where
  crc32cAppend := fun _ _ => 1
  seed := fun _ => 0

/-- An environment in which a CRC is the sum of the bytes and every seed is zero. -/
def summingEnvironment : Environment where
  crc32cAppend := fun _ data => data.foldl (fun sum byte => sum + byte.toUInt32) 1
  seed := fun _ => 0

/-- Segments with room for one record. -/
def smallOptions : WalOptions where
  segmentCapacity := 24
  segmentQueueLen := 1
  retainClosed := 1
  retainClosed_pos := Nat.one_pos

/-!
### The entries of the log

The closed segments hold contiguous runs of entries, none of them empty, and the open segment
holds the rest. Every operation of the log is described by what it does to the entries.
-/

open List

variable {env : Environment}

/-- The segment holds the entries, whatever else is in its file. -/
def Segment.HoldsEntries (env : Environment) (segment : Segment) (entries : List (List UInt8)) :
    Prop :=
  ∃ seed rest, segment.Holds env.crc32cAppend seed rest entries

variable {entries : List (List UInt8)} {segment : Segment}

theorem Segment.HoldsEntries.len
    (h : segment.HoldsEntries env entries) : segment.len = entries.length := by
  obtain ⟨seed, rest, h⟩ := h
  exact h.len

theorem Segment.HoldsEntries.isEmpty
    (h : segment.HoldsEntries env entries) : segment.isEmpty = entries.isEmpty := by
  obtain ⟨seed, rest, h⟩ := h
  exact h.isEmpty

/-! ### Closed segments -/

/-- Contiguous closed segments with their entries. -/
inductive ClosedHold (env : Environment) :
    ℕ → List ClosedSegment → List (List (List UInt8)) → Prop where
  | nil (start : ℕ) : ClosedHold env start [] []
  | cons {start : ℕ} {closed : ClosedSegment} {segments : List ClosedSegment}
      {entries : List (List UInt8)} {lists : List (List (List UInt8))}
      (hstart : closed.startIndex = start) (hholds : closed.segment.HoldsEntries env entries)
      (hrest : ClosedHold env (start + entries.length) segments lists) :
      ClosedHold env start (closed :: segments) (entries :: lists)

namespace ClosedHold

variable {start : ℕ} {segments : List ClosedSegment} {lists : List (List (List UInt8))}

section

variable (h : ClosedHold env start segments lists)

include h

theorem length_eq : segments.length = lists.length := by
  induction h with
  | nil => rfl
  | cons _ _ _ ih => rw [length_cons, length_cons, ih]

theorem head (hempty : lists = [] → start = 0) :
    segments.head?.elim 0 ClosedSegment.startIndex = start := by
  cases h with
  | nil => exact (hempty rfl).symm
  | cons hstart => exact hstart

/-- Where the segments end. -/
theorem getLast (hempty : lists = [] → start = 0) :
    segments.getLast?.elim 0 (fun closed => closed.startIndex + closed.segment.len) =
      start + lists.flatten.length := by
  induction h with
  | nil => exact (hempty rfl).symm
  | @cons start closed segments entries lists hstart hholds hrest ih =>
    cases hrest with
    | nil =>
      rw [getLast?_singleton, Option.elim_some, hstart, hholds.len]
      simp
    | cons =>
      rw [getLast?_cons_cons, ih nofun]
      simp only [flatten_cons, length_append]
      omega

theorem append {more : List ClosedSegment} {moreLists : List (List (List UInt8))}
    (hmore : ClosedHold env (start + lists.flatten.length) more moreLists) :
    ClosedHold env start (segments ++ more) (lists ++ moreLists) := by
  induction h with
  | nil => exact hmore
  | cons hstart hholds _ ih =>
    refine cons hstart hholds (ih ?_)
    rwa [flatten_cons, length_append, ← Nat.add_assoc] at hmore

/-- The segments from a position on, and those before it. -/
theorem split (count : ℕ) :
    ClosedHold env start (segments.take count) (lists.take count) ∧
      ClosedHold env (start + (lists.take count).flatten.length) (segments.drop count)
        (lists.drop count) := by
  induction h generalizing count with
  | nil start =>
    rw [take_nil, take_nil, drop_nil, drop_nil]
    exact ⟨.nil _, .nil _⟩
  | @cons start closed segments entries lists hstart hholds hrest ih =>
    cases count with
    | zero => exact ⟨.nil _, .cons hstart hholds hrest⟩
    | succ count =>
      obtain ⟨htake, hdrop⟩ := ih count
      refine ⟨.cons hstart hholds htake, ?_⟩
      rw [take_succ_cons, flatten_cons, length_append, ← Nat.add_assoc]
      exact hdrop

/-- The segment that an index falls into. -/
theorem find {index : ℕ} (hstart : start ≤ index) (hend : index < start + lists.flatten.length) :
    ∃ position closed entries, segments[position]? = some closed ∧
      lists[position]? = some entries ∧ closed.segment.HoldsEntries env entries ∧
      closed.startIndex = start + (lists.take position).flatten.length ∧
      closed.startIndex ≤ index ∧ index < closed.startIndex + entries.length ∧
      segments.findIdx (fun closed =>
        decide (index < closed.startIndex + closed.segment.len)) = position := by
  induction h with
  | nil => simp at hend; omega
  | @cons start closed segments entries lists hfirst hholds hrest ih =>
    have hlen := hholds.len
    by_cases hlt : index < start + entries.length
    · refine ⟨0, closed, entries, rfl, rfl, hholds, ?_, by omega, by omega, ?_⟩
      · rw [hfirst]
        rfl
      · rw [findIdx_cons, decide_eq_true (by omega)]
        rfl
    rw [flatten_cons, length_append] at hend
    obtain ⟨position, found, foundEntries, hsegment, hlist, hfound, hfoundStart, hle, hfoundEnd,
      hfindIdx⟩ := ih (by omega) (by omega)
    refine ⟨position + 1, found, foundEntries, hsegment, hlist, hfound, ?_, hle, hfoundEnd, ?_⟩
    · rw [hfoundStart, take_succ_cons, flatten_cons, length_append]
      omega
    · rw [findIdx_cons, decide_eq_false (by omega), hfindIdx]
      rfl

/-- The last closed segment is not empty if none of them is. -/
theorem getLast_nonempty (hne : ∀ entries ∈ lists, entries ≠ []) :
    (segments.getLast?.any fun closed => closed.segment.isEmpty) = false := by
  induction h with
  | nil => rfl
  | cons _ hholds hrest ih =>
    obtain ⟨hfirst, hne⟩ := forall_mem_cons.mp hne
    cases hrest with
    | nil =>
      rw [getLast?_singleton, Option.any_some, hholds.isEmpty]
      exact isEmpty_eq_false_iff.mpr hfirst
    | cons =>
      exact ih hne

/-- A flush changes nothing. -/
theorem map_complete (startIndex : ℕ) (pending : PendingFlush) :
    ClosedHold env start (segments.map fun closed => if closed.startIndex = startIndex then
        { closed with segment := closed.segment.complete pending }
      else closed) lists := by
  induction h with
  | nil start => exact .nil start
  | @cons start closed segments entries lists hstart hholds _ ih =>
    refine .cons ?_ ?_ ih
    · dsimp only
      split <;> exact hstart
    dsimp only
    split
    · obtain ⟨seed, rest, hholds⟩ := hholds
      exact ⟨seed, rest, hholds.complete pending⟩
    · exact hholds

end

theorem getElem_flatten {index : ℕ} {position : ℕ} {entries : List (List UInt8)}
    (h : lists[position]? = some entries) (hge : (lists.take position).flatten.length ≤ index)
    (hlt : index < (lists.take position).flatten.length + entries.length) :
    lists.flatten[index]? = entries[index - (lists.take position).flatten.length]? := by
  obtain ⟨hposition, hget⟩ := List.getElem?_eq_some_iff.mp h
  have hsplit : lists = lists.take position ++ entries :: lists.drop (position + 1) := by
    rw [← hget, getElem_cons_drop, take_append_drop]
  generalize lists.take position = before at hsplit hge hlt
  rw [hsplit, flatten_append, flatten_cons, getElem?_append_right hge,
    getElem?_append_left (by omega)]

end ClosedHold

/-! ### The creator -/

/-- The creator has empty segments, with increasing ids above those handed out. -/
structure SegmentCreator.Ready (env : Environment) (creator : SegmentCreator) (lastId : ℕ) :
    Prop where
  pending : ∀ segment ∈ creator.pendingSegments, segment.segment.HoldsEntries env []
  ne_nil : creator.pendingSegments ≠ []
  ids : (lastId :: creator.pendingSegments.map OpenSegment.id).Pairwise (· < ·)
  currentId : ∀ id ∈ lastId :: creator.pendingSegments.map OpenSegment.id, id < creator.currentId
  capacity : headerLen ≤ creator.segmentCapacity
  queue : 0 < creator.segmentQueueLen

namespace SegmentCreator

private theorem createSegments_ok (env : Environment) (startId count : ℕ) {capacity : ℕ}
    (hcapacity : headerLen ≤ capacity) :
    ∃ segments, createSegments env startId count capacity = .ok segments ∧
      segments.map OpenSegment.id = (range count).map (startId + ·) ∧
      ∀ segment ∈ segments, segment.segment.HoldsEntries env [] := by
  unfold createSegments
  generalize range count = ids
  induction ids with
  | nil => exact ⟨[], rfl, rfl, nofun⟩
  | cons i ids ih =>
    obtain ⟨segments, hsegments, hmap, hall⟩ := ih
    obtain ⟨segment, hsegment, hholds⟩ := Segment.create_holds hcapacity (env.seed (startId + i))
    refine ⟨⟨startId + i, segment⟩ :: segments, ?_, ?_, ?_⟩
    · rw [mapM_cons, hsegment, hsegments]
      rfl
    · rw [map_cons, hmap, map_cons]
    · exact forall_mem_cons.mpr ⟨⟨_, _, hholds⟩, hall⟩

/-- The queue is filled up. -/
theorem scheduleCreation_ready {creator : SegmentCreator} {lastId : ℕ}
    (hpending : ∀ segment ∈ creator.pendingSegments, segment.segment.HoldsEntries env [])
    (hids : (lastId :: creator.pendingSegments.map OpenSegment.id).Pairwise (· < ·))
    (hcurrentId : ∀ id ∈ lastId :: creator.pendingSegments.map OpenSegment.id,
      id < creator.currentId)
    (hcapacity : headerLen ≤ creator.segmentCapacity) (hqueue : 0 < creator.segmentQueueLen) :
    ∃ next, scheduleCreation env creator = .ok next ∧ next.Ready env lastId ∧
      ∃ more, next.pendingSegments = creator.pendingSegments ++ more := by
  obtain ⟨segments, hsegments, hmap, hall⟩ := createSegments_ok env creator.currentId
    (creator.segmentQueueLen - creator.pendingSegments.length) hcapacity
  have hlength : segments.length = creator.segmentQueueLen - creator.pendingSegments.length := by
    have := congrArg length hmap
    simpa using this
  refine ⟨{ creator with
    pendingSegments := creator.pendingSegments ++ segments
    currentId := creator.currentId + segments.length }, ?_, ⟨?_, ?_, ?_, ?_, hcapacity, hqueue⟩,
    segments, rfl⟩
  · unfold scheduleCreation
    dsimp only
    rw [hsegments]
    rfl
  · exact forall_mem_append.mpr ⟨hpending, hall⟩
  · intro hnil
    have := congrArg length hnil
    simp only [length_append, length_nil] at this
    omega
  · rw [map_append, hmap, ← cons_append, pairwise_append]
    refine ⟨hids, ?_, fun id hid other hother => ?_⟩
    · rw [pairwise_map]
      exact pairwise_lt_range.imp (fun hlt => Nat.add_lt_add_left hlt _)
    · obtain ⟨i, -, rfl⟩ := mem_map.mp hother
      exact Nat.lt_add_right i (hcurrentId id hid)
  grind

section

variable {P : Segment → Prop}
  (hcreate : ∀ {capacity seed segment}, Segment.create capacity seed = .ok segment → P segment)

include hcreate

private theorem createSegments_all {startId count capacity : ℕ} {segments : List OpenSegment}
    (h : createSegments env startId count capacity = .ok segments) :
    ∀ opened ∈ segments, P opened.segment := by
  unfold createSegments at h
  generalize range count = ids at h
  induction ids generalizing segments with
  | nil =>
    cases h
    exact nofun
  | cons i ids ih =>
    rw [mapM_cons] at h
    cases hsegment : Segment.create capacity (env.seed (startId + i)) with
    | error error =>
      rw [hsegment] at h
      cases h
    | ok segment =>
      rw [hsegment] at h
      dsimp only [bind, Except.bind, pure, Except.pure] at h
      split at h
      · cases h
      · rename_i rest hrest
        cases h
        exact forall_mem_cons.mpr ⟨hcreate hsegment, ih hrest⟩

/-- What every created segment satisfies, the segments of the creator satisfy. -/
theorem scheduleCreation_all {creator next : SegmentCreator}
    (h : ∀ opened ∈ creator.pendingSegments, P opened.segment)
    (hnext : creator.scheduleCreation env = .ok next) :
    ∀ opened ∈ next.pendingSegments, P opened.segment := by
  unfold scheduleCreation at hnext
  dsimp only [bind, Except.bind, pure, Except.pure] at hnext
  split at hnext
  · cases hnext
  · rename_i segments hsegments
    cases hnext
    exact forall_mem_append.mpr ⟨h, createSegments_all hcreate hsegments⟩

/-- What every created segment satisfies, the next one satisfies. -/
theorem next_all {creator rest : SegmentCreator} {opened : OpenSegment}
    (h : ∀ opened ∈ creator.pendingSegments, P opened.segment)
    (hnext : creator.next env = .ok (opened, rest)) :
    P opened.segment ∧ ∀ opened ∈ rest.pendingSegments, P opened.segment := by
  unfold next at hnext
  split at hnext
  · cases hnext
  rename_i segment pending hpending
  rw [hpending] at h
  obtain ⟨hsegment, hrest⟩ := forall_mem_cons.mp h
  dsimp only [bind, Except.bind, pure, Except.pure] at hnext
  split at hnext
  · cases hnext
  rename_i scheduled hscheduled
  cases hnext
  exact ⟨hsegment, @scheduleCreation_all env _ hcreate { creator with pendingSegments := pending }
    _ hrest hscheduled⟩

end

/-- A ready creator hands out an empty segment and stays ready. -/
theorem Ready.next {creator : SegmentCreator} {lastId : ℕ} (h : creator.Ready env lastId) :
    ∃ segment rest, creator.next env = .ok (segment, rest) ∧ rest.Ready env segment.id ∧
      segment.segment.HoldsEntries env [] := by
  obtain ⟨segment, pending, hpending⟩ := exists_cons_of_ne_nil h.ne_nil
  have hids := h.ids
  have hcurrentId := h.currentId
  have hall := h.pending
  rw [hpending, map_cons] at hids hcurrentId
  rw [hpending] at hall
  obtain ⟨hfirst, hall⟩ := forall_mem_cons.mp hall
  obtain ⟨rest, hrest, hready, -⟩ := @scheduleCreation_ready env
    { creator with pendingSegments := pending } segment.id hall (pairwise_cons.mp hids).2
    (forall_mem_cons.mp hcurrentId).2 h.capacity h.queue
  refine ⟨segment, rest, ?_, hready, hfirst⟩
  unfold SegmentCreator.next
  rw [hpending]
  dsimp only
  rw [hrest]
  rfl

end SegmentCreator

/-! ### The log -/

namespace Wal

/-- The log reads the entries: those of the closed segments from an index on, and those of the
open segment. The creator may have run out of segments. -/
structure Reads (env : Environment) (wal : Wal) (start : ℕ) (lists : List (List (List UInt8)))
    (opened : List (List UInt8)) : Prop where
  closed : ClosedHold env start wal.closedSegments lists
  start_eq : lists = [] → start = 0
  opened : wal.openSegment.segment.HoldsEntries env opened
  pending : ∀ segment ∈ wal.creator.pendingSegments, segment.segment.HoldsEntries env []

/-- The log stores the entries: those of the closed segments from an index on, and those of the
open segment. -/
structure Stores (env : Environment) (wal : Wal) (start : ℕ) (lists : List (List (List UInt8)))
    (opened : List (List UInt8)) : Prop where
  closed : ClosedHold env start wal.closedSegments lists
  start_eq : lists = [] → start = 0
  opened : wal.openSegment.segment.HoldsEntries env opened
  creator : wal.creator.Ready env wal.openSegment.id
  retain : 0 < wal.retainClosed

/-- The log stores the entries, and no closed segment is empty. -/
structure Holds (env : Environment) (wal : Wal) (start : ℕ) (lists : List (List (List UInt8)))
    (opened : List (List UInt8)) : Prop extends wal.Stores env start lists opened where
  nonempty : ∀ entries ∈ lists, entries ≠ []

section

variable {wal : Wal} {start : ℕ} {lists : List (List (List UInt8))} {opened : List (List UInt8)}

theorem Stores.reads (h : wal.Stores env start lists opened) : wal.Reads env start lists opened :=
  { h with pending := h.creator.pending }

namespace Reads

variable (h : wal.Reads env start lists opened)

include h

theorem openSegmentStartIndex : wal.openSegmentStartIndex = start + lists.flatten.length :=
  h.closed.getLast h.start_eq

/-- The closed segment that an index falls into is found. -/
theorem findClosedSegment {index : ℕ} (hstart : start ≤ index)
    (hend : index < wal.openSegmentStartIndex) :
    ∃ position closed entries, wal.findClosedSegment index = .ok position ∧
      wal.closedSegments[position]? = some closed ∧ lists[position]? = some entries ∧
      closed.segment.HoldsEntries env entries ∧
      closed.startIndex = start + (lists.take position).flatten.length ∧
      closed.startIndex ≤ index ∧ index < closed.startIndex + entries.length := by
  rw [h.openSegmentStartIndex] at hend
  obtain ⟨position, closed, entries, hsegment, hlist, hholds, hclosedStart, hle, hlt, hfind⟩ :=
    h.closed.find hstart hend
  refine ⟨position, closed, entries, ?_, hsegment, hlist, hholds, hclosedStart, hle, hlt⟩
  unfold Wal.findClosedSegment
  dsimp only
  rw [hfind, hsegment]
  exact if_neg (Nat.not_lt.mpr hle)

/-- Entries are read under their indexes. -/
theorem entry {index : ℕ} (hstart : start ≤ index) :
    wal.entry index = some ((lists.flatten ++ opened)[index - start]?) := by
  have hopen := h.openSegmentStartIndex
  unfold Wal.entry
  by_cases hge : index ≥ wal.openSegmentStartIndex
  · obtain ⟨seed, rest, hholds⟩ := h.opened
    rw [if_pos hge, hholds.entry, getElem?_append_right (by omega)]
    congr 2
    omega
  rw [if_neg hge]
  obtain ⟨position, closed, entries, hfound, hsegment, hlist, ⟨seed, rest, hholds⟩, hclosedStart,
    hle, hlt⟩ := h.findClosedSegment hstart (Nat.lt_of_not_le hge)
  simp only [hfound, hsegment]
  have hflatten := @ClosedHold.getElem_flatten _ (index - start) _ _ hlist (by omega) (by omega)
  rw [hholds.entry, getElem?_append_left (by omega), hflatten, hclosedStart]
  congr 2
  omega

/-- An entry that fits is appended to the open segment. -/
theorem appendToOpen {data : List UInt8} (hlength : data.length < 2 ^ 63) {seed : UInt32}
    {rest : List UInt8} (hopened : wal.openSegment.segment.Holds env.crc32cAppend seed rest opened)
    (hfits : entrySizeDisk data.length ≤ rest.length) :
    ∃ segment, wal.appendToOpen env data =
        some ({ wal with openSegment := { wal.openSegment with segment } },
          start + (lists.flatten ++ opened).length) ∧
      segment.HoldsEntries env (opened ++ [data]) := by
  obtain ⟨segment, happend, hsegment, -, -⟩ := hopened.append hlength hfits
  refine ⟨segment, ?_, _, _, hsegment⟩
  unfold Wal.appendToOpen
  rw [happend, h.openSegmentStartIndex, length_append]
  dsimp only
  rw [Nat.add_assoc]

theorem set_open {segment : Segment} {entries : List (List UInt8)}
    (hsegment : segment.HoldsEntries env entries) :
    ({ wal with openSegment := { wal.openSegment with segment } } : Wal).Reads env start lists
      entries :=
  { h with opened := hsegment }

end Reads

namespace Stores

variable (h : wal.Stores env start lists opened)

include h

theorem firstIndex : wal.firstIndex = start :=
  h.closed.head h.start_eq

theorem numEntries : wal.numEntries = (lists.flatten ++ opened).length := by
  rw [Wal.numEntries, h.reads.openSegmentStartIndex, h.firstIndex, h.opened.len, length_append]
  omega

end Stores

end

/-- What is left by retiring the open segment, which starts at an index. -/
structure Retired (env : Environment) (wal next : Wal) (startIndex : ℕ) : Prop where
  creator : wal.creator.next env = .ok (next.openSegment, next.creator)
  closedSegments : next.closedSegments = wal.completeFlush.closedSegments ++
    [{ startIndex
       segment := { wal.openSegment.segment with flushOffset := wal.openSegment.segment.size } }]
  flush : next.flush = some (startIndex, wal.openSegment.segment.pendingFlush)

namespace Holds

variable {wal : Wal} {start : ℕ} {lists : List (List (List UInt8))} {opened : List (List UInt8)}

section

variable (h : wal.Holds env start lists opened)

include h

theorem flatten_pos (hne : lists ≠ []) : 0 < lists.flatten.length := by
  obtain ⟨entries, rest, hlists⟩ := exists_cons_of_ne_nil hne
  have hentries := h.nonempty entries (by rw [hlists]; exact mem_cons_self)
  rw [hlists, flatten_cons, length_append]
  exact Nat.add_pos_left (length_pos_iff.mpr hentries) _

/-- The open segment is replaced by one that holds other entries. -/
theorem set_open {segment : Segment} {entries : List (List UInt8)}
    (hsegment : segment.HoldsEntries env entries) :
    ({ wal with openSegment := { wal.openSegment with segment } } : Wal).Holds env start lists
      entries :=
  { h with opened := hsegment }

/-- A retired segment becomes the last closed one. -/
theorem retireOpenSegment (hne : opened ≠ []) :
    ∃ next, wal.retireOpenSegment env = .ok next ∧
      next.Holds env start (lists ++ [opened]) [] ∧
      wal.Retired env next (start + lists.flatten.length) := by
  obtain ⟨segment, creator, hnext, hready, hempty⟩ := h.creator.next
  obtain ⟨joined, hjoined⟩ : ∃ joined : Wal,
      joined = ({ wal with openSegment := segment, creator } : Wal).completeFlush := ⟨_, rfl⟩
  obtain ⟨hopenSegment, hcreator, hretain, hsame, hclosed⟩ : joined.openSegment = segment ∧
      joined.creator = creator ∧ joined.retainClosed = wal.retainClosed ∧
      joined.closedSegments = wal.completeFlush.closedSegments ∧
      ClosedHold env start joined.closedSegments lists := by
    rw [hjoined]
    unfold completeFlush
    cases wal.flush with
    | none => exact ⟨rfl, rfl, rfl, rfl, h.closed⟩
    | some pending => exact ⟨rfl, rfl, rfl, rfl, h.closed.map_complete pending.1 pending.2⟩
  have hstartIndex : joined.openSegmentStartIndex = start + lists.flatten.length :=
    hclosed.getLast h.start_eq
  have hlast := hclosed.getLast_nonempty h.nonempty
  refine ⟨{ joined with
    flush := some (start + lists.flatten.length, wal.openSegment.segment.pendingFlush)
    closedSegments := joined.closedSegments ++
      [closeSegment { wal.openSegment with segment := wal.openSegment.segment.flushAsync.1 }
        (start + lists.flatten.length)] }, ?_, ⟨⟨?_, ?_, ?_, ?_, ?_⟩, ?_⟩, ?_, ?_, rfl⟩
  · unfold Wal.retireOpenSegment
    rw [hnext]
    dsimp only [bind, Except.bind, pure, Except.pure]
    rw [← hjoined, hstartIndex, hlast]
    rfl
  · obtain ⟨seed, rest, hopened⟩ := h.opened
    refine hclosed.append (.cons rfl ⟨seed, rest, ?_⟩ (.nil _))
    exact hopened.of_same_bytes rfl rfl rfl
  · intro hnil
    exact absurd hnil (by simp)
  · dsimp only
    rwa [hopenSegment]
  · dsimp only
    rwa [hopenSegment, hcreator]
  · dsimp only
    rw [hretain]
    exact h.retain
  · exact forall_mem_append.mpr ⟨h.nonempty, forall_mem_singleton.mpr hne⟩
  · rw [hnext, ← hopenSegment, ← hcreator]
  · rw [hsame]
    rfl

end

end Holds

end Wal

end Stratumind.WriteAhead
