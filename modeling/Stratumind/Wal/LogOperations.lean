import Stratumind.Wal.Log

/-!
# What the operations do to the log

Appending, truncating on both sides and opening the directory again, as operations on the
entries that the log holds.
-/

namespace Stratumind.WriteAhead

open List

variable {env : Environment}

namespace Wal

/-- The log contains the entries from an index on, whatever segments they are in. -/
def Contains (env : Environment) (wal : Wal) (start : ℕ) (entries : List (List UInt8)) : Prop :=
  ∃ lists opened, wal.Holds env start lists opened ∧ lists.flatten ++ opened = entries

namespace Contains

variable {wal : Wal} {start : ℕ} {entries : List (List UInt8)}
  (h : wal.Contains env start entries)

include h

theorem firstIndex : wal.firstIndex = start := by
  obtain ⟨lists, opened, hholds, -⟩ := h
  exact hholds.firstIndex

theorem numEntries : wal.numEntries = entries.length := by
  obtain ⟨lists, opened, hholds, rfl⟩ := h
  exact hholds.numEntries

theorem lastIndex : wal.lastIndex = start + (entries.length - 1) := by
  rw [Wal.lastIndex, h.firstIndex, h.numEntries]

theorem entry {index : ℕ} (hstart : start ≤ index) :
    wal.entry index = some entries[index - start]? := by
  obtain ⟨lists, opened, hholds, rfl⟩ := h
  exact hholds.reads.entry hstart

theorem setRetention (retainClosed : ℕ) :
    (wal.setRetention retainClosed).Contains env start entries := by
  obtain ⟨lists, opened, hholds, hentries⟩ := h
  have hretain := lt_of_lt_of_le Nat.zero_lt_one (le_max_right retainClosed 1)
  exact ⟨lists, opened, { hholds with retain := hretain }, hentries⟩

/-! ### Appending -/

/-- Room is made for an entry without changing what the log contains. -/
theorem makeRoom (entryLen : ℕ) :
    ∃ next lists opened seed rest, wal.makeRoom env entryLen = some (.ok next) ∧
      next.Holds env start lists opened ∧ lists.flatten ++ opened = entries ∧
      next.openSegment.segment.Holds env.crc32cAppend seed rest opened ∧
      entrySizeDisk entryLen ≤ rest.length := by
  obtain ⟨lists, opened, hholds, hentries⟩ := id h
  obtain ⟨seed, rest, hopened⟩ := hholds.opened
  unfold Wal.makeRoom
  by_cases hsufficient : wal.openSegment.segment.sufficientCapacity entryLen
  · rw [if_pos hsufficient]
    rw [hopened.sufficientCapacity, decide_eq_true_eq] at hsufficient
    exact ⟨wal, lists, opened, seed, rest, rfl, hholds, hentries, hopened, hsufficient⟩
  rw [if_neg hsufficient]
  -- an open segment with entries is retired first
  obtain ⟨retired, hretired, lists, opened, hholds, hentries⟩ : ∃ retired : Wal,
      (if wal.openSegment.segment.isEmpty then .ok wal else wal.retireOpenSegment env) =
        Except.ok retired ∧ retired.Contains env start entries := by
    by_cases hempty : wal.openSegment.segment.isEmpty
    · exact ⟨wal, if_pos hempty, h⟩
    rw [if_neg hempty]
    rw [hopened.isEmpty, List.isEmpty_iff] at hempty
    obtain ⟨next, hnext, hretired, -⟩ := hholds.retireOpenSegment hempty
    exact ⟨next, hnext, lists ++ [opened], [], hretired, by simpa using hentries⟩
  obtain ⟨seed, rest, hopened⟩ := hholds.opened
  obtain ⟨segment, segmentRest, hensure, hsegment, hfits⟩ := hopened.ensureCapacity entryLen
  refine ⟨_, lists, opened, _, _, ?_, hholds.set_open ⟨_, _, hsegment⟩, hentries, hsegment, hfits⟩
  rw [hretired]
  dsimp only
  rw [hensure]

/-- An entry gets the index after the last one. -/
theorem append {data : List UInt8} (hlength : data.length < 2 ^ 63) :
    ∃ next, wal.append env data = some (.ok (next, start + entries.length)) ∧
      next.Contains env start (entries ++ [data]) := by
  obtain ⟨room, lists, opened, seed, rest, hroom, hholds, rfl, hopened, hfits⟩ :=
    h.makeRoom data.length
  obtain ⟨segment, hnext, hsegment⟩ := hholds.reads.appendToOpen hlength hopened hfits
  refine ⟨_, ?_, lists, opened ++ [data], hholds.set_open hsegment, ?_⟩
  · unfold append
    rw [hroom]
    dsimp only
    rw [hnext]
    rfl
  · rw [append_assoc]

/-! ### Truncating -/

omit h in
private theorem take_append_of_length_le {α : Type} {front back : List α} {count : ℕ}
    (h : front.length ≤ count) :
    (front ++ back).take count = front ++ back.take (count - front.length) := by
  rw [take_append, take_of_length_le h]

/-- Entries from an index on are dropped. -/
theorem truncate {fromIndex : ℕ} (hfrom : start < fromIndex) :
    ∃ next, wal.truncate fromIndex = some next ∧
      next.Contains env start (entries.take (fromIndex - start)) := by
  obtain ⟨lists, opened, h, rfl⟩ := h
  have hopen := h.reads.openSegmentStartIndex
  obtain ⟨seed, rest, hopened⟩ := h.opened
  unfold truncate
  dsimp only
  by_cases hge : fromIndex ≥ wal.openSegmentStartIndex
  · rw [if_pos hge]
    obtain ⟨rest, htruncated⟩ := hopened.truncate (fromIndex - wal.openSegmentStartIndex)
    refine ⟨_, rfl, lists, opened.take (fromIndex - wal.openSegmentStartIndex),
      h.set_open ⟨_, _, htruncated⟩, ?_⟩
    have hcount : fromIndex - wal.openSegmentStartIndex =
        fromIndex - start - lists.flatten.length := by omega
    rw [take_append_of_length_le (by omega), hcount]
  rw [if_neg hge]
  obtain ⟨emptyRest, hempty⟩ := hopened.truncate 0
  have hcleared := h.set_open ⟨_, _, hempty⟩
  obtain ⟨position, closed, entries, hfound, hsegment, hlist, ⟨closedSeed, closedRest, hholds⟩,
    hclosedStart, hle, hlt⟩ := hcleared.reads.findClosedSegment (Nat.le_of_lt hfrom)
      (Nat.lt_of_not_le hge)
  obtain ⟨hbefore, -⟩ := h.closed.split position
  obtain ⟨hpositionLt, hget⟩ := List.getElem?_eq_some_iff.mp hlist
  have hkeptNonempty : ∀ entries ∈ lists.take position, entries ≠ [] :=
    fun entries hmem => h.nonempty entries (mem_of_mem_take hmem)
  -- what is kept are the segments before and the front of the segment that was found
  have hentries : (lists.take position).flatten ++ entries.take (fromIndex - closed.startIndex) =
      (lists.flatten ++ opened).take (fromIndex - start) := by
    have hsplit : lists = lists.take position ++ entries :: lists.drop (position + 1) := by
      rw [← hget, getElem_cons_drop, take_append_drop]
    have hcount : fromIndex - start - (lists.take position).flatten.length =
        fromIndex - closed.startIndex := by omega
    conv_rhs => rw [hsplit]
    rw [flatten_append, flatten_cons, append_assoc, append_assoc,
      take_append_of_length_le (by omega), hcount, take_append_of_le_length (by omega)]
  rw [hfound]
  dsimp only
  unfold truncateClosed
  rw [hsegment]
  dsimp only
  by_cases heq : fromIndex = closed.startIndex
  · rw [if_pos heq]
    rw [heq, Nat.sub_self, take_zero] at hentries
    refine ⟨_, rfl, lists.take position, [], ⟨⟨hbefore, fun hnil => ?_, hcleared.opened,
      hcleared.creator, h.retain⟩, hkeptNonempty⟩, heq ▸ hentries⟩
    rw [hnil, flatten_nil, length_nil] at hclosedStart
    omega
  rw [if_neg heq]
  obtain ⟨keptRest, hkept⟩ := hholds.truncate (fromIndex - closed.startIndex)
  have hkeptNe : entries.take (fromIndex - closed.startIndex) ≠ [] := by
    rw [Ne, take_eq_nil_iff, not_or]
    exact ⟨by omega, ne_nil_of_length_pos (by omega)⟩
  refine ⟨_, rfl, lists.take position ++ [entries.take (fromIndex - closed.startIndex)], [],
    ⟨⟨hbefore.append (.cons hclosedStart ⟨_, _, hkept.flush⟩ (.nil _)), by simp,
      hcleared.opened, hcleared.creator, h.retain⟩,
      forall_mem_append.mpr ⟨hkeptNonempty, forall_mem_singleton.mpr hkeptNe⟩⟩, ?_⟩
  rw [append_nil, flatten_append, flatten_singleton, hentries]

/-- Entries before an index may be dropped, but never all of them. -/
theorem prefixTruncate (untilIndex : ℕ) :
    ∃ next removed, wal.prefixTruncate untilIndex = some next ∧
      next.Contains env (start + removed) (entries.drop removed) ∧
      (removed ≠ 0 → removed < entries.length ∧ start + removed ≤ untilIndex) := by
  obtain ⟨lists, opened, h, rfl⟩ := h
  have hopen := h.reads.openSegmentStartIndex
  have hlength := h.closed.length_eq
  have hretain := h.retain
  -- fewer segments are dropped than there are
  have hdrop : ∀ count, (count ≠ 0 → count < lists.length) →
      start + (lists.take count).flatten.length ≤ untilIndex →
      ∃ next removed, some { wal with closedSegments := wal.closedSegments.drop count } =
          some next ∧ next.Contains env (start + removed) ((lists.flatten ++ opened).drop removed) ∧
        (removed ≠ 0 → removed < (lists.flatten ++ opened).length ∧
          start + removed ≤ untilIndex) := by
    intro count hcount huntil
    have hholds : ({ wal with closedSegments := wal.closedSegments.drop count } : Wal).Holds env
        (start + (lists.take count).flatten.length) (lists.drop count) opened := by
      refine ⟨⟨(h.closed.split count).2, fun hnil => ?_, h.opened, h.creator, h.retain⟩,
        fun entries hmem => h.nonempty entries (mem_of_mem_drop hmem)⟩
      have hle := drop_eq_nil_iff.mp hnil
      have hzero : count = 0 := by omega
      subst hzero
      exact h.start_eq (length_eq_zero_iff.mp (Nat.le_zero.mp hle))
    have hsplit : (lists.take count).flatten ++ (lists.drop count).flatten = lists.flatten := by
      rw [← flatten_append, take_append_drop]
    refine ⟨_, (lists.take count).flatten.length, rfl, ⟨_, _, hholds, ?_⟩, fun hne => ⟨?_, huntil⟩⟩
    · rw [← hsplit, append_assoc, drop_left]
    · have hkept := hholds.flatten_pos fun hnil => by
        have hle := drop_eq_nil_iff.mp hnil
        have hzero : count = 0 := by omega
        exact hne (by rw [hzero, take_zero]; rfl)
      rw [← hsplit, length_append, length_append]
      omega
  have hmono : ∀ {few many : ℕ}, few ≤ many →
      (lists.take few).flatten.length ≤ (lists.take many).flatten.length := fun hle =>
    (take_prefix_take_left hle).flatten.length_le
  unfold prefixTruncate
  by_cases hfirst : untilIndex ≤ wal.firstIndex
  · rw [if_pos hfirst]
    exact ⟨wal, 0, rfl, ⟨lists, opened, h, rfl⟩, fun hne => absurd rfl hne⟩
  rw [if_neg hfirst]
  rw [h.firstIndex] at hfirst
  by_cases hge : untilIndex ≥ wal.openSegmentStartIndex
  · rw [if_pos hge]
    refine hdrop _ (by omega) ?_
    have hle := hmono (Nat.sub_le wal.closedSegments.length wal.retainClosed)
    rw [hlength, take_length] at hle
    rw [hlength]
    omega
  rw [if_neg hge]
  obtain ⟨position, closed, entries, hfound, -, hlist, -, hclosedStart, hle, -⟩ :=
    h.reads.findClosedSegment (Nat.le_of_not_le hfirst) (Nat.lt_of_not_le hge)
  rw [hfound]
  have hleFlatten := hmono (Nat.min_le_left position (wal.closedSegments.length - wal.retainClosed))
  exact hdrop _ (by omega) (by omega)

end Contains

end Wal

/-! ### Opening the directory again -/

/-- The bytes after the entries do not look like another entry. -/
def Segment.NoCollision (env : Environment) (segment : Segment) : Prop :=
  parseEntry env.crc32cAppend segment.mmap.bytes segment.size segment.crc = none

/-- No segment of the log has bytes after its entries that look like another entry. -/
def Wal.NoCollision (env : Environment) (wal : Wal) : Prop :=
  (∀ closed ∈ wal.closedSegments, closed.segment.NoCollision env) ∧
    ∀ opened ∈ wal.openSegment :: wal.creator.pendingSegments, opened.segment.NoCollision env

/-- A segment whose file is opened again. -/
def Segment.reopened (segment : Segment) : Segment :=
  { mmap := .ofFile segment.mmap.bytes
    index := segment.index
    crc := segment.crc
    flushOffset := segment.size }

theorem Segment.HoldsEntries.reopen {segment : Segment} {entries : List (List UInt8)}
    (h : segment.HoldsEntries env entries) (hcollision : segment.NoCollision env) :
    Segment.openFile env.crc32cAppend segment.mmap.bytes = .ok (segment.reopened) ∧
      (segment.reopened).HoldsEntries env entries := by
  obtain ⟨seed, rest, hholds⟩ := h
  have hend : parseEntry env.crc32cAppend segment.mmap.bytes (headerLen + encodedSize entries)
      (crcAfter env.crc32cAppend seed entries) = none := by
    rw [← hholds.size, ← hholds.crc]
    exact hcollision
  obtain ⟨opened, hopened, hmmap, hflush, hopenedHolds⟩ :=
    Segment.openFile_holds hholds.bytes hholds.aligned hholds.lengths hend
  have heq : opened = segment.reopened := by
    obtain ⟨mmap, index, crc, flushOffset⟩ := opened
    have hindex : index = segment.index := hopenedHolds.index.trans hholds.index.symm
    have hcrc : crc = segment.crc := hopenedHolds.crc.trans hholds.crc.symm
    have hsize := hopenedHolds.size.trans hholds.size.symm
    have hoffset : flushOffset = segment.size := hflush.trans hsize
    dsimp only at hmmap
    rw [hmmap, hindex, hcrc, hoffset, Segment.reopened]
  rw [heq] at hopened
  exact ⟨hopened, seed, rest, hholds.of_same_bytes rfl rfl rfl⟩

section reopen

private def openedOf (env : Environment) (file : FileName × List UInt8) : Option OpenSegment :=
  match file.1 with
  | .openSegment id =>
    (Segment.openFile env.crc32cAppend file.2).toOption.map fun segment => { id, segment }
  | _ => none

private def closedOf (env : Environment) (file : FileName × List UInt8) : Option ClosedSegment :=
  match file.1 with
  | .closedSegment startIndex =>
    (Segment.openFile env.crc32cAppend file.2).toOption.map fun segment => { startIndex, segment }
  | _ => none

/-- The file is no segment, or a segment that can be opened. -/
private def Readable (env : Environment) (file : FileName × List UInt8) : Prop :=
  match file.1 with
  | .openSegment _ => ∃ segment, Segment.openFile env.crc32cAppend file.2 = .ok segment
  | .closedSegment _ => ∃ segment, Segment.openFile env.crc32cAppend file.2 = .ok segment
  | _ => True

private theorem openDirEntries_eq {dir : List (FileName × List UInt8)}
    (h : ∀ file ∈ dir, Readable env file) :
    openDirEntries env dir = .ok (dir.filterMap (openedOf env), dir.filterMap (closedOf env)) := by
  induction dir with
  | nil => rfl
  | cons file dir ih =>
    obtain ⟨hfile, hdir⟩ := forall_mem_cons.mp h
    obtain ⟨name, bytes⟩ := file
    cases name with
    | openSegment id =>
      obtain ⟨segment, hsegment⟩ := hfile
      have hopened : openedOf env (.openSegment id, bytes) = some { id, segment } := by
        rw [openedOf, hsegment]
        rfl
      rw [openDirEntries, hsegment, ih hdir, filterMap_cons_some hopened, filterMap_cons_none rfl]
      rfl
    | closedSegment startIndex =>
      obtain ⟨segment, hsegment⟩ := hfile
      have hclosed : closedOf env (.closedSegment startIndex, bytes) =
          some { startIndex, segment } := by
        rw [closedOf, hsegment]
        rfl
      rw [openDirEntries, hsegment, ih hdir, filterMap_cons_some hclosed, filterMap_cons_none rfl]
      rfl
    | temporary =>
      rw [openDirEntries, ih hdir, filterMap_cons_none rfl, filterMap_cons_none rfl]
    | other =>
      rw [openDirEntries, ih hdir, filterMap_cons_none rfl, filterMap_cons_none rfl]

private theorem insertionSort_eq {α : Type} (key : α → ℕ) {list sorted : List α}
    (hperm : list.Perm sorted) (hsorted : sorted.Pairwise fun a b => key a < key b) :
    list.insertionSort (fun a b => key a ≤ key b) = sorted := by
  refine Perm.eq_of_pairwise (fun a b ha hb hab hba => ?_)
    (pairwise_insertionSort _ list) (hsorted.imp Nat.le_of_lt)
    ((perm_insertionSort _ list).trans hperm)
  -- two entries with the same key are the same entry
  have ha : a ∈ sorted := hperm.mem_iff.mp ((perm_insertionSort _ list).mem_iff.mp ha)
  have hnodup : (sorted.map key).Nodup :=
    (pairwise_map.mpr hsorted).imp fun hlt => Nat.ne_of_lt hlt
  exact inj_on_of_nodup_map hnodup ha hb (Nat.le_antisymm hab hba)

variable {start : ℕ} {lists : List (List (List UInt8))}

section

variable {segments : List ClosedSegment} (h : ClosedHold env start segments lists)

include h

private theorem ClosedHold.reopen
    (hcollision : ∀ closed ∈ segments, closed.segment.NoCollision env) :
    ClosedHold env start (segments.map fun closed =>
        { closed with segment := closed.segment.reopened }) lists ∧
      ∀ closed ∈ segments, Segment.openFile env.crc32cAppend closed.segment.mmap.bytes =
        .ok closed.segment.reopened := by
  induction h with
  | nil start => exact ⟨.nil start, nofun⟩
  | cons hstart hholds _ ih =>
    obtain ⟨hfirst, hrest⟩ := forall_mem_cons.mp hcollision
    obtain ⟨hopen, hreopened⟩ := hholds.reopen hfirst
    obtain ⟨hclosed, hall⟩ := ih hrest
    exact ⟨.cons hstart hreopened hclosed, forall_mem_cons.mpr ⟨hopen, hall⟩⟩

private theorem ClosedHold.le_startIndex : ∀ closed ∈ segments, start ≤ closed.startIndex := by
  induction h with
  | nil => exact nofun
  | cons hstart _ _ ih =>
    grind

/-- Segments with entries start one after the other. -/
theorem ClosedHold.pairwise_startIndex (hne : ∀ entries ∈ lists, entries ≠ []) :
    segments.Pairwise fun a b => a.startIndex < b.startIndex := by
  induction h with
  | nil => exact .nil
  | @cons start closed segments entries lists hstart _ hrest ih =>
    obtain ⟨hfirst, hne⟩ := forall_mem_cons.mp hne
    refine pairwise_cons.mpr ⟨fun other hother => ?_, ih hne⟩
    have hle := hrest.le_startIndex other hother
    have hpos := length_pos_iff.mpr hfirst
    omega

private theorem ClosedHold.validateClosed :
    validateClosed start segments = some (.ok (start + lists.flatten.length)) := by
  induction h with
  | nil => rfl
  | @cons start closed segments entries lists hstart hholds _ ih =>
    rw [WriteAhead.validateClosed, if_neg (by omega), if_pos hstart, hstart, hholds.len, ih,
      flatten_cons, length_append, Nat.add_assoc]

end

private theorem foldl_step_pending {selection : OpenSelection} {opened : OpenSegment}
    (hopen : selection.openSegment = some opened) {pending : List OpenSegment}
    (h : ∀ segment ∈ pending, segment.segment.isEmpty = true) :
    pending.foldl OpenSelection.step selection =
      { selection with unusedSegments := selection.unusedSegments ++ pending } := by
  induction pending generalizing selection with
  | nil => rw [foldl_nil, append_nil]
  | cons segment pending ih =>
    obtain ⟨hfirst, hrest⟩ := forall_mem_cons.mp h
    have hstep : selection.step segment =
        { selection with unusedSegments := selection.unusedSegments ++ [segment] } := by
      unfold OpenSelection.step
      rw [hfirst, hopen]
      rfl
    grind

private theorem lt_getLast_succ {lastId : ℕ} {ids : List ℕ} (h : (lastId :: ids).Pairwise (· < ·))
    (hne : ids ≠ []) : ∀ id ∈ lastId :: ids, id < ids.getLast hne + 1 := by
  have hsplit := dropLast_append_getLast hne
  intro id hid
  rw [← hsplit, ← cons_append, pairwise_append] at h
  rw [← hsplit, ← cons_append, mem_append] at hid
  rcases hid with hid | hid
  · exact Nat.lt_succ_of_lt (h.2.2 id hid _ (mem_singleton_self _))
  · rw [mem_singleton.mp hid]
    exact Nat.lt_succ_self _

/-- The sorted segments of a log are put together again. -/
theorem Wal.ofSegments_stores {opened : List (List UInt8)} {segments : List ClosedSegment}
    {first : OpenSegment} {pending : List OpenSegment}
    (hclosed : ClosedHold env start segments lists) (hstart : lists = [] → start = 0)
    (hopened : first.segment.HoldsEntries env opened)
    (hpending : ∀ segment ∈ pending, segment.segment.HoldsEntries env []) (hne : pending ≠ [])
    (hids : (first.id :: pending.map OpenSegment.id).Pairwise (· < ·)) {options : WalOptions}
    (hcapacity : headerLen ≤ options.segmentCapacity) :
    ∃ next, ofSegments env options (first :: pending) segments = some (.ok next) ∧
      next.Stores env start lists opened := by
  -- the first segment is the open one, all others are unused
  have hselection : (first :: pending).foldl OpenSelection.step
      { openSegment := none, unusedSegments := [], closedSegments := segments
        nextStartIndex := start + lists.flatten.length } =
      { openSegment := some first, unusedSegments := pending, closedSegments := segments
        nextStartIndex := start + lists.flatten.length } := by
    have hfirst : OpenSelection.step
        { openSegment := none, unusedSegments := [], closedSegments := segments
          nextStartIndex := start + lists.flatten.length } first =
        { openSegment := some first, unusedSegments := [], closedSegments := segments
          nextStartIndex := start + lists.flatten.length } := by
      unfold OpenSelection.step
      rw [ite_self]
    rw [foldl_cons, hfirst, foldl_step_pending rfl fun segment hsegment =>
      (hpending segment hsegment).isEmpty]
    rfl
  have hidsNe : pending.map OpenSegment.id ≠ [] := by simpa using hne
  have hcurrentId : (pending.getLast?.or (some first)).elim 1 (fun segment => segment.id + 1) =
      (pending.map OpenSegment.id).getLast hidsNe + 1 := by
    rw [getLast?_eq_some_getLast hne, Option.some_or, Option.elim_some, getLast_map]
  obtain ⟨creator, hcreator, hready, -⟩ := @SegmentCreator.scheduleCreation_ready env
    { pendingSegments := pending
      segmentCapacity := options.segmentCapacity
      segmentQueueLen := max options.segmentQueueLen 1
      currentId := (pending.getLast?.or (some first)).elim 1 fun segment => segment.id + 1 }
    first.id hpending hids (by rw [hcurrentId]; exact lt_getLast_succ hids hidsNe) hcapacity
    (by dsimp only; omega)
  refine ⟨{ openSegment := first, closedSegments := segments, creator,
            retainClosed := options.retainClosed, flush := none }, ?_,
    ⟨hclosed, hstart, hopened, hready, options.retainClosed_pos⟩⟩
  unfold ofSegments
  rw [hclosed.head hstart, hclosed.validateClosed]
  dsimp only
  rw [hselection]
  unfold SegmentCreator.new
  rw [hcreator]
  rfl

/-- Opening a directory whose files are these segments, in whatever order they are listed. -/
theorem Wal.withOptions_of_files {closed : List (ClosedSegment × List UInt8)}
    {opened : List (OpenSegment × List UInt8)} {dir others : List (FileName × List UInt8)}
    (hdir : dir.Perm (closed.map (fun (closed, file) => (.closedSegment closed.startIndex, file)) ++
      opened.map (fun (opened, file) => (.openSegment opened.id, file)) ++ others))
    (hothers : ∀ file ∈ others, file.1 = .temporary ∨ file.1 = .other)
    (hclosed : ∀ file ∈ closed, Segment.openFile env.crc32cAppend file.2 = .ok file.1.segment)
    (hopened : ∀ file ∈ opened, Segment.openFile env.crc32cAppend file.2 = .ok file.1.segment)
    (hstarts : (closed.map Prod.fst).Pairwise fun a b => a.startIndex < b.startIndex)
    (hids : (opened.map Prod.fst).Pairwise fun a b => a.id < b.id) (options : WalOptions) :
    withOptions env dir options =
      ofSegments env options (opened.map Prod.fst) (closed.map Prod.fst) := by
  -- every segment file of the directory can be opened
  have hreadable : ∀ file ∈ dir, Readable env file := by
    intro file hfile
    rcases mem_append.mp (hdir.mem_iff.mp hfile) with hfile | hfile
    · rcases mem_append.mp hfile with hfile | hfile
      · obtain ⟨segment, hmem, rfl⟩ := mem_map.mp hfile
        exact ⟨_, hclosed segment hmem⟩
      · obtain ⟨segment, hmem, rfl⟩ := mem_map.mp hfile
        exact ⟨_, hopened segment hmem⟩
    obtain ⟨name, bytes⟩ := file
    rcases hothers _ hfile with hname | hname
    · subst hname
      trivial
    · subst hname
      trivial
  have hnone : others.filterMap (openedOf env) = [] ∧ others.filterMap (closedOf env) = [] := by
    rw [filterMap_eq_nil_iff, filterMap_eq_nil_iff]
    refine ⟨fun file hfile => ?_, fun file hfile => ?_⟩
    · unfold openedOf
      rcases hothers file hfile with hname | hname <;> rw [hname]
    · unfold closedOf
      rcases hothers file hfile with hname | hname <;> rw [hname]
  have hopenedFiles : (dir.filterMap (openedOf env)).Perm (opened.map Prod.fst) := by
    have hclosedNone : (closed.map fun (closed, file) =>
        (FileName.closedSegment closed.startIndex, file)).filterMap (openedOf env) = [] := by
      rw [filterMap_map]
      exact filterMap_eq_nil_iff.mpr fun _ _ => rfl
    refine (hdir.filterMap (openedOf env)).trans (Perm.of_eq ?_)
    rw [filterMap_append, hnone.1, append_nil, filterMap_append, hclosedNone,
      nil_append, filterMap_map, ← filterMap_eq_map]
    refine filterMap_congr fun file hfile => ?_
    change (Segment.openFile env.crc32cAppend file.2).toOption.map _ = _
    rw [hopened file hfile]
    rfl
  have hclosedFiles : (dir.filterMap (closedOf env)).Perm (closed.map Prod.fst) := by
    have hopenNone : (opened.map fun (opened, file) =>
        (FileName.openSegment opened.id, file)).filterMap (closedOf env) = [] := by
      rw [filterMap_map]
      exact filterMap_eq_nil_iff.mpr fun _ _ => rfl
    refine (hdir.filterMap (closedOf env)).trans (Perm.of_eq ?_)
    rw [filterMap_append, hnone.2, append_nil, filterMap_append, hopenNone,
      append_nil, filterMap_map, ← filterMap_eq_map]
    refine filterMap_congr fun file hfile => ?_
    change (Segment.openFile env.crc32cAppend file.2).toOption.map _ = _
    rw [hclosed file hfile]
    rfl
  unfold withOptions
  rw [openDirEntries_eq hreadable]
  dsimp only
  rw [insertionSort_eq OpenSegment.id hopenedFiles hids,
    insertionSort_eq ClosedSegment.startIndex hclosedFiles hstarts]

/-- The directory of a log, opened again, gives a log with the same entries. -/
theorem Wal.Contains.reopen {wal : Wal} {entries : List (List UInt8)}
    (h : wal.Contains env start entries) (hcollision : wal.NoCollision env)
    {dir others : List (FileName × List UInt8)} (hdir : dir.Perm (wal.files ++ others))
    (hothers : ∀ file ∈ others, file.1 = .temporary ∨ file.1 = .other) {options : WalOptions}
    (hcapacity : headerLen ≤ options.segmentCapacity) :
    ∃ next, withOptions env dir options = some (.ok next) ∧
      next.Contains env start entries := by
  obtain ⟨lists, opened, h, hentries⟩ := h
  obtain ⟨hclosed, hopenClosed⟩ := h.closed.reopen hcollision.1
  have hopened := h.opened.reopen (hcollision.2 _ mem_cons_self)
  have hpending := fun segment (hsegment : segment ∈ wal.creator.pendingSegments) =>
    (h.creator.pending segment hsegment).reopen (hcollision.2 _ (mem_cons_of_mem _ hsegment))
  have hpendingIds : (wal.openSegment.id :: (wal.creator.pendingSegments.map fun segment =>
      ({ segment with segment := segment.segment.reopened } : OpenSegment)).map
        OpenSegment.id).Pairwise (· < ·) := by
    rw [map_map]
    exact h.creator.ids
  obtain ⟨next, hnext, hstores⟩ := @ofSegments_stores env start lists opened _
    { wal.openSegment with segment := wal.openSegment.segment.reopened } _ hclosed
    h.start_eq hopened.2 (forall_mem_map.mpr fun segment hsegment => (hpending segment hsegment).2)
    (by simpa using h.creator.ne_nil) hpendingIds options hcapacity
  refine ⟨next, ?_, lists, opened, ⟨hstores, h.nonempty⟩, hentries⟩
  have hfiles := @withOptions_of_files env
    (wal.closedSegments.map fun closed =>
      ({ closed with segment := closed.segment.reopened }, closed.segment.mmap.bytes))
    ((wal.openSegment :: wal.creator.pendingSegments).map fun segment =>
      ({ segment with segment := segment.segment.reopened }, segment.segment.mmap.bytes))
    dir others (by rw [map_map, map_map]; exact hdir) hothers
    (forall_mem_map.mpr hopenClosed)
    (forall_mem_map.mpr (forall_mem_cons.mpr
      ⟨hopened.1, fun segment hsegment => (hpending segment hsegment).1⟩))
    (by rw [map_map]; exact hclosed.pairwise_startIndex h.nonempty)
    (by
      rw [map_map, pairwise_map]
      have hpairwise := h.creator.ids
      rwa [← map_cons, pairwise_map] at hpairwise) options
  rw [hfiles, map_map, map_map]
  exact hnext

/-- A directory without segments gives an empty log, if segments can be created at all. -/
theorem Wal.withOptions_new {dir : List (FileName × List UInt8)}
    (hdir : ∀ file ∈ dir, file.1 = .temporary ∨ file.1 = .other) {options : WalOptions} {wal : Wal}
    (h : withOptions env dir options = some (.ok wal)) :
    wal.Holds env 0 [] [] ∧ headerLen ≤ options.segmentCapacity ∧ wal.flush = none ∧
      ∃ creator, SegmentCreator.new env none [] options.segmentCapacity options.segmentQueueLen =
          .ok creator ∧
        creator.next env = .ok (wal.openSegment, wal.creator) := by
  have hentries : openDirEntries env dir = .ok ([], []) := by
    clear h
    induction dir with
    | nil => rfl
    | cons file dir ih =>
      obtain ⟨hfile, hrest⟩ := forall_mem_cons.mp hdir
      obtain ⟨name, bytes⟩ := file
      rcases hfile with rfl | rfl
      · exact ih hrest
      · exact ih hrest
  unfold withOptions at h
  rw [hentries] at h
  dsimp only [insertionSort, foldr] at h
  unfold ofSegments at h
  dsimp only [head?, Option.elim, validateClosed, foldl] at h
  unfold SegmentCreator.new at h ⊢
  by_cases hcapacity : headerLen ≤ options.segmentCapacity
  · obtain ⟨creator, hcreator, hready, -⟩ := @SegmentCreator.scheduleCreation_ready env
      { pendingSegments := []
        segmentCapacity := options.segmentCapacity
        segmentQueueLen := max options.segmentQueueLen 1
        currentId := 1 } 0 nofun (by simp) (by simp) hcapacity
      (by dsimp only; omega)
    obtain ⟨segment, rest, hnext, hrestReady, hempty⟩ := hready.next
    dsimp only [getLast?, Option.or, Option.elim] at h
    rw [hcreator] at h
    dsimp only [bind, Except.bind] at h
    rw [hnext] at h
    cases h
    refine ⟨⟨⟨.nil 0, fun _ => rfl, hempty, hrestReady, options.retainClosed_pos⟩,
      nofun⟩, hcapacity, rfl, creator, hcreator, hnext⟩
  -- the first segment cannot be created
  exfalso
  have hcreate : ∀ seed, ∃ error, Segment.create options.segmentCapacity seed =
      .error error := by
    intro seed
    unfold headerLen at hcapacity
    unfold Segment.create
    rw [if_pos (by unfold headerLen; omega)]
    exact ⟨_, rfl⟩
  obtain ⟨count, hcount⟩ : ∃ count, max options.segmentQueueLen 1 = count + 1 :=
    ⟨max options.segmentQueueLen 1 - 1, by omega⟩
  obtain ⟨error, herror⟩ := hcreate (env.seed (1 + 0))
  unfold SegmentCreator.scheduleCreation SegmentCreator.createSegments at h
  dsimp only [getLast?, Option.or, Option.elim, length_nil] at h
  rw [hcount, Nat.sub_zero, range_succ_eq_map, mapM_cons, herror] at h
  cases h

end reopen

end Stratumind.WriteAhead
