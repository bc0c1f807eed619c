import Stratumind.Wal.LogOperations

/-!
# The write-ahead log of a shard

`SerdeWal` stores records in a `Wal` and keeps, in a file beside the segments, the index up to
which records are acknowledged. Seen from outside it is a log of records under consecutive
indexes with a pointer that only moves forward.
-/

namespace Stratumind.WriteAhead

/-- `WalError`. -/
inductive WalError where
  | initWalError (message : String)
  | writeWalError (message : String)
  | readWalError (message : String)
  | truncateWalError (message : String)
  deriving DecidableEq

/-- The bytes of a serialized record. -/
structure WalRawRecord where
  record : List UInt8
  length_lt : record.length < 2 ^ 63

/-- The formats that records are stored in. -/
structure Codec (R : Type) where
  toCbor : R → WalRawRecord
  fromCbor : List UInt8 → Except String R
  fromRmp : List UInt8 → Except String R

/-- `WalRawRecord::deserialize_from`. -/
def Codec.deserializeFrom {R : Type} (codec : Codec R) (record : List UInt8) : Except WalError R :=
  match codec.fromCbor record with
  | .ok value => .ok value
  | .error cborError =>
    match codec.fromRmp record with
    | .ok value => .ok value
    | .error _ =>
      .error (.readWalError ("Can't deserialize entry, probably corrupted WAL or version mismatch: "
        ++ cborError))

/-- `INCREASED_RETENTION_FACTOR`. -/
def increasedRetentionFactor : ℕ := 10

/-- `SerdeWal`, with the content of its `first-index` file. -/
structure SerdeWal where
  wal : Wal
  options : WalOptions
  firstIndexField : Option ℕ
  firstIndexFile : Option ℕ

namespace SerdeWal

variable {R : Type}

/-- `SerdeWal::new`. -/
def new (env : Environment) (dir : List (FileName × List UInt8)) (firstIndexFile : Option ℕ)
    (options : WalOptions) : Option (Except WalError SerdeWal) :=
  match Wal.withOptions env dir options with
  | none => none
  | some (.error error) => some (.error (.initWalError error.message))
  | some (.ok wal) =>
    let firstIndexField := firstIndexFile.map fun ackIndex =>
      min (max ackIndex wal.firstIndex) wal.lastIndex
    some (.ok { wal, options, firstIndexField, firstIndexFile })

/-- `SerdeWal::write`. -/
def write (env : Environment) (serdeWal : SerdeWal) (record : WalRawRecord) :
    Option (Except WalError (SerdeWal × ℕ)) :=
  match serdeWal.wal.append env record.record with
  | none => none
  | some (.error error) => some (.error (.writeWalError error.message))
  | some (.ok (wal, index)) => some (.ok ({ serdeWal with wal }, index))

variable (serdeWal : SerdeWal)

/-- `SerdeWal::first_closed_index`. -/
def firstClosedIndex : ℕ := serdeWal.wal.firstIndex

/-- `SerdeWal::first_index`. -/
def firstIndex : ℕ :=
  serdeWal.firstIndexField.getD serdeWal.firstClosedIndex

/-- `SerdeWal::last_index`. -/
def lastIndex : ℕ := serdeWal.wal.lastIndex

/-- `SerdeWal::truncated_prefix_entries_num`. -/
def truncatedPrefixEntriesNum : ℕ :=
  serdeWal.firstIndex - serdeWal.wal.firstIndex

/-- `SerdeWal::len`. -/
def len (withAcknowledged : Bool) : ℕ :=
  if withAcknowledged then serdeWal.wal.numEntries
  else serdeWal.wal.numEntries - serdeWal.truncatedPrefixEntriesNum

/-- One item of `SerdeWal::read_range_with_size`. -/
def readItem (codec : Codec R) (serdeWal : SerdeWal) (index : ℕ) :
    Option (Except WalError (ℕ × R)) :=
  match serdeWal.wal.entry index with
  | none => none
  | some none =>
    some (.error (.readWalError ("Can't read entry " ++ toString index ++ " from WAL")))
  | some (some record) => some ((codec.deserializeFrom record).map fun value => (index, value))

/-- `SerdeWal::read`. -/
def read (codec : Codec R) (serdeWal : SerdeWal) (start : ℕ) :
    List (Option (Except WalError (ℕ × R))) :=
  let stop := serdeWal.firstIndex + serdeWal.len false
  (List.range' start (stop - start)).map (serdeWal.readItem codec)

/-- `SerdeWal::read_all`. -/
def readAll (codec : Codec R) (serdeWal : SerdeWal) (withAcknowledged : Bool) :
    List (Option (Except WalError (ℕ × R))) :=
  if withAcknowledged then serdeWal.read codec serdeWal.firstClosedIndex
  else serdeWal.read codec serdeWal.firstIndex

/-- `SerdeWal::ack`. -/
def ack (untilIndex : ℕ) : Option (Except WalError SerdeWal) :=
  match serdeWal.wal.prefixTruncate untilIndex with
  | none => none
  | some wal =>
    let minimalFirstIndex := serdeWal.firstIndexField.getD wal.firstIndex
    let newFirstIndex := some (min (max untilIndex minimalFirstIndex) wal.lastIndex)
    if serdeWal.firstIndexField ≠ newFirstIndex then
      some (.ok { serdeWal with
          wal
          firstIndexField := newFirstIndex
          firstIndexFile := newFirstIndex })
    else some (.ok { serdeWal with wal })

/-- `SerdeWal::drop_from`. -/
def dropFrom (fromIndex : ℕ) : Option (Except WalError SerdeWal) :=
  match serdeWal.wal.truncate fromIndex with
  | none => none
  | some wal => some (.ok { serdeWal with wal })

/-- `SerdeWal::set_extended_retention`. -/
def setExtendedRetention : SerdeWal :=
  { serdeWal with
    wal := serdeWal.wal.setRetention
      (serdeWal.options.retainClosed * increasedRetentionFactor) }

/-- `SerdeWal::set_normal_retention`. -/
def setNormalRetention : SerdeWal :=
  { serdeWal with wal := serdeWal.wal.setRetention serdeWal.options.retainClosed }

/-! ### Runs -/

/-- No file of the directory is a segment. -/
def NoSegments (dir : List (FileName × List UInt8)) : Prop :=
  ∀ file ∈ dir, file.1 = .temporary ∨ file.1 = .other

/-- The states that operations on a new log lead to, with the records that were written and not
dropped, and the indexes that were acknowledged. -/
inductive Reaches (env : Environment) (codec : Codec R) :
    SerdeWal → List R → List ℕ → Prop where
  | new {dir : List (FileName × List UInt8)} {options : WalOptions} {serdeWal : SerdeWal}
      (hdir : NoSegments dir)
      (hnew : new env dir none options = some (.ok serdeWal)) :
      Reaches env codec serdeWal [] []
  | write {serdeWal next : SerdeWal} {log : List R} {acks : List ℕ} {record : R} {index : ℕ}
      (h : Reaches env codec serdeWal log acks)
      (hwrite : serdeWal.write env (codec.toCbor record) = some (.ok (next, index))) :
      Reaches env codec next (log ++ [record]) acks
  | ack {serdeWal next : SerdeWal} {log : List R} {acks : List ℕ} {untilIndex : ℕ}
      (h : Reaches env codec serdeWal log acks)
      (hack : serdeWal.ack untilIndex = some (.ok next)) :
      Reaches env codec next log (acks ++ [min untilIndex serdeWal.lastIndex])
  | dropFrom {serdeWal next : SerdeWal} {log : List R} {acks : List ℕ} {fromIndex : ℕ}
      (h : Reaches env codec serdeWal log acks) (hfrom : serdeWal.firstIndex < fromIndex)
      (hdrop : serdeWal.dropFrom fromIndex = some (.ok next)) :
      Reaches env codec next (log.take fromIndex) acks
  | setExtendedRetention {serdeWal : SerdeWal} {log : List R} {acks : List ℕ}
      (h : Reaches env codec serdeWal log acks) :
      Reaches env codec serdeWal.setExtendedRetention log acks
  | setNormalRetention {serdeWal : SerdeWal} {log : List R} {acks : List ℕ}
      (h : Reaches env codec serdeWal log acks) :
      Reaches env codec serdeWal.setNormalRetention log acks
  | reopen {serdeWal next : SerdeWal} {log : List R} {acks : List ℕ}
      {dir others : List (FileName × List UInt8)}
      (h : Reaches env codec serdeWal log acks) (hcollision : serdeWal.wal.NoCollision env)
      (hdir : dir.Perm (serdeWal.wal.files ++ others)) (hothers : NoSegments others)
      (hnew : new env dir serdeWal.firstIndexFile serdeWal.options = some (.ok next)) :
      Reaches env codec next log acks

/-! ### The invariant -/

/-- The log holds the records from some index on, and the pointer is the largest index that was
acknowledged. -/
structure Represents (env : Environment) (codec : Codec R) (serdeWal : SerdeWal) (log : List R)
    (acks : List ℕ) (start : ℕ) : Prop where
  contains : serdeWal.wal.Contains env start ((log.drop start).map fun r => (codec.toCbor r).record)
  start_le : start ≤ log.length
  pointer : serdeWal.firstIndexField = if acks = [] then none else some (acks.foldl max 0)
  start_le_pointer : start ≤ acks.foldl max 0
  pointer_le : acks.foldl max 0 ≤ start + (log.length - start - 1)
  file : serdeWal.firstIndexFile = serdeWal.firstIndexField
  capacity : headerLen ≤ serdeWal.options.segmentCapacity

private theorem foldl_max_append (acks : List ℕ) (ack : ℕ) :
    (acks ++ [ack]).foldl max 0 = max (acks.foldl max 0) ack := by
  rw [List.foldl_append, List.foldl_cons, List.foldl_nil]

namespace Represents

variable {env : Environment} {codec : Codec R} {serdeWal : SerdeWal} {log : List R}
  {acks : List ℕ} {start : ℕ} (h : serdeWal.Represents env codec log acks start)

include h

/-- The pointer is the largest index that was acknowledged. -/
theorem firstIndex : serdeWal.firstIndex = acks.foldl max 0 := by
  have hstart := h.start_le_pointer
  rw [SerdeWal.firstIndex, h.pointer]
  split
  · rename_i hacks
    subst hacks
    rw [Option.getD_none, firstClosedIndex, h.contains.firstIndex]
    exact Nat.le_zero.mp hstart
  · rw [Option.getD_some]

theorem lastIndex : serdeWal.lastIndex = start + (log.length - start - 1) := by
  rw [SerdeWal.lastIndex, h.contains.lastIndex, List.length_map, List.length_drop]

/-- A record gets the index after the last one. -/
theorem write (record : R) :
    ∃ next, serdeWal.write env (codec.toCbor record) = some (.ok (next, log.length)) ∧
      next.Represents env codec (log ++ [record]) acks start := by
  obtain ⟨wal, happend, hcontains⟩ := h.contains.append (codec.toCbor record).length_lt
  have hstart := h.start_le
  rw [List.length_map, List.length_drop, Nat.add_sub_cancel' hstart] at happend
  refine ⟨{ serdeWal with wal }, ?_,
    ⟨?_, ?_, h.pointer, h.start_le_pointer, ?_, h.file, h.capacity⟩⟩
  · unfold SerdeWal.write
    rw [happend]
  · rw [List.drop_append_of_le_length hstart, List.map_append]
    exact hcontains
  · rw [List.length_append]
    omega
  · have hle := h.pointer_le
    rw [List.length_append, List.length_singleton]
    omega

/-- An acknowledgement moves the pointer forward and removes no record behind it. -/
theorem ack (untilIndex : ℕ) :
    ∃ next nextStart, serdeWal.ack untilIndex = some (.ok next) ∧
      next.Represents env codec log (acks ++ [min untilIndex serdeWal.lastIndex]) nextStart ∧
      ∀ index, nextStart ≤ index → next.wal.entry index = serdeWal.wal.entry index := by
  obtain ⟨wal, removed, htruncate, hcontains, hremoved⟩ := h.contains.prefixTruncate untilIndex
  rw [← List.map_drop, List.drop_drop] at hcontains
  rw [List.length_map, List.length_drop] at hremoved
  have hstart := h.start_le
  have hpointer := h.pointer_le
  have hstartPointer := h.start_le_pointer
  have hlast := h.lastIndex
  have hlastSame : wal.lastIndex = serdeWal.lastIndex := by
    rw [hcontains.lastIndex, hlast, List.length_map, List.length_drop]
    omega
  have hminimal : serdeWal.firstIndexField.getD wal.firstIndex =
      if acks = [] then start + removed else acks.foldl max 0 := by
    rw [h.pointer, hcontains.firstIndex]
    split <;> rfl
  obtain ⟨next, hnext, hnextWal, hnextField, hnextFile, hnextOptions⟩ : ∃ next,
      serdeWal.ack untilIndex = some (.ok next) ∧ next.wal = wal ∧
      next.firstIndexField =
        some ((acks ++ [min untilIndex serdeWal.lastIndex]).foldl max 0) ∧
      next.firstIndexFile = next.firstIndexField ∧ next.options = serdeWal.options := by
    unfold SerdeWal.ack
    have hfile := h.file
    split <;> grind
  refine ⟨next, start + removed, hnext,
    ⟨hnextWal ▸ hcontains, ?_, ?_, ?_, ?_, hnextFile, hnextOptions ▸ h.capacity⟩, ?_⟩
  · omega
  · rw [hnextField, if_neg (by simp)]
  · rw [foldl_max_append, hlast]
    omega
  · rw [foldl_max_append, hlast]
    omega
  intro index hindex
  have hoffset : start + removed + (index - (start + removed)) = start + (index - start) := by omega
  rw [hnextWal, hcontains.entry hindex, h.contains.entry (by omega), List.getElem?_map,
    List.getElem?_map, List.getElem?_drop, List.getElem?_drop, hoffset]

/-- Dropping records moves the end of the log, and not the pointer. -/
theorem dropFrom {fromIndex : ℕ} (hfrom : serdeWal.firstIndex < fromIndex) :
    ∃ next, serdeWal.dropFrom fromIndex = some (.ok next) ∧
      next.Represents env codec (log.take fromIndex) acks start := by
  have hstartPointer := h.start_le_pointer
  have hpointer := h.pointer_le
  have hstart := h.start_le
  rw [h.firstIndex] at hfrom
  obtain ⟨wal, htruncate, hcontains⟩ := h.contains.truncate (lt_of_le_of_lt hstartPointer hfrom)
  refine ⟨{ serdeWal with wal }, ?_,
    ⟨?_, ?_, h.pointer, hstartPointer, ?_, h.file, h.capacity⟩⟩
  · unfold SerdeWal.dropFrom
    rw [htruncate]
  · rw [List.drop_take, List.map_take]
    exact hcontains
  · rw [List.length_take]
    omega
  · rw [List.length_take]
    omega

/-- The log is the same when it is opened again. -/
theorem reopen (hcollision : serdeWal.wal.NoCollision env)
    {dir others : List (FileName × List UInt8)} (hdir : dir.Perm (serdeWal.wal.files ++ others))
    (hothers : NoSegments others) :
    ∃ next, new env dir serdeWal.firstIndexFile serdeWal.options = some (.ok next) ∧
      next.Represents env codec log acks start := by
  obtain ⟨wal, hwal, hcontains⟩ := h.contains.reopen hcollision hdir hothers h.capacity
  have hstartPointer := h.start_le_pointer
  have hpointer := h.pointer_le
  have hfield : (serdeWal.firstIndexFile.map fun ackIndex =>
      min (max ackIndex wal.firstIndex) wal.lastIndex) = serdeWal.firstIndexField := by
    rw [h.file, h.pointer]
    split
    · rfl
    · rw [Option.map_some, hcontains.firstIndex, hcontains.lastIndex, List.length_map,
        List.length_drop, max_eq_left hstartPointer, min_eq_left hpointer]
  refine ⟨{ serdeWal with wal }, ?_, { h with contains := hcontains }⟩
  unfold new
  rw [hwal]
  dsimp only
  rw [hfield]

/-- The records from the pointer on are read under their indexes. -/
theorem readAll (hcodec : ∀ r, codec.fromCbor (codec.toCbor r).record = .ok r) :
    serdeWal.readAll codec false =
      (log.zipIdx.drop serdeWal.firstIndex).map fun (r, index) => some (.ok (index, r)) := by
  have hstartPointer := h.start_le_pointer
  have hfirst := h.firstIndex
  have hstop : serdeWal.firstIndex + serdeWal.len false - serdeWal.firstIndex =
      log.length - serdeWal.firstIndex := by
    rw [len, if_neg Bool.false_ne_true, truncatedPrefixEntriesNum, h.contains.numEntries,
      h.contains.firstIndex, List.length_map, List.length_drop]
    omega
  have hread : serdeWal.readAll codec false =
      (List.range' serdeWal.firstIndex (log.length - serdeWal.firstIndex)).map
        (serdeWal.readItem codec) := by
    rw [← hstop]
    rfl
  apply List.ext_getElem?
  intro i
  by_cases hi : i < log.length - serdeWal.firstIndex
  · obtain ⟨r, hr⟩ : ∃ r, log[serdeWal.firstIndex + i]? = some r :=
      ⟨_, List.getElem?_eq_getElem (by omega)⟩
    have hentry : serdeWal.wal.entry (serdeWal.firstIndex + i) =
        some (some (codec.toCbor r).record) := by
      have hoffset : start + (serdeWal.firstIndex + i - start) = serdeWal.firstIndex + i := by omega
      rw [h.contains.entry (by omega), List.getElem?_map, List.getElem?_drop, hoffset, hr,
        Option.map_some]
    have hitem : serdeWal.readItem codec (serdeWal.firstIndex + i) =
        some (.ok (serdeWal.firstIndex + i, r)) := by
      rw [readItem, hentry]
      dsimp only
      rw [Codec.deserializeFrom, hcodec]
      rfl
    grind
  grind

end Represents

/-- Every state that is reached holds the records that were written and not dropped. -/
theorem Reaches.represents {env : Environment} {codec : Codec R} {serdeWal : SerdeWal}
    {log : List R} {acks : List ℕ} (h : Reaches env codec serdeWal log acks) :
    ∃ start, serdeWal.Represents env codec log acks start := by
  induction h with
  | @new dir options serdeWal hdir hnew =>
    unfold SerdeWal.new at hnew
    split at hnew
    · cases hnew
    · cases hnew
    rename_i wal hwal
    cases hnew
    obtain ⟨hholds, hcapacity, -⟩ := Wal.withOptions_new hdir hwal
    exact ⟨0, ⟨[], [], hholds, rfl⟩, Nat.le_refl _, rfl, Nat.le_refl _, Nat.zero_le _, rfl,
      hcapacity⟩
  | @write serdeWal next log acks record index _ hwrite ih =>
    obtain ⟨start, hrepresents⟩ := ih
    obtain ⟨written, hwritten, hnext⟩ := hrepresents.write record
    rw [hwritten] at hwrite
    cases hwrite
    exact ⟨start, hnext⟩
  | @ack serdeWal next log acks untilIndex _ hack ih =>
    obtain ⟨start, hrepresents⟩ := ih
    obtain ⟨acked, nextStart, hacked, hnext, -⟩ := hrepresents.ack untilIndex
    rw [hacked] at hack
    cases hack
    exact ⟨nextStart, hnext⟩
  | @dropFrom serdeWal next log acks fromIndex _ hfrom hdrop ih =>
    obtain ⟨start, hrepresents⟩ := ih
    obtain ⟨dropped, hdropped, hnext⟩ := hrepresents.dropFrom hfrom
    rw [hdropped] at hdrop
    cases hdrop
    exact ⟨start, hnext⟩
  | setExtendedRetention _ ih =>
    obtain ⟨start, hrepresents⟩ := ih
    exact ⟨start, { hrepresents with contains := hrepresents.contains.setRetention _ }⟩
  | setNormalRetention _ ih =>
    obtain ⟨start, hrepresents⟩ := ih
    exact ⟨start, { hrepresents with contains := hrepresents.contains.setRetention _ }⟩
  | reopen _ hcollision hdir hothers hnew ih =>
    obtain ⟨start, hrepresents⟩ := ih
    obtain ⟨reopened, hreopened, hnext⟩ := hrepresents.reopen hcollision hdir hothers
    rw [hreopened] at hnew
    cases hnew
    exact ⟨start, hnext⟩

/-- **The log refines an indexed log with an acknowledgement pointer.** In every state that
operations lead to, a write gets the index after the records that were written and not dropped;
the pointer is the largest index acknowledged so far, it never moves back, and what lies behind
it is read as it was written and never removed by an acknowledgement. -/
theorem refines_indexed_log {env : Environment} {codec : Codec R}
    (hcodec : ∀ r, codec.fromCbor (codec.toCbor r).record = .ok r) {serdeWal : SerdeWal}
    {log : List R} {acks : List ℕ} (h : Reaches env codec serdeWal log acks) :
    (∀ record, ∃ next, serdeWal.write env (codec.toCbor record) = some (.ok (next, log.length)) ∧
      next.firstIndex = serdeWal.firstIndex) ∧
    (∀ untilIndex, ∃ next, serdeWal.ack untilIndex = some (.ok next) ∧
      serdeWal.firstIndex ≤ next.firstIndex ∧
      ∀ index, next.firstIndex ≤ index → next.wal.entry index = serdeWal.wal.entry index) ∧
    (∀ fromIndex, serdeWal.firstIndex < fromIndex → ∃ next,
      serdeWal.dropFrom fromIndex = some (.ok next) ∧ next.firstIndex = serdeWal.firstIndex) ∧
    (∀ dir others, serdeWal.wal.NoCollision env → dir.Perm (serdeWal.wal.files ++ others) →
      NoSegments others → ∃ next,
      new env dir serdeWal.firstIndexFile serdeWal.options = some (.ok next) ∧
      next.firstIndex = serdeWal.firstIndex) ∧
    serdeWal.firstIndex = acks.foldl max 0 ∧
    serdeWal.readAll codec false =
      (log.zipIdx.drop serdeWal.firstIndex).map fun (r, index) => some (.ok (index, r)) := by
  obtain ⟨start, hrepresents⟩ := h.represents
  have hfirst := hrepresents.firstIndex
  refine ⟨fun record => ?_, fun untilIndex => ?_, fun fromIndex hfrom => ?_,
    fun dir others hcollision hdir hothers => ?_, hfirst, hrepresents.readAll hcodec⟩
  · obtain ⟨next, hwrite, hnext⟩ := hrepresents.write record
    exact ⟨next, hwrite, hnext.firstIndex.trans hfirst.symm⟩
  · obtain ⟨next, nextStart, hack, hnext, hentry⟩ := hrepresents.ack untilIndex
    refine ⟨next, hack, ?_, fun index hindex => hentry index ?_⟩
    · rw [hnext.firstIndex, hfirst, foldl_max_append]
      exact le_max_left _ _
    · rw [hnext.firstIndex] at hindex
      exact le_trans hnext.start_le_pointer hindex
  · obtain ⟨next, hdrop, hnext⟩ := hrepresents.dropFrom hfrom
    exact ⟨next, hdrop, hnext.firstIndex.trans hfirst.symm⟩
  · obtain ⟨next, hnew, hnext⟩ := hrepresents.reopen hcollision hdir hothers
    exact ⟨next, hnew, hnext.firstIndex.trans hfirst.symm⟩

/-! ### Two logs -/

/-- Bytes that are stored as they are. -/
def byteCodec : Codec UInt8 where
  toCbor := fun byte => ⟨[byte], by simp⟩
  fromCbor := fun bytes =>
    match bytes with
    | [byte] => .ok byte
    | _ => .error "expected one byte"
  fromRmp := fun _ => .error "no bytes"

theorem refines_indexed_log_two_records :
    ∃ serdeWal, Reaches constantEnvironment byteCodec serdeWal [5, 6] [1] ∧
      serdeWal.firstIndex = 1 ∧ serdeWal.readAll byteCodec false = [some (.ok (1, 6))] := by
  have hnew := @Reaches.new _ constantEnvironment byteCodec [] smallOptions _ nofun rfl
  have hone := @Reaches.write _ _ _ _ _ _ _ 5 _ hnew rfl
  have htwo := @Reaches.write _ _ _ _ _ _ _ 6 _ hone rfl
  have hacked := @Reaches.ack _ _ _ _ _ _ _ 1 htwo rfl
  obtain ⟨-, -, -, -, -, hread⟩ := refines_indexed_log (fun _ => rfl) hacked
  exact ⟨_, hacked, rfl, hread⟩

/-- Dropping from beyond the end changes nothing, so the next index is not the one that was
dropped from. -/
theorem write_after_dropFrom_beyond_end :
    ∃ empty dropped written,
      new constantEnvironment [] none smallOptions = some (.ok empty) ∧
      empty.firstIndex < 1 ∧ empty.dropFrom 1 = some (.ok dropped) ∧
      dropped.write constantEnvironment (byteCodec.toCbor 5) = some (.ok (written, 0)) :=
  ⟨_, _, _, rfl, Nat.zero_lt_one, rfl, rfl⟩

end SerdeWal

end Stratumind.WriteAhead
