import Stratumind.Common.Types
import Stratumind.Lib.Assoc
import Stratumind.Lib.LittleEndian

/-!
# Point mappings

`PointMappings` of `segment::id_tracker`: external ids to internal ids, internal ids back
to external ids, and the bit of every deleted internal id.
-/

namespace Stratumind.IdTracker

open List

/-- External point ids. A uuid is its 128-bit value. -/
inductive PointIdType where
  | numId (num : UInt64)
  | uuid (uuid : BitVec 128)
  deriving DecidableEq

/-- The placeholder for an internal id without external id, `NumId(u64::MAX)`. -/
def PointIdType.unmapped : PointIdType := .numId (UInt64.ofNat (2 ^ 64 - 1))

/-- `Vec::resize`. -/
def resize {α : Type} (vec : List α) (newLen : ℕ) (value : α) : List α :=
  vec.take newLen ++ replicate (newLen - vec.length) value

/-- Extends a vector so that the index exists, and leaves a longer one alone. -/
def growTo {α : Type} (vec : List α) (index : ℕ) (value : α) : List α :=
  if index ≥ vec.length then resize vec (index + 1) value else vec

/-- The two ordered maps from external to internal ids, one for each kind of id. -/
structure ExternalToInternal where
  num : AList fun _ : UInt64 => UInt32 := ∅
  uuid : AList fun _ : BitVec 128 => UInt32 := ∅

namespace ExternalToInternal

variable (maps : ExternalToInternal)

/-- `BTreeMap::get` of the map of the id's kind. -/
def get : PointIdType → Option UInt32
  | .numId num => maps.num.lookup num
  | .uuid uuid => maps.uuid.lookup uuid

/-- `BTreeMap::insert` into the map of the id's kind. -/
def insert (externalId : PointIdType) (internalId : UInt32) : ExternalToInternal :=
  match externalId with
  | .numId num => { maps with num := maps.num.insert num internalId }
  | .uuid uuid => { maps with uuid := maps.uuid.insert uuid internalId }

/-- `BTreeMap::remove` from the map of the id's kind. -/
def remove (externalId : PointIdType) : ExternalToInternal :=
  match externalId with
  | .numId num => { maps with num := maps.num.erase num }
  | .uuid uuid => { maps with uuid := maps.uuid.erase uuid }

/-- The number of entries of both maps. -/
def len : ℕ :=
  maps.num.entries.length + maps.uuid.entries.length

/-- No id has a link at first. -/
@[simp] theorem get_empty (externalId : PointIdType) :
    ({} : ExternalToInternal).get externalId = none := by
  cases externalId <;> exact AList.lookup_empty _

/-- An insertion changes the link of its id only. -/
theorem get_insert (externalId other : PointIdType)
    (internalId : UInt32) : (maps.insert externalId internalId).get other =
      if other = externalId then some internalId else maps.get other := by
  cases externalId <;> cases other <;> simp [insert, get, Lib.lookup_insert]

/-- A removal takes the link of its id only. -/
theorem get_remove (externalId other : PointIdType) :
    (maps.remove externalId).get other =
      if other = externalId then none else maps.get other := by
  cases externalId <;> cases other <;> simp [remove, get, Lib.lookup_erase]

end ExternalToInternal

/-- The mappings of one segment. -/
structure PointMappings where
  deleted : List Bool
  internalToExternal : List PointIdType
  externalToInternal : ExternalToInternal
  deferredInternalId : Option UInt32
  deferredDeletedCount : ℕ

namespace PointMappings

/-- `PointMappings::new`: counts the deleted ids from the first deferred one on. -/
def new (deleted : List Bool) (internalToExternal : List PointIdType)
    (externalToInternal : ExternalToInternal) (deferredInternalId : Option UInt32) :
    PointMappings where
  deleted := deleted
  internalToExternal := internalToExternal
  externalToInternal := externalToInternal
  deferredInternalId := deferredInternalId
  deferredDeletedCount :=
    (deferredInternalId.map fun deferredFrom => (deleted.drop deferredFrom.toNat).count true).getD 0

variable (mappings : PointMappings)

/-- Number of points, excluding deleted ones. -/
def availablePointCount : ℕ :=
  mappings.externalToInternal.len

/-- The internal id of an external one. -/
def internalId (externalId : PointIdType) : Option UInt32 :=
  mappings.externalToInternal.get externalId

/-- The external id of an internal one that is not deleted. -/
def externalId (internalId : UInt32) : Option PointIdType :=
  match mappings.deleted[internalId.toNat]? with
  | none => none
  | some true => none
  | some false => mappings.internalToExternal[internalId.toNat]?

/-- Whether an internal id is deleted; ids without a bit are. -/
def isDeletedPoint (key : UInt32) : Bool :=
  if key.toNat ≥ mappings.deleted.length then true
  else mappings.deleted[key.toNat]?.getD true

/-- `PointMappings::drop`: removes the link of an external id and marks its internal id as
deleted. Returns the internal id, if there was one. -/
def drop (externalId : PointIdType) : Option UInt32 × PointMappings :=
  let internalId := mappings.externalToInternal.get externalId
  let externalToInternal := mappings.externalToInternal.remove externalId
  match internalId with
  | none => (none, { mappings with externalToInternal })
  | some id =>
    let wasAlreadyDeleted := mappings.deleted[id.toNat]?.getD true
    let deferred := mappings.deferredInternalId.any fun deferredFrom => id ≥ deferredFrom
    (some id, { mappings with
        externalToInternal
        internalToExternal := mappings.internalToExternal.set id.toNat .unmapped
        deleted := mappings.deleted.set id.toNat true
        deferredDeletedCount :=
          if !wasAlreadyDeleted && deferred then mappings.deferredDeletedCount + 1
          else mappings.deferredDeletedCount })

/-- `PointMappings::set_link`: links an external to an internal id, and marks the internal
id it was linked to before as deleted. -/
def setLink (externalId : PointIdType) (internalId : UInt32) : PointMappings :=
  let oldInternalId := mappings.externalToInternal.get externalId
  let index := internalId.toNat
  let internalToExternal := growTo mappings.internalToExternal index .unmapped
  let deleted := growTo mappings.deleted index true
  let deleted :=
    match oldInternalId with
    | none => deleted
    | some old => if old.toNat ≠ index then deleted.set old.toNat true else deleted
  { mappings with
    externalToInternal := mappings.externalToInternal.insert externalId internalId
    internalToExternal := internalToExternal.set index externalId
    deleted := deleted.set index false }

end PointMappings

/-! ### Vectors that grow on demand -/

section Growing

variable {α : Type} (vec : List α) (index : ℕ) (value : α)

/-- A vector grows to hold the index, and never shrinks. -/
theorem length_growTo : (growTo vec index value).length = max vec.length (index + 1) := by
  unfold growTo resize
  split
  · rw [length_append, length_take, length_replicate]
    omega
  · omega

/-- After growing the index is in bounds. -/
theorem lt_length_growTo : index < (growTo vec index value).length := by
  rw [length_growTo]
  omega

/-- Old positions keep their values, and new ones have the given one. -/
theorem getElem?_growTo (position : ℕ) : (growTo vec index value)[position]? =
    if position < vec.length then vec[position]?
    else if position ≤ index then some value else none := by
  unfold growTo resize
  grind

end Growing

/-!
### The mappings file

`change.rs` and `mappings_storage.rs` of the mutable id tracker: mapping changes are
appended to a file as entries of variable size, and loading applies all of them in order.
A file that ends inside an entry is read up to the last complete one.
-/

open Lib List

/-- A change of the mappings as it is persisted. -/
inductive MappingChange where
  | insert (externalId : PointIdType) (internalId : UInt32)
  | delete (externalId : PointIdType)
  deriving DecidableEq

/-- The header byte of an entry. -/
inductive MappingChangeType where
  | insertNum
  | insertUuid
  | deleteNum
  | deleteUuid
  deriving DecidableEq

namespace MappingChangeType

/-- The discriminants of the enumeration. -/
def toByte : MappingChangeType → UInt8
  | .insertNum => 1
  | .insertUuid => 2
  | .deleteNum => 3
  | .deleteUuid => 4

/-- `MappingChangeType::from_byte`. -/
def fromByte (byte : UInt8) : Option MappingChangeType :=
  if byte = toByte .insertNum then some .insertNum
  else if byte = toByte .insertUuid then some .insertUuid
  else if byte = toByte .deleteNum then some .deleteNum
  else if byte = toByte .deleteUuid then some .deleteUuid
  else none

/-- Size of a persisted entry in bytes. -/
def operationSize : MappingChangeType → ℕ
  | .insertNum => 1 + 8 + 4
  | .insertUuid => 1 + 16 + 4
  | .deleteNum => 1 + 8
  | .deleteUuid => 1 + 16

/-- The type of a change is read back from its byte. -/
@[simp] theorem fromByte_toByte (changeType : MappingChangeType) :
    fromByte changeType.toByte = some changeType := by
  cases changeType <;> decide

end MappingChangeType

/-- `MappingChange::change_type`. -/
def MappingChange.changeType : MappingChange → MappingChangeType
  | .insert (.numId _) _ => .insertNum
  | .insert (.uuid _) _ => .insertUuid
  | .delete (.numId _) => .deleteNum
  | .delete (.uuid _) => .deleteUuid

/-- Why an entry cannot be read. -/
inductive ReadError where
  | unexpectedEof
  | invalidData (description : String)
  deriving DecidableEq

/-- An upper case hexadecimal digit. -/
def hexDigit (digit : ℕ) : Char :=
  Char.ofNat (if digit < 10 then 48 + digit else 55 + digit)

/-- A byte under the format `#04X`. -/
def hexByte (byte : UInt8) : String :=
  String.ofList ['0', 'x', hexDigit (byte.toNat / 16), hexDigit (byte.toNat % 16)]

/-- `read_exact` of a little-endian number. -/
def readNumber (width : ℕ) (reader : List UInt8) : Except ReadError (ℕ × List UInt8) :=
  match readLe width reader with
  | none => .error .unexpectedEof
  | some result => .ok result

/-- `read_entry`: reads one entry. Returns the change, the size of the entry and the input
after it. -/
def readEntry (reader : List UInt8) :
    Except ReadError (MappingChange × ℕ × List UInt8) := do
  let (byte, reader) ← readNumber 1 reader
  match MappingChangeType.fromByte (UInt8.ofNat byte) with
  | none =>
    throw (.invalidData ("Corrupted ID tracker mapping storage, got malformed mapping change byte "
      ++ hexByte (UInt8.ofNat byte)))
  | some .insertNum =>
    let (num, reader) ← readNumber 8 reader
    let (internalId, reader) ← readNumber 4 reader
    return (.insert (.numId (UInt64.ofNat num)) (UInt32.ofNat internalId),
      MappingChangeType.operationSize .insertNum, reader)
  | some .insertUuid =>
    let (uuid, reader) ← readNumber 16 reader
    let (internalId, reader) ← readNumber 4 reader
    return (.insert (.uuid (BitVec.ofNat 128 uuid)) (UInt32.ofNat internalId),
      MappingChangeType.operationSize .insertUuid, reader)
  | some .deleteNum =>
    let (num, reader) ← readNumber 8 reader
    return (.delete (.numId (UInt64.ofNat num)), MappingChangeType.operationSize .deleteNum, reader)
  | some .deleteUuid =>
    let (uuid, reader) ← readNumber 16 reader
    return (.delete (.uuid (BitVec.ofNat 128 uuid)),
      MappingChangeType.operationSize .deleteUuid, reader)

/-- `write_entry`: the bytes of one entry. -/
def writeEntry (change : MappingChange) : List UInt8 :=
  change.changeType.toByte ::
    match change with
    | .insert (.numId num) internalId => leBytes 8 num.toNat ++ leBytes 4 internalId.toNat
    | .insert (.uuid uuid) internalId => leBytes 16 uuid.toNat ++ leBytes 4 internalId.toNat
    | .delete (.numId num) => leBytes 8 num.toNat
    | .delete (.uuid uuid) => leBytes 16 uuid.toNat

variable (changes : List MappingChange)

/-- `write_mapping_changes`: the entries in order. -/
def writeMappingChanges : List UInt8 :=
  changes.flatMap writeEntry

/-- The iterator of `read_mappings_iter`: the changes it yields and how it ends, after the
given position or at malformed data. Every entry has a byte, so the length of the input is
enough fuel. -/
def readMappingsFrom : ℕ → ℕ → List UInt8 → List MappingChange × Except String ℕ
  | 0, position, _ => ([], .ok position)
  | fuel + 1, position, reader =>
    match readEntry reader with
    | .ok (entry, readBytes, rest) =>
      let (entries, finish) := readMappingsFrom fuel (position + readBytes) rest
      (entry :: entries, finish)
    | .error .unexpectedEof => ([], .ok position)
    | .error (.invalidData description) => ([], .error description)

/-- `read_mappings_iter` on a whole file. -/
def readMappingsIter (reader : List UInt8) : List MappingChange × Except String ℕ :=
  readMappingsFrom (reader.length + 1) 0 reader

/-- The local variables of `read_mappings`. -/
structure LoadedMappings where
  deleted : List Bool := []
  internalToExternal : List PointIdType := []
  externalToInternal : ExternalToInternal := {}

namespace LoadedMappings

/-- The arm of `read_mappings` for an insertion. -/
def insert (loaded : LoadedMappings) (externalId : PointIdType) (internalId : UInt32) :
    LoadedMappings :=
  let index := internalId.toNat
  let internalToExternal := growTo loaded.internalToExternal index .unmapped
  let replacedExternalId := internalToExternal[index]?.getD .unmapped
  -- a slot that is in use loses the id it had
  let externalToInternal :=
    if loaded.deleted[index]? = some false then
      loaded.externalToInternal.remove replacedExternalId
    else loaded.externalToInternal
  { deleted := (growTo loaded.deleted index true).set index false
    internalToExternal := internalToExternal.set index externalId
    externalToInternal := externalToInternal.insert externalId internalId }

/-- The arm of `read_mappings` for a deletion. -/
def delete (loaded : LoadedMappings) (externalId : PointIdType) : LoadedMappings :=
  let externalToInternal := loaded.externalToInternal.remove externalId
  match loaded.externalToInternal.get externalId with
  | none => { loaded with externalToInternal }
  | some internalId =>
    let index := internalId.toNat
    { deleted := (growTo loaded.deleted index true).set index true
      internalToExternal :=
        if index < loaded.internalToExternal.length then
          loaded.internalToExternal.set index .unmapped
        else loaded.internalToExternal
      externalToInternal }

/-- One turn of the loop of `read_mappings`. -/
def apply (loaded : LoadedMappings) : MappingChange → LoadedMappings
  | .insert externalId internalId => loaded.insert externalId internalId
  | .delete externalId => loaded.delete externalId

end LoadedMappings

/-- The message of an IO error once it is an operation error. -/
def ioError (description : String) : OperationError :=
  .serviceError ("IO Error: " ++ description)

/-- `read_mappings`, with the position up to which entries were read. -/
def readMappings (reader : List UInt8) (deferredInternalId : Option UInt32) :
    OperationResult (PointMappings × ℕ) :=
  match readMappingsIter reader with
  | (_, .error description) => .error (ioError description)
  | (changes, .ok position) =>
    let loaded := changes.foldl LoadedMappings.apply {}
    .ok (PointMappings.new loaded.deleted loaded.internalToExternal loaded.externalToInternal
      deferredInternalId, position)

/-- `load_mappings`: the mappings, the length read, and the file after a trailing incomplete
entry is cut off. -/
def loadMappings (file : List UInt8) (deferredInternalId : Option UInt32) :
    OperationResult (PointMappings × ℕ × List UInt8) := do
  let (mappings, readTo) ← readMappings file deferredInternalId
  return (mappings, readTo, if readTo < file.length then file.take readTo else file)

/-- `store_mapping_changes`: appends to the file after the part that is known to be
persisted. Returns the new file and its persisted length. -/
def storeMappingChanges (file : Option (List UInt8)) (changes : List MappingChange)
    (persistedMappingsSize : ℕ) : OperationResult (List UInt8 × ℕ) :=
  -- opening the file creates it
  let file := file.getD []
  if file.length < persistedMappingsSize then
    .error (.serviceError ("Mutable ID tracker mappings file size is less than persisted " ++
      "mappings size, cannot append new mappings (file size: " ++ toString file.length ++
      ", persisted mappings size: " ++ toString persistedMappingsSize ++ ")"))
  else
    let stored := file.take persistedMappingsSize ++ writeMappingChanges changes
    -- the position in a file that is only appended to is its start until something is written
    .ok (stored, if changes.isEmpty then 0 else stored.length)

/-- `reconcile_persisted_mapping_changes`: drops the changes from the front that were just
persisted. -/
def reconcilePersistedMappingChanges (pending changes : List MappingChange) : List MappingChange :=
  pending.drop ((pending.zip changes).takeWhile fun entry => entry.1 = entry.2).length

/-! ### What is written is read back -/

private theorem readNumber_append {width n : ℕ} (h : n < 256 ^ width) (rest : List UInt8) :
    readNumber width (leBytes width n ++ rest) = .ok (n, rest) := by
  rw [readNumber, readLe_append h]

/-- The byte of the type is read as a number. -/
private theorem readNumber_header (changeType : MappingChangeType) (rest : List UInt8) :
    readNumber 1 (changeType.toByte :: rest) = .ok (changeType.toByte.toNat, rest) := by
  cases changeType <;> rfl

/-- Reading an entry gives back the change and takes exactly the size of the entry. -/
theorem readEntry_writeEntry (change : MappingChange) (rest : List UInt8) :
    readEntry (writeEntry change ++ rest) = .ok (change, (writeEntry change).length, rest) := by
  have hnum : ∀ num : UInt64, num.toNat < 256 ^ 8 := fun num => num.toNat_lt
  have huuid : ∀ uuid : BitVec 128, uuid.toNat < 256 ^ 16 := fun uuid => uuid.isLt
  have hinternal : ∀ internalId : UInt32, internalId.toNat < 256 ^ 4 :=
    fun internalId => internalId.toNat_lt
  unfold readEntry writeEntry
  rw [cons_append, readNumber_header]
  rcases change with ⟨_ | _, _⟩ | _ | _ <;>
    simp only [MappingChange.changeType, bind, Except.bind, pure, Except.pure,
      append_assoc, UInt8.ofNat_toNat, MappingChangeType.fromByte_toByte,
      readNumber_append, hnum, huuid, hinternal, UInt64.ofNat_toNat, UInt32.ofNat_toNat,
      BitVec.ofNat_toNat, BitVec.setWidth_eq, length_cons, length_append,
      length_leBytes, MappingChangeType.operationSize]

/-- Too few bytes end the reading. -/
private theorem readNumber_short {width : ℕ} {bytes : List UInt8} (h : bytes.length < width) :
    readNumber width bytes = .error .unexpectedEof := by
  rw [readNumber, readLe, if_neg (Nat.not_le.mpr h)]

private theorem readNumbers_take {α : Type} {first second n k : ℕ} (hn : n < 256 ^ first)
    {bytes : List UInt8} (hbytes : bytes.length = second) (hk : k < first + second)
    (f : ℕ × List UInt8 → ℕ × List UInt8 → Except ReadError α) :
    ((readNumber first ((leBytes first n ++ bytes).take k)).bind fun number =>
      (readNumber second number.2).bind (f number)) = .error .unexpectedEof := by
  by_cases hfirst : k < first
  · rw [readNumber_short (by rw [length_take]; omega)]
    rfl
  · rw [take_append, length_leBytes, take_of_length_le (by rw [length_leBytes]; omega),
      readNumber_append hn]
    dsimp only [Except.bind]
    rw [readNumber_short (by rw [length_take]; omega)]

/-- An entry that is cut anywhere ends too early. -/
theorem readEntry_take_writeEntry (change : MappingChange) {k : ℕ}
    (hk : k < (writeEntry change).length) :
    readEntry ((writeEntry change).take k) = .error .unexpectedEof := by
  cases k with
  | zero => rfl
  | succ k =>
    unfold readEntry writeEntry
    rw [take_succ_cons, readNumber_header]
    rcases change with ⟨num | uuid, internalId⟩ | num | uuid <;>
      simp only [writeEntry, MappingChange.changeType, length_cons, length_append,
        length_leBytes] at hk <;>
      simp only [MappingChange.changeType, bind, Except.bind, UInt8.ofNat_toNat,
        MappingChangeType.fromByte_toByte]
    · exact readNumbers_take num.toNat_lt (length_leBytes ..) (by omega) _
    · exact readNumbers_take uuid.isLt (length_leBytes ..) (by omega) _
    all_goals rw [readNumber_short (by rw [length_take, length_leBytes]; omega)]

/-- All written changes are read, up to a tail that is cut short. -/
private theorem readMappingsFrom_append {tail : List UInt8}
    (htail : readEntry tail = .error .unexpectedEof) :
    ∀ (fuel position : ℕ), (writeMappingChanges changes).length < fuel →
      readMappingsFrom fuel position (writeMappingChanges changes ++ tail) =
        (changes, .ok (position + (writeMappingChanges changes).length)) := by
  induction changes with
  | nil =>
    intro fuel position hfuel
    obtain ⟨fuel, rfl⟩ := Nat.exists_eq_add_of_lt (Nat.zero_lt_of_lt hfuel)
    rw [readMappingsFrom, writeMappingChanges, flatMap_nil, nil_append, htail]
    rfl
  | cons change changes ih =>
    intro fuel position hfuel
    have hcons : writeMappingChanges (change :: changes) =
        writeEntry change ++ writeMappingChanges changes := flatMap_cons
    rw [hcons, length_append] at hfuel
    have hbyte : 0 < (writeEntry change).length := by
      exact Nat.succ_pos _
    obtain ⟨fuel, rfl⟩ := Nat.exists_eq_add_of_lt (Nat.zero_lt_of_lt hfuel)
    rw [Nat.zero_add] at hfuel ⊢
    rw [hcons, append_assoc, readMappingsFrom, readEntry_writeEntry]
    dsimp only
    rw [ih fuel _ (by omega), length_append, Nat.add_assoc]

/-- The mappings after a sequence of changes. -/
def replay (deferredInternalId : Option UInt32) : PointMappings :=
  let loaded := changes.foldl LoadedMappings.apply {}
  PointMappings.new loaded.deleted loaded.internalToExternal loaded.externalToInternal
    deferredInternalId

/-- An insertion at the end links its id, and the id that has its slot loses the link. -/
theorem get_replay_insert (externalId other : PointIdType) (internalId : UInt32)
    (deferredInternalId : Option UInt32) :
    let before := replay changes deferredInternalId
    (replay (changes ++ [.insert externalId internalId]) deferredInternalId).externalToInternal.get
        other =
      if other = externalId then some internalId
      else if before.deleted[internalId.toNat]? = some false ∧
          other = before.internalToExternal[internalId.toNat]?.getD .unmapped then none
      else before.externalToInternal.get other := by
  unfold replay
  rw [foldl_append]
  dsimp only [foldl_cons, foldl_nil, LoadedMappings.apply, LoadedMappings.insert, PointMappings.new]
  generalize changes.foldl LoadedMappings.apply {} = loaded
  have hslot : (growTo loaded.internalToExternal internalId.toNat .unmapped)[internalId.toNat]?.getD
      .unmapped = loaded.internalToExternal[internalId.toNat]?.getD .unmapped := by
    rw [getElem?_growTo]
    split
    · rfl
    · rename_i hlt
      rw [if_pos le_rfl, getElem?_eq_none (not_lt.mp hlt)]
      rfl
  rw [ExternalToInternal.get_insert, hslot]
  split
  · rfl
  by_cases hused : loaded.deleted[internalId.toNat]? = some false
  · rw [if_pos hused, ExternalToInternal.get_remove]
    simp only [hused, true_and]
  · rw [if_neg hused]
    exact (if_neg fun h => hused h.1).symm

/-- A deletion at the end takes the link of its id only. -/
theorem get_replay_delete (externalId other : PointIdType) (deferredInternalId : Option UInt32) :
    (replay (changes ++ [.delete externalId]) deferredInternalId).externalToInternal.get other =
      if other = externalId then none
      else (replay changes deferredInternalId).externalToInternal.get other := by
  unfold replay
  rw [foldl_append]
  dsimp only [foldl_cons, foldl_nil, LoadedMappings.apply, LoadedMappings.delete, PointMappings.new]
  rw [← ExternalToInternal.get_remove]
  split <;> rfl

/-- Complete entries are read up to an incomplete one. -/
theorem readMappings_append {tail : List UInt8} (htail : readEntry tail = .error .unexpectedEof)
    (deferredInternalId : Option UInt32) :
    readMappings (writeMappingChanges changes ++ tail) deferredInternalId =
      .ok (replay changes deferredInternalId, (writeMappingChanges changes).length) := by
  have hiter := readMappingsFrom_append changes htail
    ((writeMappingChanges changes ++ tail).length + 1) 0 (by rw [length_append]; omega)
  rw [readMappings, readMappingsIter, hiter, Nat.zero_add]
  rfl

/-- A file of complete entries is read to its end. -/
theorem readMappings_writeMappingChanges (deferredInternalId : Option UInt32) :
    readMappings (writeMappingChanges changes) deferredInternalId =
      .ok (replay changes deferredInternalId, (writeMappingChanges changes).length) := by
  have hread := @readMappings_append changes [] rfl deferredInternalId
  rwa [append_nil] at hread

/-- Storing appends to the entries of the file. -/
theorem storeMappingChanges_eq {file : Option (List UInt8)} {stored : List MappingChange}
    (hfile : file.getD [] = writeMappingChanges stored) (changes : List MappingChange) :
    storeMappingChanges file changes (writeMappingChanges stored).length =
      .ok (writeMappingChanges (stored ++ changes),
        if changes.isEmpty then 0 else (writeMappingChanges (stored ++ changes)).length) := by
  have hwritten : writeMappingChanges (stored ++ changes) =
      writeMappingChanges stored ++ writeMappingChanges changes := flatMap_append
  dsimp only [storeMappingChanges]
  rw [hfile, if_neg (lt_irrefl _), take_length, hwritten]

/-- Changes that still head the pending list are exactly what reconciling drops. -/
theorem reconcilePersistedMappingChanges_append (changes later : List MappingChange) :
    reconcilePersistedMappingChanges (changes ++ later) changes = later := by
  have hcount : (((changes ++ later).zip changes).takeWhile
      fun entry => entry.1 = entry.2).length = changes.length := by
    induction changes with
    | nil => simp
    | cons change changes ih =>
      rw [cons_append, zip_cons_cons, takeWhile_cons_of_pos (by simp),
        length_cons, length_cons, ih]
  rw [reconcilePersistedMappingChanges, hcount, drop_left]

/-! ### A torn file -/

/-- A cut file is a number of whole entries and a part of the next one, if there is a next. -/
private theorem exists_whole_entries (length : ℕ) :
    ∃ whole rest part, changes = whole ++ rest ∧
      (writeMappingChanges changes).take length = writeMappingChanges whole ++ part ∧
      readEntry part = .error .unexpectedEof ∧
      ∀ next ∈ rest.head?, part.length < (writeEntry next).length := by
  induction changes generalizing length with
  | nil => exact ⟨[], [], [], rfl, take_nil, rfl, nofun⟩
  | cons change changes ih =>
    have hcons : writeMappingChanges (change :: changes) =
        writeEntry change ++ writeMappingChanges changes := flatMap_cons
    rw [hcons, take_append]
    by_cases hcut : length < (writeEntry change).length
    · refine ⟨[], change :: changes, (writeEntry change).take length, rfl, ?_,
        readEntry_take_writeEntry change hcut, ?_⟩
      · rw [Nat.sub_eq_zero_of_le hcut.le, take_zero, append_nil]
        rfl
      · rintro next ⟨rfl⟩
        exact (length_take_le _ _).trans_lt hcut
    · obtain ⟨whole, rest, part, rfl, htake, hpart, hnext⟩ :=
        ih (length - (writeEntry change).length)
      refine ⟨change :: whole, rest, part, rfl, ?_, hpart, hnext⟩
      rw [htake, take_of_length_le (Nat.not_lt.mp hcut), ← append_assoc]
      rfl

/-- Loading replays all written changes before such a tail. -/
private theorem loadMappings_append {tail : List UInt8}
    (htail : readEntry tail = .error .unexpectedEof) (deferredInternalId : Option UInt32) :
    loadMappings (writeMappingChanges changes ++ tail) deferredInternalId =
      .ok (replay changes deferredInternalId, (writeMappingChanges changes).length,
        writeMappingChanges changes) := by
  rw [loadMappings, readMappings_append changes htail]
  simp only [bind, Except.bind, pure, Except.pure, take_left]
  split
  · rfl
  · rw [eq_nil_of_length_eq_zero (l := tail) (by grind), append_nil]

/-- A file that is cut anywhere is loaded up to its last whole entry and cut back to it, and
what is stored from then on is loaded after the entries that survived. -/
theorem load_mappings_recovers_torn_file (length : ℕ) (deferredInternalId : Option UInt32) :
    ∃ whole, whole <+: changes ∧
      (∀ entries, entries <+: changes →
        (writeMappingChanges entries <+: (writeMappingChanges changes).take length ↔
          entries <+: whole)) ∧
      loadMappings ((writeMappingChanges changes).take length) deferredInternalId =
        .ok (replay whole deferredInternalId, (writeMappingChanges whole).length,
          writeMappingChanges whole) ∧
      ∀ later laterDeferredId, ∃ stored persistedLen,
        storeMappingChanges (some (writeMappingChanges whole)) later
            (writeMappingChanges whole).length = .ok (stored, persistedLen) ∧
          loadMappings stored laterDeferredId =
            .ok (replay (whole ++ later) laterDeferredId, stored.length, stored) := by
  obtain ⟨whole, rest, part, rfl, htake, hpart, hnext⟩ := exists_whole_entries changes length
  rw [htake]
  refine ⟨whole, prefix_append _ _, fun entries hentries => ⟨fun hwritten => ?_, ?_⟩,
    loadMappings_append whole hpart _,
    fun later laterDeferredId => ⟨_, _, storeMappingChanges_eq rfl later, ?_⟩⟩
  · -- a longer list of entries would hold the next one, which is cut
    obtain hshorter | ⟨longer, rfl⟩ := prefix_or_prefix_of_prefix hentries (prefix_append _ _)
    · exact hshorter
    cases longer with
    | nil => rw [append_nil]
    | cons next longer =>
      rw [prefix_append_right_inj] at hentries
      obtain ⟨others, rfl⟩ := hentries
      rw [writeMappingChanges, writeMappingChanges, flatMap_append, prefix_append_right_inj,
        flatMap_cons] at hwritten
      have hlength := hwritten.length_le
      have hcut := hnext next rfl
      rw [length_append] at hlength
      omega
  · rintro ⟨others, rfl⟩
    rw [writeMappingChanges, writeMappingChanges, flatMap_append, append_assoc]
    exact prefix_append _ _
  · have hload := @loadMappings_append (whole ++ later) [] rfl laterDeferredId
    rwa [append_nil] at hload

/-!
### The mutable id tracker

`MutableIdTracker` with its versions file (`versions_storage.rs`), its flushers and `open`.
Changes are collected in memory and persisted by flushers that copy them when they are
created; `TrackerStep` runs the tracker against its two files, with at most one flusher of
each kind outstanding. Assertions of debug builds are not part of the model.
-/

open Lib

/-- `DELETED_POINT_VERSION`. -/
def deletedPointVersion : UInt64 := 0

/-- `VERSION_ELEMENT_SIZE`. -/
def versionElementSize : ℕ := 8

/-- The entries of a `BTreeMap` keyed by internal ids, in ascending order. -/
def orderedVersions (changes : AList fun _ : UInt32 => UInt64) : List (UInt32 × UInt64) :=
  (changes.entries.map fun entry => (entry.1, entry.2)).insertionSort fun a b => a.1 ≤ b.1

/-- A write at an offset of a file. A gap before the offset reads as zeros. -/
def writeAt (file : List UInt8) (offset : ℕ) (bytes : List UInt8) : List UInt8 :=
  (if offset ≤ file.length then file else resize file offset 0).take offset ++ bytes ++
    file.drop (offset + bytes.length)

/-- `write_version_changes`: each version at the offset of its internal id. -/
def writeVersionChanges (file : List UInt8) (changes : List (UInt32 × UInt64)) : List UInt8 :=
  changes.foldl (fun file change =>
    writeAt file (change.1.toNat * versionElementSize) (leBytes 8 change.2.toNat)) file

/-- `store_version_changes`: cuts off a partial trailing entry, then writes the changes. -/
def storeVersionChanges (file : Option (List UInt8)) (changes : AList fun _ : UInt32 => UInt64) :
    Option (List UInt8) :=
  if changes.entries.isEmpty then file
  else
    let file := file.getD []
    let validLen := file.length / versionElementSize * versionElementSize
    let file := if file.length ≠ validLen then resize file validLen 0 else file
    some (writeVersionChanges file (orderedVersions changes))

/-- `reconcile_persisted_version_changes`: keeps what changed since it was copied. -/
def reconcilePersistedVersionChanges (pending changes : AList fun _ : UInt32 => UInt64) :
    AList fun _ : UInt32 => UInt64 where
  entries := pending.entries.filter fun entry =>
    (changes.lookup entry.1).all fun persistedVersion => entry.2 ≠ persistedVersion
  nodupKeys := List.NodupKeys.sublist List.filter_sublist pending.nodupKeys

/-- The loop of `load_versions` over the complete entries. -/
def readVersions : ℕ → List UInt8 → List UInt64
  | 0, _ => []
  | count + 1, reader =>
    UInt64.ofNat (ofLeBytes (reader.take versionElementSize)) ::
      readVersions count (reader.drop versionElementSize)

/-- `load_versions`: a partial trailing entry is ignored. -/
def loadVersions (file : List UInt8) : List UInt64 :=
  readVersions (file.length / versionElementSize) file

/-- The tracker in memory. -/
structure MutableIdTracker where
  internalToVersion : List UInt64
  mappings : PointMappings
  pendingVersions : AList fun _ : UInt32 => UInt64
  pendingMappings : List MappingChange
  mappingsExpectedLen : ℕ

/-- The two files of a tracker, if they exist. -/
structure TrackerFiles where
  mappings : Option (List UInt8) := none
  versions : Option (List UInt8) := none

namespace MutableIdTracker

/-- The mappings part of `open`: without a file there are no mappings. -/
def openMappings (file : Option (List UInt8)) (deferredInternalId : Option UInt32) :
    OperationResult (PointMappings × ℕ) :=
  match file with
  | none => .ok (PointMappings.new [] [] {} deferredInternalId, 0)
  | some file =>
    match loadMappings file deferredInternalId with
    | .ok (mappings, readTo, _) => .ok (mappings, readTo)
    | .error error =>
      .error (.serviceError ("Failed to load ID tracker mappings: " ++ error.display))

/-- The versions part of `open`. -/
def openVersions (file : Option (List UInt8)) : List UInt64 :=
  match file with
  | none => []
  | some file => loadVersions file

/-- `MutableIdTracker::open`. -/
def «open» (files : TrackerFiles) (deferredInternalId : Option UInt32) :
    OperationResult MutableIdTracker := do
  let (mappings, mappingsExpectedLen) ← openMappings files.mappings deferredInternalId
  return {
    internalToVersion := openVersions files.versions
    mappings
    pendingVersions := ∅
    pendingMappings := []
    mappingsExpectedLen }

variable (tracker : MutableIdTracker)

/-- The version of an internal id. -/
def internalVersion (internalId : UInt32) : Option UInt64 :=
  tracker.internalToVersion[internalId.toNat]?

/-- `MutableIdTracker::set_internal_version`. -/
def setInternalVersion (internalId : UInt32) (version : UInt64) : MutableIdTracker :=
  { tracker with
    internalToVersion :=
      (growTo tracker.internalToVersion internalId.toNat 0).set internalId.toNat version
    pendingVersions := tracker.pendingVersions.insert internalId version }

/-- `MutableIdTracker::set_link`. -/
def setLink (externalId : PointIdType) (internalId : UInt32) : MutableIdTracker :=
  { tracker with
    mappings := tracker.mappings.setLink externalId internalId
    pendingMappings := tracker.pendingMappings ++ [.insert externalId internalId] }

/-- The mapping part of a drop: the link goes and the change is recorded. -/
def dropMapping (externalId : PointIdType) : MutableIdTracker :=
  { tracker with
    mappings := (tracker.mappings.drop externalId).2
    pendingMappings := tracker.pendingMappings ++ [.delete externalId] }

/-- `MutableIdTracker::drop`. -/
def drop (externalId : PointIdType) : MutableIdTracker :=
  match (tracker.mappings.drop externalId).1 with
  | none => tracker.dropMapping externalId
  | some internalId =>
    (tracker.dropMapping externalId).setInternalVersion internalId deletedPointVersion

/-- `MutableIdTracker::drop_internal`. -/
def dropInternal (internalId : UInt32) : MutableIdTracker :=
  let dropped :=
    match tracker.mappings.externalId internalId with
    | none => tracker
    | some externalId => tracker.dropMapping externalId
  dropped.setInternalVersion internalId deletedPointVersion

/-- The flusher of the mappings for the changes it copied. A failed store cuts the file back
to the part that is known to be persisted. -/
def runMappingFlusher (files : TrackerFiles)
    (changes : List MappingChange) : OperationResult Unit × MutableIdTracker × TrackerFiles :=
  if changes.isEmpty then (.ok (), tracker, files)
  else
    match storeMappingChanges files.mappings changes tracker.mappingsExpectedLen with
    | .error error =>
      (.error error, tracker, { files with
          mappings := some (resize (files.mappings.getD []) tracker.mappingsExpectedLen 0) })
    | .ok (file, persistedLen) =>
      (.ok (), { tracker with
          mappingsExpectedLen := persistedLen
          pendingMappings := reconcilePersistedMappingChanges tracker.pendingMappings changes },
        { files with mappings := some file })

/-- The flusher of the versions for the changes it copied. -/
def runVersionsFlusher (files : TrackerFiles)
    (changes : AList fun _ : UInt32 => UInt64) : MutableIdTracker × TrackerFiles :=
  if changes.entries.isEmpty then (tracker, files)
  else
    ({ tracker with
        pendingVersions := reconcilePersistedVersionChanges tracker.pendingVersions changes },
      { files with versions := storeVersionChanges files.versions changes })

end MutableIdTracker

/-! ### Runs -/

/-- A tracker with its files and the flushers that were created and not yet run. -/
structure TrackerState where
  tracker : MutableIdTracker
  files : TrackerFiles
  mappingFlusher : Option (List MappingChange)
  versionsFlusher : Option (AList fun _ : UInt32 => UInt64)

/-- What can happen to a tracker. Creating a flusher drops an outstanding one. -/
inductive TrackerStep where
  | setLink (externalId : PointIdType) (internalId : UInt32)
  | drop (externalId : PointIdType)
  | dropInternal (internalId : UInt32)
  | setInternalVersion (internalId : UInt32) (version : UInt64)
  | createMappingFlusher
  | runMappingFlusher
  | createVersionsFlusher
  | runVersionsFlusher

namespace TrackerState

/-- A tracker opened without files. -/
def initial (deferredInternalId : Option UInt32) : TrackerState where
  tracker :=
    { internalToVersion := []
      mappings := PointMappings.new [] [] {} deferredInternalId
      pendingVersions := ∅
      pendingMappings := []
      mappingsExpectedLen := 0 }
  files := {}
  mappingFlusher := none
  versionsFlusher := none

/-- One step. -/
def step (state : TrackerState) : TrackerStep → TrackerState
  | .setLink externalId internalId =>
    { state with tracker := state.tracker.setLink externalId internalId }
  | .drop externalId => { state with tracker := state.tracker.drop externalId }
  | .dropInternal internalId => { state with tracker := state.tracker.dropInternal internalId }
  | .setInternalVersion internalId version =>
    { state with tracker := state.tracker.setInternalVersion internalId version }
  | .createMappingFlusher =>
    { state with mappingFlusher := some state.tracker.pendingMappings }
  | .runMappingFlusher =>
    match state.mappingFlusher with
    | none => state
    | some changes =>
      let (_, tracker, files) := state.tracker.runMappingFlusher state.files changes
      { state with tracker, files, mappingFlusher := none }
  | .createVersionsFlusher =>
    { state with versionsFlusher := some state.tracker.pendingVersions }
  | .runVersionsFlusher =>
    match state.versionsFlusher with
    | none => state
    | some changes =>
      let (tracker, files) := state.tracker.runVersionsFlusher state.files changes
      { state with tracker, files, versionsFlusher := none }

/-- A whole run. -/
def run (state : TrackerState) (steps : List TrackerStep) : TrackerState :=
  steps.foldl step state

/-- All changes are persisted. -/
def NothingPending (state : TrackerState) : Prop :=
  state.tracker.pendingMappings = [] ∧ state.tracker.pendingVersions.entries = []

instance (state : TrackerState) : Decidable state.NothingPending :=
  inferInstanceAs (Decidable (_ ∧ _))

end TrackerState

end Stratumind.IdTracker
