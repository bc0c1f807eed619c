import Stratumind.Sparse.PostingUpdates
import Stratumind.Lib.Assoc

/-!
# Runs of updates of the index in memory

A posting list under any sequence of builds, upserts and deletions holds what a finite map
holds, and its notes stay exact. The index of `inverted_index_ram.rs` under any sequence of
upserts and removals is the transpose of the live vectors, and its counters count them.
-/

namespace Stratumind

open List

variable {S : Type}

section Lists

variable [LinearOrder S]

/-- `PostingBuilder::build` without debug assertions: duplicate ids are not looked for. -/
def PostingList.buildUnchecked (records : List (ℕ × S)) : PostingList S :=
  ⟨(noteMaxNextWeights ⊥ ((records.map fun record =>
    PostingElementEx.new record.1 record.2).insertionSort
      fun left right => left.recordId ≤ right.recordId)).1⟩

variable {records : List (ℕ × S)}

/-- Where nothing was added twice, the check changes nothing. -/
theorem PostingList.buildUnchecked_eq {list : PostingList S}
    (h : build records = some list) : buildUnchecked records = list := by
  unfold build at h
  dsimp only at h
  split at h
  · exact Option.some.inj h
  · cases h

/-- An update of a posting list. -/
inductive PostingOperation (S : Type)
  | build (records : List (ℕ × S))
  | upsert (recordId : ℕ) (weight : S)
  | delete (recordId : ℕ)

namespace PostingOperation

/-- What the update does to a posting list; building starts a new one. -/
def apply (list : PostingList S) : PostingOperation S → PostingList S
  | build records => PostingList.buildUnchecked records
  | upsert recordId weight => list.upsert (PostingElementEx.new recordId weight)
  | delete recordId => list.delete recordId

/-- What the update does to a finite map. -/
def applyToMap (map : ℕ → Option S) : PostingOperation S → ℕ → Option S
  | build records =>
    records.foldl (fun map record => Function.update map record.1 (some record.2)) fun _ => none
  | upsert recordId weight => Function.update map recordId weight
  | delete recordId => Function.update map recordId none

/-- The posting list after some updates of an empty one. -/
def run (operations : List (PostingOperation S)) : PostingList S :=
  operations.foldl apply ⟨[]⟩

/-- The finite map after some updates of an empty one. -/
def runMap (operations : List (PostingOperation S)) : ℕ → Option S :=
  operations.foldl applyToMap fun _ => none

/-- No build gets an id twice. -/
def DistinctIds : PostingOperation S → Prop
  | build records => (records.map Prod.fst).Nodup
  | _ => True

end PostingOperation

/-- The list is ordered, holds the records of the map, and every element notes the maximal
weight of the elements after it. -/
structure PostingList.Exact (list : PostingList S) (map : ℕ → Option S) : Prop where
  increasing : list.elements.Pairwise fun left right => left.recordId < right.recordId
  records : ∀ id weight, (∃ e ∈ list.elements, e.recordId = id ∧ e.weight = weight) ↔
    map id = some weight
  maxNext : ∀ before e after, list.elements = before ++ e :: after →
    e.maxNextWeight = (after.map fun e => e.weight).maximum

theorem maxWeight_eq_maximum (elements : Elements S) :
    maxWeight elements = (elements.map fun e => e.weight).maximum := by
  induction elements with
  | nil => rfl
  | cons e elements ih =>
    change max (maxWeight elements) _ = _
    rw [ih, map_cons, maximum_cons, max_comm]

variable {elements : Elements S}

theorem pairwise_withMaxNext (h : Increasing elements) :
    (withMaxNext elements).Pairwise fun left right => left.recordId < right.recordId := by
  rw [← map_withMaxNext elements, Increasing, pairwise_map] at h
  exact h

theorem exists_mem_withMaxNext {id : ℕ} {weight : S} :
    (∃ e ∈ withMaxNext elements, e.recordId = id ∧ e.weight = weight) ↔
      ⟨id, weight⟩ ∈ elements := by
  nth_rewrite 2 [← map_withMaxNext elements]
  rw [mem_map]
  constructor
  · rintro ⟨e, he, rfl, rfl⟩
    exact ⟨e, he, rfl⟩
  grind

/-- The records of a map in increasing order. -/
structure Represents (elements : List (PostingElement S)) (map : ℕ → Option S) : Prop where
  increasing : Increasing elements
  mem_iff : ∀ id weight, ⟨id, weight⟩ ∈ elements ↔ map id = some weight

namespace Represents

variable {elements : Elements S} {map : ℕ → Option S}

theorem exact (h : Represents elements map) : PostingList.Exact ⟨withMaxNext elements⟩ map := by
  refine ⟨pairwise_withMaxNext h.increasing, fun id weight => ?_, fun before e after hsplit => ?_⟩
  · rw [← h.mem_iff]
    exact exists_mem_withMaxNext
  dsimp only at hsplit
  have hdrop := drop_withMaxNext elements before.length
  rw [hsplit, drop_left] at hdrop
  -- the element with what follows it is the end of the list with its notes
  cases hrest : elements.drop before.length with
  | nil => simp [hrest, withMaxNext] at hdrop
  | cons first rest =>
    rw [hrest, withMaxNext, List.cons.injEq] at hdrop
    obtain ⟨rfl, rfl⟩ := hdrop
    rw [maxWeight_eq_maximum]
    nth_rewrite 1 [← map_withMaxNext rest]
    rw [map_map]
    rfl

omit [LinearOrder S] in
theorem dropRecord (h : Represents elements map) (id : ℕ) :
    Represents (dropRecord id elements) (Function.update map id none) := by
  refine ⟨h.increasing.dropRecord id, fun other weight => ?_⟩
  rw [mem_dropRecord, h.mem_iff]
  by_cases heq : other = id
  · simp [heq]
  · simp [heq]

omit [LinearOrder S] in
theorem putRecord (h : Represents elements map) (id : ℕ) (weight : S) :
    Represents (putRecord id weight elements) (Function.update map id weight) := by
  refine ⟨h.increasing.putRecord id weight, fun other otherWeight => ?_⟩
  rw [mem_putRecord, h.mem_iff]
  by_cases heq : other = id
  · simp [heq, eq_comm]
  · simp [heq]

end Represents

omit [LinearOrder S] in
/-- A map that is filled with distinct records holds exactly them. -/
theorem foldl_update_eq_some (hnodup : (records.map Prod.fst).Nodup) (map : ℕ → Option S) (id : ℕ)
    (weight : S) :
    records.foldl (fun (map : ℕ → Option S) record =>
        Function.update map record.1 (some record.2)) map id = some weight ↔
      (id, weight) ∈ records ∨ id ∉ records.map Prod.fst ∧ map id = some weight := by
  induction records generalizing map with
  | nil => simp
  | cons record records ih =>
    obtain ⟨hnotMem, hrest⟩ := nodup_cons.mp hnodup
    rw [foldl_cons, ih hrest]
    grind

theorem represents_build (hnodup : (records.map Prod.fst).Nodup) :
    ∃ elements, PostingList.buildUnchecked records = ⟨withMaxNext elements⟩ ∧
      Represents elements (PostingOperation.applyToMap (fun _ => none) (.build records)) := by
  obtain ⟨elements, hbuild, hinc, hperm⟩ := PostingList.build_withMaxNext hnodup
  refine ⟨elements, PostingList.buildUnchecked_eq hbuild, hinc, fun id weight => ?_⟩
  rw [hperm.mem_iff, PostingOperation.applyToMap, foldl_update_eq_some hnodup]
  simp

/-- One update keeps the notes exact. -/
theorem PostingOperation.apply_represents {map : ℕ → Option S} (h : Represents elements map)
    {operation : PostingOperation S} (hdistinct : operation.DistinctIds) :
    ∃ next, apply ⟨withMaxNext elements⟩ operation = ⟨withMaxNext next⟩ ∧
      Represents next (applyToMap map operation) := by
  cases operation with
  | build records => exact represents_build hdistinct
  | upsert id weight =>
    exact ⟨_, PostingList.upsert_withMaxNext h.increasing id weight, h.putRecord id weight⟩
  | delete id => exact ⟨_, PostingList.delete_withMaxNext h.increasing id, h.dropRecord id⟩

/-- After any sequence of builds of distinct records, upserts and deletions, the posting list
is ordered, holds the records of the finite map, and all its notes are exact. -/
theorem posting_list_run_exact (operations : List (PostingOperation S))
    (hdistinct : ∀ operation ∈ operations, operation.DistinctIds) :
    (PostingOperation.run operations).Exact (PostingOperation.runMap operations) := by
  suffices h : ∃ elements, PostingOperation.run operations = ⟨withMaxNext elements⟩ ∧
      Represents elements (PostingOperation.runMap operations) by
    obtain ⟨elements, hrun, hrepresents⟩ := h
    rw [hrun]
    exact hrepresents.exact
  induction operations using reverseRecOn with
  | nil => exact ⟨[], rfl, Pairwise.nil, by simp [PostingOperation.runMap]⟩
  | append_singleton operations operation ih =>
    obtain ⟨hbefore, hlast⟩ := forall_mem_append.mp hdistinct
    obtain ⟨elements, hrun, hrepresents⟩ := ih hbefore
    unfold PostingOperation.run at hrun ⊢
    unfold PostingOperation.runMap at hrepresents ⊢
    rw [foldl_append, foldl_append, hrun]
    exact PostingOperation.apply_represents hrepresents (hlast operation (by simp))

end Lists

/-- A list that is built, then overwritten at its end and shortened. -/
theorem posting_list_run_exact_three :
    (PostingOperation.run [.build [(2, 5), (1, (3 : ℤ))], .upsert 2 1, .delete 1]).Exact
      (PostingOperation.runMap [.build [(2, 5), (1, 3)], .upsert 2 1, .delete 1]) :=
  posting_list_run_exact _ (by simp [PostingOperation.DistinctIds])

/-- A release build keeps both records of an id that was added twice. -/
theorem posting_list_duplicate_ids :
    ¬(PostingOperation.run [.build [(5, 1), (5, (2 : ℤ))]]).Exact
      (PostingOperation.runMap [.build [(5, 1), (5, 2)]]) := by
  intro h
  have hincreasing := h.increasing
  revert hincreasing
  decide

section Index

/-- The checks of `RemappedSparseVector::validate`. -/
structure RemappedSparseVector.Valid (vector : RemappedSparseVector S) : Prop where
  length_eq : vector.indices.length = vector.values.length
  unique : vector.indices.Nodup

variable {vector : RemappedSparseVector S}

theorem RemappedSparseVector.Valid.map_fst_terms
    (h : vector.Valid) : vector.terms.map Prod.fst = vector.indices :=
  map_fst_zip (by rw [h.length_eq])

/-- `size_of::<PostingElementEx>()`: an id and two weights of four bytes. -/
def sizeOfPostingElementEx : ℕ := 12

/-- The size of a vector in the index. -/
def RemappedSparseVector.sparseSize (vector : RemappedSparseVector S) : ℕ :=
  vector.indices.length * sizeOfPostingElementEx

/-- The inverted index in memory with its counters. -/
structure CountedIndexRam (S : Type) extends InvertedIndexRam S where
  vectorCount : ℕ
  totalSparseSize : ℕ
  deriving DecidableEq

variable [LinearOrder S]

namespace CountedIndexRam

/-- `InvertedIndexRam::empty` with its counters. -/
def empty : CountedIndexRam S := ⟨InvertedIndexRam.empty, 0, 0⟩

/-- `InvertedIndexRam::upsert` with its counters; the subtraction saturates. -/
def upsert (id : ℕ) (vector : RemappedSparseVector S)
    (oldVector : Option (RemappedSparseVector S)) (index : CountedIndexRam S) : CountedIndexRam S :=
  let postings := index.toInvertedIndexRam.upsert id vector oldVector
  match oldVector with
  | some old =>
    ⟨postings, index.vectorCount, index.totalSparseSize - old.sparseSize + vector.sparseSize⟩
  | none => ⟨postings, index.vectorCount + 1, index.totalSparseSize + vector.sparseSize⟩

/-- `InvertedIndexRam::remove` with its counters; both subtractions saturate. -/
def remove (id : ℕ) (oldVector : RemappedSparseVector S) (index : CountedIndexRam S) :
    CountedIndexRam S :=
  ⟨index.toInvertedIndexRam.remove id oldVector, index.vectorCount - 1,
    index.totalSparseSize - oldVector.sparseSize⟩

end CountedIndexRam

/-- The live vectors by their ids. -/
abbrev LiveVectors (S : Type) := AList fun _ : ℕ => RemappedSparseVector S

/-- A call that updates the index. -/
inductive IndexCall (S : Type)
  | upsert (id : ℕ) (vector : RemappedSparseVector S) (oldVector : Option (RemappedSparseVector S))
  | remove (id : ℕ) (oldVector : RemappedSparseVector S)

namespace IndexCall

/-- What the call does to the index. -/
def apply (index : CountedIndexRam S) : IndexCall S → CountedIndexRam S
  | upsert id vector oldVector => index.upsert id vector oldVector
  | remove id oldVector => index.remove id oldVector

/-- What the call does to the live vectors. -/
def applyToLive (live : LiveVectors S) : IndexCall S → LiveVectors S
  | upsert id vector _ => live.insert id vector
  | remove id _ => live.erase id

/-- The call names the vector that is stored under the id. -/
def NamesStored (live : LiveVectors S) : IndexCall S → Prop
  | upsert id vector oldVector => live.lookup id = oldVector ∧ vector.Valid
  | remove id oldVector => live.lookup id = some oldVector

/-- No subtraction of the call saturates. -/
def Unsaturated (index : CountedIndexRam S) : IndexCall S → Prop
  | upsert _ _ oldVector => ∀ old ∈ oldVector, old.sparseSize ≤ index.totalSparseSize
  | remove _ oldVector => oldVector.sparseSize ≤ index.totalSparseSize ∧ 1 ≤ index.vectorCount

/-- Every call names the vector that is stored when it is made. -/
def AllNameStored (live : LiveVectors S) : List (IndexCall S) → Prop
  | [] => True
  | call :: calls => call.NamesStored live ∧ AllNameStored (call.applyToLive live) calls

/-- No subtraction of a sequence of calls saturates. -/
def AllUnsaturated (index : CountedIndexRam S) : List (IndexCall S) → Prop
  | [] => True
  | call :: calls => call.Unsaturated index ∧ AllUnsaturated (call.apply index) calls

/-- The index after some calls on an empty one. -/
def run (calls : List (IndexCall S)) : CountedIndexRam S :=
  calls.foldl apply CountedIndexRam.empty

/-- The live vectors after some calls. -/
def runLive (calls : List (IndexCall S)) : LiveVectors S :=
  calls.foldl applyToLive ∅

end IndexCall

/-- The index is the transpose of the live vectors, and its counters count them. -/
structure CountedIndexRam.Transposes (index : CountedIndexRam S) (live : LiveVectors S) :
    Prop where
  increasing : ∀ list ∈ index.postings,
    list.elements.Pairwise fun left right => left.recordId < right.recordId
  records : ∀ dim id weight,
    (∃ list, index.postings[dim]? = some list ∧
      ∃ e ∈ list.elements, e.recordId = id ∧ e.weight = weight) ↔
    ∃ vector, live.lookup id = some vector ∧ (dim, weight) ∈ vector.terms
  vectorCount : index.vectorCount = live.keys.length
  totalSparseSize : index.totalSparseSize =
    (live.entries.map fun entry => entry.2.sparseSize).sum

/-- The posting list of every dimension holds the records that the relation says. -/
def InvertedIndexRam.Holds (index : InvertedIndexRam S)
    (records : ℕ → PostingElement S → Prop) : Prop :=
  ∀ dim, ∃ elements, index.postings[dim]?.getD ⟨[]⟩ = ⟨withMaxNext elements⟩ ∧
    Increasing elements ∧ ∀ e, e ∈ elements ↔ records dim e

namespace InvertedIndexRam.Holds

variable {index : InvertedIndexRam S} {records : ℕ → PostingElement S → Prop}

/-- A dimension that the index does not reach has no records. -/
theorem eq_nil {elements : Elements S}
    (h : (⟨[]⟩ : PostingList S) = ⟨withMaxNext elements⟩) : elements = [] := by
  cases elements with
  | nil => rfl
  | cons e elements => cases h

private theorem getElem?_grown {α : Type} (list : List α) (empty last : α) {dim : ℕ}
    (hdim : list.length ≤ dim) (d : ℕ) :
    (list ++ List.replicate (dim - list.length) empty ++ [last])[d]?.getD empty =
      if d = dim then last else list[d]?.getD empty := by
  grind

variable (h : index.Holds records)

include h

theorem congr {records' : ℕ → PostingElement S → Prop}
    (hiff : ∀ dim e, records dim e ↔ records' dim e) : index.Holds records' := by
  intro dim
  obtain ⟨elements, hget, hinc, hmem⟩ := h dim
  exact ⟨elements, hget, hinc, fun e => (hmem e).trans (hiff dim e)⟩

theorem delete (id dim : ℕ) :
    (InvertedIndexRam.mk (index.postings.modify dim (PostingList.delete id))).Holds
      fun d e => records d e ∧ ¬(e.recordId = id ∧ d = dim) := by
  intro d
  obtain ⟨elements, hget, hinc, hmem⟩ := h d
  by_cases heq : dim = d
  · refine ⟨dropRecord id elements, ?_, hinc.dropRecord id, fun e => by simp [hmem, heq]⟩
    rw [← PostingList.delete_withMaxNext hinc, ← hget, heq]
    cases hlist : index.postings[d]? with
    | none =>
      simp only [getElem?_modify, hlist]
      rfl
    | some list => simp [hlist]
  grind

theorem deleteFrom (id : ℕ) (dims : List ℕ) :
    (index.deleteFrom id dims).Holds
      fun d e => records d e ∧ ¬(e.recordId = id ∧ d ∈ dims) := by
  induction dims generalizing index records with
  | nil => exact h.congr (by simp)
  | cons dim dims ih =>
    refine (ih (h.delete id dim)).congr fun d e => ?_
    simp only [mem_cons]
    tauto

theorem insertInto (id dim : ℕ) (weight : S) :
    (index.insertInto id (dim, weight)).Holds fun d e =>
      e = ⟨id, weight⟩ ∧ d = dim ∨ records d e ∧ ¬(e.recordId = id ∧ d = dim) := by
  intro d
  obtain ⟨elements, hget, hinc, hmem⟩ := h d
  have hput : ∀ e, e ∈ putRecord id weight elements ↔
      e = ⟨id, weight⟩ ∨ records d e ∧ e.recordId ≠ id := fun e => by rw [mem_putRecord, hmem]
  unfold InvertedIndexRam.insertInto
  by_cases heq : dim = d
  · subst heq
    refine ⟨putRecord id weight elements, ?_, hinc.putRecord id weight, fun e => by simp [hput]⟩
    split
    · rename_i hlt
      rw [← PostingList.upsert_withMaxNext hinc, ← hget]
      simp [hlt]
    rename_i hge
    rw [getElem?_eq_none (Nat.not_lt.mp hge)] at hget
    rw [getElem?_grown _ _ _ (Nat.not_lt.mp hge), if_pos rfl, eq_nil hget]
    rfl
  grind

/-- The terms of a vector with distinct dimensions replace the records of its id there. -/
theorem foldl_insertInto (id : ℕ) {terms : List (ℕ × S)} (hunique : (terms.map Prod.fst).Nodup) :
    (terms.foldl (InvertedIndexRam.insertInto id) index).Holds fun d e =>
      e.recordId = id ∧ (d, e.weight) ∈ terms ∨
        records d e ∧ ¬(e.recordId = id ∧ d ∈ terms.map Prod.fst) := by
  induction terms generalizing index records with
  | nil => exact h.congr (by simp)
  | cons term terms ih =>
    obtain ⟨dim, weight⟩ := term
    obtain ⟨hnotMem, hrest⟩ := nodup_cons.mp hunique
    refine (ih (h.insertInto id dim weight) hrest).congr fun d e => ?_
    obtain ⟨recordId, recordWeight⟩ := e
    grind

/-- Upserting replaces the records of the old vector by those of the new one. -/
theorem upsert (id : ℕ) (hvalid : vector.Valid) (oldVector : Option (RemappedSparseVector S))
    (hold : ∀ d weight, records d ⟨id, weight⟩ → ∃ old, oldVector = some old ∧ d ∈ old.indices) :
    (index.upsert id vector oldVector).Holds fun d e =>
      e.recordId = id ∧ (d, e.weight) ∈ vector.terms ∨ records d e ∧ e.recordId ≠ id := by
  have hunique : (vector.terms.map Prod.fst).Nodup := by
    rw [hvalid.map_fst_terms]
    exact hvalid.unique
  refine ((h.deleteFrom id _).foldl_insertInto id hunique).congr fun d e => ?_
  obtain ⟨recordId, weight⟩ := e
  rw [hvalid.map_fst_terms]
  grind

end InvertedIndexRam.Holds

variable {live : LiveVectors S}

omit [LinearOrder S] in
private theorem sum_erase_of_lookup {id : ℕ} (h : live.lookup id = some vector) :
    (live.entries.map fun entry => entry.2.sparseSize).sum =
        vector.sparseSize + ((live.erase id).entries.map fun entry => entry.2.sparseSize).sum ∧
      live.keys.length = (live.erase id).keys.length + 1 := by
  have hmem : id ∈ List.keys live.entries := AList.lookup_isSome.mp (by rw [h]; rfl)
  obtain ⟨stored, before, after, -, hentries, herase⟩ := exists_of_kerase hmem
  have hstored : stored = vector := by
    have hlookup : live.lookup id = some stored := by
      refine AList.mem_lookup_iff.mpr ?_
      rw [hentries]
      simp
    rw [h] at hlookup
    exact (Option.some.inj hlookup).symm
  have hkept : (live.erase id).entries = before ++ after := herase
  simp only [AList.keys, List.keys, hkept, hentries, hstored, map_append, map_cons,
    sum_append, sum_cons, length_append, length_cons]
  omega

omit [LinearOrder S] in
private theorem erase_of_lookup_none {id : ℕ} (h : live.lookup id = none) : live.erase id = live :=
  AList.ext (kerase_of_notMem_keys (AList.lookup_eq_none.mp h))

omit [LinearOrder S] in
private theorem sum_insert (live : LiveVectors S) (id : ℕ) (vector : RemappedSparseVector S) :
    ((live.insert id vector).entries.map fun entry => entry.2.sparseSize).sum =
        vector.sparseSize + ((live.erase id).entries.map fun entry => entry.2.sparseSize).sum ∧
      (live.insert id vector).keys.length = (live.erase id).keys.length + 1 :=
  ⟨rfl, rfl⟩

/-- The index holds the live vectors, which are valid, and its counters count them. -/
structure CountedIndexRam.Indexes (index : CountedIndexRam S) (live : LiveVectors S) : Prop where
  holds : index.toInvertedIndexRam.Holds fun dim e =>
    ∃ vector, live.lookup e.recordId = some vector ∧ (dim, e.weight) ∈ vector.terms
  valid : ∀ id vector, live.lookup id = some vector → vector.Valid
  vectorCount : index.vectorCount = live.keys.length
  totalSparseSize : index.totalSparseSize =
    (live.entries.map fun entry => entry.2.sparseSize).sum

namespace CountedIndexRam.Indexes

variable {index : CountedIndexRam S} {live : LiveVectors S} {id : ℕ}

section

variable (h : index.Indexes live)

include h

/-- The old vector has every dimension under which its id is recorded. -/
private theorem mem_indices {dim : ℕ} {weight : S} (hlookup : live.lookup id = some vector)
    (hterm : (dim, weight) ∈ vector.terms) : dim ∈ vector.indices := by
  rw [← (h.valid id vector hlookup).map_fst_terms]
  exact mem_map.mpr ⟨(dim, weight), hterm, rfl⟩

theorem upsert (hvalid : vector.Valid) :
    (index.upsert id vector (live.lookup id)).Indexes (live.insert id vector) := by
  have hholds : (index.toInvertedIndexRam.upsert id vector (live.lookup id)).Holds fun dim e =>
      ∃ stored, (live.insert id vector).lookup e.recordId = some stored ∧
        (dim, e.weight) ∈ stored.terms := by
    refine (h.holds.upsert id hvalid (live.lookup id) ?_).congr fun dim e => ?_
    · rintro dim weight ⟨old, hlookup, hterm⟩
      exact ⟨old, hlookup, h.mem_indices hlookup hterm⟩
    simp only [Lib.lookup_insert]
    split <;> simp [*]
  have hvalidAll : ∀ other stored, (live.insert id vector).lookup other = some stored →
      stored.Valid := by
    intro other stored hlookup
    grind [h.valid]
  obtain ⟨hsum, hcount⟩ := sum_insert live id vector
  have htotal := h.totalSparseSize
  have hvectors := h.vectorCount
  unfold CountedIndexRam.upsert
  cases hold : live.lookup id with
  | none =>
    rw [hold] at hholds
    rw [erase_of_lookup_none hold] at hsum hcount
    refine ⟨hholds, hvalidAll, ?_, ?_⟩ <;> dsimp only <;> omega
  | some old =>
    rw [hold] at hholds
    obtain ⟨hsumOld, hcountOld⟩ := sum_erase_of_lookup hold
    refine ⟨hholds, hvalidAll, ?_, ?_⟩ <;> dsimp only <;> omega

theorem remove {old : RemappedSparseVector S} (hold : live.lookup id = some old) :
    (index.remove id old).Indexes (live.erase id) := by
  obtain ⟨hsum, hcount⟩ := sum_erase_of_lookup hold
  have htotal := h.totalSparseSize
  have hvectors := h.vectorCount
  refine ⟨(h.holds.deleteFrom id old.indices).congr fun dim e => ?_, fun other stored hlookup => ?_,
    ?_, ?_⟩
  · obtain ⟨recordId, weight⟩ := e
    by_cases hid : recordId = id
    · subst hid
      have hgone : (dim, weight) ∈ old.terms → dim ∈ old.indices := h.mem_indices hold
      simpa [hold] using hgone
    · simp [hid]
  · rw [Lib.lookup_erase] at hlookup
    grind [h.valid]
  · unfold CountedIndexRam.remove
    dsimp only
    omega
  · unfold CountedIndexRam.remove
    dsimp only
    omega

theorem unsaturated {call : IndexCall S} (hcall : call.NamesStored live) :
    call.Unsaturated index := by
  have htotal := h.totalSparseSize
  have hvectors := h.vectorCount
  cases call with
  | upsert id vector oldVector =>
    rintro old hmem
    obtain ⟨hsum, -⟩ := sum_erase_of_lookup (hcall.1.trans hmem)
    omega
  | remove id old =>
    obtain ⟨hsum, hcount⟩ := sum_erase_of_lookup hcall
    constructor <;> omega

theorem apply {call : IndexCall S} (hcall : call.NamesStored live) :
    (call.apply index).Indexes (call.applyToLive live) := by
  cases call with
  | upsert id vector oldVector =>
    obtain ⟨rfl, hvalid⟩ := hcall
    exact h.upsert hvalid
  | remove id old => exact h.remove hcall

theorem transposes : index.Transposes live := by
  refine ⟨fun list hlist => ?_, fun dim id weight => ?_, h.vectorCount, h.totalSparseSize⟩
  · obtain ⟨dim, hdim⟩ := getElem?_of_mem hlist
    obtain ⟨elements, hget, hinc, -⟩ := h.holds dim
    rw [hdim, Option.getD_some] at hget
    rw [hget]
    exact pairwise_withMaxNext hinc
  obtain ⟨elements, hget, -, hmem⟩ := h.holds dim
  have hrecords := (@exists_mem_withMaxNext S _ elements id weight).trans (hmem ⟨id, weight⟩)
  refine Iff.trans ?_ hrecords
  constructor
  · rintro ⟨list, hlist, hfound⟩
    rw [hlist, Option.getD_some] at hget
    rwa [hget] at hfound
  intro hfound
  cases hlist : index.postings[dim]? with
  | none =>
    rw [hlist] at hget
    rw [InvertedIndexRam.Holds.eq_nil hget] at hfound
    simp [withMaxNext] at hfound
  | some list =>
    rw [hlist, Option.getD_some] at hget
    exact ⟨list, rfl, by rwa [hget]⟩

end

end CountedIndexRam.Indexes

theorem CountedIndexRam.indexes_empty : (empty : CountedIndexRam S).Indexes ∅ := by
  refine ⟨fun dim => ⟨[], rfl, Pairwise.nil, fun e => by simp⟩, fun id vector hlookup => ?_,
    rfl, rfl⟩
  simp at hlookup

/-- A run of calls keeps the invariant, and none of its subtractions saturates. -/
theorem CountedIndexRam.Indexes.run {index : CountedIndexRam S} (h : index.Indexes live)
    {calls : List (IndexCall S)} (hnames : IndexCall.AllNameStored live calls) :
    (calls.foldl IndexCall.apply index).Indexes (calls.foldl IndexCall.applyToLive live) ∧
      IndexCall.AllUnsaturated index calls := by
  induction calls generalizing index live with
  | nil => exact ⟨h, trivial⟩
  | cons call calls ih =>
    obtain ⟨hcall, hcalls⟩ := hnames
    obtain ⟨hrun, hrest⟩ := ih (h.apply hcall) hcalls
    exact ⟨hrun, h.unsaturated hcall, hrest⟩

/-- Along every sequence of calls that name the vector stored under their id, the index is the
transpose of the live vectors, its counters count them, and no subtraction saturates. -/
theorem inverted_index_transposes (calls : List (IndexCall S))
    (hnames : IndexCall.AllNameStored ∅ calls) :
    (IndexCall.run calls).Transposes (IndexCall.runLive calls) ∧
      IndexCall.AllUnsaturated CountedIndexRam.empty calls := by
  obtain ⟨hindexes, hunsaturated⟩ := CountedIndexRam.indexes_empty.run hnames
  exact ⟨hindexes.transposes, hunsaturated⟩

end Index

private def thinVector : RemappedSparseVector ℤ := ⟨[3, 0], [7, 2]⟩

private def wideVector : RemappedSparseVector ℤ := ⟨[0, 1, 2], [2, 4, 4]⟩

private def replaceAndRemove : List (IndexCall ℤ) :=
  [.upsert 4 thinVector none, .upsert 4 wideVector (some thinVector), .remove 4 wideVector]

/-- A vector that is replaced by a longer one, and then removed. -/
theorem inverted_index_transposes_three :
    (IndexCall.run replaceAndRemove).Transposes (IndexCall.runLive replaceAndRemove) ∧
      IndexCall.AllUnsaturated CountedIndexRam.empty replaceAndRemove := by
  have hthin : thinVector.Valid := ⟨by decide, by decide⟩
  have hwide : wideVector.Valid := ⟨by decide, by decide⟩
  have hnames : IndexCall.AllNameStored ∅ replaceAndRemove :=
    ⟨⟨rfl, hthin⟩, ⟨rfl, hwide⟩, rfl, trivial⟩
  exact inverted_index_transposes replaceAndRemove hnames

end Stratumind
