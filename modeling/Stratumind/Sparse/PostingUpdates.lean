import Stratumind.Common.Iter
import Stratumind.Sparse.PlainPlan

/-!
# Updates of the index in memory

Insertion into and removal from the posting lists of `posting_list.rs`, the index of
`inverted_index_ram.rs` and its builder. Every element notes the maximal weight of the
elements after it; the updates only rewrite the notes to the left of the place they change.
-/

namespace Stratumind

open Lib List

variable {S : Type}

section Model

variable [LinearOrder S]

/-- `PostingElementEx::new`: the maximal next weight has to be noted at insertion. -/
def PostingElementEx.new (recordId : ℕ) (weight : S) : PostingElementEx S :=
  ⟨⟨recordId, weight⟩, ⊥⟩

/-- Notes the maximal next weights from the right end of a slice to the left, beginning with
the given maximum, and returns the maximum it ends with. -/
def noteMaxNextWeights (start : WithBot S) :
    List (PostingElementEx S) → List (PostingElementEx S) × WithBot S
  | [] => ([], start)
  | element :: elements =>
    let (elements, maxNextWeight) := noteMaxNextWeights start elements
    ({ element with maxNextWeight } :: elements, max maxNextWeight element.weight)

/-- Propagates the maximal next weight from the entry at `upToIndex` to the previous ones. -/
def propagateMaxNextWeightToTheLeft (upToIndex : ℕ) (elements : List (PostingElementEx S)) :
    List (PostingElementEx S) :=
  match elements[upToIndex]? with
  | none => elements
  | some starting =>
    (noteMaxNextWeights (max starting.maxNextWeight starting.weight)
      (elements.take upToIndex)).1 ++ elements.drop upToIndex

namespace PostingList

/-- A posting list with a single element. -/
def newOne (recordId : ℕ) (weight : S) : PostingList S :=
  ⟨[PostingElementEx.new recordId weight]⟩

/-- Removes the element of a record. -/
def delete (recordId : ℕ) (list : PostingList S) : PostingList S :=
  match binarySearchByKey (fun e => e.recordId) recordId list.elements with
  | .ok foundIndex =>
    let elements := list.elements.eraseIdx foundIndex
    let elements := elements.modify (elements.length - 1) fun last =>
      { last with maxNextWeight := ⊥ }
    if foundIndex < elements.length then ⟨propagateMaxNextWeightToTheLeft foundIndex elements⟩
    else if !elements.isEmpty then
      ⟨propagateMaxNextWeightToTheLeft (elements.length - 1) elements⟩
    else ⟨elements⟩
  | .error _ => list

/-- Inserts an element or replaces the weight of its record. -/
def upsert (element : PostingElementEx S) (list : PostingList S) : PostingList S :=
  match binarySearchByKey (fun e => e.recordId) element.recordId list.elements with
  | .ok foundIndex =>
    if list.elements[foundIndex]?.any (fun found => found.weight = element.weight) then list
    else
      ⟨propagateMaxNextWeightToTheLeft foundIndex (list.elements.modify foundIndex fun found =>
        { found with weight := element.weight })⟩
  | .error insertIndex =>
    let elements := list.elements.insertIdx insertIndex element
    ⟨propagateMaxNextWeightToTheLeft
      (if insertIndex = elements.length - 1 then insertIndex else insertIndex + 1) elements⟩

/-- `PostingBuilder::build` of the added records; a record that was added twice panics. -/
def build (records : List (ℕ × S)) : Option (PostingList S) :=
  let elements := (records.map fun record => PostingElementEx.new record.1 record.2).insertionSort
    fun left right => left.recordId ≤ right.recordId
  if (elements.map fun e => e.recordId).Nodup then some ⟨(noteMaxNextWeights ⊥ elements).1⟩
  else none

end PostingList

namespace InvertedIndexRam

/-- New empty inverted index. -/
def empty : InvertedIndexRam S := ⟨[]⟩

/-- Deletes a record from the posting lists of the dimensions. -/
def deleteFrom (id : ℕ) (dims : List ℕ) (index : InvertedIndexRam S) : InvertedIndexRam S :=
  dims.foldl (fun index dim => ⟨index.postings.modify dim (PostingList.delete id)⟩) index

/-- Stores the weight of a record in a dimension, with empty lists for the gaps. -/
def insertInto (id : ℕ) (index : InvertedIndexRam S) (term : ℕ × S) : InvertedIndexRam S :=
  if term.1 < index.postings.length then
    ⟨index.postings.modify term.1 (PostingList.upsert (PostingElementEx.new id term.2))⟩
  else
    ⟨index.postings ++ List.replicate (term.1 - index.postings.length) ⟨[]⟩ ++
      [PostingList.newOne id term.2]⟩

/-- Upserts a vector; the dimensions that only the old vector has are deleted. -/
def upsert (id : ℕ) (vector : RemappedSparseVector S) (oldVector : Option (RemappedSparseVector S))
    (index : InvertedIndexRam S) : InvertedIndexRam S :=
  let dropped := (oldVector.map RemappedSparseVector.indices).getD []
  let index := index.deleteFrom id (dropped.filter fun dim => !vector.indices.contains dim)
  vector.terms.foldl (insertInto id) index

/-- Removes a vector. -/
def remove (id : ℕ) (oldVector : RemappedSparseVector S) (index : InvertedIndexRam S) :
    InvertedIndexRam S :=
  index.deleteFrom id oldVector.indices

/-- `InvertedIndexBuilder::add`: one more record for every dimension of the vector. -/
def addVector (builders : List (List (ℕ × S))) (point : ℕ × RemappedSparseVector S) :
    List (List (ℕ × S)) :=
  point.2.terms.foldl (fun builders term =>
    (builders ++ List.replicate (term.1 + 1 - builders.length) []).modify term.1
      (· ++ [(point.1, term.2)])) builders

/-- `InvertedIndexBuilder::build_from_iterator`. -/
def buildFromIterator (points : List (ℕ × RemappedSparseVector S)) : Option (InvertedIndexRam S) :=
  ((points.foldl addVector []).mapM PostingList.build).map fun postings => ⟨postings⟩

/-- The indices that the builder and the updates lead to. -/
inductive Reachable : InvertedIndexRam S → Prop
  | empty : Reachable empty
  | built {points : List (ℕ × RemappedSparseVector S)} {index : InvertedIndexRam S} :
    (∀ point ∈ points, point.1 ≤ pointOffsetMax) → buildFromIterator points = some index →
    Reachable index
  | upsert {index : InvertedIndexRam S} {id : ℕ} (vector : RemappedSparseVector S)
    (oldVector : Option (RemappedSparseVector S)) : Reachable index → id ≤ pointOffsetMax →
    Reachable (index.upsert id vector oldVector)
  | remove {index : InvertedIndexRam S} (id : ℕ) (oldVector : RemappedSparseVector S) :
    Reachable index → Reachable (index.remove id oldVector)

end InvertedIndexRam

end Model

section Notes

variable [LinearOrder S] (elements : Elements S)

/-- The maximal weight of a list. -/
def maxWeight : WithBot S :=
  elements.foldr (fun e maximum => max maximum e.weight) ⊥

/-- No weight exceeds the maximum. -/
theorem le_maxWeight {elements : Elements S} {e : PostingElement S}
    (he : e ∈ elements) : (e.weight : WithBot S) ≤ maxWeight elements := by
  induction elements with
  | nil => cases he
  | cons first elements ih =>
    rcases mem_cons.mp he with rfl | he
    · exact le_max_right _ _
    · exact (ih he).trans (le_max_left _ _)

/-- Every element with the maximal weight of the elements after it. -/
def withMaxNext : List (PostingElement S) → List (PostingElementEx S)
  | [] => []
  | e :: elements => ⟨e, maxWeight elements⟩ :: withMaxNext elements

/-- The notes leave the elements as they are. -/
@[simp] theorem map_withMaxNext :
    (withMaxNext elements).map PostingElementEx.toPostingElement = elements := by
  induction elements with
  | nil => rfl
  | cons e elements ih => simp [withMaxNext, ih]

/-- There is a note for each element. -/
@[simp] theorem length_withMaxNext : (withMaxNext elements).length = elements.length := by
  rw [← length_map (f := PostingElementEx.toPostingElement), map_withMaxNext]

/-- The notes look ahead only, so those of a tail are its own. -/
theorem drop_withMaxNext (n : ℕ) :
    (withMaxNext elements).drop n = withMaxNext (elements.drop n) := by
  induction elements generalizing n with
  | nil => simp [withMaxNext]
  | cons e elements ih =>
    cases n with
    | zero => rfl
    | succ n => exact ih n

/-- The notes of the last part of a list do not depend on what stands before it. -/
theorem withMaxNext_append (before after : Elements S) :
    ∃ noted, withMaxNext (before ++ after) = noted ++ withMaxNext after ∧
      noted.map PostingElementEx.toPostingElement = before := by
  induction before with
  | nil => exact ⟨[], rfl, rfl⟩
  | cons e before ih =>
    obtain ⟨noted, hnoted, hbefore⟩ := ih
    refine ⟨⟨e, maxWeight (before ++ after)⟩ :: noted, ?_, ?_⟩
    · rw [cons_append, withMaxNext, hnoted, cons_append]
    · rw [map_cons, hbefore]

/-- Noting from the right completes notes that are right behind the slice. -/
theorem noteMaxNextWeights_append (elements : List (PostingElementEx S)) (after : Elements S) :
    (noteMaxNextWeights (maxWeight after) elements).1 ++ withMaxNext after =
        withMaxNext (elements.map PostingElementEx.toPostingElement ++ after) ∧
      (noteMaxNextWeights (maxWeight after) elements).2 =
        maxWeight (elements.map PostingElementEx.toPostingElement ++ after) := by
  induction elements with
  | nil => exact ⟨rfl, rfl⟩
  | cons element elements ih =>
    obtain ⟨hnotes, hmax⟩ := ih
    constructor
    · change _ :: (_ ++ _) = ⟨element.toPostingElement,
        maxWeight (elements.map PostingElementEx.toPostingElement ++ after)⟩ ::
        withMaxNext (elements.map PostingElementEx.toPostingElement ++ after)
      rw [hnotes, hmax]
    · change max (noteMaxNextWeights (maxWeight after) elements).2 _ =
        max (maxWeight (elements.map PostingElementEx.toPostingElement ++ after)) _
      rw [hmax]

/-- Propagating from an entry with a right note makes all notes to the left right. -/
theorem propagate_eq {before : List (PostingElementEx S)} {e : PostingElement S}
    {after : Elements S} {upToIndex : ℕ} (hindex : upToIndex = before.length) :
    propagateMaxNextWeightToTheLeft upToIndex (before ++ withMaxNext (e :: after)) =
      withMaxNext (before.map PostingElementEx.toPostingElement ++ e :: after) := by
  subst hindex
  have hget : (before ++ withMaxNext (e :: after))[before.length]? =
      some ⟨e, maxWeight after⟩ := by
    rw [getElem?_append_right (Nat.le_refl _), Nat.sub_self]
    rfl
  unfold propagateMaxNextWeightToTheLeft
  rw [hget]
  rw [take_left, drop_left]
  exact (noteMaxNextWeights_append before (e :: after)).1

end Notes

section Lists

variable [LinearOrder S]

/-- The list without the record of an id. -/
def dropRecord (id : ℕ) (elements : List (PostingElement S)) : List (PostingElement S) :=
  elements.filter fun e => e.recordId ≠ id

/-- The list with one record at the place of its id. -/
def putRecord (id : ℕ) (weight : S) (elements : List (PostingElement S)) :
    List (PostingElement S) :=
  elements.filter (fun e => e.recordId < id) ++
    ⟨id, weight⟩ :: elements.filter fun e => id < e.recordId

variable {elements : Elements S}

omit [LinearOrder S] in
/-- Exactly the record is dropped. -/
@[simp] theorem mem_dropRecord {id : ℕ}
    {e : PostingElement S} : e ∈ dropRecord id elements ↔ e ∈ elements ∧ e.recordId ≠ id := by
  simp [dropRecord]

omit [LinearOrder S] in
/-- The record has the new weight, and all others stay. -/
@[simp] theorem mem_putRecord {id : ℕ} {weight : S} {e : PostingElement S} :
    e ∈ putRecord id weight elements ↔ e = ⟨id, weight⟩ ∨ e ∈ elements ∧ e.recordId ≠ id := by
  simp only [putRecord, mem_append, mem_cons, mem_filter, decide_eq_true_eq]
  grind

omit [LinearOrder S] in
/-- Dropping a record keeps the order. -/
theorem Increasing.dropRecord (h : Increasing elements)
    (id : ℕ) : Increasing (dropRecord id elements) :=
  h.filter _

omit [LinearOrder S] in
/-- Putting a record keeps the order. -/
theorem Increasing.putRecord (h : Increasing elements) (id : ℕ)
    (weight : S) : Increasing (putRecord id weight elements) := by
  refine pairwise_append.mpr ⟨h.filter _, pairwise_cons.mpr ⟨?_, h.filter _⟩, ?_⟩
  · intro e he
    simpa using (mem_filter.mp he).2
  grind

omit [LinearOrder S] in
/-- Without a record, the elements before it and those behind it are left. -/
private theorem Increasing.dropRecord_eq (h : Increasing elements) (id : ℕ) :
    Stratumind.dropRecord id elements = elements.filter (fun e => e.recordId < id) ++
      elements.filter fun e => id < e.recordId := by
  unfold Stratumind.dropRecord
  nth_rewrite 1 [← h.filter_lt_append id]
  rw [filter_append, filter_filter, filter_filter]
  grind

/-- What the search for a record finds: the elements below it, its own if there is one,
and the elements above it. -/
private theorem search_cases (hinc : Increasing elements) (id : ℕ) :
    (∃ e, e.recordId = id ∧ elements = elements.filter (fun e => e.recordId < id) ++
        e :: elements.filter (fun e => id < e.recordId) ∧
      binarySearchByKey (fun e => e.recordId) id (withMaxNext elements) =
        .ok (elements.filter fun e => e.recordId < id).length) ∨
    elements = elements.filter (fun e => e.recordId < id) ++
        elements.filter (fun e => id < e.recordId) ∧
      binarySearchByKey (fun e => e.recordId) id (withMaxNext elements) =
        .error (elements.filter fun e => e.recordId < id).length := by
  have hkeys : (withMaxNext elements).map (fun e => e.recordId) =
      elements.map PostingElement.recordId := by
    nth_rewrite 2 [← map_withMaxNext elements]
    rw [map_map]
    rfl
  have hsplit : elements = elements.filter (fun e => e.recordId < id) ++
      ((lookup id elements).toList ++ elements.filter fun e => id < e.recordId) := by
    have habove : elements.filter (fun e => !decide (e.recordId ≤ id)) =
        elements.filter fun e => id < e.recordId :=
      filter_congr fun e _ => by simp only [← decide_not, Nat.not_le]
    rw [← habove, ← (hinc.split_at id).2, hinc.filter_lt_append]
  rw [hinc.binarySearchByKey_eq hkeys]
  cases hlookup : lookup id elements with
  | some e =>
    rw [hlookup] at hsplit
    exact Or.inl ⟨e, by simpa using List.find?_some hlookup, hsplit, rfl⟩
  | none =>
    rw [hlookup] at hsplit
    exact Or.inr ⟨hsplit, rfl⟩

/-- Modifying the last position changes the last element. -/
private theorem modify_last {α : Type} (l : List α) (a : α) (f : α → α) :
    (l ++ [a]).modify ((l ++ [a]).length - 1) f = l ++ [f a] := by
  have hlast : (l ++ [a]).length - 1 = l.length := by simp
  rw [hlast, modify_append_cons]

/-- Erasing one element and propagating from its place corrects all notes. -/
private theorem propagate_eraseIdx (before : Elements S) (e : PostingElement S) (after : Elements S)
    {list : PostingList S} (hlist : list.elements = withMaxNext (before ++ e :: after)) :
    (let elements := list.elements.eraseIdx before.length
      let elements := elements.modify (elements.length - 1) fun last =>
        { last with maxNextWeight := ⊥ }
      if before.length < elements.length then
        PostingList.mk (propagateMaxNextWeightToTheLeft before.length elements)
      else if !elements.isEmpty then
        ⟨propagateMaxNextWeightToTheLeft (elements.length - 1) elements⟩
      else ⟨elements⟩) = ⟨withMaxNext (before ++ after)⟩ := by
  obtain ⟨noted, hnoted, hbefore⟩ := withMaxNext_append before (e :: after)
  have hlength : noted.length = before.length := by rw [← hbefore, length_map]
  have herase : list.elements.eraseIdx before.length = noted ++ withMaxNext after := by
    rw [hlist, hnoted, withMaxNext, ← hlength, eraseIdx_append_of_length_le (Nat.le_refl _),
      Nat.sub_self, eraseIdx_cons_zero]
  dsimp only
  rw [herase]
  rcases eq_nil_or_concat' after with rfl | ⟨init, last, rfl⟩
  · -- The last element went: the one before it becomes the last.
    rw [withMaxNext, append_nil, append_nil]
    rcases eq_nil_or_concat' noted with rfl | ⟨init, last, rfl⟩
    · rw [← hbefore]
      rfl
    rw [modify_last, if_neg (by simp [← hlength]), if_pos (by simp)]
    have hend : init ++ [{ last with maxNextWeight := ⊥ }] =
        init ++ withMaxNext [last.toPostingElement] := rfl
    rw [hend, propagate_eq (by simp), ← hbefore, map_append]
    rfl
  obtain ⟨tail, htail, -⟩ := withMaxNext_append init [last]
  have hsame : (noted ++ withMaxNext (init ++ [last])).modify
      ((noted ++ withMaxNext (init ++ [last])).length - 1)
      (fun last => { last with maxNextWeight := ⊥ }) =
      noted ++ withMaxNext (init ++ [last]) := by
    rw [htail, ← append_assoc]
    exact modify_last _ _ _
  rw [hsame, if_pos (by simp [hlength])]
  cases hafter : init ++ [last] with
  | nil => simp at hafter
  | cons first rest => rw [propagate_eq hlength.symm, hbefore]

namespace PostingList

/-- Deleting removes the element of the record and corrects the notes before it. -/
theorem delete_withMaxNext {elements : Elements S} (hinc : Increasing elements)
    (id : ℕ) : delete id ⟨withMaxNext elements⟩ = ⟨withMaxNext (dropRecord id elements)⟩ := by
  rw [hinc.dropRecord_eq]
  unfold PostingList.delete
  rcases search_cases hinc id with ⟨e, -, helements, hsearch⟩ | ⟨helements, hsearch⟩
  · rw [hsearch]
    exact propagate_eraseIdx _ e _ (congrArg withMaxNext helements)
  · rw [hsearch, ← helements]

/-- Upserting stores the weight of the record at its place and corrects the notes before
it. -/
theorem upsert_withMaxNext {elements : Elements S} (hinc : Increasing elements)
    (id : ℕ) (weight : S) : upsert (PostingElementEx.new id weight) ⟨withMaxNext elements⟩ =
      ⟨withMaxNext (putRecord id weight elements)⟩ := by
  unfold PostingList.upsert putRecord
  have hkey : (PostingElementEx.new id weight).recordId = id := rfl
  rw [hkey]
  have hsearch := search_cases hinc id
  generalize elements.filter (fun e => e.recordId < id) = before at hsearch ⊢
  generalize elements.filter (fun e => id < e.recordId) = after at hsearch ⊢
  rcases hsearch with ⟨e, rfl, rfl, hsearch⟩ | ⟨rfl, hsearch⟩
  · obtain ⟨noted, hnoted, hbefore⟩ := withMaxNext_append before (e :: after)
    have hlength : before.length = noted.length := by rw [← hbefore, length_map]
    rw [hsearch]
    dsimp only
    split
    · -- the weight is the one that is stored
      rename_i hsame
      have hfound : (withMaxNext (before ++ e :: after))[before.length]? =
          some ⟨e, maxWeight after⟩ := by
        rw [hnoted, hlength, getElem?_append_right (Nat.le_refl _), Nat.sub_self]
        rfl
      rw [hfound] at hsame
      have hweight : e.weight = weight := of_decide_eq_true hsame
      rw [← hweight]
    · have hmodify : (withMaxNext (before ++ e :: after)).modify before.length
          (fun found => { found with weight := (PostingElementEx.new e.recordId weight).weight }) =
          noted ++ withMaxNext (⟨e.recordId, weight⟩ :: after) := by
        rw [hnoted, hlength, withMaxNext, modify_append_cons]
        rfl
      rw [hmodify, propagate_eq hlength, hbefore]
  rw [hsearch]
  dsimp only
  obtain ⟨noted, hnoted, hbefore⟩ := withMaxNext_append before after
  have hlength : before.length = noted.length := by rw [← hbefore, length_map]
  have hinsert : (withMaxNext (before ++ after)).insertIdx before.length
      (PostingElementEx.new id weight) =
      noted ++ PostingElementEx.new id weight :: withMaxNext after := by
    rw [hnoted, hlength, insertIdx_append]
  rw [hinsert]
  cases after with
  | nil =>
    have hend : noted ++ PostingElementEx.new id weight :: withMaxNext [] =
        noted ++ withMaxNext [⟨id, weight⟩] := rfl
    rw [hend, if_pos (by simp [hlength]), propagate_eq hlength, hbefore]
  | cons first after =>
    have hshift : noted ++ PostingElementEx.new id weight :: withMaxNext (first :: after) =
        (noted ++ [PostingElementEx.new id weight]) ++ withMaxNext (first :: after) := by
      rw [append_assoc]
      rfl
    rw [if_neg (by simp [hlength]), hshift, propagate_eq (by simp [hlength]), map_append,
      hbefore, append_assoc]
    rfl

/-- Building sorts the records and notes the maxima from the right. -/
theorem build_withMaxNext {records : List (ℕ × S)} (hnodup : (records.map Prod.fst).Nodup) :
    ∃ elements, build records = some ⟨withMaxNext elements⟩ ∧ Increasing elements ∧
      elements.Perm (records.map fun record => ⟨record.1, record.2⟩) := by
  unfold build
  generalize hsorted : (records.map fun record =>
    PostingElementEx.new record.1 record.2).insertionSort
      (fun left right => left.recordId ≤ right.recordId) = sorted
  have hperm : sorted.Perm (records.map fun record => PostingElementEx.new record.1 record.2) := by
    rw [← hsorted]
    exact perm_insertionSort _ _
  have hpairwise : sorted.Pairwise fun left right => left.recordId ≤ right.recordId := by
    rw [← hsorted]
    exact pairwise_insertionSort _ _
  have hids : (sorted.map fun e => e.recordId).Nodup := by
    refine (hperm.map _).nodup_iff.mpr ?_
    rw [map_map]
    exact hnodup
  have hnotes := (noteMaxNextWeights_append sorted []).1
  rw [withMaxNext, append_nil, append_nil] at hnotes
  refine ⟨sorted.map PostingElementEx.toPostingElement, ?_, ?_, ?_⟩
  · rw [if_pos hids, ← hnotes]
    rfl
  · refine pairwise_map.mpr ((hpairwise.and (pairwise_map.mp hids)).imp ?_)
    rintro a b ⟨hle, hne⟩
    exact lt_of_le_of_ne hle hne
  · have hplain := hperm.map PostingElementEx.toPostingElement
    rwa [map_map] at hplain

/-- A list is built from records with different ids only. -/
theorem nodup_of_build {records : List (ℕ × S)} {list : PostingList S}
    (h : build records = some list) : (records.map Prod.fst).Nodup := by
  unfold build at h
  dsimp only at h
  split at h
  · rename_i hids
    have hperm := (perm_insertionSort (fun left right : PostingElementEx S =>
      left.recordId ≤ right.recordId) (records.map fun record =>
        PostingElementEx.new record.1 record.2)).map fun e => e.recordId
    have hnodup := hperm.nodup_iff.mp hids
    rwa [map_map] at hnodup
  · cases h

end PostingList

/-- The list is ordered by record id, its ids fit their type, and all its notes are right. -/
structure PostingList.WellFormed (list : PostingList S) : Prop where
  increasing : Increasing (list.elements.map PostingElementEx.toPostingElement)
  fits : ∀ e ∈ list.elements.map PostingElementEx.toPostingElement, e.recordId ≤ pointOffsetMax
  notes : list.elements = withMaxNext (list.elements.map PostingElementEx.toPostingElement)

namespace PostingList.WellFormed

/-- Ordered elements with their notes. -/
theorem ofPlain {elements : Elements S} (hinc : Increasing elements)
    (hfits : ∀ e ∈ elements, e.recordId ≤ pointOffsetMax) : WellFormed ⟨withMaxNext elements⟩ := by
  refine ⟨?_, ?_, ?_⟩
  · rwa [map_withMaxNext]
  · rwa [map_withMaxNext]
  · rw [map_withMaxNext]

theorem newOne {id : ℕ} (weight : S) (hid : id ≤ pointOffsetMax) :
    (PostingList.newOne id weight).WellFormed := by
  refine ofPlain (pairwise_singleton _ _) fun e he => ?_
  rw [mem_singleton.mp he]
  exact hid

theorem nil : (⟨[]⟩ : PostingList S).WellFormed :=
  ⟨Pairwise.nil, by simp, rfl⟩

variable {list : PostingList S}

theorem exists_elements (h : list.WellFormed) :
    ∃ elements, list = ⟨withMaxNext elements⟩ ∧ Increasing elements ∧
      ∀ e ∈ elements, e.recordId ≤ pointOffsetMax :=
  ⟨_, congrArg PostingList.mk h.notes, h.increasing, h.fits⟩

theorem delete (h : list.WellFormed) (id : ℕ) : (list.delete id).WellFormed := by
  obtain ⟨elements, rfl, hinc, hfits⟩ := h.exists_elements
  rw [delete_withMaxNext hinc]
  exact ofPlain (hinc.dropRecord id) fun e he => hfits e (mem_dropRecord.mp he).1

theorem upsert (h : list.WellFormed) {id : ℕ} (weight : S)
    (hid : id ≤ pointOffsetMax) : (list.upsert (PostingElementEx.new id weight)).WellFormed := by
  obtain ⟨elements, rfl, hinc, hfits⟩ := h.exists_elements
  rw [upsert_withMaxNext hinc]
  refine ofPlain (hinc.putRecord id weight) fun e he => ?_
  rcases mem_putRecord.mp he with rfl | ⟨he, -⟩
  · exact hid
  · exact hfits e he

theorem build {records : List (ℕ × S)} (hfits : ∀ record ∈ records, record.1 ≤ pointOffsetMax)
    (h : PostingList.build records = some list) : list.WellFormed := by
  obtain ⟨elements, hbuild, hinc, hperm⟩ := build_withMaxNext (nodup_of_build h)
  rw [h] at hbuild
  cases hbuild
  refine ofPlain hinc fun e he => ?_
  obtain ⟨record, hrecord, rfl⟩ := mem_map.mp (hperm.mem_iff.mp he)
  exact hfits record hrecord

end PostingList.WellFormed

end Lists

section Index

variable [LinearOrder S]

/-- All posting lists of the index are well formed. -/
def InvertedIndexRam.WellFormed (index : InvertedIndexRam S) : Prop :=
  ∀ list ∈ index.postings, list.WellFormed

namespace InvertedIndexRam.WellFormed

variable {index : InvertedIndexRam S}

/-- An update of one posting list. -/
theorem modify (h : index.WellFormed) (dim : ℕ) {f : PostingList S → PostingList S}
    (hf : ∀ list : PostingList S, list.WellFormed → (f list).WellFormed) :
    (InvertedIndexRam.mk (index.postings.modify dim f)).WellFormed := by
  intro list hlist
  obtain ⟨position, hposition⟩ := getElem?_of_mem hlist
  rw [getElem?_modify] at hposition
  obtain ⟨old, hold, rfl⟩ := Option.map_eq_some_iff.mp hposition
  have hwf := h old (mem_of_getElem? hold)
  split
  · exact hf old hwf
  · exact hwf

theorem deleteFrom (h : index.WellFormed) (id : ℕ) (dims : List ℕ) :
    (index.deleteFrom id dims).WellFormed := by
  refine foldlRecOn (motive := WellFormed) dims _ h ?_
  intro index hindex dim _
  exact hindex.modify dim fun list hlist => hlist.delete id

theorem insertInto (h : index.WellFormed) {id : ℕ} (hid : id ≤ pointOffsetMax) (term : ℕ × S) :
    (index.insertInto id term).WellFormed := by
  unfold InvertedIndexRam.insertInto
  split
  · exact h.modify term.1 fun list hlist => hlist.upsert term.2 hid
  intro list hlist
  rcases mem_append.mp hlist with hlist | hlist
  · rcases mem_append.mp hlist with hlist | hlist
    · exact h list hlist
    · rw [eq_of_mem_replicate hlist]
      exact PostingList.WellFormed.nil
  · rw [mem_singleton.mp hlist]
    exact PostingList.WellFormed.newOne term.2 hid

theorem upsert (h : index.WellFormed) {id : ℕ} (hid : id ≤ pointOffsetMax)
    (vector : RemappedSparseVector S) (oldVector : Option (RemappedSparseVector S)) :
    (index.upsert id vector oldVector).WellFormed := by
  refine foldlRecOn (motive := WellFormed) vector.terms _ (h.deleteFrom id _) ?_
  intro index hindex term _
  exact hindex.insertInto hid term

omit [LinearOrder S] in
/-- The records of the builders are records of the added points. -/
private theorem addVector_fits {builders : List (List (ℕ × S))}
    (h : ∀ records ∈ builders, ∀ record ∈ records, record.1 ≤ pointOffsetMax)
    {point : ℕ × RemappedSparseVector S} (hpoint : point.1 ≤ pointOffsetMax) :
    ∀ records ∈ addVector builders point, ∀ record ∈ records, record.1 ≤ pointOffsetMax := by
  refine foldlRecOn (motive := fun builders : List (List (ℕ × S)) =>
    ∀ records ∈ builders, ∀ record ∈ records, record.1 ≤ pointOffsetMax) _ _ h ?_
  intro builders hbuilders term _ records hrecords record hrecord
  obtain ⟨position, hposition⟩ := getElem?_of_mem hrecords
  grind

theorem buildFromIterator {points : List (ℕ × RemappedSparseVector S)}
    (hfits : ∀ point ∈ points, point.1 ≤ pointOffsetMax)
    (h : InvertedIndexRam.buildFromIterator points = some index) : index.WellFormed := by
  have hbuilders : ∀ records ∈ points.foldl addVector ([] : List (List (ℕ × S))),
      ∀ record ∈ records, record.1 ≤ pointOffsetMax := by
    refine foldlRecOn (motive := fun builders : List (List (ℕ × S)) =>
      ∀ records ∈ builders, ∀ record ∈ records, record.1 ≤ pointOffsetMax) _ _ (by simp) ?_
    intro builders hbuilders point hpoint
    exact addVector_fits hbuilders (hfits point hpoint)
  obtain ⟨postings, hpostings, rfl⟩ := Option.map_eq_some_iff.mp h
  intro list hlist
  obtain ⟨records, hrecords, hbuild⟩ :=
    (forall₂_exists (forall₂_of_mapM_eq_some hpostings)).2 list hlist
  exact PostingList.WellFormed.build (hbuilders records hrecords) hbuild

end InvertedIndexRam.WellFormed

/-- Every index that the builder and the updates lead to is well formed. -/
theorem InvertedIndexRam.Reachable.wellFormed {index : InvertedIndexRam S}
    (h : index.Reachable) : index.WellFormed := by
  induction h with
  | empty =>
    intro list hlist
    cases hlist
  | built hfits hbuild => exact WellFormed.buildFromIterator hfits hbuild
  | upsert vector oldVector _ hid ih => exact ih.upsert hid vector oldVector
  | remove id oldVector _ ih => exact ih.deleteFrom id oldVector.indices

end Index

end Stratumind
