import Stratumind.Lib.RankedList

/-!
# Posting lists of the sparse index

The elements of posting lists and the iterator interface of `posting_list_common.rs`.
Weights and scores are exact numbers of an ordered ring. Record offsets are natural numbers
not above the maximum of their 32-bit type. An iterator method that takes `&mut self` returns
the iterator it leaves.
-/

namespace Stratumind

/-- `PointOffsetType::MAX`. -/
def pointOffsetMax : ℕ := 2 ^ 32 - 1

/-- A record offset with its score. -/
@[ext] structure ScoredPointOffset (S : Type) where
  idx : ℕ
  score : S
  deriving DecidableEq, Repr

/-- A record with its weight in one dimension. -/
structure PostingElement (S : Type) where
  recordId : ℕ
  weight : S
  deriving DecidableEq, Repr

/-- The elements of a posting list. -/
abbrev Elements (S : Type) := List (PostingElement S)

/-- Posting lists with the query weights of their dimensions. -/
abbrev Terms (S : Type) := List (Elements S × S)

/-- What an iterator has passed and what it still reads. -/
abbrev CursorReads (T S : Type) := T → Elements S → Elements S → Prop

/-- A record with the maximal weight of the records after it. -/
structure PostingElementEx (S : Type) extends PostingElement S where
  /-- Negative infinity where nothing follows. -/
  maxNextWeight : WithBot S
  deriving DecidableEq

/-- A sparse vector over the dimension offsets of one segment. -/
structure RemappedSparseVector (S : Type) where
  indices : List ℕ
  values : List S
  deriving DecidableEq, Repr

/-- The indices are strictly increasing. -/
def RemappedSparseVector.isSorted {S : Type} (vector : RemappedSparseVector S) : Bool :=
  decide (vector.indices.Pairwise (· < ·))

/-- Dimensions of a vector with their values. -/
def RemappedSparseVector.terms {S : Type} (vector : RemappedSparseVector S) : List (ℕ × S) :=
  vector.indices.zip vector.values

/-- The trait `PostingListIter`. -/
class PostingListIter (T : Type) (S : outParam Type) where
  peek : T → Option (PostingElementEx S) × T
  lastId : T → Option ℕ
  /-- Advances to the first element that is not below the id and returns it if it has
  the id. -/
  skipTo : ℕ → T → Option (PostingElementEx S) × T
  skipToEnd : T → T
  lenToEnd : T → ℕ
  currentIndex : T → ℕ
  /-- Visits the elements up to the id, inclusive. -/
  forEachTillId {C : Type} : ℕ → (C → ℕ → S → C) → C → T → C × T
  /-- Whether `maxNextWeight` is reliable. -/
  reliableMaxNextWeight : Bool
  /-- Whether a maximum weight is known without decoding every posting. -/
  reliableBlockMax : Bool
  /-- Maximum weight from the current position through the id, or more. -/
  maxWeightTillId : ℕ → T → Option S
  /-- Advances to the first element above the id. -/
  skipTillId : ℕ → T → T
  /-- Fills one maximum weight for each range of ids; `false` where that is not supported. -/
  fillBlockMaxRanges : ℕ → ℕ → List S → T → Bool × List S

/-- A failed read of an index. -/
structure UniversalIoError where
  description : String
  deriving DecidableEq, Repr

/-- The part of the trait `InvertedIndex` that searches read. -/
class InvertedIndex (I : Type) (T : outParam Type) where
  get : I → ℕ → Except UniversalIoError T

/-- The error of `get` for an unknown dimension. -/
def outOfBounds (id len : ℕ) : UniversalIoError :=
  ⟨s!"DimOffset {id} out of bounds. Index contains {len} posting lists."⟩

/-!
### Mutable posting lists

The posting list in memory of `posting_list.rs` with its iterator, and the inverted index of
`inverted_index_ram.rs` that is made of such lists.
-/

/-- `partition_point` of a slice that the predicate partitions. -/
def partitionPoint {α : Type} (pred : α → Bool) (slice : List α) : ℕ :=
  (slice.takeWhile pred).length

/-- `binary_search_by_key` of a slice with increasing keys: the position of the key, or the
position to insert it at. -/
def binarySearchByKey {α : Type} (key : α → ℕ) (target : ℕ) (slice : List α) : Except ℕ ℕ :=
  let index := partitionPoint (fun a => key a < target) slice
  match slice[index]? with
  | some found => if key found = target then .ok index else .error index
  | none => .error index

/-- A posting list, ordered by record id. -/
structure PostingList (S : Type) where
  elements : List (PostingElementEx S)
  deriving DecidableEq

/-- A position in the elements of a posting list. -/
structure PostingListIterator (S : Type) where
  elements : List (PostingElementEx S)
  currentIndex : ℕ
  deriving DecidableEq

/-- The iterator at the start of the list. -/
def PostingList.iter {S : Type} (list : PostingList S) : PostingListIterator S :=
  ⟨list.elements, 0⟩

namespace PostingListIterator

variable {S : Type}

/-- The elements from the current position on. -/
def remaining (it : PostingListIterator S) : List (PostingElementEx S) :=
  it.elements.drop it.currentIndex

/-- Advances to the next element. -/
def advance (it : PostingListIterator S) : PostingListIterator S :=
  if it.currentIndex < it.elements.length then { it with currentIndex := it.currentIndex + 1 }
  else it

/-- Advances to the first element that is not below the id. -/
def skipTo (id : ℕ) (it : PostingListIterator S) :
    Option (PostingElementEx S) × PostingListIterator S :=
  if it.currentIndex ≥ it.elements.length then (none, it)
  else
    match binarySearchByKey (fun e => e.recordId) id it.remaining with
    | .ok offset =>
      let it := { it with currentIndex := it.currentIndex + offset }
      (it.elements[it.currentIndex]?, it)
    | .error offset => (none, { it with currentIndex := it.currentIndex + offset })

/-- Visits the elements up to the id, inclusive. -/
def forEachTillId {C : Type} (id : ℕ) (f : C → ℕ → S → C) (ctx : C)
    (it : PostingListIterator S) : C × PostingListIterator S :=
  let visited := it.remaining.takeWhile fun e => e.recordId ≤ id
  (visited.foldl (fun ctx e => f ctx e.recordId e.weight) ctx,
    { it with currentIndex := it.currentIndex + visited.length })

/-- The exact maximum of zero and the weights up to the id. -/
def maxWeightTillId [Zero S] [Max S] (id : ℕ) (it : PostingListIterator S) : Option S :=
  some (((it.remaining.takeWhile fun e => e.recordId ≤ id).map fun e => e.weight).foldl max 0)

/-- Advances to the first element above the id. -/
def skipTillId (id : ℕ) (it : PostingListIterator S) : PostingListIterator S :=
  match it.skipTo id with
  | (some _, it) => it.advance
  | (none, it) => it

instance [Zero S] [Max S] : PostingListIter (PostingListIterator S) S where
  peek it := (it.elements[it.currentIndex]?, it)
  lastId it := it.elements.getLast?.map fun e => e.recordId
  skipTo := skipTo
  skipToEnd it := { it with currentIndex := it.elements.length }
  lenToEnd it := it.elements.length - it.currentIndex
  currentIndex := currentIndex
  forEachTillId := forEachTillId
  reliableMaxNextWeight := true
  reliableBlockMax := false
  maxWeightTillId := maxWeightTillId
  skipTillId := skipTillId
  fillBlockMaxRanges _ _ maxima _ := (false, maxima)

end PostingListIterator

/-- The inverted index in memory: one posting list for each dimension. -/
structure InvertedIndexRam (S : Type) where
  postings : List (PostingList S)
  deriving DecidableEq

instance {S : Type} : InvertedIndex (InvertedIndexRam S) (PostingListIterator S) where
  get index id :=
    match index.postings[id]? with
    | some list => .ok list.iter
    | none => .error (outOfBounds id index.postings.length)

/-!
### Posting iterators as cursors

What an iterator does is said by the elements it has passed and the elements to come. Both
representations of posting lists are cursors in this sense; the generic searches only rely
on it.
-/

open Lib List

variable {T S : Type}

/-- Record ids strictly increase. -/
def Increasing (elements : List (PostingElement S)) : Prop :=
  elements.Pairwise fun left right => left.recordId < right.recordId

variable {elements : Elements S}

section

variable (h : Increasing elements)

include h

/-- In increasing lists the elements below an id are a prefix. -/
theorem Increasing.filter_lt_append (id : ℕ) : elements.filter (fun e => e.recordId < id) ++
      elements.filter (fun e => !decide (e.recordId < id)) = elements :=
  filter_append_filter_not (fun a b hab hb => by simp only [decide_eq_true_eq] at hb ⊢; omega) h

/-- In increasing lists the elements up to an id are a prefix. -/
theorem Increasing.filter_le_append (id : ℕ) : elements.filter (fun e => e.recordId ≤ id) ++
      elements.filter (fun e => !decide (e.recordId ≤ id)) = elements :=
  filter_append_filter_not (fun a b hab hb => by simp only [decide_eq_true_eq] at hb ⊢; omega) h

/-- Elements below an id, found by scanning. -/
theorem Increasing.takeWhile_lt (id : ℕ) : elements.takeWhile (fun e => e.recordId < id) =
      elements.filter fun e => e.recordId < id :=
  takeWhile_eq_filter (fun a b hab hb => by simp only [decide_eq_true_eq] at hb ⊢; omega) h

/-- Elements up to an id, found by scanning. -/
theorem Increasing.takeWhile_le (id : ℕ) : elements.takeWhile (fun e => e.recordId ≤ id) =
      elements.filter fun e => e.recordId ≤ id :=
  takeWhile_eq_filter (fun a b hab hb => by simp only [decide_eq_true_eq] at hb ⊢; omega) h

/-- All ids lie between the first and the last one. -/
theorem Increasing.between {e : PostingElement S} (he : e ∈ elements) :
    (∃ first, elements.head? = some first ∧ first.recordId ≤ e.recordId) ∧
      ∃ last, elements.getLast? = some last ∧ e.recordId ≤ last.recordId := by
  constructor
  · cases elements with
    | nil => cases he
    | cons first elements =>
      refine ⟨first, rfl, ?_⟩
      rcases mem_cons.mp he with rfl | he
      · exact Nat.le_refl _
      · exact ((pairwise_cons.mp h).1 e he).le
  · rcases eq_nil_or_concat' elements with rfl | ⟨before, last, rfl⟩
    · cases he
    refine ⟨last, by simp, ?_⟩
    rcases mem_append.mp he with he | he
    · exact ((pairwise_append.mp h).2.2 e he last (by simp)).le
    · rw [mem_singleton.mp he]

end

/-- The record with an id, if the list has one. -/
def lookup (id : ℕ) (elements : List (PostingElement S)) : Option (PostingElement S) :=
  elements.find? fun e => e.recordId = id

/-- Above all ids, there is no record. -/
theorem lookup_eq_none {id : ℕ}
    (h : ∀ e ∈ elements, id < e.recordId) : lookup id elements = none := by
  refine find?_eq_none.mpr fun e he => ?_
  have := h e he
  simp only [decide_eq_true_eq]
  omega

/-- Every record of an increasing list is found. -/
theorem Increasing.lookup_eq (h : Increasing elements) {e : PostingElement S}
    (he : e ∈ elements) : lookup e.recordId elements = some e := by
  induction elements with
  | nil => cases he
  | cons first elements ih =>
    obtain ⟨hhead, htail⟩ := pairwise_cons.mp h
    unfold lookup at ih ⊢
    rcases mem_cons.mp he with rfl | he
    · simp
    · have hne : first.recordId ≠ e.recordId := (hhead e he).ne
      rw [find?_cons_of_neg (by simpa using hne)]
      exact ih htail he

/-- The elements around an id: those below it, its record, and those above it. -/
theorem Increasing.split_at (h : Increasing elements) (id : ℕ) :
    elements.filter (fun e => e.recordId ≤ id) =
      elements.filter (fun e => e.recordId < id) ++ (lookup id elements).toList ∧
    elements.filter (fun e => !decide (e.recordId < id)) =
      (lookup id elements).toList ++ elements.filter fun e => !decide (e.recordId ≤ id) := by
  induction elements with
  | nil => exact ⟨rfl, rfl⟩
  | cons e elements ih =>
    obtain ⟨hhead, htail⟩ := pairwise_cons.mp h
    obtain ⟨hle, hge⟩ := ih htail
    rcases Nat.lt_trichotomy e.recordId id with hlt | heq | hgt
    · have hne : e.recordId ≠ id := by omega
      have hlookup : lookup id (e :: elements) = lookup id elements := by simp [lookup, hne]
      rw [hlookup]
      simp [hlt, hlt.le, hle, hge]
    · have hnone : ∀ e' ∈ elements, ¬e'.recordId < id ∧ ¬e'.recordId ≤ id := by
        intro e' he'
        have := hhead e' he'
        omega
      have hlookup : lookup id (e :: elements) = some e := by simp [lookup, heq]
      have hbelow : elements.filter (fun e => decide (e.recordId < id)) = [] :=
        filter_eq_nil_iff.mpr fun e' he' => by simp [(hnone e' he').1]
      have hupto : elements.filter (fun e => decide (e.recordId ≤ id)) = [] :=
        filter_eq_nil_iff.mpr fun e' he' => by simp [(hnone e' he').2]
      grind
    have habove : ∀ e' ∈ e :: elements, id < e'.recordId := by
      grind
    rw [lookup_eq_none habove]
    have hupto : (e :: elements).filter (fun e => decide (e.recordId ≤ id)) = [] :=
      filter_eq_nil_iff.mpr fun e' he' => by
        have := habove e' he'
        simpa using this
    have hbelow : (e :: elements).filter (fun e => decide (e.recordId < id)) = [] :=
      filter_eq_nil_iff.mpr fun e' he' => by
        have := habove e' he'
        simp only [decide_eq_true_eq]
        omega
    grind

/-- `Reads it past rest` says that the iterator has passed `past` and that `rest` is to come.
A cursor moves as the interface documents it. -/
structure IsCursor [PostingListIter T S]
    (Reads : T → List (PostingElement S) → List (PostingElement S) → Prop) : Prop where
  increasing {it past rest} : Reads it past rest → Increasing (past ++ rest)
  peek_eq {it past rest} : Reads it past rest →
    (PostingListIter.peek it).1.map PostingElementEx.toPostingElement = rest.head?
  peek_reads {it past rest} : Reads it past rest → Reads (PostingListIter.peek it).2 past rest
  lastId_eq {it past rest} : Reads it past rest →
    PostingListIter.lastId it = (past ++ rest).getLast?.map PostingElement.recordId
  lenToEnd_eq {it past rest} : Reads it past rest → PostingListIter.lenToEnd it = rest.length
  skipTo_eq {it past rest} (id : ℕ) : Reads it past rest →
    (PostingListIter.skipTo id it).1.map PostingElementEx.toPostingElement = lookup id rest
  skipTo_reads {it past rest} (id : ℕ) : Reads it past rest →
    Reads (PostingListIter.skipTo id it).2 (past ++ rest.filter fun e => e.recordId < id)
      (rest.filter fun e => !decide (e.recordId < id))
  forEach_eq {it past rest} {C : Type} (id : ℕ) (f : C → ℕ → S → C) (ctx : C) :
    Reads it past rest → (PostingListIter.forEachTillId id f ctx it).1 =
      (rest.filter fun e => e.recordId ≤ id).foldl (fun ctx e => f ctx e.recordId e.weight) ctx
  forEach_reads {it past rest} {C : Type} (id : ℕ) (f : C → ℕ → S → C) (ctx : C) :
    Reads it past rest → Reads (PostingListIter.forEachTillId id f ctx it).2
      (past ++ rest.filter fun e => e.recordId ≤ id)
      (rest.filter fun e => !decide (e.recordId ≤ id))
  skipTillId_reads {it past rest} (id : ℕ) : Reads it past rest →
    Reads (PostingListIter.skipTillId id it) (past ++ rest.filter fun e => e.recordId ≤ id)
      (rest.filter fun e => !decide (e.recordId ≤ id))

/-- A search for an id found its record, if there is one, and has passed exactly the smaller ids. -/
def Skips (Reads : CursorReads T S) (result : Option (PostingElementEx S) × T)
    (past rest : Elements S) (id : ℕ) : Prop :=
  result.1.map PostingElementEx.toPostingElement = lookup id rest ∧
    Reads result.2 (past ++ rest.filter fun e => e.recordId < id)
      (rest.filter fun e => !decide (e.recordId < id))

/-- Advancing over the record that was found passes exactly the ids up to it. -/
theorem Skips.skipTillId {Reads : CursorReads T S} (advance : T → T)
    (hadvance : ∀ {it past e rest}, Reads it past (e :: rest) →
      Reads (advance it) (past ++ [e]) rest) {result : Option (PostingElementEx S) × T}
    {past rest : Elements S} {id : ℕ} (h : Skips Reads result past rest id)
    (hrest : Increasing rest) {next : T}
    (hnext : next = if result.1.isSome then advance result.2 else result.2) :
    Reads next (past ++ rest.filter fun e => e.recordId ≤ id)
      (rest.filter fun e => !decide (e.recordId ≤ id)) := by
  obtain ⟨hvalue, hreads⟩ := h
  obtain ⟨found, reached⟩ := result
  subst hnext
  obtain ⟨hle, hge⟩ := hrest.split_at id
  rw [hle, ← append_assoc]
  rw [hge] at hreads
  cases found with
  | none => grind
  | some found =>
    rw [Option.map_some] at hvalue
    rw [← hvalue, Option.toList_some] at hreads ⊢
    exact hadvance hreads

/-- Binary search finds the number of smaller keys. -/
theorem binarySearchByKey_cases {α : Type} (key : α → ℕ) (target : ℕ) (slice : List α) :
    (∃ found, slice[(slice.takeWhile fun a => key a < target).length]? = some found ∧
      key found = target ∧ binarySearchByKey key target slice =
        .ok (slice.takeWhile fun a => key a < target).length) ∨
    (∀ found, slice[(slice.takeWhile fun a => key a < target).length]? = some found →
      key found ≠ target) ∧ binarySearchByKey key target slice =
        .error (slice.takeWhile fun a => key a < target).length := by
  unfold binarySearchByKey partitionPoint
  grind

/-- After the elements below an id comes its record, or the elements above it. -/
theorem Increasing.getElem?_below (h : Increasing elements) (id : ℕ) :
    elements[(elements.filter fun e => e.recordId < id).length]? =
      ((lookup id elements).toList ++
        elements.filter fun e => !decide (e.recordId ≤ id)).head? := by
  rw [← (h.split_at id).2, head?_eq_getElem?]
  nth_rewrite 1 [← h.filter_lt_append id]
  rw [getElem?_append_right (Nat.le_refl _), Nat.sub_self]

/-- Binary search in a slice with the ids of an increasing list. -/
theorem Increasing.binarySearchByKey_eq (h : Increasing elements) {α : Type} {key : α → ℕ}
    {slice : List α} (hkeys : slice.map key = elements.map PostingElement.recordId) (id : ℕ) :
    binarySearchByKey key id slice = if (lookup id elements).isSome
      then .ok (elements.filter fun e => e.recordId < id).length
      else .error (elements.filter fun e => e.recordId < id).length := by
  have hcount : partitionPoint (fun a => key a < id) slice =
      (elements.filter fun e => e.recordId < id).length := by
    have hscan := congrArg (fun ids => (ids.takeWhile fun x => x < id).length) hkeys
    simp only [takeWhile_map, length_map] at hscan
    exact hscan.trans (congrArg length (h.takeWhile_lt id))
  have hget := congrArg (·[(elements.filter fun e => e.recordId < id).length]?) hkeys
  simp only [getElem?_map, h.getElem?_below] at hget
  unfold binarySearchByKey
  rw [hcount]
  cases hlookup : lookup id elements with
  | some e =>
    have hid : e.recordId = id := by simpa using find?_some hlookup
    rw [hlookup] at hget
    obtain ⟨found, hfound, hkey⟩ := Option.map_eq_some_iff.mp hget
    simp [hfound, hkey, hid]
  | none =>
    dsimp only
    split
    · rename_i found hfound
      rw [hfound, Option.map_some, eq_comm, Option.map_eq_some_iff] at hget
      grind
    · rfl

namespace PostingListIterator

/-- The iterator stands between `past` and `rest`. -/
structure Reads (it : PostingListIterator S) (past rest : List (PostingElement S)) : Prop where
  increasing : Increasing (past ++ rest)
  elements_eq : it.elements.map PostingElementEx.toPostingElement = past ++ rest
  index_eq : it.currentIndex = past.length

variable {it : PostingListIterator S} {past rest : Elements S}

section

variable (h : it.Reads past rest)

include h

theorem Reads.length_eq : it.elements.length = past.length + rest.length := by
  rw [← length_map (f := PostingElementEx.toPostingElement), h.elements_eq, length_append]

theorem Reads.remaining_eq : it.remaining.map PostingElementEx.toPostingElement = rest := by
  unfold remaining
  rw [map_drop, h.elements_eq, h.index_eq, drop_left]

theorem Reads.rest_increasing : Increasing rest :=
  (pairwise_append.mp h.increasing).2.1

/-- Moving over a prefix of what is to come. -/
theorem Reads.move {before after : Elements S} (hrest : before ++ after = rest)
    {index : ℕ} (hindex : index = past.length + before.length) :
    Reads { it with currentIndex := index } (past ++ before) after := by
  subst hrest
  refine ⟨?_, ?_, ?_⟩
  · rw [append_assoc]
    exact h.increasing
  · rw [append_assoc]
    exact h.elements_eq
  · simp [hindex]

/-- Skipping passes exactly the smaller ids and returns the record with the id. -/
theorem Reads.skipTo (id : ℕ) : Skips Reads (it.skipTo id) past rest id := by
  have hfront := h.rest_increasing.filter_lt_append id
  unfold Skips PostingListIterator.skipTo
  split
  · rename_i hend
    have hnil : rest = [] := by
      rw [← length_eq_zero_iff]
      have hlength := h.length_eq
      have hindex := h.index_eq
      omega
    subst hnil
    exact ⟨rfl, by simpa using h⟩
  have hmove := h.move hfront rfl
  have hkeys : it.remaining.map (fun e => e.recordId) = rest.map PostingElement.recordId := by
    rw [← h.remaining_eq, map_map]
    rfl
  rw [h.rest_increasing.binarySearchByKey_eq hkeys]
  rw [← h.index_eq] at hmove
  cases hlookup : lookup id rest with
  | some e =>
    refine ⟨?_, hmove⟩
    change it.elements[it.currentIndex + _]?.map _ = _
    rw [← getElem?_map, h.elements_eq, h.index_eq, getElem?_append_right (Nat.le_add_right _ _),
      Nat.add_sub_cancel_left, h.rest_increasing.getElem?_below, hlookup]
    rfl
  | none => exact ⟨rfl, hmove⟩

omit h in
theorem Reads.advance {e : PostingElement S} (h : it.Reads past (e :: rest)) :
    it.advance.Reads (past ++ [e]) rest := by
  have hlength := h.length_eq
  rw [length_cons, ← h.index_eq] at hlength
  unfold PostingListIterator.advance
  rw [if_pos (by omega)]
  exact h.move rfl (by rw [h.index_eq]; rfl)

/-- Scanning up to an id finds exactly the ids up to it. -/
theorem Reads.takeWhile_le (id : ℕ) :
    (it.remaining.takeWhile fun e => e.recordId ≤ id).map PostingElementEx.toPostingElement =
      rest.filter fun e => e.recordId ≤ id := by
  rw [← h.rest_increasing.takeWhile_le, ← h.remaining_eq, takeWhile_map]
  rfl

/-- Visiting up to an id folds over exactly the ids up to it. -/
theorem Reads.forEachTillId {C : Type} (id : ℕ) (f : C → ℕ → S → C) (ctx : C) :
    (it.forEachTillId id f ctx).1 = (rest.filter fun e => e.recordId ≤ id).foldl
      (fun ctx e => f ctx e.recordId e.weight) ctx ∧
    Reads (it.forEachTillId id f ctx).2 (past ++ rest.filter fun e => e.recordId ≤ id)
      (rest.filter fun e => !decide (e.recordId ≤ id)) := by
  have hscan := h.takeWhile_le id
  constructor
  · rw [← hscan, foldl_map]
    rfl
  · refine h.move (h.rest_increasing.filter_le_append id) ?_
    rw [← hscan, length_map, h.index_eq]

end

/-- The iterator of a mutable posting list is a cursor. -/
theorem isCursor [Zero S] [Max S] : IsCursor (Reads (S := S)) where
  increasing h := h.increasing
  peek_eq {it past rest} h := by
    change it.elements[it.currentIndex]?.map _ = _
    rw [← getElem?_map, h.elements_eq, h.index_eq, getElem?_append_right (Nat.le_refl _),
      Nat.sub_self, head?_eq_getElem?]
  peek_reads h := h
  lastId_eq h := by
    rw [← h.elements_eq, getLast?_map, Option.map_map]
    rfl
  lenToEnd_eq {it past rest} h := by
    change it.elements.length - it.currentIndex = _
    rw [h.length_eq, h.index_eq, Nat.add_sub_cancel_left]
  skipTo_eq id h := (h.skipTo id).1
  skipTo_reads id h := (h.skipTo id).2
  forEach_eq id f ctx h := (h.forEachTillId id f ctx).1
  forEach_reads id f ctx h := (h.forEachTillId id f ctx).2
  skipTillId_reads {it past rest} id h := by
    refine (h.skipTo id).skipTillId advance Reads.advance h.rest_increasing ?_
    change it.skipTillId id = _
    unfold skipTillId
    rcases it.skipTo id with ⟨_ | _, _⟩ <;> rfl

end PostingListIterator

end Stratumind
