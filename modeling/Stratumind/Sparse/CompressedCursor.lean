import Stratumind.Sparse.CompressedCodec

/-!
# The compressed posting iterator as a cursor

The iterator jumps between chunks and keeps the last unpacked chunk. It moves as the plain
iterator does over the elements that the list holds.
-/

namespace Stratumind

open Lib List

section Ordered

variable {S : Type} {elements : Elements S} {position id : ℕ}
  {first : PostingElement S}

section

variable (hget : elements[position]? = some first)

include hget

/-- What comes before a record is smaller. -/
theorem Increasing.take_lt (h : Increasing elements) (hle : first.recordId ≤ id) :
    ∀ e ∈ elements.take position, e.recordId < id := by
  obtain ⟨before, after, rfl, rfl⟩ := exists_split_of_getElem? hget
  intro e he
  rw [take_left] at he
  have := (pairwise_append.mp h).2.2 e he first mem_cons_self
  omega

/-- What comes after a record is greater. -/
theorem Increasing.drop_succ_gt (h : Increasing elements) (hle : id ≤ first.recordId) :
    ∀ e ∈ elements.drop (position + 1), id < e.recordId := by
  obtain ⟨before, after, rfl, rfl⟩ := exists_split_of_getElem? hget
  intro e he
  have hafter : e ∈ after := by simpa using he
  have := (pairwise_cons.mp (pairwise_append.mp h).2.1).1 e hafter
  omega

/-- A greater record and what comes after it are greater. -/
theorem Increasing.drop_gt (h : Increasing elements) (hlt : id < first.recordId) :
    ∀ e ∈ elements.drop position, id < e.recordId := by
  intro e he
  obtain ⟨hposition, rfl⟩ := List.getElem?_eq_some_iff.mp hget
  rw [drop_eq_getElem_cons hposition] at he
  rcases mem_cons.mp he with rfl | he
  · exact hlt
  · exact h.drop_succ_gt hget hlt.le e he

end

/-- From a record on that is not below the id, there is nothing to skip. -/
theorem Increasing.filter_of_head_ge (h : Increasing (first :: elements))
    (hge : id ≤ first.recordId) :
    (first :: elements).filter (fun e => e.recordId < id) = [] ∧
      (first :: elements).filter (fun e => !decide (e.recordId < id)) = first :: elements := by
  have hall : ∀ e ∈ first :: elements, ¬e.recordId < id := by
    intro e he
    rcases mem_cons.mp he with rfl | he
    · omega
    · have := (pairwise_cons.mp h).1 e he
      omega
  constructor
  · exact filter_eq_nil_iff.mpr fun e he => by simpa using hall e he
  · exact filter_eq_self.mpr fun e he => by simpa using hall e he

/-- Counting by binary search. -/
theorem Increasing.countLeSorted_eq (h : Increasing elements) (id : ℕ) :
    countLeSorted id (elements.map PostingElement.recordId) =
      (elements.filter fun e => e.recordId ≤ id).length := by
  unfold countLeSorted
  by_cases hlast : (elements.map PostingElement.recordId).getLast?.all (· < id) = true
  · rw [if_pos hlast, length_map, filter_eq_self.mpr]
    intro e he
    obtain ⟨_, last, hget, hle⟩ := h.between he
    grind
  rw [if_neg hlast]
  rw [h.binarySearchByKey_eq (map_id' _), (h.split_at id).1, length_append]
  cases lookup id elements <;> rfl

theorem mem_drop_of_le {α : Type} {l : List α} {m n : ℕ} {a : α} (h : a ∈ l.drop n)
    (hle : m ≤ n) : a ∈ l.drop m := by
  obtain ⟨extra, rfl⟩ := Nat.exists_eq_add_of_le hle
  rw [← drop_drop] at h
  exact mem_of_mem_drop h

end Ordered

namespace CompressedPostingList.Holds

variable {W S : Type} [Weight W S] [BitPacker] {list : CompressedPostingList W}
  {elements : Elements S}

section

variable (h : list.Holds elements)

include h

theorem chunks_le : list.chunks.length * chunkSize ≤ elements.length := by
  rw [h.length_eq]
  exact Nat.div_mul_le_self _ _

theorem len_eq : list.len = elements.length := by
  have hremainders := congrArg length h.remainders_eq
  rw [length_map, length_drop] at hremainders
  have hle := h.chunks_le
  unfold len
  omega

/-- Positions inside chunks are positions of elements. -/
theorem lt_length {position : ℕ}
    (hposition : position / chunkSize < list.chunks.length) : position < elements.length := by
  have hle := h.chunks_le
  unfold chunkSize at *
  omega

/-- A chunk starts with the id it notes. -/
theorem initial_at {index : ℕ} {chunk : CompressedPostingChunk W}
    (hchunk : list.chunks[index]? = some chunk) :
    ∃ first, elements[index * chunkSize]? = some first ∧ first.recordId = chunk.initial := by
  have hhead := (h.chunk_eq index chunk hchunk).1
  rw [block, head?_take, if_neg (by decide), head?_drop,
    Option.map_eq_some_iff] at hhead
  exact hhead

/-- The remainders start where the chunks end. -/
theorem remainder_at (index : ℕ) :
    list.remainders[index]?.map (GenericPostingElement.decode list.quantizationParams) =
      elements[list.chunks.length * chunkSize + index]? := by
  rw [← getElem?_map, h.remainders_eq, getElem?_drop]

/-- Scanning the remainders up to an id finds exactly the ids up to it. -/
theorem takeWhile_remainders (offset id : ℕ) :
    ((list.remainders.drop offset).takeWhile fun e => e.recordId ≤ id).map
        (GenericPostingElement.decode list.quantizationParams) =
      (elements.drop (list.chunks.length * chunkSize + offset)).filter fun e =>
        e.recordId ≤ id := by
  have hinc : Increasing (elements.drop (list.chunks.length * chunkSize + offset)) :=
    h.increasing.sublist (drop_sublist _ _)
  rw [← hinc.takeWhile_le, ← drop_drop, ← h.remainders_eq, ← map_drop, takeWhile_map]
  rfl

/-- Where an id can be. -/
theorem chunkIdById_cases (id : ℕ) :
    (list.chunkIdById id = .before ∧ ∀ e ∈ elements, id < e.recordId) ∨
    (list.chunkIdById id = .after ∧
      ∀ e ∈ elements.take (list.chunks.length * chunkSize), e.recordId < id) ∨
    ∃ index, list.chunkIdById id = .chunk index ∧
      (∀ e ∈ elements.take (index * chunkSize), e.recordId < id) ∧
      (∀ e ∈ elements.drop ((index + 1) * chunkSize), id < e.recordId) ∧
      (index < list.chunks.length ∨ elements = []) := by
  obtain ⟨hbelow, hstop⟩ := takeWhile_boundary
    (fun chunk : CompressedPostingChunk W => decide (chunk.initial < id)) list.chunks
  have hle : (list.chunks.takeWhile fun chunk => chunk.initial < id).length ≤
      list.chunks.length := (takeWhile_sublist _).length_le
  have hsearch := binarySearchByKey_cases CompressedPostingChunk.initial id list.chunks
  generalize (list.chunks.takeWhile fun chunk => decide (chunk.initial < id)).length =
    position at hbelow hstop hle hsearch
  -- Chunks before the found position start below the id.
  have hsmaller : ∀ index < position,
      ∀ e ∈ elements.take (index * chunkSize), e.recordId < id := by
    intro index hindex
    obtain ⟨chunk, hchunk, hlt⟩ := hbelow index hindex
    obtain ⟨first, hfirst, hid⟩ := h.initial_at hchunk
    exact h.increasing.take_lt hfirst (by simp only [decide_eq_true_eq] at hlt; omega)
  unfold chunkIdById
  rcases hsearch with ⟨found, hfound, hkey, hsearch⟩ | ⟨hother, hsearch⟩ <;> rw [hsearch]
  · obtain ⟨first, hfirst, hid⟩ := h.initial_at hfound
    refine Or.inr (Or.inr ⟨_, rfl, h.increasing.take_lt hfirst (by omega), fun e he => ?_,
      Or.inl (List.getElem?_eq_some_iff.mp hfound).1⟩)
    have hle : position * chunkSize + 1 ≤ (position + 1) * chunkSize := by
      unfold chunkSize
      omega
    exact h.increasing.drop_succ_gt hfirst (by omega) e (mem_drop_of_le he hle)
  dsimp only
  by_cases hend : position = list.chunks.length
  · rw [if_pos hend]
    have hremainder := h.remainder_at 0
    rw [← head?_eq_getElem?, Nat.add_zero] at hremainder
    cases hhead : list.remainders.head? with
    | some remainder =>
      rw [hhead] at hremainder
      dsimp only
      by_cases hlt : id < remainder.recordId
      · have habove := h.increasing.drop_gt hremainder.symm hlt
        rw [if_pos hlt]
        by_cases hpos : position > 0
        · grind
        rw [if_neg hpos]
        refine Or.inl ⟨rfl, ?_⟩
        have hzero : list.chunks.length = 0 := by omega
        rwa [hzero, Nat.zero_mul, drop_zero] at habove
      · rw [if_neg hlt]
        exact Or.inr (Or.inl ⟨rfl, h.increasing.take_lt hremainder.symm (not_lt.mp hlt)⟩)
    | none =>
      rw [hhead] at hremainder
      have hlength := getElem?_eq_none_iff.mp hremainder.symm
      refine Or.inr (Or.inr ⟨_, rfl, ?_, ?_, ?_⟩)
      · grind
      · intro e he
        rw [drop_eq_nil_of_le] at he
        · cases he
        · exact hlength.trans (Nat.mul_le_mul_right _ (by omega))
      rcases Nat.eq_zero_or_pos position with rfl | hpos
      · rw [← hend, Nat.zero_mul, Nat.le_zero, length_eq_zero_iff] at hlength
        exact Or.inr hlength
      · exact Or.inl (by omega)
  · rw [if_neg hend]
    have hposition : position < list.chunks.length := by omega
    have hget := getElem?_eq_getElem hposition
    obtain ⟨first, hfirst, hid⟩ := h.initial_at hget
    have hne := hother _ hget
    have hnlt := hstop _ hget
    simp only [decide_eq_false_iff_not] at hnlt
    have habove : ∀ e ∈ elements.drop (position * chunkSize), id < e.recordId :=
      h.increasing.drop_gt hfirst (by omega)
    by_cases hzero : position = 0
    · rw [if_pos hzero]
      refine Or.inl ⟨rfl, ?_⟩
      rwa [hzero, Nat.zero_mul, drop_zero] at habove
    grind

end

end CompressedPostingList.Holds

namespace CompressedPostingListIterator

variable {W S : Type} [Weight W S] [BitPacker] {it : CompressedPostingListIterator W}
  {past rest : Elements S}

/-- The iterator stands between `past` and `rest`; what it has unpacked is the chunk of its
position. -/
structure Reads (it : CompressedPostingListIterator W) (past rest : List (PostingElement S)) :
    Prop where
  holds : it.list.Holds (past ++ rest)
  pos_eq : it.pos.1 = past.length
  cache : it.unpacked = true → it.pos.1 / chunkSize < it.list.chunks.length →
    it.decompressedChunk = it.list.decompressChunk (it.pos.1 / chunkSize)
  current : ∀ id, it.pos.2 = some id → rest.head?.map PostingElement.recordId = some id

namespace Reads

/-- Advancing passes one element. -/
theorem nextFrom {e : PostingElement S} (h : it.Reads past (e :: rest)) :
    it.nextFrom.Reads (past ++ [e]) rest := by
  have hholds : it.list.Holds ((past ++ [e]) ++ rest) := by
    rw [append_assoc]
    exact h.holds
  have hpos : it.pos.1 + 1 = (past ++ [e]).length := by
    rw [h.pos_eq, length_append, length_singleton]
  unfold CompressedPostingListIterator.nextFrom
  split
  · rename_i hchunk
    refine ⟨hholds, hpos, fun hunpacked _ => ?_, by simp⟩
    simp only [Bool.and_eq_true, decide_eq_true_eq] at hunpacked
    -- The chunk changes only where the new position starts one.
    have hsame : (it.pos.1 + 1) / chunkSize = it.pos.1 / chunkSize := by
      have hmod := hunpacked.2
      unfold chunkSize at hmod ⊢
      omega
    rw [hsame]
    exact h.cache hunpacked.1 hchunk
  · rename_i hchunk
    refine ⟨hholds, hpos, fun _ hlt => absurd ?_ hchunk, by simp⟩
    exact (Nat.div_le_div_right (Nat.le_succ _)).trans_lt hlt

/-- What is left of a chunk, as the iterator reads it: the ids, and the weights of the ids up
to a bound. -/
private theorem chunk_tail {segment after : Elements S}
    (hholds : it.list.Holds (past ++ (segment ++ after)))
    (hlength : segment.length = chunkSize - past.length % chunkSize)
    (hchunk : past.length / chunkSize < it.list.chunks.length) (id : ℕ) {count : ℕ}
    (hcount : count = (segment.filter fun e => e.recordId ≤ id).length) :
    (it.list.decompressChunk (past.length / chunkSize)).drop (past.length % chunkSize) =
      segment.map PostingElement.recordId ∧
    ((segment.map PostingElement.recordId).take count).zip
      ((it.list.weightsRange past.length count).map (Weight.toF32 it.list.quantizationParams)) =
      (segment.filter fun e => e.recordId ≤ id).map fun e => (e.recordId, e.weight) := by
  have hblock : (block (past ++ (segment ++ after)) (past.length / chunkSize)).drop
      (past.length % chunkSize) = segment := by
    rw [block, drop_take, drop_drop, Nat.mul_comm, Nat.div_add_mod, drop_left, ← hlength, take_left]
  have hfront : segment.take count = segment.filter fun e => e.recordId ≤ id := by
    have hsegment : Increasing segment :=
      (pairwise_append.mp (pairwise_append.mp hholds.increasing).2.1).1
    nth_rewrite 1 [← hsegment.filter_le_append id]
    rw [hcount, take_left]
  have hget := getElem?_eq_getElem hchunk
  have hweights := (hholds.chunk_eq _ _ hget).2
  constructor
  · rw [hholds.ids_eq _ hchunk, ← map_drop, hblock]
  · unfold CompressedPostingList.weightsRange
    rw [hget]
    rw [map_take, map_drop, hweights, ← map_drop, hblock, ← map_take, ← map_take, hfront, zip_map']

/-- Visiting the rest of a list: chunk by chunk, then the remainder. -/
theorem forEachLoop {C : Type} (id : ℕ) (f : C → ℕ → S → C) (ctx : C) {needUnpack : Bool}
    (hholds : it.list.Holds (past ++ rest))
    (hleft : left = it.list.chunks.length - past.length / chunkSize)
    (hcache : needUnpack = false → past.length / chunkSize < it.list.chunks.length →
      it.decompressedChunk = it.list.decompressChunk (past.length / chunkSize)) :
    (forEachLoop id f left ctx it past.length needUnpack).1 =
      (rest.filter fun e => e.recordId ≤ id).foldl (fun ctx e => f ctx e.recordId e.weight) ctx ∧
    Reads (forEachLoop id f left ctx it past.length needUnpack).2
      (past ++ rest.filter fun e => e.recordId ≤ id)
      (rest.filter fun e => !decide (e.recordId ≤ id)) := by
  have hinc : Increasing rest := (pairwise_append.mp hholds.increasing).2.1
  induction left generalizing it past rest ctx needUnpack with
  | zero =>
    have hge : it.list.chunks.length * chunkSize ≤ past.length := by
      unfold chunkSize at *
      omega
    have hscan := hholds.takeWhile_remainders (past.length - it.list.chunks.length * chunkSize) id
    rw [Nat.add_sub_cancel' hge, drop_left] at hscan
    unfold forEachLoop
    constructor
    · rw [← hscan, foldl_map]
      rfl
    refine ⟨?_, ?_, fun _ hchunk => ?_, by simp⟩
    · rw [append_assoc, hinc.filter_le_append]
      exact hholds
    · rw [length_append, ← hscan, length_map]
    · dsimp only at hchunk
      unfold chunkSize at *
      omega
  | succ left ih =>
    have hchunk : past.length / chunkSize < it.list.chunks.length := by omega
    have hmod : past.length % chunkSize < chunkSize := Nat.mod_lt _ (by decide)
    have hend := hholds.chunks_le
    rw [length_append] at hend
    -- what is left of the chunk, and what comes after it
    obtain ⟨segment, after, rfl, hlength⟩ : ∃ segment after, rest = segment ++ after ∧
        segment.length = chunkSize - past.length % chunkSize :=
      ⟨_, _, (take_append_drop (chunkSize - past.length % chunkSize) rest).symm,
        by rw [length_take]; unfold chunkSize at *; omega⟩
    obtain ⟨hids, hpairs⟩ := chunk_tail hholds hlength hchunk id rfl
    obtain ⟨hsegment, hafter, hbefore⟩ := pairwise_append.mp hinc
    have hunpacked : (if needUnpack = true then { it with
        decompressedChunk := it.list.decompressChunk (past.length / chunkSize) } else it) =
        { it with decompressedChunk := it.list.decompressChunk (past.length / chunkSize) } := by
      cases needUnpack with
      | true => rfl
      | false => rw [if_neg Bool.false_ne_true, ← hcache rfl hchunk]
    unfold forEachLoop
    rw [hunpacked]
    dsimp only
    rw [hids, Increasing.countLeSorted_eq hsegment, hpairs, foldl_map, filter_append, filter_append]
    by_cases hall : ∀ e ∈ segment, e.recordId ≤ id
    · -- The rest of the chunk is visited, and the next chunk is unpacked.
      rw [filter_eq_self.mpr (by simpa using hall), if_neg (by omega),
        (filter_eq_nil_iff (l := segment)).mpr (by simpa using hall), nil_append, foldl_append,
        ← append_assoc, ← length_append]
      refine ih _ (by rw [append_assoc]; exact hholds) ?_
        (fun (habsurd : true = false) _ => Bool.noConfusion habsurd) hafter
      have hquotient : (past ++ segment).length / chunkSize = past.length / chunkSize + 1 := by
        rw [length_append, hlength]
        unfold chunkSize at *
        omega
      dsimp only
      omega
    -- A greater id ends the visit inside the chunk.
    push Not at hall
    obtain ⟨stop, hmem, hgt⟩ := hall
    have hcountLt : (segment.filter fun e => e.recordId ≤ id).length < segment.length :=
      length_filter_lt_length_iff_exists.mpr ⟨stop, hmem, by simpa using hgt⟩
    rw [if_pos (by omega)]
    have happend := hinc.filter_le_append id
    have hbeyond : after.filter (fun e => e.recordId ≤ id) = [] := by
      refine filter_eq_nil_iff.mpr fun e he => ?_
      have := hbefore stop hmem e he
      simp only [decide_eq_true_eq]
      omega
    rw [filter_append, filter_append, hbeyond, append_nil] at happend
    rw [hbeyond, append_nil]
    refine ⟨rfl, ?_, ?_, fun _ _ => ?_, by simp⟩
    · rw [append_assoc, happend]
      exact hholds
    · rw [length_append]
    have hsame : (past.length + (segment.filter fun e => e.recordId ≤ id).length) /
        chunkSize = past.length / chunkSize := by
      unfold chunkSize at *
      omega
    rw [hsame]

variable (h : it.Reads past rest)

include h

theorem rest_increasing : Increasing rest :=
  (pairwise_append.mp h.holds.increasing).2.1

theorem getElem?_pos : (past ++ rest)[it.pos.1]? = rest.head? := by
  rw [h.pos_eq, getElem?_append_right (Nat.le_refl _), Nat.sub_self, head?_eq_getElem?]

/-- The element at the position, as its chunk stores it. -/
theorem chunk_getElem? (hchunk : it.pos.1 / chunkSize < it.list.chunks.length) :
    (it.list.decompressChunk (it.pos.1 / chunkSize))[it.pos.1 % chunkSize]? =
      rest.head?.map PostingElement.recordId ∧
    (it.list.getWeight it.pos.1).map (Weight.toF32 it.list.quantizationParams) =
      rest.head?.map PostingElement.weight := by
  constructor
  · rw [h.holds.ids_eq _ hchunk, getElem?_map, block_getElem?, h.getElem?_pos]
  have hget := getElem?_eq_getElem hchunk
  have hweights := (h.holds.chunk_eq _ _ hget).2
  unfold CompressedPostingList.getWeight
  rw [hget, Option.bind_some, ← getElem?_map, hweights, getElem?_map, block_getElem?,
    h.getElem?_pos]

/-- There is nothing to skip where every id to come is greater. -/
theorem stay {id : ℕ} (habove : ∀ e ∈ rest, id < e.recordId) :
    Skips Reads (none, it) past rest id := by
  refine ⟨(lookup_eq_none habove).symm, ?_⟩
  cases rest with
  | nil => simpa using h
  | cons e rest =>
    obtain ⟨hbelow, hkeep⟩ := h.rest_increasing.filter_of_head_ge
      (habove e mem_cons_self).le
    rw [hbelow, hkeep, append_nil]
    exact h

theorem forEachTillId {C : Type} (id : ℕ) (f : C → ℕ → S → C) (ctx : C) :
    (it.forEachTillId id f ctx).1 =
      (rest.filter fun e => e.recordId ≤ id).foldl (fun ctx e => f ctx e.recordId e.weight) ctx ∧
    Reads (it.forEachTillId id f ctx).2 (past ++ rest.filter fun e => e.recordId ≤ id)
      (rest.filter fun e => !decide (e.recordId ≤ id)) := by
  unfold CompressedPostingListIterator.forEachTillId
  rw [h.pos_eq]
  refine forEachLoop id f ctx h.holds rfl fun hunpacked hchunk => ?_
  rw [← h.pos_eq] at hchunk ⊢
  exact h.cache (by simpa using hunpacked) hchunk

variable [Zero S]

/-- Peeking returns what comes next and does not move. -/
theorem peek :
    it.peek.1.map PostingElementEx.toPostingElement = rest.head? ∧
      it.peek.2.Reads past rest := by
  unfold CompressedPostingListIterator.peek
  dsimp only
  by_cases hchunk : it.pos.1 / chunkSize < it.list.chunks.length
  · rw [if_pos hchunk]
    obtain ⟨hid, hweight⟩ := h.chunk_getElem? hchunk
    have hsome := h.getElem?_pos
    rw [getElem?_eq_getElem (h.holds.lt_length hchunk)] at hsome
    rw [← hsome] at hid hweight ⊢
    obtain ⟨weight, hstored, hdecoded⟩ := Option.map_eq_some_iff.mp hweight
    by_cases hunpacked : it.unpacked = true
    · rw [if_pos hunpacked, h.cache hunpacked hchunk, hid, hstored]
      exact ⟨congrArg some (congrArg (PostingElement.mk _) hdecoded), h⟩
    rw [if_neg hunpacked]
    rw [hid, hstored]
    exact ⟨congrArg some (congrArg (PostingElement.mk _) hdecoded), h.holds, h.pos_eq,
      fun _ _ => rfl, h.current⟩
  · rw [if_neg hchunk]
    refine ⟨?_, h⟩
    have hremainder := h.holds.remainder_at (it.pos.1 - it.list.chunks.length * chunkSize)
    have hge : it.list.chunks.length * chunkSize ≤ it.pos.1 := by
      unfold chunkSize at *
      omega
    rw [Nat.add_sub_cancel' hge, h.getElem?_pos] at hremainder
    rw [← hremainder, Option.map_map]
    rfl

variable {left : ℕ}

/-- Stepping finds the record with the id, and passes exactly the smaller ids. -/
theorem skipLoop (id : ℕ) (hleft : rest.length < left) :
    Skips Reads (skipLoop id left it) past rest id := by
  induction left generalizing it past rest with
  | zero => exact absurd hleft (Nat.not_lt_zero _)
  | succ left ih =>
    obtain ⟨hvalue, hreads⟩ := h.peek
    unfold skipLoop Skips
    cases hpeek : it.peek with
    | mk found next =>
      rw [hpeek] at hvalue hreads
      cases found with
      | none =>
        obtain rfl : rest = [] := head?_eq_none_iff.mp hvalue.symm
        exact ⟨rfl, by simpa using hreads⟩
      | some current =>
        obtain ⟨rest, rfl⟩ := head?_eq_some_iff.mp hvalue.symm
        have hnoted : Reads { next with pos := (next.pos.1, some current.recordId) } past
            (current.toPostingElement :: rest) := by
          refine ⟨hreads.holds, hreads.pos_eq, hreads.cache, ?_⟩
          rintro _ ⟨⟩
          rfl
        dsimp only
        by_cases heq : current.recordId = id
        · obtain ⟨hbelow, habove⟩ := h.rest_increasing.filter_of_head_ge heq.ge
          rw [if_pos heq, hbelow, habove, append_nil]
          exact ⟨by simp [lookup, heq], hnoted⟩
        by_cases hlt : id < current.recordId
        · obtain ⟨hbelow, habove⟩ := h.rest_increasing.filter_of_head_ge hlt.le
          have hnone : lookup id (current.toPostingElement :: rest) = none :=
            lookup_eq_none (forall_mem_cons.mpr ⟨hlt, fun e he =>
              hlt.trans ((pairwise_cons.mp h.rest_increasing).1 e he)⟩)
          rw [if_neg heq, if_pos hlt, hbelow, habove, append_nil, hnone]
          exact ⟨rfl, hnoted⟩
        · rw [if_neg heq, if_neg hlt]
          have hsmaller : current.recordId < id := by omega
          obtain ⟨hfound, hnext⟩ := ih hnoted.nextFrom (Nat.lt_of_succ_lt_succ hleft)
          exact ⟨hfound.trans (by simp [lookup, heq]), by simpa [hsmaller] using hnext⟩

/-- Stepping after a jump over smaller ids, with or without the unpacked chunk. -/
theorem skipLoop_jump {id position : ℕ} (hge : past.length ≤ position)
    (hle : position ≤ (past ++ rest).length) {unpacked : Bool}
    (hcache : unpacked = true → it.unpacked = true ∧ position / chunkSize = it.pos.1 / chunkSize)
    (hskipped : ∀ e ∈ rest.take (position - past.length), e.recordId < id)
    (hleft : it.list.len - position < left) :
    Skips Reads (CompressedPostingListIterator.skipLoop id left
      { it with pos := (position, none), unpacked }) past rest id := by
  have hlen := h.holds.len_eq
  rw [length_append] at hlen hle
  obtain ⟨front, back, rfl, hfront⟩ : ∃ front back, rest = front ++ back ∧
      front.length = position - past.length :=
    ⟨_, _, (take_append_drop (position - past.length) rest).symm, by rw [length_take]; omega⟩
  rw [← hfront, take_left] at hskipped
  rw [length_append] at hlen
  have hjumped : Reads { it with pos := (position, none), unpacked } (past ++ front) back := by
    refine ⟨(append_assoc past front back).symm ▸ h.holds, ?_, fun hunpacked hchunk => ?_, by simp⟩
    · rw [length_append, hfront, Nat.add_sub_cancel' hge]
    · obtain ⟨hbefore, hsame⟩ := hcache hunpacked
      rw [hsame] at hchunk ⊢
      exact h.cache hbefore hchunk
  have hbackLeft : back.length < left := by omega
  obtain ⟨hfound, hreads⟩ := hjumped.skipLoop id hbackLeft
  have hall : front.filter (fun e => e.recordId < id) = front :=
    filter_eq_self.mpr fun e he => by simpa using hskipped e he
  have hnone : front.filter (fun e => !decide (e.recordId < id)) = [] :=
    filter_eq_nil_iff.mpr fun e he => by simpa using hskipped e he
  have hlookup : lookup id (front ++ back) = lookup id back := by
    unfold lookup
    rw [find?_append, find?_eq_none.mpr, Option.none_or]
    exact fun e he => by simpa using (hskipped e he).ne
  unfold Skips
  grind

/-- Skipping passes exactly the smaller ids and returns the record with the id. -/
theorem skipTo (id : ℕ) : Skips Reads (it.skipTo id) past rest id := by
  have hlength : past.length ≤ (past ++ rest).length := by simp
  have hpos := h.pos_eq
  unfold CompressedPostingListIterator.skipTo
  by_cases hahead : it.pos.2.any (fun current => id < current) = true
  · rw [if_pos hahead]
    obtain ⟨current, hcurrent, hlt⟩ := (Option.any_eq_true _ _).mp hahead
    have hhead := h.current current hcurrent
    obtain ⟨e, he, rfl⟩ := Option.map_eq_some_iff.mp hhead
    refine h.stay fun e' he' => ?_
    obtain ⟨⟨first, hfirst, hle⟩, _⟩ := h.rest_increasing.between he'
    rw [he] at hfirst
    cases hfirst
    simp only [decide_eq_true_eq] at hlt
    omega
  rw [if_neg hahead]
  have hchunks := h.holds.chunks_le
  -- A jump only passes elements before its target.
  have hskipped : ∀ position, (∀ e ∈ (past ++ rest).take position, e.recordId < id) →
      ∀ e ∈ rest.take (max it.pos.1 position - past.length), e.recordId < id := by
    intro position hbelow e he
    refine hbelow e ?_
    have hcount : max it.pos.1 position - past.length = position - past.length := by omega
    rw [hcount] at he
    rw [take_append]
    exact mem_append_right _ he
  have hlenToEnd : ∀ position unpacked, it.list.len - position <
      ({ it with pos := (position, none), unpacked } :
        CompressedPostingListIterator W).lenToEnd + 1 := fun _ _ => Nat.lt_succ_self _
  rcases h.holds.chunkIdById_cases id with
    ⟨hsearch, habove⟩ | ⟨hsearch, hbelow⟩ | ⟨index, hsearch, hbelow, habove, hindex⟩
  · rw [hsearch]
    exact h.stay fun e he => habove e (mem_append_right _ he)
  · rw [hsearch]
    exact h.skipLoop_jump (by omega) (by omega) (by simp) (hskipped _ hbelow) (hlenToEnd _ _)
  rw [hsearch]
  unfold CompressedPostingList.chunkIdByPosition
  by_cases hposition : it.pos.1 / chunkSize < it.list.chunks.length
  · rw [if_pos hposition]
    have hstart := Nat.div_mul_le_self it.pos.1 chunkSize
    have hlt := h.holds.lt_length hposition
    have hindex : index < it.list.chunks.length := by
      grind
    dsimp only
    by_cases hless : index < it.pos.1 / chunkSize
    · rw [if_pos hless]
      refine h.stay fun e he => habove e (mem_drop_of_le (n := past.length) ?_ ?_)
      · rwa [drop_left]
      · unfold chunkSize at *
        omega
    rw [if_neg hless]
    by_cases hsame : index = it.pos.1 / chunkSize
    · rw [if_pos hsame]
      have hmax : max it.pos.1 (index * chunkSize) = it.pos.1 := by rw [hsame]; omega
      refine h.skipLoop_jump (by omega) (by omega) (fun hunpacked => ⟨hunpacked, ?_⟩)
        (hskipped _ hbelow) (hlenToEnd _ _)
      rw [hmax]
    rw [if_neg hsame]
    have hpast : past.length ≤ index * chunkSize ∧ index * chunkSize ≤ (past ++ rest).length := by
      unfold chunkSize at *
      omega
    have htake := hskipped (index * chunkSize) hbelow
    rw [hpos, max_eq_right hpast.1] at htake
    exact h.skipLoop_jump hpast.1 hpast.2 (by simp) htake (hlenToEnd _ _)
  · rw [if_neg hposition]
    refine h.stay fun e he => habove e ?_
    rcases hindex with hindex | hempty
    · refine mem_drop_of_le (n := past.length) ?_ ?_
      · rwa [drop_left]
      unfold chunkSize at *
      omega
    · rw [(append_eq_nil_iff.mp hempty).2] at he
      cases he

end Reads

/-- The iterator of a compressed posting list is a cursor. -/
theorem isCursor [Zero S] [Max S] : IsCursor (Reads (W := W) (S := S)) where
  increasing h := h.holds.increasing
  peek_eq h := h.peek.1
  peek_reads h := h.peek.2
  lastId_eq h := h.holds.lastId_eq
  lenToEnd_eq {it past rest} h := by
    change it.list.len - it.pos.1 = _
    rw [h.holds.len_eq, h.pos_eq, length_append, Nat.add_sub_cancel_left]
  skipTo_eq id h := (h.skipTo id).1
  skipTo_reads id h := (h.skipTo id).2
  forEach_eq id f ctx h := (h.forEachTillId id f ctx).1
  forEach_reads id f ctx h := (h.forEachTillId id f ctx).2
  skipTillId_reads {it past rest} id h := by
    refine (h.skipTo id).skipTillId nextFrom Reads.nextFrom h.rest_increasing ?_
    change it.skipTillId id = _
    unfold skipTillId
    rcases it.skipTo id with ⟨_ | _, _⟩ <;> rfl

end CompressedPostingListIterator

end Stratumind
