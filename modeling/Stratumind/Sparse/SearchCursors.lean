import Stratumind.Sparse.NativePlan
import Stratumind.Sparse.PostingUpdates
import Stratumind.Sparse.SearchSteps
import Stratumind.Sparse.SparseRanking

/-!
# Bounds of the posting iterators

The notes of a well-formed posting list in memory bound what its iterator has to come, and
the chunk maxima of a compressed one bound what it has up to an id.
-/

namespace Stratumind

open Lib BlockMax SearchContext List

namespace PostingListIterator

variable {S : Type} {it : PostingListIterator S} {past rest : Elements S}

theorem skipTo_elements (id : ℕ) : (it.skipTo id).2.elements = it.elements := by
  unfold skipTo
  split
  · rfl
  · split <;> rfl

theorem skipTillId_elements (id : ℕ) : (it.skipTillId id).elements = it.elements := by
  have hskip : (it.skipTo id).2.elements = it.elements := skipTo_elements id
  unfold skipTillId
  split
  · rename_i hcase
    rw [hcase] at hskip
    unfold advance
    split <;> exact hskip
  · rename_i hcase
    rw [hcase] at hskip
    exact hskip

variable [LinearOrder S]

/-- The iterator reads a well-formed posting list. -/
structure ReadsNoted (it : PostingListIterator S) (past rest : List (PostingElement S)) :
    Prop where
  reads : it.Reads past rest
  wellFormed : PostingList.WellFormed ⟨it.elements⟩

theorem ReadsNoted.of_elements {next : PostingListIterator S}
    {past' rest' : Elements S} (h : it.ReadsNoted past rest)
    (hreads : next.Reads past' rest') (helements : next.elements = it.elements) :
    next.ReadsNoted past' rest' := by
  refine ⟨hreads, ?_⟩
  rw [helements]
  exact h.wellFormed

/-- The element at the position with its note. -/
theorem ReadsNoted.peek_eq (h : it.ReadsNoted past rest) :
    it.elements[it.currentIndex]? = (withMaxNext rest).head? := by
  have hnotes := h.wellFormed.notes
  dsimp only at hnotes
  rw [h.reads.elements_eq] at hnotes
  rw [hnotes, h.reads.index_eq, ← head?_drop, drop_withMaxNext, drop_left]

/-- A right note covers all weights from its element on. -/
theorem le_maxWeightFromList {first : PostingElementEx S}
    (h : (withMaxNext rest).head? = some first) :
    ∀ e ∈ rest, e.weight ≤ maxWeightFromList first := by
  intro e he
  cases rest with
  | nil => cases he
  | cons head tail =>
    cases h
    rcases mem_cons.mp he with rfl | he
    · exact le_max_left _ _
    have hle := le_maxWeight he
    refine le_trans ?_ (le_max_right _ _)
    cases hmax : maxWeight tail with
    | bot =>
      rw [hmax, le_bot_iff] at hle
      exact absurd hle WithBot.coe_ne_bot
    | coe maximum =>
      rw [hmax] at hle
      exact WithBot.coe_le_coe.mp hle

/-- The iterator of a well-formed posting list in memory can be searched. -/
theorem isSearchCursor [CommRing S] : IsSearchCursor (ReadsNoted (S := S)) where
  increasing h := h.reads.increasing
  peek_eq h := isCursor.peek_eq h.reads
  peek_reads h := h
  lastId_eq h := isCursor.lastId_eq h.reads
  lenToEnd_eq h := isCursor.lenToEnd_eq h.reads
  skipTo_eq id h := isCursor.skipTo_eq id h.reads
  skipTo_reads id h := h.of_elements (isCursor.skipTo_reads id h.reads) (skipTo_elements id)
  forEach_eq id f ctx h := isCursor.forEach_eq id f ctx h.reads
  forEach_reads id f ctx h := h.of_elements (isCursor.forEach_reads id f ctx h.reads) rfl
  skipTillId_reads id h :=
    h.of_elements (isCursor.skipTillId_reads id h.reads) (skipTillId_elements id)
  fits {it past rest} h e he := by
    refine h.wellFormed.fits e ?_
    rw [h.reads.elements_eq]
    exact mem_append_right past he
  currentIndex_eq h := h.reads.index_eq
  skipToEnd_reads {it past rest} _ h := by
    refine h.of_elements ⟨?_, ?_, ?_⟩ rfl
    · rw [append_nil]
      exact h.reads.increasing
    · rw [append_nil]
      exact h.reads.elements_eq
    · change it.elements.length = _
      rw [h.reads.length_eq, length_append]
  maxNextWeight_ge {it past rest first} _ h hpeek := by
    refine le_maxWeightFromList ?_
    rw [← h.peek_eq]
    exact hpeek
  maxWeightTillId_ge _ hreliable _ := absurd hreliable Bool.false_ne_true

end PostingListIterator

namespace CompressedPostingListIterator

variable {W S : Type} [Weight W S] [BitPacker] {it : CompressedPostingListIterator W}
  {past rest : Elements S}

/-- The iterator reads a list whose ids fit their type. -/
structure ReadsFit (it : CompressedPostingListIterator W) (past rest : List (PostingElement S)) :
    Prop where
  reads : it.Reads past rest
  fits : ∀ e ∈ past ++ rest, e.recordId ≤ pointOffsetMax

theorem ReadsFit.of_content {next : CompressedPostingListIterator W}
    {past' rest' : Elements S} (h : it.ReadsFit past rest)
    (hreads : next.Reads (past ++ past') rest') (hcontent : past' ++ rest' = rest) :
    next.ReadsFit (past ++ past') rest' := by
  refine ⟨hreads, ?_⟩
  rw [append_assoc, hcontent]
  exact h.fits

/-- The chunk of a position is among those that can hold ids up to the one at the position. -/
theorem Reads.lt_endChunk (h : it.Reads past rest) {position id : ℕ} {e : PostingElement S}
    (hget : (past ++ rest)[position]? = some e) (hid : e.recordId ≤ id)
    (hchunk : position / chunkSize < it.list.chunks.length) :
    position / chunkSize < partitionPoint
      (fun chunk : CompressedPostingChunk W => chunk.initial ≤ id) it.list.chunks := by
  unfold partitionPoint
  by_contra hge
  have hle := not_lt.mp hge
  obtain ⟨-, hstop⟩ := takeWhile_boundary
    (fun chunk : CompressedPostingChunk W => decide (chunk.initial ≤ id)) it.list.chunks
  generalize (it.list.chunks.takeWhile fun chunk => decide (chunk.initial ≤ id)).length = boundary
    at hle hstop
  have hboundary := getElem?_eq_getElem (lt_of_le_of_lt hle hchunk)
  obtain ⟨first, hfirst, hinitial⟩ := h.holds.initial_at hboundary
  have hlater := hstop _ hboundary
  rw [decide_eq_false_iff_not, not_le, ← hinitial] at hlater
  have hposition : boundary * chunkSize ≤ position :=
    (Nat.le_div_iff_mul_le (by decide)).mp hle
  have hmem : e ∈ (past ++ rest).drop (boundary * chunkSize) := by
    refine mem_iff_getElem?.mpr ⟨position - boundary * chunkSize, ?_⟩
    rw [getElem?_drop, Nat.add_sub_cancel' hposition, hget]
  have habove := h.holds.increasing.drop_gt hfirst hlater e hmem
  omega

section Maxima

variable [CommRing S] [LinearOrder S]

/-- The maximum through an id covers zero and every weight to come up to the id. -/
theorem Reads.maxWeightTillId_ge (h : it.Reads past rest) (id : ℕ) :
    ∃ maximum, it.maxWeightTillId id = some maximum ∧ 0 ≤ maximum ∧
      ∀ e ∈ rest, e.recordId ≤ id → e.weight ≤ maximum := by
  refine ⟨_, rfl, le_foldl_max.1.trans le_foldl_max.1, fun e he hid => ?_⟩
  obtain ⟨offset, hoffset⟩ := mem_iff_getElem?.mp he
  have hget : (past ++ rest)[past.length + offset]? = some e := by
    rw [getElem?_append_right (Nat.le_add_right _ _), Nat.add_sub_cancel_left]
    exact hoffset
  have hpos := h.pos_eq
  by_cases hchunk : (past.length + offset) / chunkSize < it.list.chunks.length
  · -- The chunk of the element lies between the current and the end chunk.
    refine le_trans ?_ le_foldl_max.1
    have hchunks := getElem?_eq_getElem hchunk
    have hend := h.lt_endChunk hget hid hchunk
    have hcurrent : it.pos.1 / chunkSize ≤ (past.length + offset) / chunkSize := by
      rw [hpos]
      exact Nat.div_le_div_right (Nat.le_add_right _ _)
    have hmem : it.list.chunks[(past.length + offset) / chunkSize] ∈
        (it.list.chunks.take (partitionPoint
          (fun chunk : CompressedPostingChunk W => chunk.initial ≤ id) it.list.chunks)).drop
          (it.pos.1 / chunkSize) := by
      refine mem_iff_getElem?.mpr
        ⟨(past.length + offset) / chunkSize - it.pos.1 / chunkSize, ?_⟩
      rw [getElem?_drop, Nat.add_sub_cancel' hcurrent, getElem?_take_of_lt hend, hchunks]
    have hweight : e.weight ≤ decodedChunkMax it.list.quantizationParams
        it.list.chunks[(past.length + offset) / chunkSize] := by
      refine le_foldl_max.2 _ ?_
      rw [(h.holds.chunk_eq _ _ hchunks).2]
      exact mem_map_of_mem (mem_block.mpr ⟨_, rfl, hget⟩)
    rw [if_pos (lt_of_le_of_lt hcurrent hchunk)]
    exact hweight.trans (le_foldl_max.2 _ (mem_map_of_mem hmem))
  -- The element is a remainder that the scan reaches.
  refine le_foldl_max.2 _ ?_
  have hge := (Nat.le_div_iff_mul_le (by decide)).mp (not_lt.mp hchunk)
  have hscan : e ∈ ((it.list.remainders.drop
      (it.pos.1 - it.list.chunks.length * chunkSize)).takeWhile fun e =>
        decide (e.recordId ≤ id)).map
      (GenericPostingElement.decode it.list.quantizationParams) := by
    rw [h.holds.takeWhile_remainders]
    refine mem_filter.mpr ⟨?_, decide_eq_true hid⟩
    refine mem_iff_getElem?.mpr ⟨past.length + offset - (it.list.chunks.length * chunkSize +
      (it.pos.1 - it.list.chunks.length * chunkSize)), ?_⟩
    rw [getElem?_drop, Nat.add_sub_cancel' (by omega), hget]
  have hreach : (decide (it.pos.1 ≥ it.list.chunks.length * chunkSize) ||
      it.list.remainders.head?.any fun e => decide (id ≥ e.recordId)) = true := by
    rw [Bool.or_eq_true, decide_eq_true_eq]
    by_cases hpast : it.pos.1 ≥ it.list.chunks.length * chunkSize
    · exact Or.inl hpast
    right
    rw [Nat.sub_eq_zero_of_le (by omega), drop_zero] at hscan
    cases hlist : it.list.remainders with
    | nil =>
      rw [hlist] at hscan
      cases hscan
    | cons first remainders =>
      rw [hlist] at hscan
      by_cases hfirst : first.recordId ≤ id
      · simpa using hfirst
      · rw [takeWhile_cons_of_neg (by simpa using hfirst)] at hscan
        cases hscan
  rw [if_pos hreach]
  obtain ⟨remainder, hremainder, rfl⟩ := mem_map.mp hscan
  exact mem_map_of_mem hremainder

end Maxima

/-- The iterator of a compressed posting list can be searched. -/
theorem isSearchCursor [CommRing S] [LinearOrder S] :
    IsSearchCursor (ReadsFit (W := W) (S := S)) where
  increasing h := isCursor.increasing h.reads
  peek_eq h := isCursor.peek_eq h.reads
  peek_reads h := ⟨isCursor.peek_reads h.reads, h.fits⟩
  lastId_eq h := isCursor.lastId_eq h.reads
  lenToEnd_eq h := isCursor.lenToEnd_eq h.reads
  skipTo_eq id h := isCursor.skipTo_eq id h.reads
  skipTo_reads id h :=
    h.of_content (isCursor.skipTo_reads id h.reads) (h.reads.rest_increasing.filter_lt_append id)
  forEach_eq id f ctx h := isCursor.forEach_eq id f ctx h.reads
  forEach_reads id f ctx h := h.of_content (isCursor.forEach_reads id f ctx h.reads)
    (h.reads.rest_increasing.filter_le_append id)
  skipTillId_reads id h := h.of_content (isCursor.skipTillId_reads id h.reads)
    (h.reads.rest_increasing.filter_le_append id)
  fits h e he := h.fits e (mem_append_right _ he)
  currentIndex_eq h := h.reads.pos_eq
  skipToEnd_reads hreliable _ := absurd hreliable Bool.false_ne_true
  maxNextWeight_ge hreliable _ _ := absurd hreliable Bool.false_ne_true
  maxWeightTillId_ge id _ h := h.reads.maxWeightTillId_ge id

end CompressedPostingListIterator

/-!
### The compressed cursor refines the plain one

Under every sequence of operations, an iterator over a compressed posting list and an iterator
over a plain posting list of the same records return the same values and stand at the same
positions. Both follow one run over the elements passed and to come.
-/

variable {T S : Type}

/-- An operation on a posting iterator. -/
inductive CursorOperation
  | peek
  | skipTo (id : ℕ)
  | skipTillId (id : ℕ)
  | forEachTillId (id : ℕ)
  | skipToEnd
  | lenToEnd
  | currentIndex

/-- What an operation returns, and the position that it leaves. -/
structure CursorOutput (S : Type) where
  /-- The record that is returned, if any. -/
  element : Option (PostingElement S) := none
  /-- The visited ids and weights, in the order of the visits. -/
  visited : List (ℕ × S) := []
  length : Option ℕ := none
  position : ℕ

/-- Collects the visited ids and weights. -/
def collectVisited (visited : List (ℕ × S)) (id : ℕ) (weight : S) : List (ℕ × S) :=
  visited ++ [(id, weight)]

namespace CursorOperation

/-- One operation on an iterator. -/
def apply [PostingListIter T S] (it : T) : CursorOperation → CursorOutput S × T
  | peek =>
    let (element, it) := PostingListIter.peek it
    ({ element := element.map PostingElementEx.toPostingElement
       position := PostingListIter.currentIndex it }, it)
  | skipTo id =>
    let (element, it) := PostingListIter.skipTo id it
    ({ element := element.map PostingElementEx.toPostingElement
       position := PostingListIter.currentIndex it }, it)
  | skipTillId id =>
    let it := PostingListIter.skipTillId id it
    ({ position := PostingListIter.currentIndex it }, it)
  | forEachTillId id =>
    let (visited, it) := PostingListIter.forEachTillId id collectVisited [] it
    ({ visited, position := PostingListIter.currentIndex it }, it)
  | skipToEnd =>
    let it := PostingListIter.skipToEnd it
    ({ position := PostingListIter.currentIndex it }, it)
  | lenToEnd =>
    ({ length := some (PostingListIter.lenToEnd it)
       position := PostingListIter.currentIndex it }, it)
  | currentIndex => ({ position := PostingListIter.currentIndex it }, it)

/-- The outputs of a sequence of operations. -/
def outputs [PostingListIter T S] (it : T) : List CursorOperation → List (CursorOutput S)
  | [] => []
  | operation :: operations =>
    (operation.apply it).1 :: outputs (operation.apply it).2 operations

/-- The elements that an operation passes, and those it leaves to come. -/
def passes (rest : List (PostingElement S)) :
    CursorOperation → List (PostingElement S) × List (PostingElement S)
  | peek | lenToEnd | currentIndex => ([], rest)
  | skipTo id =>
    (rest.filter fun e => e.recordId < id, rest.filter fun e => !decide (e.recordId < id))
  | skipTillId id | forEachTillId id =>
    (rest.filter fun e => e.recordId ≤ id, rest.filter fun e => !decide (e.recordId ≤ id))
  | skipToEnd => (rest, [])

/-- What an operation returns, by the elements passed and to come. -/
def returned (past rest : List (PostingElement S)) (operation : CursorOperation) :
    CursorOutput S where
  element := match operation with
    | peek => rest.head?
    | skipTo id => lookup id rest
    | _ => none
  visited := match operation with
    | forEachTillId id => (rest.filter fun e => e.recordId ≤ id).map fun e => (e.recordId, e.weight)
    | _ => []
  length := match operation with
    | lenToEnd => some rest.length
    | _ => none
  position := past.length + (operation.passes rest).1.length

end CursorOperation

/-- A cursor whose position counts the elements passed, and that can pass all of them. -/
structure IsPositionedCursor [PostingListIter T S]
    (Reads : T → List (PostingElement S) → List (PostingElement S) → Prop) : Prop
    extends IsCursor Reads where
  currentIndex_eq {it past rest} : Reads it past rest →
    PostingListIter.currentIndex it = past.length
  skipToEnd_reads {it past rest} : Reads it past rest →
    Reads (PostingListIter.skipToEnd it) (past ++ rest) []

namespace IsPositionedCursor

variable [PostingListIter T S]
  {Reads : CursorReads T S} {it : T}
  {past rest : Elements S}

omit [PostingListIter T S] in
private theorem foldl_collectVisited (elements : Elements S) (visited : List (ℕ × S)) :
    elements.foldl (fun visited e => collectVisited visited e.recordId e.weight) visited =
      visited ++ elements.map fun e => (e.recordId, e.weight) := by
  induction elements generalizing visited with
  | nil => simp
  | cons e elements ih =>
    rw [foldl_cons, ih, collectVisited, append_assoc]
    rfl

/-- One operation returns and passes what the elements say. -/
theorem apply_eq (h : IsPositionedCursor Reads) (hreads : Reads it past rest)
    (operation : CursorOperation) :
    (operation.apply it).1 = operation.returned past rest ∧
      Reads (operation.apply it).2 (past ++ (operation.passes rest).1)
        (operation.passes rest).2 := by
  have hposition : ∀ {next passed rest'}, Reads next (past ++ passed) rest' →
      PostingListIter.currentIndex next = past.length + passed.length := by
    intro next passed rest' hnext
    rw [h.currentIndex_eq hnext, length_append]
  have hstay : Reads it (past ++ []) rest := by rwa [append_nil]
  cases operation with
  | peek =>
    have hnext : Reads (PostingListIter.peek it).2 (past ++ []) rest := by
      rw [append_nil]
      exact h.peek_reads hreads
    refine ⟨?_, hnext⟩
    simp only [CursorOperation.apply, h.peek_eq hreads, hposition hnext]
    rfl
  | skipTo id =>
    have hnext := h.skipTo_reads id hreads
    refine ⟨?_, hnext⟩
    simp only [CursorOperation.apply, h.skipTo_eq id hreads, hposition hnext]
    rfl
  | skipTillId id =>
    have hnext := h.skipTillId_reads id hreads
    refine ⟨?_, hnext⟩
    simp only [CursorOperation.apply, hposition hnext]
    rfl
  | forEachTillId id =>
    have hnext := h.forEach_reads id collectVisited [] hreads
    refine ⟨?_, hnext⟩
    simp only [CursorOperation.apply, h.forEach_eq id collectVisited [] hreads, hposition hnext,
      foldl_collectVisited, nil_append]
    rfl
  | skipToEnd =>
    have hnext := h.skipToEnd_reads hreads
    refine ⟨?_, hnext⟩
    simp only [CursorOperation.apply, hposition hnext]
    rfl
  | lenToEnd =>
    refine ⟨?_, hstay⟩
    simp only [CursorOperation.apply, h.lenToEnd_eq hreads, hposition hstay]
    rfl
  | currentIndex =>
    refine ⟨?_, hstay⟩
    simp only [CursorOperation.apply, hposition hstay]
    rfl

/-- Two cursors over the same elements return the same under all operations. -/
theorem outputs_eq {T' : Type} [PostingListIter T' S] {Reads' : T' → Elements S → Elements S → Prop}
    (h : IsPositionedCursor Reads) (h' : IsPositionedCursor Reads') {it' : T'}
    (hreads : Reads it past rest) (hreads' : Reads' it' past rest)
    (operations : List CursorOperation) :
    CursorOperation.outputs it operations = CursorOperation.outputs it' operations := by
  induction operations generalizing it it' past rest with
  | nil => rfl
  | cons operation operations ih =>
    obtain ⟨hreturned, hnext⟩ := h.apply_eq hreads operation
    obtain ⟨hreturned', hnext'⟩ := h'.apply_eq hreads' operation
    rw [CursorOperation.outputs, CursorOperation.outputs, hreturned, hreturned', ih hnext hnext']

end IsPositionedCursor

theorem PostingListIterator.isPositionedCursor [Zero S] [Max S] :
    IsPositionedCursor (PostingListIterator.Reads (S := S)) where
  toIsCursor := isCursor
  currentIndex_eq h := h.index_eq
  skipToEnd_reads {it past rest} h := by
    refine ⟨?_, ?_, ?_⟩
    · rw [append_nil]
      exact h.increasing
    · rw [append_nil]
      exact h.elements_eq
    · rw [length_append]
      exact h.length_eq

section Compressed

variable {W : Type} [Weight W S] [BitPacker]

theorem CompressedPostingListIterator.isPositionedCursor [Zero S] [Max S] :
    IsPositionedCursor (CompressedPostingListIterator.Reads (W := W) (S := S)) where
  toIsCursor := isCursor
  currentIndex_eq h := h.pos_eq
  skipToEnd_reads {it past rest} h := by
    refine ⟨?_, ?_, fun _ hchunk => ?_, fun id hid => ?_⟩
    · rw [append_nil]
      exact h.holds
    · exact h.holds.len_eq
    · -- the end lies behind all chunks, so the cached chunk is not read
      have hend : it.list.chunks.length ≤
          (it.list.chunks.length * chunkSize + it.list.remainders.length) / chunkSize :=
        (Nat.le_div_iff_mul_le (by decide)).mpr (Nat.le_add_right _ _)
      exact absurd hchunk (Nat.not_lt.mpr hend)
    · cases hid

/-- The compressed builder sorts the records by id. -/
theorem CompressedPostingList.build_eq_of_perm {elements sorted : Elements S}
    (h : Increasing sorted) (hperm : sorted.Perm elements) :
    CompressedPostingList.build W elements = CompressedPostingList.build W sorted := by
  unfold CompressedPostingList.build
  rw [h.sortBy_eq hperm, h.sortBy_eq (Perm.refl sorted)]

end Compressed

/-- For records with distinct ids, every sequence of operations returns the same from the
compressed list as from the plain one, position by position. -/
theorem compressed_cursor_refines_plain [LinearOrder S] [Zero S] [BitPacker] [LawfulBitPacker]
    {records : List (ℕ × S)} (hdistinct : (records.map Prod.fst).Nodup)
    (operations : List CursorOperation) :
    ∃ list, PostingList.build records = some list ∧
      CursorOperation.outputs (CompressedPostingList.build S
        (records.map fun record => ⟨record.1, record.2⟩)).iter operations =
      CursorOperation.outputs list.iter operations := by
  obtain ⟨elements, hbuild, hinc, hperm⟩ := PostingList.build_withMaxNext hdistinct
  refine ⟨_, hbuild, ?_⟩
  have hholds := CompressedPostingList.holds_build (W := S) hinc
  have hdecoded : decoded S elements = elements := map_id elements
  rw [hdecoded] at hholds
  rw [CompressedPostingList.build_eq_of_perm hinc hperm]
  have hcompressed : CompressedPostingListIterator.Reads
      (CompressedPostingList.build S elements).iter [] elements :=
    ⟨hholds, rfl, by simp [CompressedPostingList.iter], by simp [CompressedPostingList.iter]⟩
  refine CompressedPostingListIterator.isPositionedCursor.outputs_eq
    PostingListIterator.isPositionedCursor hcompressed ?_ operations
  exact ⟨hinc, map_withMaxNext elements, rfl⟩

private def longRecords : List (ℕ × ℤ) := (range 130).map fun id : ℕ => (2 * id, (id : ℤ))

open FixedWidth in
/-- One full chunk and two more records. -/
theorem compressed_cursor_refines_plain_130 :
    ∃ list, PostingList.build longRecords = some list ∧
      CursorOperation.outputs (CompressedPostingList.build ℤ
        (longRecords.map fun record => ⟨record.1, record.2⟩)).iter
        [.skipTo 100, .skipTillId 256, .forEachTillId 258] =
      CursorOperation.outputs list.iter [.skipTo 100, .skipTillId 256, .forEachTillId 258] := by
  refine compressed_cursor_refines_plain ?_ _
  rw [longRecords, map_map]
  refine nodup_range.map fun a b hab => ?_
  simpa using hab

end Stratumind
