import Stratumind.Sparse.CompressedCursor
import Stratumind.Sparse.PlainPlan

/-!
# The plan over compressed posting lists

A compressed list gives the maximum of every chunk to all ranges that the ids of the chunk
can reach. This covers every stored weight, but it can also reach ranges in which the list
stores nothing.
-/

namespace Stratumind

open Lib BlockMax List

section Spans

variable {S : Type}

/-- The ids that share a maximum with a position: those from the first of its chunk to the
last before the next one, or its own id outside the chunks. -/
def chunkSpan (elements : List (PostingElement S)) (position : ℕ) : ℕ × ℕ :=
  let chunk := position / chunkSize
  if chunk < elements.length / chunkSize then
    (idAt elements (chunk * chunkSize),
      ((elements[(chunk + 1) * chunkSize]?.map fun next => next.recordId - 1).or
        (elements.getLast?.map PostingElement.recordId)).getD 0)
  else pointSpan elements position

/-- A position lies in its own span. -/
theorem Increasing.mem_chunkSpan {elements : Elements S} (h : Increasing elements)
    {position : ℕ} {e : PostingElement S} (he : elements[position]? = some e) :
    (chunkSpan elements position).1 ≤ e.recordId ∧
      e.recordId ≤ (chunkSpan elements position).2 := by
  have hself := idAt_eq he
  unfold chunkSpan
  dsimp only
  split
  · have hstart := Nat.div_mul_le_self position chunkSize
    have hend : position < (position / chunkSize + 1) * chunkSize :=
      (Nat.div_lt_iff_lt_mul (by decide)).mp (Nat.lt_succ_self _)
    have hlt := (List.getElem?_eq_some_iff.mp he).1
    constructor
    · obtain ⟨first, hfirst⟩ : ∃ first, elements[position / chunkSize * chunkSize]? = some first :=
        ⟨_, getElem?_eq_getElem (by omega)⟩
      rw [idAt_eq hfirst]
      by_contra hgt
      have habove := h.drop_gt hfirst (not_le.mp hgt) e
        (mem_drop_of_le (n := position) ?_ hstart)
      · omega
      · exact mem_of_getElem? (i := 0) (by rw [getElem?_drop, Nat.add_zero, he])
    cases hnext : elements[(position / chunkSize + 1) * chunkSize]? with
    | some next =>
      have hbelow := h.take_lt hnext (Nat.le_refl _) e
        (mem_of_getElem? (i := position) (by rw [getElem?_take_of_lt hend, he]))
      change e.recordId ≤ next.recordId - 1
      omega
    | none =>
      obtain ⟨_, last, hlast, hle⟩ := h.between (mem_of_getElem? he)
      rw [hlast]
      exact hle
  · exact ⟨hself.le, hself.ge⟩

end Spans

section Maxima

variable {S : Type} [LinearOrder S] [Zero S]

/-- The maximum of the values whose interval has the range, and zero. -/
def coverMax (covers : List (ℕ × ℕ × S)) (range : ℕ) : S :=
  ((covers.filter fun cover => cover.1 ≤ range ∧ range ≤ cover.2.1).map
    fun cover => cover.2.2).foldl max 0

omit [Zero S] in
/-- Raising an interval of ranges. -/
theorem raiseRanges_getElem? (maxima : List S) (first last : ℕ) (maximum : S) (range : ℕ) :
    (CompressedPostingListIterator.raiseRanges maxima first last maximum)[range]? =
      maxima[range]?.map fun value =>
        if first ≤ range ∧ range ≤ last then max value maximum else value := by
  have hfold : ∀ (ranges : List ℕ) (maxima : List S),
      (ranges.foldl (fun maxima range => maxima.modify range (max · maximum)) maxima)[range]? =
        maxima[range]?.map fun value => if range ∈ ranges then max value maximum else value := by
    intro ranges
    induction ranges with
    | nil => simp
    | cons other ranges ih =>
      intro maxima
      rw [foldl_cons, ih, getElem?_modify]
      cases maxima[range]? with
      | none => rfl
      | some value =>
        by_cases hother : other = range
        · subst hother
          by_cases hmem : other ∈ ranges <;> simp [hmem]
        · have hother' : range ≠ other := Ne.symm hother
          simp [hother, hother']
  unfold CompressedPostingListIterator.raiseRanges
  rw [hfold]
  congr 1
  funext value
  refine if_congr ?_ rfl rfl
  rw [mem_range'_1]
  omega

omit [Zero S] in
/-- Raising one interval after the other. -/
theorem foldl_raise_getElem? {β : Type} {step : List S → β → List S} (cover : β → ℕ × ℕ × S)
    {range : ℕ} (hstep : ∀ maxima b, (step maxima b)[range]? = maxima[range]?.map fun value =>
      if (cover b).1 ≤ range ∧ range ≤ (cover b).2.1 then max value (cover b).2.2 else value)
    (entries : List β) (maxima : List S) :
    (entries.foldl step maxima)[range]? = maxima[range]?.map fun value =>
      (((entries.map cover).filter fun cover => cover.1 ≤ range ∧ range ≤ cover.2.1).map
        fun cover => cover.2.2).foldl max value := by
  induction entries generalizing maxima with
  | nil => simp
  | cons b entries ih =>
    rw [foldl_cons, ih, hstep, Option.map_map, map_cons]
    congr 1
    funext value
    by_cases hcover : (cover b).1 ≤ range ∧ range ≤ (cover b).2.1
    · rw [Function.comp_apply, if_pos hcover, filter_cons_of_pos (by simpa using hcover)]
      rfl
    · rw [Function.comp_apply, if_neg hcover, filter_cons_of_neg (by simpa using hcover)]

end Maxima

section Fill

variable {W S : Type} [Weight W S] [LinearOrder S] [Zero S]

/-- The interval of ranges that a chunk raises, with its maximum. -/
def chunkCover (list : CompressedPostingList W) (rangeOf : ℕ → ℕ)
    (entry : CompressedPostingChunk W × ℕ) : ℕ × ℕ × S :=
  (rangeOf entry.1.initial, rangeOf (CompressedPostingListIterator.coveredEnd list entry.2 entry.1),
    decodedChunkMax list.quantizationParams entry.1)

/-- The range that a remainder raises, with its weight. -/
def remainderCover (list : CompressedPostingList W) (rangeOf : ℕ → ℕ)
    (e : GenericPostingElement W) : ℕ × ℕ × S :=
  (rangeOf e.recordId, rangeOf e.recordId, Weight.toF32 list.quantizationParams e.weight)

/-- The intervals of ranges that a list raises, with their maxima. -/
def blockCovers (list : CompressedPostingList W) (rangeOf : ℕ → ℕ) : List (ℕ × ℕ × S) :=
  list.chunks.zipIdx.map (chunkCover list rangeOf) ++
    list.remainders.map (remainderCover list rangeOf)

/-- Filling a buffer gives each range the maximum of what covers it. -/
theorem fillBlockMaxRanges_eq (it : CompressedPostingListIterator W) (rangeStart rangeWidth : ℕ)
    (maxima : List S) :
    it.fillBlockMaxRanges rangeStart rangeWidth maxima =
      (true, (List.range maxima.length).map
        (coverMax (blockCovers it.list fun id => (id - rangeStart) / rangeWidth))) := by
  refine congrArg (Prod.mk true) (ext_getElem? fun range => ?_)
  rw [foldl_raise_getElem?
      (remainderCover it.list fun id => (id - rangeStart) / rangeWidth) (fun maxima e => ?_),
    foldl_raise_getElem? (chunkCover it.list fun id => (id - rangeStart) / rangeWidth)
      (fun maxima entry => ?_)]
  · rw [getElem?_map, getElem?_map, Option.map_map, Option.map_map]
    unfold coverMax blockCovers
    grind
  · exact raiseRanges_getElem? _ _ _ _ _
  · rw [getElem?_modify]
    congr 1
    funext value
    refine if_congr ?_ rfl rfl
    unfold remainderCover
    dsimp only
    omega

variable [BitPacker] {list : CompressedPostingList W} {elements : Elements S}

omit [LinearOrder S] [Zero S] in
/-- Positions of a chunk share the ids that the chunk covers. -/
theorem CompressedPostingList.Holds.chunkSpan_eq (h : list.Holds elements) {position : ℕ}
    {chunk : CompressedPostingChunk W} (hchunk : list.chunks[position / chunkSize]? = some chunk) :
    chunkSpan elements position = (chunk.initial,
      CompressedPostingListIterator.coveredEnd list (position / chunkSize) chunk) := by
  have hlt := (List.getElem?_eq_some_iff.mp hchunk).1
  obtain ⟨first, hfirst, hinitial⟩ := h.initial_at hchunk
  unfold chunkSpan CompressedPostingListIterator.coveredEnd
  rw [if_pos (h.length_eq ▸ hlt), idAt_eq hfirst, hinitial]
  refine congrArg (Prod.mk _) ?_
  cases hnext : list.chunks[position / chunkSize + 1]? with
  | some next =>
    obtain ⟨e, he, hid⟩ := h.initial_at hnext
    rw [he]
    exact congrArg (· - 1) hid
  | none =>
    have hend : position / chunkSize + 1 = list.chunks.length := by
      have := getElem?_eq_none_iff.mp hnext
      omega
    have hremainder := h.remainder_at 0
    rw [← head?_eq_getElem?, Nat.add_zero, ← hend] at hremainder
    rw [← hremainder]
    cases hhead : list.remainders.head? with
    | some remainder => rfl
    | none =>
      obtain ⟨_, last, hlast, _⟩ := h.increasing.between (mem_of_getElem? hfirst)
      rw [h.lastId_eq, hlast]
      rfl

omit [LinearOrder S] [Zero S] in
/-- Positions after the chunks stand alone. -/
theorem CompressedPostingList.Holds.chunkSpan_of_le (h : list.Holds elements) {position : ℕ}
    (hle : list.chunks.length ≤ position / chunkSize) :
    chunkSpan elements position = pointSpan elements position := by
  exact if_neg (not_lt.mpr (h.length_eq ▸ hle))

/-- What the maximum of a range exceeds, some stored weight exceeds whose span meets the
range. -/
theorem CompressedPostingList.Holds.lt_coverMax_iff (h : list.Holds elements) (rangeOf : ℕ → ℕ)
    (range : ℕ) {bound : S} (hbound : 0 ≤ bound) :
    bound < coverMax (blockCovers list rangeOf) range ↔
      ∃ position e, elements[position]? = some e ∧ bound < e.weight ∧
        rangeOf (chunkSpan elements position).1 ≤ range ∧
        range ≤ rangeOf (chunkSpan elements position).2 := by
  unfold coverMax
  rw [lt_foldl_max_iff, or_iff_right (not_lt.mpr hbound)]
  constructor
  · rintro ⟨_, hmem, hlt⟩
    obtain ⟨cover, hcover, rfl⟩ := mem_map.mp hmem
    obtain ⟨hcover, hrange⟩ := mem_filter.mp hcover
    simp only [decide_eq_true_eq] at hrange
    rcases mem_append.mp hcover with hcover | hcover
    · obtain ⟨⟨chunk, index⟩, hentry, rfl⟩ := mem_map.mp hcover
      have hchunk := mk_mem_zipIdx_iff_getElem?.mp hentry
      have hweight := (lt_foldl_max_iff.mp hlt).resolve_left (not_lt.mpr hbound)
      rw [(h.chunk_eq index chunk hchunk).2] at hweight
      obtain ⟨_, hweight, hexceeds⟩ := hweight
      obtain ⟨e, he, rfl⟩ := mem_map.mp hweight
      obtain ⟨position, rfl, hget⟩ := mem_block.mp he
      refine ⟨position, e, hget, hexceeds, ?_⟩
      rw [h.chunkSpan_eq hchunk]
      exact hrange
    · obtain ⟨remainder, hremainder, rfl⟩ := mem_map.mp hcover
      obtain ⟨index, hindex⟩ := mem_iff_getElem?.mp hremainder
      have hget := h.remainder_at index
      rw [hindex] at hget
      refine ⟨_, _, hget.symm, hlt, ?_⟩
      rw [h.chunkSpan_of_le ((Nat.le_div_iff_mul_le (by decide)).mpr (Nat.le_add_right _ _)),
        pointSpan, idAt_eq hget.symm]
      exact hrange
  · rintro ⟨position, e, he, hlt, hrange⟩
    by_cases hchunk : position / chunkSize < list.chunks.length
    · have hget := List.getElem?_eq_getElem hchunk
      rw [h.chunkSpan_eq hget] at hrange
      refine ⟨_, mem_map_of_mem (mem_filter.mpr ⟨mem_append_left _
        (mem_map_of_mem (mk_mem_zipIdx_iff_getElem?.mpr hget)), ?_⟩), ?_⟩
      · rw [decide_eq_true_eq]
        exact hrange
      refine lt_foldl_max_iff.mpr (Or.inr ⟨e.weight, ?_, hlt⟩)
      rw [(h.chunk_eq _ _ hget).2]
      exact mem_map_of_mem (mem_block.mpr ⟨position, rfl, he⟩)
    have hge : list.chunks.length * chunkSize ≤ position :=
      (Nat.le_div_iff_mul_le (by decide)).mp (not_lt.mp hchunk)
    have hget := h.remainder_at (position - list.chunks.length * chunkSize)
    rw [Nat.add_sub_cancel' hge, he] at hget
    obtain ⟨remainder, hremainder, rfl⟩ := Option.map_eq_some_iff.mp hget
    rw [h.chunkSpan_of_le (not_lt.mp hchunk), pointSpan, idAt_eq he] at hrange
    refine ⟨_, mem_map_of_mem (mem_filter.mpr ⟨mem_append_right _
      (mem_map_of_mem (mem_of_getElem? hremainder)), ?_⟩), hlt⟩
    rw [decide_eq_true_eq]
    exact hrange

end Fill

section Plan

variable {W S : Type} [Weight W S] [CommRing S] [LinearOrder S] [BitPacker]
  {postings : List (WeightedPosting (CompressedPostingListIterator W) S)}
  {terms : Terms S} {minId width : ℕ}

/-- The stored maxima of all posting lists. -/
def nativeMaxima (minId width : ℕ)
    (postings : List (WeightedPosting (CompressedPostingListIterator W) S)) : List ((ℕ → S) × S) :=
  postings.map fun posting =>
    (coverMax (blockCovers posting.iterator.list fun id => (id - minId) / width),
      posting.queryWeight)

/-- Stored maxima cover the weights of a list, and come from weights whose span reaches the
range. -/
theorem spanned_nativeMaxima
    (hfresh : Forall₂ (Fresh CompressedPostingListIterator.Reads) postings terms)
    (hnonneg : ∀ term ∈ terms, 0 ≤ term.2) (minId width : ℕ) :
    Forall₂ (Spanned chunkSpan minId width) (nativeMaxima minId width postings) terms := by
  unfold nativeMaxima
  rw [forall₂_map_left_iff]
  refine forall₂_imp_mem hfresh fun posting term hterm ⟨hreads, hweight⟩ => ?_
  have hholds : posting.iterator.list.Holds term.1 := hreads.holds
  have hcover := hholds.lt_coverMax_iff fun id => (id - minId) / width
  refine ⟨⟨⟨fun _ => le_foldl_max.1, fun e he => ?_⟩, hweight, hnonneg term hterm⟩,
    fun range => hcover range le_rfl⟩
  by_contra hlt
  obtain ⟨position, hget⟩ := mem_iff_getElem?.mp he
  obtain ⟨hfirst, hlast⟩ := hholds.increasing.mem_chunkSpan hget
  have hself := (hcover ((e.recordId - minId) / width) le_foldl_max.1).mpr
    ⟨position, e, hget, not_le.mp hlt, Nat.div_le_div_right (Nat.sub_le_sub_right hfirst _),
      Nat.div_le_div_right (Nat.sub_le_sub_right hlast _)⟩
  exact lt_irrefl _ hself

/-- Summing up the stored maxima of all posting lists. -/
theorem nativeBounds_eq {count : ℕ} (bound : ℕ → S) {termMaxima : List S}
    (hlength : termMaxima.length = count) :
    nativeBounds minId width postings ((range count).map bound) termMaxima =
      some ((range count).map fun range =>
        bound range + boundOver (nativeMaxima minId width postings) range) := by
  induction postings generalizing bound termMaxima with
  | nil => simp [nativeBounds, nativeMaxima, boundOver]
  | cons posting postings ih =>
    have hfill : PostingListIter.fillBlockMaxRanges minId width termMaxima posting.iterator =
        (true, (range count).map (coverMax (blockCovers posting.iterator.list
          fun id => (id - minId) / width))) :=
      hlength ▸ fillBlockMaxRanges_eq posting.iterator minId width termMaxima
    rw [nativeBounds, hfill]
    dsimp only
    rw [zipWith_map, zipWith_self, ih _ (by rw [length_map, length_range])]
    simp only [nativeMaxima, boundOver, map_cons, sum_cons, add_assoc]

/-- The plan over compressed posting lists: ranges by their stored maxima, as many as an offset
can count. -/
theorem planBatchesNative_eq (postings : List (WeightedPosting (CompressedPostingListIterator W) S))
    (hfits : width ≤ pointOffsetMax) :
    (idBounds postings = none → planBatchesNative postings width = some []) ∧
    ∀ minId maxId, idBounds postings = some (minId, maxId) →
      planBatchesNative postings width =
        some ((range (((maxId - minId) / width + 1) % (pointOffsetMax + 1))).filterMap
          (planEntry minId maxId width (boundOver (nativeMaxima minId width postings)))) := by
  have hfits : ¬width > pointOffsetMax := not_lt.mpr hfits
  constructor
  · intro hnone
    rw [planBatchesNative, if_neg hfits, hnone]
  intro minId maxId hsome
  have hzeros : ∀ count, replicate count (0 : S) = (range count).map fun _ => 0 := by
    intro count
    rw [map_const', length_range]
  rw [planBatchesNative, if_neg hfits, hsome]
  dsimp only
  rw [hzeros, nativeBounds_eq _ (by rw [length_map, length_range])]
  simp only [zero_add, Option.map_some, Option.some.injEq]
  have hindexed : ∀ (count : ℕ) (bound : ℕ → S), ((range count).map bound).zipIdx =
      (range count).map fun range => (bound range, range) := by
    intro count bound
    apply ext_getElem?
    intro range
    by_cases hrange : range < count
    · simp [hrange]
    · simp [hrange]
  rw [hindexed, filterMap_map]
  rfl

/-- The number of ranges fits an offset. It does not if every offset is a range of its own. -/
def RangesFit (terms : List (List (PostingElement S) × S)) (width : ℕ) : Prop :=
  ¬(width = 1 ∧ (∃ term ∈ terms, ∃ e ∈ term.1, e.recordId = 0) ∧
    ∃ term ∈ terms, ∃ e ∈ term.1, e.recordId = pointOffsetMax)

omit [BitPacker] [CommRing S] [LinearOrder S] in
/-- The sum of the source does not wrap around if and only if the ranges fit. -/
theorem rangesFit_iff {terms : Terms S} {maxId : ℕ} (hwidth : 0 < width)
    (hmin : ∃ term ∈ terms, ∃ e ∈ term.1, e.recordId = minId)
    (hmax : ∃ term ∈ terms, ∃ e ∈ term.1, e.recordId = maxId)
    (hbetween : ∀ term ∈ terms, ∀ e ∈ term.1, minId ≤ e.recordId ∧ e.recordId ≤ maxId)
    (hids : ∀ term ∈ terms, ∀ e ∈ term.1, e.recordId ≤ pointOffsetMax) :
    RangesFit terms width ↔ (maxId - minId) / width < pointOffsetMax := by
  constructor
  · intro hfit
    by_contra hge
    rw [not_lt, Nat.le_div_iff_mul_le hwidth] at hge
    obtain ⟨term, hterm, e, he, rfl⟩ := hmax
    obtain ⟨first, hfirst, f, hf, rfl⟩ := hmin
    have hle := hids term hterm e he
    have hpos : 0 < pointOffsetMax := by decide
    have hspan := (Nat.le_mul_of_pos_right pointOffsetMax hwidth).trans hge
    have hone : width = 1 := by
      by_contra hne
      have htwo := Nat.mul_le_mul_left pointOffsetMax (show 2 ≤ width by omega)
      omega
    exact hfit ⟨hone, ⟨first, hfirst, f, hf, by omega⟩, term, hterm, e, he, by omega⟩
  · rintro hlt ⟨rfl, ⟨term, hterm, e, he, hzero⟩, last, hlast, f, hf, hmaxId⟩
    have hfirst := (hbetween term hterm e he).1
    have hgreatest := (hbetween last hlast f hf).2
    rw [Nat.div_one] at hlt
    omega

end Plan

open CompressedPostingListIterator

/-- The posting lists of an index in memory as the compressed index gives them back. -/
def decodedLists (W : Type) {S : Type} [Weight W S] (ramIndex : InvertedIndexRam S) (dim : ℕ) :
    List (PostingElement S) :=
  decoded W (ramIndex.lists dim)

section Index

variable {W S : Type} [Weight W S] [BitPacker] [LawfulBitPacker] {ramIndex : InvertedIndexRam S}
  {query : RemappedSparseVector S}

/-- An index built from ordered lists opens every dimension it has. -/
theorem InvertedIndexRam.Ordered.opens_compressed (h : ramIndex.Ordered)
    (hdims : ∀ dim ∈ query.indices, dim < ramIndex.postings.length) :
    Opens (Reads (W := W) (S := S)) (InvertedIndexCompressedImmutableRam.fromRamIndex W ramIndex)
      (decodedLists W ramIndex) query := by
  intro term hterm
  have hlt := hdims _ (of_mem_zip hterm).1
  have hget := getElem?_eq_getElem hlt
  have hlists : ramIndex.lists term.1 =
      ramIndex.postings[term.1].elements.map PostingElementEx.toPostingElement := by
    rw [InvertedIndexRam.lists, hget]
    rfl
  refine ⟨(CompressedPostingList.build W (ramIndex.lists term.1)).iter, ?_, ?_⟩
  · simp only [InvertedIndex.get, InvertedIndexCompressedImmutableRam.fromRamIndex,
      getElem?_map, hget, hlists, Option.map_some]
  refine ⟨?_, rfl, by simp [CompressedPostingList.iter], by simp [CompressedPostingList.iter]⟩
  have hinc : Increasing (ramIndex.lists term.1) := by
    rw [hlists]
    exact h _ (getElem_mem hlt)
  exact CompressedPostingList.holds_build (W := W) hinc

omit [BitPacker] [LawfulBitPacker] in
/-- Compression keeps the record ids. -/
theorem InvertedIndexRam.FitsOffsets.queryPostings (h : ramIndex.FitsOffsets) :
    ∀ term ∈ queryPostings (decodedLists W ramIndex) query, ∀ e ∈ term.1,
      e.recordId ≤ pointOffsetMax := by
  intro term hterm e he
  obtain ⟨pair, _, rfl⟩ := mem_map.mp (mem_of_mem_filter hterm)
  obtain ⟨stored, hstored, rfl⟩ := mem_map.mp he
  exact h pair.1 stored hstored

/-- Over compressed posting lists a ranking delivers the non-zero points whose range has a
gain, where a weight reaches all ranges of its chunk, and nothing if the ranges do not fit. -/
theorem InvertedIndexCompressedImmutableRam.exists_ranking [CommRing S] [LinearOrder S]
    [IsStrictOrderedRing S] (h : ramIndex.Ordered) (hids : ramIndex.FitsOffsets)
    (hdims : ∀ dim ∈ query.indices, dim < ramIndex.postings.length) (hquery : ValidQuery query)
    {batchSize : ℕ} (hsize : 0 < batchSize) (hfits : batchSize ≤ pointOffsetMax) :
    ∃ state points, PostingBlockMaxState.new (fromRamIndex W ramIndex) query batchSize =
        some (.ok state) ∧ Drains (fromRamIndex W ramIndex) state points ∧
      Ranked pointKey points ∧ ∀ point, point ∈ points ↔
        (RangesFit (queryPostings (decodedLists W ramIndex) query) batchSize ∧
          HasGain chunkSpan (queryPostings (decodedLists W ramIndex) query) batchSize point.idx) ∧
        point.score = dotProduct (decodedLists W ramIndex) query point.idx ∧
        dotProduct (decodedLists W ramIndex) query point.idx ≠ 0 := by
  have hopens := h.opens_compressed (W := W) hdims
  have hnonneg := hquery.term_nonneg (decodedLists W ramIndex)
  obtain ⟨postings, hopen, hfresh⟩ := openPostings_eq isCursor hopens
  obtain ⟨hnone, hsome⟩ := planBatchesNative_eq postings hfits
  have hcases := idBounds_cases isCursor hfresh queryPostings_ne_nil
  by_cases hfit : RangesFit (queryPostings (decodedLists W ramIndex) query) batchSize
  · simp only [hfit, true_and]
    refine BlockMax.exists_ranking isCursor hopens hquery hsize hopen hfresh
      (spanned_nativeMaxima hfresh hnonneg _ _) (fun hempty => ?_) fun maxId hbounds _ => ?_
    · rw [hnone hempty, Option.some_or]
    rcases hcases with ⟨-, hempty⟩ | ⟨last, hlast, hmin, hmax, hbetween⟩
    · cases hempty.symm.trans hbounds
    cases hlast.symm.trans hbounds
    have hlt := (rangesFit_iff hsize hmin hmax hbetween hids.queryPostings).mp hfit
    rw [hsome _ _ hbounds, Option.some_or, Nat.mod_eq_of_lt (Nat.succ_lt_succ hlt)]
    rfl
  -- the sum wraps around to zero, and there is no range
  have hplan : planBatchesNative postings batchSize = some [] := by
    rcases hcases with ⟨-, hempty⟩ | ⟨last, hlast, hmin, hmax, hbetween⟩
    · exact hnone hempty
    have hge := (rangesFit_iff hsize hmin hmax hbetween hids.queryPostings).not.mp hfit
    obtain ⟨term, hterm, e, he, rfl⟩ := hmax
    have hle := hids.queryPostings term hterm e he
    have hdiv := Nat.div_le_self (e.recordId - firstId
      (queryPostings (decodedLists W ramIndex) query)) batchSize
    have hcount : (e.recordId - firstId (queryPostings (decodedLists W ramIndex) query)) /
        batchSize + 1 = pointOffsetMax + 1 := by
      omega
    rw [hsome _ _ hlast, hcount, Nat.mod_self]
    rfl
  obtain ⟨state, hnew, hdrains⟩ := new_drains isCursor hopens hquery hsize hopen
    (by rw [hplan, Option.some_or]) (by simp) (by simp)
  exact ⟨state, [], hnew, hdrains, ranked_nil, by simp [hfit]⟩

end Index

end Stratumind
