import Stratumind.Lib.LittleEndian
import Stratumind.Sparse.NativePlan

/-!
# The exact sparse ranking

A ranking drops ranges by the sign of their bound and points by the value of their score.
Where all stored weights are non-negative the two rules agree, and the stream is the exact
ranking of the points with a non-zero score, if the number of ranges fits an offset. A point with
a negative score is only in the stream if its range is not dropped, which depends on the width of
the ranges.
-/

namespace Stratumind

open Lib BlockMax List

/-! A codec that stores every id of a block in the same number of bytes. -/

namespace FixedWidth

/-- Numbers of the given width, one after the other. -/
def unpack (width : ℕ) : ℕ → List UInt8 → List ℕ
  | 0, _ => []
  | count + 1, bytes => ofLeBytes (bytes.take width) :: unpack width count (bytes.drop width)

scoped instance : BitPacker where
  numBitsStrictlySorted _ ids := 8 * (ids.foldl max 0 + 1)
  compressStrictlySorted _ ids bits := ids.flatMap (leBytes (bits / 8))
  decompressStrictlySorted _ bytes bits := unpack (bits / 8) chunkSize bytes

theorem unpack_flatMap {width : ℕ} {ids : List ℕ} (h : ∀ id ∈ ids, id < 256 ^ width) :
    unpack width ids.length (ids.flatMap (leBytes width)) = ids := by
  induction ids with
  | nil => rfl
  | cons id ids ih =>
    obtain ⟨hid, hids⟩ := forall_mem_cons.mp h
    have hlength := length_leBytes width id
    rw [length_cons, unpack, flatMap_cons, take_left' hlength,
      drop_left' hlength, ofLeBytes_leBytes hid, ih hids]

scoped instance : LawfulBitPacker where
  length_compress initial ids hlength _ := by
    change (ids.flatMap (leBytes (8 * (ids.foldl max 0 + 1) / 8))).length = _
    rw [length_flatMap]
    simp only [length_leBytes, map_const', sum_replicate, hlength]
    change chunkSize * (8 * (ids.foldl max 0 + 1) / 8) =
      compressedBlockSize (8 * (ids.foldl max 0 + 1))
    unfold compressedBlockSize chunkSize
    omega
  decompress_compress initial ids hlength _ := by
    change unpack (8 * (ids.foldl max 0 + 1) / 8) chunkSize
      (ids.flatMap (leBytes (8 * (ids.foldl max 0 + 1) / 8))) = ids
    rw [← hlength]
    refine unpack_flatMap fun id hid => ?_
    have hle : id ≤ ids.foldl max 0 := le_foldl_max.2 id hid
    have hlt : id < 256 ^ (ids.foldl max 0 + 1) :=
      (Nat.lt_succ_of_le hle).trans (Nat.lt_pow_self (by omega))
    rwa [Nat.mul_div_cancel_left _ (by omega)]

end FixedWidth

section Gains

variable {S : Type} [CommRing S] [LinearOrder S] [IsStrictOrderedRing S]
  {terms : Terms S} {lists : ℕ → Elements S}
  {query : RemappedSparseVector S}

/-- A span of ids has the id of its own position. -/
def OwnSpan (span : List (PostingElement S) → ℕ → ℕ × ℕ) : Prop :=
  ∀ elements, Increasing elements → ∀ position e, elements[position]? = some e →
    (span elements position).1 ≤ e.recordId ∧ e.recordId ≤ (span elements position).2

omit [CommRing S] [LinearOrder S] [IsStrictOrderedRing S] in
theorem ownSpan_pointSpan : OwnSpan (pointSpan (S := S)) := by
  intro elements _ position e he
  rw [pointSpan, idAt_eq he]
  exact ⟨le_rfl, le_rfl⟩

omit [CommRing S] [LinearOrder S] [IsStrictOrderedRing S] in
theorem ownSpan_chunkSpan : OwnSpan (chunkSpan (S := S)) := fun _ hinc _ _ he =>
  hinc.mem_chunkSpan he

/-- A point with a positive score is in a range with a gain, whatever the width. -/
theorem hasGain_of_scoreOver_pos {span : Elements S → ℕ → ℕ × ℕ} (hspan : OwnSpan span)
    (hinc : ∀ term ∈ terms, Increasing term.1) (hnonneg : ∀ term ∈ terms, 0 ≤ term.2) {id : ℕ}
    (hpos : 0 < scoreOver terms id) (width : ℕ) : HasGain span terms width id := by
  obtain ⟨term, hterm, hgain⟩ : ∃ term ∈ terms, 0 < storedWeight term.1 id * term.2 :=
    exists_lt_of_sum_lt (fun _ => 0) _ (by simpa [scoreOver] using hpos)
  have hquery := hnonneg term hterm
  have hweight : 0 < storedWeight term.1 id := pos_of_mul_pos_left hgain hquery
  have hqueryPos : 0 < term.2 := pos_of_mul_pos_right hgain hweight.le
  unfold storedWeight at hweight
  cases hlookup : lookup id term.1 with
  | none =>
    rw [hlookup] at hweight
    exact absurd hweight (lt_irrefl _)
  | some e =>
    rw [hlookup] at hweight
    have hid : e.recordId = id := by simpa using find?_some hlookup
    obtain ⟨position, hget⟩ := mem_iff_getElem?.mp (mem_of_find?_eq_some hlookup)
    obtain ⟨hfirst, hlast⟩ := hspan term.1 (hinc term hterm) position e hget
    rw [hid] at hfirst hlast
    exact ⟨term, hterm, hqueryPos, position, e, hget, hweight,
      Nat.div_le_div_right (Nat.sub_le_sub_right hfirst _),
      Nat.div_le_div_right (Nat.sub_le_sub_right hlast _)⟩

/-- Non-negative weights give non-negative scores. -/
theorem dotProduct_nonneg (hquery : ValidQuery query)
    (hweights : ∀ dim ∈ query.indices, ∀ e ∈ lists dim, 0 ≤ e.weight) (id : ℕ) :
    0 ≤ dotProduct lists query id := by
  refine sum_nonneg fun value hvalue => ?_
  obtain ⟨term, hterm, rfl⟩ := mem_map.mp hvalue
  obtain ⟨hdim, hweight⟩ := of_mem_zip hterm
  refine mul_nonneg ?_ (hquery.nonneg _ hweight)
  unfold storedWeight
  cases hlookup : lookup id (lists term.1) with
  | none => exact le_rfl
  | some e => exact hweights _ hdim e (mem_of_find?_eq_some hlookup)

end Gains

/-- Repeated calls deliver exactly the points with a non-zero score, each once with its score,
by descending score and then ascending offset. -/
def StreamsExactly {I T S : Type} [InvertedIndex I T] [PostingListIter T S] [CommRing S]
    [LinearOrder S] (index : I) (lists : ℕ → List (PostingElement S))
    (query : RemappedSparseVector S) (batchSize : ℕ) : Prop :=
  ∃ state points, PostingBlockMaxState.new index query batchSize = some (.ok state) ∧
    Drains index state points ∧ Ranked pointKey points ∧ ∀ point, point ∈ points ↔
      point.score = dotProduct lists query point.idx ∧ dotProduct lists query point.idx ≠ 0

section Unique

variable {I T S : Type} [InvertedIndex I T] [PostingListIter T S] [CommRing S] [LinearOrder S]

/-- A stream delivers one list only. -/
theorem drains_unique {index : I} {state : PostingBlockMaxState S}
    {points others : List (ScoredPointOffset S)} (h : Drains index state points)
    (hother : Drains index state others) : points = others := by
  let sizes := replicate (max points.length others.length) 1
  have hsizes : ∀ size ∈ sizes, 0 < size := by
    intro size hsize
    rw [eq_of_mem_replicate hsize]
    exact Nat.one_pos
  obtain ⟨batches, hrun, _, _, hall⟩ := h sizes hsizes
  obtain ⟨batches', hrun', _, _, hall'⟩ := hother sizes hsizes
  have hsame : batches = batches' :=
    map_injective_iff.mpr (fun _ _ => Except.ok.inj) (hrun.symm.trans hrun')
  grind

end Unique

section Ranking

variable {W S : Type} [Weight W S] [BitPacker] [LawfulBitPacker] [CommRing S] [LinearOrder S]
  [IsStrictOrderedRing S] {ramIndex : InvertedIndexRam S} {query : RemappedSparseVector S}

omit [BitPacker] [LawfulBitPacker] [CommRing S] [LinearOrder S] [IsStrictOrderedRing S]
  [Weight W S] in
theorem InvertedIndexRam.Ordered.lists_increasing (h : ramIndex.Ordered) (dim : ℕ) :
    Increasing (ramIndex.lists dim) := by
  unfold InvertedIndexRam.lists
  cases hget : ramIndex.postings[dim]? with
  | none => exact Pairwise.nil
  | some list => exact h list (mem_of_getElem? hget)

omit [BitPacker] [LawfulBitPacker] [CommRing S] [LinearOrder S] [IsStrictOrderedRing S]
  [Weight W S] in
private theorem queryPostings_increasing {lists : ℕ → Elements S}
    (h : ∀ dim, Increasing (lists dim)) :
    ∀ term ∈ queryPostings lists query, Increasing term.1 := by
  intro term hterm
  obtain ⟨pair, _, rfl⟩ := mem_map.mp (mem_of_mem_filter hterm)
  exact h pair.1

omit [BitPacker] [LawfulBitPacker] [Weight W S] in
/-- Where no score is negative, a gain is no condition on points with a non-zero score. -/
private theorem hasGain_and_iff {span : Elements S → ℕ → ℕ × ℕ} (hspan : OwnSpan span)
    {lists : ℕ → Elements S} (hinc : ∀ dim, Increasing (lists dim))
    (hquery : ValidQuery query) (hweights : ∀ dim ∈ query.indices, ∀ e ∈ lists dim, 0 ≤ e.weight)
    {batchSize : ℕ} {point : ScoredPointOffset S} :
    (HasGain span (queryPostings lists query) batchSize point.idx ∧
      point.score = dotProduct lists query point.idx ∧ dotProduct lists query point.idx ≠ 0) ↔
      point.score = dotProduct lists query point.idx ∧ dotProduct lists query point.idx ≠ 0 := by
  refine and_iff_right_of_imp fun hpoint => ?_
  refine hasGain_of_scoreOver_pos hspan (queryPostings_increasing hinc)
    (hquery.term_nonneg lists) ?_ batchSize
  rw [scoreOver_queryPostings]
  exact lt_of_le_of_ne (dotProduct_nonneg hquery hweights point.idx) (Ne.symm hpoint.2)

omit [BitPacker] [LawfulBitPacker] [Weight W S] in
/-- Over plain posting lists with no negative weights the stream is the exact ranking. -/
theorem InvertedIndexRam.Ordered.streamsExactly (hordered : ramIndex.Ordered)
    (hquery : ValidQuery query) (hdims : ∀ dim ∈ query.indices, dim < ramIndex.postings.length)
    {batchSize : ℕ} (hsize : 1 ≤ batchSize) (hfits : batchSize ≤ pointOffsetMax)
    (hweights : ∀ dim ∈ query.indices, ∀ e ∈ ramIndex.lists dim, 0 ≤ e.weight) :
    StreamsExactly ramIndex ramIndex.lists query batchSize := by
  obtain ⟨state, points, hnew, hdrains, hranked, hmem⟩ :=
    InvertedIndexRam.exists_ranking hordered hdims hquery hsize hfits
  refine ⟨state, points, hnew, hdrains, hranked, fun point => (hmem point).trans ?_⟩
  exact hasGain_and_iff ownSpan_pointSpan hordered.lists_increasing hquery hweights

/-- The sparse rank stream is the exact ranking of the points with a non-zero score, if the stored
weights are not negative: always for plain posting lists, which are planned by `plan_batches`, and
for compressed ones, which are planned by `plan_batches_native`, exactly if the number of ranges
fits an offset or there is nothing to stream. -/
theorem sparse_stream_exact_iff (hordered : ramIndex.Ordered) (hids : ramIndex.FitsOffsets)
    (hquery : ValidQuery query) (hdims : ∀ dim ∈ query.indices, dim < ramIndex.postings.length)
    {batchSize : ℕ} (hsize : 1 ≤ batchSize) (hfits : batchSize ≤ pointOffsetMax) :
    ((∀ dim ∈ query.indices, ∀ e ∈ ramIndex.lists dim, 0 ≤ e.weight) →
      StreamsExactly ramIndex ramIndex.lists query batchSize) ∧
    ((∀ dim ∈ query.indices, ∀ e ∈ decodedLists W ramIndex dim, 0 ≤ e.weight) →
      (StreamsExactly (InvertedIndexCompressedImmutableRam.fromRamIndex W ramIndex)
        (decodedLists W ramIndex) query batchSize ↔
      (RangesFit (queryPostings (decodedLists W ramIndex) query) batchSize ∨
        ∀ id, dotProduct (decodedLists W ramIndex) query id = 0))) := by
  constructor
  · exact hordered.streamsExactly hquery hdims hsize hfits
  intro hweights
  obtain ⟨state, points, hnew, hdrains, hranked, hmem⟩ :=
    InvertedIndexCompressedImmutableRam.exists_ranking (W := W) hordered hids hdims hquery hsize
      hfits
  replace hmem : ∀ point, point ∈ points ↔
      RangesFit (queryPostings (decodedLists W ramIndex) query) batchSize ∧
        point.score = dotProduct (decodedLists W ramIndex) query point.idx ∧
        dotProduct (decodedLists W ramIndex) query point.idx ≠ 0 := by
    intro point
    rw [hmem point, and_assoc]
    exact and_congr_right fun _ => hasGain_and_iff ownSpan_chunkSpan
      (fun dim => decoded_increasing (hordered.lists_increasing dim)) hquery hweights
  constructor
  · rintro ⟨other, others, hother, hotherDrains, -, hotherMem⟩
    cases hnew.symm.trans hother
    by_contra hcond
    rw [not_or, not_forall] at hcond
    obtain ⟨hfit, id, hid⟩ := hcond
    have hpoint := (hotherMem ⟨id, dotProduct (decodedLists W ramIndex) query id⟩).mpr ⟨rfl, hid⟩
    rw [drains_unique hotherDrains hdrains, hmem] at hpoint
    exact hfit hpoint.1
  · intro hcond
    refine ⟨state, points, hnew, hdrains, hranked, fun point => (hmem point).trans ?_⟩
    rcases hcond with hfit | hzero
    · simp [hfit]
    · simp [hzero]

end Ranking

/-- One dimension with the given weights of the records from zero on. -/
def singleDimension (weights : List ℤ) : InvertedIndexRam ℤ :=
  ⟨[⟨weights.zipIdx.map fun (weight, id) => ⟨⟨id, weight⟩, ⊥⟩⟩]⟩

theorem singleDimension_ordered (weights : List ℤ) : (singleDimension weights).Ordered := by
  intro list hlist
  rw [mem_singleton.mp hlist]
  refine pairwise_map.mpr (pairwise_map.mpr ?_)
  have hids : (weights.zipIdx.map Prod.snd).Pairwise (· < ·) := by
    rw [zipIdx_map_snd]
    exact pairwise_lt_range'
  exact pairwise_map.mp hids

/-- The query with weight one for the only dimension. -/
def unitQuery : RemappedSparseVector ℤ := ⟨[0], [1]⟩

theorem unitQuery_valid : ValidQuery unitQuery := ⟨rfl, by decide, by decide⟩

theorem singleDimension_fitsOffsets {weights : List ℤ} (h : weights.length ≤ pointOffsetMax) :
    (singleDimension weights).FitsOffsets := by
  intro dim e he
  cases dim with
  | succ dim => cases he
  | zero =>
    obtain ⟨stored, hstored, rfl⟩ := mem_map.mp he
    obtain ⟨pair, hpair, rfl⟩ := mem_map.mp hstored
    have hlt := (mem_zipIdx hpair).2.1
    change pair.2 ≤ pointOffsetMax
    omega

open FixedWidth in
/-- A list of one full chunk and two more records, with ranges of two records. -/
theorem sparse_stream_exact_iff_full_chunk :
    StreamsExactly (singleDimension (replicate 130 1)) (singleDimension (replicate 130 1)).lists
      unitQuery 2 ∧
    StreamsExactly (InvertedIndexCompressedImmutableRam.fromRamIndex ℤ
      (singleDimension (replicate 130 1))) (decodedLists ℤ (singleDimension (replicate 130 1)))
      unitQuery 2 := by
  have hexact := sparse_stream_exact_iff (W := ℤ) (singleDimension_ordered (replicate 130 1))
    (singleDimension_fitsOffsets (by rw [length_replicate]; decide)) unitQuery_valid
    (by decide +kernel) (show 1 ≤ 2 by decide) (by decide)
  exact ⟨hexact.1 (by decide +kernel),
    (hexact.2 (by decide +kernel)).mpr (Or.inl fun hone => absurd hone.1 (by decide))⟩

/-- One dimension with weight one for the first and for the last offset. -/
def farRecords : InvertedIndexRam ℤ :=
  ⟨[⟨[⟨⟨0, 1⟩, ⊥⟩, ⟨⟨pointOffsetMax, 1⟩, ⊥⟩]⟩]⟩

open FixedWidth in
/-- With a range for every offset the number of ranges wraps around to zero, and nothing is
streamed. -/
theorem sparse_stream_empty_over_all_offsets :
    ∃ state, PostingBlockMaxState.new
        (InvertedIndexCompressedImmutableRam.fromRamIndex ℤ farRecords) unitQuery 1 =
        some (.ok state) ∧
      Drains (InvertedIndexCompressedImmutableRam.fromRamIndex ℤ farRecords) state [] ∧
      dotProduct (decodedLists ℤ farRecords) unitQuery 0 = 1 := by
  have hids : farRecords.FitsOffsets := by
    intro dim e he
    cases dim with
    | succ dim => cases he
    | zero =>
      have hall : ∀ e ∈ farRecords.lists 0, e.recordId ≤ pointOffsetMax := by decide
      exact hall e he
  have hordered : farRecords.Ordered := by
    unfold InvertedIndexRam.Ordered Increasing
    decide
  obtain ⟨state, points, hnew, hdrains, -, hmem⟩ :=
    InvertedIndexCompressedImmutableRam.exists_ranking (W := ℤ) hordered hids (by decide)
      unitQuery_valid (show 0 < 1 by decide) (by decide)
  have hnofit : ¬RangesFit (queryPostings (decodedLists ℤ farRecords) unitQuery) 1 :=
    not_not.mpr ⟨rfl, by decide, by decide⟩
  obtain rfl : points = [] := eq_nil_iff_forall_not_mem.mpr fun point hpoint =>
    hnofit ((hmem point).mp hpoint).1.1
  exact ⟨state, hnew, hdrains, by decide⟩

section Batching

variable {I T S : Type} [InvertedIndex I T] [PostingListIter T S] [CommRing S] [LinearOrder S]

/-- Both batch sizes give streams, and the streams deliver the same list. -/
def SameStream (index : I) (query : RemappedSparseVector S) (first second : ℕ) : Prop :=
  ∃ left right points, PostingBlockMaxState.new index query first = some (.ok left) ∧
    Drains index left points ∧ PostingBlockMaxState.new index query second = some (.ok right) ∧
    Drains index right points

/-- A stream has a batch size that fits an offset. -/
private theorem new_fits {index : I} {query : RemappedSparseVector S} {batchSize : ℕ}
    {state : PostingBlockMaxState S}
    (h : PostingBlockMaxState.new index query batchSize = some (.ok state)) :
    batchSize ≤ pointOffsetMax := by
  by_contra hgt
  rw [not_le] at hgt
  unfold PostingBlockMaxState.new at h
  split at h
  · cases h
  split at h
  · cases h
  · rw [planBatchesNative, planBatches, if_pos hgt, if_pos hgt] at h
    cases h

/-- Streams agree exactly if they serve the same points with a non-zero score. -/
private theorem sameStream_iff {index : I} {score : ℕ → S} {query : RemappedSparseVector S}
    (served : ℕ → ℕ → Prop) {first second : ℕ}
    (hranking : ∀ batchSize, batchSize = first ∨ batchSize = second → batchSize ≤ pointOffsetMax →
      ∃ state points, PostingBlockMaxState.new index query batchSize = some (.ok state) ∧
        Drains index state points ∧ Ranked pointKey points ∧ ∀ point, point ∈ points ↔
          served batchSize point.idx ∧ point.score = score point.idx ∧ score point.idx ≠ 0) :
    SameStream index query first second ↔ first ≤ pointOffsetMax ∧ second ≤ pointOffsetMax ∧
      ∀ id, score id ≠ 0 → (served first id ↔ served second id) := by
  constructor
  · rintro ⟨left, right, points, hleft, hdrains, hright, hdrains'⟩
    refine ⟨new_fits hleft, new_fits hright, fun id hid => ?_⟩
    obtain ⟨left', leftPoints, hleft', hleftDrains, -, hleftMem⟩ :=
      hranking first (Or.inl rfl) (new_fits hleft)
    obtain ⟨right', rightPoints, hright', hrightDrains, -, hrightMem⟩ :=
      hranking second (Or.inr rfl) (new_fits hright)
    cases hleft.symm.trans hleft'
    cases hright.symm.trans hright'
    have hsame : leftPoints = rightPoints :=
      (drains_unique hleftDrains hdrains).trans (drains_unique hdrains' hrightDrains)
    have hiff := (hleftMem ⟨id, score id⟩).symm.trans (hsame ▸ hrightMem ⟨id, score id⟩)
    simpa [hid] using hiff
  · rintro ⟨hfirst, hsecond, hserved⟩
    obtain ⟨left, leftPoints, hleft, hleftDrains, hleftRanked, hleftMem⟩ :=
      hranking first (Or.inl rfl) hfirst
    obtain ⟨right, rightPoints, hright, hrightDrains, hrightRanked, hrightMem⟩ :=
      hranking second (Or.inr rfl) hsecond
    have hsame : leftPoints = rightPoints := by
      refine hleftRanked.eq_of_mem_iff hrightRanked fun point => ?_
      rw [hleftMem, hrightMem]
      exact and_congr_left fun hpoint => hserved point.idx hpoint.2
    exact ⟨left, right, leftPoints, hleft, hleftDrains, hright, hsame ▸ hrightDrains⟩

end Batching

/-- Two batch sizes give the same stream if and only if both fit an offset and every point with a
non-zero score has a gain in its range under both of them or under neither. Over plain lists a
positive weight is a gain in its own range, over compressed lists in every range that its chunk
covers if the number of ranges fits an offset. -/
theorem sparse_stream_batching_iff {W S : Type} [Weight W S] [BitPacker] [LawfulBitPacker]
    [CommRing S] [LinearOrder S] [IsStrictOrderedRing S] {ramIndex : InvertedIndexRam S}
    {query : RemappedSparseVector S} (hordered : ramIndex.Ordered) (hids : ramIndex.FitsOffsets)
    (hquery : ValidQuery query) (hdims : ∀ dim ∈ query.indices, dim < ramIndex.postings.length)
    {first second : ℕ} (hfirst : 1 ≤ first) (hsecond : 1 ≤ second) :
    (SameStream ramIndex query first second ↔ first ≤ pointOffsetMax ∧ second ≤ pointOffsetMax ∧
      ∀ id, dotProduct ramIndex.lists query id ≠ 0 →
        (HasGain pointSpan (queryPostings ramIndex.lists query) first id ↔
          HasGain pointSpan (queryPostings ramIndex.lists query) second id)) ∧
    (SameStream (InvertedIndexCompressedImmutableRam.fromRamIndex W ramIndex) query first second ↔
      first ≤ pointOffsetMax ∧ second ≤ pointOffsetMax ∧
      ∀ id, dotProduct (decodedLists W ramIndex) query id ≠ 0 →
        (RangesFit (queryPostings (decodedLists W ramIndex) query) first ∧
          HasGain chunkSpan (queryPostings (decodedLists W ramIndex) query) first id ↔
        RangesFit (queryPostings (decodedLists W ramIndex) query) second ∧
          HasGain chunkSpan (queryPostings (decodedLists W ramIndex) query) second id)) := by
  have hsizes : ∀ batchSize, batchSize = first ∨ batchSize = second → 0 < batchSize := by
    rintro batchSize (rfl | rfl)
    · exact hfirst
    · exact hsecond
  constructor
  · refine sameStream_iff (HasGain pointSpan (queryPostings ramIndex.lists query))
      fun batchSize hbatchSize hfits => ?_
    exact InvertedIndexRam.exists_ranking hordered hdims hquery (hsizes batchSize hbatchSize) hfits
  · refine sameStream_iff (fun batchSize id =>
      RangesFit (queryPostings (decodedLists W ramIndex) query) batchSize ∧
        HasGain chunkSpan (queryPostings (decodedLists W ramIndex) query) batchSize id)
      fun batchSize hbatchSize hfits => ?_
    exact InvertedIndexCompressedImmutableRam.exists_ranking hordered hids hdims hquery
      (hsizes batchSize hbatchSize) hfits

/-- Over a positive and a negative weight the range of the first record has a gain. -/
private theorem hasGain_mixed {span : Elements ℤ → ℕ → ℕ × ℕ}
    (hspan : ∀ position, span ((singleDimension [1, -1]).lists 0) position =
      pointSpan ((singleDimension [1, -1]).lists 0) position) (width id : ℕ) :
    HasGain span (queryPostings (singleDimension [1, -1]).lists unitQuery) width id ↔
      id / width = 0 := by
  constructor
  · rintro ⟨term, hterm, _, position, e, hget, hpos, _, hle⟩
    rw [mem_singleton.mp hterm] at hget hle
    rw [hspan] at hle
    match position with
    | 0 => exact Nat.le_zero.mp (hle.trans (Nat.zero_div width).le)
    | 1 =>
      cases hget
      exact absurd hpos (by decide)
    | position + 2 => cases hget
  · intro hzero
    refine ⟨_, mem_singleton.mpr rfl, by decide, 0, ⟨0, 1⟩, rfl, by decide, ?_, ?_⟩
    · rw [hspan]
      change 0 / width ≤ id / width
      rw [Nat.zero_div]
      exact Nat.zero_le _
    · exact hzero.le.trans (Nat.zero_le _)

private theorem dotProduct_mixed (id : ℕ) :
    dotProduct (singleDimension [1, -1]).lists unitQuery id =
      if id = 0 then 1 else if id = 1 then -1 else 0 := by
  match id with
  | 0 => decide
  | 1 => decide
  | id + 2 =>
    have hlookup : lookup (id + 2) ((singleDimension [1, -1]).lists 0) = none := by
      refine find?_eq_none.mpr fun e he => ?_
      have hids : ∀ e ∈ (singleDimension [1, -1]).lists 0, e.recordId < 2 := by decide
      have := hids e he
      simp only [decide_eq_true_eq]
      omega
    simp [dotProduct, unitQuery, RemappedSparseVector.terms, storedWeight, hlookup]

private theorem decodedLists_mixed :
    decodedLists ℤ (singleDimension [1, -1]) = (singleDimension [1, -1]).lists := by
  funext dim
  cases dim with
  | zero => decide
  | succ dim => rfl

open FixedWidth in
/-- A record with a negative score shares its range with a positive weight under both sizes. -/
theorem sparse_stream_batching_iff_shared_range :
    SameStream (singleDimension [1, -1]) unitQuery 2 3 ∧
    SameStream (InvertedIndexCompressedImmutableRam.fromRamIndex ℤ (singleDimension [1, -1]))
      unitQuery 2 3 ∧
    dotProduct (singleDimension [1, -1]).lists unitQuery 1 = -1 := by
  have hiff := sparse_stream_batching_iff (W := ℤ) (singleDimension_ordered [1, -1])
    (singleDimension_fitsOffsets (by decide)) unitQuery_valid (by decide) (show 1 ≤ 2 by decide)
    (show 1 ≤ 3 by decide)
  have hsmall : ∀ id, dotProduct (singleDimension [1, -1]).lists unitQuery id ≠ 0 →
      id / 2 = 0 ∧ id / 3 = 0 := by
    intro id hid
    rw [dotProduct_mixed] at hid
    split at hid
    · omega
    split at hid
    · omega
    · exact absurd rfl hid
  refine ⟨hiff.1.mpr ⟨by decide, by decide, fun id hid => ?_⟩,
    hiff.2.mpr ⟨by decide, by decide, fun id hid => ?_⟩, by decide⟩
  · rw [hasGain_mixed fun _ => rfl, hasGain_mixed fun _ => rfl]
    simp only [hsmall id hid]
  · rw [decodedLists_mixed] at hid ⊢
    have hspan : ∀ position, chunkSpan ((singleDimension [1, -1]).lists 0) position =
        pointSpan ((singleDimension [1, -1]).lists 0) position := by
      intro position
      rw [chunkSpan]
      exact if_neg (Nat.not_lt_zero _)
    rw [hasGain_mixed hspan, hasGain_mixed hspan]
    simp [RangesFit, hsmall id hid]

/-- A record with a negative weight is in the stream if it shares a range with a positive
weight, and is not if it has a range of its own. -/
theorem sparse_stream_depends_on_batching :
    ∃ narrow wide,
      PostingBlockMaxState.new (singleDimension [1, -1]) unitQuery 1 = some (.ok narrow) ∧
      Drains (singleDimension [1, -1]) narrow [⟨0, 1⟩] ∧
      PostingBlockMaxState.new (singleDimension [1, -1]) unitQuery 2 = some (.ok wide) ∧
      Drains (singleDimension [1, -1]) wide [⟨0, 1⟩, ⟨1, -1⟩] := by
  have hordered := singleDimension_ordered [1, -1]
  obtain ⟨narrow, narrowPoints, hnarrow, hnarrowDrains, hnarrowRanked, hnarrowMem⟩ :=
    InvertedIndexRam.exists_ranking hordered (by decide) unitQuery_valid
      (show 0 < 1 by decide) (by decide)
  obtain ⟨wide, widePoints, hwide, hwideDrains, hwideRanked, hwideMem⟩ :=
    InvertedIndexRam.exists_ranking hordered (by decide) unitQuery_valid
      (show 0 < 2 by decide) (by decide)
  have hnarrowEq : narrowPoints = [⟨0, 1⟩] := by
    refine hnarrowRanked.eq_of_mem_iff (pairwise_singleton _ _) fun point => ?_
    rw [hnarrowMem, hasGain_mixed fun _ => rfl, dotProduct_mixed, Nat.div_one, mem_singleton,
      ScoredPointOffset.ext_iff]
    grind
  have hwideEq : widePoints = [⟨0, 1⟩, ⟨1, -1⟩] := by
    refine hwideRanked.eq_of_mem_iff ?_ fun point => ?_
    · refine pairwise_pair.mpr (rankKey_lt_iff.mpr (Or.inl ?_))
      decide
    rw [hwideMem, hasGain_mixed fun _ => rfl, dotProduct_mixed, mem_pair, ScoredPointOffset.ext_iff,
      ScoredPointOffset.ext_iff]
    grind
  rw [hnarrowEq] at hnarrowDrains
  rw [hwideEq] at hwideDrains
  exact ⟨narrow, wide, hnarrow, hnarrowDrains, hwide, hwideDrains⟩

end Stratumind
