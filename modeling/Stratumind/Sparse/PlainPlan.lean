import Stratumind.Sparse.RangePlan

/-!
# The plan over plain posting lists

Plain posting lists have no stored maxima: the planner walks the ranges from the least id on
and asks every cursor for the exact maximum of the range before it moves on.
-/

namespace Stratumind.BlockMax

open Lib List

variable {S : Type} [CommRing S] [LinearOrder S]

/-- The greatest weight of a range, and at least zero. -/
def rangeMax (minId width : ℕ) (elements : List (PostingElement S)) (range : ℕ) : S :=
  ((elements.filter fun e => (e.recordId - minId) / width = range).map
    PostingElement.weight).foldl max 0

omit [CommRing S] in
private theorem le_foldl_max_init (weights : List S) (start : S) :
    start ≤ weights.foldl max start := by
  induction weights generalizing start with
  | nil => exact le_rfl
  | cons weight weights ih => exact (le_max_left start weight).trans (ih _)

omit [CommRing S] in
/-- A running maximum exceeds a bound exactly when its start or some value does. -/
theorem lt_foldl_max_iff {weights : List S} {start bound : S} :
    bound < weights.foldl max start ↔ bound < start ∨ ∃ weight ∈ weights, bound < weight := by
  induction weights generalizing start with
  | nil => simp
  | cons weight weights ih =>
    rw [foldl_cons, ih, lt_max_iff, exists_mem_cons_iff, or_assoc]

omit [CommRing S] in
/-- A running maximum covers its start and every value. -/
theorem le_foldl_max {weights : List S} {start : S} :
    start ≤ weights.foldl max start ∧ ∀ weight ∈ weights, weight ≤ weights.foldl max start := by
  refine ⟨le_foldl_max_init weights start, fun weight hweight => ?_⟩
  by_contra hlt
  exact lt_irrefl _ (lt_foldl_max_iff.mpr (Or.inr ⟨weight, hweight, not_le.mp hlt⟩))

/-- The exact maxima of the ranges cover all weights. -/
theorem envelope_rangeMax (minId width : ℕ) (elements : Elements S) :
    Envelope minId width elements (rangeMax minId width elements) where
  nonneg _ := le_foldl_max.1
  weight_le e he := by
    refine le_foldl_max.2 _ (mem_map_of_mem (mem_filter.mpr ⟨he, ?_⟩))
    simp

/-- A range has a positive maximum exactly when it has a positive weight. -/
theorem rangeMax_pos_iff {minId width range : ℕ} {elements : Elements S} :
    0 < rangeMax minId width elements range ↔
      ∃ position e, elements[position]? = some e ∧ 0 < e.weight ∧
        ((pointSpan elements position).1 - minId) / width ≤ range ∧
        range ≤ ((pointSpan elements position).2 - minId) / width := by
  unfold rangeMax
  rw [lt_foldl_max_iff]
  simp only [lt_irrefl, false_or, mem_map, mem_filter, decide_eq_true_eq]
  constructor
  · rintro ⟨_, ⟨e, ⟨he, hrange⟩, rfl⟩, hpos⟩
    obtain ⟨position, hget⟩ := mem_iff_getElem?.mp he
    refine ⟨position, e, hget, hpos, ?_⟩
    rw [pointSpan, idAt_eq hget]
    exact ⟨hrange.le, hrange.ge⟩
  · rintro ⟨position, e, hget, hpos, hle, hge⟩
    rw [pointSpan, idAt_eq hget] at hle hge
    exact ⟨_, ⟨e, ⟨mem_of_getElem? hget, Nat.le_antisymm hle hge⟩, rfl⟩, hpos⟩

/-- The exact maxima of all terms. -/
def rangeMaxima (minId width : ℕ) (terms : List (List (PostingElement S) × S)) :
    List ((ℕ → S) × S) :=
  terms.map fun term => (rangeMax minId width term.1, term.2)

theorem spanned_rangeMaxima {terms : Terms S}
    (hnonneg : ∀ term ∈ terms, 0 ≤ term.2) (minId width : ℕ) :
    Forall₂ (Spanned pointSpan minId width) (rangeMaxima minId width terms) terms := by
  induction terms with
  | nil => exact Forall₂.nil
  | cons term terms ih =>
    obtain ⟨hterm, hterms⟩ := forall_mem_cons.mp hnonneg
    exact Forall₂.cons ⟨⟨envelope_rangeMax _ _ _, rfl, hterm⟩, fun _ => rangeMax_pos_iff⟩
      (ih hterms)

/-- The cursor of a posting has passed the ids below `start`. -/
def Positioned (start : ℕ) (posting : WeightedPosting (PostingListIterator S) S)
    (term : List (PostingElement S) × S) : Prop :=
  (∃ past, posting.iterator.Reads past (term.1.filter fun e => !decide (e.recordId < start))) ∧
    posting.queryWeight = term.2

variable {postings : List (WeightedPosting (PostingListIterator S) S)}
  {terms : Terms S} {minId maxId width range : ℕ}

/-- A cursor at the start of a range returns its exact maximum. -/
theorem maxWeightTillId_eq (hwidth : 0 < width) {elements : Elements S}
    (hids : ∀ e ∈ elements, minId ≤ e.recordId ∧ e.recordId ≤ maxId) {it : PostingListIterator S}
    {past : Elements S}
    (h : it.Reads past (elements.filter fun e => !decide (e.recordId < minId + range * width))) :
    it.maxWeightTillId (min (minId + range * width + (width - 1)) maxId) =
      some (rangeMax minId width elements range) := by
  have hscan := h.takeWhile_le (min (minId + range * width + (width - 1)) maxId)
  have hweights : (it.remaining.takeWhile fun e =>
      e.recordId ≤ min (minId + range * width + (width - 1)) maxId).map (fun e => e.weight) =
      (elements.filter fun e => (e.recordId - minId) / width = range).map
        PostingElement.weight := by
    rw [filter_filter] at hscan
    have hsame := congrArg (map PostingElement.weight) hscan
    rw [map_map] at hsame
    refine hsame.trans (congrArg _ (filter_congr fun e he => ?_))
    have hiff : minId + range * width ≤ e.recordId ∧
        e.recordId ≤ min (minId + range * width + (width - 1)) maxId ↔ _ := mem_range_iff hwidth
    grind
  unfold PostingListIterator.maxWeightTillId rangeMax
  rw [hweights]

private theorem foldl_bounds (hwidth : 0 < width)
    (h : Forall₂ (Positioned (minId + range * width)) postings terms)
    (hids : ∀ term ∈ terms, ∀ e ∈ term.1, minId ≤ e.recordId ∧ e.recordId ≤ maxId) (sum : S) :
    postings.foldl (fun upperBound posting => match PostingListIter.maxWeightTillId
        (min (minId + range * width + (width - 1)) maxId) posting.iterator with
      | some maxWeight => upperBound + maxWeight * posting.queryWeight
      | none => upperBound) sum =
      sum + boundOver (rangeMaxima minId width terms) range := by
  induction h generalizing sum with
  | nil => simp [boundOver, rangeMaxima]
  | @cons posting term postings terms hposting _ ih =>
    obtain ⟨⟨past, hreads⟩, hweight⟩ := hposting
    obtain ⟨hterm, hterms⟩ := forall_mem_cons.mp hids
    have hmax : PostingListIter.maxWeightTillId
        (min (minId + range * width + (width - 1)) maxId) posting.iterator =
        some (rangeMax minId width term.1 range) := maxWeightTillId_eq hwidth hterm hreads
    rw [foldl_cons, ih hterms, hmax, hweight]
    simp [boundOver, rangeMaxima, add_assoc]

/-- The bound of a range adds up the exact maxima. -/
theorem rangeUpperBound_eq (hwidth : 0 < width)
    (h : Forall₂ (Positioned (minId + range * width)) postings terms)
    (hids : ∀ term ∈ terms, ∀ e ∈ term.1, minId ≤ e.recordId ∧ e.recordId ≤ maxId) :
    rangeUpperBound (min (minId + range * width + (width - 1)) maxId) postings =
      boundOver (rangeMaxima minId width terms) range :=
  (foldl_bounds hwidth h hids 0).trans (zero_add _)

/-- Moving past a range brings the cursors to the next one. -/
theorem positioned_next (hlt : minId + range * width + (width - 1) < maxId) (hwidth : 0 < width)
    (h : Forall₂ (Positioned (minId + range * width)) postings terms) :
    Forall₂ (Positioned (minId + (range + 1) * width))
      (postings.map fun posting => { posting with
        iterator := PostingListIter.skipTillId
          (min (minId + range * width + (width - 1)) maxId) posting.iterator }) terms := by
  have hlast := min_eq_left hlt.le
  rw [hlast, forall₂_map_left_iff]
  refine h.imp ?_
  rintro posting term ⟨⟨past, hreads⟩, hweight⟩
  have hskip := PostingListIterator.isCursor.skipTillId_reads
    (minId + range * width + (width - 1)) hreads
  have hsame : (term.1.filter fun e => !decide (e.recordId < minId + range * width)).filter
      (fun e => !decide (e.recordId ≤ minId + range * width + (width - 1))) =
      term.1.filter fun e => !decide (e.recordId < minId + (range + 1) * width) := by
    rw [filter_filter]
    grind
  rw [hsame] at hskip
  exact ⟨⟨_, hskip⟩, hweight⟩

variable [IsStrictOrderedRing S]

/-- One turn of the walk plans the range at hand. -/
theorem planLoop_step (hwidth : 0 < width) (hnonneg : ∀ term ∈ terms, 0 ≤ term.2)
    (hids : ∀ term ∈ terms, ∀ e ∈ term.1, minId ≤ e.recordId ∧ e.recordId ≤ maxId)
    (h : Forall₂ (Positioned (minId + range * width)) postings terms) :
    planLoop width maxId postings (minId + range * width) =
      (planEntry minId maxId width (boundOver (rangeMaxima minId width terms)) range).toList ++
        if min (minId + range * width + (width - 1)) maxId = maxId then []
        else planLoop width maxId
          (postings.map fun posting => { posting with
            iterator := PostingListIter.skipTillId
              (min (minId + range * width + (width - 1)) maxId) posting.iterator })
          (min (minId + range * width + (width - 1)) maxId + 1) := by
  have hbound := (boundOver_nonneg_and_ne_zero_iff
    ((spanned_rangeMaxima hnonneg minId width).imp fun _ _ h => h.1) range).1
  rw [planLoop, rangeUpperBound_eq hwidth h hids]
  unfold planEntry
  by_cases hzero : boundOver (rangeMaxima minId width terms) range = 0
  · simp [hzero]
  · rw [if_pos (lt_of_le_of_ne hbound (Ne.symm hzero)), if_neg hzero]
    rfl

omit [CommRing S] [LinearOrder S] [IsStrictOrderedRing S] in
private theorem toList_append_filterMap {α β : Type} (f : α → Option β) (a : α) (l : List α) :
    (f a).toList ++ l.filterMap f = (a :: l).filterMap f := by
  grind

/-- From the start of a range on, the walk plans the ranges left. -/
theorem planLoop_eq (hwidth : 0 < width) (hnonneg : ∀ term ∈ terms, 0 ≤ term.2)
    (hids : ∀ term ∈ terms, ∀ e ∈ term.1, minId ≤ e.recordId ∧ e.recordId ≤ maxId)
    (h : Forall₂ (Positioned (minId + range * width)) postings terms) {left : ℕ}
    (hleft : range + left = (maxId - minId) / width) (hle : minId ≤ maxId) :
    planLoop width maxId postings (minId + range * width) =
      (range' range (left + 1)).filterMap
        (planEntry minId maxId width (boundOver (rangeMaxima minId width terms))) := by
  rw [planLoop_step hwidth hnonneg hids h]
  induction left generalizing range postings with
  | zero =>
    obtain ⟨_, hdiv⟩ := (Nat.div_eq_iff hwidth).mp hleft.symm
    grind
  | succ left ih =>
    obtain ⟨hdiv, _⟩ := (Nat.div_eq_iff hwidth).mp hleft.symm
    have hmul : (range + (left + 1)) * width = range * width + left * width + width := by ring
    have hlt : minId + range * width + (width - 1) < maxId := by omega
    have hnext := positioned_next hlt hwidth h
    have hstart : min (minId + range * width + (width - 1)) maxId + 1 =
        minId + (range + 1) * width := by
      rw [min_eq_left hlt.le, Nat.succ_mul]
      omega
    rw [if_neg (by rw [min_eq_left hlt.le]; omega), hstart,
      planLoop_step hwidth hnonneg hids hnext, ih hnext (by omega),
      toList_append_filterMap, ← range'_succ]

/-- The plan over plain posting lists: ranges by their exact maxima. -/
theorem planBatches_eq (hfresh : Forall₂ (Fresh PostingListIterator.Reads) postings terms)
    (hne : ∀ term ∈ terms, term.1 ≠ []) (hnonneg : ∀ term ∈ terms, 0 ≤ term.2) (hwidth : 0 < width)
    (hfits : width ≤ pointOffsetMax) :
    (idBounds postings = none → planBatches postings width = some []) ∧
    ∀ maxId, idBounds postings = some (firstId terms, maxId) → firstId terms ≤ maxId →
      planBatches postings width = some (rangePlan (firstId terms) maxId width
        (boundOver (rangeMaxima (firstId terms) width terms))) := by
  have hfits : ¬width > pointOffsetMax := not_lt.mpr hfits
  constructor
  · intro hnone
    rw [planBatches, if_neg hfits, hnone]
  intro maxId hsome hle
  rcases idBounds_cases PostingListIterator.isCursor hfresh hne with
    ⟨_, hnone⟩ | ⟨_, hbounds, _, _, hids⟩
  · rw [hnone] at hsome
    cases hsome
  rw [hbounds] at hsome
  cases hsome
  have hstart : Forall₂ (Positioned (firstId terms + 0 * width))
      (postings.map fun posting =>
        { posting with iterator := (PostingListIter.peek posting.iterator).2 }) terms := by
    rw [forall₂_map_left_iff]
    refine forall₂_imp_mem hfresh fun posting term hterm hposting => ?_
    have hall : term.1.filter
        (fun e => !decide (e.recordId < firstId terms + 0 * width)) = term.1 := by
      refine filter_eq_self.mpr fun e he => ?_
      grind
    exact ⟨⟨[], by rw [hall]; exact hposting.1⟩, hposting.2⟩
  rw [planBatches, if_neg hfits, hbounds]
  have hloop := planLoop_eq hwidth hnonneg hids hstart (Nat.zero_add _) hle
  rw [Nat.zero_mul, Nat.add_zero] at hloop
  dsimp only
  rw [hloop, ← range_eq_range']
  rfl

/-- Plain posting lists leave planning to the walk. -/
theorem planBatchesNative_or_planBatches
    (hfresh : Forall₂ (Fresh PostingListIterator.Reads) postings terms)
    (hne : ∀ term ∈ terms, term.1 ≠ []) (hnonneg : ∀ term ∈ terms, 0 ≤ term.2) (hwidth : 0 < width)
    (hfits : width ≤ pointOffsetMax) :
    (planBatchesNative postings width).or (planBatches postings width) =
      planBatches postings width := by
  have hplan := (planBatches_eq hfresh hne hnonneg hwidth hfits).1
  have hfits : ¬width > pointOffsetMax := not_lt.mpr hfits
  unfold planBatchesNative
  rw [if_neg hfits]
  cases hbounds : idBounds postings with
  | none => rw [hplan hbounds]; rfl
  | some bounds =>
    cases postings with
    | nil => cases hbounds
    | cons posting postings => rfl

end Stratumind.BlockMax

namespace Stratumind

open Lib BlockMax

variable {S : Type}

/-- The posting list of a dimension; empty where the index has none. -/
def InvertedIndexRam.lists (index : InvertedIndexRam S) (dim : ℕ) : List (PostingElement S) :=
  ((index.postings[dim]?).map fun list =>
    list.elements.map PostingElementEx.toPostingElement).getD []

/-- Every posting list is ordered by record id. -/
def InvertedIndexRam.Ordered (index : InvertedIndexRam S) : Prop :=
  ∀ list ∈ index.postings, Increasing (list.elements.map PostingElementEx.toPostingElement)

/-- Every record id is an offset. -/
def InvertedIndexRam.FitsOffsets (index : InvertedIndexRam S) : Prop :=
  ∀ dim, ∀ e ∈ index.lists dim, e.recordId ≤ pointOffsetMax

variable [CommRing S] [LinearOrder S] {index : InvertedIndexRam S}
  {query : RemappedSparseVector S}

omit [CommRing S] [LinearOrder S] in
/-- An ordered index opens every dimension it has. -/
theorem InvertedIndexRam.Ordered.opens (h : index.Ordered)
    (hdims : ∀ dim ∈ query.indices, dim < index.postings.length) :
    Opens PostingListIterator.Reads index index.lists query := by
  intro term hterm
  have hlt := hdims _ (List.of_mem_zip hterm).1
  have hget := List.getElem?_eq_getElem hlt
  have hlists : index.lists term.1 =
      index.postings[term.1].elements.map PostingElementEx.toPostingElement := by
    rw [InvertedIndexRam.lists, hget]
    rfl
  refine ⟨index.postings[term.1].iter, ?_, ?_⟩
  · simp only [InvertedIndex.get, hget]
  · rw [hlists]
    exact ⟨h _ (List.getElem_mem hlt), rfl, rfl⟩

/-- Over plain posting lists a ranking delivers the non-zero points whose range has a gain. -/
theorem InvertedIndexRam.exists_ranking [IsStrictOrderedRing S] (h : index.Ordered)
    (hdims : ∀ dim ∈ query.indices, dim < index.postings.length) (hquery : ValidQuery query)
    {batchSize : ℕ} (hsize : 0 < batchSize) (hfits : batchSize ≤ pointOffsetMax) :
    ∃ state points, PostingBlockMaxState.new index query batchSize = some (.ok state) ∧
      Drains index state points ∧ Ranked pointKey points ∧ ∀ point, point ∈ points ↔
        HasGain pointSpan (queryPostings index.lists query) batchSize point.idx ∧
        point.score = dotProduct index.lists query point.idx ∧
        dotProduct index.lists query point.idx ≠ 0 := by
  have hopens := h.opens hdims
  have hnonneg := hquery.term_nonneg index.lists
  obtain ⟨postings, hopen, hfresh⟩ := openPostings_eq PostingListIterator.isCursor hopens
  have hplan := planBatches_eq hfresh queryPostings_ne_nil hnonneg hsize hfits
  rw [← planBatchesNative_or_planBatches hfresh queryPostings_ne_nil hnonneg hsize hfits] at hplan
  exact BlockMax.exists_ranking PostingListIterator.isCursor hopens hquery hsize hopen hfresh
    (spanned_rangeMaxima hnonneg _ _) hplan.1 hplan.2

end Stratumind
