import Stratumind.Sparse.SearchContext

/-!
# The turns of the batched search

All posting lists stand before the same record id, the frontier, although they are advanced
one by one: what one list skips alone, no other list has. So the position of a search is
described by its frontier and a turn by the records between two frontiers.
-/

namespace Stratumind

open Lib SearchContext List

variable {I T S : Type}

section Terms

variable {terms : Terms S}

/-- What the posting lists have from a record id on. -/
def remainingFrom (frontier : ℕ) (terms : List (List (PostingElement S) × S)) :
    List (List (PostingElement S) × S) :=
  terms.map fun term => (term.1.filter fun e => frontier ≤ e.recordId, term.2)

/-- The posting lists that are not exhausted. -/
def unfinished (terms : List (List (PostingElement S) × S)) : List (List (PostingElement S) × S) :=
  terms.filter fun term => !term.1.isEmpty

/-- Some posting list has the record. -/
def HasRecord (terms : List (List (PostingElement S) × S)) (id : ℕ) : Prop :=
  ∃ term ∈ terms, ∃ e ∈ term.1, e.recordId = id

/-- How many elements the posting lists have. -/
def elementCount (terms : List (List (PostingElement S) × S)) : ℕ :=
  (terms.map fun term => term.1.length).sum

variable {frontier : ℕ} {id : ℕ}

theorem hasRecord_remainingFrom :
    HasRecord (remainingFrom frontier terms) id ↔ HasRecord terms id ∧ frontier ≤ id := by
  constructor
  · rintro ⟨term, hterm, e, he, rfl⟩
    obtain ⟨term, hmem, rfl⟩ := mem_map.mp hterm
    obtain ⟨he, hle⟩ := mem_filter.mp he
    exact ⟨⟨term, hmem, e, he, rfl⟩, by simpa using hle⟩
  · rintro ⟨⟨term, hterm, e, he, rfl⟩, hle⟩
    exact ⟨_, mem_map_of_mem hterm, e, mem_filter.mpr ⟨he, by simpa using hle⟩, rfl⟩

theorem hasRecord_unfinished : HasRecord (unfinished terms) id ↔ HasRecord terms id := by
  constructor
  · rintro ⟨term, hterm, hrecord⟩
    exact ⟨term, (mem_filter.mp hterm).1, hrecord⟩
  rintro ⟨term, hterm, e, he, hid⟩
  refine ⟨term, mem_filter.mpr ⟨hterm, ?_⟩, e, he, hid⟩
  cases hlist : term.1 with
  | nil =>
    rw [hlist] at he
    cases he
  | cons first rest => rfl

theorem hasRecord_perm {others : Terms S} (h : terms.Perm others)
    : HasRecord terms id ↔ HasRecord others id := by
  constructor
  · rintro ⟨term, hterm, hrecord⟩
    exact ⟨term, h.mem_iff.mp hterm, hrecord⟩
  · rintro ⟨term, hterm, hrecord⟩
    exact ⟨term, h.mem_iff.mpr hterm, hrecord⟩

variable {next : ℕ}

theorem remainingFrom_remainingFrom (hle : frontier ≤ next) :
    remainingFrom next (remainingFrom frontier terms) = remainingFrom next terms := by
  unfold remainingFrom
  rw [map_map]
  refine map_congr_left fun term _ => Prod.ext ?_ rfl
  change (term.1.filter _).filter _ = term.1.filter _
  rw [filter_filter]
  grind

/-- Frontiers that no record separates. -/
theorem remainingFrom_congr (h : ∀ id, HasRecord terms id → (frontier ≤ id ↔ next ≤ id)) :
    remainingFrom frontier terms = remainingFrom next terms := by
  refine map_congr_left fun term hterm => Prod.ext (filter_congr fun e he => ?_) rfl
  rw [decide_eq_decide]
  exact h _ ⟨term, hterm, e, he, rfl⟩

theorem unfinished_remainingFrom_unfinished :
    unfinished (remainingFrom frontier (unfinished terms)) =
      unfinished (remainingFrom frontier terms) := by
  unfold unfinished remainingFrom
  induction terms with
  | nil => rfl
  | cons term terms ih =>
    grind

/-- Lists in the same position stay so when the frontier moves. -/
theorem perm_remainingFrom {current : Terms S}
    (h : (unfinished current).Perm (unfinished (remainingFrom frontier terms)))
    (hle : frontier ≤ next) :
    (unfinished (remainingFrom next current)).Perm (unfinished (remainingFrom next terms)) := by
  have hmoved : unfinished (remainingFrom next terms) =
      unfinished (remainingFrom next (unfinished (remainingFrom frontier terms))) := by
    rw [unfinished_remainingFrom_unfinished, remainingFrom_remainingFrom hle]
  rw [← unfinished_remainingFrom_unfinished, hmoved]
  exact (h.map _).filter _

/-- Finished lists do not add to a sum to which an empty list adds nothing. -/
private theorem sum_unfinished {M : Type} [AddCommMonoid M] (f : Elements S × S → M)
    (hzero : ∀ weight, f ([], weight) = 0) :
    ((unfinished terms).map f).sum = (terms.map f).sum := by
  unfold unfinished
  induction terms with
  | nil => rfl
  | cons term terms ih =>
    grind

theorem elementCount_unfinished : elementCount (unfinished terms) = elementCount terms :=
  sum_unfinished _ fun _ => rfl

/-- Passing a record that a list has leaves fewer elements. -/
theorem elementCount_remainingFrom_lt (hrecord : HasRecord (remainingFrom frontier terms) id)
    (hlt : id < next) (hle : frontier ≤ next) :
    elementCount (remainingFrom next terms) < elementCount (remainingFrom frontier terms) := by
  obtain ⟨term, hterm, e, he, hid⟩ := hrecord
  rw [← remainingFrom_remainingFrom hle]
  unfold elementCount remainingFrom
  rw [map_map]
  refine sum_lt_sum _ _ (fun term _ => length_filter_le _ _) ⟨term, hterm, ?_⟩
  refine lt_of_le_of_ne (length_filter_le _ _) fun hsame => ?_
  have hall := length_filter_eq_length_iff.mp hsame e he
  rw [decide_eq_true_eq, hid] at hall
  omega

end Terms

section Scores

variable [CommRing S] {terms : Terms S}

theorem scoreOver_perm {others : Terms S} (h : terms.Perm others)
    (id : ℕ) : scoreOver terms id = scoreOver others id :=
  (h.map _).sum_eq

theorem scoreOver_unfinished (id : ℕ) : scoreOver (unfinished terms) id = scoreOver terms id :=
  sum_unfinished _ fun weight => zero_mul weight

variable {id : ℕ}

theorem scoreOver_remainingFrom {frontier : ℕ} (hle : frontier ≤ id) :
    scoreOver (remainingFrom frontier terms) id = scoreOver terms id := by
  unfold scoreOver remainingFrom
  rw [map_map]
  refine congrArg sum (map_congr_left fun term _ => ?_)
  change storedWeight (term.1.filter _) id * term.2 = _
  rw [storedWeight_filter]
  intro e _ hid
  rw [decide_eq_true_eq, hid]
  exact hle

/-- Beyond the frontier, the lists in their position give the scores of the whole lists. -/
theorem scoreOver_of_perm {current : Terms S} {frontier : ℕ}
    (h : (unfinished current).Perm (unfinished (remainingFrom frontier terms)))
    (hle : frontier ≤ id) : scoreOver current id = scoreOver terms id := by
  rw [← scoreOver_unfinished, scoreOver_perm h, scoreOver_unfinished, scoreOver_remainingFrom hle]

end Scores

section Cursors

variable [PostingListIter T S]

/-- What a search needs to know about posting lists besides their movements: the bounds that
pruning reads, where the representation calls them reliable. -/
structure IsSearchCursor [CommRing S] [LinearOrder S]
    (Reads : T → List (PostingElement S) → List (PostingElement S) → Prop) : Prop
    extends IsCursor Reads where
  fits {it past rest} : Reads it past rest → ∀ e ∈ rest, e.recordId ≤ pointOffsetMax
  currentIndex_eq {it past rest} : Reads it past rest →
    PostingListIter.currentIndex it = past.length
  skipToEnd_reads {it past rest} : PostingListIter.reliableMaxNextWeight T = true →
    Reads it past rest → Reads (PostingListIter.skipToEnd it) (past ++ rest) []
  maxNextWeight_ge {it past rest first} : PostingListIter.reliableMaxNextWeight T = true →
    Reads it past rest → (PostingListIter.peek it).1 = some first →
    ∀ e ∈ rest, e.weight ≤ maxWeightFromList first
  maxWeightTillId_ge {it past rest} (id : ℕ) : PostingListIter.reliableBlockMax T = true →
    Reads it past rest → ∃ maximum, PostingListIter.maxWeightTillId id it = some maximum ∧
      0 ≤ maximum ∧ ∀ e ∈ rest, e.recordId ≤ id → e.weight ≤ maximum

/-- The iterator of a posting stands before a list, and has its query weight. -/
def Stands (Reads : T → List (PostingElement S) → List (PostingElement S) → Prop)
    (posting : IndexedPostingListIterator T S) (term : List (PostingElement S) × S) : Prop :=
  (∃ past, Reads posting.postingListIterator past term.1) ∧ posting.queryWeight = term.2

/-- The least record id that the lists have. -/
def IsLeastId (terms : List (List (PostingElement S) × S)) : Option ℕ → Prop
  | none => ∀ id, ¬HasRecord terms id
  | some id => HasRecord terms id ∧ ∀ other, HasRecord terms other → id ≤ other

variable {Reads : CursorReads T S}
  {postings : List (IndexedPostingListIterator T S)}
  {current : Terms S}

theorem Stands.increasing (hcursor : IsCursor Reads) {posting : IndexedPostingListIterator T S}
    {term : Elements S × S} (h : Stands Reads posting term) : Increasing term.1 := by
  obtain ⟨⟨past, hreads⟩, -⟩ := h
  exact (pairwise_append.mp (hcursor.increasing hreads)).2.1

/-- Passing all ids up to one moves a list to the frontier after it. -/
private theorem filter_not_le (elements : Elements S) (last : ℕ) :
    elements.filter (fun e => !decide (e.recordId ≤ last)) =
      elements.filter fun e => last + 1 ≤ e.recordId := by
  grind

/-- The bounds of the records say which one is the least. -/
private theorem isLeastId_iff {terms : Terms S} {least : Option ℕ} : IsLeastId terms least ↔
    ∀ bound, (∀ id, HasRecord terms id → bound ≤ id) ↔ ∀ id ∈ least, bound ≤ id := by
  constructor
  · intro h bound
    cases least with
    | none => exact ⟨nofun, fun _ id hid => absurd hid (h id)⟩
    | some least =>
      refine ⟨fun hbound id hid => ?_, fun hbound id hid => (hbound least rfl).trans (h.2 id hid)⟩
      obtain rfl := Option.some.inj hid
      exact hbound _ h.1
  intro h
  cases least with
  | none => exact fun id hid => (Nat.lt_irrefl id) ((h (id + 1)).mpr nofun id hid)
  | some least =>
    have hleast := (h least).mpr (by simp)
    refine ⟨by_contra fun hmissing => ?_, hleast⟩
    have hafter := (h (least + 1)).mp fun id hid =>
      lt_of_le_of_ne (hleast id hid) fun heq => hmissing (heq ▸ hid)
    exact Nat.lt_irrefl least (hafter least rfl)

section

variable (hcursor : IsCursor Reads) (h : Forall₂ (Stands Reads) postings current)

include hcursor h

/-- Removing the exhausted iterators removes the exhausted lists. -/
theorem forall₂_retain :
    Forall₂ (Stands Reads) (postings.filter fun posting =>
      PostingListIter.lenToEnd posting.postingListIterator != 0) (unfinished current) := by
  induction h with
  | nil => exact Forall₂.nil
  | @cons posting term postings current hposting _ ih =>
    obtain ⟨⟨past, hreads⟩, -⟩ := id hposting
    have hlength := hcursor.lenToEnd_eq hreads
    unfold unfinished at ih ⊢
    cases hlist : term.1 with
    | nil =>
      grind
    | cons e rest =>
      rw [filter_cons_of_pos (by simp [hlength, hlist]),
        filter_cons_of_pos (by simp [hlist])]
      exact Forall₂.cons hposting ih

/-- How many elements the iterators have left. -/
theorem sum_lenToEnd :
    (postings.map fun posting => PostingListIter.lenToEnd posting.postingListIterator).sum =
      elementCount current := by
  unfold elementCount
  induction h with
  | nil => rfl
  | @cons posting term postings current hposting _ ih =>
    obtain ⟨⟨past, hreads⟩, -⟩ := hposting
    rw [map_cons, map_cons, sum_cons, sum_cons, ih, hcursor.lenToEnd_eq hreads]

/-- Skipping a batch moves all lists to the frontier after it. -/
theorem forall₂_skipTillId (last : ℕ) :
    Forall₂ (Stands Reads) (postings.map fun posting => { posting with
        postingListIterator := PostingListIter.skipTillId last posting.postingListIterator })
      (remainingFrom (last + 1) current) := by
  induction h with
  | nil => exact Forall₂.nil
  | cons hposting _ ih =>
    obtain ⟨⟨past, hreads⟩, hweight⟩ := hposting
    have hskip := hcursor.skipTillId_reads last hreads
    rw [filter_not_le] at hskip
    exact Forall₂.cons ⟨⟨_, hskip⟩, hweight⟩ ih

/-- The smallest head bounds the records of all lists. -/
private theorem nextMinIdFrom_bound (bound : ℕ) (seen : Option ℕ) :
    (∀ id ∈ (nextMinIdFrom seen postings).1, bound ≤ id) ↔
      (∀ id ∈ seen, bound ≤ id) ∧ ∀ id, HasRecord current id → bound ≤ id := by
  induction h generalizing seen with
  | nil => simp [nextMinIdFrom, HasRecord]
  | @cons posting term postings current hposting _ ih =>
    have hinc := hposting.increasing hcursor
    obtain ⟨⟨past, hreads⟩, -⟩ := hposting
    have hlower : ∀ next : Option (PostingElementEx S),
        (∀ id ∈ lowerMinId next seen, bound ≤ id) ↔
          (∀ id ∈ seen, bound ≤ id) ∧ ∀ e ∈ next, bound ≤ e.recordId := by
      rintro (_ | next)
      · simp [lowerMinId]
      rcases seen with _ | least
      · simp [lowerMinId]
      by_cases hlt : next.recordId < least <;> simp [lowerMinId, hlt] <;> omega
    have hhead : (∀ e ∈ (PostingListIter.peek posting.postingListIterator).1,
        bound ≤ e.recordId) ↔ ∀ e ∈ term.1, bound ≤ e.recordId := by
      have hpeek := hcursor.peek_eq hreads
      constructor
      · intro hbound e he
        obtain ⟨⟨first, hfirst, hle⟩, -⟩ := hinc.between he
        rw [hfirst, Option.map_eq_some_iff] at hpeek
        obtain ⟨next, hnext, rfl⟩ := hpeek
        exact (hbound next hnext).trans hle
      · intro hbound first hfirst
        rw [hfirst] at hpeek
        exact hbound _ (mem_of_head? hpeek.symm)
    unfold nextMinIdFrom
    rw [ih, hlower, hhead, and_assoc]
    simp [HasRecord, or_imp, forall_and]

/-- The least id at the heads is the least id of the lists. -/
theorem nextMinId_spec : Forall₂ (Stands Reads) (nextMinId postings).2 current ∧
    IsLeastId current (nextMinId postings).1 := by
  constructor
  · unfold nextMinId
    generalize (none : Option ℕ) = seen
    induction h generalizing seen with
    | nil => exact Forall₂.nil
    | cons hposting _ ih =>
      obtain ⟨⟨past, hreads⟩, hweight⟩ := hposting
      exact Forall₂.cons ⟨⟨past, hcursor.peek_reads hreads⟩, hweight⟩ (ih _)
  · refine isLeastId_iff.mpr fun bound => ?_
    unfold nextMinId
    rw [nextMinIdFrom_bound hcursor h]
    simp

variable [CommRing S] {start last : ℕ} (hstart : ∀ id, HasRecord current id → start ≤ id)

include hstart

/-- Advancing adds the scores of a batch and moves all lists to the frontier after it. -/
theorem advancePostings_spec (scores : List S) :
    (∀ i, start + i ≤ last → (advancePostings start last postings scores).1[i]? =
      scores[i]?.map (· + scoreOver current (start + i))) ∧
    (advancePostings start last postings scores).1.length = scores.length ∧
    Forall₂ (Stands Reads) (advancePostings start last postings scores).2
      (remainingFrom (last + 1) current) := by
  induction h generalizing scores with
  | nil => exact ⟨fun i _ => by simp [advancePostings, scoreOver], rfl, Forall₂.nil⟩
  | @cons posting term postings current hposting _ ih =>
    have hinc := hposting.increasing hcursor
    obtain ⟨⟨past, hreads⟩, hweight⟩ := hposting
    have hvisit : Stands Reads { posting with
        postingListIterator := (PostingListIter.forEachTillId last (fun scores id weight =>
          scores.modify (id - start) (· + weight * posting.queryWeight)) scores
          posting.postingListIterator).2 }
        (term.1.filter (fun e => last + 1 ≤ e.recordId), term.2) := by
      have hpassed := hcursor.forEach_reads last (fun scores id weight =>
        scores.modify (id - start) (· + weight * posting.queryWeight)) scores hreads
      rw [filter_not_le] at hpassed
      exact ⟨⟨_, hpassed⟩, hweight⟩
    have hscores := hcursor.forEach_eq last (fun scores id weight =>
      scores.modify (id - start) (· + weight * posting.queryWeight)) scores hreads
    have hlater : ∀ id, HasRecord current id → start ≤ id := by
      rintro id ⟨term, hterm, hrecord⟩
      exact hstart id ⟨term, mem_cons_of_mem _ hterm, hrecord⟩
    obtain ⟨hrest, hlength, hstands⟩ := ih hlater
      (PostingListIter.forEachTillId last (fun scores id weight =>
        scores.modify (id - start) (· + weight * posting.queryWeight)) scores
        posting.postingListIterator).1
    unfold advancePostings
    refine ⟨fun i hi => ?_, ?_, Forall₂.cons hvisit hstands⟩
    · have hge : ∀ e ∈ term.1.filter fun e => e.recordId ≤ last, start ≤ e.recordId := by
        intro e he
        exact hstart _ ⟨term, mem_cons_self, e, (mem_filter.mp he).1, rfl⟩
      have hkept : ∀ e ∈ term.1, e.recordId = start + i → decide (e.recordId ≤ last) = true := by
        intro e _ hid
        rw [hid]
        exact decide_eq_true hi
      rw [hrest i hi, hscores, getElem?_foldl_addWeights (Pairwise.filter _ hinc) hge,
        storedWeight_filter hkept, hweight]
      cases scores[i]? with
      | none => rfl
      | some score => simp [scoreOver, add_assoc]
    · rw [hlength, hscores]
      refine foldlRecOn (motive := fun buffer : List S => buffer.length = scores.length)
        _ _ rfl ?_
      intro buffer hbuffer e _
      rw [length_modify, hbuffer]

/-- The buffer of a batch holds the scores of its ids. -/
theorem advancePostings_scores (hle : start ≤ last) :
    (advancePostings start last postings (replicate (last - start + 1) 0)).1 =
      (range' start (last - start + 1)).map (scoreOver current) := by
  obtain ⟨hscores, hlength, -⟩ := @advancePostings_spec T S _ Reads postings current hcursor h _
    start last hstart (replicate (last - start + 1) (0 : S))
  apply ext_getElem?
  grind

end

end Cursors

section Batches

variable [CommRing S] [LinearOrder S]

/-- The points of a batch that are pushed: those with a score that pass the filter. -/
def batchPoints (filterCondition : ℕ → Bool) (score : ℕ → S) (start last : ℕ) :
    List (ScoredPointOffset S) :=
  (rangePoints score start last).filter fun point => filterCondition point.idx

variable [UnstableSort S]

/-- The threshold is tested once more by the push itself. -/
theorem pushScores_eq (filterCondition : ℕ → Bool) (score : ℕ → S) (start last : ℕ)
    (topResults : TopK S) :
    pushScores start filterCondition ((range' start (last - start + 1)).map score)
      topResults = (batchPoints filterCondition score start last).foldl TopK.push topResults := by
  unfold pushScores batchPoints rangePoints
  have hscores : ((range' start (last - start + 1)).map score).zipIdx =
      (range (last - start + 1)).map fun i => (score (start + i), i) := by
    apply ext_getElem?
    grind
  rw [hscores, foldl_map, foldl_filter, foldl_map, foldl_filter, range'_eq_map_range, foldl_map]
  refine foldl_ext _ _ _ fun topResults i _ => ?_
  by_cases habove : topResults.threshold < score (start + i)
  · grind
  · have hpush : topResults.push ⟨start + i, score (start + i)⟩ = topResults :=
      TopK.push_of_le (not_lt.mp habove)
    grind

end Batches

section Bounds

variable [PostingListIter T S] {Reads : CursorReads T S}
  {postings : List (IndexedPostingListIterator T S)} {current : Terms S} {id : ℕ}

/-- Lists that start after a frontier are not moved to it. -/
private theorem remainingFrom_eq_self {frontier : ℕ}
    (h : ∀ id, HasRecord current id → frontier ≤ id) :
    remainingFrom frontier current = current := by
  nth_rewrite 2 [← map_id current]
  refine map_congr_left fun term hterm => Prod.ext ?_ rfl
  refine filter_eq_self.mpr fun e he => ?_
  exact decide_eq_true (h _ ⟨term, hterm, e, he, rfl⟩)

/-- Promoting only reorders the posting lists. -/
theorem promoteLongest_perm (context : SearchContext T S) :
    ∃ postings, context.promoteLongestPostingListsToTheFront =
      { context with postingsIterators := postings } ∧
      postings.Perm context.postingsIterators := by
  unfold promoteLongestPostingListsToTheFront
  dsimp only
  split
  · split
    · rename_i hindex
      exact ⟨_, rfl, swap_zero_perm _ hindex⟩
    · exact ⟨context.postingsIterators, rfl, Perm.refl _⟩
  · exact ⟨context.postingsIterators, rfl, Perm.refl _⟩

variable [CommRing S] [LinearOrder S]

/-- A bound of the stored weights bounds the weight of a record, also of a missing one. -/
private theorem storedWeight_le {elements : Elements S} {maximum : S}
    (hzero : lookup id elements = none → 0 ≤ maximum)
    (hle : ∀ e ∈ elements, e.recordId = id → e.weight ≤ maximum) :
    storedWeight elements id ≤ maximum := by
  unfold storedWeight
  cases hlookup : lookup id elements with
  | none => exact hzero hlookup
  | some e =>
    have hid : e.recordId = id := by simpa using find?_some hlookup
    exact hle e (mem_of_find?_eq_some hlookup) hid

variable [IsStrictOrderedRing S]

/-- The weighted block maxima bound the scores of a batch. -/
theorem scoreOver_le_batchUpperBound (hcursor : IsSearchCursor Reads)
    (hreliable : PostingListIter.reliableBlockMax T = true)
    (h : Forall₂ (Stands Reads) postings current) (hnonneg : ∀ term ∈ current, 0 ≤ term.2)
    {last : ℕ} (hid : id ≤ last) : scoreOver current id ≤ batchUpperBound last postings := by
  have hgeneral : ∀ addBound : S → IndexedPostingListIterator T S → S,
      (∀ upperBound posting maxWeight,
        PostingListIter.maxWeightTillId last posting.postingListIterator = some maxWeight →
        addBound upperBound posting = upperBound + maxWeight * posting.queryWeight) →
      ∀ bound, bound + scoreOver current id ≤ postings.foldl addBound bound := by
    intro addBound hadd
    induction h with
    | nil => intro bound; simp [scoreOver]
    | @cons posting term postings current hposting _ ih =>
      intro bound
      obtain ⟨⟨past, hreads⟩, hweight⟩ := hposting
      obtain ⟨hterm, hterms⟩ := forall_mem_cons.mp hnonneg
      obtain ⟨maximum, hmax, hzero, hle⟩ := hcursor.maxWeightTillId_ge last hreliable hreads
      rw [foldl_cons, hadd _ _ _ hmax]
      refine le_trans ?_ (ih hterms _)
      have hstored : storedWeight term.1 id ≤ maximum :=
        storedWeight_le (fun _ => hzero) fun e he heq => hle e he (heq ▸ hid)
      have hmul := mul_le_mul_of_nonneg_right hstored hterm
      have hsum : scoreOver (term :: current) id =
          storedWeight term.1 id * term.2 + scoreOver current id := by
        simp [scoreOver]
      rw [hsum, hweight, ← add_assoc]
      exact add_le_add (add_le_add le_rfl hmul) le_rfl
  refine (zero_add _).symm.trans_le (hgeneral _ (fun upperBound posting maxWeight hmax => ?_) 0)
  rw [hmax]

/-- What only the first list has is bounded by its notes. -/
theorem scoreOver_le_of_longest (hcursor : IsSearchCursor Reads)
    (hreliable : PostingListIter.reliableMaxNextWeight T = true)
    {term : Elements S × S} {others : Terms S} {it : T}
    {past : Elements S} (hreads : Reads it past term.1) {first : PostingElementEx S}
    (hfirst : (PostingListIter.peek it).1 = some first) (hnonneg : 0 ≤ term.2)
    (hrecord : HasRecord (term :: others) id) (hothers : ¬HasRecord others id) :
    scoreOver (term :: others) id ≤ maxWeightFromList first * term.2 := by
  have hsum : scoreOver (term :: others) id =
      storedWeight term.1 id * term.2 + scoreOver others id := by
    simp [scoreOver]
  rw [hsum, not_not.mp (mt exists_of_scoreOver_ne_zero hothers), add_zero]
  refine mul_le_mul_of_nonneg_right (storedWeight_le ?_ ?_) hnonneg
  · intro hnone
    obtain ⟨other, hother, e, he, rfl⟩ := hrecord
    rcases mem_cons.mp hother with rfl | hother
    · have hmissing := find?_eq_none.mp hnone e he
      simp at hmissing
    · exact absurd ⟨other, hother, e, he, rfl⟩ hothers
  · intro e he _
    exact hcursor.maxNextWeight_ge hreliable hreads hfirst e he

/-- Pruning the longest list either leaves all lists where they are, or moves them to a later
frontier; the records in between are below the score. -/
theorem pruneLongestPostingList_cases (hcursor : IsSearchCursor Reads)
    (hreliable : PostingListIter.reliableMaxNextWeight T = true) {context : SearchContext T S}
    (h : Forall₂ (Stands Reads) context.postingsIterators current)
    (hnonneg : ∀ term ∈ current, 0 ≤ term.2) (minScore : WithBot S) :
    ∃ pruned postings, context.pruneLongestPostingList minScore =
        (pruned, { context with postingsIterators := postings }) ∧
      (pruned = false ∧ Forall₂ (Stands Reads) postings current ∨
        pruned = true ∧ ∃ next, Forall₂ (Stands Reads) postings (remainingFrom next current) ∧
          (∃ id, HasRecord current id ∧ id < next) ∧ ∀ id, HasRecord current id → id < next →
            ((scoreOver current id : S) : WithBot S) < minScore) := by
  unfold pruneLongestPostingList
  cases hpostings : context.postingsIterators with
  | nil => exact ⟨false, context.postingsIterators, rfl, Or.inl ⟨rfl, h⟩⟩
  | cons longest rest =>
    rw [hpostings] at h
    cases h with
    | @cons _ term _ others hlongest hrest =>
    obtain ⟨⟨past, hreads⟩, hweight⟩ := hlongest
    obtain ⟨hterm, hothers⟩ := forall_mem_cons.mp hnonneg
    have hpeeked := hcursor.peek_reads hreads
    have hpeek := hcursor.peek_eq hreads
    dsimp only
    cases hfirst : (PostingListIter.peek longest.postingListIterator).1 with
    | none =>
      exact ⟨false, _, rfl, Or.inl ⟨rfl, Forall₂.cons ⟨⟨past, hpeeked⟩, hweight⟩ hrest⟩⟩
    | some element =>
      rw [hfirst] at hpeek
      have hhead : element.toPostingElement ∈ term.1 := mem_of_head? hpeek.symm
      obtain ⟨hinspected, hleast⟩ := nextMinId_spec hcursor.toIsCursor hrest
      have hkeep : Forall₂ (Stands Reads)
          ({ longest with
              postingListIterator := (PostingListIter.peek longest.postingListIterator).2 } ::
            (nextMinId rest).2) (term :: others) :=
        Forall₂.cons ⟨⟨past, hpeeked⟩, hweight⟩ hinspected
      have hpresent : HasRecord (term :: others) element.recordId :=
        ⟨term, mem_cons_self, _, hhead, rfl⟩
      have hbound : ∀ id, HasRecord (term :: others) id → ¬HasRecord others id →
          ((maxWeightFromList element * longest.queryWeight : S) : WithBot S) < minScore →
          ((scoreOver (term :: others) id : S) : WithBot S) < minScore := by
        intro id hrecord hmissing hlt
        have hle := scoreOver_le_of_longest hcursor hreliable hreads hfirst hterm hrecord hmissing
        rw [hweight] at hlt
        exact lt_of_le_of_lt (WithBot.coe_le_coe.mpr hle) hlt
      dsimp only
      cases hnext : (nextMinId rest).1 with
      | some next =>
        rw [hnext] at hleast
        dsimp only
        by_cases hlt : element.recordId < next
        · by_cases hbelow :
            ((maxWeightFromList element * longest.queryWeight : S) : WithBot S) < minScore
          · rw [if_pos hlt, if_pos hbelow]
            have hskip := hcursor.skipTo_reads next hpeeked
            have hindex := hcursor.currentIndex_eq hskip
            have hmoved : term.1.filter (fun e => !decide (e.recordId < next)) =
                term.1.filter fun e => next ≤ e.recordId := by
              grind
            have hskipped : 0 < (term.1.filter fun e => e.recordId < next).length :=
              length_pos_of_mem (mem_filter.mpr ⟨hhead, decide_eq_true hlt⟩)
            have hpruned : (PostingListIter.currentIndex (PostingListIter.skipTo next
                (PostingListIter.peek longest.postingListIterator).2).2 -
                PostingListIter.currentIndex
                  (PostingListIter.peek longest.postingListIterator).2 != 0) = true := by
              rw [hindex, hcursor.currentIndex_eq hpeeked, length_append, bne_iff_ne]
              omega
            rw [hmoved] at hskip
            refine ⟨true, _, Prod.ext hpruned rfl, Or.inr ⟨rfl, next,
              Forall₂.cons ⟨⟨_, hskip⟩, hweight⟩ ?_, ⟨_, hpresent, hlt⟩,
              fun id hrecord hid => ?_⟩⟩
            · change Forall₂ (Stands Reads) _ (remainingFrom next others)
              rwa [remainingFrom_eq_self hleast.2]
            · refine hbound id hrecord (fun hother => ?_) hbelow
              have := hleast.2 id hother
              omega
          · rw [if_pos hlt, if_neg hbelow]
            exact ⟨false, _, rfl, Or.inl ⟨rfl, hkeep⟩⟩
        · rw [if_neg hlt]
          exact ⟨false, _, rfl, Or.inl ⟨rfl, hkeep⟩⟩
      | none =>
        rw [hnext] at hleast
        by_cases hbelow :
          ((maxWeightFromList element * longest.queryWeight : S) : WithBot S) < minScore
        · rw [if_pos hbelow]
          have hend := hcursor.skipToEnd_reads hreliable hpeeked
          have hnothing : term.1.filter (fun e => pointOffsetMax + 1 ≤ e.recordId) = [] := by
            refine filter_eq_nil_iff.mpr fun e he => ?_
            have hfits := hcursor.fits hreads e he
            rw [decide_eq_true_eq]
            omega
          rw [← hnothing] at hend
          refine ⟨true, _, rfl, Or.inr ⟨rfl, pointOffsetMax + 1,
            Forall₂.cons ⟨⟨_, hend⟩, hweight⟩ ?_,
            ⟨_, hpresent, Nat.lt_succ_of_le (hcursor.fits hreads _ hhead)⟩,
            fun id hrecord _ => ?_⟩⟩
          · change Forall₂ (Stands Reads) _ (remainingFrom (pointOffsetMax + 1) others)
            rwa [remainingFrom_eq_self fun id hrecord => absurd hrecord (hleast id)]
          · exact hbound id hrecord (hleast id) hbelow
        · rw [if_neg hbelow]
          exact ⟨false, _, rfl, Or.inl ⟨rfl, hkeep⟩⟩

end Bounds

end Stratumind
