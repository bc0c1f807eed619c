import Stratumind.Sparse.SearchCursors
import Stratumind.Sparse.SearchTurns
import Stratumind.Sparse.SparseRanking

/-!
# The batched search finds the largest positive scores

Whatever a search has passed is accounted for in its results: it was pushed, or it is not
above the threshold of as many results as are asked for. No setting of the pruning switches
changes that.
-/

namespace Stratumind

open Lib BlockMax SearchContext List

variable {I T S : Type}

section Counting

variable [CommRing S] [LinearOrder S] {filterCondition : ℕ → Bool}
  {terms : Terms S} {frontier next : ℕ} {topK : TopK S}

/-- The results hold passing records before the frontier with their scores, and account for all
positive ones. -/
structure Counted (filterCondition : ℕ → Bool) (terms : List (List (PostingElement S) × S))
    (frontier : ℕ) (topK : TopK S) : Prop where
  sound : topK.Sound
  scored : ∀ point ∈ topK.elements, point.idx < frontier ∧ HasRecord terms point.idx ∧
    filterCondition point.idx = true ∧ point.score = scoreOver terms point.idx
  nodup : (topK.elements.map ScoredPointOffset.idx).Nodup
  accounts : ∀ id < frontier, filterCondition id = true → 0 < scoreOver terms id →
    topK.Accounts ⟨id, scoreOver terms id⟩

theorem counted_new {top : ℕ} (htop : 0 < top) : Counted filterCondition terms 0 (TopK.new top) :=
  ⟨TopK.sound_new htop, by simp [TopK.new], by simp [TopK.new],
    fun id hid => absurd hid (Nat.not_lt_zero id)⟩

/-- Records that do not reach above the threshold may be skipped. -/
theorem Counted.skip (h : Counted filterCondition terms frontier topK) (hle : frontier ≤ next)
    (hbelow : Below terms topK.threshold frontier next) :
    Counted filterCondition terms next topK := by
  refine ⟨h.sound, fun point hpoint => ?_, h.nodup, fun id hid hpass hpositive => ?_⟩
  · obtain ⟨hlt, hrest⟩ := h.scored point hpoint
    exact ⟨hlt.trans_le hle, hrest⟩
  rcases Nat.lt_or_ge id frontier with hlt | hge
  · exact h.accounts id hlt hpass hpositive
  · have hrecord : HasRecord terms id := exists_of_scoreOver_ne_zero hpositive.ne'
    exact Or.inr (hbelow id hrecord hge hid)

variable [UnstableSort S]

/-- Pushing the passing records between two frontiers, all positive ones among them. -/
theorem Counted.push (h : Counted filterCondition terms frontier topK) (hle : frontier ≤ next)
    {points : List (ScoredPointOffset S)}
    (hscored : ∀ point ∈ points, frontier ≤ point.idx ∧ point.idx < next ∧
      HasRecord terms point.idx ∧ filterCondition point.idx = true ∧
      point.score = scoreOver terms point.idx)
    (hnodup : (points.map ScoredPointOffset.idx).Nodup)
    (hall : ∀ id, frontier ≤ id → id < next → filterCondition id = true →
      0 < scoreOver terms id → ⟨id, scoreOver terms id⟩ ∈ points) :
    Counted filterCondition terms next (points.foldl TopK.push topK) := by
  have htakes := h.sound.takes_foldl points
  refine ⟨htakes.sound, fun point hpoint => ?_, ?_, fun id hid hpass hpositive => ?_⟩
  · rcases mem_append.mp (htakes.elements_subperm.subset hpoint) with hpoint | hpoint
    · obtain ⟨hlt, hrest⟩ := h.scored point hpoint
      exact ⟨hlt.trans_le hle, hrest⟩
    · exact (hscored point hpoint).2
  · obtain ⟨part, hperm, hsub⟩ := htakes.elements_subperm
    have hparts : ((topK.elements ++ points).map ScoredPointOffset.idx).Nodup := by
      rw [map_append]
      refine h.nodup.append hnodup fun id hold hnew => ?_
      obtain ⟨point, hpoint, rfl⟩ := mem_map.mp hold
      obtain ⟨pushed, hpushed, heq⟩ := mem_map.mp hnew
      have hlt := (h.scored point hpoint).1
      have hge := (hscored pushed hpushed).1
      omega
    exact (hperm.map _).nodup_iff.mp (hparts.sublist (hsub.map _))
  · refine htakes.accounts _ ?_
    rcases Nat.lt_or_ge id frontier with hlt | hge
    · exact Or.inl (h.accounts id hlt hpass hpositive)
    · exact Or.inr (hall id hge hid hpass hpositive)

omit [UnstableSort S] in
/-- The pushed points of a batch are the passing records before its end that have a score. -/
theorem batchPoints_spec {start last : ℕ}
    (hleast : IsLeastId (remainingFrom frontier terms) (some start)) (hle : start ≤ last) :
    (∀ point, point ∈ batchPoints filterCondition (scoreOver terms) start last ↔
      frontier ≤ point.idx ∧ point.idx < last + 1 ∧ filterCondition point.idx = true ∧
        point.score = scoreOver terms point.idx ∧ scoreOver terms point.idx ≠ 0) ∧
    ((batchPoints filterCondition (scoreOver terms) start last).map
      ScoredPointOffset.idx).Nodup := by
  have hge := (hasRecord_remainingFrom.mp hleast.1).2
  constructor
  · intro point
    unfold batchPoints
    rw [mem_filter, mem_rangePoints hle]
    constructor
    · grind
    rintro ⟨hfrontier, hlast, hpass, hscore, hne⟩
    have hrecord : HasRecord terms point.idx := exists_of_scoreOver_ne_zero hne
    have hstart := hleast.2 _ (hasRecord_remainingFrom.mpr ⟨hrecord, hfrontier⟩)
    exact ⟨⟨hstart, Nat.lt_succ_iff.mp hlast, hscore, hne⟩, hpass⟩
  · have hids : (rangePoints (scoreOver terms) start last).map ScoredPointOffset.idx =
        (range' start (last - start + 1)).filter fun id => scoreOver terms id ≠ 0 := by
      unfold rangePoints
      rw [map_map]
      exact map_id _
    have hrange : (range' start (last - start + 1)).Nodup := nodup_range' ..
    refine Nodup.sublist ((filter_sublist).map _) ?_
    rw [hids]
    exact hrange.filter _

/-- Pushing a batch that starts at the least record to come. -/
theorem Counted.batch (h : Counted filterCondition terms frontier topK) {start last : ℕ}
    (hleast : IsLeastId (remainingFrom frontier terms) (some start)) (hle : start ≤ last) :
    Counted filterCondition terms (last + 1)
      ((batchPoints filterCondition (scoreOver terms) start last).foldl TopK.push topK) := by
  have hge := (hasRecord_remainingFrom.mp hleast.1).2
  obtain ⟨hmem, hnodup⟩ := batchPoints_spec hleast hle
  refine h.push (by omega) (fun point hpoint => ?_) hnodup fun id hid hlt hpass hpositive => ?_
  · obtain ⟨hfrontier, hlast, hpass, hscore, hne⟩ := (hmem point).mp hpoint
    exact ⟨hfrontier, hlast, exists_of_scoreOver_ne_zero hne, hpass, hscore⟩
  · exact (hmem _).mpr ⟨hid, hlt, hpass, rfl, hpositive.ne'⟩

omit [UnstableSort S] [LinearOrder S] in
/-- The pushed points of the last list are the passing records from the frontier on. -/
theorem lastListPoints_spec {term : Elements S × S}
    (hlast : unfinished (remainingFrom frontier terms) = [term]) (hinc : Increasing term.1) :
    (∀ point, point ∈ lastListPoints filterCondition term ↔
      frontier ≤ point.idx ∧ HasRecord terms point.idx ∧ filterCondition point.idx = true ∧
        point.score = scoreOver terms point.idx) ∧
    ((lastListPoints filterCondition term).map ScoredPointOffset.idx).Nodup := by
  have hrecord : ∀ id, (∃ e ∈ term.1, e.recordId = id) ↔ HasRecord terms id ∧ frontier ≤ id := by
    intro id
    rw [← hasRecord_remainingFrom, ← hasRecord_unfinished, hlast]
    unfold HasRecord
    simp only [mem_singleton, exists_eq_left]
  have hscore : ∀ e ∈ term.1, scoreOver terms e.recordId = e.weight * term.2 := by
    intro e he
    have hge := ((hrecord e.recordId).mp ⟨e, he, rfl⟩).2
    rw [← scoreOver_remainingFrom hge, ← scoreOver_unfinished, hlast]
    simp [scoreOver, storedWeight, hinc.lookup_eq he]
  constructor
  · intro point
    constructor
    · intro hpoint
      obtain ⟨e, he, rfl⟩ := mem_map.mp hpoint
      grind
    rintro ⟨hge, hterms, hpass, hvalue⟩
    obtain ⟨e, he, hid⟩ := (hrecord point.idx).mpr ⟨hterms, hge⟩
    rw [← hid] at hpass hvalue
    refine mem_map.mpr ⟨e, mem_filter.mpr ⟨he, hpass⟩, ?_⟩
    exact ScoredPointOffset.ext hid ((hscore e he).symm.trans hvalue.symm)
  · unfold lastListPoints
    rw [map_map]
    have hids : (term.1.map PostingElement.recordId).Nodup :=
      pairwise_map.mpr (hinc.imp fun hlt => hlt.ne)
    exact hids.sublist ((filter_sublist).map _)

/-- Pushing the only list that is left. -/
theorem Counted.lastList (h : Counted filterCondition terms frontier topK) {term : Elements S × S}
    (hlast : unfinished (remainingFrom frontier terms) = [term]) (hinc : Increasing term.1)
    (hle : frontier ≤ next) (hend : ∀ id, HasRecord terms id → id < next) :
    Counted filterCondition terms next
      ((lastListPoints filterCondition term).foldl TopK.push topK) := by
  obtain ⟨hmem, hnodup⟩ := lastListPoints_spec hlast hinc
  refine h.push hle (fun point hpoint => ?_) hnodup fun id hge _ hpass hpositive => ?_
  · grind
  · exact (hmem _).mpr ⟨hge, exists_of_scoreOver_ne_zero hpositive.ne', hpass, rfl⟩

end Counting

section Opening

variable [PostingListIter T S] [InvertedIndex I T] [CommRing S] [LinearOrder S]
  {Reads : CursorReads T S} {index : I}
  {lists : ℕ → Elements S} {values : List S}

/-- Opened lists with the bounds of their ids. -/
structure Opened (Reads : T → List (PostingElement S) → List (PostingElement S) → Prop)
    (opened : OpenedLists T S) (terms : List (List (PostingElement S) × S)) : Prop where
  stands : Forall₂ (Stands Reads) opened.postingsIterators terms
  bounds : ∀ id, HasRecord terms id → opened.minRecordId ≤ id ∧ id ≤ opened.maxRecordId
  least : terms ≠ [] → HasRecord terms opened.minRecordId
  greatest : terms ≠ [] → HasRecord terms opened.maxRecordId
  initial : terms = [] → opened.minRecordId = pointOffsetMax ∧ opened.maxRecordId = 0

/-- One more list, which is not empty. -/
private theorem Opened.snoc (hcursor : IsSearchCursor Reads) {opened : OpenedLists T S}
    {terms : Terms S} (h : Opened Reads opened terms) {it : T}
    {list : Elements S} (hreads : Reads it [] list) {first last : PostingElement S}
    (hfirst : list.head? = some first) (hlast : list.getLast? = some last) (queryWeight : S) :
    Opened Reads
      { postingsIterators := opened.postingsIterators ++ [⟨it, queryWeight⟩]
        minRecordId := min opened.minRecordId first.recordId
        maxRecordId := max opened.maxRecordId last.recordId }
      (terms ++ [(list, queryWeight)]) := by
  have hinc : Increasing list := hcursor.increasing hreads
  have hrecord : ∀ id, HasRecord (terms ++ [(list, queryWeight)]) id ↔
      HasRecord terms id ∨ ∃ e ∈ list, e.recordId = id := by
    intro id
    unfold HasRecord
    simp only [mem_append, mem_singleton, or_and_right, exists_or, exists_eq_left]
  have hmem := mem_of_head? hfirst
  refine ⟨rel_append h.stands (Forall₂.cons ⟨⟨[], hreads⟩, rfl⟩ Forall₂.nil),
    fun id hid => ?_, fun _ => ?_, fun _ => ?_, fun hnil => absurd hnil (by simp)⟩
  · rcases (hrecord id).mp hid with hid | ⟨e, he, rfl⟩
    · obtain ⟨hmin, hmax⟩ := h.bounds id hid
      exact ⟨(min_le_left _ _).trans hmin, hmax.trans (le_max_left _ _)⟩
    obtain ⟨⟨first', hfirst', hge⟩, last', hlast', hle⟩ := hinc.between he
    grind
  · rw [hrecord]
    by_cases hnil : terms = []
    · right
      rw [(h.initial hnil).1, min_eq_right (hcursor.fits hreads first hmem)]
      exact ⟨first, hmem, rfl⟩
    · rcases min_choice opened.minRecordId first.recordId with hmin | hmin <;> rw [hmin]
      · exact Or.inl (h.least hnil)
      · exact Or.inr ⟨first, hmem, rfl⟩
  · rw [hrecord]
    have hmem := mem_of_getLast? hlast
    by_cases hnil : terms = []
    · right
      rw [(h.initial hnil).2, max_eq_right (Nat.zero_le _)]
      exact ⟨last, hmem, rfl⟩
    · rcases max_choice opened.maxRecordId last.recordId with hmax | hmax <;> rw [hmax]
      · exact Or.inl (h.greatest hnil)
      · exact Or.inr ⟨last, hmem, rfl⟩

/-- Opening gives the lists of the query that are not empty. -/
private theorem openLists_eq (hcursor : IsSearchCursor Reads)
    (hopens : ∀ id it, InvertedIndex.get index id = .ok it → Reads it [] (lists id))
    {indices : List ℕ} {offset : ℕ} {opened result : OpenedLists T S}
    {before : Terms S} (h : Opened Reads opened before)
    (hresult : openLists index values (indices.zipIdx offset) opened = some (.ok result)) :
    Opened Reads result (before ++ ((indices.zip (values.drop offset)).map fun term =>
      (lists term.1, term.2)).filter fun term => !term.1.isEmpty) := by
  induction indices generalizing offset opened before with
  | nil =>
    cases hresult
    simpa using h
  | cons id indices ih =>
    rw [zipIdx_cons, openLists] at hresult
    cases hget : InvertedIndex.get index id with
    | error error =>
      rw [hget] at hresult
      cases hresult
    | ok it =>
      rw [hget] at hresult
      dsimp only at hresult
      have hreads := hopens id it hget
      have hpeek := hcursor.peek_eq hreads
      have hpeeked := hcursor.peek_reads hreads
      have hlastId := hcursor.lastId_eq hpeeked
      rw [nil_append] at hlastId
      cases hlist : lists id with
      | nil =>
        rw [hlist] at hpeek hlastId
        have hnone : (PostingListIter.peek it).1 = none := by
          simpa using hpeek
        rw [hnone] at hresult
        have hrest := ih h hresult
        rw [← tail_drop] at hrest
        cases hvalues : values.drop offset with
        | nil => simpa [hvalues] using hrest
        | cons value rest => simpa [hvalues, hlist] using hrest
      | cons first tail =>
        rw [hlist] at hpeek hlastId hpeeked
        obtain ⟨element, hsome, helement⟩ := Option.map_eq_some_iff.mp hpeek
        obtain ⟨last, hlast⟩ : ∃ last, (first :: tail).getLast? = some last :=
          ⟨_, getLast?_eq_some_getLast (cons_ne_nil first tail)⟩
        rw [hlast, Option.map_some] at hlastId
        rw [hsome, hlastId] at hresult
        dsimp only at hresult
        cases hvalue : values[offset]? with
        | none =>
          rw [hvalue] at hresult
          cases hresult
        | some value =>
          rw [hvalue] at hresult
          have hdrop : values.drop offset = value :: values.drop (offset + 1) := by
            obtain ⟨hlt, rfl⟩ := List.getElem?_eq_some_iff.mp hvalue
            exact drop_eq_getElem_cons hlt
          have hid : element.recordId = first.recordId :=
            congrArg PostingElement.recordId helement
          rw [hid] at hresult
          have hrest := ih (h.snoc hcursor hpeeked rfl hlast value) hresult
          grind

omit [CommRing S] [LinearOrder S] in
theorem remainingFrom_zero (terms : Terms S) : remainingFrom 0 terms = terms := by
  unfold remainingFrom
  simp

/-- A new search stands before all lists of its query. -/
theorem positioned_new (hcursor : IsSearchCursor Reads)
    (hopens : ∀ id it, InvertedIndex.get index id = .ok it → Reads it [] (lists id))
    {query : RemappedSparseVector S} {top : ℕ} {context : SearchContext T S}
    (h : new index query top = some (.ok context)) :
    context.topResults = TopK.new top ∧ context.top = top ∧ context.batchSize = advanceBatchSize ∧
      (context.postingsIterators = [] ↔ queryPostings lists query = []) ∧
      (queryPostings lists query ≠ [] → HasRecord (queryPostings lists query) context.maxRecordId ∧
        Positioned Reads (queryPostings lists query) 0 context) := by
  obtain ⟨result, hresult, hmap⟩ := Option.map_eq_some_iff.mp h
  cases result with
  | error error => cases hmap
  | ok opened =>
    cases hmap
    have hempty : Opened Reads (⟨[], pointOffsetMax, 0⟩ : OpenedLists T S) [] := by
      refine ⟨Forall₂.nil, ?_, fun hne => absurd rfl hne, fun hne => absurd rfl hne,
        fun _ => ⟨rfl, rfl⟩⟩
      rintro id ⟨term, hterm, -⟩
      cases hterm
    have hopened := openLists_eq hcursor hopens hempty hresult
    change Opened Reads opened (queryPostings lists query) at hopened
    have hpruning : ∀ reliable : Bool, (reliable && query.values.all (0 ≤ ·)) = true →
        reliable = true ∧ ∀ term ∈ queryPostings lists query, 0 ≤ term.2 := by
      intro reliable huse
      obtain ⟨hreliable, hall⟩ := Bool.and_eq_true_iff.mp huse
      refine ⟨hreliable, fun term hterm => ?_⟩
      obtain ⟨entry, hentry, rfl⟩ := mem_map.mp (mem_filter.mp hterm).1
      exact of_decide_eq_true (all_eq_true.mp hall _ (of_mem_zip hentry).2)
    refine ⟨rfl, rfl, rfl, ?_, fun hne => ⟨hopened.greatest hne,
      ⟨queryPostings lists query, hopened.stands, ?_, ?_⟩, ⟨?_, ?_⟩, ?_, hpruning _, hpruning _⟩⟩
    · rw [← length_eq_zero_iff, ← length_eq_zero_iff, hopened.stands.length_eq]
    · rw [remainingFrom_zero]
    · exact fun term hterm => ⟨term, hterm, rfl⟩
    · rw [remainingFrom_zero]
      exact hopened.least hne
    · rw [remainingFrom_zero]
      exact fun id hid => (hopened.bounds id hid).1
    · exact fun id hid => (hopened.bounds id hid).2

end Opening

section Settings

variable [PostingListIter T S] [BlockMaxEndpoints T S] [CommRing S] [LinearOrder S]
  {context next : SearchContext T S}

/-- What the setters leave as it is, and that they only switch pruning off. -/
structure Reconfigured (context next : SearchContext T S) : Prop where
  top_eq : next.top = context.top
  batchSize_le : context.batchSize ≤ pointOffsetMax → next.batchSize ≤ pointOffsetMax
  postings_eq : next.postingsIterators = context.postingsIterators
  minRecordId_eq : next.minRecordId = context.minRecordId
  maxRecordId_eq : next.maxRecordId = context.maxRecordId
  topResults_eq : next.topResults = context.topResults
  usePruning_of : next.usePruning = true → context.usePruning = true
  useBlockPruning_of : next.useBlockPruning = true → context.useBlockPruning = true

omit [PostingListIter T S] [BlockMaxEndpoints T S] [CommRing S] [LinearOrder S] in
theorem Reconfigured.trans {last : SearchContext T S} (h : Reconfigured context next)
    (h' : Reconfigured next last) : Reconfigured context last :=
  ⟨h'.top_eq.trans h.top_eq, fun hle => h'.batchSize_le (h.batchSize_le hle),
    h'.postings_eq.trans h.postings_eq, h'.minRecordId_eq.trans h.minRecordId_eq,
    h'.maxRecordId_eq.trans h.maxRecordId_eq, h'.topResults_eq.trans h.topResults_eq,
    fun huse => h.usePruning_of (h'.usePruning_of huse),
    fun huse => h.useBlockPruning_of (h'.useBlockPruning_of huse)⟩

omit [PostingListIter T S] in
/-- One setter. -/
theorem reconfigured_set {setting : Setting} (h : context.set setting = some next) :
    Reconfigured context next := by
  cases setting with
  | blockPruning enabled =>
    cases h
    exact ⟨rfl, id, rfl, rfl, rfl, rfl, id, fun huse => (Bool.and_eq_true_iff.mp huse).1⟩
  | postingPruning enabled =>
    cases h
    exact ⟨rfl, id, rfl, rfl, rfl, rfl, fun huse => (Bool.and_eq_true_iff.mp huse).1, id⟩
  | blockPruneFailureLimit limit =>
    simp only [SearchContext.set, setBlockPruneFailureLimit] at h
    split at h <;> cases h
    exact ⟨rfl, id, rfl, rfl, rfl, rfl, id, id⟩
  | blockMaxEndpointTrendRouter =>
    cases h
    unfold applyBlockMaxEndpointTrendRouter
    constructor <;> grind
  | batchSize batchSize =>
    simp only [SearchContext.set, setBatchSize] at h
    split at h <;> cases h
    rename_i hbounds
    exact ⟨rfl, fun _ => hbounds.2, rfl, rfl, rfl, rfl, id, id⟩

/-- All setters in turn. -/
def configure (settings : List Setting) (context : SearchContext T S) :
    Option (SearchContext T S) :=
  settings.foldlM set context

omit [PostingListIter T S] in
theorem reconfigured_configure {settings : List Setting}
    (h : configure settings context = some next) : Reconfigured context next := by
  unfold configure at h
  induction settings generalizing context with
  | nil =>
    cases h
    exact ⟨rfl, id, rfl, rfl, rfl, rfl, id, id⟩
  | cons setting settings ih =>
    rw [foldlM_cons, Option.bind_eq_bind, Option.bind_eq_some_iff] at h
    obtain ⟨middle, hset, hrest⟩ := h
    exact (reconfigured_set hset).trans (ih hrest)

omit [BlockMaxEndpoints T S] in
/-- The setters do not move a search. -/
theorem Positioned.reconfigured {Reads : CursorReads T S} {terms : Terms S} {frontier : ℕ}
    (h : Positioned Reads terms frontier context) (hnext : Reconfigured context next) :
    Positioned Reads terms frontier next := by
  obtain ⟨current, hlists⟩ := h.lists
  refine ⟨⟨current, ?_⟩, ?_, ⟨fun id hid => ?_, fun huse => ?_, fun huse => ?_⟩⟩
  · rw [hnext.postings_eq]
    exact hlists
  · rw [hnext.minRecordId_eq]
    exact h.least
  · rw [hnext.maxRecordId_eq]
    exact h.permitted.maxRecordId_ge id hid
  · exact h.permitted.pruning (hnext.usePruning_of huse)
  · exact h.permitted.blockPruning (hnext.useBlockPruning_of huse)

end Settings

section Search

variable [PostingListIter T S] [CommRing S] [LinearOrder S] [IsStrictOrderedRing S]
  [UnstableSort S] {Reads : CursorReads T S}
  {terms : Terms S} {context : SearchContext T S}

/-- The result of a search: passing documents with their scores, none twice, and the largest
positive scores among them. -/
structure FindsLargest (documents : List ℕ) (filterCondition : ℕ → Bool) (score : ℕ → S)
    (top : ℕ) (result : List (ScoredPointOffset S)) : Prop where
  scored : ∀ point ∈ result, point.idx ∈ documents ∧ filterCondition point.idx = true ∧
    point.score = score point.idx
  nodup : (result.map ScoredPointOffset.idx).Nodup
  largest : (result.filter fun point => 0 < point.score).map ScoredPointOffset.score =
    (descending ((documents.filter fun id => filterCondition id && decide (0 < score id)).map
      score)).take top

variable {documents : List ℕ}

omit [IsStrictOrderedRing S] in
/-- Results that account for all records are what the search has to find. -/
theorem Counted.findsLargest {filterCondition : ℕ → Bool} {frontier : ℕ} {topK : TopK S}
    (h : Counted filterCondition terms frontier topK)
    (hend : ∀ id, HasRecord terms id → id < frontier) (hnodup : documents.Nodup)
    (hdocuments : ∀ id, HasRecord terms id → id ∈ documents) :
    FindsLargest documents filterCondition (scoreOver terms) topK.k topK.intoVec := by
  have hperm := UnstableSort.sort_perm topK.elements
  have hmem : ∀ point ∈ topK.intoVec, point ∈ topK.elements :=
    fun point hpoint => hperm.mem_iff.mp (mem_of_mem_take hpoint)
  refine ⟨fun point hpoint => ?_, ?_, ?_⟩
  · obtain ⟨-, hrecord, hpass, hscore⟩ := h.scored point (hmem point hpoint)
    exact ⟨hdocuments _ hrecord, hpass, hscore⟩
  · have hsorted := (hperm.map _).nodup_iff.mpr h.nodup
    exact hsorted.sublist ((take_sublist _ _).map _)
  let winners := (documents.filter fun id =>
    filterCondition id && decide (0 < scoreOver terms id)).map fun id =>
      (⟨id, scoreOver terms id⟩ : ScoredPointOffset S)
  have hwinner : ∀ point, point ∈ winners ↔ point.idx ∈ documents ∧
      filterCondition point.idx = true ∧ 0 < point.score ∧
      point.score = scoreOver terms point.idx := by
    rintro ⟨id, score⟩
    grind
  have hscores : winners.map ScoredPointOffset.score = (documents.filter fun id =>
      filterCondition id && decide (0 < scoreOver terms id)).map (scoreOver terms) := by
    rw [map_map]
    rfl
  rw [← hscores]
  refine h.sound.intoVec_largest ?_ ?_ ?_ h.nodup.of_map ?_
  · refine (hnodup.filter _).map fun a b hab => ?_
    exact congrArg ScoredPointOffset.idx hab
  · exact fun point hpoint => ((hwinner point).mp hpoint).2.2.1
  · intro point hpoint
    obtain ⟨-, hpass, hpositive, hscore⟩ := (hwinner point).mp hpoint
    obtain ⟨id, score⟩ := point
    dsimp only at hpass hpositive hscore
    subst hscore
    exact h.accounts id (hend id (exists_of_scoreOver_ne_zero hpositive.ne')) hpass hpositive
  · intro point hpoint hpositive
    obtain ⟨-, hrecord, hpass, hscore⟩ := h.scored point hpoint
    exact (hwinner point).mpr ⟨hdocuments _ hrecord, hpass, hpositive, hscore⟩

omit [IsStrictOrderedRing S] [UnstableSort S] in
/-- What is left of the posting lists of a search is increasing. -/
theorem Positioned.increasing (hcursor : IsCursor Reads) (h : Positioned Reads terms 0 context)
    (frontier : ℕ) : ∀ term ∈ unfinished (remainingFrom frontier terms), Increasing term.1 := by
  intro left hleft
  rw [← unfinished_remainingFrom_unfinished] at hleft
  obtain ⟨term, hterm, rfl⟩ := mem_map.mp (mem_filter.mp hleft).1
  obtain ⟨current, hlists⟩ := h.lists
  have hperm := hlists.perm
  rw [remainingFrom_zero] at hperm
  have hmem := (mem_filter.mp (hperm.mem_iff.mpr hterm)).1
  obtain ⟨posting, -, hstands⟩ := (forall₂_exists hlists.stands).2 term hmem
  exact Pairwise.filter _ (hstands.increasing hcursor)

omit [IsStrictOrderedRing S] [UnstableSort S] in
/-- The record ids of a search fit their type. -/
theorem Positioned.fits (hcursor : IsSearchCursor Reads) (h : Positioned Reads terms 0 context)
    (id : ℕ) (hid : HasRecord terms id) : id ≤ pointOffsetMax := by
  obtain ⟨current, hlists⟩ := h.lists
  obtain ⟨term, hterm, e, he, rfl⟩ := hlists.hasRecord_iff.mpr
    (hasRecord_remainingFrom.mpr ⟨hid, Nat.zero_le id⟩)
  obtain ⟨posting, -, ⟨past, hreads⟩, -⟩ := (forall₂_exists hlists.stands).2 term hterm
  exact hcursor.fits hreads e he

omit [IsStrictOrderedRing S] [UnstableSort S] in
/-- A search that leaves fewer records has fewer posting elements before it. -/
theorem Positioned.sum_lenToEnd_lt (hcursor : IsCursor Reads) {frontier later : ℕ}
    {next : SearchContext T S} (h : Positioned Reads terms frontier context)
    (hnext : Positioned Reads terms later next)
    (hlt : elementCount (remainingFrom later terms) < elementCount (remainingFrom frontier terms)) :
    (next.postingsIterators.map fun posting =>
        PostingListIter.lenToEnd posting.postingListIterator).sum <
      (context.postingsIterators.map fun posting =>
        PostingListIter.lenToEnd posting.postingListIterator).sum := by
  obtain ⟨current, hlists⟩ := h.lists
  obtain ⟨current', hlists'⟩ := hnext.lists
  rw [hlists.sum_lenToEnd hcursor, hlists'.sum_lenToEnd hcursor]
  exact hlt

omit [PostingListIter T S] [IsStrictOrderedRing S] [UnstableSort S] [CommRing S]
  [LinearOrder S] in
/-- Turns keep what the length of a batch depends on. -/
theorem Overflows.of_same {next : SearchContext T S} (hsame : SameSettings context next)
    (h : Overflows terms next) : Overflows terms context := by
  rwa [Overflows, hsame.batchSize_eq, hsame.maxRecordId_eq] at h

/-- The ids of the posting lists are as many as there are offsets, and a batch has them all. -/
def Oversized (terms : List (List (PostingElement S) × S)) (batchSize : ℕ) : Prop :=
  batchSize = pointOffsetMax ∧ HasRecord terms 0 ∧ HasRecord terms pointOffsetMax

/-- A positioned search returns and finds the largest positive scores. -/
theorem Positioned.search (hcursor : IsSearchCursor Reads) (filterCondition : ℕ → Bool)
    (h : Positioned Reads terms 0 context) (hfit : ¬Overflows terms context)
    (hne : context.postingsIterators ≠ []) {top : ℕ}
    (htop : 0 < top) (hnew : context.topResults = TopK.new top) (hnodup : documents.Nodup)
    (hdocuments : ∀ id, HasRecord terms id → id ∈ documents) :
    ∃ result, Returns (context.search filterCondition) result ∧ result.length ≤ top ∧
      FindsLargest documents filterCondition (scoreOver terms) top result := by
  have hincreasing := h.increasing hcursor.toIsCursor
  let inv : SearchContext T S × WithBot S → Prop := fun state =>
    ¬Overflows terms state.1 ∧ ∃ frontier, Positioned Reads terms frontier state.1 ∧
      Counted filterCondition terms frontier state.1.topResults ∧ state.1.topResults.k = top
  let post : SearchContext T S → Prop := fun context =>
    ∃ frontier, (∀ id, HasRecord terms id → id < frontier) ∧
      Counted filterCondition terms frontier context.topResults ∧ context.topResults.k = top
  let size : SearchContext T S × WithBot S → ℕ := fun state =>
    (state.1.postingsIterators.map fun posting =>
      PostingListIter.lenToEnd posting.postingListIterator).sum
  have hk : ∀ (topK : TopK S) (points : List (ScoredPointOffset S)), topK.Sound → topK.k = top →
      (points.foldl TopK.push topK).k = top :=
    fun topK points hsound htop => (hsound.takes_foldl points).k_eq.trans htop
  have hturn : ∀ state, inv state →
      (∃ result, SearchContext.searchTurn filterCondition state = some (.stop result) ∧
        post result) ∨
      ∃ next, SearchContext.searchTurn filterCondition state = some (.again next) ∧ inv next ∧
        size next < size state := by
    rintro ⟨context, best⟩ ⟨hfit, frontier, hpositioned, hcounted, htopk⟩
    dsimp only at hfit hpositioned hcounted htopk
    obtain ⟨turn, hturn, hturned⟩ := hpositioned.searchTurn filterCondition hcursor hfit best
    cases hturned with
    | exhausted hend => exact Or.inl ⟨_, hturn, frontier, hend, hcounted, htopk⟩
    | @skipped start last next best' hrecord hle hbelow hnext hsame htop =>
      have hge := (hasRecord_remainingFrom.mp hrecord).2
      refine Or.inr ⟨(next, best'), hturn, ⟨mt (·.of_same hsame) hfit, last + 1, hnext, ?_, ?_⟩, ?_⟩
      · rw [htop]
        exact hcounted.skip (by omega) hbelow
      · rw [htop]
        exact htopk
      · exact hpositioned.sum_lenToEnd_lt hcursor.toIsCursor hnext
          (elementCount_remainingFrom_lt hrecord (by omega) (by omega))
    | finished hleast hle _ hend htop =>
      refine Or.inl ⟨_, hturn, _, hend, ?_, ?_⟩
      · rw [htop]
        exact hcounted.batch hleast hle
      · rw [htop]
        exact hk _ _ hcounted.sound htopk
    | @lastList start last next term hleast hle _ hlist htop =>
      have hbatch := hcounted.batch hleast hle
      have hmax := hpositioned.permitted.maxRecordId_ge
      have hinc : Increasing term.1 :=
        hincreasing (last + 1) term (hlist ▸ mem_singleton_self term)
      refine Or.inl ⟨_, hturn, max (last + 1) (context.maxRecordId + 1), fun id hid => ?_, ?_, ?_⟩
      · have := hmax id hid
        omega
      · rw [htop]
        refine hbatch.lastList hlist hinc (le_max_left _ _) fun id hid => ?_
        have := hmax id hid
        omega
      · rw [htop]
        exact hk _ _ hbatch.sound (hk _ _ hcounted.sound htopk)
    | @advanced start last later next best' hleast hle _ _ _ hlater hbelow hnext hsame htop =>
      have hge := (hasRecord_remainingFrom.mp hleast.1).2
      have hbatch := hcounted.batch hleast hle
      rw [← htop] at hbatch
      refine Or.inr ⟨(next, best'), hturn, ⟨mt (·.of_same hsame) hfit, later, hnext,
        hbatch.skip hlater hbelow, ?_⟩, ?_⟩
      · rw [htop]
        exact hk _ _ hcounted.sound htopk
      · exact hpositioned.sum_lenToEnd_lt hcursor.toIsCursor hnext
          (elementCount_remainingFrom_lt hleast.1 (by omega) (by omega))
  have hstart : inv (context, ⊥) := by
    refine ⟨hfit, 0, h, ?_, ?_⟩
    · rw [hnew]
      exact counted_new htop
    · rw [hnew]
      rfl
  obtain ⟨result, ⟨frontier, hend, hcounted, hresult⟩, hrun⟩ := exists_runLoop size hturn hstart
  have hfinds := hcounted.findsLargest hend hnodup hdocuments
  have hlength : result.topResults.intoVec.length ≤ result.topResults.k := length_take_le _ _
  rw [hresult] at hfinds hlength
  refine ⟨result.topResults.intoVec, ⟨size (context, ⊥), fun fuel hfuel => ?_⟩, hlength, hfinds⟩
  unfold SearchContext.search
  rw [if_neg (by simpa using hne), hrun fuel hfuel]
  rfl

variable [BlockMaxEndpoints T S] [InvertedIndex I T] {index : I}
  {lists : ℕ → Elements S}

omit [IsStrictOrderedRing S] [UnstableSort S] in
/-- The length of a batch of a configured search overflows if it has all offsets. -/
theorem overflows_iff (hcursor : IsSearchCursor Reads)
    (hopens : ∀ id it, InvertedIndex.get index id = .ok it → Reads it [] (lists id))
    {query : RemappedSparseVector S} {top : ℕ} {settings : List Setting}
    {configured : SearchContext T S} (hnew : new index query top = some (.ok context))
    (hconfigured : configure settings context = some configured) :
    Overflows (queryPostings lists query) configured ↔
      Oversized (queryPostings lists query) configured.batchSize := by
  obtain ⟨-, -, hbatch, -, hpositioned⟩ := positioned_new hcursor hopens hnew
  have hreconfigured := reconfigured_configure hconfigured
  have hle := hreconfigured.batchSize_le (by rw [hbatch]; decide)
  have hmax : HasRecord (queryPostings lists query) 0 →
      HasRecord (queryPostings lists query) configured.maxRecordId ∧
        configured.maxRecordId ≤ pointOffsetMax ∧
        ∀ id, HasRecord (queryPostings lists query) id → id ≤ configured.maxRecordId := by
    rintro ⟨term, hterm, -⟩
    obtain ⟨hgreatest, hstart⟩ := hpositioned (ne_nil_of_mem hterm)
    rw [hreconfigured.maxRecordId_eq]
    exact ⟨hgreatest, hstart.fits hcursor _ hgreatest, hstart.permitted.maxRecordId_ge⟩
  constructor
  · rintro ⟨hzero, hsize, hge⟩
    obtain ⟨hgreatest, hfits, -⟩ := hmax hzero
    exact ⟨le_antisymm hle hsize, hzero, le_antisymm hfits hge ▸ hgreatest⟩
  · rintro ⟨hsize, hzero, hlast⟩
    exact ⟨hzero, hsize.ge, (hmax hzero).2.2 _ hlast⟩

omit [IsStrictOrderedRing S] in
/-- A search whose first batch overflows has no result. -/
theorem search_eq_none (hcursor : IsSearchCursor Reads)
    (hopens : ∀ id it, InvertedIndex.get index id = .ok it → Reads it [] (lists id))
    {query : RemappedSparseVector S} {top : ℕ} (htop : 0 < top) (filterCondition : ℕ → Bool)
    {settings : List Setting} {configured : SearchContext T S}
    (hnew : new index query top = some (.ok context))
    (hconfigured : configure settings context = some configured)
    (hover : Oversized (queryPostings lists query) configured.batchSize) (fuel : ℕ) :
    configured.search filterCondition fuel = none := by
  obtain ⟨hresults, htopeq, -, hnil, hpositioned⟩ := positioned_new hcursor hopens hnew
  have hreconfigured := reconfigured_configure hconfigured
  obtain ⟨hzero, hsize, hmax⟩ := (overflows_iff hcursor hopens hnew hconfigured).mpr hover
  obtain ⟨term, hterm, -⟩ := hover.2.1
  have hne : queryPostings lists query ≠ [] := ne_nil_of_mem hterm
  have hstart := (hpositioned hne).2.reconfigured hreconfigured
  have hpostings : ¬configured.postingsIterators.isEmpty = true := by
    rw [List.isEmpty_iff, hreconfigured.postings_eq]
    exact fun hpostings => hne (hnil.mp hpostings)
  -- the first batch starts with offset zero and is not skipped
  have hmin : configured.minRecordId = some 0 := by
    have hleast := hstart.least
    rw [remainingFrom_zero] at hleast
    cases hcase : configured.minRecordId with
    | none =>
      rw [hcase] at hleast
      exact absurd hzero (hleast 0)
    | some start =>
      rw [hcase] at hleast
      rw [Nat.le_zero.mp (hleast.2 0 hzero)]
  have hroom : configured.topResults.len < configured.top := by
    rw [hreconfigured.topResults_eq, hresults, hreconfigured.top_eq, htopeq]
    exact htop
  have hprune : configured.pruneBatchIfSafe pointOffsetMax = (false, configured) :=
    if_pos (by simp [hroom])
  have hturn : searchTurn filterCondition (configured, ⊥) = none := by
    unfold searchTurn
    dsimp only
    rw [hmin]
    dsimp only
    rw [Nat.zero_add, min_eq_right hsize, min_eq_left hmax, hprune]
    rfl
  unfold search
  rw [if_neg hpostings]
  cases fuel with
  | zero => rfl
  | succ fuel =>
    rw [runLoop, hturn]
    rfl

/-- A configured search finds the largest dot products. -/
theorem search_findsLargest (hcursor : IsSearchCursor Reads)
    (hopens : ∀ id it, InvertedIndex.get index id = .ok it → Reads it [] (lists id))
    {query : RemappedSparseVector S} {top : ℕ} (htop : 0 < top) (filterCondition : ℕ → Bool)
    (hnodup : documents.Nodup)
    (hdocuments : ∀ dim ∈ query.indices, ∀ e ∈ lists dim, e.recordId ∈ documents)
    {settings : List Setting} {configured : SearchContext T S}
    (hnew : new index query top = some (.ok context))
    (hconfigured : configure settings context = some configured)
    (hfit : ¬Oversized (queryPostings lists query) configured.batchSize) :
    ∃ result, Returns (configured.search filterCondition) result ∧ result.length ≤ top ∧
      FindsLargest documents filterCondition (dotProduct lists query) top result := by
  obtain ⟨hresults, -, hbatch, hnil, hpositioned⟩ := positioned_new hcursor hopens hnew
  have hreconfigured := reconfigured_configure hconfigured
  have hscore : scoreOver (queryPostings lists query) = dotProduct lists query :=
    funext (scoreOver_queryPostings lists query)
  rw [← hscore]
  by_cases hempty : queryPostings lists query = []
  · -- No posting list has an element, so no document has a score.
    refine ⟨[], ⟨0, fun fuel _ => ?_⟩, Nat.zero_le _, by simp, by simp, ?_⟩
    · unfold search
      rw [hreconfigured.postings_eq, hnil.mpr hempty]
      rfl
    have hzero : ∀ id, scoreOver (queryPostings lists query) id = 0 := by
      rw [hempty]
      exact fun id => rfl
    simp [hzero, descending, rankBy]
  · refine ((hpositioned hempty).2.reconfigured hreconfigured).search hcursor filterCondition
      (mt (overflows_iff hcursor hopens hnew hconfigured).mp hfit) ?_ htop
      (hreconfigured.topResults_eq.trans hresults) hnodup ?_
    · rw [hreconfigured.postings_eq]
      exact fun hpostings => hempty (hnil.mp hpostings)
    · rintro id ⟨term, hterm, e, he, rfl⟩
      obtain ⟨entry, hentry, rfl⟩ := mem_map.mp (mem_filter.mp hterm).1
      exact hdocuments _ (of_mem_zip hentry).1 e he

/-- A configured search finds the largest dot products if and only if its first batch is not one
of all offsets. -/
theorem search_findsLargest_iff (hcursor : IsSearchCursor Reads)
    (hopens : ∀ id it, InvertedIndex.get index id = .ok it → Reads it [] (lists id))
    {query : RemappedSparseVector S} {top : ℕ} (htop : 0 < top) (filterCondition : ℕ → Bool)
    (hnodup : documents.Nodup)
    (hdocuments : ∀ dim ∈ query.indices, ∀ e ∈ lists dim, e.recordId ∈ documents)
    {settings : List Setting} {configured : SearchContext T S}
    (hnew : new index query top = some (.ok context))
    (hconfigured : configure settings context = some configured) :
    (∃ result, Returns (configured.search filterCondition) result ∧
      FindsLargest documents filterCondition (dotProduct lists query) top result) ↔
      ¬Oversized (queryPostings lists query) configured.batchSize := by
  constructor
  · rintro ⟨result, ⟨enough, hrun⟩, -⟩ hover
    have hnone := search_eq_none hcursor hopens htop filterCondition hnew hconfigured hover
      (enough + 1)
    rw [hrun _ (Nat.lt_succ_self _)] at hnone
    cases hnone
  · intro hfit
    obtain ⟨result, hreturns, -, hfinds⟩ := search_findsLargest hcursor hopens htop
      filterCondition hnodup hdocuments hnew hconfigured hfit
    exact ⟨result, hreturns, hfinds⟩

end Search

section Index

variable {W S : Type} [Weight W S] [BitPacker] [LawfulBitPacker] [CommRing S] [LinearOrder S]
  {ramIndex : InvertedIndexRam S}

/-- The records of an index. -/
def InvertedIndexRam.documents (index : InvertedIndexRam S) : List ℕ :=
  (index.postings.flatMap fun list => list.elements.map fun e => e.recordId).dedup

omit [BitPacker] [LawfulBitPacker] [CommRing S] [LinearOrder S] in
theorem InvertedIndexRam.mem_documents {dim : ℕ} {e : PostingElement S}
    (he : e ∈ ramIndex.lists dim) : e.recordId ∈ ramIndex.documents := by
  unfold InvertedIndexRam.lists at he
  cases hget : ramIndex.postings[dim]? with
  | none =>
    rw [hget] at he
    cases he
  | some list =>
    rw [hget] at he
    obtain ⟨element, helement, rfl⟩ := mem_map.mp he
    refine mem_dedup.mpr (mem_flatMap.mpr ⟨list, mem_of_getElem? hget, ?_⟩)
    exact mem_map_of_mem helement

omit [BitPacker] [LawfulBitPacker] [CommRing S] in
/-- The iterators of a well-formed index read its lists. -/
theorem InvertedIndexRam.WellFormed.opens (h : ramIndex.WellFormed) (id : ℕ)
    (it : PostingListIterator S) (hget : InvertedIndex.get ramIndex id = .ok it) :
    it.ReadsNoted [] (ramIndex.lists id) := by
  simp only [InvertedIndex.get] at hget
  cases hlist : ramIndex.postings[id]? with
  | none =>
    rw [hlist] at hget
    cases hget
  | some list =>
    rw [hlist] at hget
    cases hget
    have hwf := h list (mem_of_getElem? hlist)
    have hlists : ramIndex.lists id = list.elements.map PostingElementEx.toPostingElement := by
      rw [InvertedIndexRam.lists, hlist]
      rfl
    rw [hlists]
    exact ⟨⟨hwf.increasing, rfl, rfl⟩, hwf⟩

omit [CommRing S] in
/-- The iterators of the compressed form read the decoded lists. -/
theorem InvertedIndexRam.WellFormed.opens_compressed (h : ramIndex.WellFormed) (id : ℕ)
    (it : CompressedPostingListIterator W)
    (hget : InvertedIndex.get (InvertedIndexCompressedImmutableRam.fromRamIndex W ramIndex) id =
      .ok it) : it.ReadsFit [] (decodedLists W ramIndex id) := by
  simp only [InvertedIndex.get, InvertedIndexCompressedImmutableRam.fromRamIndex,
    getElem?_map] at hget
  cases hlist : ramIndex.postings[id]? with
  | none =>
    rw [hlist] at hget
    cases hget
  | some list =>
    rw [hlist] at hget
    cases hget
    have hwf := h list (mem_of_getElem? hlist)
    have hlists : decodedLists W ramIndex id =
        decoded W (list.elements.map PostingElementEx.toPostingElement) := by
      rw [decodedLists, InvertedIndexRam.lists, hlist]
      rfl
    rw [hlists]
    refine ⟨⟨CompressedPostingList.holds_build hwf.increasing, rfl, ?_, ?_⟩, fun e he => ?_⟩
    · simp [CompressedPostingList.iter]
    · simp [CompressedPostingList.iter]
    · obtain ⟨element, helement, rfl⟩ := mem_map.mp he
      exact hwf.fits element helement

/-- A search of an index in memory, or of its compressed form, returns passing documents with
their dot products, none twice, and the largest positive scores among them, whatever the settings
of pruning are, exactly if its first batch is not one of all offsets. -/
theorem sparse_search_finds_largest_iff [IsStrictOrderedRing S] [UnstableSort S]
    (hreachable : ramIndex.Reachable) (query : RemappedSparseVector S) {top : ℕ} (htop : 1 ≤ top)
    (filterCondition : ℕ → Bool) (settings : List Setting) :
    (∀ context configured, new ramIndex query top = some (.ok context) →
      configure settings context = some configured →
      ((∃ result, Returns (configured.search filterCondition) result ∧
        FindsLargest ramIndex.documents filterCondition (dotProduct ramIndex.lists query) top
          result) ↔
        ¬Oversized (queryPostings ramIndex.lists query) configured.batchSize)) ∧
    ∀ context configured,
      new (InvertedIndexCompressedImmutableRam.fromRamIndex W ramIndex) query top =
        some (.ok context) → configure settings context = some configured →
      ((∃ result, Returns (configured.search filterCondition) result ∧
        FindsLargest ramIndex.documents filterCondition
          (dotProduct (decodedLists W ramIndex) query) top result) ↔
        ¬Oversized (queryPostings (decodedLists W ramIndex) query) configured.batchSize) := by
  have hwf := hreachable.wellFormed
  have hnodup : ramIndex.documents.Nodup := nodup_dedup _
  constructor
  · intro context configured hnew hconfigured
    exact search_findsLargest_iff PostingListIterator.isSearchCursor hwf.opens htop
      filterCondition hnodup (fun dim _ e he => InvertedIndexRam.mem_documents he) hnew hconfigured
  intro context configured hnew hconfigured
  have hdocuments : ∀ dim ∈ query.indices, ∀ e ∈ decodedLists W ramIndex dim,
      e.recordId ∈ ramIndex.documents := by
    intro dim _ e he
    obtain ⟨element, helement, rfl⟩ := mem_map.mp he
    have hdocument := InvertedIndexRam.mem_documents helement
    exact hdocument
  exact search_findsLargest_iff CompressedPostingListIterator.isSearchCursor hwf.opens_compressed
    htop filterCondition hnodup hdocuments hnew hconfigured

end Index

/-- Three records of descending weight in one dimension, and a later one in another. -/
def descendingRecords : InvertedIndexRam ℤ :=
  (((InvertedIndexRam.empty.upsert 0 ⟨[0], [3]⟩ none).upsert 1 ⟨[0], [2]⟩ none).upsert 2
    ⟨[0], [1]⟩ none).upsert 9 ⟨[1], [1]⟩ none

open FixedWidth in
/-- After the first batch of two records, the second batch of the compressed lists is skipped. -/
theorem sparse_search_finds_largest_iff_pruning :
    (∃ context configured result, new descendingRecords ⟨[0, 1], [1, 1]⟩ 1 = some (.ok context) ∧
      configure [.batchSize 1] context = some configured ∧
      Returns (configured.search fun _ => true) result ∧
      FindsLargest descendingRecords.documents (fun _ => true)
        (dotProduct descendingRecords.lists ⟨[0, 1], [1, 1]⟩) 1 result) ∧
    ∃ context configured next result,
      new (InvertedIndexCompressedImmutableRam.fromRamIndex ℤ descendingRecords)
        ⟨[0, 1], [1, 1]⟩ 1 = some (.ok context) ∧
      configure [.batchSize 1] context = some configured ∧
      searchTurn (fun _ => true) (configured, ⊥) = some (.again next) ∧
      (next.1.pruneBatchIfSafe 3).1 = true ∧
      Returns (configured.search fun _ => true) result ∧
      FindsLargest descendingRecords.documents (fun _ => true)
        (dotProduct (decodedLists ℤ descendingRecords) ⟨[0, 1], [1, 1]⟩) 1 result := by
  have hreachable : descendingRecords.Reachable :=
    .upsert _ none (.upsert _ none (.upsert _ none (.upsert _ none .empty (by decide)) (by decide))
      (by decide)) (by decide)
  have hfinds := sparse_search_finds_largest_iff (W := ℤ) hreachable ⟨[0, 1], [1, 1]⟩
    (show 1 ≤ 1 from le_rfl) (fun _ => true) [.batchSize 1]
  obtain ⟨result, hresult⟩ := (hfinds.1 _ _ rfl rfl).mpr fun hover => absurd hover.1 (by decide)
  obtain ⟨other, hother⟩ := (hfinds.2 _ _ rfl rfl).mpr fun hover => absurd hover.1 (by decide)
  exact ⟨⟨_, _, result, rfl, rfl, hresult⟩, _, _, _, other, rfl, rfl, rfl, rfl, hother⟩

/-- Records with the first and the last offset. -/
def allOffsets : InvertedIndexRam ℤ :=
  (InvertedIndexRam.empty.upsert 0 ⟨[0], [2]⟩ none).upsert pointOffsetMax ⟨[0], [1]⟩ none

/-- With the largest batch size there is one batch of all offsets, and no result. -/
theorem sparse_search_overflows :
    allOffsets.Reachable ∧ ∃ context configured, new allOffsets unitQuery 1 = some (.ok context) ∧
      configure [.batchSize pointOffsetMax] context = some configured ∧
      ∀ fuel, configured.search (fun _ => true) fuel = none := by
  have hreachable : allOffsets.Reachable :=
    .upsert _ none (.upsert _ none .empty (by decide)) (by decide)
  obtain ⟨context, hnew⟩ : ∃ context, new allOffsets unitQuery 1 = some (.ok context) := ⟨_, rfl⟩
  obtain ⟨configured, hconfigured, hsize⟩ : ∃ configured,
      configure [.batchSize pointOffsetMax] context = some configured ∧
        configured.batchSize = pointOffsetMax := ⟨_, rfl, rfl⟩
  refine ⟨hreachable, context, configured, hnew, hconfigured, fun fuel => ?_⟩
  refine search_eq_none PostingListIterator.isSearchCursor hreachable.wellFormed.opens
    Nat.one_pos (fun _ => true) hnew hconfigured ⟨hsize, ?_, ?_⟩ fuel
  all_goals
    unfold HasRecord
    decide

end Stratumind
