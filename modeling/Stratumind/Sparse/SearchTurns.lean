import Stratumind.Sparse.SearchSteps

/-!
# What a turn of the batched search does

Every turn moves the frontier. The records it passes are scored and pushed, or they are below
the threshold of the results.
-/

namespace Stratumind

open Lib SearchContext List

variable {T S : Type}

section Frontier

variable {Reads : CursorReads T S}
  {terms current : Terms S} {frontier next : ℕ}
  {postings moved : List (IndexedPostingListIterator T S)}

/-- The iterators stand at a frontier of the posting lists. Exhausted lists may be among
them. -/
structure AtFrontier (Reads : T → List (PostingElement S) → List (PostingElement S) → Prop)
    (terms : List (List (PostingElement S) × S)) (frontier : ℕ)
    (postings : List (IndexedPostingListIterator T S))
    (current : List (List (PostingElement S) × S)) : Prop where
  stands : Forall₂ (Stands Reads) postings current
  perm : (unfinished current).Perm (unfinished (remainingFrom frontier terms))
  weights : ∀ term ∈ current, ∃ whole ∈ terms, whole.2 = term.2

theorem unfinished_unfinished : unfinished (unfinished terms) = unfinished terms := by
  unfold unfinished
  rw [filter_filter]
  exact filter_congr fun term _ => Bool.and_self _

namespace AtFrontier

theorem hasRecord_iff (h : AtFrontier Reads terms frontier postings current) {id : ℕ} :
    HasRecord current id ↔ HasRecord (remainingFrom frontier terms) id := by
  rw [← hasRecord_unfinished, hasRecord_perm h.perm, hasRecord_unfinished]

theorem sum_lenToEnd [PostingListIter T S] (h : AtFrontier Reads terms frontier postings current)
    (hcursor : IsCursor Reads) :
    (postings.map fun posting => PostingListIter.lenToEnd posting.postingListIterator).sum =
      elementCount (remainingFrom frontier terms) := by
  have hcount : elementCount (unfinished current) =
      elementCount (unfinished (remainingFrom frontier terms)) := (h.perm.map _).sum_eq
  rw [elementCount_unfinished, elementCount_unfinished] at hcount
  rw [Stratumind.sum_lenToEnd hcursor h.stands, hcount]

/-- All iterators move to a later frontier. -/
theorem move (h : AtFrontier Reads terms frontier postings current) (hle : frontier ≤ next)
    (hmoved : Forall₂ (Stands Reads) moved (remainingFrom next current)) :
    AtFrontier Reads terms next moved (remainingFrom next current) := by
  refine ⟨hmoved, perm_remainingFrom h.perm hle, fun term hterm => ?_⟩
  obtain ⟨old, hold, rfl⟩ := mem_map.mp hterm
  exact h.weights old hold

/-- Exhausted lists are removed. -/
theorem retain [PostingListIter T S] (h : AtFrontier Reads terms frontier postings current)
    (hcursor : IsCursor Reads) :
    AtFrontier Reads terms frontier (postings.filter fun posting =>
      PostingListIter.lenToEnd posting.postingListIterator != 0) (unfinished current) := by
  refine ⟨forall₂_retain hcursor h.stands, ?_, fun term hterm => ?_⟩
  · rw [unfinished_unfinished]
    exact h.perm
  · exact h.weights term (mem_filter.mp hterm).1

/-- Iterators that stand where the others stood. -/
theorem replace (h : AtFrontier Reads terms frontier postings current)
    (hmoved : Forall₂ (Stands Reads) moved current) :
    AtFrontier Reads terms frontier moved current :=
  ⟨hmoved, h.perm, h.weights⟩

/-- The order of the iterators does not matter. -/
theorem reorder (h : AtFrontier Reads terms frontier postings current)
    (hperm : moved.Perm postings) :
    ∃ reordered, AtFrontier Reads terms frontier moved reordered := by
  obtain ⟨reordered, hstands, hreordered⟩ := perm_comp_forall₂ hperm h.stands
  refine ⟨reordered, hstands, (hreordered.filter _).trans h.perm, fun term hterm => ?_⟩
  exact h.weights term (hreordered.mem_iff.mp hterm)

end AtFrontier

/-- The least id depends on the records only. -/
theorem IsLeastId.congr {others : Terms S} {least : Option ℕ}
    (h : IsLeastId terms least) (hrecord : ∀ id, HasRecord terms id ↔ HasRecord others id) :
    IsLeastId others least := by
  cases least with
  | none => exact fun id hid => h id ((hrecord id).mpr hid)
  | some least =>
    exact ⟨(hrecord least).mp h.1, fun other hother => h.2 other ((hrecord other).mpr hother)⟩

/-- What the turns of a search leave as it is. -/
structure SameSettings (context next : SearchContext T S) : Prop where
  top_eq : next.top = context.top
  maxRecordId_eq : next.maxRecordId = context.maxRecordId
  batchSize_eq : next.batchSize = context.batchSize
  usePruning_eq : next.usePruning = context.usePruning
  useBlockPruning_of : next.useBlockPruning = true → context.useBlockPruning = true

theorem SameSettings.trans {context next last : SearchContext T S} (h : SameSettings context next)
    (h' : SameSettings next last) : SameSettings context last :=
  ⟨h'.top_eq.trans h.top_eq, h'.maxRecordId_eq.trans h.maxRecordId_eq,
    h'.batchSize_eq.trans h.batchSize_eq, h'.usePruning_eq.trans h.usePruning_eq,
    fun huse => h.useBlockPruning_of (h'.useBlockPruning_of huse)⟩

end Frontier

section Turns

variable [PostingListIter T S] [CommRing S] [LinearOrder S]
  {Reads : CursorReads T S}
  {terms current : Terms S} {frontier start last : ℕ}
  {context next : SearchContext T S}

/-- The bounds of a search hold, and it prunes only where that is safe. -/
structure Permitted (terms : List (List (PostingElement S) × S)) (context : SearchContext T S) :
    Prop where
  maxRecordId_ge : ∀ id, HasRecord terms id → id ≤ context.maxRecordId
  pruning : context.usePruning = true →
    PostingListIter.reliableMaxNextWeight T = true ∧ ∀ term ∈ terms, 0 ≤ term.2
  blockPruning : context.useBlockPruning = true →
    PostingListIter.reliableBlockMax T = true ∧ ∀ term ∈ terms, 0 ≤ term.2

theorem Permitted.of_same (h : Permitted terms context) (hsame : SameSettings context next) :
    Permitted terms next := by
  refine ⟨fun id hid => ?_, fun huse => ?_, fun huse => ?_⟩
  · rw [hsame.maxRecordId_eq]
    exact h.maxRecordId_ge id hid
  · rw [hsame.usePruning_eq] at huse
    exact h.pruning huse
  · exact h.blockPruning (hsame.useBlockPruning_of huse)

/-- A search stands at a frontier. -/
structure Positioned (Reads : T → List (PostingElement S) → List (PostingElement S) → Prop)
    (terms : List (List (PostingElement S) × S)) (frontier : ℕ) (context : SearchContext T S) :
    Prop where
  lists : ∃ current, AtFrontier Reads terms frontier context.postingsIterators current
  least : IsLeastId (remainingFrom frontier terms) context.minRecordId
  permitted : Permitted terms context

/-- The records between two frontiers do not reach above a threshold. -/
def Below (terms : List (List (PostingElement S) × S)) (threshold : WithBot S)
    (frontier next : ℕ) : Prop :=
  ∀ id, HasRecord terms id → frontier ≤ id → id < next →
    ((scoreOver terms id : S) : WithBot S) ≤ threshold

/-- Noting the least record id to come. -/
theorem AtFrontier.updateMinRecordId (hcursor : IsCursor Reads)
    (h : AtFrontier Reads terms frontier context.postingsIterators current)
    (hpermitted : Permitted terms context) :
    Positioned Reads terms frontier context.updateMinRecordId ∧
      SameSettings context context.updateMinRecordId ∧
      context.updateMinRecordId.topResults = context.topResults ∧
      AtFrontier Reads terms frontier context.updateMinRecordId.postingsIterators current := by
  obtain ⟨hstands, hleast⟩ := nextMinId_spec hcursor h.stands
  have hlists := h.replace hstands
  have hsame : SameSettings context context.updateMinRecordId :=
    ⟨rfl, rfl, rfl, rfl, id⟩
  refine ⟨⟨⟨current, hlists⟩, ?_, hpermitted.of_same hsame⟩, hsame, rfl, hlists⟩
  exact hleast.congr fun id => h.hasRecord_iff

variable [IsStrictOrderedRing S]

/-- A batch is kept as it is, or skipped because it does not reach the threshold. -/
theorem Positioned.pruneBatchIfSafe (hcursor : IsSearchCursor Reads)
    (h : Positioned Reads terms frontier context) (hle : frontier ≤ last + 1) :
    (∃ kept, context.pruneBatchIfSafe last = (false, kept) ∧ SameSettings context kept ∧
      kept.topResults = context.topResults ∧ kept.minRecordId = context.minRecordId ∧
      kept.postingsIterators = context.postingsIterators) ∨
    ∃ skipped, context.pruneBatchIfSafe last = (true, skipped) ∧ SameSettings context skipped ∧
      skipped.topResults = context.topResults ∧
      Below terms context.topResults.threshold frontier (last + 1) ∧
      ∃ current, AtFrontier Reads terms (last + 1) skipped.postingsIterators current := by
  unfold SearchContext.pruneBatchIfSafe
  have hkept : SameSettings context context := ⟨rfl, rfl, rfl, rfl, id⟩
  by_cases hoff : (!context.useBlockPruning || decide (context.topResults.len < context.top)) = true
  · rw [if_pos hoff]
    exact Or.inl ⟨context, rfl, hkept, rfl, rfl, rfl⟩
  rw [if_neg hoff]
  by_cases hreach : context.topResults.threshold ≤
      ((batchUpperBound last context.postingsIterators : S) : WithBot S)
  · rw [if_pos hreach]
    left
    by_cases hsucceeded : (!context.blockPruneHasSucceeded) = true
    · rw [if_pos hsucceeded]
      dsimp only
      split
      · exact ⟨_, rfl, ⟨rfl, rfl, rfl, rfl, fun huse => absurd huse Bool.false_ne_true⟩, rfl, rfl,
          rfl⟩
      · exact ⟨_, rfl, ⟨rfl, rfl, rfl, rfl, id⟩, rfl, rfl, rfl⟩
    · rw [if_neg hsucceeded]
      exact ⟨context, rfl, hkept, rfl, rfl, rfl⟩
  rw [if_neg hreach]
  right
  have huse : context.useBlockPruning = true := by
    by_contra hno
    exact hoff (by simp [hno])
  obtain ⟨hreliable, hnonneg⟩ := h.permitted.blockPruning huse
  obtain ⟨current, hlists⟩ := h.lists
  refine ⟨_, rfl, ⟨rfl, rfl, rfl, rfl, id⟩, rfl, fun id hrecord hge hlt => ?_,
    remainingFrom (last + 1) current,
    hlists.move hle (forall₂_skipTillId hcursor.toIsCursor hlists.stands last)⟩
  have hweights : ∀ term ∈ current, 0 ≤ term.2 := by
    intro term hterm
    obtain ⟨whole, hwhole, heq⟩ := hlists.weights term hterm
    rw [← heq]
    exact hnonneg whole hwhole
  have hbound := scoreOver_le_batchUpperBound hcursor hreliable hlists.stands hweights
    (Nat.lt_succ_iff.mp hlt)
  rw [scoreOver_of_perm hlists.perm hge] at hbound
  exact (WithBot.coe_le_coe.mpr hbound).trans (not_le.mp hreach).le

/-- Pruning the longest list moves the frontier over records below the threshold. -/
theorem Positioned.pruneTurn (hcursor : IsSearchCursor Reads)
    (h : Positioned Reads terms frontier context) (bestMinScore : WithBot S) :
    ∃ later pruned best, context.pruneTurn bestMinScore = (pruned, best) ∧ frontier ≤ later ∧
      Positioned Reads terms later pruned ∧ SameSettings context pruned ∧
      pruned.topResults = context.topResults ∧
      Below terms context.topResults.threshold frontier later := by
  have hkept : SameSettings context context := ⟨rfl, rfl, rfl, rfl, id⟩
  have hnone : Below terms context.topResults.threshold frontier frontier :=
    fun id _ hge hlt => absurd hlt (not_lt.mpr hge)
  unfold SearchContext.pruneTurn
  by_cases hon : (context.usePruning && decide (context.top ≤ context.topResults.len)) = true
  · rw [if_pos hon]
    by_cases hsame : context.topResults.threshold = bestMinScore
    · rw [if_pos hsame]
      exact ⟨frontier, context, bestMinScore, rfl, le_rfl, h, hkept, rfl, hnone⟩
    rw [if_neg hsame]
    have huse : context.usePruning = true := (Bool.and_eq_true_iff.mp hon).1
    obtain ⟨hreliable, hnonneg⟩ := h.permitted.pruning huse
    obtain ⟨promoted, hpromote, hperm⟩ := promoteLongest_perm context
    obtain ⟨old, hold⟩ := h.lists
    obtain ⟨current, hlists⟩ := hold.reorder hperm
    have hweights : ∀ term ∈ current, 0 ≤ term.2 := by
      intro term hterm
      obtain ⟨whole, hwhole, heq⟩ := hlists.weights term hterm
      rw [← heq]
      exact hnonneg whole hwhole
    have hstands : Forall₂ (Stands Reads)
        { context with postingsIterators := promoted }.postingsIterators current := hlists.stands
    obtain ⟨pruned, postings, hprune, hcases⟩ := pruneLongestPostingList_cases hcursor hreliable
      hstands hweights context.topResults.threshold
    rw [hpromote, hprune]
    have hsettings : SameSettings context { context with postingsIterators := postings } :=
      ⟨rfl, rfl, rfl, rfl, id⟩
    rcases hcases with ⟨rfl, hstands⟩ | ⟨rfl, later, hstands, ⟨id, hrecord, hid⟩, hbelow⟩
    · refine ⟨frontier, _, _, rfl, le_rfl, ⟨⟨current, hlists.replace hstands⟩, h.least,
        h.permitted.of_same hsettings⟩, hsettings, rfl, hnone⟩
    have hge := (hasRecord_remainingFrom.mp (hlists.hasRecord_iff.mp hrecord)).2
    have hle : frontier ≤ later := by omega
    have hmoved : AtFrontier Reads terms later
        { context with postingsIterators := postings }.postingsIterators
        (remainingFrom later current) := hlists.move hle hstands
    obtain ⟨hpositioned, hupdated, htop, -⟩ := hmoved.updateMinRecordId hcursor.toIsCursor
      (h.permitted.of_same hsettings)
    refine ⟨later, _, _, rfl, hle, hpositioned, hsettings.trans hupdated, htop,
      fun id hrecord hge hlt => ?_⟩
    rw [← scoreOver_of_perm hlists.perm hge]
    refine (hbelow id (hlists.hasRecord_iff.mpr ?_) hlt).le
    exact hasRecord_remainingFrom.mpr ⟨hrecord, hge⟩
  · rw [if_neg hon]
    exact ⟨frontier, context, bestMinScore, rfl, le_rfl, h, hkept, rfl, hnone⟩

variable [UnstableSort S] (filterCondition : ℕ → Bool)

/-- The first batch of the search has more ids than an offset can count. -/
def Overflows (terms : List (List (PostingElement S) × S)) (context : SearchContext T S) : Prop :=
  HasRecord terms 0 ∧ pointOffsetMax ≤ context.batchSize ∧ pointOffsetMax ≤ context.maxRecordId

omit [IsStrictOrderedRing S] in
/-- A scored batch is pushed, and all lists stand after it. -/
theorem Positioned.advance (hcursor : IsSearchCursor Reads)
    (h : Positioned Reads terms frontier context) (hmin : context.minRecordId = some start)
    (hle : start ≤ last) (hlength : last - start < pointOffsetMax) :
    ∃ scored, context.advanceBatch start last filterCondition = some scored ∧
    let advanced := scored.retainUnfinished.updateMinRecordId
    Positioned Reads terms (last + 1) advanced ∧ SameSettings context advanced ∧
      advanced.topResults =
        (batchPoints filterCondition (scoreOver terms) start last).foldl TopK.push
          context.topResults ∧
      ∃ current, AtFrontier Reads terms (last + 1) advanced.postingsIterators
        (unfinished current) := by
  have hlen : (last - start + 1) % (pointOffsetMax + 1) = last - start + 1 :=
    Nat.mod_eq_of_lt (Nat.succ_lt_succ hlength)
  unfold SearchContext.advanceBatch
  rw [hlen, if_neg (Nat.succ_ne_zero _)]
  refine ⟨_, rfl, ?_⟩
  intro advanced
  obtain ⟨current, hlists⟩ := h.lists
  have hleast := h.least
  rw [hmin] at hleast
  have hstart : frontier ≤ start := (hasRecord_remainingFrom.mp hleast.1).2
  have hfirst : ∀ id, HasRecord current id → start ≤ id :=
    fun id hid => hleast.2 id (hlists.hasRecord_iff.mp hid)
  have hscores := advancePostings_scores hcursor.toIsCursor hlists.stands hfirst hle
  have hstands : Forall₂ (Stands Reads) (advancePostings start last
      context.postingsIterators (replicate (last - start + 1) 0)).2
      (remainingFrom (last + 1) current) :=
    (advancePostings_spec hcursor.toIsCursor hlists.stands hfirst _).2.2
  have hmoved := (hlists.move (by omega) hstands).retain hcursor.toIsCursor
  have hsettings : SameSettings context (SearchContext.retainUnfinished { context with
      postingsIterators := (advancePostings start last context.postingsIterators
        (replicate (last - start + 1) 0)).2
      topResults := pushScores start filterCondition (advancePostings start last
        context.postingsIterators (replicate (last - start + 1) 0)).1 context.topResults }) :=
    ⟨rfl, rfl, rfl, rfl, id⟩
  obtain ⟨hpositioned, hupdated, htop, hlists'⟩ := AtFrontier.updateMinRecordId
    hcursor.toIsCursor hmoved (h.permitted.of_same hsettings)
  refine ⟨hpositioned, hsettings.trans hupdated, ?_, _, hlists'⟩
  change pushScores start filterCondition (advancePostings start last context.postingsIterators
    (replicate (last - start + 1) 0)).1 context.topResults = _
  have hsame : ∀ id ∈ range' start (last - start + 1), scoreOver current id =
      scoreOver terms id := fun id hid =>
    scoreOver_of_perm hlists.perm (hstart.trans (mem_range'_1.mp hid).1)
  rw [hscores, map_congr_left hsame, pushScores_eq]

/-- The points of the last posting list that are pushed, zero scores among them. -/
def lastListPoints (filterCondition : ℕ → Bool) (term : List (PostingElement S) × S) :
    List (ScoredPointOffset S) :=
  (term.1.filter fun e => filterCondition e.recordId).map fun e =>
    ⟨e.recordId, e.weight * term.2⟩

omit [IsStrictOrderedRing S] in
/-- The last posting list is pushed to its end. -/
theorem processLastPostingList_topResults (hcursor : IsSearchCursor Reads)
    {posting : IndexedPostingListIterator T S} {term : Elements S × S}
    (hpostings : context.postingsIterators = [posting]) (h : Stands Reads posting term) :
    (context.processLastPostingList filterCondition).topResults =
      (lastListPoints filterCondition term).foldl TopK.push context.topResults := by
  obtain ⟨⟨past, hreads⟩, hweight⟩ := h
  have hvisit := hcursor.forEach_eq pointOffsetMax (fun topResults id weight =>
    if !filterCondition id then topResults
    else TopK.push topResults ⟨id, weight * posting.queryWeight⟩) context.topResults hreads
  have hall := filter_eq_self.mpr fun e he => decide_eq_true (hcursor.fits hreads e he)
  rw [hall] at hvisit
  unfold processLastPostingList
  rw [hpostings]
  refine hvisit.trans ?_
  unfold lastListPoints
  rw [foldl_map, foldl_filter, hweight]
  grind

/-- How a turn can end. The batch of a turn starts at the least record to come. -/
inductive Turned (Reads : T → List (PostingElement S) → List (PostingElement S) → Prop)
    (filterCondition : ℕ → Bool) (terms : List (List (PostingElement S) × S)) (frontier : ℕ)
    (context : SearchContext T S) :
    Turn (SearchContext T S × WithBot S) (SearchContext T S) → Prop
  /-- Nothing is left. -/
  | exhausted : (∀ id, HasRecord terms id → id < frontier) →
    Turned Reads filterCondition terms frontier context (.stop context)
  /-- The batch was skipped. -/
  | skipped {start last : ℕ} {next : SearchContext T S} {best : WithBot S} :
    HasRecord (remainingFrom frontier terms) start → start ≤ last →
    Below terms context.topResults.threshold frontier (last + 1) →
    Positioned Reads terms (last + 1) next → SameSettings context next →
    next.topResults = context.topResults →
    Turned Reads filterCondition terms frontier context (.again (next, best))
  /-- The batch was scored and nothing is left. -/
  | finished {start last : ℕ} {next : SearchContext T S} :
    IsLeastId (remainingFrom frontier terms) (some start) → start ≤ last →
    last = min (min (start + context.batchSize) pointOffsetMax) context.maxRecordId →
    (∀ id, HasRecord terms id → id < last + 1) →
    next.topResults = (batchPoints filterCondition (scoreOver terms) start last).foldl TopK.push
      context.topResults →
    Turned Reads filterCondition terms frontier context (.stop next)
  /-- The batch was scored, and then the one list that was left. -/
  | lastList {start last : ℕ} {next : SearchContext T S}
    {term : List (PostingElement S) × S} :
    IsLeastId (remainingFrom frontier terms) (some start) → start ≤ last →
    last = min (min (start + context.batchSize) pointOffsetMax) context.maxRecordId →
    unfinished (remainingFrom (last + 1) terms) = [term] →
    next.topResults = (lastListPoints filterCondition term).foldl TopK.push
      ((batchPoints filterCondition (scoreOver terms) start last).foldl TopK.push
        context.topResults) →
    Turned Reads filterCondition terms frontier context (.stop next)
  /-- The batch was scored, and then part of the longest list may have been skipped. -/
  | advanced {start last later : ℕ} {next : SearchContext T S} {best : WithBot S} :
    IsLeastId (remainingFrom frontier terms) (some start) → start ≤ last →
    last = min (min (start + context.batchSize) pointOffsetMax) context.maxRecordId →
    unfinished (remainingFrom (last + 1) terms) ≠ [] →
    (context.useBlockPruning = false → (unfinished (remainingFrom (last + 1) terms)).length ≠ 1) →
    last + 1 ≤ later → Below terms next.topResults.threshold (last + 1) later →
    Positioned Reads terms later next → SameSettings context next →
    next.topResults = (batchPoints filterCondition (scoreOver terms) start last).foldl TopK.push
      context.topResults →
    Turned Reads filterCondition terms frontier context (.again (next, best))

/-- Every turn ends in one of these ways, unless the length of its batch overflows. -/
theorem Positioned.searchTurn (hcursor : IsSearchCursor Reads)
    (h : Positioned Reads terms frontier context) (hfit : ¬Overflows terms context)
    (bestMinScore : WithBot S) :
    ∃ turn, searchTurn filterCondition (context, bestMinScore) = some turn ∧
      Turned Reads filterCondition terms frontier context turn := by
  unfold SearchContext.searchTurn
  dsimp only
  have hleast := h.least
  cases hmin : context.minRecordId with
  | none =>
    rw [hmin] at hleast
    refine ⟨_, rfl, Turned.exhausted fun id hid => ?_⟩
    by_contra hlt
    exact hleast id (hasRecord_remainingFrom.mpr ⟨hid, not_lt.mp hlt⟩)
  | some start =>
    rw [hmin] at hleast
    obtain ⟨current, hlists⟩ := h.lists
    obtain ⟨hrecord, hge⟩ := hasRecord_remainingFrom.mp hleast.1
    have hfits : start ≤ pointOffsetMax := by
      obtain ⟨term, hterm, e, he, rfl⟩ := hlists.hasRecord_iff.mpr hleast.1
      obtain ⟨posting, -, ⟨past, hreads⟩, -⟩ := (forall₂_exists hlists.stands).2 term hterm
      exact hcursor.fits hreads e he
    have hmax := h.permitted.maxRecordId_ge start hrecord
    dsimp only
    generalize hlast : min (min (start + context.batchSize) pointOffsetMax) context.maxRecordId =
      last
    have hle : start ≤ last := by
      rw [← hlast]
      exact le_min (le_min (Nat.le_add_right _ _) hfits) hmax
    have hlength : last - start < pointOffsetMax := by
      by_contra hge
      obtain rfl : start = 0 := by
        have := (by decide : 0 < pointOffsetMax)
        omega
      exact hfit ⟨hrecord, by omega, by omega⟩
    rcases h.pruneBatchIfSafe hcursor (show frontier ≤ last + 1 by omega) with
      ⟨kept, hprune, hsettings, htop, hminkept, hpostings⟩ |
      ⟨skipped, hprune, hsettings, htop, hbelow, moved, hmoved⟩
    · rw [hprune]
      have hkept : Positioned Reads terms frontier kept := by
        refine ⟨⟨current, ?_⟩, ?_, h.permitted.of_same hsettings⟩
        · rw [hpostings]
          exact hlists
        · rw [hminkept, hmin]
          exact hleast
      obtain ⟨scored, hscored, hpositioned, hsame, hpushed, left, hleft⟩ :=
        hkept.advance filterCondition hcursor (hminkept.trans hmin) hle hlength
      dsimp only
      rw [if_neg Bool.false_ne_true, hscored, Option.map_some]
      generalize scored.retainUnfinished.updateMinRecordId = advanced
        at hpositioned hsame hpushed hleft ⊢
      rw [htop] at hpushed
      have hsame := hsettings.trans hsame
      have hperm := hleft.perm
      rw [unfinished_unfinished] at hperm
      have hlength := hleft.stands.length_eq.trans hperm.length_eq
      by_cases hempty : advanced.postingsIterators.isEmpty = true
      · rw [if_pos hempty]
        refine ⟨_, rfl, Turned.finished hleast hle hlast.symm (fun id hid => ?_) hpushed⟩
        rw [isEmpty_iff_length_eq_zero.mp hempty, eq_comm, length_eq_zero_iff] at hlength
        by_contra hlt
        have hrest := hasRecord_unfinished.mpr (hasRecord_remainingFrom.mpr ⟨hid, not_lt.mp hlt⟩)
        obtain ⟨term, hterm, -⟩ := hrest
        rw [hlength] at hterm
        cases hterm
      rw [if_neg hempty]
      have hsome : unfinished (remainingFrom (last + 1) terms) ≠ [] := by
        grind
      by_cases hone : (decide (advanced.postingsIterators.length = 1) &&
          !advanced.useBlockPruning) = true
      · rw [if_pos hone]
        have hone := of_decide_eq_true (Bool.and_eq_true_iff.mp hone).1
        obtain ⟨posting, hposting⟩ := length_eq_one_iff.mp hone
        have hstands := hleft.stands
        rw [hposting] at hstands
        cases hcurrent : unfinished left with
        | nil =>
          rw [hcurrent] at hstands
          cases hstands
        | cons term rest =>
          rw [hcurrent] at hstands hperm
          cases hstands with
          | cons hstand hrest =>
          cases hrest
          refine ⟨_, rfl, Turned.lastList hleast hle hlast.symm
            (perm_singleton.mp hperm.symm) ?_⟩
          rw [processLastPostingList_topResults filterCondition hcursor hposting hstand, hpushed]
      · rw [if_neg hone]
        obtain ⟨later, pruned, best, hpruned, hlater, hnext, hsame', htop', hbelow⟩ :=
          hpositioned.pruneTurn hcursor bestMinScore
        rw [hpruned]
        rw [← htop'] at hbelow
        refine ⟨_, rfl, Turned.advanced hleast hle hlast.symm hsome (fun hoff hlist => ?_) hlater
          hbelow hnext (hsame.trans hsame') (htop'.trans hpushed)⟩
        have hoff' : advanced.useBlockPruning = false := by
          by_contra huse
          rw [hsame.useBlockPruning_of (Bool.eq_true_of_not_eq_false huse)] at hoff
          cases hoff
        exact hone (by simp [hlength, hlist, hoff'])
    · rw [hprune]
      have hretained := hmoved.retain hcursor.toIsCursor
      have hsame : SameSettings context skipped.retainUnfinished :=
        ⟨hsettings.top_eq, hsettings.maxRecordId_eq, hsettings.batchSize_eq,
          hsettings.usePruning_eq, hsettings.useBlockPruning_of⟩
      obtain ⟨hpositioned, hupdated, htop', -⟩ := hretained.updateMinRecordId hcursor.toIsCursor
        (h.permitted.of_same hsame)
      exact ⟨_, rfl, Turned.skipped hleast.1 hle hbelow hpositioned (hsame.trans hupdated)
        (htop'.trans htop)⟩

end Turns

end Stratumind
