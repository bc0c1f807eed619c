import Stratumind.Sparse.SearchExactness

/-!
# The last posting list

Once the batches of a search have passed all posting lists but one, and blocks are not pruned, what
is left of the last list is scored at once. A batch does not push a score of zero, but this fast
path pushes every score. While there is room for all scores, the ids alone decide what is left for
the fast path, and so which records without a score are found.
-/

namespace Stratumind

open Lib BlockMax SearchContext List

variable {T S : Type}

section LastList

variable {batchSize : ℕ} {terms : Terms S} {frontier next : ℕ}

/-- The least record id of the lists. -/
def leastRecordId (terms : List (List (PostingElement S) × S)) : Option ℕ :=
  (terms.flatMap fun term => term.1.map PostingElement.recordId).min?

/-- The posting list that is left when batches of ids have passed all others, with what is
left of it. A batch starts at the least record to come. -/
def leftForLastList (batchSize : ℕ) (terms : List (List (PostingElement S) × S)) :
    ℕ → ℕ → List (List (PostingElement S) × S)
  | 0, _ => []
  | turns + 1, frontier =>
    match leastRecordId (remainingFrom frontier terms) with
    | none => []
    | some start =>
      match unfinished (remainingFrom (start + batchSize + 1) terms) with
      | [term] => [term]
      | _ => leftForLastList batchSize terms turns (start + batchSize + 1)

/-- Every set of lists has a least record id, or none at all. -/
theorem isLeastId_leastRecordId : IsLeastId terms (leastRecordId terms) := by
  have hmem : ∀ id, id ∈ (terms.flatMap fun term => term.1.map PostingElement.recordId) ↔
      HasRecord terms id := by
    intro id
    unfold HasRecord
    simp only [mem_flatMap, mem_map]
  cases hleast : leastRecordId terms with
  | none =>
    unfold leastRecordId at hleast
    rw [min?_eq_none_iff] at hleast
    intro id hid
    have := (hmem id).mpr hid
    rw [hleast] at this
    cases this
  | some least =>
    unfold leastRecordId at hleast
    rw [min?_eq_some_iff] at hleast
    exact ⟨(hmem least).mp hleast.1, fun id hid => hleast.2 id ((hmem id).mpr hid)⟩

/-- The least record id is unique. -/
theorem leastRecordId_eq {least : Option ℕ} (h : IsLeastId terms least) :
    leastRecordId terms = least := by
  have hleast : IsLeastId terms (leastRecordId terms) := isLeastId_leastRecordId
  cases hcase : leastRecordId terms with
  | none =>
    rw [hcase] at hleast
    cases least with
    | none => rfl
    | some least => exact absurd h.1 (hleast least)
  | some id =>
    rw [hcase] at hleast
    cases least with
    | none => exact absurd hleast.1 (h id)
    | some least => exact congrArg some (le_antisymm (hleast.2 _ h.1) (h.2 _ hleast.1))

/-- Only the records to come matter. -/
theorem leftForLastList_congr (turns : ℕ)
    (h : ∀ id, HasRecord (remainingFrom frontier terms) id ↔
      HasRecord (remainingFrom next terms) id) :
    leftForLastList batchSize terms turns frontier =
      leftForLastList batchSize terms turns next := by
  cases turns with
  | zero => rfl
  | succ turns =>
    have hleast := leastRecordId_eq (isLeastId_leastRecordId.congr fun id => (h id).symm)
    rw [leftForLastList, leftForLastList, hleast]

/-- One batch: the list that is left after it, or what the next batches leave. -/
theorem leftForLastList_succ {start : ℕ} (turns : ℕ)
    (hleast : IsLeastId (remainingFrom frontier terms) (some start))
    (hsame : remainingFrom next terms = remainingFrom (start + batchSize + 1) terms) :
    leftForLastList batchSize terms (turns + 1) frontier =
      match unfinished (remainingFrom next terms) with
      | [term] => [term]
      | _ => leftForLastList batchSize terms turns next := by
  have hcongr : leftForLastList batchSize terms turns (start + batchSize + 1) =
      leftForLastList batchSize terms turns next :=
    leftForLastList_congr turns fun id => by rw [hsame]
  rw [leftForLastList, leastRecordId_eq hleast, ← hcongr, hsame]

/-- Where no record is left, no list is. -/
theorem leftForLastList_of_exhausted (turns : ℕ)
    (h : ∀ id, ¬HasRecord (remainingFrom frontier terms) id) :
    leftForLastList batchSize terms turns frontier = [] := by
  cases turns with
  | zero => rfl
  | succ turns =>
    have hleast : leastRecordId (remainingFrom frontier terms) = none :=
      leastRecordId_eq (show IsLeastId (remainingFrom frontier terms) none from h)
    rw [leftForLastList, hleast]

/-- A frontier behind all records leaves none. -/
private theorem not_hasRecord_remainingFrom (h : ∀ id, HasRecord terms id → id < frontier)
    (id : ℕ) : ¬HasRecord (remainingFrom frontier terms) id := by
  intro hid
  obtain ⟨hrecord, hge⟩ := hasRecord_remainingFrom.mp hid
  have hlt := h id hrecord
  omega

/-- Lists without records are exhausted. -/
private theorem unfinished_eq_nil {lists : Terms S}
    (h : ∀ id, ¬HasRecord lists id) : unfinished lists = [] := by
  rw [eq_nil_iff_forall_not_mem]
  intro term hterm
  obtain ⟨e, he⟩ := exists_mem_of_ne_nil term.1
    (by simpa using (mem_filter.mp hterm).2)
  exact h _ (hasRecord_unfinished.mp ⟨term, hterm, e, he, rfl⟩)

end LastList

/-! ### What is pushed -/

section Pushing

variable {found later : ℕ → Prop} {score : ℕ → S} {top : ℕ}
  {points more : List (ScoredPointOffset S)} {topK : TopK S} [LinearOrder S] [UnstableSort S]

/-- The points were pushed one after the other: one for each of the given records, with its
score. -/
structure Pushed (found : ℕ → Prop) (score : ℕ → S) (top : ℕ) (points : List (ScoredPointOffset S))
    (topK : TopK S) : Prop where
  topK_eq : topK = points.foldl TopK.push (TopK.new top)
  nodup : (points.map ScoredPointOffset.idx).Nodup
  mem_iff : ∀ point, point ∈ points ↔ found point.idx ∧ point.score = score point.idx

/-- Points of other records are pushed. -/
theorem Pushed.append (h : Pushed found score top points topK)
    (hnodup : (more.map ScoredPointOffset.idx).Nodup) (hnew : ∀ point ∈ more, ¬found point.idx)
    (hmem : ∀ point, later point.idx ∧ point.score = score point.idx ↔
      (found point.idx ∧ point.score = score point.idx) ∨ point ∈ more) :
    Pushed later score top (points ++ more) (more.foldl TopK.push topK) := by
  refine ⟨by rw [foldl_append, ← h.topK_eq], ?_, fun point => ?_⟩
  · rw [map_append]
    refine h.nodup.append hnodup fun id hold hid => ?_
    obtain ⟨held, hheld, rfl⟩ := mem_map.mp hold
    obtain ⟨pushed, hpushed, heq⟩ := mem_map.mp hid
    exact hnew pushed hpushed (heq ▸ ((h.mem_iff held).mp hheld).1)
  · rw [mem_append, h.mem_iff, hmem]

/-- The same records under another description. -/
theorem Pushed.congr (h : Pushed found score top points topK)
    (hiff : ∀ id, found id ↔ later id) : Pushed later score top points topK :=
  ⟨h.topK_eq, h.nodup, fun point => by rw [h.mem_iff, hiff]⟩

/-- There are no more points than records. -/
theorem Pushed.length_le (h : Pushed found score top points topK) {records : List ℕ}
    (hrecords : ∀ id, found id → id ∈ records) : points.length ≤ records.length := by
  rw [← length_map (f := ScoredPointOffset.idx)]
  refine (h.nodup.subperm fun id hid => ?_).length_le
  obtain ⟨point, hpoint, rfl⟩ := mem_map.mp hid
  exact hrecords _ ((h.mem_iff point).mp hpoint).1

/-- While there is room, all points are held and no threshold is set. -/
theorem Pushed.topK_of_room (h : Pushed found score top points topK) (htop : 0 < top)
    (hroom : points.length ≤ top) : topK = ⟨top, points, ⊥⟩ := by
  have hlength : ((TopK.new top : TopK S).elements ++ points).length <
      (TopK.new top : TopK S).k * 2 := by
    change points.length < top * 2
    omega
  rw [h.topK_eq, TopK.foldl_push_of_room rfl hlength]
  rfl

end Pushing

section Run

variable [CommRing S] {filterCondition : ℕ → Bool} {terms : Terms S} {top frontier start last : ℕ}
  {points : List (ScoredPointOffset S)} {topK : TopK S}

/-- A passing record before the frontier that has a score. -/
def ScoredBefore (filterCondition : ℕ → Bool) (terms : List (List (PostingElement S) × S))
    (frontier id : ℕ) : Prop :=
  id < frontier ∧ filterCondition id = true ∧ scoreOver terms id ≠ 0

/-- A passing record that has a score or is left for the fast path. -/
def FoundWith (filterCondition : ℕ → Bool) (terms left : List (List (PostingElement S) × S))
    (id : ℕ) : Prop :=
  filterCondition id = true ∧ (scoreOver terms id ≠ 0 ∨ HasRecord left id)

variable [LinearOrder S] [UnstableSort S]

/-- A scored batch. -/
theorem Pushed.batch
    (h : Pushed (ScoredBefore filterCondition terms frontier) (scoreOver terms) top points topK)
    (hleast : IsLeastId (remainingFrom frontier terms) (some start)) (hle : start ≤ last) :
    Pushed (ScoredBefore filterCondition terms (last + 1)) (scoreOver terms) top
      (points ++ batchPoints filterCondition (scoreOver terms) start last)
      ((batchPoints filterCondition (scoreOver terms) start last).foldl TopK.push topK) := by
  have hge := (hasRecord_remainingFrom.mp hleast.1).2
  obtain ⟨hmem, hnodup⟩ := batchPoints_spec hleast hle
  refine h.append hnodup (fun point hpoint hbefore => ?_) fun point => ?_
  · exact absurd hbefore.1 (not_lt.mpr ((hmem point).mp hpoint).1)
  rw [hmem]
  unfold ScoredBefore
  constructor
  · rintro ⟨⟨hlt, hpass, hne⟩, hscore⟩
    rcases Nat.lt_or_ge point.idx frontier with hbefore | hafter
    · exact Or.inl ⟨⟨hbefore, hpass, hne⟩, hscore⟩
    · exact Or.inr ⟨hafter, hlt, hpass, hscore, hne⟩
  · rintro (⟨⟨hlt, hpass, hne⟩, hscore⟩ | ⟨-, hlt, hpass, hscore, hne⟩)
    · exact ⟨⟨by omega, hpass, hne⟩, hscore⟩
    · exact ⟨⟨hlt, hpass, hne⟩, hscore⟩

/-- The last list, with all its records. -/
theorem Pushed.lastList
    (h : Pushed (ScoredBefore filterCondition terms frontier) (scoreOver terms) top points topK)
    {term : Elements S × S} (hlast : unfinished (remainingFrom frontier terms) = [term])
    (hinc : Increasing term.1) :
    Pushed (FoundWith filterCondition terms [term]) (scoreOver terms) top
      (points ++ lastListPoints filterCondition term)
      ((lastListPoints filterCondition term).foldl TopK.push topK) := by
  obtain ⟨hmem, hnodup⟩ := lastListPoints_spec hlast hinc
  have hleft : ∀ id, HasRecord [term] id ↔ HasRecord terms id ∧ frontier ≤ id := by
    intro id
    rw [← hlast, hasRecord_unfinished, hasRecord_remainingFrom]
  refine h.append hnodup (fun point hpoint hbefore => ?_) fun point => ?_
  · exact absurd hbefore.1 (not_lt.mpr ((hmem point).mp hpoint).1)
  rw [hmem, FoundWith, hleft]
  unfold ScoredBefore
  constructor
  · rintro ⟨⟨hpass, hcase⟩, hscore⟩
    rcases Nat.lt_or_ge point.idx frontier with hbefore | hafter
    · exact Or.inl ⟨⟨hbefore, hpass, hcase.resolve_right fun hrecord => by omega⟩, hscore⟩
    · exact Or.inr ⟨hafter, hcase.elim exists_of_scoreOver_ne_zero And.left, hpass, hscore⟩
  · rintro (⟨⟨-, hpass, hne⟩, hscore⟩ | ⟨hafter, hrecord, hpass, hscore⟩)
    · exact ⟨⟨hpass, Or.inl hne⟩, hscore⟩
    · exact ⟨⟨hpass, Or.inr ⟨hrecord, hafter⟩⟩, hscore⟩

/-- When all records are passed, no list is left. -/
theorem Pushed.ended
    (h : Pushed (ScoredBefore filterCondition terms frontier) (scoreOver terms) top points topK)
    (hend : ∀ id, HasRecord terms id → id < frontier) :
    Pushed (FoundWith filterCondition terms []) (scoreOver terms) top points topK := by
  refine h.congr fun id => ⟨fun hid => ⟨hid.2.1, Or.inl hid.2.2⟩, ?_⟩
  rintro ⟨hpass, hne | ⟨term, hterm, -⟩⟩
  · exact ⟨hend id (exists_of_scoreOver_ne_zero hne), hpass, hne⟩
  · cases hterm

variable [PostingListIter T S] {Reads : CursorReads T S} {context : SearchContext T S}

/-- A search with room for all scores: all records before the frontier that have one were pushed,
and the turns to come leave the same list for the fast path as the whole search does. -/
structure Roomy (Reads : T → List (PostingElement S) → List (PostingElement S) → Prop)
    (filterCondition : ℕ → Bool) (terms : List (List (PostingElement S) × S))
    (top batchSize frontier turns : ℕ) (context : SearchContext T S) : Prop where
  positioned : Positioned Reads terms frontier context
  fits : ¬Overflows terms context
  pushed : ∃ points, Pushed (ScoredBefore filterCondition terms frontier) (scoreOver terms) top
    points context.topResults
  /-- No batch is skipped for its bound. -/
  blockPruning_eq : context.useBlockPruning = false
  batchSize_eq : context.batchSize = batchSize
  /-- There are turns for all records that are left. -/
  turns_le : elementCount (remainingFrom frontier terms) ≤ turns
  left_eq : leftForLastList batchSize terms turns frontier =
    leftForLastList batchSize terms (elementCount terms) 0

variable {batchSize turns : ℕ}

/-- A batch ends where the batch size says, up to ids that no list has. -/
theorem Roomy.remainingFrom_last
    (h : Roomy Reads filterCondition terms top batchSize frontier turns context)
    (hfits : ∀ id, HasRecord terms id → id ≤ pointOffsetMax)
    (hlast : last = min (min (start + context.batchSize) pointOffsetMax) context.maxRecordId) :
    remainingFrom (last + 1) terms = remainingFrom (start + batchSize + 1) terms := by
  rw [h.batchSize_eq] at hlast
  refine remainingFrom_congr fun id hid => ?_
  have hfit := hfits id hid
  have hmost := h.positioned.permitted.maxRecordId_ge id hid
  omega

/-- A record that is left has a turn for it. -/
theorem Roomy.exists_turn
    (h : Roomy Reads filterCondition terms top batchSize frontier turns context)
    (hleast : IsLeastId (remainingFrom frontier terms) (some start)) :
    ∃ rest, turns = rest + 1 := by
  have hge := (hasRecord_remainingFrom.mp hleast.1).2
  have hlt := elementCount_remainingFrom_lt hleast.1 (Nat.lt_succ_self start)
    (hge.trans (Nat.le_succ start))
  have hturns := h.turns_le
  exact Nat.exists_eq_add_one_of_ne_zero (by omega)

omit [UnstableSort S] in
/-- Without a threshold nothing is below it. -/
private theorem Below.not_between {next : ℕ} (h : Below terms ⊥ frontier next) (id : ℕ)
    (hid : HasRecord terms id) (hge : frontier ≤ id) : next ≤ id := by
  by_contra hlt
  have hbot := h id hid hge (not_le.mp hlt)
  rw [le_bot_iff] at hbot
  exact WithBot.coe_ne_bot hbot

variable [IsStrictOrderedRing S] {scoring : List ℕ}

/-- One turn of a search with room for all scores: it stops with all records found, or it goes on
with fewer records left. -/
theorem Roomy.turn {best : WithBot S} (hcursor : IsSearchCursor Reads)
    (h : Roomy Reads filterCondition terms top batchSize frontier turns context)
    (hincreasing : ∀ frontier, ∀ term ∈ unfinished (remainingFrom frontier terms),
      Increasing term.1)
    (hfits : ∀ id, HasRecord terms id → id ≤ pointOffsetMax) (htop : 0 < top)
    (hscoring : ∀ id, filterCondition id = true → scoreOver terms id ≠ 0 → id ∈ scoring)
    (hroom : scoring.length ≤ top) :
    (∃ result, searchTurn filterCondition (context, best) = some (.stop result) ∧
      ∃ points, Pushed (FoundWith filterCondition terms
        (leftForLastList batchSize terms (elementCount terms) 0)) (scoreOver terms) top points
        result.topResults) ∨
    ∃ next best' later rest,
      searchTurn filterCondition (context, best) = some (.again (next, best')) ∧
      Roomy Reads filterCondition terms top batchSize later rest next ∧
      elementCount (remainingFrom later terms) < elementCount (remainingFrom frontier terms) := by
  obtain ⟨turn, hturn, hturned⟩ := h.positioned.searchTurn filterCondition hcursor h.fits best
  obtain ⟨points, hpushed⟩ := h.pushed
  have hpoints : ∀ {frontier points} {topK : TopK S}, Pushed (ScoredBefore filterCondition terms
      frontier) (scoreOver terms) top points topK → points.length ≤ scoring.length :=
    fun hpushed => hpushed.length_le fun id hid => hscoring id hid.2.1 hid.2.2
  have hheld := hpushed.topK_of_room htop ((hpoints hpushed).trans hroom)
  cases hturned with
  | exhausted hend =>
    refine Or.inl ⟨_, hturn, points, ?_⟩
    rw [← h.left_eq, leftForLastList_of_exhausted turns (not_hasRecord_remainingFrom hend)]
    exact hpushed.ended hend
  | @skipped start last next best' hrecord hle hbelow =>
    rw [hheld] at hbelow
    obtain ⟨hstart, hge⟩ := hasRecord_remainingFrom.mp hrecord
    have hlast := hbelow.not_between start hstart hge
    omega
  | @finished start last next hleast hle hlast hend htopResults =>
    obtain ⟨rest, rfl⟩ := h.exists_turn hleast
    have hnone := not_hasRecord_remainingFrom hend
    refine Or.inl ⟨_, hturn, ?_⟩
    rw [htopResults, ← h.left_eq,
      leftForLastList_succ rest hleast (h.remainingFrom_last hfits hlast), unfinished_eq_nil hnone]
    dsimp only
    rw [leftForLastList_of_exhausted rest hnone]
    exact ⟨_, (hpushed.batch hleast hle).ended hend⟩
  | @lastList start last next term hleast hle hlast hlist htopResults =>
    obtain ⟨rest, rfl⟩ := h.exists_turn hleast
    have hinc := hincreasing (last + 1) term (hlist ▸ mem_singleton_self term)
    refine Or.inl ⟨_, hturn, ?_⟩
    rw [htopResults, ← h.left_eq,
      leftForLastList_succ rest hleast (h.remainingFrom_last hfits hlast), hlist]
    exact ⟨_, (hpushed.batch hleast hle).lastList hlist hinc⟩
  | @advanced start last later next best' hleast hle hlast hsome hmany hlater hbelow hnext hsame
      htopResults =>
    obtain ⟨rest, rfl⟩ := h.exists_turn hleast
    have hge := (hasRecord_remainingFrom.mp hleast.1).2
    have hbatch := hpushed.batch hleast hle
    rw [← htopResults] at hbatch
    have hnextHeld := hbatch.topK_of_room htop ((hpoints hbatch).trans hroom)
    rw [hnextHeld] at hbelow
    -- nothing is below the threshold, so the frontier has passed no record in between
    have hbetween : ∀ id, HasRecord terms id → (last + 1 ≤ id ↔ later ≤ id) := fun id hid =>
      ⟨fun hlow => hbelow.not_between id hid hlow, hlater.trans⟩
    have hsamelists := remainingFrom_congr fun id hid => (hbetween id hid).symm
    have hlt := elementCount_remainingFrom_lt hleast.1 (Nat.lt_succ_of_le hle)
      (show frontier ≤ last + 1 by omega)
    have hturns := h.turns_le
    rw [← hsamelists] at hlt
    refine Or.inr ⟨next, best', later, rest, hturn, ⟨hnext, mt (·.of_same hsame) h.fits,
      ⟨_, hbatch.congr fun id => ?_⟩, ?_, hsame.batchSize_eq.trans h.batchSize_eq, by omega, ?_⟩,
      hlt⟩
    · refine and_congr_left fun hid => ?_
      have hrecord := hbetween id (exists_of_scoreOver_ne_zero hid.2)
      omega
    · by_contra huse
      have hblock := h.blockPruning_eq
      rw [hsame.useBlockPruning_of (Bool.eq_true_of_not_eq_false huse)] at hblock
      cases hblock
    have hsameleft : leftForLastList batchSize terms rest later =
        leftForLastList batchSize terms rest (last + 1) :=
      leftForLastList_congr rest fun id => by rw [hsamelists]
    have hlength := hmany h.blockPruning_eq
    rw [← h.left_eq, leftForLastList_succ rest hleast (h.remainingFrom_last hfits hlast),
      hsameleft]
    split
    · rename_i term hlist
      rw [hlist] at hlength
      exact absurd rfl hlength
    · rfl

end Run

end Stratumind
