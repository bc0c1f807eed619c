import Stratumind.Dense.RankSessions
import Stratumind.Segment.RankDelivery

/-!
# Exactness of the delivery

The visible points that have not been collected, in the order of their scores, begin with the
points of one score. Sorted by external id they are the next part of the order by score and
external id, whatever chunks they came in.
-/

namespace Stratumind.SegmentRank

open Lib List

variable {R C Id S : Type}

/-- The rank of a point: higher scores first, then smaller external ids. -/
def deliveryKey (point : ScoredPoint Id S) : Sᵒᵈ ×ₗ Id := rankKey point.score point.id

/-- What a pull must know of the rank state, the buffer and its context: the visible points that
follow. -/
abbrev Source (R C Id S : Type) :=
  R → List (ScoredPointOffset S) → C → List (ScoredPoint Id S) → Prop

/-- Each pull returns the next visible point and changes nothing else of the state. -/
def Pulls (pull : Pull R C Id S) (source : Source R C Id S) : Prop :=
  ∀ (state : SegmentRankState R Id S) context rest,
    source state.rank state.internalBuffer context rest →
      ∃ rank internalBuffer context', pull (state, context) =
          some (.ok rest.head?, { state with rank, internalBuffer }, context') ∧
        source rank internalBuffer context' rest.tail

/-! ### Groups -/

section Groups

variable [Score S] {pull : Pull R C Id S} {source : Source R C Id S}

/-- The loop collects the points of one score and keeps the point after them. -/
private theorem runLoop_groupTurn (hpull : Pulls pull source) {score : S}
    {same others : List (ScoredPoint Id S)} (hsame : ∀ point ∈ same, point.score = score)
    (hothers : ∀ point ∈ others.head?, point.score ≠ score) {group : List (ScoredPoint Id S)}
    {state : SegmentRankState R Id S} {context : C} (hlookahead : state.lookahead = none)
    (h : source state.rank state.internalBuffer context (same ++ others)) {fuel : ℕ}
    (hfuel : same.length < fuel) :
    ∃ rank internalBuffer context',
      runLoop (groupTurn pull score) fuel (group, state, context) =
        some (.ok (group ++ same),
          { state with rank, internalBuffer, lookahead := others.head? }, context') ∧
      source rank internalBuffer context' others.tail := by
  induction same generalizing group state context fuel with
  | nil =>
    obtain ⟨fuel, rfl⟩ := Nat.exists_eq_add_of_lt hfuel
    obtain ⟨rank, internalBuffer, context', hrun, hnext⟩ := hpull state context others h
    refine ⟨rank, internalBuffer, context', ?_, hnext⟩
    rw [length_nil, Nat.zero_add, runLoop, groupTurn, hrun, append_nil]
    cases others with
    | nil => simp [hlookahead]
    | cons point others => simp [hothers point rfl]
  | cons point same ih =>
    obtain ⟨fuel, rfl⟩ := Nat.exists_eq_add_of_lt hfuel
    obtain ⟨rank, internalBuffer, context', hrun, hnext⟩ := hpull state context _ h
    have hrest : same.length < (point :: same).length + fuel := by
      rw [length_cons]
      omega
    obtain ⟨rank', internalBuffer', context'', hloop, hfinal⟩ :=
      @ih (fun other hmem => hsame other (mem_cons_of_mem _ hmem)) (group ++ [point])
        { state with rank, internalBuffer } context' hlookahead hnext _ hrest
    refine ⟨rank', internalBuffer', context'', ?_, hfinal⟩
    rw [runLoop, groupTurn, hrun]
    dsimp only [cons_append, head?_cons]
    rw [if_pos (hsame point mem_cons_self)]
    dsimp only
    rw [hloop, append_assoc]
    rfl

/-- Points in the order of their scores, split after those of the first one's score. -/
private theorem exists_group {first : ScoredPoint Id S} {rest : List (ScoredPoint Id S)}
    (hsorted : (first :: rest).Pairwise fun left right => right.score ≤ left.score) :
    ∃ same others, rest = same ++ others ∧ (∀ point ∈ same, point.score = first.score) ∧
      ∀ point ∈ others, point.score < first.score := by
  induction rest with
  | nil => exact ⟨[], [], rfl, nofun, nofun⟩
  | cons point rest ih =>
    rw [pairwise_cons] at hsorted
    obtain ⟨hfirst, hpoint, hrest⟩ := And.intro hsorted.1 (pairwise_cons.mp hsorted.2)
    by_cases heq : point.score = first.score
    · obtain ⟨same, others, rfl, hsame, hothers⟩ := ih (pairwise_cons.mpr
        ⟨fun other hmem => hfirst other (mem_cons_of_mem _ hmem), hrest⟩)
      exact ⟨point :: same, others, rfl, forall_mem_cons.mpr ⟨heq, hsame⟩, hothers⟩
    · have hlt := lt_of_le_of_ne (hfirst point mem_cons_self) heq
      refine ⟨[], point :: rest, rfl, nofun, forall_mem_cons.mpr ⟨hlt, ?_⟩⟩
      exact fun other hmem => (hpoint other hmem).trans_lt hlt

variable [LinearOrder Id]

/-- Sorting the points of the highest score by id begins the order of all points. -/
private theorem rankBy_group {first : ScoredPoint Id S} {same others : List (ScoredPoint Id S)}
    (hsame : ∀ point ∈ same, point.score = first.score)
    (hothers : ∀ point ∈ others, point.score < first.score)
    (hids : ((first :: same ++ others).map ScoredPoint.id).Nodup) :
    rankBy deliveryKey (first :: same ++ others) =
      sortBy (fun left right => compare left.id right.id) (first :: same) ++
        rankBy deliveryKey others := by
  have hscore : ∀ point ∈ first :: same, point.score = first.score :=
    forall_mem_cons.mpr ⟨rfl, hsame⟩
  have hkeys : ((first :: same ++ others).map deliveryKey).Nodup := by
    refine Nodup.of_map (fun key : Sᵒᵈ ×ₗ Id => (ofLex key).2) ?_
    rw [map_map]
    exact hids
  have hsplit := hkeys
  rw [map_append] at hsplit hids
  obtain ⟨-, hkeysOthers, -⟩ := nodup_append.mp hsplit
  obtain ⟨hidsSame, -, -⟩ := nodup_append.mp hids
  rw [sortBy_eq_rankBy (fun _ _ => rfl)]
  refine (Ranked.eq_rankBy ?_ hkeys fun point => ?_).symm
  · refine ranked_append.mpr ⟨?_, ranked_rankBy hkeysOthers, fun point hpoint other hother => ?_⟩
    · refine Pairwise.imp_of_mem ?_ (ranked_rankBy hidsSame)
      intro left right hleft hright hlt
      refine rankKey_lt_iff.mpr (Or.inr ⟨?_, hlt⟩)
      rw [hscore left (mem_rankBy.mp hleft), hscore right (mem_rankBy.mp hright)]
    · refine rankKey_lt_iff.mpr (Or.inl ?_)
      rw [hscore point (mem_rankBy.mp hpoint)]
      exact hothers other (mem_rankBy.mp hother)
  · rw [mem_append, mem_rankBy, mem_rankBy, mem_append]

/-! ### Batches -/

/-- The points that the state has still to deliver. -/
structure Delivering (source : Source R C Id S) (remaining : List (ScoredPoint Id S))
    (state : SegmentRankState R Id S) (context : C) (rest : List (ScoredPoint Id S)) : Prop where
  source_rest : source state.rank state.internalBuffer context rest
  sorted : (state.lookahead.toList ++ rest).Pairwise fun left right => right.score ≤ left.score
  distinct : ((state.lookahead.toList ++ rest).map ScoredPoint.id).Nodup
  remaining_eq : remaining =
    state.externalBuffer ++ rankBy deliveryKey (state.lookahead.toList ++ rest)

namespace Delivering

variable {remaining rest : List (ScoredPoint Id S)} {state : SegmentRankState R Id S} {context : C}

section

variable (h : Delivering source remaining state context rest)

include h

variable (hpull : Pulls pull source)

include hpull

/-- The first point of the next group. -/
private theorem takeFirst :
    ∃ rank internalBuffer context', takeFirst pull (state, context) =
        some (.ok (state.lookahead.toList ++ rest).head?,
          { state with rank, internalBuffer, lookahead := none }, context') ∧
      source rank internalBuffer context' (state.lookahead.toList ++ rest).tail := by
  obtain ⟨rank, internalBuffer, externalBuffer, lookahead⟩ := state
  cases lookahead with
  | some point => exact ⟨rank, internalBuffer, context, rfl, h.source_rest⟩
  | none => exact hpull _ context rest h.source_rest

/-- Collecting a group changes nothing of what is to be delivered. -/
private theorem refillExternal {fuel : ℕ} (hfuel : remaining.length < fuel) :
    (remaining = [] ∧ ∃ next context' rest', refillExternal pull fuel (state, context) =
        some (.ok false, next, context') ∧ Delivering source [] next context' rest') ∨
    ∃ next context' rest', refillExternal pull fuel (state, context) =
        some (.ok true, next, context') ∧ next.externalBuffer ≠ [] ∧
      Delivering source remaining next context' rest' := by
  unfold SegmentRank.refillExternal
  cases hexternal : state.externalBuffer with
  | cons point external =>
    grind
  | nil =>
    have hremaining := h.remaining_eq
    rw [hexternal, nil_append] at hremaining
    obtain ⟨rank, internalBuffer, context', hfirst, hnext⟩ := h.takeFirst hpull
    have hsorted := h.sorted
    have hdistinct := h.distinct
    rw [hfirst]
    cases hpoints : state.lookahead.toList ++ rest with
    | nil =>
      rw [hpoints] at hnext hremaining
      refine Or.inl ⟨hremaining, _, context', [], rfl, hnext, Pairwise.nil, nodup_nil, ?_⟩
      rw [hexternal]
      rfl
    | cons first later =>
    rw [hpoints] at hnext hsorted hdistinct hremaining
    obtain ⟨same, others, rfl, hsame, hothers⟩ := exists_group hsorted
    have hlength : same.length < fuel := by
      have hperm := congrArg length hremaining
      rw [(rankBy_perm _).length_eq, length_cons, length_append] at hperm
      omega
    have hhead : ∀ point ∈ others.head?, point.score ≠ first.score :=
      fun point hmem => (hothers point (mem_of_mem_head? hmem)).ne
    obtain ⟨rank', internalBuffer', context'', hloop, hfinal⟩ :=
      @runLoop_groupTurn R C Id S _ pull source hpull first.score same others hsame hhead
        [first] { state with rank, internalBuffer, lookahead := none } context' rfl hnext fuel
        hlength
    have htail : others.head?.toList ++ others.tail = others := by
      cases others <;> rfl
    refine Or.inr ⟨{ state with
        rank := rank', internalBuffer := internalBuffer', lookahead := others.head?
        externalBuffer := sortBy (fun left right => compare left.id right.id) (first :: same) },
      context'', others.tail, ?_, ?_, ?_⟩
    · dsimp only [head?_cons]
      rw [hloop]
      rfl
    · intro hnil
      have hlengths := congrArg length hnil
      rw [sortBy, (perm_insertionSort _ _).length_eq] at hlengths
      cases hlengths
    refine ⟨hfinal, ?_, ?_, ?_⟩
    · rw [htail]
      exact (pairwise_append.mp (pairwise_cons.mp hsorted).2).2.1
    · rw [htail]
      rw [map_cons, map_append] at hdistinct
      exact (nodup_append.mp (nodup_cons.mp hdistinct).2).2.1
    · rw [htail, hremaining]
      exact rankBy_group hsame hothers hdistinct

/-- The loop fills the output with the next points. -/
private theorem runLoop_deliverTurn {groupFuel : ℕ} (hgroup : remaining.length < groupFuel)
    {maxResults : ℕ} {output : List (ScoredPoint Id S)} {fuel : ℕ}
    (hfuel : remaining.length < fuel) :
    ∃ next context' rest',
      runLoop (deliverTurn pull groupFuel maxResults) fuel (output, state, context) =
        some (.ok (output ++ remaining.take (maxResults - output.length)), next, context') ∧
      Delivering source (remaining.drop (maxResults - output.length)) next context' rest' := by
  induction hcount : remaining.length using Nat.strong_induction_on
    generalizing remaining state context rest output fuel with
  | _ count ih =>
    obtain ⟨fuel, rfl⟩ := Nat.exists_eq_add_of_lt hfuel
    rw [runLoop, deliverTurn]
    by_cases hfull : maxResults ≤ output.length
    · rw [if_pos hfull, Nat.sub_eq_zero_of_le hfull]
      refine ⟨state, context, rest, ?_, h⟩
      rw [take_zero, append_nil]
    rw [if_neg hfull]
    rcases h.refillExternal hpull hgroup with
      ⟨rfl, next, context', rest', hrun, hnext⟩ | ⟨next, context', rest', hrun, hne, hnext⟩
    · refine ⟨next, context', rest', ?_, ?_⟩
      · rw [hrun, take_nil, append_nil]
      · rw [drop_nil]
        exact hnext
    rw [hrun]
    dsimp only
    -- the drained part begins what remains
    generalize hdrained : min (maxResults - output.length) next.externalBuffer.length = drained
    have hpos : 0 < next.externalBuffer.length := length_pos_of_ne_nil hne
    have htake : next.externalBuffer.take drained = remaining.take drained := by
      rw [hnext.remaining_eq, take_append_of_le_length (by omega)]
    have hdelivering : Delivering source (remaining.drop drained)
        { next with externalBuffer := next.externalBuffer.drop drained } context' rest' := by
      refine ⟨hnext.source_rest, hnext.sorted, hnext.distinct, ?_⟩
      rw [hnext.remaining_eq, drop_append_of_le_length (by omega)]
    have hle : next.externalBuffer.length ≤ remaining.length := by
      rw [hnext.remaining_eq, length_append]
      omega
    have hlength : (remaining.drop drained).length < count := by
      rw [length_drop]
      omega
    obtain ⟨final, context'', rest'', hloop, hfinal⟩ := @ih _ hlength _ _ _ _ hdelivering
      (by omega) (output ++ remaining.take drained) (remaining.length + fuel) (by omega) rfl
    have hcountOutput : (output ++ remaining.take drained).length = output.length + drained := by
      rw [length_append, length_take]
      omega
    have hsum : maxResults - output.length =
        drained + (maxResults - (output.length + drained)) := by
      omega
    refine ⟨final, context'', rest'', ?_, ?_⟩
    · rw [htake, hloop, hcountOutput, append_assoc, hsum, take_add]
    · rw [hcountOutput, drop_drop, ← hsum] at hfinal
      exact hfinal

/-- A call delivers the next points. -/
theorem deliver (kind : String) {fuel maxResults : ℕ} (hpos : 0 < maxResults)
    (hfuel : remaining.length < fuel) :
    ∃ next context' rest', deliver kind pull fuel maxResults (state, context) =
        some (.ok (remaining.take maxResults), next, context') ∧
      Delivering source (remaining.drop maxResults) next context' rest' := by
  unfold SegmentRank.deliver
  rw [if_neg (by omega)]
  obtain ⟨next, context', rest', hrun, hnext⟩ :=
    @runLoop_deliverTurn R C Id S _ pull source _ remaining rest state context h hpull fuel hfuel
      maxResults [] fuel hfuel
  exact ⟨next, context', rest', hrun, hnext⟩

end

end Delivering

end Groups

/-! ### Rank states -/

/-- The rank state delivers a list in chunks that are empty only at its end. -/
def Delivers (nextBatch : NextBatch R S) (serves : R → List (ScoredPointOffset S) → Prop) : Prop :=
  ∀ rank items limit, 0 < limit → serves rank items →
    ∃ chunk rest next, nextBatch limit rank = some (.ok chunk, next) ∧ items = chunk ++ rest ∧
      (chunk = [] → items = []) ∧ serves next rest

/-- The point of an offset that has an external id and a version. -/
def SegmentReadView.point (view : SegmentReadView Id) (point : ScoredPointOffset S) :
    Option (ScoredPoint Id S) :=
  (view.externalId point.idx).bind fun id =>
    (view.internalVersion point.idx).map fun version => ⟨id, version, point.score⟩

private theorem point_eq_some {view : SegmentReadView Id} {point : ScoredPointOffset S}
    {scored : ScoredPoint Id S} (h : view.point point = some scored) :
    view.externalId point.idx = some scored.id ∧
      view.internalVersion point.idx = some scored.version ∧ scored.score = point.score := by
  obtain ⟨id, hid, h⟩ := Option.bind_eq_some_iff.mp h
  obtain ⟨version, hversion, rfl⟩ := Option.map_eq_some_iff.mp h
  exact ⟨hid, hversion, rfl⟩

variable [LinearOrder Id] [ToString Id] [Score S]

/-- The visible points in the order by score and external id. -/
def SegmentReadView.ordered (view : SegmentReadView Id) (all : List (ScoredPointOffset S)) :
    List (ScoredPoint Id S) :=
  rankBy deliveryKey ((all.filter fun point => view.visible point.idx).filterMap view.point)

omit [LinearOrder Id] [Score S] in
private theorem scoredPoint_of_point {view : SegmentReadView Id} {point : ScoredPointOffset S}
    {scored : ScoredPoint Id S} (h : view.point point = some scored) (kind : String) :
    view.scoredPoint kind point = .ok scored := by
  obtain ⟨hid, hversion, hscore⟩ := point_eq_some h
  unfold SegmentReadView.scoredPoint
  rw [hid]
  rw [hversion, ← hscore]

section Delivery

variable {nextBatch : NextBatch R S} {serves : R → List (ScoredPointOffset S) → Prop}
  {view : SegmentReadView Id} {state : SegmentRankState R Id S} {limit : ℕ}

section Pulling

variable (hdelivers : Delivers nextBatch serves) (hlimit : 0 < limit)
include hdelivers hlimit

omit [LinearOrder Id] [ToString Id] [Score S] in
/-- The next offset is popped from the buffer or from the next chunk. -/
private theorem popInternal {items : List (ScoredPointOffset S)} (h : serves state.rank items) :
    ∃ rank internalBuffer items', state.popInternal nextBatch limit =
        some (.ok (state.internalBuffer ++ items).head?, { state with rank, internalBuffer }) ∧
      serves rank items' ∧ (state.internalBuffer ++ items).tail = internalBuffer ++ items' := by
  unfold SegmentRankState.popInternal
  cases hbuffer : state.internalBuffer with
  | cons first buffer => exact ⟨state.rank, buffer, items, rfl, h, rfl⟩
  | nil =>
    obtain ⟨chunk, rest, next, hrun, rfl, hempty, hnext⟩ :=
      hdelivers state.rank items limit hlimit h
    rw [hrun]
    cases chunk with
    | nil =>
      obtain rfl : rest = [] := hempty rfl
      exact ⟨next, [], [], by simp, hnext, rfl⟩
    | cons first chunk => exact ⟨next, chunk, rest, rfl, hnext, rfl⟩

omit [LinearOrder Id] [Score S] hdelivers hlimit in
/-- The source of the Dense pull. -/
private def denseSource (serves : R → List (ScoredPointOffset S) → Prop)
    (view : SegmentReadView Id) : Source R C Id S := fun rank buffer _ rest =>
  ∃ items, serves rank items ∧ (∀ point ∈ buffer ++ items, (view.point point).isSome) ∧
    rest = (buffer ++ items).filterMap view.point

omit [LinearOrder Id] [Score S] in
private theorem pulls_pullDense :
    Pulls (pullDense view nextBatch limit : Pull R C Id S) (denseSource serves view) := by
  rintro state context _ ⟨items, hserves, hmapped, rfl⟩
  obtain ⟨rank, internalBuffer, items', hpop, hnext, htail⟩ := popInternal hdelivers hlimit hserves
  unfold pullDense
  rw [hpop]
  cases hitems : state.internalBuffer ++ items with
  | nil =>
    rw [hitems] at htail
    exact ⟨rank, internalBuffer, context, rfl, items', hnext, by simp [← htail], by simp [← htail]⟩
  | cons offset later =>
    rw [hitems] at htail hmapped
    obtain ⟨scored, hscored⟩ := Option.isSome_iff_exists.mp (hmapped offset mem_cons_self)
    refine ⟨rank, internalBuffer, context, ?_, items', hnext, ?_, ?_⟩
    · simp [filterMap_cons_some hscored, scoredPoint_of_point hscored]
    · rw [← htail]
      exact fun other hmem => hmapped other (mem_cons_of_mem _ hmem)
    · rw [filterMap_cons_some hscored, ← htail]
      rfl

/-- The source of the Sparse pull, which is not stopped and has fuel for all offsets. -/
private def sparseSource (serves : R → List (ScoredPointOffset S) → Prop)
    (view : SegmentReadView Id) (fuel : ℕ) : Source R (ℕ → Bool) Id S :=
  fun rank buffer stopped rest =>
    ∃ items, serves rank items ∧ (buffer ++ items).length < fuel ∧ (stopped = fun _ => false) ∧
      (∀ point ∈ buffer ++ items, view.visible point.idx = true → (view.point point).isSome) ∧
      rest = ((buffer ++ items).filter fun point => view.visible point.idx).filterMap view.point

omit [LinearOrder Id] [Score S] in
/-- The loop passes over the offsets that are not visible. -/
private theorem runLoop_pullSparseTurn {offsets items : List (ScoredPointOffset S)}
    (hserves : serves state.rank items) (hitems : state.internalBuffer ++ items = offsets)
    (hmapped : ∀ point ∈ offsets, view.visible point.idx = true → (view.point point).isSome)
    {fuel : ℕ} (hfuel : offsets.length < fuel) :
    ∃ rank internalBuffer items', serves rank items' ∧ internalBuffer ++ items' <:+ offsets ∧
      runLoop (pullSparseTurn view nextBatch limit) fuel (state, fun _ => false) =
        some (.ok ((offsets.filter fun point => view.visible point.idx).filterMap view.point).head?,
          { state with rank, internalBuffer }, fun _ => false) ∧
      ((internalBuffer ++ items').filter fun point => view.visible point.idx).filterMap view.point =
        ((offsets.filter fun point => view.visible point.idx).filterMap view.point).tail := by
  induction offsets generalizing state items fuel with
  | nil =>
    obtain ⟨fuel, rfl⟩ := Nat.exists_eq_add_of_lt hfuel
    obtain ⟨rank, internalBuffer, items', hpop, hnext, htail⟩ :=
      popInternal hdelivers hlimit hserves
    rw [hitems] at hpop htail
    refine ⟨rank, internalBuffer, items', hnext, by simp [← htail], ?_, by simp [← htail]⟩
    rw [length_nil, Nat.zero_add, runLoop, pullSparseTurn, if_neg Bool.false_ne_true, hpop]
    rfl
  | cons offset later ih =>
    obtain ⟨fuel, rfl⟩ := Nat.exists_eq_add_of_lt hfuel
    obtain ⟨rank, internalBuffer, items', hpop, hnext, htail⟩ :=
      popInternal hdelivers hlimit hserves
    rw [hitems, tail_cons] at htail
    rw [hitems, head?_cons] at hpop
    rw [runLoop, pullSparseTurn, if_neg Bool.false_ne_true, hpop]
    dsimp only
    cases hvisible : view.visible offset.idx with
    | false =>
      rw [if_pos rfl, filter_cons_of_neg (by simp [hvisible])]
      have hrest : later.length < (offset :: later).length + fuel := by
        rw [length_cons]
        omega
      obtain ⟨rank', buffer', items'', hserves', hsuffix, hrun, hfiltered⟩ :=
        @ih { state with rank, internalBuffer } items' hnext htail.symm
          (fun other hother => hmapped other (mem_cons_of_mem _ hother)) _ hrest
      exact ⟨rank', buffer', items'', hserves', hsuffix.trans (suffix_cons _ _), hrun, hfiltered⟩
    | true =>
      obtain ⟨scored, hscored⟩ :=
        Option.isSome_iff_exists.mp (hmapped offset mem_cons_self hvisible)
      rw [if_neg (by simp), filter_cons_of_pos (by simpa using hvisible),
        filterMap_cons_some hscored, scoredPoint_of_point hscored]
      refine ⟨rank, internalBuffer, items', hnext, ?_, rfl, by rw [← htail]; rfl⟩
      rw [← htail]
      exact suffix_cons _ _

omit [LinearOrder Id] [Score S] in
private theorem pulls_pullSparse (fuel : ℕ) :
    Pulls (pullSparse view nextBatch limit fuel) (sparseSource serves view fuel) := by
  rintro state context _ ⟨items, hserves, hfuel, rfl, hmapped, rfl⟩
  obtain ⟨rank, internalBuffer, items', hnext, hsuffix, hrun, htail⟩ :=
    runLoop_pullSparseTurn hdelivers hlimit hserves rfl hmapped hfuel
  exact ⟨rank, internalBuffer, _, hrun, items', hnext, hsuffix.length_le.trans_lt hfuel, rfl,
    fun other hother => hmapped other (hsuffix.subset hother), htail.symm⟩

end Pulling

variable {all : List (ScoredPointOffset S)}

omit [ToString Id] in
private theorem length_ordered_lt {fuel : ℕ}
    (hfuel : all.length < fuel) : (view.ordered all).length < fuel := by
  refine lt_of_le_of_lt ?_ hfuel
  rw [SegmentReadView.ordered, (rankBy_perm _).length_eq]
  exact (length_filterMap_le _ _).trans (length_filter_le _ _)

section Visible

variable {score : ℕ → S} {rank : R} (hsorted : Ranked Dense.pointKey all)
  (hscore : ∀ point ∈ all, point.score = score point.idx)
  (hinjective : ∀ idx other id, view.externalId idx = some id →
    view.externalId other = some id → idx = other)
include hsorted hscore hinjective

omit [LinearOrder Id] [ToString Id] in
private theorem nodup_ids :
    (((all.filter fun point => view.visible point.idx).filterMap view.point).map
      ScoredPoint.id).Nodup := by
  have hvisible : Ranked Dense.pointKey (all.filter fun point => view.visible point.idx) :=
    Pairwise.filter _ hsorted
  refine pairwise_map.mpr (Pairwise.filterMap _ ?_ (Pairwise.and_mem.mp hvisible))
  rintro left right ⟨hmemLeft, hmemRight, hlt⟩ scored hleft scored' hright heq
  have hid := (point_eq_some hleft).1
  rw [heq] at hid
  have hidx := hinjective left.idx right.idx _ hid (point_eq_some hright).1
  have hscores : left.score = right.score := by
    rw [hscore left (mem_of_mem_filter hmemLeft), hscore right (mem_of_mem_filter hmemRight), hidx]
  rw [Dense.pointKey, Dense.pointKey, hidx, hscores] at hlt
  exact lt_irrefl _ hlt

omit [ToString Id] in
/-- Visible points keep the order of the scores, and have distinct ids. -/
private theorem delivering_fresh {source : Source R C Id S} {context : C}
    (h : source rank [] context
      ((all.filter fun point => view.visible point.idx).filterMap view.point)) :
    Delivering source (view.ordered all) (SegmentRankState.fresh rank) context
      ((all.filter fun point => view.visible point.idx).filterMap view.point) := by
  refine ⟨h, ?_, nodup_ids hsorted hscore hinjective, rfl⟩
  refine Pairwise.filterMap _ ?_ (Pairwise.filter _ hsorted)
  intro left right hlt scored hleft scored' hright
  rw [(point_eq_some hleft).2.2, (point_eq_some hright).2.2]
  rcases rankKey_lt_iff.mp hlt with hlt | ⟨heq, -⟩
  · exact hlt.le
  · exact heq.ge

/-- The calls of a Sparse state return the parts of the visible points. -/
theorem sparse_delivery (hdelivers : Delivers nextBatch serves) (hserves : serves rank all)
    (hmapped : ∀ point ∈ all, view.visible point.idx = true → (view.point point).isSome)
    {postingBatchSize : ℕ} (hbatch : 0 < postingBatchSize) {limits : List ℕ}
    (hlimits : ∀ limit ∈ limits, 0 < limit) {fuel : ℕ} (hfuel : all.length < fuel) :
    ∃ next, calls (fun maxResults current =>
        advanceExactSparseRankState view nextBatch fuel maxResults current.1 current.2) limits
        (⟨SegmentRankState.fresh rank, postingBatchSize⟩, fun _ => false) =
      some ((slices (view.ordered all) limits).map .ok, next) := by
  -- the rest is never longer than at the start
  let delivers := fun (remaining : List (ScoredPoint Id S))
      (current : SparseRankState R Id S × (ℕ → Bool)) =>
    remaining.length < fuel ∧ current.1.postingBatchSize = postingBatchSize ∧
      ∃ rest, Delivering (sparseSource serves view fuel) remaining
        current.1.toSegmentRankState current.2 rest
  have hstart : delivers (view.ordered all)
      (⟨SegmentRankState.fresh rank, postingBatchSize⟩, fun _ => false) :=
    ⟨length_ordered_lt hfuel, rfl, _,
      delivering_fresh hsorted hscore hinjective ⟨all, hserves, hfuel, rfl, hmapped, rfl⟩⟩
  have hcall : ∀ remaining current maxResults, 0 < maxResults → delivers remaining current →
      ∃ next, advanceExactSparseRankState view nextBatch fuel maxResults current.1 current.2 =
          some (.ok (remaining.take maxResults), next) ∧
        delivers (remaining.drop maxResults) next := by
    rintro remaining ⟨state, stopped⟩ maxResults hpos ⟨hlength, hsize, rest, hdelivering⟩
    have hlimit : 0 < state.postingBatchSize := hbatch.trans_eq hsize.symm
    obtain ⟨next, stopped', rest', hrun, hnext⟩ := hdelivering.deliver
      (pulls_pullSparse hdelivers hlimit fuel) "Sparse" hpos hlength
    refine ⟨({ state with toSegmentRankState := next }, stopped'), ?_, ?_, hsize, rest', hnext⟩
    · unfold advanceExactSparseRankState
      rw [hrun]
      rfl
    · rw [length_drop]
      omega
  obtain ⟨next, hcalls, -⟩ := calls_slices hcall hlimits hstart
  exact ⟨next, hcalls⟩

/-- The calls of a Dense state, whose offsets are visible, return the parts of its points. -/
theorem dense_delivery (hdelivers : Delivers nextBatch serves) (hserves : serves rank all)
    (hvisible : ∀ point ∈ all, view.visible point.idx = true)
    (hmapped : ∀ point ∈ all, (view.point point).isSome) {limits : List ℕ}
    (hlimits : ∀ limit ∈ limits, 0 < limit) {fuel : ℕ} (hfuel : all.length < fuel) :
    ∃ next, calls (advanceExactDenseSegmentState view nextBatch fuel) limits
        (SegmentRankState.fresh rank) =
      some ((slices (view.ordered all) limits).map .ok, next) := by
  let delivers := fun (remaining : List (ScoredPoint Id S)) (state : SegmentRankState R Id S) =>
    remaining.length < fuel ∧
      ∃ rest, Delivering (denseSource serves view) remaining state () rest
  have hstart : delivers (view.ordered all) (SegmentRankState.fresh rank) := by
    refine ⟨length_ordered_lt hfuel, _,
      delivering_fresh hsorted hscore hinjective ⟨all, hserves, hmapped, ?_⟩⟩
    rw [filter_eq_self.mpr hvisible]
    rfl
  have hcall : ∀ remaining state maxResults, 0 < maxResults → delivers remaining state →
      ∃ next, advanceExactDenseSegmentState view nextBatch fuel maxResults state =
          some (.ok (remaining.take maxResults), next) ∧
        delivers (remaining.drop maxResults) next := by
    rintro remaining state maxResults hpos ⟨hlength, rest, hdelivering⟩
    have hlimit : 0 < max maxResults 16 := by omega
    obtain ⟨next, _, rest', hrun, hnext⟩ := hdelivering.deliver
      (pulls_pullDense hdelivers hlimit) "Dense" hpos hlength
    refine ⟨next, ?_, ?_, rest', hnext⟩
    · unfold advanceExactDenseSegmentState
      rw [hrun]
      rfl
    · rw [length_drop]
      omega
  obtain ⟨next, hcalls, -⟩ := calls_slices hcall hlimits hstart
  exact ⟨next, hcalls⟩

end Visible

/-- Let a rank state deliver offsets in the order of their scores and offsets, in any non-empty
chunks. Every sequence of calls then returns the consecutive parts of the visible points in the
order of their scores and external ids. The eligible offsets of a Dense state are visible. -/
theorem segment_delivery_exact (hdelivers : Delivers nextBatch serves) {rank : R}
    {all : List (ScoredPointOffset S)} (hserves : serves rank all)
    (hsorted : Ranked Dense.pointKey all) {score : ℕ → S}
    (hscore : ∀ point ∈ all, point.score = score point.idx)
    (hmapped : ∀ point ∈ all, view.visible point.idx = true → (view.point point).isSome)
    (hinjective : ∀ idx other id, view.externalId idx = some id →
      view.externalId other = some id → idx = other)
    {postingBatchSize : ℕ} (hbatch : 0 < postingBatchSize) {limits : List ℕ}
    (hlimits : ∀ limit ∈ limits, 0 < limit) {fuel : ℕ} (hfuel : all.length < fuel) :
    Ranked deliveryKey (view.ordered all) ∧
    (view.ordered all).Perm
      ((all.filter fun point => view.visible point.idx).filterMap view.point) ∧
    (slices (view.ordered all) limits).flatten = (view.ordered all).take limits.sum ∧
    (∃ next, calls (fun maxResults current =>
        advanceExactSparseRankState view nextBatch fuel maxResults current.1 current.2) limits
        (⟨SegmentRankState.fresh rank, postingBatchSize⟩, fun _ => false) =
      some ((slices (view.ordered all) limits).map .ok, next)) ∧
    ((∀ point ∈ all, view.visible point.idx = true) →
      ∃ next, calls (advanceExactDenseSegmentState view nextBatch fuel) limits
          (SegmentRankState.fresh rank) =
        some ((slices (view.ordered all) limits).map .ok, next)) := by
  refine ⟨?_, rankBy_perm _, flatten_slices _ limits, ?_, ?_⟩
  · refine ranked_rankBy (Nodup.of_map (fun key : Sᵒᵈ ×ₗ Id => (ofLex key).2) ?_)
    rw [map_map]
    exact nodup_ids hsorted hscore hinjective
  · exact sparse_delivery hsorted hscore hinjective hdelivers hserves hmapped hbatch hlimits hfuel
  · intro hvisible
    exact dense_delivery hsorted hscore hinjective hdelivers hserves hvisible
      (fun point hmem => hmapped point hmem (hvisible point hmem)) hlimits hfuel

end Delivery

/-- The rank state that consists of its chunks. -/
def popChunk : NextBatch (List (List (ScoredPointOffset S))) S
  | _, [] => some (.ok [], [])
  | _, chunk :: chunks => some (.ok chunk, chunks)

omit [Score S] in
/-- Non-empty chunks are delivered one by one. -/
theorem delivers_popChunk : Delivers popChunk
    fun (chunks : List (List (ScoredPointOffset S))) items =>
      items = chunks.flatten ∧ ∀ chunk ∈ chunks, chunk ≠ [] := by
  rintro chunks items limit - ⟨rfl, hchunks⟩
  cases chunks with
  | nil => exact ⟨[], [], [], rfl, rfl, fun _ => rfl, rfl, hchunks⟩
  | cons chunk chunks =>
    refine ⟨chunk, chunks.flatten, chunks, rfl, rfl, fun hnil => ?_, rfl, ?_⟩
    · exact absurd hnil (hchunks chunk mem_cons_self)
    · exact fun other hmem => hchunks other (mem_cons_of_mem _ hmem)

/-- Ids that fall as the offsets rise; offset 1 fails the filter. -/
private def exampleView : SegmentReadView ℤ where
  externalId idx := some (-idx)
  internalVersion _ := some 0
  deletedVectors := []
  deletedPoints := [false, false, false, false]
  deferredFrom := none
  filterContext := some fun idx => idx != 1

/-- Offsets 0, 1 and 2 have one score and come in two chunks, and offset 1 is filtered. -/
theorem segment_delivery_exact_two_chunks :
    ∃ next, calls (fun maxResults current => advanceExactSparseRankState exampleView popChunk 5
        maxResults current.1 current.2) [1, 5]
        (⟨SegmentRankState.fresh [[⟨0, 7⟩, ⟨1, 7⟩], [⟨2, 7⟩, ⟨3, (4 : ℚ)⟩]], 2⟩, fun _ => false) =
      some ([.ok [⟨-2, 0, 7⟩], .ok [⟨0, 0, 7⟩, ⟨-3, 0, 4⟩]], next) := by
  have hexact := @segment_delivery_exact _ ℤ ℚ _ _ _ popChunk _ exampleView delivers_popChunk
    [[⟨0, 7⟩, ⟨1, 7⟩], [⟨2, 7⟩, ⟨3, 4⟩]] [⟨0, 7⟩, ⟨1, 7⟩, ⟨2, 7⟩, ⟨3, 4⟩] ⟨rfl, by decide⟩
    (by unfold Ranked; decide +kernel) (fun idx => if idx = 3 then 4 else 7) (by decide +kernel)
    (by decide) (by
      intro idx other id hidx hother
      have heq := hidx.trans hother.symm
      simpa [exampleView] using heq)
    2 (by decide) [1, 5] (by decide) 5 (by decide)
  obtain ⟨next, hcalls⟩ := hexact.2.2.2.1
  refine ⟨next, ?_⟩
  rw [hcalls]
  rfl

/-- A Dense segment whose rank state has an interval around the score of each eligible offset
delivers the eligible points in the order of their scores and external ids. -/
theorem dense_segment_delivery {B : Type} [Score B] [Dense.WideScore S B]
    {view : SegmentReadView Id} {score : ℕ → S} {eligible : List ℕ} (heligible : eligible.Nodup)
    {bounds : List (Dense.PendingBound B)} (hids : (bounds.map Dense.PendingBound.id).Perm eligible)
    (hfinite : ∀ bound ∈ bounds,
      Score.isFinite bound.lower = true ∧ Score.isFinite bound.value = true)
    (hwithin : ∀ bound ∈ bounds, bound.Within score) (exactRefineBatch : ℕ)
    (offsets : Dense.EligibleUniverse)
    (hvisible : ∀ idx ∈ eligible, view.visible idx = true)
    (hmapped : ∀ idx ∈ eligible, (view.point (Dense.scored score idx)).isSome)
    (hinjective : ∀ idx other id, view.externalId idx = some id →
      view.externalId other = some id → idx = other)
    {limits : List ℕ} (hlimits : ∀ limit ∈ limits, 0 < limit) :
    ∃ next, calls (advanceExactDenseSegmentState view
        (fun limit rank => rank.1.nextBatchWith limit (Dense.recordingScorer score) rank.2)
        (eligible.length + 1)) limits (SegmentRankState.fresh
          ((⟨.certificate ⟨exactRefineBatch, bounds, [], ∅⟩, offsets⟩ : Dense.DenseRankState S B),
            [])) =
      some ((slices (view.ordered (Dense.ranking score eligible)) limits).map .ok, next) := by
  have hdelivers : Delivers
      (fun limit (rank : Dense.DenseRankState S B × List ℕ) =>
        rank.1.nextBatchWith limit (Dense.recordingScorer score) rank.2)
      fun rank items => Dense.Certifies score eligible items rank := by
    intro rank items limit hlimit hrank
    obtain ⟨next, hrun, hnext⟩ := hrank.nextBatchWith heligible items rank limit hlimit
    refine ⟨items.take limit, items.drop limit, next, hrun, (take_append_drop _ _).symm,
      fun hnil => ?_, hnext⟩
    rcases take_eq_nil_iff.mp hnil with hzero | hitems
    · omega
    · exact hitems
  have hmem : ∀ point ∈ Dense.ranking score eligible,
      point.idx ∈ eligible ∧ point = Dense.scored score point.idx := by
    intro point hpoint
    obtain ⟨idx, hidx, rfl⟩ := mem_map.mp (mem_rankBy.mp hpoint)
    exact ⟨hidx, rfl⟩
  have hsorted : Ranked Dense.pointKey (Dense.ranking score eligible) :=
    ranked_rankBy (Dense.nodup_map_pointKey score heligible)
  have hlength : (Dense.ranking score eligible).length < eligible.length + 1 := by
    rw [Dense.ranking, (rankBy_perm _).length_eq, length_map]
    exact Nat.lt_succ_self _
  have hscore : ∀ point ∈ Dense.ranking score eligible, point.score = score point.idx :=
    fun point hpoint => congrArg ScoredPointOffset.score (hmem point hpoint).2
  have hserves := Dense.certifies_init heligible hids hfinite hwithin exactRefineBatch offsets
  refine dense_delivery hsorted hscore hinjective hdelivers hserves ?_ ?_ hlimits hlength
  · exact fun point hpoint => hvisible point.idx (hmem point hpoint).1
  · intro point hpoint
    rw [(hmem point hpoint).2]
    exact hmapped point.idx (hmem point hpoint).1

/-- Two eligible offsets of one score, whose ids fall as the offsets rise. -/
theorem dense_segment_delivery_two_offsets :
    ∃ next, calls (advanceExactDenseSegmentState exampleView (fun limit
        (rank : Dense.DenseRankState ℚ ℚ × List ℕ) =>
          rank.1.nextBatchWith limit (Dense.recordingScorer fun _ => 7) rank.2) 3) [1, 5]
        (SegmentRankState.fresh
          (⟨.certificate ⟨1, [⟨0, 6, 8⟩, ⟨2, 7, 7⟩], [], ∅⟩, .explicit [0, 2]⟩, [])) =
      some ([.ok [⟨-2, 0, 7⟩], .ok [⟨0, 0, 7⟩]], next) := by
  exact @dense_segment_delivery ℤ ℚ _ _ _ ℚ _ _ exampleView (fun _ => 7) [0, 2] (by decide)
    [⟨0, 6, 8⟩, ⟨2, 7, 7⟩] (by decide) (by decide +kernel)
    (by unfold Dense.PendingBound.Within; decide +kernel) 1 (.explicit [0, 2]) (by decide)
    (by decide) (by
      intro idx other id hidx hother
      have heq := hidx.trans hother.symm
      simpa [exampleView] using heq) [1, 5] (by decide)

end Stratumind.SegmentRank
