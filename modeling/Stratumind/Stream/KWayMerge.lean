import Stratumind.Lib.Feed
import Stratumind.Stream.KWay

/-!
# What a k-way merge has read and returned

The state of a merge is explained by what it has consumed: for each source the points
it has already returned and its local head, and the sequence returned so far. Every
operation either fails or keeps this explanation, whatever the sources deliver.
-/

namespace Stratumind

open Lib List Function

variable {V κ Id S : Type} {m : ℕ} [DecidableEq κ] [LinearOrder Id] [Score S]

/-- The key of the descending score and ascending identity order. -/
def ExactScoredIdentity.key (point : ExactScoredIdentity Id S) : Sᵒᵈ ×ₗ Id :=
  rankKey point.score point.id

/-- The order check fails exactly when the earlier point should come later. -/
theorem exactScoreOrder_eq_gt {left right : ExactScoredIdentity Id S} :
    exactScoreOrder left right = .gt ↔ right.key < left.key := by
  have hcompare : exactScoreOrder left right = compare left.key right.key := rfl
  rw [hcompare, compare_gt_iff_gt]

namespace ExactScoreSource

/-- The points a source has pulled but not handed out. -/
def buffer : ExactScoreSource V Id S → List (ExactScoredIdentity Id S)
  | .point _ => []
  | .batch _ buffer _ => buffer

/-- Whether the source may still be pulled, given whether it has been noted as ended. -/
def pullable (noted : Bool) : ExactScoreSource V Id S → Bool
  | .point _ => !noted
  | .batch _ _ exhausted => !exhausted

/-- A source of either form serves feed `k` in batches of at most `size`. -/
def Serves (supply : Supply V κ (ExactScoredIdentity Id S)) (size : ℕ) (k : κ) :
    ExactScoreSource V Id S → Prop
  | .point stream => ServesPoints supply stream k
  | .batch pull _ _ => ServesBatches supply (pull size) ExactScoreBatch.points
      ExactScoreBatch.exhausted (fun _ _ => True) size k

/-- What a source has of its feed: `front` has been taken from its buffer, and what follows
makes up the list. -/
structure Fed (source : ExactScoreSource V Id S) (noted : Bool)
    (feed : Feed (ExactScoredIdentity Id S)) (front list : List (ExactScoredIdentity Id S)) :
    Prop where
  taken_eq : feed.taken = front ++ source.buffer
  list_eq : front ++ source.buffer ++ feed.rest = list
  open_of_pullable : source.pullable noted = true → feed.ended = false
  rest_eq_nil : source.pullable noted = false → feed.rest = []
  drained : noted = true → source.buffer = [] ∧ feed.rest = []

end ExactScoreSource

namespace KWayExactScoreStream

/-- The sources of the merge serve the given lists, and `front` has been taken from
their buffers. -/
structure Feeding (supply : Supply V κ (ExactScoredIdentity Id S))
    (lists : Fin m → List (ExactScoredIdentity Id S)) (inner : Fin m → κ)
    (stream : KWayExactScoreStream V Id S m) (v : V) (feeds : κ → Feed (ExactScoredIdentity Id S))
    (front : Fin m → List (ExactScoredIdentity Id S)) : Prop where
  supplied : supply v feeds
  injective : Injective inner
  size_pos : 0 < stream.sourceRefillBatchSize
  serves : ∀ source,
    (stream.sources source).Serves supply stream.sourceRefillBatchSize (inner source)
  fed : ∀ source, (stream.sources source).Fed (stream.telemetry.sourceExhausted source)
    (feeds (inner source)) (front source) (lists source)

/-- The heap, the returned sequence and the order checks, in terms of what each source
has contributed: `past` was returned and `head` is on the heap. -/
structure Heaped (stream : KWayExactScoreStream V Id S m)
    (past : Fin m → List (ExactScoredIdentity Id S))
    (head : Fin m → Option (ExactScoredIdentity Id S))
    (emitted : List (ExactScoredIdentity Id S)) : Prop where
  healthy : stream.terminalError = none
  pending_nodup : stream.pending.Nodup
  mem_pending : ∀ entry, entry ∈ stream.pending ↔ head entry.source = some entry.point
  previous_eq : ∀ source,
    stream.previous source = (past source ++ (head source).toList).getLast?
  finite : ∀ source, ∀ point ∈ past source ++ (head source).toList,
    Score.isFinite point.score = true
  sorted : ∀ source,
    (past source ++ (head source).toList).Pairwise fun left right => left.key ≤ right.key
  emitted_perm : emitted.Perm ((finRange m).flatMap past)
  seen_eq : stream.seen = (emitted.map ExactScoredIdentity.id).toFinset
  emitted_ids_nodup : (emitted.map ExactScoredIdentity.id).Nodup
  emitted_sorted : emitted.Pairwise fun left right => left.key ≤ right.key
  emitted_le_head : ∀ source point, head source = some point →
    ∀ earlier ∈ emitted, earlier.key ≤ point.key
  pointsEmitted_eq : stream.telemetry.pointsEmitted = emitted.length

section Taking

variable {supply : Supply V κ (ExactScoredIdentity Id S)}
  {lists front : Fin m → List (ExactScoredIdentity Id S)} {inner : Fin m → κ}
  {stream : KWayExactScoreStream V Id S m} {v w : V}
  {feeds : κ → Feed (ExactScoredIdentity Id S)} {source : Fin m}

variable (h : Feeding supply lists inner stream v feeds front)

include h

omit [LinearOrder Id] [Score S] in
/-- Changing one source, its feed and what has been taken from it keeps the rest. -/
theorem Feeding.update (next : KWayExactScoreStream V Id S m) (changed : ExactScoreSource V Id S)
    (taken : List (ExactScoredIdentity Id S)) {feed : Feed (ExactScoredIdentity Id S)}
    (hsize : next.sourceRefillBatchSize = stream.sourceRefillBatchSize)
    (hsources : next.sources = update stream.sources source changed)
    (hnoted : ∀ other, other ≠ source →
      next.telemetry.sourceExhausted other = stream.telemetry.sourceExhausted other)
    (hsupply : supply w (update feeds (inner source) feed))
    (hserves : changed.Serves supply stream.sourceRefillBatchSize (inner source))
    (hfed : changed.Fed (next.telemetry.sourceExhausted source) feed taken (lists source)) :
    Feeding supply lists inner next w (update feeds (inner source) feed)
      (update front source taken) := by
  refine ⟨hsupply, h.injective, hsize ▸ h.size_pos, fun other => ?_, fun other => ?_⟩ <;>
    rw [hsources] <;> by_cases hne : other = source
  · subst hne
    rwa [update_self, hsize]
  · rw [update_of_ne hne, hsize]
    exact h.serves other
  · subst hne
    rwa [update_self, update_self, update_self]
  · rw [update_of_ne hne, update_of_ne hne, hnoted other hne,
      update_of_ne fun heq => hne (h.injective heq)]
    exact h.fed other

/-- Feeds outside the merged ones are unchanged. -/
def SameElsewhere (inner : Fin m → κ) (before after : κ → Feed (ExactScoredIdentity Id S)) : Prop :=
  ∀ k, (∀ source, inner source ≠ k) → after k = before k

omit [LinearOrder Id] [Score S] h in
theorem sameElsewhere_update (feeds : κ → Feed (ExactScoredIdentity Id S)) (source : Fin m)
    (feed : Feed (ExactScoredIdentity Id S)) :
    SameElsewhere inner feeds (update feeds (inner source) feed) :=
  fun _ hk => update_of_ne (hk source).symm ..

/-- The merges agree on everything but their sources. -/
def SameMerge (before after : KWayExactScoreStream V Id S m) : Prop :=
  after = { before with sources := after.sources }

/-- A source that has returned nothing has ended. -/
def noteEnd (source : Fin m) (stream : KWayExactScoreStream V Id S m) :
    Option (ExactScoredIdentity Id S) → KWayExactScoreStream V Id S m
  | none => stream.markExhausted source
  | some _ => stream

omit [LinearOrder Id] [Score S] in
/-- Removing the first point of a batched source's buffer takes that point; an empty
buffer means the end of the source. -/
theorem Feeding.popBuffer {pull : ExactScoreBatchStream V Id S}
    {points : List (ExactScoredIdentity Id S)} {exhausted : Bool}
    {feed : Feed (ExactScoredIdentity Id S)}
    (hserves : (ExactScoreSource.batch pull points exhausted).Serves supply
      stream.sourceRefillBatchSize (inner source))
    (hnoted : stream.telemetry.sourceExhausted source = false)
    (hsupply : supply w (Function.update feeds (inner source) feed))
    (hfed : (ExactScoreSource.batch pull points exhausted).Fed false feed (front source)
      (lists source))
    (hempty : points = [] → exhausted = true) :
    Feeding supply lists inner
      ((stream.popBuffer source pull points exhausted).noteEnd source points.head?) w
      (Function.update feeds (inner source) feed)
      (Function.update front source (front source ++ points.head?.toList)) := by
  cases points with
  | nil =>
    obtain rfl := hempty rfl
    have hrest := hfed.rest_eq_nil rfl
    rw [head?_nil, Option.toList_none, append_nil]
    exact h.update _ (.batch pull [] true) _ rfl rfl (fun other hne => update_of_ne hne ..)
      hsupply hserves ⟨hfed.taken_eq, hfed.list_eq, nofun, fun _ => hrest, fun _ => ⟨rfl, hrest⟩⟩
  | cons point points =>
    have hkept : ((stream.popBuffer source pull (point :: points) exhausted).noteEnd source
        (some point)).telemetry.sourceExhausted source = false := hnoted
    refine h.update _ (.batch pull points exhausted) _ rfl rfl (fun _ _ => rfl) hsupply hserves
      ⟨?_, ?_, hfed.open_of_pullable, hfed.rest_eq_nil, by simp [hkept]⟩
    · simpa [ExactScoreSource.buffer] using hfed.taken_eq
    · simpa [ExactScoreSource.buffer] using hfed.list_eq

variable [ToString Id]

/-- Taking from a source that has not ended rejects a pulled batch, or takes the next point,
unless the source ends. -/
theorem Feeding.takePoint_cases {source : Fin m}
    (hnoted : stream.telemetry.sourceExhausted source = false) :
    (∃ error w batch rest, stream.takePoint source v = (.error error, stream, w) ∧
      front source ++ batch.points ++ rest = lists source ∧
      batch.points.length ≤ stream.sourceRefillBatchSize ∧
      (batch.points = [] → batch.exhausted = true) ∧
      stream.checkBatch source batch = .error error) ∨
    ∃ point next w feeds', stream.takePoint source v = (.ok point, next, w) ∧
      SameMerge stream next ∧ SameElsewhere inner feeds feeds' ∧
      Feeding supply lists inner (next.noteEnd source point) w feeds'
        (Function.update front source (front source ++ point.toList)) := by
  have hserves := h.serves source
  have hfed := h.fed source
  rw [hnoted] at hfed
  cases hsource : stream.sources source with
  | point pull =>
    have hself : stream.sources = Function.update stream.sources source (.point pull) := by
      rw [← hsource, update_eq_self]
    rw [hsource] at hserves hfed
    have hlist := hfed.list_eq
    have htaken := hfed.taken_eq
    obtain ⟨hnext, hend⟩ := hserves v feeds h.supplied (hfed.open_of_pullable rfl)
    cases hrest : (feeds (inner source)).rest with
    | nil =>
      obtain ⟨w, hpull, hsupply⟩ := hend hrest
      rw [hrest] at hlist
      have hnoted' : (stream.markExhausted source).telemetry.sourceExhausted source = true :=
        Function.update_self ..
      exact Or.inr ⟨none, stream, w, _, by simp only [takePoint, hsource, hpull], rfl,
        sameElsewhere_update feeds source _, h.update (stream.markExhausted source) _ _ rfl hself
          (fun other hne => Function.update_of_ne hne ..) hsupply hserves
          ⟨by simpa [ExactScoreSource.buffer] using htaken,
            by simpa [ExactScoreSource.buffer] using hlist,
            by simp [hnoted', ExactScoreSource.pullable], fun _ => rfl, fun _ => ⟨rfl, rfl⟩⟩⟩
    | cons point rest =>
      obtain ⟨w, hpull, hsupply⟩ := hnext point rest hrest
      rw [hrest] at hlist
      exact Or.inr ⟨some point, stream, w, _, by simp only [takePoint, hsource, hpull], rfl,
        sameElsewhere_update feeds source _, h.update stream _ _ rfl hself (fun _ _ => rfl) hsupply
          hserves ⟨by simpa [ExactScoreSource.buffer] using htaken,
            by simpa [ExactScoreSource.buffer] using hlist, fun _ => rfl,
            by simp [ExactScoreSource.pullable, hnoted], by simp [hnoted]⟩⟩
  | batch pull buffer exhausted =>
    rw [hsource] at hserves hfed
    simp only [takePoint, hsource]
    by_cases hpulling : (buffer.isEmpty && !exhausted) = true
    · rw [if_pos hpulling]
      simp only [Bool.and_eq_true, List.isEmpty_iff, Bool.not_eq_true'] at hpulling
      obtain ⟨rfl, rfl⟩ := hpulling
      obtain ⟨batch, rest, w, hpull, _, hbatch, hsize, hlast, hempty, hsupply⟩ :=
        hserves v feeds h.supplied (hfed.open_of_pullable rfl)
      have hlist := hfed.list_eq
      have htaken := hfed.taken_eq
      dsimp only [ExactScoreSource.buffer] at hlist htaken
      rw [append_nil] at hlist htaken
      have hsplit : front source ++ batch.points ++ rest = lists source := by
        rw [append_assoc, ← hbatch, hlist]
      rw [hpull]
      dsimp only
      cases hcheck : stream.checkBatch source batch with
      | error error => exact Or.inl ⟨error, w, batch, rest, rfl, hsplit, hsize, hempty, hcheck⟩
      | ok _ =>
        rw [htaken] at hsupply
        have hfed : (ExactScoreSource.batch pull batch.points batch.exhausted).Fed false
            ⟨front source ++ batch.points, rest, batch.exhausted⟩ (front source) (lists source) :=
          ⟨rfl, hsplit, by simp [ExactScoreSource.pullable],
            by simpa [ExactScoreSource.pullable] using hlast, by simp⟩
        exact Or.inr ⟨_, stream.popBuffer .., w, _, rfl, rfl, sameElsewhere_update feeds source _,
          h.popBuffer hserves hnoted hsupply hfed hempty⟩
    · rw [if_neg hpulling]
      have hsupply : supply v (Function.update feeds (inner source) (feeds (inner source))) := by
        rw [update_eq_self]
        exact h.supplied
      have hempty : buffer = [] → exhausted = true := by
        rintro rfl
        simpa using hpulling
      exact Or.inr ⟨_, stream.popBuffer .., v, _, rfl, rfl, sameElsewhere_update feeds source _,
        h.popBuffer hserves hnoted hsupply hfed hempty⟩

end Taking

section Validation

variable [ToString Id]

omit [DecidableEq κ] in
/-- A batch of finite scores that continues the order with new identities is accepted. -/
theorem validateBatch_eq_ok {source : Fin m} {seen : Finset Id}
    {points : List (ExactScoredIdentity Id S)} {previous : Option (ExactScoredIdentity Id S)}
    {batchIds : Finset Id} (hfinite : ∀ point ∈ points, Score.isFinite point.score = true)
    (hsorted : (previous.toList ++ points).Pairwise fun left right => left.key ≤ right.key)
    (hnodup : (points.map ExactScoredIdentity.id).Nodup)
    (hfresh : ∀ point ∈ points, point.id ∉ seen ∧ point.id ∉ batchIds) :
    validateBatch source seen previous batchIds points = .ok () := by
  induction points generalizing previous batchIds with
  | nil => rfl
  | cons point points ih =>
    obtain ⟨hpoint, hrest⟩ := nodup_cons.mp hnodup
    obtain ⟨hfirst, hpoints⟩ := forall_mem_cons.mp hfresh
    have horder : (previous.any fun previous => exactScoreOrder previous point = .gt) = false := by
      cases previous with
      | none => rfl
      | some previous =>
        have hle : previous.key ≤ point.key :=
          (pairwise_cons.mp hsorted).1 point (by simp)
        rw [Option.any_some, decide_eq_false_iff_not, exactScoreOrder_eq_gt, not_lt]
        exact hle
    rw [validateBatch]
    simp only [hfinite point (by simp), horder, hfirst.1, hfirst.2, Bool.not_true,
      Bool.false_eq_true, or_self, if_false]
    apply ih (fun p hp => hfinite p (mem_cons_of_mem _ hp)) _ hrest
    · grind
    · exact (pairwise_append.mp hsorted).2.1

end Validation

end KWayExactScoreStream

/-!
### Steps of a k-way merge

One step refills the source of the last returned point and returns the greatest head.
A step fails, finds that every source has ended, or returns a point that extends the
returned sequence in order. It fails only on lists that do not merge: lists out of
order, lists with non-finite scores, or lists that share an identity.
-/

private theorem pairwise_concat_of_getLast {α : Type} {R : α → α → Prop}
    (htrans : ∀ a b c, R a b → R b c → R a c) {l : List α} {x : α} (hl : l.Pairwise R)
    (hlast : ∀ y ∈ l.getLast?, R y x) : (l ++ [x]).Pairwise R := by
  rw [pairwise_append]
  refine ⟨hl, pairwise_singleton _ _, fun a ha b hb => ?_⟩
  obtain rfl := mem_singleton.mp hb
  rcases eq_nil_or_concat l with rfl | ⟨init, last, rfl⟩
  · simp at ha
  rw [concat_eq_append] at *
  have hx : R last b := hlast last (by simp)
  rcases mem_append.mp ha with ha | ha
  · exact htrans a last b ((pairwise_append.mp hl).2.2 a ha last (by simp)) hx
  · rwa [mem_singleton.mp ha]

private theorem flatMap_update_perm {α : Type} (f : Fin m → List α) (source : Fin m) (x : α) :
    ((finRange m).flatMap f ++ [x]).Perm
      ((finRange m).flatMap (update f source (f source ++ [x]))) := by
  have hsplit : update f source (f source ++ [x]) =
      fun other => f other ++ update (fun _ => []) source [x] other := by
    funext other
    by_cases hother : other = source
    · subst hother
      simp
    · simp [hother]
  have hsingle : ((finRange m).flatMap
      (update (fun _ => []) source [x] : Fin m → List α)).Perm [x] := by
    have hsource := perm_cons_erase (mem_finRange source)
    refine (hsource.flatMap_right _).trans ?_
    have hrest : ((finRange m).erase source).flatMap
        (update (fun _ => []) source [x] : Fin m → List α) = [] := by
      rw [flatMap_eq_nil_iff]
      intro other hother
      exact update_of_ne ((nodup_finRange m).mem_erase_iff.mp hother).1 ..
    rw [flatMap_cons, update_self, hrest, append_nil]
  rw [hsplit]
  exact (hsingle.symm.append_left _).trans (flatMap_append_perm _ _ _)

namespace KWayExactScoreStream

variable {supply : Supply V κ (ExactScoredIdentity Id S)}
  {lists past : Fin m → List (ExactScoredIdentity Id S)} {inner : Fin m → κ}
  {head : Fin m → Option (ExactScoredIdentity Id S)} {emitted : List (ExactScoredIdentity Id S)}
  {stream next : KWayExactScoreStream V Id S m} {v : V}
  {feeds : κ → Feed (ExactScoredIdentity Id S)}

/-- Every list is in order with finite scores, and no identity occurs twice. -/
structure Mergeable (lists : Fin m → List (ExactScoredIdentity Id S)) : Prop where
  finite : ∀ source, ∀ point ∈ lists source, Score.isFinite point.score = true
  sorted : ∀ source, (lists source).Pairwise fun left right => left.key ≤ right.key
  ids_nodup : (((finRange m).flatMap lists).map ExactScoredIdentity.id).Nodup

omit [DecidableEq κ] [LinearOrder Id] [Score S] in
/-- The lists consist of what has been returned and what is unread. -/
theorem flatMap_perm_append_unread {unread : Fin m → List (ExactScoredIdentity Id S)}
    (hemitted : emitted.Perm ((finRange m).flatMap past))
    (hunread : ∀ source, past source ++ unread source = lists source) :
    ((finRange m).flatMap lists).Perm (emitted ++ (finRange m).flatMap unread) := by
  have hlists : lists = fun source => past source ++ unread source :=
    funext fun source => (hunread source).symm
  rw [hlists]
  exact (flatMap_append_perm _ _ _).symm.trans (hemitted.symm.append_right _)

variable {source : Fin m}

omit [DecidableEq κ] in
/-- What has been returned and what a source has still to return share no identity. -/
theorem Mergeable.unread_ids_nodup (h : Mergeable lists)
    (hemitted : emitted.Perm ((finRange m).flatMap past))
    (hfront : ∀ source, past source <+: lists source) {unread : List (ExactScoredIdentity Id S)}
    (hunread : past source ++ unread = lists source) :
    ((emitted ++ unread).map ExactScoredIdentity.id).Nodup := by
  choose tail htail using hfront
  have htail_source : tail source = unread :=
    append_cancel_left ((htail source).trans hunread.symm)
  have hnodup := ((flatMap_perm_append_unread hemitted htail).map _).nodup_iff.mp h.ids_nodup
  have hsublist : unread.Sublist ((finRange m).flatMap tail) := by
    rw [← htail_source]
    exact sublist_flatten_of_mem (mem_map_of_mem (mem_finRange source))
  exact hnodup.sublist ((hsublist.append_left emitted).map _)

/-- What each source has put on the heap so far. -/
def frontOf (past : Fin m → List (ExactScoredIdentity Id S))
    (head : Fin m → Option (ExactScoredIdentity Id S)) (source : Fin m) :
    List (ExactScoredIdentity Id S) :=
  past source ++ (head source).toList

omit [DecidableEq κ] in
/-- The explanation of the heap only concerns the heap and the order checks. -/
theorem Heaped.congr (h : Heaped stream past head emitted)
    (herror : next.terminalError = stream.terminalError) (hpending : next.pending = stream.pending)
    (hprevious : next.previous = stream.previous) (hseen : next.seen = stream.seen)
    (hpoints : next.telemetry.pointsEmitted = stream.telemetry.pointsEmitted) :
    Heaped next past head emitted :=
  ⟨herror ▸ h.healthy, hpending ▸ h.pending_nodup, hpending ▸ h.mem_pending,
    hprevious ▸ h.previous_eq, h.finite, h.sorted, h.emitted_perm, hseen ▸ h.seen_eq,
    h.emitted_ids_nodup, h.emitted_sorted, h.emitted_le_head, hpoints ▸ h.pointsEmitted_eq⟩

/-- Putting a checked point of a source without a head on the heap. -/
theorem Heaped.pushHead (h : Heaped stream past head emitted) {point : ExactScoredIdentity Id S}
    (hnone : head source = none) (hfinite : Score.isFinite point.score = true)
    (horder : ∀ previous, stream.previous source = some previous → previous.key ≤ point.key)
    (hready : ∀ earlier ∈ emitted, ∃ last, (past source).getLast? = some last ∧
      earlier.key ≤ last.key) :
    Heaped (stream.pushHead source point) past (update head source (some point))
      emitted := by
  have hprevious : stream.previous source = (past source).getLast? := by
    rw [h.previous_eq, hnone, Option.toList_none, append_nil]
  refine ⟨h.healthy, ?_, ?_, ?_, ?_, ?_, h.emitted_perm, h.seen_eq, h.emitted_ids_nodup,
    h.emitted_sorted, ?_, h.pointsEmitted_eq⟩
  · refine nodup_cons.mpr ⟨fun hmem => ?_, h.pending_nodup⟩
    cases hnone.symm.trans ((h.mem_pending _).mp hmem)
  · rintro ⟨other, point'⟩
    change _ ∈ _ :: _ ↔ _
    rw [mem_cons, h.mem_pending, PendingExactScore.mk.injEq]
    grind
  · intro other
    by_cases hother : other = source
    · subst hother
      simp [pushHead]
    · simp [KWayExactScoreStream.pushHead, hother, h.previous_eq]
  · intro other
    by_cases hother : other = source
    · subst hother
      have hpast := h.finite other
      grind
    · simpa [hother] using h.finite other
  · intro other
    by_cases hother : other = source
    · subst hother
      have hpast := h.sorted other
      rw [hnone, Option.toList_none, append_nil] at hpast
      rw [update_self, Option.toList_some]
      have htrans : ∀ a b c : ExactScoredIdentity Id S, a.key ≤ b.key → b.key ≤ c.key →
          a.key ≤ c.key := fun _ _ _ => le_trans
      exact pairwise_concat_of_getLast htrans hpast
        fun last hlast => horder last (hprevious.trans hlast)
    · simpa [hother] using h.sorted other
  · intro other point' hhead earlier hearlier
    have hold := h.emitted_le_head other point'
    grind

omit [DecidableEq κ] [LinearOrder Id] [Score S] in
private theorem frontOf_update_head (hnone : head source = none)
    (point : ExactScoredIdentity Id S) :
    update (frontOf past head) source (frontOf past head source ++ [point]) =
      frontOf past (update head source (some point)) := by
  grind [frontOf]

omit [LinearOrder Id] [Score S] in
/-- What has been returned from a source begins its list. -/
theorem Feeding.past_prefix (h : Feeding supply lists inner stream v feeds (frontOf past head))
    (source : Fin m) : past source <+: lists source := by
  rw [← (h.fed source).list_eq, frontOf, append_assoc, append_assoc]
  exact prefix_append ..

/-- A batch that continues lists that merge is accepted. -/
theorem Mergeable.checkBatch_eq_ok [ToString Id] (h : Mergeable lists)
    (hfeeding : Feeding supply lists inner stream v feeds (frontOf past head))
    (hheaped : Heaped stream past head emitted) (hnone : head source = none)
    {batch : ExactScoreBatch Id S} {rest : List (ExactScoredIdentity Id S)}
    (hbatch : frontOf past head source ++ batch.points ++ rest = lists source)
    (hsize : batch.points.length ≤ stream.sourceRefillBatchSize)
    (hempty : batch.points = [] → batch.exhausted = true) :
    stream.checkBatch source batch = .ok () := by
  rw [frontOf, hnone, Option.toList_none, append_nil, append_assoc] at hbatch
  have hprevious : stream.previous source = (past source).getLast? := by
    rw [hheaped.previous_eq, hnone, Option.toList_none, append_nil]
  have hlast : ((past source).getLast?).toList.Sublist (past source) := by
    grind
  have hnodup := h.unread_ids_nodup hheaped.emitted_perm hfeeding.past_prefix hbatch
  rw [← append_assoc, map_append] at hnodup
  have hnodup := (nodup_append.mp hnodup).1
  rw [map_append, nodup_append] at hnodup
  have hnonempty : (batch.points.isEmpty && !batch.exhausted) = false := by
    by_cases hnil : batch.points = []
    · simp [hempty hnil]
    · simp [hnil]
  unfold checkBatch
  rw [if_neg (by omega), hnonempty, if_neg (by simp)]
  apply validateBatch_eq_ok
  · intro point hpoint
    exact h.finite source point (by rw [← hbatch]; simp [hpoint])
  · have hsorted := h.sorted source
    rw [← hbatch] at hsorted
    rw [hprevious]
    exact hsorted.sublist (hlast.append (sublist_append_left ..))
  · exact hnodup.2.1
  intro point hpoint
  refine ⟨fun hseen => ?_, by simp⟩
  rw [hheaped.seen_eq, mem_toFinset] at hseen
  exact hnodup.2.2 _ hseen _ (mem_map_of_mem hpoint) rfl

/-- A refill fails on lists that do not merge, notes the end of the source, or puts its
next point on the heap. -/
theorem refill_cases [ToString Id]
    (hfeeding : Feeding supply lists inner stream v feeds (frontOf past head))
    (hheaped : Heaped stream past head emitted) (hnone : head source = none)
    (hready : ∀ earlier ∈ emitted, ∃ last, (past source).getLast? = some last ∧
      earlier.key ≤ last.key) :
    (∃ error next w, stream.refill source v = (.error error, next, w) ∧ ¬Mergeable lists) ∨
    (∃ next w feeds' head', stream.refill source v = (.ok (), next, w) ∧
      Feeding supply lists inner next w feeds' (frontOf past head') ∧
      Heaped next past head' emitted ∧ SameElsewhere inner feeds feeds' ∧
      next.refillSource = stream.refillSource ∧
      (∀ other, other ≠ source → head' other = head other ∧
        next.telemetry.sourceExhausted other = stream.telemetry.sourceExhausted other) ∧
      (head' source = none → next.telemetry.sourceExhausted source = true)) := by
  unfold refill
  cases hnoted : stream.telemetry.sourceExhausted source with
  | true =>
    exact Or.inr ⟨stream, v, feeds, head, rfl, hfeeding, hheaped, fun _ _ => rfl, rfl,
      fun _ _ => ⟨rfl, rfl⟩, fun _ => hnoted⟩
  | false =>
    simp only [Bool.false_eq_true, if_false]
    rcases hfeeding.takePoint_cases hnoted with
      ⟨error, w, batch, rest, htake, hbatch, hsize, hempty, hcheck⟩ |
      ⟨point, next, w, feeds', htake, hsame, helsewhere, hfeeding'⟩
    · refine Or.inl ⟨error, stream, w, by rw [htake], fun hmerge => ?_⟩
      rw [hmerge.checkBatch_eq_ok hfeeding hheaped hnone hbatch hsize hempty] at hcheck
      cases hcheck
    have hheaped' : Heaped next past head emitted := by
      rw [hsame]
      exact hheaped.congr rfl rfl rfl rfl rfl
    rw [htake]
    cases point with
    | none =>
      rw [Option.toList_none, append_nil, update_eq_self] at hfeeding'
      refine Or.inr ⟨next.markExhausted source, w, feeds', head, rfl, hfeeding',
        hheaped'.congr rfl rfl rfl rfl rfl, helsewhere, ?_, ?_, fun _ => update_self ..⟩
      · rw [hsame]
        rfl
      · intro other hother
        rw [hsame]
        exact ⟨rfl, update_of_ne hother ..⟩
    | some point =>
    dsimp only
    rw [Option.toList_some] at hfeeding'
    have hfront : past source ++ [point] <+: lists source := by
      have hlist := (hfeeding'.fed source).list_eq
      rw [update_self, frontOf, hnone, Option.toList_none, append_nil, append_assoc] at hlist
      exact ⟨_, hlist⟩
    have hlast : next.previous source = (past source).getLast? := by
      rw [hheaped'.previous_eq, hnone, Option.toList_none, append_nil]
    cases hfinite : Score.isFinite point.score with
    | false =>
      refine Or.inl ⟨_, _, _, if_pos rfl, fun hmerge => ?_⟩
      have htrue := hmerge.finite source point (hfront.subset (by simp))
      rw [hfinite] at htrue
      cases htrue
    | true =>
      by_cases horder : (next.previous source).any
          (fun previous => exactScoreOrder previous point = .gt) = true
      · refine Or.inl ⟨_, _, _, if_pos horder, fun hmerge => ?_⟩
        rw [Option.any_eq_true] at horder
        obtain ⟨previous, hsome, hgt⟩ := horder
        rw [decide_eq_true_eq, exactScoreOrder_eq_gt] at hgt
        have hmem : previous ∈ past source := mem_of_getLast? (hlast.symm.trans hsome)
        have hle := (pairwise_append.mp
          ((hmerge.sorted source).sublist hfront.sublist)).2.2 previous hmem point (by simp)
        exact absurd hgt (not_lt.mpr hle)
      rw [if_neg horder]
      have hprevious : ∀ previous, next.previous source = some previous →
          previous.key ≤ point.key := by
        intro previous hsome
        rw [hsome, Option.any_some, decide_eq_true_eq, exactScoreOrder_eq_gt, not_lt] at horder
        exact horder
      rw [frontOf_update_head hnone] at hfeeding'
      refine Or.inr ⟨next.pushHead source point, w, feeds', _, rfl, ⟨hfeeding'.supplied,
        hfeeding'.injective, hfeeding'.size_pos, hfeeding'.serves, hfeeding'.fed⟩,
        hheaped'.pushHead hnone hfinite hprevious hready, helsewhere, ?_, ?_, ?_⟩
      · rw [hsame]
        rfl
      · intro other hother
        rw [hsame]
        exact ⟨update_of_ne hother .., rfl⟩
      · intro hhead
        simp at hhead

omit [DecidableEq κ] in
/-- The heap order is the reverse of the order of keys and then sources. -/
theorem PendingExactScore_cmp_eq (a b : PendingExactScore Id S m) :
    a.cmp b = compare (toLex (b.point.key, b.source)) (toLex (a.point.key, a.source)) := rfl

/-- Returning the greatest head. -/
theorem Heaped.pop (h : Heaped stream past head emitted) {entry : PendingExactScore Id S m}
    {rest : List (PendingExactScore Id S m)}
    (hpop : popMax PendingExactScore.cmp stream.pending = some (entry, rest))
    (hfresh : entry.point.id ∉ stream.seen) (herror : next.terminalError = none)
    (hpending : next.pending = rest) (hprevious : next.previous = stream.previous)
    (hseen : next.seen = insert entry.point.id stream.seen)
    (hpoints : next.telemetry.pointsEmitted = stream.telemetry.pointsEmitted + 1) :
    Heaped next (update past entry.source (past entry.source ++ [entry.point]))
      (update head entry.source none) (emitted ++ [entry.point]) := by
  have hperm := popMax_perm hpop
  have hnodup := hperm.nodup_iff.mp h.pending_nodup
  obtain ⟨hentry, hrest⟩ := nodup_cons.mp hnodup
  have hhead : head entry.source = some entry.point :=
    (h.mem_pending entry).mp (hperm.mem_iff.mpr (by simp))
  have hfront : ∀ source,
      update past entry.source (past entry.source ++ [entry.point]) source ++
        (update head entry.source none source).toList =
      past source ++ (head source).toList := by
    grind
  have hleast : ∀ source point, source ≠ entry.source → head source = some point →
      entry.point.key ≤ point.key := by
    intro source point hne hsome
    have hmem : (⟨source, point⟩ : PendingExactScore Id S m) ∈ rest := by
      have hall := hperm.mem_iff.mp ((h.mem_pending ⟨source, point⟩).mpr hsome)
      refine (mem_cons.mp hall).resolve_left fun heq => hne ?_
      rw [← heq]
    have hle := popMax_key_le (fun a b => PendingExactScore_cmp_eq a b) hpop _ hmem
    rw [Prod.Lex.toLex_le_toLex] at hle
    rcases hle with hlt | ⟨heq, _⟩
    · exact hlt.le
    · exact heq.le
  refine ⟨herror, hpending ▸ hrest, ?_, ?_, ?_, ?_, ?_, ?_, ?_, ?_, ?_, ?_⟩
  · intro other
    have hsplit := hperm.mem_iff (a := other)
    rw [h.mem_pending, mem_cons] at hsplit
    obtain ⟨source, point⟩ := entry
    obtain ⟨otherSource, otherPoint⟩ := other
    grind
  · intro source
    rw [hprevious, hfront, h.previous_eq]
  · intro source
    rw [hfront]
    exact h.finite source
  · intro source
    rw [hfront]
    exact h.sorted source
  · exact (h.emitted_perm.append_right _).trans (flatMap_update_perm past entry.source _)
  · rw [hseen, h.seen_eq]
    simp
  · rw [map_append, nodup_append]
    rw [h.seen_eq, mem_toFinset] at hfresh
    exact ⟨h.emitted_ids_nodup, by simp, by grind⟩
  · rw [pairwise_append]
    refine ⟨h.emitted_sorted, pairwise_singleton _ _, fun earlier hearlier last hlast => ?_⟩
    rw [mem_singleton.mp hlast]
    exact h.emitted_le_head entry.source entry.point hhead earlier hearlier
  · intro source point hsome earlier hearlier
    have hold := h.emitted_le_head source point
    grind
  · rw [hpoints, h.pointsEmitted_eq, length_append, length_singleton]

/-- The merge has returned `emitted` of the lists its sources serve. Every source without
a head has ended, or is the one to be refilled next. -/
structure Merging (supply : Supply V κ (ExactScoredIdentity Id S))
    (lists : Fin m → List (ExactScoredIdentity Id S)) (inner : Fin m → κ)
    (stream : KWayExactScoreStream V Id S m) (v : V) (feeds : κ → Feed (ExactScoredIdentity Id S))
    (past : Fin m → List (ExactScoredIdentity Id S))
    (head : Fin m → Option (ExactScoredIdentity Id S))
    (emitted : List (ExactScoredIdentity Id S)) : Prop where
  feeding : Feeding supply lists inner stream v feeds (frontOf past head)
  heaped : Heaped stream past head emitted
  primed : ∀ source, head source = none →
    stream.refillSource = some source ∨ stream.telemetry.sourceExhausted source = true
  ready : ∀ source, stream.refillSource = some source → head source = none ∧
    ∀ earlier ∈ emitted, ∃ last, (past source).getLast? = some last ∧ earlier.key ≤ last.key

variable [ToString Id]

section

variable (h : Merging supply lists inner stream v feeds past head emitted)

include h

/-- Refilling the source of the last returned point fails or leaves no source to refill. -/
theorem Merging.refillLast_cases :
    (∃ error next w, stream.refillLast v = (.error error, next, w) ∧ ¬Mergeable lists) ∨
    (∃ next w feeds' head', stream.refillLast v = (.ok (), next, w) ∧
      Merging supply lists inner next w feeds' past head' emitted ∧
      next.refillSource = none ∧ SameElsewhere inner feeds feeds') := by
  unfold refillLast
  cases hrefill : stream.refillSource with
  | none => exact Or.inr ⟨stream, v, feeds, head, rfl, h, hrefill, fun _ _ => rfl⟩
  | some source =>
    obtain ⟨hnone, hready⟩ := h.ready source hrefill
    have hf := h.feeding
    have hfeeding : Feeding supply lists inner { stream with refillSource := none } v feeds
        (frontOf past head) :=
      ⟨hf.supplied, hf.injective, hf.size_pos, hf.serves, hf.fed⟩
    have hheaped : Heaped { stream with refillSource := none } past head emitted :=
      h.heaped.congr rfl rfl rfl rfl rfl
    rcases refill_cases hfeeding hheaped hnone hready with ⟨error, next, w, hrun, hbad⟩ |
      ⟨next, w, feeds', head', hrun, hfeeding', hheaped', helsewhere, hnext, hothers, hself⟩
    · exact Or.inl ⟨error, next, w, hrun, hbad⟩
    refine Or.inr ⟨next, w, feeds', head', hrun, ⟨hfeeding', hheaped', ?_, ?_⟩, hnext, helsewhere⟩
    · intro other hother
      have hprimed := h.primed other
      grind
    · intro other hother
      rw [hnext] at hother
      cases hother

omit [ToString Id] in
/-- The head of a source has not been returned when the lists merge. -/
theorem Merging.head_id_not_mem (hmerge : Mergeable lists) {point : ExactScoredIdentity Id S}
    (hhead : head source = some point) : point.id ∉ emitted.map ExactScoredIdentity.id := by
  have hlist := (h.feeding.fed source).list_eq
  rw [frontOf, hhead, Option.toList_some, append_assoc, append_assoc] at hlist
  have hnodup := hmerge.unread_ids_nodup h.heaped.emitted_perm h.feeding.past_prefix hlist
  rw [map_append, nodup_append] at hnodup
  intro hmem
  exact hnodup.2.2 _ hmem _ (mem_map_of_mem (mem_append_left _ (by simp))) rfl

omit [ToString Id] in
/-- Returning the greatest head makes its source the one to be refilled. -/
theorem Merging.pop (hnone : stream.refillSource = none) {entry : PendingExactScore Id S m}
    {rest : List (PendingExactScore Id S m)}
    (hpop : popMax PendingExactScore.cmp stream.pending = some (entry, rest))
    (hfresh : entry.point.id ∉ stream.seen) (hhead : head entry.source = some entry.point) :
    Merging supply lists inner
      { stream with
        pending := rest
        refillSource := some entry.source
        seen := insert entry.point.id stream.seen
        telemetry := { stream.telemetry with
          pointsEmitted := stream.telemetry.pointsEmitted + 1 } }
      v feeds (update past entry.source (past entry.source ++ [entry.point]))
      (update head entry.source none) (emitted ++ [entry.point]) := by
  have hfront : frontOf (update past entry.source (past entry.source ++ [entry.point]))
      (update head entry.source none) = frontOf past head := by
    grind [frontOf]
  have hf := h.feeding
  refine ⟨?_, h.heaped.pop hpop hfresh h.heaped.healthy rfl rfl rfl rfl, ?_, ?_⟩
  · rw [hfront]
    exact ⟨hf.supplied, hf.injective, hf.size_pos, hf.serves, hf.fed⟩
  · intro source hsource
    have hprimed := h.primed source
    grind
  · intro source hsource
    obtain rfl : entry.source = source := Option.some.inj hsource
    refine ⟨update_self .., fun earlier hearlier => ⟨entry.point, ?_, ?_⟩⟩
    · rw [update_self, getLast?_concat]
    · rcases mem_append.mp hearlier with hearlier | hearlier
      · exact h.heaped.emitted_le_head _ _ hhead earlier hearlier
      · rw [mem_singleton.mp hearlier]

/-- One step of the merge fails on lists that do not merge, or returns a point that extends the
returned sequence, unless every source has ended and been returned. -/
theorem Merging.nextInner_cases :
    (∃ error next w, stream.nextInner v = (.error error, next, w) ∧ ¬Mergeable lists) ∨
    ∃ point next w feeds' past' head', stream.nextInner v = (.ok point, next, w) ∧
      Merging supply lists inner next w feeds' past' head' (emitted ++ point.toList) ∧
      (point = none → past' = lists) ∧ SameElsewhere inner feeds feeds' := by
  unfold nextInner
  rcases h.refillLast_cases with ⟨error, next, w, hrefill, hbad⟩ |
    ⟨mid, w, feeds', head', hrefill, hmid, hnone, helsewhere⟩
  · exact Or.inl ⟨error, next, w, by rw [hrefill], hbad⟩
  rw [hrefill]
  dsimp only
  cases hpop : popMax PendingExactScore.cmp mid.pending with
  | none =>
    rw [← append_nil emitted] at hmid
    refine Or.inr ⟨none, mid, w, feeds', past, head', rfl, hmid, fun _ => ?_, helsewhere⟩
    have hempty := popMax_eq_none.mp hpop
    funext source
    have hhead : head' source = none := by
      cases hsome : head' source with
      | none => rfl
      | some point =>
        have hmem := (hmid.heaped.mem_pending ⟨source, point⟩).mpr hsome
        rw [hempty] at hmem
        cases hmem
    have hexhausted := (hmid.primed source hhead).resolve_left (by rw [hnone]; simp)
    have hfed := hmid.feeding.fed source
    obtain ⟨hbuffer, hrest⟩ := hfed.drained hexhausted
    have hlist := hfed.list_eq
    rw [hbuffer, hrest, frontOf, hhead] at hlist
    simpa using hlist
  | some popped =>
    obtain ⟨entry, rest⟩ := popped
    dsimp only
    have hhead : head' entry.source = some entry.point :=
      (hmid.heaped.mem_pending entry).mp ((popMax_perm hpop).mem_iff.mpr (by simp))
    by_cases hseen : entry.point.id ∈ mid.seen
    · refine Or.inl ⟨_, _, _, if_pos hseen, fun hmerge => ?_⟩
      rw [hmid.heaped.seen_eq, mem_toFinset] at hseen
      exact hmid.head_id_not_mem hmerge hhead hseen
    · rw [if_neg hseen]
      exact Or.inr ⟨some entry.point, _, w, feeds', _, _, rfl, hmid.pop hnone hpop hseen hhead,
        nofun, helsewhere⟩

end

end KWayExactScoreStream

end Stratumind
