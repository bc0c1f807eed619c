import Stratumind.Sparse.PostingList

/-!
# The buffer of the largest scores

`TopK` of `top_k.rs` collects up to twice as many points as are asked for, then keeps the
larger half and rejects from then on what is not above the least score it kept. Points are
compared by score only and the sorts of the standard library are unstable, so which of
several points with one score stays is left open: sorting and selection are parameters with
their documented behaviour.
-/

namespace Stratumind

open Lib List

variable {S : Type}

/-- `sort_unstable` and `select_nth_unstable` of points in descending order of score. -/
class UnstableSort (S : Type) [LinearOrder S] where
  sortUnstable : List (ScoredPointOffset S) → List (ScoredPointOffset S)
  sort_perm : ∀ points, (sortUnstable points).Perm points
  sort_descending : ∀ points, (sortUnstable points).Pairwise fun a b => b.score ≤ a.score
  selectNthUnstable : ℕ → List (ScoredPointOffset S) → List (ScoredPointOffset S)
  select_perm : ∀ index points, (selectNthUnstable index points).Perm points
  /-- Nothing before the selected point is smaller, nothing after it is greater. -/
  select_split : ∀ index points selected, (selectNthUnstable index points)[index]? = some selected →
    (∀ point ∈ (selectNthUnstable index points).take index, selected.score ≤ point.score) ∧
    ∀ point ∈ (selectNthUnstable index points).drop (index + 1), point.score ≤ selected.score

/-- Descending scores. -/
def scoreKey (point : ScoredPointOffset S) : Sᵒᵈ := OrderDual.toDual point.score

/-- Insertion sort, used for both. -/
instance [LinearOrder S] : UnstableSort S where
  sortUnstable points := rankBy scoreKey points
  sort_perm points := rankBy_perm points
  sort_descending points := rankBy_pairwise scoreKey points
  selectNthUnstable _ points := rankBy scoreKey points
  select_perm _ points := rankBy_perm points
  select_split := by
    intro index points selected hselected
    have hsorted := rankBy_pairwise scoreKey points
    obtain ⟨before, after, hsplit, rfl⟩ := exists_split_of_getElem? hselected
    rw [hsplit] at hsorted ⊢
    obtain ⟨_, hright, hcross⟩ := pairwise_append.mp hsorted
    rw [take_left, drop_append, drop_eq_nil_of_le (by omega), nil_append]
    constructor
    · intro point hpoint
      exact hcross point hpoint selected mem_cons_self
    · intro point hpoint
      exact (pairwise_cons.mp hright).1 point (by simpa using hpoint)

/-- Keeps the largest `k` points. -/
structure TopK (S : Type) where
  k : ℕ
  elements : List (ScoredPointOffset S)
  /-- `ScoreType::MIN` at first, which is below every score. -/
  threshold : WithBot S

namespace TopK

def new (k : ℕ) : TopK S := ⟨k, [], ⊥⟩

def len (topK : TopK S) : ℕ := topK.elements.length

variable [LinearOrder S] [UnstableSort S]

/-- Takes a point above the threshold; a full buffer is cut to its larger half. -/
def push (topK : TopK S) (element : ScoredPointOffset S) : TopK S :=
  if topK.threshold < element.score then
    let elements := topK.elements ++ [element]
    if elements.length = topK.k * 2 then
      let selected := UnstableSort.selectNthUnstable (topK.k - 1) elements
      { topK with
        threshold := (selected[topK.k - 1]?.map fun median => (median.score : WithBot S)).getD ⊥
        elements := selected.take topK.k }
    else { topK with elements }
  else topK

/-- The largest points in descending order. -/
def intoVec (topK : TopK S) : List (ScoredPointOffset S) :=
  (UnstableSort.sortUnstable topK.elements).take topK.k

/-- The buffer is not full, what it holds is not below the threshold, and a threshold is only
set while enough points are held. -/
structure Sound (topK : TopK S) : Prop where
  pos : 0 < topK.k
  room : topK.elements.length < topK.k * 2
  above : ∀ point ∈ topK.elements, topK.threshold ≤ point.score
  enough : topK.threshold = ⊥ ∨ topK.k ≤ topK.elements.length

/-- A point is either held or not above the threshold. -/
def Accounts (topK : TopK S) (point : ScoredPointOffset S) : Prop :=
  point ∈ topK.elements ∨ (point.score : WithBot S) ≤ topK.threshold

/-- What pushing points does to the buffer: what is not held any more is not above the threshold. -/
structure Takes (topK : TopK S) (points : List (ScoredPointOffset S)) (next : TopK S) : Prop where
  k_eq : next.k = topK.k
  sound : next.Sound
  threshold_le : topK.threshold ≤ next.threshold
  dropped : ∃ dropped, (next.elements ++ dropped).Perm (topK.elements ++ points) ∧
    ∀ point ∈ dropped, (point.score : WithBot S) ≤ next.threshold

omit [UnstableSort S] in
theorem sound_new {k : ℕ} (hk : 0 < k) : (new k : TopK S).Sound :=
  ⟨hk, by simpa [new] using hk, by simp [new], Or.inl rfl⟩

variable {topK : TopK S}

section

variable {next : TopK S} {points : List (ScoredPointOffset S)} (h : topK.Takes points next)

include h

omit [UnstableSort S]

theorem Takes.accounts (point : ScoredPointOffset S)
    (hpoint : topK.Accounts point ∨ point ∈ points) : next.Accounts point := by
  obtain ⟨dropped, hperm, hdropped⟩ := h.dropped
  have hmem : point ∈ topK.elements ++ points → next.Accounts point := fun hmem =>
    (mem_append.mp (hperm.mem_iff.mpr hmem)).imp_right (hdropped point)
  rcases hpoint with (hpoint | hpoint) | hpoint
  · exact hmem (mem_append_left _ hpoint)
  · exact Or.inr (hpoint.trans h.threshold_le)
  · exact hmem (mem_append_right _ hpoint)

theorem Takes.elements_subperm : next.elements.Subperm (topK.elements ++ points) := by
  obtain ⟨dropped, hperm, -⟩ := h.dropped
  exact (sublist_append_left _ _).subperm.trans hperm.subperm

/-- One list of points after the other. -/
theorem Takes.trans {last : TopK S} {more : List (ScoredPointOffset S)}
    (h' : next.Takes more last) : topK.Takes (points ++ more) last := by
  obtain ⟨dropped, hperm, hdropped⟩ := h.dropped
  obtain ⟨later, hlater, hlaterDropped⟩ := h'.dropped
  refine ⟨h'.k_eq.trans h.k_eq, h'.sound, h.threshold_le.trans h'.threshold_le, later ++ dropped,
    ?_, forall_mem_append.mpr ⟨hlaterDropped, fun point hpoint =>
      (hdropped point hpoint).trans h'.threshold_le⟩⟩
  calc last.elements ++ (later ++ dropped)
    _ = last.elements ++ later ++ dropped := (append_assoc ..).symm
    _ ~ next.elements ++ more ++ dropped := hlater.append_right dropped
    _ ~ next.elements ++ dropped ++ more := by
        rw [append_assoc, append_assoc]
        exact perm_append_comm.append_left _
    _ ~ topK.elements ++ points ++ more := hperm.append_right more
    _ = topK.elements ++ (points ++ more) := append_assoc ..

end

/-- A point that is not above the threshold changes nothing. -/
theorem push_of_le {element : ScoredPointOffset S}
    (h : (element.score : WithBot S) ≤ topK.threshold) : topK.push element = topK :=
  if_neg (not_lt.mpr h)

/-- Cutting a full buffer keeps the larger half and accounts for the rest. -/
private theorem takes_cut (h : topK.Sound) {element : ScoredPointOffset S}
    (habove : topK.threshold < element.score)
    (hfull : (topK.elements ++ [element]).length = topK.k * 2) :
    topK.Takes [element] (topK.push element) := by
  have hpush : topK.push element = { topK with
      threshold := ((UnstableSort.selectNthUnstable (topK.k - 1) (topK.elements ++ [element]))[
        topK.k - 1]?.map fun median => (median.score : WithBot S)).getD ⊥
      elements := (UnstableSort.selectNthUnstable (topK.k - 1)
        (topK.elements ++ [element])).take topK.k } :=
    (if_pos habove).trans (if_pos hfull)
  have hperm := UnstableSort.select_perm (topK.k - 1) (topK.elements ++ [element])
  have hsplit := UnstableSort.select_split (topK.k - 1) (topK.elements ++ [element])
  generalize UnstableSort.selectNthUnstable (topK.k - 1) (topK.elements ++ [element]) = selected
    at hpush hperm hsplit
  have hpos := h.pos
  have hlength : selected.length = topK.k * 2 := hperm.length_eq.trans hfull
  have hlt : topK.k - 1 < selected.length := by omega
  have hmedian := getElem?_eq_getElem hlt
  generalize selected[topK.k - 1] = median at hmedian
  obtain ⟨hbefore, hafter⟩ := hsplit median hmedian
  have hsucc : topK.k - 1 + 1 = topK.k := by omega
  rw [hsucc] at hafter
  rw [hmedian] at hpush
  rw [hpush]
  have hheld : ∀ point ∈ topK.elements ++ [element], topK.threshold ≤ point.score :=
    forall_mem_append.mpr ⟨h.above, forall_mem_singleton.mpr habove.le⟩
  have hkept : (selected.take topK.k).length = topK.k := by
    rw [length_take]
    omega
  refine ⟨rfl, ⟨hpos, ?_, ?_, Or.inr hkept.ge⟩,
    hheld median (hperm.mem_iff.mp (mem_of_getElem? hmedian)), selected.drop topK.k, ?_,
    fun point hpoint => WithBot.coe_le_coe.mpr (hafter point hpoint)⟩
  · dsimp only
    omega
  · intro point hpoint
    rw [← hsucc, take_add_one, hmedian] at hpoint
    rcases mem_append.mp hpoint with hpoint | hpoint
    · exact WithBot.coe_le_coe.mpr (hbefore point hpoint)
    · rw [mem_singleton.mp hpoint]
      exact le_rfl
  · rw [take_append_drop]
    exact hperm

/-- Pushing a point. -/
theorem Sound.takes_push (h : topK.Sound) (element : ScoredPointOffset S) :
    topK.Takes [element] (topK.push element) := by
  by_cases habove : topK.threshold < element.score
  · by_cases hfull : (topK.elements ++ [element]).length = topK.k * 2
    · exact takes_cut h habove hfull
    have hpush : topK.push element = { topK with elements := topK.elements ++ [element] } :=
      (if_pos habove).trans (if_neg hfull)
    have hroom := h.room
    rw [hpush]
    rw [length_append, length_singleton] at hfull
    refine ⟨rfl, ⟨h.pos, ?_, forall_mem_append.mpr ⟨h.above, forall_mem_singleton.mpr habove.le⟩,
      h.enough.imp_right fun henough => ?_⟩, le_rfl, [], by rw [append_nil], nofun⟩
    · dsimp only
      rw [length_append, length_singleton]
      omega
    · dsimp only
      rw [length_append]
      omega
  · have hle := not_lt.mp habove
    rw [push_of_le hle]
    exact ⟨rfl, h, le_rfl, [element], .refl _, forall_mem_singleton.mpr hle⟩

/-- Pushing points one after the other. -/
theorem Sound.takes_foldl (h : topK.Sound)
    (points : List (ScoredPointOffset S)) : topK.Takes points (points.foldl push topK) := by
  induction points generalizing topK with
  | nil => exact ⟨rfl, h, le_rfl, [], by rw [append_nil, append_nil, foldl_nil], nofun⟩
  | cons point points ih =>
    have hpush := h.takes_push point
    exact hpush.trans (ih hpush.sound)

/-- Without a threshold, a point is kept if there is room. -/
theorem push_of_room (hbot : topK.threshold = ⊥) {point : ScoredPointOffset S}
    (hroom : (topK.elements ++ [point]).length < topK.k * 2) :
    topK.push point = { topK with elements := topK.elements ++ [point] } := by
  have habove : topK.threshold < point.score := by
    rw [hbot]
    exact WithBot.bot_lt_coe _
  exact (if_pos habove).trans (if_neg hroom.ne)

/-- Without a threshold, points are kept as long as there is room. -/
theorem foldl_push_of_room (hbot : topK.threshold = ⊥) {points : List (ScoredPointOffset S)}
    (hroom : (topK.elements ++ points).length < topK.k * 2) :
    points.foldl push topK = { topK with elements := topK.elements ++ points } := by
  induction points generalizing topK with
  | nil => rw [append_nil, foldl_nil]
  | cons point points ih =>
    have hpush : topK.push point = { topK with elements := topK.elements ++ [point] } := by
      refine push_of_room hbot ?_
      simp only [length_append, length_cons, length_nil] at hroom ⊢
      omega
    grind

/-- The number of points that are above the threshold when they are pushed. -/
def acceptedCount (topK : TopK S) : List (ScoredPointOffset S) → ℕ
  | [] => 0
  | point :: points =>
    (if topK.threshold < point.score then 1 else 0) + acceptedCount (topK.push point) points

theorem threshold_of_acceptedCount (hbot : topK.threshold = ⊥) {points : List (ScoredPointOffset S)}
    (hroom : topK.elements.length + topK.acceptedCount points < topK.k * 2) :
    (points.foldl push topK).threshold = ⊥ := by
  induction points generalizing topK with
  | nil => exact hbot
  | cons point points ih =>
    have habove : topK.threshold < point.score := by
      rw [hbot]
      exact WithBot.bot_lt_coe _
    rw [acceptedCount, if_pos habove] at hroom
    have hpush : topK.push point = { topK with elements := topK.elements ++ [point] } := by
      refine push_of_room hbot ?_
      rw [length_append, length_singleton]
      omega
    refine ih (by rw [hpush]; exact hbot) ?_
    rw [hpush] at hroom ⊢
    simpa [Nat.add_assoc] using hroom

end TopK

section Largest

variable [LinearOrder S] [UnstableSort S] [Zero S]

/-- The scores of the list from the greatest to the least. -/
def descending (scores : List S) : List S := rankBy OrderDual.toDual scores

omit [UnstableSort S] [Zero S] in
@[simp] theorem descending_nil : descending ([] : List S) = [] := rfl

omit [UnstableSort S] [Zero S] in
/-- Scores in descending order followed by scores that are not greater. -/
theorem descending_eq_append {scores first others : List S} (hperm : (first ++ others).Perm scores)
    (hfirst : first.Pairwise fun a b => b ≤ a) (hle : ∀ a ∈ first, ∀ b ∈ others, b ≤ a) :
    descending scores = first ++ descending others := by
  have hothers : (descending others).Perm others := rankBy_perm others
  have hsorted := pairwise_append.mpr ⟨hfirst, rankBy_pairwise OrderDual.toDual others,
    fun a ha b hb => hle a ha b (hothers.mem_iff.mp hb)⟩
  have hscores : (descending scores).Pairwise fun a b => b ≤ a :=
    rankBy_pairwise OrderDual.toDual scores
  refine Perm.eq_of_pairwise' hscores hsorted ?_
  exact (rankBy_perm scores).trans (hperm.symm.trans (hothers.symm.append_left first))

omit [UnstableSort S] [Zero S] in
theorem descending_congr {scores others : List S} (hperm : scores.Perm others) :
    descending scores = descending others := by
  have h := @descending_eq_append S _ scores (descending others) []
    (by rw [append_nil]; exact (rankBy_perm others).trans hperm.symm)
    (rankBy_pairwise OrderDual.toDual others) (by simp)
  rwa [descending_nil, append_nil] at h

namespace TopK

omit [Zero S]

variable {topK : TopK S}

theorem above_of_mem_intoVec (h : topK.Sound) {point : ScoredPointOffset S}
    (hpoint : point ∈ topK.intoVec) : topK.threshold ≤ point.score :=
  h.above point ((UnstableSort.sort_perm topK.elements).mem_iff.mp (mem_of_mem_take hpoint))

/-- The returned scores are the largest of those that are held and any others that are not above
the threshold. -/
theorem Sound.intoVec_scores (h : topK.Sound) {others : List (ScoredPointOffset S)}
    (hothers : ∀ point ∈ others, (point.score : WithBot S) ≤ topK.threshold) :
    topK.intoVec.map ScoredPointOffset.score =
      (descending ((topK.elements ++ others).map ScoredPointOffset.score)).take topK.k := by
  have habove := fun point => @above_of_mem_intoVec S _ _ topK h point
  have hperm := UnstableSort.sort_perm topK.elements
  have hsorted := UnstableSort.sort_descending topK.elements
  have hresult : topK.intoVec = (UnstableSort.sortUnstable topK.elements).take topK.k := rfl
  generalize UnstableSort.sortUnstable topK.elements = sorted at hperm hsorted hresult
  rw [hresult] at habove ⊢
  have hsplit := take_append_drop topK.k sorted
  rw [← hsplit] at hsorted
  obtain ⟨htaken, -, hcross⟩ := pairwise_append.mp hsorted
  have hall : (sorted.take topK.k ++ (sorted.drop topK.k ++ others)).Perm
      (topK.elements ++ others) := by
    rw [← append_assoc, hsplit]
    exact hperm.append_right others
  have hbelow : ∀ taken ∈ sorted.take topK.k, ∀ point ∈ sorted.drop topK.k ++ others,
      point.score ≤ taken.score := by
    intro taken htaken point hpoint
    rcases mem_append.mp hpoint with hpoint | hpoint
    · exact hcross taken htaken point hpoint
    · exact WithBot.coe_le_coe.mp ((hothers point hpoint).trans (habove taken htaken))
  have hdescending : descending ((topK.elements ++ others).map ScoredPointOffset.score) =
      (sorted.take topK.k).map ScoredPointOffset.score ++
        descending ((sorted.drop topK.k ++ others).map ScoredPointOffset.score) := by
    refine descending_eq_append (by rw [← map_append]; exact hall.map _)
      (pairwise_map.mpr htaken) ?_
    rw [forall_mem_map]
    exact fun taken htaken => forall_mem_map.mpr (hbelow taken htaken)
  rw [hdescending]
  by_cases hlength : topK.k ≤ sorted.length
  · rw [take_left' (by rw [length_map, length_take, min_eq_left hlength])]
  -- fewer points than asked for are held, so no threshold is set and there are no others
  have henough := h.enough.resolve_right (by rw [← hperm.length_eq]; exact hlength)
  have hnone : others = [] := by
    refine eq_nil_iff_forall_not_mem.mpr fun point hpoint => ?_
    have hle := hothers point hpoint
    rw [henough, le_bot_iff] at hle
    exact WithBot.coe_ne_bot hle
  rw [hnone, drop_eq_nil_of_le (by omega), append_nil, map_nil,
    descending_nil, append_nil,
    take_of_length_le ((length_map _).trans_le (length_take_le _ _))]

/-- The buffer returns `min k n` of the pushed points in descending order of score, and their scores
are the largest that were pushed. Its threshold is not above the `k`-th largest of them, and is
not set while fewer than `2 * k` points were accepted. -/
theorem keeps_largest {k : ℕ} (hk : 0 < k) (points : List (ScoredPointOffset S)) :
    ((points.foldl push (new k)).intoVec.Subperm points ∧
      (points.foldl push (new k)).intoVec.length = min k points.length ∧
      (points.foldl push (new k)).intoVec.Pairwise fun a b => b.score ≤ a.score) ∧
    (points.foldl push (new k)).intoVec.map ScoredPointOffset.score =
      (descending (points.map ScoredPointOffset.score)).take k ∧
    (∀ score, (descending (points.map ScoredPointOffset.score))[k - 1]? = some score →
      (points.foldl push (new k)).threshold ≤ score) ∧
    ((new k).acceptedCount points < 2 * k → (points.foldl push (new k)).threshold = ⊥) := by
  have htakes := (sound_new hk).takes_foldl points
  have hbot : (new k).acceptedCount points < 2 * k →
      (points.foldl push (new k)).threshold = ⊥ := fun hfew =>
    threshold_of_acceptedCount rfl (by simpa [new, Nat.mul_comm] using hfew)
  generalize points.foldl push (new k) = topK at htakes hbot ⊢
  obtain ⟨dropped, hpushed, hdropped⟩ := htakes.dropped
  have hkeq : topK.k = k := htakes.k_eq
  have hscores := htakes.sound.intoVec_scores hdropped
  rw [hkeq, descending_congr (hpushed.map _), show (new k : TopK S).elements = [] from rfl,
    nil_append] at hscores
  have hsubperm := (take_sublist topK.k _).subperm.trans
    (UnstableSort.sort_perm topK.elements).subperm
  refine ⟨⟨hsubperm.trans htakes.elements_subperm, ?_,
    (UnstableSort.sort_descending topK.elements).sublist (take_sublist _ _)⟩, hscores,
    fun score hscore => ?_, hbot⟩
  · have hlength := congrArg length hscores
    rwa [length_map, length_take, show (descending (points.map ScoredPointOffset.score)).length =
      points.length from (rankBy_perm _).length_eq.trans (length_map _)] at hlength
  · have hmem : score ∈ (descending (points.map ScoredPointOffset.score)).take k :=
      mem_of_getElem? ((getElem?_take_of_lt (Nat.sub_lt hk Nat.one_pos)).trans hscore)
    rw [← hscores] at hmem
    obtain ⟨taken, htaken, rfl⟩ := mem_map.mp hmem
    exact above_of_mem_intoVec htakes.sound htaken

/-- A buffer for two points is cut at the fourth, and one of two equal scores is left out. -/
theorem keeps_largest_two :
    (([⟨0, 3⟩, ⟨1, 1⟩, ⟨2, 2⟩, ⟨3, 2⟩, ⟨4, 1⟩] : List (ScoredPointOffset ℕ)).foldl push
      (new 2)).intoVec.map ScoredPointOffset.score = [3, 2] :=
  (keeps_largest Nat.two_pos _).2.1

end TopK

/-- If the buffer accounts for all winners and holds no other positive scores, then its positive
scores are the largest scores of winners. -/
theorem TopK.Sound.intoVec_largest {topK : TopK S} (h : topK.Sound)
    {winners : List (ScoredPointOffset S)} (hnodup : winners.Nodup)
    (hpositive : ∀ point ∈ winners, 0 < point.score)
    (haccounts : ∀ point ∈ winners, topK.Accounts point) (hheld : topK.elements.Nodup)
    (hwinners : ∀ point ∈ topK.elements, 0 < point.score → point ∈ winners) :
    (topK.intoVec.filter fun point => 0 < point.score).map ScoredPointOffset.score =
      (descending (winners.map ScoredPointOffset.score)).take topK.k := by
  let kept := topK.elements.filter fun point => 0 < point.score
  let low := topK.elements.filter fun point => !decide (0 < point.score)
  let others := winners.filter fun point => point ∉ topK.elements
  have hothers : ∀ point ∈ others, (point.score : WithBot S) ≤ topK.threshold := by
    intro point hpoint
    obtain ⟨hwinner, hmissing⟩ := mem_filter.mp hpoint
    exact (haccounts point hwinner).resolve_left (of_decide_eq_true hmissing)
  have hparts : (kept ++ others).Perm winners := by
    refine (perm_ext_iff_of_nodup ?_ hnodup).mpr fun point => ?_
    · grind
    grind
  have hall : (winners ++ low).Perm (topK.elements ++ others) := by
    calc winners ++ low
      _ ~ kept ++ others ++ low := hparts.symm.append_right low
      _ ~ kept ++ low ++ others := by
          rw [append_assoc, append_assoc]
          exact perm_append_comm.append_left _
      _ ~ topK.elements ++ others := (filter_append_perm _ _).append_right others
  have hlow : ∀ score ∈ low.map ScoredPointOffset.score, ¬0 < score := by
    rw [forall_mem_map]
    intro point hpoint
    simpa using (mem_filter.mp hpoint).2
  have hwinning : ∀ score ∈ descending (winners.map ScoredPointOffset.score), 0 < score := by
    intro score hscore
    obtain ⟨point, hpoint, rfl⟩ := mem_map.mp ((rankBy_perm _).mem_iff.mp hscore)
    exact hpositive point hpoint
  have hsplit : descending ((topK.elements ++ others).map ScoredPointOffset.score) =
      descending (winners.map ScoredPointOffset.score) ++
        descending (low.map ScoredPointOffset.score) := by
    refine descending_eq_append ?_ (rankBy_pairwise OrderDual.toDual _) fun a ha b hb =>
      (not_lt.mp (hlow b hb)).trans (hwinning a ha).le
    refine ((rankBy_perm _).append_right _).trans ?_
    rw [← map_append]
    exact hall.map _
  have hfilter : (topK.intoVec.filter fun point => 0 < point.score).map ScoredPointOffset.score =
      (topK.intoVec.map ScoredPointOffset.score).filter fun score => 0 < score := by
    rw [filter_map]
    rfl
  rw [hfilter, h.intoVec_scores hothers, hsplit, take_append, filter_append, filter_eq_self.mpr,
    filter_eq_nil_iff.mpr, append_nil]
  · intro score hscore
    simpa using hlow score ((rankBy_perm _).mem_iff.mp (mem_of_mem_take hscore))
  · exact fun score hscore => decide_eq_true (hwinning score (mem_of_mem_take hscore))

end Largest

end Stratumind
