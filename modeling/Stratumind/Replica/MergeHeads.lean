import Stratumind.Replica.Resolve
import Stratumind.Lib.HeadMerge

/-!
# The merge of resolved responses

`MergeInOrder` keeps a map from the current heads to their rows. Its next item is a head that is
in most rows, and all of these rows advance. The ids it collects are therefore a merge of the
rows by their heads, whatever order the map gives its values in.
-/

namespace Stratumind.MergeInOrder

open Lib List

variable {Item Id : Type} [DecidableEq Id] {identify : Item → Id} {merge : MergeInOrder Item}

/-- The ids of the rows. -/
def ids (identify : Item → Id) (merge : MergeInOrder Item) : List (List Id) :=
  merge.resolvedIters.map fun row => row.map identify

/-- The rows with the given id at their head. -/
def rowsWithHead (identify : Item → Id) (merge : MergeInOrder Item) (id : Id) : List ℕ :=
  ((merge.peekHeads identify).filter fun head => head.2 = id).map Prod.fst

theorem mem_rowsWithHead {id : Id} {row : ℕ} :
    row ∈ merge.rowsWithHead identify id ↔
      ∃ item tail, merge.resolvedIters[row]? = some (item :: tail) ∧ identify item = id := by
  constructor
  · intro h
    obtain ⟨⟨row', id'⟩, hhead, rfl⟩ := mem_map.mp h
    obtain ⟨hhead, hid⟩ := mem_filter.mp hhead
    obtain ⟨⟨iter, index⟩, hiter, hpeek⟩ := mem_filterMap.mp hhead
    obtain ⟨item, hitem, heq⟩ := Option.map_eq_some_iff.mp hpeek
    obtain ⟨rfl, rfl⟩ := Prod.mk.inj heq
    rw [← cons_head?_tail hitem] at hiter
    exact ⟨item, iter.tail, mem_zipIdx_iff_getElem?.mp hiter, of_decide_eq_true hid⟩
  · rintro ⟨item, tail, hrow, rfl⟩
    refine mem_map.mpr ⟨(row, identify item), mem_filter.mpr ⟨?_, by simp⟩, rfl⟩
    exact mem_filterMap.mpr ⟨(item :: tail, row), mem_zipIdx_iff_getElem?.mpr hrow, rfl⟩

theorem rowsWithHead_nodup (id : Id) : (merge.rowsWithHead identify id).Nodup := by
  have hrows : ((merge.peekHeads identify).map Prod.fst).Sublist
      (merge.resolvedIters.zipIdx.map Prod.snd) := by
    unfold peekHeads
    induction merge.resolvedIters.zipIdx with
    | nil => exact Sublist.refl _
    | cons entry entries ih =>
      cases hhead : entry.1.head? with
      | none => simpa [hhead] using ih.cons entry.2
      | some item => simpa [hhead] using ih.cons_cons entry.2
  rw [zipIdx_map_snd] at hrows
  exact ((filter_sublist.map Prod.fst).trans hrows).nodup nodup_range'

/-- The rows of a head are counted by the ids. -/
theorem length_rowsWithHead (id : Id) :
    (merge.rowsWithHead identify id).length = headCount id (merge.ids identify) := by
  unfold rowsWithHead peekHeads headCount ids
  rw [length_map, ← countP_eq_length_filter, countP_filterMap, countP_map]
  have hfst : ∀ p : List Item → Bool, merge.resolvedIters.zipIdx.countP (fun entry => p entry.1) =
      merge.resolvedIters.countP p := by
    intro p
    conv_rhs => rw [← zipIdx_map_fst 0 merge.resolvedIters, countP_map]
    rfl
  rw [← hfst]
  refine countP_congr ?_
  rintro ⟨iter, row⟩ _
  cases iter <;> simp

/-- The map has the rows of every head. -/
theorem mem_headsMap_values {rows : List ℕ} :
    rows ∈ (merge.headsMap identify).entries.map (fun entry => entry.2) ↔
      rows ≠ [] ∧ ∃ id, rows = merge.rowsWithHead identify id := by
  have hlookup : ∀ id, (merge.headsMap identify).lookup id =
      if merge.rowsWithHead identify id = [] then none
      else some (merge.rowsWithHead identify id) := by
    intro id
    have hgroup := lookup_foldl_group Prod.snd Prod.fst (merge.peekHeads identify) ∅ id
    simp only [rowsWithHead, map_eq_nil_iff]
    exact hgroup
  rw [mem_map]
  constructor
  · rintro ⟨⟨id, value⟩, hentry, rfl⟩
    have hvalue := Option.mem_def.mp (AList.mem_lookup_iff.mpr hentry)
    grind
  · rintro ⟨hne, id, rfl⟩
    refine ⟨⟨id, merge.rowsWithHead identify id⟩, AList.mem_lookup_iff.mp ?_, rfl⟩
    rw [hlookup, if_neg hne]
    rfl

/-- Advancing rows takes their heads and returns one of them. -/
private theorem advanceRows_fold (rowIds : List ℕ) (hnodup : rowIds.Nodup) (taken : Option Item)
    (merge : MergeInOrder Item) :
    let result := rowIds.foldl (fun ((_ : Option Item), (merge : MergeInOrder Item)) row =>
      (merge.resolvedIters[row]?.bind head?,
        ⟨merge.resolvedIters.modify row tail⟩)) (taken, merge)
    (∀ i, result.2.resolvedIters[i]? =
      if i ∈ rowIds then merge.resolvedIters[i]?.map tail else merge.resolvedIters[i]?) ∧
    (rowIds ≠ [] → ∃ row ∈ rowIds, result.1 = merge.resolvedIters[row]?.bind head?) := by
  induction rowIds generalizing taken merge with
  | nil => exact ⟨fun i => rfl, fun hne => absurd rfl hne⟩
  | cons row rowIds ih =>
    obtain ⟨hnot, hrest⟩ := nodup_cons.mp hnodup
    obtain ⟨hrows, hitem⟩ := ih hrest (merge.resolvedIters[row]?.bind head?)
      ⟨merge.resolvedIters.modify row tail⟩
    dsimp only [foldl_cons] at hrows hitem ⊢
    constructor
    · intro i
      rw [hrows, getElem?_modify]
      by_cases hrow : row = i
      · subst hrow
        simp [hnot]
      · simp [hrow, Ne.symm hrow]
    intro _
    by_cases hnil : rowIds = []
    · subst hnil
      exact ⟨row, mem_cons_self, rfl⟩
    grind

/-- A row without its head, if the head has the given id. -/
def popRow (identify : Item → Id) (id : Id) (row : List Item) : List Item :=
  if row.head?.map identify = some id then row.tail else row

theorem map_popRow (id : Id) (row : List Item) :
    (popRow identify id row).map identify = popHead id (row.map identify) := by
  unfold popRow popHead
  rw [head?_map]
  split
  · rw [map_tail]
  · rfl

theorem ids_map_popRow (id : Id) :
    ids identify ⟨merge.resolvedIters.map (popRow identify id)⟩ =
      (merge.ids identify).map (popHead id) := by
  unfold ids
  rw [map_map, map_map]
  exact map_congr_left fun row _ => map_popRow id row

theorem advanceRows_rowsWithHead {id : Id} (hne : merge.rowsWithHead identify id ≠ []) :
    ∃ item, merge.advanceRows (merge.rowsWithHead identify id) =
        (some item, ⟨merge.resolvedIters.map (popRow identify id)⟩) ∧
      identify item = id ∧ ∃ row ∈ merge.resolvedIters, item ∈ row := by
  obtain ⟨hrows, hitem⟩ := advanceRows_fold (merge.rowsWithHead identify id)
    (rowsWithHead_nodup id) none merge
  obtain ⟨row, hrow, htaken⟩ := hitem hne
  obtain ⟨item, tail, hget, hid⟩ := mem_rowsWithHead.mp hrow
  rw [hget] at htaken
  refine ⟨item, Prod.ext htaken ?_, hid, _, mem_of_getElem? hget, mem_cons_self⟩
  have hiters : (merge.advanceRows (merge.rowsWithHead identify id)).2.resolvedIters =
      merge.resolvedIters.map (popRow identify id) := by
    refine ext_getElem? fun i => ?_
    rw [getElem?_map]
    refine (hrows i).trans ?_
    cases hiter : merge.resolvedIters[i]? with
    | none => simp
    | some iter =>
      have hiff : i ∈ merge.rowsWithHead identify id ↔ iter.head?.map identify = some id := by
        rw [mem_rowsWithHead, hiter]
        cases iter <;> simp
      unfold popRow
      simp only [Option.map_some, hiff]
      split <;> rfl
  exact congrArg mk hiters

variable {intoValues : List (List ℕ) → List (List ℕ)}
  (hvalues : ∀ values, (intoValues values).Perm values)

include hvalues in
/-- The next item is a head of most rows, which all advance; there is none only at the end. -/
theorem next_cases :
    ((∀ row ∈ merge.resolvedIters, row = []) ∧ merge.next intoValues identify = (none, merge)) ∨
    ∃ item, merge.next intoValues identify =
        (some item, ⟨merge.resolvedIters.map (popRow identify (identify item))⟩) ∧
      (∃ row ∈ merge.resolvedIters, item ∈ row) ∧
      0 < headCount (identify item) (merge.ids identify) ∧
      ∀ id, headCount id (merge.ids identify) ≤
        headCount (identify item) (merge.ids identify) := by
  have hmem : ∀ rows, rows ∈ intoValues ((merge.headsMap identify).entries.map fun entry =>
      entry.2) ↔ rows ≠ [] ∧ ∃ id, rows = merge.rowsWithHead identify id := fun rows =>
    (hvalues _).mem_iff.trans mem_headsMap_values
  unfold next
  dsimp only
  cases hchosen : maxBy (fun left right : List ℕ => compare left.length right.length)
      (intoValues ((merge.headsMap identify).entries.map fun entry => entry.2)) with
  | none =>
    rw [maxBy_eq_none] at hchosen
    refine Or.inl ⟨fun row hrow => ?_, rfl⟩
    by_contra hne
    obtain ⟨item, tail, rfl⟩ := exists_cons_of_ne_nil hne
    obtain ⟨i, hi⟩ := mem_iff_getElem?.mp hrow
    have hhead : i ∈ merge.rowsWithHead identify (identify item) :=
      mem_rowsWithHead.mpr ⟨item, tail, hi, rfl⟩
    have hvalue := (hmem _).mpr ⟨ne_nil_of_mem hhead, identify item, rfl⟩
    rw [hchosen] at hvalue
    cases hvalue
  | some rows =>
    obtain ⟨hne, id, rfl⟩ := (hmem rows).mp (maxBy_mem hchosen)
    obtain ⟨item, hadvance, rfl, hrow⟩ := advanceRows_rowsWithHead hne
    refine Or.inr ⟨item, hadvance, hrow, ?_, fun other => ?_⟩
    · rw [← length_rowsWithHead]
      exact length_pos_iff.mpr hne
    rw [← length_rowsWithHead, ← length_rowsWithHead]
    by_cases hnil : merge.rowsWithHead identify other = []
    · rw [hnil]
      exact Nat.zero_le _
    · exact maxBy_le (fun _ _ => rfl) hchosen _ ((hmem _).mpr ⟨hnil, other, rfl⟩)

omit [DecidableEq Id] in
theorem sum_length_ids (merge : MergeInOrder Item) :
    ((merge.ids identify).map length).sum = (merge.resolvedIters.map length).sum := by
  unfold ids
  rw [map_map]
  exact congrArg sum (map_congr_left fun row _ => length_map _)

include hvalues in
/-- The collected ids are a merge of the rows, and the items come from the rows. -/
theorem collectVec_spec (turns : ℕ) (merge : MergeInOrder Item)
    (hturns : (merge.resolvedIters.map length).sum ≤ turns) :
    HeadMerged (merge.ids identify) ((collectVec intoValues identify turns merge).map identify) ∧
      ∀ item ∈ collectVec intoValues identify turns merge,
        ∃ row ∈ merge.resolvedIters, item ∈ row := by
  induction turns generalizing merge with
  | zero =>
    refine ⟨HeadMerged.done fun row hrow => ?_, fun item hitem => absurd hitem not_mem_nil⟩
    have hzero : ((merge.ids identify).map length).sum = 0 := by
      rw [sum_length_ids]
      omega
    have hall := List.sum_eq_zero_iff_forall_eq_nat.mp hzero
    exact length_eq_zero_iff.mp (hall _ (mem_map_of_mem hrow))
  | succ turns ih =>
    rw [collectVec]
    rcases @next_cases Item Id _ identify merge intoValues hvalues with
      ⟨hempty, hnext⟩ | ⟨item, hnext, hrow, hpos, hmost⟩
    · rw [hnext]
      refine ⟨HeadMerged.done fun row hrow => ?_, fun item hitem => absurd hitem not_mem_nil⟩
      obtain ⟨iter, hiter, rfl⟩ := mem_map.mp hrow
      rw [hempty iter hiter, map_nil]
    rw [hnext]
    let rest : MergeInOrder Item :=
      ⟨merge.resolvedIters.map (popRow identify (identify item))⟩
    have hids : rest.ids identify = (merge.ids identify).map (popHead (identify item)) :=
      ids_map_popRow (identify item)
    have hfewer : (rest.resolvedIters.map length).sum ≤ turns := by
      have hsum := sum_length_popHead (identify item) (merge.ids identify)
      rw [← hids, sum_length_ids, sum_length_ids] at hsum
      omega
    obtain ⟨hmerged, hitems⟩ := ih rest hfewer
    constructor
    · exact HeadMerged.step hpos hmost (hids ▸ hmerged)
    refine forall_mem_cons.mpr ⟨hrow, fun other hother => ?_⟩
    obtain ⟨popped, hpopped, hmem⟩ := hitems other hother
    obtain ⟨row, hrow, rfl⟩ := mem_map.mp hpopped
    refine ⟨row, hrow, ?_⟩
    unfold popRow at hmem
    split at hmem
    · exact mem_of_mem_tail hmem
    · exact hmem

/-! ### Rows in a common order -/

/-- The number of rows that a step advances. -/
def advancedCount (before after : MergeInOrder Item) : ℕ :=
  (before.resolvedIters.zip after.resolvedIters).countP fun rows => rows.2.length < rows.1.length

theorem advancedCount_map_popRow (id : Id) :
    merge.advancedCount ⟨merge.resolvedIters.map (popRow identify id)⟩ =
      headCount id (merge.ids identify) := by
  unfold advancedCount headCount ids
  nth_rewrite 1 [← map_id merge.resolvedIters]
  rw [zip_map', countP_map, countP_map]
  refine countP_congr fun row _ => ?_
  cases row with
  | nil => simp [popRow]
  | cons item row =>
    by_cases hid : identify item = id <;> simp [popRow, hid]

section Sorted

variable {Id : Type} [LinearOrder Id] {identify : Item → Id} {count : ℕ}

include hvalues

/-- A step on rows in a common order advances enough of them and leaves such rows. -/
theorem next_sorted (h : SortedMajority count (merge.ids identify)) :
    SortedMajority count ((merge.next intoValues identify).2.ids identify) ∧
      ((merge.next intoValues identify).1.isSome →
        count ≤ merge.advancedCount (merge.next intoValues identify).2) := by
  rcases @next_cases Item Id _ identify merge intoValues hvalues with
    ⟨-, hnext⟩ | ⟨item, hnext, -, hpos, hmost⟩ <;> rw [hnext]
  · exact ⟨h, nofun⟩
  · obtain ⟨hcount, hrest, -⟩ := h.step hpos hmost
    rw [ids_map_popRow, advancedCount_map_popRow]
    exact ⟨hrest, fun _ => hcount⟩

/-- Lists without repeated ids that are sorted by one total order, where every id is in at least
`count` of them and that is more than half, are merged into the ids in this order, each of them
once, and every step advances at least `count` lists. -/
theorem merge_keeps_common_order
    (hnodup : ∀ row ∈ merge.ids identify, row.Nodup)
    (hsorted : ∀ row ∈ merge.ids identify, row.Pairwise (· ≤ ·))
    (hcommon : ∀ row ∈ merge.ids identify, ∀ id ∈ row, count ≤ memCount id (merge.ids identify))
    (hlarge : merge.resolvedIters.length < 2 * count) {turns : ℕ}
    (hturns : (merge.resolvedIters.map length).sum ≤ turns) :
    ((collectVec intoValues identify turns merge).map identify).Pairwise (· < ·) ∧
    (∀ id, id ∈ (collectVec intoValues identify turns merge).map identify ↔
      ∃ row ∈ merge.ids identify, id ∈ row) ∧
    ∀ steps before, (fun merge => (next intoValues identify merge).2)^[steps] merge = before →
      (before.next intoValues identify).1.isSome →
        count ≤ before.advancedCount (before.next intoValues identify).2 := by
  have hrows : SortedMajority count (merge.ids identify) := by
    refine ⟨fun row hrow => ?_, hcommon, (length_map _).trans_lt hlarge⟩
    exact ((hsorted row hrow).and (hnodup row hrow)).imp fun h => lt_of_le_of_ne h.1 h.2
  obtain ⟨hmerged, -⟩ := @collectVec_spec Item Id _ identify _ hvalues turns merge hturns
  refine ⟨hmerged.pairwise_lt hrows, fun id => ⟨hmerged.exists_mem id, ?_⟩, ?_⟩
  · rintro ⟨row, hrow, hid⟩
    exact (hmerged.sublist row hrow).subset hid
  · rintro steps _ rfl
    refine (next_sorted hvalues ?_).2
    induction steps with
    | zero => exact hrows
    | succ steps ih =>
      rw [Function.iterate_succ_apply']
      exact (next_sorted hvalues ih).1

end Sorted

/-- Three rows that each leave out an item of one order. -/
theorem merge_keeps_common_order_three_rows :
    (collectVec reverse id 9 ⟨[[1, 2, 4], [1, 3, 4], [2, 3, 4]]⟩).Pairwise (· < ·) := by
  have h := (@merge_keeps_common_order ℕ ⟨[[1, 2, 4], [1, 3, 4], [2, 3, 4]]⟩ reverse
    reverse_perm ℕ _ id 2 (by decide) (by decide) (by decide) (by decide) 9 (by decide)).1
  rwa [map_id] at h

end Stratumind.MergeInOrder
