import Mathlib

/-!
# Merging rows by their heads

Several rows list parts of one collection. A merge repeatedly takes a most frequent head out of
all rows that have it. Every row is a part of the merged list. If more than half of the rows have
each member, then the merge lists no member twice exactly if the rows agree on an order.
-/

namespace Stratumind.Lib

open List

variable {α : Type*} [DecidableEq α] {a : α} {rows : List (List α)} {merged : List α}

/-- A row without its head, if the head is the given member. -/
def popHead (a : α) (row : List α) : List α := if row.head? = some a then row.tail else row

/-- The number of rows with the given head. -/
def headCount (a : α) (rows : List (List α)) : ℕ := rows.countP fun row => row.head? = some a

/-- The number of rows with the given member. -/
def memCount (a : α) (rows : List (List α)) : ℕ := rows.countP fun row => a ∈ row

/-- All rows are parts of one order. -/
def Compatible (rows : List (List α)) : Prop :=
  ∃ order : List α, order.Nodup ∧ ∀ row ∈ rows, row.Sublist order

/-- A merge takes a most frequent head out of all rows that have it, until all rows are empty. -/
inductive HeadMerged : List (List α) → List α → Prop
  | done {rows : List (List α)} (hempty : ∀ row ∈ rows, row = []) : HeadMerged rows []
  | step {rows : List (List α)} {a : α} {merged : List α} (hpos : 0 < headCount a rows)
      (hmost : ∀ b, headCount b rows ≤ headCount a rows)
      (hrest : HeadMerged (rows.map (popHead a)) merged) : HeadMerged rows (a :: merged)

theorem popHead_sublist (a : α) (row : List α) : (popHead a row).Sublist row := by
  unfold popHead
  split
  · exact tail_sublist row
  · exact Sublist.refl row

/-- Every row is a part of the merged list. -/
theorem HeadMerged.sublist (h : HeadMerged rows merged) : ∀ row ∈ rows, row.Sublist merged := by
  induction h with
  | done hempty =>
    intro row hrow
    rw [hempty row hrow]
  | @step rows a merged _ _ _ ih =>
    intro row hrow
    have hpart := ih (popHead a row) (mem_map_of_mem hrow)
    unfold popHead at hpart
    split at hpart
    · rename_i hhead
      rw [← cons_head?_tail hhead]
      exact hpart.cons_cons a
    · exact hpart.cons a

theorem exists_mem_of_headCount_pos (h : 0 < headCount a rows) : ∃ row ∈ rows, a ∈ row := by
  obtain ⟨row, hrow, hhead⟩ := countP_pos_iff.mp h
  exact ⟨row, hrow, mem_of_mem_head? (of_decide_eq_true hhead)⟩

/-- Nothing else is merged. -/
theorem HeadMerged.exists_mem (h : HeadMerged rows merged) :
    ∀ a ∈ merged, ∃ row ∈ rows, a ∈ row := by
  induction h with
  | done _ =>
    intro a ha
    cases ha
  | @step rows b merged hpos _ _ ih =>
    intro a ha
    rcases mem_cons.mp ha with rfl | ha
    · exact exists_mem_of_headCount_pos hpos
    · obtain ⟨popped, hpopped, hmem⟩ := ih a ha
      obtain ⟨row, hrow, rfl⟩ := mem_map.mp hpopped
      exact ⟨row, hrow, (popHead_sublist b row).subset hmem⟩

/-- The first member of a common order heads every row that has it. -/
theorem Compatible.exists_first (h : Compatible rows) (hne : ∃ row ∈ rows, row ≠ []) :
    ∃ a, (∃ row ∈ rows, a ∈ row) ∧ ∀ row ∈ rows, a ∈ row → row.head? = some a := by
  obtain ⟨order, hnodup, hparts⟩ := h
  induction order with
  | nil =>
    obtain ⟨row, hrow, hrowne⟩ := hne
    exact absurd (sublist_nil.mp (hparts row hrow)) hrowne
  | cons a order ih =>
    obtain ⟨hnot, hrest⟩ := nodup_cons.mp hnodup
    by_cases hmem : ∃ row ∈ rows, a ∈ row
    · refine ⟨a, hmem, fun row hrow ha => ?_⟩
      grind
    refine ih hrest fun row hrow => ?_
    grind

/-- A member heads at most the rows that have it. -/
theorem headCount_le_memCount (a : α) (rows : List (List α)) : headCount a rows ≤ memCount a rows :=
  countP_mono_left fun _ _ hhead => decide_eq_true
    (mem_of_mem_head? (of_decide_eq_true hhead))

/-- A step takes one member out of each row with the head. -/
theorem sum_length_popHead (a : α) (rows : List (List α)) :
    ((rows.map (popHead a)).map length).sum + headCount a rows =
      (rows.map length).sum := by
  unfold headCount
  induction rows with
  | nil => rfl
  | cons row rows ih =>
    rw [countP_cons]
    simp only [map_cons, sum_cons]
    by_cases hhead : row.head? = some a
    · have hlength : (popHead a row).length + 1 = row.length := by
        rw [popHead, if_pos hhead]
        conv_rhs => rw [← cons_head?_tail hhead]
        rfl
      rw [if_pos (decide_eq_true hhead)]
      omega
    · have hlength : (popHead a row).length = row.length := by rw [popHead, if_neg hhead]
      rw [if_neg (by simpa using hhead)]
      omega

/-- Different members head different rows. -/
theorem headCount_add_le {b : α} (hne : a ≠ b) (rows : List (List α)) :
    headCount a rows + headCount b rows ≤ rows.length := by
  unfold headCount
  induction rows with
  | nil => exact Nat.le_refl 0
  | cons row rows ih =>
    grind

/-- After a clean step the member is in no row. -/
theorem not_mem_popHead {row : List α} (hnodup : row.Nodup)
    (hhead : a ∈ row → row.head? = some a) : a ∉ popHead a row := by
  unfold popHead
  split
  · rename_i heq
    rw [← cons_head?_tail heq] at hnodup
    exact (nodup_cons.mp hnodup).1
  · rename_i hne
    exact fun hmem => hne (hhead hmem)

theorem mem_popHead_of_ne {b : α} {row : List α} (hne : b ≠ a) : b ∈ popHead a row ↔ b ∈ row := by
  unfold popHead
  split
  · rename_i heq
    rw [← cons_head?_tail heq, tail_cons, mem_cons, or_iff_right hne]
  · rfl

theorem memCount_popHead_of_ne {b : α} (hne : b ≠ a) (rows : List (List α)) :
    memCount b (rows.map (popHead a)) = memCount b rows := by
  unfold memCount
  rw [countP_map]
  refine countP_congr fun row _ => ?_
  simp only [Function.comp_apply, decide_eq_true_eq]
  exact mem_popHead_of_ne hne

/-- A member that heads every row that has it is taken next, if more than half of the rows have
it. -/
theorem eq_of_heads {first : α} (hmost : ∀ b, headCount b rows ≤ headCount a rows)
    (hheads : ∀ row ∈ rows, first ∈ row → row.head? = some first)
    (hlarge : rows.length < 2 * memCount first rows) :
    a = first ∧ headCount first rows = memCount first rows := by
  have hcount : headCount first rows = memCount first rows := by
    refine Nat.le_antisymm (headCount_le_memCount first rows) (countP_mono_left ?_)
    intro row hrow hmem
    exact decide_eq_true (hheads row hrow (of_decide_eq_true hmem))
  refine ⟨?_, hcount⟩
  by_contra hne
  have hsum := headCount_add_le hne rows
  have hle := hmost first
  omega

/-- Rows that agree on an order are merged without repetition, if more than half of them have
each member. -/
theorem HeadMerged.nodup (h : HeadMerged rows merged) (hnodup : ∀ row ∈ rows, row.Nodup)
    (hmajority : ∀ row ∈ rows, ∀ a ∈ row, rows.length < 2 * memCount a rows)
    (hcompatible : Compatible rows) : merged.Nodup := by
  induction h with
  | done _ => exact nodup_nil
  | @step rows a merged hpos hmost hrest ih =>
    -- The first member of the order has more than half of the heads, so it is the one taken.
    obtain ⟨row, hrow, ha⟩ := exists_mem_of_headCount_pos hpos
    obtain ⟨first, ⟨firstRow, hfirstRow, hfirst⟩, hheads⟩ :=
      hcompatible.exists_first ⟨row, hrow, ne_nil_of_mem ha⟩
    obtain ⟨rfl, -⟩ := eq_of_heads hmost hheads (hmajority firstRow hfirstRow first hfirst)
    have hgone : ∀ popped ∈ rows.map (popHead a), a ∉ popped := by
      intro popped hpopped
      obtain ⟨row, hrow, rfl⟩ := mem_map.mp hpopped
      exact not_mem_popHead (hnodup row hrow) (hheads row hrow)
    refine nodup_cons.mpr ⟨fun hmem => ?_, ih ?_ ?_ ?_⟩
    · obtain ⟨popped, hpopped, hmem⟩ := hrest.exists_mem a hmem
      exact hgone popped hpopped hmem
    · intro popped hpopped
      obtain ⟨row, hrow, rfl⟩ := mem_map.mp hpopped
      exact (popHead_sublist a row).nodup (hnodup row hrow)
    · intro popped hpopped b hb
      have hne : b ≠ a := fun heq => hgone popped hpopped (heq ▸ hb)
      obtain ⟨row, hrow, rfl⟩ := mem_map.mp hpopped
      rw [length_map, memCount_popHead_of_ne hne]
      exact hmajority row hrow b ((popHead_sublist a row).subset hb)
    · obtain ⟨order, horder, hparts⟩ := hcompatible
      refine ⟨order, horder, fun popped hpopped => ?_⟩
      obtain ⟨row, hrow, rfl⟩ := mem_map.mp hpopped
      exact (popHead_sublist a row).trans (hparts row hrow)

/-- A merge of majorities has no repetition exactly if the rows agree on an order. -/
theorem HeadMerged.nodup_iff (h : HeadMerged rows merged) (hnodup : ∀ row ∈ rows, row.Nodup)
    (hmajority : ∀ row ∈ rows, ∀ a ∈ row, rows.length < 2 * memCount a rows) :
    merged.Nodup ↔ Compatible rows :=
  ⟨fun hmerged => ⟨merged, hmerged, h.sublist⟩, h.nodup hnodup hmajority⟩

section Sorted

variable {α : Type*} [LinearOrder α] {a : α} {rows : List (List α)} {merged : List α} {count : ℕ}

/-- Sorted rows, where enough of them to be more than half have each member. -/
structure SortedMajority (count : ℕ) (rows : List (List α)) : Prop where
  sorted : ∀ row ∈ rows, row.Pairwise (· < ·)
  common : ∀ row ∈ rows, ∀ a ∈ row, count ≤ memCount a rows
  large : rows.length < 2 * count

/-- A most frequent head is the least member, heads all rows that have it, and leaves sorted rows
of greater members. -/
theorem SortedMajority.step (h : SortedMajority count rows) (hpos : 0 < headCount a rows)
    (hmost : ∀ b, headCount b rows ≤ headCount a rows) :
    count ≤ headCount a rows ∧ SortedMajority count (rows.map (popHead a)) ∧
      ∀ row ∈ rows, ∀ b ∈ popHead a row, a < b := by
  obtain ⟨row, hrow, ha⟩ := exists_mem_of_headCount_pos hpos
  have hlength := length_pos_of_mem (mem_flatten_of_mem hrow ha)
  obtain ⟨first, hmem, hleast⟩ : ∃ first ∈ rows.flatten, ∀ b ∈ rows.flatten, first ≤ b :=
    ⟨_, minimum_of_length_pos_mem hlength, fun _ hb => minimum_of_length_pos_le_of_mem hb hlength⟩
  obtain ⟨firstRow, hfirstRow, hfirst⟩ := mem_flatten.mp hmem
  -- a sorted row that has the least member starts with it
  have hheads : ∀ row ∈ rows, first ∈ row → row.head? = some first := by
    intro row hrow hmem
    cases row with
    | nil => cases hmem
    | cons b row =>
      have hle := hleast b (mem_flatten_of_mem hrow mem_cons_self)
      rcases mem_cons.mp hmem with rfl | hmem
      · rfl
      · exact absurd ((pairwise_cons.mp (h.sorted _ hrow)).1 first hmem) (not_lt.mpr hle)
  have hcommon := h.common firstRow hfirstRow first hfirst
  have hlarge := h.large
  obtain ⟨rfl, hcount⟩ := eq_of_heads hmost hheads (by omega)
  have hgreater : ∀ row ∈ rows, ∀ b ∈ popHead a row, a < b := by
    intro row hrow b hb
    have hsub := (popHead_sublist a row).subset hb
    refine lt_of_le_of_ne (hleast b (mem_flatten_of_mem hrow hsub)) ?_
    rintro rfl
    exact not_mem_popHead ((h.sorted row hrow).imp ne_of_lt) (hheads row hrow) hb
  refine ⟨hcount ▸ hcommon, ⟨?_, ?_, (length_map _).trans_lt hlarge⟩, hgreater⟩
  · intro popped hpopped
    obtain ⟨row, hrow, rfl⟩ := mem_map.mp hpopped
    exact (h.sorted row hrow).sublist (popHead_sublist a row)
  · intro popped hpopped b hb
    obtain ⟨row, hrow, rfl⟩ := mem_map.mp hpopped
    rw [memCount_popHead_of_ne (hgreater row hrow b hb).ne']
    exact h.common row hrow b ((popHead_sublist a row).subset hb)

theorem HeadMerged.pairwise_lt (h : HeadMerged rows merged) (hrows : SortedMajority count rows) :
    merged.Pairwise (· < ·) := by
  induction h with
  | done _ => exact .nil
  | @step rows a merged hpos hmost hrest ih =>
    obtain ⟨-, hpopped, hgreater⟩ := hrows.step hpos hmost
    refine pairwise_cons.mpr ⟨fun b hb => ?_, ih hpopped⟩
    obtain ⟨popped, hmem, hb⟩ := hrest.exists_mem b hb
    obtain ⟨row, hrow, rfl⟩ := mem_map.mp hmem
    exact hgreater row hrow b hb

end Sorted

end Stratumind.Lib
