import Stratumind.Lib.RankedList

/-!
# Iterator and integer operations of the standard library

`min_by`, `max_by`, `sort_unstable_by` and `swap_remove` as the Rust standard
library documents them, and the saturating operations of the 64-bit `usize`.
Only comparisons that separate all elements are used, so the order in which an
unstable sort leaves equal elements never matters.
-/

namespace Stratumind

open Lib List

section

variable {α κ : Type*} [LinearOrder κ]

/-- `Iterator::min_by`: the first of the least elements. -/
def minBy (cmp : α → α → Ordering) : List α → Option α
  | [] => none
  | a :: l => some (l.foldl (fun x y => if cmp x y = .gt then y else x) a)

/-- `Iterator::max_by`: the last of the greatest elements. -/
def maxBy (cmp : α → α → Ordering) : List α → Option α
  | [] => none
  | a :: l => some (l.foldl (fun x y => if cmp x y = .gt then x else y) a)

/-- `sort_unstable_by` under a comparison. -/
def sortBy (cmp : α → α → Ordering) (l : List α) : List α :=
  l.insertionSort fun a b => (cmp a b).isLE = true

/-- `Vec::swap_remove`: the last element takes the place of the removed one. -/
def swapRemove (l : List α) (index : ℕ) : List α :=
  match l.getLast? with
  | none => []
  | some last => (l.set index last).dropLast

/-- `slice::swap`. -/
def swap (l : List α) (i j : ℕ) : List α :=
  match l[i]?, l[j]? with
  | some a, some b => (l.set i b).set j a
  | _, _ => l

/-- Swapping the head with another element keeps the elements. -/
theorem swap_zero_perm (l : List α) {j : ℕ} (hj : j ≠ 0) : (swap l 0 j).Perm l := by
  obtain ⟨j, rfl⟩ := Nat.exists_eq_succ_of_ne_zero hj
  cases l with
  | nil => exact Perm.refl _
  | cons a l =>
    unfold swap
    rw [getElem?_cons_zero, getElem?_cons_succ]
    cases hget : l[j]? with
    | none => exact Perm.refl _
    | some b =>
      obtain ⟨hlt, hb⟩ := List.getElem?_eq_some_iff.mp hget
      have hset : l.set j a = l.take j ++ a :: l.drop (j + 1) :=
        set_eq_take_append_cons_drop .. |>.trans (if_pos hlt)
      have hsplit : l = l.take j ++ b :: l.drop (j + 1) := by
        rw [← hb, ← drop_eq_getElem_cons hlt, take_append_drop]
      change (b :: l.set j a).Perm (a :: l)
      rw [hset]
      nth_rewrite 3 [hsplit]
      refine (perm_middle.cons b).trans ?_
      exact (Perm.swap a b _).trans (perm_middle.symm.cons a)

variable {cmp : α → α → Ordering}

/-- Sorting by a comparison of keys is ranking by the key. -/
theorem sortBy_eq_rankBy {key : α → κ} (hcmp : ∀ a b, cmp a b = compare (key a) (key b))
    (l : List α) : sortBy cmp l = rankBy key l := by
  have hrel : (fun a b : α => (cmp a b).isLE = true) = fun a b => key a ≤ key b := by
    funext a b
    rw [hcmp, Ordering.isLE_iff_ne_gt, ← ne_eq, compare_le_iff_le]
  unfold sortBy rankBy
  congr!

private theorem foldl_select_mem {step : α → α → α} (hstep : ∀ x y, step x y = x ∨ step x y = y)
    (l : List α) (a : α) : l.foldl step a ∈ a :: l := by
  induction l generalizing a with
  | nil => simp
  | cons b l ih =>
    grind

variable {l : List α} {a : α}

/-- `max_by` returns a member. -/
theorem maxBy_mem (h : maxBy cmp l = some a) : a ∈ l := by
  cases l with
  | nil => simp [maxBy] at h
  | cons b l =>
    obtain rfl := Option.some.inj h
    apply foldl_select_mem
    intro x y
    split <;> simp

/-- `max_by` fails only on an empty iterator. -/
@[simp] theorem maxBy_eq_none : maxBy cmp l = none ↔ l = [] := by
  cases l <;> simp [maxBy]

/-- Nothing is greater than what `max_by` returns. -/
theorem maxBy_le {key : α → κ} (hcmp : ∀ a b, cmp a b = compare (key a) (key b))
    (h : maxBy cmp l = some a) : ∀ b ∈ l, key b ≤ key a := by
  cases l with
  | nil => simp [maxBy] at h
  | cons first l =>
    obtain rfl := Option.some.inj h
    clear h
    induction l generalizing first with
    | nil => simp
    | cons second l ih =>
      obtain ⟨hkept, hrest⟩ := forall_mem_cons.mp
        (ih (if cmp first second = .gt then first else second))
      have hboth : key first ≤ key (if cmp first second = .gt then first else second) ∧
          key second ≤ key (if cmp first second = .gt then first else second) := by
        rw [hcmp]
        split
        · rename_i hgt
          exact ⟨le_rfl, (compare_gt_iff_gt.mp hgt).le⟩
        · rename_i hle
          exact ⟨compare_le_iff_le.mp hle, le_rfl⟩
      grind

variable {index : ℕ}

/-- The elements of a vector other than the removed one stay in it. -/
theorem swapRemove_perm (h : index < l.length) : (swapRemove l index).Perm (l.eraseIdx index) := by
  unfold swapRemove
  rcases eq_nil_or_concat l with rfl | ⟨init, last, rfl⟩
  · simp at h
  rw [concat_eq_append] at *
  rw [length_append, length_singleton] at h
  rw [getLast?_append, getLast?_singleton]
  dsimp only [Option.or]
  rcases Nat.lt_or_ge index init.length with hlt | hge
  · rw [set_append_left _ _ hlt, dropLast_concat,
      eraseIdx_append_of_lt_length hlt]
    have hset : init.set index last = init.take index ++ last :: init.drop (index + 1) :=
      set_eq_take_append_cons_drop .. |>.trans (if_pos hlt)
    rw [hset, eraseIdx_eq_take_drop_succ, append_assoc]
    apply Perm.append_left
    exact perm_append_singleton last _ |>.symm
  · have heq : index = init.length := by omega
    subst heq
    simp
    rw [eraseIdx_append_of_length_le (le_refl _)]
    simp

/-- An element and what `swap_remove` leaves make up the vector. -/
theorem perm_cons_swapRemove (h : l[index]? = some a) : l.Perm (a :: swapRemove l index) := by
  obtain ⟨hlt, rfl⟩ := List.getElem?_eq_some_iff.mp h
  exact (getElem_cons_eraseIdx_perm hlt).symm.trans ((swapRemove_perm hlt).symm.cons _)

/-- `swap_remove` leaves exactly the elements at the other indices. -/
theorem mem_swapRemove (h : index < l.length) :
    a ∈ swapRemove l index ↔ ∃ i, i ≠ index ∧ l[i]? = some a := by
  rw [(swapRemove_perm h).mem_iff, mem_eraseIdx_iff_getElem?]

end

/-- The largest value of `usize`. -/
def usizeMax : ℕ := 2 ^ 64 - 1

/-- `usize::saturating_mul`. -/
def saturatingMul (a b : ℕ) : ℕ := min (a * b) usizeMax

/-- `usize::saturating_add`. -/
def saturatingAdd (a b : ℕ) : ℕ := min (a + b) usizeMax

/-- `usize::is_power_of_two`. -/
def isPowerOfTwo (a : ℕ) : Bool := a != 0 && a &&& (a - 1) == 0

end Stratumind
