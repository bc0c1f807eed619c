import Mathlib

/-!
# Priority queues

A max-heap is represented by the list of its entries. Popping removes an entry
that compares greatest; pushing puts an entry in front. The order in which a heap
stores its entries is not observable, so every fact below is about permutations.
Entries are related to a linearly ordered key that decreases as entries become
greater: the popped entry is the one with the least key.
-/

namespace Stratumind.Lib

open List

section

variable {α : Type*} (cmp : α → α → Ordering)

/-- Removes an entry that compares greatest, together with the entries left. -/
def popMax : List α → Option (α × List α)
  | [] => none
  | a :: l =>
    match popMax l with
    | none => some (a, [])
    | some (m, rest) => if cmp a m = .gt then some (a, m :: rest) else some (m, a :: rest)

/-- The entry that `popMax` would remove. -/
def peekMax (l : List α) : Option α := (popMax cmp l).map Prod.fst

variable {cmp}

@[simp] theorem popMax_nil : popMax cmp [] = none := rfl

variable {l : List α}

/-- Only an empty heap has nothing to pop. -/
@[simp] theorem popMax_eq_none : popMax cmp l = none ↔ l = [] := by
  cases l with
  | nil => simp
  | cons a l =>
    unfold popMax
    cases popMax cmp l with
    | none => simp
    | some p =>
      dsimp only
      split <;> simp

/-- Popping splits the heap into the popped entry and the rest. -/
theorem popMax_perm {rest : List α} {m : α} (h : popMax cmp l = some (m, rest)) :
    l.Perm (m :: rest) := by
  induction l generalizing m rest with
  | nil => simp at h
  | cons a l ih =>
    unfold popMax at h
    cases hl : popMax cmp l with
    | none =>
      obtain rfl := popMax_eq_none.mp hl
      obtain ⟨rfl, rfl⟩ := Prod.mk.inj (Option.some.inj h)
      exact Perm.refl _
    | some p =>
      have hperm := ih hl
      rw [hl] at h
      dsimp only at h
      split at h
      · obtain ⟨rfl, rfl⟩ := Prod.mk.inj (Option.some.inj h)
        exact Perm.cons _ hperm
      · obtain ⟨rfl, rfl⟩ := Prod.mk.inj (Option.some.inj h)
        exact (Perm.cons _ hperm).trans (Perm.swap _ _ _)

/-- The popped entry has the least key when greater entries have smaller keys. -/
theorem popMax_key_le {κ : Type*} [LinearOrder κ] {key : α → κ}
    (hcmp : ∀ a b, cmp a b = compare (key b) (key a)) {rest : List α} {m : α}
    (h : popMax cmp l = some (m, rest)) : ∀ b ∈ rest, key m ≤ key b := by
  induction l generalizing m rest with
  | nil => simp at h
  | cons a l ih =>
    unfold popMax at h
    cases hl : popMax cmp l with
    | none =>
      rw [hl] at h
      obtain ⟨rfl, rfl⟩ := Prod.mk.inj (Option.some.inj h)
      simp
    | some p =>
      obtain ⟨m', rest'⟩ := p
      have hmin := ih hl
      rw [hl] at h
      dsimp only at h
      split at h
      · rename_i hgt
        have hlt : key a < key m' := by
          rw [hcmp, compare_gt_iff_gt] at hgt
          exact hgt
        grind
      rename_i hgt
      obtain ⟨rfl, rfl⟩ := Prod.mk.inj (Option.some.inj h)
      have hle : key m' ≤ key a := by
        rw [hcmp, compare_gt_iff_gt] at hgt
        exact not_lt.mp hgt
      intro b hb
      rcases mem_cons.mp hb with rfl | hb
      · exact hle
      · exact hmin b hb

/-- A non-empty heap has an entry to pop. -/
theorem exists_popMax (h : l ≠ []) : ∃ m rest, popMax cmp l = some (m, rest) := by
  cases hl : popMax cmp l with
  | none => exact absurd (popMax_eq_none.mp hl) h
  | some p => exact ⟨p.1, p.2, rfl⟩

end

end Stratumind.Lib
