import Mathlib

/-!
# Positions and prefixes of lists

A list around one of its positions, prefixes of ordered lists, and loops that update single
positions of a buffer.
-/

namespace Stratumind.Lib

open List

variable {α : Type*}

/-- A list around one of its positions. -/
theorem exists_split_of_getElem? {list : List α} {index : ℕ} {a : α} (h : list[index]? = some a) :
    ∃ before after, list = before ++ a :: after ∧ before.length = index := by
  obtain ⟨hlt, rfl⟩ := List.getElem?_eq_some_iff.mp h
  refine ⟨list.take index, list.drop (index + 1), ?_, by simp; omega⟩
  rw [← drop_eq_getElem_cons hlt, take_append_drop]

/-- Updating a list at one of its positions. -/
theorem modify_append_cons (before after : List α) (a : α) (f : α → α) :
    (before ++ a :: after).modify before.length f = before ++ f a :: after := by
  induction before with
  | nil => rfl
  | cons b before ih => simpa using ih

/-- Inserting into a list at one of its positions. -/
theorem insertIdx_append (before after : List α) (a : α) :
    (before ++ after).insertIdx before.length a = before ++ a :: after := by
  induction before with
  | nil => rfl
  | cons b before ih => simpa using ih

/-- A scan stops at the first element that fails the predicate. -/
theorem takeWhile_boundary (p : α → Bool) (list : List α) :
    (∀ index < (list.takeWhile p).length, ∃ a, list[index]? = some a ∧ p a = true) ∧
      ∀ a, list[(list.takeWhile p).length]? = some a → p a = false := by
  induction list with
  | nil => simp
  | cons b list ih =>
    by_cases hb : p b = true
    · rw [takeWhile_cons_of_pos hb, length_cons]
      grind
    · rw [takeWhile_cons_of_neg hb]
      grind

variable {β : Type*}

/-- A relation between lists may be weakened at their elements. -/
theorem forall₂_imp_mem {r r' : α → β → Prop} {left : List α} {right : List β}
    (h : Forall₂ r left right) (himp : ∀ a, ∀ b ∈ right, r a b → r' a b) :
    Forall₂ r' left right := by
  induction h with
  | nil => exact Forall₂.nil
  | cons hab _ ih =>
    refine Forall₂.cons (himp _ _ mem_cons_self hab) (ih fun a b hb => ?_)
    exact himp a b (mem_cons_of_mem _ hb)

/-- Members of related lists have related partners. -/
theorem forall₂_exists {r : α → β → Prop} {left : List α} {right : List β}
    (h : Forall₂ r left right) :
    (∀ a ∈ left, ∃ b ∈ right, r a b) ∧ ∀ b ∈ right, ∃ a ∈ left, r a b := by
  induction h with
  | nil => simp
  | @cons a b left right hab _ ih =>
    grind

/-- Mapping a list with a fallible function maps each element. -/
theorem forall₂_of_mapM_eq_some {f : α → Option β} {list : List α} {mapped : List β}
    (h : list.mapM f = some mapped) : Forall₂ (fun a b => f a = some b) list mapped := by
  induction list generalizing mapped with
  | nil =>
    cases h
    exact Forall₂.nil
  | cons a list ih =>
    rw [mapM_cons, Option.bind_eq_bind, Option.bind_eq_some_iff] at h
    obtain ⟨b, hb, hrest⟩ := h
    rw [Option.bind_eq_bind, Option.bind_eq_some_iff] at hrest
    obtain ⟨rest, hmapped, hpure⟩ := hrest
    cases hpure
    exact Forall₂.cons hb (ih hmapped)

section Ordered

variable {r : α → α → Prop} {p : α → Bool} (hp : ∀ a b, r a b → p b = true → p a = true)
include hp

variable {list : List α}

/-- In an ordered list a downward closed predicate holds exactly on a prefix. -/
theorem takeWhile_eq_filter (h : list.Pairwise r) : list.takeWhile p = list.filter p := by
  induction list with
  | nil => rfl
  | cons a list ih =>
    obtain ⟨hhead, htail⟩ := pairwise_cons.mp h
    by_cases ha : p a = true
    · rw [takeWhile_cons_of_pos ha, filter_cons_of_pos ha, ih htail]
    · have hnone : ∀ b ∈ list, ¬p b = true := fun b hb hpb => ha (hp a b (hhead b hb) hpb)
      rw [takeWhile_cons_of_neg ha, filter_cons_of_neg ha, filter_eq_nil_iff.mpr hnone]

/-- What is left after that prefix. -/
theorem dropWhile_eq_filter (h : list.Pairwise r) :
    list.dropWhile p = list.filter fun a => !p a := by
  induction list with
  | nil => rfl
  | cons a list ih =>
    obtain ⟨hhead, htail⟩ := pairwise_cons.mp h
    by_cases ha : p a = true
    · rw [dropWhile_cons_of_pos ha, filter_cons_of_neg (by simp [ha]), ih htail]
    have hall : ∀ b ∈ list, (!p b) = true := by
      grind
    rw [dropWhile_cons_of_neg ha, filter_cons_of_pos (by simp [ha]),
      filter_eq_self.mpr hall]

/-- An ordered list is the prefix and what is left after it. -/
theorem filter_append_filter_not (h : list.Pairwise r) :
    list.filter p ++ list.filter (fun a => !p a) = list := by
  rw [← takeWhile_eq_filter hp h, ← dropWhile_eq_filter hp h, takeWhile_append_dropWhile]

end Ordered

/-!
### Strictly ranked lists

A ranking lists its members in strictly increasing order of a linearly ordered
key. Such a list is determined by its members, so two computations agree as soon
as they list the same members in ranked order. The key of a scored identity
orders higher scores first and breaks ties by the smaller identity.
-/

/-- The key under which a smaller value means "higher score, then smaller identity". -/
def rankKey {S Id : Type*} (score : S) (id : Id) : Sᵒᵈ ×ₗ Id :=
  toLex (OrderDual.toDual score, id)

variable {S : Type*} {Id : Type*}

/-- One key precedes another exactly when its score is higher, or the scores
agree and its identity is smaller. -/
theorem rankKey_lt_iff [LinearOrder S] [LinearOrder Id] {s t : S} {i j : Id} :
    rankKey s i < rankKey t j ↔ t < s ∨ (s = t ∧ i < j) := by
  unfold rankKey
  rw [Prod.Lex.toLex_lt_toLex, OrderDual.toDual_lt_toDual, OrderDual.toDual_inj]

/-- Non-strict comparison of two rank keys. -/
theorem rankKey_le_iff [LinearOrder S] [LinearOrder Id] {s t : S} {i j : Id} :
    rankKey s i ≤ rankKey t j ↔ t < s ∨ (s = t ∧ i ≤ j) := by
  unfold rankKey
  rw [Prod.Lex.toLex_le_toLex, OrderDual.toDual_lt_toDual, OrderDual.toDual_inj]

/-- Rank keys are equal only for equal scores and identities. -/
@[simp] theorem rankKey_inj {s t : S} {i j : Id} : rankKey s i = rankKey t j ↔ s = t ∧ i = j := by
  unfold rankKey
  rw [toLex_inj, Prod.mk.injEq, OrderDual.toDual_inj]

/-- Comparing scores downwards and then identities upwards compares the rank keys. -/
theorem compare_then_eq_compare_rankKey [LinearOrder S] [LinearOrder Id] (s t : S) (i j : Id) :
    (compare t s).then (compare i j) = compare (rankKey s i) (rankKey t j) := rfl

section Ranked

variable {α κ : Type*} [LinearOrder κ] {key : α → κ}

/-- The members stand in strictly increasing order of their keys. -/
def Ranked (key : α → κ) (l : List α) : Prop := l.Pairwise fun a b => key a < key b

/-- The members of a list in increasing order of their keys. -/
def rankBy (key : α → κ) (l : List α) : List α := l.insertionSort fun a b => key a ≤ key b

@[simp] theorem ranked_nil : Ranked key [] := Pairwise.nil

variable {l : List α}

theorem ranked_cons {a : α} : Ranked key (a :: l) ↔ (∀ b ∈ l, key a < key b) ∧ Ranked key l :=
  pairwise_cons

variable {r : List α}

theorem ranked_append :
    Ranked key (l ++ r) ↔ Ranked key l ∧ Ranked key r ∧ ∀ a ∈ l, ∀ b ∈ r, key a < key b :=
  pairwise_append

/-- A ranking never lists a member twice. -/
theorem Ranked.nodup (h : Ranked key l) : l.Nodup :=
  Pairwise.imp (fun hlt heq => by simp [heq] at hlt) h

/-- A ranking is determined by its members. -/
theorem Ranked.eq_of_mem_iff (hl : Ranked key l) (hr : Ranked key r)
    (h : ∀ a, a ∈ l ↔ a ∈ r) : l = r := by
  exact Pairwise.eq_of_mem_iff hl hr h

/-- A member that precedes every other member heads the ranking. -/
theorem Ranked.eq_cons_of_forall_lt {a : α} (h : Ranked key l) (ha : a ∈ l)
    (hmin : ∀ b ∈ l, b ≠ a → key a < key b) : ∃ r, l = a :: r ∧ ∀ b, b ∈ r ↔ b ∈ l ∧ b ≠ a := by
  cases l with
  | nil => simp at ha
  | cons c r =>
    obtain ⟨hcr, _⟩ := ranked_cons.mp h
    have hca : c = a := by
      by_contra hne
      have hlt := hmin c (by simp) hne
      rcases mem_cons.mp ha with rfl | har
      · exact hne rfl
      · exact absurd (hcr a har) (not_lt.mpr hlt.le)
    subst hca
    refine ⟨r, rfl, fun b => ⟨fun hb => ⟨mem_cons_of_mem _ hb, ?_⟩, ?_⟩⟩
    · rintro rfl
      exact lt_irrefl _ (hcr b hb)
    · rintro ⟨hb, hne⟩
      exact (mem_cons.mp hb).resolve_left hne

theorem mem_rankBy {a : α} : a ∈ rankBy key l ↔ a ∈ l :=
  mem_insertionSort _

theorem rankBy_perm (l : List α) : (rankBy key l).Perm l := perm_insertionSort _ l

/-- Sorting puts no greater key first. -/
theorem rankBy_pairwise (key : α → κ) (l : List α) :
    (rankBy key l).Pairwise fun a b => key a ≤ key b := by
  exact pairwise_insertionSort _ l

/-- Sorting by a key that separates the members gives a ranking. -/
theorem ranked_rankBy (h : (l.map key).Nodup) : Ranked key (rankBy key l) := by
  have hsorted := rankBy_pairwise key l
  have hnodup : (rankBy key l).Pairwise fun a b => key a ≠ key b := by
    have hmap : ((rankBy key l).map key).Nodup := ((rankBy_perm l).map key).nodup_iff.mpr h
    exact pairwise_map.mp hmap
  exact Pairwise.imp₂ (fun _ _ hle hne => lt_of_le_of_ne hle hne) hsorted hnodup

/-- A ranking with the members of `l` is the sorted form of `l`. -/
theorem Ranked.eq_rankBy (hr : Ranked key r) (hl : (l.map key).Nodup)
    (h : ∀ a, a ∈ r ↔ a ∈ l) : r = rankBy key l :=
  hr.eq_of_mem_iff (ranked_rankBy hl) fun a => by rw [h, mem_rankBy]

end Ranked

end Stratumind.Lib
