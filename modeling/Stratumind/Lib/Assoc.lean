import Mathlib

/-!
# Finite maps

Operations on association lists that the standard library of finite maps lacks: applying a
function to every value, and running over the entries of one map while updating another.
-/

namespace Stratumind.Lib

open List

variable {κ β γ : Type*} [DecidableEq κ]

@[grind =] theorem lookup_insert (map : AList fun _ : κ => β) (key other : κ) (value : β) :
    (map.insert key value).lookup other =
      if other = key then some value else map.lookup other := by
  split
  · subst_vars
    exact AList.lookup_insert _
  · exact AList.lookup_insert_ne ‹_›

@[grind =] theorem lookup_erase (map : AList fun _ : κ => β) (key other : κ) :
    (map.erase key).lookup other = if other = key then none else map.lookup other := by
  split
  · subst_vars
    exact AList.lookup_erase _ _
  · exact AList.lookup_erase_ne ‹_›

/-- Applies a function to every value. -/
def mapValues (f : β → γ) (map : AList fun _ : κ => β) : AList fun _ : κ => γ where
  entries := map.entries.map fun entry => ⟨entry.1, f entry.2⟩
  nodupKeys := by
    have hkeys : keys (map.entries.map fun entry =>
        (⟨entry.1, f entry.2⟩ : Sigma fun _ => γ)) = keys map.entries := by
      rw [keys, keys, map_map]
      rfl
    rw [NodupKeys, hkeys]
    exact map.nodupKeys

theorem lookup_mapValues (f : β → γ) (map : AList fun _ : κ => β) (key : κ) :
    (mapValues f map).lookup key = (map.lookup key).map f := by
  have hentry : ∀ value, (mapValues f map).lookup key = some value ↔
      (map.lookup key).map f = some value := by
    intro value
    rw [Option.map_eq_some_iff, ← Option.mem_def, AList.mem_lookup_iff]
    constructor
    · intro h
      obtain ⟨entry, hentry, heq⟩ := mem_map.mp h
      obtain ⟨rfl, hvalue⟩ := Sigma.mk.inj heq
      exact ⟨entry.2, AList.mem_lookup_iff.mpr hentry, eq_of_heq hvalue⟩
    · rintro ⟨old, hold, rfl⟩
      exact mem_map.mpr ⟨⟨key, old⟩, AList.mem_lookup_iff.mp hold, rfl⟩
  exact Option.ext hentry

/-- A run over entries with distinct keys, where each turn changes only the value under the key
of its entry, changes every value at most once. -/
theorem view_foldl_entries {σ : Type*} {view : σ → κ → Option β}
    {step : σ → (Sigma fun _ : κ => γ) → σ} {update : κ → γ → Option β → Option β}
    (hstep : ∀ state entry key, view (step state entry) key =
      if key = entry.1 then update entry.1 entry.2 (view state key) else view state key)
    {entries : List (Sigma fun _ : κ => γ)} (hnodup : entries.NodupKeys) (state : σ) (key : κ) :
    view (entries.foldl step state) key =
      match entries.dlookup key with
      | none => view state key
      | some value => update key value (view state key) := by
  induction entries generalizing state with
  | nil => rfl
  | cons entry entries ih =>
    obtain ⟨entryKey, value⟩ := entry
    obtain ⟨hnotMem, hrestNodup⟩ := nodupKeys_cons.mp hnodup
    rw [foldl_cons, ih hrestNodup, hstep]
    by_cases hkey : key = entryKey
    · subst hkey
      rw [dlookup_eq_none.mpr hnotMem, dlookup_cons_eq, if_pos rfl]
    · rw [dlookup_cons_ne _ _ hkey, if_neg hkey]

/-- A run over the entries of another map that updates a map. -/
theorem lookup_foldl_entries {step : (AList fun _ : κ => β) → (Sigma fun _ : κ => γ) →
      AList fun _ : κ => β} {update : κ → γ → Option β → Option β}
    (hstep : ∀ map entry key, (step map entry).lookup key =
      if key = entry.1 then update entry.1 entry.2 (map.lookup key) else map.lookup key)
    (other : AList fun _ : κ => γ) (map : AList fun _ : κ => β) (key : κ) :
    (other.entries.foldl step map).lookup key =
      match other.lookup key with
      | none => map.lookup key
      | some value => update key value (map.lookup key) :=
  @view_foldl_entries κ β γ _ _ (fun map key => map.lookup key) step update hstep other.entries
    other.nodupKeys map key

/-- Inserts every entry of another map, combined with the value that is there before. -/
def mergeWith (combine : Option β → γ → β) (map : AList fun _ : κ => β)
    (other : AList fun _ : κ => γ) : AList fun _ : κ => β :=
  other.entries.foldl
    (fun map entry => map.insert entry.1 (combine (map.lookup entry.1) entry.2)) map

theorem lookup_mergeWith (combine : Option β → γ → β) (map : AList fun _ : κ => β)
    (other : AList fun _ : κ => γ) (key : κ) :
    (mergeWith combine map other).lookup key =
      ((other.lookup key).map (combine (map.lookup key))).or (map.lookup key) := by
  have hstep : ∀ (map : AList fun _ : κ => β) (entry : Sigma fun _ : κ => γ) (key : κ),
      (map.insert entry.1 (combine (map.lookup entry.1) entry.2)).lookup key =
        if key = entry.1 then some (combine (map.lookup key) entry.2) else map.lookup key := by
    intro map entry key
    rw [lookup_insert]
    by_cases hkey : key = entry.1
    · rw [if_pos hkey, if_pos hkey, hkey]
    · rw [if_neg hkey, if_neg hkey]
  have hlookup := @lookup_foldl_entries κ β γ _ _ (fun _ value old => some (combine old value))
    hstep other map key
  rw [mergeWith, hlookup]
  cases other.lookup key <;> rfl

/-- Merging maps that agree on a key, where they have it, keeps the value of the key. -/
theorem lookup_foldl_mergeWith {α : Type*} {combine : Option β → β → β}
    (hnone : ∀ value, combine none value = value)
    (hself : ∀ value, combine (some value) value = value) (view : α → AList fun _ : κ => β)
    {list : List α} {key : κ} {value : Option β} {map : AList fun _ : κ => β}
    (hmap : ∀ other, map.lookup key = some other → value = some other)
    (hlist : ∀ a ∈ list, ∀ other, (view a).lookup key = some other → value = some other)
    (found : β) :
    (list.foldl (fun map a => mergeWith combine map (view a)) map).lookup key = some found ↔
      map.lookup key = some found ∨ ∃ a ∈ list, (view a).lookup key = some found := by
  induction list generalizing map with
  | nil => simp
  | cons a list ih =>
    obtain ⟨ha, hlist⟩ := forall_mem_cons.mp hlist
    have hlookup := lookup_mergeWith combine map (view a) key
    have hmerged : ∀ other, (mergeWith combine map (view a)).lookup key = some other ↔
        map.lookup key = some other ∨ (view a).lookup key = some other := by
      intro other
      rw [hlookup]
      cases hview : (view a).lookup key with
      | none => simp
      | some new =>
        cases hold : map.lookup key with
        | none => simp [hnone]
        | some old =>
          -- both are the one value of the key
          obtain rfl : old = new := Option.some.inj ((hmap old hold).symm.trans (ha new hview))
          simp [hself]
    rw [foldl_cons, ih (fun other hother => ((hmerged other).mp hother).elim (hmap other)
      (ha other)) hlist, hmerged, exists_mem_cons_iff, or_assoc]

/-- Merging maps that have the same value for a key keeps it. -/
theorem lookup_foldl_mergeWith_const {α : Type*} {combine : Option β → β → β}
    (hnone : ∀ value, combine none value = value)
    (hself : ∀ value, combine (some value) value = value) (view : α → AList fun _ : κ => β)
    {list : List α} (hne : list ≠ []) {key : κ} {value : Option β}
    (hlist : ∀ a ∈ list, (view a).lookup key = value) :
    (list.foldl (fun map a => mergeWith combine map (view a)) ∅).lookup key = value := by
  obtain ⟨first, hfirst⟩ := exists_mem_of_ne_nil list hne
  refine Option.ext fun found => ?_
  rw [lookup_foldl_mergeWith hnone hself view (by simp)
    fun a ha other hother => (hlist a ha).symm.trans hother]
  constructor
  · rintro (hempty | ⟨a, ha, hfound⟩)
    · rw [AList.lookup_empty] at hempty
      cases hempty
    · exact (hlist a ha).symm.trans hfound
  · exact fun hvalue => Or.inr ⟨first, hfirst, (hlist first hfirst).trans hvalue⟩

/-- A run that appends the value of every member to those under its key groups the values. -/
theorem lookup_foldl_group {α : Type*} (key : α → κ) (value : α → β) (list : List α)
    (map : AList fun _ : κ => List β) (k : κ) :
    (list.foldl (fun map a => map.insert (key a) ((map.lookup (key a)).getD [] ++ [value a]))
      map).lookup k =
      if (list.filter fun a => key a = k) = [] then map.lookup k
      else some ((map.lookup k).getD [] ++ (list.filter fun a => key a = k).map value) := by
  induction list generalizing map with
  | nil => rfl
  | cons a list ih =>
    rw [foldl_cons, ih]
    by_cases hkey : key a = k
    · subst hkey
      rw [AList.lookup_insert, filter_cons_of_pos (by simp), if_neg (cons_ne_nil _ _), map_cons]
      split
      · rename_i hnil
        rw [hnil, map_nil]
      · rw [Option.getD_some, append_assoc, singleton_append]
    · rw [AList.lookup_insert_ne (Ne.symm hkey), filter_cons_of_neg (by simpa using hkey)]

/-- A map without entries has no values, and the other way round. -/
theorem entries_eq_nil_iff (map : AList fun _ : κ => β) :
    map.entries = [] ↔ ∀ key, map.lookup key = none := by
  constructor
  · intro h key
    rw [AList.lookup, h, dlookup_nil]
  intro h
  refine eq_nil_iff_forall_not_mem.mpr fun entry hentry => ?_
  have hlookup := AList.mem_lookup_iff.mpr hentry
  rw [h entry.1] at hlookup
  cases hlookup

end Stratumind.Lib
