import Mathlib

/-!
# Replaying numbered changes

A state has a version, and a change with a lower number than the version is skipped. When
changes to different keys are replayed in the order of their numbers, exactly those that
are below the version at the start are lost.
-/

namespace Stratumind.Lib

open List

variable {σ ε κ χ β ρ : Type*}

/-- The entries of a map in the order of their numbers. -/
def orderedEntries (number : χ → ℕ) (changes : AList fun _ : κ => χ) :
    List (Sigma fun _ : κ => χ) :=
  changes.entries.insertionSort fun a b => number a.2 ≤ number b.2

theorem mem_orderedEntries [DecidableEq κ] {number : χ → ℕ} {changes : AList fun _ : κ => χ}
    {entry : Sigma fun _ : κ => χ} :
    entry ∈ orderedEntries number changes ↔ changes.lookup entry.1 = some entry.2 := by
  unfold orderedEntries
  rw [mem_insertionSort]
  exact AList.mem_lookup_iff.symm

variable [DecidableEq κ]

/-- A step that skips a change below the version, and otherwise raises the version to the
number of the change and changes the value of its key, but not the `rest` of the state. Only
`regular` changes are looked at. -/
structure NumberedStep (version : σ → ℕ) (view : σ → κ → Option β) (rest : σ → ρ)
    (number : χ → ℕ) (regular : χ → Prop) (effect : χ → Option β → Option β)
    (step : σ → (Sigma fun _ : κ => χ) → Except ε σ) : Prop where
  skipped : ∀ state entry, regular entry.2 → number entry.2 < version state →
    step state entry = .ok state
  applied : ∀ state entry, regular entry.2 → version state ≤ number entry.2 → ∃ next,
    step state entry = .ok next ∧ version next = number entry.2 ∧ rest next = rest state ∧
    ∀ key, view next key =
      if key = entry.1 then effect entry.2 (view state key) else view state key

namespace NumberedStep

variable {version : σ → ℕ} {view : σ → κ → Option β} {rest : σ → ρ} {number : χ → ℕ}
  {regular : χ → Prop} {effect : χ → Option β → Option β}
  {step : σ → (Sigma fun _ : κ => χ) → Except ε σ}

/-- What a run over changes in the order of their numbers does. -/
theorem foldlM (h : NumberedStep version view rest number regular effect step)
    (entries : List (Sigma fun _ : κ => χ))
    (hsorted : entries.Pairwise fun a b => number a.2 ≤ number b.2) (hkeys : entries.NodupKeys)
    (hregular : ∀ entry ∈ entries, regular entry.2) (state : σ) :
    ∃ final, entries.foldlM step state = .ok final ∧ rest final = rest state ∧
      (∀ bound, version final ≤ bound ↔
        version state ≤ bound ∧ ∀ entry ∈ entries, number entry.2 ≤ bound) ∧
      (∀ entry ∈ entries, view final entry.1 =
        if version state ≤ number entry.2 then effect entry.2 (view state entry.1)
        else view state entry.1) ∧
      ∀ key, (∀ entry ∈ entries, entry.1 ≠ key) → view final key = view state key := by
  induction entries generalizing state with
  | nil =>
    refine ⟨state, rfl, rfl, fun bound => by simp, fun _ hmem => ?_, fun _ _ => rfl⟩
    cases hmem
  | cons first entries ih =>
    obtain ⟨hfirst, hsorted⟩ := pairwise_cons.mp hsorted
    obtain ⟨hnotMem, hkeys⟩ := nodupKeys_cons.mp hkeys
    obtain ⟨hregularFirst, hregular⟩ := forall_mem_cons.mp hregular
    by_cases hle : version state ≤ number first.2
    · obtain ⟨next, hstep, hversion, hrest, hview⟩ := h.applied state first hregularFirst hle
      obtain ⟨final, hfinal, hframe, hbound, hchanged, hkept⟩ := ih hsorted hkeys hregular next
      have hfold : (first :: entries).foldlM step state = .ok final := by
        rw [foldlM_cons, hstep]
        exact hfinal
      -- the number of a later change is not below the raised version
      grind
    · obtain ⟨final, hfinal, hframe, hbound, hchanged, hkept⟩ := ih hsorted hkeys hregular state
      have hfold : (first :: entries).foldlM step state = .ok final := by
        rw [foldlM_cons, h.skipped state first hregularFirst (Nat.lt_of_not_le hle)]
        exact hfinal
      grind

/-- What the replay of a map of changes in the order of their numbers does. -/
theorem replay (h : NumberedStep version view rest number regular effect step)
    (changes : AList fun _ : κ => χ)
    (hregular : ∀ key change, changes.lookup key = some change → regular change) (state : σ) :
    ∃ final, (orderedEntries number changes).foldlM step state = .ok final ∧
      rest final = rest state ∧
      (∀ bound, version final ≤ bound ↔ version state ≤ bound ∧
        ∀ key change, changes.lookup key = some change → number change ≤ bound) ∧
      ∀ key, view final key =
        match changes.lookup key with
        | none => view state key
        | some change =>
          if version state ≤ number change then effect change (view state key)
          else view state key := by
  obtain ⟨final, hfinal, hframe, hbound, hchanged, hkept⟩ :=
    h.foldlM _ (pairwise_insertionSort _ _)
      ((perm_nodupKeys (perm_insertionSort _ _)).mpr changes.nodupKeys)
      (fun entry hentry => hregular entry.1 entry.2 (mem_orderedEntries.mp hentry)) state
  refine ⟨final, hfinal, hframe, fun bound => ?_, fun key => ?_⟩
  · rw [hbound]
    refine and_congr_right fun _ => ⟨fun hall key change hlookup => ?_, fun hall entry hentry => ?_⟩
    · exact hall ⟨key, change⟩ (mem_orderedEntries.mpr hlookup)
    · exact hall entry.1 entry.2 (mem_orderedEntries.mp hentry)
  cases hlookup : changes.lookup key with
  | none =>
    refine hkept key fun entry hentry heq => ?_
    have hentry := mem_orderedEntries.mp hentry
    rw [heq, hlookup] at hentry
    cases hentry
  | some change => exact hchanged ⟨key, change⟩ (mem_orderedEntries.mpr hlookup)

end NumberedStep

end Stratumind.Lib
