import Mathlib

/-!
# Collecting the results of a fallible step

A batch call repeats a step until it has enough items, the step reports the end, or the
step fails. A step that extends an explanation of what has been returned makes the whole
batch extend it. The batches of a list are its consecutive parts.
-/

namespace Stratumind.Lib

variable {σ ε α : Type*}

/-- Repeats a step until `count` items are collected, nothing is left, or it fails. -/
def collect (step : σ → Except ε (Option α) × σ) : ℕ → σ → Except ε (List α) × σ
  | 0, state => (.ok [], state)
  | count + 1, state =>
    match step state with
    | (.error error, state) => (.error error, state)
    | (.ok none, state) => (.ok [], state)
    | (.ok (some item), state) =>
      match collect step count state with
      | (.error error, state) => (.error error, state)
      | (.ok items, state) => (.ok (item :: items), state)

/-- If each step fails badly, ends, or extends the returned sequence, then so does a
batch, and it is short only at the end. -/
theorem collect_cases (step : σ → Except ε (Option α) × σ) (inv ended : List α → σ → Prop)
    (bad : σ → Prop)
    (hstep : ∀ returned state, inv returned state →
      (∃ error next, step state = (.error error, next) ∧ bad next) ∨
      (∃ next, step state = (.ok none, next) ∧ inv returned next ∧ ended returned next) ∨
      (∃ item next, step state = (.ok (some item), next) ∧ inv (returned ++ [item]) next))
    (count : ℕ) (returned : List α) (state : σ) (h : inv returned state) :
    (∃ error next, collect step count state = (.error error, next) ∧ bad next) ∨
    (∃ items next, collect step count state = (.ok items, next) ∧ inv (returned ++ items) next ∧
      items.length ≤ count ∧ (items.length < count → ended (returned ++ items) next)) := by
  induction count generalizing returned state with
  | zero =>
    refine Or.inr ⟨[], state, rfl, ?_, Nat.le_refl _, by simp⟩
    rw [List.append_nil]
    exact h
  | succ count ih =>
    rw [collect]
    rcases hstep returned state h with ⟨error, next, hrun, hbad⟩ | ⟨next, hrun, hinv, hended⟩ |
      ⟨item, mid, hrun, hinv⟩
    · exact Or.inl ⟨error, next, by rw [hrun], hbad⟩
    · refine Or.inr ⟨[], next, by rw [hrun], ?_, by simp, fun _ => ?_⟩
      · rw [List.append_nil]
        exact hinv
      · rw [List.append_nil]
        exact hended
    rw [hrun]
    dsimp only
    rcases ih _ _ hinv with ⟨error, next, hrest, hbad⟩ | ⟨items, next, hrest, hinv', hle, hended⟩
    · exact Or.inl ⟨error, next, by rw [hrest], hbad⟩
    grind

/-- Consecutive parts of a list, of the given sizes as long as it lasts. -/
def slices : List α → List ℕ → List (List α)
  | _, [] => []
  | list, size :: sizes => list.take size :: slices (list.drop size) sizes

/-- Concatenated parts are a prefix of the list. -/
theorem flatten_slices (list : List α) (sizes : List ℕ) :
    (slices list sizes).flatten = list.take sizes.sum := by
  induction sizes generalizing list with
  | nil => simp [slices]
  | cons size sizes ih => rw [slices, List.flatten_cons, ih, List.sum_cons, List.take_add]

/-- A part starts where the parts before it end. -/
theorem getElem?_slices (list : List α) (before : List ℕ) (size : ℕ) (after : List ℕ) :
    (slices list (before ++ size :: after))[before.length]? =
      some ((list.drop before.sum).take size) := by
  induction before generalizing list with
  | nil => simp [slices]
  | cons first before ih =>
    rw [List.cons_append, slices, List.length_cons, List.getElem?_cons_succ, ih, List.drop_drop,
      List.sum_cons]

/-- One call after the other, until one has no outcome. -/
def calls {ι β : Type*} (call : ι → σ → Option (β × σ)) : List ι → σ → Option (List β × σ)
  | [], state => some ([], state)
  | input :: inputs, state =>
    match call input state with
    | none => none
    | some (reply, state) =>
      (calls call inputs state).map fun (replies, state) => (reply :: replies, state)

/-- Calls that each return the next part of a list return its parts. -/
theorem calls_slices {call : ℕ → σ → Option (Except ε (List α) × σ)} {serves : List α → σ → Prop}
    (hcall : ∀ rest state size, 0 < size → serves rest state →
      ∃ next, call size state = some (.ok (rest.take size), next) ∧ serves (rest.drop size) next)
    {sizes : List ℕ} (hsizes : ∀ size ∈ sizes, 0 < size) {rest : List α} {state : σ}
    (h : serves rest state) :
    ∃ next, calls call sizes state = some ((slices rest sizes).map .ok, next) ∧
      serves (rest.drop sizes.sum) next := by
  induction sizes generalizing rest state with
  | nil => exact ⟨state, rfl, h⟩
  | cons size sizes ih =>
    obtain ⟨next, hrun, hnext⟩ := hcall rest state size (hsizes size List.mem_cons_self) h
    obtain ⟨final, hcalls, hfinal⟩ :=
      ih (fun other hmem => hsizes other (List.mem_cons_of_mem _ hmem)) hnext
    refine ⟨final, ?_, ?_⟩
    · rw [calls, hrun]
      dsimp only
      rw [hcalls]
      rfl
    · rw [List.sum_cons, ← List.drop_drop]
      exact hfinal

/-!
### Loops

A `loop` block repeats a turn until the turn returns. A turn that has no outcome
models a panic. The loop runs on fuel; a turn that keeps an invariant and lowers a
measure until it returns makes every sufficiently large fuel give the same result.
-/

/-- How one turn of a loop ends: with another turn, or by returning. -/
inductive Turn (σ ρ : Type*) where
  | again (state : σ)
  | stop (result : ρ)

variable {ρ : Type*}

/-- Repeats a turn until it returns, for at most the given number of turns. -/
def runLoop (turn : σ → Option (Turn σ ρ)) : ℕ → σ → Option ρ
  | 0, _ => none
  | fuel + 1, state =>
    match turn state with
    | none => none
    | some (.stop result) => some result
    | some (.again next) => runLoop turn fuel next

variable {turn : σ → Option (Turn σ ρ)} {inv : σ → Prop} {post : ρ → Prop}

/-- A turn goes on with the invariant or returns with the postcondition. -/
def Turn.Keeps (inv : σ → Prop) (post : ρ → Prop) : Turn σ ρ → Prop
  | again state => inv state
  | stop result => post result

/-- What every turn keeps holds of the result. -/
theorem runLoop_invariant
    (hkeeps : ∀ state ended, inv state → turn state = some ended → ended.Keeps inv post) {fuel : ℕ}
    {state : σ} {result : ρ} (hinv : inv state)
    (h : runLoop turn fuel state = some result) : post result := by
  induction fuel generalizing state with
  | zero => cases h
  | succ fuel ih =>
    rw [runLoop] at h
    split at h
    · cases h
    · rename_i hturn
      cases h
      exact hkeeps state _ hinv hturn
    · rename_i hturn
      exact ih (hkeeps state _ hinv hturn) h

/-- A loop whose turns keep an invariant and lower a measure returns, and any fuel
above the measure gives its result. -/
theorem exists_runLoop (size : σ → ℕ)
    (hturn : ∀ state, inv state → (∃ result, turn state = some (.stop result) ∧ post result) ∨
      ∃ next, turn state = some (.again next) ∧ inv next ∧ size next < size state)
    {state : σ} (hinv : inv state) :
    ∃ result, post result ∧ ∀ fuel, size state < fuel → runLoop turn fuel state = some result := by
  induction hsize : size state using Nat.strong_induction_on generalizing state with
  | _ m ih =>
    subst hsize
    rcases hturn state hinv with ⟨result, hstop, hpost⟩ | ⟨next, hagain, hnext, hlt⟩
    · refine ⟨result, hpost, fun fuel hfuel => ?_⟩
      obtain ⟨fuel, rfl⟩ := Nat.exists_eq_add_of_lt (Nat.zero_lt_of_lt hfuel)
      rw [Nat.zero_add, runLoop, hstop]
    obtain ⟨result, hpost, hrun⟩ := ih (size next) hlt hnext rfl
    refine ⟨result, hpost, fun fuel hfuel => ?_⟩
    obtain ⟨fuel, rfl⟩ := Nat.exists_eq_add_of_lt (Nat.zero_lt_of_lt hfuel)
    rw [Nat.zero_add, runLoop, hagain]
    exact hrun fuel (by omega)

/-- A computation on fuel returns the same result for every sufficiently large fuel. -/
def Returns (call : ℕ → Option ρ) (result : ρ) : Prop :=
  ∃ enough, ∀ fuel, enough < fuel → call fuel = some result

/-- A computation that needs no fuel returns. -/
theorem returns_some (result : ρ) : Returns (fun _ => some result) result :=
  ⟨0, fun _ _ => rfl⟩

/-- A computation that returns still does when its result is mapped. -/
theorem Returns.map {τ : Type*} {call : ℕ → Option ρ} {result : ρ} (h : Returns call result)
    (f : ρ → τ) : Returns (fun fuel => (call fuel).map f) (f result) := by
  obtain ⟨enough, hcall⟩ := h
  exact ⟨enough, fun fuel hfuel => congrArg (Option.map f) (hcall fuel hfuel)⟩

end Stratumind.Lib
