import Stratumind.Replica.ResolveAgreement

/-!
# Resolving facet responses

`FacetResponse::resolve` keeps the values that enough responses contain, resolves their counts
and merges what it keeps of the responses by their heads. Responses are ordered by counts, which
differ between replicas. A value is therefore repeated unless the responses agree on an order of
the values that are kept.
-/

namespace Stratumind

open Lib List

/-- `CountResult::resolve`: the least count, or the middle one of the sorted counts. -/
def CountResult.resolve (counts : List ℕ) : ResolveCondition → ℕ
  | .all => counts.min?.getD 0
  | .majority => (counts.insertionSort (· ≤ ·))[counts.length / 2]?.getD 0

@[ext] structure FacetValueHit (Value : Type) where
  value : Value
  count : ℕ
deriving DecidableEq

namespace FacetResponse

variable {Value : Type} [DecidableEq Value]

section Code

variable (responses : List (List (FacetValueHit Value))) (condition : ResolveCondition)

/-- The counts of each value, in the order of the responses. -/
def reportedCounts : AList fun _ : Value => List ℕ :=
  responses.flatten.foldl (fun map hit =>
    map.insert hit.value ((map.lookup hit.value).getD [] ++ [hit.count])) ∅

/-- The entry of a value in `resolved_counts`, if it is in enough replicas. -/
def resolvedCount (value : Value) : Option ℕ :=
  (((reportedCounts responses).lookup value).filter fun counts =>
    condition.resolutionCount responses.length ≤ counts.length).map fun counts =>
      CountResult.resolve counts condition

/-- `FacetResponse::resolve`, on the hits of the responses. -/
def resolve (intoValues : List (List ℕ) → List (List ℕ)) : List (FacetValueHit Value) :=
  let filteredIters := responses.map fun hits => hits.filterMap fun hit =>
    (resolvedCount responses condition hit.value).map fun count => { hit with count }
  MergeInOrder.collectVec intoValues FacetValueHit.value (responses.map length).sum
    ⟨filteredIters⟩

/-- The values of each response. -/
def values : List (List Value) := responses.map fun hits => hits.map FacetValueHit.value

/-- Enough responses contain the value. -/
abbrev InEnough (value : Value) : Prop :=
  condition.resolutionCount responses.length ≤ memCount value (values responses)

/-- The count of a value that the reported counts resolve to. -/
def countOf (value : Value) : ℕ :=
  CountResult.resolve ((responses.flatten.filter fun hit => hit.value = value).map
    FacetValueHit.count) condition

/-- The hits have every value that enough responses contain once, with its resolved count, and no
other value. -/
def ListsAgreedOnce (hits : List (FacetValueHit Value)) : Prop :=
  (hits.map FacetValueHit.value).Nodup ∧ ∀ hit, hit ∈ hits ↔
    InEnough responses condition hit.value ∧ hit.count = countOf responses condition hit.value

/-- What is kept of each response, with the resolved counts. -/
def keptHits : List (List (FacetValueHit Value)) :=
  responses.map fun hits =>
    (hits.filter fun hit => InEnough responses condition hit.value).map fun hit =>
      { hit with count := countOf responses condition hit.value }

/-- What enough responses contain of the values of each response. -/
def agreedValues : List (List Value) :=
  (values responses).map fun row => row.filter fun value => InEnough responses condition value

end Code

variable {responses : List (List (FacetValueHit Value))} {condition : ResolveCondition}
  (hne : responses ≠ []) (hnodup : ∀ row ∈ values responses, row.Nodup)

theorem ids_keptHits : MergeInOrder.ids FacetValueHit.value ⟨keptHits responses condition⟩ =
    agreedValues responses condition := by
  unfold MergeInOrder.ids keptHits agreedValues values
  rw [map_map, map_map]
  refine map_congr_left fun hits _ => ?_
  simp [filter_map, Function.comp_def]

theorem memCount_agreedValues {value : Value} (henough : InEnough responses condition value) :
    memCount value (agreedValues responses condition) = memCount value (values responses) := by
  unfold memCount agreedValues
  rw [countP_map]
  refine countP_congr fun row _ => ?_
  simp [henough]

include hne hnodup

/-- Each response reports one count of a value that it contains. -/
theorem resolvedCount_eq (value : Value) : resolvedCount responses condition value =
    if InEnough responses condition value then some (countOf responses condition value)
    else none := by
  have hmajority := condition.lt_two_mul_resolutionCount (length_pos_iff.mpr hne)
  have hcount : (responses.flatten.filter fun hit => hit.value = value).length =
      memCount value (values responses) := by
    rw [← countP_eq_length_filter, countP_flatten_eq]
    · unfold memCount values
      rw [countP_map]
      refine countP_congr fun hits _ => ?_
      simp
    · intro hits hhits
      exact countP_le_one (hnodup _ (mem_map_of_mem hhits)) fun hit hhit => of_decide_eq_true hhit
  have hlookup := lookup_foldl_group FacetValueHit.value FacetValueHit.count responses.flatten ∅
    value
  unfold resolvedCount reportedCounts countOf InEnough
  rw [hlookup, ← hcount]
  generalize (responses.flatten.filter fun hit => hit.value = value) = hits
  cases hits with
  | nil =>
    have hfew : ¬condition.resolutionCount responses.length ≤ 0 := by omega
    exact (if_neg hfew).symm
  | cons hit hits =>
    by_cases henough : condition.resolutionCount responses.length ≤ (hit :: hits).length <;>
      simp [Option.filter]

theorem resolve_eq (intoValues : List (List ℕ) → List (List ℕ)) :
    resolve responses condition intoValues = MergeInOrder.collectVec intoValues FacetValueHit.value
      (responses.map length).sum ⟨keptHits responses condition⟩ := by
  have hkept : ∀ hits : List (FacetValueHit Value), (hits.filterMap fun hit =>
        (resolvedCount responses condition hit.value).map fun count => { hit with count }) =
      (hits.filter fun hit => InEnough responses condition hit.value).map fun hit =>
        { hit with count := countOf responses condition hit.value } := by
    intro hits
    induction hits with
    | nil => rfl
    | cons hit hits ih =>
      rw [filterMap_cons, ih, resolvedCount_eq hne hnodup, filter_cons]
      by_cases henough : InEnough responses condition hit.value <;> simp [henough]
  unfold resolve
  rw [map_congr_left fun hits _ => hkept hits]
  rfl

/-- For every non-empty list of responses without repeated values, both conditions and every order
of hash maps, the resolved response has every agreed value once if and only if the responses agree
on an order of these values. -/
theorem facet_response_lists_agreed_once_iff {intoValues : List (List ℕ) → List (List ℕ)}
    (hvalues : ∀ values, (intoValues values).Perm values) :
    ListsAgreedOnce responses condition (resolve responses condition intoValues) ↔
      Compatible (agreedValues responses condition) := by
  have hmajority := condition.lt_two_mul_resolutionCount (length_pos_iff.mpr hne)
  have hturns : ((keptHits responses condition).map length).sum ≤
      (responses.map length).sum := by
    unfold keptHits
    rw [map_map]
    refine sum_le_sum fun hits _ => ?_
    rw [Function.comp_apply, length_map]
    exact length_filter_le _ hits
  obtain ⟨hmerged, hitems⟩ := @MergeInOrder.collectVec_spec _ _ _ FacetValueHit.value intoValues
    hvalues _ ⟨keptHits responses condition⟩ hturns
  rw [← resolve_eq hne hnodup] at hmerged hitems
  rw [ids_keptHits] at hmerged
  have hrows : ∀ row ∈ agreedValues responses condition, row.Nodup ∧ ∀ value ∈ row,
      (agreedValues responses condition).length <
        2 * memCount value (agreedValues responses condition) := by
    refine forall_mem_map.mpr fun row hrow => ⟨filter_sublist.nodup (hnodup row hrow), ?_⟩
    intro value hvalue
    have henough := of_decide_eq_true (mem_filter.mp hvalue).2
    have hlength : (agreedValues responses condition).length = responses.length := by
      rw [agreedValues, length_map, values, length_map]
    rw [memCount_agreedValues henough, hlength]
    omega
  rw [← hmerged.nodup_iff (fun row hrow => (hrows row hrow).1) fun row hrow => (hrows row hrow).2]
  have hkept : ∀ hit ∈ resolve responses condition intoValues,
      InEnough responses condition hit.value ∧
        hit.count = countOf responses condition hit.value := by
    intro hit hhit
    obtain ⟨row, hrow, hmem⟩ := hitems hit hhit
    obtain ⟨hits, -, rfl⟩ := mem_map.mp hrow
    obtain ⟨original, horiginal, rfl⟩ := mem_map.mp hmem
    exact ⟨of_decide_eq_true (mem_filter.mp horiginal).2, rfl⟩
  refine and_iff_left_of_imp fun _ hit => ⟨hkept hit, fun ⟨henough, hcount⟩ => ?_⟩
  have hpos : 0 < memCount hit.value (agreedValues responses condition) := by
    rw [memCount_agreedValues henough]
    omega
  obtain ⟨row, hrow, hvalue⟩ := countP_pos_iff.mp hpos
  obtain ⟨found, hfound, hfoundValue⟩ := mem_map.mp
    ((hmerged.sublist row hrow).subset (of_decide_eq_true hvalue))
  have hfoundCount : found.count = hit.count := by
    rw [(hkept found hfound).2, hcount, hfoundValue]
  exact FacetValueHit.ext hfoundValue hfoundCount ▸ hfound

omit hne hnodup

/-- Three responses that list two values in one order, with different counts. -/
theorem facet_response_lists_agreed_once_three_responses :
    ListsAgreedOnce [[⟨0, 5⟩, ⟨1, 3⟩], [⟨0, 4⟩, ⟨1, 4⟩], [⟨1, 2⟩]] .majority
      (resolve [[⟨0, 5⟩, ⟨1, 3⟩], [⟨0, 4⟩, ⟨1, 4⟩], [⟨1, 2⟩]] .majority id) :=
  (facet_response_lists_agreed_once_iff (by decide) (by decide) fun _ => Perm.refl _).mpr
    ⟨[0, 1], by decide, by decide⟩

/-- Two replicas that count two values so differently that they order them differently make the
merge return one of them twice. -/
theorem resolve_repeats_value :
    resolve [[⟨0, 5⟩, ⟨1, 3⟩], [⟨1, 4⟩, ⟨0, 2⟩]] .all id = [⟨0, 2⟩, ⟨1, 3⟩, ⟨0, 2⟩] ∧
    ¬ListsAgreedOnce [[⟨0, 5⟩, ⟨1, 3⟩], [⟨1, 4⟩, ⟨0, 2⟩]] .all
      (resolve [[⟨0, 5⟩, ⟨1, 3⟩], [⟨1, 4⟩, ⟨0, 2⟩]] .all id) :=
  ⟨by decide, fun h => absurd h.1 (by decide)⟩

end FacetResponse

end Stratumind
