import Mathlib

/-!
# Filters

The filters of `segment::types` with their merge, and how `query_checker.rs` decides whether a
point passes one. Conditions other than nested filters are decided by a checker that knows the
point; they are one type of leaf conditions here.
-/

namespace Stratumind.Query

/-- A list of conditions of which some number must hold. -/
structure MinShould (C : Type) where
  conditions : List C
  minCount : ℕ
  deriving DecidableEq, Repr

/-- A filter: every clause that is present restricts the points. -/
structure FilterOf (C : Type) where
  should : Option (List C)
  minShould : Option (MinShould C)
  must : Option (List C)
  mustNot : Option (List C)
  deriving DecidableEq, Repr

/-- A condition: a leaf condition (`Field`, `IsEmpty`, `IsNull`, `HasId`, `HasVector`, `Nested`,
`CustomIdChecker`) or a filter. -/
inductive Condition (A : Type) where
  | leaf (condition : A)
  | filter (filter : FilterOf (Condition A))

/-- Filters over conditions. -/
abbrev Filter (A : Type) := FilterOf (Condition A)

section Check

variable {A : Type} (checker : A → Bool)

mutual

/-- `check_condition`. -/
def checkCondition : Condition A → Bool
  | .leaf condition => checker condition
  | .filter filter => checkFilter filter

/-- `check_filter`: all clauses accept. -/
def checkFilter : FilterOf (Condition A) → Bool
  | ⟨should, minShould, must, mustNot⟩ =>
    checkShould should && checkMinShould minShould && checkMust must && checkMustNot mustNot

/-- `check_should`: some condition holds. -/
def checkShould : Option (List (Condition A)) → Bool
  | none => true
  | some conditions => anyCondition conditions

/-- `check_min_should`: at least `min_count` conditions hold. -/
def checkMinShould : Option (MinShould (Condition A)) → Bool
  | none => true
  | some ⟨conditions, minCount⟩ => min minCount (countConditions conditions) = minCount

/-- `check_must`: all conditions hold. -/
def checkMust : Option (List (Condition A)) → Bool
  | none => true
  | some conditions => allConditions conditions

/-- `check_must_not`: no condition holds. -/
def checkMustNot : Option (List (Condition A)) → Bool
  | none => true
  | some conditions => noCondition conditions

/-- Some condition of a list holds. -/
def anyCondition : List (Condition A) → Bool
  | [] => false
  | condition :: conditions => checkCondition condition || anyCondition conditions

/-- How many conditions of a list hold. -/
def countConditions : List (Condition A) → ℕ
  | [] => 0
  | condition :: conditions =>
    (if checkCondition condition then 1 else 0) + countConditions conditions

/-- All conditions of a list hold. -/
def allConditions : List (Condition A) → Bool
  | [] => true
  | condition :: conditions => checkCondition condition && allConditions conditions

/-- No condition of a list holds. -/
def noCondition : List (Condition A) → Bool
  | [] => true
  | condition :: conditions => !checkCondition condition && noCondition conditions

end

end Check

section Merge

variable {C : Type}

/-- Merges clauses of one kind: the conditions of both. -/
def mergeComponent : Option (List C) → Option (List C) → Option (List C)
  | none, none => none
  | some this, none => some this
  | none, some other => some other
  | some this, some other => some (this ++ other)

/-- Merges `min_should` clauses: the conditions of both, under the greater count. -/
def mergeMinShould : Option (MinShould C) → Option (MinShould C) → Option (MinShould C)
  | none, none => none
  | some this, none => some this
  | none, some other => some other
  | some this, some other =>
    some ⟨this.conditions ++ other.conditions, max this.minCount other.minCount⟩

/-- `Filter::merge_owned`. -/
def FilterOf.mergeOwned (self other : FilterOf C) : FilterOf C where
  should := mergeComponent self.should other.should
  minShould := mergeMinShould self.minShould other.minShould
  must := mergeComponent self.must other.must
  mustNot := mergeComponent self.mustNot other.mustNot

/-- `Filter::merge_opts`. -/
def FilterOf.mergeOpts : Option (FilterOf C) → Option (FilterOf C) → Option (FilterOf C)
  | none, none => none
  | some this, none => some this
  | none, some other => some other
  | some this, some other => some (this.mergeOwned other)

end Merge

section Semantics

variable {A : Type} (checker : A → Bool)

/-- No filter accepts every point. -/
def checkOptional (filter : Option (Filter A)) : Bool := filter.all (checkFilter checker)

variable {conditions : List (Condition A)}

/-- The recursive disjunction is `List.any`. -/
theorem anyCondition_eq :
    anyCondition checker conditions = conditions.any (checkCondition checker) := by
  induction conditions with
  | nil => simp [anyCondition]
  | cons condition conditions ih => simp [anyCondition, ih]

/-- The recursive conjunction is `List.all`. -/
theorem allConditions_eq :
    allConditions checker conditions = conditions.all (checkCondition checker) := by
  induction conditions with
  | nil => simp [allConditions]
  | cons condition conditions ih => simp [allConditions, ih]

/-- No condition holds if all of them fail. -/
theorem noCondition_eq :
    noCondition checker conditions = conditions.all fun x => !checkCondition checker x := by
  induction conditions with
  | nil => simp [noCondition]
  | cons condition conditions ih => simp [noCondition, ih]

/-- The recursive count is `List.countP`. -/
theorem countConditions_eq :
    countConditions checker conditions = conditions.countP (checkCondition checker) := by
  induction conditions with
  | nil => simp [countConditions]
  | cons condition conditions ih => simp [countConditions, ih, List.countP_cons, Nat.add_comm]

/-- The counts of two lists add up. -/
theorem countConditions_append (left right : List (Condition A)) :
    countConditions checker (left ++ right) =
      countConditions checker left + countConditions checker right := by
  simp [countConditions_eq]

/-- A filter accepts if each of its clauses does. -/
theorem checkFilter_eq_true {filter : Filter A} :
    checkFilter checker filter = true ↔
      checkShould checker filter.should = true ∧ checkMinShould checker filter.minShould = true ∧
      checkMust checker filter.must = true ∧ checkMustNot checker filter.mustNot = true := by
  obtain ⟨should, minShould, must, mustNot⟩ := filter
  simp [checkFilter, and_assoc]

/-- A count clause accepts if enough conditions hold. -/
theorem checkMinShould_some {clause : MinShould (Condition A)} :
    checkMinShould checker (some clause) = true ↔
      clause.minCount ≤ countConditions checker clause.conditions := by
  simp [checkMinShould]

end Semantics

/-- The conditions of all clauses of a filter. -/
def FilterOf.conditions {C : Type} (filter : FilterOf C) : List C :=
  filter.should.getD [] ++ (((filter.minShould.map (·.conditions)).getD []) ++
    (filter.must.getD [] ++ filter.mustNot.getD []))

/-- Every filter in a tree of conditions has a property. -/
inductive Everywhere {A : Type} (property : Filter A → Prop) : Condition A → Prop
  | leaf (condition : A) : Everywhere property (.leaf condition)
  | filter {filter : Filter A} (hproperty : property filter)
      (hconditions : ∀ condition ∈ filter.conditions, Everywhere property condition) :
      Everywhere property (.filter filter)

end Stratumind.Query
