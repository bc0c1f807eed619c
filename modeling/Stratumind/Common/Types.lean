import Mathlib

/-!
# Errors and scores

The errors of `segment::common::operation_error` that the modelled components
build or pass on. Backtraces are not modelled.
-/

namespace Stratumind

/-- The kinds of failure an operation reports, each with its description. -/
inductive OperationError where
  | serviceError (description : String)
  | inconsistentStorage (description : String)
  | cancelled (description : String)
  | timeout (description : String)
  | validationError (description : String)
  deriving DecidableEq, Repr

/-- The text under which an error is shown. -/
def OperationError.display : OperationError → String
  | .serviceError description => "Service runtime error: " ++ description
  | .inconsistentStorage description => "Inconsistent storage: " ++ description
  | .cancelled description => "Operation cancelled: " ++ description
  | .timeout description => "Timeout error: " ++ description
  | .validationError description => "Validation failed: " ++ description

/-- Result of a fallible operation. -/
abbrev OperationResult (α : Type) := Except OperationError α

/-!
### Scores and the arithmetic of rank fusion

Scores are compared through the total order of `OrderedFloat`, so a score type is
a linear order with a test for finite values. Rank fusion also adds contributions.
Its exactness needs no exact arithmetic: it is enough that addition is monotone
with neutral zero, and that the contribution of a rank does not grow with the rank.
Rational arithmetic is such an arithmetic.
-/

/-- A type of scores under the total order of `OrderedFloat`. -/
class Score (S : Type) extends LinearOrder S where
  /-- Whether the score is neither infinite nor a NaN. -/
  isFinite : S → Bool

/-- An arithmetic of fusion scores. Addition need not be associative. -/
class RankArithmetic (F : Type) extends Score F, Zero F, One F, Add F, Sub F, Mul F, Div F,
    NatCast F where
  add_mono : ∀ {a b c d : F}, a ≤ b → c ≤ d → a + c ≤ b + d
  zero_add : ∀ a : F, 0 + a = a
  add_zero : ∀ a : F, a + 0 = a
  /-- The contribution of a rank is not negative. -/
  reciprocal_nonneg : ∀ (position k : ℕ) (weight : F), 0 < k → 0 < weight →
    0 ≤ 1 / (((position + 1 : ℕ) : F) / weight + (k : F) - 1)
  /-- A later rank contributes no more than an earlier one. -/
  reciprocal_antitone : ∀ (position next k : ℕ) (weight : F), 0 < k → 0 < weight →
    position ≤ next →
      1 / (((next + 1 : ℕ) : F) / weight + (k : F) - 1) ≤
        1 / (((position + 1 : ℕ) : F) / weight + (k : F) - 1)

private theorem rank_denominator_pos (position k : ℕ) (weight : ℚ) (hk : 0 < k)
    (hweight : 0 < weight) : 0 < ((position + 1 : ℕ) : ℚ) / weight + (k : ℚ) - 1 := by
  have hrank : 0 < ((position + 1 : ℕ) : ℚ) / weight := by positivity
  have hk' : (1 : ℚ) ≤ k := by exact_mod_cast hk
  linarith

/-- Exact rational arithmetic. -/
instance : RankArithmetic ℚ where
  isFinite _ := true
  add_mono := add_le_add
  zero_add := zero_add
  add_zero := add_zero
  reciprocal_nonneg position k weight hk hweight :=
    div_nonneg zero_le_one (rank_denominator_pos position k weight hk hweight).le
  reciprocal_antitone position next k weight hk hweight hle := by
    have hpos := rank_denominator_pos position k weight hk hweight
    have hcast : ((position + 1 : ℕ) : ℚ) ≤ ((next + 1 : ℕ) : ℚ) := by
      exact_mod_cast Nat.succ_le_succ hle
    have hdiv : ((position + 1 : ℕ) : ℚ) / weight ≤ ((next + 1 : ℕ) : ℚ) / weight := by
      gcongr
    apply one_div_le_one_div_of_le hpos
    linarith

/-- Rational scores together with an infinite one. -/
instance : Score (WithTop ℚ) where
  isFinite score := score ≠ ⊤

end Stratumind
