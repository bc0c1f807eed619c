import Stratumind.Common.Iter
import Stratumind.Common.Types
import Stratumind.Lib.Assoc

/-!
# Types of dynamic rank fusion

The envelope types of `reciprocal_rank_fusion/types.rs`. A stream is a closure over
a world `W` that holds whatever the closures of a session capture, so that streams
may share state.
-/

namespace Stratumind

/-- One contiguous prefix extension from a channel-global exact rank stream.
`startRank` is zero-based and `exhausted` says that no later rank exists. -/
structure ChannelRankBatch (Id : Type) where
  startRank : ℕ
  pointIds : List Id
  exhausted : Bool
  deriving DecidableEq, Repr

/-- Recoverable channel-global exact rank stream, pulled point by point. -/
abbrev ExactRrfStream (W Id : Type) := W → Option (OperationResult Id) × W

/-- Recoverable batch pull boundary for one channel-global exact rank stream. -/
abbrev ExactRrfBatchStream (W Id : Type) := ℕ → W → OperationResult (ChannelRankBatch Id) × W

/-- One source of a fusion session. -/
inductive DynamicRrfSource (W Id : Type) where
  | point (stream : ExactRrfStream W Id)
  | batch (pull : ExactRrfBatchStream W Id)

/-- Why an execution stopped. -/
inductive DynamicRrfStopReason where
  | topKFixed
  | allSourcesExhausted
  deriving DecidableEq, Repr

/-- The certified result of a fusion session over `n` sources. -/
structure DynamicRrfExecution (Id : Type) (n : ℕ) where
  pointIds : List Id
  sourcePulls : Fin n → ℕ
  sourceExhausted : Fin n → Bool
  certificationChecks : ℕ
  stopReason : DynamicRrfStopReason

/-- What one call to advance a session returns. -/
inductive DynamicRrfAdvance (Id : Type) (n : ℕ) where
  | fixed (execution : DynamicRrfExecution Id n)
  | paused

/-- How the next source to pull is chosen. -/
inductive DynamicRrfScheduler where
  | maxNextContribution
  | competitorCostAware
  deriving DecidableEq, Repr

/-- When certification checks run and which source is pulled next. -/
structure DynamicRrfPolicy where
  /-- `none` preserves the original one-check-per-source-round schedule. -/
  warmupCheckInterval : Option ℕ
  /-- Drain the streams after this many pulls per source. -/
  exhaustiveAfterPullsPerSource : Option ℕ
  scheduler : DynamicRrfScheduler
  /-- Longest wait of an unfinished source, as a multiple of the source count. -/
  fairnessAfterActionsPerSource : Option ℕ
  deriving DecidableEq, Repr

/-- The default policy. -/
def DynamicRrfPolicy.default : DynamicRrfPolicy where
  warmupCheckInterval := none
  exhaustiveAfterPullsPerSource := none
  scheduler := .competitorCostAware
  fairnessAfterActionsPerSource := some 8

/-!
### Reciprocal rank scores

The scoring functions of `reciprocal_rank_fusion/scoring.rs`: the contribution of
one rank, the fused order with its identity tie-break, and the exhaustive scoring
that reads every response to its end.
-/

open Lib

variable {Id F : Type}

/-- One search result. Payload, vector, shard key and order value play no role here. -/
structure ScoredPoint (Id S : Type) where
  id : Id
  version : ℕ
  score : S
  deriving DecidableEq, Repr

/-- Contribution of the zero-based rank `position` in a source of the given weight. -/
def positionScore [RankArithmetic F] (position k : ℕ) (weight : F) : F :=
  if weight ≤ 0 then 0 else 1 / (((position + 1 : ℕ) : F) / weight + (k : F) - 1)

/-- The fused order: higher scores first, ties broken by the smaller identity. -/
def rrfOrder [LinearOrder Id] [LinearOrder F] (leftId : Id) (leftScore : F) (rightId : Id)
    (rightScore : F) : Ordering :=
  (compare rightScore leftScore).then (compare leftId rightId)

/-- The winner precedes the challenger whatever their scores turn out to be. -/
def guaranteedBefore [LinearOrder Id] [LinearOrder F] (winnerId : Id) (winnerLowerBound : F)
    (challengerId : Id) (challengerUpperBound : F) : Bool :=
  winnerLowerBound > challengerUpperBound ||
    (winnerLowerBound == challengerUpperBound && winnerId < challengerId)

/-- `Iterator::sum` over scores. -/
def sumScores [Zero F] [Add F] (scores : List F) : F := scores.foldl (· + ·) 0

/-- Adds the contribution of one point of a response to the accumulated points. -/
def accumulatePoint [DecidableEq Id] [RankArithmetic F] (k : ℕ) (weight : F)
    (pointsById : AList fun _ : Id => ScoredPoint Id F) (entry : ScoredPoint Id F × ℕ) :
    AList fun _ : Id => ScoredPoint Id F :=
  let rrfScore := positionScore entry.2 k weight
  match pointsById.lookup entry.1.id with
  | some point => pointsById.insert entry.1.id { point with score := point.score + rrfScore }
  | none => pointsById.insert entry.1.id { entry.1 with score := rrfScore }

/-- Scores every response to its end. Ties are not broken. -/
def rrfScoring [DecidableEq Id] [RankArithmetic F] (responses : List (List (ScoredPoint Id F)))
    (k : ℕ) (weights : Option (List F)) : OperationResult (List (ScoredPoint Id F)) := do
  let weighted ← match weights with
    | some weights =>
      if weights.length ≠ responses.length then
        let got := weights.length
        let expected := responses.length
        throw (.validationError
          s!"Number of weights in RRF should match number of pre-fetches: got {got}, expected {expected}")
      else pure (responses.zip weights)
    | none => pure (responses.map fun response => (response, 1))
  let pointsById := weighted.foldl
    (fun points entry => entry.1.zipIdx.foldl (accumulatePoint k entry.2) points) ∅
  pure (sortBy (fun a b => compare b.score a.score) (pointsById.entries.map Sigma.snd))

/-- The deterministic order of the positive scores. -/
def exactRrfScoring [LinearOrder Id] [RankArithmetic F]
    (responses : List (List (ScoredPoint Id F))) (k : ℕ) (weights : Option (List F)) :
    OperationResult (List (ScoredPoint Id F)) := do
  let scores ← rrfScoring responses k weights
  let positive := scores.filter fun point => point.score > 0
  pure (sortBy (fun left right => rrfOrder left.id left.score right.id right.score) positive)

/-- A guaranteed winner precedes the challenger at any scores within the bounds. -/
theorem rankKey_lt_of_guaranteedBefore [LinearOrder Id] [LinearOrder F] {i j : Id}
    {lower upper s t : F} (h : guaranteedBefore i lower j upper = true) (hs : lower ≤ s)
    (ht : t ≤ upper) : rankKey s i < rankKey t j := by
  rw [rankKey_lt_iff]
  simp only [guaranteedBefore, gt_iff_lt, Bool.or_eq_true, decide_eq_true_eq, Bool.and_eq_true,
    beq_iff_eq] at h
  rcases h with h | ⟨rfl, hid⟩
  · exact Or.inl (ht.trans_lt (h.trans_le hs))
  · rcases (ht.trans hs).lt_or_eq with hlt | heq
    · exact Or.inl hlt
    · exact Or.inr ⟨heq.symm, hid⟩

section

variable [RankArithmetic F]

/-- No rank contributes a negative score. -/
theorem positionScore_nonneg {k : ℕ} (hk : 0 < k) (position : ℕ) (weight : F) :
    0 ≤ positionScore position k weight := by
  unfold positionScore
  split
  · exact le_refl _
  · rename_i hweight
    exact RankArithmetic.reciprocal_nonneg position k weight hk (not_le.mp hweight)

/-- A later rank contributes no more than an earlier one. -/
theorem positionScore_antitone {k : ℕ} (hk : 0 < k) {position next : ℕ} (h : position ≤ next)
    (weight : F) : positionScore next k weight ≤ positionScore position k weight := by
  unfold positionScore
  split
  · exact le_refl _
  · rename_i hweight
    exact RankArithmetic.reciprocal_antitone position next k weight hk (not_le.mp hweight) h

/-- Sums are monotone in every summand. -/
theorem sumScores_mono {ι : Type} (l : List ι) {f g : ι → F} (h : ∀ i ∈ l, f i ≤ g i) :
    sumScores (l.map f) ≤ sumScores (l.map g) := by
  have hfold : ∀ a b : F, a ≤ b → (l.map f).foldl (· + ·) a ≤ (l.map g).foldl (· + ·) b := by
    induction l with
    | nil => intro a b hab; exact hab
    | cons i l ih =>
      intro a b hab
      exact ih (fun j hj => h j (List.mem_cons_of_mem _ hj)) _ _
        (RankArithmetic.add_mono hab (h i (by simp)))
  exact hfold 0 0 le_rfl

/-- A sum of non-negative scores is not negative. -/
theorem sumScores_nonneg {l : List F} (h : ∀ s ∈ l, 0 ≤ s) : 0 ≤ sumScores l := by
  have hfold : ∀ a : F, 0 ≤ a → 0 ≤ l.foldl (· + ·) a := by
    induction l with
    | nil => intro a ha; exact ha
    | cons s l ih =>
      intro a ha
      apply ih (fun t ht => h t (List.mem_cons_of_mem _ ht))
      have hsum := RankArithmetic.add_mono ha (h s (by simp))
      rwa [RankArithmetic.zero_add] at hsum
  exact hfold 0 le_rfl

end

end Stratumind
