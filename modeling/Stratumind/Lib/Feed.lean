import Mathlib

/-!
# Pull streams over a shared world

A stream is a closure that reads and updates a world, which holds everything the
closures of a system capture. What a stream has delivered and has still to deliver
is its feed. A supply relates a world to the feeds of all its streams; a closure
serves one feed of a supply when each pull hands out the next items of that feed,
reports the end truthfully, and leaves every other feed alone.
-/

namespace Stratumind.Lib

/-- The items a stream has delivered, the items it has still to deliver, and
whether it has reported its end. -/
structure Feed (α : Type) where
  /-- Items already handed out, in order. -/
  taken : List α
  /-- Items still to come, in order. -/
  rest : List α
  /-- The stream has reported that nothing follows. -/
  ended : Bool

/-- A feed from which nothing has been pulled. -/
def Feed.fresh {α : Type} (items : List α) : Feed α := ⟨[], items, false⟩

/-- The world supplies the given feeds. -/
abbrev Supply (W ι α : Type) := W → (ι → Feed α) → Prop

variable {W ι α β ε : Type} [DecidableEq ι]

/-- A point-wise closure serves feed `k`: it returns the next item, or nothing
exactly at the end. -/
def ServesPoints (supply : Supply W ι α) (next : W → Option (Except ε α) × W) (k : ι) : Prop :=
  ∀ w feeds, supply w feeds → (feeds k).ended = false →
    (∀ x rest, (feeds k).rest = x :: rest → ∃ w', next w = (some (.ok x), w') ∧
      supply w' (Function.update feeds k ⟨(feeds k).taken ++ [x], rest, false⟩)) ∧
    ((feeds k).rest = [] → ∃ w', next w = (none, w') ∧
      supply w' (Function.update feeds k ⟨(feeds k).taken, [], true⟩))

/-- A batch closure serves feed `k`: it returns the next items, at most `size` of
them, flags the end only when nothing follows, and never returns an empty batch
without flagging the end. `fits` is what a batch must say about the feed it extends. -/
def ServesBatches (supply : Supply W ι α) (pull : W → Except ε β × W) (items : β → List α)
    (last : β → Bool) (fits : Feed α → β → Prop) (size : ℕ) (k : ι) : Prop :=
  ∀ w feeds, supply w feeds → (feeds k).ended = false →
    ∃ batch rest w', pull w = (.ok batch, w') ∧ fits (feeds k) batch ∧
      (feeds k).rest = items batch ++ rest ∧ (items batch).length ≤ size ∧
      (last batch = true → rest = []) ∧ (items batch = [] → last batch = true) ∧
      supply w' (Function.update feeds k ⟨(feeds k).taken ++ items batch, rest, last batch⟩)

/-- The supply of a world that consists of its feeds. -/
def ownSupply : Supply (ι → Feed α) ι α := fun w feeds => w = feeds

/-- Pulls the next item of feed `k` in a world that consists of its feeds. -/
def ownNext (k : ι) (w : ι → Feed α) : Option (Except ε α) × (ι → Feed α) :=
  match (w k).rest with
  | [] => (none, Function.update w k ⟨(w k).taken, [], true⟩)
  | x :: rest => (some (.ok x), Function.update w k ⟨(w k).taken ++ [x], rest, false⟩)

/-- Pulling a world that consists of its feeds serves them. -/
theorem ownNext_serves (k : ι) : ServesPoints ownSupply (ownNext (α := α) (ε := ε) k) k := by
  rintro w _ rfl _
  refine ⟨fun x rest hrest => ⟨_, ?_, rfl⟩, fun hrest => ⟨_, ?_, rfl⟩⟩ <;> simp [ownNext, hrest]

/-- Pulls up to `limit` items of feed `k` in a world that consists of its feeds. The reply
is made from the feed, the items and whether they are the last. -/
def ownBatch (reply : Feed α → List α → Bool → β) (k : ι) (limit : ℕ) (w : ι → Feed α) :
    Except ε β × (ι → Feed α) :=
  let items := (w k).rest.take limit
  let rest := (w k).rest.drop limit
  (.ok (reply (w k) items rest.isEmpty),
    Function.update w k ⟨(w k).taken ++ items, rest, rest.isEmpty⟩)

/-- Batched pulls of a world that consists of its feeds serve them. -/
theorem ownBatch_serves {reply : Feed α → List α → Bool → β} {items : β → List α} {last : β → Bool}
    {fits : Feed α → β → Prop} (hitems : ∀ f l b, items (reply f l b) = l)
    (hlast : ∀ f l b, last (reply f l b) = b) (hfits : ∀ f l b, fits f (reply f l b)) {size : ℕ}
    (hsize : 0 < size) (k : ι) :
    ServesBatches ownSupply (ownBatch (ε := ε) reply k size) items last fits size k := by
  rintro w _ rfl _
  refine ⟨_, (w k).rest.drop size, _, rfl, hfits .., ?_, ?_, ?_, ?_, ?_⟩
  · rw [hitems, List.take_append_drop]
  · rw [hitems]
    exact List.length_take_le ..
  · rw [hlast]
    simp
  · rw [hitems, hlast]
    intro hempty
    rcases List.take_eq_nil_iff.mp hempty with hzero | hnil
    · omega
    · simp [hnil]
  · rw [hitems, hlast]
    rfl

end Stratumind.Lib
