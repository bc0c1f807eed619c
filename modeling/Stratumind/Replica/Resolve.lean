import Stratumind.Common.Iter
import Stratumind.Lib.Assoc

/-!
# Resolving the responses of replicas

`resolve.rs` decides which items of the responses of several replicas are served. A `Resolver`
groups equal items under their ids and accepts the groups that enough replicas report. If all
items are accepted, the response of the first replica is served. Otherwise `MergeInOrder` merges
what is accepted of each response by the heads.
-/

namespace Stratumind

variable {Item Id : Type}

/-- `ResolveCondition`: how many replicas must agree. -/
inductive ResolveCondition
  | all
  | majority
  deriving DecidableEq, Repr

def ResolveCondition.resolutionCount (condition : ResolveCondition) (numReplicas : ℕ) : ℕ :=
  match condition with
  | .all => numReplicas
  | .majority => numReplicas / 2 + 1

/-- Equal items with their coordinates, which are a row and an index in it. -/
structure ResolverRecord (Item : Type) where
  item : Item
  coordinates : List (ℕ × ℕ)
  count : ℕ

def ResolverRecord.new (item : Item) (row index : ℕ) : ResolverRecord Item :=
  ⟨item, [(row, index)], 1⟩

/-- Counts an item in the first group of equal items, or starts a group. -/
def addRecord (compare : Item → Item → Bool) (item : Item) (row index : ℕ) :
    List (ResolverRecord Item) → List (ResolverRecord Item)
  | [] => [ResolverRecord.new item row index]
  | point :: points =>
    if compare item point.item then
      { point with
        count := point.count + 1
        coordinates := point.coordinates ++ [(row, index)] } :: points
    else point :: addRecord compare item row index points

/-- The groups of equal items of each id. -/
structure Resolver (Item Id : Type) where
  items : AList fun _ : Id => List (ResolverRecord Item)

namespace Resolver

variable [DecidableEq Id]

def new : Resolver Item Id := ⟨∅⟩

def add (compare : Item → Item → Bool) (resolver : Resolver Item Id) (id : Id) (item : Item)
    (row index : ℕ) : Resolver Item Id :=
  ⟨resolver.items.insert id (addRecord compare item row index ((resolver.items.lookup id).getD []))⟩

def addAll (identify : Item → Id) (compare : Item → Item → Bool) (resolver : Resolver Item Id)
    (items : List (List Item)) : Resolver Item Id :=
  items.zipIdx.foldl (fun resolver (items, row) => items.zipIdx.foldl (fun resolver (item, index) =>
      resolver.add compare (identify item) item row index) resolver) resolver

/-- The coordinates of the accepted items: of each id, the first group that is large enough. -/
def resolvedCoords (resolver : Resolver Item Id) (resolutionCount : ℕ) : Finset (ℕ × ℕ) :=
  (resolver.items.entries.flatMap fun entry =>
    ((entry.2.find? fun point => resolutionCount ≤ point.count).map
      ResolverRecord.coordinates).getD []).toFinset

end Resolver

/-- The iterators of `MergeInOrder`, as the items to come. -/
structure MergeInOrder (Item : Type) where
  resolvedIters : List (List Item)

namespace MergeInOrder

variable [DecidableEq Id]

/-- The rows with their current heads. -/
def peekHeads (identify : Item → Id) (merge : MergeInOrder Item) : List (ℕ × Id) :=
  merge.resolvedIters.zipIdx.filterMap fun (iter, row) =>
    iter.head?.map fun peeked => (row, identify peeked)

/-- The rows in which each id is the head. -/
def headsMap (identify : Item → Id) (merge : MergeInOrder Item) : AList fun _ : Id => List ℕ :=
  (merge.peekHeads identify).foldl
    (fun map (row, id) => map.insert id ((map.lookup id).getD [] ++ [row])) ∅

/-- Takes the next item of each row and returns the last one. -/
def advanceRows (merge : MergeInOrder Item) (rowIds : List ℕ) : Option Item × MergeInOrder Item :=
  rowIds.foldl (fun (_, merge) row => (merge.resolvedIters[row]?.bind List.head?,
      ⟨merge.resolvedIters.modify row List.tail⟩)) (none, merge)

/-- Takes an id that is most often the head. A hash map gives its values in any order, which
`intoValues` stands for. -/
def next (intoValues : List (List ℕ) → List (List ℕ)) (identify : Item → Id)
    (merge : MergeInOrder Item) : Option Item × MergeInOrder Item :=
  let values := intoValues ((merge.headsMap identify).entries.map fun entry => entry.2)
  match maxBy (fun left right => compare left.length right.length) values with
  | none => (none, merge)
  | some chosenRows => merge.advanceRows chosenRows

/-- Collects the items. Each turn takes one at least, so their number bounds the turns. -/
def collectVec (intoValues : List (List ℕ) → List (List ℕ)) (identify : Item → Id) :
    ℕ → MergeInOrder Item → List Item
  | 0, _ => []
  | turns + 1, merge =>
    match merge.next intoValues identify with
    | (none, _) => []
    | (some item, merge) => item :: collectVec intoValues identify turns merge

end MergeInOrder

/-- `Resolver::resolve`. -/
def Resolver.resolve [DecidableEq Id] (intoValues : List (List ℕ) → List (List ℕ))
    (items : List (List Item)) (identify : Item → Id) (compare : Item → Item → Bool)
    (condition : ResolveCondition) : List Item :=
  let resolutionCount := condition.resolutionCount items.length
  let resolver := new.addAll identify compare items
  let resolvedCoords := resolver.resolvedCoords resolutionCount
  let allItemsLen := (items.map List.length).sum
  if resolvedCoords.card = allItemsLen then items.head?.getD []
  else
    let resolvedIters := items.zipIdx.map fun (response, replicaId) =>
      response.zipIdx.filterMap fun (item, index) =>
        if (replicaId, index) ∈ resolvedCoords then some item else none
    MergeInOrder.collectVec intoValues identify allItemsLen ⟨resolvedIters⟩

end Stratumind
