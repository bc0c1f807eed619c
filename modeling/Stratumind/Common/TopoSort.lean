import Stratumind.Lib.Assoc

/-!
# Topological sorting

`TopoSort` and `TopoSortIter` of `common::toposort`, by which segments are flushed after those
they depend on. Hash maps are association lists, in any order of their entries.
-/

namespace Stratumind

open List Lib Function

variable {T V : Type} [DecidableEq T]

/-- The elements that each element depends on, with a value for each dependency. -/
structure TopoSort (T V : Type) where
  dependencies : AList fun _ : T => AList fun _ : T => V := ∅

/-- The entries of a map whose keys and values pass a test. -/
def retainEntries (filter : T → V → Bool) (deps : AList fun _ : T => V) :
    AList fun _ : T => V where
  entries := deps.entries.filter fun entry => filter entry.1 entry.2
  nodupKeys := deps.nodupKeys.sublist filter_sublist

namespace TopoSort

variable (topo : TopoSort T V)

/-- `TopoSort::add_dependency`. -/
def addDependency (element dependsOn : T) (value : V) : TopoSort T V where
  dependencies := topo.dependencies.insert element
    (((topo.dependencies.lookup element).getD ∅).insert dependsOn value)

/-- `TopoSort::retain`: elements without dependencies are removed. -/
def retain (filter : T → T → V → Bool) : TopoSort T V where
  dependencies :=
    { entries := (topo.dependencies.entries.map fun entry =>
        (⟨entry.1, retainEntries (filter entry.1) entry.2⟩ : Sigma fun _ : T => _)).filter
          fun entry => !entry.2.entries.isEmpty
      nodupKeys := by
        refine NodupKeys.sublist filter_sublist ?_
        rw [NodupKeys, keys, map_map]
        exact topo.dependencies.nodupKeys }

/-- The value of a dependency, if there is one. -/
def value (element dependsOn : T) : Option V :=
  (topo.dependencies.lookup element).bind fun deps => deps.lookup dependsOn

end TopoSort

/-- The state of a sort: remaining dependencies of each node, the nodes that depend on each
node, and the nodes that are ready. -/
structure TopoSortIter (T : Type) where
  inDegree : AList fun _ : T => ℕ
  dependents : T → List T
  ready : List T

namespace TopoSortIter

/-- The turn of the loop of `TopoSortIter::new` for one node. -/
def addNode (iter : TopoSortIter T) (entry : Sigma fun _ : T => AList fun _ : T => V) :
    TopoSortIter T :=
  if entry.1 ∈ iter.inDegree then
    let deps := entry.2.keys.filter (· ∈ iter.inDegree)
    { iter with
      inDegree := iter.inDegree.insert entry.1 deps.length
      dependents := deps.foldl (fun dependents dep =>
        update dependents dep (dependents dep ++ [entry.1])) iter.dependents }
  else iter

/-- `TopoSortIter::new`. -/
def new (dependencies : AList fun _ : T => AList fun _ : T => V) (allNodes : List T) :
    TopoSortIter T :=
  let inDegree := allNodes.foldl (fun inDegree node => inDegree.insert node 0) ∅
  let iter := dependencies.entries.foldl addNode ⟨inDegree, fun _ => [], []⟩
  { iter with ready := allNodes.filter fun node => (iter.inDegree.lookup node).getD 0 = 0 }

/-- The turn of the loop of `next` for one dependent. -/
def release (iter : TopoSortIter T) (dependent : T) : TopoSortIter T :=
  match iter.inDegree.lookup dependent with
  | none => iter
  | some count =>
    { iter with
      inDegree := iter.inDegree.insert dependent (count - 1)
      ready := if count - 1 = 0 then iter.ready ++ [dependent] else iter.ready }

/-- `Iterator::next`. -/
def next (iter : TopoSortIter T) : Option (T × TopoSortIter T) :=
  match iter.ready with
  | [] => none
  | node :: ready =>
    some (node, (iter.dependents node).foldl release
      { iter with dependents := update iter.dependents node [], ready })

/-- The elements of a number of calls of `next`, and the iterator after them. -/
def take : ℕ → TopoSortIter T → List T × TopoSortIter T
  | 0, iter => ([], iter)
  | count + 1, iter =>
    match iter.next with
    | none => ([], iter)
    | some (node, iter) => let (nodes, iter) := iter.take count; (node :: nodes, iter)

/-- `TopoSortIter::into_unordered_vec`. -/
def intoUnorderedVec (iter : TopoSortIter T) : List T :=
  iter.ready ++ (iter.inDegree.entries.filter fun entry => entry.2 ≠ 0).map Sigma.fst

end TopoSortIter

/-- `TopoSort::sort_elements`. -/
def TopoSort.sortElements (topo : TopoSort T V) (elements : List T) : TopoSortIter T :=
  .new topo.dependencies elements

/-! ### What the calls store -/

theorem TopoSort.value_addDependency (topo : TopoSort T V) (element dependsOn x y : T) (value : V) :
    (topo.addDependency element dependsOn value).value x y =
      if x = element ∧ y = dependsOn then some value else topo.value x y := by
  unfold TopoSort.value addDependency
  cases hdeps : topo.dependencies.lookup element <;> grind [AList.lookup_empty]

/-- Retained entries are those that the filter keeps. -/
private theorem lookup_retainEntries (filter : T → V → Bool) (deps : AList fun _ : T => V) (x : T) :
    (retainEntries filter deps).lookup x = (deps.lookup x).filter (filter x) := by
  refine Option.ext fun value => ?_
  rw [Option.filter_eq_some_iff, ← Option.mem_def, ← Option.mem_def, AList.mem_lookup_iff,
    AList.mem_lookup_iff, retainEntries, mem_filter]

/-- Retaining filters the value of every pair. -/
theorem TopoSort.value_retain (topo : TopoSort T V) (filter : T → T → V → Bool) (x y : T) :
    (topo.retain filter).value x y = (topo.value x y).filter (filter x y) := by
  refine Option.ext fun value => ?_
  simp only [TopoSort.value, Option.filter_eq_some_iff, Option.bind_eq_some_iff]
  constructor
  · rintro ⟨deps, hdeps, hvalue⟩
    obtain ⟨entry, hentry, heq⟩ := mem_map.mp (mem_filter.mp (AList.mem_lookup_iff.mp hdeps)).1
    obtain ⟨rfl, hkept⟩ := Sigma.mk.inj heq
    rw [← eq_of_heq hkept, lookup_retainEntries, Option.filter_eq_some_iff] at hvalue
    exact ⟨⟨entry.2, AList.mem_lookup_iff.mpr hentry, hvalue.1⟩, hvalue.2⟩
  · rintro ⟨⟨deps, hdeps, hvalue⟩, hfilter⟩
    have hkept : (retainEntries (filter x) deps).lookup y = some value := by
      rw [lookup_retainEntries, hvalue, Option.filter_some, if_pos hfilter]
    refine ⟨_, AList.mem_lookup_iff.mpr (mem_filter.mpr
      ⟨mem_map.mpr ⟨_, AList.mem_lookup_iff.mp hdeps, rfl⟩, ?_⟩), hkept⟩
    have hne := mt (entries_eq_nil_iff (retainEntries (filter x) deps)).mp
    grind

/-! ### The sort -/

section Sorting

/-- The listed elements that a node depends on. -/
def TopoSort.listedDeps (topo : TopoSort T V) (elements : List T) (node : T) : List T :=
  (((topo.dependencies.lookup node).map AList.keys).getD []).filter (· ∈ elements)

variable {deps : T → List T} {elements emitted : List T} {iter : TopoSortIter T}

/-- The elements that were emitted come after those they depend on, and the iterator counts for
every other element those that are not emitted yet. -/
structure TopoSortIter.Sorting (deps : T → List T) (elements emitted : List T)
    (iter : TopoSortIter T) : Prop where
  degree : ∀ x, iter.inDegree.lookup x =
    if x ∈ elements then some ((deps x).filter (· ∉ emitted)).length else none
  dependents : ∀ d ∉ emitted, (iter.dependents d).Nodup ∧
    ∀ x, x ∈ iter.dependents d ↔ x ∈ elements ∧ d ∈ deps x
  nodup : (emitted ++ iter.ready).Nodup
  mem : ∀ x, x ∈ emitted ++ iter.ready ↔ x ∈ elements ∧ ∀ d ∈ deps x, d ∈ emitted
  ordered : ∀ front x back, emitted = front ++ x :: back → ∀ d ∈ deps x, d ∈ front

namespace TopoSortIter

/-- Releasing nodes lowers their degrees and makes those of degree one ready. -/
private theorem foldl_release (nodes : List T) (hnodup : nodes.Nodup) (iter : TopoSortIter T) :
    (nodes.foldl release iter).dependents = iter.dependents ∧
      (nodes.foldl release iter).ready = iter.ready ++ nodes.filter (fun x =>
        (iter.inDegree.lookup x).any fun count => count - 1 = 0) ∧
      ∀ x, (nodes.foldl release iter).inDegree.lookup x =
        if x ∈ nodes then (iter.inDegree.lookup x).map (· - 1) else iter.inDegree.lookup x := by
  induction nodes generalizing iter with
  | nil => simp
  | cons node nodes ih =>
    obtain ⟨hnotMem, hnodup⟩ := nodup_cons.mp hnodup
    obtain ⟨hdependents, hready, hdegree⟩ := ih hnodup (iter.release node)
    have hlookup : ∀ x, (iter.release node).inDegree.lookup x =
        if x = node then (iter.inDegree.lookup x).map (· - 1) else iter.inDegree.lookup x := by
      unfold release
      grind
    have hrest : nodes.filter (fun x => ((iter.release node).inDegree.lookup x).any
          fun count => count - 1 = 0) =
        nodes.filter fun x => (iter.inDegree.lookup x).any fun count => count - 1 = 0 := by
      refine filter_congr fun x hx => ?_
      rw [hlookup, if_neg (ne_of_mem_of_not_mem hx hnotMem)]
    rw [hrest] at hready
    refine ⟨?_, ?_, fun x => ?_⟩
    · rw [foldl_cons, hdependents]
      unfold release
      split <;> rfl
    · rw [foldl_cons, hready, filter_cons]
      unfold release
      cases hcount : iter.inDegree.lookup node with
      | none => simp
      | some count => by_cases hzero : count - 1 = 0 <;> simp [hzero]
    · rw [foldl_cons, hdegree, hlookup]
      grind

/-- Emitting a node takes it out of those that remain. -/
private theorem length_remaining {nodes : List T} (hnodup : nodes.Nodup) {node : T}
    (hnode : node ∉ emitted) : (nodes.filter (· ∉ emitted ++ [node])).length =
      (nodes.filter (· ∉ emitted)).length - if node ∈ nodes then 1 else 0 := by
  have herase : nodes.filter (· ∉ emitted ++ [node]) = (nodes.filter (· ∉ emitted)).erase node := by
    rw [(hnodup.filter _).erase_eq_filter, filter_filter]
    exact filter_congr fun x _ => by grind
  grind

section

variable (h : Sorting deps elements emitted iter)

include h

/-- A call of `next` emits an element whose dependencies are emitted. -/
theorem Sorting.next (hdeps : ∀ x, (deps x).Nodup) {node : T} {after : TopoSortIter T}
    (hnext : iter.next = some (node, after)) : Sorting deps elements (emitted ++ [node]) after := by
  obtain ⟨inDegree, dependents, ready⟩ := iter
  cases ready with
  | nil => cases hnext
  | cons first ready =>
    obtain ⟨rfl, hafter⟩ := Prod.mk.inj (Option.some.inj hnext)
    have hnotMem : first ∉ emitted := fun hold =>
      (nodup_append'.mp h.nodup).2.2 hold mem_cons_self
    obtain ⟨hdependents, hready, hdegree⟩ := foldl_release (dependents first)
      (h.dependents first hnotMem).1 ⟨inDegree, update dependents first [], ready⟩
    rw [hafter] at hdependents hready hdegree
    have hmem := fun x => (h.dependents first hnotMem).2 x
    have hlength := fun x => length_remaining (hdeps x) hnotMem
    have hdegree : ∀ x, after.inDegree.lookup x = if x ∈ elements then
        some ((deps x).filter (· ∉ emitted ++ [first])).length else none := by
      intro x
      rw [hdegree, h.degree x, hlength]
      by_cases hx : x ∈ elements <;> by_cases hfirst : first ∈ deps x <;> simp [hmem, hx, hfirst]
    -- a dependent is ready when the node was the last one it waited for
    have hreleased : ∀ x, x ∈ (dependents first).filter (fun x =>
        (inDegree.lookup x).any fun count => count - 1 = 0) ↔
          (x ∈ elements ∧ first ∈ deps x) ∧ ∀ d ∈ deps x, d ∈ emitted ++ [first] := by
      intro x
      have := h.degree x
      rw [mem_filter, hmem, and_congr_right_iff]
      rintro ⟨hx, hfirst⟩
      have hzero : ((deps x).filter (· ∉ emitted ++ [first])).length = 0 ↔
          ∀ d ∈ deps x, d ∈ emitted ++ [first] := by
        simp [filter_eq_nil_iff, or_iff_not_imp_left]
      rw [← hzero, hlength, if_pos hfirst, this, if_pos hx]
      simp
    refine ⟨hdegree, ?_, ?_, ?_, ?_⟩
    · intro d hd
      obtain ⟨hd, hne⟩ : d ∉ emitted ∧ d ≠ first := by simpa using hd
      simpa [hdependents, update_of_ne hne] using h.dependents d hd
    · have hnew := (h.dependents first hnotMem).1.filter fun x =>
        (inDegree.lookup x).any fun count => count - 1 = 0
      have hdisjoint : ∀ x, (first ∈ deps x) → x ∉ emitted ++ first :: ready :=
        fun x hx hold => hnotMem (((h.mem x).mp hold).2 first hx)
      rw [hready, append_assoc, singleton_append, ← cons_append, ← append_assoc, nodup_append]
      refine ⟨h.nodup, hnew, fun x hold y hy heq => ?_⟩
      subst heq
      exact hdisjoint x ((hmem x).mp (mem_filter.mp hy).1).2 hold
    · intro x
      rw [hready, append_assoc, singleton_append, ← cons_append, ← append_assoc, mem_append,
        hreleased, h.mem x]
      constructor
      · rintro (⟨hx, hall⟩ | ⟨⟨hx, -⟩, hall⟩)
        · exact ⟨hx, fun d hd => mem_append_left _ (hall d hd)⟩
        · exact ⟨hx, hall⟩
      · rintro ⟨hx, hall⟩
        by_cases hfirst : first ∈ deps x
        · exact Or.inr ⟨⟨hx, hfirst⟩, hall⟩
        · refine Or.inl ⟨hx, fun d hd => (mem_append.mp (hall d hd)).resolve_right fun hd' => ?_⟩
          exact hfirst (mem_singleton.mp hd' ▸ hd)
    · intro front x back heq
      obtain rfl | ⟨back, last, rfl⟩ := back.eq_nil_or_concat
      · obtain ⟨rfl, hx⟩ := append_inj' heq rfl
        obtain rfl := singleton_inj.mp hx
        exact ((h.mem first).mp (by simp)).2
      · rw [concat_eq_append, ← cons_append, ← append_assoc] at heq
        exact h.ordered front x back (append_inj' heq rfl).1

/-- Calls of `next` emit elements until none is ready. -/
theorem Sorting.take (hdeps : ∀ x, (deps x).Nodup) (count : ℕ) :
    Sorting deps elements (emitted ++ (iter.take count).1) (iter.take count).2 ∧
      ((iter.take count).2.ready = [] ∨ (iter.take count).1.length = count) := by
  induction count generalizing emitted iter with
  | zero => simpa [take] using h
  | succ count ih =>
    unfold take
    cases hnext : iter.next with
    | none =>
      have hready : iter.ready = [] := by
        unfold TopoSortIter.next at hnext
        grind
      simpa [hready] using h
    | some found =>
      have hrest := ih (h.next hdeps hnext)
      simpa using hrest

/-- The elements that are left are those that are ready or wait for others. -/
theorem Sorting.perm (helements : elements.Nodup) :
    emitted ++ iter.intoUnorderedVec ~ elements := by
  have hwaiting : ∀ x, x ∈ (iter.inDegree.entries.filter fun entry => entry.2 ≠ 0).map Sigma.fst ↔
      x ∈ elements ∧ ¬ ∀ d ∈ deps x, d ∈ emitted := by
    intro x
    have hzero : ((deps x).filter (· ∉ emitted)).length = 0 ↔ ∀ d ∈ deps x, d ∈ emitted := by
      simp [filter_eq_nil_iff]
    have hentry : x ∈ (iter.inDegree.entries.filter fun entry => entry.2 ≠ 0).map Sigma.fst ↔
        ∃ count, iter.inDegree.lookup x = some count ∧ count ≠ 0 := by
      simp only [← Option.mem_def, AList.mem_lookup_iff]
      simp
    rw [hentry, h.degree, ← hzero]
    by_cases hx : x ∈ elements <;> simp [hx]
  have hkeys : ((iter.inDegree.entries.filter fun entry => entry.2 ≠ 0).map Sigma.fst).Nodup :=
    iter.inDegree.nodupKeys.sublist filter_sublist
  have hnodup : (emitted ++ iter.intoUnorderedVec).Nodup := by
    rw [intoUnorderedVec, ← append_assoc, nodup_append]
    refine ⟨h.nodup, hkeys, ?_⟩
    rintro x hx _ hy rfl
    exact ((hwaiting x).mp hy).2 ((h.mem x).mp hx).2
  refine (perm_ext_iff_of_nodup hnodup helements).mpr fun x => ?_
  have := h.mem x
  rw [intoUnorderedVec]
  grind

end

/-- The node is listed under each of its dependencies. -/
private theorem foldl_push {nodes : List T} (hnodup : nodes.Nodup) (dependents : T → List T)
    (node d : T) : nodes.foldl (fun dependents dep =>
      update dependents dep (dependents dep ++ [node])) dependents d =
        dependents d ++ if d ∈ nodes then [node] else [] := by
  induction nodes generalizing dependents with
  | nil => simp
  | cons dep nodes ih =>
    obtain ⟨hnotMem, hnodup⟩ := nodup_cons.mp hnodup
    rw [foldl_cons, ih hnodup]
    by_cases hd : d = dep
    · subst hd
      simp [hnotMem]
    · simp [hd]

/-- The nodes of all entries are added. -/
private theorem foldl_addNode (entries : List (Sigma fun _ : T => AList fun _ : T => V))
    (hnodup : entries.NodupKeys) (iter : TopoSortIter T)
    (hkeys : ∀ x, x ∈ iter.inDegree ↔ x ∈ elements) :
    (∀ x, (entries.foldl addNode iter).inDegree.lookup x = match entries.dlookup x with
      | none => iter.inDegree.lookup x
      | some deps =>
        if x ∈ elements then some (deps.keys.filter (· ∈ elements)).length else none) ∧
    ∀ d, (entries.foldl addNode iter).dependents d = iter.dependents d ++
      (entries.filter fun entry =>
        entry.1 ∈ elements ∧ d ∈ elements ∧ d ∈ entry.2).map Sigma.fst := by
  induction entries generalizing iter with
  | nil => simp
  | cons entry entries ih =>
    obtain ⟨hnotMem, hnodup⟩ := nodupKeys_cons.mp hnodup
    have hlookup : ∀ x, (addNode iter entry).inDegree.lookup x = if x = entry.1 ∧ x ∈ elements then
        some (entry.2.keys.filter (· ∈ elements)).length else iter.inDegree.lookup x := by
      simp only [addNode, hkeys]
      grind
    have hdependents : ∀ d, (addNode iter entry).dependents d = iter.dependents d ++
        if entry.1 ∈ elements ∧ d ∈ elements ∧ d ∈ entry.2 then [entry.1] else [] := by
      intro d
      have hpush := foldl_push (entry.2.keys_nodup.filter (· ∈ elements)) iter.dependents entry.1 d
      simp only [mem_filter, ← AList.mem_keys, decide_eq_true_eq] at hpush
      by_cases hentry : entry.1 ∈ elements
      · simp [addNode, hkeys, hentry, hpush, and_comm]
      · simp [addNode, hkeys, hentry]
    have hkeys' : ∀ x, x ∈ (addNode iter entry).inDegree ↔ x ∈ elements := by
      intro x
      have := hkeys x
      rw [← AList.lookup_isSome, hlookup]
      rw [← AList.lookup_isSome] at this
      grind
    obtain ⟨hdegree, hrest⟩ := ih hnodup (addNode iter entry) hkeys'
    refine ⟨fun x => ?_, fun d => ?_⟩
    · rw [foldl_cons, hdegree, hlookup]
      by_cases hx : x = entry.1
      · subst hx
        rw [dlookup_eq_none.mpr hnotMem]
        obtain ⟨node, deps⟩ := entry
        have := hkeys node
        rw [← AList.lookup_isSome] at this
        by_cases hnode : node ∈ elements
        · simp [hnode]
        · simpa [hnode] using this
      · rw [dlookup_cons_ne _ _ hx]
        grind
    · rw [foldl_cons, hrest, hdependents, filter_cons, append_assoc]
      grind

/-- All nodes start with degree zero. -/
private theorem lookup_foldl_zero (nodes : List T) (inDegree : AList fun _ : T => ℕ) (x : T) :
    (nodes.foldl (fun inDegree node => inDegree.insert node 0) inDegree).lookup x =
      if x ∈ nodes then some 0 else inDegree.lookup x := by
  induction nodes generalizing inDegree with
  | nil => simp
  | cons node nodes ih => grind

end TopoSortIter

/-- The list has both elements, and the first depends on the second. -/
def DependsOn (value : T → T → Option V) (elements : List T) (x y : T) : Prop :=
  x ∈ elements ∧ y ∈ elements ∧ (value x y).isSome

/-- The listed dependencies are those on elements that are sorted. -/
theorem TopoSort.mem_listedDeps (topo : TopoSort T V) {x : T} (hx : x ∈ elements) (y : T) :
    y ∈ topo.listedDeps elements x ↔ DependsOn topo.value elements x y := by
  unfold listedDeps DependsOn value
  cases topo.dependencies.lookup x <;> simp [AList.lookup_isSome, AList.mem_keys, hx, and_comm]

/-- No dependency is listed twice. -/
theorem TopoSort.nodup_listedDeps (topo : TopoSort T V) (x : T) :
    (topo.listedDeps elements x).Nodup := by
  unfold listedDeps
  cases topo.dependencies.lookup x with
  | none => exact nodup_nil
  | some deps => exact deps.keys_nodup.filter _

/-- The iterator starts with nothing emitted. -/
theorem TopoSort.sorting_sortElements (topo : TopoSort T V) (helements : elements.Nodup) :
    (topo.sortElements elements).Sorting (topo.listedDeps elements) elements [] := by
  have hzero := TopoSortIter.lookup_foldl_zero elements ∅
  obtain ⟨hdegree, hdependents⟩ := @TopoSortIter.foldl_addNode _ V _ elements
    topo.dependencies.entries topo.dependencies.nodupKeys
    ⟨elements.foldl (fun inDegree node => inDegree.insert node 0) ∅, fun _ => [], []⟩ (by
      intro x
      rw [← AList.lookup_isSome, hzero]
      simp)
  have hdegree : ∀ x, (topo.sortElements elements).inDegree.lookup x =
      if x ∈ elements then some (topo.listedDeps elements x).length else none := by
    intro x
    refine (hdegree x).trans ?_
    rw [← AList.lookup, hzero]
    unfold listedDeps
    cases topo.dependencies.lookup x <;> simp
  have hready : ∀ x, x ∈ (topo.sortElements elements).ready ↔
      x ∈ elements ∧ topo.listedDeps elements x = [] := by
    intro x
    have hx := hdegree x
    simp only [sortElements, TopoSortIter.new, mem_filter] at hx ⊢
    grind
  refine ⟨by simpa using hdegree, fun d _ => ⟨?_, fun x => ?_⟩, helements.filter _, fun x => ?_, ?_⟩
  · have hnodup := topo.dependencies.nodupKeys.sublist (filter_sublist (p := fun entry =>
      entry.1 ∈ elements ∧ d ∈ elements ∧ d ∈ entry.2))
    exact (congrArg Nodup (hdependents d)).mpr hnodup
  · refine (congrArg (x ∈ ·) (hdependents d)).to_iff.trans ?_
    simp only [nil_append, mem_map, mem_filter, listedDeps]
    constructor
    · rintro ⟨⟨x, deps⟩, ⟨hentry, hlisted⟩, rfl⟩
      have hlookup : topo.dependencies.lookup x = some deps := AList.mem_lookup_iff.mpr hentry
      simpa [hlookup, ← AList.mem_keys, and_comm] using hlisted
    · cases hlookup : topo.dependencies.lookup x with
      | none => simp
      | some deps =>
        rintro ⟨hx, hd⟩
        refine ⟨⟨x, deps⟩, ⟨AList.mem_lookup_iff.mp hlookup, ?_⟩, rfl⟩
        simpa [← AList.mem_keys, hx, and_comm] using hd
  · simpa [eq_nil_iff_forall_not_mem] using hready x
  · simp

/-- When no element is ready, all are emitted unless some depend on each other. -/
theorem TopoSortIter.Sorting.mem_emitted {value : T → T → Option V}
    (hvalue : ∀ x ∈ elements, ∀ y, y ∈ deps x ↔ DependsOn value elements x y)
    (h : Sorting deps elements emitted iter) (hready : iter.ready = [])
    (hacyclic : ∀ x, ¬ Relation.TransGen (DependsOn value elements) x x) {x : T}
    (hx : x ∈ elements) : x ∈ emitted := by
  let before (y x : T) := Relation.TransGen (DependsOn value elements) x y
  have : IsStrictOrder T before :=
    { irrefl := hacyclic, trans := fun _ _ _ hxy hyz => hyz.trans hxy }
  have hwf : Set.WellFoundedOn {x | x ∈ elements} before := elements.finite_toSet.wellFoundedOn
  refine hwf.induction hx fun y hy ih => ?_
  have hmem := (h.mem y).mpr ⟨hy, fun d hd => ?_⟩
  · rwa [hready, append_nil] at hmem
  · have hdepends := (hvalue y hy d).mp hd
    exact ih d hdepends.2.1 (.single hdepends)

/-- An element comes after those it depends on through others. -/
theorem TopoSortIter.Sorting.mem_front {value : T → T → Option V}
    (hvalue : ∀ x ∈ elements, ∀ y, y ∈ deps x ↔ DependsOn value elements x y)
    (h : Sorting deps elements emitted iter) {front back : List T} {x y : T}
    (hemitted : emitted = front ++ x :: back)
    (hdepends : Relation.TransGen (DependsOn value elements) x y) : y ∈ front := by
  induction hdepends with
  | single hxy => exact h.ordered front x back hemitted _ ((hvalue x hxy.1 _).mpr hxy)
  | tail _ hyz ih =>
    obtain ⟨start, rest, rfl⟩ := append_of_mem ih
    have hz := h.ordered start _ (rest ++ x :: back) (by simp [hemitted]) _
      ((hvalue _ hyz.1 _).mpr hyz)
    simp [hz]

/-- A call that changes the dependencies. -/
inductive TopoCall (T V : Type)
  | addDependency (element dependsOn : T) (value : V)
  | retain (filter : T → T → V → Bool)

/-- What a call does. -/
def TopoSort.apply (topo : TopoSort T V) : TopoCall T V → TopoSort T V
  | .addDependency element dependsOn value => topo.addDependency element dependsOn value
  | .retain filter => topo.retain filter

/-- The value that a call leaves for a dependency. -/
def TopoCall.leaves (x y : T) (old : Option V) : TopoCall T V → Option V
  | addDependency element dependsOn value => if x = element ∧ y = dependsOn then some value else old
  | retain filter => old.filter (filter x y)

/-- After a run of calls each pair has the value that the calls leave. -/
theorem TopoSort.value_foldl_apply (calls : List (TopoCall T V)) (topo : TopoSort T V) (x y : T) :
    (calls.foldl apply topo).value x y =
      calls.foldl (TopoCall.leaves x y) (topo.value x y) := by
  induction calls generalizing topo with
  | nil => rfl
  | cons call calls ih =>
    rw [foldl_cons, ih, foldl_cons]
    congr 1
    cases call with
    | addDependency => exact topo.value_addDependency _ _ x y _
    | retain => exact topo.value_retain _ x y

/-- Any number of calls of `next` gives listed elements without repetition, each after the listed
ones it depends on, and `into_unordered_vec` gives the others; when `next` ends, all elements are
given unless some depend on each other. The maps may have their entries in any order. -/
theorem sort_elements_respects_dependencies (calls : List (TopoCall T V)) (topo : TopoSort T V)
    (htopo : ∀ x y, topo.value x y = calls.foldl (TopoCall.leaves x y) none)
    (helements : elements.Nodup) (count : ℕ) :
    let depends := Relation.TransGen
      (DependsOn (fun x y => calls.foldl (TopoCall.leaves x y) none) elements)
    let (emitted, iter) := (topo.sortElements elements).take count
    emitted.Nodup ∧
      (∀ front x back y, emitted = front ++ x :: back → depends x y → y ∈ front) ∧
      emitted ++ iter.intoUnorderedVec ~ elements ∧
      (elements.length ≤ count → iter.next = none ∧
        ((∀ x, ¬ depends x x) → emitted ~ elements)) := by
  have hvalue : topo.value = fun x y => calls.foldl (TopoCall.leaves x y) none :=
    funext₂ htopo
  rw [← hvalue]
  have hdeps := fun x (hx : x ∈ elements) => topo.mem_listedDeps hx
  obtain ⟨h, hend⟩ := (topo.sorting_sortElements helements).take topo.nodup_listedDeps count
  rw [nil_append] at h
  have hnodup := h.nodup.of_append_left
  have hperm := h.perm helements
  refine ⟨hnodup, fun front x back y => h.mem_front hdeps, hperm, fun hcount => ?_⟩
  have hready : ((topo.sortElements elements).take count).2.ready = [] := by
    refine hend.elim id fun hlength => ?_
    -- as many elements are emitted as are listed
    have htotal := hperm.length_eq
    rw [TopoSortIter.intoUnorderedVec, length_append, length_append] at htotal
    exact length_eq_zero_iff.mp (by omega)
  refine ⟨by rw [TopoSortIter.next, hready], fun hacyclic => ?_⟩
  refine (perm_ext_iff_of_nodup hnodup helements).mpr fun x => ⟨fun hx => ?_, ?_⟩
  · exact hperm.subset (mem_append_left _ hx)
  · exact h.mem_emitted hdeps hready hacyclic

/-- A dependency of the first element that is dropped again, and one that is not listed. -/
def droppedDependency : List (TopoCall ℕ ℕ) :=
  [.addDependency 1 2 5, .addDependency 2 1 9, .addDependency 1 3 9,
    .retain fun _ _ version => 7 < version]

theorem sort_elements_respects_droppedDependency :
    let topo : TopoSort ℕ ℕ := droppedDependency.foldl .apply {}
    let (emitted, iter) := (topo.sortElements [2, 1]).take 2
    emitted = [1, 2] ∧ emitted ++ iter.intoUnorderedVec ~ [2, 1] :=
  ⟨by decide, (@sort_elements_respects_dependencies ℕ ℕ _ [2, 1] droppedDependency _
    (TopoSort.value_foldl_apply _ {}) (by decide) 2).2.2.1⟩

end Sorting

end Stratumind
