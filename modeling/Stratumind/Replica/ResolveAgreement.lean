import Stratumind.Replica.MergeHeads

/-!
# What enough replicas agree on

A resolution count is more than half of the replicas, so at most one group of equal items of an
id is accepted, and every accepted id is reported by more than half of the replicas. The merge is
therefore right exactly if the replicas agree on the order of what is accepted. The shortcut for
responses without any item that is not accepted is right exactly if the first replica reports all
of them.
-/

namespace Stratumind

open Lib List

variable {Item Id : Type}

section Statement

variable [DecidableEq Id] (identify : Item → Id) (compare : Item → Item → Bool)
  (items : List (List Item))

/-- The number of replicas that report the item. -/
def reporting (item : Item) : ℕ :=
  items.countP fun row => row.any fun other => decide (identify other = identify item) &&
    compare other item

variable (condition : ResolveCondition)

/-- Enough replicas report the item. -/
def Agreed (item : Item) : Prop :=
  condition.resolutionCount items.length ≤ reporting identify compare items item

instance (condition : ResolveCondition) :
    DecidablePred (Agreed identify compare items condition) := fun _ =>
  inferInstanceAs (Decidable (_ ≤ _))

/-- Of every id that enough replicas agree on there is one item, which is the agreed one. Of other
ids there is none. -/
def ReturnsAgreed (result : List Item) : Prop :=
  ∀ id, (∀ item, identify item = id → Agreed identify compare items condition item →
      ∃ found, (result.filter fun item => identify item = id) = [found] ∧
        compare found item = true) ∧
    ((∀ item, identify item = id → ¬Agreed identify compare items condition item) →
      (result.filter fun item => identify item = id) = [])

/-- All that is reported is agreed on. -/
def AllAgreed : Prop :=
  ∀ row ∈ items, ∀ item ∈ row, Agreed identify compare items condition item

/-- What is agreed on of each response. -/
def agreedRows : List (List Item) :=
  items.map fun row => row.filter fun item => Agreed identify compare items condition item

/-- If all that is reported is agreed on, then the first replica reports it; otherwise the
responses agree on an order of the items that are agreed on. -/
def ResolvableInOrder : Prop :=
  (AllAgreed identify compare items condition →
    ∀ row ∈ items, ∀ item ∈ row, ∃ other ∈ items.head?.getD [], identify other = identify item) ∧
  (¬AllAgreed identify compare items condition →
    Compatible ((agreedRows identify compare items condition).map fun row => row.map identify))

/-- The ids of what is agreed on of each response. -/
private abbrev agreedIds : List (List Id) :=
  (agreedRows identify compare items condition).map fun row => row.map identify

/-- The accepted coordinates. -/
private abbrev accepted : Finset (ℕ × ℕ) :=
  (Resolver.new.addAll identify compare items).resolvedCoords
    (condition.resolutionCount items.length)

end Statement

section Cells

/-- All items with their coordinates, in the order in which they are added. -/
def cells (items : List (List Item)) : List ((ℕ × ℕ) × Item) :=
  items.zipIdx.flatMap fun (row, r) => row.zipIdx.map fun (item, i) => ((r, i), item)

variable {items : List (List Item)}

theorem mem_cells {r i : ℕ} {item : Item} :
    ((r, i), item) ∈ cells items ↔ ∃ row, items[r]? = some row ∧ row[i]? = some item := by
  unfold cells
  simp only [mem_flatMap, mem_map, Prod.exists, Prod.mk.injEq]
  constructor
  · grind
  · rintro ⟨row, hrow, hitem⟩
    exact ⟨row, r, mem_zipIdx_iff_getElem?.mpr hrow, item, i,
      mem_zipIdx_iff_getElem?.mpr hitem, ⟨rfl, rfl⟩, rfl⟩

/-- A coordinate has one item. -/
theorem cells_unique {cell other : (ℕ × ℕ) × Item} (hcell : cell ∈ cells items)
    (hother : other ∈ cells items) (heq : cell.1 = other.1) : cell = other := by
  obtain ⟨row, hrow, hitem⟩ := mem_cells.mp hcell
  obtain ⟨row', hrow', hitem'⟩ := mem_cells.mp hother
  grind

theorem cells_map_snd (items : List (List Item)) : (cells items).map Prod.snd = items.flatten := by
  have hrow : ∀ entry : List Item × ℕ,
      (entry.1.zipIdx.map fun (item, i) => ((entry.2, i), item)).map Prod.snd = entry.1 := by
    intro entry
    rw [map_map]
    exact zipIdx_map_fst 0 entry.1
  unfold cells
  rw [map_flatMap, flatMap_congr fun entry _ => hrow entry, flatMap_def, zipIdx_map_fst]

theorem cells_nodup (items : List (List Item)) : ((cells items).map Prod.fst).Nodup := by
  have hrow : ∀ entry : List Item × ℕ,
      (entry.1.zipIdx.map fun (item, i) => ((entry.2, i), item)).map Prod.fst =
        (range' 0 entry.1.length).map fun i => (entry.2, i) := by
    intro entry
    rw [map_map, ← zipIdx_map_snd 0 entry.1, map_map]
    rfl
  unfold cells
  rw [map_flatMap, flatMap_congr fun entry _ => hrow entry, nodup_flatMap]
  constructor
  · intro entry _
    exact Nodup.map (fun i j heq => (Prod.mk.inj heq).2) nodup_range'
  have hindices : items.zipIdx.Pairwise fun a b => a.2 ≠ b.2 := by
    refine pairwise_map.mp ?_
    rw [zipIdx_map_snd]
    exact nodup_range'
  refine hindices.imp fun hne coordinate hleft hright => ?_
  grind

/-- Items of which every row has at most one are counted by rows. -/
theorem countP_flatten_eq {p : Item → Bool} (hrows : ∀ row ∈ items, row.countP p ≤ 1) :
    items.flatten.countP p = items.countP fun row => row.any p := by
  induction items with
  | nil => rfl
  | cons row items ih =>
    obtain ⟨hrow, hitems⟩ := forall_mem_cons.mp hrows
    rw [flatten_cons, countP_append, ih hitems, countP_cons]
    by_cases hany : row.any p
    · have hpos : 0 < row.countP p := by
        rw [countP_pos_iff]
        exact any_eq_true.mp hany
      rw [if_pos hany]
      omega
    grind

theorem countP_cells {p : Item → Bool} (hrows : ∀ row ∈ items, row.countP p ≤ 1) :
    (cells items).countP (fun cell => p cell.2) = items.countP fun row => row.any p := by
  rw [← countP_flatten_eq hrows, ← cells_map_snd, countP_map]
  rfl

end Cells

section Groups

variable {identify : Item → Id} {compare : Item → Item → Bool}
  {found : List ((ℕ × ℕ) × Item)} {records : List (ResolverRecord Item)}

/-- The groups of the items that were added: one group for all that are equal. -/
structure Grouped (compare : Item → Item → Bool) (found : List ((ℕ × ℕ) × Item))
    (records : List (ResolverRecord Item)) : Prop where
  /-- Every record has the coordinates of all items that are equal to its own. -/
  coordinates : ∀ record ∈ records, record.coordinates =
    (found.filter fun cell => compare cell.2 record.item).map Prod.fst
  /-- The count is the number of coordinates. -/
  count : ∀ record ∈ records, record.count = record.coordinates.length
  /-- Every item is in a group. -/
  covered : ∀ cell ∈ found, ∃ other ∈ records.map ResolverRecord.item,
    compare cell.2 other = true
  /-- No item is in two groups. -/
  apart : (records.map ResolverRecord.item).Pairwise fun left right => compare left right = false

variable (hcompare : Equivalence fun left right => compare left right = true)

include hcompare

theorem compare_congr {left right : Item} (h : compare left right = true) (item : Item) :
    compare item left = compare item right := by
  rw [Bool.eq_iff_iff]
  exact ⟨fun hleft => hcompare.trans hleft h, fun hright => hcompare.trans hright (hcompare.symm h)⟩

/-- An item joins the group that it is equal to, or makes a new one. -/
private theorem addRecord_eq
    (hapart : (records.map ResolverRecord.item).Pairwise fun left right =>
      compare left right = false) (item : Item) (row index : ℕ) :
    addRecord compare item row index records =
      if records.any fun record => compare item record.item then
        records.map fun record => if compare item record.item then
          { record with
            count := record.count + 1
            coordinates := record.coordinates ++ [(row, index)] } else record
      else records ++ [ResolverRecord.new item row index] := by
  induction records with
  | nil => rfl
  | cons point points ih =>
    obtain ⟨hpoint, hapart⟩ := pairwise_cons.mp hapart
    rw [addRecord, ih hapart, any_cons, map_cons]
    by_cases hequal : compare item point.item = true
    · -- the item is equal to the items of no other group
      have hothers : ∀ other ∈ points, compare item other.item = false := by
        intro other hother
        have hsymm := compare_congr hcompare hequal other.item
        have := @hcompare.symm item other.item
        have := @hcompare.symm other.item point.item
        grind
      simp only [hequal, if_true, Bool.true_or]
      rw [map_congr_left (fun other hother => if_neg (by simp [hothers other hother])), map_id']
    · rw [Bool.not_eq_true] at hequal
      simp only [hequal, Bool.false_or, Bool.false_eq_true, if_false]
      split <;> rfl

/-- An item joins the group of equal items. -/
theorem Grouped.addRecord (h : Grouped compare found records) (cell : (ℕ × ℕ) × Item) :
    Grouped compare (found ++ [cell])
      (addRecord compare cell.2 cell.1.1 cell.1.2 records) := by
  obtain ⟨⟨row, index⟩, item⟩ := cell
  rw [addRecord_eq hcompare h.apart]
  split
  · rename_i hany
    obtain ⟨chosen, hchosen, hequal⟩ := any_eq_true.mp hany
    have hitems : (records.map fun record => if compare item record.item then
          { record with
            count := record.count + 1
            coordinates := record.coordinates ++ [(row, index)] } else record).map
        ResolverRecord.item = records.map ResolverRecord.item := by
      rw [map_map]
      exact map_congr_left fun record _ => by grind
    refine ⟨forall_mem_map.mpr fun record hrecord => ?_,
      forall_mem_map.mpr fun record hrecord => ?_, ?_, hitems ▸ h.apart⟩
    · have hcoordinates := h.coordinates record hrecord
      by_cases hjoins : compare item record.item = true <;> simp [hjoins, hcoordinates]
    · have hcount := h.count record hrecord
      by_cases hjoins : compare item record.item = true <;> simp [hjoins, hcount]
    · rw [hitems, forall_mem_append, forall_mem_singleton]
      exact ⟨h.covered, chosen.item, mem_map_of_mem hchosen, hequal⟩
  · rename_i hany
    have hnone : ∀ record ∈ records, compare item record.item = false := by simpa using hany
    have hfound : ∀ cell ∈ found, compare cell.2 item = false := by
      intro cell hcell
      obtain ⟨other, hother, heq⟩ := h.covered cell hcell
      obtain ⟨record, hrecord, rfl⟩ := mem_map.mp hother
      rw [← Bool.not_eq_true]
      intro hequal
      have hfalse := hnone record hrecord
      rw [hcompare.trans (hcompare.symm hequal) heq] at hfalse
      cases hfalse
    refine ⟨forall_mem_append.mpr ⟨fun record hrecord => ?_, forall_mem_singleton.mpr ?_⟩,
      forall_mem_append.mpr ⟨h.count, forall_mem_singleton.mpr rfl⟩, ?_, ?_⟩
    · simp [h.coordinates record hrecord, hnone record hrecord]
    · have hnil : found.filter (fun cell => compare cell.2 item) = [] := by
        rw [filter_eq_nil_iff]
        exact fun cell hcell => by simp [hfound cell hcell]
      simp [ResolverRecord.new, hnil, hcompare.refl item]
    · rw [forall_mem_append, forall_mem_singleton, map_append]
      refine ⟨fun cell hcell => ?_, item, ?_, hcompare.refl item⟩
      · obtain ⟨other, hother, heq⟩ := h.covered cell hcell
        exact ⟨other, mem_append_left _ hother, heq⟩
      · exact mem_append_right _ (mem_singleton.mpr rfl)
    · rw [map_append, pairwise_append]
      refine ⟨h.apart, pairwise_singleton _ _, fun left hleft right hright => ?_⟩
      obtain ⟨record, hrecord, rfl⟩ := mem_map.mp hleft
      obtain rfl := mem_singleton.mp hright
      rw [← Bool.not_eq_true]
      intro hequal
      have hfalse := hnone record hrecord
      rw [hcompare.symm hequal] at hfalse
      cases hfalse

end Groups

section Accepted

variable [DecidableEq Id] {identify : Item → Id} {compare : Item → Item → Bool}
  {items : List (List Item)} {condition : ResolveCondition}
  (hcompare : Equivalence fun left right => compare left right = true)

/-- The items with the given id. -/
def cellsOf (identify : Item → Id) (found : List ((ℕ × ℕ) × Item)) (id : Id) :
    List ((ℕ × ℕ) × Item) :=
  found.filter fun cell => identify cell.2 = id

include hcompare in
/-- Adding all items groups the items of every id. -/
theorem grouped_addAll (items : List (List Item)) (id : Id) :
    Grouped compare (cellsOf identify (cells items) id)
      (((Resolver.new.addAll identify compare items).items.lookup id).getD []) := by
  have hfold : Resolver.new.addAll identify compare items =
      (cells items).foldl (fun resolver cell =>
        resolver.add compare (identify cell.2) cell.2 cell.1.1 cell.1.2) Resolver.new := by
    unfold Resolver.addAll cells
    rw [foldl_flatMap]
    simp only [foldl_map]
  rw [hfold]
  -- One item after the other, each in the groups of its id.
  induction cells items using reverseRecOn with
  | nil =>
    have hnone {p : ResolverRecord Item → Prop} : ∀ record ∈ [], p record := by simp
    exact ⟨hnone, hnone, fun _ h => absurd h not_mem_nil, Pairwise.nil⟩
  | append_singleton found cell ih =>
    rw [foldl_append, foldl_cons, foldl_nil]
    unfold cellsOf at ih ⊢
    rw [filter_append]
    unfold Resolver.add
    by_cases hid : identify cell.2 = id
    · subst hid
      have hlast : [cell].filter (fun other => identify other.2 = identify cell.2) = [cell] := by
        simp
      rw [hlast, AList.lookup_insert]
      exact ih.addRecord hcompare cell
    · have hlast : [cell].filter (fun other => identify other.2 = id) = [] := by
        simp [hid]
      rw [hlast, AList.lookup_insert_ne (Ne.symm hid), append_nil]
      exact ih

theorem countP_le_one {row : List Item} (hids : (row.map identify).Nodup) {id : Id}
    {p : Item → Bool} (hp : ∀ item, p item = true → identify item = id) : row.countP p ≤ 1 := by
  have hcount : row.countP (fun item => identify item = id) = (row.map identify).count id := by
    rw [count, countP_map]
    refine countP_congr fun item _ => ?_
    simp
  have hle : row.countP p ≤ row.countP fun item => identify item = id :=
    countP_mono_left fun item _ hitem => decide_eq_true (hp item hitem)
  have hone := nodup_iff_count_le_one.mp hids id
  omega

variable (hids : ∀ row ∈ items, (row.map identify).Nodup)

include hids in
/-- The replicas that report an item are the equal items of its id. -/
theorem reporting_eq (item : Item) : reporting identify compare items item =
    ((cellsOf identify (cells items) (identify item)).filter fun cell =>
      compare cell.2 item).length := by
  unfold reporting cellsOf
  have hone : ∀ row ∈ items, row.countP (fun other =>
      decide (identify other = identify item) && compare other item) ≤ 1 := by
    intro row hrow
    have hid : ∀ other, (decide (identify other = identify item) && compare other item) = true →
        identify other = identify item := by
      intro other hother
      simp only [Bool.and_eq_true, decide_eq_true_eq] at hother
      exact hother.1
    exact countP_le_one (hids row hrow) hid
  rw [← countP_cells hone, filter_filter, ← countP_eq_length_filter]
  refine countP_congr fun cell _ => ?_
  simp [and_comm]

include hids in
/-- No more replicas report an id than there are. -/
theorem length_cellsOf_le (id : Id) :
    (cellsOf identify (cells items) id).length ≤ items.length := by
  unfold cellsOf
  rw [← countP_eq_length_filter, countP_cells (p := fun item => identify item = id)]
  · exact countP_le_length
  · intro row hrow
    exact countP_le_one (hids row hrow) fun item hitem => of_decide_eq_true hitem

/-- Enough replicas are more than half of them. -/
theorem ResolveCondition.lt_two_mul_resolutionCount (condition : ResolveCondition) {n : ℕ}
    (hpos : 0 < n) : n < 2 * condition.resolutionCount n := by
  cases condition with
  | all =>
    change n < 2 * n
    omega
  | majority =>
    change n < 2 * (n / 2 + 1)
    omega

variable {item : Item}

include hcompare hids in
/-- Equal items are reported by the same replicas. -/
theorem agreed_congr {other : Item} (hid : identify item = identify other)
    (heq : compare item other = true) (h : Agreed identify compare items condition item) :
    Agreed identify compare items condition other := by
  unfold Agreed at h ⊢
  rw [reporting_eq hids] at h ⊢
  simpa only [← hid, ← compare_congr hcompare heq] using h

include hcompare hids in
/-- Items of one id that are agreed on are equal. -/
theorem compare_of_agreed {other : Item} (hne : items ≠ []) (hid : identify item = identify other)
    (h : Agreed identify compare items condition item)
    (hother : Agreed identify compare items condition other) : compare item other = true := by
  have hmajority := condition.lt_two_mul_resolutionCount (length_pos_iff.mpr hne)
  have hall := length_cellsOf_le hids (identify item)
  unfold Agreed at h hother
  rw [reporting_eq hids] at h hother
  rw [← hid] at hother
  by_contra hfalse
  have hdisjoint : ∀ found : List ((ℕ × ℕ) × Item),
      (found.filter fun cell => compare cell.2 item).length +
        (found.filter fun cell => compare cell.2 other).length ≤ found.length := by
    intro found
    induction found with
    | nil => exact Nat.le_refl 0
    | cons cell found ih =>
      have hnotBoth : compare cell.2 item = true → ¬compare cell.2 other = true :=
        fun hitem hboth => hfalse (hcompare.trans (hcompare.symm hitem) hboth)
      grind
  have hsum := hdisjoint (cellsOf identify (cells items) (identify item))
  omega

include hcompare hids in
/-- The count of a group decides whether its items are agreed on. -/
private theorem Grouped.le_count_iff {id : Id} {records : List (ResolverRecord Item)}
    (h : Grouped compare (cellsOf identify (cells items) id) records)
    {record : ResolverRecord Item} (hrecord : record ∈ records) (hid : identify item = id)
    (hitem : compare item record.item = true) :
    condition.resolutionCount items.length ≤ record.count ↔
      Agreed identify compare items condition item := by
  unfold Agreed
  rw [reporting_eq hids, h.count record hrecord, h.coordinates record hrecord, length_map, hid]
  simp only [compare_congr hcompare hitem]

include hcompare hids in
/-- The accepted coordinates are those of the items that are agreed on. -/
theorem mem_resolvedCoords (hne : items ≠ []) {coordinate : ℕ × ℕ} :
    coordinate ∈ accepted identify compare items condition ↔
      ∃ cell ∈ cells items, cell.1 = coordinate ∧
        Agreed identify compare items condition cell.2 := by
  have hgrouped := @grouped_addAll Item Id _ identify compare hcompare items
  have hmajority := condition.lt_two_mul_resolutionCount (length_pos_iff.mpr hne)
  -- A group that is large enough has the coordinates of items that are agreed on.
  have hgroup : ∀ {id records record}, Grouped compare (cellsOf identify (cells items) id) records →
      (records.find? fun point => condition.resolutionCount items.length ≤ point.count) =
        some record →
      ∀ coordinate ∈ record.coordinates, ∃ cell ∈ cells items, cell.1 = coordinate ∧
        identify cell.2 = id ∧ compare cell.2 record.item = true ∧
        Agreed identify compare items condition cell.2 := by
    intro id records record hrecords hfind coordinate hcoordinate
    have hrecord := mem_of_find?_eq_some hfind
    have hcount : condition.resolutionCount items.length ≤ record.count := by
      simpa using find?_some hfind
    rw [hrecords.coordinates record hrecord] at hcoordinate
    obtain ⟨cell, hcell, rfl⟩ := mem_map.mp hcoordinate
    obtain ⟨hcell, hequal⟩ := mem_filter.mp hcell
    obtain ⟨hcell, hid⟩ := mem_filter.mp hcell
    have hid := of_decide_eq_true hid
    exact ⟨cell, hcell, rfl, hid, hequal,
      (hrecords.le_count_iff hcompare hids hrecord hid hequal).mp hcount⟩
  unfold accepted Resolver.resolvedCoords
  rw [mem_toFinset, mem_flatMap]
  constructor
  · rintro ⟨⟨id, records⟩, hentry, hcoordinate⟩
    have hlookup := AList.mem_lookup_iff.mpr hentry
    have hrecords := hgrouped id
    rw [Option.mem_def.mp hlookup, Option.getD_some] at hrecords
    cases hfind : records.find?
        (fun point => condition.resolutionCount items.length ≤ point.count) with
    | none =>
      rw [hfind] at hcoordinate
      cases hcoordinate
    | some record =>
      grind
  rintro ⟨cell, hcell, rfl, hagreed⟩
  have hrecords := hgrouped (identify cell.2)
  have hcellOf : cell ∈ cellsOf identify (cells items) (identify cell.2) :=
    mem_filter.mpr ⟨hcell, decide_eq_true rfl⟩
  obtain ⟨other, hother, hequal⟩ := hrecords.covered cell hcellOf
  obtain ⟨record, hrecord, rfl⟩ := mem_map.mp hother
  cases hlookup :
      (Resolver.new.addAll identify compare items).items.lookup (identify cell.2) with
  | none =>
    rw [hlookup] at hrecord
    cases hrecord
  | some records =>
    rw [hlookup, Option.getD_some] at hrecord hrecords
    have hcount := (hrecords.le_count_iff hcompare hids hrecord rfl hequal).mpr hagreed
    obtain ⟨chosen, hfind⟩ : ∃ chosen, (records.find? fun point =>
        condition.resolutionCount items.length ≤ point.count) = some chosen := by
      rw [← Option.isSome_iff_exists, find?_isSome]
      exact ⟨record, hrecord, decide_eq_true hcount⟩
    refine ⟨⟨identify cell.2, records⟩, AList.mem_lookup_iff.mp hlookup, ?_⟩
    rw [hfind, Option.map_some, Option.getD_some]
    -- The chosen group is the one of the item, since both are agreed on.
    have hchosen := mem_of_find?_eq_some hfind
    have hlarge : condition.resolutionCount items.length ≤ chosen.count := by
      simpa using find?_some hfind
    obtain ⟨first, hfirst⟩ : ∃ first, first ∈ chosen.coordinates := by
      refine exists_mem_of_length_pos ?_
      rw [← hrecords.count chosen hchosen]
      omega
    obtain ⟨held, -, -, hid, hheld, hheldAgreed⟩ := hgroup hrecords hfind first hfirst
    have hsame := compare_of_agreed hcompare hids hne hid.symm hagreed hheldAgreed
    rw [hrecords.coordinates chosen hchosen]
    exact mem_map.mpr ⟨cell, mem_filter.mpr ⟨hcellOf, hcompare.trans hsame hheld⟩, rfl⟩

include hcompare hids in
/-- All coordinates are accepted if all items are agreed on. -/
theorem card_resolvedCoords_eq_iff (hne : items ≠ []) :
    (accepted identify compare items condition).card = (items.map length).sum ↔
      AllAgreed identify compare items condition := by
  let agreed := (cells items).filter fun cell => Agreed identify compare items condition cell.2
  have hcoords : accepted identify compare items condition = (agreed.map Prod.fst).toFinset := by
    ext coordinate
    rw [mem_resolvedCoords hcompare hids hne, mem_toFinset, mem_map]
    constructor
    · rintro ⟨cell, hcell, rfl, hagreed⟩
      exact ⟨cell, mem_filter.mpr ⟨hcell, decide_eq_true hagreed⟩, rfl⟩
    grind
  have hnodup : (agreed.map Prod.fst).Nodup :=
    (filter_sublist.map Prod.fst).nodup (cells_nodup items)
  have hlength : (items.map length).sum = (cells items).length := by
    rw [← length_flatten, ← cells_map_snd, length_map]
  rw [hcoords, toFinset_card_of_nodup hnodup, length_map, hlength, length_filter_eq_length_iff]
  constructor
  · intro hall row hrow item hitem
    obtain ⟨r, hr⟩ := mem_iff_getElem?.mp hrow
    obtain ⟨i, hi⟩ := mem_iff_getElem?.mp hitem
    exact of_decide_eq_true (hall ((r, i), item) (mem_cells.mpr ⟨row, hr, hi⟩))
  · rintro hall ⟨⟨r, i⟩, item⟩ hcell
    obtain ⟨row, hr, hi⟩ := mem_cells.mp hcell
    exact decide_eq_true (hall row (mem_of_getElem? hr) item (mem_of_getElem? hi))

/-- Choosing items by their index, where the items decide. -/
private theorem filterMap_zipIdx_eq {row : List Item} {P : ℕ → Prop} [DecidablePred P]
    {q : Item → Bool} (h : ∀ i item, row[i]? = some item → (P i ↔ q item = true)) :
    (row.zipIdx.filterMap fun (item, i) => if P i then some item else none) = row.filter q := by
  have hchoose : (row.zipIdx.filterMap fun (item, i) => if P i then some item else none) =
      row.zipIdx.filterMap ((Option.guard q) ∘ Prod.fst) := by
    refine filterMap_congr ?_
    grind
  rw [hchoose, ← filterMap_map, zipIdx_map_fst, filterMap_eq_filter]

include hcompare hids in
/-- The filtered responses are what is agreed on. -/
theorem resolvedIters_eq (hne : items ≠ []) :
    (items.zipIdx.map fun (response, replicaId) => response.zipIdx.filterMap fun (item, index) =>
        if (replicaId, index) ∈ accepted identify compare items condition then some item
        else none) =
      agreedRows identify compare items condition := by
  have hrow : ∀ entry ∈ items.zipIdx, (entry.1.zipIdx.filterMap fun (item, index) =>
      if (entry.2, index) ∈ accepted identify compare items condition then some item else none) =
      entry.1.filter fun item => Agreed identify compare items condition item := by
    intro entry hentry
    have hget := mem_zipIdx_iff_getElem?.mp hentry
    refine @filterMap_zipIdx_eq Item entry.1 (fun index => (entry.2, index) ∈
      accepted identify compare items condition) _ _ fun i item hitem => ?_
    have hcell : ((entry.2, i), item) ∈ cells items := mem_cells.mpr ⟨entry.1, hget, hitem⟩
    rw [mem_resolvedCoords hcompare hids hne, decide_eq_true_eq]
    constructor
    · rintro ⟨cell, hmem, heq, hagreed⟩
      rw [cells_unique hmem hcell heq] at hagreed
      exact hagreed
    · intro hagreed
      exact ⟨_, hcell, rfl, hagreed⟩
  have hrows := congrArg (map fun row : List Item => row.filter fun item =>
    Agreed identify compare items condition item) (zipIdx_map_fst 0 items)
  rw [map_map] at hrows
  exact (map_congr_left hrow).trans hrows

end Accepted

section Resolved

variable [DecidableEq Id] {identify : Item → Id} {compare : Item → Item → Bool}
  {items : List (List Item)} {condition : ResolveCondition}
  {intoValues : List (List ℕ) → List (List ℕ)}
  {result : List Item}

/-- What is agreed on is reported. -/
theorem Agreed.exists_reported {item : Item} (h : Agreed identify compare items condition item)
    (hne : items ≠ []) :
    ∃ row ∈ items, ∃ other ∈ row, identify other = identify item ∧ compare other item = true := by
  have hmajority := condition.lt_two_mul_resolutionCount (length_pos_iff.mpr hne)
  have hpos : 0 < reporting identify compare items item := by
    unfold Agreed at h
    omega
  obtain ⟨row, hrow, hany⟩ := countP_pos_iff.mp hpos
  grind

variable (hcompare : Equivalence fun left right => compare left right = true)
  (hids : ∀ row ∈ items, (row.map identify).Nodup)

private theorem filter_eq_singleton {id : Id} {found : Item} (hnodup : (result.map identify).Nodup)
    (hfound : found ∈ result) (hid : identify found = id) :
    (result.filter fun item => identify item = id) = [found] := by
  have hone := countP_le_one hnodup fun item (hitem : decide (identify item = id) = true) =>
    of_decide_eq_true hitem
  have hmem : found ∈ result.filter fun item => identify item = id :=
    mem_filter.mpr ⟨hfound, decide_eq_true hid⟩
  rw [countP_eq_length_filter] at hone
  obtain ⟨only, honly⟩ := length_eq_one_iff.mp (Nat.le_antisymm hone (length_pos_of_mem hmem))
  rw [honly] at hmem ⊢
  rw [mem_singleton.mp hmem]

include hcompare hids in
/-- A result with all that is agreed on and nothing else is right if it repeats no id. -/
theorem returnsAgreed_iff_nodup (hne : items ≠ [])
    (hagreed : ∀ item ∈ result, Agreed identify compare items condition item)
    (hcovers : ∀ item, Agreed identify compare items condition item →
      ∃ found ∈ result, identify found = identify item) :
    ReturnsAgreed identify compare items condition result ↔ (result.map identify).Nodup := by
  constructor
  · intro h
    rw [nodup_iff_count_le_one]
    intro id
    by_cases hid : id ∈ result.map identify
    · obtain ⟨item, hitem, rfl⟩ := mem_map.mp hid
      obtain ⟨found, hfilter, -⟩ := (h (identify item)).1 item rfl (hagreed item hitem)
      have hcount : (result.map identify).count (identify item) =
          (result.filter fun other => identify other = identify item).length := by
        rw [count, countP_map, ← countP_eq_length_filter]
        refine countP_congr fun other _ => ?_
        simp
      rw [hcount, hfilter, length_singleton]
    · rw [count_eq_zero_of_not_mem hid]
      exact Nat.zero_le 1
  · intro hnodup id
    constructor
    · intro item hid hitem
      obtain ⟨found, hfound, hfoundId⟩ := hcovers item hitem
      refine ⟨found, filter_eq_singleton hnodup hfound (hfoundId.trans hid), ?_⟩
      exact compare_of_agreed hcompare hids hne hfoundId (hagreed found hfound) hitem
    intro hnone
    rw [filter_eq_nil_iff]
    intro item hitem hid
    exact hnone item (of_decide_eq_true hid) (hagreed item hitem)

include hcompare hids in
/-- More than half of the responses have each id that is agreed on. -/
theorem length_lt_memCount (hne : items ≠ []) {item : Item}
    (h : Agreed identify compare items condition item) :
    items.length < 2 * memCount (identify item) (agreedIds identify compare items condition) := by
  have hmajority := condition.lt_two_mul_resolutionCount (length_pos_iff.mpr hne)
  have hcount : reporting identify compare items item ≤
      memCount (identify item) (agreedIds identify compare items condition) := by
    unfold reporting memCount agreedIds agreedRows
    rw [map_map, countP_map]
    refine countP_mono_left fun row _ hany => decide_eq_true ?_
    obtain ⟨other, hother, hboth⟩ := any_eq_true.mp hany
    simp only [Bool.and_eq_true, decide_eq_true_eq] at hboth
    obtain ⟨hid, hequal⟩ := hboth
    have hotherAgreed := agreed_congr hcompare hids hid.symm (hcompare.symm hequal) h
    exact mem_map.mpr
      ⟨other, mem_filter.mpr ⟨hother, decide_eq_true hotherAgreed⟩, hid⟩
  unfold Agreed at h
  omega

include hcompare hids in
/-- Without the shortcut the result is a merge of what is agreed on. -/
theorem resolve_eq_merge (hne : items ≠ []) (hvalues : ∀ values, (intoValues values).Perm values)
    (hsome : ¬AllAgreed identify compare items condition) :
    HeadMerged (agreedIds identify compare items condition)
        ((Resolver.resolve intoValues items identify compare condition).map identify) ∧
      ∀ item ∈ Resolver.resolve intoValues items identify compare condition,
        Agreed identify compare items condition item := by
  unfold Resolver.resolve
  rw [if_neg fun hcard => hsome ((card_resolvedCoords_eq_iff hcompare hids hne).mp hcard),
    resolvedIters_eq hcompare hids hne]
  have hturns : ((agreedRows identify compare items condition).map length).sum ≤
      (items.map length).sum := by
    unfold agreedRows
    rw [map_map]
    exact sum_le_sum fun row _ => length_filter_le _ row
  obtain ⟨hmerged, hitems⟩ := @MergeInOrder.collectVec_spec Item Id _ identify intoValues hvalues
    _ ⟨agreedRows identify compare items condition⟩ hturns
  refine ⟨hmerged, fun item hitem => ?_⟩
  obtain ⟨agreed, hrow, hmem⟩ := hitems item hitem
  obtain ⟨row, -, rfl⟩ := mem_map.mp hrow
  exact of_decide_eq_true (mem_filter.mp hmem).2

include hcompare hids in
/-- For every non-empty list of responses without repeated ids, every equivalence of items, both
conditions and every order of hash maps, the result has exactly what enough replicas agree on
if and only if the responses can be resolved in order. -/
theorem consistent_read_returns_agreed_iff (hne : items ≠ [])
    (hvalues : ∀ values, (intoValues values).Perm values) :
    ReturnsAgreed identify compare items condition
        (Resolver.resolve intoValues items identify compare condition) ↔
      ResolvableInOrder identify compare items condition := by
  by_cases hall : AllAgreed identify compare items condition
  · obtain ⟨first, rest, rfl⟩ := exists_cons_of_ne_nil hne
    have hresolve : Resolver.resolve intoValues (first :: rest) identify compare condition =
        first := by
      unfold Resolver.resolve
      rw [if_pos ((card_resolvedCoords_eq_iff hcompare hids hne).mpr hall)]
      rfl
    rw [hresolve]
    constructor
    · intro h
      refine ⟨fun _ row hrow item hitem => ?_, fun hsome => absurd hall hsome⟩
      obtain ⟨found, hfilter, -⟩ := (h (identify item)).1 item rfl (hall row hrow item hitem)
      have hfound := hfilter ▸ mem_singleton_self found
      obtain ⟨hmem, hid⟩ := mem_filter.mp hfound
      exact ⟨found, hmem, of_decide_eq_true hid⟩
    · rintro ⟨hfirst, -⟩
      refine (returnsAgreed_iff_nodup hcompare hids hne (hall first mem_cons_self)
        fun item hitem => ?_).mpr (hids first mem_cons_self)
      obtain ⟨row, hrow, other, hother, hid, -⟩ := hitem.exists_reported hne
      grind
  obtain ⟨hmerged, hagreed⟩ := resolve_eq_merge hcompare hids hne hvalues hall
  have hrows : ∀ ids ∈ agreedIds identify compare items condition, ids.Nodup ∧ ∀ id ∈ ids,
      (agreedIds identify compare items condition).length <
        2 * memCount id (agreedIds identify compare items condition) := by
    refine forall_mem_map.mpr (forall_mem_map.mpr fun row hrow => ⟨(filter_sublist.map _).nodup
      (hids row hrow), forall_mem_map.mpr fun item hitem => ?_⟩)
    have hlength : (agreedRows identify compare items condition).length = items.length :=
      length_map _
    rw [length_map, hlength]
    exact length_lt_memCount hcompare hids hne (of_decide_eq_true (mem_filter.mp hitem).2)
  rw [returnsAgreed_iff_nodup hcompare hids hne hagreed,
    hmerged.nodup_iff (fun ids hrow => (hrows ids hrow).1) fun ids hrow => (hrows ids hrow).2]
  · exact ⟨fun h => ⟨fun hyes => absurd hyes hall, fun _ => h⟩, fun h => h.2 hall⟩
  intro item hitem
  obtain ⟨row, hrow, other, hother, hid, hequal⟩ := hitem.exists_reported hne
  have hotherAgreed := agreed_congr hcompare hids hid.symm (hcompare.symm hequal) hitem
  have hmem : identify other ∈ (row.filter fun item =>
      Agreed identify compare items condition item).map identify :=
    mem_map_of_mem (mem_filter.mpr ⟨hother, decide_eq_true hotherAgreed⟩)
  have hresult := (hmerged.sublist _ (mem_map_of_mem (mem_map_of_mem hrow))).subset
    hmem
  obtain ⟨found, hfound, hfoundId⟩ := mem_map.mp hresult
  exact ⟨found, hfound, hfoundId.trans hid⟩

end Resolved

private theorem beq_equivalence : Equivalence fun left right : ℕ => (left == right) = true :=
  ⟨fun _ => beq_self_eq_true _, fun h => by simpa using (eq_of_beq h).symm,
    fun h h' => by simpa using (eq_of_beq h).trans (eq_of_beq h')⟩

/-- A majority of three replicas agrees on the first two items. -/
theorem consistent_read_returns_agreed_three_replicas :
    ReturnsAgreed (fun item : ℕ => item) (· == ·) [[1, 2, 3], [1, 2], [1]] .majority
      (Resolver.resolve id [[1, 2, 3], [1, 2], [1]] (fun item : ℕ => item) (· == ·)
        .majority) := by
  refine (consistent_read_returns_agreed_iff beq_equivalence (by decide) (by simp)
    fun _ => Perm.refl _).mpr ⟨fun hall => ?_, fun _ => ⟨[1, 2], by decide, by decide⟩⟩
  exact absurd (hall [1, 2, 3] (by decide) 3 (by decide)) (by decide)

/-- The shortcut returns the empty response of the first of three replicas, although the two
others agree on an item. Two replicas that agree on two items but not on their order make the
merge return one of them twice. -/
theorem resolve_loses_and_repeats :
    Resolver.resolve id [[], [1], [1]] (fun item : ℕ => item) (· == ·) .majority = [] ∧
    ¬ReturnsAgreed (fun item : ℕ => item) (· == ·) [[], [1], [1]] .majority
      (Resolver.resolve id [[], [1], [1]] (fun item : ℕ => item) (· == ·) .majority) ∧
    Resolver.resolve id [[1, 2, 3], [2, 1]] (fun item : ℕ => item) (· == ·) .all = [1, 2, 1] ∧
    ¬ReturnsAgreed (fun item : ℕ => item) (· == ·) [[1, 2, 3], [2, 1]] .all
      (Resolver.resolve id [[1, 2, 3], [2, 1]] (fun item : ℕ => item) (· == ·) .all) := by
  have hlost : Resolver.resolve id [[], [1], [1]] (fun item : ℕ => item) (· == ·) .majority =
      [] := by decide
  have hrepeated : Resolver.resolve id [[1, 2, 3], [2, 1]] (fun item : ℕ => item) (· == ·) .all =
      [1, 2, 1] := by decide
  refine ⟨hlost, fun h => ?_, hrepeated, fun h => ?_⟩
  · obtain ⟨found, hfilter, -⟩ := (h 1).1 1 rfl (by decide)
    cases hfilter
  · obtain ⟨found, hfilter, -⟩ := (h 1).1 1 rfl (by decide)
    cases hfilter

end Stratumind
