import Koldstore.Compaction.Plan
import Koldstore.Feed.Compaction

/-!
# A compaction pass over a table

`compact_locked` plans the active segments of a table group by group.
-/

namespace Koldstore.Compaction

open List

structure ListedSegment (K V B : Type*) where
  segment : Feed.ColdSegment K V
  rowCount : ℤ
  bounds : Option (List (B × B))
  tupleBounds : Option (B × B)
  scopeId : Option String

def ListedSegment.range {K V B : Type*} (exactTuples : Bool) (s : ListedSegment K V B) :
    Option (SegmentRange B) :=
  s.bounds.map fun bounds ↦ ⟨s.rowCount, bounds, if exactTuples then s.tupleBounds else none⟩

structure CompactionTable (K V B : Type*) [LinearOrder B] where
  feed : Feed.ChangeFeed K V
  listed : List (ListedSegment K V B)
  keyColumns : ℕ
  orderedByKey : Bool
  maxRowsPerFile : ℕ
  cells : K → List B
  tuple : K → B
  keyColumns_pos : 0 < keyColumns
  perm_active : (listed.map ListedSegment.segment).Perm feed.active
  paths_nodup : (feed.active.map Feed.ColdSegment.objectPath).Nodup
  sorted : listed.Pairwise fun s t ↦ ∀ b, s.bounds = some b → ∀ p, b.head? = some p →
    ∀ c, t.bounds = some c → ∀ q, c.head? = some q → p.1 ≤ q.1
  length_bounds : ∀ s ∈ listed, ∀ b, s.bounds = some b → b.length = keyColumns
  mem_bounds : ∀ s ∈ listed, ∀ b, s.bounds = some b → ∀ r ∈ s.segment.rows,
    List.Forall₂ (fun p c ↦ p.1 ≤ c ∧ c ≤ p.2) b (cells r.pk)
  mem_tupleBounds : ∀ s ∈ listed, ∀ p, s.tupleBounds = some p → ∀ r ∈ s.segment.rows,
    p.1 ≤ tuple r.pk ∧ tuple r.pk ≤ p.2

structure PlannedUnit (K V B : Type*) where
  unit : CompactionUnit
  members : List (ListedSegment K V B)
  scope : Option String
  exactTuples : Bool
  streamed : Bool
  dropMarkers : Bool

namespace CompactionTable

variable {K V B : Type*} [LinearOrder B] (t : CompactionTable K V B)

def tableHasScoped : Bool := t.listed.any fun s ↦ s.scopeId.isSome

def tableWidePresent : Bool := t.listed.any fun s ↦ s.scopeId.isNone

def dropMarkersIn (scope : Option String) : Bool :=
  !t.tableHasScoped || (scope.isSome && !t.tableWidePresent)

def group (scope : Option String) : List (ListedSegment K V B) :=
  t.listed.filter fun s ↦ s.scopeId = scope

def scopes : List (Option String) :=
  Keyset.ordered (fun scope ↦ scope.elim (⊥ : WithBot String) (↑)) (t.listed.map
    ListedSegment.scopeId).dedup

def exactTuples (scope : Option String) : Bool :=
  decide (1 < t.keyColumns) && (t.group scope).all fun s ↦ s.tupleBounds.isSome

def stableRewrite (exactTuples : Bool) : Bool :=
  (decide (t.keyColumns = 1) || exactTuples) && t.orderedByKey

def groupPlan (maxRows : ℤ) (scope : Option String) : CompactionPlan :=
  planCompactionUnits ((t.group scope).filterMap (ListedSegment.range (t.exactTuples scope)))
    t.maxRowsPerFile maxRows

def planned (scope : Option String) (streamed : Bool) (unit : CompactionUnit) : PlannedUnit K V B :=
  ⟨unit, unit.members.filterMap fun i ↦ (t.group scope)[i]?, scope, t.exactTuples scope, streamed,
    t.dropMarkersIn scope⟩

def planGroup (auto : Bool) (maxRows : ℤ) (scope : Option String) : List (PlannedUnit K V B) :=
  if !t.dropMarkersIn scope && !t.orderedByKey then []
  else
    let plan := t.groupPlan maxRows scope
    let stable := t.stableRewrite (t.exactTuples scope)
    (if !auto && stable then plan.oversized.map (t.planned scope true) else []) ++
      (if auto && !stable then plan.units.filter fun unit ↦ !unit.overlapping
        else plan.units).map (t.planned scope false)

def plannedUnits (auto : Bool) (maxRows : ℤ) : List (PlannedUnit K V B) :=
  if t.listed.all fun s ↦ s.bounds.isSome then t.scopes.flatMap (t.planGroup auto maxRows) else []

def withinBudget (maxRows : ℤ) : ℤ → List (PlannedUnit K V B) → List (PlannedUnit K V B)
  | _, [] => []
  | budget, p :: rest =>
    if p.streamed then
      if budget < maxRows then withinBudget maxRows budget rest
      else p :: withinBudget maxRows 0 rest
    else if budget < p.unit.rows then withinBudget maxRows budget rest
    else p :: withinBudget maxRows (budget - p.unit.rows) rest

def selectedUnits (auto : Bool) (maxRows : ℤ) : List (PlannedUnit K V B) :=
  withinBudget maxRows maxRows (t.plannedUnits auto maxRows)

section Units

variable {t} {auto : Bool} {maxRows : ℤ} {p : PlannedUnit K V B} {s s' : ListedSegment K V B}
  {scope : Option String}

omit [LinearOrder B] in
theorem withinBudget_subset (maxRows budget : ℤ) (units : List (PlannedUnit K V B)) :
    withinBudget maxRows budget units ⊆ units := by
  induction units generalizing budget with
  | nil => exact List.Subset.refl _
  | cons p rest ih =>
    rw [withinBudget]
    split_ifs
    · exact subset_cons_of_subset _ (ih _)
    · exact cons_subset_cons _ (ih _)
    · exact subset_cons_of_subset _ (ih _)
    · exact cons_subset_cons _ (ih _)

theorem mem_group : s ∈ t.group scope ↔ s ∈ t.listed ∧ s.scopeId = scope := by
  simp [group]

theorem exists_unit_of_mem (hp : p ∈ t.plannedUnits auto maxRows) :
    (∀ s ∈ t.listed, s.bounds ≠ none) ∧ ∃ scope streamed, ∃ unit ∈ (t.groupPlan maxRows scope).all,
      p = t.planned scope streamed unit := by
  rw [plannedUnits] at hp
  split_ifs at hp with hb
  · refine ⟨fun s hs hnone ↦ ?_, ?_⟩
    · have hsome := all_eq_true.1 hb s hs
      simp [hnone] at hsome
    · obtain ⟨scope, -, hp⟩ := mem_flatMap.1 hp
      rw [planGroup] at hp
      split_ifs at hp
      · cases hp
      rcases mem_append.1 hp with hp | hp
      · split_ifs at hp
        · obtain ⟨unit, hun, rfl⟩ := mem_map.1 hp
          exact ⟨scope, true, unit, mem_append_right _ hun, rfl⟩
        · cases hp
      · obtain ⟨unit, hun, rfl⟩ := mem_map.1 hp
        refine ⟨scope, false, unit, mem_append_left _ ?_, rfl⟩
        split_ifs at hun
        · exact mem_of_mem_filter hun
        · exact hun
  · cases hp

theorem mem_listed_of_mem_members (hp : p ∈ t.plannedUnits auto maxRows) (hs : s ∈ p.members) :
    s ∈ t.listed ∧ s.scopeId = p.scope := by
  obtain ⟨-, scope, streamed, unit, -, rfl⟩ := exists_unit_of_mem hp
  obtain ⟨i, -, hi⟩ := mem_filterMap.1 hs
  exact mem_group.1 (mem_of_getElem? hi)

theorem getElem?_ranges (hbs : ∀ s ∈ t.listed, s.bounds ≠ none) (exactTuples : Bool)
    (scope : Option String) (i : ℕ) :
    ((t.group scope).filterMap (ListedSegment.range exactTuples))[i]? =
      (t.group scope)[i]?.bind (ListedSegment.range exactTuples) := by
  have hsome : ∀ s ∈ t.group scope, s.bounds ≠ none := fun s hs ↦ hbs s (mem_group.1 hs).1
  generalize t.group scope = segments at hsome
  induction segments generalizing i with
  | nil => simp
  | cons s segments ih =>
    obtain ⟨b, hb⟩ := Option.ne_none_iff_exists'.1 (hsome s mem_cons_self)
    have hr : s.range exactTuples =
        some ⟨s.rowCount, b, if exactTuples then s.tupleBounds else none⟩ := by
      rw [ListedSegment.range, hb, Option.map_some]
    rw [filterMap_cons_some hr]
    cases i with
    | zero => simp [hr]
    | succ i => simpa using ih i fun s hs ↦ hsome s (mem_cons_of_mem _ hs)

variable {exactTuples : Bool} {range : SegmentRange B} {r : Feed.ColdRow K V}

theorem encloses_range (hs : s ∈ t.listed) (hn : s.range exactTuples = some range)
    (hr : r ∈ s.segment.rows) : range.Encloses (t.cells r.pk) (t.tuple r.pk) := by
  obtain ⟨b, hb, rfl⟩ := Option.map_eq_some_iff.1 hn
  refine ⟨t.mem_bounds s hs b hb r hr, fun p hp ↦ ?_⟩
  split_ifs at hp
  exact t.mem_tupleBounds s hs p hp r hr

theorem sorted_ranges (exactTuples : Bool) (scope : Option String) :
    Sorted ((t.group scope).filterMap (ListedSegment.range exactTuples)) := by
  rw [Sorted, pairwise_filterMap]
  refine (t.sorted.sublist filter_sublist).imp fun {s s'} hle range hr range' hr' ↦ ?_
  obtain ⟨b, hb, rfl⟩ := Option.map_eq_some_iff.1 hr
  obtain ⟨b', hb', rfl⟩ := Option.map_eq_some_iff.1 hr'
  exact fun p hp q hq ↦ hle b hb p hp b' hb' q hq

theorem bounds_ne_nil {scope : Option String}
    (hr : range ∈ (t.group scope).filterMap (ListedSegment.range exactTuples)) :
    range.bounds ≠ [] := by
  obtain ⟨s, hs, hr⟩ := mem_filterMap.1 hr
  obtain ⟨b, hb, rfl⟩ := Option.map_eq_some_iff.1 hr
  have hl := t.length_bounds s (mem_group.1 hs).1 b hb
  have hp := t.keyColumns_pos
  rintro (rfl : b = [])
  rw [length_nil] at hl
  omega

/-- **A unit has all of its keys.** -/
theorem mem_members_of_sortKey_eq (hp : p ∈ t.plannedUnits auto maxRows) (hs : s ∈ p.members)
    (hs' : s' ∈ t.listed) (hsc : s'.scopeId = p.scope) {r' : Feed.ColdRow K V}
    (hr : r ∈ s.segment.rows) (hr' : r' ∈ s'.segment.rows) (hcs : t.cells r'.pk = t.cells r.pk)
    (ht : t.tuple r'.pk = t.tuple r.pk) : s' ∈ p.members := by
  have hl := (mem_listed_of_mem_members hp hs).1
  obtain ⟨hbs, scope, streamed, unit, hun, rfl⟩ := exists_unit_of_mem hp
  obtain ⟨i, hi, hsi⟩ := mem_filterMap.1 hs
  obtain ⟨j, hsj⟩ : ∃ j, (t.group scope)[j]? = some s' := getElem?_of_mem (mem_group.2 ⟨hs', hsc⟩)
  have hn : ∀ s ∈ t.listed, ∃ range, s.range (t.exactTuples scope) = some range := by
    intro s hs
    obtain ⟨b, hb⟩ := Option.ne_none_iff_exists'.1 (hbs s hs)
    exact ⟨_, by rw [ListedSegment.range, hb, Option.map_some]⟩
  obtain ⟨range, hrange_s⟩ := hn s hl
  obtain ⟨range', hrange_s'⟩ := hn s' hs'
  have hsh : range.mayShareKeys range' = true := (encloses_range hl hrange_s hr).mayShareKeys
      (hcs ▸ ht ▸ encloses_range hs' hrange_s' hr')
  have hj := mem_members_of_mayShareKeys (sorted_ranges _ _) (fun _ ↦ bounds_ne_nil) hun hi
    ((getElem?_ranges hbs _ _ i).trans (by rw [hsi, Option.bind_some, hrange_s]))
    ((getElem?_ranges hbs _ _ j).trans (by rw [hsj, Option.bind_some, hrange_s'])) hsh
  exact mem_filterMap.2 ⟨j, hj, hsj⟩

end Units

end CompactionTable

end Koldstore.Compaction
