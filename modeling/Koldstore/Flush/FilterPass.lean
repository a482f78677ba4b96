import Koldstore.Flush.Table

/-!
# A pass under a predicate move policy

The policy moves tombstones and the live rows that match its filter and are old enough.
-/

namespace Koldstore

open List

/-! ### The age bound -/

def koldstoreEpochMillis : ℕ := 1704067200000

/-- The first id at a time; `none` before the epoch. -/
def minimumIdAtUnixMillis (unixMillis : ℤ) : Option ℕ :=
  if unixMillis < 0 then none
  else if unixMillis.toNat < koldstoreEpochMillis then none
  else
    let id := ((unixMillis.toNat - koldstoreEpochMillis) <<< 22) % 2 ^ 64
    if id < 2 ^ 63 then some id else none

/-- Exclusive bound for live rows; `none` when no row can be old enough yet. -/
def filterAgeBound : Option ℤ → Option ℕ
  | none => some (2 ^ 63 - 1)
  | some cutoffMs => minimumIdAtUnixMillis cutoffMs

/-! ### The selection -/

structure FilterPolicy (C L : Type*) where
  predicate : MovePredicate C L
  olderThan : Option ℤ
  minFlushRows : ℕ
  maxRowsPerFile : ℕ
  maxRowsPerFlush : ℕ

def selectedRowsMeetFileMinimum (selected maxRowsPerFile : ℕ) : Bool :=
  let minimum := if maxRowsPerFile = 0 then 1 else maxRowsPerFile
  decide (0 < selected ∧ minimum ≤ selected)

section Selection

variable {K O C L V : Type*} (compare : C → V → L → Ordering)
variable (predicate : MovePredicate C L) (maxLiveSeq : ℕ)

def filterEligible (heap : Heap K C V) (r : MirrorRow K O) : Bool := decide (r.op = .delete) ||
    (decide (r.seq < maxLiveSeq) && predicate.holds compare (leftJoin heap r.pk))

def eligibleRows (mirror : List (MirrorRow K O)) (heap : Heap K C V) : List (MirrorRow K O) :=
  Keyset.ordered MirrorRow.seq (mirror.filter (filterEligible compare predicate maxLiveSeq heap))

/-- `plan_filter_eligible_mirror_rows`: the oldest eligible rows, up to the limit. -/
def selectedRows (maxRows : ℕ) (mirror : List (MirrorRow K O)) (heap : Heap K C V) :
    List (MirrorRow K O) :=
  (eligibleRows compare predicate maxLiveSeq mirror heap).take maxRows

def filterCutoff (minFlushRows maxRowsPerFile maxRowsPerFlush : ℕ)
    (mirror : List (MirrorRow K O)) (heap : Heap K C V) : Option (ℕ × ℕ) :=
  let selected := selectedRows compare predicate maxLiveSeq maxRowsPerFlush mirror heap
  if selected.length < minFlushRows then none
  else if !selectedRowsMeetFileMinimum selected.length maxRowsPerFile then none
  else (selected.map MirrorRow.seq).max?.map fun maxSeq ↦ (selected.length, maxSeq)

end Selection

/-- `resolve_flush_stats` for a predicate policy. -/
def resolveFilterSelection {K O C L V : Type*} (compare : C → V → L → Ordering) (pending : ℕ)
    (policy : FilterPolicy C L) (mirror : List (MirrorRow K O)) (heap : Heap K C V) :
    ResolvedFlushSelection C L :=
  if pending = 0 then .new .empty
  else
    match filterAgeBound policy.olderThan with
    | none => .new .empty
    | some maxLiveSeq =>
      match filterCutoff compare policy.predicate maxLiveSeq policy.minFlushRows
          policy.maxRowsPerFile policy.maxRowsPerFlush mirror heap with
      | none => .new .empty
      | some (rowCount, maxSeq) =>
        { stats := ⟨rowCount, 0, maxSeq⟩, mirrorOps := none, rowFilter := some policy.predicate }

section Agreement

variable {K O C L V : Type*} (compare : C → V → L → Ordering)
variable (policy : FilterPolicy C L) (maxLiveSeq : ℕ) (sortByOrderKey : Bool)
variable (sel : ResolvedFlushSelection C L) (mirror : MirrorTable K O) (heap : Heap K C V)

def FilterPolicy.counted : List (MirrorRow K O) :=
  selectedRows compare policy.predicate maxLiveSeq policy.maxRowsPerFlush mirror.rows heap

structure FilterPassSafe : Prop where
  tombstones : ∀ t ∈ policy.counted compare maxLiveSeq mirror heap, t.op = .delete →
    ∀ r ∈ mirror.rows, r.op ≠ .delete →
      policy.predicate.holds compare (leftJoin heap r.pk) = true → maxLiveSeq ≤ r.seq →
        t.seq < r.seq
  limit_ties : ∀ t ∈ policy.counted compare maxLiveSeq mirror heap,
    ∀ r ∈ (eligibleRows compare policy.predicate maxLiveSeq mirror.rows heap).drop
      policy.maxRowsPerFlush, r.seq ≠ t.seq
  page_ties : sortByOrderKey = false → Keyset.NoSplitTies MirrorRow.seq
    (flushMirrorFetchLimit policy.maxRowsPerFile) (policy.counted compare maxLiveSeq mirror heap)
  heap_rows : ∀ r ∈ policy.counted compare maxLiveSeq mirror heap, r.op ≠ .delete →
    (heap r.pk).isSome = true

variable [LinearOrder K] [LinearOrder O]

def FilterPolicy.fetched : List (MirrorRow K O) :=
  streamRows compare sortByOrderKey (flushMirrorFetchLimit policy.maxRowsPerFile) sel mirror.rows
    heap

structure FilterPassExact : Prop where
  reads_all : (policy.fetched compare sortByOrderKey sel mirror heap).Perm
    (flushRows compare sel mirror.rows heap)
  reads_counted : (policy.fetched compare sortByOrderKey sel mirror heap).Perm
    (policy.counted compare maxLiveSeq mirror heap)
  no_young : ∀ r ∈ policy.fetched compare sortByOrderKey sel mirror heap,
    r.op ≠ .delete → r.seq < maxLiveSeq
  validates : validateFlushRowSelection sel.stats.rowCount
    (policy.fetched compare sortByOrderKey sel mirror heap).length = .ok ()
  removes_counted : (removedMirror compare
    (pruneMaxSeq (policy.fetched compare sortByOrderKey sel mirror heap)) sel.mirrorOps
    sel.rowFilter mirror.rows heap).Perm (policy.counted compare maxLiveSeq mirror heap)

end Agreement

section Told

variable {K O C L V : Type*} {compare : C → V → L → Ordering} {pending : ℕ}
variable {policy : FilterPolicy C L} {mirror : MirrorTable K O} {heap : Heap K C V}

theorem filterCutoff_eq_some {predicate : MovePredicate C L}
    {maxLiveSeq minFlushRows maxRowsPerFile maxRowsPerFlush rowCount maxSeq : ℕ}
    {rows : List (MirrorRow K O)}
    (h : filterCutoff compare predicate maxLiveSeq minFlushRows maxRowsPerFile maxRowsPerFlush rows
      heap = some (rowCount, maxSeq)) :
    (selectedRows compare predicate maxLiveSeq maxRowsPerFlush rows heap).length = rowCount ∧
      ((selectedRows compare predicate maxLiveSeq maxRowsPerFlush rows heap).map
        MirrorRow.seq).max? = some maxSeq := by
  rw [filterCutoff] at h
  simp only [Option.ite_none_left_eq_some, Option.map_eq_some_iff, Prod.mk.injEq] at h
  obtain ⟨-, -, m, hm, hc, rfl⟩ := h
  exact ⟨hc, hm⟩

theorem resolveFilterSelection_of_pos {maxLiveSeq : ℕ}
    (hb : filterAgeBound policy.olderThan = some maxLiveSeq)
    (hpa : 0 < (resolveFilterSelection compare pending policy mirror.rows heap).stats.rowCount) :
    ∃ maxSeq, resolveFilterSelection compare pending policy mirror.rows heap =
        { stats := ⟨(policy.counted compare maxLiveSeq mirror heap).length, 0, maxSeq⟩
          mirrorOps := none
          rowFilter := some policy.predicate } ∧
      (∃ r ∈ policy.counted compare maxLiveSeq mirror heap, r.seq = maxSeq) ∧
      ∀ r ∈ policy.counted compare maxLiveSeq mirror heap, r.seq ≤ maxSeq := by
  by_cases hpe : pending = 0
  · simp [resolveFilterSelection, hpe, ResolvedFlushSelection.new, FlushStats.empty] at hpa
  · cases hu : filterCutoff compare policy.predicate maxLiveSeq policy.minFlushRows
        policy.maxRowsPerFile policy.maxRowsPerFlush mirror.rows heap with
    | none =>
      simp [resolveFilterSelection, hpe, hb, hu, ResolvedFlushSelection.new,
        FlushStats.empty] at hpa
    | some cutoff =>
      obtain ⟨rowCount, maxSeq⟩ := cutoff
      obtain ⟨hc, hm⟩ := filterCutoff_eq_some hu
      obtain ⟨hmem, hle⟩ := max?_eq_some_iff.1 hm
      refine ⟨maxSeq, ?_, mem_map.1 hmem, fun r hr ↦ hle _ (mem_map_of_mem hr)⟩
      simp [resolveFilterSelection, hpe, hb, hu, FilterPolicy.counted, hc]

end Told

section UpTo

variable {K O C L V : Type*} {compare : C → V → L → Ordering} {policy : FilterPolicy C L}
variable {maxLiveSeq maxSeq rowCount minSeq : ℕ} {mirror : MirrorTable K O} {heap : Heap K C V}
variable {sel : ResolvedFlushSelection C L}

structure Tells (policy : FilterPolicy C L) (maxSeq : ℕ) (sel : ResolvedFlushSelection C L) :
    Prop where
  maxSeq_eq : sel.stats.maxSeq = maxSeq
  mirrorOps_eq : sel.mirrorOps = none
  rowFilter_eq : sel.rowFilter = some policy.predicate

variable {r : MirrorRow K O}

theorem Tells.mem_flushRows_iff (h : Tells policy maxSeq sel) :
    r ∈ flushRows compare sel mirror.rows heap ↔ r ∈ mirror.rows ∧ r.seq ≤ maxSeq ∧
      (r.op = .delete ∨ policy.predicate.holds compare (leftJoin heap r.pk) = true) := by
  rw [mem_flushRows]
  simp [flushSelects, h.maxSeq_eq, h.mirrorOps_eq, h.rowFilter_eq, mirrorOpsWhereClause, deleteOnly]

theorem Tells.mem_removedMirror_iff (h : Tells policy maxSeq sel) :
    r ∈ removedMirror compare maxSeq sel.mirrorOps sel.rowFilter mirror.rows heap ↔
      r ∈ flushRows compare sel mirror.rows heap ∧
        (r.op = .delete ∨ (heap r.pk).isSome = true) := by
  rw [h.mem_flushRows_iff, removedMirror, mem_filter]
  cases hh : heap r.pk with
  | none =>
    simp only [cleanupRemoves, h.mirrorOps_eq, h.rowFilter_eq, mirrorOpsWhereClause, hh,
      Option.any_none, Option.isSome_none, Bool.and_true, Bool.or_false, Bool.and_eq_true,
      decide_eq_true_eq, Bool.false_eq_true, or_false]
    exact ⟨fun ⟨hmem, hle, hd⟩ ↦ ⟨⟨hmem, hle, .inl hd⟩, hd⟩,
      fun ⟨⟨hmem, hle, _⟩, hd⟩ ↦ ⟨hmem, hle, hd⟩⟩
  | some row =>
    simp [cleanupRemoves, h.mirrorOps_eq, h.rowFilter_eq, mirrorOpsWhereClause, leftJoin, hh]

theorem mem_eligibleRows : r ∈ eligibleRows compare policy.predicate maxLiveSeq mirror.rows heap ↔
      r ∈ mirror.rows ∧ (r.op = .delete ∨
        r.seq < maxLiveSeq ∧ policy.predicate.holds compare (leftJoin heap r.pk) = true) := by
  rw [eligibleRows, (Keyset.perm_ordered _ _).mem_iff, mem_filter]
  simp [filterEligible]

theorem mem_eligibleRows_of_mem_counted (h : r ∈ policy.counted compare maxLiveSeq mirror heap) :
    r ∈ eligibleRows compare policy.predicate maxLiveSeq mirror.rows heap :=
  mem_of_mem_take h

theorem counted_nodup : (policy.counted compare maxLiveSeq mirror heap).Nodup := by
  have he : (eligibleRows compare policy.predicate maxLiveSeq mirror.rows heap).Nodup :=
    (Keyset.perm_ordered _ _).nodup_iff.2 (mirror.rows_nodup.filter _)
  exact he.sublist (take_sublist _ _)

theorem counted_subset_flushRows (h : Tells policy maxSeq sel)
    (hle : ∀ r ∈ policy.counted compare maxLiveSeq mirror heap, r.seq ≤ maxSeq)
    (hr : r ∈ policy.counted compare maxLiveSeq mirror heap) :
    r ∈ flushRows compare sel mirror.rows heap := by
  obtain ⟨hmem, he⟩ := mem_eligibleRows.1 (mem_eligibleRows_of_mem_counted hr)
  exact h.mem_flushRows_iff.2 ⟨hmem, hle r hr, he.imp_right And.right⟩

theorem seq_le_of_mem_drop {s : MirrorRow K O}
    (hs : s ∈ policy.counted compare maxLiveSeq mirror heap)
    (hr : r ∈ (eligibleRows compare policy.predicate maxLiveSeq mirror.rows heap).drop
      policy.maxRowsPerFlush) : s.seq ≤ r.seq := by
  have hso : (eligibleRows compare policy.predicate maxLiveSeq mirror.rows heap).Pairwise
      fun a b ↦ a.seq ≤ b.seq := Keyset.pairwise_ordered _ _
  rw [← take_append_drop policy.maxRowsPerFlush (eligibleRows compare policy.predicate maxLiveSeq
    mirror.rows heap), pairwise_append] at hso
  exact hso.2.2 s hs r hr

theorem map_seq_ordered_eq (hp : (flushRows compare sel mirror.rows heap).Perm
      (policy.counted compare maxLiveSeq mirror heap)) :
    (Keyset.ordered MirrorRow.seq (flushRows compare sel mirror.rows heap)).map MirrorRow.seq =
      (policy.counted compare maxLiveSeq mirror heap).map MirrorRow.seq := by
  have hso : (eligibleRows compare policy.predicate maxLiveSeq mirror.rows heap).Pairwise
      fun a b ↦ a.seq ≤ b.seq := Keyset.pairwise_ordered _ _
  refine List.Perm.eq_of_pairwise (fun _ _ _ _ ↦ le_antisymm)
    (pairwise_map.2 (Keyset.pairwise_ordered _ _))
    (pairwise_map.2 (hso.sublist (take_sublist _ _)))
    (((Keyset.perm_ordered _ _).trans hp).map _)

theorem pruneMaxSeq_eq (h : Tells policy maxSeq sel)
    (hm : ∃ s ∈ policy.counted compare maxLiveSeq mirror heap, s.seq = maxSeq)
    (hle : ∀ r ∈ policy.counted compare maxLiveSeq mirror heap, r.seq ≤ maxSeq)
    {rows : List (MirrorRow K O)} (hrs : rows.Perm (flushRows compare sel mirror.rows heap)) :
    pruneMaxSeq rows = maxSeq := by
  apply le_antisymm
  · exact pruneMaxSeq_le_iff.2 fun r hr ↦ (h.mem_flushRows_iff.1 (hrs.mem_iff.1 hr)).2.1
  · obtain ⟨s, hs, rfl⟩ := hm
    exact seq_le_pruneMaxSeq (hrs.mem_iff.2 (counted_subset_flushRows h hle hs))

theorem mem_counted_of_mem_flushRows {sortByOrderKey : Bool} (h : Tells policy maxSeq sel)
    (ha : FilterPassSafe compare policy maxLiveSeq sortByOrderKey mirror heap)
    (hm : ∃ s ∈ policy.counted compare maxLiveSeq mirror heap, s.seq = maxSeq)
    (hr : r ∈ flushRows compare sel mirror.rows heap) :
    r ∈ policy.counted compare maxLiveSeq mirror heap := by
  obtain ⟨s, hs, rfl⟩ := hm
  obtain ⟨hmem, hle, hkd⟩ := h.mem_flushRows_iff.1 hr
  by_cases he : r ∈ eligibleRows compare policy.predicate maxLiveSeq mirror.rows heap
  · -- an eligible row that was not counted lies past the limit, so it ties with the last counted
    rw [← take_append_drop policy.maxRowsPerFlush
      (eligibleRows compare policy.predicate maxLiveSeq mirror.rows heap)] at he
    rcases mem_append.1 he with htk | hdr
    · exact htk
    · exact absurd (le_antisymm hle (seq_le_of_mem_drop hs hdr)) (ha.limit_ties s hs r hdr)
  · rw [mem_eligibleRows, not_and, not_or, not_and] at he
    obtain ⟨hlv, hyg⟩ := he hmem
    have hh := hkd.resolve_left hlv
    have hb : maxLiveSeq ≤ r.seq := by
      by_contra hlt
      exact hyg (not_le.1 hlt) hh
    -- the largest counted row is at least as young, so it is a tombstone
    have hd : s.op = .delete := by
      by_contra hs'
      have hold := (mem_eligibleRows.1 (mem_eligibleRows_of_mem_counted hs)).2.resolve_left hs'
      omega
    have := ha.tombstones s hs hd r hmem hlv hh hb
    omega

end UpTo

section Equivalence

variable {K O C L V : Type*} [LinearOrder K] [LinearOrder O] {compare : C → V → L → Ordering}
variable {policy : FilterPolicy C L} {maxLiveSeq maxSeq : ℕ} {sortByOrderKey : Bool}
variable {sel : ResolvedFlushSelection C L} {mirror : MirrorTable K O} {heap : Heap K C V}

theorem FilterPassExact.safe (h : Tells policy maxSeq sel)
    (hm : ∃ s ∈ policy.counted compare maxLiveSeq mirror heap, s.seq = maxSeq)
    (hle : ∀ r ∈ policy.counted compare maxLiveSeq mirror heap, r.seq ≤ maxSeq)
    (hex : FilterPassExact compare policy maxLiveSeq sortByOrderKey sel mirror heap) :
    FilterPassSafe compare policy maxLiveSeq sortByOrderKey mirror heap := by
  have hp := hex.reads_all.symm.trans hex.reads_counted
  have hl := flushMirrorFetchLimit_pos policy.maxRowsPerFile
  refine ⟨fun t ht hd r hmem hlv hh hb ↦ ?_, fun t ht r hdr heq ↦ ?_,
    fun hso ↦ ?_, fun r hr hlv ↦ ?_⟩
  · by_contra hlt
    have hrd : r ∈ flushRows compare sel mirror.rows heap :=
      h.mem_flushRows_iff.2 ⟨hmem, (not_lt.1 hlt).trans (hle t ht), .inr hh⟩
    have hold := (mem_eligibleRows.1
      (mem_eligibleRows_of_mem_counted (hp.mem_iff.1 hrd))).2.resolve_left hlv
    omega
  · -- the row past the limit is read as well, so it would have been counted twice
    have helig := mem_of_mem_drop hdr
    obtain ⟨hmem, hkd⟩ := mem_eligibleRows.1 helig
    have hrd : r ∈ flushRows compare sel mirror.rows heap :=
      h.mem_flushRows_iff.2 ⟨hmem, heq ▸ hle t ht, hkd.imp_right And.right⟩
    have hnd : (eligibleRows compare policy.predicate maxLiveSeq mirror.rows heap).Nodup :=
      (Keyset.perm_ordered _ _).nodup_iff.2 (mirror.rows_nodup.filter _)
    rw [← take_append_drop policy.maxRowsPerFlush
      (eligibleRows compare policy.predicate maxLiveSeq mirror.rows heap)] at hnd
    exact disjoint_of_nodup_append hnd (hp.mem_iff.1 hrd) hdr
  · exact Keyset.noSplitTies_congr (map_seq_ordered_eq hp)
      ((streamRows_perm_iff hl sel mirror heap).1 hex.reads_all hso)
  · have he := hex.removes_counted.mem_iff.2 hr
    rw [pruneMaxSeq_eq h hm hle hex.reads_all, h.mem_removedMirror_iff] at he
    exact he.2.resolve_left hlv

theorem FilterPassSafe.exact (h : Tells policy maxSeq sel)
    (hc : sel.stats.rowCount = (policy.counted compare maxLiveSeq mirror heap).length)
    (hm : ∃ s ∈ policy.counted compare maxLiveSeq mirror heap, s.seq = maxSeq)
    (hle : ∀ r ∈ policy.counted compare maxLiveSeq mirror heap, r.seq ≤ maxSeq)
    (hs : FilterPassSafe compare policy maxLiveSeq sortByOrderKey mirror heap) :
    FilterPassExact compare policy maxLiveSeq sortByOrderKey sel mirror heap := by
  have hp : (flushRows compare sel mirror.rows heap).Perm
      (policy.counted compare maxLiveSeq mirror heap) :=
    (perm_ext_iff_of_nodup (flushRows_nodup mirror sel heap) counted_nodup).2 fun r ↦
      ⟨mem_counted_of_mem_flushRows h hs hm, counted_subset_flushRows h hle⟩
  have ha : (policy.fetched compare sortByOrderKey sel mirror heap).Perm
      (flushRows compare sel mirror.rows heap) :=
    (streamRows_perm_iff (flushMirrorFetchLimit_pos policy.maxRowsPerFile) sel mirror heap).2
      fun hso ↦ Keyset.noSplitTies_congr (map_seq_ordered_eq hp).symm (hs.page_ties hso)
  refine ⟨ha, ha.trans hp, fun r hr hlv ↦ ?_, ?_, ?_⟩
  · have hr' := mem_eligibleRows_of_mem_counted ((ha.trans hp).mem_iff.1 hr)
    exact ((mem_eligibleRows.1 hr').2.resolve_left hlv).1
  · rw [hc, (ha.trans hp).length_eq]
    simp [validateFlushRowSelection]
  · rw [pruneMaxSeq_eq h hm hle ha]
    refine (perm_ext_iff_of_nodup (mirror.rows_nodup.filter _) counted_nodup).2 fun r ↦ ?_
    change r ∈ removedMirror compare maxSeq sel.mirrorOps sel.rowFilter mirror.rows heap ↔ _
    rw [h.mem_removedMirror_iff, hp.mem_iff]
    refine ⟨And.left, fun hr ↦ ⟨hr, ?_⟩⟩
    by_cases hlv : r.op = .delete
    · exact .inl hlv
    · exact .inr (hs.heap_rows r hr hlv)

/-- **A predicate pass moves what it counted** exactly when no young live row that matches lies
below a counted tombstone, no sequence id is shared across the limit or a page boundary, and every
counted live row has its heap row. -/
theorem filterPass_exact_iff (compare : C → V → L → Ordering) (pending : ℕ)
    (policy : FilterPolicy C L) (sortByOrderKey : Bool) (mirror : MirrorTable K O)
    (heap : Heap K C V) {maxLiveSeq : ℕ}
    (hbound : filterAgeBound policy.olderThan = some maxLiveSeq)
    (hpass : 0 < (resolveFilterSelection compare pending policy mirror.rows heap).stats.rowCount) :
    FilterPassExact compare policy maxLiveSeq sortByOrderKey
        (resolveFilterSelection compare pending policy mirror.rows heap) mirror heap ↔
      FilterPassSafe compare policy maxLiveSeq sortByOrderKey mirror heap := by
  obtain ⟨maxSeq, hs, hm, hle⟩ := resolveFilterSelection_of_pos hbound hpass
  rw [hs]
  have ht : Tells policy maxSeq
      { stats := ⟨(policy.counted compare maxLiveSeq mirror heap).length, 0, maxSeq⟩
        mirrorOps := none
        rowFilter := some policy.predicate } := ⟨rfl, rfl, rfl⟩
  exact ⟨FilterPassExact.safe ht hm hle, FilterPassSafe.exact ht rfl hm hle⟩

end Equivalence

/-! ### A young tombstone -/

/-- A policy with a filter and an age condition. -/
def examplePolicy : FilterPolicy Unit ℕ where
  predicate := ⟨[⟨(), .eq, [1]⟩]⟩
  olderThan := some 1704067200001
  minFlushRows := 1
  maxRowsPerFile := 1
  maxRowsPerFlush := 10

/-- Keys 1 and 2 are live with `status = 1`. -/
def exampleHeap : Heap ℕ Unit ℕ := fun k ↦ if k = 1 ∨ k = 2 then some fun _ ↦ some 1 else none

def exampleMirror : MirrorTable ℕ Unit where
  rows := [⟨1, (), 10, .insert⟩, ⟨3, (), 20, .delete⟩]
  pk_nodup := by decide
  seq_pos := by decide

def exampleYoungMirror : MirrorTable ℕ Unit where
  rows := [⟨1, (), 10, .insert⟩, ⟨2, (), 5000000, .insert⟩, ⟨3, (), 6000000, .delete⟩]
  pk_nodup := by decide
  seq_pos := by decide

theorem filterPass_exact_iff_old :
    0 < (resolveFilterSelection (fun _ ↦ compare) 2 examplePolicy exampleMirror.rows
        exampleHeap).stats.rowCount ∧
      FilterPassExact (fun _ ↦ compare) examplePolicy 4194304 true
        (resolveFilterSelection (fun _ ↦ compare) 2 examplePolicy exampleMirror.rows exampleHeap)
        exampleMirror exampleHeap := by
  have hpa : 0 < (resolveFilterSelection (fun _ ↦ compare) 2 examplePolicy exampleMirror.rows
      exampleHeap).stats.rowCount := by decide
  refine ⟨hpa, (filterPass_exact_iff _ 2 examplePolicy true exampleMirror exampleHeap rfl
    hpa).2 ⟨?_, ?_, fun h ↦ absurd h (by decide), ?_⟩⟩ <;> decide

theorem youngTombstone_fetches_young_row :
    let sel := resolveFilterSelection (fun _ ↦ compare) 3 examplePolicy exampleYoungMirror.rows
      exampleHeap
    let fetched := examplePolicy.fetched (fun _ ↦ compare) false sel exampleYoungMirror exampleHeap
    filterAgeBound examplePolicy.olderThan = some 4194304 ∧ sel.stats.rowCount = 2 ∧
      (⟨2, (), 5000000, .insert⟩ : MirrorRow ℕ Unit) ∈ fetched ∧
      validateFlushRowSelection sel.stats.rowCount fetched.length = .error
        "flush row selection mismatch: stats reported 2 rows but writer built 3 rows" ∧
      ¬FilterPassExact (fun _ ↦ compare) examplePolicy 4194304 false sel exampleYoungMirror
        exampleHeap := by
  refine ⟨by decide, by decide, by decide, by decide, fun hex ↦ ?_⟩
  have hyg := hex.no_young ⟨2, (), 5000000, .insert⟩ (by decide) (by decide)
  exact absurd hyg (by decide)

end Koldstore
