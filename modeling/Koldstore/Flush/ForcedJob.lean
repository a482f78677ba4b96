import Koldstore.Flush.Pass

/-!
# Forced flush jobs

The job drains the mirror up to a **watermark** in several passes.
-/

namespace Koldstore

open List Except

/-! ### Selecting -/

def forceTombstoneOnlyCap : ℕ := 4096

def forceFlushPassRowCap : ℕ := 10000

def maxCatchupPassesPerJob : ℕ := 64

section Selection

variable {K O C L : Type*} (rows : List (MirrorRow K O))

def tombstones : List (MirrorRow K O) :=
  rows.filter fun r ↦ decide (r.op = .delete)

/-- `count(*)`, `min(seq)` and `max(seq)`, with `0` for no rows. -/
def mirrorSeqStats : FlushStats where
  rowCount := rows.length
  minSeq := (rows.map MirrorRow.seq).min?.getD 0
  maxSeq := pruneMaxSeq rows

def resolveForceFlushSelection (all deleteStats : FlushStats) : ResolvedFlushSelection C L :=
  if all.rowCount = 0 then .new all
  else if 0 < deleteStats.rowCount ∧ deleteStats.rowCount ≤ forceTombstoneOnlyCap then
    { stats := deleteStats, mirrorOps := some [.delete], rowFilter := none }
  else .new all

/-- The number of oldest rows, at most `limit`, and the largest sequence among them. -/
def mirrorOldestRowsCutoff (limit : ℕ) : ℕ × ℕ :=
  if limit = 0 then (0, 0)
  else
    match (Keyset.ordered MirrorRow.seq rows)[limit - 1]? with
    | some r => (limit, r.seq)
    | none =>
      -- fewer rows than asked for: all of them
      (min limit (mirrorSeqStats rows).rowCount, (mirrorSeqStats rows).maxSeq)

def applyForceFlushPassCap (selection : ResolvedFlushSelection C L) (passCap : ℕ)
    (cutoff : Option (ℕ × ℕ)) : ResolvedFlushSelection C L :=
  if selection.mirrorOps.isSome ∨ selection.stats.rowCount ≤ passCap then selection
  else
    match cutoff with
    | none => selection
    | some (selectedCount, maxSeq) =>
      if selectedCount = 0 ∨ maxSeq = 0 then selection
      else .new
        { rowCount := min selectedCount selection.stats.rowCount
          minSeq := selection.stats.minSeq
          maxSeq := maxSeq }

/-- `resolve_flush_stats` of a forced flush. -/
def resolveForcedStats : ResolvedFlushSelection C L :=
  let selection := resolveForceFlushSelection (mirrorSeqStats rows)
    (mirrorSeqStats (tombstones rows))
  if selection.mirrorOps = none ∧ forceFlushPassRowCap < selection.stats.rowCount then
    applyForceFlushPassCap selection forceFlushPassRowCap
      (some (mirrorOldestRowsCutoff rows forceFlushPassRowCap))
  else selection

def shouldStartCatchupPass (catchupUptoSeq : Option ℕ) (rowCount minSeq : ℕ) : Bool :=
  decide (0 < rowCount) && catchupUptoSeq.all fun upto ↦ decide (minSeq ≤ upto)

/-- Whether another catch-up pass is needed after flushing through `flushedMaxSeq`. -/
def shouldContinueFlushCatchup (catchupUptoSeq : Option ℕ) (flushedMaxSeq : ℕ) : Bool :=
  catchupUptoSeq.any fun upto ↦ decide (flushedMaxSeq < upto)

/-- Mirror `max(seq)` at flush-job start, if there is a row. -/
def mirrorCatchupWatermark : Option ℕ :=
  if rows.length = 0 ∨ pruneMaxSeq rows = 0 then none else some (pruneMaxSeq rows)

def startWatermark (targetSeq : Option ℕ) (rows : List (MirrorRow K O)) : Option ℕ :=
  match targetSeq with
  | some seq => some seq
  | none => mirrorCatchupWatermark rows

/-! ### Backlogs -/

def TombstoneBatch : Prop :=
  0 < (tombstones rows).length ∧ (tombstones rows).length ≤ forceTombstoneOnlyCap

def tombstoneSelection : ResolvedFlushSelection C L where
  stats := mirrorSeqStats (tombstones rows)
  mirrorOps := some [.delete]
  rowFilter := none

def oldestMaxSeq : ℕ :=
  if forceFlushPassRowCap < rows.length then (mirrorOldestRowsCutoff rows forceFlushPassRowCap).2
  else pruneMaxSeq rows

def afterOldest : List (MirrorRow K O) :=
  rows.filter fun r ↦ decide (oldestMaxSeq rows < r.seq)

end Selection

/-! ### The job -/

structure SegmentCut (K O : Type*) where
  segments : List (MirrorRow K O) → List (List (MirrorRow K O))
  perm : ∀ rows, (segments rows).flatten.Perm rows
  ne_nil : ∀ rows, ∀ segment ∈ segments rows, segment ≠ []

/-- The largest sequence of the segment written last, `0` when there is none. -/
def SegmentCut.lastMaxSeq {K O : Type*} (cut : SegmentCut K O) (rows : List (MirrorRow K O)) : ℕ :=
  pruneMaxSeq ((cut.segments rows).getLast?.getD [])

section Job

variable {K O C L V : Type*} [LinearOrder K] [LinearOrder O] (compare : C → V → L → Ordering)
  (cfg : TableConfig O C V) (cut : SegmentCut K O)

def streamed (sel : ResolvedFlushSelection C L) (rows : List (MirrorRow K O)) (heap : Heap K C V) :
    List (MirrorRow K O) :=
  streamRows compare cfg.sortByOrderKey (flushMirrorFetchLimit cfg.maxRowsPerFile) sel rows heap

def forcedPass (sel : ResolvedFlushSelection C L) (σ : PassState K O C V) :
    Except String (ℕ × PassState K O C V) :=
  let rows := streamed compare cfg sel σ.mirror.rows σ.heap
  (validateFlushRowSelection sel.stats.rowCount rows.length).map fun _ ↦
    (cut.lastMaxSeq rows,
      if 0 < pruneMaxSeq rows then prune compare sel σ (withImages sel σ.heap rows) else σ)

/-- The loop of `flush_prepared_table`, with the passes it may still run. -/
def catchupLoop (catchupUptoSeq : Option ℕ) :
    ℕ → Option ℕ → PassState K O C V → Except String (PassState K O C V × ℕ)
  | 0, _, σ => .ok (σ, 0)
  | budget + 1, lastMaxSeq, σ =>
    let sel : ResolvedFlushSelection C L := resolveForcedStats σ.mirror.rows
    if shouldStartCatchupPass catchupUptoSeq sel.stats.rowCount sel.stats.minSeq then
      (forcedPass compare cfg cut sel σ).bind fun (flushed, σ') ↦
        let lastMaxSeq' := if 0 < flushed then some flushed else lastMaxSeq
        if budget ≠ 0 ∧ shouldContinueFlushCatchup catchupUptoSeq (lastMaxSeq'.getD 0) then
          catchupLoop catchupUptoSeq budget lastMaxSeq' σ'
        else .ok (σ', budget)
    else .ok (σ, budget + 1)

/-- `flush_prepared_table` for a forced job over a table nobody writes to. -/
def flushPreparedTable (targetSeq : Option ℕ) (σ : PassState K O C V) :
    Except String (PassState K O C V × ℕ) :=
  (catchupLoop compare cfg cut (startWatermark targetSeq σ.mirror.rows)
    maxCatchupPassesPerJob none σ).map
    fun (σ', left) ↦ (σ', maxCatchupPassesPerJob - left)

/-! ### When a job drains its backlog -/

def lastTombstoneSeq (rows : List (MirrorRow K O)) : ℕ :=
  cut.lastMaxSeq (streamed compare cfg (tombstoneSelection rows) rows fun _ ↦ none)

/-- A tombstone-only pass is next and ends the job before a live row. -/
def EndsEarly (watermark : ℕ) (rows : List (MirrorRow K O)) : Prop :=
  TombstoneBatch rows ∧ (∃ r ∈ rows, r.op ≠ .delete ∧ r.seq ≤ watermark) ∧
    ((∀ r ∈ tombstones rows, watermark < r.seq) ∨
      watermark ≤ lastTombstoneSeq compare cfg cut rows)

def Drains (watermark : ℕ) (rows : List (MirrorRow K O)) : Prop :=
  ∀ n, (∀ i < n, ¬TombstoneBatch (afterOldest^[i] rows)) →
    ¬EndsEarly compare cfg cut watermark (afterOldest^[n] rows)

end Job

section SelectionLemmas

variable {K O C L : Type*} {rows : List (MirrorRow K O)}

theorem exists_seq_eq_pruneMaxSeq (h : rows ≠ []) : ∃ r ∈ rows, r.seq = pruneMaxSeq rows := by
  by_contra hne
  push Not at hne
  obtain ⟨r, hr⟩ := exists_mem_of_ne_nil rows h
  have hlt : ∀ r ∈ rows, r.seq < pruneMaxSeq rows := fun r hr ↦
    lt_of_le_of_ne (seq_le_pruneMaxSeq hr) (hne r hr)
  have hle : pruneMaxSeq rows ≤ pruneMaxSeq rows - 1 :=
    pruneMaxSeq_le_iff.2 fun r hr ↦ Nat.le_sub_one_of_lt (hlt r hr)
  have := hlt r hr
  omega

theorem minSeq_le_iff (h : rows ≠ []) {n : ℕ} :
    (mirrorSeqStats rows).minSeq ≤ n ↔ ∃ r ∈ rows, r.seq ≤ n := by
  show (rows.map MirrorRow.seq).min?.getD 0 ≤ n ↔ _
  obtain ⟨m, hm⟩ : ∃ m, (rows.map MirrorRow.seq).min? = some m :=
    Option.isSome_iff_exists.1 (by simpa using h)
  obtain ⟨hmem, hmin⟩ := min?_eq_some_iff.1 hm
  rw [hm, Option.getD_some]
  constructor
  · intro hle
    obtain ⟨r, hr, rfl⟩ := mem_map.1 hmem
    exact ⟨r, hr, hle⟩
  · rintro ⟨r, hr, hle⟩
    exact (hmin _ (mem_map_of_mem hr)).trans hle

theorem mem_tombstones {r : MirrorRow K O} : r ∈ tombstones rows ↔ r ∈ rows ∧ r.op = .delete := by
  simp [tombstones]

theorem TombstoneBatch.ne_nil (h : TombstoneBatch rows) : rows ≠ [] := by
  rintro rfl
  exact absurd h.1 (by simp [tombstones])

theorem resolveForcedStats_of_tombstoneBatch (h : TombstoneBatch rows) :
    (resolveForcedStats rows : ResolvedFlushSelection C L) = tombstoneSelection rows := by
  have hl : (mirrorSeqStats rows).rowCount ≠ 0 := by simpa [mirrorSeqStats] using h.ne_nil
  have hbt : 0 < (mirrorSeqStats (tombstones rows)).rowCount ∧
      (mirrorSeqStats (tombstones rows)).rowCount ≤ forceTombstoneOnlyCap := h
  simp [resolveForcedStats, resolveForceFlushSelection, tombstoneSelection, hl, hbt]

theorem mirrorOldestRowsCutoff_of_lt (h : forceFlushPassRowCap < rows.length) :
    ∃ hi : forceFlushPassRowCap - 1 < (Keyset.ordered MirrorRow.seq rows).length,
      mirrorOldestRowsCutoff rows forceFlushPassRowCap = (forceFlushPassRowCap,
        ((Keyset.ordered MirrorRow.seq rows)[forceFlushPassRowCap - 1]).seq) := by
  have hi : forceFlushPassRowCap - 1 < (Keyset.ordered MirrorRow.seq rows).length := by
    rw [(Keyset.perm_ordered _ rows).length_eq]
    omega
  refine ⟨hi, ?_⟩
  rw [mirrorOldestRowsCutoff, if_neg (by decide), getElem?_eq_getElem hi]

theorem resolveForcedStats_of_not_tombstoneBatch (hp : ∀ r ∈ rows, 0 < r.seq)
    (h : ¬TombstoneBatch rows) : (resolveForcedStats rows : ResolvedFlushSelection C L) = .new
      { rowCount := min forceFlushPassRowCap rows.length
        minSeq := (mirrorSeqStats rows).minSeq
        maxSeq := oldestMaxSeq rows } := by
  have hbt : ¬(0 < (mirrorSeqStats (tombstones rows)).rowCount ∧
      (mirrorSeqStats (tombstones rows)).rowCount ≤ forceTombstoneOnlyCap) := h
  have ha : (resolveForceFlushSelection (mirrorSeqStats rows)
      (mirrorSeqStats (tombstones rows)) : ResolvedFlushSelection C L) =
        .new (mirrorSeqStats rows) := by
    rw [resolveForceFlushSelection, if_neg hbt, ite_self]
  rw [resolveForcedStats, ha]
  by_cases hc : forceFlushPassRowCap < rows.length
  · obtain ⟨hi, hu⟩ := mirrorOldestRowsCutoff_of_lt hc
    have hs := hp _ ((Keyset.perm_ordered _ rows).mem_iff.1 (getElem_mem hi))
    have hz : ¬(forceFlushPassRowCap = 0 ∨
        ((Keyset.ordered MirrorRow.seq rows)[forceFlushPassRowCap - 1]).seq = 0) :=
      not_or.2 ⟨by decide, hs.ne'⟩
    rw [if_pos ⟨rfl, hc⟩, oldestMaxSeq, if_pos hc, applyForceFlushPassCap,
      if_neg (by rintro (h | h); exacts [Bool.noConfusion h, absurd h (not_le.2 hc)]), hu]
    show (if _ then _ else _) = _
    rw [if_neg hz]
    rfl
  · rw [if_neg (by rintro ⟨-, h⟩; exact hc h), oldestMaxSeq, if_neg hc, min_eq_right (not_lt.1 hc)]
    rfl

end SelectionLemmas

section PassLemmas

variable {K O C L V : Type*} {compare : C → V → L → Ordering} {heap : Heap K C V}

def SelectionTight (compare : C → V → L → Ordering) (sel : ResolvedFlushSelection C L)
    (rows : List (MirrorRow K O)) (heap : Heap K C V) : Prop :=
  (flushRows compare sel rows heap).countP (fun r ↦ decide (r.seq < sel.stats.maxSeq)) <
    sel.stats.rowCount

variable {rows : List (MirrorRow K O)} {sel : ResolvedFlushSelection C L}

theorem countP_lt_pruneMaxSeq (h : rows ≠ []) :
    rows.countP (fun r ↦ decide (r.seq < pruneMaxSeq rows)) < rows.length := by
  obtain ⟨r, hr, hs⟩ := exists_seq_eq_pruneMaxSeq h
  refine lt_of_le_of_ne countP_le_length fun heq ↦ ?_
  have hlt := countP_eq_length.1 heq r hr
  simp [hs] at hlt

theorem flushRows_tombstoneSelection (rows : List (MirrorRow K O)) :
    flushRows compare (tombstoneSelection rows) rows heap = tombstones rows := by
  show rows.filter _ = rows.filter _
  refine filter_congr fun r hr ↦ ?_
  simp only [flushSelects, tombstoneSelection, mirrorOpsWhereClause, Bool.and_true]
  by_cases hop : r.op = .delete
  · have hle : r.seq ≤ (mirrorSeqStats (tombstones rows)).maxSeq :=
      seq_le_pruneMaxSeq (mem_tombstones.2 ⟨hr, hop⟩)
    simp [hop, hle]
  · simp [hop]

theorem selectionTight_tombstones (h : TombstoneBatch rows) :
    SelectionTight compare (resolveForcedStats rows) rows heap := by
  rw [resolveForcedStats_of_tombstoneBatch h, SelectionTight, flushRows_tombstoneSelection]
  exact countP_lt_pruneMaxSeq (ne_nil_of_length_pos h.1)

theorem selectionTight_oldest (hp : ∀ r ∈ rows, 0 < r.seq) (hne : rows ≠ [])
    (h : ¬TombstoneBatch rows) : SelectionTight compare (resolveForcedStats rows) rows heap := by
  rw [resolveForcedStats_of_not_tombstoneBatch hp h, SelectionTight]
  refine lt_of_le_of_lt (filter_sublist.countP_le) ?_
  show rows.countP (fun r ↦ decide (r.seq < oldestMaxSeq rows)) <
    min forceFlushPassRowCap rows.length
  rw [oldestMaxSeq]
  split_ifs with hc
  · obtain ⟨hi, hu⟩ := mirrorOldestRowsCutoff_of_lt hc
    rw [hu, min_eq_left hc.le]
    exact (Keyset.countP_lt_getElem_le hi).trans_lt (by decide)
  · rw [min_eq_right (not_lt.1 hc)]
    exact countP_lt_pruneMaxSeq hne

variable [LinearOrder K] [LinearOrder O] {cfg : TableConfig O C V} {cut : SegmentCut K O}

theorem pruneMaxSeq_streamed {mirror : MirrorTable K O}
    (hti : SelectionTight compare sel mirror.rows heap)
    (hl : (streamed compare cfg sel mirror.rows heap).length = sel.stats.rowCount) :
    pruneMaxSeq (streamed compare cfg sel mirror.rows heap) = sel.stats.maxSeq := by
  have hs : (streamed compare cfg sel mirror.rows heap).Subperm
      (flushRows compare sel mirror.rows heap) :=
    streamRows_subperm (flushMirrorFetchLimit_pos _) sel mirror heap
  apply le_antisymm
  · refine pruneMaxSeq_le_iff.2 fun r hr ↦ ?_
    exact seq_le_of_flushSelects (mem_flushRows.1 (hs.subset hr)).2
  · by_contra hlt
    -- then every fetched row lies strictly below the bound, and there are too many of them
    have ha : ∀ r ∈ streamed compare cfg sel mirror.rows heap, r.seq < sel.stats.maxSeq :=
      fun r hr ↦ (seq_le_pruneMaxSeq hr).trans_lt (not_le.1 hlt)
    have hc : (streamed compare cfg sel mirror.rows heap).countP
        (fun r ↦ decide (r.seq < sel.stats.maxSeq)) =
          (streamed compare cfg sel mirror.rows heap).length :=
      countP_eq_length.2 fun r hr ↦ decide_eq_true (ha r hr)
    have hle := hs.countP_le fun r ↦ decide (r.seq < sel.stats.maxSeq)
    rw [SelectionTight] at hti
    omega

omit [LinearOrder K] [LinearOrder O] in
theorem SegmentCut.lastMaxSeq_le (rows : List (MirrorRow K O)) :
    cut.lastMaxSeq rows ≤ pruneMaxSeq rows := by
  rw [SegmentCut.lastMaxSeq]
  cases hl : (cut.segments rows).getLast? with
  | none => exact Nat.zero_le _
  | some segment =>
    refine pruneMaxSeq_le_iff.2 fun r hr ↦ seq_le_pruneMaxSeq ?_
    exact (cut.perm rows).mem_iff.1
      (mem_flatten_of_mem (mem_of_getLast? hl) hr)

omit [LinearOrder K] [LinearOrder O] in
theorem SegmentCut.lastMaxSeq_pos (hne : rows ≠ []) (hpos : ∀ r ∈ rows, 0 < r.seq) :
    0 < cut.lastMaxSeq rows := by
  rw [SegmentCut.lastMaxSeq]
  cases hl : (cut.segments rows).getLast? with
  | none =>
    have hn : rows = [] := by
      have hp := cut.perm rows
      rw [getLast?_eq_none_iff.1 hl] at hp
      exact nil_perm.1 hp
    exact absurd hn hne
  | some segment =>
    have hmem := mem_of_getLast? hl
    obtain ⟨r, hr⟩ := exists_mem_of_ne_nil segment (cut.ne_nil rows segment hmem)
    have hrow : r ∈ rows := (cut.perm rows).mem_iff.1 (mem_flatten_of_mem hmem hr)
    exact (hpos r hrow).trans_le (seq_le_pruneMaxSeq hr)

theorem streamed_congr (h : sel.rowFilter = none)
    (rows : List (MirrorRow K O)) (heap heap' : Heap K C V) :
    streamed compare cfg sel rows heap = streamed compare cfg sel rows heap' := by
  have hrs : flushRows compare sel rows heap = flushRows compare sel rows heap' := by
    show rows.filter _ = rows.filter _
    refine filter_congr fun r _ ↦ ?_
    simp only [flushSelects, h]
  rw [streamed, streamed, streamRows, streamRows, hrs]

variable {σ σ' : PassState K O C V} {flushed : ℕ}

theorem forcedPass_spec (hi : sel.rowFilter = none)
    (hti : SelectionTight compare sel σ.mirror.rows σ.heap)
    (h : forcedPass compare cfg cut sel σ = .ok (flushed, σ')) :
    flushed = cut.lastMaxSeq (streamed compare cfg sel σ.mirror.rows σ.heap) ∧
      0 < flushed ∧ flushed ≤ sel.stats.maxSeq ∧
      σ'.mirror.rows = σ.mirror.rows.filter fun r ↦
        !(decide (r.seq ≤ sel.stats.maxSeq) && mirrorOpsWhereClause sel.mirrorOps r.op) := by
  obtain ⟨_, hv, ⟨⟩⟩ := map_eq_ok_iff.mp h
  have hl : (streamed compare cfg sel σ.mirror.rows σ.heap).length = sel.stats.rowCount := by
    by_contra hne
    simp [validateFlushRowSelection, hne] at hv
  have hm := pruneMaxSeq_streamed hti hl
  have hs : (streamed compare cfg sel σ.mirror.rows σ.heap).Subperm
      (flushRows compare sel σ.mirror.rows σ.heap) :=
    streamRows_subperm (flushMirrorFetchLimit_pos _) sel σ.mirror σ.heap
  have hne : streamed compare cfg sel σ.mirror.rows σ.heap ≠ [] := by
    intro hn
    rw [hn, length_nil] at hl
    rw [SelectionTight, ← hl] at hti
    exact Nat.not_lt_zero _ hti
  have hp : 0 < cut.lastMaxSeq (streamed compare cfg sel σ.mirror.rows σ.heap) :=
    cut.lastMaxSeq_pos hne fun r hr ↦ σ.mirror.seq_pos r (mem_flushRows.1 (hs.subset hr)).1
  have hle := cut.lastMaxSeq_le (streamed compare cfg sel σ.mirror.rows σ.heap)
  refine ⟨rfl, hp, hm ▸ hle, ?_⟩
  rw [if_pos (hp.trans_le hle)]
  have hf : fetchedMaxSeq (withImages sel σ.heap
      (streamed compare cfg sel σ.mirror.rows σ.heap)) = sel.stats.maxSeq := by
    rw [fetchedMaxSeq, withImages, map_map, ← hm]
    exact congrArg pruneMaxSeq (map_id _)
  show σ.mirror.rows.filter _ = _
  refine filter_congr fun r _ ↦ ?_
  simp only [cleanupRemoves, hf, hi, Bool.and_true]

theorem forcedPass_tombstones (hbt : TombstoneBatch σ.mirror.rows)
    (h : forcedPass compare cfg cut (resolveForcedStats σ.mirror.rows) σ = .ok (flushed, σ')) :
    flushed = lastTombstoneSeq compare cfg cut σ.mirror.rows ∧ 0 < flushed ∧
      σ'.mirror.rows = σ.mirror.rows.filter fun r ↦ !decide (r.op = .delete) := by
  have hti : SelectionTight compare (resolveForcedStats σ.mirror.rows) σ.mirror.rows σ.heap :=
    selectionTight_tombstones hbt
  rw [resolveForcedStats_of_tombstoneBatch hbt] at h hti
  obtain ⟨hf, hp, -, hrs⟩ := forcedPass_spec rfl hti h
  refine ⟨?_, hp, ?_⟩
  · rw [hf, lastTombstoneSeq]
    exact congrArg _ (streamed_congr rfl _ _ _)
  · rw [hrs]
    refine filter_congr fun r hr ↦ ?_
    by_cases hop : r.op = .delete
    · have hle : r.seq ≤ (mirrorSeqStats (tombstones σ.mirror.rows)).maxSeq :=
        seq_le_pruneMaxSeq (mem_tombstones.2 ⟨hr, hop⟩)
      simp [tombstoneSelection, mirrorOpsWhereClause, hop, hle]
    · simp [tombstoneSelection, mirrorOpsWhereClause, hop]

theorem forcedPass_oldest (hne : σ.mirror.rows ≠ []) (hbt : ¬TombstoneBatch σ.mirror.rows)
    (h : forcedPass compare cfg cut (resolveForcedStats σ.mirror.rows) σ = .ok (flushed, σ')) :
    0 < flushed ∧ flushed ≤ oldestMaxSeq σ.mirror.rows ∧
      σ'.mirror.rows = afterOldest σ.mirror.rows := by
  have hti : SelectionTight compare (resolveForcedStats σ.mirror.rows) σ.mirror.rows σ.heap :=
    selectionTight_oldest σ.mirror.seq_pos hne hbt
  rw [resolveForcedStats_of_not_tombstoneBatch σ.mirror.seq_pos hbt] at h hti
  obtain ⟨-, hp, hle, hrs⟩ := forcedPass_spec rfl hti h
  refine ⟨hp, hle, ?_⟩
  rw [hrs, afterOldest]
  refine filter_congr fun r _ ↦ ?_
  show (!(decide (r.seq ≤ oldestMaxSeq σ.mirror.rows) && true)) = _
  rw [Bool.and_true, ← decide_not]
  exact decide_eq_decide.2 not_le

end PassLemmas

section Drains

variable {K O C L V : Type*}

theorem afterOldest_subset (rows : List (MirrorRow K O)) (n : ℕ) : afterOldest^[n] rows ⊆ rows := by
  induction n generalizing rows with
  | zero => exact List.Subset.refl _
  | succ n ih =>
    rw [Function.iterate_succ_apply]
    exact List.Subset.trans (ih _) filter_sublist.subset

theorem TombstoneBatch.exists_mem {rows : List (MirrorRow K O)} (h : TombstoneBatch rows) :
    ∃ r ∈ rows, r.op = .delete := by
  obtain ⟨r, hr⟩ := exists_mem_of_length_pos h.1
  exact ⟨r, mem_tombstones.1 hr⟩

variable [LinearOrder K] [LinearOrder O] {compare : C → V → L → Ordering}
  {cfg : TableConfig O C V} {cut : SegmentCut K O} {watermark : ℕ} {rows : List (MirrorRow K O)}

theorem drains_of_tombstoneBatch (h : TombstoneBatch rows) :
    Drains compare cfg cut watermark rows ↔ ¬EndsEarly compare cfg cut watermark rows := by
  constructor
  · intro hd
    exact hd 0 fun i hi ↦ absurd hi (Nat.not_lt_zero i)
  · intro hn n hf
    cases n with
    | zero => exact hn
    | succ n => exact absurd h (hf 0 n.succ_pos)

theorem drains_of_not_tombstoneBatch (h : ¬TombstoneBatch rows) :
    Drains compare cfg cut watermark rows ↔
      Drains compare cfg cut watermark (afterOldest rows) := by
  constructor
  · intro hd n hf
    refine hd (n + 1) fun i hi ↦ ?_
    cases i with
    | zero => exact h
    | succ i => exact hf i (Nat.lt_of_succ_lt_succ hi)
  · intro hd n hf
    cases n with
    | zero => exact fun he ↦ h he.1
    | succ n => exact hd n fun i hi ↦ hf (i + 1) (Nat.succ_lt_succ hi)

theorem drains_of_forall_lt (h : ∀ r ∈ rows, watermark < r.seq) :
    Drains compare cfg cut watermark rows := by
  rintro n - ⟨-, ⟨r, hr, -, hle⟩, -⟩
  exact absurd (h r (afterOldest_subset rows n hr)) (not_lt.2 hle)

theorem drains_of_live (h : ∀ r ∈ rows, r.op ≠ .delete) :
    Drains compare cfg cut watermark rows := by
  rintro n - ⟨hbt, -⟩
  obtain ⟨r, hr, hop⟩ := hbt.exists_mem
  exact h r (afterOldest_subset rows n hr) hop

/-! ### The loop -/

theorem shouldStartCatchupPass_iff {rowCount minSeq : ℕ} :
    shouldStartCatchupPass (some watermark) rowCount minSeq = true ↔
      0 < rowCount ∧ minSeq ≤ watermark := by
  simp [shouldStartCatchupPass]

variable {lastMaxSeq : Option ℕ} {σ σ' : PassState K O C V}

theorem catchupLoop_cases {budget left : ℕ}
    (h : catchupLoop compare cfg cut (some watermark) (budget + 1) lastMaxSeq σ = .ok (σ', left))
    (hl : 0 < left) {sel : ResolvedFlushSelection C L}
    (hs : resolveForcedStats σ.mirror.rows = sel) :
    (¬(0 < sel.stats.rowCount ∧ sel.stats.minSeq ≤ watermark) ∧ σ' = σ) ∨
      (0 < sel.stats.rowCount ∧ sel.stats.minSeq ≤ watermark) ∧
        ∃ flushed τ, forcedPass compare cfg cut sel σ = .ok (flushed, τ) ∧
          (0 < flushed → (watermark ≤ flushed ∧ σ' = τ) ∨ flushed < watermark ∧
            catchupLoop compare cfg cut (some watermark) budget (some flushed) τ =
              .ok (σ', left)) := by
  rw [catchupLoop] at h
  simp only [hs] at h
  split_ifs at h with hst
  · obtain ⟨⟨flushed, τ⟩, hpa, hre⟩ := bind_eq_ok_iff.mp h
    refine .inr ⟨shouldStartCatchupPass_iff.1 hst, flushed, τ, hpa, fun hp ↦ ?_⟩
    simp only [if_pos hp, Option.getD_some] at hre
    split_ifs at hre with hm
    · exact .inr ⟨by simpa [shouldContinueFlushCatchup] using hm.2, hre⟩
    · cases hre
      rw [not_and] at hm
      exact .inl ⟨by simpa [shouldContinueFlushCatchup] using hm hl.ne', rfl⟩
  · cases h
    exact .inl ⟨fun hst' ↦ hst (shouldStartCatchupPass_iff.2 hst'), rfl⟩

omit [LinearOrder K] [LinearOrder O] in
theorem forall_live_lt_iff : (∀ r ∈ rows.filter fun r ↦ !decide (r.op = .delete),
    watermark < r.seq) ↔ ¬∃ r ∈ rows, r.op ≠ .delete ∧ r.seq ≤ watermark := by
  simp only [mem_filter, Bool.not_eq_true', decide_eq_false_iff_not]
  constructor
  · rintro ha ⟨r, hr, hop, hle⟩
    exact absurd (ha r ⟨hr, hop⟩) (not_lt.2 hle)
  · rintro hnone r ⟨hr, hop⟩
    by_contra hle
    exact hnone ⟨r, hr, hop, not_lt.1 hle⟩

theorem catchupLoop_drains_iff {budget left : ℕ}
    (h : catchupLoop compare cfg cut (some watermark) budget lastMaxSeq σ = .ok (σ', left))
    (hl : 0 < left) : (∀ r ∈ σ'.mirror.rows, watermark < r.seq) ↔
      Drains compare cfg cut watermark σ.mirror.rows := by
  induction budget generalizing lastMaxSeq σ with
  | zero =>
    cases h
    exact absurd hl (lt_irrefl 0)
  | succ budget ih =>
    by_cases hbt : TombstoneBatch σ.mirror.rows
    · have hne : tombstones σ.mirror.rows ≠ [] := ne_nil_of_length_pos hbt.1
      rw [drains_of_tombstoneBatch hbt]
      rcases catchupLoop_cases h hl (resolveForcedStats_of_tombstoneBatch hbt) with
        ⟨hsp, rfl⟩ | ⟨⟨-, hm⟩, flushed, τ, hpa, hre⟩
      · -- all tombstones are too young for a pass, so the live rows decide
        have hyg : ∀ r ∈ tombstones σ'.mirror.rows, watermark < r.seq := by
          intro r hr
          by_contra hle
          exact hsp ⟨hbt.1, (minSeq_le_iff hne).2 ⟨r, hr, not_lt.1 hle⟩⟩
        constructor
        · rintro ha ⟨-, ⟨r, hr, -, hle⟩, -⟩
          exact absurd (ha r hr) (not_lt.2 hle)
        · intro he r hr
          by_cases hop : r.op = .delete
          · exact hyg r (mem_tombstones.2 ⟨hr, hop⟩)
          · by_contra hle
            exact he ⟨hbt, ⟨r, hr, hop, not_lt.1 hle⟩, .inl hyg⟩
      · rw [← resolveForcedStats_of_tombstoneBatch hbt] at hpa
        obtain ⟨rfl, hp, hrs⟩ := forcedPass_tombstones hbt hpa
        rcases hre hp with ⟨hrch, rfl⟩ | ⟨hsh, ho⟩
        · -- the tombstones reached the watermark: the job ends over the live rows
          rw [hrs, forall_live_lt_iff]
          exact not_congr ⟨fun hlv ↦ ⟨hbt, hlv, .inr hrch⟩, fun he ↦ he.2.1⟩
        · have hlv : ∀ r ∈ τ.mirror.rows, r.op ≠ .delete := by
            intro r hr
            rw [hrs] at hr
            simpa using (mem_filter.1 hr).2
          refine iff_of_true ((ih ho).2 (drains_of_live hlv)) ?_
          rintro ⟨-, -, hyg | hrch⟩
          · obtain ⟨r, hr, hle⟩ := (minSeq_le_iff hne).1 hm
            exact absurd (hyg r hr) (not_lt.2 hle)
          · exact absurd hrch (not_le.2 hsh)
    · rcases catchupLoop_cases h hl
          (resolveForcedStats_of_not_tombstoneBatch σ.mirror.seq_pos hbt) with
        ⟨hsp, rfl⟩ | ⟨⟨hc, -⟩, flushed, τ, hpa, hre⟩
      · have hyg : ∀ r ∈ σ'.mirror.rows, watermark < r.seq := by
          intro r hr
          by_contra hle
          refine hsp ⟨lt_min (by decide) (length_pos_of_mem hr), ?_⟩
          exact (minSeq_le_iff (ne_nil_of_mem hr)).2 ⟨r, hr, not_lt.1 hle⟩
        exact iff_of_true hyg (drains_of_forall_lt hyg)
      · rw [← resolveForcedStats_of_not_tombstoneBatch σ.mirror.seq_pos hbt] at hpa
        have hne : σ.mirror.rows ≠ [] :=
          ne_nil_of_length_pos (hc.trans_le (Nat.min_le_right _ _))
        obtain ⟨hp, hle, hrs⟩ := forcedPass_oldest hne hbt hpa
        rw [drains_of_not_tombstoneBatch hbt, ← hrs]
        rcases hre hp with ⟨hrch, rfl⟩ | ⟨-, ho⟩
        · have hyg : ∀ r ∈ σ'.mirror.rows, watermark < r.seq := by
            intro r hr
            rw [hrs] at hr
            have hlt : oldestMaxSeq σ.mirror.rows < r.seq := by simpa using (mem_filter.1 hr).2
            omega
          exact iff_of_true hyg (drains_of_forall_lt hyg)
        · exact ih ho

/-- **A forced job that completes below the pass cap leaves no row up to its watermark exactly when
no tombstone-only pass ends it early.** -/
theorem forcedFlush_drains_iff (compare : C → V → L → Ordering) (cfg : TableConfig O C V)
    (cut : SegmentCut K O) (targetSeq : Option ℕ) (σ σ' : PassState K O C V) (passes watermark : ℕ)
    (hjob : flushPreparedTable compare cfg cut targetSeq σ = .ok (σ', passes))
    (hpasses : passes < maxCatchupPassesPerJob)
    (hmark : startWatermark targetSeq σ.mirror.rows = some watermark) :
    (∀ r ∈ σ'.mirror.rows, watermark < r.seq) ↔
      Drains compare cfg cut watermark σ.mirror.rows := by
  obtain ⟨⟨τ, left⟩, hl, ⟨⟩⟩ := map_eq_ok_iff.mp hjob
  rw [hmark] at hl
  exact catchupLoop_drains_iff hl (by omega)

end Drains

namespace ForcedJobExample

def oneSegment : SegmentCut ℕ Unit where
  segments rows := if rows.isEmpty then [] else [rows]
  perm rows := by cases rows <;> simp
  ne_nil rows := by cases rows <;> simp

def cfg : TableConfig Unit Unit ℕ := ⟨false, fun _ ↦ (), 4⟩

/-- Key `1` is live and key `2` deleted, with the given sequence ids. -/
def table (live deleted : SeqId) : PassState ℕ Unit Unit ℕ where
  heap := fun k ↦ if k = 1 then some fun _ ↦ some 10 else none
  mirror :=
    { rows := [⟨1, (), live.1, .insert⟩, ⟨2, (), deleted.1, .delete⟩]
      pk_nodup := by simp
      seq_pos := by simpa using ⟨live.2, deleted.2⟩ }
  cold := []
  wal := []
  seqWatermark := 0
  phase := .done

theorem forcedFlush_drains_iff_oldTombstone :
    ∃ σ', flushPreparedTable (fun _ ↦ Ord.compare) cfg oneSegment none
        (table ⟨2, by decide⟩ ⟨1, by decide⟩) = .ok (σ', 2) ∧ σ'.mirror.rows = [] ∧
      Drains (fun _ : Unit ↦ (Ord.compare : ℕ → ℕ → Ordering)) cfg oneSegment 2
        (table ⟨2, by decide⟩ ⟨1, by decide⟩).mirror.rows :=
  ⟨_, rfl, rfl, (forcedFlush_drains_iff _ cfg oneSegment none _ _ 2 2 rfl (by decide) rfl).1
    (by decide)⟩

theorem tombstone_ends_job :
    ∃ σ', flushPreparedTable (fun _ : Unit ↦ (Ord.compare : ℕ → ℕ → Ordering)) cfg oneSegment none
        (table ⟨1, by decide⟩ ⟨2, by decide⟩) = .ok (σ', 1) ∧ 1 < maxCatchupPassesPerJob ∧
      startWatermark none (table ⟨1, by decide⟩ ⟨2, by decide⟩).mirror.rows = some 2 ∧
      ∃ r ∈ σ'.mirror.rows, r.seq ≤ 2 :=
  ⟨_, rfl, by decide, rfl, ⟨1, (), 1, .insert⟩, by decide, by decide⟩

end ForcedJobExample

end Koldstore
