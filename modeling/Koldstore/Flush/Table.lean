import Koldstore.Basic.Keyset
import Koldstore.Mirror.PgOutput

/-!
# A managed table and the queries a flush pass runs on it

A managed table has two hot parts.
-/

namespace Koldstore

open Keyset

/-! ### Mirror and heap -/

structure MirrorRow (K O : Type*) where
  pk : K
  orderKey : O
  seq : ℕ
  op : MirrorOperation
  deriving DecidableEq

structure MirrorTable (K O : Type*) where
  rows : List (MirrorRow K O)
  pk_nodup : (rows.map MirrorRow.pk).Nodup
  seq_pos : ∀ r ∈ rows, 0 < r.seq

abbrev HeapRow (C V : Type*) := C → Option V

abbrev Heap (K C V : Type*) := K → Option (HeapRow C V)

theorem MirrorTable.rows_nodup {K O : Type*} (mirror : MirrorTable K O) : mirror.rows.Nodup :=
  .of_map _ mirror.pk_nodup

/-! ### The move predicate -/

inductive PredicateOp
  | eq
  | ne
  | lt
  | le
  | gt
  | ge
  | isIn
  | isNull
  | isNotNull
  deriving DecidableEq, Repr

/-- One `column op literal(s)` term. -/
structure PredicateTerm (C L : Type*) where
  column : C
  op : PredicateOp
  values : List L
  deriving DecidableEq

structure MovePredicate (C L : Type*) where
  terms : List (PredicateTerm C L)
  deriving DecidableEq

section Predicate

variable {C L V : Type*} (compare : C → V → L → Ordering)

def PredicateTerm.compares (test : Ordering → Bool) (term : PredicateTerm C L)
    (row : HeapRow C V) : Bool :=
  (row term.column).any fun v ↦ term.values.head?.any fun l ↦ test (compare term.column v l)

def PredicateTerm.holds (term : PredicateTerm C L) (row : HeapRow C V) : Bool :=
  match term.op with
  | .eq => term.compares compare Ordering.isEq row
  | .ne => term.compares compare Ordering.isNe row
  | .lt => term.compares compare Ordering.isLT row
  | .le => term.compares compare Ordering.isLE row
  | .gt => term.compares compare Ordering.isGT row
  | .ge => term.compares compare Ordering.isGE row
  | .isIn => (row term.column).any fun v ↦ term.values.any fun l ↦ (compare term.column v l).isEq
  | .isNull => (row term.column).isNone
  | .isNotNull => (row term.column).isSome

def MovePredicate.holds (predicate : MovePredicate C L) (row : HeapRow C V) : Bool :=
  predicate.terms.all fun term ↦ term.holds compare row

end Predicate

/-! ### What a pass is told to move -/

structure FlushStats where
  rowCount : ℕ
  minSeq : ℕ
  maxSeq : ℕ
  deriving DecidableEq, Repr

def FlushStats.empty : FlushStats := ⟨0, 0, 0⟩

structure ResolvedFlushSelection (C L : Type*) where
  stats : FlushStats
  mirrorOps : Option (List MirrorOperation)
  rowFilter : Option (MovePredicate C L)

def ResolvedFlushSelection.new {C L : Type*} (stats : FlushStats) : ResolvedFlushSelection C L where
  stats := stats
  mirrorOps := none
  rowFilter := none

section Queries

variable {K O C L V : Type*} (compare : C → V → L → Ordering) (ops : Option (List MirrorOperation))

/-- `mirror_ops_where_clause`: no list and the empty list restrict nothing. -/
def mirrorOpsWhereClause (op : MirrorOperation) : Bool :=
  match ops with
  | none => true
  | some [] => true
  | some ops => ops.contains op

/-- The heap row a mirror row is joined with: all columns `NULL` when there is none. -/
def leftJoin (heap : Heap K C V) (pk : K) : HeapRow C V := (heap pk).getD fun _ ↦ none

def deleteOnly : Bool := decide (ops = some [.delete])

/-! ### The page reads -/

/-- `plan_mirror_flush_selection_inner`, without the page cursor. -/
def flushSelects (sel : ResolvedFlushSelection C L) (heap : Heap K C V) (r : MirrorRow K O) :
    Bool :=
  decide (r.seq ≤ sel.stats.maxSeq) && mirrorOpsWhereClause sel.mirrorOps r.op &&
    match sel.rowFilter with
    | none => true
    | some filter => deleteOnly sel.mirrorOps ||
        (decide (r.op = .delete) || filter.holds compare (leftJoin heap r.pk))

def flushRows (sel : ResolvedFlushSelection C L) (mirror : List (MirrorRow K O))
    (heap : Heap K C V) : List (MirrorRow K O) :=
  mirror.filter (flushSelects compare sel heap)

/-- The keyset of an ordered table: `(order_key, primary key, seq)`. -/
def MirrorRow.orderedKey (r : MirrorRow K O) : O ×ₗ K ×ₗ ℕ :=
  toLex (r.orderKey, toLex (r.pk, r.seq))

inductive MirrorFlushPageCursor (K O : Type*)
  | afterSeq (seq : ℕ)
  | afterOrderKey (after : Option (O ×ₗ K ×ₗ ℕ))

variable (sortByOrderKey : Bool)

def initialPageCursor : MirrorFlushPageCursor K O :=
  if sortByOrderKey then .afterOrderKey none else .afterSeq 0

/-- Cursor of the page that follows one ending at `last`. -/
def nextPageCursor (last : MirrorRow K O) : MirrorFlushPageCursor K O :=
  if sortByOrderKey then .afterOrderKey (some last.orderedKey) else .afterSeq last.seq

variable [LinearOrder K] [LinearOrder O]

def fetchMirrorBatch (limit : ℕ) (rows : List (MirrorRow K O)) :
    MirrorFlushPageCursor K O → List (MirrorRow K O)
  | .afterSeq seq => page MirrorRow.seq limit rows (some seq)
  | .afterOrderKey after => page MirrorRow.orderedKey limit rows after

/-- The page loop of `stream_flush_chunks`. -/
def streamPages (sortByOrderKey : Bool) (limit : ℕ) (rows : List (MirrorRow K O)) :
    ℕ → MirrorFlushPageCursor K O → List (MirrorRow K O)
  | 0, _ => []
  | fuel + 1, cursor =>
    let batch := fetchMirrorBatch limit rows cursor
    match batch.getLast? with
    | none => []
    | some last =>
      if batch.length < limit then batch
      else batch ++ streamPages sortByOrderKey limit rows fuel (nextPageCursor sortByOrderKey last)

def flushMirrorFetchBatchSize : ℕ := 4096

def flushMirrorFetchLimit (maxRowsPerFile : ℕ) : ℕ :=
  if maxRowsPerFile = 0 then flushMirrorFetchBatchSize
  else min (max 1 maxRowsPerFile) flushMirrorFetchBatchSize

def streamRows (limit : ℕ) (sel : ResolvedFlushSelection C L)
    (mirror : List (MirrorRow K O)) (heap : Heap K C V) : List (MirrorRow K O) :=
  let rows := flushRows compare sel mirror heap
  streamPages sortByOrderKey limit rows (rows.length + 1) (initialPageCursor sortByOrderKey)

def pruneMaxSeq (rows : List (MirrorRow K O)) : ℕ := rows.foldl (fun m r ↦ max m r.seq) 0

def validateFlushRowSelection (statsRowCount writeRowCount : ℕ) : Except String Unit :=
  if writeRowCount ≠ statsRowCount then
    .error <| s!"flush row selection mismatch: stats reported {statsRowCount} rows " ++
      s!"but writer built {writeRowCount} rows"
  else .ok ()

/-! ### The cleanup -/

/-- `plan_seq_range_cleanup`: the condition on the mirror rows a prune deletes. -/
def cleanupRemoves (maxSeq : ℕ) (ops : Option (List MirrorOperation))
    (rowFilter : Option (MovePredicate C L)) (heap : Heap K C V) (r : MirrorRow K O) : Bool :=
  decide (r.seq ≤ maxSeq) && mirrorOpsWhereClause ops r.op &&
    match rowFilter with
    | none => true
    | some filter => decide (r.op = .delete) || (heap r.pk).any fun row ↦ filter.holds compare row

def removedMirror (maxSeq : ℕ) (ops : Option (List MirrorOperation))
    (rowFilter : Option (MovePredicate C L)) (mirror : List (MirrorRow K O)) (heap : Heap K C V) :
    List (MirrorRow K O) :=
  mirror.filter (cleanupRemoves compare maxSeq ops rowFilter heap)

end Queries

section QueryLemmas

variable {K O C L V : Type*} {compare : C → V → L → Ordering}

theorem flushMirrorFetchLimit_pos (maxRowsPerFile : ℕ) :
    0 < flushMirrorFetchLimit maxRowsPerFile := by
  rw [flushMirrorFetchLimit, flushMirrorFetchBatchSize]
  split <;> omega

variable {r : MirrorRow K O}

theorem mem_flushRows {sel : ResolvedFlushSelection C L} {mirror : List (MirrorRow K O)}
    {heap : Heap K C V} :
    r ∈ flushRows compare sel mirror heap ↔ r ∈ mirror ∧ flushSelects compare sel heap r = true :=
  List.mem_filter

variable (mirror : MirrorTable K O) (sel : ResolvedFlushSelection C L)

theorem flushRows_nodup (heap : Heap K C V) : (flushRows compare sel mirror.rows heap).Nodup :=
  mirror.rows_nodup.filter _

theorem pruneMaxSeq_le_iff {rows : List (MirrorRow K O)} {m : ℕ} :
    pruneMaxSeq rows ≤ m ↔ ∀ r ∈ rows, r.seq ≤ m := by
  have hfo : ∀ (rows : List (MirrorRow K O)) (start : ℕ),
      rows.foldl (fun m r ↦ max m r.seq) start ≤ m ↔ start ≤ m ∧ ∀ r ∈ rows, r.seq ≤ m := by
    intro rows
    induction rows with
    | nil => simp
    | cons r rows ih => simp [ih, and_assoc]
  simpa [pruneMaxSeq] using hfo rows 0

theorem seq_le_pruneMaxSeq {rows : List (MirrorRow K O)} (h : r ∈ rows) :
    r.seq ≤ pruneMaxSeq rows :=
  pruneMaxSeq_le_iff.1 le_rfl r h

theorem orderedKey_nodup (heap : Heap K C V) :
    ((flushRows compare sel mirror.rows heap).map MirrorRow.orderedKey).Nodup := by
  have hpk : ((flushRows compare sel mirror.rows heap).map MirrorRow.pk).Nodup :=
    mirror.pk_nodup.sublist (List.filter_sublist.map _)
  refine List.Nodup.of_map (fun k : O ×ₗ K ×ₗ ℕ ↦ (ofLex (ofLex k).2).1) ?_
  simpa [MirrorRow.orderedKey, Function.comp_def] using hpk

variable [LinearOrder K] [LinearOrder O] (limit : ℕ) (rows : List (MirrorRow K O))

theorem streamPages_afterSeq (fuel seq : ℕ) : streamPages false limit rows fuel (.afterSeq seq) =
      readPages MirrorRow.seq limit rows fuel (some seq) := by
  induction fuel generalizing seq with
  | zero => rfl
  | succ fuel ih =>
    simp only [streamPages, readPages, fetchMirrorBatch, nextPageCursor, Bool.false_eq_true,
      if_false, ih]
    cases (page MirrorRow.seq limit rows (some seq)).getLast? <;> rfl

theorem streamPages_afterOrderKey (fuel : ℕ) (after : Option (O ×ₗ K ×ₗ ℕ)) :
    streamPages true limit rows fuel (.afterOrderKey after) =
      readPages MirrorRow.orderedKey limit rows fuel after := by
  induction fuel generalizing after with
  | zero => rfl
  | succ fuel ih =>
    simp only [streamPages, readPages, fetchMirrorBatch, nextPageCursor, if_true, ih]
    cases (page MirrorRow.orderedKey limit rows after).getLast? <;> rfl

theorem streamRows_true (heap : Heap K C V) : streamRows compare true limit sel rows heap =
      readPages MirrorRow.orderedKey limit (flushRows compare sel rows heap)
        ((flushRows compare sel rows heap).length + 1) none :=
  streamPages_afterOrderKey _ _ _ _

theorem streamRows_false (heap : Heap K C V) : streamRows compare false limit sel rows heap =
      readPages MirrorRow.seq limit (flushRows compare sel rows heap)
        ((flushRows compare sel rows heap).length + 1) (some 0) :=
  streamPages_afterSeq _ _ _ _

omit [LinearOrder K] [LinearOrder O] in
theorem after_zero_flushRows (heap : Heap K C V) :
    after MirrorRow.seq (flushRows compare sel mirror.rows heap) (some 0) =
      ordered MirrorRow.seq (flushRows compare sel mirror.rows heap) :=
  after_some_of_lt fun r hr ↦ mirror.seq_pos r (mem_flushRows.1 hr).1

variable {sortByOrderKey : Bool}

theorem streamRows_subperm {limit : ℕ} (hl : 0 < limit)
    (sel : ResolvedFlushSelection C L) (mirror : MirrorTable K O) (heap : Heap K C V) :
    (streamRows compare sortByOrderKey limit sel mirror.rows heap).Subperm
      (flushRows compare sel mirror.rows heap) := by
  cases sortByOrderKey with
  | true =>
    rw [streamRows_true]
    exact readPages_subperm hl (after_none _) (Nat.lt_succ_self _)
  | false =>
    rw [streamRows_false]
    exact readPages_subperm hl (after_zero_flushRows mirror sel heap)
      (Nat.lt_succ_self _)

theorem streamRows_perm_iff {limit : ℕ} (hl : 0 < limit)
    (sel : ResolvedFlushSelection C L) (mirror : MirrorTable K O) (heap : Heap K C V) :
    (streamRows compare sortByOrderKey limit sel mirror.rows heap).Perm
        (flushRows compare sel mirror.rows heap) ↔
      (sortByOrderKey = false → Keyset.NoSplitTies MirrorRow.seq limit
        (ordered MirrorRow.seq (flushRows compare sel mirror.rows heap))) := by
  cases sortByOrderKey with
  | true =>
    -- the primary key is part of the keyset, so no two rows tie
    rw [streamRows_true, readPages_perm_iff hl (after_none _) (Nat.lt_succ_self _)]
    exact iff_of_true (noSplitTies_of_nodup limit (orderedKey_nodup mirror sel heap))
      (fun h ↦ absurd h (by decide))
  | false =>
    rw [streamRows_false, readPages_perm_iff hl (after_zero_flushRows mirror sel heap)
      (Nat.lt_succ_self _)]
    exact ⟨fun h _ ↦ h, fun h ↦ h rfl⟩

end QueryLemmas

end Koldstore
