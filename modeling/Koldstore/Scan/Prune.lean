import Koldstore.Compaction.Plan
import Koldstore.Merge.Groups
import Koldstore.Parquet.Footer
import Koldstore.Scan.CandidateCache

/-!
# Which cold row groups a scan reads

`planColdSegments` applies three filters to segments and row groups.
-/

namespace Koldstore

open MergeGroups (MergeRow)

/-! ### The table -/

abbrev Cells (B : Type*) := ℤ → Option B

structure PruneTable (K V T B S : Type*) [LinearOrder B] extends IndexCatalog V T B S where
  scopeColumn : Option ℤ
  orderColumn : Option ℤ
  indexedColumns : List ℤ
  scopeId : ColdSegment → Option String
  keyTuple : ColdSegment → Option (B × B)
  concat : List B → B
  frame : List B → B
  scopeText : V → Option String
  cellText : B → String
  keyCells : K → List B
  rowGroups : ColdSegment → List (List (MergeRow K (Cells B)))
  paths_nodup : (segments.map ColdSegment.path).Nodup
  row_counts : ∀ s ∈ segments, s.rowGroupRowCounts = (rowGroups s).map fun g ↦ (g.length : ℤ)
  key_cells : ∀ s ∈ segments, ∀ g ∈ rowGroups s, ∀ r ∈ g,
    primaryKey.map r.image = (keyCells r.pk).map some
  version_unique : ∀ s ∈ segments, ∀ g ∈ rowGroups s, ∀ r ∈ g, ∀ s' ∈ segments, ∀ g' ∈ rowGroups s',
    ∀ r' ∈ g', r.pk = r'.pk → r.seq = r'.seq → r = r'
  describes : ∀ s ∈ segments, ∀ x ∈ indexRows, x.segmentId = s.segmentId →
    DescribesColumn ((rowGroups s).map fun g ↦ g.map fun r ↦ r.image x.columnId) x.minValue
      x.maxValue x.rowGroupMinValues x.rowGroupMaxValues x.rowGroupNullCounts
  concat_singleton : ∀ b, concat [b] = b
  summary : ∀ s ∈ segments, ∀ x ∈ indexRows, x.segmentId = s.segmentId →
    primaryKey.head? = some x.columnId → ∀ summary, x.valueSummary = some summary →
      ∀ g ∈ rowGroups s, ∀ r ∈ g, ∀ hash, codec.summaryHash (concat (keyCells r.pk)) = some hash →
        codec.summaryMayContain summary hash = true
  key_tuple : ∀ s ∈ segments, ∀ p, keyTuple s = some p → ∀ g ∈ rowGroups s, ∀ r ∈ g,
    p.1 ≤ frame (keyCells r.pk) ∧ frame (keyCells r.pk) ≤ p.2
  cell_text : ∀ c column ty, scopeColumn = some c →
    (columns.find? fun column ↦ decide (column.columnId = c)) = some column →
    codec.fromTypeOidForBounds column.typeOid = some ty →
      ∀ v b text, codec.sortKeyType v = ty → codec.encodeSortKey v = .ok b →
        scopeText v = some text → cellText b = text
  scope_id : ∀ s ∈ segments, ∀ scope, scopeId s = some scope → ∀ c, scopeColumn = some c →
    ∀ g ∈ rowGroups s, ∀ r ∈ g, ∀ b, r.image c = some b → cellText b = scope

/-- A bound a query puts on a column, with a list's values. -/
structure PrunePredicate (V : Type*) extends SegmentPrunePredicate V where
  anyOf : List V

namespace PrunePredicate

variable {V : Type*}

def equality (columnId : ℤ) (column : String) (value : V) : PrunePredicate V :=
  { columnId, column, min := some value, max := some value, anyOf := [] }

def isEquality [DecidableEq V] (p : PrunePredicate V) : Bool :=
  p.min.isSome && decide (p.min = p.max)

end PrunePredicate

structure ColdPruneColumnPolicy where
  isPrimaryKey : Bool
  isScope : Bool
  isOrderColumn : Bool
  sortKeyIndexable : Bool
  deriving DecidableEq, Repr

def ColdPruneColumnPolicy.allowsPredicate (policy : ColdPruneColumnPolicy) : Bool :=
  (policy.isPrimaryKey || policy.isScope || policy.isOrderColumn) && policy.sortKeyIndexable

inductive CandidatePlan (V : Type*)
  | allActive
  | one (lookup : CandidateLookup V)
  | union (lookups : List (CandidateLookup V))

/-! ### Uniting answers -/

def unionRowGroups : Option (List ℕ) → Option (List ℕ) → Option (List ℕ)
  | some left, some right => some ((left ++ right).insertionSort (· ≤ ·)).dedup
  | _, _ => none

def mergeHint (candidate : SegmentStatsHint) : List SegmentStatsHint → List SegmentStatsHint
  | [] => [candidate]
  | existing :: rest =>
    if candidate.segment.path < existing.segment.path then candidate :: existing :: rest
    else if candidate.segment.path = existing.segment.path then
      { existing with selectedRowGroups :=
          unionRowGroups existing.selectedRowGroups candidate.selectedRowGroups } :: rest
    else existing :: mergeHint candidate rest

def mergeHints (merged candidates : List SegmentStatsHint) : List SegmentStatsHint :=
  candidates.foldl (fun merged candidate ↦ mergeHint candidate merged) merged

def unionLookups {V : Type*}
    (answer : CandidateLookup V → Except String SegmentIndexCandidateLoad) :
    List (CandidateLookup V) → Option (List SegmentStatsHint) →
      Except String (Option (List SegmentStatsHint))
  | [], union => .ok union
  | lookup :: lookups, union =>
    (answer lookup).bind fun load ↦ unionLookups answer lookups
        (union.bind fun merged ↦ load.candidates.map fun candidates ↦ mergeHints merged candidates)

/-! ### Scopes -/

section Scopes

variable {V : Type*} [DecidableEq V] (scopeText : V → Option String)

def PrunePredicate.scopeSet (p : PrunePredicate V) : Option (List String) :=
  if p.anyOf ≠ [] then p.anyOf.mapM scopeText
  else if p.isEquality then p.min.toList.mapM scopeText
  else none

/-- The scopes a scan is restricted to, or `none` if it is not. -/
def scopeFilterValues (predicates : List (PrunePredicate V)) (scopeColumn : ℤ)
    (session : Option String) : Option (List String) :=
  match (predicates.filter fun p ↦ decide (p.columnId = scopeColumn)).filterMap
      (PrunePredicate.scopeSet scopeText) ++ (session.map fun scope ↦ [scope]).toList with
  | [] => none
  | first :: rest =>
    some ((rest.foldl (fun result set ↦ result.filter fun scope ↦ decide (scope ∈ set))
      first).insertionSort (· ≤ ·)).dedup

def inScope (scopes : Option (List String)) (scopeId : Option String) : Bool :=
  match scopes, scopeId with
  | some scopes, some scope => decide (scope ∈ scopes)
  | _, _ => true

end Scopes

namespace PruneTable

variable {K V T B S : Type*} [DecidableEq V] [DecidableEq T] [LinearOrder B]
  (t : PruneTable K V T B S)

/-! ### Columns -/

def columnAt (columnId : ℤ) : Option IndexColumn :=
  t.columns.find? fun column ↦ decide (column.columnId = columnId)

def boundsColumn (columnId : ℤ) : Option IndexColumn :=
  (t.columnAt columnId).filter fun column ↦ (t.codec.fromTypeOidForBounds column.typeOid).isSome

def indexedFilterColumnIds : List ℤ :=
  t.primaryKey ++ t.indexedColumns ++ t.scopeColumn.toList ++ t.orderColumn.toList

def Typed (p : PrunePredicate V) : Prop := ∃ column ty, t.columnAt p.columnId = some column ∧
    t.codec.fromTypeOidForBounds column.typeOid = some ty ∧
      ∀ v, p.min = some v ∨ p.max = some v ∨ v ∈ p.anyOf →
        t.codec.sortKeyType v = ty ∧ ∃ b, t.codec.encodeSortKey v = .ok b

variable (predicates : List (PrunePredicate V))

def inScope (scopes : Option (List String)) (s : ColdSegment) : Bool :=
  Koldstore.inScope scopes (t.scopeId s)

variable {t} in
omit [DecidableEq V] [DecidableEq T] in
theorem inScope_eq_true_iff {scopes : Option (List String)} {s : ColdSegment} :
    t.inScope scopes s = true ↔
      ∀ list scope, scopes = some list → t.scopeId s = some scope → scope ∈ list := by
  cases scopes with
  | none => simp [inScope, Koldstore.inScope]
  | some list => cases h : t.scopeId s <;> simp [inScope, Koldstore.inScope, h]

/-! ### Disjoint keys -/

variable (s : ColdSegment)

def codecRow (columnId : ℤ) : Option (SegmentIndexRow B S) :=
  t.indexRows.find? fun r ↦ decide (r.segmentId = s.segmentId ∧ r.columnId = columnId ∧
    r.codecVersion = t.codec.codecVersion)

def keyBox : Option (Compaction.SegmentRange B) :=
  (t.primaryKey.mapM fun c ↦ (t.codecRow s c).bind fun row ↦ row.minValue.bind fun min ↦
    row.maxValue.map fun max ↦ (min, max)).map fun bounds ↦
      { rowCount := 0
        bounds
        tuple := if 1 < t.primaryKey.length then t.keyTuple s else none }

def boxOrder : WithTop B ×ₗ ℕ :=
  toLex ((t.primaryKey.head?.bind fun c ↦ (t.codecRow s c).bind fun row ↦ row.minValue : WithTop B),
    s.segmentId)

def maxDisjointPairChecks : ℕ := 2000000

def pkRangesDisjoint (scopes : Option (List String)) : Bool :=
  decide (1 < (t.segments.filter (t.inScope scopes)).length) && !t.primaryKey.isEmpty &&
    t.primaryKey.all (fun c ↦ (t.boundsColumn c).isSome) &&
    ((Keyset.ordered t.boxOrder (t.segments.filter (t.inScope scopes))).mapM t.keyBox).any
      fun boxes ↦ decide (Compaction.keysDisjoint boxes maxDisjointPairChecks = some true)

/-! ### Predicates that may prune -/

def coldPruneColumnPolicy (column : IndexColumn) : ColdPruneColumnPolicy where
  isPrimaryKey := decide (column.columnId ∈ t.primaryKey)
  isScope := decide (t.scopeColumn = some column.columnId)
  isOrderColumn := decide (t.orderColumn = some column.columnId)
  sortKeyIndexable := (t.codec.fromTypeOidForBounds column.typeOid).isSome

def policyFor (disjoint : Bool) (columnId : ℤ) : Option ColdPruneColumnPolicy :=
  (t.columnAt columnId).map fun column ↦ let policy := t.coldPruneColumnPolicy column
    if disjoint ∧ columnId ∈ t.indexedFilterColumnIds then { policy with isOrderColumn := true }
    else policy

def retainPreMergeColdPrunePredicates (disjoint : Bool) (predicates : List (PrunePredicate V)) :
    List (PrunePredicate V) :=
  predicates.filter fun p ↦ (t.policyFor disjoint p.columnId).any
    ColdPruneColumnPolicy.allowsPredicate

def validatePrunePredicatesIndexed : List (PrunePredicate V) → Except String Unit
  | [] => .ok ()
  | p :: ps =>
    if p.columnId ∉ t.indexedFilterColumnIds then
      .error ("unsafe predicate pushdown: cold filter column `" ++ p.column ++
        "` is not indexed; koldstore cold reads require WHERE filters on indexed columns")
    else validatePrunePredicatesIndexed ps

/-! ### Looking candidates up -/

def drivingColumn : Option IndexColumn :=
  (t.orderColumn.bind fun c ↦ (t.boundsColumn c).filter fun column ↦
      predicates.any fun p ↦ decide (p.columnId = column.columnId)).or
    (((predicates.filter fun p ↦ decide (some p.columnId ≠ t.scopeColumn)).findSome? fun p ↦
      t.boundsColumn p.columnId).or (predicates.findSome? fun p ↦ t.boundsColumn p.columnId))

def probeCell (columnId : ℤ) : Option (IndexColumn × B) := (t.columnAt columnId).bind fun column ↦
  (t.codec.fromTypeOid column.typeOid).bind fun ty ↦ if t.codec.supportsValueSummary ty then
      (predicates.find? fun p ↦ decide (p.columnId = column.columnId) && p.isEquality).bind
        fun p ↦ p.min.bind fun value ↦ if t.codec.sortKeyType value = ty then
            (t.codec.encodeSortKey value).toOption.map fun b ↦ (column, b)
          else none
    else none

def compositeKeyProbe : Option (IndexColumn × ℤ) :=
  if t.primaryKey.length < 2 then none
  else (t.primaryKey.mapM (t.probeCell predicates)).bind fun cells ↦ cells.head?.bind fun first ↦
      (t.codec.summaryHash (t.concat (cells.map Prod.snd))).map fun hash ↦ (first.1, hash)

def maxUnionPointLookups : ℕ := 64

def isUnionList (column : IndexColumn) (p : PrunePredicate V) : Bool :=
  decide (p.columnId = column.columnId) && decide (2 ≤ p.anyOf.length) &&
    decide (p.anyOf.length ≤ maxUnionPointLookups)

def pointPredicates (column : IndexColumn) (value : V) :
    List (PrunePredicate V) → List (PrunePredicate V)
  | [] => []
  | p :: ps =>
    if isUnionList column p then .equality p.columnId p.column value :: ps
    else p :: pointPredicates column value ps

def candidatePlan : CandidatePlan V :=
  match ((t.compositeKeyProbe predicates).map Prod.fst).or (t.drivingColumn predicates) with
  | none => .allActive
  | some column =>
    match predicates.find? (isUnionList column) with
    | some list =>
      .union (list.anyOf.map fun value ↦
        ⟨column, (pointPredicates column value predicates).map fun p ↦ p.toSegmentPrunePredicate,
          none⟩)
    | none =>
      .one ⟨column, predicates.map fun p ↦ p.toSegmentPrunePredicate,
        (t.compositeKeyProbe predicates).map Prod.snd⟩

def resolveSegmentIndexCandidates : Except String (Option (List SegmentStatsHint)) :=
  match t.candidatePlan predicates with
  | .allActive => .ok none
  | .one lookup => (t.answerUncached lookup).map SegmentIndexCandidateLoad.candidates
  | .union lookups => unionLookups t.answerUncached lookups (some [])

end PruneTable

/-! ### Queries -/

structure PruneQuery {K V T B S : Type*} [DecidableEq V] [DecidableEq T] [LinearOrder B]
    (t : PruneTable K V T B S) where
  predicates : List (PrunePredicate V)
  session : Option String
  typed : ∀ p ∈ predicates, t.Typed p

namespace PruneQuery

variable {K V T B S : Type*} [DecidableEq V] [DecidableEq T] [LinearOrder B]
  {t : PruneTable K V T B S} (q : PruneQuery t)

def scopes : Option (List String) :=
  t.scopeColumn.bind fun c ↦ scopeFilterValues t.scopeText q.predicates c q.session

def retained : List (PrunePredicate V) :=
  t.retainPreMergeColdPrunePredicates (t.pkRangesDisjoint q.scopes) q.predicates

def planColdSegments : Except String (List SegmentStatsHint) :=
  (t.validatePrunePredicatesIndexed q.retained).bind fun _ ↦
    (t.resolveSegmentIndexCandidates q.retained).map fun candidates ↦
      (candidates.getD (t.segments.map fun s ↦ ⟨s, none⟩)).filter fun hint ↦
        t.inScope q.scopes hint.segment

end PruneQuery

end Koldstore
