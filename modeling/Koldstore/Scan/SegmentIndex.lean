import Koldstore.Basic.LookupCache

/-!
# Looking up cold segment candidates

Which segments and row groups can hold a row within the bounds.
-/

namespace Koldstore

/-! ### Catalog rows -/

structure SortKeyCodec (V T B S : Type*) where
  codecVersion : ℤ
  fromTypeOid : ℕ → Option T
  fromTypeOidForBounds : ℕ → Option T
  supportsValueSummary : T → Bool
  sortKeyType : V → T
  encodeSortKey : V → Except String B
  summaryHash : B → Option ℤ
  summaryMayContain : S → ℤ → Bool

structure IndexColumn where
  columnId : ℤ
  typeOid : ℕ
  deriving DecidableEq, Repr

/-- A row of `cold_segments` with status `active`. -/
structure ColdSegment where
  segmentId : ℕ
  path : String
  rowGroupCount : ℕ
  rowGroupRowCounts : List ℤ
  deriving DecidableEq, Repr

/-- A row of `cold_segment_index`. -/
structure SegmentIndexRow (B S : Type*) where
  segmentId : ℕ
  columnId : ℤ
  typeOid : ℕ
  codecVersion : ℤ
  minValue : Option B
  maxValue : Option B
  rowGroupMinValues : List (Option B)
  rowGroupMaxValues : List (Option B)
  rowGroupNullCounts : List (Option ℤ)
  valueSummary : Option S

structure IndexCatalog (V T B S : Type*) where
  codec : SortKeyCodec V T B S
  tableOid : ℕ
  generation : ℕ
  columns : List IndexColumn
  primaryKey : List ℤ
  segments : List ColdSegment
  indexRows : List (SegmentIndexRow B S)
  segments_nodup : (segments.map ColdSegment.segmentId).Nodup
  indexRows_nodup : (indexRows.map fun r ↦ (r.segmentId, r.columnId)).Nodup
  row_counts_length : ∀ s ∈ segments, 0 < s.rowGroupCount ∧
    s.rowGroupRowCounts.length = s.rowGroupCount
  row_counts_pos : ∀ s ∈ segments, ∀ n ∈ s.rowGroupRowCounts, 0 < n

structure SegmentPrunePredicate (V : Type*) where
  columnId : ℤ
  column : String
  min : Option V
  max : Option V

structure CandidateLookup (V : Type*) where
  column : IndexColumn
  predicates : List (SegmentPrunePredicate V)
  compositeHash : Option ℤ

/-! ### Encoded bounds -/

abbrev EncodedBounds (B : Type*) := List (ℤ × Option B × Option B)

namespace EncodedBounds

variable {B : Type*}

def get (bounds : EncodedBounds B) (columnId : ℤ) : Option (Option B × Option B) :=
  (bounds.find? fun e ↦ decide (e.1 = columnId)).map Prod.snd

def set (columnId : ℤ) (entry : Option B × Option B) : EncodedBounds B → EncodedBounds B
  | [] => [(columnId, entry)]
  | e :: rest =>
    if columnId < e.1 then (columnId, entry) :: e :: rest
    else if columnId = e.1 then (columnId, entry) :: rest
    else e :: set columnId entry rest

end EncodedBounds

namespace IndexCatalog

variable {V T B S : Type*} [DecidableEq T] [LinearOrder B]

section Encode

variable (cat : IndexCatalog V T B S)

def tightenBound (side column : String) (expected : T) (tighter : B → B → Bool)
    (current : Option B) : Option V → Except String (Option B)
  | none => .ok current
  | some value =>
    if cat.codec.sortKeyType value ≠ expected then
      .error ("prune " ++ side ++ " bound type mismatch for column `" ++ column ++ "`")
    else
      (cat.codec.encodeSortKey value).map fun encoded ↦
        if current.all (tighter encoded) then some encoded else current

def encodePredicates : EncodedBounds B → List (SegmentPrunePredicate V) →
    Except String (EncodedBounds B)
  | bounds, [] => .ok bounds
  | bounds, p :: ps =>
    match cat.columns.find? fun c ↦ decide (c.columnId = p.columnId) with
    | none => encodePredicates bounds ps
    | some column =>
      match cat.codec.fromTypeOidForBounds column.typeOid with
      | none => encodePredicates bounds ps
      | some expected =>
        let entry := (bounds.get p.columnId).getD (none, none)
        (cat.tightenBound "lower" p.column expected (fun new old ↦ decide (old < new)) entry.1
          p.min).bind fun lower ↦
        (cat.tightenBound "upper" p.column expected (fun new old ↦ decide (new < old)) entry.2
          p.max).bind fun upper ↦
        encodePredicates (bounds.set p.columnId (lower, upper)) ps

def encodePrunePredicateBounds (predicates : List (SegmentPrunePredicate V)) :
    Except String (EncodedBounds B) :=
  cat.encodePredicates [] predicates

end Encode

end IndexCatalog

/-! ### Packed row-group bounds -/

structure PackedRowGroupIndex (B : Type*) where
  rowGroupCount : ℕ
  rowGroupRowCounts : List ℤ
  rowGroupMinValues : List (Option B)
  rowGroupMaxValues : List (Option B)
  rowGroupNullCounts : List (Option ℤ)
  deriving DecidableEq, Repr

namespace PackedRowGroupIndex

variable {B : Type*} [LinearOrder B] (index : PackedRowGroupIndex B) (lower upper : Option B)

/-- Whether row group `i` can hold a value within the bounds. -/
def selectRowGroup (i : ℕ) : Except String Bool :=
  let rowCount := index.rowGroupRowCounts.getD i 0
  let nullCount := index.rowGroupNullCounts.getD i none
  if rowCount ≤ 0 ∨ nullCount.any (fun n ↦ decide (n < 0) || decide (rowCount < n)) then
    .error ("packed row-group " ++ toString i ++ " has invalid row/null count")
  else
    let allNull := decide (nullCount = some rowCount)
    match index.rowGroupMinValues.getD i none, index.rowGroupMaxValues.getD i none with
    | some min, some max =>
      if allNull then
        .error ("packed row-group " ++ toString i ++ " has bounds for an all-null column")
      else if max < min then
        .error ("packed row-group " ++ toString i ++ " has reversed min/max bounds")
      else
        .ok (lower.all (fun lower ↦ decide (lower ≤ max)) &&
          upper.all fun upper ↦ decide (min ≤ upper))
    | none, none => .ok !allNull
    | _, _ => .error ("packed row-group " ++ toString i ++ " has unpaired min/max bounds")

def selectRowGroups : List ℕ → Except String (List ℕ)
  | [] => .ok []
  | i :: is =>
    (index.selectRowGroup lower upper i).bind fun keep ↦
      (selectRowGroups is).map fun rest ↦ if keep then i :: rest else rest

def selectPackedRowGroups : Except String (List ℕ) :=
  if index.rowGroupCount = 0 ∨ index.rowGroupRowCounts.length ≠ index.rowGroupCount ∨
      index.rowGroupMinValues.length ≠ index.rowGroupCount ∨
      index.rowGroupMaxValues.length ≠ index.rowGroupCount ∨
      index.rowGroupNullCounts.length ≠ index.rowGroupCount then
    .error "packed row-group metadata cardinality mismatch"
  else if lower = none ∧ upper = none then
    .ok (List.range index.rowGroupCount)
  else
    index.selectRowGroups lower upper (List.range index.rowGroupCount)

end PackedRowGroupIndex

namespace IndexCatalog

variable {V T B S : Type*} [DecidableEq T] [LinearOrder B] (cat : IndexCatalog V T B S)
  (s : ColdSegment)

def packedOf (row : SegmentIndexRow B S) : PackedRowGroupIndex B where
  rowGroupCount := s.rowGroupCount
  rowGroupRowCounts := s.rowGroupRowCounts
  rowGroupMinValues := row.rowGroupMinValues
  rowGroupMaxValues := row.rowGroupMaxValues
  rowGroupNullCounts := row.rowGroupNullCounts

def unknownIndex : PackedRowGroupIndex B where
  rowGroupCount := s.rowGroupCount
  rowGroupRowCounts := s.rowGroupRowCounts
  rowGroupMinValues := List.replicate s.rowGroupCount none
  rowGroupMaxValues := List.replicate s.rowGroupCount none
  rowGroupNullCounts := List.replicate s.rowGroupCount none

def packedRow (columnId : ℤ) : Option (PackedRowGroupIndex B) := (cat.indexRows.find? fun r ↦
    decide (r.segmentId = s.segmentId ∧ r.columnId = columnId)).map (packedOf s)

/-! ### The candidate query -/

variable (column : IndexColumn) (compositeHash : Option ℤ)

def pointHash : Option B × Option B → Option ℤ
  | (some low, some high) =>
    if low = high ∧ (cat.codec.fromTypeOid column.typeOid).any cat.codec.supportsValueSummary then
      compositeHash.or
        (if cat.primaryKey = [column.columnId] then cat.codec.summaryHash low else none)
    else none
  | _ => none

def overlapsBounds (row : SegmentIndexRow B S) : Option B × Option B → Bool
  | (some low, some high) =>
    (row.minValue.any (fun min ↦ decide (min ≤ high)) &&
      row.maxValue.any fun max ↦ decide (low ≤ max)) || row.minValue.isNone
  | (some low, none) => row.maxValue.any (fun max ↦ decide (low ≤ max)) || row.maxValue.isNone
  | (none, some high) => row.minValue.any (fun min ↦ decide (min ≤ high)) || row.minValue.isNone
  | (none, none) => true

/-- A segment without an index row of the current type and codec is always a candidate. -/
def segmentCandidate (driving : Option B × Option B) (s : ColdSegment) :
    Option (ColdSegment × PackedRowGroupIndex B) :=
  match cat.indexRows.find? fun r ↦ decide (r.segmentId = s.segmentId ∧
      r.columnId = column.columnId ∧ r.typeOid = column.typeOid ∧
      r.codecVersion = cat.codec.codecVersion) with
  | none => some (s, unknownIndex s)
  | some row =>
    if overlapsBounds row driving && (cat.pointHash column compositeHash driving).all (fun hash ↦
        row.valueSummary.all fun summary ↦ cat.codec.summaryMayContain summary hash) then
      some (s, packedOf s row)
    else none

def candidateRows (driving : Option B × Option B) : List (ColdSegment × PackedRowGroupIndex B) :=
  cat.segments.filterMap (cat.segmentCandidate column compositeHash driving)

end IndexCatalog

end Koldstore
