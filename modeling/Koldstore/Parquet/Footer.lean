import Koldstore.Basic.Except
import Koldstore.Parquet.Arrow

/-!
# Column statistics from a Parquet footer

For each row group and column a null count and, if known, a least and a greatest value.
-/

namespace Koldstore

open List Except

section Describes

variable {B : Type*} [LinearOrder B]

structure DescribesGroup (cells : List (Option B)) (min max : Option B) (nulls : Option ℤ) :
    Prop where
  paired : min.isSome = max.isSome
  min_le : ∀ b, some b ∈ cells → ∀ m, min = some m → m ≤ b
  le_max : ∀ b, some b ∈ cells → ∀ m, max = some m → b ≤ m
  exists_value : min.isSome = true → ∃ b, some b ∈ cells
  null_count : ∀ n, nulls = some n → n = cells.count none

structure DescribesColumn (groups : List (List (Option B))) (min max : Option B)
    (groupMins groupMaxs : List (Option B)) (groupNulls : List (Option ℤ)) : Prop where
  length_mins : groupMins.length = groups.length
  length_maxs : groupMaxs.length = groups.length
  length_nulls : groupNulls.length = groups.length
  group : ∀ i cells, groups[i]? = some cells →
    DescribesGroup cells (groupMins.getD i none) (groupMaxs.getD i none) (groupNulls.getD i none)
  paired : min.isSome = max.isSome
  min_le : ∀ cells ∈ groups, ∀ b, some b ∈ cells → ∀ m, min = some m → m ≤ b
  le_max : ∀ cells ∈ groups, ∀ b, some b ∈ cells → ∀ m, max = some m → b ≤ m

end Describes

/-! ### Packing a column -/

structure ChunkStatistics (B : Type*) where
  nullCount : Option ℤ
  bounds : Except String (Option (B × B))

structure PackedColumnIndex (B S : Type*) where
  columnId : ℤ
  typeOid : ℕ
  codecVersion : ℤ
  minValue : Option B
  maxValue : Option B
  rowGroupMinValues : List (Option B)
  rowGroupMaxValues : List (Option B)
  rowGroupNullCounts : List (Option ℤ)
  valueSummary : Option S
  keyMin : Option B
  keyMax : Option B
  deriving DecidableEq, Repr

structure PackedColumn where
  columnId : ℤ
  typeOid : ℕ
  name : String
  numeric : Bool
  required : Bool
  deriving DecidableEq, Repr

section Extract

variable {B S : Type*}

abbrev PackedGroup (B : Type*) := Option (B × B) × Option ℤ

def packGroup (column : PackedColumn) (i : ℕ) (rowCount : ℤ)
    (statistics : Option (ChunkStatistics B)) : Except String (PackedGroup B) :=
  let nullCount := statistics.bind ChunkStatistics.nullCount
  if nullCount.any fun n ↦ decide (n < 0) || decide (rowCount < n) then
    .error ("cold segment row group " ++ toString i ++ " has invalid `" ++ column.name ++
      "` null count")
  else
    (if column.numeric then .ok none else statistics.elim (.ok none) ChunkStatistics.bounds).bind
      fun bounds ↦ if nullCount = some rowCount ∧ bounds.isSome then
          .error ("cold segment row group " ++ toString i ++ " has `" ++ column.name ++
            "` bounds for an all-null column")
        else if bounds = none ∧ nullCount ≠ some rowCount ∧ column.required then
          .error ("cold segment row group " ++ toString i ++ " has incomplete required `" ++
            column.name ++ "` statistics")
        else .ok (bounds, nullCount)

def packGroups (column : PackedColumn) : ℕ → List (ℤ × Option (ChunkStatistics B)) →
    Except String (List (PackedGroup B))
  | _, [] => .ok []
  | i, (rowCount, statistics) :: rest =>
    (packGroup column i rowCount statistics).bind fun group ↦
      (packGroups column (i + 1) rest).map (group :: ·)

def boundsComplete (rowCounts : List ℤ) (groups : List (PackedGroup B)) : Bool :=
  (groups.zip rowCounts).all fun p ↦ p.1.1.isSome || decide (p.1.2 = some p.2)

variable [LinearOrder B]

def extractColumnIndex (codecVersion : ℤ) (column : PackedColumn)
    (rowGroups : List (ℤ × Option (ChunkStatistics B))) :
    Except String (PackedColumnIndex B S) :=
  (packGroups column 0 rowGroups).map fun groups ↦ let mins := groups.map fun g ↦ g.1.map Prod.fst
    let maxs := groups.map fun g ↦ g.1.map Prod.snd
    let complete := boundsComplete (rowGroups.map Prod.fst) groups
    { columnId := column.columnId
      typeOid := column.typeOid
      codecVersion := codecVersion
      minValue := if complete then (mins.filterMap id).argmin id else none
      maxValue := if complete then (maxs.filterMap id).argmax id else none
      rowGroupMinValues := mins
      rowGroupMaxValues := maxs
      rowGroupNullCounts := groups.map Prod.snd
      valueSummary := none
      keyMin := none
      keyMax := none }

end Extract

/-! ### Packing a segment -/

structure RowGroupFooter (B : Type*) where
  numRows : ℤ
  seqStatistics : Option (Option (ℤ × ℤ))
  statistics : String → Option (ChunkStatistics B)

structure ParquetFooter (B : Type*) where
  hasColumn : String → Bool
  rowGroups : List (RowGroupFooter B)

structure PackedSegmentMetadata (B S : Type*) where
  rowCount : ℤ
  minSeq : ℤ
  maxSeq : ℤ
  rowGroupCount : ℕ
  rowGroupRowCounts : List ℤ
  rowGroupMinSeqs : List ℤ
  rowGroupMaxSeqs : List ℤ
  columnIndexes : List (PackedColumnIndex B S)
  deriving DecidableEq, Repr

section ExtractSegment

variable {B S : Type*}

/-- The `seq` bounds of one row group. -/
def packSeq (i : ℕ) (group : RowGroupFooter B) : Except String (ℤ × ℤ) := if group.numRows ≤ 0 then
    .error ("cold segment row group " ++ toString i ++ " has non-positive row count " ++
      toString group.numRows)
  else
    match group.seqStatistics with
    | none =>
      .error ("cold segment row group " ++ toString i ++ " is missing required `seq` statistics")
    | some none =>
      .error ("cold segment row group " ++ toString i ++
        " has incomplete required `seq` statistics")
    | some (some (minSeq, maxSeq)) =>
      if minSeq ≤ 0 ∨ maxSeq < minSeq then
        .error ("cold segment row group " ++ toString i ++ " has invalid `seq` bounds " ++
          toString minSeq ++ "..=" ++ toString maxSeq)
      else .ok (minSeq, maxSeq)

def packSeqs : ℕ → List (RowGroupFooter B) → Except String (List (ℤ × ℤ))
  | _, [] => .ok []
  | i, group :: groups =>
    (packSeq i group).bind fun seqs ↦ (packSeqs (i + 1) groups).map (seqs :: ·)

def leastSeq : List ℤ → ℤ
  | [] => 0
  | seq :: seqs => seqs.foldl (fun least seq ↦ if seq < least then seq else least) seq

def greatestSeq : List ℤ → ℤ
  | [] => 0
  | seq :: seqs => seqs.foldl (fun greatest seq ↦ if greatest < seq then seq else greatest) seq

/-- The sum of the row counts as a `bigint`. -/
def checkedRowCount : ℤ → List ℤ → Except String ℤ
  | total, [] => .ok total
  | total, count :: counts =>
    if 9223372036854775808 ≤ total + count then
      .error "cold segment footer row count exceeds bigint range"
    else checkedRowCount (total + count) counts

variable [LinearOrder B]

def extractColumnIndexes (footer : ParquetFooter B) (columns : List PgColumn)
    (primaryKeyColumns : List String) :
    List ColumnRef → Except String (List (PackedColumnIndex B S))
  | [] => .ok []
  | indexed :: rest =>
    match columns.find? fun column ↦ decide (column.name = indexed.name) with
    | none =>
      .error ("indexed column `" ++ indexed.name ++ "` is missing from Parquet catalog columns")
    | some column =>
      match SortKey.SortKeyType.fromTypeOidForBounds column.pgType.typeOid with
      | none => extractColumnIndexes footer columns primaryKeyColumns rest
      | some ty =>
        if footer.hasColumn column.name then
          (extractColumnIndex SortKey.codecVersion
            { columnId := indexed.columnId
              typeOid := column.pgType.typeOid
              name := column.name
              numeric := decide (ty = .numeric)
              required := !column.nullable && ty.isOrderColumnType &&
                decide (column.name ∈ primaryKeyColumns) }
            (footer.rowGroups.map fun group ↦ (group.numRows, group.statistics column.name))).bind
              fun index ↦
                (extractColumnIndexes footer columns primaryKeyColumns rest).map (index :: ·)
        else .error ("cold segment footer is missing indexed column `" ++ column.name ++ "`")

def extractPackedSegmentMetadata (footer : ParquetFooter B) (columns : List PgColumn)
    (indexedColumns : List ColumnRef) (primaryKeyColumns : List String) :
    Except String (PackedSegmentMetadata B S) :=
  if footer.rowGroups = [] then .error "cold segment footer contains no row groups"
  else if !footer.hasColumn "seq" then
    .error "cold segment footer is missing required `seq` column"
  else
    (packSeqs 0 footer.rowGroups).bind fun seqs ↦
    (extractColumnIndexes footer columns primaryKeyColumns indexedColumns).bind fun indexes ↦
    (checkedRowCount 0 (footer.rowGroups.map RowGroupFooter.numRows)).map fun rowCount ↦
      { rowCount
        minSeq := leastSeq (seqs.map Prod.fst)
        maxSeq := greatestSeq (seqs.map Prod.snd)
        rowGroupCount := footer.rowGroups.length
        rowGroupRowCounts := footer.rowGroups.map RowGroupFooter.numRows
        rowGroupMinSeqs := seqs.map Prod.fst
        rowGroupMaxSeqs := seqs.map Prod.snd
        columnIndexes := indexes }

end ExtractSegment

section Sound

variable {B S : Type*} [LinearOrder B]

variable {column : PackedColumn} {i : ℕ} {chunk : ℤ × Option (ChunkStatistics B)}
  {cells : List (Option B)} {group : PackedGroup B}
  {chunks : List (ℤ × Option (ChunkStatistics B))} {groups : List (PackedGroup B)}
  {cellGroups : List (List (Option B))}

omit [LinearOrder B] in
theorem packGroups_numeric (hn : column.numeric = true)
    (h : packGroups column i chunks = .ok groups) : ∀ group ∈ groups, group.1 = none := by
  induction chunks generalizing i groups with
  | nil =>
    cases h
    simp
  | cons chunk chunks ih =>
    obtain ⟨group, hg, h⟩ := bind_eq_ok_iff.1 h
    obtain ⟨rest, hre, rfl⟩ := map_eq_ok_iff.1 h
    obtain ⟨-, hg⟩ := ite_error_eq_ok_iff.1 hg
    rw [if_pos hn] at hg
    obtain ⟨-, hg⟩ := ite_error_eq_ok_iff.1 hg
    obtain ⟨-, ⟨⟩⟩ := ite_error_eq_ok_iff.1 hg
    intro group hmem
    rcases mem_cons.1 hmem with rfl | hmem
    · rfl
    · exact ih hre group hmem

/-- An entry with nothing beyond the footer's statistics. -/
structure PackedColumnIndex.Bare (index : PackedColumnIndex B S) (numeric : Bool) : Prop where
  valueSummary : index.valueSummary = none
  keyMin : index.keyMin = none
  keyMax : index.keyMax = none
  minValue : numeric = true → index.minValue = none
  maxValue : numeric = true → index.maxValue = none

theorem extractColumnIndex_bare {codecVersion : ℤ} {index : PackedColumnIndex B S}
    (h : extractColumnIndex codecVersion column chunks = .ok index) :
    index.columnId = column.columnId ∧ index.Bare column.numeric := by
  obtain ⟨groups, hgs, rfl⟩ := map_eq_ok_iff.1 h
  refine ⟨rfl, ⟨rfl, rfl, rfl, fun hn ↦ ?_, fun hn ↦ ?_⟩⟩
  · have hnone := packGroups_numeric hn hgs
    have hi : (groups.map fun g ↦ g.1.map Prod.fst).filterMap id = [] := by
      simpa [filterMap_eq_nil_iff] using hnone
    simp only [hi, argmin_nil, ite_self]
  · have hnone := packGroups_numeric hn hgs
    have hm : (groups.map fun g ↦ g.1.map Prod.snd).filterMap id = [] := by
      simpa [filterMap_eq_nil_iff] using hnone
    simp only [hm, argmax_nil, ite_self]

theorem extractColumnIndexes_spec {footer : ParquetFooter B} {columns : List PgColumn}
    {primaryKeyColumns : List String} {indexedColumns : List ColumnRef}
    {indexes : List (PackedColumnIndex B S)}
    (h : extractColumnIndexes footer columns primaryKeyColumns indexedColumns = .ok indexes) :
    ∀ index ∈ indexes, ∃ indexed ∈ indexedColumns, ∃ column ty required,
      (columns.find? fun column ↦ decide (column.name = indexed.name)) = some column ∧
      SortKey.SortKeyType.fromTypeOidForBounds column.pgType.typeOid = some ty ∧
      extractColumnIndex SortKey.codecVersion ⟨indexed.columnId, column.pgType.typeOid, column.name,
        decide (ty = .numeric), required⟩ (footer.rowGroups.map fun group ↦
          (group.numRows, group.statistics column.name)) = .ok index := by
  induction indexedColumns generalizing indexes with
  | nil =>
    cases h
    simp
  | cons indexed rest ih =>
    rw [extractColumnIndexes] at h
    cases hc : columns.find? fun column ↦ decide (column.name = indexed.name) with
    | none => simp [hc] at h
    | some column =>
      cases hty : SortKey.SortKeyType.fromTypeOidForBounds column.pgType.typeOid with
      | none =>
        simp only [hc, hty] at h
        intro index hi
        obtain ⟨indexed', hmem, hspec⟩ := ih h index hi
        exact ⟨indexed', mem_cons_of_mem _ hmem, hspec⟩
      | some ty =>
        simp only [hc, hty] at h
        split at h
        · obtain ⟨first, hf, h⟩ := bind_eq_ok_iff.1 h
          obtain ⟨others, ho, rfl⟩ := map_eq_ok_iff.1 h
          intro index hi
          rcases mem_cons.1 hi with rfl | hi
          · exact ⟨indexed, mem_cons_self, column, ty, _, hc, hty, hf⟩
          · obtain ⟨indexed', hmem, hspec⟩ := ih ho index hi
            exact ⟨indexed', mem_cons_of_mem _ hmem, hspec⟩
        · cases h

example : (extractColumnIndex 1 ⟨2, 20, "day", false, false⟩ [(3, some ⟨some 3, .ok none⟩)] :
      Except String (PackedColumnIndex ℕ Unit)) =
    .ok ⟨2, 20, 1, none, none, [none], [none], [some 3], none, none, none⟩ := by
  decide +kernel

end Sound

end Koldstore
