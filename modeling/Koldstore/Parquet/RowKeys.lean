import Koldstore.Basic.Accumulate
import Koldstore.Parquet.Arrow
import Koldstore.SortKey.Summary

/-!
# The keys of a batch's rows

A value summary and the least and greatest key of the rows of a segment.
-/

namespace Koldstore

open SortKey Accumulate

structure RowCodec where
  storekey : Storekey
  parseUuid : String → Except String Uuid

abbrev ArrowSchema (R : Type*) := String → Option (ArrowArray R)

abbrev KeyColumn := String × SortKeyType

def SortKey.SortKeyType.debugName : SortKeyType → String
  | bool => "Bool"
  | int2 => "Int2"
  | int4 => "Int4"
  | int8 => "Int8"
  | date => "Date"
  | timestamp => "Timestamp"
  | timestamptz => "Timestamptz"
  | uuid => "Uuid"
  | text => "Text"
  | numeric => "Numeric"

def supportsValueSummary : SortKeyType → Bool
  | .int2 | .int4 | .int8 | .uuid | .date | .timestamp | .timestamptz => true
  | _ => false

namespace RowCodec

variable {R : Type*} (codec : RowCodec)

/-! ### Cells -/

variable (array : ArrowArray R) (ty : SortKeyType)

def keyValue (row : R) (column : String) : Except String (Option SortKeyValue) :=
  if array.isNull row then .ok none
  else
    match ty, array with
    | .int2, .int16 cell => .ok ((cell row).map .int2)
    | .int4, .int32 cell => .ok ((cell row).map .int4)
    | .int8, .int64 cell => .ok ((cell row).map .int8)
    | .uuid, .utf8 cell => (cell row).elim (.ok none) fun text ↦
      (codec.parseUuid text).map fun uuid ↦ some (.uuid uuid)
    -- Arrow counts from the Unix epoch, sort keys from PostgreSQL's
    | .date, .date32 cell => .ok ((cell row).map fun days ↦ .date (unixDaysToPg days))
    | .timestamp, .timestampMicrosecond cell =>
      .ok ((cell row).map fun micros ↦ .timestamp (unixMicrosToPg micros))
    | .timestamptz, .timestampMicrosecond cell =>
      .ok ((cell row).map fun micros ↦ .timestamptz (unixMicrosToPg micros))
    | .bool, _ | .text, _ | .numeric, _ =>
      .error ("value summaries are not supported for " ++ ty.debugName)
    | _, _ =>
      .error ("value summary column `" ++ column ++ "` has an unexpected Arrow type for " ++
        ty.debugName)

def componentValue (row : R) (column : String) : Except String (Option SortKeyValue) :=
  if ty = .text ∨ ty = .numeric then
    if array.isNull row then .ok none
    else
      match array with
      | .utf8 cell =>
        .ok ((cell row).map fun text ↦ if ty = .text then .text text else .numeric text)
      | _ =>
        .error ("key bounds column `" ++ column ++ "` has an unexpected Arrow type for " ++
          ty.debugName)
  else codec.keyValue array ty row column

def encodeValue : Option SortKeyValue → Except String (Option Bytes)
  | none => .ok none
  | some value => (encodeSortKey codec.storekey value).map some

def encodeRow (row : R) (column : String) : Except String (Option Bytes) :=
  (codec.keyValue array ty row column).bind codec.encodeValue

def encodeComponent (row : R) (column : String) : Except String (Option Bytes) :=
  (codec.componentValue array ty row column).bind codec.encodeValue

/-! ### Rows -/

/-- The arrays of the key columns. -/
def columnArrays (missing : String → String) (schema : ArrowSchema R) (columns : List KeyColumn) :
    Except String (List (KeyColumn × ArrowArray R)) :=
  columns.mapM fun column ↦
    (schema column.1).elim (.error (missing column.1)) fun array ↦ .ok (column, array)

def rowKey : List (KeyColumn × ArrowArray R) → R → Except String (Option Bytes)
  | [], _ => .ok (some [])
  | (column, array) :: rest, row =>
    (codec.encodeRow array column.2 row column.1).bind fun bytes ↦ bytes.elim (.ok none) fun bytes ↦
        (rowKey rest row).map fun key ↦ key.map fun key ↦ bytes ++ key

end RowCodec

def frameComponent (bytes : Bytes) : Bytes :=
  bytes.flatMap (fun byte ↦ if byte = 0 then [0, 0xFF] else [byte]) ++ [0x00, 0x01]

namespace RowCodec

variable {R : Type*} (codec : RowCodec)

def rowTuple : List (KeyColumn × ArrowArray R) → R → Except String Bytes
  | [], _ => .ok []
  | (column, array) :: rest, row =>
    (codec.encodeComponent array column.2 row column.1).bind fun bytes ↦
      bytes.elim (.error ("null in key column `" ++ column.1 ++ "`")) fun bytes ↦
        (rowTuple rest row).map fun key ↦ frameComponent bytes ++ key

/-! ### Batches -/

def addKeyColumnsToValueSummary (builder : ValueSummaryBuilder) (schema : ArrowSchema R)
    (batch : List R) (columns : List KeyColumn) : Except String ValueSummaryBuilder :=
  if columns = [] then .error "a value summary needs at least one key column"
  else
    (columnArrays (fun name ↦ "value summary column `" ++ name ++ "` is missing from the batch")
      schema columns).bind fun arrays ↦
        batch.foldlM (fun builder row ↦ (codec.rowKey arrays row).map fun key ↦
          key.elim builder builder.insert) builder

end RowCodec

structure KeyBoundsBuilder where
  extremes : Extremes Bytes
  rows : ℕ
  deriving DecidableEq, Repr

namespace KeyBoundsBuilder

def new : KeyBoundsBuilder := ⟨.empty, 0⟩

def add (builder : KeyBoundsBuilder) (key : Bytes) : KeyBoundsBuilder :=
  ⟨builder.extremes.add key, builder.rows + 1⟩

def addBatch {R : Type*} (codec : RowCodec) (builder : KeyBoundsBuilder) (schema : ArrowSchema R)
    (batch : List R) (columns : List KeyColumn) : Except String KeyBoundsBuilder :=
  if columns = [] then .error "key bounds need at least one key column"
  else
    (RowCodec.columnArrays (fun name ↦ "key bounds column `" ++ name ++
      "` is missing from the batch") schema columns).bind fun arrays ↦
        batch.foldlM (fun builder row ↦ (codec.rowTuple arrays row).map builder.add) builder

/-- The bounds, if exactly `rowCount` keys were added. -/
def finish (builder : KeyBoundsBuilder) (rowCount : ℕ) : Option (Bytes × Bytes) :=
  if builder.rows ≠ rowCount then none else builder.extremes.bounds

theorem foldl_add (keys : List Bytes) (builder : KeyBoundsBuilder) : keys.foldl add builder =
    ⟨keys.foldl Extremes.add builder.extremes, builder.rows + keys.length⟩ := by
  induction keys generalizing builder with
  | nil => rfl
  | cons key keys ih =>
    rw [List.foldl_cons, ih, List.foldl_cons, List.length_cons, add]
    simp only [KeyBoundsBuilder.mk.injEq, true_and]
    omega

end KeyBoundsBuilder

namespace RowCodec

variable {R : Type*} {codec : RowCodec} {schema : ArrowSchema R} {columns : List KeyColumn}
  {arrays : List (KeyColumn × ArrowArray R)} {row : R}

def Resolves (schema : ArrowSchema R) (columns : List KeyColumn)
    (arrays : List (KeyColumn × ArrowArray R)) : Prop :=
  columns ≠ [] ∧ List.Forall₂ (fun column p ↦ p.1 = column ∧ schema column.1 = some p.2) columns
    arrays

variable (h : Resolves schema columns arrays)
include h

theorem Resolves.columnArrays_eq (missing : String → String) :
    columnArrays missing schema columns = .ok arrays := by
  obtain ⟨-, h⟩ := h
  induction h with
  | nil => rfl
  | @cons column p columns arrays hp _ ih =>
    obtain ⟨⟨column', array⟩, hc⟩ : ∃ q, q = p := ⟨p, rfl⟩
    subst hc
    obtain ⟨rfl, hs⟩ := hp
    rw [columnArrays] at ih ⊢
    rw [List.mapM_cons, ih, hs]
    rfl

theorem toOption_addKeyColumns (builder : ValueSummaryBuilder) (batch : List R) :
    (codec.addKeyColumnsToValueSummary builder schema batch columns).toOption =
      (collect (fun row ↦ (codec.rowKey arrays row).toOption) batch).map fun keys ↦
        keys.foldl ValueSummaryBuilder.insert builder := by
  rw [addKeyColumnsToValueSummary, if_neg h.1, h.columnArrays_eq]
  exact toOption_foldlM

theorem toOption_addBatch (builder : KeyBoundsBuilder) (batch : List R) :
    (builder.addBatch codec schema batch columns).toOption =
      (collect (fun row ↦ (codec.rowTuple arrays row).toOption.map some) batch).map fun keys ↦
        keys.foldl KeyBoundsBuilder.add builder := by
  rw [KeyBoundsBuilder.addBatch, if_neg h.1, h.columnArrays_eq]
  have hrd : ∀ row, (codec.rowTuple arrays row).toOption.map some =
      ((codec.rowTuple arrays row).map some).toOption := fun row ↦ Except.toOption_map.symm
  simp only [hrd]
  rw [← toOption_foldlM]
  refine congrArg Except.toOption (congrArg (fun step ↦ batch.foldlM step builder) ?_)
  funext builder row
  cases codec.rowTuple arrays row <;> rfl

omit h

def HoldsKey (codec : RowCodec) (arrays : List (KeyColumn × ArrowArray R)) (row : R)
    (values : List SortKeyValue) : Prop :=
  List.Forall₂ (fun p value ↦ codec.keyValue p.2 p.1.2 row p.1.1 = .ok (some value)) arrays values

def concatKeys (codec : RowCodec) : List SortKeyValue → Except String Bytes
  | [] => .ok []
  | value :: values => (encodeSortKey codec.storekey value).bind fun bytes ↦
    (concatKeys codec values).map fun key ↦ bytes ++ key

variable {values : List SortKeyValue}

theorem HoldsKey.rowKey_eq (h : codec.HoldsKey arrays row values) :
    codec.rowKey arrays row = (codec.concatKeys values).map some := by
  induction h with
  | nil => rfl
  | @cons p value arrays values hp _ ih =>
    obtain ⟨column, array⟩ := p
    rw [rowKey, encodeRow, hp, concatKeys, ih]
    show ((encodeSortKey codec.storekey value).map some).bind _ = _
    cases encodeSortKey codec.storekey value with
    | error e => rfl
    | ok bytes => cases codec.concatKeys values <;> rfl

end RowCodec

end Koldstore
