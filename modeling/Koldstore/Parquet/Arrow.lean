import Koldstore.SortKey.Encode

/-!
# Rows as Arrow columns

A segment is written from Arrow batches: one typed array for each column.
-/

namespace Koldstore

/-! ### Column types -/

inductive PgType
  | bool | int2 | int4 | int8 | float4 | float8 | text | numeric | uuid | jsonb | textArray | bytea
  | timestamptz | date | timestamp | vector | tsvector | json | inet | cidr | macaddr | bpchar
  | time | timetz | int2Array | int4Array | int8Array | float4Array | float8Array | numericArray
  | uuidArray | boolArray | interval | dateArray | timestampArray | timestamptzArray | intervalArray
  | bit | varbit | macaddr8 | name | oid | enum | composite | xml | money | int4Range | int8Range
  | numRange | tsRange | tstzRange | dateRange | point | lseg | path | box | polygon | line | circle
  deriving DecidableEq, Repr

def PgType.typeOid : PgType → ℕ
  | bool => 16
  | int2 => 21
  | int4 => 23
  | int8 => 20
  | float4 => 700
  | float8 => 701
  | text => 25
  | numeric => 1700
  | uuid => 2950
  | jsonb => 3802
  | textArray => 1009
  | bytea => 17
  | timestamptz => 1184
  | date => 1082
  | timestamp => 1114
  | vector => 0
  | tsvector => 3614
  | json => 114
  | inet => 869
  | cidr => 650
  | macaddr => 829
  | bpchar => 1042
  | time => 1083
  | timetz => 1266
  | int2Array => 1005
  | int4Array => 1007
  | int8Array => 1016
  | float4Array => 1021
  | float8Array => 1022
  | numericArray => 1231
  | uuidArray => 2951
  | boolArray => 1000
  | interval => 1186
  | dateArray => 1182
  | timestampArray => 1115
  | timestamptzArray => 1185
  | intervalArray => 1187
  | bit => 1560
  | varbit => 1562
  | macaddr8 => 774
  | name => 19
  | oid => 26
  | enum => 0
  | composite => 0
  | xml => 142
  | money => 790
  | int4Range => 3904
  | int8Range => 3926
  | numRange => 3906
  | tsRange => 3908
  | tstzRange => 3910
  | dateRange => 3912
  | point => 600
  | lseg => 601
  | path => 602
  | box => 603
  | polygon => 604
  | line => 628
  | circle => 718

structure PgColumn where
  name : String
  pgType : PgType
  nullable : Bool
  deriving DecidableEq, Repr

structure ColumnRef where
  columnId : ℤ
  name : String
  deriving DecidableEq, Repr

/-! ### Epochs -/

def pgEpochDaysFromUnix : ℤ := 10957

def pgEpochMicrosFromUnix : ℤ := 946684800000000

def saturateI32 (z : ℤ) : Int32 := .ofInt (max Int32.minValue.toInt (min Int32.maxValue.toInt z))

def saturateI64 (z : ℤ) : Int64 := .ofInt (max Int64.minValue.toInt (min Int64.maxValue.toInt z))

def pgMicrosToUnix (micros : Int64) : Int64 :=
  if micros = .maxValue ∨ micros = .minValue then micros
  else saturateI64 (micros.toInt + pgEpochMicrosFromUnix)

def unixMicrosToPg (micros : Int64) : Int64 :=
  if micros = .maxValue ∨ micros = .minValue then micros
  else saturateI64 (micros.toInt - pgEpochMicrosFromUnix)

def pgDaysToUnix (days : Int32) : Int32 :=
  if days = .maxValue ∨ days = .minValue then days
  else saturateI32 (days.toInt + pgEpochDaysFromUnix)

def unixDaysToPg (days : Int32) : Int32 :=
  if days = .maxValue ∨ days = .minValue then days
  else saturateI32 (days.toInt - pgEpochDaysFromUnix)

/-! ### Arrays -/

inductive ArrowArray (R : Type*)
  | boolean (cell : R → Option Bool)
  | int16 (cell : R → Option Int16)
  | int32 (cell : R → Option Int32)
  | int64 (cell : R → Option Int64)
  | float32 (cell : R → Option UInt32)
  | float64 (cell : R → Option UInt64)
  | utf8 (cell : R → Option String)
  | timestampMicrosecond (cell : R → Option Int64)
  | date32 (cell : R → Option Int32)

section Build

variable {R : Type*}

def ArrowArray.isNull (row : R) : ArrowArray R → Bool
  | boolean cell => (cell row).isNone
  | int16 cell => (cell row).isNone
  | int32 cell => (cell row).isNone
  | int64 cell => (cell row).isNone
  | float32 cell => (cell row).isNone
  | float64 cell => (cell row).isNone
  | utf8 cell => (cell row).isNone
  | timestampMicrosecond cell => (cell row).isNone
  | date32 cell => (cell row).isNone

def arrowArray (pgType : PgType) (cell : R → CellValue) : ArrowArray R :=
  match pgType with
  | .bool => .boolean fun row ↦ match cell row with
    | .bool value => some value
    | _ => none
  | .int2 => .int16 fun row ↦ match cell row with
    | .int16 value => some value
    | _ => none
  | .int4 => .int32 fun row ↦ match cell row with
    | .int32 value => some value
    | _ => none
  | .int8 | .money => .int64 fun row ↦ match cell row with
    | .int64 value => some value
    | _ => none
  | .float4 => .float32 fun row ↦ match cell row with
    | .float32 bits => some bits
    | _ => none
  | .float8 => .float64 fun row ↦ match cell row with
    | .float64 bits => some bits
    | _ => none
  | .timestamptz => .timestampMicrosecond fun row ↦ match cell row with
    | .timestamptzMicros value => some (pgMicrosToUnix value)
    | _ => none
  | .timestamp => .timestampMicrosecond fun row ↦ match cell row with
    | .timestampMicros value => some (pgMicrosToUnix value)
    | _ => none
  | .date => .date32 fun row ↦ match cell row with
    | .dateDays value => some (pgDaysToUnix value)
    | _ => none
  | _ => .utf8 fun row ↦ match cell row with
    | .utf8 text => some text
    | _ => none

end Build

end Koldstore
