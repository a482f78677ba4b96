import Mathlib

/-!
# Typed cells

A row travels from the heap through flush, Parquet and merge as a list of **cells**.
-/

namespace Koldstore

inductive CellValue
  | null
  | bool (value : Bool)
  | int16 (value : Int16)
  | int32 (value : Int32)
  | int64 (value : Int64)
  | float32 (bits : UInt32)
  | float64 (bits : UInt64)
  | utf8 (text : String)
  | timestamptzMicros (value : Int64)
  | timestampMicros (value : Int64)
  | dateDays (value : Int32)
  deriving DecidableEq, Repr

namespace CellValue

def asI64 : CellValue → Option Int64
  | int16 value => some value.toInt64
  | int32 value => some value.toInt64
  | dateDays value => some value.toInt64
  | int64 value => some value
  | timestamptzMicros value => some value
  | timestampMicros value => some value
  | _ => none

end CellValue

end Koldstore
