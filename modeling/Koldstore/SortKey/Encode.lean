import Koldstore.Basic.ByteOrder
import Koldstore.Cell.Value

/-!
# Sort Key V1

Bounds are byte strings that the database compares byte by byte.
-/

namespace Koldstore

open List

def isWhitespace (c : Char) : Bool :=
  let n := c.toNat
  decide (9 ≤ n ∧ n ≤ 13) || decide (0x2000 ≤ n ∧ n ≤ 0x200A) ||
    decide (n ∈ [0x20, 0x85, 0xA0, 0x1680, 0x2028, 0x2029, 0x202F, 0x205F, 0x3000])

variable (chars : List Char)

def trimEnd : List Char := chars.rdropWhile isWhitespace

def trim : List Char := trimEnd (chars.dropWhile isWhitespace)

namespace SortKey

open ByteOrder

abbrev Bytes : Type := List (Fin 256)

def charBytes : Bytes := (chars.flatMap String.utf8EncodeChar).map UInt8.toFin

def utf8 (text : String) : Bytes := charBytes text.toList

/-! ### Types and values -/

inductive SortKeyType
  | bool
  | int2
  | int4
  | int8
  | date
  | timestamp
  | timestamptz
  | uuid
  | text
  | numeric
  deriving DecidableEq, Repr

namespace SortKeyType

def fromTypeOid (typeOid : ℕ) : Option SortKeyType :=
  match typeOid with
  | 16 => some bool
  | 21 => some int2
  | 23 => some int4
  | 20 => some int8
  | 1082 => some date
  | 1114 => some timestamp
  | 1184 => some timestamptz
  | 2950 => some uuid
  | _ => none

def fromTypeOidForBounds (typeOid : ℕ) : Option SortKeyType :=
  match typeOid with
  | 25 => some text
  | 1700 => some numeric
  | other => fromTypeOid other

def isOrderColumnType (ty : SortKeyType) : Bool := decide (ty ≠ text ∧ ty ≠ numeric)

end SortKeyType

def codecVersion : ℤ := 1

@[ext]
structure Uuid where
  bytes : Bytes
  length_bytes : bytes.length = 16
  deriving DecidableEq

def hexChars (byte : Fin 256) : List Char :=
  [Nat.digitChar (byte.val / 16), Nat.digitChar (byte.val % 16)]

/-- Hyphenated hexadecimal digits, from the byte at position `i` on. -/
def uuidChars : ℕ → Bytes → List Char
  | _, [] => []
  | i, byte :: bytes =>
    (if i ∈ [4, 6, 8, 10] then ['-'] else []) ++ (hexChars byte ++ uuidChars (i + 1) bytes)

def Uuid.text (u : Uuid) : String := String.ofList (uuidChars 0 u.bytes)

inductive SortKeyValue
  | bool (value : Bool)
  | int2 (value : Int16)
  | int4 (value : Int32)
  | int8 (value : Int64)
  | date (value : Int32)
  | timestamp (value : Int64)
  | timestamptz (value : Int64)
  | uuid (value : Uuid)
  | text (value : String)
  | numeric (value : String)
  deriving DecidableEq

namespace SortKeyValue

def sortKeyType : SortKeyValue → SortKeyType
  | bool _ => .bool
  | int2 _ => .int2
  | int4 _ => .int4
  | int8 _ => .int8
  | date _ => .date
  | timestamp _ => .timestamp
  | timestamptz _ => .timestamptz
  | uuid _ => .uuid
  | text _ => .text
  | numeric _ => .numeric

def cell : SortKeyValue → CellValue
  | bool value => .bool value
  | int2 value => .int16 value
  | int4 value => .int32 value
  | int8 value => .int64 value
  | date value => .dateDays value
  | timestamp value => .timestampMicros value
  | timestamptz value => .timestamptzMicros value
  | uuid value => .utf8 value.text
  | text value => .utf8 value
  | numeric value => .utf8 value

end SortKeyValue

/-! ### Encoding -/

structure Storekey where
  encodeBool : Bool → Bytes
  encodeI16 : Int16 → Bytes
  encodeI32 : Int32 → Bytes
  encodeI64 : Int64 → Bytes
  encodeUuid : Uuid → Bytes
  lexCmp_encodeBool : ∀ a b, lexCmp (encodeBool a) (encodeBool b) = cmp a b
  lexCmp_encodeI16 : ∀ a b, lexCmp (encodeI16 a) (encodeI16 b) = cmp a.toInt b.toInt
  lexCmp_encodeI32 : ∀ a b, lexCmp (encodeI32 a) (encodeI32 b) = cmp a.toInt b.toInt
  lexCmp_encodeI64 : ∀ a b, lexCmp (encodeI64 a) (encodeI64 b) = cmp a.toInt b.toInt
  lexCmp_encodeUuid : ∀ a b, lexCmp (encodeUuid a) (encodeUuid b) = lexCmp a.bytes b.bytes

def Storekey.bigEndian : Storekey where
  encodeBool value := [if value then 1 else 0]
  encodeI16 value := signedBigEndian 2 value.toInt
  encodeI32 value := signedBigEndian 4 value.toInt
  encodeI64 value := signedBigEndian 8 value.toInt
  encodeUuid value := value.bytes
  lexCmp_encodeBool := by decide
  lexCmp_encodeI16 a b := cmp_signedBigEndian (by decide)
    ⟨Int16.le_toInt a, Int16.toInt_lt a⟩ ⟨Int16.le_toInt b, Int16.toInt_lt b⟩
  lexCmp_encodeI32 a b := cmp_signedBigEndian (by decide)
    ⟨Int32.le_toInt a, Int32.toInt_lt a⟩ ⟨Int32.le_toInt b, Int32.toInt_lt b⟩
  lexCmp_encodeI64 a b := cmp_signedBigEndian (by decide)
    ⟨Int64.le_toInt a, Int64.toInt_lt a⟩ ⟨Int64.le_toInt b, Int64.toInt_lt b⟩
  lexCmp_encodeUuid _ _ := rfl

def significantDigits (digits : List ℕ) : List ℕ := (digits.dropWhile (· = 0)).rdropWhile (· = 0)

def numericBody (exponent : ℤ) (digits : List ℕ) : Bytes :=
  signedBigEndian 4 exponent ++ digits.map (fun digit ↦ Fin.ofNat 256 (digit + 1)) ++ [0]

def i32Max : ℕ := 2 ^ 31 - 1

def stripSign : List Char → List Char
  | '-' :: rest => rest
  | '+' :: rest => rest
  | rest => rest

/-- The message of `SortKeyError::InvalidJson`. -/
def invalidJson (expected detail : String) : String :=
  "sort-key JSON value does not match type " ++ expected ++ ": " ++ detail

/-- Encodes a decimal as `numeric_out` prints it. -/
def encodeNumericKey (text : String) : Except String Bytes :=
  let trimmed := trim text.toList
  if trimmed = "NaN".toList then .ok [0x50]
  else if trimmed = "Infinity".toList ∨ trimmed = "+Infinity".toList then .ok [0x40]
  else if trimmed = "-Infinity".toList then .ok [0x00]
  else
    let negative := trimmed.head? = some '-'
    let unsigned := stripSign trimmed
    let intPart := unsigned.takeWhile (· ≠ '.')
    let fracPart := (unsigned.dropWhile (· ≠ '.')).drop 1
    if (intPart = [] ∧ fracPart = []) ∨ ¬(intPart ++ fracPart).all Char.isDigit then
      .error (invalidJson "numeric" ("not a decimal number: `" ++ text ++ "`"))
    else
      let digits := (intPart ++ fracPart).map fun c ↦ c.toNat - '0'.toNat
      let leadingZeros := (digits.takeWhile (· = 0)).length
      if leadingZeros = digits.length then .ok [0x20]
      else if i32Max < intPart.length ∨ i32Max < leadingZeros then
        .error (invalidJson "numeric" "out of range integral type conversion attempted")
      else
        let body := numericBody ((intPart.length : ℤ) - leadingZeros) (significantDigits digits)
        if negative then .ok (0x10 :: body.map fun byte ↦ 255 - byte)
        else .ok (0x30 :: body)

def encodeSortKey (storekey : Storekey) : SortKeyValue → Except String Bytes
  | .bool value => .ok (storekey.encodeBool value)
  | .int2 value => .ok (storekey.encodeI16 value)
  | .int4 value => .ok (storekey.encodeI32 value)
  | .int8 value => .ok (storekey.encodeI64 value)
  | .date value => .ok (storekey.encodeI32 value)
  | .timestamp value => .ok (storekey.encodeI64 value)
  | .timestamptz value => .ok (storekey.encodeI64 value)
  | .uuid value => .ok (storekey.encodeUuid value)
  | .text value => .ok (utf8 value)
  | .numeric value => encodeNumericKey value

example : encodeNumericKey "1.0" = encodeNumericKey "1" := by decide +kernel

example : encodeNumericKey "-12.5" = .ok [0x10, 127, 255, 255, 253, 253, 252, 249, 255] := by
  decide +kernel

/-! ### UUID texts -/

theorem charBytes_inj {l m : List Char} (h : charBytes l = charBytes m) : l = m := by
  have hb : l.utf8Encode = m.utf8Encode := by
    rw [List.utf8Encode, List.utf8Encode,
      toByteArray_inj.2 (map_injective_iff.2 (fun _ _ ↦ UInt8.toFin_inj.1) h)]
  simpa using congrArg ByteArray.utf8Decode? hb

theorem charBytes_append (l m : List Char) : charBytes (l ++ m) = charBytes l ++ charBytes m := by
  rw [charBytes, flatMap_append, map_append]
  rfl

theorem lexCmp_charBytes_digitChar : ∀ x y : Fin 16,
    lexCmp (charBytes [Nat.digitChar x.val]) (charBytes [Nat.digitChar y.val]) = cmp x y ∧
      (charBytes [Nat.digitChar x.val]).length = 1 := by
  decide +kernel

theorem charBytes_hexChars (a : Fin 256) : charBytes (hexChars a) =
    charBytes [Nat.digitChar (a.val / 16)] ++ charBytes [Nat.digitChar (a.val % 16)] :=
  charBytes_append [Nat.digitChar (a.val / 16)] [Nat.digitChar (a.val % 16)]

theorem length_charBytes_digitChar {n : ℕ} (hn : n < 16) :
    (charBytes [Nat.digitChar n]).length = 1 :=
  (lexCmp_charBytes_digitChar ⟨n, hn⟩ 0).2

theorem length_charBytes_hexChars (a : Fin 256) : (charBytes (hexChars a)).length = 2 := by
  rw [charBytes_hexChars, length_append, length_charBytes_digitChar (by omega),
    length_charBytes_digitChar (by omega)]

theorem lexCmp_charBytes_hexChars (a b : Fin 256) :
    lexCmp (charBytes (hexChars a)) (charBytes (hexChars b)) = cmp a b := by
  obtain ⟨x, hx⟩ : ∃ x : Fin 16, x.val = a.val / 16 := ⟨⟨a.val / 16, by omega⟩, rfl⟩
  obtain ⟨y, hy⟩ : ∃ y : Fin 16, y.val = b.val / 16 := ⟨⟨b.val / 16, by omega⟩, rfl⟩
  obtain ⟨x', hx'⟩ : ∃ x' : Fin 16, x'.val = a.val % 16 := ⟨⟨a.val % 16, by omega⟩, rfl⟩
  obtain ⟨y', hy'⟩ : ∃ y' : Fin 16, y'.val = b.val % 16 := ⟨⟨b.val % 16, by omega⟩, rfl⟩
  have hl : (charBytes [Nat.digitChar x.val]).length =
      (charBytes [Nat.digitChar y.val]).length := by
    rw [length_charBytes_digitChar x.isLt, length_charBytes_digitChar y.isLt]
  rw [charBytes_hexChars, charBytes_hexChars, ← hx, ← hy, ← hx', ← hy', lexCmp_append hl,
    (lexCmp_charBytes_digitChar x y).1, (lexCmp_charBytes_digitChar x' y').1]
  symm
  refine Ordering.Compares.cmp_eq ?_
  have hf := cmp_compares x y
  have hs := cmp_compares x' y'
  revert hf hs
  cases cmp x y <;> cases cmp x' y' <;>
    simp only [Ordering.Compares, Ordering.then, Fin.lt_def, Fin.ext_iff] <;> omega

theorem lexCmp_charBytes_uuidChars {i : ℕ} {l m : Bytes} (h : l.length = m.length) :
    lexCmp (charBytes (uuidChars i l)) (charBytes (uuidChars i m)) = lexCmp l m := by
  induction l generalizing i m with
  | nil =>
    obtain rfl := length_eq_zero_iff.1 h.symm
    rfl
  | cons a l ih =>
    obtain ⟨b, m, rfl⟩ := exists_cons_of_length_eq_add_one h.symm
    have hl : l.length = m.length := by simpa using h
    have hb : (charBytes (hexChars a)).length = (charBytes (hexChars b)).length := by
      rw [length_charBytes_hexChars, length_charBytes_hexChars]
    rw [uuidChars, uuidChars, charBytes_append, charBytes_append _ (hexChars b ++ _),
      lexCmp_append_left, charBytes_append, charBytes_append, lexCmp_append hb,
      lexCmp_charBytes_hexChars, ih hl, lexCmp_cons_cons]

end SortKey

end Koldstore
