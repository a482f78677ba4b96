import Koldstore.Parquet.RowKeys

/-!
# Term filters

Bounds say nothing about an array, a document or a text vector.
-/

namespace Koldstore

open SortKey Accumulate ByteOrder List

inductive TermFilterKind
  | textArray
  | jsonb
  | tsvector
  deriving DecidableEq, Repr

inductive Json
  | null
  | bool (value : Bool)
  | number (text : String)
  | string (text : String)
  | array (items : List Json)
  | object (fields : List (String × Json))

structure JsonReader where
  parse : String → Option Json
  asF64 : String → Option UInt64
  display : Json → String

/-! ### Texts -/

def singleQuote : Char := Char.ofNat 39

def doubleQuote : Char := Char.ofNat 34

def backslash : Char := Char.ofNat 92

def pushChar (c : Char) (p : List Char × List Char) : List Char × List Char := (c :: p.1, p.2)

def splitOnce (separator : List Char) : List Char → Option (List Char × List Char)
  | [] => none
  | c :: cs =>
    if separator.isPrefixOf (c :: cs) then some ([], (c :: cs).drop separator.length)
    else (splitOnce separator cs).map (pushChar c)

/-! ### Arrays -/

def isArrayBound (part : List Char) : Bool :=
  let digits := if part.head? = some '-' then part.tail else part
  !digits.isEmpty && digits.all Char.isDigit

def stripDimensionPrefix (text : List Char) : List Char := if text.head? = some '[' then
    match splitOnce [']', '='] text.tail with
    | none => text
    | some (bounds, tail) =>
      match splitOnce [':'] bounds with
      | none => text
      | some (low, high) => if isArrayBound low && isArrayBound high then tail else text
  else text

def readQuotedElement : List Char → Option (List Char × List Char)
  | [] => none
  | c :: rest =>
    if c = backslash then
      match rest with
      | [] => none
      | escaped :: rest => (readQuotedElement rest).map (pushChar escaped)
    else if c = doubleQuote then some ([], rest)
    else (readQuotedElement rest).map (pushChar c)

def readBareElement : List Char → Option (List Char × List Char)
  | [] => some ([], [])
  | c :: rest =>
    if c = ',' then some ([], c :: rest)
    else if c = backslash then
      match rest with
      | [] => none
      | escaped :: rest => (readBareElement rest).map (pushChar escaped)
    else (readBareElement rest).map (pushChar c)

/-- One element; the word `null` without quotes is a null. -/
def readElement (chars : List Char) : Option (Option String × List Char) :=
  if chars.head? = some '{' then none
  else if chars.head? = some doubleQuote then
    (readQuotedElement chars.tail).map fun (value, rest) ↦ (some (String.ofList value), rest)
  else
    (readBareElement chars).map fun (value, rest) ↦ let value := trimEnd value
      (if value.map Char.toLower = "null".toList then none else some (String.ofList value), rest)

def readElements : ℕ → List Char → Option (List (Option String))
  | 0, _ => none
  | fuel + 1, chars =>
    (readElement (chars.dropWhile isWhitespace)).bind fun (element, rest) ↦
      match rest.dropWhile isWhitespace with
      | [] => some [element]
      | ',' :: rest => (readElements fuel rest).map (element :: ·)
      | _ => none

def parseTextArray (reader : JsonReader) (text : String) : Option (List (Option String)) :=
  let trimmed := stripDimensionPrefix (trim text.toList)
  if trimmed.head? = some '[' then
    match reader.parse (String.ofList trimmed) with
    | some (.array items) => some (items.map fun
      | .null => none
      | .string text => some text
      | other => some (reader.display other))
    | _ => none
  else if trimmed.head? = some '{' ∧ trimmed.tail.getLast? = some '}' then
    let inner := trimmed.tail.dropLast
    if trim inner = [] then some [] else readElements (inner.length + 1) inner
  else none

/-! ### Text vectors -/

def readQuoted : List Char → Option (List Char × List Char)
  | [] => none
  | c :: rest =>
    if c = backslash then
      match rest with
      | [] => none
      | escaped :: rest => (readQuoted rest).map (pushChar escaped)
    else if c = singleQuote then
      match rest with
      | [] => some ([], [])
      | next :: rest' =>
        if next = singleQuote then (readQuoted rest').map (pushChar singleQuote)
        else some ([], rest)
    else (readQuoted rest).map (pushChar c)

def readLexemes : ℕ → List Char → Option (List String)
  | _, [] => some []
  | 0, _ => none
  | fuel + 1, c :: rest =>
    if c = ' ' then readLexemes fuel rest
    else if c = singleQuote then
      (readQuoted rest).bind fun (lexeme, rest) ↦
        -- positions and weights hold no quotes or spaces
        (readLexemes fuel (if rest.head? = some ':' then rest.dropWhile (· ≠ ' ') else rest)).map
          (String.ofList lexeme :: ·)
    else none

def parseTsvectorLexemes (text : String) : Option (List String) :=
  readLexemes text.toList.length text.toList

/-! ### Terms -/

def arrayElementTerm (element : String) : Bytes := 0x01 :: utf8 element

def lexemeTerm (lexeme : String) : Bytes := 0x05 :: utf8 lexeme

def jsonKeyTerm (key : String) : Bytes := 0x02 :: utf8 key

def jsonPairTerm (key : String) (scalar : Bytes) : Bytes :=
  0x03 :: bigEndian 4 (min (utf8 key).length (2 ^ 32 - 1)) ++ utf8 key ++ scalar

def jsonElementTerm (scalar : Bytes) : Bytes := 0x04 :: scalar

def scalarCanon (reader : JsonReader) : Json → Option Bytes
  | .string text => some (0x73 :: utf8 text)
  | .number text => (reader.asF64 text).map fun bits ↦
    -- the two zeros are equal
    0x6E :: bigEndian 8 (if bits = 0x8000000000000000 then 0 else bits.toNat)
  | .bool true => some [0x74]
  | .bool false => some [0x66]
  | .null => some [0x7A]
  | .array _ => none
  | .object _ => none

mutual

def emitJsonTerms (reader : JsonReader) : Json → Option (List Bytes)
  | .object fields => emitFieldTerms reader fields
  | .array items => emitItemTerms reader items
  | scalar => (scalarCanon reader scalar).map fun canon ↦ [jsonElementTerm canon]

def emitFieldTerms (reader : JsonReader) : List (String × Json) → Option (List Bytes)
  | [] => some []
  | (key, child) :: fields =>
    (match scalarCanon reader child with
      | some scalar => some [jsonPairTerm key scalar]
      | none => emitJsonTerms reader child).bind fun terms ↦
        (emitFieldTerms reader fields).map fun rest ↦ jsonKeyTerm key :: terms ++ rest

def emitItemTerms (reader : JsonReader) : List Json → Option (List Bytes)
  | [] => some []
  | item :: items =>
    (match scalarCanon reader item with
      | some scalar => some [jsonElementTerm scalar]
      | none => emitJsonTerms reader item).bind fun terms ↦
        (emitItemTerms reader items).map fun rest ↦ terms ++ rest

end

def valueTerms (reader : JsonReader) (kind : TermFilterKind) (text : String) :
    Option (List Bytes) :=
  match kind with
  | .textArray => (parseTextArray reader text).map fun items ↦
    items.reduceOption.map arrayElementTerm
  | .jsonb => (reader.parse text).bind (emitJsonTerms reader)
  | .tsvector => (parseTsvectorLexemes text).map fun lexemes ↦ lexemes.map lexemeTerm

/-! ### The builder -/

structure TermFilterBuilder where
  kind : TermFilterKind
  hashes : List UInt64
  rows : ℕ
  complete : Bool
  deriving DecidableEq, Repr

namespace TermFilterBuilder

variable {R : Type*} (reader : JsonReader)

def new (kind : TermFilterKind) : TermFilterBuilder := ⟨kind, [], 0, true⟩

def insertTerms (hashes : List UInt64) (terms : List Bytes) : List UInt64 :=
  terms.foldl (fun hashes term ↦ hashes.insert (summaryHash term)) hashes

def addRows (cell : R → Option String) : List R → TermFilterBuilder → TermFilterBuilder
  | [], builder => builder
  | row :: rows, builder =>
    let builder := { builder with rows := builder.rows + 1 }
    match cell row with
    | none => addRows cell rows builder
    | some text =>
      match valueTerms reader builder.kind text with
      -- the terms before the failure stay, but nothing reads them any more
      | none => { builder with complete := false }
      | some terms => addRows cell rows { builder with hashes := insertTerms builder.hashes terms }

variable (builder : TermFilterBuilder)

def addBatch (schema : ArrowSchema R) (batch : List R) (column : String) : TermFilterBuilder :=
  if builder.complete then
    match schema column with
    | some (.utf8 cell) => addRows reader cell batch builder
    | _ => { builder with complete := false }
  else builder

/-- The filter, if it covers exactly `rowCount` rows and fits. -/
def finish (builder : TermFilterBuilder) (rowCount : ℕ) : Option Summary :=
  if !builder.complete || decide (builder.rows ≠ rowCount) || builder.hashes.isEmpty then none
  else (builder.hashes.foldl ValueSummaryBuilder.insertHash .new).finish

/-! ### What a batch contributes -/

def rowTerms (kind : TermFilterKind) (cell : R → Option String) (row : R) : Option (List Bytes) :=
  (cell row).elim (some []) (valueTerms reader kind)

def view : Option (ℕ × List UInt64) :=
  if builder.complete then some (builder.rows, builder.hashes) else none

def addTerms (state : ℕ × List UInt64) (terms : List Bytes) : ℕ × List UInt64 :=
  (state.1 + 1, insertTerms state.2 terms)

variable {reader} {cell : R → Option String} {schema : ArrowSchema R} {column : String}

theorem kind_addRows (batch : List R) (builder : TermFilterBuilder) :
    (addRows reader cell batch builder).kind = builder.kind := by
  induction batch generalizing builder with
  | nil => rfl
  | cons row rows ih =>
    rw [addRows]
    split
    · exact ih _
    · split
      · rfl
      · exact ih _

@[simp] theorem kind_addBatch (batch : List R) :
    (builder.addBatch reader schema batch column).kind = builder.kind := by
  rw [addBatch]
  split
  · split
    · exact kind_addRows batch builder
    · rfl
  · rfl

theorem view_addRows (batch : List R) (builder : TermFilterBuilder)
    (hco : builder.complete = true) : (addRows reader cell batch builder).view =
      (collect (fun row ↦ (rowTerms reader builder.kind cell row).map some) batch).map fun items ↦
        items.foldl addTerms (builder.rows, builder.hashes) := by
  induction batch generalizing builder with
  | nil => simp [addRows, view, hco, collect]
  | cons row rows ih =>
    rw [addRows, collect, rowTerms]
    cases hc : cell row with
    | none =>
      refine (ih { builder with rows := builder.rows + 1 } hco).trans ?_
      simp [Option.map_map, Function.comp_def, addTerms, insertTerms]
    | some text =>
      cases ht : valueTerms reader builder.kind text with
      | none => simp [ht, view]
      | some terms =>
        simp only [ht]
        refine (ih { builder with
          rows := builder.rows + 1, hashes := insertTerms builder.hashes terms } hco).trans ?_
        simp [Option.map_map, Function.comp_def, addTerms, ht]

theorem view_addBatch (hs : schema column = some (.utf8 cell)) (builder : TermFilterBuilder)
    (batch : List R) : (builder.addBatch reader schema batch column).view =
      builder.view.bind fun state ↦
        (collect (fun row ↦ (rowTerms reader builder.kind cell row).map some) batch).map
          fun items ↦ items.foldl addTerms state := by
  rw [addBatch, hs]
  cases hco : builder.complete with
  | true =>
    rw [if_pos rfl, view_addRows batch builder hco, view, if_pos hco]
    rfl
  | false => simp [view, hco]

theorem mem_insertTerms {terms : List Bytes} {hashes : List UInt64} {hash : UInt64} :
    hash ∈ insertTerms hashes terms ↔ hash ∈ hashes ∨ ∃ term ∈ terms, summaryHash term = hash := by
  induction terms generalizing hashes with
  | nil => simp [insertTerms]
  | cons term terms ih =>
    show hash ∈ insertTerms (hashes.insert (summaryHash term)) terms ↔ _
    rw [ih, mem_insert_iff, exists_mem_cons_iff, or_comm (a := hash = _), or_assoc,
      eq_comm (a := hash)]

theorem foldl_addTerms (items : List (List Bytes)) (state : ℕ × List UInt64) :
    items.foldl addTerms state = (state.1 + items.length, insertTerms state.2 items.flatten) := by
  induction items generalizing state with
  | nil => rfl
  | cons terms items ih =>
    rw [foldl_cons, ih, addTerms, flatten_cons, length_cons]
    simp only [insertTerms, foldl_append, Prod.mk.injEq, and_true]
    omega

end TermFilterBuilder

end Koldstore
