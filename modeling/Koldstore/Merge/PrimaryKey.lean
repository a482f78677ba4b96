import Koldstore.Basic.Binary64
import Koldstore.Cell.Decimal
import Koldstore.Merge.Groups

/-!
# Primary keys as identities

Rows of one key meet in three places, and each compares keys in its own way.
-/

namespace Koldstore.PrimaryKey

/-! ### JSON values of a key -/

inductive Json
  | null
  | bool (value : Bool)
  | number (text : Decimal)
  | string (text : String)
  deriving DecidableEq

/-- The JSON that identifies a `numeric` cell. -/
def toPkJson : NumericText → Json
  | .decimal d => .number d
  | special => .string special.text

def wholeLimit : ℚ := 9000000000000000

def normalizePkNumber : Json → Json
  | .number d =>
    -- only a text with a point counts as a float
    if d.fraction = [] then .number d
    else
      match Binary64.nearest d.value with
      | some float =>
        if Int.fract float = 0 ∧ |float| < wholeLimit then .number (.ofInt ⌊float⌋) else .number d
      | none => .number d
  | value => value

structure PkValue where
  json : Json
  ne_null : json ≠ .null
  deriving DecidableEq

theorem normalizePkNumber_ne_null {value : Json} (h : value ≠ .null) :
    normalizePkNumber value ≠ .null := by
  cases value with
  | null => exact absurd rfl h
  | bool value => exact h
  | string text => exact h
  | number d =>
    rw [normalizePkNumber]
    split_ifs
    · exact h
    · split
      · split_ifs <;> simp
      · simp

def PkValue.new (value : Json) : Except String PkValue :=
  if h : value = .null then .error "primary-key value cannot be null"
  else .ok ⟨normalizePkNumber value, normalizePkNumber_ne_null h⟩

/-! ### Logical keys -/

structure LogicalPk where
  columns : List (String × PkValue)
  ne_nil : columns ≠ []
  nodup : (columns.map Prod.fst).Nodup
  deriving DecidableEq

def firstDuplicate : List String → List String → Option String
  | _, [] => none
  | seen, column :: columns =>
    if column ∈ seen then some column else firstDuplicate (column :: seen) columns

def LogicalPk.new (columns : List (String × PkValue)) : Except String LogicalPk :=
  if hnil : columns = [] then .error "primary key must include at least one column"
  else if hnodup : (columns.map Prod.fst).Nodup then .ok ⟨columns, hnil, hnodup⟩
  else
    .error ("duplicate primary-key column: " ++ (firstDuplicate [] (columns.map Prod.fst)).getD "")

inductive LogicalPkValues
  | single (value : PkValue)
  | composite (values : List PkValue)
  deriving DecidableEq

def LogicalPkValues.ofList : List PkValue → LogicalPkValues
  | [value] => .single value
  | values => .composite values

def LogicalPk.intoValues (pk : LogicalPk) : LogicalPkValues := .ofList (pk.columns.map Prod.snd)

theorem LogicalPkValues.ofList_injective : Function.Injective LogicalPkValues.ofList := by
  intro values values' h
  fun_cases LogicalPkValues.ofList values <;> fun_cases LogicalPkValues.ofList values' <;>
    simp_all [LogicalPkValues.ofList]

/-! ### Keys in the WAL -/

inductive PkCell
  | int8 (value : Int64)
  | int4 (value : Int32)
  | int2 (value : Int16)
  | bool (value : Bool)
  | text (value : String)
  deriving DecidableEq

def boolOid : ℕ := 16
def int8Oid : ℕ := 20
def int2Oid : ℕ := 21
def int4Oid : ℕ := 23
def numericOid : ℕ := 1700

def parseInt (lo hi : ℤ) (text : String) : Except String ℤ :=
  let digits : Bool → List Char → Except String ℤ := fun negative cs ↦
    if cs = [] then .error "invalid digit found in string"
    else if cs.all Char.isDigit then
      let n : ℤ := if negative then -(Nat.ofDigitChars 10 cs 0 : ℤ) else Nat.ofDigitChars 10 cs 0
      if n < lo then .error "number too small to fit in target type"
      else if hi < n then .error "number too large to fit in target type"
      else .ok n
    else .error "invalid digit found in string"
  match text.toList with
  | [] => .error "cannot parse integer from empty string"
  | '-' :: cs => digits true cs
  | '+' :: cs => digits false cs
  | cs => digits false cs

/-- `char::is_whitespace`. -/
def isWhitespace (c : Char) : Bool :=
  c.isWhitespace ||
    c.toNat ∈ [0xb, 0xc, 0x85, 0xa0, 0x1680, 0x2028, 0x2029, 0x202f, 0x205f, 0x3000] ||
    decide (0x2000 ≤ c.toNat ∧ c.toNat ≤ 0x200a)

def parsePkBool (cell : String) : Except String Bool :=
  let cell := String.ofList ((cell.toList.dropWhile isWhitespace).rdropWhile isWhitespace)
  let word := cell.toLower
  if word = "t" ∨ word = "true" ∨ cell = "1" ∨ word = "yes" ∨ word = "on" then .ok true
  else if word = "f" ∨ word = "false" ∨ cell = "0" ∨ word = "no" ∨ word = "off" then .ok false
  else .error s!"async mirror PK boolean value `{cell}`"

def PkCell.fromPgText (typeOid : ℕ) (text : String) (column : String) : Except String PkCell :=
  let failed := fun typeName error ↦
    s!"async mirror PK {typeName} value `{text}` for {column}: {error}"
  if typeOid = int8Oid then
    ((parseInt (-2 ^ 63) (2 ^ 63 - 1) text).mapError (failed "int8")).map (.int8 <| Int64.ofInt ·)
  else if typeOid = int4Oid then
    ((parseInt (-2 ^ 31) (2 ^ 31 - 1) text).mapError (failed "int4")).map (.int4 <| Int32.ofInt ·)
  else if typeOid = int2Oid then
    ((parseInt (-2 ^ 15) (2 ^ 15 - 1) text).mapError (failed "int2")).map (.int2 <| Int16.ofInt ·)
  else if typeOid = boolOid then (parsePkBool text).map .bool
  else .ok (.text text)

inductive PkIdentity
  | int8 (value : Int64)
  | int4 (value : Int32)
  | int2 (value : Int16)
  | bool (value : Bool)
  | text (value : String)
  | composite (cells : List PkCell)
  deriving DecidableEq

def PkIdentity.fromCells : List PkCell → PkIdentity
  | [.int8 value] => .int8 value
  | [.int4 value] => .int4 value
  | [.int2 value] => .int2 value
  | [.bool value] => .bool value
  | [.text value] => .text value
  | cells => .composite cells

theorem PkIdentity.fromCells_injective : Function.Injective PkIdentity.fromCells := by
  intro cells cells' h
  fun_cases PkIdentity.fromCells cells <;> fun_cases PkIdentity.fromCells cells' <;>
    simp_all [PkIdentity.fromCells]

section Numeric

variable {s t : NumericText} {d : Decimal} {n : ℤ}

/-- The value of a `numeric` cell in a logical key. -/
def pkValue (s : NumericText) : Except String PkValue := PkValue.new (toPkJson s)

/-- A key with a `numeric` column among others. -/
def mergeKey (before after : List (String × PkValue)) (column : String) (s : NumericText) :
    Except String LogicalPk :=
  (pkValue s).bind fun value ↦ LogicalPk.new (before ++ (column, value) :: after)

/-- The batch identity of a row with a `numeric` cell among others. -/
def walKey (before after : List PkCell) (column : String) (s : NumericText) :
    Except String PkIdentity :=
  (PkCell.fromPgText numericOid s.text column).map fun cell ↦
    PkIdentity.fromCells (before ++ cell :: after)

/-- The text becomes the integer `n` in a key. -/
def ReadsAs (s : NumericText) (n : ℤ) : Prop :=
  ∃ d, s = .decimal d ∧ (d.fraction = [] ∧ d.value = n ∨
    d.fraction ≠ [] ∧ Binary64.nearest d.value = some (n : ℚ) ∧ |(n : ℚ)| < wholeLimit)

theorem exists_eq_ofInt (hd : d.fraction = []) : ∃ n, d = .ofInt n := by
  obtain ⟨negative, whole, fraction, hn⟩ := d
  obtain rfl : fraction = [] := hd
  cases negative with
  | false => exact ⟨whole, by simp [Decimal.ofInt]⟩
  | true =>
    have hwh : whole ≠ 0 := by simpa using hn rfl
    exact ⟨-whole, by simp [Decimal.ofInt, Nat.pos_of_ne_zero hwh]⟩

theorem readsAs_decimal : ReadsAs (.decimal d) n ↔ d.fraction = [] ∧ d.value = n ∨
    d.fraction ≠ [] ∧ Binary64.nearest d.value = some (n : ℚ) ∧ |(n : ℚ)| < wholeLimit := by
  simp [ReadsAs]

theorem normalizePkNumber_number (d : Decimal) :
    (∃ n, ReadsAs (.decimal d) n ∧ normalizePkNumber (.number d) = .number (.ofInt n)) ∨
      (∀ n, ¬ReadsAs (.decimal d) n) ∧ normalizePkNumber (.number d) = .number d := by
  simp only [readsAs_decimal, normalizePkNumber]
  by_cases hf : d.fraction = []
  · obtain ⟨n, rfl⟩ := exists_eq_ofInt hf
    exact .inl ⟨n, by simp⟩
  · simp only [hf, false_and, false_or, if_false]
    cases hn : Binary64.nearest d.value with
    | none => exact .inr ⟨by simp, rfl⟩
    | some float =>
      simp only [Option.some.injEq]
      by_cases hwh : Int.fract float = 0 ∧ |float| < wholeLimit
      · have hfloat : float = (⌊float⌋ : ℚ) := by
          rw [← sub_eq_zero]
          exact hwh.1
        exact .inl ⟨⌊float⌋, ⟨hf, hfloat, by rw [← hfloat]; exact hwh.2⟩, if_pos hwh⟩
      · refine .inr ⟨?_, if_neg hwh⟩
        rintro n ⟨-, rfl, hl⟩
        exact hwh ⟨Int.fract_intCast n, hl⟩

theorem readsAs_unique {m : ℤ} (hm : ReadsAs s m) (hn : ReadsAs s n) : m = n := by
  obtain ⟨d, rfl, hm⟩ := hm
  rw [readsAs_decimal] at hn
  rcases hm with ⟨hf, hm⟩ | ⟨hf, hm, -⟩ <;>
    rcases hn with ⟨hf', hn⟩ | ⟨hf', hn, -⟩
  · exact_mod_cast hm.symm.trans hn
  · exact absurd hf hf'
  · exact absurd hf' hf
  · exact_mod_cast Option.some.inj (hm.symm.trans hn)

theorem toPkJson_injective : Function.Injective toPkJson := by
  intro s t h
  cases s <;> cases t <;>
    first
    | exact congrArg NumericText.decimal (Json.number.inj h)
    | exact NumericText.text_injective (Json.string.inj h)
    | exact absurd h (nofun)

theorem normalizePkNumber_toPkJson_eq_iff :
    normalizePkNumber (toPkJson s) = normalizePkNumber (toPkJson t) ↔
      s = t ∨ ∃ n, ReadsAs s n ∧ ReadsAs t n := by
  have hc : ∀ u : NumericText,
      (∃ n, ReadsAs u n ∧ normalizePkNumber (toPkJson u) = .number (.ofInt n)) ∨
        (∀ n, ¬ReadsAs u n) ∧ normalizePkNumber (toPkJson u) = toPkJson u := by
    intro u
    cases u with
    | decimal d => exact normalizePkNumber_number d
    | nan | infinity negative => exact .inr ⟨fun n ⟨d, hd, _⟩ ↦ (by cases hd), rfl⟩
  -- a text that is kept is not an integer, so it is not what another text is folded to
  have hkt : ∀ {u : NumericText} {n : ℤ}, (∀ n, ¬ReadsAs u n) →
      toPkJson u ≠ .number (.ofInt n) := by
    intro u n hu heq
    cases u with
    | decimal d =>
      obtain rfl := Json.number.inj heq
      exact hu n (readsAs_decimal.2 (.inl (by simp)))
    | nan | infinity negative => cases heq
  rcases hc s with ⟨m, hm, hs⟩ | ⟨hm, hs⟩ <;> rcases hc t with ⟨n, hn, ht⟩ | ⟨hn, ht⟩
  · rw [hs, ht, Json.number.injEq, Decimal.ofInt_injective.eq_iff]
    constructor
    · rintro rfl
      exact .inr ⟨m, hm, hn⟩
    · rintro (rfl | ⟨k, hsk, htk⟩)
      · exact readsAs_unique hm hn
      · exact (readsAs_unique hm hsk).trans (readsAs_unique htk hn)
  · rw [hs, ht]
    constructor
    · exact fun h ↦ absurd h.symm (hkt hn)
    · rintro (rfl | ⟨k, -, htk⟩)
      · exact absurd hm (hn m)
      · exact absurd htk (hn k)
  · rw [hs, ht]
    constructor
    · exact fun h ↦ absurd h (hkt hm)
    · rintro (rfl | ⟨k, hsk, -⟩)
      · exact absurd hn (hm n)
      · exact absurd hsk (hm k)
  · rw [hs, ht, toPkJson_injective.eq_iff]
    exact ⟨.inl, fun h ↦ h.resolve_right fun ⟨k, hsk, _⟩ ↦ hm k hsk⟩

theorem pkValue_eq_ok (s : NumericText) :
    ∃ value, pkValue s = .ok value ∧ value.json = normalizePkNumber (toPkJson s) := by
  have hne : toPkJson s ≠ .null := by cases s <;> simp [toPkJson]
  exact ⟨_, dif_neg hne, rfl⟩

variable {before after : List (String × PkValue)} {column : String}

theorem mergeKey_eq_ok (hc : (before.map Prod.fst ++ column :: after.map Prod.fst).Nodup)
    (s : NumericText) :
    ∃ value key, value.json = normalizePkNumber (toPkJson s) ∧
      mergeKey before after column s = .ok key ∧
      key.columns = before ++ (column, value) :: after := by
  obtain ⟨value, hv, hj⟩ := pkValue_eq_ok s
  have hn : before ++ (column, value) :: after ≠ [] := by simp
  have hnd : ((before ++ (column, value) :: after).map Prod.fst).Nodup := by simpa using hc
  refine ⟨value, ⟨_, hn, hnd⟩, hj, ?_, rfl⟩
  rw [mergeKey, hv, Except.bind, LogicalPk.new, dif_neg hn, dif_pos hnd]

theorem mergeKey_eq_iff (ho : (before.map Prod.fst ++ column :: after.map Prod.fst).Nodup) :
    (mergeKey before after column s = mergeKey before after column t ↔
        s = t ∨ ∃ n, ReadsAs s n ∧ ReadsAs t n) ∧
      ((mergeKey before after column s).map LogicalPk.intoValues =
          (mergeKey before after column t).map LogicalPk.intoValues ↔
        s = t ∨ ∃ n, ReadsAs s n ∧ ReadsAs t n) := by
  obtain ⟨value, key, hj, hk, hc⟩ := mergeKey_eq_ok ho s
  obtain ⟨value', key', hj', hk', hc'⟩ := mergeKey_eq_ok ho t
  have hv : value = value' ↔ s = t ∨ ∃ n, ReadsAs s n ∧ ReadsAs t n := by
    rw [← normalizePkNumber_toPkJson_eq_iff, ← hj, ← hj', PkValue.mk.injEq]
  have hks : key = key' ↔ value = value' := by
    rw [LogicalPk.mk.injEq, hc, hc']
    simp
  have hvs : key.intoValues = key'.intoValues ↔ value = value' := by
    rw [LogicalPk.intoValues, LogicalPk.intoValues, LogicalPkValues.ofList_injective.eq_iff, hc,
      hc']
    simp
  rw [hk, hk', Except.ok.injEq, hks, hv]
  exact ⟨Iff.rfl, by rw [Except.map, Except.map, Except.ok.injEq, hvs, hv]⟩

theorem walKey_eq_iff {before after : List PkCell} :
    walKey before after column s = walKey before after column t ↔ s = t := by
  have hc : ∀ u : NumericText,
      PkCell.fromPgText numericOid u.text column = .ok (.text u.text) := fun u ↦ rfl
  rw [walKey, walKey, hc, hc, Except.map, Except.map, Except.ok.injEq,
    PkIdentity.fromCells_injective.eq_iff, ← NumericText.text_injective.eq_iff]
  simp

/-- The identities of two texts follow their numbers. -/
structure FollowNumbers (before after : List (String × PkValue))
    (cellsBefore cellsAfter : List PkCell)
    (column : String) (s t : NumericText) : Prop where
  merge : mergeKey before after column s = mergeKey before after column t ↔ s.number = t.number
  values : (mergeKey before after column s).map LogicalPk.intoValues =
    (mergeKey before after column t).map LogicalPk.intoValues ↔ s.number = t.number
  wal : walKey cellsBefore cellsAfter column s = walKey cellsBefore cellsAfter column t ↔
    s.number = t.number
  masks : ∀ hot cold : MergeGroups.MergeRow LogicalPk Unit,
    mergeKey before after column s = .ok hot.pk → mergeKey before after column t = .ok cold.pk →
    cold.seq ≤ hot.seq → cold.deleted = false →
    ((∃ r ∈ MergeGroups.resolveRows [hot] [cold], r.source = .cold) ↔ s.number ≠ t.number)

/-- **When identities follow numbers**: the texts are the same, or they are different numbers that
are not read as one integer. -/
theorem followNumbers_iff (hcolumns : (before.map Prod.fst ++ column :: after.map Prod.fst).Nodup)
    (cellsBefore cellsAfter : List PkCell) (s t : NumericText) :
    FollowNumbers before after cellsBefore cellsAfter column s t ↔
      s = t ∨ s.number ≠ t.number ∧ ¬∃ n, ReadsAs s n ∧ ReadsAs t n := by
  obtain ⟨hmg, hvs⟩ := mergeKey_eq_iff (s := s) (t := t) hcolumns
  constructor
  · intro h
    have hw := walKey_eq_iff.symm.trans h.wal
    have hk := hmg.symm.trans h.merge
    by_cases hst : s = t
    · exact .inl hst
    · have hn : s.number ≠ t.number := hw.not.1 hst
      exact .inr ⟨hn, fun hrd ↦ hn (hk.1 (.inr hrd))⟩
  · intro h
    have hn : s = t ↔ s.number = t.number :=
      ⟨congrArg NumericText.number, fun heq ↦ h.resolve_right fun hne ↦ hne.1 heq⟩
    have hk : (s = t ∨ ∃ n, ReadsAs s n ∧ ReadsAs t n) ↔ s.number = t.number := by
      rw [← hn]
      refine ⟨fun hor ↦ ?_, .inl⟩
      exact h.elim id fun hne ↦ hor.resolve_right hne.2
    refine ⟨hmg.trans hk, hvs.trans hk, walKey_eq_iff.trans hn, ?_⟩
    intro hot cold hh hcd hs hlv
    rw [hh, hcd, Except.ok.injEq] at hmg
    rw [MergeGroups.exists_cold_mem_resolveRows hs hlv, ne_eq, hmg, hk]

theorem followNumbers_one_two :
    FollowNumbers [] [] [] [] "id" (.decimal (.unsigned 1 [])) (.decimal (.unsigned 2 [])) := by
  refine (followNumbers_iff (by simp) [] [] _ _).2 (.inr ⟨by decide +kernel, ?_⟩)
  rintro ⟨n, ho, ht⟩
  have ho : (Decimal.unsigned 1 []).value = n := by simpa [readsAs_decimal] using ho
  have ht : (Decimal.unsigned 2 []).value = n := by simpa [readsAs_decimal] using ht
  exact absurd (ho.trans ht.symm) (by decide +kernel)

theorem numbers_not_followed : ((NumericText.decimal (.unsigned 62 [5])).number =
        (NumericText.decimal (.unsigned 62 [5, 0])).number ∧
      mergeKey [] [] "id" (.decimal (.unsigned 62 [5])) ≠
        mergeKey [] [] "id" (.decimal (.unsigned 62 [5, 0])) ∧
      walKey [] [] "id" (.decimal (.unsigned 62 [5])) ≠
        walKey [] [] "id" (.decimal (.unsigned 62 [5, 0]))) ∧
    ((NumericText.decimal (.unsigned 1 [])).number ≠
        (NumericText.decimal (.unsigned 1 (List.replicate 19 0 ++ [1]))).number ∧
      mergeKey [] [] "id" (.decimal (.unsigned 1 [])) =
        mergeKey [] [] "id" (.decimal (.unsigned 1 (List.replicate 19 0 ++ [1])))) := by
  refine ⟨⟨by decide +kernel, ?_, ?_⟩, by decide +kernel, ?_⟩
  · rw [ne_eq, (mergeKey_eq_iff (by simp)).1]
    rintro (heq | ⟨n, hrd, -⟩)
    · exact absurd heq (by decide +kernel)
    · have he : Binary64.nearest (Decimal.unsigned 62 [5]).value = some (n : ℚ) := by
        rw [readsAs_decimal] at hrd
        exact (hrd.resolve_left fun h ↦ absurd h.1 (by decide)).2.1
      have hh : Binary64.nearest (Decimal.unsigned 62 [5]).value = some (125 / 2) := by
        decide +kernel
      have hn : (n : ℚ) = 125 / 2 := Option.some.inj (he.symm.trans hh)
      have ht : 2 * n = 125 := by
        have ht : (2 : ℚ) * n = 125 := by rw [hn]; norm_num
        exact_mod_cast ht
      omega
  · rw [ne_eq, walKey_eq_iff]
    decide +kernel
  · refine (mergeKey_eq_iff (by simp)).1.2 (.inr ⟨1, ?_, ?_⟩)
    · exact readsAs_decimal.2 (.inl ⟨rfl, by decide +kernel⟩)
    · exact readsAs_decimal.2 (.inr ⟨by decide, by decide +kernel, by decide +kernel⟩)

end Numeric

end Koldstore.PrimaryKey
