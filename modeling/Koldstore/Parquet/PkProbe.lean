import Koldstore.Basic.Pairing
import Koldstore.Merge.PrimaryKey
import Koldstore.Parquet.Arrow
import Koldstore.Scan.SegmentIndex

/-!
# Reading a segment for one key

**Statistics**, **Bloom filters** and the **page index** leave out what cannot hold the key.
-/

namespace Koldstore.PkProbe

open List Except

open SortKey

/-! ### Numbers as texts -/

def intText (z : ℤ) : String :=
  String.ofList ((if z < 0 then ['-'] else []) ++ Nat.toDigits 10 z.natAbs)

variable (text : String)

def parseI16 : Option ℤ := (PrimaryKey.parseInt (-2 ^ 15) (2 ^ 15 - 1) text).toOption

def parseI32 : Option ℤ := (PrimaryKey.parseInt (-2 ^ 31) (2 ^ 31 - 1) text).toOption

def parseI64 : Option ℤ := (PrimaryKey.parseInt (-2 ^ 63) (2 ^ 63 - 1) text).toOption

def parseBool : Option Bool :=
  if text = "true" then some true else if text = "false" then some false else none

/-- Sign, mantissa and decimal exponent of a number as `f64::from_str` takes it. -/
def parseScientific (text : List Char) : Option (Bool × ℕ × ℤ) :=
  let (negative, unsigned) := match text with
    | '-' :: rest => (true, rest)
    | '+' :: rest => (false, rest)
    | rest => (false, rest)
  let number := unsigned.takeWhile fun c ↦ c ≠ 'e' && c ≠ 'E'
  let exponent := (unsigned.dropWhile fun c ↦ c ≠ 'e' && c ≠ 'E')
  let whole := number.takeWhile (· ≠ '.')
  let fraction := (number.dropWhile (· ≠ '.')).drop 1
  if (whole ++ fraction).isEmpty || !(whole ++ fraction).all Char.isDigit then none
  else
    (if exponent.isEmpty then some 0
      else (PrimaryKey.parseInt (-2 ^ 63) (2 ^ 63 - 1)
        (String.ofList (exponent.drop 1))).toOption).map
        fun e ↦ (negative, Nat.ofDigitChars 10 (whole ++ fraction) 0, e - fraction.length)

def parseFloat {F : Type} [OfScientific F] [Neg F] (infinity nan : F) (text : String) : Option F :=
  let word := text.toLower
  if word ∈ ["nan", "+nan", "-nan"] then some nan
  else if word ∈ ["inf", "+inf", "infinity", "+infinity"] then some infinity
  else if word ∈ ["-inf", "-infinity"] then some (-infinity)
  else
    (parseScientific text.toList).map fun (negative, m, e) ↦
      let x : F := OfScientific.ofScientific m (decide (e < 0)) e.natAbs
      if negative then -x else x

def parseF32 : String → Option Float32 := parseFloat (1 / 0) (0 / 0)

def parseF64 : String → Option Float := parseFloat (1 / 0) (0 / 0)

theorem parseInt_intText {lo hi z : ℤ} (hlo : lo ≤ z) (hhi : z ≤ hi) :
    PrimaryKey.parseInt lo hi (intText z) = .ok z := by
  have hd : ∀ c ∈ Nat.toDigits 10 z.natAbs, c.isDigit = true := fun c hc ↦
    Nat.isDigit_of_mem_toDigits (by decide) (by decide) hc
  have ha : (Nat.toDigits 10 z.natAbs).all Char.isDigit = true := all_eq_true.2 hd
  have hn : Nat.toDigits 10 z.natAbs ≠ [] := Nat.toDigits_ne_nil
  rw [PrimaryKey.parseInt, intText, String.toList_ofList]
  by_cases he : z < 0
  · have hz : -((z.natAbs : ℕ) : ℤ) = z := by omega
    simp only [he, if_true, cons_append, nil_append, hn, if_false, ha,
      Nat.ofDigitChars_ten_toDigits, hz]
    rw [if_neg (by omega), if_neg (by omega)]
  · have hz : ((z.natAbs : ℕ) : ℤ) = z := by omega
    simp only [if_neg he, nil_append]
    -- the first character is a digit, so it is no sign
    split
    · next h => exact absurd h hn
    · next h => exact absurd (hd '-' (h ▸ mem_cons_self)) (by decide)
    · next h => exact absurd (hd '+' (h ▸ mem_cons_self)) (by decide)
    · simp only [hn, if_false, ha, if_true, Nat.ofDigitChars_ten_toDigits, hz, Bool.false_eq_true]
      rw [if_neg (by omega), if_neg (by omega)]

/-! ### Stored values -/

inductive Physical
  | boolean (value : Bool)
  | int32 (value : ℤ)
  | int64 (value : ℤ)
  | byteArray (text : String)
  | float (bits : UInt32)
  | double (bits : UInt64)
  deriving DecidableEq, Repr

inductive PhysicalType
  | boolean
  | int32
  | int64
  | int96
  | float
  | double
  | byteArray
  deriving DecidableEq, Repr

section Column

variable {R : Type*}

def physical (row : R) : ArrowArray R → Option Physical
  | .boolean cell => (cell row).map .boolean
  | .int16 cell => (cell row).map fun n ↦ .int32 n.toInt
  | .int32 cell => (cell row).map fun n ↦ .int32 n.toInt
  | .int64 cell => (cell row).map fun n ↦ .int64 n.toInt
  | .utf8 cell => (cell row).map .byteArray
  | .timestampMicrosecond cell => (cell row).map fun n ↦ .int64 n.toInt
  | .date32 cell => (cell row).map fun n ↦ .int32 n.toInt
  | .float32 cell => (cell row).map .float
  | .float64 cell => (cell row).map .double

def physicalType : ArrowArray R → PhysicalType
  | .boolean _ => .boolean
  | .int16 _ | .int32 _ | .date32 _ => .int32
  | .int64 _ | .timestampMicrosecond _ => .int64
  | .utf8 _ => .byteArray
  | .float32 _ => .float
  | .float64 _ => .double

end Column

/-! ### The key as a text -/

/-- The text of a key that is asked for; texts and `numeric` have none. -/
def probeLiteral : SortKeyValue → Option String
  | .bool flag => some (if flag then "true" else "false")
  | .int2 n => some (intText n.toInt)
  | .int4 n => some (intText n.toInt)
  | .int8 n => some (intText n.toInt)
  -- statistics and filters hold the Unix-epoch value
  | .date n => some (intText (pgDaysToUnix n).toInt)
  | .timestamp n | .timestamptz n => some (intText (pgMicrosToUnix n).toInt)
  | .uuid u => some u.text
  | .text _ | .numeric _ => none

def pkEqualityValues (predicates : List (SegmentPrunePredicate SortKeyValue))
    (primaryKeyColumns : List ColumnRef) : Option (ColumnRef × List String) :=
  match primaryKeyColumns with
  | [pk] =>
    (predicates.find? fun predicate ↦ decide (predicate.columnId = pk.columnId) &&
      predicate.min.isSome && predicate.max.isSome && decide (predicate.min = predicate.max)).bind
        fun predicate ↦ predicate.min.bind fun value ↦
          (probeLiteral value).map fun literal ↦ (pk, [literal])
  | _ => none

/-! ### Statistics -/

inductive Statistics
  | boolean (min max : Option Bool)
  | int32 (min max : Option ℤ)
  | int64 (min max : Option ℤ)
  | byteArray (min max : Option Bytes)
  | float (min max : Option UInt32)
  | double (min max : Option UInt64)
  | other
  deriving DecidableEq, Repr

section Admit

variable {α : Type*} [LE α] [DecidableLE α]

def boundsAdmit (parse : String → Option α) (min max : Option α) (values : List String) : Bool :=
  (min.bind fun lo ↦ max.map fun hi ↦ values.any fun value ↦
    (parse value).any fun x ↦ decide (lo ≤ x) && decide (x ≤ hi)).getD true

def Between (min max : Option α) (x : α) : Prop :=
  ∀ lo hi, min = some lo → max = some hi → lo ≤ x ∧ x ≤ hi

theorem boundsAdmit_eq_true {parse : String → Option α} {min max : Option α} {literal : String}
    {values : List String} {x : α} (hl : literal ∈ values) (hp : parse literal = some x)
    (hb : Between min max x) : boundsAdmit parse min max values = true := by
  cases hmin : min with
  | none => rfl
  | some lo =>
    cases hm : max with
    | none => rfl
    | some hi =>
      refine any_eq_true.2 ⟨literal, hl, ?_⟩
      simp [hp, hb lo hi hmin hm]

end Admit

/-- `row_group_may_contain_pk_values`. -/
def rowGroupMayContain : Option Statistics → List String → Bool
  | some (.int64 min max), values => boundsAdmit parseI64 min max values
  | some (.int32 min max), values => boundsAdmit parseI32 min max values
  | some (.byteArray min max), values => boundsAdmit (fun value ↦ some (utf8 value)) min max values
  | _, _ => true

structure PageIndex where
  firstRows : List ℕ
  nullPage : ℕ → Bool
  bounds : ℕ → Statistics

/-- `page_may_contain_equality_values`; unlike the statistics of row groups, booleans are
compared. -/
def PageIndex.mayContain (index : PageIndex) (page : ℕ) (values : List String) : Bool :=
  if index.nullPage page then false
  else
    match index.bounds page with
    | .int64 min max => boundsAdmit parseI64 min max values
    | .int32 min max => boundsAdmit parseI32 min max values
    | .byteArray min max => boundsAdmit (fun value ↦ some (utf8 value)) min max values
    | .boolean min max => boundsAdmit parseBool min max values
    | .float min max => boundsAdmit parseF32 (min.map .ofBits) (max.map .ofBits) values
    | .double min max => boundsAdmit parseF64 (min.map .ofBits) (max.map .ofBits) values
    | .other => true

/-- `bloom_may_contain`: a text that is not a value of the type excludes nothing. -/
def bloomMayContain (check : Physical → Bool) : PhysicalType → String → Bool
  | .int32, value => (parseI32 value).elim true fun z ↦ check (.int32 z)
  | .int64, value => (parseI64 value).elim true fun z ↦ check (.int64 z)
  | .byteArray, value => check (.byteArray value)
  | .boolean, value => (parseBool value).elim true fun flag ↦ check (.boolean flag)
  | .float, value => (parseF32 value).elim true fun x ↦ check (.float x.toBits)
  | .double, value => (parseF64 value).elim true fun x ↦ check (.double x.toBits)
  | .int96, _ => true

/-! ### The read -/

structure RowGroup (R : Type*) where
  index : ℕ
  rows : List R
  statistics : Option Statistics
  bloom : Option (Physical → Bool)
  pages : Option PageIndex

structure Segment (R : Type*) where
  array : ArrowArray R
  rowGroups : List (RowGroup R)
  hasPageIndex : Bool

inductive RowSelector
  | select (rows : ℕ)
  | skip (rows : ℕ)
  deriving DecidableEq, Repr

def applySelection {R : Type*} : List RowSelector → List R → List R
  | [], _ => []
  | .select n :: rest, rows => rows.take n ++ applySelection rest (rows.drop n)
  | .skip n :: rest, rows => applySelection rest (rows.drop n)

def pageSelectors (group : ℕ) (index : PageIndex) (values : List String) (groupRows : ℕ) :
    ℕ → ℕ → List ℕ → Except String (List RowSelector)
  | _, cursor, [] => .ok (if cursor < groupRows then [.skip (groupRows - cursor)] else [])
  | page, cursor, start :: rest =>
    let stop := rest.head?.getD groupRows
    if stop < start ∨ groupRows < stop then
      .error ("invalid page row span in row group " ++ toString group ++ " page " ++
        toString page ++ ": " ++ toString start ++ ".." ++ toString stop ++ " (rg_rows=" ++
        toString groupRows ++ ")")
    else if stop - start = 0 then pageSelectors group index values groupRows (page + 1) cursor rest
    else
      (pageSelectors group index values groupRows (page + 1) stop rest).map fun tail ↦
        (if cursor < start then [.skip (start - cursor)] else []) ++
          (if index.mayContain page values then .select (stop - start) else .skip (stop - start)) ::
            tail

namespace RowGroup

variable {R : Type*}

def selectors (values : List String) (g : RowGroup R) : Except String (List RowSelector) :=
  g.pages.elim (.ok (if 0 < g.rows.length then [.select g.rows.length] else [])) fun index ↦
    pageSelectors g.index index values g.rows.length 0 0 index.firstRows

end RowGroup

/-- `arrow_cell_matches_pk_values`: a cell of a type that is not compared is kept. -/
def cellMatches {R : Type*} (array : ArrowArray R) (values : List String) (row : R) : Bool :=
  if array.isNull row then false
  else
    match array with
    | .int64 cell => (cell row).any fun n ↦ values.any fun v ↦ decide (parseI64 v = some n.toInt)
    | .int32 cell => (cell row).any fun n ↦ values.any fun v ↦ decide (parseI32 v = some n.toInt)
    | .int16 cell => (cell row).any fun n ↦ values.any fun v ↦ decide (parseI16 v = some n.toInt)
    | .boolean cell => (cell row).any fun actual ↦ values.any fun v ↦
      if v ∈ ["true", "t", "1"] then actual
      else if v ∈ ["false", "f", "0"] then !actual
      else false
    | .utf8 cell => (cell row).any fun actual ↦ values.any fun v ↦ decide (v = actual)
    | _ => true

namespace Segment

variable {R : Type*} (seg : Segment R)

def rows : List R := seg.rowGroups.flatMap RowGroup.rows

variable (values : List String)

def selectFromMetadata : List (RowGroup R) :=
  if values = [] then [] else seg.rowGroups.filter fun g ↦ rowGroupMayContain g.statistics values

def refineWithBloom (candidates : List (RowGroup R)) : List (RowGroup R) :=
  candidates.filter fun g ↦ g.bloom.elim true fun check ↦
    values.any (bloomMayContain check (physicalType seg.array))

def selected : List (RowGroup R) :=
  let candidates := seg.selectFromMetadata values
  if candidates.length ≤ 1 then candidates else seg.refineWithBloom values candidates

/-- `row_selection_for_equality_values`: none if all rows of the row groups are to be read. -/
def rowSelection (groups : List (RowGroup R)) : Except String (Option (List RowSelector)) :=
  if values = [] ∨ groups = [] then .ok (some [])
  else if !seg.hasPageIndex then .ok none
  else
    (groups.mapM (RowGroup.selectors values)).map fun selectors ↦
      if groups.all fun g ↦ g.pages.isNone then none else some selectors.flatten

def readPruned : Except String (List R) :=
  let groups := seg.selected values
  (seg.rowSelection values groups).map fun selection ↦ let rows := groups.flatMap RowGroup.rows
    (selection.elim rows fun selectors ↦ applySelection selectors rows).filter
      (cellMatches seg.array values)

end Segment

/-! ### True metadata -/

def Statistics.Encloses : Statistics → Physical → Prop
  | .boolean min max, .boolean value => Between min max value
  | .int32 min max, .int32 value => Between min max value
  | .int64 min max, .int64 value => Between min max value
  | .byteArray min max, .byteArray text => Between min max (utf8 text)
  | .float min max, .float bits => Between (min.map Float32.ofBits) (max.map .ofBits) (.ofBits bits)
  | .double min max, .double bits => Between (min.map Float.ofBits) (max.map .ofBits) (.ofBits bits)
  | _, _ => False

/-- The pages follow one another and their statistics enclose their rows. The first page may start
behind the first row, and pages may be empty. -/
structure PageIndex.Describes {R : Type*} (index : PageIndex) (array : ArrowArray R)
    (rows : List R) : Prop where
  sorted : (index.firstRows ++ [rows.length]).Pairwise (· ≤ ·)
  encloses : ∀ page start, index.firstRows[page]? = some start →
    ∀ row ∈ (rows.drop start).take (index.firstRows[page + 1]?.getD rows.length - start),
      ∀ p, physical row array = some p →
        index.nullPage page = false ∧ (index.bounds page).Encloses p

/-- The pages are all the rows, as Parquet writes them. -/
structure PageIndex.Sound {R : Type*} (index : PageIndex) (array : ArrowArray R) (rows : List R) :
    Prop extends index.Describes array rows where
  first : index.firstRows.head?.getD rows.length = 0

/-- What a bloom filter is fed: a float as the machine holds it. -/
def Physical.fed : Physical → Physical
  | .float bits => .float (Float32.ofBits bits).toBits
  | .double bits => .double (Float.ofBits bits).toBits
  | p => p

structure RowGroup.Sound {R : Type*} (g : RowGroup R) (array : ArrowArray R) : Prop where
  statistics : ∀ statistics, g.statistics = some statistics →
    ∀ row ∈ g.rows, ∀ p, physical row array = some p → statistics.Encloses p
  bloom : ∀ check, g.bloom = some check →
    ∀ row ∈ g.rows, ∀ p, physical row array = some p → check p.fed = true
  pages : ∀ index, g.pages = some index → index.Sound array g.rows

/-! ### A text that is read as a value -/

def Reads (literal : String) : Physical → Prop
  | .boolean value => parseBool literal = some value
  | .int32 value => parseI32 literal = some value
  | .int64 value => parseI64 literal = some value
  | .byteArray text => literal = text
  | .float bits => parseF32 literal = some (.ofBits bits)
  | .double bits => parseF64 literal = some (.ofBits bits)

section Stages

variable {R : Type*} {array : ArrowArray R} {literal : String} {target : Physical}
  {values : List String}

theorem rowGroupMayContain_eq_true {statistics : Statistics} (hl : literal ∈ values)
    (hrd : Reads literal target) (h : statistics.Encloses target) :
    rowGroupMayContain (some statistics) values = true := by
  cases target <;> cases statistics <;>
    first
    | rfl
    | exact h.elim
    | exact boundsAdmit_eq_true hl hrd h
    | exact boundsAdmit_eq_true hl (congrArg (some ∘ utf8) hrd) h

theorem PageIndex.mayContain_eq_true {index : PageIndex} {page : ℕ} (hl : literal ∈ values)
    (hrd : Reads literal target) (hn : index.nullPage page = false)
    (h : (index.bounds page).Encloses target) : index.mayContain page values = true := by
  rw [mayContain, hn, if_neg (by decide)]
  cases target <;> cases hbs : index.bounds page <;> rw [hbs] at h <;>
    first
    | exact h.elim
    | exact boundsAdmit_eq_true hl hrd h
    | exact boundsAdmit_eq_true hl (congrArg (some ∘ utf8) hrd) h

theorem bloomMayContain_eq_true {check : Physical → Bool} {row : R} (hrd : Reads literal target)
    (hr : physical row array = some target) (hc : check target.fed = true) :
    bloomMayContain check (physicalType array) literal = true := by
  cases array <;> simp only [physical, Option.map_eq_some_iff] at hr <;>
    obtain ⟨value, -, rfl⟩ := hr <;> simp only [Reads] at hrd <;>
    simpa [physicalType, bloomMayContain, Physical.fed, hrd] using hc

end Stages

section Selection

variable {R : Type*} {array : ArrowArray R} {literal : String} {target : Physical} {hit : R → Bool}
  {rows : List R} {g : RowGroup R} {groups : List (RowGroup R)}

theorem filter_eq_nil_of_missing (hh : ∀ row, hit row = true → physical row array = some target)
    (h : ∀ row ∈ rows, physical row array ≠ some target) : rows.filter hit = [] := by
  rw [filter_eq_nil_iff]
  exact fun row hr ht ↦ h row hr (hh row ht)

theorem exists_pageSelectors (index : PageIndex) {groupRows : ℕ} (group : ℕ)
    (values : List String) (page cursor : ℕ) (starts : List ℕ)
    (hso : (starts ++ [groupRows]).Pairwise (· ≤ ·)) :
    ∃ selectors, pageSelectors group index values groupRows page cursor starts = .ok selectors := by
  induction starts generalizing page cursor with
  | nil => exact ⟨_, rfl⟩
  | cons start starts ih =>
    obtain ⟨hst, hre⟩ := pairwise_cons.1 hso
    have hsp : start ≤ starts.head?.getD groupRows ∧ starts.head?.getD groupRows ≤ groupRows := by
      cases starts with
      | nil => exact ⟨hst _ (by simp), le_rfl⟩
      | cons next starts => exact ⟨hst next (by simp), (pairwise_cons.1 hre).1 _ (by simp)⟩
    rw [pageSelectors, if_neg (by omega)]
    split
    · exact ih (page + 1) cursor hre
    · obtain ⟨tail, htl⟩ := ih (page + 1) (starts.head?.getD groupRows) hre
      rw [htl]
      exact ⟨_, rfl⟩

/-- For each row of a selection, whether it is read. -/
def mask (selectors : List RowSelector) : List Bool := selectors.flatMap fun
    | .select n => List.replicate n true
    | .skip n => List.replicate n false

/-- A hit is read. -/
def Kept (hit : R → Bool) (read : Bool) (row : R) : Prop := hit row = true → read = true

theorem forall₂_replicate {n : ℕ} (hl : rows.length = n) {read : Bool}
    (h : ∀ row ∈ rows, Kept hit read row) :
    List.Forall₂ (Kept hit) (List.replicate n read) rows := by
  subst hl
  induction rows with
  | nil => exact .nil
  | cons row rows ih =>
    obtain ⟨hr, hrs⟩ := forall_mem_cons.1 h
    exact .cons hr (ih hrs)

variable {values : List String} {selectors : List RowSelector}

/-- Pages follow each other, so only the rows before the first page are in no page. -/
theorem kept_pageSelectors {index : PageIndex} {group page cursor : ℕ} {starts : List ℕ}
    (h : pageSelectors group index values rows.length page cursor starts = .ok selectors)
    (hc : cursor ≤ starts.head?.getD rows.length)
    (hg : ∀ row ∈ (rows.drop cursor).take (starts.head?.getD rows.length - cursor), hit row = false)
    (hp : ∀ i start, starts[i]? = some start →
      ∀ row ∈ (rows.drop start).take (starts[i + 1]?.getD rows.length - start),
        hit row = true → index.mayContain (page + i) values = true) :
    List.Forall₂ (Kept hit) (mask selectors) (rows.drop cursor) := by
  induction starts generalizing page cursor selectors with
  | nil =>
    cases h
    have hmk : mask (if cursor < rows.length then [.skip (rows.length - cursor)] else []) =
        List.replicate (rows.length - cursor) false := by
      split_ifs with hlt
      · simp [mask]
      · simp [mask, Nat.sub_eq_zero_of_le (not_lt.1 hlt)]
    rw [hmk]
    refine forall₂_replicate length_drop fun row hr ht ↦ ?_
    rw [hg row (by simpa [take_of_length_le] using hr)] at ht
    cases ht
  | cons start starts ih =>
    have hnx : ∀ i start', starts[i]? = some start' →
        ∀ row ∈ (rows.drop start').take (starts[i + 1]?.getD rows.length - start'),
          hit row = true → index.mayContain (page + 1 + i) values = true := by
      intro i start' hi
      rw [Nat.add_assoc, Nat.add_comm 1 i]
      exact hp (i + 1) start' (by simpa using hi)
    have hpg := hp 0 start rfl
    rw [getElem?_cons_succ, ← head?_eq_getElem?] at hpg
    replace hc : cursor ≤ start := hc
    rw [pageSelectors] at h
    generalize hstopEq : starts.head?.getD rows.length = stop at h hpg
    obtain ⟨hspan, hok⟩ := ite_error_eq_ok_iff.1 h
    split at hok
    · obtain rfl : stop = start := by omega
      exact ih hok (hstopEq ▸ hc) (hstopEq ▸ hg) hnx
    · obtain ⟨tail, htl, rfl⟩ := map_eq_ok_iff.1 hok
      have hre := ih htl hstopEq.ge (by simp [hstopEq]) hnx
      have hs : rows.drop cursor = (rows.drop cursor).take (start - cursor) ++
          ((rows.drop start).take (stop - start) ++ rows.drop stop) := by
        conv_lhs => rw [← take_append_drop (start - cursor) (rows.drop cursor)]
        rw [drop_drop, Nat.add_sub_cancel' hc]
        conv_lhs => rw [← take_append_drop (stop - start) (rows.drop start)]
        rw [drop_drop, Nat.add_sub_cancel' (by omega)]
      have hmk : ∀ selectors, mask ((if cursor < start then [.skip (start - cursor)] else []) ++
          (if index.mayContain page values then .select (stop - start) else .skip (stop - start)) ::
            selectors) = List.replicate (start - cursor) false ++
              (List.replicate (stop - start) (index.mayContain page values) ++ mask selectors) := by
        intro selectors
        rw [mask, flatMap_append, flatMap_cons]
        congr 1
        · split_ifs with hlt
          · simp
          · simp [Nat.sub_eq_zero_of_le (not_lt.1 hlt)]
        · cases index.mayContain page values <;> rfl
      rw [hmk, hs]
      refine rel_append (forall₂_replicate (by simp; omega) fun row hr ht ↦ ?_)
        (rel_append (forall₂_replicate (by simp; omega) fun row hr ↦ hpg row hr) hre)
      rw [hg row hr] at ht
      cases ht

theorem filter_applySelection (h : List.Forall₂ (Kept hit) (mask selectors) rows) :
    (applySelection selectors rows).filter hit = rows.filter hit := by
  induction selectors generalizing rows with
  | nil =>
    rw [forall₂_nil_left_iff.1 h]
    rfl
  | cons selector selectors ih =>
    rw [mask, flatMap_cons] at h
    have hf := forall₂_take_append _ _ _ h.flip
    have hre := (forall₂_drop_append _ _ _ h.flip).flip
    cases selector with
    | select n =>
      simp only [length_replicate] at hre
      rw [applySelection, filter_append, ih hre, ← filter_append, take_append_drop]
    | skip n =>
      simp only [length_replicate] at hf hre
      have hnone : (rows.take n).filter hit = [] := by
        refine filter_eq_nil_iff.2 fun row hr ht ↦ ?_
        obtain ⟨read, hrd, hkt⟩ := Pairing.exists_right hf hr
        cases (eq_of_mem_replicate hrd).symm.trans (hkt ht)
      conv_rhs => rw [← take_append_drop n rows, filter_append, hnone]
      exact ih hre

theorem mask_select (n : ℕ) : mask (if 0 < n then [.select n] else []) = List.replicate n true := by
  split_ifs with hp
  · simp [mask]
  · simp [mask, Nat.eq_zero_of_not_pos hp]

theorem length_mask_selectors (h : g.selectors values = .ok selectors) :
    (mask selectors).length = g.rows.length := by
  rw [RowGroup.selectors] at h
  cases hp : g.pages with
  | none =>
    rw [hp] at h
    cases h
    rw [mask_select, length_replicate]
  | some index =>
    rw [hp] at h
    have hkt : List.Forall₂ (Kept fun _ ↦ false) (mask selectors) (g.rows.drop 0) :=
      kept_pageSelectors h (Nat.zero_le _) (fun _ _ ↦ rfl) nofun
    exact hkt.length_eq

theorem length_mask_flatten {selectors : List (List RowSelector)}
    (h : groups.mapM (RowGroup.selectors values) = .ok selectors) :
    (mask selectors.flatten).length = (groups.flatMap RowGroup.rows).length := by
  induction groups generalizing selectors with
  | nil =>
    cases h
    rfl
  | cons g groups ih =>
    rw [mapM_cons] at h
    obtain ⟨first, hf, h⟩ := bind_eq_ok_iff.1 h
    obtain ⟨rest, hre, ⟨⟩⟩ := bind_eq_ok_iff.1 h
    rw [flatten_cons, flatMap_cons, mask, flatMap_append, length_append, length_append]
    exact congrArg₂ (· + ·) (length_mask_selectors hf) (ih hre)

theorem exists_selectors (hsd : ∀ index, g.pages = some index → index.Sound array g.rows)
    (hh : ∀ row, hit row = true → ∃ literal ∈ values, ∃ target, Reads literal target ∧
      physical row array = some target) :
    ∃ selectors, g.selectors values = .ok selectors ∧
      List.Forall₂ (Kept hit) (mask selectors) g.rows := by
  rw [RowGroup.selectors]
  cases hp : g.pages with
  | none =>
    refine ⟨_, rfl, ?_⟩
    rw [mask_select]
    exact forall₂_replicate rfl fun _ _ _ ↦ rfl
  | some index =>
    have hd := hsd index hp
    obtain ⟨selectors, hs⟩ :=
      exists_pageSelectors index g.index values 0 0 index.firstRows hd.sorted
    refine ⟨selectors, hs, kept_pageSelectors hs (Nat.zero_le _) ?_ ?_⟩
    · simp [hd.first]
    · intro i start hi row hr htrue
      obtain ⟨literal, hl, target, hrd, ht⟩ := hh row htrue
      obtain ⟨hn, hbs⟩ := hd.encloses i start hi row hr target ht
      rw [Nat.zero_add]
      exact PageIndex.mayContain_eq_true hl hrd hn hbs

theorem exists_mapM_selectors
    (hsd : ∀ g ∈ groups, ∀ index, g.pages = some index → index.Sound array g.rows)
    (hh : ∀ row, hit row = true → ∃ literal ∈ values, ∃ target, Reads literal target ∧
      physical row array = some target) :
    ∃ selectors, groups.mapM (RowGroup.selectors values) = .ok selectors ∧
      List.Forall₂ (Kept hit) (mask selectors.flatten) (groups.flatMap RowGroup.rows) := by
  induction groups with
  | nil => exact ⟨[], rfl, .nil⟩
  | cons g groups ih =>
    obtain ⟨hg, hgs⟩ := forall_mem_cons.1 hsd
    obtain ⟨first, hf, hkt⟩ := exists_selectors hg hh
    obtain ⟨rest, hre, hkt'⟩ := ih hgs
    refine ⟨first :: rest, ?_, ?_⟩
    · rw [mapM_cons, hf, hre]
      rfl
    · rw [flatten_cons, flatMap_cons, mask, flatMap_append]
      exact rel_append hkt hkt'

end Selection

section Read

variable {R : Type*} {seg : Segment R} {literal : String} {target : Physical} {hit : R → Bool}
  {rows : List R} {g : RowGroup R} {groups : List (RowGroup R)} {array : ArrowArray R}
  {values : List String}

theorem filter_flatMap_filter {keep : RowGroup R → Bool}
    (h : ∀ g ∈ groups, keep g = false → g.rows.filter hit = []) :
    ((groups.filter keep).flatMap RowGroup.rows).filter hit =
      (groups.flatMap RowGroup.rows).filter hit := by
  induction groups with
  | nil => rfl
  | cons g groups ih =>
    obtain ⟨hg, hgs⟩ := forall_mem_cons.1 h
    rw [filter_cons, flatMap_cons, filter_append, ← ih hgs]
    split
    · rw [flatMap_cons, filter_append]
    · next hkp => rw [hg (by simpa using hkp), nil_append]

theorem mem_selected (h : g ∈ seg.selected values) :
    g ∈ seg.rowGroups := by
  have hm : ∀ g ∈ seg.selectFromMetadata values, g ∈ seg.rowGroups := by
    intro g hg
    rw [Segment.selectFromMetadata] at hg
    split at hg
    · cases hg
    · exact mem_of_mem_filter hg
  rw [Segment.selected] at h
  split at h
  · exact hm g h
  · exact hm g (mem_of_mem_filter h)

theorem filter_selected (hsd : ∀ g ∈ seg.rowGroups, g.Sound seg.array) (hrd : Reads literal target)
    (hh : ∀ row, hit row = true → physical row seg.array = some target) :
    ((seg.selected [literal]).flatMap RowGroup.rows).filter hit = seg.rows.filter hit := by
  have hm : ((seg.selectFromMetadata [literal]).flatMap RowGroup.rows).filter hit =
      seg.rows.filter hit := by
    rw [Segment.selectFromMetadata, if_neg (cons_ne_nil _ _), Segment.rows]
    refine filter_flatMap_filter fun g hg hkp ↦ ?_
    refine filter_eq_nil_of_missing hh fun row hr ht ↦ ?_
    cases hs : g.statistics with
    | none => simp [hs, rowGroupMayContain] at hkp
    | some statistics =>
      rw [hs, rowGroupMayContain_eq_true mem_cons_self hrd
        ((hsd g hg).statistics statistics hs row hr target ht)] at hkp
      cases hkp
  rw [Segment.selected]
  split
  · exact hm
  · rw [← hm, Segment.refineWithBloom]
    refine filter_flatMap_filter fun g hg hkp ↦ ?_
    refine filter_eq_nil_of_missing hh fun row hr ht ↦ ?_
    have hmem : g ∈ seg.rowGroups := by
      rw [Segment.selectFromMetadata, if_neg (cons_ne_nil _ _)] at hg
      exact mem_of_mem_filter hg
    cases hb : g.bloom with
    | none => simp [hb] at hkp
    | some check =>
      have hc := (hsd g hmem).bloom check hb row hr target ht
      simp [hb, bloomMayContain_eq_true hrd ht hc] at hkp

theorem exists_readPruned (hsd : ∀ g ∈ seg.rowGroups, g.Sound seg.array)
    (hrd : Reads literal target)
    (hh : ∀ row, hit row = true → physical row seg.array = some target) :
    ∃ rows : List R,
      seg.readPruned [literal] = .ok (rows.filter (cellMatches seg.array [literal])) ∧
        rows.filter hit = seg.rows.filter hit := by
  have hs := filter_selected hsd hrd hh
  rw [Segment.readPruned, Segment.rowSelection]
  by_cases hn : seg.selected [literal] = []
  · rw [hn] at hs
    exact ⟨[], by simp [hn, applySelection], hs⟩
  · rw [if_neg (by simpa using hn)]
    split
    · exact ⟨_, rfl, hs⟩
    · obtain ⟨selectors, he, hkt⟩ :=
        exists_mapM_selectors (fun g hg ↦ (hsd g (mem_selected hg)).pages) fun row ht ↦
          ⟨literal, mem_cons_self, target, hrd, hh row ht⟩
      rw [he]
      by_cases hnone : ((seg.selected [literal]).all fun g ↦ g.pages.isNone) = true
      · exact ⟨_, by simp only [Except.map, hnone, if_true, Option.elim], hs⟩
      · exact ⟨_, by simp only [Except.map, hnone, Option.elim]; rfl,
          (filter_applySelection hkt).trans hs⟩

/-- The row has one of the values. -/
def HoldsOne (array : ArrowArray R) (values : List String) (row : R) : Prop :=
  ∃ literal ∈ values, ∃ target, Reads literal target ∧ physical row array = some target

/-- Row `j` of the row group lies in a page. In a row group without a page index every row counts
as such. -/
def RowGroup.InPage (g : RowGroup R) (j : ℕ) : Prop :=
  ∀ index, g.pages = some index → ∃ page start, index.firstRows[page]? = some start ∧
    start ≤ j ∧ j < index.firstRows[page + 1]?.getD g.rows.length

theorem mem_take_drop_range {n start len j : ℕ} :
    j ∈ ((range n).drop start).take len ↔ start ≤ j ∧ j < start + len ∧ j < n := by
  rw [mem_take_iff_getElem]
  constructor
  · rintro ⟨i, hi, rfl⟩
    simp only [length_drop, length_range] at hi
    simp only [getElem_drop, getElem_range]
    omega
  · rintro ⟨hst, hlt, hn⟩
    refine ⟨j - start, ?_, ?_⟩
    · simp only [length_drop, length_range]
      omega
    · simp only [getElem_drop, getElem_range]
      omega

theorem PageIndex.Describes.head_le {index : PageIndex}
    (h : index.Describes array rows) {page start : ℕ} (hp : index.firstRows[page]? = some start) :
    index.firstRows.head?.getD rows.length ≤ start := by
  have hso := h.sorted
  have hmem := mem_of_getElem? hp
  cases hf : index.firstRows with
  | nil => simp [hf] at hmem
  | cons first rest =>
    rw [hf] at hso hmem
    rcases mem_cons.1 hmem with rfl | hmem
    · exact le_rfl
    · exact (pairwise_cons.1 hso).1 start (mem_append_left _ hmem)

theorem mem_page_of_getElem? {j start stop : ℕ} {row : R}
    (hr : rows[j]? = some row) (hst : start ≤ j) (hlt : j < start + (stop - start)) :
    row ∈ (rows.drop start).take (stop - start) := by
  refine mem_of_getElem? (i := j - start) ?_
  rw [getElem?_take_of_lt (by omega), getElem?_drop, Nat.add_sub_cancel' hst, hr]

/-- The selectors depend on the number of rows alone, so what they keep is said of positions: the
positions in front of the first page are skipped, and a page that holds a value is read. -/
theorem exists_selectors_inPage
    (hsd : ∀ index, g.pages = some index → index.Describes array g.rows) :
    ∃ selectors, g.selectors values = .ok selectors ∧ ∀ (j : ℕ) (row : R), g.rows[j]? = some row →
      g.InPage j → HoldsOne array values row → (mask selectors)[j]? = some true := by
  classical
  rw [RowGroup.selectors]
  cases hp : g.pages with
  | none =>
    refine ⟨_, rfl, fun j row hr _ _ ↦ ?_⟩
    obtain ⟨hj, -⟩ := List.getElem?_eq_some_iff.1 hr
    rw [mask_select, getElem?_replicate, if_pos hj]
  | some index =>
    have hd := hsd index hp
    obtain ⟨selectors, hs⟩ :=
      exists_pageSelectors index g.index values 0 0 index.firstRows hd.sorted
    let hit : ℕ → Bool := fun j ↦ decide (g.InPage j ∧ ∃ row, g.rows[j]? = some row ∧
      HoldsOne array values row)
    have hkt : List.Forall₂ (Kept hit) (mask selectors) ((range g.rows.length).drop 0) := by
      refine kept_pageSelectors (by rwa [length_range]) (Nat.zero_le _) ?_ ?_
      · intro j hj
        refine decide_eq_false fun hh ↦ ?_
        obtain ⟨page, start, hst, hle, -⟩ := hh.1 index hp
        have hhd := hd.head_le hst
        rw [length_range, mem_take_drop_range] at hj
        omega
      · intro i start hi j hj ht
        obtain ⟨-, row, hr, literal, hl, target, hrd, htg⟩ := of_decide_eq_true ht
        rw [length_range, mem_take_drop_range] at hj
        obtain ⟨hn, hbs⟩ :=
          hd.encloses i start hi row (mem_page_of_getElem? hr hj.1 hj.2.1) target htg
        rw [Nat.zero_add]
        exact PageIndex.mayContain_eq_true hl hrd hn hbs
    refine ⟨selectors, hs, fun j row hr hin hh ↦ ?_⟩
    obtain ⟨hj, -⟩ := List.getElem?_eq_some_iff.1 hr
    have hj' : j < (mask selectors).length := by
      rw [hkt.length_eq]
      simpa using hj
    refine List.getElem?_eq_some_iff.2 ⟨hj', hkt.get hj' (by simpa using hj) ?_⟩
    exact decide_eq_true (by simpa using ⟨hin, row, hr, hh⟩)

theorem exists_mapM_selectors_inPage
    (hsd : ∀ g ∈ groups, ∀ index, g.pages = some index → index.Describes array g.rows) :
    ∃ selectors, groups.mapM (RowGroup.selectors values) = .ok selectors ∧
      ∀ before g after, groups = before ++ g :: after →
        ∀ (j : ℕ) (row : R), g.rows[j]? = some row → g.InPage j → HoldsOne array values row →
          (mask selectors.flatten)[(before.flatMap RowGroup.rows).length + j]? = some true := by
  induction groups with
  | nil => exact ⟨[], rfl, fun before g after h ↦ by simp at h⟩
  | cons g₀ groups ih =>
    obtain ⟨hg, hgs⟩ := forall_mem_cons.1 hsd
    obtain ⟨first, hf, hat⟩ := exists_selectors_inPage hg
    obtain ⟨rest, hre, hats⟩ := ih hgs
    refine ⟨first :: rest, ?_, fun before g after h j row hr hin hh ↦ ?_⟩
    · rw [mapM_cons, hf, hre]
      rfl
    · rw [flatten_cons, mask, flatMap_append]
      cases before with
      | nil =>
        obtain ⟨rfl, rfl⟩ := cons.inj h
        have hm := hat j row hr hin hh
        obtain ⟨hj, -⟩ := List.getElem?_eq_some_iff.1 hm
        rw [flatMap_nil, length_nil, Nat.zero_add]
        exact (getElem?_append_left hj).trans hm
      | cons g₁ before =>
        obtain ⟨rfl, rfl⟩ := cons.inj h
        have hm := hats before g after rfl j row hr hin hh
        have hl : (mask first).length = g₀.rows.length := length_mask_selectors hf
        rw [flatMap_cons, length_append, Nat.add_assoc, ← hl]
        exact (getElem?_append_right (Nat.le_add_right _ _)).trans
          (by rw [Nat.add_sub_cancel_left]; exact hm)

/-- **The runs of a row selection** are the rows of the row groups one after another, and every row
of a page that has one of the values, and every such row of a row group without an index, is in a
run that is read. Only rows in front of a row group's first page are in no page. -/
theorem rowSelection_covers (seg : Segment R) {values : List String} (hvalues : values ≠ [])
    (groups : List (RowGroup R)) :
    (∀ selectors, seg.rowSelection values groups = .ok (some selectors) →
      (mask selectors).length = (groups.flatMap RowGroup.rows).length) ∧
    ((∀ g ∈ groups, ∀ index, g.pages = some index → index.Describes seg.array g.rows) →
      ∃ selection, seg.rowSelection values groups = .ok selection ∧
        ∀ selectors, selection = some selectors →
          ∀ before g after, groups = before ++ g :: after →
            ∀ (j : ℕ) (row : R), g.rows[j]? = some row → g.InPage j →
              HoldsOne seg.array values row →
                (mask selectors)[(before.flatMap RowGroup.rows).length + j]? = some true) := by
  rw [Segment.rowSelection]
  split_ifs with hn hd hnone
  · obtain rfl := hn.resolve_left hvalues
    refine ⟨fun selectors h ↦ ?_, fun _ ↦ ⟨_, rfl, fun selectors _ before g after h ↦ by simp at h⟩⟩
    obtain rfl := Option.some.inj (ok.inj h)
    rfl
  · exact ⟨fun _ h ↦ (nomatch h), fun _ ↦ ⟨none, rfl, fun _ h ↦ nomatch h⟩⟩
  · refine ⟨fun selectors h ↦ ?_, fun hsd ↦ ?_⟩
    · obtain ⟨_, -, ⟨⟩⟩ := map_eq_ok_iff.1 h
    · obtain ⟨selectors, hs, -⟩ := exists_mapM_selectors_inPage hsd
      exact ⟨none, by rw [hs]; rfl, nofun⟩
  · refine ⟨fun selectors h ↦ ?_, fun hsd ↦ ?_⟩
    · obtain ⟨_, hs, ⟨⟩⟩ := map_eq_ok_iff.1 h
      exact length_mask_flatten hs
    · obtain ⟨selectors, hs, hat⟩ := exists_mapM_selectors_inPage hsd
      refine ⟨_, by rw [hs]; rfl, fun selectors h ↦ ?_⟩
      cases h
      exact hat

end Read

/-! ### Keys of a column's type -/

def storedForm : SortKeyValue → Option Physical
  | .bool flag => some (.boolean flag)
  | .int2 n => some (.int32 n.toInt)
  | .int4 n => some (.int32 n.toInt)
  | .int8 n => some (.int64 n.toInt)
  | .date n => some (.int32 (pgDaysToUnix n).toInt)
  | .timestamp n | .timestamptz n => some (.int64 (pgMicrosToUnix n).toInt)
  | .uuid u => some (.byteArray u.text)
  | .text _ | .numeric _ => none

def OfType {R : Type*} : SortKeyValue → ArrowArray R → Prop
  | .bool _, .boolean _ | .int2 _, .int16 _ | .int4 _, .int32 _ | .int8 _, .int64 _ => True
  | .date _, .date32 _ | .uuid _, .utf8 _ => True
  | .timestamp _, .timestampMicrosecond _ | .timestamptz _, .timestampMicrosecond _ => True
  | _, _ => False

def Compared : SortKeyValue → Prop
  | .bool _ | .int2 _ | .int4 _ | .int8 _ | .uuid _ => True
  | _ => False

def keyMatches {R : Type*} (array : ArrowArray R) (value : SortKeyValue) (row : R) : Bool :=
  decide (physical row array = storedForm value ∧ storedForm value ≠ none)

section Types

variable {R : Type*} {array : ArrowArray R} {value : SortKeyValue} {literal : String}

theorem parseI16_intText (n : Int16) : parseI16 (intText n.toInt) = some n.toInt :=
  toOption_eq_some_iff.2
    (parseInt_intText (Int16.le_toInt n) (Int.le_sub_one_of_lt (Int16.toInt_lt n)))

theorem parseI32_intText (n : Int32) : parseI32 (intText n.toInt) = some n.toInt :=
  toOption_eq_some_iff.2
    (parseInt_intText (Int32.le_toInt n) (Int.le_sub_one_of_lt (Int32.toInt_lt n)))

theorem parseI64_intText (n : Int64) : parseI64 (intText n.toInt) = some n.toInt :=
  toOption_eq_some_iff.2
    (parseInt_intText (Int64.le_toInt n) (Int.le_sub_one_of_lt (Int64.toInt_lt n)))

theorem parseI32_intText_int16 (n : Int16) : parseI32 (intText n.toInt) = some n.toInt := by
  have hlo := Int16.le_toInt n
  have hhi := Int16.toInt_lt n
  exact toOption_eq_some_iff.2 (parseInt_intText (by omega) (by omega))

theorem exists_reads (hl : probeLiteral value = some literal) :
    ∃ target, storedForm value = some target ∧ Reads literal target := by
  cases value with
  | bool flag =>
    cases hl
    exact ⟨_, rfl, by cases flag <;> rfl⟩
  | int2 n =>
    cases hl
    exact ⟨_, rfl, parseI32_intText_int16 n⟩
  | int4 _ | date _ =>
    cases hl
    exact ⟨_, rfl, parseI32_intText _⟩
  | int8 _ | timestamp _ | timestamptz _ =>
    cases hl
    exact ⟨_, rfl, parseI64_intText _⟩
  | uuid u =>
    cases hl
    exact ⟨_, rfl, rfl⟩
  | text _ | numeric _ => cases hl

theorem spec_of_eq {a b : Bool} {p : Prop} (h : a = b) : (b = true → a = true) ∧ (p → a = b) :=
  ⟨h.trans, fun _ ↦ h⟩

theorem cellMatches_spec (hty : OfType value array) (hl : probeLiteral value = some literal)
    (row : R) : (keyMatches array value row = true → cellMatches array [literal] row = true) ∧
      (Compared value → cellMatches array [literal] row = keyMatches array value row) := by
  cases value <;> cases array <;> first | exact hty.elim | cases hl
  case bool.boolean flag cell =>
    refine spec_of_eq ?_
    cases hc : cell row with
    | none => simp [cellMatches, keyMatches, physical, storedForm, ArrowArray.isNull, hc]
    | some actual =>
      cases flag <;> cases actual <;>
        simp [cellMatches, keyMatches, physical, storedForm, ArrowArray.isNull, hc]
  case int2.int16 n cell | int4.int32 n cell | int8.int64 n cell | uuid.utf8 n cell =>
    refine spec_of_eq ?_
    cases hc : cell row with
    | none => simp [cellMatches, keyMatches, physical, storedForm, ArrowArray.isNull, hc]
    | some m =>
      simp [cellMatches, keyMatches, physical, storedForm, ArrowArray.isNull, hc,
        parseI16_intText, parseI32_intText, parseI64_intText, eq_comm]
  -- dates and timestamps are kept unless they are null
  case date.date32 n cell | timestamp.timestampMicrosecond n cell
    | timestamptz.timestampMicrosecond n cell =>
    refine ⟨fun h ↦ ?_, False.elim⟩
    cases hc : cell row with
    | none => simp [keyMatches, physical, storedForm, hc] at h
    | some m => simp [cellMatches, ArrowArray.isNull, hc]

end Types

/-! ### Lookups -/

theorem exists_predicate {predicates : List (SegmentPrunePredicate SortKeyValue)}
    {primaryKeyColumns : List ColumnRef} {column : ColumnRef} {values : List String}
    (h : pkEqualityValues predicates primaryKeyColumns = some (column, values)) :
    primaryKeyColumns = [column] ∧ ∃ predicate ∈ predicates, ∃ value literal,
      predicate.columnId = column.columnId ∧ predicate.min = some value ∧
        predicate.max = some value ∧ probeLiteral value = some literal ∧ values = [literal] := by
  unfold pkEqualityValues at h
  split at h
  · next pk =>
    obtain ⟨predicate, hp, h⟩ := Option.bind_eq_some_iff.1 h
    obtain ⟨value, hv, h⟩ := Option.bind_eq_some_iff.1 h
    obtain ⟨literal, hl, ⟨⟩⟩ := Option.map_eq_some_iff.1 h
    have hte := find?_some hp
    simp only [Bool.and_eq_true, decide_eq_true_eq] at hte
    exact ⟨rfl, predicate, mem_of_find?_eq_some hp, value, literal, hte.1.1.1,
      hv, hte.2 ▸ hv, hl, rfl⟩
  · cases h

/-- **A lookup loses no row.** -/
theorem lookup_eq_filter {R : Type*} (seg : Segment R)
    (hsound : ∀ g ∈ seg.rowGroups, g.Sound seg.array)
    {predicates : List (SegmentPrunePredicate SortKeyValue)} {primaryKeyColumns : List ColumnRef}
    {column : ColumnRef} {values : List String}
    (hprobe : pkEqualityValues predicates primaryKeyColumns = some (column, values)) :
    ∃ predicate ∈ predicates, ∃ value, predicate.columnId = column.columnId ∧
      predicate.min = some value ∧ predicate.max = some value ∧
      (OfType value seg.array → ∃ rows, seg.readPruned values = .ok rows ∧
        rows.filter (keyMatches seg.array value) = seg.rows.filter (keyMatches seg.array value) ∧
        (Compared value → rows = seg.rows.filter (keyMatches seg.array value))) := by
  obtain ⟨-, predicate, hmem, value, literal, hc, hmin, hm, hl, rfl⟩ := exists_predicate hprobe
  refine ⟨predicate, hmem, value, hc, hmin, hm, fun hty ↦ ?_⟩
  obtain ⟨target, hs, hrd⟩ := exists_reads hl
  have hh : ∀ row, keyMatches seg.array value row = true →
      physical row seg.array = some target := by
    intro row hr
    exact (of_decide_eq_true hr).1.trans hs
  obtain ⟨rows, hread, hf⟩ := exists_readPruned hsound hrd hh
  refine ⟨_, hread, ?_, fun ho ↦ ?_⟩
  · rw [← hf, filter_filter]
    refine filter_congr fun row _ ↦ ?_
    have hkp := (cellMatches_spec hty hl row).1
    cases hk : keyMatches seg.array value row with
    | false => rfl
    | true => rw [hkp hk, Bool.and_true]
  · rw [← hf]
    exact filter_congr fun row _ ↦ (cellMatches_spec hty hl row).2 ho

section Segments

def plainGroup (index : ℕ) (rows : List ℤ) (min max : ℤ) : RowGroup ℤ where
  index := index
  rows := rows
  statistics := some (.int64 (some min) (some max))
  bloom := none
  pages := none

def numberSegment : Segment ℤ where
  array := .int64 fun n ↦ some (.ofInt n)
  rowGroups :=
    [{ index := 0
       rows := [1, 2, 3, 4]
       statistics := some (.int64 (some 1) (some 4))
       bloom := some fun p ↦ decide (p ∈ [.int64 1, .int64 2, .int64 3, .int64 4])
       pages := some
        { firstRows := [0, 2]
          nullPage := fun _ ↦ false
          bounds := fun page ↦
            if page = 0 then .int64 (some 1) (some 2) else .int64 (some 3) (some 4) } },
      plainGroup 1 [2, 9] 2 9]
  hasPageIndex := true

def equality (value : SortKeyValue) : SegmentPrunePredicate SortKeyValue :=
  ⟨1, "id", some value, some value⟩

theorem between_of_mem {rows : List ℤ} {lo hi : ℤ}
    (h : ∀ row ∈ rows, lo ≤ (Int64.ofInt row).toInt ∧ (Int64.ofInt row).toInt ≤ hi) {row : ℤ}
    (hr : row ∈ rows) {p : Physical} (hp : physical row numberSegment.array = some p) :
    (Statistics.int64 (some lo) (some hi)).Encloses p := by
  cases hp
  rintro _ _ ⟨⟩ ⟨⟩
  exact h row hr

theorem numberSegment_sound : ∀ g ∈ numberSegment.rowGroups, g.Sound numberSegment.array := by
  refine forall_mem_cons.2 ⟨⟨?_, ?_, ?_⟩, forall_mem_singleton.2 ⟨?_, ?_, ?_⟩⟩
  · rintro _ ⟨⟩ row hr p hp
    exact between_of_mem (by decide +kernel) hr hp
  · rintro _ ⟨⟩ row hr p hp
    cases hp
    revert row
    decide +kernel
  · rintro _ ⟨⟩
    refine ⟨⟨by decide, fun page start hst row hr p hp ↦ ⟨rfl, ?_⟩⟩, rfl⟩
    rcases page with _ | _ | page
    · cases hst
      exact between_of_mem (by decide +kernel) hr hp
    · cases hst
      exact between_of_mem (by decide +kernel) hr hp
    · simp at hst
  · rintro _ ⟨⟩ row hr p hp
    exact between_of_mem (by decide +kernel) hr hp
  · rintro _ ⟨⟩
  · rintro _ ⟨⟩

/-- A row group whose first page starts at its second row, with an empty page, and a row group
without an index. -/
def gappedGroups : List (RowGroup ℤ) :=
  [{ index := 0
     rows := [7, 1, 2, 5, 6]
     statistics := none
     bloom := none
     pages := some
      { firstRows := [1, 3, 3]
        nullPage := fun _ ↦ false
        bounds := fun page ↦
          if page = 0 then .int64 (some 1) (some 2) else .int64 (some 5) (some 6) } },
    plainGroup 1 [2, 9] 2 9]

theorem gappedGroups_describes : ∀ g ∈ gappedGroups, ∀ index, g.pages = some index →
    index.Describes numberSegment.array g.rows := by
  refine forall_mem_cons.2 ⟨?_, forall_mem_singleton.2 (by rintro _ ⟨⟩)⟩
  rintro _ ⟨⟩
  refine ⟨by decide, fun page start hst row hr p hp ↦ ⟨rfl, ?_⟩⟩
  rcases page with _ | _ | _ | page
  · cases hst
    exact between_of_mem (by decide +kernel) hr hp
  · cases hst
    simp at hr
  · cases hst
    exact between_of_mem (by decide +kernel) hr hp
  · simp at hst

/-- The values 2 and 6: the gap and nothing else is skipped, and the 2 of the second row group is
read at its offset 5. -/
theorem rowSelection_covers_gap :
    numberSegment.rowSelection ["2", "6"] gappedGroups =
      .ok (some [.skip 1, .select 2, .select 2, .select 2]) ∧
    (mask [.skip 1, .select 2, .select 2, .select 2]).length = 7 ∧
    (mask [.skip 1, .select 2, .select 2, .select 2])[5]? = some true := by
  have he : numberSegment.rowSelection ["2", "6"] gappedGroups =
      .ok (some [.skip 1, .select 2, .select 2, .select 2]) := by decide +kernel
  obtain ⟨hl, hc⟩ := rowSelection_covers numberSegment (cons_ne_nil "2" ["6"]) gappedGroups
  obtain ⟨selection, hok, hat⟩ := hc gappedGroups_describes
  obtain rfl := ok.inj (he.symm.trans hok)
  have hh : HoldsOne numberSegment.array ["2", "6"] 2 :=
    ⟨"2", mem_cons_self, .int64 2, show parseI64 "2" = some 2 by decide +kernel,
      by decide +kernel⟩
  exact ⟨he, hl _ he, hat _ rfl [_] (plainGroup 1 [2, 9] 2 9) [] rfl 0 2 rfl (by rintro _ ⟨⟩) hh⟩

/-- For no values the selection is empty. -/
theorem rowSelection_of_no_values :
    numberSegment.rowSelection [] numberSegment.rowGroups = .ok (some []) ∧
      (mask []).length ≠ numberSegment.rows.length :=
  ⟨rfl, by decide⟩

theorem lookup_eq_filter_two_groups :
    numberSegment.readPruned ["2"] = .ok [2, 2] ∧
      ∃ rows, numberSegment.readPruned ["2"] = .ok rows ∧
        rows = numberSegment.rows.filter (keyMatches numberSegment.array (.int8 2)) := by
  refine ⟨by decide +kernel, ?_⟩
  have hp : pkEqualityValues [equality (.int8 2)] [⟨1, "id"⟩] = some (⟨1, "id"⟩, ["2"]) := by
    decide +kernel
  obtain ⟨predicate, hmem, value, -, hm, -, hrd⟩ :=
    lookup_eq_filter numberSegment numberSegment_sound hp
  obtain rfl := mem_singleton.1 hmem
  cases hm
  obtain ⟨rows, hrs, -, hex⟩ := hrd trivial
  exact ⟨rows, hrs, hex trivial⟩

def daySegment : Segment ℤ where
  array := .date32 fun n ↦ some (.ofInt n)
  rowGroups := [⟨0, [10958, 10960], some (.int32 (some 10958) (some 10960)), none, none⟩,
      ⟨1, [10970], some (.int32 (some 10970) (some 10970)), none, none⟩]
  hasPageIndex := false

theorem daySegment_sound : ∀ g ∈ daySegment.rowGroups, g.Sound daySegment.array := by
  refine forall_mem_cons.2 ⟨⟨?_, ?_, ?_⟩, forall_mem_singleton.2 ⟨?_, ?_, ?_⟩⟩
  · rintro _ ⟨⟩ row hr p hp
    cases hp
    rintro _ _ ⟨⟩ ⟨⟩
    revert row
    decide +kernel
  · rintro _ ⟨⟩
  · rintro _ ⟨⟩
  · rintro _ ⟨⟩ row hr p hp
    cases hp
    rintro _ _ ⟨⟩ ⟨⟩
    revert row
    decide +kernel
  · rintro _ ⟨⟩
  · rintro _ ⟨⟩

theorem day_lookup_keeps_others : (∀ g ∈ daySegment.rowGroups, g.Sound daySegment.array) ∧
    pkEqualityValues [equality (.date 1)] [⟨1, "id"⟩] = some (⟨1, "id"⟩, ["10958"]) ∧
    daySegment.readPruned ["10958"] = .ok [10958, 10960] ∧
    daySegment.rows.filter (keyMatches daySegment.array (.date 1)) = [10958] ∧
    daySegment.rows.filter (cellMatches daySegment.array ["10958"]) = [10958, 10960, 10970] :=
  ⟨daySegment_sound, by decide +kernel, by decide +kernel, by decide +kernel, by decide +kernel⟩

end Segments

end Koldstore.PkProbe
