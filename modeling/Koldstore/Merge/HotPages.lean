import Koldstore.Merge.PrimaryKey

/-!
# Paging the hot heap

The key of a page's last row goes through JSON into the condition of the next page's query: the
server prints each column as JSON, `PkValue::new` folds numbers whose nearest double is whole, and
the server reads the literal again. Folding is the only step that can change a value, so keys with
no such number come back (`returns_of_keeps`), and paging is `Keyset.readPages`.
-/

namespace Koldstore.HotPages

open List PrimaryKey Except

def pkJsonValueSqlLiteral : Json → Except String String
  | .null => .error "primary-key value for keyset paging cannot be null"
  | .bool flag => .ok (if flag then "TRUE" else "FALSE")
  | .number d => .ok (String.ofList d.chars)
  | .string text =>
    .ok ("'" ++ String.ofList (text.toList.flatMap fun c ↦ if c = '\'' then [c, c] else [c]) ++ "'")

/-- A key column. PostgreSQL prints a value as JSON and reads a literal as a value; it reads what it
has printed, and an integer literal as the number it is. -/
structure KeyColumn (V : Type*) where
  name : String
  toJson : V → Json
  read : String → Option V
  toJson_ne_null : ∀ v, toJson v ≠ .null
  read_literal : ∀ {v literal}, pkJsonValueSqlLiteral (toJson v) = .ok literal →
    read literal = some v
  read_ofInt : ∀ {v d} {n : ℤ}, toJson v = .number d → d.value = n →
    read (String.ofList (Decimal.ofInt n).chars) = some v

/-- The value is not a number with a point whose nearest double is another number, whole and below
`wholeLimit`. -/
def KeyColumn.Keeps {V : Type*} (column : KeyColumn V) (v : V) : Prop :=
  ∀ d (n : ℤ), column.toJson v = .number d → d.fraction ≠ [] →
    Binary64.nearest d.value = some (n : ℚ) → |(n : ℚ)| < wholeLimit → d.value = n

variable {V R : Type*}

/-- `keyset_after_predicate` after its check of the arity: the literals compared with the columns,
as PostgreSQL reads them. -/
def keysetValues : List (KeyColumn V) → List (String × PkValue) → Except String (List V)
  | expected :: columns, (column, value) :: after =>
    if expected.name ≠ column then
      .error ("keyset PK order mismatch: expected " ++ expected.name ++ ", got " ++ column)
    else
      (pkJsonValueSqlLiteral value.json).bind fun literal ↦ match expected.read literal with
        | none => .error ("invalid input: " ++ literal)
        | some v => (keysetValues columns after).map (v :: ·)
  | _, _ => .ok []

def keysetAfter (columns : List (KeyColumn V)) (after : LogicalPk) : Except String (List V) :=
  if columns = [] then .error "keyset paging requires a primary key"
  else if after.columns.length ≠ columns.length then
    .error ("keyset PK arity mismatch: expected " ++ toString columns.length ++ ", got " ++
      toString after.columns.length)
  else keysetValues columns after.columns

/-- `LogicalPk::from_json_object` of the object of a row's key. -/
def rowPk (columns : List (KeyColumn V)) (key : List V) : Except String LogicalPk :=
  ((columns.zip key).mapM fun x ↦ (PkValue.new (x.1.toJson x.2)).map (Prod.mk x.1.name)).bind
    LogicalPk.new

/-- The condition of the next page's query. -/
def pageCursor (columns : List (KeyColumn V)) : Option LogicalPk → Except String (Option (List V))
  | none => .ok none
  | some after => (keysetAfter columns after).map some

def withPks (columns : List (KeyColumn V)) (key : R → List V) :
    List R → Except String (List (R × LogicalPk))
  | [] => .ok []
  | row :: rows =>
    (rowPk columns (key row)).bind fun pk ↦ (withPks columns key rows).map ((row, pk) :: ·)

/-- The key comes back from the condition of the next page. -/
def Returns (columns : List (KeyColumn V)) (k : List V) : Prop :=
  ∃ pk, rowPk columns k = .ok pk ∧ keysetAfter columns pk = .ok k

theorem KeyColumn.Keeps.read_new {column : KeyColumn V} {v : V} (h : column.Keeps v) :
    ∃ value literal, PkValue.new (column.toJson v) = .ok value ∧
      pkJsonValueSqlLiteral value.json = .ok literal ∧ column.read literal = some v := by
  refine ⟨⟨_, normalizePkNumber_ne_null (column.toJson_ne_null v)⟩, ?_⟩
  simp only [PkValue.new, dif_neg (column.toJson_ne_null v), true_and]
  have hlit : ∀ literal, pkJsonValueSqlLiteral (column.toJson v) = .ok literal →
      column.read literal = some v := fun _ ↦ column.read_literal
  cases hj : column.toJson v with
  | null => exact absurd hj (column.toJson_ne_null v)
  | bool value | string text =>
    rw [hj] at hlit
    exact ⟨_, rfl, hlit _ rfl⟩
  | number d =>
    rcases normalizePkNumber_number d with ⟨n, hn, heq⟩ | ⟨-, heq⟩
    · have hval : d.value = n := by
        rcases readsAs_decimal.1 hn with ⟨-, hval⟩ | ⟨hf, hnear, hlim⟩
        · exact hval
        · exact h d n hj hf hnear hlim
      exact ⟨_, by rw [heq]; rfl, column.read_ofInt hj hval⟩
    · rw [hj] at hlit
      exact ⟨_, by rw [heq]; rfl, hlit _ rfl⟩

theorem exists_keysetValues {columns : List (KeyColumn V)} {k : List V}
    (hlen : k.length = columns.length) (h : ∀ x ∈ columns.zip k, x.1.Keeps x.2) :
    ∃ values : List (String × PkValue),
      ((columns.zip k).mapM fun x ↦ (PkValue.new (x.1.toJson x.2)).map (Prod.mk x.1.name)) =
        .ok values ∧
      values.map Prod.fst = columns.map KeyColumn.name ∧ keysetValues columns values = .ok k := by
  induction columns generalizing k with
  | nil =>
    obtain rfl := length_eq_zero_iff.1 hlen
    exact ⟨[], rfl, rfl, rfl⟩
  | cons column columns ih =>
    obtain ⟨v, k, rfl⟩ := exists_cons_of_length_eq_add_one hlen
    rw [zip_cons_cons] at h ⊢
    obtain ⟨hv, hk⟩ := forall_mem_cons.1 h
    obtain ⟨values, hok, hnm, hks⟩ := ih (by simpa using hlen) hk
    obtain ⟨value, literal, hval, hlit, hrd⟩ := hv.read_new
    refine ⟨(column.name, value) :: values, ?_, by simp [hnm], ?_⟩
    · rw [mapM_cons, hok, hval]
      rfl
    · simp only [keysetValues, ne_eq, not_true_eq_false, if_false, hlit, Except.bind, hks,
        Except.map]
      rw [hrd]

/-- **A key without folded numbers comes back**, whatever the types of its columns. -/
theorem returns_of_keeps {columns : List (KeyColumn V)} (hne : columns ≠ [])
    (hnames : (columns.map KeyColumn.name).Nodup) {k : List V} (hlen : k.length = columns.length)
    (h : ∀ x ∈ columns.zip k, x.1.Keeps x.2) : Returns columns k := by
  obtain ⟨values, hok, hnm, hks⟩ := exists_keysetValues hlen h
  have hl : values.length = columns.length := by simpa using congrArg length hnm
  have hn : values ≠ [] := by
    rintro rfl
    exact hne (length_eq_zero_iff.1 hl.symm)
  refine ⟨⟨values, hn, hnm ▸ hnames⟩, ?_, ?_⟩
  · rw [rowPk, hok, Except.bind, LogicalPk.new, dif_neg hn, dif_pos (hnm ▸ hnames)]
  · rw [keysetAfter, if_neg hne, if_neg (not_not.2 hl), hks]

theorem exists_withPks (columns : List (KeyColumn V)) {key : R → List V} {page : List R}
    (h : ∀ row ∈ page, Returns columns (key row)) :
    ∃ fetched, withPks columns key page = .ok fetched ∧ fetched.map Prod.fst = page ∧
      ∀ x ∈ fetched, pageCursor columns (some x.2) = .ok (some (key x.1)) := by
  induction page with
  | nil => exact ⟨[], rfl, rfl, nofun⟩
  | cons row page ih =>
    obtain ⟨⟨pk, hpk, hrd⟩, hre⟩ := forall_mem_cons.1 h
    obtain ⟨fetched, hok, hfst, hall⟩ := ih hre
    refine ⟨(row, pk) :: fetched, ?_, by rw [map_cons, hfst], forall_mem_cons.2 ⟨?_, hall⟩⟩
    · rw [withPks, hpk, hok]
      rfl
    · rw [pageCursor, hrd]
      rfl

/-! ### Batches -/

structure HotMergeBatchReader where
  afterPk : Option LogicalPk
  exhausted : Bool

variable [LinearOrder V] (columns : List (KeyColumn V)) (batchSize : ℕ) (key : R → List V)
  (rows : List R)

/-- `next_batch`; `rows` are those that pass the pushed-down filters. -/
def nextBatch (r : HotMergeBatchReader) : Except String (Option (List R) × HotMergeBatchReader) :=
  if r.exhausted then .ok (none, r)
  else
    (pageCursor columns r.afterPk).bind fun cursor ↦
      (withPks columns key (Keyset.page key batchSize rows cursor)).map fun fetched ↦
        match fetched.getLast? with
        | none => (none, ⟨r.afterPk, decide (fetched.length < batchSize)⟩)
        | some last =>
          (some (fetched.map Prod.fst), ⟨some last.2, decide (fetched.length < batchSize)⟩)

def readAll : ℕ → HotMergeBatchReader → Except String (List R)
  | 0, _ => .ok []
  | fuel + 1, r =>
    (nextBatch columns batchSize key rows r).bind fun next ↦ match next.1 with
      | none => .ok []
      | some batch => (readAll fuel next.2).map (batch ++ ·)

variable {columns batchSize key rows}

theorem readAll_exhausted (fuel : ℕ) (after : Option LogicalPk) :
    readAll columns batchSize key rows fuel ⟨after, true⟩ = .ok [] := by
  cases fuel <;> rfl

theorem readAll_eq_readPages (h : ∀ row ∈ rows, Returns columns (key row)) {fuel : ℕ}
    {after : Option LogicalPk} {cursor : Option (List V)}
    (hc : pageCursor columns after = .ok cursor) :
    readAll columns batchSize key rows fuel ⟨after, false⟩ =
      .ok (Keyset.readPages key batchSize rows fuel cursor) := by
  induction fuel generalizing after cursor with
  | zero => rfl
  | succ fuel ih =>
    obtain ⟨fetched, hok, hfst, hall⟩ := exists_withPks columns
      fun row (hrow : row ∈ Keyset.page key batchSize rows cursor) ↦
        h row (Keyset.mem_of_mem_page hrow)
    have hlen := congrArg length hfst
    have hlast := congrArg getLast? hfst
    rw [length_map] at hlen
    rw [getLast?_map] at hlast
    rw [readAll, nextBatch, if_neg Bool.false_ne_true, hc, Except.bind, hok, Except.map,
      Keyset.readPages, ← hlast]
    cases hl : fetched.getLast? with
    | none => rfl
    | some last =>
      have hnx := hall last (mem_of_getLast? hl)
      dsimp only [Option.map_some]
      rw [hfst, hlen]
      split_ifs with hsh
      · rw [decide_eq_true hsh]
        dsimp only [Except.bind]
        rw [readAll_exhausted, Except.map, append_nil]
      · rw [decide_eq_false hsh]
        dsimp only [Except.bind]
        rw [ih hnx, Except.map]

/-- Five texts, by their place. -/
def textColumn : KeyColumn (Fin 5) where
  name := "tenant"
  toJson v := .string (["a", "b", "c", "d'", "e"].get v)
  read literal := if literal = "'a'" then some 0 else if literal = "'b'" then some 1
    else if literal = "'c'" then some 2 else if literal = "'d'''" then some 3
    else if literal = "'e'" then some 4 else none
  toJson_ne_null v := by simp
  read_literal := by
    intro v literal h
    cases h
    revert v
    decide +kernel
  read_ofInt := by
    intro v d n h
    cases h

/-- The numbers of `numberColumn`; the third has more digits than a double. -/
def numbers : List Decimal :=
  [.ofInt 4, .ofInt 5, .unsigned 5 (replicate 19 0 ++ [1]), .unsigned 5 [5], .ofInt 6]

/-- Five numbers, by their place. -/
def numberColumn : KeyColumn (Fin 5) where
  name := "id"
  toJson v := .number (numbers.get v)
  read literal := if literal = "4" then some 0 else if literal = "5" then some 1
    else if literal = "5.00000000000000000001" then some 2
    else if literal = "5.5" then some 3 else if literal = "6" then some 4 else none
  toJson_ne_null v := by simp
  read_literal := by
    intro v literal h
    cases h
    revert v
    decide +kernel
  read_ofInt := by
    intro v d n h hv
    obtain rfl := Json.number.inj h
    have hden : (numbers.get v).value.den = 1 := by rw [hv, Rat.den_intCast]
    obtain rfl : (numbers.get v).value.num = n := by rw [hv, Rat.num_intCast]
    revert v
    decide +kernel

end Koldstore.HotPages
