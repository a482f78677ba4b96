import Mathlib

/-!
# Pushing WHERE clauses into the hot page query

The hot page query filters by comparisons taken from the WHERE clause, and the executor rechecks the
clause on what the query returns. A row that a filter wrongly drops is therefore lost for good.

Two things of a comparison do not reach its filter. `hot_var_and_literal` takes the column from
either side, and the operator is then not turned round; and a filter is printed without the
collation of its comparison, so that the server compares in the collation of the column.
-/

namespace Koldstore

open List
open Option (any_some map_eq_some_iff)

/-! ### Expressions -/

structure CatalogColumn where
  name : String
  attnum : ℤ
  typeOid : ℕ
  deriving DecidableEq, Repr

structure QualCatalog where
  scanrelid : ℕ
  columns : List CatalogColumn
  names_nodup : (columns.map CatalogColumn.name).Nodup

inductive BoolExprType
  | and
  | or
  | not
  deriving DecidableEq, Repr

/-- Planner expressions; `other` stands for the rest. -/
inductive Expr (V : Type*)
  | var (varno : ℕ) (varattno : ℤ) (varlevelsup : ℕ) (typeOid : ℕ)
  | const (typeOid : ℕ) (value : Option V)
  | param (isExtern : Bool) (paramId : ℕ) (typeOid : ℕ)
  | relabel (typeOid : ℕ) (arg : Expr V)
  | opExpr (opname : String) (isPgCatalog : Bool) (inputcollid : ℕ) (args : List (Expr V))
  | boolExpr (boolop : BoolExprType) (args : List (Expr V))
  | other (id : ℕ) (typeOid : ℕ)

namespace Expr

variable {V : Type*}

def exprType : Expr V → ℕ
  | var _ _ _ typeOid => typeOid
  | const typeOid _ => typeOid
  | param _ _ typeOid => typeOid
  | relabel typeOid _ => typeOid
  | opExpr _ _ _ _ => 16
  | boolExpr _ _ => 16
  | other _ typeOid => typeOid

def unwrapRelabel : Expr V → Expr V
  | relabel _ arg => arg
  | e => e

end Expr

/-- How values compare in a collation, are printed as literals and read back. A comparison of a
column with a literal that names no collation is made in the column's. -/
structure Postgres (V : Type*) where
  cmp : ℕ → V → V → Ordering
  cmp_swap : ∀ c v w, cmp c w v = (cmp c v w).swap
  collation : CatalogColumn → ℕ
  literalSql : CatalogColumn → V → Option String
  readLiteral : CatalogColumn → String → V
  read_literalSql : ∀ {column v sql}, literalSql column v = some sql → readLiteral column sql = v

/-! ### Filters -/

/-- `hot.column = literal`. -/
structure HotEqualityFilter where
  column : String
  sqlLiteral : String
  deriving DecidableEq, Repr

inductive HotRangeOperator
  | lessThan
  | lessThanOrEqual
  | greaterThan
  | greaterThanOrEqual
  deriving DecidableEq, Repr

/-- `hot.column operator literal`. -/
structure HotRangeFilter where
  column : String
  operator : HotRangeOperator
  sqlLiteral : String
  deriving DecidableEq, Repr

structure ResidualFilters where
  hotEquality : List HotEqualityFilter := []
  hotRange : List HotRangeFilter := []
  deriving DecidableEq, Repr

namespace HotRangeOperator

def sql : HotRangeOperator → String
  | lessThan => "<"
  | lessThanOrEqual => "<="
  | greaterThan => ">"
  | greaterThanOrEqual => ">="

def ofName? (opname : String) : Option HotRangeOperator :=
  if opname = "<" then some lessThan
  else if opname = "<=" then some lessThanOrEqual
  else if opname = ">" then some greaterThan
  else if opname = ">=" then some greaterThanOrEqual
  else none

def reverseRangeOperator : HotRangeOperator → HotRangeOperator
  | lessThan => greaterThan
  | lessThanOrEqual => greaterThanOrEqual
  | greaterThan => lessThan
  | greaterThanOrEqual => lessThanOrEqual

def inclusive : HotRangeOperator → Bool
  | lessThan => false
  | lessThanOrEqual => true
  | greaterThan => false
  | greaterThanOrEqual => true

/-- Whether `v operator w` is true for operands that compare as given. -/
def holds : HotRangeOperator → Ordering → Bool
  | lessThan, o => o.isLT
  | lessThanOrEqual, o => o.isLE
  | greaterThan, o => o.isGT
  | greaterThanOrEqual, o => o.isGE

end HotRangeOperator

section Collect

variable {V : Type*} (pg : Postgres V) (catalog : QualCatalog) (params : List (Option V))

namespace QualCatalog

def columnByAttnum (catalog : QualCatalog) (attnum : ℤ) : Option CatalogColumn :=
  catalog.columns.find? fun column ↦ column.attnum = attnum

/-- Column lookup by name, as the server resolves `hot.name`. -/
def columnByName (catalog : QualCatalog) (name : String) : Option CatalogColumn :=
  catalog.columns.find? fun column ↦ column.name = name

end QualCatalog

def varColumn (e : Expr V) : Option CatalogColumn :=
  match e.unwrapRelabel with
  | .var varno attno levelsup _ =>
    if attno ≤ 0 ∨ levelsup ≠ 0 ∨ varno ≠ catalog.scanrelid then none
    else catalog.columnByAttnum attno
  | _ => none

/-- The value of a constant or a bound external parameter; `some none` is a NULL. -/
def constOrParamDatum (e : Expr V) : Option (Option V) :=
  match e.unwrapRelabel with
  | .const _ value => some value
  | .param isExtern paramId _ => if isExtern ∧ 1 ≤ paramId then params[paramId - 1]? else none
  | _ => none

/-- An integer column accepts literals of its own width or a narrower one. -/
def acceptsIntegerEqualityLiteral (columnOid literalOid : ℕ) : Bool :=
  match columnOid with
  | 20 => literalOid = 21 ∨ literalOid = 23 ∨ literalOid = 20
  | 23 => literalOid = 21 ∨ literalOid = 23
  | 21 => literalOid = 21
  | _ => false

def hotFilterOperandTypesCompatible (column : CatalogColumn) (literalOid : ℕ) : Bool :=
  literalOid = column.typeOid ∨ acceptsIntegerEqualityLiteral column.typeOid literalOid

def typedLiteralSql (e : Expr V) (column : CatalogColumn) : Option (V × String) :=
  match constOrParamDatum params e with
  | some (some v) => (pg.literalSql column v).map fun sql ↦ (v, sql)
  | _ => none

def varThenLiteral (left right : Expr V) : Option (CatalogColumn × V × String) :=
  match varColumn catalog left with
  | some column =>
    if hotFilterOperandTypesCompatible column right.exprType then
      (typedLiteralSql pg params right column).map fun lit ↦ (column, lit)
    else none
  | none => none

def hotVarAndLiteral (left right : Expr V) : Option (CatalogColumn × V × String) :=
  (varThenLiteral pg catalog params left right).or (varThenLiteral pg catalog params right left)

def opExprEqualityFilter : Expr V → Option HotEqualityFilter
  | .opExpr opname isPgCatalog _ [left, right] =>
    if opname = "=" ∧ isPgCatalog then
      (hotVarAndLiteral pg catalog params left right).map fun r ↦ ⟨r.1.name, r.2.2⟩
    else none
  | _ => none

def opExprRangeFilter : Expr V → Option HotRangeFilter
  | .opExpr opname isPgCatalog _ [left, right] =>
    match HotRangeOperator.ofName? opname with
    | none => none
    | some operator =>
      if isPgCatalog then
        match hotVarAndLiteral pg catalog params left right with
        | some r => some ⟨r.1.name, operator, r.2.2⟩
        | none => (hotVarAndLiteral pg catalog params right left).map fun r ↦
            ⟨r.1.name, operator.reverseRangeOperator, r.2.2⟩
      else none
  | _ => none

mutual

/-- Collects the filters of one expression. -/
def collectResidualFilters : Expr V → ResidualFilters → ResidualFilters
  | .opExpr opname isPgCatalog inputcollid args, filters =>
    let e := .opExpr opname isPgCatalog inputcollid args
    { hotEquality := filters.hotEquality ++ (opExprEqualityFilter pg catalog params e).toList
      hotRange := filters.hotRange ++ (opExprRangeFilter pg catalog params e).toList }
  | .boolExpr .and args, filters => collectResidualFiltersList args filters
  | _, filters => filters

def collectResidualFiltersList : List (Expr V) → ResidualFilters → ResidualFilters
  | [], filters => filters
  | e :: es, filters => collectResidualFiltersList es (collectResidualFilters e filters)

end

def residualFilters (qual : List (Expr V)) : ResidualFilters :=
  collectResidualFiltersList pg catalog params qual {}

def pushedFilters (primaryKey : List String) (scopeColumn : Option String)
    (filters : ResidualFilters) : ResidualFilters where
  hotEquality := filters.hotEquality.filter fun f ↦
    decide (f.column ∈ primaryKey ∨ some f.column = scopeColumn)
  hotRange := filters.hotRange.filter fun f ↦ decide (f.column ∈ primaryKey)

end Collect

section Meaning

variable {V : Type*} (pg : Postgres V) (catalog : QualCatalog) (params : List (Option V))

/-- A hot row, by attribute number; `none` is a NULL. -/
abbrev HotRow (V : Type*) := ℤ → Option V

/-- What the executor makes of operands and clauses that are not interpreted here. -/
structure OtherMeaning (V : Type*) where
  scalar : Expr V → HotRow V → Option V
  isTrue : Expr V → HotRow V → Bool

variable (sem : OtherMeaning V) (row : HotRow V)

def Expr.scalar : Expr V → Option V
  | .var varno attno levelsup typeOid =>
    if attno ≤ 0 ∨ levelsup ≠ 0 ∨ varno ≠ catalog.scanrelid then
      sem.scalar (.var varno attno levelsup typeOid) row
    else row attno
  | .const _ value => value
  | .param isExtern paramId typeOid =>
    if isExtern ∧ 1 ≤ paramId then params[paramId - 1]?.join
    else sem.scalar (.param isExtern paramId typeOid) row
  | .relabel _ arg => arg.scalar
  | e => sem.scalar e row

def opExprIsTrue (opname : String) (isPgCatalog : Bool) (inputcollid : ℕ) (args : List (Expr V)) :
    Bool :=
  match args with
  | [left, right] =>
    if isPgCatalog ∧ (opname = "=" ∨ (HotRangeOperator.ofName? opname).isSome) then
      match left.scalar catalog params sem row, right.scalar catalog params sem row with
      | some v, some w =>
        if opname = "=" then (pg.cmp inputcollid v w).isEq
        else (HotRangeOperator.ofName? opname).any fun operator ↦
          operator.holds (pg.cmp inputcollid v w)
      | _, _ => false
    else sem.isTrue (.opExpr opname isPgCatalog inputcollid args) row
  | _ => sem.isTrue (.opExpr opname isPgCatalog inputcollid args) row

mutual

def Expr.isTrue : Expr V → Bool
  | .opExpr opname isPgCatalog inputcollid args =>
    opExprIsTrue pg catalog params sem row opname isPgCatalog inputcollid args
  | .boolExpr .and args => qualIsTrue args
  | e => sem.isTrue e row

def qualIsTrue : List (Expr V) → Bool
  | [] => true
  | e :: es => e.isTrue && qualIsTrue es

end

/-- The value of `hot.name` next to its literal, compared. -/
def compareHot (name literal : String) : Option Ordering :=
  match catalog.columnByName name with
  | some column =>
    (row column.attnum).map fun w ↦ pg.cmp (pg.collation column) w (pg.readLiteral column literal)
  | none => none

def ResidualFilters.pass (filters : ResidualFilters) : Bool :=
  (filters.hotEquality.all fun f ↦
      (compareHot pg catalog row f.column f.sqlLiteral).any Ordering.isEq) &&
    filters.hotRange.all fun f ↦
      (compareHot pg catalog row f.column f.sqlLiteral).any f.operator.holds

end Meaning

section Leaves

variable {V : Type*}

mutual

def Expr.leaves : Expr V → List (Expr V)
  | .opExpr opname isPgCatalog inputcollid args => [.opExpr opname isPgCatalog inputcollid args]
  | .boolExpr .and args => leavesList args
  | _ => []

def leavesList : List (Expr V) → List (Expr V)
  | [] => []
  | e :: es => e.leaves ++ leavesList es

end

variable {pg : Postgres V} {catalog : QualCatalog} {params : List (Option V)}

mutual

theorem collectResidualFilters_eq (filters : ResidualFilters) : ∀ e : Expr V,
    collectResidualFilters pg catalog params e filters =
      { hotEquality := filters.hotEquality ++
          e.leaves.filterMap (opExprEqualityFilter pg catalog params)
        hotRange := filters.hotRange ++ e.leaves.filterMap (opExprRangeFilter pg catalog params) }
  | .opExpr opname isPgCatalog inputcollid args => by
    simp only [collectResidualFilters, Expr.leaves, filterMap_cons, filterMap_nil]
    congr 2
  | .boolExpr .and args => collectResidualFiltersList_eq filters args
  | .boolExpr .or _ | .boolExpr .not _ | .var _ _ _ _ | .const _ _ | .param _ _ _ | .relabel _ _
  | .other _ _ => by simp [collectResidualFilters, Expr.leaves]

theorem collectResidualFiltersList_eq (filters : ResidualFilters) : ∀ es : List (Expr V),
    collectResidualFiltersList pg catalog params es filters =
      { hotEquality := filters.hotEquality ++
          (leavesList es).filterMap (opExprEqualityFilter pg catalog params)
        hotRange := filters.hotRange ++
          (leavesList es).filterMap (opExprRangeFilter pg catalog params) }
  | [] => by simp [collectResidualFiltersList, leavesList]
  | e :: es => by
    rw [collectResidualFiltersList, collectResidualFilters_eq filters e,
      collectResidualFiltersList_eq _ es]
    simp [leavesList]

end

variable {sem : OtherMeaning V} {row : HotRow V}

mutual

theorem Expr.isTrue_of_mem_leaves : ∀ {e leaf : Expr V},
    e.isTrue pg catalog params sem row = true → leaf ∈ e.leaves →
      leaf.isTrue pg catalog params sem row = true
  | .opExpr _ _ _ _, _, h, hlf => by
    rw [Expr.leaves, mem_singleton] at hlf
    exact hlf ▸ h
  | .boolExpr .and args, _, h, hlf => isTrue_of_mem_leavesList h hlf
  | .boolExpr .or _, _, _, hlf | .boolExpr .not _, _, _, hlf | .var _ _ _ _, _, _, hlf
  | .const _ _, _, _, hlf | .param _ _ _, _, _, hlf | .relabel _ _, _, _, hlf
  | .other _ _, _, _, hlf => by simp [Expr.leaves] at hlf

theorem isTrue_of_mem_leavesList : ∀ {es : List (Expr V)} {leaf : Expr V},
    qualIsTrue pg catalog params sem row es = true → leaf ∈ leavesList es →
      leaf.isTrue pg catalog params sem row = true
  | [], _, _, hlf => by simp [leavesList] at hlf
  | e :: es, _, h, hlf => by
    rw [qualIsTrue, Bool.and_eq_true] at h
    rw [leavesList, mem_append] at hlf
    rcases hlf with hlf | hlf
    · exact Expr.isTrue_of_mem_leaves h.1 hlf
    · exact isTrue_of_mem_leavesList h.2 hlf

end

/-! ### One comparison -/

variable {column : CatalogColumn}

theorem QualCatalog.columnByName_of_mem (h : column ∈ catalog.columns) :
    catalog.columnByName column.name = some column := by
  rcases hfi : catalog.columnByName column.name with - | found
  · exact absurd (find?_eq_none.1 hfi column h) (by simp)
  · have hnm : found.name = column.name := by simpa using find?_some hfi
    have hmem := mem_of_find?_eq_some hfi
    rw [inj_on_of_nodup_map catalog.names_nodup hmem h hnm]

theorem Expr.scalar_unwrapRelabel (e : Expr V) :
    e.unwrapRelabel.scalar catalog params sem row = e.scalar catalog params sem row := by
  cases e <;> rfl

variable {left right : Expr V}

variable (sem row) in
theorem varThenLiteral_spec {v : V} {sql : String}
    (h : varThenLiteral pg catalog params left right = some (column, v, sql)) :
    left.scalar catalog params sem row = row column.attnum ∧
      right.scalar catalog params sem row = some v ∧
      ∀ o : Ordering → Bool, (compareHot pg catalog row column.name sql).any o =
        (row column.attnum).any fun w ↦ o (pg.cmp (pg.collation column) w v) := by
  rw [varThenLiteral] at h
  split at h
  case h_2 => simp at h
  case h_1 found hf =>
    split_ifs at h
    obtain ⟨⟨v', sql'⟩, hl, heq⟩ := map_eq_some_iff.1 h
    obtain ⟨rfl, rfl, rfl⟩ : found = column ∧ v' = v ∧ sql' = sql := by simpa using heq
    have hc : found ∈ catalog.columns ∧
        left.scalar catalog params sem row = row found.attnum := by
      rw [varColumn] at hf
      split at hf
      case h_2 => simp at hf
      case h_1 varno attno levelsup typeOid hu =>
        split_ifs at hf with hpl
        have ha : found.attnum = attno := by simpa using find?_some hf
        refine ⟨mem_of_find?_eq_some hf, ?_⟩
        rw [← left.scalar_unwrapRelabel, hu, Expr.scalar, if_neg hpl, ha]
    have hv : right.scalar catalog params sem row = some v' ∧
        pg.literalSql found v' = some sql' := by
      rw [typedLiteralSql] at hl
      split at hl
      case h_2 => simp at hl
      case h_1 datum hd =>
        obtain ⟨sql'', hs, heq⟩ := map_eq_some_iff.1 hl
        obtain ⟨rfl, rfl⟩ : datum = v' ∧ sql'' = sql' := by simpa using heq
        refine ⟨?_, hs⟩
        rw [constOrParamDatum] at hd
        split at hd
        case h_1 hu => rw [← right.scalar_unwrapRelabel, hu, Expr.scalar, Option.some.inj hd]
        case h_2 hu =>
          split_ifs at hd with he
          rw [← right.scalar_unwrapRelabel, hu, Expr.scalar, if_pos he, hd]
          rfl
        case h_3 => simp at hd
    refine ⟨hc.2, hv.1, fun o ↦ ?_⟩
    simp only [compareHot, QualCatalog.columnByName_of_mem hc.1,
      pg.read_literalSql hv.2, Option.any_map]

theorem hotVarAndLiteral_eq_none_comm :
    hotVarAndLiteral pg catalog params left right = none ↔
      hotVarAndLiteral pg catalog params right left = none := by
  simp only [hotVarAndLiteral, Option.or_eq_none_iff]
  exact And.comm

variable {leaf : Expr V}

variable {f : HotRangeFilter}

theorem opExprRangeFilter_eq_some (h : opExprRangeFilter pg catalog params leaf = some f) :
    ∃ opname inputcollid left right operator column v sql,
      leaf = .opExpr opname true inputcollid [left, right] ∧
      HotRangeOperator.ofName? opname = some operator ∧
      hotVarAndLiteral pg catalog params left right = some (column, v, sql) ∧
      f = ⟨column.name, operator, sql⟩ := by
  unfold opExprRangeFilter at h
  split at h
  case h_2 => simp at h
  case h_1 opname isPgCatalog inputcollid left right =>
    split at h
    case h_1 => simp at h
    case h_2 operator hnm =>
      split_ifs at h with hc
      subst hc
      split at h
      case h_1 r hr =>
        obtain ⟨column, v, sql⟩ := r
        exact ⟨opname, inputcollid, left, right, operator, column, v, sql, rfl, hnm, hr,
          (Option.some.inj h).symm⟩
      case h_2 hnone =>
        rw [hotVarAndLiteral_eq_none_comm.1 hnone] at h
        simp at h

variable {inputcollid : ℕ}

theorem isTrue_range {opname : String} {operator : HotRangeOperator}
    (hnm : HotRangeOperator.ofName? opname = some operator) :
    (Expr.opExpr opname true inputcollid [left, right]).isTrue pg catalog params sem row =
      (left.scalar catalog params sem row).any fun v ↦
        (right.scalar catalog params sem row).any fun w ↦
          operator.holds (pg.cmp inputcollid v w) := by
  have hne : opname ≠ "=" := by
    rintro rfl
    simp [HotRangeOperator.ofName?] at hnm
  rw [Expr.isTrue]
  simp only [opExprIsTrue, hnm, hne, Option.isSome_some, or_true, and_self, if_true, if_false,
    any_some]
  cases left.scalar catalog params sem row <;> cases right.scalar catalog params sem row <;> rfl

theorem isTrue_equality :
    (Expr.opExpr "=" true inputcollid [left, right]).isTrue pg catalog params sem row =
      (left.scalar catalog params sem row).any fun v ↦
        (right.scalar catalog params sem row).any fun w ↦ (pg.cmp inputcollid v w).isEq := by
  rw [Expr.isTrue]
  simp only [opExprIsTrue, true_or, and_self, if_true]
  cases left.scalar catalog params sem row <;> cases right.scalar catalog params sem row <;> rfl

/-! ### Collations -/

variable (pg catalog params) in
/-- A comparison that is pushed and the comparison in its column's collation agree: an equality on
what is equal, a range comparison on the order. -/
def CollationAgrees : Expr V → Prop
  | .opExpr opname true inputcollid [left, right] =>
    ∀ r, hotVarAndLiteral pg catalog params left right = some r → ∀ v w,
      (opname = "=" →
        (pg.cmp inputcollid v w).isEq = (pg.cmp (pg.collation r.1) v w).isEq) ∧
      (HotRangeOperator.ofName? opname ≠ none →
        pg.cmp inputcollid v w = pg.cmp (pg.collation r.1) v w)
  | _ => True

/-- **Equality filters are sound.** -/
theorem equalityFilter_pass {f : HotEqualityFilter}
    (hco : CollationAgrees pg catalog params leaf)
    (hf : opExprEqualityFilter pg catalog params leaf = some f)
    (hlf : leaf.isTrue pg catalog params sem row = true) :
    (compareHot pg catalog row f.column f.sqlLiteral).any Ordering.isEq = true := by
  unfold opExprEqualityFilter at hf
  split at hf
  case h_2 => simp at hf
  case h_1 opname isPgCatalog left right =>
    split_ifs at hf with hop
    obtain ⟨rfl, rfl⟩ := hop
    obtain ⟨⟨column, v, sql⟩, hr, rfl⟩ := map_eq_some_iff.1 hf
    have heq : ∀ v w, (pg.cmp _ v w).isEq = (pg.cmp (pg.collation column) v w).isEq :=
      fun v w ↦ (hco _ hr v w).1 rfl
    rw [isTrue_equality] at hlf
    simp only [heq] at hlf
    rcases Option.or_eq_some_iff.1 hr with hr | ⟨-, hr⟩
    · obtain ⟨hl, hv, hc⟩ := varThenLiteral_spec sem row hr
      rw [hc]
      rw [hl, hv] at hlf
      simpa using hlf
    · obtain ⟨hl, hv, hc⟩ := varThenLiteral_spec sem row hr
      rw [hc]
      rw [hl, hv] at hlf
      rcases hw : row column.attnum with - | w
      · simp [hw] at hlf
      · rw [hw, any_some, any_some, pg.cmp_swap _ w v] at hlf
        rw [any_some]
        revert hlf
        cases pg.cmp (pg.collation column) w v <;> simp

/-! ### Comparisons with the literal first -/

/-- A range comparison `literal operator column` from the clause. -/
structure LiteralFirst (V : Type*) where
  literal : V
  operator : HotRangeOperator
  column : CatalogColumn

variable (pg catalog params) in
def literalFirst? : Expr V → Option (LiteralFirst V)
  | .opExpr opname true _ [left, right] =>
    match HotRangeOperator.ofName? opname, varThenLiteral pg catalog params left right,
      varThenLiteral pg catalog params right left with
    | some operator, none, some (column, v, _) => some ⟨v, operator, column⟩
    | _, _, _ => none
  | _ => none

variable (pg catalog params) in
def literalFirstComparisons (qual : List (Expr V)) : List (LiteralFirst V) :=
  (leavesList qual).filterMap (literalFirst? pg catalog params)

variable (pg) in
def LiteralFirst.Harmless (row : HotRow V) (c : LiteralFirst V) : Prop :=
  c.operator.inclusive = true ∧ ∃ w, row c.column.attnum = some w ∧
    pg.cmp (pg.collation c.column) w c.literal = .eq

theorem HotRangeOperator.holds_and_holds_swap_iff (operator : HotRangeOperator) (o : Ordering)
    (h : operator.holds o.swap = true) :
    operator.holds o = true ↔ operator.inclusive = true ∧ o = .eq := by
  cases operator <;> cases o <;> simp_all [holds, inclusive]

/-- **A range filter on a true comparison.** -/
theorem rangeFilter_pass_iff (hco : CollationAgrees pg catalog params leaf)
    (hf : opExprRangeFilter pg catalog params leaf = some f)
    (hlf : leaf.isTrue pg catalog params sem row = true) :
    (compareHot pg catalog row f.column f.sqlLiteral).any f.operator.holds = true ↔
      ∀ c, literalFirst? pg catalog params leaf = some c → c.Harmless pg row := by
  obtain ⟨opname, inputcollid, left, right, operator, column, v, sql, rfl, hnm, hr, rfl⟩ :=
    opExprRangeFilter_eq_some hf
  have heq : ∀ v w, pg.cmp inputcollid v w = pg.cmp (pg.collation column) v w :=
    fun v w ↦ (hco _ hr v w).2 (by simp [hnm])
  rw [isTrue_range hnm] at hlf
  simp only [heq] at hlf
  rcases Option.or_eq_some_iff.1 hr with hr | ⟨hnone, hr⟩
  · obtain ⟨hl, hv, hc⟩ := varThenLiteral_spec sem row hr
    rw [hl, hv] at hlf
    simp only [literalFirst?, hnm, hr]
    rw [hc]
    simpa using hlf
  · obtain ⟨hl, hv, hc⟩ := varThenLiteral_spec sem row hr
    rw [hl, hv] at hlf
    rcases hw : row column.attnum with - | w
    · simp [hw] at hlf
    · rw [hw, any_some, any_some, pg.cmp_swap _ w v] at hlf
      rw [hc, hw, any_some, operator.holds_and_holds_swap_iff _ hlf]
      simp [literalFirst?, hnm, hnone, hr, LiteralFirst.Harmless, hw]

theorem exists_rangeFilter_of_literalFirst {c : LiteralFirst V}
    (hc : literalFirst? pg catalog params leaf = some c) :
    ∃ f, opExprRangeFilter pg catalog params leaf = some f ∧ f.column = c.column.name := by
  unfold literalFirst? at hc
  split at hc
  case h_2 => simp at hc
  case h_1 opname inputcollid left right =>
    split at hc
    case h_2 => simp at hc
    case h_1 operator column v sql hnm hnone hr =>
      cases hc
      exact ⟨⟨column.name, operator, sql⟩,
        by simp [opExprRangeFilter, hnm, hotVarAndLiteral, hnone, hr], rfl⟩

/-! ### The whole clause -/

theorem filters_pass_iff {qual : List (Expr V)}
    (hco : ∀ leaf ∈ leavesList qual, CollationAgrees pg catalog params leaf)
    (eqColumns rangeColumns : String → Bool)
    (hq : qualIsTrue pg catalog params sem row qual = true) :
    ResidualFilters.pass pg catalog row
        { hotEquality := (residualFilters pg catalog params qual).hotEquality.filter
            fun f ↦ eqColumns f.column
          hotRange := (residualFilters pg catalog params qual).hotRange.filter
            fun f ↦ rangeColumns f.column } = true ↔
      ∀ c ∈ literalFirstComparisons pg catalog params qual,
        rangeColumns c.column.name = true → c.Harmless pg row := by
  simp only [residualFilters, collectResidualFiltersList_eq, ResidualFilters.pass, nil_append,
    Bool.and_eq_true, all_eq_true, mem_filter, mem_filterMap, literalFirstComparisons]
  constructor
  · rintro ⟨-, hr⟩ c ⟨leaf, hlf, hc⟩ ho
    obtain ⟨f, hf, hnm⟩ := exists_rangeFilter_of_literalFirst hc
    have hpa := hr f ⟨⟨leaf, hlf, hf⟩, hnm ▸ ho⟩
    exact (rangeFilter_pass_iff (hco leaf hlf) hf (isTrue_of_mem_leavesList hq hlf)).1 hpa c hc
  · intro h
    refine ⟨fun f hf ↦ ?_, fun f hf ↦ ?_⟩
    · obtain ⟨⟨leaf, hlf, hf⟩, -⟩ := hf
      exact equalityFilter_pass (hco leaf hlf) hf (isTrue_of_mem_leavesList hq hlf)
    · obtain ⟨⟨leaf, hlf, hf⟩, ho⟩ := hf
      refine (rangeFilter_pass_iff (hco leaf hlf) hf
        (isTrue_of_mem_leavesList hq hlf)).2 fun c hc ↦ ?_
      obtain ⟨f', hf', hnm⟩ := exists_rangeFilter_of_literalFirst hc
      obtain rfl : f = f' := Option.some.inj (hf.symm.trans hf')
      exact h c ⟨leaf, hlf, hc⟩ (hnm ▸ ho)

end Leaves

section HotRows

variable {V : Type*} (pg : Postgres V) (catalog : QualCatalog) (params : List (Option V))
  (sem : OtherMeaning V) (primaryKey : List String) (scopeColumn : Option String)

def hotRowsRead (qual : List (Expr V)) (rows : List (HotRow V)) : List (HotRow V) :=
  rows.filter fun row ↦ (pushedFilters primaryKey scopeColumn
    (residualFilters pg catalog params qual)).pass pg catalog row

end HotRows

section Example

/-- Characters by their code, with the literals `5` and `'b'`. In the collation `950`, which is
`"C"`, they compare by their code, in any other by their letter. -/
def codePostgres : Postgres ℤ where
  cmp collation v w := if collation = 950 then compare v w else compare (v % 32) (w % 32)
  cmp_swap c v w := by split_ifs <;> simp [Int.compare_swap]
  collation _ := 100
  literalSql _ v := if v = 5 then some "5" else if v = 98 then some "'b'" else none
  readLiteral _ sql := if sql = "5" then 5 else 98
  read_literalSql := by
    intro _ v sql h
    split_ifs at h with h5 hb <;> obtain rfl := Option.some.inj h
    · simp [h5]
    · simp [hb]

/-- A table with the single key column `id`. -/
def idCatalog : QualCatalog where
  scanrelid := 1
  columns := [⟨"id", 1, 20⟩]
  names_nodup := by simp

/-- The clause `5 < id`. -/
def fiveLessThanId : Expr ℤ :=
  .opExpr "<" true 100 [.const 20 (some 5), .var 1 1 0 20]

/-- The clause `id < 'b'` in a collation. -/
def idLessThanB (collation : ℕ) : Expr ℤ :=
  .opExpr "<" true collation [.var 1 1 0 20, .const 20 (some 98)]

/-- The clause `5 <= id AND id > 'b'` in the collation of the column. -/
def fiveToB : List (Expr ℤ) :=
  [.opExpr "<=" true 100 [.const 20 (some 5), .var 1 1 0 20],
    .opExpr ">" true 100 [.var 1 1 0 20, .const 20 (some 98)]]

end Example

end Koldstore
