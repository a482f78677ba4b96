import Koldstore.Basic.Except

/-!
# Accumulating over batches, or giving up

Rows arrive in batches, and an accumulator wants something from every row.
-/

namespace Koldstore.Accumulate

open List

section Collect

variable {R κ β σ ε : Type*} (read : R → Option (Option κ))

def collect : List R → Option (List κ)
  | [] => some []
  | row :: rows => (read row).bind fun item ↦ (collect rows).map fun items ↦ item.toList ++ items

variable {read} {rows rows' : List R} {items : List κ} {row : R}

theorem collect_cons_eq_some : collect read (row :: rows) = some items ↔
    ∃ item rest, read row = some item ∧ collect read rows = some rest ∧
      item.toList ++ rest = items := by
  simp only [collect, Option.bind_eq_some_iff, Option.map_eq_some_iff]
  constructor
  · rintro ⟨item, hit, rest, hre, heq⟩
    exact ⟨item, rest, hit, hre, heq⟩
  · rintro ⟨item, rest, hit, hre, heq⟩
    exact ⟨item, hit, rest, hre, heq⟩

theorem collect_eq_none_iff : collect read rows = none ↔ ∃ row ∈ rows, read row = none := by
  induction rows with
  | nil => simp [collect]
  | cons row rows ih =>
    rw [collect, exists_mem_cons_iff, ← ih]
    cases read row <;> simp

theorem collect_append : collect read (rows ++ rows') =
    (collect read rows).bind fun items ↦ (collect read rows').map fun items' ↦ items ++ items' := by
  induction rows with
  | nil => simp [collect]
  | cons row rows ih =>
    rw [cons_append, collect, ih, collect]
    cases read row with
    | none => rfl
    | some item => cases collect read rows <;> cases collect read rows' <;> simp

variable (h : collect read rows = some items)
include h

theorem exists_read_of_collect (hr : row ∈ rows) :
    ∃ item, read row = some item ∧ ∀ x, item = some x → x ∈ items := by
  induction rows generalizing items with
  | nil => cases hr
  | cons first rows ih =>
    obtain ⟨item, rest, hit, hre, rfl⟩ := collect_cons_eq_some.1 h
    rcases mem_cons.1 hr with rfl | hr
    · exact ⟨item, hit, fun x hx ↦ by simp [hx]⟩
    · obtain ⟨item', hit', hmem⟩ := ih hre hr
      exact ⟨item', hit', fun x hx ↦ mem_append_right _ (hmem x hx)⟩

theorem length_collect_le : items.length ≤ rows.length := by
  induction rows generalizing items with
  | nil =>
    cases h
    exact le_rfl
  | cons row rows ih =>
    obtain ⟨item, rest, -, hre, rfl⟩ := collect_cons_eq_some.1 h
    have hle := ih hre
    cases item <;> simp <;> omega

theorem exists_of_length_collect (hl : items.length = rows.length) (hr : row ∈ rows) :
    ∃ x ∈ items, read row = some (some x) := by
  induction rows generalizing items with
  | nil => cases hr
  | cons first rows ih =>
    obtain ⟨item, rest, hit, hre, rfl⟩ := collect_cons_eq_some.1 h
    have hle := length_collect_le hre
    cases item with
    | none =>
      simp only [Option.toList_none, nil_append, length_cons] at hl
      omega
    | some x =>
      rcases mem_cons.1 hr with rfl | hr
      · exact ⟨x, by simp, hit⟩
      · obtain ⟨y, hy, hrd⟩ := ih hre (by simpa using hl) hr
        exact ⟨y, mem_append_right _ hy, hrd⟩

omit h

variable {add : β → κ → β}

theorem toOption_foldlM {read : R → Except ε (Option κ)} {state : β} :
    (rows.foldlM (fun state row ↦ (read row).map fun item ↦ item.elim state (add state))
      state).toOption =
      (collect (fun row ↦ (read row).toOption) rows).map fun items ↦ items.foldl add state := by
  induction rows generalizing state with
  | nil => rfl
  | cons row rows ih =>
    rw [foldlM_cons, collect]
    cases read row with
    | error e => rfl
    | ok item =>
      refine ih.trans ?_
      cases hre : collect (fun row ↦ (read row).toOption) rows with
      | none => simp [Except.toOption]
      | some rest => cases item <;> simp [Except.toOption]

/-- **Batches leave no trace.** -/
theorem view_foldl (P : σ → Prop) (view : σ → Option β) (step : σ → List R → σ)
    (hP : ∀ s batch, P s → P (step s batch)) (hstep : ∀ s batch, P s → view (step s batch) =
      (view s).bind fun b ↦ (collect read batch).map fun items ↦ items.foldl add b)
    (batches : List (List R)) {s : σ} (hs : P s) :
    view (batches.foldl step s) = view (step s batches.flatten) := by
  rw [hstep s _ hs]
  induction batches generalizing s with
  | nil => simp [collect]
  | cons batch batches ih =>
    rw [foldl_cons, ih (hP s batch hs), hstep s batch hs, flatten_cons, collect_append]
    cases view s with
    | none => rfl
    | some b =>
      cases collect read batch with
      | none => rfl
      | some items => cases collect read batches.flatten <;> simp

end Collect

/-! ### Extremes -/

structure Extremes (B : Type*) where
  min : Option B
  max : Option B
  deriving DecidableEq, Repr

namespace Extremes

variable {B : Type*}

def empty : Extremes B := ⟨none, none⟩

def bounds (e : Extremes B) : Option (B × B) := e.min.bind fun min ↦ e.max.map fun max ↦ (min, max)

variable [LinearOrder B]

def add (e : Extremes B) (key : B) : Extremes B where
  min := if e.min.all fun min ↦ decide (key < min) then some key else e.min
  max := if e.max.all fun max ↦ decide (max < key) then some key else e.max

theorem foldl_add (keys : List B) (e : Extremes B) : keys.foldl add e =
    ⟨keys.foldl (List.argAux fun a b ↦ a < b) e.min,
      keys.foldl (List.argAux fun a b ↦ b < a) e.max⟩ := by
  induction keys generalizing e with
  | nil => rfl
  | cons key keys ih =>
    rw [foldl_cons, ih]
    obtain ⟨min, max⟩ := e
    cases min <;> cases max <;> simp [add, List.argAux]

theorem foldl_add_empty (keys : List B) : keys.foldl add empty = ⟨keys.argmin id, keys.argmax id⟩ :=
  foldl_add keys empty

variable {keys : List B}

theorem bounds_eq_none_iff : (keys.foldl add empty).bounds = none ↔ keys = [] := by
  refine ⟨fun h ↦ ?_, fun h ↦ by rw [h]; rfl⟩
  rw [foldl_add_empty] at h
  by_contra hne
  obtain ⟨min, hmin⟩ :=
    Option.ne_none_iff_exists'.1 ((argmin_eq_none (f := id) (l := keys)).not.2 hne)
  obtain ⟨max, hm⟩ :=
    Option.ne_none_iff_exists'.1 ((argmax_eq_none (f := id) (l := keys)).not.2 hne)
  rw [bounds, hmin, hm] at h
  cases h

variable {lo hi : B}

theorem mem_of_bounds (h : (keys.foldl add empty).bounds = some (lo, hi)) :
    lo ∈ keys ∧ hi ∈ keys ∧ ∀ key ∈ keys, lo ≤ key ∧ key ≤ hi := by
  rw [foldl_add_empty] at h
  obtain ⟨min, hmin, h⟩ := Option.bind_eq_some_iff.1 h
  obtain ⟨max, hm, ⟨⟩⟩ := Option.map_eq_some_iff.1 h
  exact ⟨argmin_mem hmin, argmax_mem hm, fun key hk ↦
    ⟨le_of_mem_argmin hk hmin, le_of_mem_argmax hk hm⟩⟩

theorem bounds_eq_some (hlo : lo ∈ keys) (hhi : hi ∈ keys)
    (ha : ∀ key ∈ keys, lo ≤ key ∧ key ≤ hi) : (keys.foldl add empty).bounds = some (lo, hi) := by
  cases h : (keys.foldl add empty).bounds with
  | none => exact absurd (bounds_eq_none_iff.1 h) (ne_nil_of_mem hlo)
  | some p =>
    obtain ⟨hmin, hm, hbs⟩ := mem_of_bounds h
    exact congrArg some (Prod.ext ((hbs lo hlo).1.antisymm (ha _ hmin).1)
      ((ha _ hm).2.antisymm (hbs hi hhi).2))

end Extremes

end Koldstore.Accumulate
