import Koldstore.Parquet.Arrow

/-!
# From physical to logical column names

Cells are moved from the names of the file to the names of now.
-/

namespace Koldstore

open List Function

abbrev NamedCells (V : Type*) := String → Option V

structure Renames where
  names : List (ColumnRef × String)
  logical_nodup : (names.map fun p ↦ p.1.name).Nodup
  physical_nodup : (names.map Prod.snd).Nodup

section Remap

variable {V : Type*}

def remapColumn (cells : NamedCells V) (p : ColumnRef × String) : NamedCells V :=
  if p.2 = p.1.name then cells
  else
    match cells p.2 with
    | none => cells
    | some value => update (update cells p.2 none) p.1.name (some value)

def remapToLogicalNames (cells : NamedCells V) (names : List (ColumnRef × String)) : NamedCells V :=
  names.foldl remapColumn cells

inductive JsonValue (V : Type*)
  | object (fields : NamedCells V)
  | other (value : V)

def remapJsonToLogicalNames (value : JsonValue V) (names : List (ColumnRef × String)) :
    JsonValue V :=
  match value with
  | .object fields => .object (remapToLogicalNames fields names)
  | .other value => .other value

def remapRowToLogicalNames (image : NamedCells V) (names : List (ColumnRef × String)) :
    NamedCells V :=
  remapToLogicalNames image names

/-! ### What a move does -/

variable {cells : NamedCells V} {names : List (ColumnRef × String)} {n : String}

theorem remapToLogicalNames_cons (p : ColumnRef × String) :
    remapToLogicalNames cells (p :: names) = remapToLogicalNames (remapColumn cells p) names := rfl

variable {p : ColumnRef × String}

theorem remapColumn_of_ne (hphys : n ≠ p.2) (hlog : n ≠ p.1.name) :
    remapColumn cells p n = cells n := by
  rw [remapColumn]
  split
  next => rfl
  next =>
    rcases cells p.2 with _ | value
    · rfl
    · exact (update_of_ne hlog _ _).trans (update_of_ne hphys _ _)

theorem remapColumn_logical {value : V} (h : cells p.2 = some value) :
    remapColumn cells p p.1.name = some value := by
  rw [remapColumn]
  split
  next hsm => rw [← hsm, h]
  next => rw [h]; exact update_self _ _ _

theorem remapColumn_physical (hne : p.2 ≠ p.1.name) : remapColumn cells p p.2 = none := by
  rw [remapColumn, if_neg hne]
  rcases hc : cells p.2 with _ | value
  · exact hc
  · exact (update_of_ne hne _ _).trans (update_self _ _ _)

theorem remapColumn_of_none (hnone : cells p.2 = none) : remapColumn cells p = cells := by
  rw [remapColumn, hnone]
  exact ite_self cells

theorem remapColumn_eq_none (hlog : p.1.name ≠ n) (hnone : cells n = none) :
    remapColumn cells p n = none := by
  by_cases hphys : n = p.2
  · rw [hphys] at hnone ⊢
    rw [remapColumn_of_none hnone, hnone]
  · rw [remapColumn_of_ne hphys hlog.symm, hnone]

theorem remap_of_ne (h : ∀ p ∈ names, n ≠ p.2 ∧ n ≠ p.1.name) :
    remapToLogicalNames cells names n = cells n := by
  induction names generalizing cells with
  | nil => rfl
  | cons p names ih =>
    obtain ⟨hphys, hlog⟩ := h p mem_cons_self
    refine (ih fun q hq ↦ h q (mem_cons_of_mem _ hq)).trans ?_
    exact remapColumn_of_ne hphys hlog

theorem remap_eq_none (hlog : ∀ p ∈ names, p.1.name ≠ n) (hnone : cells n = none) :
    remapToLogicalNames cells names n = none := by
  induction names generalizing cells with
  | nil => exact hnone
  | cons p names ih =>
    refine ih (fun q hq ↦ hlog q (mem_cons_of_mem _ hq)) ?_
    exact remapColumn_eq_none (hlog p mem_cons_self) hnone

theorem remap_physical_eq_none (hp : p ∈ names) (hlog : ∀ q ∈ names, q.1.name ≠ p.2) :
    remapToLogicalNames cells names p.2 = none := by
  induction names generalizing cells with
  | nil => cases hp
  | cons q names ih =>
    have hre : ∀ r ∈ names, r.1.name ≠ p.2 := fun r hr ↦ hlog r (mem_cons_of_mem _ hr)
    rcases mem_cons.1 hp with rfl | hp
    · rw [remapToLogicalNames_cons]
      exact remap_eq_none hre (remapColumn_physical (hlog p mem_cons_self).symm)
    · exact ih hp hre

end Remap

namespace Renames

variable {V : Type*}

structure KeepsCells (cells remapped : NamedCells V) (names : List (ColumnRef × String)) :
    Prop where
  stored : ∀ p ∈ names, ∀ value, cells p.2 = some value → remapped p.1.name = some value
  missing : ∀ p ∈ names, cells p.2 = none →
    (cells p.1.name = none ∨ ∃ q ∈ names, q.2 = p.1.name) → remapped p.1.name = none
  outside : ∀ n, (∀ p ∈ names, n ≠ p.2 ∧ n ≠ p.1.name) → remapped n = cells n

def Spares (cells : NamedCells V) (p q : ColumnRef × String) : Prop :=
  p.2 ≠ p.1.name → q.2 ≠ q.1.name → p.1.name = q.2 → cells p.2 = none

instance (cells : NamedCells V) (p q : ColumnRef × String) : Decidable (Spares cells p q) :=
  inferInstanceAs (Decidable (_ → _ → _ → _))

variable {cells : NamedCells V} {names : List (ColumnRef × String)} {q : ColumnRef × String}

theorem remapColumn_pending (hs : ∀ r ∈ names, Spares cells q r)
    (hlog : q.1.name ∉ names.map fun p ↦ p.1.name) (hphys : q.2 ∉ names.map Prod.snd)
    {r : ColumnRef × String} (hr : r ∈ names) : remapColumn cells q r.2 = cells r.2 := by
  have htk : r.2 ≠ q.2 := fun h ↦ hphys (mem_map.2 ⟨r, hr, h⟩)
  by_cases hnm : r.2 = q.1.name
  · have hq : q.2 ≠ q.1.name := hnm ▸ htk.symm
    have hr' : r.2 ≠ r.1.name := fun h ↦ hlog (mem_map.2 ⟨r, hr, h.symm.trans hnm⟩)
    rw [remapColumn, if_neg hq, hs r hr hq hr' hnm.symm]
  · exact remapColumn_of_ne htk hnm

theorem pairwise_spares_iff {cells' : NamedCells V} (h : ∀ r ∈ names, cells' r.2 = cells r.2) :
    names.Pairwise (Spares cells') ↔ names.Pairwise (Spares cells) :=
  Pairwise.iff_of_mem fun {p r} hp _ ↦ by rw [Spares, Spares, h p hp]

variable (hlog : (names.map fun p ↦ p.1.name).Nodup)
include hlog

variable (hphys : (names.map Prod.snd).Nodup)
include hphys

/-- **Sufficiency.** -/
theorem stored_of_spares (hs : names.Pairwise (Spares cells)) {p : ColumnRef × String}
    (hp : p ∈ names) {value : V} (hv : cells p.2 = some value) :
    remapToLogicalNames cells names p.1.name = some value := by
  induction names generalizing cells with
  | nil => cases hp
  | cons q names ih =>
    rw [map_cons, nodup_cons] at hlog hphys
    obtain ⟨hf, hre⟩ := pairwise_cons.1 hs
    have hpe r := remapColumn_pending hf hlog.1 hphys.1 (r := r)
    rcases mem_cons.1 hp with rfl | hp
    · -- its own move brings the cell, and no later move takes it away
      rw [remapToLogicalNames_cons]
      refine (remap_of_ne fun r hr ↦ ⟨fun h ↦ ?_, fun h ↦ ?_⟩).trans (remapColumn_logical hv)
      · have hne' : r.2 ≠ r.1.name :=
          fun hsm ↦ hlog.1 (mem_map.2 ⟨r, hr, hsm.symm.trans h.symm⟩)
        have hne : p.2 ≠ p.1.name := fun hsm ↦ hphys.1 (mem_map.2 ⟨r, hr, (hsm.trans h).symm⟩)
        rw [hf r hr hne hne' h] at hv
        cases hv
      · exact hlog.1 (mem_map.2 ⟨r, hr, h.symm⟩)
    · exact ih hlog.2 hphys.2 ((pairwise_spares_iff hpe).2 hre) hp ((hpe p hp).trans hv)

theorem missing_of_spares (hs : names.Pairwise (Spares cells)) {p : ColumnRef × String}
    (hp : p ∈ names) (hnone : cells p.2 = none)
    (hnm : cells p.1.name = none ∨ ∃ q ∈ names, q.2 = p.1.name) :
    remapToLogicalNames cells names p.1.name = none := by
  induction names generalizing cells with
  | nil => cases hp
  | cons q names ih =>
    rw [map_cons, nodup_cons] at hlog hphys
    obtain ⟨hf, hre⟩ := pairwise_cons.1 hs
    have hpe r := remapColumn_pending hf hlog.1 hphys.1 (r := r)
    rcases mem_cons.1 hp with rfl | hp
    · have ho : ∀ r ∈ names, r.1.name ≠ p.1.name :=
        fun r hr h ↦ hlog.1 (mem_map.2 ⟨r, hr, h⟩)
      rw [remapToLogicalNames_cons, remapColumn_of_none hnone]
      rcases hnm with he | ⟨r, hr, hr'⟩
      · exact remap_eq_none ho he
      · rcases mem_cons.1 hr with rfl | hr
        · exact remap_eq_none ho (hr' ▸ hnone)
        · rw [← hr'] at ho ⊢
          exact remap_physical_eq_none hr ho
    · have hne : q.1.name ≠ p.1.name := fun h ↦ hlog.1 (mem_map.2 ⟨p, hp, h.symm⟩)
      refine ih hlog.2 hphys.2 ((pairwise_spares_iff hpe).2 hre) hp ((hpe p hp).trans hnone) ?_
      rcases hnm with he | ⟨r, hr, hr'⟩
      · exact .inl (remapColumn_eq_none hne he)
      · rcases mem_cons.1 hr with rfl | hr
        · rw [← hr'] at hne ⊢
          exact .inl (remapColumn_physical hne.symm)
        · exact .inr ⟨r, hr, hr'⟩

/-- **Necessity.** -/
theorem spares_of_stored (ht : ∀ p ∈ names, ∀ value, cells p.2 = some value →
      remapToLogicalNames cells names p.1.name = some value) :
    names.Pairwise (Spares cells) := by
  induction names generalizing cells with
  | nil => exact .nil
  | cons q names ih =>
    rw [map_cons, nodup_cons] at hlog hphys
    have hf : ∀ r ∈ names, Spares cells q r := by
      intro r hr _ _ hnm
      by_contra hsome
      obtain ⟨value, hv⟩ := Option.ne_none_iff_exists'.1 hsome
      have ha := ht q mem_cons_self value hv
      have ho : ∀ s ∈ names, s.1.name ≠ r.2 :=
        fun s hs h ↦ hlog.1 (mem_map.2 ⟨s, hs, h.trans hnm.symm⟩)
      rw [remapToLogicalNames_cons, hnm] at ha
      exact absurd ((remap_physical_eq_none hr ho).symm.trans ha) (by simp)
    have hpe r := remapColumn_pending hf hlog.1 hphys.1 (r := r)
    refine pairwise_cons.2 ⟨hf, (pairwise_spares_iff hpe).1 ?_⟩
    refine ih hlog.2 hphys.2 fun p hp value hv ↦ ?_
    exact ht p (mem_cons_of_mem _ hp) value ((hpe p hp).symm.trans hv)

omit hphys

omit hlog

/-- **Renaming in place is exact when every column spares the later ones, and only then.** -/
theorem keepsCells_iff (names : Renames) (cells : NamedCells V) :
    (KeepsCells cells (remapRowToLogicalNames cells names.names) names.names ∧
      remapJsonToLogicalNames (.object cells) names.names =
        .object (remapRowToLogicalNames cells names.names)) ↔
      names.names.Pairwise (Spares cells) := by
  constructor
  · intro h
    exact spares_of_stored names.logical_nodup names.physical_nodup h.1.stored
  · intro h
    refine ⟨⟨fun p hp value ↦ stored_of_spares names.logical_nodup names.physical_nodup h hp,
      fun p hp ↦ missing_of_spares names.logical_nodup names.physical_nodup h hp,
      fun n hn ↦ remap_of_ne hn⟩, rfl⟩

def swapped : Renames where
  names := [(⟨1, "b"⟩, "a"), (⟨2, "a"⟩, "b")]
  logical_nodup := by decide
  physical_nodup := by decide

def swappedCells : NamedCells ℕ :=
  fun n ↦ if n = "a" then some 1 else if n = "b" then some 2 else none

/-- **Swapped columns lose a cell.** -/
theorem swapped_loses_cell :
    swappedCells "a" = some 1 ∧ swappedCells "b" = some 2 ∧
      remapRowToLogicalNames swappedCells swapped.names "a" = some 1 ∧
      remapRowToLogicalNames swappedCells swapped.names "b" = none ∧
      ¬KeepsCells swappedCells (remapRowToLogicalNames swappedCells swapped.names)
        swapped.names := by
  refine ⟨by decide, by decide, by decide, by decide, fun h ↦ ?_⟩
  have hs := h.stored (⟨1, "b"⟩, "a") (by decide) 1 (by decide)
  exact absurd hs (by decide)

end Renames

end Koldstore
