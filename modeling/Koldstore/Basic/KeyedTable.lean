import Mathlib

/-!
# Tables with a primary key

The statements that change a table keep its keys distinct or fail.
-/

namespace Koldstore

open List

@[ext] structure KeyedTable {α κ : Type*} (key : α → κ) where
  rows : List α
  nodup_keys : (rows.map key).Nodup

namespace KeyedTable

variable {α κ : Type*} {key : α → κ} (t : KeyedTable key)

def keys : List κ := t.rows.map key

theorem mem_keys {k : κ} : k ∈ t.keys ↔ ∃ a ∈ t.rows, key a = k := mem_map

theorem key_mem_keys {a : α} (ha : a ∈ t.rows) : key a ∈ t.keys := mem_map_of_mem ha

variable {t} in
theorem eq_of_key_eq {a b : α} (ha : a ∈ t.rows) (hb : b ∈ t.rows) (h : key a = key b) : a = b :=
  inj_on_of_nodup_map t.nodup_keys ha hb h

/-! ### Deleting and updating -/

/-- `DELETE … WHERE p`. -/
def deleteWhere (p : α → Prop) [DecidablePred p] : KeyedTable key where
  rows := t.rows.filter fun a ↦ ¬p a
  nodup_keys := t.nodup_keys.sublist (filter_sublist.map key)

section DeleteWhere

variable {p : α → Prop} [DecidablePred p]

theorem mem_deleteWhere {a : α} : a ∈ (t.deleteWhere p).rows ↔ a ∈ t.rows ∧ ¬p a := by
  simp [deleteWhere]

theorem deleteWhere_eq_self (h : ∀ a ∈ t.rows, ¬p a) : t.deleteWhere p = t := by
  ext1
  exact filter_eq_self.mpr fun a ha ↦ decide_eq_true (h a ha)

end DeleteWhere

/-- `UPDATE`, where `f` leaves the key alone. -/
def mapRows (f : α → α) (hf : ∀ a, key (f a) = key a) : KeyedTable key where
  rows := t.rows.map f
  nodup_keys := by
    rw [map_map, show key ∘ f = key from funext hf]
    exact t.nodup_keys

theorem keys_mapRows (f : α → α) (hf : ∀ a, key (f a) = key a) :
    (t.mapRows f hf).keys = t.keys := by
  show (t.rows.map f).map key = t.rows.map key
  rw [map_map, show key ∘ f = key from funext hf]

/-! ### Inserting -/

variable [DecidableEq κ]

def missing (new : List α) : List α := new.filter fun a ↦ key a ∉ t.keys

theorem mem_missing {new : List α} {a : α} : a ∈ t.missing new ↔ a ∈ new ∧ key a ∉ t.keys := by
  simp [missing]

theorem missing_eq_nil {new : List α} (h : ∀ a ∈ new, key a ∈ t.keys) : t.missing new = [] := by
  rw [missing, filter_eq_nil_iff]
  intro a ha
  simpa using h a ha

theorem nodup_keys_append_missing {rows new : List α} (hrs : rows.map key = t.keys)
    (h : ((t.missing new).map key).Nodup) : ((rows ++ t.missing new).map key).Nodup := by
  have hks : (rows.map key).Nodup := hrs ▸ t.nodup_keys
  rw [map_append, nodup_append]
  refine ⟨hks, h, ?_⟩
  rintro k hk _ hm rfl
  obtain ⟨a, ha, rfl⟩ := mem_map.mp hm
  exact (t.mem_missing.mp ha).2 (hrs ▸ hk)

/-- `INSERT … SELECT … WHERE NOT EXISTS`; `none` when two of the rows to insert share a key. -/
def insertMissing (new : List α) : Option (KeyedTable key) :=
  if h : ((t.missing new).map key).Nodup then
    some ⟨t.rows ++ t.missing new, t.nodup_keys_append_missing rfl h⟩
  else none

section InsertMissing

variable {t} {new : List α} {u : KeyedTable key} (h : t.insertMissing new = some u)
include h

theorem rows_of_insertMissing : u.rows = t.rows ++ t.missing new := by
  rw [insertMissing] at h
  split at h
  · rw [← Option.some.inj h]
  · exact nomatch h

theorem keys_subset_of_insertMissing : t.keys ⊆ u.keys := by
  intro k hk
  obtain ⟨a, ha, rfl⟩ := t.mem_keys.mp hk
  exact u.key_mem_keys (rows_of_insertMissing h ▸ mem_append_left _ ha)

theorem key_mem_of_insertMissing : ∀ a ∈ new, key a ∈ u.keys := by
  intro a ha
  by_cases hold : key a ∈ t.keys
  · exact keys_subset_of_insertMissing h hold
  · have hm : a ∈ t.missing new := t.mem_missing.mpr ⟨ha, hold⟩
    exact u.key_mem_keys (rows_of_insertMissing h ▸ mem_append_right _ hm)

omit h

theorem insertMissing_eq_self (h : ∀ a ∈ new, key a ∈ t.keys) : t.insertMissing new = some t := by
  have hn : t.missing new = [] := t.missing_eq_nil h
  have hnd : ((t.missing new).map key).Nodup := by rw [hn]; exact nodup_nil
  rw [insertMissing, dif_pos hnd]
  congr 1
  ext1
  show t.rows ++ t.missing new = t.rows
  rw [hn, append_nil]

end InsertMissing

/-! ### Inserting or updating -/

def upsertRow (key : α → κ) (merge : α → α → α) (new : List α) (a : α) : α :=
  (new.find? fun e ↦ key e = key a).elim a (merge a)

section Upsert

variable {merge : α → α → α} (hmerge : ∀ a e, key (merge a e) = key a) {new : List α}

include hmerge in
theorem key_upsertRow (a : α) : key (upsertRow key merge new a) = key a := by
  rw [upsertRow]
  cases new.find? fun e ↦ key e = key a with
  | none => rfl
  | some e => exact hmerge a e

include hmerge in
theorem upsertRow_upsertRow (hi : ∀ a e, merge (merge a e) e = merge a e) (a : α) :
    upsertRow key merge new (upsertRow key merge new a) = upsertRow key merge new a := by
  have hk : key (upsertRow key merge new a) = key a := key_upsertRow hmerge a
  rw [upsertRow, hk, upsertRow]
  cases new.find? fun e ↦ key e = key a with
  | none => rfl
  | some e => exact hi a e

/-- `INSERT … ON CONFLICT (key) DO UPDATE`; `none` when two new rows share a key. -/
def upsert (merge : α → α → α) (hmerge : ∀ a e, key (merge a e) = key a) (new : List α) :
    Option (KeyedTable key) :=
  if h : (new.map key).Nodup then
    some ⟨t.rows.map (upsertRow key merge new) ++ t.missing new, t.nodup_keys_append_missing
        (by rw [map_map, show key ∘ upsertRow key merge new = key from
          funext (key_upsertRow hmerge)]; rfl)
        (h.sublist (filter_sublist.map key))⟩
  else none

variable {hmerge} {t} {u : KeyedTable key}

theorem nodup_of_upsert (h : t.upsert merge hmerge new = some u) : (new.map key).Nodup := by
  rw [upsert] at h
  split at h
  · assumption
  · exact nomatch h

theorem rows_of_upsert (h : t.upsert merge hmerge new = some u) :
    u.rows = t.rows.map (upsertRow key merge new) ++ t.missing new := by
  rw [upsert] at h
  split at h
  · rw [← Option.some.inj h]
  · exact nomatch h

theorem upsertRow_of_mem (hnd : (new.map key).Nodup) {a e : α} (he : e ∈ new) (hk : key e = key a) :
    upsertRow key merge new a = merge a e := by
  have hfi : new.find? (fun e' ↦ key e' = key a) = some e := by
    cases h : new.find? fun e' ↦ key e' = key a with
    | none => exact absurd hk (by simpa using find?_eq_none.mp h e he)
    | some e' =>
      have hk' : key e' = key a := by simpa using find?_some h
      rw [inj_on_of_nodup_map hnd (mem_of_find?_eq_some h) he (hk'.trans hk.symm)]
  rw [upsertRow, hfi, Option.elim_some]

theorem key_mem_of_upsert (h : t.upsert merge hmerge new = some u) : ∀ e ∈ new, key e ∈ u.keys := by
  intro e he
  have hrs := rows_of_upsert h
  by_cases hold : key e ∈ t.keys
  · obtain ⟨a, ha, hk⟩ := t.mem_keys.mp hold
    have hmem : upsertRow key merge new a ∈ u.rows := by
      rw [hrs]
      exact mem_append_left _ (mem_map_of_mem ha)
    rw [← hk, ← key_upsertRow hmerge a]
    exact u.key_mem_keys hmem
  · have hm : e ∈ t.missing new := t.mem_missing.mpr ⟨he, hold⟩
    exact u.key_mem_keys (hrs ▸ mem_append_right _ hm)

theorem upsert_eq_self_iff (hi : ∀ a e, merge (merge a e) e = merge a e)
    (h : t.upsert merge hmerge new = some u) :
    u.upsert merge hmerge new = some u ↔ ∀ e ∈ t.missing new, merge e e = e := by
  have hnd := nodup_of_upsert h
  have hrs := rows_of_upsert h
  have hn : u.missing new = [] := u.missing_eq_nil (key_mem_of_upsert h)
  have hf : ∀ e ∈ t.missing new, upsertRow key merge new e = merge e e := fun e he ↦
    upsertRow_of_mem hnd (t.mem_missing.mp he).1 rfl
  have hold : ∀ a ∈ t.rows.map (upsertRow key merge new), upsertRow key merge new a = a := by
    intro a ha
    obtain ⟨b, -, rfl⟩ := mem_map.mp ha
    exact upsertRow_upsertRow hmerge hi b
  have hs : u.upsert merge hmerge new = some u ↔ ∀ a ∈ u.rows, upsertRow key merge new a = a := by
    rw [upsert, dif_pos hnd, Option.some.injEq, KeyedTable.ext_iff]
    show u.rows.map (upsertRow key merge new) ++ u.missing new = u.rows ↔ _
    rw [hn, append_nil]
    nth_rewrite 2 [← map_id u.rows]
    rw [map_inj_left]
    rfl
  rw [hs, hrs]
  constructor
  · intro hall e he
    rw [← hf e he]
    exact hall e (mem_append_right _ he)
  · intro hm a ha
    rcases mem_append.mp ha with ha | ha
    · exact hold a ha
    · rw [hf a ha, hm a ha]

end Upsert

end KeyedTable

end Koldstore
