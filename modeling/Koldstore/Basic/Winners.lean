import Mathlib

/-!
# Winners by key

Of the rows with one key the first of highest rank **wins** (`newest`).
-/

namespace Koldstore.Winners

open List

variable {R K κ : Type*} [DecidableEq K] [LinearOrder κ] (key : R → K) (rank : R → κ)

def versions (k : K) (rows : List R) : List R := rows.filter fun row ↦ key row = k

def newest (k : K) (rows : List R) : Option R := (versions key k rows).argmax rank

def insert (row : R) : List R → List R
  | [] => [row]
  | winner :: table =>
    if key winner = key row then (if rank winner < rank row then row else winner) :: table
    else winner :: insert row table

def winners (rows : List R) : List R := rows.foldl (fun table row ↦ insert key rank row table) []

variable {key rank} {k : K} {rows rows' table : List R} {row r : R}

/-! ### The newest row of a key -/

@[simp] theorem mem_versions : r ∈ versions key k rows ↔ r ∈ rows ∧ key r = k := by
  simp [versions]

theorem versions_append (rows rows' : List R) :
    versions key k (rows ++ rows') = versions key k rows ++ versions key k rows' :=
  filter_append ..

@[simp] theorem newest_nil : newest key rank k [] = none := rfl

theorem newest_eq_none_iff : newest key rank k rows = none ↔ ∀ r ∈ rows, key r ≠ k := by
  rw [newest, argmax_eq_none, versions, filter_eq_nil_iff]
  simp

theorem mem_of_newest_eq (h : newest key rank k rows = some r) : r ∈ rows ∧ key r = k :=
  mem_versions.1 (argmax_mem h)

theorem rank_le_of_newest_eq (h : newest key rank k rows = some r) (hr : row ∈ rows)
    (hk : key row = k) : rank row ≤ rank r :=
  le_of_mem_argmax (mem_versions.2 ⟨hr, hk⟩) h

theorem exists_newest (hr : row ∈ rows) (hk : key row = k) :
    ∃ r, newest key rank k rows = some r := by
  refine Option.ne_none_iff_exists'.1 fun hnone ↦ ?_
  exact newest_eq_none_iff.1 hnone row hr hk

def pick (rank : R → κ) : Option R → Option R → Option R
  | none, second => second
  | first, none => first
  | some first, some second => if rank first < rank second then some second else some first

@[simp] theorem pick_none_left (o : Option R) : pick rank none o = o := by cases o <;> rfl

@[simp] theorem pick_none_right (o : Option R) : pick rank o none = o := by cases o <;> rfl

theorem argmax_append (l m : List R) :
    (l ++ m).argmax rank = pick rank (l.argmax rank) (m.argmax rank) := by
  induction m using List.reverseRecOn with
  | nil => simp
  | append_singleton m c ih =>
    rw [← List.append_assoc, argmax_concat, argmax_concat, ih]
    cases l.argmax rank with
    | none => simp
    | some a =>
      cases m.argmax rank with
      | none => simp [pick]
      | some b =>
        by_cases hab : rank a < rank b <;> by_cases hbc : rank b < rank c
        · simp [pick, hab, hbc, hab.trans hbc]
        · simp [pick, hab, hbc]
        · simp [pick, hab, hbc]
        · have hac : ¬rank a < rank c := fun hac ↦ hab (hac.trans_le (not_lt.1 hbc))
          simp [pick, hab, hbc, hac]

theorem newest_append (rows rows' : List R) : newest key rank k (rows ++ rows') =
      pick rank (newest key rank k rows) (newest key rank k rows') := by
  rw [newest, versions_append, argmax_append]
  rfl

theorem newest_append_of_ge (h : ∀ a ∈ rows, ∀ b ∈ rows', key a = k → key b = k → rank b ≤ rank a)
    (hsome : newest key rank k rows ≠ none) :
    newest key rank k (rows ++ rows') = newest key rank k rows := by
  obtain ⟨a, ha⟩ := Option.ne_none_iff_exists'.1 hsome
  rw [newest_append, ha]
  cases hb : newest key rank k rows' with
  | none => rfl
  | some b =>
    obtain ⟨hm, hk⟩ := mem_of_newest_eq ha
    obtain ⟨hbmem, hbkey⟩ := mem_of_newest_eq hb
    rw [pick, if_neg (h a hm b hbmem hk hbkey).not_gt]

theorem newest_append_of_lt (h : ∀ a ∈ rows, ∀ b ∈ rows', key a = k → key b = k → rank a < rank b)
    (hsome : newest key rank k rows' ≠ none) :
    newest key rank k (rows ++ rows') = newest key rank k rows' := by
  obtain ⟨b, hb⟩ := Option.ne_none_iff_exists'.1 hsome
  rw [newest_append, hb]
  cases ha : newest key rank k rows with
  | none => rfl
  | some a =>
    obtain ⟨hm, hk⟩ := mem_of_newest_eq ha
    obtain ⟨hbmem, hbkey⟩ := mem_of_newest_eq hb
    rw [pick, if_pos (h a hm b hbmem hk hbkey)]

theorem newest_eq_some_iff
    (huq : ∀ a ∈ rows, ∀ b ∈ rows, key a = k → key b = k → rank a = rank b → a = b) :
    newest key rank k rows = some r ↔
      r ∈ rows ∧ key r = k ∧ ∀ a ∈ rows, key a = k → rank a ≤ rank r := by
  constructor
  · intro h
    obtain ⟨hmem, hk⟩ := mem_of_newest_eq h
    exact ⟨hmem, hk, fun a ha hak ↦ rank_le_of_newest_eq h ha hak⟩
  · rintro ⟨hmem, hk, hm⟩
    obtain ⟨w, hw⟩ : ∃ w, newest key rank k rows = some w := exists_newest hmem hk
    obtain ⟨hwmem, hwkey⟩ := mem_of_newest_eq hw
    have hrk : rank w = rank r := le_antisymm (hm w hwmem hwkey) (rank_le_of_newest_eq hw hmem hk)
    rw [hw, huq w hwmem r hmem hwkey hk hrk]

theorem newest_perm (hp : rows.Perm rows')
    (huq : ∀ a ∈ rows, ∀ b ∈ rows, key a = k → key b = k → rank a = rank b → a = b) :
    newest key rank k rows = newest key rank k rows' := by
  have hmem : ∀ a, a ∈ rows' ↔ a ∈ rows := fun a ↦ hp.symm.mem_iff
  have huq' : ∀ a ∈ rows', ∀ b ∈ rows', key a = k → key b = k → rank a = rank b → a = b := by
    simpa [hmem] using huq
  ext r
  rw [newest_eq_some_iff huq, newest_eq_some_iff huq']
  simp [hmem]

/-! ### The table of winners -/

def lookup (key : R → K) (k : K) (table : List R) : Option R := table.find? fun r ↦ key r = k

theorem lookup_insert (row : R) (table : List R) : lookup key k (insert key rank row table) =
      if key row = k then pick rank (lookup key k table) (some row) else lookup key k table := by
  induction table with
  | nil => by_cases hr : key row = k <;> simp [lookup, insert, hr]
  | cons winner table ih =>
    rw [insert]
    by_cases hsm : key winner = key row
    · by_cases hr : key row = k
      · by_cases hlt : rank winner < rank row <;> simp [lookup, hsm, hr, hlt, pick]
      · by_cases hlt : rank winner < rank row <;> simp [lookup, hsm, hr, hlt]
    · rw [if_neg hsm]
      by_cases hw : key winner = k
      · have hr : key row ≠ k := fun h ↦ hsm (hw.trans h.symm)
        simp [lookup, hw, hr]
      · simpa [lookup, hw] using ih

theorem map_key_insert (row : R) (table : List R) : (insert key rank row table).map key =
      if key row ∈ table.map key then table.map key else table.map key ++ [key row] := by
  induction table with
  | nil => simp [insert]
  | cons winner table ih =>
    rw [insert]
    by_cases hsm : key winner = key row
    · by_cases hlt : rank winner < rank row <;> simp [hsm, hlt]
    · rw [if_neg hsm, map_cons, ih]
      simp only [map_cons, mem_cons, Ne.symm hsm, false_or]
      split_ifs <;> rfl

theorem winners_concat (rows : List R) (row : R) :
    winners key rank (rows ++ [row]) = insert key rank row (winners key rank rows) := by
  rw [winners, foldl_append]
  rfl

theorem newest_singleton (row : R) :
    newest key rank k [row] = if key row = k then some row else none := by
  by_cases hr : key row = k <;> simp [newest, versions, hr]

theorem lookup_winners (rows : List R) :
    lookup key k (winners key rank rows) = newest key rank k rows := by
  induction rows using List.reverseRecOn with
  | nil => rfl
  | append_singleton rows row ih =>
    rw [winners_concat, lookup_insert, newest_append, newest_singleton, ih]
    split_ifs <;> simp

theorem nodup_map_key_winners (rows : List R) : ((winners key rank rows).map key).Nodup := by
  induction rows using List.reverseRecOn with
  | nil => exact nodup_nil
  | append_singleton rows row ih =>
    rw [winners_concat, map_key_insert]
    split_ifs with hmem
    · exact ih
    · rw [nodup_append]
      refine ⟨ih, nodup_singleton _, ?_⟩
      intro a ha b hb
      rw [mem_singleton.1 hb]
      rintro rfl
      exact hmem ha

theorem mem_iff_lookup_eq (hnd : (table.map key).Nodup) :
    r ∈ table ↔ lookup key (key r) table = some r := by
  constructor
  · intro hmem
    obtain ⟨w, hw⟩ : ∃ w, lookup key (key r) table = some w := by
      rw [lookup, ← Option.isSome_iff_exists, find?_isSome]
      exact ⟨r, hmem, by simp⟩
    have hk : key w = key r := by simpa using find?_some hw
    rw [hw, inj_on_of_nodup_map hnd (mem_of_find?_eq_some hw) hmem hk]
  · exact mem_of_find?_eq_some

theorem mem_winners_iff : r ∈ winners key rank rows ↔ newest key rank (key r) rows = some r := by
  rw [mem_iff_lookup_eq (nodup_map_key_winners rows), lookup_winners]

theorem mem_map_key_winners : k ∈ (winners key rank rows).map key ↔ k ∈ rows.map key := by
  simp only [mem_map]
  constructor
  · rintro ⟨r, hr, rfl⟩
    exact ⟨r, (mem_of_newest_eq (mem_winners_iff.1 hr)).1, rfl⟩
  · rintro ⟨row, hrow, rfl⟩
    obtain ⟨r, hr⟩ : ∃ r, newest key rank (key row) rows = some r := exists_newest hrow rfl
    have hk := (mem_of_newest_eq hr).2
    exact ⟨r, mem_winners_iff.2 (hk ▸ hr), hk⟩

/-! ### Batches -/

theorem argmax_congr {κ' : Type*} [LinearOrder κ'] {rank' : R → κ'}
    (h : ∀ a ∈ rows, ∀ b ∈ rows, rank a < rank b ↔ rank' a < rank' b) :
    rows.argmax rank = rows.argmax rank' := by
  induction rows using List.reverseRecOn with
  | nil => rfl
  | append_singleton rows c ih =>
    have ih := ih fun a ha b hb ↦ h a (by simp [ha]) b (by simp [hb])
    rw [argmax_concat, argmax_concat, ← ih]
    cases hm : rows.argmax rank with
    | none => rfl
    | some a =>
      have hmem : a ∈ rows := argmax_mem hm
      simp only [h a (by simp [hmem]) c (by simp)]

theorem newest_congr {κ' : Type*} [LinearOrder κ'] {rank' : R → κ'}
    (h : ∀ a ∈ rows, ∀ b ∈ rows, rank a < rank b ↔ rank' a < rank' b) :
    newest key rank k rows = newest key rank' k rows :=
  argmax_congr fun a ha b hb ↦ h a (mem_versions.1 ha).1 b (mem_versions.1 hb).1

def firstNewest (key : R → K) (rank : R → κ) (k : K) : List (List R) → Option R
  | [] => none
  | batch :: batches => (newest key rank k batch).or (firstNewest key rank k batches)

theorem firstNewest_eq_newest {batches : List (List R)} (h : batches.Pairwise fun newer older ↦
      ∀ a ∈ newer, ∀ b ∈ older, key a = k → key b = k → rank b ≤ rank a) :
    firstNewest key rank k batches = newest key rank k batches.flatten := by
  induction batches with
  | nil => rfl
  | cons batch batches ih =>
    obtain ⟨hbt, ht⟩ := pairwise_cons.1 h
    rw [firstNewest, flatten_cons, ih ht]
    cases hn : newest key rank k batch with
    | none => rw [newest_append, hn, Option.none_or, pick_none_left]
    | some r =>
      have hf : ∀ a ∈ batch, ∀ b ∈ batches.flatten, key a = k → key b = k → rank b ≤ rank a := by
        intro a ha b hb
        obtain ⟨older, hold, hb⟩ := mem_flatten.1 hb
        exact hbt older hold a ha b hb
      rw [newest_append_of_ge hf (by simp [hn]), hn, Option.some_or]

end Koldstore.Winners
