import Koldstore.Scan.Remap

/-!
# The predicate of the write guard

An `UPDATE` or `DELETE` that finds no hot row may have missed a cold one.
-/

namespace Koldstore.PkPredicate

open List Function

variable {J C : Type*}

/-! ### Resolving a predicate -/

inductive ComparisonOp
  | eq
  | ne
  | lt
  | gt
  | le
  | ge
  deriving DecidableEq, Repr

/-- A leaf of the `WHERE` clause: a column, by its number, and one or more literals. -/
structure RawLeaf (J : Type*) where
  attnum : ℤ
  operator : ComparisonOp
  values : List J

structure ResidualLeaf (J : Type*) where
  column : String
  operator : ComparisonOp
  values : List J

structure ColumnAttnums where
  columns : List (ℤ × String)
  attnums_nodup : (columns.map Prod.fst).Nodup
  names_nodup : (columns.map Prod.snd).Nodup

def maxCandidateCombinations : ℕ := 64

def maxResidualInValues : ℕ := 64

def pkAttnums (attnums : ColumnAttnums) (pkColumns : List String) : List (ℤ × String) :=
  attnums.columns.filter fun p ↦ pkColumns.contains p.2

def extendValues (attnum : ℤ) (values : List J) : List (ℤ × List J) → List (ℤ × List J)
  | [] => [(attnum, values)]
  | (k, vs) :: rest =>
    if k = attnum then (k, vs ++ values) :: rest else (k, vs) :: extendValues attnum values rest

def classify (attnums : ColumnAttnums) (pkColumns : List String) :
    List (RawLeaf J) → List (ℤ × List J) → List (ResidualLeaf J) →
      Option (List (ℤ × List J) × List (ResidualLeaf J))
  | [], pkValues, residual => some (pkValues, residual)
  | leaf :: rest, pkValues, residual =>
    if ((pkAttnums attnums pkColumns).lookup leaf.attnum).isSome then
      if leaf.operator ≠ .eq then none
      else classify attnums pkColumns rest (extendValues leaf.attnum leaf.values pkValues) residual
    else
      match attnums.columns.lookup leaf.attnum with
      | none => none
      | some name =>
        if leaf.values.isEmpty ∨ maxResidualInValues < leaf.values.length then none
        else classify attnums pkColumns rest pkValues
          (residual ++ [⟨name, leaf.operator, leaf.values⟩])

def expand (pk : List (ℤ × String)) :
    List (ℤ × List J) → List (NamedCells J) → Option (List (NamedCells J))
  | [], combinations => some combinations
  | (attnum, values) :: rest, combinations =>
    match pk.lookup attnum with
    | none => none
    | some name =>
      if values.isEmpty then none
      else if maxCandidateCombinations < combinations.length * values.length then none
      else expand pk rest (combinations.flatMap fun base ↦ values.map fun value ↦
        update base name (some value))

def resolvePredicate (order : List (ℤ × List J) → List (ℤ × List J)) (raw : List (RawLeaf J))
    (pkColumns : List String) (attnums : ColumnAttnums) :
    Option (List (NamedCells J) × List (ResidualLeaf J)) :=
  if pkColumns.isEmpty then none
  else
    match classify attnums pkColumns raw [] [] with
    | none => none
    | some (pkValues, residual) =>
      if (pkAttnums attnums pkColumns).length ≠ pkColumns.length ∨
          pkValues.length ≠ (pkAttnums attnums pkColumns).length then none
      else
        (expand (pkAttnums attnums pkColumns) (order pkValues) [fun _ ↦ none]).map fun candidates ↦
          (candidates, residual)

section Meaning

variable (holds : String → ComparisonOp → C → J → Prop) (attnums : ColumnAttnums)
  (pkColumns : List String) (row : String → C)

def RawLeaf.Satisfied (leaf : RawLeaf J) : Prop :=
  ∃ name, attnums.columns.lookup leaf.attnum = some name ∧
    ∃ v ∈ leaf.values, holds name leaf.operator (row name) v

def ResidualLeaf.Satisfied (leaf : ResidualLeaf J) : Prop :=
  ∃ v ∈ leaf.values, holds leaf.column leaf.operator (row leaf.column) v

def IsCandidate (candidate : NamedCells J) : Prop :=
  ∀ name ∈ pkColumns, ∃ v, candidate name = some v ∧ holds name .eq (row name) v

/-- The guard sees what the statement says. -/
def Resolves (raw : List (RawLeaf J)) (candidates : List (NamedCells J))
    (residual : List (ResidualLeaf J)) : Prop :=
  ∀ row : String → C, (∀ leaf ∈ raw, leaf.Satisfied holds attnums row) ↔
    (∃ c ∈ candidates, IsCandidate holds pkColumns row c) ∧ ∀ r ∈ residual, r.Satisfied holds row

def OnKey (leaf : RawLeaf J) (name : String) : Prop :=
  (leaf.attnum, name) ∈ pkAttnums attnums pkColumns

def Agree (raw : List (RawLeaf J)) : Prop :=
  ∀ leaf ∈ raw, ∀ leaf' ∈ raw, ∀ name, OnKey attnums pkColumns leaf name →
    OnKey attnums pkColumns leaf' name → ∀ cell : C,
      (∃ v ∈ leaf.values, holds name .eq cell v) → ∃ v ∈ leaf'.values, holds name .eq cell v

end Meaning

variable {name : String}

section Tables

variable {k : ℤ}

theorem lookup_eq_some {l : List (ℤ × String)} (h : (l.map Prod.fst).Nodup) :
    l.lookup k = some name ↔ (k, name) ∈ l := by
  induction l with
  | nil => simp
  | cons p l ih =>
    obtain ⟨k', name'⟩ := p
    rw [map_cons, nodup_cons] at h
    rw [lookup_cons, mem_cons, Prod.mk.injEq]
    by_cases hk : k = k'
    · subst hk
      have hn : (k, name) ∉ l := fun hmem ↦ h.1 (mem_map.2 ⟨_, hmem, rfl⟩)
      simp [hn, eq_comm]
    · have hb : (k == k') = false := by simpa using hk
      rw [hb]
      simp [hk, ih h.2]

variable {attnums : ColumnAttnums} {pkColumns : List String}

theorem pkAttnums_nodup : ((pkAttnums attnums pkColumns).map Prod.fst).Nodup :=
  attnums.attnums_nodup.sublist (filter_sublist.map _)

theorem mem_pkAttnums : (k, name) ∈ pkAttnums attnums pkColumns ↔
      attnums.columns.lookup k = some name ∧ name ∈ pkColumns := by
  rw [pkAttnums, mem_filter, lookup_eq_some attnums.attnums_nodup]
  simp

theorem eq_of_name_eq {k' : ℤ} (h : attnums.columns.lookup k = some name)
    (h' : attnums.columns.lookup k' = some name) : k = k' := by
  rw [lookup_eq_some attnums.attnums_nodup] at h h'
  exact congrArg Prod.fst (inj_on_of_nodup_map attnums.names_nodup h h' rfl)

theorem exists_attnum (hl : (pkAttnums attnums pkColumns).length = pkColumns.length)
    (hnm : name ∈ pkColumns) : ∃ k, (k, name) ∈ pkAttnums attnums pkColumns := by
  have hnd : ((pkAttnums attnums pkColumns).map Prod.snd).Nodup :=
    attnums.names_nodup.sublist (filter_sublist.map _)
  have hs : (pkAttnums attnums pkColumns).map Prod.snd ⊆ pkColumns := by
    intro n hn
    obtain ⟨p, hp, rfl⟩ := mem_map.1 hn
    exact (mem_pkAttnums.1 hp).2
  have he := (hnd.subperm hs).perm_of_length_le (by rw [length_map, hl])
  obtain ⟨p, hp, rfl⟩ := mem_map.1 (he.mem_iff.2 hnm)
  exact ⟨p.1, hp⟩

end Tables

section Values

variable {k attnum : ℤ} {values : List J} {pkValues : List (ℤ × List J)}

theorem mem_extendValues {v : J} : (∃ vs, (k, vs) ∈ extendValues attnum values pkValues ∧ v ∈ vs) ↔
      (∃ vs, (k, vs) ∈ pkValues ∧ v ∈ vs) ∨ k = attnum ∧ v ∈ values := by
  induction pkValues with
  | nil => simp [extendValues]
  | cons p rest ih =>
    obtain ⟨k', vs'⟩ := p
    rw [extendValues]
    by_cases hk : k' = attnum
    · subst hk
      rw [if_pos rfl]
      simp only [mem_cons, Prod.mk.injEq, or_and_right, exists_or, and_assoc]
      simp only [exists_and_left, exists_eq_left, mem_append]
      rw [and_or_left, or_right_comm]
    · rw [if_neg hk]
      simp only [mem_cons, Prod.mk.injEq, or_and_right, exists_or, ih]
      rw [or_assoc]

theorem keys_extendValues : ((extendValues attnum values pkValues).map Prod.fst) =
    if attnum ∈ pkValues.map Prod.fst then pkValues.map Prod.fst
    else pkValues.map Prod.fst ++ [attnum] := by
  induction pkValues with
  | nil => simp [extendValues]
  | cons p rest ih =>
    obtain ⟨k', vs'⟩ := p
    rw [extendValues]
    by_cases hk : k' = attnum
    · simp [hk]
    · rw [if_neg hk, map_cons, ih]
      by_cases hmem : attnum ∈ rest.map Prod.fst
      · rw [if_pos hmem, if_pos (by simp [hmem]), map_cons]
      · rw [if_neg hmem, if_neg, map_cons, cons_append]
        rw [map_cons, mem_cons, not_or]
        exact ⟨fun h ↦ hk h.symm, hmem⟩

end Values

section Classify

variable {holds : String → ComparisonOp → C → J → Prop} {attnums : ColumnAttnums}
  {pkColumns : List String} {row : String → C} {leaf : RawLeaf J} {leaves : List (RawLeaf J)}
  {pkValues pkValues' : List (ℤ × List J)} {residual residual' : List (ResidualLeaf J)}

theorem isSome_lookup_iff : ((pkAttnums attnums pkColumns).lookup leaf.attnum).isSome ↔
      ∃ name, OnKey attnums pkColumns leaf name := by
  rw [Option.isSome_iff_exists]
  simp only [lookup_eq_some pkAttnums_nodup, OnKey]

theorem classify_cons {out : List (ℤ × List J) × List (ResidualLeaf J)}
    (h : classify attnums pkColumns (leaf :: leaves) pkValues residual = some out) :
    ((∃ name, OnKey attnums pkColumns leaf name) ∧ leaf.operator = .eq ∧
      classify attnums pkColumns leaves (extendValues leaf.attnum leaf.values pkValues) residual =
        some out) ∨ ((¬∃ name, OnKey attnums pkColumns leaf name) ∧
      ∃ name, attnums.columns.lookup leaf.attnum = some name ∧
        classify attnums pkColumns leaves pkValues
          (residual ++ [⟨name, leaf.operator, leaf.values⟩]) = some out) := by
  rw [classify] at h
  by_cases hk : ((pkAttnums attnums pkColumns).lookup leaf.attnum).isSome
  · rw [if_pos hk] at h
    by_cases hop : leaf.operator = .eq
    · rw [if_neg (not_not.2 hop)] at h
      exact .inl ⟨isSome_lookup_iff.1 hk, hop, h⟩
    · rw [if_pos hop] at h
      cases h
  · rw [if_neg hk] at h
    refine .inr ⟨fun hon ↦ hk (isSome_lookup_iff.2 hon), ?_⟩
    cases hnm : attnums.columns.lookup leaf.attnum with
    | none =>
      simp only [hnm] at h
      cases h
    | some name =>
      simp only [hnm] at h
      by_cases hvs : leaf.values.isEmpty ∨ maxResidualInValues < leaf.values.length
      · rw [if_pos hvs] at h
        cases h
      · rw [if_neg hvs] at h
        exact ⟨name, rfl, h⟩

variable (h : classify attnums pkColumns leaves pkValues residual = some (pkValues', residual'))
include h

theorem operator_of_classify (hlf : leaf ∈ leaves)
    (hk : ∃ name, OnKey attnums pkColumns leaf name) : leaf.operator = .eq := by
  induction leaves generalizing pkValues residual with
  | nil => cases hlf
  | cons first leaves ih =>
    rcases classify_cons h with ⟨-, hop, h⟩ | ⟨hn, name, -, h⟩
    · rcases mem_cons.1 hlf with rfl | hlf
      · exact hop
      · exact ih h hlf
    · rcases mem_cons.1 hlf with rfl | hlf
      · exact absurd hk hn
      · exact ih h hlf

theorem residual_of_classify : (∀ r ∈ residual', r.Satisfied holds row) ↔
      (∀ r ∈ residual, r.Satisfied holds row) ∧
        ∀ leaf ∈ leaves, (¬∃ name, OnKey attnums pkColumns leaf name) →
          leaf.Satisfied holds attnums row := by
  induction leaves generalizing pkValues residual with
  | nil =>
    cases h
    simp
  | cons first leaves ih =>
    rw [forall_mem_cons]
    rcases classify_cons h with ⟨hk, -, h⟩ | ⟨hn, name, hnm, h⟩
    · rw [ih h]
      simp [hk]
    · have hf : first.Satisfied holds attnums row ↔
          ResidualLeaf.Satisfied holds row ⟨name, first.operator, first.values⟩ := by
        simp [RawLeaf.Satisfied, ResidualLeaf.Satisfied, hnm]
      rw [ih h, forall_mem_append, forall_mem_singleton, ← hf, and_assoc]
      simp only [hn, not_false_eq_true, forall_true_left]

theorem values_of_classify {k : ℤ} {v : J} : (∃ vs, (k, vs) ∈ pkValues' ∧ v ∈ vs) ↔
      (∃ vs, (k, vs) ∈ pkValues ∧ v ∈ vs) ∨
        ∃ leaf ∈ leaves, (∃ name, OnKey attnums pkColumns leaf name) ∧
          k = leaf.attnum ∧ v ∈ leaf.values := by
  induction leaves generalizing pkValues residual with
  | nil =>
    cases h
    simp
  | cons first leaves ih =>
    rw [exists_mem_cons_iff]
    rcases classify_cons h with ⟨hk, -, h⟩ | ⟨hn, name, -, h⟩
    · rw [ih h, mem_extendValues, or_assoc]
      simp only [hk, true_and]
    · rw [ih h]
      simp only [hn, false_and, false_or]

theorem keys_of_classify (hnd : (pkValues.map Prod.fst).Nodup)
    (hs : pkValues.map Prod.fst ⊆ (pkAttnums attnums pkColumns).map Prod.fst) :
    (pkValues'.map Prod.fst).Nodup ∧
      pkValues'.map Prod.fst ⊆ (pkAttnums attnums pkColumns).map Prod.fst := by
  induction leaves generalizing pkValues residual with
  | nil =>
    cases h
    exact ⟨hnd, hs⟩
  | cons first leaves ih =>
    rcases classify_cons h with ⟨⟨name, hk⟩, -, h⟩ | ⟨-, name, -, h⟩
    · refine ih h ?_ ?_
      · rw [keys_extendValues]
        split_ifs with hmem
        · exact hnd
        · exact (nodup_append_comm.1 (nodup_cons.2 ⟨hmem, hnd⟩))
      · rw [keys_extendValues]
        split_ifs with hmem
        · exact hs
        · refine append_subset.2 ⟨hs, cons_subset.2 ⟨?_, nil_subset _⟩⟩
          exact mem_map.2 ⟨_, hk, rfl⟩
    · exact ih h hnd hs

theorem exists_leaf_of_classify {k : ℤ} (hk : k ∈ pkValues'.map Prod.fst) :
    k ∈ pkValues.map Prod.fst ∨ ∃ leaf ∈ leaves, leaf.attnum = k := by
  induction leaves generalizing pkValues residual with
  | nil =>
    cases h
    exact .inl hk
  | cons first leaves ih =>
    rw [exists_mem_cons_iff]
    rcases classify_cons h with ⟨-, -, h⟩ | ⟨-, name, -, h⟩
    · rcases ih h with hk | hlf
      · rw [keys_extendValues] at hk
        split_ifs at hk
        · exact .inl hk
        · rcases mem_append.1 hk with hk | hk
          · exact .inl hk
          · exact .inr (.inl (mem_singleton.1 hk).symm)
      · exact .inr (.inr hlf)
    · exact (ih h).imp_right .inr

omit h

end Classify

section Expand

variable {holds : String → ComparisonOp → C → J → Prop} {attnums : ColumnAttnums}
  {pkColumns : List String} {row : String → C}

variable {names : List String}

theorem isCandidate_update (hnm : name ∉ names) {base : NamedCells J} {value : J} :
    IsCandidate holds (name :: names) row (update base name (some value)) ↔
      holds name .eq (row name) value ∧ IsCandidate holds names row base := by
  rw [IsCandidate, forall_mem_cons]
  refine and_congr ?_ (forall₂_congr fun n hn ↦ ?_)
  · simp
  · rw [update_of_ne (fun h : n = name ↦ hnm (h ▸ hn))]

variable {combinations : List (NamedCells J)}

theorem exists_isCandidate_flatMap (hnm : name ∉ names) {values : List J} :
    (∃ c ∈ combinations.flatMap fun base ↦ values.map fun value ↦
        update base name (some value), IsCandidate holds (name :: names) row c) ↔
      (∃ v ∈ values, holds name .eq (row name) v) ∧
        ∃ c ∈ combinations, IsCandidate holds names row c := by
  constructor
  · rintro ⟨c, hc, ha⟩
    obtain ⟨base, hba, hc⟩ := mem_flatMap.1 hc
    obtain ⟨v, hv, rfl⟩ := mem_map.1 hc
    have hb := (isCandidate_update hnm).1 ha
    exact ⟨⟨v, hv, hb.1⟩, base, hba, hb.2⟩
  · rintro ⟨⟨v, hv, hh⟩, base, hba, ha⟩
    exact ⟨_, mem_flatMap.2 ⟨base, hba, mem_map.2 ⟨v, hv, rfl⟩⟩,
      (isCandidate_update hnm).2 ⟨hh, ha⟩⟩

variable (holds row) in
theorem exists_isCandidate_expand {entries : List (ℤ × List J)}
    {candidates : List (NamedCells J)} (names : List String)
    (h : expand (pkAttnums attnums pkColumns) entries combinations = some candidates)
    (hnd : (entries.map Prod.fst).Nodup) (hf : ∀ k ∈ entries.map Prod.fst, ∀ name,
      (k, name) ∈ pkAttnums attnums pkColumns → name ∉ names) :
    ∃ all : List String, (∀ name, name ∈ all ↔ name ∈ names ∨
        ∃ k ∈ entries.map Prod.fst, (k, name) ∈ pkAttnums attnums pkColumns) ∧
      ((∃ c ∈ candidates, IsCandidate holds all row c) ↔
        (∃ c ∈ combinations, IsCandidate holds names row c) ∧
          ∀ entry ∈ entries, ∃ name, (entry.1, name) ∈ pkAttnums attnums pkColumns ∧
            ∃ v ∈ entry.2, holds name .eq (row name) v) := by
  induction entries generalizing combinations names with
  | nil =>
    rw [expand, Option.some.injEq] at h
    exact ⟨names, by simp, by simp [h]⟩
  | cons entry entries ih =>
    obtain ⟨k, values⟩ := entry
    rw [map_cons, nodup_cons] at hnd
    rw [expand] at h
    cases hnm : (pkAttnums attnums pkColumns).lookup k with
    | none =>
      simp only [hnm] at h
      cases h
    | some name =>
      simp only [hnm] at h
      split_ifs at h
      have hmem := (lookup_eq_some pkAttnums_nodup).1 hnm
      have huq : ∀ name', (k, name') ∈ pkAttnums attnums pkColumns ↔ name' = name := by
        intro name'
        rw [← lookup_eq_some pkAttnums_nodup, hnm, Option.some.injEq, eq_comm]
      have hn : name ∉ names := hf k (by simp) name hmem
      have hf' : ∀ k' ∈ entries.map Prod.fst, ∀ name',
          (k', name') ∈ pkAttnums attnums pkColumns → name' ∉ name :: names := by
        intro k' hk' name' hmem' hin
        rcases mem_cons.1 hin with rfl | hin
        · have heq := eq_of_name_eq (mem_pkAttnums.1 hmem').1 (mem_pkAttnums.1 hmem).1
          exact hnd.1 (heq ▸ hk')
        · exact hf k' (mem_cons_of_mem _ hk') name' hmem' hin
      obtain ⟨all, ha, hi⟩ := ih _ h hnd.2 hf'
      refine ⟨all, fun name' ↦ ?_, ?_⟩
      · rw [ha, map_cons, exists_mem_cons_iff, huq, mem_cons, ← or_assoc,
          or_comm (a := name' = name)]
      · rw [hi, exists_isCandidate_flatMap hn, forall_mem_cons]
        simp only [huq, exists_eq_left]
        rw [and_comm (b := ∃ c ∈ combinations, _), and_assoc]

end Expand

section Guard

variable {holds : String → ComparisonOp → C → J → Prop} {attnums : ColumnAttnums}
  {pkColumns : List String} {order : List (ℤ × List J) → List (ℤ × List J)}
  {raw : List (RawLeaf J)} {candidates : List (NamedCells J)} {residual : List (ResidualLeaf J)}

variable (holds attnums pkColumns raw) in
def Guarded (row : String → C) : Prop :=
  (∀ leaf ∈ raw, (¬∃ name, OnKey attnums pkColumns leaf name) → leaf.Satisfied holds attnums row) ∧
    ∀ name ∈ pkColumns, ∃ leaf ∈ raw, OnKey attnums pkColumns leaf name ∧
      ∃ v ∈ leaf.values, holds name .eq (row name) v

theorem resolvePredicate_eq_some
    (h : resolvePredicate order raw pkColumns attnums = some (candidates, residual)) :
    ∃ pkValues, classify attnums pkColumns raw [] [] = some (pkValues, residual) ∧
      (pkAttnums attnums pkColumns).length = pkColumns.length ∧
      pkValues.length = (pkAttnums attnums pkColumns).length ∧
      expand (pkAttnums attnums pkColumns) (order pkValues) [fun _ ↦ none] = some candidates := by
  rw [resolvePredicate] at h
  split_ifs at h
  cases hc : classify attnums pkColumns raw [] [] with
  | none =>
    simp only [hc] at h
    cases h
  | some out =>
    obtain ⟨pkValues, residual'⟩ := out
    simp only [hc] at h
    split_ifs at h with hl
    rw [not_or, not_not, not_not] at hl
    obtain ⟨candidates', he, heq⟩ := Option.map_eq_some_iff.1 h
    rw [Prod.mk.injEq] at heq
    rw [← heq.1, ← heq.2]
    exact ⟨pkValues, rfl, hl.1, hl.2, he⟩

variable {row : String → C}

theorem forall_entries_iff {pkValues : List (ℤ × List J)}
    (hc : classify attnums pkColumns raw [] [] = some (pkValues, residual))
    (ha : (pkAttnums attnums pkColumns).length = pkColumns.length)
    (hnd : (pkValues.map Prod.fst).Nodup)
    (hks : ∀ k, k ∈ pkValues.map Prod.fst ↔ k ∈ (pkAttnums attnums pkColumns).map Prod.fst) :
    (∀ entry ∈ pkValues, ∃ name, (entry.1, name) ∈ pkAttnums attnums pkColumns ∧
        ∃ v ∈ entry.2, holds name .eq (row name) v) ↔
      ∀ name ∈ pkColumns, ∃ leaf ∈ raw, OnKey attnums pkColumns leaf name ∧
        ∃ v ∈ leaf.values, holds name .eq (row name) v := by
  constructor
  · intro hn name hnm
    obtain ⟨k, hk⟩ := exists_attnum ha hnm
    obtain ⟨entry, he, rfl⟩ := mem_map.1 ((hks k).2 (mem_map.2 ⟨_, hk, rfl⟩))
    obtain ⟨name', hnm', v, hv, hh⟩ := hn entry he
    have heq : name' = name := by
      have h' := (mem_pkAttnums.1 hnm').1
      rw [(mem_pkAttnums.1 hk).1, Option.some.injEq] at h'
      exact h'.symm
    subst heq
    rcases (values_of_classify hc).1 ⟨entry.2, he, hv⟩ with ⟨vs, hvs, -⟩ |
        ⟨leaf, hlf, -, ht, hin⟩
    · cases hvs
    · exact ⟨leaf, hlf, by rwa [OnKey, ← ht], v, hin, hh⟩
  · intro hl entry he
    obtain ⟨⟨k, name⟩, hk, hf⟩ := mem_map.1 ((hks _).1 (mem_map.2 ⟨_, he, rfl⟩))
    obtain ⟨leaf, hlf, hon, v, hv, hh⟩ := hl name (mem_pkAttnums.1 hk).2
    have ht : k = leaf.attnum := eq_of_name_eq (mem_pkAttnums.1 hk).1 (mem_pkAttnums.1 hon).1
    obtain ⟨vs, hvs, hin⟩ := (values_of_classify hc (k := k)).2
      (.inr ⟨leaf, hlf, ⟨name, hon⟩, ht, hv⟩)
    have heq : (k, vs) = entry := inj_on_of_nodup_map hnd hvs he hf
    subst heq
    exact ⟨name, hk, v, hin, hh⟩

theorem guarded_iff (ho : ∀ l, (order l).Perm l)
    (h : resolvePredicate order raw pkColumns attnums = some (candidates, residual))
    (row : String → C) :
    Guarded holds attnums pkColumns raw row ↔
      (∃ c ∈ candidates, IsCandidate holds pkColumns row c) ∧
        ∀ r ∈ residual, r.Satisfied holds row := by
  obtain ⟨pkValues, hc, ha, hl, he⟩ := resolvePredicate_eq_some h
  obtain ⟨hnd, hs⟩ := keys_of_classify hc (by simp) (by simp)
  have hks : (pkValues.map Prod.fst).Perm ((pkAttnums attnums pkColumns).map Prod.fst) :=
    (hnd.subperm hs).perm_of_length_le (by simp [hl])
  have hp := (ho pkValues).map Prod.fst
  obtain ⟨all, hmem, hi⟩ := exists_isCandidate_expand holds row [] he
    (hp.nodup_iff.2 hnd) (fun _ _ _ _ ↦ not_mem_nil)
  have hcols : ∀ name, name ∈ all ↔ name ∈ pkColumns := by
    intro name
    rw [hmem]
    constructor
    · rintro (hnil | ⟨k, -, hk⟩)
      · cases hnil
      · exact (mem_pkAttnums.1 hk).2
    · intro hnm
      obtain ⟨k, hk⟩ := exists_attnum ha hnm
      exact .inr ⟨k, (hp.trans hks).mem_iff.2 (mem_map.2 ⟨_, hk, rfl⟩), hk⟩
  have hcand : (∃ c ∈ candidates, IsCandidate holds pkColumns row c) ↔
      ∃ c ∈ candidates, IsCandidate holds all row c := by
    simp only [IsCandidate, hcols]
  have hst : ∃ c ∈ [fun _ ↦ none], IsCandidate holds [] row (c : NamedCells J) :=
    ⟨_, mem_singleton_self _, nofun⟩
  have hnil : ∀ r ∈ ([] : List (ResidualLeaf J)), r.Satisfied holds row := by simp
  rw [hcand, hi, residual_of_classify hc, and_iff_right hst, and_iff_right hnil,
    Guarded, ← forall_entries_iff hc ha hnd fun k ↦ hks.mem_iff, and_comm]
  simp only [(ho pkValues).mem_iff]

variable (h : resolvePredicate order raw pkColumns attnums = some (candidates, residual))
include h

theorem exists_onKey (hnm : name ∈ pkColumns) :
    ∃ leaf ∈ raw, OnKey attnums pkColumns leaf name := by
  obtain ⟨pkValues, hc, ha, hl, -⟩ := resolvePredicate_eq_some h
  obtain ⟨hnd, hs⟩ := keys_of_classify hc (by simp) (by simp)
  have hks := (hnd.subperm hs).perm_of_length_le (by simp [hl])
  obtain ⟨k, hk⟩ := exists_attnum ha hnm
  have hmem := hks.mem_iff.2 (mem_map.2 ⟨_, hk, rfl⟩)
  rcases exists_leaf_of_classify hc hmem with hn | ⟨leaf, hlf, ht⟩
  · cases hn
  · exact ⟨leaf, hlf, by rwa [OnKey, ht]⟩

variable {leaf : RawLeaf J}

theorem satisfied_iff_of_onKey (hlf : leaf ∈ raw) (hon : OnKey attnums pkColumns leaf name) :
    leaf.Satisfied holds attnums row ↔ ∃ v ∈ leaf.values, holds name .eq (row name) v := by
  obtain ⟨pkValues, hc, -⟩ := resolvePredicate_eq_some h
  have hop := operator_of_classify hc hlf ⟨name, hon⟩
  simp only [RawLeaf.Satisfied, (mem_pkAttnums.1 hon).1, hop, Option.some.injEq, exists_eq_left']

theorem guarded_of_satisfied (hr : ∀ leaf ∈ raw, leaf.Satisfied holds attnums row) :
    Guarded holds attnums pkColumns raw row := by
  refine ⟨fun leaf hlf _ ↦ hr leaf hlf, fun name hnm ↦ ?_⟩
  obtain ⟨leaf, hlf, hon⟩ := exists_onKey h hnm
  exact ⟨leaf, hlf, hon, (satisfied_iff_of_onKey h hlf hon).1 (hr leaf hlf)⟩

theorem satisfied_of_guarded
    (ha : Agree holds attnums pkColumns raw) (hr : Guarded holds attnums pkColumns raw row) :
    ∀ leaf ∈ raw, leaf.Satisfied holds attnums row := by
  intro leaf hlf
  by_cases hk : ∃ name, OnKey attnums pkColumns leaf name
  · obtain ⟨name, hon⟩ := hk
    obtain ⟨leaf', hlf', hon', hs⟩ := hr.2 name (mem_pkAttnums.1 hon).2
    exact (satisfied_iff_of_onKey h hlf hon).2
      (ha leaf' hlf' leaf hlf name hon' hon (row name) hs)
  · exact hr.1 leaf hlf hk

omit h

theorem guarded_update (hr : Guarded holds attnums pkColumns raw row)
    (hlf : leaf ∈ raw) (hon : OnKey attnums pkColumns leaf name) {cell : C}
    (hc : ∃ v ∈ leaf.values, holds name .eq cell v) :
    Guarded holds attnums pkColumns raw (update row name cell) := by
  constructor
  · intro other ho hn
    obtain ⟨name', hnm', hs⟩ := hr.1 other ho hn
    have hne : name' ≠ name := by
      rintro rfl
      exact hn ⟨name', mem_pkAttnums.2 ⟨hnm', (mem_pkAttnums.1 hon).2⟩⟩
    exact ⟨name', hnm', by rwa [update_of_ne hne]⟩
  · intro name' hnm'
    by_cases heq : name' = name
    · subst heq
      exact ⟨leaf, hlf, hon, by rwa [update_self]⟩
    · rw [update_of_ne heq]
      exact hr.2 name' hnm'

/-- **The guard's reading of a predicate.** -/
theorem resolves_iff (horder : ∀ l, (order l).Perm l)
    (h : resolvePredicate order raw pkColumns attnums = some (candidates, residual)) :
    Resolves holds attnums pkColumns raw candidates residual ↔
      ((∃ row, Guarded holds attnums pkColumns raw row) → Agree holds attnums pkColumns raw) := by
  simp only [Resolves, ← guarded_iff horder h]
  constructor
  · rintro hr ⟨row, hrow⟩ leaf hlf leaf' hlf' name hon hon' cell hc
    have ha := (hr _).2 (guarded_update hrow hlf hon hc)
    have hs := (satisfied_iff_of_onKey h hlf' hon').1 (ha leaf' hlf')
    rwa [update_self] at hs
  · intro hg row
    exact ⟨guarded_of_satisfied h, fun hrow ↦ satisfied_of_guarded h (hg ⟨row, hrow⟩) hrow⟩

/-- A table with the key column `id` and another one. -/
def idNote : ColumnAttnums := ⟨[(1, "id"), (2, "note")], by decide, by decide⟩

theorem resolves_iff_in : ∃ candidates residual,
    resolvePredicate id [⟨1, .eq, [1, 2]⟩, ⟨2, .gt, [5]⟩] ["id"] idNote =
        some (candidates, residual) ∧
      Resolves (fun _ op (cell v : ℕ) ↦ if op = .eq then cell = v else v < cell) idNote ["id"]
        [⟨1, .eq, [1, 2]⟩, ⟨2, .gt, [5]⟩] candidates residual := by
  have ho : ∀ l : List (ℤ × List ℕ), (id l).Perm l := fun l ↦ List.Perm.refl l
  have hs : ∀ name, (2, name) ∉ pkAttnums idNote ["id"] := by
    intro name hmem
    have hid := (mem_pkAttnums.1 hmem).2
    have hn := (mem_pkAttnums.1 hmem).1
    rw [mem_singleton.1 hid] at hn
    exact absurd hn (by decide)
  refine ⟨_, _, rfl, (resolves_iff ho rfl).2 fun _ ↦ ?_⟩
  intro leaf hlf leaf' hlf' name hon hon' cell hc
  simp only [mem_cons, not_mem_nil, or_false] at hlf hlf'
  rcases hlf with rfl | rfl
  · rcases hlf' with rfl | rfl
    · exact hc
    · exact absurd hon' (hs name)
  · exact absurd hon (hs name)

/-- `id IN (1, 2) AND id = 3` resolves to three candidates. -/
theorem not_resolves_both : ∃ candidates,
    resolvePredicate id [⟨1, .eq, [1, 2]⟩, ⟨1, .eq, [3]⟩] ["id"] idNote = some (candidates, []) ∧
      ¬Resolves (fun _ _ (cell v : ℕ) ↦ cell = v) idNote ["id"]
        [⟨1, .eq, [1, 2]⟩, ⟨1, .eq, [3]⟩] candidates [] := by
  refine ⟨_, rfl, fun hr ↦ ?_⟩
  have hrow := (hr fun _ ↦ 1).2 ⟨⟨_, mem_cons_self, by simp [IsCandidate]⟩, by simp⟩
  obtain ⟨name, -, v, hv, heq⟩ := hrow ⟨1, .eq, [3]⟩ (by simp)
  rw [mem_singleton.1 hv] at heq
  cases heq

end Guard

end Koldstore.PkPredicate
