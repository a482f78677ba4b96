import Koldstore.Flush.Metadata

/-!
# Framed key tuples

The columns of a key are framed so that tuples compare as byte strings.
-/

namespace Koldstore

open SortKey ByteOrder Accumulate List Except

/-! ### Frames -/

theorem frameComponent_cons (byte : Fin 256) (bytes : Bytes) : frameComponent (byte :: bytes) =
    byte :: ((if byte = 0 then [0xFF] else []) ++ frameComponent bytes) := by
  rw [frameComponent, flatMap_cons, List.append_assoc]
  split_ifs with h
  · rw [h]
    rfl
  · rfl

theorem lexCmp_terminator (byte : Fin 256) (x y : Bytes) :
    lexCmp (0 :: 1 :: x) (byte :: ((if byte = 0 then [0xFF] else []) ++ y)) = .lt := by
  by_cases h : byte = 0
  · rw [if_pos h, h]
    rfl
  · have hlt : (0 : Fin 256) < byte := Fin.pos_of_ne_zero h
    rw [lexCmp_cons_cons, hlt.cmp_eq_lt]
    rfl

/-- **The escape argument.** -/
theorem lexCmp_frameComponent (a b x y : Bytes) :
    lexCmp (frameComponent a ++ x) (frameComponent b ++ y) = (lexCmp a b).then (lexCmp x y) := by
  induction a generalizing b with
  | nil =>
    cases b with
    | nil => exact lexCmp_append_left [0, 1] x y
    | cons byte b =>
      rw [frameComponent_cons, cons_append, List.append_assoc]
      exact lexCmp_terminator byte x _
  | cons byte a ih =>
    cases b with
    | nil =>
      rw [frameComponent_cons, cons_append, List.append_assoc, ← lexCmp_swap]
      exact congrArg Ordering.swap (lexCmp_terminator byte y _)
    | cons byte' b =>
      rw [frameComponent_cons, frameComponent_cons, cons_append, cons_append,
        lexCmp_cons_cons, lexCmp_cons_cons]
      have hc := cmp_compares byte byte'
      cases h : cmp byte byte' with
      | lt => rfl
      | gt => rfl
      | eq =>
        rw [h] at hc
        obtain rfl : byte = byte' := hc
        rw [List.append_assoc, List.append_assoc, Ordering.then, lexCmp_append_left]
        exact ih b

def frameTuple (components : List Bytes) : Bytes := components.flatMap frameComponent

theorem lexCmp_frameTuple {t u : List Bytes} (h : t.length = u.length) :
    lexCmp (frameTuple t) (frameTuple u) = lexCmp t u := by
  induction t generalizing u with
  | nil =>
    obtain rfl := length_eq_zero_iff.1 h.symm
    rfl
  | cons a t ih =>
    obtain ⟨b, u, rfl⟩ := exists_cons_of_length_eq_add_one h.symm
    rw [lexCmp_cons_cons, (compares_lexCmp a b).cmp_eq, ← ih (by simpa using h),
      ← lexCmp_frameComponent]
    rfl

namespace RowCodec

variable {R : Type*} {codec : RowCodec} {arrays : List (KeyColumn × ArrowArray R)} {row : R}

/-- The row's key columns have the encodings `components`. -/
def Components (codec : RowCodec) (arrays : List (KeyColumn × ArrowArray R)) (row : R)
    (components : List Bytes) : Prop :=
  List.Forall₂ (fun p bytes ↦ codec.encodeComponent p.2 p.1.2 row p.1.1 = .ok (some bytes)) arrays
    components

theorem rowTuple_eq_ok_iff {tuple : Bytes} : codec.rowTuple arrays row = .ok tuple ↔
    ∃ components, codec.Components arrays row components ∧ frameTuple components = tuple := by
  induction arrays generalizing tuple with
  | nil => simp [rowTuple, Components, frameTuple]
  | cons p arrays ih =>
    simp only [rowTuple, bind_eq_ok_iff, Components, forall₂_cons_left_iff]
    constructor
    · rintro ⟨_ | bytes, hbs, hre⟩
      · cases hre
      · obtain ⟨key, hk, rfl⟩ := map_eq_ok_iff.1 hre
        obtain ⟨components, hc, rfl⟩ := ih.1 hk
        exact ⟨_, ⟨bytes, components, hbs, hc, rfl⟩, rfl⟩
    · rintro ⟨-, ⟨bytes, components, hbs, hc, rfl⟩, rfl⟩
      have hk := ih.2 ⟨components, hc, rfl⟩
      exact ⟨some bytes, hbs, map_eq_ok_iff.2 ⟨_, hk, rfl⟩⟩

end RowCodec

namespace KeyBoundsState

variable {R : Type*} {codec : RowCodec} {schema : ArrowSchema R} {columns : List KeyColumn}
  {arrays : List (KeyColumn × ArrowArray R)}

theorem collect_rowTuple_eq_some_iff {rows : List R} {tuples : List Bytes} :
    collect (fun row ↦ (codec.rowTuple arrays row).toOption.map some) rows = some tuples ↔
      List.Forall₂ (fun row tuple ↦ codec.rowTuple arrays row = .ok tuple) rows tuples := by
  induction rows generalizing tuples with
  | nil => simp [collect, eq_comm]
  | cons row rows ih =>
    simp only [collect_cons_eq_some, forall₂_cons_left_iff, Option.map_eq_some_iff,
      toOption_eq_some_iff, ih]
    constructor
    · rintro ⟨_, rest, ⟨tuple, ht, rfl⟩, hre, rfl⟩
      exact ⟨tuple, rest, ht, hre, rfl⟩
    · rintro ⟨tuple, rest, ht, hre, rfl⟩
      exact ⟨_, rest, ⟨tuple, ht, rfl⟩, hre, rfl⟩

theorem finish_addBatch (h : RowCodec.Resolves schema columns arrays) (columnId : ℤ)
    (rows : List R) (rowCount : ℕ) :
    (addBatch codec schema ⟨columns, columnId, some .new⟩ rows).finish rowCount =
      (collect (fun row ↦ (codec.rowTuple arrays row).toOption.map some) rows).bind fun tuples ↦
        if rows.length = rowCount then (tuples.foldl Extremes.add .empty).bounds else none := by
  have hb : (addBatch codec schema ⟨columns, columnId, some .new⟩ rows).builder = _ :=
    RowCodec.toOption_addBatch h .new rows
  rw [finish, hb]
  cases ht : collect (fun row ↦ (codec.rowTuple arrays row).toOption.map some) rows with
  | none => rfl
  | some tuples =>
    have hl := (collect_rowTuple_eq_some_iff.1 ht).length_eq
    rw [Option.map_some, Option.bind_some, Option.bind_some, KeyBoundsBuilder.foldl_add,
      KeyBoundsBuilder.finish, hl]
    by_cases he : tuples.length = rowCount
    · rw [if_neg (by simpa [KeyBoundsBuilder.new] using he), if_pos he]
      rfl
    · rw [if_pos (by simpa [KeyBoundsBuilder.new] using he), if_neg he]

theorem finish_batches (h : RowCodec.Resolves schema columns arrays) (columnId : ℤ)
    (batches : List (List R)) (rowCount : ℕ) :
    (batches.foldl (addBatch codec schema) ⟨columns, columnId, some .new⟩).finish rowCount =
      (collect (fun row ↦ (codec.rowTuple arrays row).toOption.map some) batches.flatten).bind
        fun tuples ↦ if batches.flatten.length = rowCount
          then (tuples.foldl Extremes.add .empty).bounds else none := by
  rw [finish_foldl h, finish_addBatch h]

/-- **Tuple keys.** Framed tuples of one shape compare as their components do, one after the other,
and only equal tuples have equal frames. The bounds of a segment are those of its rows' tuples;
there are none when a row has no tuple or the rows fed are not as many as the segment has. -/
theorem tupleKeys_spec (codec : RowCodec) (schema : ArrowSchema R) (columnId : ℤ)
    (h : RowCodec.Resolves schema columns arrays) (batches : List (List R)) :
    (∀ t u : List Bytes, t.length = u.length →
      lexCmp (frameTuple t) (frameTuple u) = lexCmp t u ∧ (frameTuple t = frameTuple u ↔ t = u)) ∧
    (∀ row tuple, codec.rowTuple arrays row = .ok tuple ↔
      ∃ components, codec.Components arrays row components ∧ frameTuple components = tuple) ∧
    (∀ lo hi, (batches.foldl (addBatch codec schema) ⟨columns, columnId, some .new⟩).finish
        batches.flatten.length = some (lo, hi) ↔
      (∀ row ∈ batches.flatten, ∃ tuple, codec.rowTuple arrays row = .ok tuple ∧
        lo ≤ tuple ∧ tuple ≤ hi) ∧ (∃ row ∈ batches.flatten, codec.rowTuple arrays row = .ok lo) ∧
      ∃ row ∈ batches.flatten, codec.rowTuple arrays row = .ok hi) ∧
    ((batches.foldl (addBatch codec schema) ⟨columns, columnId, some .new⟩).finish
        batches.flatten.length = none ↔
      batches.flatten = [] ∨
        ∃ row ∈ batches.flatten, ∀ tuple, codec.rowTuple arrays row ≠ .ok tuple) ∧
    ∀ rowCount ≠ batches.flatten.length,
      (batches.foldl (addBatch codec schema) ⟨columns, columnId, some .new⟩).finish rowCount =
        none := by
  refine ⟨fun t u hl ↦ ?_, fun row tuple ↦ RowCodec.rowTuple_eq_ok_iff, ?_⟩
  · have hc := lexCmp_frameTuple hl
    refine ⟨hc, fun heq ↦ ?_, fun heq ↦ by rw [heq]⟩
    rw [heq, lexCmp_self] at hc
    exact (hc ▸ compares_lexCmp t u :)
  simp only [finish_batches h]
  generalize batches.flatten = rows
  rw [← and_assoc]
  refine ⟨?_, fun rowCount hne ↦ ?_⟩
  swap
  · cases collect (fun row ↦ (codec.rowTuple arrays row).toOption.map some) rows with
    | none => rfl
    | some tuples => exact if_neg hne.symm
  simp only [if_true]
  cases hu : collect (fun row ↦ (codec.rowTuple arrays row).toOption.map some) rows with
  | none =>
    obtain ⟨row, hr, hrd⟩ := collect_eq_none_iff.1 hu
    have ho : ∀ tuple, codec.rowTuple arrays row ≠ .ok tuple := by
      intro tuple heq
      rw [heq] at hrd
      cases hrd
    refine ⟨fun lo hi ↦ iff_of_false (by simp) fun hbs ↦ ?_, iff_of_true rfl ?_⟩
    · obtain ⟨tuple, heq, -⟩ := hbs.1 row hr
      exact ho tuple heq
    · exact .inr ⟨row, hr, ho⟩
  | some tuples =>
    have ha := collect_rowTuple_eq_some_iff.1 hu
    have hmem {tuple} (hr : ∃ row ∈ rows, codec.rowTuple arrays row = .ok tuple) :
        tuple ∈ tuples := by
      obtain ⟨row, hr, heq⟩ := hr
      obtain ⟨tuple', ht', heq'⟩ := Pairing.exists_right ha hr
      rwa [ok.inj (heq.symm.trans heq')]
    refine ⟨fun lo hi ↦ ⟨fun hbs ↦ ?_, fun ⟨hle, hlo, hhi⟩ ↦ ?_⟩, ?_⟩
    · obtain ⟨hlo, hhi, hle⟩ := Extremes.mem_of_bounds hbs
      refine ⟨fun row hr ↦ ?_, Pairing.exists_right ha.flip hlo, Pairing.exists_right ha.flip hhi⟩
      obtain ⟨tuple, ht, heq⟩ := Pairing.exists_right ha hr
      exact ⟨tuple, heq, hle tuple ht⟩
    · refine Extremes.bounds_eq_some (hmem hlo) (hmem hhi) fun tuple ht ↦ ?_
      obtain ⟨row, hr, heq⟩ := Pairing.exists_right ha.flip ht
      obtain ⟨tuple', heq', hb⟩ := hle row hr
      rwa [ok.inj (heq.symm.trans heq')]
    · rw [Option.bind_some, Extremes.bounds_eq_none_iff]
      refine ⟨fun hn ↦ .inl ?_, ?_⟩
      · exact forall₂_nil_right_iff.1 (hn ▸ ha)
      · rintro (rfl | ⟨row, hr, ho⟩)
        · exact forall₂_nil_left_iff.1 ha
        · obtain ⟨tuple, -, heq⟩ := Pairing.exists_right ha hr
          exact absurd heq (ho tuple)

section Shops

def shopCodec : RowCodec := ⟨.bigEndian, .error⟩

def shopSchema : ArrowSchema (Int64 × Int64) := fun name ↦
  if name = "shop" then some (.int64 fun row ↦ some row.1) else some (.int64 fun row ↦ some row.2)

def shopKey : List KeyColumn := [("shop", .int8), ("number", .int8)]

def shopArrays : List (KeyColumn × ArrowArray (Int64 × Int64)) :=
  [(("shop", .int8), .int64 fun row ↦ some row.1), (("number", .int8), .int64 fun row ↦ some row.2)]

def shopBatches : List (List (Int64 × Int64)) := [[(2, 7)], [(2, -1), (1, 9)]]

/-- Two batches of three rows: the least tuple is that of shop 1, the greatest that of order 7 in
shop 2, and an accumulator that is asked for two rows or four has nothing to say. -/
theorem tupleKeys_spec_shops :
    ∃ lo hi, shopCodec.rowTuple shopArrays (1, 9) = .ok lo ∧
      shopCodec.rowTuple shopArrays (2, 7) = .ok hi ∧
      (shopBatches.foldl (addBatch shopCodec shopSchema) ⟨shopKey, 1, some .new⟩).finish 3 =
        some (lo, hi) ∧
      (shopBatches.foldl (addBatch shopCodec shopSchema) ⟨shopKey, 1, some .new⟩).finish 2 = none ∧
      (shopBatches.foldl (addBatch shopCodec shopSchema) ⟨shopKey, 1, some .new⟩).finish 4 = none ∧
      frameTuple [[0], []] ≠ frameTuple [[], [0]] := by
  have h : RowCodec.Resolves shopSchema shopKey shopArrays :=
    ⟨cons_ne_nil _ _, .cons ⟨rfl, rfl⟩ (.cons ⟨rfl, rfl⟩ .nil)⟩
  obtain ⟨hf, -, hb, -, hc⟩ := tupleKeys_spec shopCodec shopSchema 1 h shopBatches
  refine ⟨_, _, rfl, rfl, (hb _ _).2 ⟨?_, ⟨(1, 9), by decide, rfl⟩, ⟨(2, 7), by decide, rfl⟩⟩,
    hc 2 (by decide), hc 4 (by decide), fun heq ↦ ?_⟩
  · simp only [shopBatches, flatten_cons, flatten_nil, append_nil, cons_append, nil_append,
      forall_mem_cons]
    exact ⟨⟨_, rfl, by decide, by decide⟩, ⟨_, rfl, by decide, by decide⟩,
      ⟨_, rfl, by decide, by decide⟩, by simp⟩
  · exact absurd ((hf [[0], []] [[], [0]] rfl).2.1 heq) (by decide)

end Shops

end KeyBoundsState

end Koldstore
