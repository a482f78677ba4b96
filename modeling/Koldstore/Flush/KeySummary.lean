import Koldstore.Flush.Metadata

/-!
# Looking up a key in a summary

The hashes of flush and lookup agree unless Arrow cannot hold the key.
-/

namespace Koldstore

open SortKey Accumulate List
open Option (bind_eq_some_iff)

/-! ### Keys that Arrow can hold -/

theorem unixDaysToPg_pgDaysToUnix {d : Int32}
    (h : d = .maxValue ∨ d.toInt + pgEpochDaysFromUnix < Int32.maxValue.toInt) :
    unixDaysToPg (pgDaysToUnix d) = d := by
  rw [pgDaysToUnix]
  split_ifs with hi
  · rw [unixDaysToPg, if_pos hi]
  · have hlo := Int32.le_toInt d
    have hlt := h.resolve_left fun h ↦ hi (.inl h)
    have hm : d.toInt ≠ Int32.minValue.toInt := fun h ↦ hi (.inr (Int32.toInt_inj.1 h))
    have hmin' : Int32.minValue.toInt = -2147483648 := rfl
    have hm' : Int32.maxValue.toInt = 2147483647 := rfl
    have hs : (saturateI32 (d.toInt + pgEpochDaysFromUnix)).toInt =
        d.toInt + pgEpochDaysFromUnix := by
      rw [saturateI32, max_eq_right, min_eq_right hlt.le, Int32.toInt_ofInt_of_le] <;>
        simp only [pgEpochDaysFromUnix] at * <;> omega
    have hbk : saturateI32 d.toInt = d := by
      rw [saturateI32, max_eq_right, min_eq_right, Int32.ofInt_toInt] <;>
        simp only [pgEpochDaysFromUnix] at * <;> omega
    rw [unixDaysToPg, if_neg, hs, Int.add_sub_cancel, hbk]
    rw [← Int32.toInt_inj, ← Int32.toInt_inj, hs]
    simp only [pgEpochDaysFromUnix] at *
    omega

theorem unixMicrosToPg_pgMicrosToUnix {t : Int64}
    (h : t = .maxValue ∨ t.toInt + pgEpochMicrosFromUnix < Int64.maxValue.toInt) :
    unixMicrosToPg (pgMicrosToUnix t) = t := by
  rw [pgMicrosToUnix]
  split_ifs with hi
  · rw [unixMicrosToPg, if_pos hi]
  · have hlo := Int64.le_toInt t
    have hlt := h.resolve_left fun h ↦ hi (.inl h)
    have hm : t.toInt ≠ Int64.minValue.toInt := fun h ↦ hi (.inr (Int64.toInt_inj.1 h))
    have hmin' : Int64.minValue.toInt = -9223372036854775808 := rfl
    have hm' : Int64.maxValue.toInt = 9223372036854775807 := rfl
    have hs : (saturateI64 (t.toInt + pgEpochMicrosFromUnix)).toInt =
        t.toInt + pgEpochMicrosFromUnix := by
      rw [saturateI64, max_eq_right, min_eq_right hlt.le, Int64.toInt_ofInt_of_le] <;>
        simp only [pgEpochMicrosFromUnix] at * <;> omega
    have hbk : saturateI64 t.toInt = t := by
      rw [saturateI64, max_eq_right, min_eq_right, Int64.ofInt_toInt] <;>
        simp only [pgEpochMicrosFromUnix] at * <;> omega
    rw [unixMicrosToPg, if_neg, hs, Int.add_sub_cancel, hbk]
    rw [← Int64.toInt_inj, ← Int64.toInt_inj, hs]
    simp only [pgEpochMicrosFromUnix] at *
    omega

def SortKey.SortKeyType.pgType : SortKeyType → PgType
  | bool => .bool
  | int2 => .int2
  | int4 => .int4
  | int8 => .int8
  | date => .date
  | timestamp => .timestamp
  | timestamptz => .timestamptz
  | uuid => .uuid
  | text => .text
  | numeric => .numeric

/-- The value comes back from Arrow as it was. -/
def RowCodec.Survives (codec : RowCodec) : SortKeyValue → Prop
  | .uuid u => codec.parseUuid u.text = .ok u
  | .date d => d = .maxValue ∨ d.toInt + pgEpochDaysFromUnix < Int32.maxValue.toInt
  | .timestamp t | .timestamptz t =>
    t = .maxValue ∨ t.toInt + pgEpochMicrosFromUnix < Int64.maxValue.toInt
  | _ => True

variable {R : Type*} {codec : RowCodec} {row : R}

theorem keyValue_arrowArray {value : SortKeyValue} {cell : R → CellValue}
    (hc : cell row = value.cell) (hs : supportsValueSummary value.sortKeyType = true)
    (hsv : codec.Survives value) (name : String) :
    codec.keyValue (arrowArray value.sortKeyType.pgType cell) value.sortKeyType row name =
      .ok (some value) := by
  rw [RowCodec.Survives.eq_def] at hsv
  cases value with
  | bool | text | numeric => cases hs
  | int2 | int4 | int8 =>
    simp [RowCodec.keyValue, arrowArray, SortKeyValue.sortKeyType, SortKeyType.pgType, hc,
      SortKeyValue.cell, ArrowArray.isNull]
  | uuid u =>
    simp [RowCodec.keyValue, arrowArray, SortKeyValue.sortKeyType, SortKeyType.pgType, hc,
      SortKeyValue.cell, ArrowArray.isNull, hsv, Except.map]
  | date d =>
    simp [RowCodec.keyValue, arrowArray, SortKeyValue.sortKeyType, SortKeyType.pgType, hc,
      SortKeyValue.cell, ArrowArray.isNull, unixDaysToPg_pgDaysToUnix hsv]
  | timestamp t | timestamptz t =>
    simp [RowCodec.keyValue, arrowArray, SortKeyValue.sortKeyType, SortKeyType.pgType, hc,
      SortKeyValue.cell, ArrowArray.isNull, unixMicrosToPg_pgMicrosToUnix hsv]

/-! ### Probes -/

structure KeyPart (R : Type*) where
  name : String
  columnId : ℤ
  ty : SortKeyType
  cell : R → CellValue
  supported : supportsValueSummary ty = true

def probeComponent (storekey : Storekey) (predicates : List (SegmentPrunePredicate SortKeyValue))
    (columnId : ℤ) (typeOid : ℕ) : Option Bytes :=
  (SortKeyType.fromTypeOid typeOid).bind fun ty ↦ if supportsValueSummary ty then
      (predicates.find? fun p ↦ decide (p.columnId = columnId) && p.min.isSome &&
        decide (p.min = p.max)).bind fun p ↦ p.min.bind fun value ↦
          if value.sortKeyType = ty then (encodeSortKey storekey value).toOption else none
    else none

def compositeKeyProbe (storekey : Storekey) (keyColumns : List (ℤ × ℕ))
    (predicates : List (SegmentPrunePredicate SortKeyValue)) : Option UInt64 :=
  if keyColumns.length < 2 then none
  else
    (keyColumns.mapM fun column ↦ probeComponent storekey predicates column.1 column.2).bind
      fun parts ↦ let hash := summaryHash parts.flatten
        if hash.toNat < 2 ^ 63 then some hash else none

/-- The query asks for the value in this column of the key. -/
def KeyPart.Asked (predicates : List (SegmentPrunePredicate SortKeyValue)) (part : KeyPart R)
    (value : SortKeyValue) : Prop :=
  ∀ p ∈ predicates, p.columnId = part.columnId → p.min = p.max → ∀ x, p.min = some x → x = value

/-- The row's value in this column of the key. -/
def KeyPart.Holds (codec : RowCodec) (row : R) (part : KeyPart R) (value : SortKeyValue) : Prop :=
  part.cell row = value.cell ∧ value.sortKeyType = part.ty ∧ codec.Survives value

theorem concatKeys_of_mapM {key : List (KeyPart R)} {values : List SortKeyValue}
    {predicates : List (SegmentPrunePredicate SortKeyValue)} {parts : List Bytes}
    (h : (key.map fun p ↦ (p.columnId, p.ty.pgType.typeOid)).mapM
      (fun column ↦ probeComponent codec.storekey predicates column.1 column.2) = some parts)
    (ha : List.Forall₂ (KeyPart.Asked predicates) key values) :
    codec.concatKeys values = .ok parts.flatten := by
  induction ha generalizing parts with
  | nil =>
    obtain rfl : [] = parts := by simpa using h
    rfl
  | @cons part value key values hv _ ih =>
    rw [map_cons, mapM_cons] at h
    obtain ⟨bytes, hbs, h⟩ := bind_eq_some_iff.1 h
    obtain ⟨rest, hre, ⟨⟩⟩ := bind_eq_some_iff.1 h
    rw [probeComponent] at hbs
    obtain ⟨ty, -, hbs⟩ := bind_eq_some_iff.1 hbs
    obtain ⟨-, hbs⟩ := Option.ite_none_right_eq_some.1 hbs
    obtain ⟨p, hp, hbs⟩ := bind_eq_some_iff.1 hbs
    obtain ⟨x, hx, hbs⟩ := bind_eq_some_iff.1 hbs
    obtain ⟨-, hbs⟩ := Option.ite_none_right_eq_some.1 hbs
    have hf := find?_some hp
    simp only [Bool.and_eq_true, decide_eq_true_eq] at hf
    obtain rfl := hv p (mem_of_find?_eq_some hp) hf.1.1 hf.2 x hx
    rw [RowCodec.concatKeys, Except.toOption_eq_some_iff.1 hbs, ih hre]
    rfl

/-- **No key is excluded.** A summary of any size has every value that was put in. -/
theorem keySummary_admits (codec : RowCodec) (schema : ArrowSchema R) (key : List (KeyPart R))
    (hne : key ≠ []) (hschema : ∀ p ∈ key, schema p.name = some (arrowArray p.ty.pgType p.cell)) :
    (∀ (keys : List Bytes) summary, (keys.foldl ValueSummaryBuilder.insert .new).finish =
      some summary → ∀ encoded ∈ keys, summaryMayContain summary encoded = true) ∧
    ∀ (batches : List (List R)) columnId summary,
      (batches.foldl (PkSummaryState.addBatch codec schema)
        ⟨key.map fun p ↦ (p.name, p.ty), columnId, some .new⟩).finish batches.flatten.length =
          some summary →
      ∀ row ∈ batches.flatten, ∀ values, List.Forall₂ (KeyPart.Holds codec row) key values →
        (∀ value encoded, values = [value] → encodeSortKey codec.storekey value = .ok encoded →
          summaryMayContain summary encoded = true) ∧
        ∀ predicates, List.Forall₂ (KeyPart.Asked predicates) key values → ∀ hash,
          compositeKeyProbe codec.storekey (key.map fun p ↦ (p.columnId, p.ty.pgType.typeOid))
            predicates = some hash → summary = [] ∨ summaryHasHash summary hash = true := by
  refine ⟨fun keys summary h encoded he ↦ ?_, fun batches columnId summary h row hrow values
    hvalues ↦ ?_⟩
  · rw [ValueSummaryBuilder.foldl_insert] at h
    split_ifs at h
    · exact summaryMayContain_of_finish h (mem_map_of_mem he)
    · cases h
  · have hr : RowCodec.Resolves schema (key.map fun p ↦ (p.name, p.ty))
        (key.map fun p ↦ ((p.name, p.ty), arrowArray p.ty.pgType p.cell)) := by
      refine ⟨by simpa using hne, ?_⟩
      rw [forall₂_map_left_iff, forall₂_map_right_iff, forall₂_same]
      exact fun p hp ↦ ⟨rfl, hschema p hp⟩
    have hh : codec.HoldsKey (key.map fun p ↦ ((p.name, p.ty), arrowArray p.ty.pgType p.cell))
        row values := by
      rw [RowCodec.HoldsKey, forall₂_map_left_iff]
      refine hvalues.imp fun p value hp ↦ ?_
      obtain ⟨hc, hty, hsv⟩ := hp
      have hv := keyValue_arrowArray hc (hty ▸ p.supported) hsv p.name
      rwa [hty] at hv
    rw [PkSummaryState.finish_foldl hr] at h
    obtain ⟨found, hf, hm⟩ := PkSummaryState.covers_of_finish hr h hrow
    rw [hh.rowKey_eq] at hf
    have hk {bytes} (hbs : codec.concatKeys values = .ok bytes) : found = bytes := by
      rw [hbs] at hf
      exact (Option.some.inj (Except.ok.inj hf)).symm
    refine ⟨fun value encoded hv he ↦ ?_, fun predicates ha hash hprb ↦ ?_⟩
    · subst hv
      have hbs : codec.concatKeys [value] = .ok (encoded ++ []) := by
        rw [RowCodec.concatKeys, he]
        rfl
      rwa [hk hbs, append_nil] at hm
    · rw [compositeKeyProbe] at hprb
      obtain ⟨-, hprb⟩ := Option.ite_none_left_eq_some.1 hprb
      obtain ⟨parts, hparts, hha⟩ := bind_eq_some_iff.1 hprb
      obtain ⟨-, ⟨⟩⟩ := Option.ite_none_right_eq_some.1 hha
      rw [hk (concatKeys_of_mapM hparts ha), summaryMayContain] at hm
      split_ifs at hm with hn
      · exact .inl hn
      · exact .inr hm

section Instants

def instantKey : List (KeyPart Int64) := [⟨"at", 1, .timestamp, .timestampMicros, rfl⟩]

def instantSchema : ArrowSchema Int64 := fun _ ↦ some (arrowArray .timestamp .timestampMicros)

def instantCodec : RowCodec := ⟨.bigEndian, .error⟩

theorem keySummary_admits_instant :
    (∀ p ∈ instantKey, instantSchema p.name = some (arrowArray p.ty.pgType p.cell)) ∧
      ∀ summary, ([[0], [5]].foldl (PkSummaryState.addBatch instantCodec instantSchema)
        ⟨instantKey.map fun p ↦ (p.name, p.ty), 1, some .new⟩).finish 2 = some summary →
          ∀ encoded, encodeSortKey .bigEndian (.timestamp 5) = .ok encoded →
            summaryMayContain summary encoded = true := by
  have hs : ∀ p ∈ instantKey, instantSchema p.name = some (arrowArray p.ty.pgType p.cell) := by
    intro p hp
    rw [mem_singleton.1 hp]
    rfl
  refine ⟨hs, fun summary h encoded he ↦ ?_⟩
  have hspec := (keySummary_admits instantCodec instantSchema instantKey (cons_ne_nil _ _)
    hs).2 [[0], [5]] 1 summary h 5 (by decide) [.timestamp 5]
    (.cons ⟨rfl, rfl, .inr (by decide)⟩ .nil)
  exact hspec.1 _ encoded rfl he

/-- The instant is before the last one of PostgreSQL, but flush writes it as infinity. -/
theorem late_instant_is_excluded : ∃ summary encoded,
    ([[9223000000000000000]].foldl (PkSummaryState.addBatch instantCodec instantSchema)
      ⟨instantKey.map fun p ↦ (p.name, p.ty), 1, some .new⟩).finish 1 = some summary ∧
    encodeSortKey .bigEndian (.timestamp 9223000000000000000) = .ok encoded ∧
    (9223000000000000000 : ℤ) < 9223371331200000000 ∧
    summaryMayContain summary encoded = false :=
  ⟨_, _, rfl, rfl, by decide, by decide +kernel⟩

end Instants

end Koldstore
