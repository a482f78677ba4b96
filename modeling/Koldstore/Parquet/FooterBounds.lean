import Koldstore.Parquet.Footer
import Koldstore.Parquet.PkProbe

/-!
# Bounds from a footer enclose the values

The bounds of the catalog come from the statistics of a Parquet footer, where these are exact, and
row groups are selected by them.
-/

namespace Koldstore

open SortKey ByteOrder List PkProbe Except
open Except (bind_eq_ok_iff map_eq_ok_iff ite_error_eq_ok_iff)

theorem le_of_lexCmp {α : Type*} [LinearOrder α] {l m : Bytes} {x y : α}
    (h : lexCmp l m = cmp x y) (hxy : x ≤ y) : l ≤ m := by
  have hc := compares_lexCmp l m
  rcases hxy.lt_or_eq with hlt | rfl
  · rw [h, hlt.cmp_eq_lt] at hc
    exact le_of_lt hc
  · rw [h, cmp_self_eq_eq] at hc
    exact le_of_eq hc

theorem unixDaysToPg_mono {d e : Int32} (h : d.toInt ≤ e.toInt) :
    (unixDaysToPg d).toInt ≤ (unixDaysToPg e).toInt := by
  have hmin : Int32.minValue.toInt = -2147483648 := rfl
  have hm : Int32.maxValue.toInt = 2147483647 := rfl
  have hs : ∀ z, (saturateI32 z).toInt = max (-2147483648) (min 2147483647 z) := fun z ↦ by
    rw [saturateI32, hmin, hm, Int32.toInt_ofInt_of_le] <;> omega
  have hd := Int32.le_toInt d
  have he := Int32.toInt_lt e
  simp only [unixDaysToPg, ← Int32.toInt_inj, hmin, hm]
  split_ifs <;> (try simp only [hs, pgEpochDaysFromUnix]) <;> omega

theorem unixMicrosToPg_mono {t u : Int64} (h : t.toInt ≤ u.toInt) :
    (unixMicrosToPg t).toInt ≤ (unixMicrosToPg u).toInt := by
  have hmin : Int64.minValue.toInt = -9223372036854775808 := rfl
  have hm : Int64.maxValue.toInt = 9223372036854775807 := rfl
  have hs : ∀ z, (saturateI64 z).toInt =
      max (-9223372036854775808) (min 9223372036854775807 z) := fun z ↦ by
    rw [saturateI64, hmin, hm, Int64.toInt_ofInt_of_le] <;> omega
  have ht := Int64.le_toInt t
  have hu := Int64.toInt_lt u
  simp only [unixMicrosToPg, ← Int64.toInt_inj, hmin, hm]
  split_ifs <;> (try simp only [hs, pgEpochMicrosFromUnix]) <;> omega

namespace FooterBounds

/-! ### Statistics as sort keys -/

def pairBounds {α : Type*} (encode : α → Except String Bytes) :
    Option α → Option α → Except String (Option (Bytes × Bytes))
  | some min, some max => (encode min).bind fun lo ↦ (encode max).map fun hi ↦ some (lo, hi)
  | _, _ => .ok none

theorem pairBounds_enclose {α W : Type*} [LinearOrder α] (stored : W → α)
    {encode : α → Except String Bytes} (key : W → Bytes)
    (hm : ∀ v w, stored v ≤ stored w → key v ≤ key w) {min max : Option α} {v : W}
    (hb : Between min max (stored v)) (ha : ∀ a, min = some a ∨ max = some a →
      ∃ w, stored w = a ∧ ∀ lo, encode a = .ok lo → key w = lo) {lo hi : Bytes}
    (h : pairBounds encode min max = .ok (some (lo, hi))) : lo ≤ key v ∧ key v ≤ hi := by
  match min, max, ha, hb, h with
  | some a, some b, ha, hb, h =>
    obtain ⟨lo', hlo, h⟩ := bind_eq_ok_iff.1 h
    obtain ⟨hi', hhi, heq⟩ := map_eq_ok_iff.1 h
    obtain ⟨rfl, rfl⟩ := Prod.mk.inj (Option.some.inj heq)
    obtain ⟨w, rfl, hw⟩ := ha a (.inl rfl)
    obtain ⟨w', rfl, hw'⟩ := ha b (.inr rfl)
    obtain ⟨hle, hge⟩ := hb _ _ rfl rfl
    rw [← hw lo' hlo, ← hw' hi' hhi]
    exact ⟨hm w v hle, hm v w' hge⟩

variable (storekey : Storekey)

/-- `parseUuid` reads the bytes of a text. -/
def exactSortKeyBounds (parseUuid : Bytes → Except String Uuid) (ty : SortKeyType)
    (statistics : Statistics) (exact : Bool) : Except String (Option (Bytes × Bytes)) :=
  match ty, statistics with
  -- truncated texts still are bounds
  | .text, .byteArray min max => pairBounds .ok min max
  | .text, _ => .ok none
  | ty, statistics =>
    if !exact then .ok none
    else match ty, statistics with
      | .bool, .boolean min max => pairBounds (fun v ↦ .ok (storekey.encodeBool v)) min max
      | .int2, .int32 min max =>
        pairBounds (fun n ↦ if -2 ^ 15 ≤ n ∧ n < 2 ^ 15 then .ok (storekey.encodeI16 (.ofInt n))
          else .error "out of range integral type conversion attempted") min max
      | .int4, .int32 min max => pairBounds (fun n ↦ .ok (storekey.encodeI32 (.ofInt n))) min max
      | .int8, .int64 min max => pairBounds (fun n ↦ .ok (storekey.encodeI64 (.ofInt n))) min max
      | .date, .int32 min max =>
        pairBounds (fun n ↦ .ok (storekey.encodeI32 (unixDaysToPg (.ofInt n)))) min max
      | .timestamp, .int64 min max | .timestamptz, .int64 min max =>
        pairBounds (fun n ↦ .ok (storekey.encodeI64 (unixMicrosToPg (.ofInt n)))) min max
      | .uuid, .byteArray min max =>
        pairBounds (fun bytes ↦ (parseUuid bytes).map storekey.encodeUuid) min max
      | _, _ => .error "Parquet statistics physical type does not match Sort Key type"

/-- A stored value of a column of the type has the sort key. -/
def HasKey : SortKeyType → Physical → Bytes → Prop
  | .bool, .boolean v, key => storekey.encodeBool v = key
  | .int2, .int32 n, key => ∃ v : Int16, v.toInt = n ∧ storekey.encodeI16 v = key
  | .int4, .int32 n, key => ∃ v : Int32, v.toInt = n ∧ storekey.encodeI32 v = key
  | .int8, .int64 n, key => ∃ v : Int64, v.toInt = n ∧ storekey.encodeI64 v = key
  | .date, .int32 n, key => ∃ d : Int32, d.toInt = n ∧ storekey.encodeI32 (unixDaysToPg d) = key
  | .timestamp, .int64 n, key | .timestamptz, .int64 n, key =>
    ∃ t : Int64, t.toInt = n ∧ storekey.encodeI64 (unixMicrosToPg t) = key
  | .uuid, .byteArray text, key => ∃ u : Uuid, u.text = text ∧ storekey.encodeUuid u = key
  | .text, .byteArray text, key => utf8 text = key
  -- a number has no bounds in the footer, whatever its key
  | .numeric, .byteArray _, _ => True
  | _, _, _ => False

/-- Exact bounds are values of the data. -/
def Attained (cells : List (Option Physical)) : Statistics → Prop
  | .boolean min max => ∀ v, min = some v ∨ max = some v → some (.boolean v) ∈ cells
  | .int32 min max => ∀ n, min = some n ∨ max = some n → some (.int32 n) ∈ cells
  | .int64 min max => ∀ n, min = some n ∨ max = some n → some (.int64 n) ∈ cells
  | .byteArray min max => ∀ bytes, min = some bytes ∨ max = some bytes →
    ∃ text, utf8 text = bytes ∧ some (.byteArray text) ∈ cells
  | _ => True

structure Describes (parseUuid : Bytes → Except String Uuid) (ty : SortKeyType)
    (statistics : Statistics) (exact : Bool) (cells : List (Option Physical)) : Prop where
  encloses : ∀ p, some p ∈ cells → statistics.Encloses p
  typed : ∀ p, some p ∈ cells → ∃ key, HasKey storekey ty p key
  attained : exact = true → Attained cells statistics
  parses : ∀ u : Uuid, some (.byteArray u.text) ∈ cells → parseUuid (utf8 u.text) = .ok u

variable {storekey} {parseUuid : Bytes → Except String Uuid} {ty : SortKeyType}
  {statistics : Statistics} {exact : Bool} {cells : List (Option Physical)}

theorem exactSortKeyBounds_enclose (h : Describes storekey parseUuid ty statistics exact cells)
    {lo hi : Bytes}
    (hok : exactSortKeyBounds storekey parseUuid ty statistics exact = .ok (some (lo, hi)))
    {p : Physical} (hp : some p ∈ cells) {key : Bytes} (hk : HasKey storekey ty p key) :
    lo ≤ key ∧ key ≤ hi := by
  have he := h.encloses p hp
  rw [exactSortKeyBounds.eq_def] at hok
  split at hok
  next min max =>
    cases p <;> try exact hk.elim
    next text =>
    obtain rfl : utf8 text = key := hk
    exact pairBounds_enclose id id (fun _ _ ↦ id) he
      (fun a _ ↦ ⟨a, rfl, fun lo hlo ↦ ok.inj hlo⟩) hok
  · cases hok
  split_ifs at hok with hex
  · cases hok
  have ht := h.attained (by simpa using hex)
  have hd : ∀ d e : Int32, d.toInt ≤ e.toInt →
      storekey.encodeI32 (unixDaysToPg d) ≤ storekey.encodeI32 (unixDaysToPg e) :=
    fun d e hde ↦ le_of_lexCmp (storekey.lexCmp_encodeI32 _ _) (unixDaysToPg_mono hde)
  have hn : ∀ t u : Int64, t.toInt ≤ u.toInt →
      storekey.encodeI64 (unixMicrosToPg t) ≤ storekey.encodeI64 (unixMicrosToPg u) :=
    fun t u htu ↦ le_of_lexCmp (storekey.lexCmp_encodeI64 _ _) (unixMicrosToPg_mono htu)
  split at hok <;> cases p <;> try exact hk.elim
  · obtain rfl := hk
    exact pairBounds_enclose id storekey.encodeBool
      (fun v w ↦ le_of_lexCmp (storekey.lexCmp_encodeBool v w)) he
      (fun a _ ↦ ⟨a, rfl, fun lo hlo ↦ ok.inj hlo⟩) hok
  · obtain ⟨v, rfl, rfl⟩ := hk
    refine pairBounds_enclose Int16.toInt storekey.encodeI16
      (fun v w ↦ le_of_lexCmp (storekey.lexCmp_encodeI16 v w)) he (fun a ha ↦ ?_) hok
    obtain ⟨-, w, rfl, -⟩ := h.typed _ (ht a ha)
    refine ⟨w, rfl, fun lo hlo ↦ ?_⟩
    split_ifs at hlo
    rw [← ok.inj hlo, Int16.ofInt_toInt]
  · obtain ⟨v, rfl, rfl⟩ := hk
    refine pairBounds_enclose Int32.toInt storekey.encodeI32
      (fun v w ↦ le_of_lexCmp (storekey.lexCmp_encodeI32 v w)) he (fun a ha ↦ ?_) hok
    obtain ⟨-, w, rfl, -⟩ := h.typed _ (ht a ha)
    refine ⟨w, rfl, fun lo hlo ↦ ?_⟩
    rw [← ok.inj hlo, Int32.ofInt_toInt]
  · obtain ⟨v, rfl, rfl⟩ := hk
    refine pairBounds_enclose Int64.toInt storekey.encodeI64
      (fun v w ↦ le_of_lexCmp (storekey.lexCmp_encodeI64 v w)) he (fun a ha ↦ ?_) hok
    obtain ⟨-, w, rfl, -⟩ := h.typed _ (ht a ha)
    refine ⟨w, rfl, fun lo hlo ↦ ?_⟩
    rw [← ok.inj hlo, Int64.ofInt_toInt]
  · obtain ⟨v, rfl, rfl⟩ := hk
    refine pairBounds_enclose Int32.toInt _ hd he (fun a ha ↦ ?_) hok
    obtain ⟨-, w, rfl, -⟩ := h.typed _ (ht a ha)
    refine ⟨w, rfl, fun lo hlo ↦ ?_⟩
    rw [← ok.inj hlo, Int32.ofInt_toInt]
  iterate 2
    · obtain ⟨v, rfl, rfl⟩ := hk
      refine pairBounds_enclose Int64.toInt _ hn he (fun a ha ↦ ?_) hok
      obtain ⟨-, w, rfl, -⟩ := h.typed _ (ht a ha)
      refine ⟨w, rfl, fun lo hlo ↦ ?_⟩
      rw [← ok.inj hlo, Int64.ofInt_toInt]
  · obtain ⟨u, rfl, rfl⟩ := hk
    refine pairBounds_enclose (fun u : Uuid ↦ utf8 u.text) storekey.encodeUuid
      (fun v w ↦ le_of_lexCmp ?_) he (fun a ha ↦ ?_) hok
    · rw [storekey.lexCmp_encodeUuid, (compares_lexCmp _ _).cmp_eq, utf8, utf8, Uuid.text,
        Uuid.text, String.toList_ofList, String.toList_ofList, lexCmp_charBytes_uuidChars
        (v.length_bytes.trans w.length_bytes.symm)]
    · obtain ⟨text, rfl, htx⟩ := ht a ha
      obtain ⟨-, w, rfl, -⟩ := h.typed _ htx
      refine ⟨w, rfl, fun lo hlo ↦ ?_⟩
      rw [h.parses w htx] at hlo
      exact ok.inj hlo
  all_goals cases hok

/-! ### Row groups of a footer -/

variable (storekey parseUuid ty) in
structure Holds (name : String) (group : RowGroupFooter Bytes) (cells : List (Option Physical)) :
    Prop where
  numRows : group.numRows = cells.length
  nullCount : ∀ s n, group.statistics name = some s → s.nullCount = some n → n = cells.count none
  bounds : ∀ s, group.statistics name = some s → ∃ statistics exact,
    Describes storekey parseUuid ty statistics exact cells ∧
      s.bounds = exactSortKeyBounds storekey parseUuid ty statistics exact

def Within (lower upper : Option Bytes) (key : Bytes) : Prop :=
  (∀ lo, lower = some lo → lo ≤ key) ∧ ∀ hi, upper = some hi → key ≤ hi

variable {name : String} {rowGroup : RowGroupFooter Bytes} {column : PackedColumn} {i k : ℕ}
  {group : PackedGroup Bytes} {p : Physical} {key : Bytes}

theorem packGroup_within (hh : Holds storekey parseUuid ty name rowGroup cells)
    (h : packGroup column i rowGroup.numRows (rowGroup.statistics name) = .ok group)
    (hp : some p ∈ cells) (hk : HasKey storekey ty p key) :
    group.2 ≠ some rowGroup.numRows ∧ Within (group.1.map Prod.fst) (group.1.map Prod.snd) key := by
  obtain ⟨-, h⟩ := ite_error_eq_ok_iff.1 h
  obtain ⟨bounds, hbs, h⟩ := bind_eq_ok_iff.1 h
  obtain ⟨-, h⟩ := ite_error_eq_ok_iff.1 h
  obtain ⟨-, ⟨⟩⟩ := ite_error_eq_ok_iff.1 h
  constructor
  · intro hu
    obtain ⟨s, hs, hn⟩ := Option.bind_eq_some_iff.1 hu
    have hc := hh.nullCount s _ hs hn
    rw [hh.numRows, Nat.cast_inj] at hc
    cases count_eq_length.1 hc.symm _ hp
  · have hle : ∀ b, bounds = some b → b.1 ≤ key ∧ key ≤ b.2 := by
      rintro ⟨lo, hi⟩ rfl
      split_ifs at hbs
      · cases hbs
      cases hs : rowGroup.statistics name with
      | none =>
        rw [hs] at hbs
        cases hbs
      | some s =>
        rw [hs] at hbs
        obtain ⟨statistics, exact, hd, heq⟩ := hh.bounds s hs
        exact exactSortKeyBounds_enclose hd (heq.symm.trans hbs) hp hk
    constructor
    · intro lo hlo
      obtain ⟨b, hb, rfl⟩ := Option.map_eq_some_iff.1 hlo
      exact (hle b hb).1
    · intro hi hhi
      obtain ⟨b, hb, rfl⟩ := Option.map_eq_some_iff.1 hhi
      exact (hle b hb).2

theorem packGroups_getElem? {chunks : List (ℤ × Option (ChunkStatistics Bytes))}
    {groups : List (PackedGroup Bytes)} (h : packGroups column k chunks = .ok groups)
    {chunk : ℤ × Option (ChunkStatistics Bytes)} (hi : chunks[i]? = some chunk) :
    ∃ group, groups[i]? = some group ∧ packGroup column (k + i) chunk.1 chunk.2 = .ok group := by
  induction chunks generalizing i k groups with
  | nil => cases hi
  | cons first rest ih =>
    obtain ⟨group, hr, h⟩ := bind_eq_ok_iff.1 h
    obtain ⟨others, ho, rfl⟩ := map_eq_ok_iff.1 h
    cases i with
    | zero =>
      cases hi
      exact ⟨group, rfl, hr⟩
    | succ i =>
      obtain ⟨group', hg, hp⟩ := ih ho hi
      exact ⟨group', hg, by rwa [Nat.add_right_comm, Nat.add_assoc] at hp⟩

/-- Segment bounds exist only when each row group has bounds or is all null. -/
theorem extractColumnIndex_within {S : Type*} {codecVersion : ℤ}
    {rowGroups : List (RowGroupFooter Bytes)} {index : PackedColumnIndex Bytes S}
    (h : extractColumnIndex codecVersion column
      (rowGroups.map fun group ↦ (group.numRows, group.statistics name)) = .ok index)
    (hi : rowGroups[i]? = some rowGroup) (hh : Holds storekey parseUuid ty name rowGroup cells)
    (hp : some p ∈ cells) (hk : HasKey storekey ty p key) :
    index.rowGroupNullCounts.getD i none ≠ some rowGroup.numRows ∧
      Within (index.rowGroupMinValues.getD i none) (index.rowGroupMaxValues.getD i none) key ∧
      Within index.minValue index.maxValue key := by
  obtain ⟨groups, hgs, rfl⟩ := map_eq_ok_iff.1 h
  obtain ⟨group, hg, ha⟩ := packGroups_getElem? hgs (by rw [getElem?_map, hi]; rfl)
  obtain ⟨hn, hwi⟩ := packGroup_within hh ha hp hk
  refine ⟨by simpa [hg] using hn, by simpa [hg] using hwi, ?_⟩
  dsimp only
  split_ifs with hco
  · have hmem : (group, rowGroup.numRows) ∈ groups.zip (rowGroups.map RowGroupFooter.numRows) :=
      mem_of_getElem? (getElem?_zip_eq_some.2 ⟨hg, by rw [getElem?_map, hi]; rfl⟩)
    have hbs : group.1.isSome = true := by
      rw [map_map] at hco
      have := all_eq_true.1 hco _ hmem
      simpa [hn] using this
    obtain ⟨⟨lo, hi⟩, hb⟩ := Option.isSome_iff_exists.1 hbs
    have hin := mem_of_getElem? hg
    constructor
    · intro least hl
      have hlo : lo ∈ (groups.map fun g ↦ g.1.map Prod.fst).filterMap id :=
        mem_filterMap.2 ⟨some lo, mem_map.2 ⟨group, hin, by rw [hb]; rfl⟩, rfl⟩
      exact (le_of_mem_argmin hlo hl).trans (hwi.1 lo (by rw [hb]; rfl))
    · intro greatest hr
      have hhi : hi ∈ (groups.map fun g ↦ g.1.map Prod.snd).filterMap id :=
        mem_filterMap.2 ⟨some hi, mem_map.2 ⟨group, hin, by rw [hb]; rfl⟩, rfl⟩
      exact (hwi.2 hi (by rw [hb]; rfl)).trans (le_of_mem_argmax hhi hr)
  · constructor <;> rintro _ ⟨⟩

/-! ### Selecting row groups -/

section Select

variable {index : PackedRowGroupIndex Bytes} {lower upper : Option Bytes} {selected : List ℕ}

theorem selectRowGroup_within
    (hn : index.rowGroupNullCounts.getD i none ≠ some (index.rowGroupRowCounts.getD i 0))
    (hbs : Within (index.rowGroupMinValues.getD i none) (index.rowGroupMaxValues.getD i none) key)
    (hk : Within lower upper key) {keep : Bool}
    (h : index.selectRowGroup lower upper i = .ok keep) : keep = true := by
  obtain ⟨-, h⟩ := ite_error_eq_ok_iff.1 h
  split at h
  next min max hmin hm =>
    split_ifs at h
    rw [← ok.inj h, Bool.and_eq_true, Option.all_eq_true, Option.all_eq_true]
    exact ⟨fun lo hlo ↦ decide_eq_true ((hk.1 lo hlo).trans (hbs.2 max hm)),
      fun hi hhi ↦ decide_eq_true ((hbs.1 min hmin).trans (hk.2 hi hhi))⟩
  · rw [← ok.inj h]
    simpa using hn
  · cases h

theorem mem_selectRowGroups {is : List ℕ}
    (h : index.selectRowGroups lower upper is = .ok selected) (hi : i ∈ is)
    (hkp : ∀ keep, index.selectRowGroup lower upper i = .ok keep → keep = true) : i ∈ selected := by
  induction is generalizing selected with
  | nil => cases hi
  | cons j is ih =>
    obtain ⟨keep, hj, h⟩ := bind_eq_ok_iff.1 h
    obtain ⟨rest, hre, rfl⟩ := map_eq_ok_iff.1 h
    rcases mem_cons.1 hi with rfl | hi
    · rw [if_pos (hkp keep hj)]
      exact mem_cons_self
    · split_ifs
      · exact mem_cons_of_mem _ (ih hre hi)
      · exact ih hre hi

end Select

/-- The catalog's row for an indexed column. -/
def packed {S : Type*} (metadata : PackedSegmentMetadata Bytes S)
    (index : PackedColumnIndex Bytes S) : PackedRowGroupIndex Bytes :=
  ⟨metadata.rowGroupCount, metadata.rowGroupRowCounts, index.rowGroupMinValues,
    index.rowGroupMaxValues, index.rowGroupNullCounts⟩

/-- **The bounds of the catalog** enclose every value of a segment and of a row group, and a
selection of row groups that succeeds keeps every row group with a value in the interval. -/
theorem footerBounds_within {S : Type*} {footer : ParquetFooter Bytes} {columns : List PgColumn}
    {indexedColumns : List ColumnRef} {primaryKeyColumns : List String}
    {metadata : PackedSegmentMetadata Bytes S} {data : String → List (List (Option Physical))}
    (h : extractPackedSegmentMetadata footer columns indexedColumns primaryKeyColumns =
      .ok metadata) (hdata : ∀ column ∈ columns, ∀ ty,
      SortKeyType.fromTypeOidForBounds column.pgType.typeOid = some ty →
        Forall₂ (Holds storekey parseUuid ty column.name) footer.rowGroups (data column.name)) :
    ∀ index ∈ metadata.columnIndexes, ∃ indexed ∈ indexedColumns, ∃ column ∈ columns, ∃ ty,
      index.columnId = indexed.columnId ∧ column.name = indexed.name ∧
      SortKeyType.fromTypeOidForBounds column.pgType.typeOid = some ty ∧
      ∀ i cells, (data column.name)[i]? = some cells →
        ∀ p key, some p ∈ cells → HasKey storekey ty p key →
          Within index.minValue index.maxValue key ∧
          Within (index.rowGroupMinValues.getD i none) (index.rowGroupMaxValues.getD i none) key ∧
          ∀ lower upper selected, Within lower upper key →
            (packed metadata index).selectPackedRowGroups lower upper = .ok selected →
              i ∈ selected := by
  obtain ⟨-, h⟩ := ite_error_eq_ok_iff.1 h
  obtain ⟨-, h⟩ := ite_error_eq_ok_iff.1 h
  obtain ⟨seqs, -, h⟩ := bind_eq_ok_iff.1 h
  obtain ⟨indexes, hindexes, h⟩ := bind_eq_ok_iff.1 h
  obtain ⟨count, -, rfl⟩ := map_eq_ok_iff.1 h
  intro index hd
  obtain ⟨indexed, hn, column, ty, required, hc, hty, hx⟩ :=
    extractColumnIndexes_spec hindexes index hd
  have hmem := mem_of_find?_eq_some hc
  refine ⟨indexed, hn, column, hmem, ty, (extractColumnIndex_bare hx).1,
    by simpa using find?_some hc, hty, fun i cells hcs p key hp hk ↦ ?_⟩
  obtain ⟨hl, hh⟩ := forall₂_iff_get.1 (hdata column hmem ty hty)
  obtain ⟨hlt, rfl⟩ := List.getElem?_eq_some_iff.1 hcs
  have hi := getElem?_eq_getElem (hl ▸ hlt)
  obtain ⟨hu, hg, hs⟩ := extractColumnIndex_within hx hi
    (hh i (hl ▸ hlt) hlt) hp hk
  refine ⟨hs, hg, fun lower upper selected hwi he ↦ ?_⟩
  obtain ⟨-, he⟩ := ite_error_eq_ok_iff.1 he
  have hr : i ∈ range footer.rowGroups.length := mem_range.2 (hl ▸ hlt)
  split_ifs at he
  · rwa [← ok.inj he]
  · refine mem_selectRowGroups he hr fun keep ↦ selectRowGroup_within ?_ hg hwi
    simpa [packed, hi] using hu

def exampleFooter : ParquetFooter Bytes where
  hasColumn _ := true
  rowGroups := [⟨2, some (some (1, 2)), fun _ ↦ some ⟨some 1, exactSortKeyBounds .bigEndian
    (fun _ ↦ .error "invalid UUID") .int8 (.int64 (some 7) (some 7)) true⟩⟩]

def exampleData : String → List (List (Option Physical)) := fun _ ↦ [[some (.int64 7), none]]

theorem exampleFooter_holds : ∀ column ∈ [⟨"id", .int8, true⟩], ∀ ty,
    SortKeyType.fromTypeOidForBounds (PgColumn.pgType column).typeOid = some ty →
      Forall₂ (Holds .bigEndian (fun _ ↦ .error "invalid UUID") ty column.name)
        exampleFooter.rowGroups (exampleData column.name) := by
  intro column hc ty hty
  obtain rfl := mem_singleton.1 hc
  obtain rfl : .int8 = ty := Option.some.inj hty
  have hs : ∀ p, some p ∈ [some (Physical.int64 7), none] → p = .int64 7 := by simp
  refine .cons ⟨rfl, ?_, ?_⟩ .nil
  · rintro s n ⟨⟩ ⟨⟩
    rfl
  · rintro s ⟨⟩
    refine ⟨.int64 (some 7) (some 7), true, ⟨?_, ?_, ?_, ?_⟩, rfl⟩
    · intro p hp
      obtain rfl := hs p hp
      rintro lo hi ⟨⟩ ⟨⟩
      exact ⟨le_rfl, le_rfl⟩
    · intro p hp
      obtain rfl := hs p hp
      exact ⟨_, 7, rfl, rfl⟩
    · rintro - n (h | h) <;> obtain rfl := Option.some.inj h <;> exact mem_cons_self
    · intro u hu
      cases hs _ hu

theorem footerBounds_within_number : ∃ (metadata : PackedSegmentMetadata Bytes Unit) (index : _)
    (selected : _), extractPackedSegmentMetadata exampleFooter [⟨"id", .int8, true⟩] [⟨1, "id"⟩]
      [] = .ok metadata ∧ index ∈ metadata.columnIndexes ∧
    (packed metadata index).selectPackedRowGroups (some (Storekey.bigEndian.encodeI64 7)) none =
      .ok selected ∧ 0 ∈ selected := by
  obtain ⟨metadata, index, selected, hok, hi, hs⟩ :
      ∃ (metadata : PackedSegmentMetadata Bytes Unit) (index : _) (selected : _),
        extractPackedSegmentMetadata exampleFooter [⟨"id", .int8, true⟩] [⟨1, "id"⟩] [] =
          .ok metadata ∧ index ∈ metadata.columnIndexes ∧
        (packed metadata index).selectPackedRowGroups (some (Storekey.bigEndian.encodeI64 7))
          none = .ok selected :=
    ⟨_, _, _, rfl, mem_cons_self, rfl⟩
  refine ⟨metadata, index, selected, hok, hi, hs, ?_⟩
  obtain ⟨-, -, column, hc, ty, -, -, hty, ha⟩ :=
    footerBounds_within hok exampleFooter_holds index hi
  obtain rfl := mem_singleton.1 hc
  obtain rfl : .int8 = ty := Option.some.inj hty
  refine (ha 0 _ rfl _ _ mem_cons_self ⟨7, rfl, rfl⟩).2.2 _ none selected ⟨?_, nofun⟩ hs
  rintro lo ⟨⟩
  exact le_rfl

end FooterBounds

end Koldstore
