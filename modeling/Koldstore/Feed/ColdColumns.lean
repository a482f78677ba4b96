import Koldstore.Basic.Except
import Koldstore.Basic.Pairing
import Koldstore.Feed.ChangesSince
import Koldstore.Scan.Remap

/-!
# Column names in the change feed

Rows are read under the names of the file and reported under the names of now.
-/

namespace Koldstore.Feed

open List Function

namespace ColdColumns

variable {V S : Type*}

/-! ### Projection -/

structure SegmentNames where
  objectPath : String
  schemaVersion : ℤ
  physicalNames : ℤ → Option String

structure TableColumns where
  schemaVersion : ℤ
  columns : List ColumnRef
  primaryKey : List ColumnRef
  names_nodup : (columns.map ColumnRef.name).Nodup
  key_nodup : primaryKey.Nodup
  key_mem : ∀ k ∈ primaryKey, k ∈ columns

def physicalNameForSegmentColumn (column : ColumnRef) (segment : SegmentNames)
    (currentSchemaVersion : ℤ) : Option String :=
  match segment.physicalNames column.columnId with
  | some name => some name
  | none => if segment.schemaVersion = currentSchemaVersion then some column.name else none

structure ColdSegmentProjection where
  physicalNames : List String
  physicalPkNames : List String

section Projection

variable (table : TableColumns) (segment : SegmentNames)

def TableColumns.physicalName (column : ColumnRef) : Option String :=
  physicalNameForSegmentColumn column segment table.schemaVersion

def physicalPkNames : List ColumnRef → Except String (List String)
  | [] => .ok []
  | column :: rest =>
    match table.physicalName segment column with
    | none =>
      let path := segment.objectPath
      let name := column.name
      .error s!"cold segment `{path}` is missing primary-key column `{name}`"
    | some name => (physicalPkNames rest).map (name :: ·)

def fallbackNames : List (ColumnRef × String) → Except String (List String)
  | [] => .ok []
  | (logical, physical) :: rest =>
    if table.columns.any fun c ↦ decide (c.columnId = logical.columnId) then
      (fallbackNames rest).map (physical :: ·)
    else
      let id := logical.columnId
      .error s!"migration catalog is missing primary-key column_id {id}"

def coldProjectionForSegment : Except String ColdSegmentProjection :=
  match physicalPkNames table segment table.primaryKey with
  | .error e => .error e
  | .ok pkNames =>
    match table.columns.filterMap (table.physicalName segment) with
    | [] => (fallbackNames table (table.primaryKey.zip pkNames)).map fun names ↦ ⟨names, pkNames⟩
    | name :: names => .ok ⟨name :: names, pkNames⟩

end Projection

/-! ### Reading and reporting a row -/

def isCleanMetadataColumn (name : String) : Bool :=
  name ∈ ["seq", "op", "deleted", "schema_version", "_seq", "_op", "_deleted", "_schema_version"]

structure CleanColdRow (V : Type*) where
  pkJson : NamedCells V
  rowImage : List (String × V)
  seq : ℤ
  op : MirrorOperation
  deleted : Bool

structure StoredRow (V : Type*) where
  cell : String → V
  seq : ℤ
  op : MirrorOperation
  deleted : Bool

def StoredRow.read (stored : StoredRow V) (projection : ColdSegmentProjection) :
    CleanColdRow V where
  pkJson name := if name ∈ projection.physicalPkNames then some (stored.cell name) else none
  rowImage :=
    if stored.deleted then []
    else (projection.physicalNames.filter fun name ↦ !isCleanMetadataColumn name).map fun name ↦
      (name, stored.cell name)
  seq := stored.seq
  op := stored.op
  deleted := stored.deleted

def remapKey : List (ColumnRef × String) → NamedCells V → NamedCells V →
    Except String (NamedCells V)
  | [], _, remapped => .ok remapped
  | (logical, physical) :: rest, fields, remapped =>
    match fields physical with
    | some value =>
      remapKey rest (update fields physical none)
        (update remapped logical.name (some value))
    | none =>
      match fields logical.name with
      | some value =>
        remapKey rest (update fields logical.name none)
          (update remapped logical.name (some value))
      | none =>
        let name := logical.name
        .error s!"cold change row missing primary-key field `{name}`"

def logicalName (columns : List ColumnRef) (physicalNames : List String)
    (key : List (ColumnRef × String)) (physical : String) : String :=
  match (columns.zip physicalNames).find? fun p ↦ decide (p.2 = physical) with
  | some p => p.1.name
  | none =>
    match key.find? fun p ↦ decide (p.2 = physical) with
    | some p => p.1.name
    | none => physical

def putField (nameOf : String → String) (image : NamedCells V) (field : String × V) :
    NamedCells V :=
  update image (nameOf field.1) (some field.2)

def logicalImage (nameOf : String → String) (fields : List (String × V)) : NamedCells V :=
  fields.foldl (putField nameOf) fun _ ↦ none

def coldRowToMirrorChange (tableOid : ℕ) (table : TableColumns) (projection : ColdSegmentProjection)
    (scope : Option (String × (V → Option S))) (row : CleanColdRow V) :
    Except String (MirrorChange (NamedCells V) S (NamedCells V)) :=
  let key := table.primaryKey.zip projection.physicalPkNames
  match remapKey key row.pkJson fun _ ↦ none with
  | .error e => .error e
  | .ok pkJson =>
    if row.seq ≤ 0 then
      let value := row.seq
      .error s!"invalid sequence value for seq: {value}"
    else
      .ok
        { tableOid
          scopeKey := scope.bind fun s ↦ (pkJson s.1).bind s.2
          pk := pkJson
          operation := row.op
          seq := row.seq
          deleted := row.deleted
          rowImage :=
            if row.deleted then none
            else some (logicalImage (logicalName table.columns projection.physicalNames key)
              row.rowImage)
          source := .coldRecord }

section Faithful

variable (table : TableColumns) (segment : SegmentNames) (stored : StoredRow V)

def StoredRow.valueOf (column : ColumnRef) : Option V :=
  (table.physicalName segment column).map stored.cell

structure Faithful (change : MirrorChange (NamedCells V) S (NamedCells V)) : Prop where
  image : ∀ image, change.rowImage = some image → ∀ c ∈ table.columns, ∀ v,
    image c.name = some v → stored.valueOf table segment c = some v
  key : ∀ k ∈ table.primaryKey, ∀ v, change.pk k.name = some v →
    stored.valueOf table segment k = some v

def PresentFirst : Prop := table.columns.Pairwise fun a b ↦
    table.physicalName segment a = none → table.physicalName segment b = none

instance : Decidable (PresentFirst table segment) := inferInstanceAs (Decidable (List.Pairwise _ _))

structure SegmentNames.Distinct : Prop where
  nodup : (table.columns.filterMap (table.physicalName segment)).Nodup
  data : ∀ name ∈ table.columns.filterMap (table.physicalName segment),
    isCleanMetadataColumn name = false

end Faithful

section Positions

variable {f : ColumnRef → Option String} {columns : List ColumnRef}

theorem forall_zip_of_presentFirst (h : columns.Pairwise fun a b ↦ f a = none → f b = none) :
    ∀ p ∈ columns.zip (columns.filterMap f), f p.1 = some p.2 := by
  induction columns with
  | nil => exact nofun
  | cons c columns ih =>
    obtain ⟨hc, h⟩ := pairwise_cons.1 h
    cases hnm : f c with
    | none =>
      have hnone : columns.filterMap f = [] := filterMap_eq_nil_iff.2 fun d hd ↦ hc d hd hnm
      rw [filterMap_cons_none hnm, hnone]
      exact fun p hp ↦ absurd hp (by simp)
    | some name =>
      rw [filterMap_cons_some hnm, zip_cons_cons]
      exact forall_mem_cons.2 ⟨hnm, ih h⟩

theorem exists_zip_of_not_presentFirst (h : ¬columns.Pairwise fun a b ↦ f a = none → f b = none) :
    ∃ p ∈ columns.zip (columns.filterMap f), f p.1 = none := by
  induction columns with
  | nil => exact absurd List.Pairwise.nil h
  | cons c columns ih =>
    cases hnm : f c with
    | none =>
      rw [filterMap_cons_none hnm]
      cases hn : columns.filterMap f with
      | nil =>
        rw [filterMap_eq_nil_iff] at hn
        refine absurd (pairwise_cons.2 ⟨fun d hd _ ↦ hn d hd, ?_⟩) h
        exact pairwise_of_forall_mem_list fun a _ b hb _ ↦ hn b hb
      | cons name names => exact ⟨(c, name), mem_cons_self, hnm⟩
    | some name =>
      rw [filterMap_cons_some hnm, zip_cons_cons]
      have hre : ¬columns.Pairwise fun a b ↦ f a = none → f b = none := fun hre ↦
        h (pairwise_cons.2 ⟨fun d _ hnone ↦ by simp [hnm] at hnone, hre⟩)
      obtain ⟨p, hp, hnone⟩ := ih hre
      exact ⟨p, mem_cons_of_mem _ hp, hnone⟩

theorem exists_logicalName (key : List (ColumnRef × String)) {physical : String}
    (h : physical ∈ columns.filterMap f) : ∃ c, (c, physical) ∈ columns.zip (columns.filterMap f) ∧
      logicalName columns (columns.filterMap f) key physical = c.name := by
  have hs : (columns.zip (columns.filterMap f)).map Prod.snd = columns.filterMap f :=
    map_snd_zip (length_filterMap_le f columns)
  rw [← hs] at h
  obtain ⟨q, hq, rfl⟩ := mem_map.1 h
  rw [logicalName]
  cases hfi : (columns.zip (columns.filterMap f)).find? fun p ↦ decide (p.2 = q.2) with
  | none => exact absurd (decide_eq_true rfl) (find?_eq_none.1 hfi q hq)
  | some p =>
    have hn : p.2 = q.2 := by simpa using find?_some hfi
    exact ⟨p.1, hn ▸ mem_of_find?_eq_some hfi, rfl⟩

theorem eq_of_mem_zip (hnd : (columns.filterMap f).Nodup) {c d : ColumnRef} {physical : String}
    (hc : (c, physical) ∈ columns.zip (columns.filterMap f))
    (hd : (d, physical) ∈ columns.zip (columns.filterMap f)) : c = d := by
  have hs : (columns.zip (columns.filterMap f)).map Prod.snd = columns.filterMap f :=
    map_snd_zip (length_filterMap_le f columns)
  rw [← hs] at hnd
  exact congrArg Prod.fst (inj_on_of_nodup_map hnd hc hd rfl)

end Positions

variable {n : String}

section Image

variable {nameOf : String → String} {fields : List (String × V)}

theorem putField_self (image : NamedCells V) (field : String × V) :
    putField nameOf image field (nameOf field.1) = some field.2 := update_self _ _ _

variable {image : NamedCells V}

theorem putField_of_ne {field : String × V} (h : n ≠ nameOf field.1) :
    putField nameOf image field n = image n :=
  update_of_ne h _ _

theorem foldl_putField_eq_some {v : V} (h : fields.foldl (putField nameOf) image n = some v) :
    (∃ field ∈ fields, nameOf field.1 = n ∧ field.2 = v) ∨ image n = some v := by
  induction fields generalizing image with
  | nil => exact .inr h
  | cons field fields ih =>
    rcases ih h with ⟨field', hmem, hf⟩ | hi
    · exact .inl ⟨field', mem_cons_of_mem _ hmem, hf⟩
    · by_cases hn : n = nameOf field.1
      · rw [hn, putField_self, Option.some.injEq] at hi
        exact .inl ⟨field, mem_cons_self, hn.symm, hi⟩
      · rw [putField_of_ne hn] at hi
        exact .inr hi

theorem foldl_putField_ne_none (h : image n ≠ none ∨ ∃ field ∈ fields, nameOf field.1 = n) :
    fields.foldl (putField nameOf) image n ≠ none := by
  induction fields generalizing image with
  | nil => simpa using h
  | cons field fields ih =>
    refine ih ?_
    by_cases hn : n = nameOf field.1
    · rw [hn, putField_self]
      exact .inl (by simp)
    · rw [putField_of_ne hn]
      refine h.imp_right ?_
      rintro ⟨field', hmem, hnm⟩
      rcases mem_cons.1 hmem with rfl | hmem
      · exact absurd hnm.symm hn
      · exact ⟨field', hmem, hnm⟩

end Image

section Spec

variable {table : TableColumns} {segment : SegmentNames} {projection : ColdSegmentProjection}

theorem physicalPkNames_eq_ok {key : List ColumnRef} {names : List String}
    (h : physicalPkNames table segment key = .ok names) :
    List.Forall₂ (fun k n ↦ table.physicalName segment k = some n) key names := by
  induction key generalizing names with
  | nil =>
    cases h
    exact .nil
  | cons column key ih =>
    rw [physicalPkNames] at h
    split at h
    next => cases h
    next name hnm =>
      obtain ⟨rest, hre, rfl⟩ := Except.map_eq_ok_iff.1 h
      exact .cons hnm (ih hre)

/-- **What the projection names.** -/
theorem coldProjectionForSegment_eq_ok
    (h : coldProjectionForSegment table segment = .ok projection) :
    projection.physicalNames = table.columns.filterMap (table.physicalName segment) ∧
      List.Forall₂ (fun k n ↦ table.physicalName segment k = some n) table.primaryKey
        projection.physicalPkNames := by
  rw [coldProjectionForSegment] at h
  split at h
  next => cases h
  next pkNames hpkNames =>
    have hpk := physicalPkNames_eq_ok hpkNames
    split at h
    next hnone =>
      -- a key column that the segment has would have been mapped, so there is none
      have hkey : table.primaryKey = [] := by
        refine eq_nil_iff_forall_not_mem.2 fun k hk ↦ ?_
        obtain ⟨n, -, hn⟩ := Pairing.exists_right hpk hk
        rw [filterMap_eq_nil_iff.1 hnone k (table.key_mem k hk)] at hn
        cases hn
      rw [hkey, zip_nil_left, fallbackNames] at h
      cases h
      exact ⟨hnone.symm, hpk⟩
    next name names hm =>
      cases h
      exact ⟨hm.symm, hpk⟩

theorem eq_of_physicalName_eq (hd : segment.Distinct table) {a b : ColumnRef}
    (ha : a ∈ table.columns) (hb : b ∈ table.columns)
    (hna : table.physicalName segment a = some n) (hnb : table.physicalName segment b = some n) :
    a = b := by
  by_contra hne
  have hpw := pairwise_filterMap.1 hd.nodup
  have hs : Std.Symm fun a b : ColumnRef ↦
      ∀ x, table.physicalName segment a = some x → ∀ y, table.physicalName segment b = some y →
        x ≠ y :=
    ⟨fun a b h x hx y hy ↦ (h y hy x hx).symm⟩
  exact hpw.forall ha hb hne n hna n hnb rfl

/-! ### The reported key -/

theorem remapKey_eq_ok {pairs : List (ColumnRef × String)} {fields remapped result : NamedCells V}
    {cell : String → V} (hf : ∀ q ∈ pairs, fields q.2 = some (cell q.2))
    (hnd : (pairs.map Prod.snd).Nodup) (h : remapKey pairs fields remapped = .ok result)
    {v : V} (hv : result n = some v) :
    (∃ q ∈ pairs, q.1.name = n ∧ cell q.2 = v) ∨ remapped n = some v := by
  induction pairs generalizing fields remapped with
  | nil =>
    cases h
    exact .inr hv
  | cons q pairs ih =>
    obtain ⟨logical, physical⟩ := q
    rw [forall_mem_cons] at hf
    rw [map_cons, nodup_cons] at hnd
    rw [remapKey, hf.1] at h
    have hre : ∀ q ∈ pairs, update fields physical none q.2 = some (cell q.2) := by
      intro q hq
      have hne : q.2 ≠ physical := fun heq ↦ hnd.1 (mem_map.2 ⟨q, hq, heq⟩)
      rw [update_of_ne hne]
      exact hf.2 q hq
    rcases ih hre hnd.2 h with ⟨q, hq, hnm⟩ | hr
    · exact .inl ⟨q, mem_cons_of_mem _ hq, hnm⟩
    · by_cases hn : n = logical.name
      · rw [hn, update_self, Option.some.injEq] at hr
        exact .inl ⟨_, mem_cons_self, hn.symm, hr⟩
      · rw [update_of_ne hn] at hr
        exact .inr hr

/-! ### When the feed is right -/

variable {scope : Option (String × (V → Option S))}
  {change : MirrorChange (NamedCells V) S (NamedCells V)}

theorem coldRowToMirrorChange_eq_ok {tableOid : ℕ} {row : CleanColdRow V}
    (h : coldRowToMirrorChange tableOid table projection scope row = .ok change) :
    remapKey (table.primaryKey.zip projection.physicalPkNames) row.pkJson (fun _ ↦ none) =
        .ok change.pk ∧
      change.rowImage = if row.deleted then none else
        some (logicalImage (logicalName table.columns projection.physicalNames
          (table.primaryKey.zip projection.physicalPkNames)) row.rowImage) := by
  rw [coldRowToMirrorChange] at h
  split at h
  next => cases h
  next pkJson hpk =>
    split at h
    next => cases h
    next =>
      cases h
      exact ⟨hpk, rfl⟩

theorem key_faithful (hd : segment.Distinct table)
    (hp : coldProjectionForSegment table segment = .ok projection) {stored : StoredRow V}
    {tableOid : ℕ}
    (h : coldRowToMirrorChange tableOid table projection scope (stored.read projection) =
      .ok change) {k : ColumnRef} (hk : k ∈ table.primaryKey) {v : V}
    (hv : change.pk k.name = some v) : stored.valueOf table segment k = some v := by
  obtain ⟨-, hpk⟩ := coldProjectionForSegment_eq_ok hp
  have hr : ∀ q ∈ table.primaryKey.zip projection.physicalPkNames,
      table.physicalName segment q.1 = some q.2 := fun q hq ↦
    (forall₂_iff_zip.1 hpk).2 hq
  have hf : ∀ q ∈ table.primaryKey.zip projection.physicalPkNames,
      (stored.read projection).pkJson q.2 = some (stored.cell q.2) := fun q hq ↦
    if_pos (of_mem_zip hq).2
  have hnd : ((table.primaryKey.zip projection.physicalPkNames).map Prod.snd).Nodup := by
    rw [map_snd_zip hpk.length_eq.ge]
    have hc : List.Forall₂ (fun k n ↦ k ∈ table.columns ∧
        table.physicalName segment k = some n) table.primaryKey projection.physicalPkNames :=
      (forall₂_and_left _ _).2 ⟨table.key_mem, hpk⟩
    refine Pairing.pairwise ?_ hc table.key_nodup
    rintro a b n m ⟨ha, hna⟩ ⟨hb, hmb⟩ hne rfl
    exact hne (eq_of_physicalName_eq hd ha hb hna hmb)
  rcases remapKey_eq_ok hf hnd (coldRowToMirrorChange_eq_ok h).1 hv with
    ⟨q, hq, hnm, rfl⟩ | hnone
  · have hmem := table.key_mem q.1 (of_mem_zip hq).1
    have heq : q.1 = k := inj_on_of_nodup_map table.names_nodup hmem (table.key_mem k hk) hnm
    rw [StoredRow.valueOf, ← heq, hr q hq, Option.map_some]
  · cases hnone

/-- **The feed is right if and only if the segment has no column after one that it lacks.** -/
theorem faithful_iff (hdistinct : segment.Distinct table)
    (hprojection : coldProjectionForSegment table segment = .ok projection) {stored : StoredRow V}
    (hlive : stored.deleted = false) {tableOid : ℕ} {scope : Option (String × (V → Option S))}
    {change : MirrorChange (NamedCells V) S (NamedCells V)}
    (h : coldRowToMirrorChange tableOid table projection scope (stored.read projection) =
      .ok change) : Faithful table segment stored change ↔ PresentFirst table segment := by
  obtain ⟨hm, -⟩ := coldProjectionForSegment_eq_ok hprojection
  obtain ⟨-, hi⟩ := coldRowToMirrorChange_eq_ok h
  have hrd : (stored.read projection).deleted = false := hlive
  have hfds : (stored.read projection).rowImage =
      (table.columns.filterMap (table.physicalName segment)).map fun name ↦
        (name, stored.cell name) := by
    have hda : (table.columns.filterMap (table.physicalName segment)).filter
        (fun name ↦ !isCleanMetadataColumn name) =
          table.columns.filterMap (table.physicalName segment) :=
      filter_eq_self.2 fun name hnm ↦ by rw [hdistinct.data name hnm]; rfl
    simp only [StoredRow.read, hlive, hm, hda]
    rfl
  rw [hrd, hfds, hm] at hi
  simp only [Bool.false_eq_true, if_false] at hi
  constructor
  · intro ha
    by_contra hn
    obtain ⟨⟨c, physical⟩, hmem, hnone⟩ := exists_zip_of_not_presentFirst hn
    have hph := (of_mem_zip hmem).2
    obtain ⟨d, hd, hl⟩ := exists_logicalName (table.primaryKey.zip projection.physicalPkNames) hph
    obtain rfl := eq_of_mem_zip hdistinct.nodup hmem hd
    have hfield : (physical, stored.cell physical) ∈
        (table.columns.filterMap (table.physicalName segment)).map fun name ↦
          (name, stored.cell name) := mem_map.2 ⟨physical, hph, rfl⟩
    have hr : logicalImage (logicalName table.columns _
        (table.primaryKey.zip projection.physicalPkNames)) _ c.name ≠ none :=
      foldl_putField_ne_none (.inr ⟨_, hfield, hl⟩)
    obtain ⟨v, hv⟩ := Option.ne_none_iff_exists'.1 hr
    have hval := ha.image _ hi c (of_mem_zip hmem).1 v hv
    rw [StoredRow.valueOf, hnone] at hval
    cases hval
  · intro hf
    refine ⟨fun image hsome c hc v hv ↦ ?_,
      fun k hk v hv ↦ key_faithful hdistinct hprojection h hk hv⟩
    rw [hi, Option.some.injEq] at hsome
    subst hsome
    rcases foldl_putField_eq_some hv with ⟨field, hfield, hnm, rfl⟩ | hnone
    · obtain ⟨physical, hph, rfl⟩ := mem_map.1 hfield
      obtain ⟨d, hd, hl⟩ := exists_logicalName (table.primaryKey.zip projection.physicalPkNames) hph
      have hcd : d = c := inj_on_of_nodup_map table.names_nodup (of_mem_zip hd).1 hc
        (hl.symm.trans hnm)
      rw [StoredRow.valueOf, ← hcd, forall_zip_of_presentFirst hf _ hd, Option.map_some]
    · cases hnone

end Spec

/-! ### Two segments -/

def ordersKey : List ColumnRef := [⟨1, "id"⟩]

def orders : TableColumns where
  schemaVersion := 2
  columns := [⟨1, "id"⟩, ⟨2, "note"⟩, ⟨3, "quantity"⟩]
  primaryKey := ordersKey
  names_nodup := by decide
  key_nodup := by decide
  key_mem := by decide

def ordersSegment (ids : List ℤ) : SegmentNames where
  objectPath := "orders/1.parquet"
  schemaVersion := 1
  physicalNames id := if id ∈ ids then [(1, "id"), (2, "remark"), (3, "amount")].lookup id else none

def ordersRow : StoredRow ℕ where
  cell name := if name = "id" then 7 else if name = "remark" then 20 else 30
  seq := 1
  op := .insert
  deleted := false

theorem faithful_without_last :
    ∃ change : MirrorChange (NamedCells ℕ) Unit (NamedCells ℕ),
      coldRowToMirrorChange 1 orders ⟨["id", "remark"], ["id"]⟩ none
        (ordersRow.read ⟨["id", "remark"], ["id"]⟩) = .ok change ∧
      Faithful orders (ordersSegment [1, 2]) ordersRow change :=
  ⟨_, rfl, (faithful_iff ⟨by decide, by decide⟩ (by rfl) rfl rfl).2 (by decide)⟩

theorem not_faithful_without_second :
    ∃ projection, coldProjectionForSegment orders (ordersSegment [1, 3]) = .ok projection ∧
      ∃ change : MirrorChange (NamedCells ℕ) Unit (NamedCells ℕ),
        coldRowToMirrorChange 1 orders projection none (ordersRow.read projection) = .ok change ∧
        ¬Faithful orders (ordersSegment [1, 3]) ordersRow change := by
  refine ⟨⟨["id", "amount"], ["id"]⟩, rfl, _, rfl, fun h ↦ ?_⟩
  have hn := h.image _ rfl ⟨2, "note"⟩ (by decide) 30 (by decide)
  revert hn
  decide

end ColdColumns

end Koldstore.Feed
