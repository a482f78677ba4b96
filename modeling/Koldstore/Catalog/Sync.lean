import Koldstore.Basic.Except
import Koldstore.Basic.Keyset
import Koldstore.Catalog.Tables

/-!
# Exporting and syncing a table's catalog

Nodes that share one cold storage have one leader per table.
-/

namespace Koldstore.Catalog

variable {Id : Type*}

/-! ### The export -/

structure ExportedSchema where
  version : Option ℤ
  active : Option Bool
  lastFlushSeq : Option ℤ
  deriving DecidableEq, Repr

structure Metadata (Id : Type*) where
  format : Option ℤ
  schemas : Option (List ExportedSchema)
  manifests : List Manifest
  segments : List (ColdSegment Id)
  segmentIndex : List (IndexRow Id)
  segmentOrderIndex : List (IndexRow Id)
  deriving DecidableEq, Repr

def FORMAT : ℤ := 1

inductive ExportError
  | notManaged
  | pendingSegments (pending : ℕ)
  | noMirror
  | deleteMarkers (tombstones : ℕ)
  | unsyncedManifest
  deriving DecidableEq, Repr

def ExportError.message : ExportError → String
  | .notManaged => "table is not managed by koldstore"
  | .pendingSegments pending =>
    s!"{pending} cold segment(s) are still pending; wait for the running flush, then retry"
  | .noMirror => "table has no change-log mirror"
  | .deleteMarkers tombstones =>
    s!"{tombstones} delete marker(s) have not been flushed yet; a hot-only dump would resurrect " ++
      "the deleted cold rows. Run koldstore.flush_table() and retry"
  | .unsyncedManifest => "the cold manifest is not in sync; run koldstore.flush_table() and retry"

variable (c : Catalog Id) (t : ℕ)

def activeSchema : Option SchemaVersion :=
  (c.schemas.rows.find? fun r ↦ r.tableOid = t ∧ r.data.active).map Row.data

/-- `managed_table_oids`: the tables with an active schema version. -/
def managedTableOids : List ℕ := activeTables c.schemas.rows

def ofTable {α : Type*} (rows : List (Row α)) : List α :=
  (rows.filter fun r ↦ r.tableOid = t).map Row.data

def liveSegments : List (Id × SegmentStatus) :=
  ((ofTable t c.coldSegments.rows).filter fun s ↦ s.status.Live).map
    fun s ↦ (s.segmentId, s.status)

variable (metadata : Metadata Id)

def Metadata.listed : List (Id × SegmentStatus) :=
  metadata.segments.map fun s ↦ (s.segmentId, s.status)

section Export

variable [LinearOrder Id]

/-- The index rows of the exported segments: the join with `cold_segments` on `segment_id`. -/
def exportIndex (segments : List (ColdSegment Id)) (rows : List (Row (IndexRow Id))) :
    List (IndexRow Id) :=
  Keyset.ordered (fun i ↦ toLex (i.segmentId, i.ordinal))
    ((rows.map Row.data).filter fun i ↦ i.segmentId ∈ segments.map ColdSegment.segmentId)

def exportValue (forDump : Bool) (tombstones : ℕ) : Except ExportError (Metadata Id) :=
  let pending := (ofTable t c.coldSegments.rows).countP fun s ↦ s.status = .pending
  let unsynced := (ofTable t c.manifest.rows).countP fun m ↦
    m.syncState ≠ .inSync ∧ m.syncState ≠ .pendingWrite
  let segments := Keyset.ordered (fun s ↦ toLex (s.scopeKey, toLex (s.minSeq, s.segmentId)))
    ((ofTable t c.coldSegments.rows).filter fun s ↦ s.status.Live)
  if t ∉ c.managedTableOids then .error .notManaged
  else if 0 < pending then .error (.pendingSegments pending)
  else if ((c.activeSchema t).bind SchemaVersion.mirrorRelation).isNone then .error .noMirror
  else if forDump = true ∧ 0 < tombstones then .error (.deleteMarkers tombstones)
  else if 0 < unsynced then .error .unsyncedManifest
  else .ok
    { format := some FORMAT
      schemas := some ((Keyset.ordered SchemaVersion.version (ofTable t c.schemas.rows)).map
        fun s ↦ ⟨some s.version, some s.active, some s.lastFlushSeq⟩)
      manifests := Keyset.ordered Manifest.scopeKey (ofTable t c.manifest.rows)
      segments := segments
      segmentIndex := exportIndex segments c.segmentIndex.rows
      segmentOrderIndex := exportIndex segments c.segmentOrderIndex.rows }

theorem live_of_mem_exportValue {c : Catalog Id} {t : ℕ} {forDump : Bool} {tombstones : ℕ}
    {metadata : Metadata Id} (h : c.exportValue t forDump tombstones = .ok metadata) :
    ∀ e ∈ metadata.segments, e.status.Live := by
  simp only [exportValue, Except.ite_error_eq_ok_iff, Except.ok.injEq] at h
  obtain ⟨-, -, -, -, -, rfl⟩ := h
  intro e he
  have hmem := (Keyset.perm_ordered _ _).mem_iff.mp he
  exact of_decide_eq_true (List.mem_filter.mp hmem).2

end Export

/-! ### The sync -/

inductive Constraint
  | segmentId | writerPass | segmentIndexKey | segmentIndexRefers | segmentOrderIndexKey
  | segmentOrderIndexRefers | manifestKey
  deriving DecidableEq, Repr

inductive SyncError
  | unsupportedFormat
  | notManaged
  | noSchemas
  | noExportedVersion
  | noLocalVersion
  | versionDiffers (localVersion exportedVersion : ℤ)
  | violates (constraint : Constraint)
  deriving DecidableEq, Repr

def SyncError.message : SyncError → Option String
  | .unsupportedFormat => some "unsupported metadata format"
  | .notManaged => some <| "table is not managed; adopt the leader's metadata with " ++
      "import_table_metadata() first"
  | .noSchemas => some "metadata has no schemas"
  | .noExportedVersion => some "metadata has no active schema version"
  | .noLocalVersion => some "table has no active schema version"
  | .versionDiffers localVersion exportedVersion => some <|
      s!"schema version differs (local {localVersion}, leader {exportedVersion}); " ++
      "apply the leader's DDL first"
  | .violates _ => none

structure SyncReport where
  added : ℕ
  removed : ℕ
  segments : ℕ
  generation : ℤ
  addedRanges : List (ℤ × ℤ)
  deriving DecidableEq, Repr

def Metadata.activeSchema : Option ExportedSchema :=
  metadata.schemas.bind fun schemas ↦ schemas.find? fun s ↦ s.active = some true

def validate : Except SyncError Unit :=
  if metadata.format ≠ some FORMAT then .error .unsupportedFormat
  else if t ∉ c.managedTableOids then .error .notManaged
  else if metadata.schemas.isNone then .error .noSchemas
  else match metadata.activeSchema.bind ExportedSchema.version with
    | none => .error .noExportedVersion
    | some exportedVersion =>
      match (c.activeSchema t).map SchemaVersion.version with
      | none => .error .noLocalVersion
      | some localVersion =>
        if localVersion ≠ exportedVersion then
          .error (.versionDiffers localVersion exportedVersion)
        else .ok ()

/-- `jsonb_populate_record` with the local `table_oid`. -/
def populate {α : Type*} (exported : List α) : List (Row α) := exported.map (Row.mk t)

section Sync

variable [DecidableEq Id]

def Unlisted (r : Row (ColdSegment Id)) : Prop := r.tableOid = t ∧ r.data.status.Live ∧
    r.data.segmentId ∉ metadata.segments.map ColdSegment.segmentId

instance (t : ℕ) (metadata : Metadata Id) : DecidablePred (Unlisted t metadata) :=
  fun _ ↦ inferInstanceAs (Decidable (_ ∧ _))

def dropUnlisted : Catalog Id :=
  let kept := c.coldSegments.deleteWhere (Unlisted t metadata)
  { c with
    coldSegments := kept
    segmentIndex := c.segmentIndex.deleteWhere fun i ↦ i.data.segmentId ∉ kept.keys
    segmentOrderIndex := c.segmentOrderIndex.deleteWhere fun i ↦ i.data.segmentId ∉ kept.keys
    nodup_writerPasses := c.nodup_writerPasses.sublist (List.filter_sublist.filterMap _)
    segmentIndex_refers := fun _ hr ↦ not_not.mp (KeyedTable.mem_deleteWhere _ |>.mp hr).2
    segmentOrderIndex_refers := fun _ hr ↦ not_not.mp (KeyedTable.mem_deleteWhere _ |>.mp hr).2 }

def adoptSegments : Except SyncError (Catalog Id) :=
  match h : c.coldSegments.insertMissing (populate t metadata.segments) with
  | none => .error (.violates .segmentId)
  | some coldSegments =>
    if hpasses : (writerPasses coldSegments.rows).Nodup then
      .ok { c with
        coldSegments := coldSegments
        nodup_writerPasses := hpasses
        segmentIndex_refers := fun r hr ↦
          KeyedTable.keys_subset_of_insertMissing h (c.segmentIndex_refers r hr)
        segmentOrderIndex_refers := fun r hr ↦
          KeyedTable.keys_subset_of_insertMissing h (c.segmentOrderIndex_refers r hr) }
    else .error (.violates .writerPass)

def adoptIndexRows (segmentIds : List Id)
    (table : KeyedTable fun r : Row (IndexRow Id) ↦ r.indexKey) (new : List (Row (IndexRow Id)))
    (key refers : Constraint) :
    Except SyncError { table : KeyedTable fun r : Row (IndexRow Id) ↦ r.indexKey //
      ∀ r ∈ table.rows, r.data.segmentId ∈ segmentIds } :=
  match table.insertMissing new with
  | none => .error (.violates key)
  | some table =>
    if hrefers : ∀ r ∈ table.rows, r.data.segmentId ∈ segmentIds then .ok ⟨table, hrefers⟩
    else .error (.violates refers)

/-- The insertion into `cold_segment_index`. -/
def adoptSegmentIndex : Except SyncError (Catalog Id) :=
  (adoptIndexRows c.coldSegments.keys c.segmentIndex (populate t metadata.segmentIndex)
    .segmentIndexKey .segmentIndexRefers).map
    fun table ↦ { c with segmentIndex := table.1, segmentIndex_refers := table.2 }

/-- The insertion into `cold_segment_order_index`. -/
def adoptSegmentOrderIndex : Except SyncError (Catalog Id) :=
  (adoptIndexRows c.coldSegments.keys c.segmentOrderIndex (populate t metadata.segmentOrderIndex)
    .segmentOrderIndexKey .segmentOrderIndexRefers).map
    fun table ↦ { c with segmentOrderIndex := table.1, segmentOrderIndex_refers := table.2 }

def freshManifest (m : Manifest) : Manifest := { m with hotRowCount := 0, mirrorRowCount := 0 }

def mergeManifest (m excluded : Row Manifest) : Row Manifest := { m with data := { m.data with
    etag := excluded.data.etag
    generation := excluded.data.generation
    syncState := excluded.data.syncState
    segmentCount := excluded.data.segmentCount
    maxSeq := excluded.data.maxSeq
    coldRowCount := excluded.data.coldRowCount
    historyFloorSeq := excluded.data.historyFloorSeq
    lastError := none } }

def upsertedManifest := c.manifest.upsert mergeManifest (fun _ _ ↦ rfl)
    (populate t (metadata.manifests.map freshManifest))

def upsertManifests : Except SyncError (Catalog Id) :=
  match c.upsertedManifest t metadata with
  | none => .error (.violates .manifestKey)
  | some manifest => .ok { c with manifest := manifest }

/-- The `UPDATE` of `schemas`, on one row. -/
def withLastFlushSeq (seq : ℤ) (r : Row SchemaVersion) : Row SchemaVersion :=
  if r.tableOid = t ∧ r.data.active then { r with data := { r.data with lastFlushSeq := seq } }
  else r

theorem withLastFlushSeq_frame (seq : ℤ) (r : Row SchemaVersion) :
    (withLastFlushSeq t seq r).tableOid = r.tableOid ∧
      (withLastFlushSeq t seq r).data.version = r.data.version ∧
      (withLastFlushSeq t seq r).data.active = r.data.active := by
  rw [withLastFlushSeq]
  split_ifs <;> exact ⟨rfl, rfl, rfl⟩

theorem activeTables_map_withLastFlushSeq (seq : ℤ) (rows : List (Row SchemaVersion)) :
    activeTables (rows.map (withLastFlushSeq t seq)) = activeTables rows := by
  rw [activeTables, List.filterMap_map, activeTables]
  congr 1
  funext r
  obtain ⟨ht, -, ha⟩ := withLastFlushSeq_frame t seq r
  show (if (withLastFlushSeq t seq r).data.active then
    some (withLastFlushSeq t seq r).tableOid else none) = _
  rw [ht, ha]

/-- The active schema version takes the leader's `last_flush_seq`, or zero. -/
def setLastFlushSeq : Catalog Id :=
  let seq := (metadata.activeSchema.bind ExportedSchema.lastFlushSeq).getD 0
  { c with
    schemas := c.schemas.mapRows (withLastFlushSeq t seq) fun r ↦ by
      obtain ⟨htable, hversion, -⟩ := withLastFlushSeq_frame t seq r
      rw [htable, hversion]
    nodup_activeTables := by
      show (activeTables (c.schemas.rows.map (withLastFlushSeq t seq))).Nodup
      rw [activeTables_map_withLastFlushSeq]
      exact c.nodup_activeTables }

def syncReport (c kept final : Catalog Id) (t : ℕ) (metadata : Metadata Id) : SyncReport where
  added := (kept.coldSegments.missing (populate t metadata.segments)).length
  removed := c.coldSegments.rows.countP fun r ↦ Unlisted t metadata r
  segments := (ofTable t final.coldSegments.rows).countP fun s ↦ s.status = .active
  generation := ((ofTable t final.manifest.rows).map Manifest.generation).max?.getD 0
  addedRanges := (kept.coldSegments.missing (populate t metadata.segments)).map
    fun r ↦ (r.data.minSeq, r.data.maxSeq)

def applyExport : Except SyncError (Catalog Id) :=
  ((((c.dropUnlisted t metadata).adoptSegments t metadata).bind
    fun c ↦ c.adoptSegmentIndex t metadata).bind
    fun c ↦ c.adoptSegmentOrderIndex t metadata).bind
    fun c ↦ (c.upsertManifests t metadata).map
    fun c ↦ c.setLastFlushSeq t metadata

def syncValue : Except SyncError (Catalog Id × SyncReport) :=
  (c.validate t metadata).bind fun _ ↦ (c.applyExport t metadata).map
    fun final ↦ (final, syncReport c (c.dropUnlisted t metadata) final t metadata)

end Sync

end Koldstore.Catalog
