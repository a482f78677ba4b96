import Koldstore.Basic.KeyedTable

/-!
# The catalog of cold segments

`cold_segments` with its two index tables, the `manifest` rows and the schema versions.
-/

namespace Koldstore

namespace Catalog

/-- The values of `cold_segments.status`. -/
inductive SegmentStatus
  | pending | active | compacted | deleted | history
  deriving DecidableEq, Repr

/-- `status IN ('active', 'history')`: the segments that a reader of the table or of its change
history uses. -/
def SegmentStatus.Live (status : SegmentStatus) : Prop := status = .active ∨ status = .history

instance : DecidablePred SegmentStatus.Live := fun _ ↦ inferInstanceAs (Decidable (_ ∨ _))

/-- `(writer_job_id, pass_id, segment_ordinal)`. -/
structure WriterPass (Id : Type*) where
  writerJobId : Id
  passId : Id
  segmentOrdinal : ℕ
  deriving DecidableEq, Repr

/-- A row of `cold_segments` without its `table_oid`. -/
structure ColdSegment (Id : Type*) where
  segmentId : Id
  scopeKey : String
  path : String
  minSeq : ℤ
  maxSeq : ℤ
  status : SegmentStatus
  writer : Option (WriterPass Id)
  retiredGeneration : Option ℤ
  deriving DecidableEq, Repr

/-- A row of `cold_segment_index` or `cold_segment_order_index`. -/
structure IndexRow (Id : Type*) where
  segmentId : Id
  ordinal : ℤ
  deriving DecidableEq, Repr

/-- The values of `manifest.sync_state`. -/
inductive SyncState
  | inSync | pendingWrite | syncing | stale | error
  deriving DecidableEq, Repr

/-- A row of `manifest` without its `table_oid`. -/
structure Manifest where
  scopeKey : String
  etag : Option String
  generation : ℤ
  syncState : SyncState
  segmentCount : ℤ
  maxSeq : ℤ
  hotRowCount : ℤ
  mirrorRowCount : ℤ
  coldRowCount : ℤ
  lastError : Option String
  historyFloorSeq : ℤ
  deriving DecidableEq, Repr

/-- A row of `schemas` without its `table_oid`. -/
structure SchemaVersion where
  version : ℤ
  active : Bool
  mirrorRelation : Option String
  lastFlushSeq : ℤ
  deriving DecidableEq, Repr

structure Row (α : Type*) where
  tableOid : ℕ
  data : α
  deriving DecidableEq, Repr

def Row.indexKey {Id : Type*} (r : Row (IndexRow Id)) : Id × ℤ := (r.data.segmentId, r.data.ordinal)

/-- The keys of `cold_segments_writer_pass_ordinal_uidx`. -/
def writerPasses {Id : Type*} (rows : List (Row (ColdSegment Id))) : List (WriterPass Id) :=
  rows.filterMap fun r ↦ r.data.writer

/-- What `schemas_one_active_per_table_idx` is unique in. -/
def activeTables (rows : List (Row SchemaVersion)) : List ℕ :=
  rows.filterMap fun r ↦ if r.data.active then some r.tableOid else none

end Catalog

open Catalog in
@[ext] structure Catalog (Id : Type*) where
  coldSegments : KeyedTable fun r : Row (ColdSegment Id) ↦ r.data.segmentId
  segmentIndex : KeyedTable fun r : Row (IndexRow Id) ↦ r.indexKey
  segmentOrderIndex : KeyedTable fun r : Row (IndexRow Id) ↦ r.indexKey
  manifest : KeyedTable fun r : Row Manifest ↦ (r.tableOid, r.data.scopeKey)
  schemas : KeyedTable fun r : Row SchemaVersion ↦ (r.tableOid, r.data.version)
  nodup_writerPasses : (writerPasses coldSegments.rows).Nodup
  nodup_activeTables : (activeTables schemas.rows).Nodup
  segmentIndex_refers : ∀ r ∈ segmentIndex.rows, r.data.segmentId ∈ coldSegments.keys
  segmentOrderIndex_refers : ∀ r ∈ segmentOrderIndex.rows, r.data.segmentId ∈ coldSegments.keys

namespace Catalog

variable {Id : Type*} [DecidableEq Id]

/-- An update of segments that keeps their ids and writers. -/
def mapSegments (c : Catalog Id) (f : Row (ColdSegment Id) → Row (ColdSegment Id))
    (hf : ∀ r, (f r).data.segmentId = r.data.segmentId ∧ (f r).data.writer = r.data.writer) :
    Catalog Id :=
  { c with
    coldSegments := c.coldSegments.mapRows f fun r ↦ (hf r).1
    nodup_writerPasses := by
      have hsame : (fun r ↦ r.data.writer) ∘ f = fun r ↦ r.data.writer :=
        funext fun r ↦ (hf r).2
      show ((c.coldSegments.rows.map f).filterMap _).Nodup
      rw [List.filterMap_map, hsame]
      exact c.nodup_writerPasses
    segmentIndex_refers := by
      rw [KeyedTable.keys_mapRows]
      exact c.segmentIndex_refers
    segmentOrderIndex_refers := by
      rw [KeyedTable.keys_mapRows]
      exact c.segmentOrderIndex_refers }

/-! ### Publishing a compaction -/

/-- The parameters of `plan_activate_compaction`. -/
structure CompactionSwap (Id : Type*) where
  expectedGeneration : ℤ
  newGeneration : ℤ
  segmentCount : ℤ
  maxSeq : ℤ
  newIds : List Id
  replacedIds : List Id
  historyFloor : ℤ
  historyIds : List Id

namespace CompactionSwap

variable (swap : CompactionSwap Id) (t : ℕ)

def Selects (status : SegmentStatus) (ids : List Id) (r : Row (ColdSegment Id)) : Prop :=
  r.tableOid = t ∧ r.data.scopeKey = "" ∧ r.data.status = status ∧ r.data.segmentId ∈ ids

instance (status : SegmentStatus) (ids : List Id) :
    DecidablePred (Selects t status ids) := fun _ ↦ inferInstanceAs (Decidable (_ ∧ _))

/-- What the swap does to a row of `cold_segments`. -/
def segment (r : Row (ColdSegment Id)) : Row (ColdSegment Id) :=
  if Selects t .active swap.replacedIds r then
    { r with data := { r.data with
      status := .compacted, retiredGeneration := some swap.newGeneration } }
  else if Selects t .pending swap.newIds r then
    { r with data := { r.data with status := .active } }
  else if Selects t .pending swap.historyIds r then
    { r with data := { r.data with status := .history } }
  else r

variable (m : Row Manifest)

def Holds : Prop :=
  m.tableOid = t ∧ m.data.scopeKey = "" ∧ m.data.generation = swap.expectedGeneration

instance : DecidablePred (swap.Holds t) := fun _ ↦ inferInstanceAs (Decidable (_ ∧ _))

/-- What the swap does to a row of `manifest`. -/
def manifest : Row Manifest := if swap.Holds t m then
    { m with data := { m.data with
      generation := swap.newGeneration
      syncState := .inSync
      segmentCount := swap.segmentCount
      maxSeq := max m.data.maxSeq swap.maxSeq
      historyFloorSeq := max m.data.historyFloorSeq swap.historyFloor
      lastError := none } }
  else m

theorem segment_frame (r : Row (ColdSegment Id)) :
    (swap.segment t r).data.segmentId = r.data.segmentId ∧
      (swap.segment t r).data.writer = r.data.writer ∧
      (swap.segment t r).tableOid = r.tableOid := by
  rw [segment]
  split_ifs <;> exact ⟨rfl, rfl, rfl⟩

omit [DecidableEq Id] in
theorem manifest_key : ((swap.manifest t m).tableOid, (swap.manifest t m).data.scopeKey) =
      (m.tableOid, m.data.scopeKey) := by
  rw [manifest]
  split_ifs <;> rfl

theorem segment_of_replaced {r : Row (ColdSegment Id)} (h : Selects t .active swap.replacedIds r) :
    (swap.segment t r).data.status = .compacted := by
  rw [segment, if_pos h]

def Touches (c : Catalog Id) (status : SegmentStatus) (ids : List Id) : Prop :=
  (c.coldSegments.rows.filter fun r ↦ Selects t status ids r).length = ids.length

instance (c : Catalog Id) (status : SegmentStatus) (ids : List Id) :
    Decidable (Touches t c status ids) := inferInstanceAs (Decidable (_ = _))

end CompactionSwap

/-- `plan_activate_compaction`: `none` aborts the transaction. -/
def activateCompaction (c : Catalog Id) (t : ℕ) (swap : CompactionSwap Id) : Option (Catalog Id) :=
  if (∃ m ∈ c.manifest.rows, swap.Holds t m) ∧ CompactionSwap.Touches t c .active swap.replacedIds ∧
      CompactionSwap.Touches t c .pending swap.newIds ∧
      CompactionSwap.Touches t c .pending swap.historyIds then
    some { c.mapSegments (swap.segment t) fun r ↦ (swap.segment_frame t r).imp_right And.left with
      manifest := c.manifest.mapRows (swap.manifest t) (swap.manifest_key t) }
  else none

theorem coldSegments_of_activateCompaction {c c' : Catalog Id} {t : ℕ} {swap : CompactionSwap Id}
    (h : c.activateCompaction t swap = some c') :
    c'.coldSegments.rows = c.coldSegments.rows.map (swap.segment t) := by
  rw [activateCompaction] at h
  split_ifs at h
  rw [← Option.some.inj h]
  rfl

end Catalog

end Koldstore
