import Koldstore.Catalog.Tables
import Koldstore.Flush.Pass

/-!
# Activating the segments of a flush

The last transaction of a pass activates its segments and prunes the hot rows they hold.
-/

namespace Koldstore.Catalog

open List

variable {Id : Type*}

/-! ### The statement -/

/-- The parameters of `activate_flush_segments`. -/
structure FlushActivation (Id : Type*) where
  expectedGeneration : ℤ
  segmentCount : ℤ
  maxSeq : ℤ
  pendingSegmentIds : List Id

namespace FlushActivation

variable (a : FlushActivation Id) (t : ℕ)

def manifestRow : Row Manifest where
  tableOid := t
  data :=
    { scopeKey := ""
      etag := none
      generation := a.expectedGeneration + 1
      syncState := .inSync
      segmentCount := a.segmentCount
      maxSeq := a.maxSeq
      hotRowCount := 0
      mirrorRowCount := 0
      coldRowCount := 0
      lastError := none
      historyFloorSeq := 0 }

/-- `DO UPDATE SET`, with the row that could not be inserted. -/
def updateManifest (m excluded : Row Manifest) : Row Manifest :=
  { m with data := { m.data with
    generation := excluded.data.generation
    syncState := .inSync
    segmentCount := excluded.data.segmentCount
    maxSeq := excluded.data.maxSeq
    lastError := none } }

theorem updateManifest_key (m excluded : Row Manifest) :
    ((updateManifest m excluded).tableOid, (updateManifest m excluded).data.scopeKey) =
      (m.tableOid, m.data.scopeKey) := rfl

def manifestConflict (m : Row Manifest) : Prop :=
  m.tableOid = t ∧ m.data.scopeKey = "" ∧ m.data.generation ≠ a.expectedGeneration

instance : DecidablePred (a.manifestConflict t) := fun _ ↦ inferInstanceAs (Decidable (_ ∧ _))

variable [DecidableEq Id]

/-- What the activation does to a row of `cold_segments`. -/
def segment (r : Row (ColdSegment Id)) : Row (ColdSegment Id) :=
  if CompactionSwap.Selects t .pending a.pendingSegmentIds r then
    { r with data := { r.data with status := .active } }
  else r

theorem segment_frame (r : Row (ColdSegment Id)) :
    (a.segment t r).data.segmentId = r.data.segmentId ∧
      (a.segment t r).data.writer = r.data.writer := by
  rw [segment]
  split_ifs <;> exact ⟨rfl, rfl⟩

end FlushActivation

variable [DecidableEq Id]

def activatePending (c : Catalog Id) (t : ℕ) (a : FlushActivation Id) : Catalog Id :=
  c.mapSegments (a.segment t) (a.segment_frame t)

/-- `plan_activate_flush_segments`: no row when the generation has moved on. -/
def planActivateFlushSegments (c : Catalog Id) (t : ℕ) (a : FlushActivation Id) :
    Option (ℤ × Catalog Id) :=
  if ∃ m ∈ c.manifest.rows, a.manifestConflict t m then none
  else
    (c.manifest.upsert FlushActivation.updateManifest FlushActivation.updateManifest_key
      [a.manifestRow t]).map fun manifest ↦
        (a.expectedGeneration + 1, { c.activatePending t a with manifest := manifest })

/-- `activate_flush_segments`. A generation is a 64-bit integer. -/
def activateFlushSegments (c : Catalog Id) (t : ℕ) (a : FlushActivation Id) :
    Except String (ℤ × Catalog Id) :=
  if a.expectedGeneration = 2 ^ 63 - 1 then .error "manifest generation overflow"
  else
    match c.planActivateFlushSegments t a with
    | some activated => .ok activated
    | none => .error s!"manifest generation CAS failed: expected {a.expectedGeneration}"

/-- `finalize_flush` from the activation on. -/
def finalizeFlush {K O C L V : Type*} [LinearOrder K] [LinearOrder O]
    (compare : C → V → L → Ordering) (sel : ResolvedFlushSelection C L) (c : Catalog Id) (t : ℕ)
    (a : FlushActivation Id) (σ : PassState K O C V) (fetched : List (FetchedRow K O C V)) :
    Except String (Catalog Id × PassState K O C V) :=
  (c.activateFlushSegments t a).map fun (_, c') ↦
    (c', if 0 < fetchedMaxSeq fetched then prune compare sel σ fetched else σ)

/-! ### What it answers -/

def HasStatus (c : Catalog Id) (t : ℕ) (status : SegmentStatus) (id : Id) : Prop :=
  ∃ r ∈ c.coldSegments.rows, r.tableOid = t ∧ r.data.scopeKey = "" ∧ r.data.status = status ∧
    r.data.segmentId = id

instance (c : Catalog Id) (t : ℕ) (status : SegmentStatus) (id : Id) :
    Decidable (c.HasStatus t status id) := by
  unfold HasStatus
  infer_instance

def GenerationRefused (c : Catalog Id) (t : ℕ) (a : FlushActivation Id) : Prop :=
  a.expectedGeneration = 2 ^ 63 - 1 ∨ ∃ m ∈ c.manifest.rows, a.manifestConflict t m

section

variable {c : Catalog Id} {t : ℕ} {a : FlushActivation Id}

theorem hasStatus_activatePending {id : Id} (hid : id ∈ a.pendingSegmentIds)
    (h : c.HasStatus t .pending id) : (c.activatePending t a).HasStatus t .active id := by
  obtain ⟨r, hr, ht, hsc, hsa, rfl⟩ := h
  have hs : CompactionSwap.Selects t .pending a.pendingSegmentIds r :=
    ⟨ht, hsc, hsa, hid⟩
  refine ⟨a.segment t r, mem_map_of_mem hr, ?_⟩
  rw [FlushActivation.segment, if_pos hs]
  exact ⟨ht, hsc, rfl, rfl⟩

theorem activateFlushSegments_of_refused (h : c.GenerationRefused t a) :
    ∃ e, c.activateFlushSegments t a = .error e := by
  rw [activateFlushSegments]
  rcases h with hl | hc
  · exact ⟨_, if_pos hl⟩
  · split_ifs
    · exact ⟨_, rfl⟩
    · rw [planActivateFlushSegments, if_pos hc]
      exact ⟨_, rfl⟩

theorem activateFlushSegments_of_not_refused (h : ¬c.GenerationRefused t a) :
    ∃ c', c.activateFlushSegments t a = .ok (a.expectedGeneration + 1, c') ∧
      c'.coldSegments = (c.activatePending t a).coldSegments := by
  obtain ⟨hl, hc⟩ := not_or.mp h
  have hnd : ([a.manifestRow t].map fun r ↦ (r.tableOid, r.data.scopeKey)).Nodup :=
    nodup_singleton _
  rw [activateFlushSegments, if_neg hl, planActivateFlushSegments, if_neg hc,
    KeyedTable.upsert, dif_pos hnd]
  exact ⟨_, rfl, rfl⟩

theorem coldSegments_of_activateFlushSegments {g : ℤ} {c' : Catalog Id}
    (h : c.activateFlushSegments t a = .ok (g, c')) :
    c'.coldSegments = (c.activatePending t a).coldSegments := by
  have hr : ¬c.GenerationRefused t a := by
    intro hr
    obtain ⟨e, he⟩ := activateFlushSegments_of_refused hr
    rw [he] at h
    cases h
  obtain ⟨c'', hc'', hss⟩ := activateFlushSegments_of_not_refused hr
  rw [hc''] at h
  cases h
  exact hss

end

section Sound

variable {K O C L V : Type*} [LinearOrder K] [LinearOrder O] (compare : C → V → L → Ordering)
  (sel : ResolvedFlushSelection C L) (c : Catalog Id) (t : ℕ) (a : FlushActivation Id)

/-- What an activation promises. -/
structure ActivationSound : Prop where
  active : ∀ g c', c.activateFlushSegments t a = .ok (g, c') →
    ∀ id ∈ a.pendingSegmentIds, c'.HasStatus t .active id
  fails : (∃ id ∈ a.pendingSegmentIds, ¬c.HasStatus t .pending id) →
    ∃ e, c.activateFlushSegments t a = .error e
  prunes : ∀ (σ : PassState K O C V) (fetched : List (FetchedRow K O C V)) c' σ',
    c.finalizeFlush compare sel t a σ fetched = .ok (c', σ') →
      ∀ k, σ.heap k ≠ none → σ'.heap k = none →
        ∀ id ∈ a.pendingSegmentIds, c'.HasStatus t .active id

theorem activateFlushSegments_of_finalizeFlush {σ σ' : PassState K O C V}
    {fetched : List (FetchedRow K O C V)} {c' : Catalog Id}
    (h : c.finalizeFlush compare sel t a σ fetched = .ok (c', σ')) :
    ∃ g, c.activateFlushSegments t a = .ok (g, c') := by
  obtain ⟨⟨g, c''⟩, hok, ⟨⟩⟩ := (Except.map_eq_ok_iff).mp h
  exact ⟨g, hok⟩

/-- **An activation does what its caller relies on exactly when every listed segment is pending**,
unless it is refused for its generation. -/
theorem activationSound_iff :
    ActivationSound (K := K) (O := O) compare sel c t a ↔
      c.GenerationRefused t a ∨ ∀ id ∈ a.pendingSegmentIds, c.HasStatus t .pending id := by
  constructor
  · intro hsd
    by_contra hn
    obtain ⟨hr, hpe⟩ := not_or.mp hn
    push Not at hpe
    obtain ⟨e, he⟩ := hsd.fails hpe
    obtain ⟨c', hc', -⟩ := activateFlushSegments_of_not_refused hr
    rw [he] at hc'
    cases hc'
  · intro hc
    have ha : ∀ g c', c.activateFlushSegments t a = .ok (g, c') →
        ∀ id ∈ a.pendingSegmentIds, c'.HasStatus t .active id := by
      intro g c' hok id hid
      rcases hc with hr | hpe
      · obtain ⟨e, he⟩ := activateFlushSegments_of_refused hr
        rw [he] at hok
        cases hok
      · have hl := hasStatus_activatePending hid (hpe id hid)
        rw [HasStatus, coldSegments_of_activateFlushSegments hok]
        exact hl
    refine ⟨ha, ?_, ?_⟩
    · rintro ⟨id, hid, hn⟩
      rcases hc with hr | hpe
      · exact activateFlushSegments_of_refused hr
      · exact absurd (hpe id hid) hn
    · intro σ fetched c' σ' hf _ _ _
      obtain ⟨g, hok⟩ := c.activateFlushSegments_of_finalizeFlush compare sel t a hf
      exact ha g c' hok

end Sound

namespace ActivationExample

theorem nodup_noKeys : ([] : List (ℕ × ℤ)).Nodup := nodup_nil

/-- The catalog of table `1` after its pending segment was cleared away as an orphan. -/
def catalog : Catalog ℕ where
  coldSegments := ⟨[], nodup_nil⟩
  segmentIndex := ⟨[], nodup_noKeys⟩
  segmentOrderIndex := ⟨[], nodup_noKeys⟩
  manifest := ⟨[], nodup_nil⟩
  schemas := ⟨[], nodup_noKeys⟩
  nodup_writerPasses := nodup_nil
  nodup_activeTables := nodup_nil
  segmentIndex_refers := by decide
  segmentOrderIndex_refers := by decide

/-- The pass wrote one segment, with the row of key `1`. -/
def activation : FlushActivation ℕ := ⟨0, 1, 5, [7]⟩

def fetched : List (FetchedRow ℕ Unit Unit ℕ) := [⟨⟨1, (), 5, .insert⟩, fun _ ↦ some 10⟩]

def table : PassState ℕ Unit Unit ℕ where
  heap := fun k ↦ if k = 1 then some fun _ ↦ some 10 else none
  mirror := ⟨[⟨1, (), 5, .insert⟩], by decide, by decide⟩
  cold := []
  wal := []
  seqWatermark := 0
  phase := .locked fetched

theorem expiredSegment_is_pruned :
    ∃ c' σ', catalog.finalizeFlush (fun _ ↦ Ord.compare) (.new ⟨1, 5, 5⟩) 1 activation table
        fetched = .ok (c', σ') ∧
      catalog.activateFlushSegments 1 activation = .ok (1, c') ∧
      ¬c'.HasStatus 1 .active 7 ∧ table.heap 1 ≠ none ∧ σ'.heap 1 = none := by
  refine ⟨_, _, rfl, rfl, ?_, ?_, rfl⟩
  · decide
  · simp [table]

end ActivationExample

end Koldstore.Catalog
