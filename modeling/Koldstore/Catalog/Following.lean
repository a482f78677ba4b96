import Koldstore.Catalog.Sync

/-!
# Following a leader's catalog

A follower may have led before.
-/

namespace Koldstore.Catalog

open List KeyedTable

variable {Id : Type*}

section Sync

variable [DecidableEq Id]

section Statements

variable {c c' : Catalog Id} {t : ℕ} {metadata : Metadata Id}

theorem adoptSegments_eq_ok_iff : c.adoptSegments t metadata = .ok c' ↔
    c.coldSegments.insertMissing (populate t metadata.segments) = some c'.coldSegments ∧
      c'.segmentIndex = c.segmentIndex ∧ c'.segmentOrderIndex = c.segmentOrderIndex ∧
      c'.manifest = c.manifest ∧ c'.schemas = c.schemas := by
  rw [adoptSegments]
  split
  next hnone => simp [hnone]
  next coldSegments hsome =>
    constructor
    · intro h
      split_ifs at h
      cases h
      exact ⟨hsome, rfl, rfl, rfl, rfl⟩
    · rintro ⟨hss, hi, ho, hm, hs⟩
      obtain rfl : coldSegments = c'.coldSegments := Option.some.inj (hsome.symm.trans hss)
      rw [dif_pos c'.nodup_writerPasses]
      congr 1
      exact Catalog.ext rfl hi.symm ho.symm hm.symm hs.symm

theorem adoptIndexRows_eq_ok_iff {segmentIds : List Id}
    {table : KeyedTable fun r : Row (IndexRow Id) ↦ r.indexKey} {new : List (Row (IndexRow Id))}
    {key refers : Constraint}
    {table' : { table : KeyedTable fun r : Row (IndexRow Id) ↦ r.indexKey //
      ∀ r ∈ table.rows, r.data.segmentId ∈ segmentIds }} :
    adoptIndexRows segmentIds table new key refers = .ok table' ↔
      table.insertMissing new = some table'.1 := by
  rw [adoptIndexRows]
  cases h : table.insertMissing new with
  | none => simp
  | some inserted =>
    simp only [Option.some.injEq]
    constructor
    · intro hok
      split_ifs at hok
      rw [← Except.ok.inj hok]
    · rintro rfl
      rw [dif_pos table'.2]

theorem adoptSegmentIndex_eq_ok_iff : c.adoptSegmentIndex t metadata = .ok c' ↔
    c.segmentIndex.insertMissing (populate t metadata.segmentIndex) = some c'.segmentIndex ∧
      c'.coldSegments = c.coldSegments ∧ c'.segmentOrderIndex = c.segmentOrderIndex ∧
      c'.manifest = c.manifest ∧ c'.schemas = c.schemas := by
  rw [adoptSegmentIndex, Except.map_eq_ok_iff]
  constructor
  · rintro ⟨table, ht, rfl⟩
    exact ⟨adoptIndexRows_eq_ok_iff.mp ht, rfl, rfl, rfl, rfl⟩
  · rintro ⟨hi, hss, ho, hm, hs⟩
    exact ⟨⟨c'.segmentIndex, hss ▸ c'.segmentIndex_refers⟩, adoptIndexRows_eq_ok_iff.mpr hi,
      Catalog.ext hss.symm rfl ho.symm hm.symm hs.symm⟩

theorem adoptSegmentOrderIndex_eq_ok_iff : c.adoptSegmentOrderIndex t metadata = .ok c' ↔
    c.segmentOrderIndex.insertMissing (populate t metadata.segmentOrderIndex) =
        some c'.segmentOrderIndex ∧
      c'.coldSegments = c.coldSegments ∧ c'.segmentIndex = c.segmentIndex ∧
      c'.manifest = c.manifest ∧ c'.schemas = c.schemas := by
  rw [adoptSegmentOrderIndex, Except.map_eq_ok_iff]
  constructor
  · rintro ⟨table, ht, rfl⟩
    exact ⟨adoptIndexRows_eq_ok_iff.mp ht, rfl, rfl, rfl, rfl⟩
  · rintro ⟨ho, hss, hi, hm, hs⟩
    exact ⟨⟨c'.segmentOrderIndex, hss ▸ c'.segmentOrderIndex_refers⟩, adoptIndexRows_eq_ok_iff.mpr
      ho, Catalog.ext hss.symm hi.symm rfl hm.symm hs.symm⟩

omit [DecidableEq Id] in
theorem upsertManifests_eq_ok_iff : c.upsertManifests t metadata = .ok c' ↔
    c.upsertedManifest t metadata = some c'.manifest ∧
      c'.coldSegments = c.coldSegments ∧ c'.segmentIndex = c.segmentIndex ∧
      c'.segmentOrderIndex = c.segmentOrderIndex ∧ c'.schemas = c.schemas := by
  rw [upsertManifests]
  cases h : c.upsertedManifest t metadata with
  | none => simp
  | some manifest =>
    simp only [Except.ok.injEq, Option.some.injEq]
    constructor
    · rintro rfl
      exact ⟨rfl, rfl, rfl, rfl, rfl⟩
    · rintro ⟨rfl, hss, hi, ho, hs⟩
      exact Catalog.ext hss.symm hi.symm ho.symm rfl hs.symm

structure Applied (c : Catalog Id) (t : ℕ) (metadata : Metadata Id) (c' : Catalog Id) : Prop where
  coldSegments : (c.dropUnlisted t metadata).coldSegments.insertMissing
    (populate t metadata.segments) = some c'.coldSegments
  segmentIndex : (c.dropUnlisted t metadata).segmentIndex.insertMissing
    (populate t metadata.segmentIndex) = some c'.segmentIndex
  segmentOrderIndex : (c.dropUnlisted t metadata).segmentOrderIndex.insertMissing
    (populate t metadata.segmentOrderIndex) = some c'.segmentOrderIndex
  manifest : c.upsertedManifest t metadata = some c'.manifest
  schemas : c'.schemas = (c.setLastFlushSeq t metadata).schemas

theorem Applied.of_applyExport (h : c.applyExport t metadata = .ok c') :
    c.Applied t metadata c' := by
  simp only [applyExport, Except.bind_eq_ok_iff, Except.map_eq_ok_iff] at h
  obtain ⟨c₃, ⟨c₂, ⟨c₁, h₁, h₂⟩, h₃⟩, c₄, h₄, rfl⟩ := h
  obtain ⟨hss, hi₁, ho₁, hman₁, hschs₁⟩ := adoptSegments_eq_ok_iff.mp h₁
  obtain ⟨hi, hss₂, ho₂, hman₂, hschs₂⟩ := adoptSegmentIndex_eq_ok_iff.mp h₂
  obtain ⟨ho, hss₃, hi₃, hman₃, hschs₃⟩ := adoptSegmentOrderIndex_eq_ok_iff.mp h₃
  obtain ⟨hm, hss₄, hi₄, ho₄, hschs₄⟩ := upsertManifests_eq_ok_iff.mp h₄
  refine ⟨?_, ?_, ?_, ?_, ?_⟩
  · show _ = some c₄.coldSegments
    rw [hss₄, hss₃, hss₂, hss]
  · show _ = some c₄.segmentIndex
    rw [hi₄, hi₃, ← hi, hi₁]
  · show _ = some c₄.segmentOrderIndex
    rw [ho₄, ← ho, ho₂, ho₁]
  · show c.upsertedManifest t metadata = some c₄.manifest
    have hsm : c₃.manifest = c.manifest := by
      rw [hman₃, hman₂, hman₁]
      rfl
    rw [← hm, upsertedManifest, upsertedManifest, hsm]
  · have hsm : c₄.schemas = c.schemas := by
      rw [hschs₄, hschs₃, hschs₂, hschs₁]
      rfl
    simp only [setLastFlushSeq, hsm]

theorem syncValue_eq_ok_iff {result : Catalog Id × SyncReport} :
    c.syncValue t metadata = .ok result ↔ c.validate t metadata = .ok () ∧
      c.applyExport t metadata = .ok result.1 ∧
      syncReport c (c.dropUnlisted t metadata) result.1 t metadata = result.2 := by
  simp only [syncValue, Except.bind_eq_ok_iff, Except.map_eq_ok_iff]
  constructor
  · rintro ⟨_, hv, final, ha, rfl⟩
    exact ⟨hv, ha, rfl⟩
  · rintro ⟨hv, ha, hr⟩
    exact ⟨(), hv, result.1, ha, Prod.ext rfl hr⟩

end Statements

section Segments

variable {c c' : Catalog Id} {t : ℕ} {metadata : Metadata Id}

omit [DecidableEq Id] in
theorem mem_liveSegments {id : Id} {status : SegmentStatus} :
    (id, status) ∈ c.liveSegments t ↔ ∃ r ∈ c.coldSegments.rows,
      r.tableOid = t ∧ r.data.status.Live ∧ r.data.segmentId = id ∧ r.data.status = status := by
  simp only [liveSegments, ofTable, mem_map, mem_filter, decide_eq_true_eq, Prod.mk.injEq]
  constructor
  · rintro ⟨_, ⟨⟨r, ⟨hr, ht⟩, rfl⟩, hlv⟩, hid, hsa⟩
    exact ⟨r, hr, ht, hlv, hid, hsa⟩
  · rintro ⟨r, hr, ht, hlv, hid, hsa⟩
    exact ⟨r.data, ⟨⟨r, ⟨hr, ht⟩, rfl⟩, hlv⟩, hid, hsa⟩

variable {r : Row (ColdSegment Id)} (h : c.Applied t metadata c')
include h

theorem Applied.mem_of_not_unlisted (hr : r ∈ c.coldSegments.rows) (hl : ¬Unlisted t metadata r) :
    r ∈ c'.coldSegments.rows := by
  rw [rows_of_insertMissing h.coldSegments]
  exact mem_append_left _ (mem_deleteWhere _ |>.mpr ⟨hr, hl⟩)

theorem Applied.mem_cases (hr : r ∈ c'.coldSegments.rows) :
    (r ∈ c.coldSegments.rows ∧ ¬Unlisted t metadata r) ∨ ∃ e ∈ metadata.segments, r = ⟨t, e⟩ := by
  rw [rows_of_insertMissing h.coldSegments] at hr
  rcases mem_append.mp hr with hr | hr
  · exact .inl (mem_deleteWhere _ |>.mp hr)
  · obtain ⟨e, he, rfl⟩ := mem_map.mp (mem_missing _ |>.mp hr).1
    exact .inr ⟨e, he, rfl⟩

theorem Applied.exists_row {e : ColdSegment Id} (he : e ∈ metadata.segments) :
    ∃ r ∈ c'.coldSegments.rows, r.data.segmentId = e.segmentId ∧
      (r ∈ c.coldSegments.rows ∨ r = ⟨t, e⟩) := by
  have hrs := rows_of_insertMissing h.coldSegments
  by_cases hold : e.segmentId ∈ (c.dropUnlisted t metadata).coldSegments.keys
  · obtain ⟨r, hr, hid⟩ := mem_keys _ |>.mp hold
    have hmem : r ∈ c'.coldSegments.rows := hrs ▸ mem_append_left _ hr
    exact ⟨r, hmem, hid, .inl (mem_deleteWhere _ |>.mp hr).1⟩
  · have hm : (⟨t, e⟩ : Row (ColdSegment Id)) ∈
        (c.dropUnlisted t metadata).coldSegments.missing (populate t metadata.segments) :=
      mem_missing _ |>.mpr ⟨mem_map_of_mem he, hold⟩
    exact ⟨⟨t, e⟩, hrs ▸ mem_append_right _ hm, rfl, .inr rfl⟩

omit h

def Agrees (c : Catalog Id) (t : ℕ) (metadata : Metadata Id) : Prop :=
  ∀ e ∈ metadata.segments, ∀ r ∈ c.coldSegments.rows, r.data.segmentId = e.segmentId →
    r.tableOid = t ∧ r.data.status = e.status

instance (c : Catalog Id) (t : ℕ) (metadata : Metadata Id) : Decidable (c.Agrees t metadata) :=
  inferInstanceAs (Decidable (∀ e ∈ metadata.segments, ∀ r ∈ c.coldSegments.rows, _ → _))

/-- **Convergence.** -/
theorem live_eq_listed_iff (hlv : ∀ e ∈ metadata.segments, e.status.Live)
    (h : c.Applied t metadata c') :
    (∀ p, p ∈ c'.liveSegments t ↔ p ∈ metadata.listed) ↔ c.Agrees t metadata := by
  constructor
  · -- a row for a listed id survives the deletion, so it is the one row that can be the live one
    intro hsm e he r hr hid
    have hkt : ¬Unlisted t metadata r := fun hr ↦ hr.2.2 (hid ▸ mem_map_of_mem he)
    have hl : (e.segmentId, e.status) ∈ metadata.listed := mem_map.mpr ⟨e, he, rfl⟩
    obtain ⟨r', hr', ht, -, hid', hsa⟩ := mem_liveSegments.mp ((hsm _).mpr hl)
    obtain rfl : r' = r :=
      eq_of_key_eq hr' (h.mem_of_not_unlisted hr hkt) (hid'.trans hid.symm)
    exact ⟨ht, hsa⟩
  · rintro ha ⟨id, status⟩
    constructor
    · intro hp
      obtain ⟨r, hr, ht, hrlive, rfl, rfl⟩ := mem_liveSegments.mp hp
      rcases h.mem_cases hr with ⟨hold, hkt⟩ | ⟨e, he, rfl⟩
      · have hl : r.data.segmentId ∈ metadata.segments.map ColdSegment.segmentId := by
          by_contra hn
          exact hkt ⟨ht, hrlive, hn⟩
        obtain ⟨e, he, hid⟩ := mem_map.mp hl
        have hsa := (ha e he r hold hid.symm).2
        exact mem_map.mpr ⟨e, he, by rw [hid, hsa]⟩
      · exact mem_map.mpr ⟨e, he, rfl⟩
    · intro hp
      obtain ⟨e, he, ⟨⟩⟩ := mem_map.mp hp
      obtain ⟨r, hr, hid, hold | rfl⟩ := h.exists_row he
      · obtain ⟨ht, hsa⟩ := ha e he r hold hid
        exact mem_liveSegments.mpr ⟨r, hr, ht, hsa ▸ hlv e he, hid, hsa⟩
      · exact mem_liveSegments.mpr ⟨⟨t, e⟩, hr, rfl, hlv e he, rfl, rfl⟩

/-! ### Rows that are not live -/

theorem Applied.mem_of_not_live (h : c.Applied t metadata c')
    (hr : r ∈ c.coldSegments.rows) (hd : ¬r.data.status.Live) : r ∈ c'.coldSegments.rows :=
  h.mem_of_not_unlisted hr fun hu ↦ hd hu.2.1

def syncAll (t : ℕ) : Catalog Id → List (Metadata Id) → Except SyncError (Catalog Id)
  | c, [] => .ok c
  | c, metadata :: rest => (c.syncValue t metadata).bind fun result ↦ syncAll t result.1 rest

theorem mem_syncAll_of_not_live (hd : ¬r.data.status.Live) :
    ∀ {c final : Catalog Id} {metadatas : List (Metadata Id)}, r ∈ c.coldSegments.rows →
      syncAll t c metadatas = .ok final → r ∈ final.coldSegments.rows
  | _, _, [], hr, h => by
    cases h
    exact hr
  | _, _, metadata :: rest, hr, h => by
    obtain ⟨result, hs, hre⟩ := Except.bind_eq_ok_iff.mp h
    have ha := Applied.of_applyExport (syncValue_eq_ok_iff.mp hs).2.1
    exact mem_syncAll_of_not_live hd (ha.mem_of_not_live hr hd) hre

/-- **A replaced segment stays invisible.** -/
theorem compacted_never_live {compacted final : Catalog Id} {swap : CompactionSwap Id}
    {metadatas : List (Metadata Id)} (hr : r ∈ c.coldSegments.rows)
    (he : CompactionSwap.Selects t .active swap.replacedIds r)
    (hs : c.activateCompaction t swap = some compacted)
    (hrun : syncAll t compacted metadatas = .ok final) (status : SegmentStatus) :
    (r.data.segmentId, status) ∉ final.liveSegments t := by
  have hsa : (swap.segment t r).data.status = .compacted := swap.segment_of_replaced t he
  have hd : ¬(swap.segment t r).data.status.Live := by
    rw [hsa]
    decide
  have hmem : swap.segment t r ∈ compacted.coldSegments.rows := by
    rw [coldSegments_of_activateCompaction hs]
    exact mem_map_of_mem hr
  intro hlv
  obtain ⟨r', hr', -, hlv', hid, -⟩ := mem_liveSegments.mp hlv
  -- an id has one row, and the one of `r` is compacted
  have hsm : r' = swap.segment t r := eq_of_key_eq hr'
    (mem_syncAll_of_not_live hd hmem hrun) (hid.trans (swap.segment_frame t r).1.symm)
  exact hd (hsm ▸ hlv')

end Segments

section Repeat

variable {c c' : Catalog Id} {t : ℕ} {metadata : Metadata Id}

omit [DecidableEq Id] in
theorem activeSchema_version_of_schemas (seq : ℤ)
    (h : c'.schemas.rows = c.schemas.rows.map (withLastFlushSeq t seq)) :
    (c'.activeSchema t).map SchemaVersion.version =
      (c.activeSchema t).map SchemaVersion.version := by
  have hp : ((fun r : Row SchemaVersion ↦ decide (r.tableOid = t ∧ r.data.active)) ∘
      withLastFlushSeq t seq) = fun r ↦ decide (r.tableOid = t ∧ r.data.active) := by
    funext r
    obtain ⟨ht, -, ha⟩ := withLastFlushSeq_frame t seq r
    simp only [Function.comp_apply, ht, ha]
  have hv : (fun r : Row SchemaVersion ↦ r.data.version) ∘ withLastFlushSeq t seq =
      fun r ↦ r.data.version := funext fun r ↦ (withLastFlushSeq_frame t seq r).2.1
  rw [activeSchema, activeSchema, h, find?_map, hp, Option.map_map, Option.map_map, Option.map_map]
  exact congrArg (Option.map · _) hv

theorem Applied.validate_eq (h : c.Applied t metadata c') :
    c'.validate t metadata = c.validate t metadata := by
  have hrs := congrArg rows h.schemas
  have hm : c'.managedTableOids = c.managedTableOids := by
    rw [managedTableOids, hrs]
    exact activeTables_map_withLastFlushSeq _ _ _
  rw [validate, validate, hm, activeSchema_version_of_schemas _ hrs]

theorem Applied.dropUnlisted_eq (h : c.Applied t metadata c') :
    c'.dropUnlisted t metadata = c' := by
  have hss : c'.coldSegments.deleteWhere (Unlisted t metadata) = c'.coldSegments := by
    refine deleteWhere_eq_self _ fun r hr ↦ ?_
    rcases h.mem_cases hr with ⟨-, hkt⟩ | ⟨e, he, rfl⟩
    · exact hkt
    · exact fun hu ↦ hu.2.2 (mem_map_of_mem he)
  refine Catalog.ext hss ?_ ?_ rfl rfl
  · refine deleteWhere_eq_self _ fun r hr ↦ not_not.mpr ?_
    rw [hss]
    exact c'.segmentIndex_refers r hr
  · refine deleteWhere_eq_self _ fun r hr ↦ not_not.mpr ?_
    rw [hss]
    exact c'.segmentOrderIndex_refers r hr

theorem withLastFlushSeq_idem (t : ℕ) (seq : ℤ) (r : Row SchemaVersion) :
    withLastFlushSeq t seq (withLastFlushSeq t seq r) = withLastFlushSeq t seq r := by
  by_cases h : r.tableOid = t ∧ r.data.active <;> simp [withLastFlushSeq, h]

theorem Applied.setLastFlushSeq_eq (h : c.Applied t metadata c') :
    c'.setLastFlushSeq t metadata = c' := by
  refine Catalog.ext rfl rfl rfl rfl (KeyedTable.ext ?_)
  show c'.schemas.rows.map (withLastFlushSeq t _) = c'.schemas.rows
  have hrs : c'.schemas.rows = c.schemas.rows.map (withLastFlushSeq t _) :=
    congrArg KeyedTable.rows h.schemas
  rw [hrs, map_map]
  exact congrArg (List.map · _) (funext (withLastFlushSeq_idem t _))

theorem Applied.applyExport_eq_self_iff (h : c.Applied t metadata c') :
    c'.applyExport t metadata = .ok c' ↔ c'.upsertedManifest t metadata = some c'.manifest := by
  refine ⟨fun ha ↦ (Applied.of_applyExport ha).manifest, fun hm ↦ ?_⟩
  have hss : c'.adoptSegments t metadata = .ok c' :=
    adoptSegments_eq_ok_iff.mpr ⟨insertMissing_eq_self
      (key_mem_of_insertMissing h.coldSegments), rfl, rfl, rfl, rfl⟩
  have hi : c'.adoptSegmentIndex t metadata = .ok c' :=
    adoptSegmentIndex_eq_ok_iff.mpr ⟨insertMissing_eq_self
      (key_mem_of_insertMissing h.segmentIndex), rfl, rfl, rfl, rfl⟩
  have ho : c'.adoptSegmentOrderIndex t metadata = .ok c' :=
    adoptSegmentOrderIndex_eq_ok_iff.mpr ⟨insertMissing_eq_self
      (key_mem_of_insertMissing h.segmentOrderIndex), rfl, rfl, rfl, rfl⟩
  have hu : c'.upsertManifests t metadata = .ok c' :=
    upsertManifests_eq_ok_iff.mpr ⟨hm, rfl, rfl, rfl, rfl⟩
  rw [applyExport, h.dropUnlisted_eq, hss]
  simp only [Except.bind, hi, ho, hu, Except.map, h.setLastFlushSeq_eq]

theorem mergeManifest_self_iff {r : Row Manifest} :
    mergeManifest r r = r ↔ r.data.lastError = none := by
  obtain ⟨tableOid, data⟩ := r
  simp only [mergeManifest, Row.mk.injEq, true_and]
  constructor
  · intro h
    rw [← h]
  · intro h
    rw [← h]

/-- Every exported manifest row that carries a `last_error` has a row on the node already. -/
def ErrorsKnown (c : Catalog Id) (t : ℕ) (metadata : Metadata Id) : Prop :=
  ∀ m ∈ metadata.manifests, m.lastError ≠ none → (t, m.scopeKey) ∈ c.manifest.keys

instance (c : Catalog Id) (t : ℕ) (metadata : Metadata Id) : Decidable (c.ErrorsKnown t metadata) :=
  inferInstanceAs (Decidable (∀ m ∈ metadata.manifests, _ → _))

/-- **Repeatability.** -/
theorem syncValue_eq_self_iff {report : SyncReport}
    (h : c.syncValue t metadata = .ok (c', report)) :
    (∃ again, c'.syncValue t metadata = .ok (c', again)) ↔ c.ErrorsKnown t metadata := by
  obtain ⟨hv, hp, -⟩ := syncValue_eq_ok_iff.mp h
  have ha := Applied.of_applyExport hp
  have hv' : c'.validate t metadata = .ok () := ha.validate_eq.trans hv
  have hg : (∃ again, c'.syncValue t metadata = .ok (c', again)) ↔
      c'.applyExport t metadata = .ok c' := by
    constructor
    · rintro ⟨again, hy⟩
      exact (syncValue_eq_ok_iff.mp hy).2.1
    · intro ha'
      exact ⟨syncReport c' (c'.dropUnlisted t metadata) c' t metadata,
        syncValue_eq_ok_iff.mpr ⟨hv', ha', rfl⟩⟩
  have hi : ∀ m e : Row Manifest,
      mergeManifest (mergeManifest m e) e = mergeManifest m e := fun _ _ ↦ rfl
  have hs : c'.upsertedManifest t metadata = some c'.manifest ↔ _ :=
    upsert_eq_self_iff hi ha.manifest
  rw [hg, ha.applyExport_eq_self_iff, hs]
  constructor
  · intro hf m hm he
    by_contra hn
    refine he (mergeManifest_self_iff.mp (hf ⟨t, freshManifest m⟩ ?_))
    exact mem_missing _ |>.mpr
      ⟨mem_map_of_mem (mem_map_of_mem hm), hn⟩
  · intro hk r hr
    obtain ⟨hn, hmiss⟩ := mem_missing _ |>.mp hr
    obtain ⟨_, hf, rfl⟩ := mem_map.mp hn
    obtain ⟨m, hm, rfl⟩ := mem_map.mp hf
    refine mergeManifest_self_iff.mpr ?_
    by_contra he
    exact hmiss (hk m hm he)

end Repeat

end Sync

/-! ### Following -/

/-- **Following a leader.** After a successful sync with a leader's export the live segments of the
table are exactly the listed ones with the listed statuses, and the export can be applied again
without effect, precisely when beforehand every row the node had for a listed segment was one of
this table with the listed status and every exported `last_error` had a manifest row to be cleared
in. -/
theorem syncValue_follows_iff [LinearOrder Id] {leader c c' : Catalog Id} {source t : ℕ}
    {forDump : Bool} {tombstones : ℕ} {metadata : Metadata Id} {report : SyncReport}
    (hexport : leader.exportValue source forDump tombstones = .ok metadata)
    (hsync : c.syncValue t metadata = .ok (c', report)) :
    ((∀ p, p ∈ c'.liveSegments t ↔ p ∈ metadata.listed) ∧
        ∃ again, c'.syncValue t metadata = .ok (c', again)) ↔
      c.Agrees t metadata ∧ c.ErrorsKnown t metadata := by
  have ha := Applied.of_applyExport (syncValue_eq_ok_iff.mp hsync).2.1
  rw [live_eq_listed_iff (live_of_mem_exportValue hexport) ha, syncValue_eq_self_iff hsync]

namespace Example

def segment (id : ℕ) (status : SegmentStatus) : ColdSegment ℕ where
  segmentId := id
  scopeKey := ""
  path := "t/segment.parquet"
  minSeq := id
  maxSeq := id
  status := status
  writer := none
  retiredGeneration := none

def node (t : ℕ) (segments : List (ColdSegment ℕ))
    (hids : ((populate t segments).map fun r ↦ r.data.segmentId).Nodup)
    (hpasses : (writerPasses (populate t segments)).Nodup) : Catalog ℕ where
  coldSegments := ⟨populate t segments, hids⟩
  segmentIndex := ⟨[], nodup_nil⟩
  segmentOrderIndex := ⟨[], nodup_nil⟩
  manifest := ⟨[⟨t, ⟨"", none, 3, .inSync, 1, 1, 0, 0, 1, none, 0⟩⟩], nodup_singleton _⟩
  schemas := ⟨[⟨t, ⟨1, true, some "t__cl", 1⟩⟩], nodup_singleton _⟩
  nodup_writerPasses := hpasses
  nodup_activeTables := nodup_singleton _
  segmentIndex_refers := fun _ h ↦ nomatch h
  segmentOrderIndex_refers := fun _ h ↦ nomatch h

def successor : Catalog ℕ := node 7 [segment 1 .active] (by decide) (by decide)

def published : Metadata ℕ where
  format := some 1
  schemas := some [⟨some 1, some true, some 1⟩]
  manifests := [⟨"", none, 3, .inSync, 1, 1, 0, 0, 1, none, 0⟩]
  segments := [segment 1 .active]
  segmentIndex := []
  segmentOrderIndex := []

def behind : Catalog ℕ := node 9 [segment 0 .active] (by decide) (by decide)

def predecessor : Catalog ℕ :=
  node 9 [segment 1 .active, segment 2 .pending] (by decide) (by decide)

def lastCompaction : CompactionSwap ℕ where
  expectedGeneration := 3
  newGeneration := 4
  segmentCount := 1
  maxSeq := 2
  newIds := [2]
  replacedIds := [1]
  historyFloor := 1
  historyIds := []

end Example

open Example in
theorem syncValue_follows_iff_behind : successor.exportValue 7 false 0 = .ok published ∧
    ∃ final report, behind.syncValue 9 published = .ok (final, report) ∧
      final.liveSegments 9 = [(1, .active)] ∧
      (∀ p, p ∈ final.liveSegments 9 ↔ p ∈ published.listed) ∧
      ∃ again, final.syncValue 9 published = .ok (final, again) := by
  have he : successor.exportValue 7 false 0 = .ok published := rfl
  obtain ⟨final, report, hs, hlv⟩ : ∃ final report,
      behind.syncValue 9 published = .ok (final, report) ∧
        final.liveSegments 9 = [(1, .active)] := ⟨_, _, rfl, rfl⟩
  have hc : behind.Agrees 9 published ∧ behind.ErrorsKnown 9 published := by decide
  exact ⟨he, final, report, hs, hlv, (syncValue_follows_iff he hs).mpr hc⟩

open Example in
theorem formerLeader_misses_segment : successor.exportValue 7 false 0 = .ok published ∧
    ∃ compacted final report,
      predecessor.activateCompaction 9 lastCompaction = some compacted ∧
      compacted.syncValue 9 published = .ok (final, report) ∧
      published.listed = [(1, .active)] ∧ final.liveSegments 9 = [] :=
  ⟨rfl, _, _, _, rfl, rfl, rfl, rfl⟩

open Example in
theorem compacted_never_live_predecessor : ∃ compacted final,
    predecessor.activateCompaction 9 lastCompaction = some compacted ∧
      syncAll 9 compacted [published, published] = .ok final ∧
      ∀ status, (1, status) ∉ final.liveSegments 9 := by
  obtain ⟨compacted, final, hs, hrun⟩ : ∃ compacted final,
      predecessor.activateCompaction 9 lastCompaction = some compacted ∧
        syncAll 9 compacted [published, published] = .ok final := ⟨_, _, rfl, rfl⟩
  exact ⟨compacted, final, hs, hrun, compacted_never_live (r := ⟨9, segment 1 .active⟩)
    mem_cons_self (by decide) hs hrun⟩

end Koldstore.Catalog
