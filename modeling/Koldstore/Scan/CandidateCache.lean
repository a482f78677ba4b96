import Koldstore.Basic.Except
import Koldstore.Scan.SegmentIndex

/-!
# Cached candidate lookups

`loadSegmentIndexCandidates` with its two caches.
-/

namespace Koldstore

open List

/-! ### Cache contents -/

inductive SegmentIndexLookupShape
  | boundedRange
  | lowerBound
  | upperBound
  | allActive
  deriving DecidableEq, Repr

def lookupShape {B : Type*} : Option B × Option B → SegmentIndexLookupShape
  | (some _, some _) => .boundedRange
  | (some _, none) => .lowerBound
  | (none, some _) => .upperBound
  | (none, none) => .allActive

/-- A candidate segment with the row groups selected in it; `none` selects all of them. -/
structure SegmentStatsHint where
  segment : ColdSegment
  selectedRowGroups : Option (List ℕ)
  deriving DecidableEq, Repr

def SegmentStatsHint.effective (hint : SegmentStatsHint) : ColdSegment × List ℕ :=
  (hint.segment, hint.selectedRowGroups.getD (List.range hint.segment.rowGroupCount))

structure PackedRowGroupCacheKey where
  tableOid : ℕ
  generation : ℕ
  segmentId : ℕ
  columnId : ℤ
  deriving DecidableEq, Repr

structure SegmentIndexCandidateCacheKey (B : Type*) where
  tableOid : ℕ
  generation : ℕ
  columnId : ℤ
  typeOid : ℕ
  codecVersion : ℤ
  lower : Option B
  upper : Option B
  pointHash : Option ℤ
  deriving DecidableEq, Repr

structure CachedSegmentIndexCandidates where
  shape : SegmentIndexLookupShape
  candidates : List SegmentStatsHint
  deriving DecidableEq, Repr

structure ScanCaches (B : Type*) where
  packed : LookupCache PackedRowGroupCacheKey (PackedRowGroupIndex B)
  candidates : LookupCache (SegmentIndexCandidateCacheKey B) CachedSegmentIndexCandidates

def ScanCaches.withLimits (B : Type*) (packedLimit candidateLimit : ℕ) : ScanCaches B :=
  ⟨.withLimit packedLimit, .withLimit candidateLimit⟩

structure SegmentIndexCandidateLoad where
  candidates : Option (List SegmentStatsHint)
  shape : SegmentIndexLookupShape
  deriving DecidableEq, Repr

open SegmentIndexCandidateLoad

def SegmentIndexCandidateLoad.effective (load : SegmentIndexCandidateLoad) :
    Option (List (ColdSegment × List ℕ)) × SegmentIndexLookupShape :=
  (load.candidates.map (List.map SegmentStatsHint.effective), load.shape)

section Refine

variable {B : Type*} [LinearOrder B]

def refineSegment (packed : ℤ → Option (PackedRowGroupIndex B)) :
    EncodedBounds B → Option (List ℕ) → Except String (Option (List ℕ))
  | [], retained => .ok retained
  | (columnId, lower, upper) :: rest, retained =>
    match packed columnId with
    | none => refineSegment packed rest retained
    | some index =>
      (index.selectPackedRowGroups lower upper).bind fun selected ↦
        refineSegment packed rest
          (some ((retained.getD (List.range index.rowGroupCount)).filter fun i ↦
            decide (i ∈ selected)))

def refineSegments (packed : ColdSegment → ℤ → Option (PackedRowGroupIndex B))
    (bounds : EncodedBounds B) :
    List ColdSegment → List SegmentStatsHint → Except String (List SegmentStatsHint)
  | [], hints => .ok hints
  | s :: ss, hints =>
    (refineSegment (packed s) bounds none).bind fun selected ↦
      refineSegments packed bounds ss (hints.map fun hint ↦
        if hint.segment = s then { hint with selectedRowGroups := selected } else hint)

def selectCandidates (packed : ColdSegment → ℤ → Option (PackedRowGroupIndex B))
    (bounds : EncodedBounds B) (segments : List ColdSegment) :
    Except String (List SegmentStatsHint) :=
  if segments = [] ∨ bounds = [] then
    .ok (segments.map fun s ↦ ⟨s, none⟩)
  else
    refineSegments packed bounds
      (segments.insertionSort fun s t ↦ s.segmentId ≤ t.segmentId)
      (segments.map fun s ↦ ⟨s, none⟩)

def SegmentStatsHint.keep (hint : SegmentStatsHint) : Bool :=
  hint.selectedRowGroups.all fun groups ↦ !groups.isEmpty

end Refine

namespace IndexCatalog

variable {V T B S : Type*} (cat : IndexCatalog V T B S)

/-! ### The lookup -/

def packedKey (p : ColdSegment × ℤ) : PackedRowGroupCacheKey :=
  ⟨cat.tableOid, cat.generation, p.1.segmentId, p.2⟩

def segmentColumns (segments : List ColdSegment) (bounds : EncodedBounds B) :
    List (ColdSegment × ℤ) :=
  segments.flatMap fun s ↦ bounds.map fun e ↦ (s, e.1)

abbrev PackedReads (B : Type*) :=
  List ((ColdSegment × ℤ) × Option (Option (PackedRowGroupIndex B)))

def readPacked : List (ColdSegment × ℤ) → LookupCache PackedRowGroupCacheKey
    (PackedRowGroupIndex B) → PackedReads B × LookupCache PackedRowGroupCacheKey
    (PackedRowGroupIndex B)
  | [], cache => ([], cache)
  | p :: ps, cache =>
    let (value, cache) := cache.get (cat.packedKey p)
    let (reads, cache) := readPacked ps cache
    ((p, value) :: reads, cache)

def missingSegments (reads : PackedReads B) (segments : List ColdSegment) : List ColdSegment :=
  (segments.filter fun s ↦ reads.any fun r ↦ decide (r.1.1 = s) && r.2.isNone).insertionSort
    fun s t ↦ s.segmentId ≤ t.segmentId

def packedIndex (reads : PackedReads B) (missing : List ColdSegment) (s : ColdSegment)
    (columnId : ℤ) : Option (PackedRowGroupIndex B) :=
  (if s ∈ missing then cat.packedRow s columnId else none).or
    ((reads.find? fun r ↦ decide (r.1 = (s, columnId))).bind Prod.snd).join

def reloadEntries (reads : PackedReads B) (missing : List ColdSegment) (bounds : EncodedBounds B) :
    List (PackedRowGroupCacheKey × Option (PackedRowGroupIndex B)) :=
  (segmentColumns missing bounds).filterMap (fun p ↦
      (cat.packedRow p.1 p.2).map fun index ↦ (cat.packedKey p, some index)) ++
    ((segmentColumns missing bounds).filter fun p ↦
      (cat.packedIndex reads missing p.1 p.2).isNone).map fun p ↦ (cat.packedKey p, none)

def cacheAll (entries : List (PackedRowGroupCacheKey × Option (PackedRowGroupIndex B)))
    (cache : LookupCache PackedRowGroupCacheKey (PackedRowGroupIndex B)) :
    LookupCache PackedRowGroupCacheKey (PackedRowGroupIndex B) :=
  entries.foldl (fun cache e ↦ cache.insert e.1 e.2) cache

variable (lookup : CandidateLookup V)

section Lookup

variable [LinearOrder B] [DecidableEq T]

def refineCandidateRowGroups (segments : List ColdSegment) (bounds : EncodedBounds B)
    (cache : LookupCache PackedRowGroupCacheKey (PackedRowGroupIndex B)) :
    Except String (List SegmentStatsHint) ×
      LookupCache PackedRowGroupCacheKey (PackedRowGroupIndex B) :=
  let (reads, cache) := cat.readPacked (segmentColumns segments bounds) cache
  let missing := missingSegments reads segments
  (selectCandidates (cat.packedIndex reads missing) bounds segments,
    cacheAll (cat.reloadEntries reads missing bounds) cache)

variable (bounds : EncodedBounds B)

def drivingBounds : Option B × Option B :=
  (bounds.get lookup.column.columnId).getD (none, none)

def candidateKey :
    SegmentIndexCandidateCacheKey B :=
  { tableOid := cat.tableOid
    generation := cat.generation
    columnId := lookup.column.columnId
    typeOid := lookup.column.typeOid
    codecVersion := cat.codec.codecVersion
    lower := (drivingBounds lookup bounds).1
    upper := (drivingBounds lookup bounds).2
    pointHash := lookup.compositeHash }

def loadUncached (caches : ScanCaches B) : Except String SegmentIndexCandidateLoad × ScanCaches B :=
  let driving := drivingBounds lookup bounds
  let rows := cat.candidateRows lookup.column lookup.compositeHash driving
  let packed := cacheAll
    (rows.map fun r ↦ (cat.packedKey (r.1, lookup.column.columnId), some r.2)) caches.packed
  match cat.refineCandidateRowGroups (rows.map Prod.fst) bounds packed with
  | (.error e, packed) => (.error e, { caches with packed })
  | (.ok hints, packed) =>
    let kept := hints.filter SegmentStatsHint.keep
    (.ok ⟨some kept, lookupShape driving⟩,
      ⟨packed, caches.candidates.insert (cat.candidateKey lookup bounds)
        (some ⟨lookupShape driving, kept⟩)⟩)

def loadSegmentIndexCandidates (caches : ScanCaches B) :
    Except String SegmentIndexCandidateLoad × ScanCaches B :=
  match cat.encodePrunePredicateBounds lookup.predicates with
  | .error e => (.error e, caches)
  | .ok bounds =>
    match lookupShape (drivingBounds lookup bounds) with
    | .allActive => (.ok ⟨none, .allActive⟩, caches)
    | _ =>
      match caches.candidates.get (cat.candidateKey lookup bounds) with
      | (some (some cached), candidates) =>
        (.ok ⟨some cached.candidates, cached.shape⟩, { caches with candidates })
      | (_, candidates) => cat.loadUncached lookup bounds { caches with candidates }

def runLookups : List (CandidateLookup V) → ScanCaches B →
    List (Except String SegmentIndexCandidateLoad)
  | [], _ => []
  | lookup :: lookups, caches =>
    let (load, caches) := cat.loadSegmentIndexCandidates lookup caches
    load :: runLookups lookups caches

end Lookup

/-! ### Right caches -/

variable (s : ColdSegment)

def Faithful (columnId : ℤ) (value : Option (PackedRowGroupIndex B)) : Prop :=
  match cat.packedRow s columnId with
  | some index => value = some index
  | none => value = none ∨ value = some (unknownIndex s)

def PackedSound (cache : LookupCache PackedRowGroupCacheKey (PackedRowGroupIndex B)) : Prop :=
  cache.Sound fun key value ↦
    ∀ s ∈ cat.segments, ∀ columnId, key = cat.packedKey (s, columnId) →
      cat.Faithful s columnId value

def IndexCurrent (column : IndexColumn) : Prop :=
  ∀ r ∈ cat.indexRows, r.columnId = column.columnId →
    r.typeOid = column.typeOid ∧ r.codecVersion = cat.codec.codecVersion

section Unknown

variable {cat s} [LinearOrder B]

theorem selectRowGroup_unknownIndex (hs : s ∈ cat.segments)
    (lower upper : Option B) {i : ℕ} (hi : i < s.rowGroupCount) :
    (unknownIndex s : PackedRowGroupIndex B).selectRowGroup lower upper i = .ok true := by
  obtain ⟨-, hl⟩ := cat.row_counts_length s hs
  have hp : 0 < s.rowGroupRowCounts[i]?.getD 0 := by
    rw [getElem?_eq_getElem (hl ▸ hi)]
    exact cat.row_counts_pos s hs _ (getElem_mem _)
  simp [PackedRowGroupIndex.selectRowGroup, unknownIndex, hi, hp]

theorem selectRowGroups_unknownIndex (hs : s ∈ cat.segments)
    (lower upper : Option B) {is : List ℕ} (his : ∀ i ∈ is, i < s.rowGroupCount) :
    (unknownIndex s : PackedRowGroupIndex B).selectRowGroups lower upper is = .ok is := by
  induction is with
  | nil => rfl
  | cons i is ih =>
    rw [forall_mem_cons] at his
    simp [PackedRowGroupIndex.selectRowGroups, selectRowGroup_unknownIndex hs lower upper his.1,
      ih his.2, Except.bind, Except.map]

theorem selectPackedRowGroups_unknownIndex (hs : s ∈ cat.segments) (lower upper : Option B) :
    (unknownIndex s : PackedRowGroupIndex B).selectPackedRowGroups lower upper =
      .ok (List.range s.rowGroupCount) := by
  obtain ⟨hp, hl⟩ := cat.row_counts_length s hs
  have hgs : (unknownIndex s : PackedRowGroupIndex B).selectRowGroups lower upper
      (List.range s.rowGroupCount) = .ok (List.range s.rowGroupCount) :=
    selectRowGroups_unknownIndex hs lower upper fun i hi ↦ mem_range.1 hi
  rw [PackedRowGroupIndex.selectPackedRowGroups]
  rw [if_neg (by simp [unknownIndex, hl, hp.ne'])]
  split
  · rfl
  · exact hgs

end Unknown

section Hints

variable {cat s}

theorem rowGroupCount_of_packedRow {columnId : ℤ}
    {index : PackedRowGroupIndex B} (h : cat.packedRow s columnId = some index) :
    index.rowGroupCount = s.rowGroupCount := by
  obtain ⟨row, -, rfl⟩ := Option.map_eq_some_iff.1 h
  rfl

theorem map_effective_select (selected : Option (List ℕ)) (hints : List SegmentStatsHint) :
    (hints.map fun hint ↦
        if hint.segment = s then { hint with selectedRowGroups := selected } else hint).map
      SegmentStatsHint.effective =
    (hints.map SegmentStatsHint.effective).map fun p ↦
      if p.1 = s then (s, selected.getD (List.range s.rowGroupCount)) else p := by
  rw [map_map, map_map]
  refine map_congr_left fun hint _ ↦ ?_
  by_cases h : hint.segment = s
  · subst h
    simp [SegmentStatsHint.effective]
  · simp [SegmentStatsHint.effective, h]

theorem keep_eq {hint : SegmentStatsHint} (h : hint.segment ∈ cat.segments) :
    hint.keep = !hint.effective.2.isEmpty := by
  have hp : hint.segment.rowGroupCount ≠ 0 := (cat.row_counts_length _ h).1.ne'
  rw [SegmentStatsHint.keep, SegmentStatsHint.effective]
  cases hint.selectedRowGroups with
  | none => simp [hp]
  | some groups => rfl

theorem map_effective_filter_keep {hints : List SegmentStatsHint}
    (h : ∀ hint ∈ hints, hint.segment ∈ cat.segments) :
    (hints.filter SegmentStatsHint.keep).map SegmentStatsHint.effective =
      (hints.map SegmentStatsHint.effective).filter fun p ↦ !p.2.isEmpty := by
  rw [filter_map]
  congr 1
  exact filter_congr fun hint hhi ↦ keep_eq (h hint hhi)

end Hints

section Effective

variable {cat s} [LinearOrder B] {packed : ColdSegment → ℤ → Option (PackedRowGroupIndex B)}
  {bounds : EncodedBounds B}

theorem refineSegment_effective (hs : s ∈ cat.segments)
    (hp : ∀ e ∈ bounds, cat.Faithful s e.1 (packed s e.1)) {retained retained' : Option (List ℕ)}
    (heq : retained.getD (List.range s.rowGroupCount) =
      retained'.getD (List.range s.rowGroupCount))
    (hlt : ∀ i ∈ retained.getD (List.range s.rowGroupCount), i < s.rowGroupCount) :
    (refineSegment (packed s) bounds retained).map (·.getD (List.range s.rowGroupCount)) =
      (refineSegment (cat.packedRow s) bounds retained').map
        (·.getD (List.range s.rowGroupCount)) := by
  induction bounds generalizing retained retained' with
  | nil => simp [refineSegment, Except.map, heq]
  | cons e rest ih =>
    obtain ⟨columnId, lower, upper⟩ := e
    rw [forall_mem_cons] at hp
    obtain ⟨hf, hre⟩ := hp
    cases hr : cat.packedRow s columnId with
    | some index =>
      have hd : packed s columnId = some index := by simpa [Faithful, hr] using hf
      simp only [refineSegment, hd, hr]
      cases index.selectPackedRowGroups lower upper with
      | error e => rfl
      | ok selected =>
        refine ih hre ?_ ?_
        · simp [rowGroupCount_of_packedRow hr, heq]
        · intro i hi
          simp only [rowGroupCount_of_packedRow hr, Option.getD_some, mem_filter] at hi
          exact hlt i hi.1
    | none =>
      have hd : packed s columnId = none ∨ packed s columnId = some (unknownIndex s) := by
        simpa [Faithful, hr] using hf
      rcases hd with hd | hd
      · simp only [refineSegment, hd, hr]
        exact ih hre heq hlt
      · -- unknown statistics retain everything that was retained before
        have ha : (retained.getD (List.range s.rowGroupCount)).filter
            (fun i ↦ decide (i ∈ List.range s.rowGroupCount)) =
              retained.getD (List.range s.rowGroupCount) :=
          filter_eq_self.2 fun i hi ↦ by simpa using hlt i hi
        simp only [refineSegment, hd, hr, selectPackedRowGroups_unknownIndex hs]
        refine ih hre ?_ ?_
        · rw [Option.getD_some]
          exact ha.trans heq
        · rw [Option.getD_some]
          exact fun i hi ↦ hlt i (mem_of_mem_filter hi)

variable {segments : List ColdSegment} {hints : List SegmentStatsHint}

theorem refineSegments_effective (hss : ∀ s ∈ segments, s ∈ cat.segments)
    (hp : ∀ s ∈ segments, ∀ e ∈ bounds, cat.Faithful s e.1 (packed s e.1))
    {his' : List SegmentStatsHint}
    (heq : hints.map SegmentStatsHint.effective = his'.map SegmentStatsHint.effective) :
    (refineSegments packed bounds segments hints).map (List.map SegmentStatsHint.effective) =
      (refineSegments cat.packedRow bounds segments his').map
        (List.map SegmentStatsHint.effective) := by
  induction segments generalizing hints his' with
  | nil => simp [refineSegments, Except.map, heq]
  | cons s ss ih =>
    rw [forall_mem_cons] at hss hp
    refine Except.map_bind_congr (refineSegment_effective hss.1 hp.1 rfl fun i hi ↦
      mem_range.1 hi) fun selected selected' hs ↦ ih hss.2 hp.2 ?_
    rw [map_effective_select, map_effective_select, heq, hs]

theorem segment_of_refineSegments {refined : List SegmentStatsHint}
    (h : refineSegments packed bounds segments hints = .ok refined) :
    refined.map SegmentStatsHint.segment = hints.map SegmentStatsHint.segment := by
  induction segments generalizing hints with
  | nil => simp_all [refineSegments]
  | cons s ss ih =>
    obtain ⟨selected, -, hre⟩ := Except.bind_eq_ok_iff.1 h
    rw [ih hre, map_map]
    refine map_congr_left fun hint _ ↦ ?_
    rw [Function.comp_apply]
    split <;> rfl

theorem segment_of_selectCandidates (h : selectCandidates packed bounds segments = .ok hints) :
    hints.map SegmentStatsHint.segment = segments := by
  rw [selectCandidates] at h
  split at h
  · cases h
    simp [Function.comp_def]
  · simpa [Function.comp_def] using segment_of_refineSegments h

theorem selectCandidates_effective (hss : ∀ s ∈ segments, s ∈ cat.segments)
    (hp : ∀ s ∈ segments, ∀ e ∈ bounds, cat.Faithful s e.1 (packed s e.1)) :
    (selectCandidates packed bounds segments).map (List.map SegmentStatsHint.effective) =
      (selectCandidates cat.packedRow bounds segments).map
        (List.map SegmentStatsHint.effective) := by
  unfold selectCandidates
  split
  · rfl
  · refine refineSegments_effective (fun s hs ↦ hss s ?_) (fun s hs ↦ hp s ?_) rfl
    · exact (mem_insertionSort _).1 hs
    · exact (mem_insertionSort _).1 hs

end Effective

section Packed

variable {cat} {cache : LookupCache PackedRowGroupCacheKey (PackedRowGroupIndex B)}

theorem faithful_packedRow (columnId : ℤ) : cat.Faithful s columnId (cat.packedRow s columnId) := by
  rw [Faithful]
  split <;> simp_all

theorem packedSound_cacheAll
    {entries : List (PackedRowGroupCacheKey × Option (PackedRowGroupIndex B))}
    (h : cat.PackedSound cache) (he : ∀ e ∈ entries, ∀ s ∈ cat.segments, ∀ columnId,
      e.1 = cat.packedKey (s, columnId) → cat.Faithful s columnId e.2) :
    cat.PackedSound (cacheAll entries cache) := by
  induction entries generalizing cache with
  | nil => exact h
  | cons e entries ih =>
    rw [forall_mem_cons] at he
    exact ih (h.insert he.1) he.2

theorem readPacked_spec {ps : List (ColdSegment × ℤ)} (hps : ∀ p ∈ ps, p.1 ∈ cat.segments)
    (h : cat.PackedSound cache) :
    cat.PackedSound (cat.readPacked ps cache).2 ∧ (cat.readPacked ps cache).1.map Prod.fst = ps ∧
      ∀ r ∈ (cat.readPacked ps cache).1, ∀ value, r.2 = some value →
        cat.Faithful r.1.1 r.1.2 value := by
  induction ps generalizing cache with
  | nil => simp [readPacked, h]
  | cons p ps ih =>
    rw [forall_mem_cons] at hps
    obtain ⟨hsd, hf, hvalues⟩ := ih hps.2 (h.get_snd (cat.packedKey p))
    refine ⟨hsd, congrArg (p :: ·) hf, ?_⟩
    rw [readPacked, forall_mem_cons]
    exact ⟨fun value hv ↦ h.of_get hv p.1 hps.1 p.2 rfl, hvalues⟩

theorem mem_segmentColumns {segments : List ColdSegment} {bounds : EncodedBounds B}
    {p : ColdSegment × ℤ} :
    p ∈ segmentColumns segments bounds ↔ p.1 ∈ segments ∧ ∃ e ∈ bounds, e.1 = p.2 := by
  obtain ⟨s, c⟩ := p
  simp only [segmentColumns, mem_flatMap, mem_map, Prod.mk.injEq]
  constructor
  · rintro ⟨s', hs', e, he, rfl, rfl⟩
    exact ⟨hs', e, he, rfl⟩
  · rintro ⟨hs, e, he, rfl⟩
    exact ⟨s, hs, e, he, rfl, rfl⟩

theorem mem_missingSegments {reads : PackedReads B} {segments : List ColdSegment}
    {s : ColdSegment} :
    s ∈ missingSegments reads segments ↔
      s ∈ segments ∧ ∃ r ∈ reads, r.1.1 = s ∧ r.2 = none := by
  simp [missingSegments, mem_insertionSort]

section Reads

variable {s} {reads : PackedReads B} {segments : List ColdSegment} {bounds : EncodedBounds B}
  (hreads : reads.map Prod.fst = segmentColumns segments bounds)
  (hvalues : ∀ r ∈ reads, ∀ value, r.2 = some value → cat.Faithful r.1.1 r.1.2 value)

include hreads hvalues in
theorem faithful_packedIndex (hs : s ∈ segments) {e : ℤ × Option B × Option B} (he : e ∈ bounds) :
    cat.Faithful s e.1 (cat.packedIndex reads (missingSegments reads segments) s e.1) := by
  have hmem : (s, e.1) ∈ reads.map Prod.fst :=
    hreads ▸ mem_segmentColumns.2 ⟨hs, e, he, rfl⟩
  obtain ⟨r, hr⟩ : ∃ r, (reads.find? fun r ↦ decide (r.1 = (s, e.1))) = some r := by
    obtain ⟨r, hr, hf⟩ := mem_map.1 hmem
    exact Option.isSome_iff_exists.1 (find?_isSome.2 ⟨r, hr, by simp [hf]⟩)
  have hf : r.1 = (s, e.1) := by simpa using find?_some hr
  have hm : r ∈ reads := mem_of_find?_eq_some hr
  simp only [packedIndex, hr, Option.bind_some]
  cases hv : r.2 with
  | none =>
    -- the segment is reloaded, and the reloaded row is the catalog's
    have hi : s ∈ missingSegments reads segments :=
      mem_missingSegments.2 ⟨hs, r, hm, by rw [hf], hv⟩
    simpa [hi] using faithful_packedRow s e.1
  | some value =>
    have ha : cat.Faithful s e.1 value := by simpa [hf] using hvalues r hm value hv
    split
    · cases hrow : cat.packedRow s e.1 with
      | none => simpa using ha
      | some index => simp [Faithful, hrow]
    · simpa using ha

theorem faithful_reloadEntries {entry : PackedRowGroupCacheKey × Option (PackedRowGroupIndex B)}
    (hss : ∀ s ∈ segments, s ∈ cat.segments)
    (he : entry ∈ cat.reloadEntries reads (missingSegments reads segments) bounds)
    (hs : s ∈ cat.segments) {columnId : ℤ}
    (hkey : entry.1 = cat.packedKey (s, columnId)) : cat.Faithful s columnId entry.2 := by
  have hp : ∀ p : ColdSegment × ℤ,
      p ∈ segmentColumns (missingSegments reads segments) bounds →
      cat.packedKey p = cat.packedKey (s, columnId) → p = (s, columnId) := by
    intro p hp hk
    have hmem := hss _ (mem_missingSegments.1 (mem_segmentColumns.1 hp).1).1
    simp only [packedKey, PackedRowGroupCacheKey.mk.injEq, true_and] at hk
    exact Prod.ext (inj_on_of_nodup_map cat.segments_nodup hmem hs hk.1) hk.2
  rcases mem_append.1 he with he | he
  · obtain ⟨p, hmem, hr⟩ := mem_filterMap.1 he
    obtain ⟨index, hi, rfl⟩ := Option.map_eq_some_iff.1 hr
    obtain rfl := hp p hmem hkey
    exact hi ▸ faithful_packedRow s columnId
  · obtain ⟨p, hmem, rfl⟩ := mem_map.1 he
    rw [mem_filter] at hmem
    obtain rfl := hp p hmem.1 hkey
    have hm := (mem_segmentColumns.1 hmem.1).1
    have hnone : cat.packedRow s columnId = none := by
      have := hmem.2
      simp only [packedIndex, hm, if_true, Option.isNone_iff_eq_none, Option.or_eq_none_iff] at this
      exact this.1
    simp [Faithful, hnone]

end Reads

end Packed

section Load

variable {cat} [LinearOrder B]

variable {segments : List ColdSegment}
  {cache : LookupCache PackedRowGroupCacheKey (PackedRowGroupIndex B)}

theorem refineCandidateRowGroups_spec (hss : ∀ s ∈ segments, s ∈ cat.segments)
    (bounds : EncodedBounds B) (h : cat.PackedSound cache) :
    (∃ packed, (cat.refineCandidateRowGroups segments bounds cache).1 =
        selectCandidates packed bounds segments ∧
      ∀ s ∈ segments, ∀ e ∈ bounds, cat.Faithful s e.1 (packed s e.1)) ∧
    cat.PackedSound (cat.refineCandidateRowGroups segments bounds cache).2 := by
  obtain ⟨hsd, hf, hvalues⟩ := readPacked_spec
    (fun p hp ↦ hss _ (mem_segmentColumns.1 hp).1) h
  refine ⟨⟨_, rfl, fun s hs e he ↦ faithful_packedIndex hf hvalues hs he⟩, ?_⟩
  exact packedSound_cacheAll hsd fun entry hn s hs columnId hk ↦
    faithful_reloadEntries hss hn hs hk

variable {column : IndexColumn} {driving : Option B × Option B}
  {r : ColdSegment × PackedRowGroupIndex B}

variable {compositeHash : Option ℤ}

theorem mem_segments_of_mem_candidateRows (h : r ∈ cat.candidateRows column compositeHash driving) :
    r.1 ∈ cat.segments := by
  obtain ⟨s, hs, hr⟩ := mem_filterMap.1 h
  rw [segmentCandidate] at hr
  split at hr
  · cases hr
    exact hs
  · split at hr
    · cases hr
      exact hs
    · simp at hr

theorem faithful_of_mem_candidateRows (hc : cat.IndexCurrent column)
    (h : r ∈ cat.candidateRows column compositeHash driving) :
    cat.Faithful r.1 column.columnId (some r.2) := by
  obtain ⟨s, hs, hr⟩ := mem_filterMap.1 h
  have hfi : (cat.indexRows.find? fun r ↦ decide (r.segmentId = s.segmentId ∧
      r.columnId = column.columnId ∧ r.typeOid = column.typeOid ∧
      r.codecVersion = cat.codec.codecVersion)) =
      cat.indexRows.find? fun r ↦
        decide (r.segmentId = s.segmentId ∧ r.columnId = column.columnId) := by
    rw [← head?_filter, ← head?_filter]
    refine congrArg List.head? (filter_congr fun row hrow ↦ ?_)
    have := hc row hrow
    simp only [decide_eq_decide]
    tauto
  rw [segmentCandidate] at hr
  rw [hfi] at hr
  split at hr
  next hnone =>
    cases hr
    rw [Faithful, packedRow, hnone]
    exact .inr rfl
  next row hsome =>
    split at hr
    · cases hr
      rw [Faithful, packedRow, hsome]
      rfl
    · simp at hr

def loadOf (driving : Option B × Option B) (hints : List SegmentStatsHint) :
    SegmentIndexCandidateLoad :=
  ⟨some (hints.filter SegmentStatsHint.keep), lookupShape driving⟩

theorem map_loadOf_effective (packed : ColdSegment → ℤ → Option (PackedRowGroupIndex B))
    (bounds : EncodedBounds B) (driving : Option B × Option B)
    (hss : ∀ s ∈ segments, s ∈ cat.segments) :
    ((selectCandidates packed bounds segments).map (loadOf driving)).map
        effective =
      ((selectCandidates packed bounds segments).map (List.map SegmentStatsHint.effective)).map
        fun groups ↦ (some (groups.filter fun p ↦ !p.2.isEmpty), lookupShape driving) := by
  cases h : selectCandidates packed bounds segments with
  | error e => rfl
  | ok hints =>
    have hmem : ∀ hint ∈ hints, hint.segment ∈ cat.segments := fun hint hhi ↦
      hss _ (segment_of_selectCandidates h ▸ mem_map_of_mem hhi)
    simp [Except.map, loadOf, effective, map_effective_filter_keep hmem]

def answer (cat : IndexCatalog V T B S) (lookup : CandidateLookup V) (bounds : EncodedBounds B) :
    Except String SegmentIndexCandidateLoad :=
  (selectCandidates cat.packedRow bounds ((cat.candidateRows lookup.column lookup.compositeHash
    (drivingBounds lookup bounds)).map Prod.fst)).map (loadOf (drivingBounds lookup bounds))

theorem packedSound_candidateRows (hc : cat.IndexCurrent column)
    (h : cat.PackedSound cache) (compositeHash : Option ℤ) (driving : Option B × Option B) :
    cat.PackedSound (cacheAll ((cat.candidateRows column compositeHash driving).map fun r ↦
      (cat.packedKey (r.1, column.columnId), some r.2)) cache) := by
  refine packedSound_cacheAll h fun entry he s hs columnId hk ↦ ?_
  obtain ⟨r, hr, rfl⟩ := mem_map.1 he
  have hr' := mem_segments_of_mem_candidateRows hr
  simp only [packedKey, PackedRowGroupCacheKey.mk.injEq, true_and] at hk
  obtain rfl : r.1 = s := inj_on_of_nodup_map cat.segments_nodup hr' hs hk.1
  exact hk.2 ▸ faithful_of_mem_candidateRows hc hr

theorem loadUncached_spec (bounds : EncodedBounds B) (caches : ScanCaches B)
    (hc : cat.IndexCurrent lookup.column) (h : cat.PackedSound caches.packed) :
    (cat.loadUncached lookup bounds caches).1.map effective =
        (cat.answer lookup bounds).map effective ∧
      cat.PackedSound (cat.loadUncached lookup bounds caches).2.packed ∧
      ((cat.loadUncached lookup bounds caches).2.candidates = caches.candidates ∨
        ∃ cached, (cat.loadUncached lookup bounds caches).1 =
            .ok ⟨some cached.candidates, cached.shape⟩ ∧
          (cat.loadUncached lookup bounds caches).2.candidates =
            caches.candidates.insert (cat.candidateKey lookup bounds) (some cached)) := by
  have hss : ∀ s ∈ (cat.candidateRows lookup.column lookup.compositeHash
      (drivingBounds lookup bounds)).map Prod.fst, s ∈ cat.segments := by
    intro s hs
    obtain ⟨r, hr, rfl⟩ := mem_map.1 hs
    exact mem_segments_of_mem_candidateRows hr
  obtain ⟨⟨packed, he, hp⟩, hsd⟩ := refineCandidateRowGroups_spec hss bounds
    (packedSound_candidateRows hc h lookup.compositeHash (drivingBounds lookup bounds))
  have ha := map_loadOf_effective packed bounds (drivingBounds lookup bounds) hss
  rw [selectCandidates_effective hss hp,
    ← map_loadOf_effective cat.packedRow bounds _ hss, ← he] at ha
  rw [loadUncached]
  dsimp only
  generalize cat.refineCandidateRowGroups _ _ _ = refined at ha hsd ⊢
  obtain ⟨e | hints, packed'⟩ := refined
  · exact ⟨ha, hsd, .inl rfl⟩
  · exact ⟨ha, hsd, .inr ⟨⟨_, _⟩, rfl, rfl⟩⟩

variable {bounds : EncodedBounds B}

theorem answer_congr {l l' : CandidateLookup V}
    (h : cat.candidateKey l bounds = cat.candidateKey l' bounds) :
    cat.answer l bounds = cat.answer l' bounds := by
  simp only [candidateKey, SegmentIndexCandidateCacheKey.mk.injEq, true_and] at h
  obtain ⟨hid, hty, hlo, hup, hha⟩ := h
  have hc : l.column = l'.column := by
    cases hl : l.column
    cases hl' : l'.column
    simp_all
  have hd : drivingBounds l bounds = drivingBounds l' bounds := Prod.ext hlo hup
  rw [answer, answer, hc, hd, hha]

variable [DecidableEq T]

def answerUncached (cat : IndexCatalog V T B S) (lookup : CandidateLookup V) :
    Except String SegmentIndexCandidateLoad :=
  (cat.encodePrunePredicateBounds lookup.predicates).bind fun bounds ↦
    match lookupShape (drivingBounds lookup bounds) with
    | .allActive => .ok ⟨none, .allActive⟩
    | _ => cat.answer lookup bounds

def KeyFixesBounds (cat : IndexCatalog V T B S) (l l' : CandidateLookup V) : Prop :=
  ∀ bounds bounds', cat.encodePrunePredicateBounds l.predicates = .ok bounds →
    cat.encodePrunePredicateBounds l'.predicates = .ok bounds' →
    cat.candidateKey l bounds = cat.candidateKey l' bounds' → bounds = bounds'

/-- A cached answer is the answer of every one of `lookups` that has its key. -/
def CandidatesSound (cat : IndexCatalog V T B S) (lookups : List (CandidateLookup V))
    (cache : LookupCache (SegmentIndexCandidateCacheKey B) CachedSegmentIndexCandidates) : Prop :=
  cache.Sound fun key value ↦ ∀ cached, value = some cached → ∀ l ∈ lookups, ∀ bounds,
    cat.encodePrunePredicateBounds l.predicates = .ok bounds → cat.candidateKey l bounds = key →
      (cat.answer l bounds).map effective =
        .ok (effective ⟨some cached.candidates, cached.shape⟩)

/-- The caches are right for a run of `lookups`. -/
structure CachesSound (cat : IndexCatalog V T B S) (lookups : List (CandidateLookup V))
    (caches : ScanCaches B) : Prop where
  packed : cat.PackedSound caches.packed
  candidates : cat.CandidatesSound lookups caches.candidates

theorem cachesSound_withLimits (lookups : List (CandidateLookup V))
    (packedLimit candidateLimit : ℕ) :
    cat.CachesSound lookups (.withLimits B packedLimit candidateLimit) :=
  ⟨LookupCache.sound_withLimit _, LookupCache.sound_withLimit _⟩

section Run

variable {lookups : List (CandidateLookup V)} {caches : ScanCaches B}
  (hkeys : ∀ l ∈ lookups, ∀ l' ∈ lookups, cat.KeyFixesBounds l l')

include hkeys

theorem candidatesSound_insert {lookup : CandidateLookup V} (hlk : lookup ∈ lookups)
    (hbs : cat.encodePrunePredicateBounds lookup.predicates = .ok bounds)
    {cache : LookupCache (SegmentIndexCandidateCacheKey B) CachedSegmentIndexCandidates}
    (h : cat.CandidatesSound lookups cache) {cached : CachedSegmentIndexCandidates}
    (hc : (cat.answer lookup bounds).map effective =
      .ok (effective ⟨some cached.candidates, cached.shape⟩)) :
    cat.CandidatesSound lookups (cache.insert (cat.candidateKey lookup bounds) (some cached)) := by
  refine h.insert ?_
  rintro _ ⟨rfl⟩ l hl bounds' hbs' hk
  obtain rfl := hkeys l hl lookup hlk bounds' bounds hbs' hbs hk
  rw [answer_congr hk, hc]

theorem loadSegmentIndexCandidates_spec {lookup : CandidateLookup V} (hlk : lookup ∈ lookups)
    (hc : cat.IndexCurrent lookup.column) (h : cat.CachesSound lookups caches) :
    (cat.loadSegmentIndexCandidates lookup caches).1.map effective =
        (cat.answerUncached lookup).map effective ∧
      cat.CachesSound lookups (cat.loadSegmentIndexCandidates lookup caches).2 := by
  rw [loadSegmentIndexCandidates, answerUncached]
  cases hbs : cat.encodePrunePredicateBounds lookup.predicates with
  | error e => exact ⟨rfl, h⟩
  | ok bounds =>
    simp only [Except.bind]
    split
    · exact ⟨rfl, h⟩
    · have hg : cat.CandidatesSound lookups
          (caches.candidates.get (cat.candidateKey lookup bounds)).2 := h.candidates.get_snd _
      split
      next cached candidates hh =>
        rw [hh] at hg
        refine ⟨?_, h.packed, hg⟩
        exact (h.candidates.of_get (by rw [hh]) cached rfl lookup hlk bounds hbs rfl).symm
      next value candidates _ hm =>
        rw [hm] at hg
        obtain ⟨ha, hp, hcs⟩ := loadUncached_spec lookup bounds
          { caches with candidates } hc h.packed
        refine ⟨ha, hp, ?_⟩
        rcases hcs with hsm | ⟨cached, hld, hi⟩
        · rw [hsm]
          exact hg
        · rw [hi]
          refine candidatesSound_insert hkeys hlk hbs hg ?_
          rw [← ha, hld]
          rfl

theorem runLookups_map_effective {suffix : List (CandidateLookup V)} (hs : suffix ⊆ lookups)
    (hc : ∀ l ∈ lookups, cat.IndexCurrent l.column) (h : cat.CachesSound lookups caches) :
    (cat.runLookups suffix caches).map (·.map effective) =
      suffix.map fun l ↦ (cat.answerUncached l).map effective := by
  induction suffix generalizing caches with
  | nil => rfl
  | cons l suffix ih =>
    rw [cons_subset] at hs
    obtain ⟨hld, hsd⟩ :=
      loadSegmentIndexCandidates_spec hkeys hs.1 (hc l hs.1) h
    rw [runLookups, map_cons, map_cons, hld, ih hs.2 hsd]

end Run

/-- **No cached answer differs** from the one that empty caches give. -/
theorem runLookups_effective (cat : IndexCatalog V T B S) (packedLimit candidateLimit : ℕ)
    (lookups : List (CandidateLookup V)) (hcurrent : ∀ l ∈ lookups, cat.IndexCurrent l.column)
    (hkeys : ∀ l ∈ lookups, ∀ l' ∈ lookups, cat.KeyFixesBounds l l') :
    (cat.runLookups lookups (.withLimits B packedLimit candidateLimit)).map (·.map effective) =
      lookups.map fun l ↦
        (cat.loadSegmentIndexCandidates l (.withLimits B packedLimit candidateLimit)).1.map
          effective := by
  have he := cat.cachesSound_withLimits lookups packedLimit candidateLimit
  rw [runLookups_map_effective hkeys (List.Subset.refl _) hcurrent he]
  refine map_congr_left fun l hl ↦ ?_
  exact (loadSegmentIndexCandidates_spec hkeys hl (hcurrent l hl) he).1.symm

end Load

/-! ### A hit that loses a segment -/

def natCodec : SortKeyCodec ℕ Unit ℕ Unit where
  codecVersion := 1
  fromTypeOid _ := some ()
  fromTypeOidForBounds _ := some ()
  supportsValueSummary _ := false
  sortKeyType _ := ()
  encodeSortKey := .ok
  summaryHash _ := none
  summaryMayContain _ _ := true

/-- One segment with one row group. -/
def exampleCatalog : IndexCatalog ℕ Unit ℕ Unit where
  codec := natCodec
  tableOid := 1
  generation := 1
  columns := [⟨1, 20⟩, ⟨2, 20⟩]
  primaryKey := [1, 2]
  segments := [⟨7, "seg-7", 1, [11]⟩]
  indexRows := [⟨7, 1, 20, 1, some 5, some 5, [some 5], [some 5], [some 0], none⟩,
    ⟨7, 2, 20, 1, some 0, some 10, [some 0], [some 10], [some 0], none⟩]
  segments_nodup := by decide
  indexRows_nodup := by decide
  row_counts_length := by decide
  row_counts_pos := by decide

/-- The lookup of `first = a AND second = b`, driven by column 1. -/
def exampleLookup (a b : ℕ) : CandidateLookup ℕ :=
  ⟨⟨1, 20⟩, [⟨1, "first", some a, some a⟩, ⟨2, "second", some b, some b⟩], none⟩

theorem indexCurrent_exampleCatalog (a b : ℕ) :
    exampleCatalog.IndexCurrent (exampleLookup a b).column := by
  simp [IndexCurrent, exampleCatalog, exampleLookup, natCodec]

theorem encode_exampleLookup (a b : ℕ) :
    exampleCatalog.encodePrunePredicateBounds (exampleLookup a b).predicates =
      .ok [(1, some a, some a), (2, some b, some b)] := by
  rfl

theorem keyFixesBounds_exampleLookup {a b a' b' : ℕ} (h : a = a' → b = b') :
    exampleCatalog.KeyFixesBounds (exampleLookup a b) (exampleLookup a' b') := by
  intro bounds bounds' hbs hbs' hk
  obtain rfl := Except.ok.inj ((encode_exampleLookup a b).symm.trans hbs)
  obtain rfl := Except.ok.inj ((encode_exampleLookup a' b').symm.trans hbs')
  have ha : a = a' := Option.some.inj (congrArg SegmentIndexCandidateCacheKey.lower hk)
  rw [ha, h ha]

theorem runLookups_effective_distinct_first :
    (exampleCatalog.runLookups [exampleLookup 5 3, exampleLookup 6 4, exampleLookup 5 3]
        (.withLimits ℕ 128 64)).map (·.map effective) =
      [exampleLookup 5 3, exampleLookup 6 4, exampleLookup 5 3].map fun l ↦
        (exampleCatalog.loadSegmentIndexCandidates l (.withLimits ℕ 128 64)).1.map
          effective := by
  refine exampleCatalog.runLookups_effective 128 64 _ ?_ ?_
  · simp [indexCurrent_exampleCatalog]
  · simp [keyFixesBounds_exampleLookup]

theorem secondColumn_misses_row :
    (exampleCatalog.runLookups [exampleLookup 5 100, exampleLookup 5 3]
        (.withLimits ℕ 128 64)).map (·.map effective) =
      [.ok (some [], .boundedRange), .ok (some [], .boundedRange)] ∧
    (exampleCatalog.loadSegmentIndexCandidates (exampleLookup 5 3)
        (.withLimits ℕ 128 64)).1.map effective =
      .ok (some [(⟨7, "seg-7", 1, [11]⟩, [0])], .boundedRange) := by
  exact ⟨by rfl, by rfl⟩

end IndexCatalog

end Koldstore
