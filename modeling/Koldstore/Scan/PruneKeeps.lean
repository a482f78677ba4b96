import Koldstore.Scan.Prune

/-!
# What a cold plan keeps

The answer of `planColdSegments` is described by what it keeps.
-/

namespace Koldstore

open List SegmentStatsHint

open MergeGroups (MergeRow)

namespace PackedRowGroupIndex

variable {B : Type*} [LinearOrder B] {index : PackedRowGroupIndex B}

/-- The bounds do not exclude row group `i`. -/
def KeepsGroup (index : PackedRowGroupIndex B) (lower upper : Option B) (i : ℕ) : Prop :=
  (lower = none ∧ upper = none) ∨ index.selectRowGroup lower upper i = .ok true

structure Readable (index : PackedRowGroupIndex B) : Prop where
  count_ne_zero : index.rowGroupCount ≠ 0
  length_counts : index.rowGroupRowCounts.length = index.rowGroupCount
  length_mins : index.rowGroupMinValues.length = index.rowGroupCount
  length_maxs : index.rowGroupMaxValues.length = index.rowGroupCount
  length_nulls : index.rowGroupNullCounts.length = index.rowGroupCount
  select : ∀ lower upper i, i < index.rowGroupCount →
    ∃ keep, index.selectRowGroup lower upper i = .ok keep

theorem Readable.selectRowGroups_eq_ok (h : index.Readable) (lower upper : Option B) {is : List ℕ}
    (his : ∀ i ∈ is, i < index.rowGroupCount) :
    ∃ selected, index.selectRowGroups lower upper is = .ok selected ∧
      ∀ i, i ∈ selected ↔ i ∈ is ∧ index.selectRowGroup lower upper i = .ok true := by
  induction is with
  | nil => exact ⟨[], rfl, by simp⟩
  | cons j is ih =>
    rw [forall_mem_cons] at his
    obtain ⟨selected, he, hmem⟩ := ih his.2
    obtain ⟨keep, hkp⟩ := h.select lower upper j his.1
    refine ⟨if keep then j :: selected else selected, ?_, ?_⟩
    · rw [selectRowGroups, hkp, he]
      rfl
    · intro i
      cases keep with
      | true =>
        rw [if_pos rfl, mem_cons, hmem, mem_cons]
        constructor
        · rintro (rfl | ⟨hi, hs⟩)
          · exact ⟨.inl rfl, hkp⟩
          · exact ⟨.inr hi, hs⟩
        · rintro ⟨rfl | hi, hs⟩
          · exact .inl rfl
          · exact .inr ⟨hi, hs⟩
      | false =>
        rw [if_neg (by simp), hmem, mem_cons]
        constructor
        · rintro ⟨hi, hs⟩
          exact ⟨.inr hi, hs⟩
        · rintro ⟨rfl | hi, hs⟩
          · rw [hkp] at hs
            cases hs
          · exact ⟨hi, hs⟩

theorem Readable.selectPackedRowGroups_eq_ok (h : index.Readable) (lower upper : Option B) :
    ∃ selected, index.selectPackedRowGroups lower upper = .ok selected ∧
      ∀ i, i ∈ selected ↔ i < index.rowGroupCount ∧ index.KeepsGroup lower upper i := by
  have hv : ¬(index.rowGroupCount = 0 ∨ index.rowGroupRowCounts.length ≠ index.rowGroupCount ∨
      index.rowGroupMinValues.length ≠ index.rowGroupCount ∨
      index.rowGroupMaxValues.length ≠ index.rowGroupCount ∨
      index.rowGroupNullCounts.length ≠ index.rowGroupCount) := by
    simp [h.count_ne_zero, h.length_counts, h.length_mins, h.length_maxs, h.length_nulls]
  rw [selectPackedRowGroups, if_neg hv]
  by_cases hnone : lower = none ∧ upper = none
  · exact ⟨_, if_pos hnone, by simp [KeepsGroup, hnone]⟩
  · have hr : ∀ i ∈ List.range index.rowGroupCount, i < index.rowGroupCount :=
      fun i hi ↦ mem_range.1 hi
    obtain ⟨selected, hs, hmem⟩ := h.selectRowGroups_eq_ok lower upper hr
    refine ⟨selected, (if_neg hnone).trans hs, fun i ↦ ?_⟩
    rw [hmem, mem_range, KeepsGroup, or_iff_right hnone]

end PackedRowGroupIndex

section Refine

variable {B : Type*} [LinearOrder B]

/-- No bounded column excludes row group `i`. -/
def BoundsKeep (packed : ℤ → Option (PackedRowGroupIndex B)) (bounds : EncodedBounds B) (i : ℕ) :
    Prop :=
  ∀ e ∈ bounds, ∀ index, packed e.1 = some index → index.KeepsGroup e.2.1 e.2.2 i

def ReadableFor (packed : ℤ → Option (PackedRowGroupIndex B)) (count : ℕ) : Prop :=
  ∀ c index, packed c = some index → index.Readable ∧ index.rowGroupCount = count

theorem refineSegment_eq_ok {packed : ℤ → Option (PackedRowGroupIndex B)} {count : ℕ}
    (hread : ReadableFor packed count) (bounds : EncodedBounds B) {retained : Option (List ℕ)}
    (hlt : ∀ i ∈ retained.getD (List.range count), i < count) :
    ∃ selected, refineSegment packed bounds retained = .ok selected ∧
      ∀ i, i ∈ selected.getD (List.range count) ↔
        i ∈ retained.getD (List.range count) ∧ BoundsKeep packed bounds i := by
  induction bounds generalizing retained with
  | nil => exact ⟨retained, rfl, by simp [BoundsKeep]⟩
  | cons e rest ih =>
    obtain ⟨c, lower, upper⟩ := e
    rw [refineSegment]
    cases hp : packed c with
    | none =>
      obtain ⟨selected, hs, hmem⟩ := ih hlt
      exact ⟨selected, hs, by simp [hmem, BoundsKeep, hp]⟩
    | some index =>
      obtain ⟨hd, hc⟩ := hread c index hp
      obtain ⟨groups, hgs, hmemGroups⟩ := hd.selectPackedRowGroups_eq_ok lower upper
      have hlt' : ∀ i ∈ (some ((retained.getD (List.range index.rowGroupCount)).filter
          fun i ↦ decide (i ∈ groups))).getD (List.range count), i < count := by
        rw [hc]
        exact fun i hi ↦ hlt i (mem_of_mem_filter hi)
      obtain ⟨selected, hs, hmem⟩ := ih hlt'
      refine ⟨selected, by simpa only [hgs, Except.bind] using hs, fun i ↦ ?_⟩
      rw [hmem, Option.getD_some, mem_filter, decide_eq_true_eq, hmemGroups, hc]
      constructor
      · rintro ⟨⟨hi, -, hkp⟩, hre⟩
        refine ⟨hi, ?_⟩
        rw [BoundsKeep, forall_mem_cons]
        refine ⟨fun index' hi' ↦ ?_, hre⟩
        obtain rfl := Option.some.inj (hp.symm.trans hi')
        exact hkp
      · rintro ⟨hi, hkp⟩
        rw [BoundsKeep, forall_mem_cons] at hkp
        exact ⟨⟨hi, hlt i hi, hkp.1 index hp⟩, hkp.2⟩

def SegmentStatsHint.Refined (packed : ColdSegment → ℤ → Option (PackedRowGroupIndex B))
    (bounds : EncodedBounds B) (hint : SegmentStatsHint) : Prop :=
  ∀ i, i ∈ hint.effective.2 ↔
    i < hint.segment.rowGroupCount ∧ BoundsKeep (packed hint.segment) bounds i

variable {packed : ColdSegment → ℤ → Option (PackedRowGroupIndex B)} {segments : List ColdSegment}
  (hread : ∀ s ∈ segments, ReadableFor (packed s) s.rowGroupCount)
include hread

theorem refineSegments_eq_ok (bounds : EncodedBounds B) (hints : List SegmentStatsHint) :
    ∃ refined, refineSegments packed bounds segments hints = .ok refined ∧
      ∀ hint ∈ refined, (hint.segment ∈ segments → hint.Refined packed bounds) ∧
        (hint.segment ∉ segments → hint ∈ hints) := by
  induction segments generalizing hints with
  | nil => exact ⟨hints, rfl, by simp⟩
  | cons s segments ih =>
    rw [forall_mem_cons] at hread
    have hrng : ∀ i ∈ (none : Option (List ℕ)).getD (List.range s.rowGroupCount),
        i < s.rowGroupCount := fun i hi ↦ mem_range.1 hi
    obtain ⟨selected, he, hmem⟩ := refineSegment_eq_ok hread.1 bounds hrng
    obtain ⟨refined, hr, hspec⟩ := ih hread.2 (hints.map fun hint ↦
      if hint.segment = s then { hint with selectedRowGroups := selected } else hint)
    refine ⟨refined, ?_, fun hint hhi ↦ ?_⟩
    · rw [refineSegments, he]
      exact hr
    · by_cases hl : hint.segment ∈ segments
      · exact ⟨fun _ ↦ (hspec hint hhi).1 hl, fun hn ↦ absurd (mem_cons_of_mem _ hl) hn⟩
      · obtain ⟨hint₀, hmem₀, rfl⟩ := mem_map.1 ((hspec hint hhi).2 hl)
        by_cases hs : hint₀.segment = s
        · refine ⟨fun _ ↦ ?_, fun hn ↦ absurd (by simp [hs]) hn⟩
          rw [if_pos hs]
          intro i
          have hi := hmem i
          simp only [Option.getD_none, mem_range] at hi
          simpa [effective, hs] using hi
        · rw [if_neg hs] at hl ⊢
          exact ⟨fun hin ↦ absurd hin (by simp [hs, hl]), fun _ ↦ hmem₀⟩

theorem selectCandidates_eq_ok (bounds : EncodedBounds B) :
    ∃ hints, selectCandidates packed bounds segments = .ok hints ∧
      hints.map segment = segments ∧
      ∀ hint ∈ hints, hint.Refined packed bounds := by
  obtain ⟨hints, hhs, hspec⟩ : ∃ hints, selectCandidates packed bounds segments = .ok hints ∧
      (hints.map segment = segments →
        ∀ hint ∈ hints, hint.Refined packed bounds) := by
    rw [selectCandidates]
    split
    next he =>
      refine ⟨_, rfl, fun _ hint hhi i ↦ ?_⟩
      obtain ⟨s, hs, rfl⟩ := mem_map.1 hhi
      rcases he with rfl | rfl
      · cases hs
      · simp [effective, BoundsKeep]
    · have hrd' : ∀ s ∈ segments.insertionSort fun s t ↦ s.segmentId ≤ t.segmentId,
          ReadableFor (packed s) s.rowGroupCount :=
        fun s hs ↦ hread s ((mem_insertionSort _).1 hs)
      obtain ⟨refined, hr, hspec⟩ := refineSegments_eq_ok hrd' bounds
        (segments.map fun s ↦ ⟨s, none⟩)
      refine ⟨refined, hr, fun hss hint hhi ↦ (hspec hint hhi).1 ?_⟩
      rw [mem_insertionSort, ← hss]
      exact mem_map_of_mem hhi
  have hss : hints.map segment = segments :=
    IndexCatalog.segment_of_selectCandidates hhs
  exact ⟨hints, hhs, hss, hspec hss⟩

omit hread

end Refine

/-- The hints make the scan read row group `i` of the segment. -/
def Selects (hints : List SegmentStatsHint) (s : ColdSegment) (i : ℕ) : Prop :=
  ∃ hint ∈ hints, hint.segment = s ∧ i ∈ hint.effective.2

namespace IndexCatalog

variable {V T B S : Type*} [DecidableEq T] [LinearOrder B] {cat : IndexCatalog V T B S}

/-- A lookup with the given bounds leaves row group `i` of a segment possible. -/
def BoundedLookupKeeps (cat : IndexCatalog V T B S) (lookup : CandidateLookup V)
    (bounds : EncodedBounds B) (s : ColdSegment) (i : ℕ) : Prop :=
  lookupShape (drivingBounds lookup bounds) = .allActive ∨
    ((cat.segmentCandidate lookup.column lookup.compositeHash (drivingBounds lookup bounds)
      s).isSome = true ∧ BoundsKeep (cat.packedRow s) bounds i)

/-- A lookup leaves row group `i` of a segment possible. -/
def LookupKeeps (cat : IndexCatalog V T B S) (lookup : CandidateLookup V) (s : ColdSegment)
    (i : ℕ) : Prop :=
  ∃ bounds, cat.encodePrunePredicateBounds lookup.predicates = .ok bounds ∧
    cat.BoundedLookupKeeps lookup bounds s i

def ActiveHints (cat : IndexCatalog V T B S) (hints : List SegmentStatsHint) : Prop :=
  ∀ hint ∈ hints, hint.segment ∈ cat.segments

def Answers (cat : IndexCatalog V T B S)
    (answer : CandidateLookup V → Except String SegmentIndexCandidateLoad)
    (keeps : CandidateLookup V → ColdSegment → ℕ → Prop) (lookup : CandidateLookup V) : Prop :=
  ∃ load, answer lookup = .ok load ∧ (load.candidates = none → ∀ s i, keeps lookup s i) ∧
    ∀ hints, load.candidates = some hints → cat.ActiveHints hints ∧
      ∀ s ∈ cat.segments, ∀ i < s.rowGroupCount, (Selects hints s i ↔ keeps lookup s i)

omit [DecidableEq T] in
theorem mem_candidateRows_iff {column : IndexColumn} {compositeHash : Option ℤ}
    {driving : Option B × Option B} {s : ColdSegment} :
    s ∈ (cat.candidateRows column compositeHash driving).map Prod.fst ↔
      s ∈ cat.segments ∧ (cat.segmentCandidate column compositeHash driving s).isSome = true := by
  have hf : ∀ (s' : ColdSegment) r, cat.segmentCandidate column compositeHash driving s' = some r →
      r.1 = s' := by
    intro s' r hr
    rw [segmentCandidate] at hr
    split at hr
    · cases hr
      rfl
    · split at hr
      · cases hr
        rfl
      · cases hr
  constructor
  · intro hs
    obtain ⟨r, hr, rfl⟩ := mem_map.1 hs
    obtain ⟨s', hs', hr⟩ := mem_filterMap.1 hr
    obtain rfl := hf s' r hr
    exact ⟨hs', by simp [hr]⟩
  · rintro ⟨hs, hsome⟩
    obtain ⟨r, hr⟩ := Option.isSome_iff_exists.1 hsome
    exact mem_map.2 ⟨r, mem_filterMap.2 ⟨s, hs, hr⟩, hf s r hr⟩

omit [DecidableEq T] in
theorem answer_eq_ok (hread : ∀ s ∈ cat.segments, ReadableFor (cat.packedRow s) s.rowGroupCount)
    (lookup : CandidateLookup V) (bounds : EncodedBounds B) :
    ∃ load hints, cat.answer lookup bounds = .ok load ∧ load.candidates = some hints ∧
      cat.ActiveHints hints ∧ ∀ s ∈ cat.segments, ∀ i < s.rowGroupCount, (Selects hints s i ↔
        (cat.segmentCandidate lookup.column lookup.compositeHash (drivingBounds lookup bounds)
          s).isSome = true ∧ BoundsKeep (cat.packedRow s) bounds i) := by
  have hrd' : ∀ s ∈ (cat.candidateRows lookup.column lookup.compositeHash
      (drivingBounds lookup bounds)).map Prod.fst,
      ReadableFor (cat.packedRow s) s.rowGroupCount :=
    fun s hs ↦ hread s (mem_candidateRows_iff.1 hs).1
  obtain ⟨hints, hhs, hss, hr⟩ := selectCandidates_eq_ok hrd' bounds
  have hmem : ∀ hint ∈ hints, hint.segment ∈ (cat.candidateRows lookup.column
      lookup.compositeHash (drivingBounds lookup bounds)).map Prod.fst := by
    intro hint hhi
    rw [← hss]
    exact mem_map_of_mem hhi
  refine ⟨_, hints.filter keep, by rw [answer, hhs]; rfl, rfl, ?_, ?_⟩
  · intro hint hhi
    exact (mem_candidateRows_iff.1 (hmem hint (mem_of_mem_filter hhi))).1
  · intro s hs i hi
    constructor
    · rintro ⟨hint, hhi, rfl, hm⟩
      have hhi' := mem_of_mem_filter hhi
      exact ⟨(mem_candidateRows_iff.1 (hmem hint hhi')).2, ((hr hint hhi' i).1 hm).2⟩
    · rintro ⟨hsome, hkp⟩
      have hsmem : s ∈ hints.map segment := by
        rw [hss]
        exact mem_candidateRows_iff.2 ⟨hs, hsome⟩
      obtain ⟨hint, hhi, rfl⟩ := mem_map.1 hsmem
      have hm := (hr hint hhi i).2 ⟨hi, hkp⟩
      refine ⟨hint, mem_filter.2 ⟨hhi, ?_⟩, rfl, hm⟩
      -- a hint with a row group left is not dropped
      rw [keep_eq hs]
      have hne := ne_nil_of_mem hm
      simpa using hne

theorem answers_answerUncached
    (hread : ∀ s ∈ cat.segments, ReadableFor (cat.packedRow s) s.rowGroupCount)
    {lookup : CandidateLookup V} {bounds : EncodedBounds B}
    (hbs : cat.encodePrunePredicateBounds lookup.predicates = .ok bounds) :
    cat.Answers cat.answerUncached cat.LookupKeeps lookup := by
  have hkp : ∀ s i, cat.LookupKeeps lookup s i ↔ cat.BoundedLookupKeeps lookup bounds s i := by
    intro s i
    constructor
    · rintro ⟨bounds', hbs', hk⟩
      obtain rfl := Except.ok.inj (hbs.symm.trans hbs')
      exact hk
    · exact fun hk ↦ ⟨bounds, hbs, hk⟩
  simp only [Answers, hkp, BoundedLookupKeeps]
  rw [answerUncached, hbs]
  simp only [Except.bind]
  split
  next hh => exact ⟨_, rfl, fun _ s i ↦ .inl hh, by simp⟩
  next hh =>
    obtain ⟨load, hints, hld, hhs, hv, he⟩ := answer_eq_ok hread lookup bounds
    refine ⟨load, hld, fun hnone ↦ by simp [hhs] at hnone, fun his' hhs' ↦ ?_⟩
    obtain rfl := Option.some.inj (hhs.symm.trans hhs')
    refine ⟨hv, fun s hs i hi ↦ ?_⟩
    rw [he s hs i hi, or_iff_right hh]

end IndexCatalog

section Union

variable {s : ColdSegment} {i : ℕ} {hints merged : List SegmentStatsHint}
  {candidate : SegmentStatsHint}

theorem mem_unionRowGroups {left right : Option (List ℕ)} {n : ℕ} (hi : i < n) :
    i ∈ (unionRowGroups left right).getD (List.range n) ↔
      i ∈ left.getD (List.range n) ∨ i ∈ right.getD (List.range n) := by
  cases left with
  | none => simp [unionRowGroups, hi]
  | some left =>
    cases right with
    | none => simp [unionRowGroups, hi]
    | some right => simp [unionRowGroups, mem_insertionSort]

theorem selects_cons : Selects (candidate :: hints) s i ↔
    (candidate.segment = s ∧ i ∈ candidate.effective.2) ∨ Selects hints s i := by
  simp [Selects]

theorem selects_mergeHint
    (hpt : ∀ e ∈ hints, candidate.segment.path = e.segment.path → e.segment = candidate.segment)
    (hi : i < s.rowGroupCount) :
    Selects (mergeHint candidate hints) s i ↔
      Selects hints s i ∨ (candidate.segment = s ∧ i ∈ candidate.effective.2) := by
  induction hints with
  | nil => rw [mergeHint, selects_cons, or_comm]
  | cons existing rest ih =>
    rw [forall_mem_cons] at hpt
    rw [mergeHint]
    split_ifs with hlt heq
    · rw [selects_cons, or_comm]
    · have hun : (existing.segment = s ∧ i ∈ (unionRowGroups existing.selectedRowGroups
          candidate.selectedRowGroups).getD (List.range existing.segment.rowGroupCount)) ↔
          (existing.segment = s ∧ i ∈ existing.effective.2) ∨
            (candidate.segment = s ∧ i ∈ candidate.effective.2) := by
        rw [← hpt.1 heq, ← and_or_left]
        refine and_congr_right fun hs ↦ ?_
        rw [effective, effective, ← hpt.1 heq, hs]
        exact mem_unionRowGroups hi
      rw [selects_cons, selects_cons, effective, hun, or_right_comm]
    · rw [selects_cons, selects_cons, ih hpt.2, or_assoc]

variable {V T B S : Type*} {cat : IndexCatalog V T B S}

theorem mem_mergeHint {hint : SegmentStatsHint} (h : hint ∈ mergeHint candidate hints) :
    hint.segment = candidate.segment ∨ ∃ e ∈ hints, hint.segment = e.segment := by
  induction hints with
  | nil =>
    rw [mem_singleton.1 h]
    exact .inl rfl
  | cons existing rest ih =>
    rw [mergeHint] at h
    split_ifs at h
    · rcases mem_cons.1 h with rfl | h
      · exact .inl rfl
      · exact .inr ⟨hint, h, rfl⟩
    · rcases mem_cons.1 h with rfl | h
      · exact .inr ⟨existing, mem_cons_self, rfl⟩
      · exact .inr ⟨hint, mem_cons_of_mem _ h, rfl⟩
    · rcases mem_cons.1 h with rfl | h
      · exact .inr ⟨hint, mem_cons_self, rfl⟩
      · rcases ih h with hc | ⟨e, he, heq⟩
        · exact .inl hc
        · exact .inr ⟨e, mem_cons_of_mem _ he, heq⟩

theorem activeHints_mergeHint (hc : candidate.segment ∈ cat.segments)
    (hmg : cat.ActiveHints merged) : cat.ActiveHints (mergeHint candidate merged) := by
  intro hint hhi
  rcases mem_mergeHint hhi with heq | ⟨e, he, heq⟩
  · exact heq ▸ hc
  · exact heq ▸ hmg e he

theorem activeHints_mergeHints {candidates : List SegmentStatsHint}
    (hcs : cat.ActiveHints candidates) (hmg : cat.ActiveHints merged) :
    cat.ActiveHints (mergeHints merged candidates) := by
  induction candidates generalizing merged with
  | nil => exact hmg
  | cons candidate candidates ih =>
    rw [IndexCatalog.ActiveHints, forall_mem_cons] at hcs
    exact ih hcs.2 (activeHints_mergeHint hcs.1 hmg)

theorem selects_mergeHints (hp : (cat.segments.map ColdSegment.path).Nodup)
    {candidates : List SegmentStatsHint} (hcs : cat.ActiveHints candidates)
    (hmg : cat.ActiveHints merged) (hi : i < s.rowGroupCount) :
    Selects (mergeHints merged candidates) s i ↔ Selects merged s i ∨ Selects candidates s i := by
  induction candidates generalizing merged with
  | nil => simp [mergeHints, Selects]
  | cons candidate candidates ih =>
    rw [IndexCatalog.ActiveHints, forall_mem_cons] at hcs
    have hpt : ∀ e ∈ merged, candidate.segment.path = e.segment.path →
        e.segment = candidate.segment := fun e he heq ↦
      inj_on_of_nodup_map hp (hmg e he) hcs.1 heq.symm
    have ha := activeHints_mergeHint hcs.1 hmg
    rw [mergeHints, foldl_cons, ← mergeHints, ih hcs.2 ha, selects_mergeHint hpt hi, selects_cons,
      or_assoc]

theorem unionLookups_spec (hp : (cat.segments.map ColdSegment.path).Nodup)
    {answer : CandidateLookup V → Except String SegmentIndexCandidateLoad}
    {keeps : CandidateLookup V → ColdSegment → ℕ → Prop} {lookups : List (CandidateLookup V)}
    (h : ∀ lookup ∈ lookups, cat.Answers answer keeps lookup)
    {union : Option (List SegmentStatsHint)}
    (hun : ∀ merged, union = some merged → cat.ActiveHints merged) :
    ∃ united, unionLookups answer lookups union = .ok united ∧
      (united = none → union = none ∨ ∃ lookup ∈ lookups, ∀ s i, keeps lookup s i) ∧
      ∀ hints, united = some hints → ∃ merged, union = some merged ∧ cat.ActiveHints hints ∧
        ∀ s ∈ cat.segments, ∀ i < s.rowGroupCount, (Selects hints s i ↔
          Selects merged s i ∨ ∃ lookup ∈ lookups, keeps lookup s i) := by
  induction lookups generalizing union with
  | nil =>
    refine ⟨union, rfl, .inl, fun hints hhs ↦ ⟨hints, hhs, hun hints hhs, ?_⟩⟩
    simp
  | cons lookup lookups ih =>
    rw [forall_mem_cons] at h
    obtain ⟨⟨load, hld, hall, hsome⟩, hre⟩ := h
    -- the union after this lookup
    have hnx : ∀ merged', (union.bind fun merged ↦ load.candidates.map fun candidates ↦
        mergeHints merged candidates) = some merged' → ∃ merged candidates, union = some merged ∧
          load.candidates = some candidates ∧ merged' = mergeHints merged candidates := by
      intro merged' hmg'
      obtain ⟨merged, hmg, hm⟩ := Option.bind_eq_some_iff.1 hmg'
      obtain ⟨candidates, hcs, rfl⟩ := Option.map_eq_some_iff.1 hm
      exact ⟨merged, candidates, hmg, hcs, rfl⟩
    have ha : ∀ merged', (union.bind fun merged ↦ load.candidates.map fun candidates ↦
        mergeHints merged candidates) = some merged' → cat.ActiveHints merged' := by
      intro merged' hmg'
      obtain ⟨merged, candidates, hmg, hcs, rfl⟩ := hnx merged' hmg'
      exact activeHints_mergeHints (hsome candidates hcs).1 (hun merged hmg)
    obtain ⟨united, hn, hnone, hhs⟩ := ih hre ha
    refine ⟨united, by rw [unionLookups, hld]; exact hn, ?_, ?_⟩
    · intro hu'
      rcases hnone hu' with hb | ⟨lookup', hmem, hkp⟩
      · cases hu : union with
        | none => exact .inl rfl
        | some merged =>
          have hcs : load.candidates = none := by simpa [hu] using hb
          exact .inr ⟨lookup, mem_cons_self, hall hcs⟩
      · exact .inr ⟨lookup', mem_cons_of_mem _ hmem, hkp⟩
    · intro hints hsomeHints
      obtain ⟨merged', hmg', hv, he⟩ := hhs hints hsomeHints
      obtain ⟨merged, candidates, hmg, hcs, rfl⟩ := hnx merged' hmg'
      obtain ⟨hcandidatesActive, hkp⟩ := hsome candidates hcs
      refine ⟨merged, hmg, hv, fun s hs i hi ↦ ?_⟩
      rw [he s hs i hi, selects_mergeHints hp hcandidatesActive (hun merged hmg) hi, hkp s hs i hi]
      simp only [mem_cons, exists_eq_or_imp, or_assoc]

end Union

namespace IndexCatalog

variable {V T B S : Type*} [DecidableEq T] [LinearOrder B] {cat : IndexCatalog V T B S}

omit [LinearOrder B] in
theorem exists_tightenBound_eq_ok {expected : T} {value : Option V} (side column : String)
    (tighter : B → B → Bool) (current : Option B)
    (h : ∀ v, value = some v → cat.codec.sortKeyType v = expected ∧
      ∃ b, cat.codec.encodeSortKey v = .ok b) :
    ∃ result, cat.tightenBound side column expected tighter current value = .ok result := by
  cases value with
  | none => exact ⟨current, rfl⟩
  | some v =>
    obtain ⟨hty, b, hb⟩ := h v rfl
    rw [tightenBound, if_neg (not_not.2 hty), hb]
    exact ⟨_, rfl⟩

def TypedBounds (cat : IndexCatalog V T B S) (p : SegmentPrunePredicate V) : Prop :=
  ∀ column, (cat.columns.find? fun c ↦ decide (c.columnId = p.columnId)) = some column →
    ∀ ty, cat.codec.fromTypeOidForBounds column.typeOid = some ty →
      ∀ v, p.min = some v ∨ p.max = some v →
        cat.codec.sortKeyType v = ty ∧ ∃ b, cat.codec.encodeSortKey v = .ok b

theorem exists_encodePredicates_eq_ok {predicates : List (SegmentPrunePredicate V)}
    (h : ∀ p ∈ predicates, cat.TypedBounds p) (bounds : EncodedBounds B) :
    ∃ bounds', cat.encodePredicates bounds predicates = .ok bounds' := by
  induction predicates generalizing bounds with
  | nil => exact ⟨bounds, rfl⟩
  | cons p ps ih =>
    rw [forall_mem_cons] at h
    rw [encodePredicates]
    split
    · exact ih h.2 bounds
    next column hc =>
      split
      · exact ih h.2 bounds
      next expected he =>
        have hty := h.1 column hc expected he
        obtain ⟨lower, hlo⟩ := exists_tightenBound_eq_ok "lower" p.column
          (fun new old ↦ decide (old < new)) ((bounds.get p.columnId).getD (none, none)).1
          fun v hv ↦ hty v (.inl hv)
        obtain ⟨upper, hup⟩ := exists_tightenBound_eq_ok "upper" p.column
          (fun new old ↦ decide (new < old)) ((bounds.get p.columnId).getD (none, none)).2
          fun v hv ↦ hty v (.inr hv)
        simp only [hlo, hup, Except.bind]
        exact ih h.2 _

end IndexCatalog

section Statistics

variable {B : Type*} [LinearOrder B] {cells : List (Option B)} {i : ℕ}

theorem selectRowGroup_of_describes (index : PackedRowGroupIndex B) (lower upper : Option B)
    (hne : cells ≠ []) (hc : index.rowGroupRowCounts.getD i 0 = cells.length)
    (h : DescribesGroup cells (index.rowGroupMinValues.getD i none)
      (index.rowGroupMaxValues.getD i none) (index.rowGroupNullCounts.getD i none)) :
    ∃ keep, index.selectRowGroup lower upper i = .ok keep ∧
      ∀ b, some b ∈ cells → (∀ low, lower = some low → low ≤ b) →
        (∀ high, upper = some high → b ≤ high) → keep = true := by
  have hp : 0 < cells.length := length_pos_iff.2 hne
  have hnulls : ∀ n, index.rowGroupNullCounts.getD i none = some n → 0 ≤ n ∧ n ≤ cells.length := by
    intro n hn
    have hle : cells.count none ≤ cells.length := count_le_length
    rw [h.null_count n hn]
    omega
  have hval : ¬((cells.length : ℤ) ≤ 0 ∨ (index.rowGroupNullCounts.getD i none).any
      (fun n ↦ decide (n < 0) || decide ((cells.length : ℤ) < n)) = true) := by
    rintro (hle | hany)
    · omega
    · obtain ⟨n, hn, hbad⟩ := (Option.any_eq_true _ _).1 hany
      have := hnulls n hn
      simp only [Bool.or_eq_true, decide_eq_true_eq] at hbad
      omega
  -- a value among the cells leaves fewer nulls than rows
  have ha : ∀ b, some b ∈ cells →
      index.rowGroupNullCounts.getD i none ≠ some (cells.length : ℤ) := by
    intro b hb hu
    have hc' : cells.count none = cells.length := by exact_mod_cast (h.null_count _ hu).symm
    have hnone := count_eq_length.1 hc' _ hb
    cases hnone
  simp only [PackedRowGroupIndex.selectRowGroup, hc, if_neg hval]
  cases hmin : index.rowGroupMinValues.getD i none with
  | none =>
    have hm : index.rowGroupMaxValues.getD i none = none := by
      have hpr := h.paired
      rw [hmin] at hpr
      simpa using hpr.symm
    rw [hm]
    refine ⟨_, rfl, fun b hb _ _ ↦ ?_⟩
    simp only [Bool.not_eq_true', decide_eq_false_iff_not]
    exact ha b hb
  | some min =>
    obtain ⟨max, hm⟩ : ∃ max, index.rowGroupMaxValues.getD i none = some max := by
      have hpr := h.paired
      rw [hmin] at hpr
      exact Option.isSome_iff_exists.1 hpr.symm
    obtain ⟨value, hv⟩ := h.exists_value (by rw [hmin]; rfl)
    have hle : min ≤ max := (h.min_le value hv min hmin).trans (h.le_max value hv max hm)
    rw [hm]
    dsimp only
    rw [if_neg (by simpa using ha value hv), if_neg hle.not_gt]
    refine ⟨_, rfl, fun b hb hl hhi ↦ ?_⟩
    rw [Bool.and_eq_true, Option.all_eq_true, Option.all_eq_true]
    refine ⟨fun low hl' ↦ ?_, fun high hhi' ↦ ?_⟩
    · exact decide_eq_true ((hl low hl').trans (h.le_max b hb max hm))
    · exact decide_eq_true ((h.min_le b hb min hmin).trans (hhi high hhi'))

end Statistics

namespace PruneTable

variable {K V T B S : Type*} [DecidableEq V] [DecidableEq T] [LinearOrder B]
  {t : PruneTable K V T B S} {s : ColdSegment} {i : ℕ}

section Rows

omit [DecidableEq V] [DecidableEq T]

theorem length_rowGroups (hs : s ∈ t.segments) : (t.rowGroups s).length = s.rowGroupCount := by
  rw [← (t.row_counts_length s hs).2, t.row_counts s hs, length_map]

theorem rowGroup_ne_nil (hs : s ∈ t.segments) {g : List (MergeRow K (Cells B))}
    (hg : g ∈ t.rowGroups s) : g ≠ [] := by
  rintro rfl
  have hmem : (0 : ℤ) ∈ s.rowGroupRowCounts := by
    rw [t.row_counts s hs]
    exact mem_map.2 ⟨[], hg, rfl⟩
  exact (t.row_counts_pos s hs 0 hmem).false

theorem selectRowGroup_packedRow (hs : s ∈ t.segments) {c : ℤ} {index : PackedRowGroupIndex B}
    (hp : t.packedRow s c = some index) {g : List (MergeRow K (Cells B))}
    (hg : (t.rowGroups s)[i]? = some g) (lower upper : Option B) :
    ∃ keep, index.selectRowGroup lower upper i = .ok keep ∧
      ∀ r ∈ g, ∀ b, r.image c = some b → (∀ low, lower = some low → low ≤ b) →
        (∀ high, upper = some high → b ≤ high) → keep = true := by
  obtain ⟨row, hfi, rfl⟩ := Option.map_eq_some_iff.1 hp
  have hrow : row.segmentId = s.segmentId ∧ row.columnId = c := by simpa using find?_some hfi
  have hd := (t.describes s hs row (mem_of_find?_eq_some hfi) hrow.1).group i
    (g.map fun r ↦ r.image row.columnId) (by rw [getElem?_map, hg]; rfl)
  have hc : s.rowGroupRowCounts.getD i 0 = (g.map fun r ↦ r.image row.columnId).length := by
    rw [t.row_counts s hs]
    simp [hg]
  have hne : (g.map fun r ↦ r.image row.columnId) ≠ [] := by
    simpa using rowGroup_ne_nil hs (mem_of_getElem? hg)
  obtain ⟨keep, hkp, hv⟩ := selectRowGroup_of_describes (IndexCatalog.packedOf s row) lower
    upper hne hc hd
  refine ⟨keep, hkp, fun r hr b hb hl hhi ↦ hv b ?_ hl hhi⟩
  exact mem_map.2 ⟨r, hr, by rw [hrow.2, hb]⟩

theorem readableFor_packedRow (hs : s ∈ t.segments) :
    ReadableFor (t.packedRow s) s.rowGroupCount := by
  intro c index hp
  have he : ∀ lower upper i, i < s.rowGroupCount →
      ∃ keep, index.selectRowGroup lower upper i = .ok keep := by
    intro lower upper i hi
    obtain ⟨g, hg⟩ : ∃ g, (t.rowGroups s)[i]? = some g := by
      rw [← length_rowGroups hs] at hi
      exact ⟨_, getElem?_eq_getElem hi⟩
    obtain ⟨keep, hkp, -⟩ := selectRowGroup_packedRow hs hp hg lower upper
    exact ⟨keep, hkp⟩
  obtain ⟨row, hfi, rfl⟩ := Option.map_eq_some_iff.1 hp
  have hr : row.segmentId = s.segmentId ∧ row.columnId = c := by simpa using find?_some hfi
  have hd := t.describes s hs row (mem_of_find?_eq_some hfi) hr.1
  have hl := length_rowGroups hs
  refine ⟨⟨(t.row_counts_length s hs).1.ne', (t.row_counts_length s hs).2, ?_, ?_, ?_, he⟩, rfl⟩
  · exact hd.length_mins.trans ((length_map _).trans hl)
  · exact hd.length_maxs.trans ((length_map _).trans hl)
  · exact hd.length_nulls.trans ((length_map _).trans hl)

end Rows

section Lookups

variable {predicates : List (PrunePredicate V)} {p : PrunePredicate V} {column : IndexColumn}

omit [DecidableEq V] in
theorem mem_pointPredicates {list : PrunePredicate V} {value : V}
    (hfi : predicates.find? (isUnionList column) = some list)
    (h : p ∈ pointPredicates column value predicates) :
    p ∈ predicates ∨ p = .equality list.columnId list.column value := by
  induction predicates with
  | nil => cases hfi
  | cons first rest ih =>
    rw [pointPredicates] at h
    rw [find?_cons] at hfi
    cases hf : isUnionList column first with
    | true =>
      simp only [hf] at hfi
      cases hfi
      rw [if_pos hf] at h
      rcases mem_cons.1 h with rfl | h
      · exact .inr rfl
      · exact .inl (mem_cons_of_mem _ h)
    | false =>
      simp only [hf] at hfi
      rw [if_neg (by simp [hf])] at h
      rcases mem_cons.1 h with rfl | h
      · exact .inl mem_cons_self
      · exact (ih hfi h).imp_left (mem_cons_of_mem _)

end Lookups

end PruneTable

def CandidatePlan.lookups {V : Type*} : CandidatePlan V → List (CandidateLookup V)
  | .allActive => []
  | .one lookup => [lookup]
  | .union lookups => lookups

namespace PruneTable

variable {K V T B S : Type*} [DecidableEq V] [DecidableEq T] [LinearOrder B]
  {t : PruneTable K V T B S} {s : ColdSegment} {i : ℕ} {predicates : List (PrunePredicate V)}

/-- The plan leaves row group `i` of a segment possible. -/
def PlanKeeps (t : PruneTable K V T B S) (predicates : List (PrunePredicate V)) (s : ColdSegment)
    (i : ℕ) : Prop :=
  t.candidatePlan predicates = .allActive ∨
    ∃ lookup ∈ (t.candidatePlan predicates).lookups, t.LookupKeeps lookup s i

omit [DecidableEq V] [DecidableEq T] in
theorem Typed.typedBounds {p : PrunePredicate V} (h : t.Typed p) :
    t.TypedBounds p.toSegmentPrunePredicate := by
  obtain ⟨column, ty, hc, hty, hvs⟩ := h
  intro column' hc' ty' hty' v hv
  obtain rfl := Option.some.inj (hc.symm.trans hc')
  obtain rfl := Option.some.inj (hty.symm.trans hty')
  exact hvs v (hv.imp_right .inl)

omit [DecidableEq V] [DecidableEq T] in
theorem Typed.equality {list : PrunePredicate V} (h : t.Typed list) {value : V}
    (hval : value ∈ list.anyOf) : t.Typed (.equality list.columnId list.column value) := by
  obtain ⟨column, ty, hc, hty, hvs⟩ := h
  refine ⟨column, ty, hc, hty, fun v hv ↦ ?_⟩
  have hv' : value = v := by simpa [PrunePredicate.equality] using hv
  exact hvs v (.inr (.inr (hv' ▸ hval)))

theorem exists_encode_lookups (h : ∀ p ∈ predicates, t.Typed p) {lookup : CandidateLookup V}
    (hlk : lookup ∈ (t.candidatePlan predicates).lookups) :
    ∃ bounds, t.encodePrunePredicateBounds lookup.predicates = .ok bounds := by
  refine IndexCatalog.exists_encodePredicates_eq_ok (fun p hp ↦ ?_) []
  rw [candidatePlan] at hlk
  split at hlk
  · cases hlk
  next column _ =>
    split at hlk
    next list hli =>
      obtain ⟨value, hv, rfl⟩ := mem_map.1 hlk
      obtain ⟨p', hp', rfl⟩ := mem_map.1 hp
      rcases mem_pointPredicates hli hp' with hp' | rfl
      · exact (h p' hp').typedBounds
      · exact ((h list (mem_of_find?_eq_some hli)).equality hv).typedBounds
    · rw [CandidatePlan.lookups, mem_singleton] at hlk
      subst hlk
      obtain ⟨p', hp', rfl⟩ := mem_map.1 hp
      exact (h p' hp').typedBounds

theorem resolveSegmentIndexCandidates_spec (h : ∀ p ∈ predicates, t.Typed p) :
    ∃ candidates, t.resolveSegmentIndexCandidates predicates = .ok candidates ∧
      (candidates = none → ∀ s i, t.PlanKeeps predicates s i) ∧
      ∀ hints, candidates = some hints → t.ActiveHints hints ∧
        ∀ s ∈ t.segments, ∀ i < s.rowGroupCount,
          (Selects hints s i ↔ t.PlanKeeps predicates s i) := by
  have hn : ∀ lookup ∈ (t.candidatePlan predicates).lookups,
      t.Answers t.answerUncached t.LookupKeeps lookup := by
    intro lookup hlk
    obtain ⟨bounds, hbs⟩ := exists_encode_lookups h hlk
    exact IndexCatalog.answers_answerUncached (fun s hs ↦ readableFor_packedRow hs) hbs
  rw [resolveSegmentIndexCandidates]
  simp only [PlanKeeps]
  cases hpl : t.candidatePlan predicates with
  | allActive => exact ⟨none, rfl, fun _ s i ↦ .inl rfl, by simp⟩
  | one lookup =>
    obtain ⟨load, hld, hnone, hsome⟩ := hn lookup (by simp [hpl, CandidatePlan.lookups])
    refine ⟨load.candidates, by simp [hld, Except.map], ?_, ?_⟩
    · intro hcs s i
      exact .inr ⟨lookup, by simp [CandidatePlan.lookups], hnone hcs s i⟩
    · intro hints hhs
      obtain ⟨ha, hsel⟩ := hsome hints hhs
      refine ⟨ha, fun s hs i hi ↦ ?_⟩
      simp [hsel s hs i hi, CandidatePlan.lookups]
  | union lookups =>
    rw [hpl] at hn
    have he : ∀ merged : List SegmentStatsHint, some [] = some merged → t.ActiveHints merged := by
      rintro merged ⟨⟩
      exact fun _ hm ↦ by cases hm
    obtain ⟨united, hu, hnone, hsome⟩ := unionLookups_spec t.paths_nodup hn he
    refine ⟨united, hu, ?_, ?_⟩
    · intro hu' s i
      rcases hnone hu' with hc | ⟨lookup, hlk, hkp⟩
      · cases hc
      · exact .inr ⟨lookup, hlk, hkp s i⟩
    · intro hints hhs
      obtain ⟨merged, hmg, ha, hsel⟩ := hsome hints hhs
      cases hmg
      refine ⟨ha, fun s hs i hi ↦ ?_⟩
      rw [hsel s hs i hi]
      simp [Selects, CandidatePlan.lookups]

omit [DecidableEq V] [DecidableEq T] in
theorem validatePrunePredicatesIndexed_retained (disjoint : Bool)
    (predicates : List (PrunePredicate V)) :
    t.validatePrunePredicatesIndexed
      (t.retainPreMergeColdPrunePredicates disjoint predicates) = .ok () := by
  have hi : ∀ p ∈ t.retainPreMergeColdPrunePredicates disjoint predicates,
      p.columnId ∈ t.indexedFilterColumnIds := by
    intro p hp
    obtain ⟨policy, ho, ha⟩ := (Option.any_eq_true _ _).1 (mem_filter.1 hp).2
    obtain ⟨column, hc, rfl⟩ := Option.map_eq_some_iff.1 ho
    have hid : column.columnId = p.columnId := by simpa using find?_some hc
    by_contra hn
    rw [if_neg fun h ↦ hn h.2] at ha
    simp only [indexedFilterColumnIds, mem_append, Option.mem_toList] at hn
    simp only [ColdPruneColumnPolicy.allowsPredicate, coldPruneColumnPolicy, hid, Bool.and_eq_true,
      Bool.or_eq_true, decide_eq_true_eq] at ha
    tauto
  generalize t.retainPreMergeColdPrunePredicates disjoint predicates = retained at hi
  induction retained with
  | nil => rfl
  | cons p retained ih =>
    rw [forall_mem_cons] at hi
    rw [validatePrunePredicatesIndexed, if_neg (not_not.2 hi.1), ih hi.2]

end PruneTable

namespace PruneQuery

variable {K V T B S : Type*} [DecidableEq V] [DecidableEq T] [LinearOrder B]
  {t : PruneTable K V T B S} {s : ColdSegment} {i : ℕ}

/-- No filter excludes row group `i` of a segment. -/
def KeepsRowGroup (q : PruneQuery t) (s : ColdSegment) (i : ℕ) : Prop :=
  t.inScope q.scopes s = true ∧ t.PlanKeeps q.retained s i

/-- **Planning succeeds, and selects the row groups that no filter excludes.** -/
theorem planColdSegments_spec (q : PruneQuery t) :
    ∃ hints, q.planColdSegments = .ok hints ∧ t.ActiveHints hints ∧
      ∀ s ∈ t.segments, ∀ i < s.rowGroupCount, (Selects hints s i ↔ q.KeepsRowGroup s i) := by
  have hty : ∀ p ∈ q.retained, t.Typed p := fun p hp ↦ q.typed p (mem_of_mem_filter hp)
  obtain ⟨candidates, hcs, hnone, hsome⟩ := PruneTable.resolveSegmentIndexCandidates_spec hty
  have hv : t.validatePrunePredicatesIndexed q.retained = .ok () :=
    PruneTable.validatePrunePredicatesIndexed_retained _ _
  refine ⟨_, by rw [planColdSegments, hv, hcs]; rfl, ?_, ?_⟩
  · intro hint hhi
    have hhi := mem_of_mem_filter hhi
    cases candidates with
    | none =>
      obtain ⟨s, hs, rfl⟩ := mem_map.1 hhi
      exact hs
    | some hints => exact (hsome hints rfl).1 hint hhi
  · intro s hs i hi
    have ha : Selects (candidates.getD (t.segments.map fun s ↦ ⟨s, none⟩)) s i ↔
        t.PlanKeeps q.retained s i := by
      cases candidates with
      | none =>
        refine ⟨fun _ ↦ hnone rfl s i, fun _ ↦ ?_⟩
        refine ⟨⟨s, none⟩, mem_map.2 ⟨s, hs, rfl⟩, rfl, ?_⟩
        simpa [effective] using hi
      | some hints => exact (hsome hints rfl).2 s hs i hi
    rw [KeepsRowGroup, ← ha]
    simp only [Selects, mem_filter]
    constructor
    · rintro ⟨hint, ⟨hhi, hsc⟩, rfl, hmem⟩
      exact ⟨hsc, hint, hhi, rfl, hmem⟩
    · rintro ⟨hsc, hint, hhi, rfl, hmem⟩
      exact ⟨hint, ⟨hhi, hsc⟩, rfl, hmem⟩

end PruneQuery

end Koldstore
