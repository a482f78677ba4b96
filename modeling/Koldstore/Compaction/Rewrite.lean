import Koldstore.Compaction.Table
import Koldstore.Merge.PrimaryKey
import Koldstore.SortKey.Encode

/-!
# What compaction leaves visible

A rewrite keeps the newest version of each key **text** in its unit and, where `drop_markers_in`
allows it, drops the delete markers among them. A scan merges by a key's value (`mergeKey`). So a
marker may go only if the live versions it masks go with it, that is, if they are in the unit and
under the marker's text (`keepsVisible_compactUnit`). The planner gives the first for keys of one
scope, since a unit has every segment of its group that may share a key with it.
-/

namespace Koldstore.Compaction

open List MergeGroups PrimaryKey

section Visible

variable {K V M : Type*} [DecidableEq M] (mergeKey : K → M)

def toMergeRow (r : Feed.ColdRow K V) : MergeGroups.MergeRow M V :=
  ⟨mergeKey r.pk, r.seq.toNat, r.deleted, r.image⟩

def toMergeSegment (s : Feed.ColdSegment K V) : MergeGroups.ColdSegment M V :=
  ⟨s.objectPath, s.minSeq.toNat, s.maxSeq.toNat, s.rows.map (toMergeRow mergeKey)⟩

def visible (hot : List (MergeGroups.MergeRow M V)) (feed : Feed.ChangeFeed K V) :
    Option (List (MergeGroups.Candidate M V)) :=
  (groupSegmentsNewestFirst (feed.active.map (toMergeSegment mergeKey))).toOption.bind
    fun groups ↦ (streamWinners 0 hot groups).toOption

def activeRows (feed : Feed.ChangeFeed K V) : List (Feed.ColdRow K V) :=
  feed.active.flatMap Feed.ColdSegment.rows

def Newest (rows : List (Feed.ColdRow K V)) (r : Feed.ColdRow K V) : Prop :=
  r ∈ rows ∧ ∀ r' ∈ rows, mergeKey r'.pk = mergeKey r.pk → r'.seq ≤ r.seq

variable {feed feed' : Feed.ChangeFeed K V} {hot : List (MergeGroups.MergeRow M V)}
  {r r' : Feed.ColdRow K V}

omit [DecidableEq M] in
theorem nodup_activeRows (feed : Feed.ChangeFeed K V) :
    ((activeRows feed).map fun r ↦ r.seq).Nodup := by
  have h := (nodup_append.1 feed.seq_nodup).2.1
  rw [flatMap_append, map_append] at h
  exact (nodup_append.1 h).1

theorem eq_of_seq_eq (hr : r ∈ activeRows feed) (hr' : r' ∈ activeRows feed) (h : r.seq = r'.seq) :
    r = r' :=
  inj_on_of_nodup_map (nodup_activeRows feed) hr hr' h

theorem seq_pos (hr : r ∈ activeRows feed) : 0 < r.seq := by
  obtain ⟨s, hs, hr⟩ := mem_flatMap.1 hr
  exact feed.cold_pos s (mem_append_left _ hs) r hr

theorem exists_newest {rows : List (Feed.ColdRow K V)} (hr : r ∈ rows) :
    ∃ w, Newest mergeKey rows w ∧ mergeKey w.pk = mergeKey r.pk := by
  obtain ⟨w, hw⟩ : ∃ w, Winners.newest (fun r : Feed.ColdRow K V ↦ mergeKey r.pk) (fun r ↦ r.seq)
      (mergeKey r.pk) rows = some w := Winners.exists_newest hr rfl
  have hmem := Winners.mem_of_newest_eq hw
  refine ⟨w, ⟨hmem.1, fun r' hr' hk ↦ ?_⟩, hmem.2⟩
  have hle := Winners.rank_le_of_newest_eq hw hr'
  exact hle (hk.trans hmem.2)

def scanGroups (feed : Feed.ChangeFeed K V) : List (List (MergeGroups.ColdSegment M V)) :=
  groupLoop (Keyset.ordered newestFirstKey
    (feed.active.map (toMergeSegment mergeKey))) [] none

def scannedRows (feed : Feed.ChangeFeed K V) : List (MergeGroups.MergeRow M V) :=
  groupRows (scanGroups mergeKey feed).flatten

variable {mergeKey}

omit [DecidableEq M] in
theorem mem_flatten_scanGroups {s : MergeGroups.ColdSegment M V} :
    s ∈ (scanGroups mergeKey feed).flatten ↔ ∃ t ∈ feed.active, toMergeSegment mergeKey t = s := by
  have ho := Keyset.perm_ordered newestFirstKey
    (feed.active.map (toMergeSegment mergeKey))
  rw [scanGroups, flatten_groupLoop, nil_append, ho.mem_iff, mem_map]

omit [DecidableEq M] in
theorem mem_scannedRows {row : MergeGroups.MergeRow M V} :
    row ∈ scannedRows mergeKey feed ↔ ∃ r ∈ activeRows feed, toMergeRow mergeKey r = row := by
  rw [scannedRows, mem_groupRows]
  simp only [mem_flatten_scanGroups, activeRows, mem_flatMap]
  constructor
  · rintro ⟨-, ⟨s, hs, rfl⟩, hrow⟩
    obtain ⟨r, hr, rfl⟩ := mem_map.1 hrow
    exact ⟨r, ⟨s, hs, hr⟩, rfl⟩
  · rintro ⟨r, ⟨s, hs, hr⟩, rfl⟩
    exact ⟨_, ⟨s, hs, rfl⟩, mem_map_of_mem hr⟩

theorem newest_scannedRows {c : MergeGroups.Candidate M V} :
    Winners.newest (fun c : MergeGroups.Candidate M V ↦ c.pk) (fun c ↦ c.seq) c.pk
        (candidates .cold (scannedRows mergeKey feed)) = some c ↔
      ∃ r, Newest mergeKey (activeRows feed) r ∧ c = ⟨toMergeRow mergeKey r, .cold⟩ := by
  have hmem : ∀ c : MergeGroups.Candidate M V,
      c ∈ candidates .cold (scannedRows mergeKey feed) ↔
        ∃ r ∈ activeRows feed, c = ⟨toMergeRow mergeKey r, .cold⟩ := by
    rintro ⟨row, source⟩
    rw [mem_candidates, mem_scannedRows]
    simp only [MergeGroups.Candidate.mk.injEq, eq_comm (b := row)]
    tauto
  have hs : ∀ r ∈ activeRows feed, ∀ r' ∈ activeRows feed,
      r.seq.toNat ≤ r'.seq.toNat ↔ r.seq ≤ r'.seq := by
    intro r hr r' hr'
    have h := seq_pos hr
    have h' := seq_pos hr'
    omega
  rw [Winners.newest_eq_some_iff]
  · constructor
    · rintro ⟨hc, -, hm⟩
      obtain ⟨r, hr, rfl⟩ := (hmem c).1 hc
      refine ⟨r, ⟨hr, fun r' hr' hk ↦ ?_⟩, rfl⟩
      exact (hs r' hr' r hr).1 (hm _ ((hmem _).2 ⟨r', hr', rfl⟩) hk)
    · rintro ⟨r, ⟨hr, hm⟩, rfl⟩
      refine ⟨(hmem _).2 ⟨r, hr, rfl⟩, rfl, fun a ha hk ↦ ?_⟩
      obtain ⟨r', hr', rfl⟩ := (hmem a).1 ha
      exact (hs r' hr' r hr).2 (hm r' hr' hk)
  · intro a ha b hb _ _ hab
    obtain ⟨r, hr, rfl⟩ := (hmem a).1 ha
    obtain ⟨r', hr', rfl⟩ := (hmem b).1 hb
    obtain rfl := eq_of_seq_eq hr hr' (le_antisymm ((hs r hr r' hr').1 (le_of_eq hab))
      ((hs r' hr' r hr).1 (ge_of_eq hab)))
    rfl

theorem exists_visible (mergeKey : K → M) (hot : List (MergeGroups.MergeRow M V))
    (feed : Feed.ChangeFeed K V) :
    ∃ rows, visible mergeKey hot feed = some rows ∧ rows.Nodup ∧ ∀ c, c ∈ rows ↔
      c.deleted = false ∧
        (Winners.newest (fun c : MergeGroups.Candidate M V ↦ c.pk) (fun c ↦ c.seq) c.pk
            (candidates .hot hot) = some c ∨ (∀ h ∈ hot, h.pk ≠ c.pk) ∧
            ∃ r, Newest mergeKey (activeRows feed) r ∧ c = ⟨toMergeRow mergeKey r, .cold⟩) := by
  have hrs : ∀ s ∈ (scanGroups mergeKey feed).flatten, ∀ r ∈ s.rows,
      s.minSeq ≤ r.seq ∧ r.seq ≤ s.maxSeq := by
    intro s hs row hrow
    obtain ⟨t, ht, rfl⟩ := mem_flatten_scanGroups.1 hs
    obtain ⟨r, hr, rfl⟩ := mem_map.1 hrow
    exact ⟨Int.toNat_le_toNat (t.minSeq_le r hr), Int.toNat_le_toNat (t.le_maxSeq r hr)⟩
  have hn : ∀ s ∈ feed.active.map (toMergeSegment mergeKey), s.minSeq ≤ s.maxSeq := by
    intro s hs
    obtain ⟨t, ht, rfl⟩ := mem_map.1 hs
    obtain ⟨r, hr, hm⟩ := t.exists_minSeq
    exact Int.toNat_le_toNat (hm ▸ t.le_maxSeq r hr)
  refine ⟨emitted [] (scanBatches hot (scanGroups mergeKey feed)), ?_,
    (nodup_emitted [] _).of_map, fun c ↦ ?_⟩
  · rw [visible, groupSegmentsNewestFirst_eq_ok hn]
    show (streamWinners 0 hot (scanGroups mergeKey feed)).toOption = _
    rw [streamWinners_uncapped]
    rfl
  · have he : MergeGroups.Separated (scanGroups mergeKey feed) :=
      separated_groups hn
    rw [mem_emitted_scanBatches he hrs]
    refine and_congr_right fun _ ↦ ?_
    cases ho : Winners.newest (fun c : MergeGroups.Candidate M V ↦ c.pk) (fun c ↦ c.seq) c.pk
        (candidates .hot hot) with
    | none =>
      have hk : ∀ h ∈ hot, h.pk ≠ c.pk := fun h hh ↦ Winners.newest_eq_none_iff.1 ho
        ⟨h, .hot⟩ (mem_candidates.2 ⟨hh, rfl⟩)
      rw [Option.none_or, ← scannedRows, newest_scannedRows]
      simp only [reduceCtorEq, false_or, and_iff_right hk]
    | some w =>
      obtain ⟨hw, hpk⟩ := Winners.mem_of_newest_eq ho
      have hk : ¬ ∀ h ∈ hot, h.pk ≠ c.pk :=
        fun hne ↦ hne _ (mem_candidates.1 hw).1 hpk
      simp only [Option.some_or, hk, false_and, or_false]

def KeepsVisible (mergeKey : K → M) (feed feed' : Feed.ChangeFeed K V) : Prop :=
  ∀ hot, ∃ rows rows', visible mergeKey hot feed = some rows ∧
    visible mergeKey hot feed' = some rows' ∧ rows.Perm rows'

theorem keepsVisible_of_newest (h : ∀ r : Feed.ColdRow K V, r.deleted = false →
      (Newest mergeKey (activeRows feed) r ↔ Newest mergeKey (activeRows feed') r)) :
    KeepsVisible mergeKey feed feed' := by
  intro hot
  obtain ⟨rows, hv, hnd, hmem⟩ := exists_visible mergeKey hot feed
  obtain ⟨rows', hv', hnd', hmem'⟩ := exists_visible mergeKey hot feed'
  refine ⟨rows, rows', hv, hv', (perm_ext_iff_of_nodup hnd hnd').2 ?_⟩
  intro c
  rw [hmem, hmem']
  refine and_congr_right fun hlv ↦ or_congr_right (and_congr_right fun _ ↦ ?_)
  refine exists_congr fun r ↦ and_congr_left fun heq ↦ h r ?_
  rw [heq] at hlv
  exact hlv

end Visible

section Unit

variable {K V M B : Type*} [DecidableEq K] [DecidableEq M] [LinearOrder B]
  (u : Feed.CompactionUnit K V B) (feed : Feed.ChangeFeed K V) {mergeKey : K → M}
  {r : Feed.ColdRow K V}

def otherRows : List (Feed.ColdRow K V) :=
  (feed.active.filter fun s ↦ !u.member s).flatMap Feed.ColdSegment.rows

variable {u feed}

omit [DecidableEq K] in
theorem perm_activeRows : (u.rows feed ++ otherRows u feed).Perm (activeRows feed) := by
  have hp : (u.members feed ++ feed.active.filter fun s ↦ !u.member s).Perm feed.active :=
    filter_append_perm _ _
  rw [Feed.CompactionUnit.rows, otherRows, ← flatMap_append]
  exact hp.flatMap_right Feed.ColdSegment.rows

omit [DecidableEq K] in
theorem mem_activeRows_iff : r ∈ activeRows feed ↔ r ∈ otherRows u feed ∨ r ∈ u.rows feed := by
  rw [← (perm_activeRows (u := u)).mem_iff, mem_append, or_comm]

omit [DecidableEq K] in
theorem not_mem_otherRows (hr : r ∈ u.rows feed) : r ∉ otherRows u feed := by
  have hnd := ((perm_activeRows (u := u)).map fun r ↦ r.seq).nodup_iff.2 (nodup_activeRows feed)
  exact fun ho ↦ disjoint_of_nodup_append hnd.of_map hr ho

theorem mem_activeRows_compactUnit : r ∈ activeRows (Feed.compactUnit u feed) ↔
    r ∈ otherRows u feed ∨ r ∈ u.rows feed ∧ ¬u.Loses feed r := by
  rw [Feed.compactUnit]
  split_ifs with hg
  · -- A rewrite that is not published would have kept every version.
    rw [mem_activeRows_iff (u := u)]
    exact or_congr_right (iff_self_and.2 fun hr ↦ u.not_loses_of_withoutGain hg hr)
  · obtain ⟨dropped, hs⟩ := u.splits_batches feed
    show r ∈ (u.active feed).flatMap Feed.ColdSegment.rows ↔ _
    rw [Feed.CompactionUnit.active, flatMap_append, mem_append,
      (u.rows_encode_batches feed Feed.ResolvedRows.kept).mem_iff]
    exact or_congr_right hs.mem_kept_iff

omit [DecidableEq K] [DecidableEq M] in
theorem Newest.not_superseded (h : Newest mergeKey (activeRows feed) r) :
    ¬Feed.Superseded (u.rows feed) r := by
  rintro ⟨r', hr', hpk, hlt⟩
  have hle := h.2 r' (mem_activeRows_iff.2 (.inr hr')) (by rw [hpk])
  omega

/-- **What a rewrite shows** does not change if the versions that a dropped marker masks are in the
unit, under the marker's text. -/
theorem keepsVisible_compactUnit (h : u.dropMarkers = true → ∀ m ∈ u.rows feed, m.deleted = true →
      ∀ r ∈ activeRows feed, r.deleted = false → mergeKey r.pk = mergeKey m.pk →
        r ∈ u.rows feed ∧ r.pk = m.pk) :
    KeepsVisible mergeKey feed (Feed.compactUnit u feed) := by
  have hs : ∀ r ∈ activeRows (Feed.compactUnit u feed), r ∈ activeRows feed := fun r hr ↦
    mem_activeRows_iff.2 ((mem_activeRows_compactUnit.1 hr).imp_right And.left)
  refine keepsVisible_of_newest fun r hlv ↦ ⟨fun hn ↦ ?_, fun ha ↦ ?_⟩
  · refine ⟨mem_activeRows_compactUnit.2 ?_, fun r' hr' ↦ hn.2 r' (hs r' hr')⟩
    refine (mem_activeRows_iff.1 hn.1).imp_right fun hr ↦ ⟨hr, ?_⟩
    rintro (hu | ⟨-, he⟩)
    · exact hn.not_superseded hu
    · simp [hlv] at he
  · obtain ⟨w, hw, hwkey⟩ := exists_newest mergeKey (hs r ha.1)
    have hle : r.seq ≤ w.seq := hw.2 r (hs r ha.1) hwkey.symm
    by_cases hwafter : w ∈ activeRows (Feed.compactUnit u feed)
    · have hge := ha.2 w hwafter hwkey
      rwa [eq_of_seq_eq (hs r ha.1) hw.1 (le_antisymm hle hge)]
    · -- The newest version is gone, so it was a marker of the unit, and it supersedes `r` there.
      rw [mem_activeRows_compactUnit, not_or, not_and, not_not] at hwafter
      have hwmem := (mem_activeRows_iff.1 hw.1).resolve_left hwafter.1
      obtain ⟨hdr, hd⟩ := (hwafter.2 hwmem).resolve_left hw.not_superseded
      obtain ⟨hr, hpk⟩ := h hdr w hwmem hd r (hs r ha.1) hlv hwkey.symm
      have hlt : r.seq < w.seq := by
        refine lt_of_le_of_ne hle fun heq ↦ ?_
        obtain rfl := eq_of_seq_eq (hs r ha.1) hw.1 heq
        simp [hlv] at hd
      rcases mem_activeRows_compactUnit.1 ha.1 with ho | ⟨-, hkept⟩
      · exact absurd ho (not_mem_otherRows hr)
      · exact absurd (.inl ⟨w, hwmem, hpk.symm, hlt⟩) hkept

end Unit

section Pass

variable {K V M B : Type*} [LinearOrder B] {t : CompactionTable K V B} {mergeKey : K → M}
  {auto : Bool} {maxRows : ℤ} {p : PlannedUnit K V B} {r : Feed.ColdRow K V}

/-- What a rewrite depends on besides the plan. -/
structure RewriteOptions (K V B : Type*) [LinearOrder B] where
  boundaries : List B
  retainFrom : ℤ
  encoder : Feed.SegmentEncoder K V
  sorted : boundaries.Pairwise (· ≤ ·)

def CompactionTable.rewrite (t : CompactionTable K V B) (p : PlannedUnit K V B)
    (o : RewriteOptions K V B) : Feed.CompactionUnit K V B where
  member s := p.members.any fun l ↦ decide (l.segment.objectPath = s.objectPath)
  lead key := (t.cells key).headD (t.tuple key)
  boundaries := if p.streamed then o.boundaries else []
  dropMarkers := p.dropMarkers
  retainFrom := o.retainFrom
  stableRewrite := t.stableRewrite p.exactTuples
  maxRowsPerFile := t.maxRowsPerFile
  encoder := o.encoder
  sorted := by
    split_ifs
    · exact o.sorted
    · exact List.Pairwise.nil

theorem mem_plannedUnits_of_mem_selectedUnits (hp : p ∈ t.selectedUnits auto maxRows) :
    p ∈ t.plannedUnits auto maxRows :=
  CompactionTable.withinBudget_subset _ _ _ hp

theorem mem_rows_rewrite (hp : p ∈ t.plannedUnits auto maxRows) {o : RewriteOptions K V B}
    {l : ListedSegment K V B} (hl : l ∈ p.members) (hr : r ∈ l.segment.rows) :
    r ∈ (t.rewrite p o).rows t.feed := by
  have hls := (CompactionTable.mem_listed_of_mem_members hp hl).1
  refine mem_flatMap.2 ⟨l.segment, mem_filter.2 ⟨t.perm_active.mem_iff.1 (mem_map_of_mem hls), ?_⟩,
    hr⟩
  exact any_eq_true.2 ⟨l, hl, decide_eq_true rfl⟩

theorem exists_of_mem_rows_rewrite (hp : p ∈ t.plannedUnits auto maxRows)
    {o : RewriteOptions K V B} (hr : r ∈ (t.rewrite p o).rows t.feed) :
    ∃ l ∈ p.members, r ∈ l.segment.rows := by
  obtain ⟨s, hs, hr⟩ := mem_flatMap.1 hr
  obtain ⟨hs, hm⟩ := mem_filter.1 hs
  obtain ⟨l, hl, hpath⟩ := any_eq_true.1 hm
  have hls := (CompactionTable.mem_listed_of_mem_members hp hl).1
  have heq := inj_on_of_nodup_map t.paths_nodup (t.perm_active.mem_iff.1 (mem_map_of_mem hls)) hs
    (of_decide_eq_true hpath)
  exact ⟨l, hl, heq ▸ hr⟩

/-- Versions of one merge key have one text and are not in segments of two scopes; a segment without
a scope may hold some of them. -/
def OneTextOneScope (t : CompactionTable K V B) (mergeKey : K → M) : Prop :=
  ∀ s ∈ t.listed, ∀ r ∈ s.segment.rows, ∀ s' ∈ t.listed, ∀ r' ∈ s'.segment.rows,
    mergeKey r.pk = mergeKey r'.pk → r.pk = r'.pk ∧
      (s.scopeId = s'.scopeId ∨ s.scopeId = none ∨ s'.scopeId = none)

/-- `drop_markers_in` drops in no group of a table that has segments with and without a scope. -/
theorem scopeId_eq_of_dropMarkersIn {s s' : ListedSegment K V B}
    (h : t.dropMarkersIn s.scopeId = true) (hs : s ∈ t.listed) (hs' : s' ∈ t.listed)
    (hsc : s'.scopeId = s.scopeId ∨ s'.scopeId = none ∨ s.scopeId = none) :
    s'.scopeId = s.scopeId := by
  rw [CompactionTable.dropMarkersIn, Bool.or_eq_true, Bool.and_eq_true, Bool.not_eq_true',
    Bool.not_eq_true', CompactionTable.tableHasScoped, CompactionTable.tableWidePresent,
    any_eq_false, any_eq_false] at h
  rcases h with h | ⟨hsome, h⟩
  · have hn := h s hs
    have hn' := h s' hs'
    rw [Option.not_isSome_iff_eq_none] at hn hn'
    rw [hn, hn']
  · have hn := h s hs
    have hn' := h s' hs'
    rw [Option.isNone_iff_eq_none] at hn hn'
    exact hsc.resolve_right (not_or.2 ⟨hn', hn⟩)

variable [DecidableEq K] [DecidableEq M]

/-- **A pass leaves every scan as it was**, unit by unit, if a merge key has one text and one
scope. -/
theorem compactUnit_keepsVisible (t : CompactionTable K V B) (mergeKey : K → M) {auto : Bool}
    {maxRows : ℤ} {p : PlannedUnit K V B} (hp : p ∈ t.selectedUnits auto maxRows)
    (hone : OneTextOneScope t mergeKey) (o : RewriteOptions K V B) :
    KeepsVisible mergeKey t.feed (Feed.compactUnit (t.rewrite p o) t.feed) := by
  have hpu := mem_plannedUnits_of_mem_selectedUnits hp
  refine keepsVisible_compactUnit fun hdr m hm _ r hr _ hk ↦ ?_
  obtain ⟨l, hl, hml⟩ := exists_of_mem_rows_rewrite hpu hm
  obtain ⟨hls, hlsc⟩ := CompactionTable.mem_listed_of_mem_members hpu hl
  obtain ⟨segment, hseg, hrs⟩ := mem_flatMap.1 hr
  obtain ⟨s, hs, rfl⟩ := mem_map.1 (t.perm_active.mem_iff.2 hseg)
  obtain ⟨hpk, hsc⟩ := hone s hs r hrs l hls m hml hk
  have hdrop : t.dropMarkersIn l.scopeId = true := by
    obtain ⟨-, scope, streamed, unit, -, rfl⟩ := CompactionTable.exists_unit_of_mem hpu
    exact hlsc ▸ hdr
  have hsame := scopeId_eq_of_dropMarkersIn hdrop hls hs hsc
  have hmem := CompactionTable.mem_members_of_sortKey_eq hpu hl hs (hsame.trans hlsc) hml hrs
    (by rw [hpk]) (by rw [hpk])
  exact ⟨mem_rows_rewrite hpu hmem hrs, hpk⟩

end Pass

section Numbers

def singleVersion (path : String) (r : Feed.ColdRow NumericText Unit) :
    Feed.ColdSegment NumericText Unit :=
  ⟨path, r.seq, r.seq, [r], by simp, by simp, by simp⟩

/-- The number `1`, stored with seq 1. -/
def storedOne : Feed.ColdRow NumericText Unit := ⟨⟨1, .insert, .decimal (.unsigned 1 [])⟩, ()⟩

/-- A delete marker of the same number, with some zeros after the point. -/
def deletedOne (fraction : List (Fin 10)) : Feed.ColdRow NumericText Unit :=
  ⟨⟨2, .delete, .decimal (.unsigned 1 fraction)⟩, ()⟩

def numericSortKey (s : NumericText) : SortKey.Bytes :=
  (SortKey.encodeNumericKey s.text).toOption.getD []

def oneSortKey : SortKey.Bytes := [0x30, 0x80, 0, 0, 1, 2, 0]

theorem numericSortKey_storedOne : numericSortKey storedOne.pk = oneSortKey := by decide +kernel

def listedOne (path : String) (r : Feed.ColdRow NumericText Unit) :
    ListedSegment NumericText Unit SortKey.Bytes :=
  ⟨singleVersion path r, 1, some [(oneSortKey, oneSortKey)], none, none⟩

/-- A table that held the number `1`, which has been deleted. -/
def deletedTable (fraction : List (Fin 10))
    (hone : numericSortKey (deletedOne fraction).pk = oneSortKey) :
    CompactionTable NumericText Unit SortKey.Bytes where
  feed :=
    { hot := []
      active := [singleVersion "a" storedOne, singleVersion "b" (deletedOne fraction)]
      history := []
      historyFloor := 0
      hot_pos := by simp
      cold_pos := by simp [singleVersion, storedOne, deletedOne]
      seq_nodup := by simp [singleVersion, storedOne, deletedOne]
      historyFloor_nonneg := Feed.Example.zero_nonneg }
  listed := [listedOne "a" storedOne, listedOne "b" (deletedOne fraction)]
  keyColumns := 1
  orderedByKey := true
  maxRowsPerFile := 100
  cells s := [numericSortKey s]
  tuple := numericSortKey
  keyColumns_pos := Nat.one_pos
  perm_active := .rfl
  paths_nodup := by simp [singleVersion]
  sorted := by simp [listedOne]
  length_bounds := by simp [listedOne]
  mem_bounds := by simp [listedOne, singleVersion, numericSortKey_storedOne, hone]
  mem_tupleBounds := by simp [listedOne]

/-- The marker has the text of the row. -/
def oneTable : CompactionTable NumericText Unit SortKey.Bytes :=
  deletedTable [] (by decide +kernel)

/-- The marker has the text `1.0`. -/
def pointZeroTable : CompactionTable NumericText Unit SortKey.Bytes :=
  deletedTable [0] (by decide +kernel)

theorem sorted_nil : ([] : List SortKey.Bytes).Pairwise (· ≤ ·) := List.Pairwise.nil

def plainRewrite : RewriteOptions NumericText Unit SortKey.Bytes where
  boundaries := []
  retainFrom := 100
  encoder :=
    { encode := fun rows ↦ rows.map (singleVersion "c")
      rows_encode := fun rows ↦ by
        rw [flatMap_map]
        exact List.Perm.of_eq (flatMap_singleton' rows) }
  sorted := sorted_nil

def bothSegments (t : CompactionTable NumericText Unit SortKey.Bytes) :
    PlannedUnit NumericText Unit SortKey.Bytes :=
  ⟨⟨[0, 1], 2, true⟩, t.listed, none, false, false, true⟩

/-- The row and its marker go together. -/
theorem compactUnit_keepsVisible_one :
    KeepsVisible pkValue oneTable.feed (Feed.compactUnit
      (oneTable.rewrite (bothSegments oneTable) plainRewrite) oneTable.feed) ∧
    activeRows (Feed.compactUnit
      (oneTable.rewrite (bothSegments oneTable) plainRewrite) oneTable.feed) = [] := by
  have hsel : oneTable.selectedUnits false 1000 = [bothSegments oneTable] := rfl
  refine ⟨compactUnit_keepsVisible oneTable pkValue (hsel ▸ mem_singleton_self _) ?_
    plainRewrite, by decide +kernel⟩
  have hpk : ∀ s ∈ oneTable.listed, ∀ r ∈ s.segment.rows,
      r.pk = storedOne.pk ∧ s.scopeId = none := by
    decide +kernel
  intro s hs r hr s' hs' r' hr' _
  exact ⟨(hpk s hs r hr).1.trans (hpk s' hs' r' hr').1.symm, .inr (.inl (hpk s hs r hr).2)⟩

/-- **A deleted row comes back**: its marker, under another text of the number, goes alone. -/
theorem deleted_one_comes_back :
    bothSegments pointZeroTable ∈ pointZeroTable.selectedUnits false 1000 ∧
    visible pkValue [] pointZeroTable.feed = some [] ∧
    visible pkValue [] (Feed.compactUnit
      (pointZeroTable.rewrite (bothSegments pointZeroTable) plainRewrite) pointZeroTable.feed) =
        some [⟨toMergeRow pkValue storedOne, .cold⟩] := by
  have hsel : pointZeroTable.selectedUnits false 1000 = [bothSegments pointZeroTable] := rfl
  exact ⟨hsel ▸ mem_singleton_self _, by decide +kernel, by decide +kernel⟩

end Numbers

end Koldstore.Compaction
