import Koldstore.Feed.Since
import Koldstore.Feed.Versions

/-!
# Compaction and the change feed

Compaction rewrites a group of active segments, a *unit*, so that each key has one version in it
again.
-/

namespace Koldstore.Feed

open List

variable {K V B : Type*}

/-! ### Units -/

structure SegmentEncoder (K V : Type*) where
  encode : List (ColdRow K V) → List (ColdSegment K V)
  rows_encode : ∀ rows, ((encode rows).flatMap ColdSegment.rows).Perm rows

structure CompactionUnit (K V B : Type*) [LinearOrder B] where
  member : ColdSegment K V → Bool
  lead : K → B
  boundaries : List B
  dropMarkers : Bool
  retainFrom : ℤ
  stableRewrite : Bool
  maxRowsPerFile : ℕ
  encoder : SegmentEncoder K V
  sorted : boundaries.Pairwise (· ≤ ·)

namespace CompactionUnit

variable [DecidableEq K] [LinearOrder B] (u : CompactionUnit K V B) (feed : ChangeFeed K V)

def members : List (ColdSegment K V) := feed.active.filter u.member

def rows : List (ColdRow K V) := (u.members feed).flatMap ColdSegment.rows

def batches : List (ResolvedRows K V) := (slices u.lead (u.rows feed) none u.boundaries).map
    (resolveVersions · u.dropMarkers u.retainFrom)

def withoutGain : Bool := u.boundaries.isEmpty && !u.stableRewrite &&
    decide (((u.batches feed).map fun b ↦ b.kept.length).sum = (u.rows feed).length) &&
    decide ((u.members feed).length ≤
      (((u.batches feed).map fun b ↦ b.kept.length).sum + max u.maxRowsPerFile 1 - 1) /
        max u.maxRowsPerFile 1)

def active : List (ColdSegment K V) := (feed.active.filter fun s ↦ !u.member s) ++
    (u.batches feed).flatMap fun b ↦ u.encoder.encode b.kept

def history : List (ColdSegment K V) :=
  feed.history ++ (u.batches feed).flatMap fun b ↦ u.encoder.encode b.history

def floor : ℤ := ((u.batches feed).map ResolvedRows.historyFloor).foldr max 0

def Loses (r : ColdRow K V) : Prop := Superseded (u.rows feed) r ∨ u.dropMarkers ∧ r.deleted

omit [DecidableEq K] in
theorem nodup_rows : ((u.rows feed).map fun r ↦ r.seq).Nodup := by
  refine (nodup_rows_seq feed).sublist (List.Sublist.map _ ?_)
  refine List.Sublist.flatMap ?_ _
  exact filter_sublist.trans (sublist_append_left _ _)

theorem splits_batches : ∃ dropped, Splits u.retainFrom (u.Loses feed) (u.rows feed)
    ⟨(u.batches feed).flatMap ResolvedRows.kept, (u.batches feed).flatMap ResolvedRows.history,
      u.floor feed⟩ dropped := by
  have ha : ∀ batches : List (List (ColdRow K V)),
      (∀ batch ∈ batches, ∃ lo hi, batch = slice u.lead lo hi (u.rows feed)) →
        ∃ dropped, Splits u.retainFrom (u.Loses feed) batches.flatten
          ⟨(batches.map (resolveVersions · u.dropMarkers u.retainFrom)).flatMap ResolvedRows.kept,
            (batches.map (resolveVersions · u.dropMarkers u.retainFrom)).flatMap
              ResolvedRows.history,
            ((batches.map (resolveVersions · u.dropMarkers u.retainFrom)).map
              ResolvedRows.historyFloor).foldr max 0⟩ dropped := by
    intro batches
    induction batches with
    | nil =>
      exact fun _ ↦ ⟨[], ⟨.rfl, (fun _ h ↦ nomatch h), (fun _ h ↦ nomatch h), fun _ h ↦ nomatch h⟩⟩
    | cons batch batches ih =>
      intro hl
      obtain ⟨dropped, hre⟩ := ih fun b hb ↦ hl b (mem_cons_of_mem _ hb)
      obtain ⟨lo, hi, rfl⟩ := hl batch mem_cons_self
      obtain ⟨dropped', hbt⟩ := resolveVersions_splits
        ((nodup_rows u feed).sublist (filter_sublist.map _)) u.dropMarkers u.retainFrom
      exact ⟨_, (hbt.congr fun r hr ↦ or_congr_left (superseded_slice_iff hr)).append hre⟩
  obtain ⟨dropped, hs⟩ := ha _ fun batch hbt ↦ exists_slice_of_mem_slices hbt
  have hf : (slices u.lead (u.rows feed) none u.boundaries).flatten.Perm _ :=
    slices_flatten_perm u.sorted (fun _ h ↦ nomatch h)
  exact ⟨dropped, hs.of_perm
    (hf.trans (List.Perm.of_eq (filter_eq_self.2 fun r _ ↦ rfl)))⟩

theorem rows_encode_batches (part : ResolvedRows K V → List (ColdRow K V)) :
    (((u.batches feed).flatMap fun b ↦ u.encoder.encode (part b)).flatMap ColdSegment.rows).Perm
      ((u.batches feed).flatMap part) := by
  rw [flatMap_assoc]
  exact List.Perm.flatMap_left _ fun b _ ↦ u.encoder.rows_encode (part b)

end CompactionUnit

/-! ### Publishing -/

structure Drops (feed : ChangeFeed K V) (active history : List (ColdSegment K V)) (floor : ℤ)
    (dropped : List (ColdRow K V)) : Prop where
  perm : ((active ++ history).flatMap ColdSegment.rows ++ dropped).Perm
    (feed.segments.flatMap ColdSegment.rows)
  le_floor : ∀ r ∈ dropped, r.seq ≤ floor

def ChangeFeed.publish (feed : ChangeFeed K V) (active history : List (ColdSegment K V)) (floor : ℤ)
    (h : ∃ dropped, Drops feed active history floor dropped) : ChangeFeed K V where
  hot := feed.hot
  active := active
  history := history
  historyFloor := max feed.historyFloor floor
  hot_pos := feed.hot_pos
  cold_pos := by
    obtain ⟨dropped, h⟩ := h
    intro s hs r hr
    have hmem := h.perm.mem_iff.1 (mem_append_left _ (mem_flatMap.2 ⟨s, hs, hr⟩))
    obtain ⟨s', hs', hr'⟩ := mem_flatMap.1 hmem
    exact feed.cold_pos s' hs' r hr'
  seq_nodup := by
    obtain ⟨dropped, h⟩ := h
    have hperm := (h.perm.map fun r ↦ r.seq).append_left (feed.hot.map LogRow.seq)
    refine (hperm.nodup_iff.2 feed.seq_nodup).sublist ?_
    rw [map_append]
    exact (sublist_append_left _ _).append_left _
  historyFloor_nonneg := feed.historyFloor_nonneg.trans (le_max_left _ _)

section Compact

variable [DecidableEq K] [LinearOrder B]

theorem CompactionUnit.drops (u : CompactionUnit K V B) (feed : ChangeFeed K V) :
    ∃ dropped, Drops feed (u.active feed) (u.history feed) (u.floor feed) dropped := by
  obtain ⟨dropped, hs⟩ := u.splits_batches feed
  refine ⟨dropped, ?_, fun r hr ↦ (hs.dropped r hr).2.2⟩
  have ha : (u.members feed ++ feed.active.filter fun s ↦ !u.member s).Perm feed.active :=
    filter_append_perm _ _
  have hactiveRows := ha.flatMap_right ColdSegment.rows
  classical
  rw [perm_iff_count]
  intro r
  have hkt := (u.rows_encode_batches feed ResolvedRows.kept).count_eq r
  have hh := (u.rows_encode_batches feed ResolvedRows.history).count_eq r
  have hrs := hs.perm.count_eq r
  have hc := hactiveRows.count_eq r
  simp only [ChangeFeed.segments, CompactionUnit.active, CompactionUnit.history,
    CompactionUnit.rows, flatMap_append, count_append] at hkt hh hrs hc ⊢
  omega

def compactUnit (u : CompactionUnit K V B) (feed : ChangeFeed K V) : ChangeFeed K V :=
  if u.withoutGain feed then feed
  else feed.publish (u.active feed) (u.history feed) (u.floor feed) (u.drops feed)

end Compact

structure HistoryPurge (K V : Type*) where
  horizon : ℤ
  deletes : ColdSegment K V → Bool

variable {s : ColdSegment K V}

namespace HistoryPurge

variable (p : HistoryPurge K V) (feed : ChangeFeed K V)

def due : List (ColdSegment K V) := feed.history.filter fun s ↦ decide (s.maxSeq < p.horizon)

def floor : ℤ := ((p.due feed).map ColdSegment.maxSeq).foldr max 0

def history : List (ColdSegment K V) :=
  feed.history.filter fun s ↦ !(decide (s.maxSeq < p.horizon) && p.deletes s)

theorem le_floor (hs : s ∈ p.due feed) : s.maxSeq ≤ p.floor feed := by
  have hle : ∀ (l : List ℤ) (a : ℤ), a ∈ l → a ≤ l.foldr max 0 := by
    intro l a ha
    induction l with
    | nil => exact nomatch ha
    | cons b l ih =>
      rcases mem_cons.1 ha with rfl | ha
      · exact le_max_left _ _
      · exact (ih ha).trans (le_max_right _ _)
  exact hle _ _ (mem_map_of_mem hs)

theorem drops : ∃ dropped, Drops feed feed.active (p.history feed) (p.floor feed) dropped := by
  refine ⟨(feed.history.filter fun s ↦ decide (s.maxSeq < p.horizon) && p.deletes s).flatMap
    ColdSegment.rows, ?_, fun r hr ↦ ?_⟩
  · rw [ChangeFeed.segments, flatMap_append, flatMap_append, List.append_assoc, ← flatMap_append]
    refine List.Perm.append_left _ (List.Perm.flatMap_right _ ?_)
    exact perm_append_comm.trans (filter_append_perm _ _)
  · obtain ⟨s, hs, hr⟩ := mem_flatMap.1 hr
    obtain ⟨hs, hd⟩ := mem_filter.1 hs
    have hmem : s ∈ p.due feed := mem_filter.2 ⟨hs, (Bool.and_eq_true_iff.1 hd).1⟩
    exact (s.le_maxSeq r hr).trans (p.le_floor feed hmem)

end HistoryPurge

def purgeHistorySegments (p : HistoryPurge K V) (feed : ChangeFeed K V) : ChangeFeed K V :=
  feed.publish feed.active (p.history feed) (p.floor feed) (p.drops feed)

inductive CompactionStep (K V B : Type*) [LinearOrder B]
  | unit (u : CompactionUnit K V B)
  | purge (p : HistoryPurge K V)

def CompactionStep.apply [DecidableEq K] [LinearOrder B] :
    CompactionStep K V B → ChangeFeed K V → ChangeFeed K V
  | unit u, feed => compactUnit u feed
  | purge p, feed => purgeHistorySegments p feed

def CompactionStep.Survives [DecidableEq K] [LinearOrder B] (feed : ChangeFeed K V)
    (s : ColdSegment K V) (r : ColdRow K V) : CompactionStep K V B → Prop
  | unit u => s ∉ u.members feed ∨ u.retainFrom ≤ r.seq ∨ ¬u.Loses feed r
  | purge p => s ∉ p.due feed ∨ p.deletes s = false

section Survivors

variable [DecidableEq K] [LinearOrder B]

variable {r : ColdRow K V}

theorem CompactionUnit.not_loses_of_withoutGain {u : CompactionUnit K V B} {feed : ChangeFeed K V}
    (h : u.withoutGain feed) (hr : r ∈ u.rows feed) : ¬u.Loses feed r := by
  obtain ⟨dropped, hs⟩ := u.splits_batches feed
  have hl : ((u.batches feed).flatMap ResolvedRows.kept).length = (u.rows feed).length := by
    simp only [CompactionUnit.withoutGain, Bool.and_eq_true, decide_eq_true_eq] at h
    rw [length_flatMap]
    exact h.1.2
  have hp : ((u.batches feed).flatMap ResolvedRows.kept ++
      (u.batches feed).flatMap ResolvedRows.history ++ dropped).Perm (u.rows feed) := hs.perm
  rw [List.append_assoc] at hp
  have hn : (u.batches feed).flatMap ResolvedRows.history ++ dropped = [] := by
    have hu := hp.length_eq
    rw [length_append] at hu
    exact eq_nil_of_length_eq_zero (by omega)
  rw [hn, append_nil] at hp
  exact hs.kept r (hp.mem_iff.2 hr)

omit [DecidableEq K] in
theorem ChangeFeed.not_mem_history (feed : ChangeFeed K V) (hs : s ∈ feed.active) :
    s ∉ feed.history := by
  intro hh
  have hnd := nodup_rows_seq feed
  rw [ChangeFeed.segments, flatMap_append, map_append, nodup_append] at hnd
  obtain ⟨r, hr, -⟩ := s.exists_minSeq
  have hmem : ∀ segments : List (ColdSegment K V), s ∈ segments →
      r.seq ∈ (segments.flatMap ColdSegment.rows).map fun r ↦ r.seq :=
    fun segments h ↦ mem_map.2 ⟨r, mem_flatMap.2 ⟨s, h, hr⟩, rfl⟩
  exact hnd.2.2 _ (hmem _ hs) _ (hmem _ hh) rfl

theorem CompactionUnit.mem_segments_publish (u : CompactionUnit K V B) (feed : ChangeFeed K V) :
    (∃ s ∈ u.active feed ++ u.history feed, r ∈ s.rows) ↔
      (∃ s ∈ feed.segments, s ∉ u.members feed ∧ r ∈ s.rows) ∨
        r ∈ u.rows feed ∧ (u.retainFrom ≤ r.seq ∨ ¬u.Loses feed r) := by
  obtain ⟨dropped, hspl⟩ := u.splits_batches feed
  have he : ∀ part, (∃ s ∈ (u.batches feed).flatMap fun b ↦ u.encoder.encode (part b),
      r ∈ s.rows) ↔ r ∈ (u.batches feed).flatMap part := fun part ↦ by
    rw [← mem_flatMap]
    exact (u.rows_encode_batches feed part).mem_iff
  have hun : r ∈ (u.batches feed).flatMap ResolvedRows.kept ∨
      r ∈ (u.batches feed).flatMap ResolvedRows.history ↔
        r ∈ u.rows feed ∧ (u.retainFrom ≤ r.seq ∨ ¬u.Loses feed r) := by
    rw [← mem_append]
    exact hspl.mem_iff
  have ho : (∃ s ∈ feed.segments, s ∉ u.members feed ∧ r ∈ s.rows) ↔
      (∃ s ∈ feed.active.filter fun s ↦ !u.member s, r ∈ s.rows) ∨
        ∃ s ∈ feed.history, r ∈ s.rows := by
    constructor
    · rintro ⟨s, hs, hm, hr⟩
      rcases mem_append.1 hs with hs | hs
      · refine .inl ⟨s, mem_filter.2 ⟨hs, ?_⟩, hr⟩
        by_contra hn
        exact hm (mem_filter.2 ⟨hs, by simpa using hn⟩)
      · exact .inr ⟨s, hs, hr⟩
    · rintro (⟨s, hs, hr⟩ | ⟨s, hs, hr⟩)
      · obtain ⟨hs, hm⟩ := mem_filter.1 hs
        refine ⟨s, mem_append_left _ hs, fun hmem ↦ ?_, hr⟩
        simp [(mem_filter.1 hmem).2] at hm
      · exact ⟨s, mem_append_right _ hs,
          fun hmem ↦ feed.not_mem_history (mem_of_mem_filter hmem) hs, hr⟩
  have hp : ∀ l m : List (ColdSegment K V), (∃ s ∈ l ++ m, r ∈ s.rows) ↔
      (∃ s ∈ l, r ∈ s.rows) ∨ ∃ s ∈ m, r ∈ s.rows := fun l m ↦ by
    simp only [mem_append, or_and_right, exists_or]
  rw [ho, ← hun, ← he, ← he, hp, CompactionUnit.active, CompactionUnit.history, hp, hp]
  exact or_or_or_comm

theorem CompactionStep.mem_segments_apply (step : CompactionStep K V B) (feed : ChangeFeed K V)
    (r : ColdRow K V) : (∃ s ∈ (step.apply feed).segments, r ∈ s.rows) ↔
      ∃ s ∈ feed.segments, r ∈ s.rows ∧ step.Survives feed s r := by
  cases step with
  | unit u =>
    show (∃ s ∈ (compactUnit u feed).segments, r ∈ s.rows) ↔ ∃ s ∈ feed.segments, r ∈ s.rows ∧
      (s ∉ u.members feed ∨ u.retainFrom ≤ r.seq ∨ ¬u.Loses feed r)
    have hrs : ∀ s ∈ u.members feed, r ∈ s.rows → r ∈ u.rows feed :=
      fun s hs hr ↦ mem_flatMap.2 ⟨s, hs, hr⟩
    cases hg : u.withoutGain feed with
    | true =>
      rw [compactUnit, if_pos hg]
      constructor
      · rintro ⟨s, hs, hr⟩
        refine ⟨s, hs, hr, or_iff_not_imp_left.2 fun hmem ↦ .inr ?_⟩
        exact u.not_loses_of_withoutGain hg (hrs s (not_not.1 hmem) hr)
      · rintro ⟨s, hs, hr, -⟩
        exact ⟨s, hs, hr⟩
    | false =>
      rw [compactUnit, if_neg (by simp [hg])]
      refine (u.mem_segments_publish feed).trans ?_
      constructor
      · rintro (⟨s, hs, hmem, hr⟩ | ⟨hr, ht⟩)
        · exact ⟨s, hs, hr, .inl hmem⟩
        · obtain ⟨s, hs, hr⟩ := mem_flatMap.1 hr
          exact ⟨s, mem_append_left _ (mem_of_mem_filter hs), hr, .inr ht⟩
      · rintro ⟨s, hs, hr, hsv⟩
        by_cases hmem : s ∈ u.members feed
        · exact .inr ⟨hrs s hmem hr, hsv.resolve_left (not_not.2 hmem)⟩
        · exact .inl ⟨s, hs, hmem, hr⟩
  | purge p =>
    show (∃ s ∈ feed.active ++ p.history feed, r ∈ s.rows) ↔ ∃ s ∈ feed.active ++ feed.history,
      r ∈ s.rows ∧ (s ∉ p.due feed ∨ p.deletes s = false)
    have ht : ∀ s ∈ feed.history, s ∈ p.history feed ↔ s ∉ p.due feed ∨ p.deletes s = false := by
      intro s hs
      simp only [HistoryPurge.history, HistoryPurge.due, mem_filter, hs, true_and,
        Bool.not_eq_true', Bool.and_eq_false_iff, decide_eq_false_iff_not, decide_eq_true_eq]
    constructor
    · rintro ⟨s, hs, hr⟩
      rcases mem_append.1 hs with hs | hs
      · exact ⟨s, mem_append_left _ hs, hr,
          .inl fun hd ↦ feed.not_mem_history hs (mem_of_mem_filter hd)⟩
      · have hs' : s ∈ feed.history := mem_of_mem_filter hs
        exact ⟨s, mem_append_right _ hs', hr, (ht s hs').1 hs⟩
    · rintro ⟨s, hs, hr, hsv⟩
      rcases mem_append.1 hs with hs | hs
      · exact ⟨s, mem_append_left _ hs, hr⟩
      · exact ⟨s, mem_append_right _ ((ht s hs).2 hsv), hr⟩

end Survivors

end Koldstore.Feed
