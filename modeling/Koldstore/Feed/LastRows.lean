import Koldstore.Feed.Since

/-!
# The rewind: `last_rows`

`changes_since(last_rows => n)` should report the `n` newest changes. The rewind takes the newest
hot rows and then walks the active segments by descending `max_seq`, of each the last `n` rows as
they are stored, until it holds `n`. What it leaves out has `n` newer changes if segments are stored
by seq, have disjoint ranges and are all older than the hot rows (`BySeq`).
-/

namespace Koldstore.Feed

open List Keyset

variable {K S V : Type*} [DecidableEq S]

def segmentChanges (targets : ChangeFeedTargets K S) (segment : ColdSegment K V) :
    List (MirrorChange K S V) :=
  (segment.rows.filter fun r ↦ targets.visible r.pk).map (coldRowToMirrorChange targets)

/-- The changes that the walk passes over. -/
def passedOver (targets : ChangeFeedTargets K S) (lastRows : ℕ) :
    ℕ → List (ColdSegment K V) → List (MirrorChange K S V)
  | _, [] => []
  | held, segment :: rest =>
    if lastRows ≤ held then segmentChanges targets segment ++ passedOver targets lastRows held rest
    else
      (segmentChanges targets segment).take ((segmentChanges targets segment).length - lastRows) ++
        passedOver targets lastRows
          (held + min lastRows (segmentChanges targets segment).length) rest

def missed (feed : ChangeFeed K V) (targets : ChangeFeedTargets K S) (lastRows : ℕ) :
    List (MirrorChange K S V) :=
  passedOver targets lastRows (min lastRows (hotRows feed targets).length)
      (ordered ColdSegment.rewindKey feed.active) ++
    feed.history.flatMap (segmentChanges targets)

variable {feed : ChangeFeed K V} {targets : ChangeFeedTargets K S} {lastRows : ℕ}

/-! ### The tail of a segment -/

theorem foldl_pushWindow (rows : List (ColdRow K V)) {window : List (MirrorChange K S V)}
    (hw : window.length ≤ lastRows) :
    rows.foldl (pushWindow targets lastRows) window = (window ++
        (rows.filter fun r ↦ targets.visible r.pk).map (coldRowToMirrorChange targets)).drop
        (window.length + (rows.filter fun r ↦ targets.visible r.pk).length - lastRows) := by
  induction rows generalizing window with
  | nil =>
    have hz : window.length + 0 - lastRows = 0 := by omega
    rw [filter_nil, length_nil, hz, drop_zero, map_nil, append_nil, foldl_nil]
  | cons r rows ih =>
    rw [foldl_cons, pushWindow, inScope_coldRowToMirrorChange]
    cases hv : targets.visible r.pk with
    | false =>
      rw [filter_cons_of_neg (by simp [hv])]
      exact ih hw
    | true =>
      rw [filter_cons_of_pos (by simp [hv]), map_cons, length_cons]
      show rows.foldl _ (if lastRows < _ then _ else _) = _
      split
      · -- the oldest row of the window goes
        rename_i hov
        have hl : (window ++ [coldRowToMirrorChange targets r]).tail.length ≤ lastRows := by
          simpa using hw
        rw [ih hl, ← drop_one, ← drop_append_of_le_length (by simp), drop_drop]
        simp only [length_append, length_drop, length_singleton, List.append_assoc,
          singleton_append] at hov ⊢
        congr 1
        omega
      · rename_i hft
        rw [ih (not_lt.1 hft), List.append_assoc]
        simp only [length_append, length_singleton, singleton_append]
        congr 1
        omega

theorem readColdSegmentNewestWindow_eq (targets : ChangeFeedTargets K S) (lastRows : ℕ)
    (segment : ColdSegment K V) :
    readColdSegmentNewestWindow targets segment lastRows = (segmentChanges targets segment).drop
        ((segmentChanges targets segment).length - lastRows) := by
  rw [readColdSegmentNewestWindow, foldl_pushWindow _ (Nat.zero_le _), segmentChanges,
    length_map, nil_append, length_nil, Nat.zero_add]

/-! ### The newest changes of what is held -/

def Tagged (targets : ChangeFeedTargets K S) (change : MirrorChange K S V) : Prop :=
  change.tableOid = targets.tableOid ∧ change.scopeKey = targets.scopeKey

variable {change : MirrorChange K S V}

theorem tagged_of_mem_segmentChanges {segment : ColdSegment K V}
    (h : change ∈ segmentChanges targets segment) : Tagged targets change := by
  obtain ⟨r, hr, rfl⟩ := mem_map.1 h
  have hv := (mem_filter.1 hr).2
  refine ⟨rfl, ?_⟩
  cases hsc : targets.scope with
  | none => simp [coldRowToMirrorChange, ChangeFeedTargets.scopeKey, hsc]
  | some scope =>
    simpa [ChangeFeedTargets.visible, coldRowToMirrorChange, ChangeFeedTargets.scopeKey, hsc]
      using hv

theorem changesLast_eq {changes : List (MirrorChange K S V)} (h : ∀ c ∈ changes, Tagged targets c) :
    changesLast changes targets lastRows = largest MirrorChange.seq lastRows changes := by
  have ha : changes.filter (fun change ↦ decide (change.tableOid = targets.tableOid) &&
      decide (change.scopeKey = targets.scopeKey)) = changes :=
    filter_eq_self.2 fun c hc ↦ by simp [(h c hc).1, (h c hc).2]
  rw [changesLast, ha, largest, (perm_ordered _ _).length_eq]

/-! ### The walk -/

theorem passedOver_of_le {held : ℕ} (h : lastRows ≤ held) (segments : List (ColdSegment K V)) :
    passedOver targets lastRows held segments = segments.flatMap (segmentChanges targets) := by
  induction segments with
  | nil => rfl
  | cons segment rest ih => rw [passedOver, if_pos h, ih, flatMap_cons]

theorem fillFromCold_perm {hot : List (MirrorChange K S V)} (hh : ∀ c ∈ hot, Tagged targets c)
    {segments : List (ColdSegment K V)} {coldAcc : List (MirrorChange K S V)}
    (ha : ∀ c ∈ coldAcc, Tagged targets c) :
    (∀ c ∈ fillFromCold targets hot lastRows segments coldAcc, Tagged targets c) ∧
      (fillFromCold targets hot lastRows segments coldAcc ++
        passedOver targets lastRows (coldAcc.length + hot.length) segments).Perm
          (coldAcc ++ segments.flatMap (segmentChanges targets)) := by
  induction segments generalizing coldAcc with
  | nil => exact ⟨ha, .rfl⟩
  | cons segment rest ih =>
    have ht : ∀ c ∈ coldAcc ++ hot, Tagged targets c := fun c hc ↦
      (mem_append.1 hc).elim (ha c) (hh c)
    rw [fillFromCold, changesLast_eq ht, length_largest, length_append]
    split
    · rename_i hfu
      rw [passedOver_of_le (hfu.trans (min_le_right _ _))]
      exact ⟨ha, .rfl⟩
    · rename_i hm
      have hhe : ¬lastRows ≤ coldAcc.length + hot.length := fun h ↦ hm (le_min le_rfl h)
      have hw := readColdSegmentNewestWindow_eq targets lastRows segment
      have ht' : ∀ c ∈ coldAcc ++ readColdSegmentNewestWindow targets segment lastRows,
          Tagged targets c := by
        intro c hc
        rcases mem_append.1 hc with hc | hc
        · exact ha c hc
        · rw [hw] at hc
          exact tagged_of_mem_segmentChanges (mem_of_mem_drop hc)
      have hl : (coldAcc ++ readColdSegmentNewestWindow targets segment lastRows).length +
          hot.length = coldAcc.length + hot.length +
            min lastRows (segmentChanges targets segment).length := by
        rw [hw, length_append, length_drop]
        omega
      obtain ⟨htags, hp⟩ := ih ht'
      rw [hl] at hp
      refine ⟨htags, ?_⟩
      rw [passedOver, if_neg hhe, flatMap_cons]
      refine (perm_append_comm_assoc _ _ _).trans ((hp.append_left _).trans ?_)
      rw [List.append_assoc]
      refine (perm_append_comm_assoc _ _ _).trans (List.Perm.append_left _ ?_)
      rw [hw, ← List.append_assoc, take_append_drop]

/-! ### The rewind -/

theorem coldChanges_eq_flatMap :
    coldChanges feed targets = feed.segments.flatMap (segmentChanges targets) := by
  rw [coldChanges, filter_flatMap, map_flatMap]
  rfl

theorem nodup_allChanges : ((allChanges feed targets).map MirrorChange.seq).Nodup := by
  have hp := nodup_append.1 feed.seq_nodup
  rw [allChanges, map_append, nodup_append, map_map]
  refine ⟨nodup_coldChanges, nodup_hotRows, ?_⟩
  intro a ha b hb heq
  obtain ⟨change, hc, rfl⟩ := mem_map.1 ha
  obtain ⟨segment, hs, r, hr, -, rfl⟩ := mem_coldChanges.1 hc
  obtain ⟨h, hh, rfl⟩ := mem_map.1 hb
  refine hp.2.2 h.seq (mem_map_of_mem (mem_hotRows.1 hh).1) r.seq ?_ heq.symm
  exact mem_map.2 ⟨r, mem_flatMap.2 ⟨segment, hs, hr⟩, rfl⟩

theorem tagged_fetchHotMirrorLastRows :
    ∀ c ∈ (fetchHotMirrorLastRows feed targets lastRows : List (MirrorChange K S V)),
      Tagged targets c := by
  intro c hc
  obtain ⟨r, -, rfl⟩ := mem_map.1 hc
  exact ⟨rfl, rfl⟩

theorem fetchLastRowsPage_eq : fetchLastRowsPage feed targets lastRows =
      largest MirrorChange.seq lastRows
        (fillFromCold targets (fetchHotMirrorLastRows feed targets lastRows) lastRows
            (ordered ColdSegment.rewindKey feed.active) [] ++
          fetchHotMirrorLastRows feed targets lastRows) := by
  have hh : ∀ c ∈ (fetchHotMirrorLastRows feed targets lastRows : List (MirrorChange K S V)),
      Tagged targets c := tagged_fetchHotMirrorLastRows
  rw [fetchLastRowsPage]
  generalize fetchHotMirrorLastRows feed targets lastRows = hot at hh ⊢
  generalize hordered : ordered ColdSegment.rewindKey feed.active = ordered
  have hw : (∀ c ∈ fillFromCold targets hot lastRows ordered [], Tagged targets c) ∧ _ :=
    fillFromCold_perm hh (fun _ h ↦ nomatch h)
  have hf : ∀ c ∈ fillFromCold targets hot lastRows ordered [] ++ hot, Tagged targets c :=
    fun c hc ↦ (mem_append.1 hc).elim (hw.1 c) (hh c)
  show (if _ then _ else if _ then _ else _) = _
  split
  · rename_i hfu
    have hn : fillFromCold targets hot lastRows ordered [] = [] := by
      cases ordered with
      | nil => rfl
      | cons segment rest =>
        rw [fillFromCold, nil_append, changesLast_eq hh, length_largest, if_pos (le_min le_rfl hfu)]
    rw [hn, nil_append, changesLast_eq hh]
  · split
    · rename_i he
      rw [List.isEmpty_iff.1 he] at hordered
      rw [← hordered]
      exact changesLast_eq hh
    · exact changesLast_eq hf

def olderHot (feed : ChangeFeed K V) (targets : ChangeFeedTargets K S) (lastRows : ℕ) :
    List (MirrorChange K S V) :=
  ((ordered (fun r ↦ OrderDual.toDual r.seq) (hotRows feed targets)).drop lastRows).map
    (decodeHotMirrorTuple targets)

theorem hotRows_perm (feed : ChangeFeed K V) (targets : ChangeFeedTargets K S) (lastRows : ℕ) :
    (fetchHotMirrorLastRows feed targets lastRows ++ olderHot feed targets lastRows).Perm
      ((hotRows feed targets).map (decodeHotMirrorTuple targets : _ → MirrorChange K S V)) := by
  rw [fetchHotMirrorLastRows, olderHot, ← map_append, smallest]
  show (List.map _ (List.take lastRows (ordered _ (hotRows feed targets)) ++ _)).Perm _
  rw [take_append_drop]
  exact (perm_ordered _ _).map _

theorem length_fetchHotMirrorLastRows :
    (fetchHotMirrorLastRows feed targets lastRows : List (MirrorChange K S V)).length =
      min lastRows (hotRows feed targets).length := by
  rw [fetchHotMirrorLastRows, length_map, length_smallest]
  rfl

theorem le_countP_of_mem_olderHot (h : change ∈ olderHot feed targets lastRows) :
    lastRows ≤ (fetchHotMirrorLastRows feed targets lastRows).countP
      fun other : MirrorChange K S V ↦ change.seq < other.seq := by
  obtain ⟨r, hr, rfl⟩ := mem_map.1 h
  have hnd : ((hotRows feed targets).map fun r ↦ OrderDual.toDual r.seq).Nodup := by
    have hs : ((hotRows feed targets).map LogRow.seq).Nodup := nodup_hotRows
    have hd := hs.map OrderDual.toDual.injective
    rwa [map_map] at hd
  have hso := increasingBy_ordered hnd
  rw [← take_append_drop lastRows (ordered _ _), List.IncreasingBy, pairwise_append] at hso
  have hl : lastRows < (hotRows feed targets).length := by
    have := length_pos_of_mem hr
    rw [length_drop, (perm_ordered _ _).length_eq] at this
    omega
  have ha : ∀ other ∈ (fetchHotMirrorLastRows feed targets lastRows : List (MirrorChange K S V)),
      decide (r.seq < other.seq) = true := by
    intro other ho
    obtain ⟨r', hr', rfl⟩ := mem_map.1 ho
    exact decide_eq_true (OrderDual.toDual_lt_toDual.1 (hso.2.2 r' hr' r hr))
  show lastRows ≤ (fetchHotMirrorLastRows feed targets lastRows).countP
    fun other : MirrorChange K S V ↦ decide (r.seq < other.seq)
  rw [countP_eq_length.2 ha, length_fetchHotMirrorLastRows]
  omega

theorem allChanges_perm (feed : ChangeFeed K V) (targets : ChangeFeedTargets K S) (lastRows : ℕ) :
    (fillFromCold targets (fetchHotMirrorLastRows feed targets lastRows) lastRows
          (ordered ColdSegment.rewindKey feed.active) [] ++
        fetchHotMirrorLastRows feed targets lastRows ++
      (missed feed targets lastRows ++ olderHot feed targets lastRows)).Perm
        (allChanges feed targets) := by
  have hh : ∀ c ∈ (fetchHotMirrorLastRows feed targets lastRows : List (MirrorChange K S V)),
      Tagged targets c := tagged_fetchHotMirrorLastRows
  have hnone : ∀ c ∈ ([] : List (MirrorChange K S V)), Tagged targets c := fun _ h ↦ nomatch h
  have hw : (fillFromCold targets (fetchHotMirrorLastRows feed targets lastRows) lastRows
        (ordered ColdSegment.rewindKey feed.active) [] ++
      passedOver targets lastRows
        (0 + (fetchHotMirrorLastRows feed targets lastRows : List (MirrorChange K S V)).length)
        (ordered ColdSegment.rewindKey feed.active)).Perm
      ([] ++ (ordered ColdSegment.rewindKey feed.active).flatMap (segmentChanges targets)) :=
    (fillFromCold_perm hh hnone).2
  rw [Nat.zero_add, length_fetchHotMirrorLastRows, nil_append] at hw
  have ha : ((ordered ColdSegment.rewindKey feed.active).flatMap
      (segmentChanges targets)).Perm (feed.active.flatMap (segmentChanges targets)) :=
    (perm_ordered _ _).flatMap_right _
  classical
  rw [perm_iff_count]
  intro c
  have h₁ := (hw.trans ha).count_eq c
  have h₂ := (hotRows_perm feed targets lastRows).count_eq c
  rw [allChanges, coldChanges_eq_flatMap, ChangeFeed.segments, flatMap_append]
  simp only [missed, count_append] at h₁ h₂ ⊢
  omega

/-- `last_rows => n` reports the `n` newest changes, oldest first, exactly when every change that
the walk passes over has `n` newer ones. -/
theorem lastRows_eq_iff_missed (feed : ChangeFeed K V) (targets : ChangeFeedTargets K S) (n : ℕ)
    (hn : 0 < n) (limitRows : Option ℤ) (hlimit : (n : ℤ) ≤ limitRows.getD defaultChangeLimit) :
    changesSincePgImpl feed targets 0 limitRows (some n) =
        .ok (largest MirrorChange.seq n (allChanges feed targets)) ↔
      ∀ change ∈ missed feed targets n,
        n ≤ (allChanges feed targets).countP fun other ↦ change.seq < other.seq := by
  have he : changesSincePgImpl feed targets 0 limitRows (some n) =
      .ok (fetchLastRowsPage feed targets n) := by
    have h₁ : ¬limitRows.getD defaultChangeLimit ≤ 0 := by omega
    have h₂ : ¬(n : ℤ) ≤ 0 := by omega
    have h₃ : ¬limitRows.getD defaultChangeLimit < n := by omega
    simp only [changesSincePgImpl, Option.any_some, lt_irrefl, h₁, h₂, h₃, decide_false, if_false,
      false_and, if_true, Bool.false_eq_true, Int.toNat_natCast]
  have hp := allChanges_perm feed targets n
  have hnd := (hp.map MirrorChange.seq).nodup_iff.2 nodup_allChanges
  rw [he, Except.ok.injEq, fetchLastRowsPage_eq, ← largest_eq_of_perm hp hnd,
    largest_eq_largest_append_iff hnd]
  simp only [hp.countP_eq]
  constructor
  · exact fun h change hc ↦ h change (mem_append_left _ hc)
  · intro h change hc
    rcases mem_append.1 hc with hc | hc
    · exact h change hc
    · -- the mirror rows left out are the oldest
      refine (le_countP_of_mem_olderHot hc).trans ?_
      rw [← hp.countP_eq, countP_append, countP_append]
      omega

/-! ### Stores in the order of their changes -/

/-- Active segments are stored by seq, have disjoint ranges and are older than the hot rows, and no
segment is history. -/
structure BySeq (feed : ChangeFeed K V) : Prop where
  rows : ∀ s ∈ feed.active, s.rows.Pairwise fun r r' ↦ r.seq < r'.seq
  ranges : feed.active.Pairwise fun s t ↦ s.maxSeq < t.minSeq ∨ t.maxSeq < s.minSeq
  hot : ∀ h ∈ feed.hot, ∀ s ∈ feed.active, s.maxSeq < h.seq
  history : feed.history = []

omit [DecidableEq S] in
theorem length_le_countP {newer all : List (MirrorChange K S V)} (hsub : newer.Subperm all)
    (h : ∀ a ∈ newer, change.seq < a.seq) :
    newer.length ≤ all.countP fun other ↦ change.seq < other.seq := by
  rw [← countP_eq_length.2 fun a ha ↦ decide_eq_true (h a ha)]
  exact hsub.countP_le _

/-- What the walk passes over is older than `held` changes `above`, or than the end of its
segment. -/
theorem le_countP_of_mem_passedOver {all above : List (MirrorChange K S V)} {held : ℕ}
    {segments : List (ColdSegment K V)}
    (hsub : (above ++ segments.flatMap (segmentChanges targets)).Subperm all)
    (habove : ∀ a ∈ above, ∀ b ∈ segments.flatMap (segmentChanges targets), b.seq < a.seq)
    (hrows : ∀ s ∈ segments, (segmentChanges targets s).Pairwise fun a b ↦ a.seq < b.seq)
    (hord : segments.Pairwise fun s t ↦ ∀ a ∈ segmentChanges targets s,
      ∀ b ∈ segmentChanges targets t, b.seq < a.seq)
    (hheld : held ≤ above.length) (hc : change ∈ passedOver targets lastRows held segments) :
    lastRows ≤ all.countP fun other ↦ change.seq < other.seq := by
  induction segments generalizing above held with
  | nil => cases hc
  | cons segment rest ih =>
    obtain ⟨hr, hrest⟩ := forall_mem_cons.1 hrows
    obtain ⟨ho, horest⟩ := pairwise_cons.1 hord
    by_cases hfull : lastRows ≤ held
    · rw [passedOver_of_le hfull] at hc
      exact (hfull.trans hheld).trans (length_le_countP
        ((sublist_append_left _ _).subperm.trans hsub) fun a ha ↦ habove a ha change hc)
    rw [passedOver, if_neg hfull] at hc
    rw [flatMap_cons] at hsub habove
    rcases mem_append.1 hc with hc | hc
    · -- the rows stored behind are newer
      set l := segmentChanges targets segment
      have hlen := length_pos_of_mem hc
      rw [length_take] at hlen
      rw [← take_append_drop (l.length - lastRows) l, pairwise_append] at hr
      have hback : (l.drop (l.length - lastRows)).Subperm all :=
        ((drop_sublist _ l).trans ((sublist_append_left l _).trans
          (sublist_append_right _ _))).subperm.trans hsub
      have hle := length_le_countP hback fun a ha ↦ hr.2.2 change hc a ha
      rw [length_drop] at hle
      omega
    · rw [← List.append_assoc] at hsub
      refine ih hsub (fun a ha b hb ↦ ?_) hrest horest ?_ hc
      · rcases mem_append.1 ha with ha | ha
        · exact habove a ha b (mem_append_right _ hb)
        · obtain ⟨t, ht, hb⟩ := mem_flatMap.1 hb
          exact ho t ht a ha b hb
      · rw [length_append]
        omega

namespace BySeq

variable {segment other : ColdSegment K V}

theorem exists_row (h : change ∈ segmentChanges targets segment) :
    ∃ r ∈ segment.rows, r.seq = change.seq := by
  obtain ⟨r, hr, rfl⟩ := mem_map.1 h
  exact ⟨r, (mem_filter.1 hr).1, rfl⟩

theorem pairwise_segmentChanges (h : BySeq feed) (hs : segment ∈ feed.active) :
    (segmentChanges targets segment).Pairwise fun a b ↦ a.seq < b.seq :=
  pairwise_map.2 ((h.rows segment hs).sublist filter_sublist)

/-- Of two segments the one that is read first has the newer changes. -/
theorem pairwise_ordered (h : BySeq feed) (targets : ChangeFeedTargets K S) :
    (ordered ColdSegment.rewindKey feed.active).Pairwise fun s t ↦
      ∀ a ∈ segmentChanges targets s, ∀ b ∈ segmentChanges targets t, b.seq < a.seq := by
  have hdis := (perm_ordered ColdSegment.rewindKey feed.active).symm.pairwise h.ranges
    fun hst ↦ hst.symm
  refine (hdis.and (Keyset.pairwise_ordered ColdSegment.rewindKey feed.active)).imp ?_
  rintro s t ⟨hst, hkey⟩ a ha b hb
  obtain ⟨r, hr, hra⟩ := exists_row ha
  obtain ⟨r', hr', hrb⟩ := exists_row hb
  have hmax : t.maxSeq ≤ s.maxSeq := (Prod.Lex.monotone_fst _ _ (OrderDual.toDual_le_toDual.1 hkey))
  have h₁ := s.minSeq_le r hr
  have h₂ := s.le_maxSeq r hr
  have h₃ := t.minSeq_le r' hr'
  have h₄ := t.le_maxSeq r' hr'
  omega

/-- **The rewind** of a store in the order of its changes reports the `n` newest, oldest first. -/
theorem lastRows_eq (h : BySeq feed) (targets : ChangeFeedTargets K S) {n : ℕ} (hn : 0 < n)
    {limitRows : Option ℤ} (hlimit : (n : ℤ) ≤ limitRows.getD defaultChangeLimit) :
    changesSincePgImpl feed targets 0 limitRows (some n) =
      .ok (largest MirrorChange.seq n (allChanges feed targets)) := by
  refine (lastRows_eq_iff_missed feed targets n hn limitRows hlimit).2 fun change hc ↦ ?_
  rw [missed, h.history, flatMap_nil, append_nil] at hc
  have hp := perm_ordered ColdSegment.rewindKey feed.active
  have hsub : ((hotRows feed targets).map (decodeHotMirrorTuple targets) ++
      (ordered ColdSegment.rewindKey feed.active).flatMap (segmentChanges targets)).Subperm
        (allChanges feed targets) := by
    rw [allChanges, coldChanges_eq_flatMap, ChangeFeed.segments, h.history, append_nil]
    exact (perm_append_comm.trans ((hp.flatMap_right _).append_right _)).subperm
  refine le_countP_of_mem_passedOver hsub ?_
    (fun s hs ↦ h.pairwise_segmentChanges (hp.mem_iff.1 hs)) (h.pairwise_ordered targets) ?_ hc
  · intro a ha b hb
    obtain ⟨r, hr, rfl⟩ := mem_map.1 ha
    obtain ⟨s, hs, hb⟩ := mem_flatMap.1 hb
    obtain ⟨r', hr', hrb⟩ := exists_row hb
    have hlt : s.maxSeq < r.seq := h.hot r (mem_hotRows.1 hr).1 s (hp.mem_iff.1 hs)
    rw [← hrb]
    exact (s.le_maxSeq r' hr').trans_lt hlt
  · rw [length_map]
    exact min_le_right _ _

end BySeq

namespace Example

/-- Two segments in the order of their changes below one hot row. -/
def bySeq : ChangeFeed ℤ ℤ where
  hot := [row 14]
  active := [⟨"a", 10, 11, [⟨⟨10, .insert, 1⟩, 0⟩, ⟨⟨11, .insert, 2⟩, 0⟩], by decide, by decide,
    by decide⟩, ⟨"b", 12, 13, [⟨⟨12, .update, 1⟩, 0⟩, ⟨⟨13, .delete, 2⟩, 0⟩], by decide, by decide,
    by decide⟩]
  history := []
  historyFloor := 0
  hot_pos := by decide
  cold_pos := by decide
  seq_nodup := by decide
  historyFloor_nonneg := zero_nonneg

def byKey : ChangeFeed ℤ ℤ where
  hot := []
  active := [⟨"batch", 3, 5, [⟨⟨5, .insert, 1⟩, 0⟩, ⟨⟨3, .insert, 2⟩, 0⟩], by decide, by decide,
    by decide⟩]
  history := []
  historyFloor := 0
  hot_pos := hot_pos_nil
  cold_pos := by decide
  seq_nodup := by decide
  historyFloor_nonneg := zero_nonneg

end Example

open Example in
/-- The rewind reads both segments and leaves the oldest change out. -/
theorem lastRows_eq_bySeq : (changesSincePgImpl bySeq shared 0 none (some (4 : ℕ))).map
      (List.map MirrorChange.seq) = .ok [11, 12, 13, 14] := by
  have h : BySeq bySeq := ⟨by decide, by decide, by decide, rfl⟩
  rw [h.lastRows_eq shared (by decide) (by decide)]
  decide

open Example in
theorem byKey_reports_older_change :
    ((changesSincePgImpl byKey shared 0 none (some 1)).map (List.map MirrorChange.seq) = .ok [3]) ∧
      (allChanges byKey shared).map MirrorChange.seq = [5, 3] :=
  ⟨rfl, rfl⟩

end Koldstore.Feed
