import Koldstore.Feed.Compaction

/-!
# Compaction under a consumer

A cursor below the floor is refused; the others are unaffected by compaction.
-/

namespace Koldstore.Feed

open List

variable {K V B : Type*}

/-! ### What a step can do -/

structure Collapses (feed feed' : ChangeFeed K V) (dropped : List (ColdRow K V)) : Prop where
  hot : feed'.hot = feed.hot
  perm : (feed'.segments.flatMap ColdSegment.rows ++ dropped).Perm
    (feed.segments.flatMap ColdSegment.rows)
  floor_le : feed.historyFloor ≤ feed'.historyFloor
  le_floor : ∀ r ∈ dropped, r.seq ≤ feed'.historyFloor

namespace Collapses

variable {feed feed' feed'' : ChangeFeed K V} {dropped dropped' : List (ColdRow K V)} {c : ℤ}

theorem refl (feed : ChangeFeed K V) : Collapses feed feed [] :=
  ⟨rfl, by rw [append_nil], le_rfl, fun _ h ↦ nomatch h⟩

theorem publish {active history : List (ColdSegment K V)} {floor : ℤ}
    (h : ∃ dropped, Drops feed active history floor dropped) :
    ∃ dropped, Collapses feed (feed.publish active history floor h) dropped := by
  obtain ⟨dropped, hd⟩ := h
  exact ⟨dropped, rfl, hd.perm, le_max_left _ _,
    fun r hr ↦ (hd.le_floor r hr).trans (le_max_right _ _)⟩

variable (h : Collapses feed feed' dropped)
include h

theorem trans (h' : Collapses feed' feed'' dropped') :
    Collapses feed feed'' (dropped' ++ dropped) where
  hot := h'.hot.trans h.hot
  perm := by
    rw [← List.append_assoc]
    exact (h'.perm.append_right dropped).trans h.perm
  floor_le := h.floor_le.trans h'.floor_le
  le_floor r hr := by
    rcases mem_append.1 hr with hr | hr
    · exact h'.le_floor r hr
    · exact (h.le_floor r hr).trans h'.floor_le

variable {s : ColdSegment K V} {r : ColdRow K V}

theorem mem_of_mem (hs : s ∈ feed'.segments) (hr : r ∈ s.rows) : ∃ s ∈ feed.segments, r ∈ s.rows :=
  mem_flatMap.1 (h.perm.mem_iff.1 (mem_append_left _ (mem_flatMap.2 ⟨s, hs, hr⟩)))

theorem mem_of_lt (hs : s ∈ feed.segments) (hr : r ∈ s.rows) (hlt : feed'.historyFloor < r.seq) :
    ∃ s ∈ feed'.segments, r ∈ s.rows := by
  rcases mem_append.1 (h.perm.mem_iff.2 (mem_flatMap.2 ⟨s, hs, hr⟩)) with hmem | hmem
  · exact mem_flatMap.1 hmem
  · exact absurd hlt (not_lt.2 (h.le_floor r hmem))

theorem gap (hc : feed'.historyFloor ≤ c) (hg : Gap feed c) : Gap feed' c := by
  obtain ⟨hp, hne, ha⟩ := hg
  refine ⟨hp, ?_, fun s hs r hr ↦ ?_⟩
  · obtain ⟨s, hs⟩ := exists_mem_of_ne_nil _ hne
    obtain ⟨r, hr, -⟩ := s.exists_minSeq
    have hlt := ha s hs r hr
    obtain ⟨s', hs', -⟩ := h.mem_of_lt hs hr (by omega)
    exact ne_nil_of_mem hs'
  · obtain ⟨s', hs', hr'⟩ := h.mem_of_mem hs hr
    exact ha s' hs' r hr'

omit h

section Reported

variable {S : Type*} [DecidableEq S] {targets : ChangeFeedTargets K S}

theorem reported_eq (h : Collapses feed feed' dropped) (hc : feed'.historyFloor ≤ c) :
    reported feed' targets c = reported feed targets c := by
  have hh : ∀ c, hotAfter feed' targets c = hotAfter feed targets c := fun c ↦ by
    rw [hotAfter, hotRows, h.hot]
    rfl
  have hcd : coldAfter feed' targets c = coldAfter feed targets c := by
    rw [coldAfter, coldAfter, Keyset.after_some_eq_ordered nodup_coldChanges,
      Keyset.after_some_eq_ordered nodup_coldChanges]
    refine Keyset.ordered_eq_of_perm ?_ (nodup_coldChanges.sublist (filter_sublist.map _))
    have hn : ((dropped.filter fun r ↦ targets.visible r.pk).map
        (coldRowToMirrorChange targets)).filter (fun change ↦ decide (c < change.seq)) = [] := by
      refine filter_eq_nil_iff.2 fun change hchg ↦ ?_
      obtain ⟨r, hr, rfl⟩ := mem_map.1 hchg
      have hle : r.seq ≤ c := (h.le_floor r (mem_of_mem_filter hr)).trans hc
      exact fun hlt ↦ absurd (of_decide_eq_true hlt) (not_lt.2 hle)
    have hp := ((h.perm.filter fun r ↦ targets.visible r.pk).map
      (coldRowToMirrorChange targets)).filter fun change ↦ decide (c < change.seq)
    rw [filter_append, map_append, filter_append, hn, append_nil] at hp
    exact hp
  have hu : hotCursor feed' targets c = hotCursor feed targets c := by
    rw [hotCursor, hcd, hotCursor]
  rw [reported, reported, hcd, hu, hh]

def Undisturbed (feed feed' : ChangeFeed K V) (c : ℤ) : Prop :=
  feed'.historyFloor ≤ c ∧ (Gap feed' c → Gap feed c)

variable (h : Collapses feed feed' dropped)
include h

variable (hc : feed'.historyFloor ≤ c)
include hc

theorem call_eq (hg : Gap feed' c → Gap feed c) {limit : ℕ} (hl : 0 < limit) :
    (changesSince feed targets c limit).toOption =
      (changesSince feed' targets c limit).toOption := by
  have hi : Accepts feed c ↔ Accepts feed' c := by
    refine or_congr_right (and_congr_right fun _ ↦ ?_)
    exact and_congr (iff_of_true (h.floor_le.trans hc) hc) (not_congr ⟨h.gap hc, hg⟩)
  by_cases ha : Accepts feed c
  · rw [changesSince_eq targets ha hl, changesSince_eq targets (hi.1 ha) hl, h.reported_eq hc]
  · obtain ⟨e, he⟩ := changesSince_of_not_accepts targets ha hl
    obtain ⟨e', he'⟩ := changesSince_of_not_accepts targets (fun h ↦ ha (hi.2 h)) hl
    rw [he, he']
    rfl

theorem gap_of_page (hg : Gap feed' c → Gap feed c) (ha : Accepts feed c)
    {change : MirrorChange K S V} (hh : change ∈ reported feed targets c)
    (hg' : Gap feed' change.seq) : Gap feed change.seq := by
  have hlt := lt_of_mem_reported hh
  obtain ⟨hp, hne, hall⟩ := hg'
  rcases ha with rfl | ha
  · -- the floor is zero, and nothing is below it
    have hss : feed.segments ≠ [] := by
      obtain ⟨s, hs⟩ := exists_mem_of_ne_nil _ hne
      obtain ⟨r, hr, -⟩ := s.exists_minSeq
      obtain ⟨s', hs', -⟩ := h.mem_of_mem hs hr
      exact ne_nil_of_mem hs'
    refine ⟨hp, hss, fun s hs r hr ↦ ?_⟩
    obtain ⟨s', hs', hr'⟩ := h.mem_of_lt hs hr (hc.trans_lt (feed.cold_pos s hs r hr))
    exact hall s' hs' r hr'
  · refine absurd (hg ⟨ha.1, hne, fun s hs r hr ↦ ?_⟩) ha.2.2
    have := hall s hs r hr
    omega

/-- **What a step does to a consumer.** -/
theorem follow_eq_iff : (∀ limits : ℕ → ℕ, (∀ i, 0 < limits i) → ∀ fuel,
      (follow (changesSince feed targets) MirrorChange.seq fuel limits c).toOption =
        (follow (changesSince feed' targets) MirrorChange.seq fuel limits c).toOption) ↔
      (Gap feed' c → Gap feed c) := by
  constructor
  · intro hsm hg'
    by_contra hg
    have hp : 0 < c := hg'.1
    have ha : Accepts feed c := .inr ⟨hp, h.floor_le.trans hc, hg⟩
    have hn : ¬Accepts feed' c := by
      rintro (hz | ha')
      · exact absurd hp (hz ▸ lt_irrefl _)
      · exact ha'.2.2 hg'
    -- one call tells them apart
    have hcall := hsm (fun _ ↦ 1) (fun _ ↦ Nat.one_pos) 1
    obtain ⟨e, he⟩ := changesSince_of_not_accepts targets hn Nat.one_pos
    have hr : follow (changesSince feed' targets) MirrorChange.seq 1 (fun _ ↦ 1) c = .error e :=
      follow_succ_of_error he
    rw [hr, follow, changesSince_eq targets ha Nat.one_pos] at hcall
    cases hl : ((reported feed targets c).take 1).getLast? with
    | none => simp [Except.bind, hl, Except.toOption] at hcall
    | some last => simp [Except.bind, hl, Except.toOption, Except.map, follow] at hcall
  · intro hg limits hlims fuel
    have hst : Undisturbed feed feed' c := ⟨hc, hg⟩
    refine follow_toOption_congr (fun c ho limit hi ↦ h.call_eq ho.1 ho.2 hi) ?_
      hlims hst fuel
    intro c ho limit hi page hpg change hh
    have ha : Accepts feed c := by
      by_contra hn
      obtain ⟨e, he⟩ := changesSince_of_not_accepts targets hn hi
      rw [he] at hpg
      cases hpg
    rw [changesSince_eq targets ha hi] at hpg
    have hmem : change ∈ reported feed targets c := by
      rw [← Except.ok.inj hpg] at hh
      exact mem_of_mem_take hh
    exact ⟨ho.1.trans (lt_of_mem_reported hmem).le, h.gap_of_page ho.1 ho.2 ha hmem⟩

omit hc

omit h

end Reported

end Collapses

section Maintenance

variable [DecidableEq K] [LinearOrder B]

theorem CompactionStep.collapses (step : CompactionStep K V B) (feed : ChangeFeed K V) :
    ∃ dropped, Collapses feed (step.apply feed) dropped := by
  cases step with
  | unit u =>
    show ∃ dropped, Collapses feed (compactUnit u feed) dropped
    rw [compactUnit]
    split
    · exact ⟨[], .refl feed⟩
    · exact Collapses.publish _
  | purge p => exact Collapses.publish (p.drops feed)

def SurvivorsReach (feed : ChangeFeed K V) (step : CompactionStep K V B) (c : ℤ) : Prop :=
  0 < c → (∃ s ∈ feed.segments, ∃ r ∈ s.rows, step.Survives feed s r) →
    (∀ s ∈ feed.segments, ∀ r ∈ s.rows, step.Survives feed s r → c + 1 < r.seq) →
      ∀ s ∈ feed.segments, ∀ r ∈ s.rows, c + 1 < r.seq

variable {feed : ChangeFeed K V} {c : ℤ}

theorem survivorsReach_iff {step : CompactionStep K V B} :
    (Gap (step.apply feed) c → Gap feed c) ↔ SurvivorsReach feed step c := by
  have hmem := step.mem_segments_apply feed
  constructor
  · rintro h hp ⟨s, hs, r, hr, hsv⟩ ha
    obtain ⟨s', hs', -⟩ := (hmem _).2 ⟨s, hs, hr, hsv⟩
    refine (h ⟨hp, ne_nil_of_mem hs', fun t ht r' hr' ↦ ?_⟩).2.2
    obtain ⟨t', ht', hr'', hsv'⟩ := (hmem _).1 ⟨t, ht, hr'⟩
    exact ha t' ht' r' hr'' hsv'
  · rintro h ⟨hp, hne, ha⟩
    obtain ⟨s, hs⟩ := exists_mem_of_ne_nil _ hne
    obtain ⟨r, hr, -⟩ := s.exists_minSeq
    obtain ⟨s', hs', hr', hsv⟩ := (hmem _).1 ⟨s, hs, hr⟩
    refine ⟨hp, ne_nil_of_mem hs', h hp ⟨s', hs', r, hr', hsv⟩ ?_⟩
    intro t ht r' hr' hsv'
    obtain ⟨t', ht', hr''⟩ := (hmem _).2 ⟨t, ht, hr', hsv'⟩
    exact ha t' ht' r' hr''

variable (steps : List (CompactionStep K V B))

def maintain (feed : ChangeFeed K V) : ChangeFeed K V :=
  steps.foldl (fun feed step ↦ step.apply feed) feed

def ReachThroughout (c : ℤ) : List (CompactionStep K V B) → ChangeFeed K V → Prop
  | [], _ => True
  | step :: steps, feed => SurvivorsReach feed step c ∧ ReachThroughout c steps (step.apply feed)

theorem maintain_collapses (feed : ChangeFeed K V) :
    ∃ dropped, Collapses feed (maintain steps feed) dropped := by
  induction steps generalizing feed with
  | nil => exact ⟨[], .refl feed⟩
  | cons step steps ih =>
    obtain ⟨dropped, hstep⟩ := step.collapses feed
    obtain ⟨dropped', hs⟩ := ih (step.apply feed)
    exact ⟨_, hstep.trans hs⟩

theorem gap_of_gap_maintain {steps : List (CompactionStep K V B)}
    (h : ReachThroughout c steps feed) (hg : Gap (maintain steps feed) c) : Gap feed c := by
  induction steps generalizing feed with
  | nil => exact hg
  | cons step steps ih => exact survivorsReach_iff.2 h.1 (ih h.2 hg)

/-- **A whole run of maintenance.** -/
theorem follow_maintain {S : Type*} [DecidableEq S] {targets : ChangeFeedTargets K S}
    {steps : List (CompactionStep K V B)} (hc : (maintain steps feed).historyFloor ≤ c)
    (h : ReachThroughout c steps feed) {limits : ℕ → ℕ} (hl : ∀ i, 0 < limits i) (fuel : ℕ) :
    (follow (changesSince feed targets) MirrorChange.seq fuel limits c).toOption =
      (follow (changesSince (maintain steps feed) targets) MirrorChange.seq fuel limits
        c).toOption := by
  obtain ⟨dropped, ho⟩ := maintain_collapses steps feed
  exact (ho.follow_eq_iff hc).2 (gap_of_gap_maintain h) limits hl fuel

end Maintenance

section Resync

variable {S : Type*} [DecidableEq S]

/-- No change the feed begins with is refused as a cursor. -/
structure ResyncSafe (feed : ChangeFeed K V) (targets : ChangeFeedTargets K S) : Prop where
  cold : ∀ s ∈ feed.segments, ∀ r ∈ s.rows, targets.visible r.pk → feed.historyFloor ≤ r.seq
  hot : (∀ s ∈ feed.segments, ∀ r ∈ s.rows, targets.visible r.pk = false) →
    ∀ r ∈ hotRows feed targets, feed.historyFloor ≤ r.seq ∧ ¬Gap feed r.seq

theorem served_zero_iff {feed : ChangeFeed K V} {targets : ChangeFeedTargets K S} :
    Served feed targets 0 ↔ ResyncSafe feed targets := by
  have hp : ∀ change ∈ coldChanges feed targets, 0 < change.seq := by
    intro change hh
    obtain ⟨s, hs, r, hr, -, rfl⟩ := mem_coldChanges.1 hh
    exact feed.cold_pos s hs r hr
  constructor
  · rintro ⟨-, he⟩
    have ha : ∀ c, 0 < c → Accepts feed c → feed.historyFloor ≤ c ∧ ¬Gap feed c := by
      rintro c hc (rfl | h)
      · exact absurd hc (lt_irrefl 0)
      · exact h.2
    constructor
    · intro s hs r hr hv
      have hmem : coldRowToMirrorChange targets r ∈ coldChanges feed targets :=
        mem_coldChanges.2 ⟨s, hs, r, hr, hv, rfl⟩
      have hlt := hp _ hmem
      exact (ha r.seq hlt (he _ (mem_append_left _ (mem_coldAfter.2 ⟨hmem, hlt⟩)))).1
    · intro hnone r hr
      have hn : coldAfter feed targets 0 = [] := by
        refine eq_nil_iff_forall_not_mem.2 fun change hh ↦ ?_
        obtain ⟨s, hs, r, hr, hv, -⟩ := mem_coldChanges.1 (mem_coldAfter.1 hh).1
        exact absurd hv (by simp [hnone s hs r hr])
      have hu : hotCursor feed targets 0 = 0 := by rw [hotCursor, hn]; rfl
      have hlt := feed.hot_pos r (mem_hotRows.1 hr).1
      refine ha r.seq hlt (he (decodeHotMirrorTuple targets r)
        (mem_append_right _ (mem_hotAfter.2 ⟨r, hr, ?_, rfl⟩)))
      rwa [hu]
  · intro h
    refine ⟨.inl rfl, fun change hh ↦ .inr ⟨lt_of_mem_reported hh, ?_⟩⟩
    -- a visible cold change is at or past the floor, and so is everything after it
    have hcd : ∀ first ∈ coldChanges feed targets, first.seq ≤ change.seq →
        feed.historyFloor ≤ change.seq ∧ ¬Gap feed change.seq := by
      intro first hf hle
      obtain ⟨s, hs, r, hr, hv, rfl⟩ := mem_coldChanges.1 hf
      have hle : r.seq ≤ change.seq := hle
      refine ⟨(h.cold s hs r hr hv).trans hle, fun hg ↦ ?_⟩
      have := hg.2.2 s hs r hr
      omega
    rcases mem_append.1 hh with hmem | hmem
    · exact hcd change (mem_coldAfter.1 hmem).1 le_rfl
    · by_cases hne : ∃ first, first ∈ coldAfter feed targets 0
      · obtain ⟨first, hf⟩ := hne
        exact hcd first (mem_coldAfter.1 hf).1
          ((le_hotCursor hf).trans (lt_of_mem_hotAfter hmem).le)
      · obtain ⟨r, hr, -, rfl⟩ := mem_hotAfter.1 hmem
        refine h.hot (fun s hs r hr ↦ ?_) r hr
        by_contra hv
        have hmem : coldRowToMirrorChange targets r ∈ coldChanges feed targets :=
          mem_coldChanges.2 ⟨s, hs, r, hr, by simpa using hv, rfl⟩
        exact hne ⟨_, mem_coldAfter.2 ⟨hmem, hp _ hmem⟩⟩

/-- **Starting over, and going on.** -/
theorem resync_and_compaction [DecidableEq K] [LinearOrder B] (feed : ChangeFeed K V)
    (targets : ChangeFeedTargets K S) (step : CompactionStep K V B) :
    ((∀ limits : ℕ → ℕ, (∀ i, 0 < limits i) → ∀ fuel, ∃ out,
        follow (changesSince feed targets) MirrorChange.seq fuel limits 0 = .ok out) ↔
      ResyncSafe feed targets) ∧
    ∀ c, (step.apply feed).historyFloor ≤ c → ((∀ limits : ℕ → ℕ, (∀ i, 0 < limits i) → ∀ fuel,
          (follow (changesSince feed targets) MirrorChange.seq fuel limits c).toOption =
            (follow (changesSince (step.apply feed) targets) MirrorChange.seq fuel limits
              c).toOption) ↔
        SurvivorsReach feed step c) := by
  refine ⟨follow_ok_iff.trans served_zero_iff, fun c hc ↦ ?_⟩
  obtain ⟨dropped, ho⟩ := step.collapses feed
  exact (ho.follow_eq_iff hc).trans survivorsReach_iff

end Resync

namespace Example

def perRow : SegmentEncoder ℤ ℤ where
  encode rows := rows.map fun r ↦ ⟨"batch", r.seq, r.seq, [r], by simp, by simp, by simp⟩
  rows_encode rows := by
    rw [flatMap_map]
    exact List.Perm.of_eq (flatMap_singleton' rows)

def rewriteAll : CompactionUnit ℤ ℤ ℤ where
  member _ := true
  lead := id
  boundaries := []
  dropMarkers := true
  retainFrom := 100
  stableRewrite := true
  maxRowsPerFile := 1000
  encoder := perRow
  sorted := List.Pairwise.nil

def oneKey : ChangeFeed ℤ ℤ where
  hot := []
  active := perRow.encode [⟨⟨2, .insert, 2⟩, 0⟩, ⟨⟨5, .update, 2⟩, 1⟩]
  history := []
  historyFloor := 0
  hot_pos := hot_pos_nil
  cold_pos := by decide
  seq_nodup := by decide
  historyFloor_nonneg := zero_nonneg

def twoKeys : ChangeFeed ℤ ℤ where
  hot := []
  active := perRow.encode [⟨⟨1, .insert, 1⟩, 0⟩, ⟨⟨2, .insert, 2⟩, 0⟩, ⟨⟨5, .update, 2⟩, 1⟩]
  history := []
  historyFloor := 0
  hot_pos := hot_pos_nil
  cold_pos := by decide
  seq_nodup := by decide
  historyFloor_nonneg := zero_nonneg

end Example

open Example in
theorem resync_and_compaction_twoKeys : (compactUnit rewriteAll twoKeys).historyFloor = 2 ∧
      ∀ limits : ℕ → ℕ, (∀ i, 0 < limits i) → ∀ fuel,
        (follow (changesSince twoKeys shared) MirrorChange.seq fuel limits 2).toOption =
          (follow (changesSince (compactUnit rewriteAll twoKeys) shared) MirrorChange.seq fuel
            limits 2).toOption := by
  refine ⟨by decide, ((resync_and_compaction twoKeys shared (.unit rewriteAll)).2 2 (by decide)).2
    (survivorsReach_iff.1 fun hg ↦ ?_)⟩
  exact absurd (hg.2.2 _ (mem_cons_of_mem _ mem_cons_self) _ mem_cons_self) (by decide)

open Example in
theorem compaction_refuses_consumers :
    follow (changesSince (compactUnit rewriteAll twoKeys) shared) MirrorChange.seq 2 (fun _ ↦ 1) 0 =
      .error (.predatesCompaction 1 2) ∧ (compactUnit rewriteAll oneKey).historyFloor = 2 ∧
      (changesSince oneKey shared 2 1).map (List.map MirrorChange.seq) = .ok [5] ∧
      changesSince (compactUnit rewriteAll oneKey) shared 2 1 = .error (.retentionGap 5) :=
  ⟨rfl, rfl, rfl, rfl⟩

open Example in
theorem follow_maintain_twoKeys : (maintain [.unit rewriteAll] twoKeys).historyFloor = 2 ∧ ∀ fuel,
    (follow (changesSince twoKeys shared) MirrorChange.seq fuel (fun _ ↦ 1) 2).toOption =
      (follow (changesSince (maintain [.unit rewriteAll] twoKeys) shared) MirrorChange.seq fuel
        (fun _ ↦ 1) 2).toOption := by
  have hf : (maintain [.unit rewriteAll] twoKeys).historyFloor = 2 := by decide
  refine ⟨hf, follow_maintain hf.le ⟨survivorsReach_iff.1 fun hg ↦ ?_, trivial⟩ fun _ ↦ one_pos⟩
  exact absurd (hg.2.2 _ (mem_cons_of_mem _ mem_cons_self) _ mem_cons_self) (by decide)

end Koldstore.Feed
