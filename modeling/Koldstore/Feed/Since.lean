import Koldstore.Basic.Follow
import Koldstore.Feed.ChangesSince

/-!
# What a consumer of the change feed gets

The feed owes the cold changes in id order and then the mirror's **after the last of them**.
-/

namespace Koldstore

open List Keyset
open Option (any_none getD_some)

namespace Feed

variable {K S V : Type*} [DecidableEq S]

/-! ### The list of changes owed at a cursor -/

def coldChanges (feed : ChangeFeed K V) (targets : ChangeFeedTargets K S) :
    List (MirrorChange K S V) :=
  ((feed.segments.flatMap ColdSegment.rows).filter fun r ↦ targets.visible r.pk).map
    (coldRowToMirrorChange targets)

def hotRows (feed : ChangeFeed K V) (targets : ChangeFeedTargets K S) : List (LogRow K) :=
  feed.hot.filter fun r ↦ targets.visible r.pk

def coldAfter (feed : ChangeFeed K V) (targets : ChangeFeedTargets K S) (sinceSeq : ℤ) :
    List (MirrorChange K S V) :=
  after MirrorChange.seq (coldChanges feed targets) (some sinceSeq)

def hotAfter (feed : ChangeFeed K V) (targets : ChangeFeedTargets K S) (sinceSeq : ℤ) :
    List (MirrorChange K S V) :=
  (after LogRow.seq (hotRows feed targets) (some sinceSeq)).map
    (decodeHotMirrorTuple targets)

def hotCursor (feed : ChangeFeed K V) (targets : ChangeFeedTargets K S) (sinceSeq : ℤ) : ℤ :=
  ((coldAfter feed targets sinceSeq).getLast?.map MirrorChange.seq).getD sinceSeq

def reported (feed : ChangeFeed K V) (targets : ChangeFeedTargets K S) (sinceSeq : ℤ) :
    List (MirrorChange K S V) :=
  coldAfter feed targets sinceSeq ++ hotAfter feed targets (hotCursor feed targets sinceSeq)

variable {feed : ChangeFeed K V} {targets : ChangeFeedTargets K S} {sinceSeq : ℤ}

theorem inScope_coldRowToMirrorChange (r : ColdRow K V) :
    targets.inScope (coldRowToMirrorChange targets r) = targets.visible r.pk := by
  cases h : targets.scope <;>
    simp [ChangeFeedTargets.inScope, ChangeFeedTargets.visible, ChangeFeedTargets.scopeKey,
      coldRowToMirrorChange, h]

variable {change : MirrorChange K S V}

theorem mem_coldChanges :
    change ∈ coldChanges feed targets ↔ ∃ segment ∈ feed.segments, ∃ r ∈ segment.rows,
      targets.visible r.pk ∧ coldRowToMirrorChange targets r = change := by
  simp only [coldChanges, mem_map, mem_filter, mem_flatMap]
  constructor
  · rintro ⟨r, ⟨⟨segment, hs, hr⟩, hv⟩, rfl⟩
    exact ⟨segment, hs, r, hr, hv, rfl⟩
  · rintro ⟨segment, hs, r, hr, hv, rfl⟩
    exact ⟨r, ⟨⟨segment, hs, hr⟩, hv⟩, rfl⟩

theorem mem_hotRows {r : LogRow K} :
    r ∈ hotRows feed targets ↔ r ∈ feed.hot ∧ targets.visible r.pk :=
  mem_filter

omit [DecidableEq S] in
theorem nodup_rows_seq (feed : ChangeFeed K V) :
    ((feed.segments.flatMap ColdSegment.rows).map fun r ↦ r.seq).Nodup :=
  (nodup_append.1 feed.seq_nodup).2.1

theorem nodup_coldChanges : ((coldChanges feed targets).map MirrorChange.seq).Nodup := by
  rw [coldChanges, map_map]
  exact (nodup_rows_seq feed).sublist (filter_sublist.map _)

theorem nodup_hotRows : ((hotRows feed targets).map LogRow.seq).Nodup :=
  (nodup_append.1 feed.seq_nodup).1.sublist (filter_sublist.map _)

theorem mem_coldAfter : change ∈ coldAfter feed targets sinceSeq ↔
      change ∈ coldChanges feed targets ∧ sinceSeq < change.seq := by
  rw [coldAfter, mem_after]
  simp

theorem mem_hotAfter : change ∈ hotAfter feed targets sinceSeq ↔
      ∃ r ∈ hotRows feed targets, sinceSeq < r.seq ∧ decodeHotMirrorTuple targets r = change := by
  simp only [hotAfter, mem_map, mem_after]
  constructor
  · rintro ⟨r, ⟨hr, hs⟩, rfl⟩
    exact ⟨r, hr, hs sinceSeq rfl, rfl⟩
  · rintro ⟨r, hr, hs, rfl⟩
    exact ⟨r, ⟨hr, fun c hc ↦ by rwa [← Option.some.inj hc]⟩, rfl⟩

theorem lt_of_mem_hotAfter (h : change ∈ hotAfter feed targets sinceSeq) :
    sinceSeq < change.seq := by
  obtain ⟨r, _, hs, rfl⟩ := mem_hotAfter.1 h
  exact hs

theorem increasingBy_coldAfter : (coldAfter feed targets sinceSeq).IncreasingBy MirrorChange.seq :=
  increasingBy_after nodup_coldChanges _

theorem increasingBy_hotAfter : (hotAfter feed targets sinceSeq).IncreasingBy MirrorChange.seq :=
  pairwise_map.2 (increasingBy_after nodup_hotRows _)

theorem le_hotCursor (h : change ∈ coldAfter feed targets sinceSeq) :
    change.seq ≤ hotCursor feed targets sinceSeq := by
  cases hl : (coldAfter feed targets sinceSeq).getLast? with
  | none =>
    rw [getLast?_eq_none_iff.1 hl] at h
    exact nomatch h
  | some last =>
    rw [hotCursor, hl]
    exact increasingBy_coldAfter.le_getLast h hl

theorem le_hotCursor_self : sinceSeq ≤ hotCursor feed targets sinceSeq := by
  cases hl : (coldAfter feed targets sinceSeq).getLast? with
  | none => rw [hotCursor, hl]; rfl
  | some last =>
    rw [hotCursor, hl]
    exact (mem_coldAfter.1 (mem_of_getLast? hl)).2.le

theorem lt_of_mem_reported (h : change ∈ reported feed targets sinceSeq) :
    sinceSeq < change.seq := by
  rcases mem_append.1 h with hcd | hh
  · exact (mem_coldAfter.1 hcd).2
  · exact le_hotCursor_self.trans_lt (lt_of_mem_hotAfter hh)

theorem increasingBy_reported : (reported feed targets sinceSeq).IncreasingBy MirrorChange.seq :=
  pairwise_append.2 ⟨increasingBy_coldAfter, increasingBy_hotAfter,
    fun _ hcd _ hh ↦ (le_hotCursor hcd).trans_lt (lt_of_mem_hotAfter hh)⟩

/-! ### Moving the cursor -/

theorem coldAfter_of_le {c : ℤ} (h : sinceSeq ≤ c) : coldAfter feed targets c =
      (coldAfter feed targets sinceSeq).filter fun change ↦ decide (c < change.seq) :=
  after_some_eq_filter fun d hd ↦ by rwa [← Option.some.inj hd]

theorem hotAfter_of_le {c : ℤ} (h : sinceSeq ≤ c) : hotAfter feed targets c =
      (hotAfter feed targets sinceSeq).filter fun change ↦ decide (c < change.seq) := by
  have ha : after LogRow.seq (hotRows feed targets) (some c) = _ :=
    after_some_eq_filter fun d (hd : some sinceSeq = some d) ↦ by rwa [← Option.some.inj hd]
  rw [hotAfter, ha, hotAfter, filter_map]
  rfl

theorem reported_of_le {c : ℤ} (h : sinceSeq ≤ c) : reported feed targets c =
      (reported feed targets sinceSeq).filter fun change ↦ decide (c < change.seq) := by
  have hcd : coldAfter feed targets c = _ := coldAfter_of_le h
  cases hl : (coldAfter feed targets c).getLast? with
  | none =>
    -- the cursor is past the cold changes: the mirror takes over at the cursor
    have hn : coldAfter feed targets c = [] := getLast?_eq_none_iff.1 hl
    have hu : hotCursor feed targets c = c := by rw [hotCursor, hl]; rfl
    have hle : hotCursor feed targets sinceSeq ≤ c := by
      cases hl' : (coldAfter feed targets sinceSeq).getLast? with
      | none => rw [hotCursor, hl']; exact h
      | some last =>
        rw [hotCursor, hl']
        have hmem := mem_of_getLast? hl'
        rw [hn, eq_comm, filter_eq_nil_iff] at hcd
        simpa using hcd last hmem
    rw [reported, reported, filter_append, ← hcd, hu, hotAfter_of_le hle]
  | some last =>
    -- cold changes are left, and the last of them is the last there was
    have hmem := mem_of_getLast? hl
    obtain ⟨hmem', hc⟩ := mem_coldAfter.1 hmem
    have hmemSince : last ∈ coldAfter feed targets sinceSeq :=
      mem_coldAfter.2 ⟨hmem', h.trans_lt hc⟩
    have hu : hotCursor feed targets c = last.seq := by rw [hotCursor, hl]; rfl
    have hc' : hotCursor feed targets sinceSeq = last.seq := by
      refine le_antisymm ?_ (le_hotCursor hmemSince)
      cases hl' : (coldAfter feed targets sinceSeq).getLast? with
      | none =>
        rw [getLast?_eq_none_iff.1 hl'] at hmemSince
        exact nomatch hmemSince
      | some last' =>
        have hle : last.seq ≤ last'.seq := increasingBy_coldAfter.le_getLast hmemSince hl'
        have hmem'' : last' ∈ coldAfter feed targets c :=
          mem_coldAfter.2 ⟨(mem_coldAfter.1 (mem_of_getLast? hl')).1, hc.trans_le hle⟩
        rw [hotCursor, hl']
        exact increasingBy_coldAfter.le_getLast hmem'' hl
    have hh : (hotAfter feed targets last.seq).filter (fun change ↦ decide (c < change.seq)) =
        hotAfter feed targets last.seq :=
      filter_eq_self.2 fun change hchg ↦ by
        simpa using hc.trans (lt_of_mem_hotAfter hchg)
    rw [reported, reported, filter_append, ← hcd, hu, hc', hh]

theorem reported_last {limit : ℕ} {last : MirrorChange K S V}
    (hl : ((reported feed targets sinceSeq).take limit).getLast? = some last) :
    reported feed targets last.seq = (reported feed targets sinceSeq).drop limit := by
  have hmem : last ∈ reported feed targets sinceSeq := mem_of_mem_take (mem_of_getLast? hl)
  rw [reported_of_le (lt_of_mem_reported hmem).le]
  exact increasingBy_reported.filter_lt_last_take hl

section Walk

variable {read : ColdSegment K V → List (MirrorChange K S V)} {limit : ℕ}

omit [DecidableEq S] in
theorem smallest_walkCandidates {candidates : List (ColdSegment K V)}
    {coldAcc : List (MirrorChange K S V)} (hso : candidates.Pairwise fun s t ↦ s.minSeq ≤ t.minSeq)
    (hrd : ∀ s ∈ candidates, ∀ change ∈ read s, s.minSeq ≤ change.seq)
    (hnd : ((coldAcc ++ candidates.flatMap read).map MirrorChange.seq).Nodup) :
    smallest MirrorChange.seq limit (walkCandidates read limit candidates coldAcc) =
      smallest MirrorChange.seq limit (coldAcc ++ candidates.flatMap read) := by
  induction candidates generalizing coldAcc with
  | nil => rw [walkCandidates, flatMap_nil, append_nil]
  | cons segment rest ih =>
    obtain ⟨hf, hso⟩ := pairwise_cons.1 hso
    have hrd' : ∀ s ∈ rest, ∀ change ∈ read s, s.minSeq ≤ change.seq :=
      fun s hs ↦ hrd s (mem_cons_of_mem _ hs)
    rw [flatMap_cons] at hnd ⊢
    rw [walkCandidates]
    split
    · rename_i hfu
      have hlen : (smallest MirrorChange.seq limit coldAcc).length = limit := by
        rw [length_smallest, min_eq_left hfu]
      have hu : smallest MirrorChange.seq limit
          (smallest MirrorChange.seq limit coldAcc) =
            smallest MirrorChange.seq limit coldAcc := by
        have hc : ((coldAcc ++ []).map MirrorChange.seq).Nodup := by
          rw [map_append] at hnd
          simpa using (nodup_append.1 hnd).1
        simpa using smallest_smallest_append hc
      show smallest _ limit (if _ then _ else _) = _
      split
      · -- everything still unread is past the page
        rename_i hsp
        obtain ⟨last, hl, hlt⟩ := (Option.any_eq_true _ _).1 hsp
        rw [hu]
        refine (smallest_append_of_lt hnd smallest_subperm hlen.ge ?_).symm
        intro a ha b hb
        have hle : a.seq ≤ last.seq := by
          have hc : (coldAcc.map MirrorChange.seq).Nodup := by
            rw [map_append] at hnd
            exact (nodup_append.1 hnd).1
          have hi : (smallest MirrorChange.seq limit coldAcc).IncreasingBy
              MirrorChange.seq := (increasingBy_ordered hc).sublist (take_sublist _ _)
          refine hi.le_getLast ha ?_
          rwa [getLast?_eq_getElem?, hlen]
        have hge : segment.minSeq ≤ b.seq := by
          rcases mem_append.1 hb with hb | hb
          · exact hrd segment mem_cons_self b hb
          · obtain ⟨s, hs, hb⟩ := mem_flatMap.1 hb
            exact (hf s hs).trans (hrd' s hs b hb)
        exact hle.trans_lt ((by simpa using hlt : last.seq < segment.minSeq).trans_le hge)
      · rw [ih hso hrd', List.append_assoc]
        · exact smallest_smallest_append hnd
        · rw [List.append_assoc]
          exact nodup_smallest_append hnd
    · rw [ih hso hrd', List.append_assoc]
      rwa [List.append_assoc]

end Walk

/-! ### One page -/

theorem readColdSegmentPage_perm (hi : 0 ≤ sinceSeq) (segment : ColdSegment K V) :
    (readColdSegmentPage targets segment sinceSeq).Perm
      (((segment.rows.filter fun r ↦ targets.visible r.pk).map
        (coldRowToMirrorChange targets)).filter fun change ↦ decide (sinceSeq < change.seq)) := by
  refine (perm_ordered _ _).trans (List.Perm.of_eq ?_)
  rw [filter_map, filter_map, filter_filter, filter_filter]
  congr 1
  refine filter_congr fun r hr ↦ ?_
  have hm := segment.le_maxSeq r hr
  have hs : decide (max (sinceSeq + 1) 1 ≤ r.seq ∧ r.seq ≤ segment.maxSeq) =
      decide (sinceSeq < r.seq) := by
    rw [decide_eq_decide]
    omega
  rw [hs, Function.comp_apply, inScope_coldRowToMirrorChange, Bool.and_comm]
  rfl

def candidates (feed : ChangeFeed K V) (sinceSeq : ℤ) : List (ColdSegment K V) :=
  ordered ColdSegment.walkKey (feed.segments.filter fun segment ↦ sinceSeq < segment.maxSeq)

theorem flatMap_candidates_perm (hi : 0 ≤ sinceSeq) :
    ((candidates feed sinceSeq).flatMap (readColdSegmentPage targets · sinceSeq)).Perm
      ((coldChanges feed targets).filter fun change ↦ decide (sinceSeq < change.seq)) := by
  refine ((perm_ordered _ _).flatMap_right _).trans ?_
  have hsk : (feed.segments.filter fun segment ↦ decide (sinceSeq < segment.maxSeq)).flatMap
      (readColdSegmentPage targets · sinceSeq) =
        feed.segments.flatMap (readColdSegmentPage targets · sinceSeq) := by
    rw [List.flatMap_filter_eq_flatMap_iff]
    intro segment _ hm
    rw [decide_eq_false_iff_not, not_lt] at hm
    refine eq_nil_iff_forall_not_mem.2 fun change hc ↦ ?_
    obtain ⟨hc, hs⟩ := mem_filter.1 ((readColdSegmentPage_perm hi segment).mem_iff.1 hc)
    obtain ⟨r, hr, rfl⟩ := mem_map.1 hc
    have hle := segment.le_maxSeq r (mem_of_mem_filter hr)
    exact absurd (of_decide_eq_true hs) (not_lt.2 (hle.trans hm))
  rw [hsk, coldChanges, filter_flatMap, map_flatMap, filter_flatMap]
  exact List.Perm.flatMap_left _ fun segment _ ↦ readColdSegmentPage_perm hi segment

omit [DecidableEq S] in
theorem candidates_pairwise : (candidates feed sinceSeq).Pairwise fun s t ↦ s.minSeq ≤ t.minSeq :=
  (pairwise_ordered ColdSegment.walkKey _).imp fun h ↦ by
    rcases (Prod.Lex.le_iff.1 h) with hlt | heq
    · exact hlt.le
    · exact heq.1.le

theorem fetchColdChanges_eq (hs : 0 ≤ sinceSeq) (limit : ℕ) :
    fetchColdChanges feed targets sinceSeq limit =
      (coldAfter feed targets sinceSeq).take limit := by
  have hp : ((candidates feed sinceSeq).flatMap
      (readColdSegmentPage targets · sinceSeq)).Perm _ := flatMap_candidates_perm hs
  have hnd : (((candidates feed sinceSeq).flatMap
      (readColdSegmentPage targets · sinceSeq)).map MirrorChange.seq).Nodup :=
    (hp.map _).nodup_iff.2 (nodup_coldChanges.sublist (filter_sublist.map _))
  have hrd : ∀ s ∈ candidates feed sinceSeq,
      ∀ change ∈ readColdSegmentPage targets s sinceSeq, s.minSeq ≤ change.seq := by
    intro s _ change hc
    have hmem := mem_of_mem_filter ((readColdSegmentPage_perm hs s).mem_iff.1 hc)
    obtain ⟨r, hr, rfl⟩ := mem_map.1 hmem
    exact s.minSeq_le r (mem_of_mem_filter hr)
  show smallest _ limit (walkCandidates _ limit (candidates feed sinceSeq) []) = _
  rw [smallest_walkCandidates candidates_pairwise hrd hnd, nil_append, smallest,
    ordered_eq_of_perm hp hnd, coldAfter, after_some_eq_ordered nodup_coldChanges]

theorem fetchHotMirrorChanges_eq (limit : ℕ) : fetchHotMirrorChanges feed targets sinceSeq limit =
      (hotAfter feed targets sinceSeq).take limit :=
  map_take

def Gap (feed : ChangeFeed K V) (sinceSeq : ℤ) : Prop := 0 < sinceSeq ∧ feed.segments ≠ [] ∧
    ∀ segment ∈ feed.segments, ∀ r ∈ segment.rows, sinceSeq + 1 < r.seq

omit [DecidableEq S] in
theorem gap_iff : Gap feed sinceSeq ↔
    ∃ oldest, feed.oldestCold = some oldest ∧ 0 < sinceSeq ∧ sinceSeq < oldest - 1 := by
  constructor
  · rintro ⟨hp, hne, ha⟩
    cases hm : feed.oldestCold with
    | none => exact absurd (map_eq_nil_iff.1 (min?_eq_none_iff.1 hm)) hne
    | some oldest =>
      obtain ⟨segment, hs, rfl⟩ := mem_map.1 (min?_eq_some_iff.1 hm).1
      obtain ⟨r, hr, heq⟩ := segment.exists_minSeq
      have := ha segment hs r hr
      exact ⟨_, rfl, hp, by omega⟩
  · rintro ⟨oldest, hm, hp, hlt⟩
    obtain ⟨hmem, hle⟩ := min?_eq_some_iff.1 hm
    refine ⟨hp, ?_, fun segment hs r hr ↦ ?_⟩
    · rintro hn
      rw [hn] at hmem
      exact nomatch hmem
    · have h₁ := hle _ (mem_map_of_mem hs)
      have h₂ := segment.minSeq_le r hr
      omega

theorem fetchSinceSeqPage_of_gap {oldest : ℤ} (hold : feed.oldestCold = some oldest)
    (hg : Gap feed sinceSeq) (limit : ℕ) :
    fetchSinceSeqPage feed targets sinceSeq limit = .error (.retentionGap oldest) := by
  obtain ⟨oldest', hold', hp, hlt⟩ := gap_iff.1 hg
  obtain rfl : oldest = oldest' := Option.some.inj (hold.symm.trans hold')
  have hf : (feed.oldestCold.filter fun oldest ↦
      decide (0 < sinceSeq ∧ sinceSeq < oldest - 1)) = some oldest :=
    Option.filter_eq_some_iff.2 ⟨hold, by simp [hp, hlt]⟩
  rw [fetchSinceSeqPage, hf]

theorem coldAfter_of_past
    (h : feed.segments.isEmpty ∨ feed.newestCold.any fun newest ↦ decide (newest ≤ sinceSeq)) :
    coldAfter feed targets sinceSeq = [] := by
  refine eq_nil_iff_forall_not_mem.2 fun change hc ↦ ?_
  obtain ⟨hc, hseq⟩ := mem_coldAfter.1 hc
  obtain ⟨segment, hs, r, hr, -, rfl⟩ := mem_coldChanges.1 hc
  rcases h with he | hn
  · rw [List.isEmpty_iff.1 he] at hs
    exact nomatch hs
  · obtain ⟨newest, hm, hle⟩ := (Option.any_eq_true _ _).1 hn
    have h₁ := (max?_eq_some_iff.1 hm).2 _ (mem_map_of_mem hs)
    have h₂ := segment.le_maxSeq r hr
    have h₃ : newest ≤ sinceSeq := of_decide_eq_true hle
    exact absurd hseq (not_lt.2 (h₂.trans (h₁.trans h₃)))

theorem fetchSinceSeqPage_eq (hs : 0 ≤ sinceSeq) (hg : ¬Gap feed sinceSeq) (limit : ℕ) :
    fetchSinceSeqPage feed targets sinceSeq limit =
      .ok ((reported feed targets sinceSeq).take limit) := by
  have hf : (feed.oldestCold.filter fun oldest ↦
      decide (0 < sinceSeq ∧ sinceSeq < oldest - 1)) = none :=
    Option.filter_eq_none_iff.2 fun oldest hold hlt ↦
      hg (gap_iff.2 ⟨oldest, hold, of_decide_eq_true hlt⟩)
  rw [fetchSinceSeqPage, hf]
  show (if _ then _ else if _ then _ else _) = _
  split
  · rename_i hps
    have hn : coldAfter feed targets sinceSeq = [] := coldAfter_of_past hps
    have hc : hotCursor feed targets sinceSeq = sinceSeq := by rw [hotCursor, hn]; rfl
    rw [reported, hn, hc, nil_append, fetchHotMirrorChanges_eq]
  · rw [fetchColdChanges_eq hs, reported, take_append]
    split
    · -- a short cold half is all the cold changes there are
      rename_i hsh
      rw [length_take] at hsh
      have hl : (coldAfter feed targets sinceSeq).length ≤ limit := by omega
      rw [take_of_length_le hl, ← fetchHotMirrorChanges_eq]
      rfl
    · rename_i hfu
      rw [length_take] at hfu
      have hl : limit - (coldAfter feed targets sinceSeq).length = 0 := by omega
      rw [hl, take_zero, append_nil]

/-! ### Cursors -/

def Accepts (feed : ChangeFeed K V) (sinceSeq : ℤ) : Prop :=
  sinceSeq = 0 ∨ 0 < sinceSeq ∧ feed.historyFloor ≤ sinceSeq ∧ ¬Gap feed sinceSeq

def changesSince (feed : ChangeFeed K V) (targets : ChangeFeedTargets K S) (sinceSeq : ℤ)
    (limit : ℕ) : Except ChangesSinceError (List (MirrorChange K S V)) :=
  changesSincePgImpl feed targets sinceSeq (some limit) none

theorem changesSince_eq (targets : ChangeFeedTargets K S) (h : Accepts feed sinceSeq) {limit : ℕ}
    (hl : 0 < limit) :
    changesSince feed targets sinceSeq limit =
      .ok ((reported feed targets sinceSeq).take limit) := by
  have hl' : ¬(limit : ℤ) ≤ 0 := by omega
  have hs : 0 ≤ sinceSeq := by
    rcases h with h | h
    · exact h.ge
    · exact h.1.le
  have hfl : ¬(0 < sinceSeq ∧ sinceSeq < feed.historyFloor) := by
    rcases h with rfl | h
    · simp
    · exact fun hlt ↦ absurd h.2.1 (not_le.2 hlt.2)
  have hg : ¬Gap feed sinceSeq := by
    rcases h with rfl | h
    · exact fun hg ↦ lt_irrefl _ hg.1
    · exact h.2.2
  simp only [changesSince, changesSincePgImpl, getD_some, any_none, not_lt.2 hs,
    hl', hfl, if_false, Bool.false_eq_true, Int.toNat_natCast]
  exact fetchSinceSeqPage_eq hs hg limit

theorem changesSince_of_not_accepts (targets : ChangeFeedTargets K S) (h : ¬Accepts feed sinceSeq)
    {limit : ℕ} (hl : 0 < limit) : ∃ e, changesSince feed targets sinceSeq limit = .error e := by
  have hl' : ¬(limit : ℤ) ≤ 0 := by omega
  simp only [changesSince, changesSincePgImpl, getD_some, any_none, hl', if_false,
    Bool.false_eq_true, Int.toNat_natCast]
  split
  · exact ⟨_, rfl⟩
  · rename_i hs
    split
    · exact ⟨_, rfl⟩
    · rename_i hfl
      have hg : Gap feed sinceSeq := by
        by_contra hg
        refine h (or_iff_not_imp_left.2 fun hne ↦ ?_)
        have hp : 0 < sinceSeq := by omega
        exact ⟨hp, not_lt.1 fun hlt ↦ hfl ⟨hp, hlt⟩, hg⟩
      obtain ⟨oldest, hold, -⟩ := gap_iff.1 hg
      exact ⟨_, fetchSinceSeqPage_of_gap hold hg limit⟩

def Served (feed : ChangeFeed K V) (targets : ChangeFeedTargets K S) (sinceSeq : ℤ) : Prop :=
  Accepts feed sinceSeq ∧ ∀ change ∈ reported feed targets sinceSeq, Accepts feed change.seq

theorem serves (feed : ChangeFeed K V) (targets : ChangeFeedTargets K S) :
    Serves (changesSince feed targets) MirrorChange.seq (reported feed targets)
      (Served feed targets) where
  page _ h _ hlimit := changesSince_eq targets h.1 hlimit
  good c h change hchange := by
    refine ⟨h.2 change hchange, fun later hl ↦ h.2 later ?_⟩
    rw [reported_of_le (lt_of_mem_reported hchange).le] at hl
    exact mem_of_mem_filter hl
  rest _ _ _ _ hlast := reported_last hlast

/-- **What refuses a consumer.** -/
theorem follow_ok_iff : (∀ (limits : ℕ → ℕ), (∀ i, 0 < limits i) → ∀ fuel,
      ∃ out, follow (changesSince feed targets) MirrorChange.seq fuel limits sinceSeq = .ok out) ↔
    Served feed targets sinceSeq := by
  constructor
  · intro h
    have ha : Accepts feed sinceSeq := by
      by_contra hn
      obtain ⟨out, ho⟩ := h (fun _ ↦ 1) (fun _ ↦ Nat.one_pos) 1
      obtain ⟨e, he⟩ := changesSince_of_not_accepts targets hn Nat.one_pos
      rw [follow_succ_of_error he] at ho
      exact nomatch ho
    refine ⟨ha, fun change hc ↦ ?_⟩
    by_contra hn
    -- a first page that ends with this change
    obtain ⟨i, hi, rfl⟩ := getElem_of_mem hc
    obtain ⟨out, ho⟩ := h (fun _ ↦ i + 1) (fun _ ↦ Nat.succ_pos i) 2
    have hpg := changesSince_eq targets ha (Nat.succ_pos i)
    have hl : ((reported feed targets sinceSeq).take (i + 1)).getLast? =
        some ((reported feed targets sinceSeq)[i]) := by
      rw [getLast?_eq_getElem?, length_take, min_eq_left hi, Nat.add_sub_cancel,
        getElem?_take_of_lt (Nat.lt_succ_self i), getElem?_eq_getElem hi]
    obtain ⟨e, he⟩ := changesSince_of_not_accepts targets hn (Nat.succ_pos i)
    rw [follow_succ_of_ok hpg hl, follow_succ_of_error he] at ho
    exact nomatch ho
  · intro h limits hlims fuel
    obtain ⟨out, ho, -⟩ := (serves feed targets).follow_eq hlims h fuel
    exact ⟨out, ho⟩

/-! ### Completeness -/

def allChanges (feed : ChangeFeed K V) (targets : ChangeFeedTargets K S) :
    List (MirrorChange K S V) :=
  coldChanges feed targets ++ (hotRows feed targets).map (decodeHotMirrorTuple targets)

def changesAfter (feed : ChangeFeed K V) (targets : ChangeFeedTargets K S) (sinceSeq : ℤ) :
    List (MirrorChange K S V) :=
  (allChanges feed targets).filter fun change ↦ decide (sinceSeq < change.seq)

def HotNewer (feed : ChangeFeed K V) (targets : ChangeFeedTargets K S) (sinceSeq : ℤ) : Prop :=
  ∀ r ∈ hotRows feed targets, sinceSeq < r.seq → ∀ segment ∈ feed.segments, ∀ r' ∈ segment.rows,
    sinceSeq < r'.seq → r'.seq < r.seq

instance : Decidable (HotNewer feed targets sinceSeq) :=
  inferInstanceAs (Decidable (∀ r ∈ hotRows feed targets, sinceSeq < r.seq →
    ∀ segment ∈ feed.segments, ∀ r' ∈ segment.rows, sinceSeq < r'.seq → r'.seq < r.seq))

theorem reported_perm (h : HotNewer feed targets sinceSeq) :
    (reported feed targets sinceSeq).Perm (changesAfter feed targets sinceSeq) := by
  have hu : ∀ r ∈ hotRows feed targets, sinceSeq < r.seq →
      hotCursor feed targets sinceSeq < r.seq := by
    intro r hr he
    cases hl : (coldAfter feed targets sinceSeq).getLast? with
    | none => rw [hotCursor, hl]; exact he
    | some last =>
      obtain ⟨hmem, hlt⟩ := mem_coldAfter.1 (mem_of_getLast? hl)
      obtain ⟨segment, hs, r', hr', -, rfl⟩ := mem_coldChanges.1 hmem
      rw [hotCursor, hl]
      exact h r hr he segment hs r' hr' hlt
  have hh : hotAfter feed targets (hotCursor feed targets sinceSeq) =
      hotAfter feed targets sinceSeq := by
    rw [hotAfter_of_le le_hotCursor_self, filter_eq_self]
    intro change hc
    obtain ⟨r, hr, he, rfl⟩ := mem_hotAfter.1 hc
    exact decide_eq_true (hu r hr he)
  rw [reported, hh, changesAfter, allChanges, filter_append, filter_map]
  refine ((perm_ordered _ _).filter _).append (List.Perm.map _ ?_)
  exact (perm_ordered _ _).filter _

theorem served_of_hotNewer (hfl : feed.historyFloor = 0) (hi : 0 ≤ sinceSeq)
    (hg : ¬Gap feed sinceSeq) (h : HotNewer feed targets sinceSeq) :
    Served feed targets sinceSeq := by
  have ha : ∀ c, 0 ≤ c → ¬Gap feed c → Accepts feed c := fun c hc hg ↦ by
    rcases hc.eq_or_lt with rfl | hp
    · exact .inl rfl
    · exact .inr ⟨hp, hfl ▸ hc, hg⟩
  refine ⟨ha sinceSeq hi hg, fun change hchg ↦ ?_⟩
  have he := lt_of_mem_reported hchg
  refine ha change.seq (hi.trans he.le) ?_
  rintro ⟨-, hne, hall⟩
  rcases mem_append.1 hchg with hcd | hh
  · -- a cold change does not lie before itself
    obtain ⟨segment, hs, r, hr, -, rfl⟩ := mem_coldChanges.1 (mem_coldAfter.1 hcd).1
    have : r.seq + 1 < r.seq := hall segment hs r hr
    omega
  · obtain ⟨r, hr, -, rfl⟩ := mem_hotAfter.1 hh
    obtain ⟨segment, hs⟩ := exists_mem_of_ne_nil _ hne
    obtain ⟨r', hr', -⟩ := segment.exists_minSeq
    have hf : r.seq + 1 < r'.seq := hall segment hs r' hr'
    have he : sinceSeq < r.seq := he
    have := h r hr he segment hs r' hr' (by omega)
    omega

/-- **Following the feed.** With no compaction floor, a consumer whose start cursor has fallen
behind the cold changes is refused: the changes in between may have been dropped. -/
theorem follow_changesSince (feed : ChangeFeed K V) (targets : ChangeFeedTargets K S)
    (hfloor : feed.historyFloor = 0) (sinceSeq : ℤ) :
    (Gap feed sinceSeq → ∀ limit, 0 < limit → ∃ oldest, feed.oldestCold = some oldest ∧
      changesSince feed targets sinceSeq limit = .error (.retentionGap oldest)) ∧
    (0 ≤ sinceSeq → ¬Gap feed sinceSeq → HotNewer feed targets sinceSeq →
      ∀ (limits : ℕ → ℕ), (∀ i, 0 < limits i) →
        ∀ fuel, (changesAfter feed targets sinceSeq).length < fuel →
          ∃ out, follow (changesSince feed targets) MirrorChange.seq fuel limits sinceSeq =
              .ok (some out) ∧
            out.IncreasingBy MirrorChange.seq ∧
            out.Perm (changesAfter feed targets sinceSeq)) := by
  constructor
  · intro hg limit hl
    obtain ⟨oldest, hold, hpos, -⟩ := gap_iff.1 hg
    refine ⟨oldest, hold, ?_⟩
    have hl' : ¬(limit : ℤ) ≤ 0 := by omega
    have hs : ¬sinceSeq < 0 := by omega
    have hnotBelow : ¬(0 < sinceSeq ∧ sinceSeq < feed.historyFloor) := by omega
    simp only [changesSince, changesSincePgImpl, getD_some, any_none, hs, hl',
      hnotBelow, if_false, Bool.false_eq_true, Int.toNat_natCast]
    exact fetchSinceSeqPage_of_gap hold hg limit
  · intro hs hg hnw limits hi fuel hu
    have hp := reported_perm hnw
    obtain ⟨o, hf, -, hdn⟩ := (serves feed targets).follow_eq hi
      (served_of_hotNewer hfloor hs hg hnw) fuel
    rw [hdn (hp.length_eq ▸ hu)] at hf
    exact ⟨_, hf, increasingBy_reported, hp⟩

namespace Example

def row (seq : ℤ) : LogRow ℤ := ⟨seq, .insert, seq⟩

def segment (seq : ℤ) : ColdSegment ℤ ℤ where
  objectPath := "batch"
  minSeq := seq
  maxSeq := seq
  rows := [⟨row seq, seq⟩]
  minSeq_le := by simp [row]
  le_maxSeq := by simp [row]
  exists_minSeq := ⟨_, mem_singleton_self _, rfl⟩

theorem hot_pos_nil : ∀ r ∈ ([] : List (LogRow ℤ)), 0 < r.seq := fun _ h ↦ nomatch h

theorem zero_nonneg : (0 : ℤ) ≤ 0 := le_rfl

def flushed : ChangeFeed ℤ ℤ where
  hot := [row 12]
  active := [segment 11]
  history := [segment 10]
  historyFloor := 0
  hot_pos := by decide
  cold_pos := by decide
  seq_nodup := by decide
  historyFloor_nonneg := zero_nonneg

def shared : ChangeFeedTargets ℤ ℤ := ⟨1, none⟩

end Example

open Example in
theorem follow_changesSince_flushed :
    HotNewer flushed shared 9 ∧ ∃ out : List (MirrorChange ℤ ℤ ℤ),
      follow (changesSince flushed shared) MirrorChange.seq 4 (fun _ ↦ 2) 9 = .ok (some out) ∧
        out.IncreasingBy MirrorChange.seq ∧ out.Perm (changesAfter flushed shared 9) :=
  ⟨by decide, (follow_changesSince flushed shared rfl 9).2 (by decide)
    (fun hg ↦ absurd
      (hg.2.2 _ (mem_append_right _ mem_cons_self) _ mem_cons_self) (by decide))
    (by decide) (fun _ ↦ 2) (fun _ ↦ Nat.two_pos) 4 (by decide)⟩

open Example in
theorem flushed_refuses_early_cursor :
    (changesAfter flushed shared 3).map MirrorChange.seq = [11, 10, 12] ∧
      changesSince flushed shared 3 1 = .error (.retentionGap 10) :=
  ⟨rfl, rfl⟩

end Feed

end Koldstore
