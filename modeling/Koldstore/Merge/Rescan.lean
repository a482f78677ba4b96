import Koldstore.Merge.Stream

/-!
# Rescanning a merge row stream

What a stream has left to emit can be said without its machinery.
-/

namespace Koldstore

open List
open Except (bind_eq_ok_iff map_eq_ok_iff)

namespace MergeSources

open NewestFirstWinnerResolver

variable {K C W B : Type*} [DecidableEq K] (src : MergeSources K C W B)

/-! ### Cold winners -/

def masks (pk : K) : Bool :=
  match src.overlay with
  | .eager pks => decide (pk ∈ pks)
  | .deferred masked => masked pk

structure OverlayRight (overlay : List K) : Prop where
  masks : ∀ pk ∈ overlay, src.masks pk = true
  initial : ∀ pk ∈ src.initialOverlay, pk ∈ overlay

def pageKeys (pages : List (List (HotPageRow K C W))) : List K := pages.flatten.map HotPageRow.pk

def unmasked (group : List (ColdRow K C W)) : List (ColdRow K C W) :=
  group.filter fun r ↦ !src.masks r.pk

def resolveCold (ρ : NewestFirstWinnerResolver K) (rows : List (ColdRow K C W)) :
    Except SeenKeyLimitExceeded (List (ColdRow K C W) × NewestFirstWinnerResolver K) :=
  ρ.resolveBatch .cold ColdRow.pk ColdRow.seq ColdRow.deleted (!ρ.skipColdIdentityRetention) rows

def coldWinnersOf : List (List (ColdRow K C W)) → NewestFirstWinnerResolver K →
    Except SeenKeyLimitExceeded (List (ColdRow K C W))
  | [], _ => .ok []
  | group :: groups, ρ =>
    (resolveCold ρ (src.unmasked group)).bind fun r ↦ (coldWinnersOf groups r.2).map (r.1 ++ ·)

variable {winners : List (ColdRow K C W)} {groups : List (List (ColdRow K C W))}

section Load

variable {src} {ρ ρ' : NewestFirstWinnerResolver K} {overlay : List K}

theorem resolveHotPage_first {page : List (HotPageRow K C W)}
    (hnd : (ρ.seen ++ page.map HotPageRow.pk).Nodup) :
    resolveHotPage false page ρ =
      (maskOlderPks (page.map HotPageRow.pk) ρ).map fun ρ' ↦ (page.map hotResolved, ρ') := by
  simp only [resolveHotPage, Bool.false_eq_true, if_false]
  rw [resolveBatch_of_nodup hnd fun _ _ ↦ rfl]
  cases maskOlderPks (page.map HotPageRow.pk) ρ <;> rfl

variable (h : src.OverlayRight overlay)
include h

theorem OverlayRight.mem_probe_iff {group : List (ColdRow K C W)}
    {row : ColdRow K C W} (hr : row ∈ group) :
    row.pk ∈ src.probeOverlayForColdBatch group overlay ↔ src.masks row.pk = true := by
  obtain ⟨hm, hin⟩ := h
  unfold MergeSources.masks at hm ⊢
  rw [initialOverlay] at hin
  rw [probeOverlayForColdBatch]
  cases hs : src.overlay with
  | eager pks =>
    rw [hs] at hm hin
    simp only [decide_eq_true_eq] at hm ⊢
    exact ⟨hm row.pk, hin row.pk⟩
  | deferred masked =>
    rw [hs] at hm
    simp only [mem_append, mem_filter, mem_map]
    constructor
    · rintro (hmem | ⟨-, hmem⟩)
      · exact hm row.pk hmem
      · simp only [Bool.and_eq_true] at hmem
        exact hmem.2
    · intro hmsk
      by_cases hmem : row.pk ∈ overlay
      · exact .inl hmem
      · exact .inr ⟨⟨row, hr, rfl⟩, by simp [hmem, hmsk]⟩

theorem OverlayRight.probe (group : List (ColdRow K C W)) :
    src.OverlayRight (src.probeOverlayForColdBatch group overlay) := by
  rw [probeOverlayForColdBatch]
  split
  · exact h
  next masked hs =>
    refine ⟨fun pk hpk ↦ ?_, fun pk hpk ↦ mem_append_left _ (h.initial pk hpk)⟩
    rcases mem_append.1 hpk with hpk | hpk
    · exact h.masks pk hpk
    · simp only [mem_filter, Bool.and_eq_true] at hpk
      simp [MergeSources.masks, hs, hpk.2.2]

theorem resolveColdGroup_eq (group : List (ColdRow K C W)) : src.resolveColdGroup group overlay ρ =
      (resolveCold ρ (src.unmasked group)).map fun r ↦
        (r.1, src.probeOverlayForColdBatch group overlay, r.2) := by
  have hf : (group.filter fun r ↦
      !decide (r.pk ∈ src.probeOverlayForColdBatch group overlay)) = src.unmasked group := by
    refine filter_congr fun row hr ↦ ?_
    simp only [h.mem_probe_iff hr, Bool.decide_eq_true]
  rw [resolveColdGroup]
  simp only [hf]
  rfl

theorem drainCold_fst (groups : List (List (ColdRow K C W))) :
    (src.drainCold groups overlay ρ).map Prod.fst = src.coldWinnersOf groups ρ := by
  induction groups generalizing overlay ρ with
  | nil => rfl
  | cons group groups ih =>
    rw [drainCold, coldWinnersOf, resolveColdGroup_eq h]
    cases resolveCold ρ (src.unmasked group) with
    | error e => rfl
    | ok r =>
      simp only [Except.map, Except.bind, ← ih (h.probe group)]
      cases src.drainCold groups (src.probeOverlayForColdBatch group overlay) r.2 <;> rfl

omit h

variable {rows : List (ColdRow K C W)}

theorem resolveCold_ok (h : resolveCold ρ rows = .ok (winners, ρ')) :
    ρ' = { ρ with seen := ρ'.seen } ∧ ∀ r ∈ winners, r ∈ rows :=
  ⟨takeUnseenOrdered_frame h, fun _ hr ↦
    mem_of_mem_batchWinners ((takeUnseenOrdered_sublist h).subset hr)⟩

theorem drainCold_ok (hov : src.OverlayRight overlay) {overlay' : List K}
    (h : src.drainCold groups overlay ρ = .ok (rows, overlay', ρ')) :
    src.OverlayRight overlay' ∧ ρ' = { ρ with seen := ρ'.seen } ∧
      ∀ r ∈ rows, r ∈ groups.flatten := by
  induction groups generalizing overlay ρ rows with
  | nil =>
    cases h
    exact ⟨hov, rfl, by simp⟩
  | cons group groups ih =>
    rw [drainCold, resolveColdGroup_eq hov] at h
    obtain ⟨_, hg, hre⟩ := bind_eq_ok_iff.1 h
    obtain ⟨⟨winners, ρ₁⟩, hcd, rfl⟩ := map_eq_ok_iff.1 hg
    obtain ⟨⟨rest, overlay₁, ρ₂⟩, hdr, heq⟩ := map_eq_ok_iff.1 hre
    obtain ⟨rfl, rfl, rfl⟩ : winners ++ rest = rows ∧ overlay₁ = overlay' ∧ ρ₂ = ρ' := by
      simpa using heq
    obtain ⟨hov', hfr, hmem⟩ := ih (hov.probe group) hdr
    obtain ⟨hfr₁, hws⟩ := resolveCold_ok hcd
    refine ⟨hov', ?_, ?_⟩
    · rw [hfr, hfr₁]
    · intro r hr
      rw [flatten_cons, mem_append]
      rcases mem_append.1 hr with hr | hr
      · exact .inl (mem_of_mem_filter (hws r hr))
      · exact .inr (hmem r hr)

variable {pages : List (List (HotPageRow K C W))}

theorem drainHot_replay (hp : ∀ page ∈ pages, page ≠ []) :
    drainHot true pages ρ = .ok (pages.flatten.map hotResolved, [], ρ) := by
  induction pages with
  | nil => rfl
  | cons page pages ih =>
    rw [forall_mem_cons] at hp
    simp [drainHot, resolveHotPage, Except.bind, Except.map, hp.1, ih hp.2]

theorem drainHot_first (hp : ∀ page ∈ pages, page ≠ []) (hnd : (ρ.seen ++ pageKeys pages).Nodup) :
    drainHot false pages ρ = (maskOlderPks (pageKeys pages) ρ).map fun ρ' ↦
      (pages.flatten.map hotResolved, [], ρ') := by
  induction pages generalizing ρ with
  | nil => rfl
  | cons page pages ih =>
    rw [forall_mem_cons] at hp
    have hks : pageKeys (page :: pages) = page.map HotPageRow.pk ++ pageKeys pages := by
      simp [pageKeys]
    rw [hks, ← List.append_assoc] at hnd
    have hpg := (nodup_append.1 hnd).1
    rw [drainHot, resolveHotPage_first hpg, hks, maskOlderPks_append]
    cases hmk : maskOlderPks (page.map HotPageRow.pk) ρ with
    | error e => rfl
    | ok ρ₁ =>
      have hsn : ρ₁.seen = ρ.seen ++ page.map HotPageRow.pk := by rw [maskOlderPks_eq_ok hpg hmk]
      simp only [Except.map, Except.bind, isEmpty_map, List.isEmpty_iff, hp.1, if_false,
        ih hp.2 (hsn ▸ hnd)]
      cases maskOlderPks (pageKeys pages) ρ₁ <;> simp

end Load

/-! ### What is left of a pass -/

def showHot (row : HotPageRow K C W) : EmittedRow K W := src.materialize (hotResolved row)

def hotRest (σ : MergeRowStream K C W) : List (HotPageRow K C W) :=
  if σ.hotPhaseDone then [] else σ.hotPages.flatten

def coldResolver (σ : MergeRowStream K C W) :
    Except SeenKeyLimitExceeded (NewestFirstWinnerResolver K) :=
  if σ.hotPhaseDone || σ.replayHot then .ok σ.resolver
  else (maskOlderPks (pageKeys σ.hotPages ++ src.initialOverlay) σ.resolver).map checkpoint

def hotOutput (σ : MergeRowStream K C W) : List (EmittedRow K W) :=
  σ.hotWinners.map src.materialize ++ (hotRest σ).map src.showHot

def freshResolver : NewestFirstWinnerResolver K :=
  .withMaxSeenKeys src.maxSeenKeys src.pkRangesDisjoint

omit [DecidableEq K] in
theorem hotOutput_eq (σ : MergeRowStream K C W) : src.hotOutput σ =
    (σ.hotWinners ++ (hotRest σ).map hotResolved).map src.materialize := by
  rw [map_append, map_map]
  rfl

structure Invariant (σ : MergeRowStream K C W) : Prop where
  overlay : src.OverlayRight σ.overlay
  pages : σ.hotPages <:+ src.hotPages
  groups : σ.coldGroups <:+ src.coldGroups
  hot_source : ∀ row ∈ σ.hotWinners, row.source = .hot
  hot_phase : σ.hotPhaseDone = false →
    σ.coldGroups = src.coldGroups ∧ σ.coldWinners = [] ∧ σ.mode = .streaming
  first_pass : σ.hotPhaseDone = false → σ.replayHot = false →
    σ.overlay = src.initialOverlay ∧
      ∃ loaded, maskOlderPks loaded src.freshResolver = .ok σ.resolver ∧
        loaded ++ pageKeys σ.hotPages = pageKeys src.hotPages
  checkpointed : σ.hotPhaseDone = true → σ.replayHot = false →
    ∃ ρ, maskOlderPks (pageKeys src.hotPages ++ src.initialOverlay) src.freshResolver = .ok ρ ∧
      σ.resolver.masked = ρ.seen

section States

variable {src} {σ : MergeRowStream K C W}

theorem Invariant.pages_ne_nil (h : src.Invariant σ) : ∀ page ∈ σ.hotPages, page ≠ [] :=
  fun page hpg ↦ src.pages_ne_nil page (h.pages.subset hpg)

theorem Invariant.nodup (h : src.Invariant σ) (hdn : σ.hotPhaseDone = false)
    (hrp : σ.replayHot = false) : (σ.resolver.seen ++ pageKeys σ.hotPages).Nodup := by
  obtain ⟨-, loaded, hld, hks⟩ := h.first_pass hdn hrp
  have hnd : (loaded ++ pageKeys σ.hotPages).Nodup := by
    rw [hks]
    exact src.hot_nodup
  have hf : (src.freshResolver.seen ++ loaded).Nodup := (nodup_append.1 hnd).1
  have hsn : σ.resolver.seen = loaded := by rw [maskOlderPks_eq_ok hf hld]; rfl
  rw [hsn]
  exact hnd

theorem invariant_newStream : src.Invariant src.newStream where
  overlay := by
    refine ⟨fun pk hpk ↦ ?_, fun pk hpk ↦ hpk⟩
    simp only [newStream, initialOverlay] at hpk
    rw [masks]
    split at hpk
    next hs => simpa [hs] using hpk
    · simp at hpk
  pages := suffix_refl _
  groups := suffix_refl _
  hot_source := forall_mem_nil _
  hot_phase _ := ⟨rfl, rfl, rfl⟩
  first_pass _ _ := ⟨rfl, [], rfl, rfl⟩
  checkpointed := nofun

theorem Invariant.reset (h : src.Invariant σ) : src.Invariant (src.reset σ) where
  overlay := h.overlay
  pages := suffix_refl _
  groups := suffix_refl _
  hot_source := forall_mem_nil _
  hot_phase _ := ⟨rfl, rfl, rfl⟩
  first_pass := nofun
  checkpointed := nofun

end States

structure SameScan (σ σ' : MergeRowStream K C W) : Prop where
  replayHot : σ'.replayHot = σ.replayHot
  maxSeenKeys : σ'.resolver.maxSeenKeys = σ.resolver.maxSeenKeys
  skip : σ'.resolver.skipColdIdentityRetention = σ.resolver.skipColdIdentityRetention
  masked : σ.replayHot = true → σ'.resolver.masked = σ.resolver.masked

variable {σ' : MergeRowStream K C W}

omit [DecidableEq K] in
theorem SameScan.trans {σ σ'' : MergeRowStream K C W} (h : SameScan σ σ') (h' : SameScan σ' σ'') :
    SameScan σ σ'' where
  replayHot := h'.replayHot.trans h.replayHot
  maxSeenKeys := h'.maxSeenKeys.trans h.maxSeenKeys
  skip := h'.skip.trans h.skip
  masked hreplay := (h'.masked (h.replayHot.trans hreplay)).trans (h.masked hreplay)

def work (σ : MergeRowStream K C W) : ℕ :=
  match σ.mode with
  | .sortedBuffer _ => 0
  | .streaming => σ.hotPages.length + σ.coldGroups.length + if σ.hotPhaseDone then 1 else 2

variable [DecidableEq C]

def showCold (row : ColdRow K C W) : EmittedRow K W :=
  src.materialize (coldResolved src.projectionColumns row)

def showBuffer (hydratePending : Bool) (queue : List (ResolvedRow K C W)) : List (EmittedRow K W) :=
  queue.map fun row ↦ src.materialize (if hydratePending then src.hydrateBody row else row)

def remaining (σ : MergeRowStream K C W) : Except SeenKeyLimitExceeded (List (EmittedRow K W)) :=
  match σ.mode with
  | .sortedBuffer queue => .ok (src.showBuffer σ.bodyHydratePending queue)
  | .streaming =>
    (src.coldResolver σ).bind fun ρ ↦ (src.coldWinnersOf σ.coldGroups ρ).map fun rows ↦
      σ.hotWinners.map src.materialize ++ (hotRest σ).map src.showHot ++
        (σ.coldWinners.map src.materialize ++ rows.map src.showCold)

section Buffer

variable {src}

theorem hydrateBody_of_hot {row : ResolvedRow K C W} (h : row.source = .hot) :
    src.hydrateBody row = row := by
  rw [hydrateBody]
  split
  next hcd => simp [h] at hcd
  · rfl

variable {r : ColdRow K C W}

omit [DecidableEq C] in
theorem exists_bodyVersion (hr : r ∈ src.coldGroups.flatten) :
    ∃ version, src.bodyVersion r.pk r.seq = some version ∧ version.stored = r.stored := by
  obtain ⟨version, hv⟩ : ∃ version, src.bodyVersion r.pk r.seq = some version :=
    Option.isSome_iff_exists.1 (find?_isSome.2 ⟨r, mem_reverse.2 hr, by simp⟩)
  have hk : version.pk = r.pk ∧ version.seq = r.seq := by simpa using find?_some hv
  have hmem := mem_reverse.1 (mem_of_find?_eq_some hv)
  exact ⟨version, hv, src.versions _ hmem _ hr hk.1 hk.2⟩

theorem materialize_hydrateBody {plan : List C × List C} (hpl : src.lateProjection = some plan)
    (hr : r ∈ src.coldGroups.flatten) :
    src.materialize (src.hydrateBody (coldResolved plan.1 r)) = src.showCold r := by
  obtain ⟨version, hv, hs⟩ := exists_bodyVersion hr
  have hcov : ∀ c ∈ src.projectionColumns, c ∈ plan.1 ∨ c ∈ plan.2 := by
    obtain ⟨ordered, -, hcd⟩ := Option.bind_eq_some_iff.1 hpl
    simp only [coldProjectionPlan] at hcd
    split at hcd
    · simp at hcd
    · cases hcd
      intro c hc
      by_cases hmem : c ∈ (src.primaryKeyColumns ++ [ordered.leadingColumn]).dedup
      · exact .inl hmem
      · exact .inr (mem_filter.2 ⟨hc, by simpa using hmem⟩)
  simp only [hydrateBody, hpl, coldResolved, hv, showCold, materialize,
    EmittedRow.mk.injEq, true_and]
  refine map_congr_left fun c hc ↦ ?_
  have hrd := src.projected hc
  rw [hs, if_pos hrd]
  by_cases hla : c ∈ plan.2 ++ src.primaryKeyColumns
  · rw [if_pos hla]
    cases r.stored c <;> simp
  · have ho : c ∈ plan.1 :=
      (hcov c hrd).resolve_right fun hmem ↦ hla (mem_append_left _ hmem)
    rw [if_neg hla, if_pos ho, Option.none_or]

theorem showBuffer_drained {hotRows : List (ResolvedRow K C W)}
    (hh : ∀ row ∈ hotRows, row.source = .hot) {coldRows : List (ColdRow K C W)}
    (hcd : ∀ r ∈ coldRows, r ∈ src.coldGroups.flatten) :
    src.showBuffer (src.lateProjection.isSome && !coldRows.isEmpty)
        (hotRows ++ coldRows.map (coldResolved src.competeColumns)) =
      hotRows.map src.materialize ++ coldRows.map src.showCold := by
  rw [showBuffer, map_append, map_map]
  congr 1
  · refine map_congr_left fun row hrow ↦ ?_
    rw [hydrateBody_of_hot (hh row hrow), ite_self]
  · refine map_congr_left fun r hr ↦ ?_
    have hne : coldRows.isEmpty = false := by simpa using ne_nil_of_mem hr
    rw [Function.comp_apply, competeColumns, hne]
    cases hla : src.lateProjection with
    | none => rfl
    | some plan => exact materialize_hydrateBody hla (hcd r hr)

end Buffer

section HotPhase

def Progress (σ : MergeRowStream K C W) : Except SeenKeyLimitExceeded (MergeRowStream K C W) → Prop
  | .error e => src.remaining σ = .error e
  | .ok σ' => src.Invariant σ' ∧ SameScan σ σ' ∧
      (src.remaining σ).PermEq (src.remaining σ') ∧ work σ' < work σ

variable {src} {σ : MergeRowStream K C W}

theorem remaining_streaming (h : σ.mode = .streaming) :
    src.remaining σ = (src.coldResolver σ).bind fun ρ ↦
      (src.coldWinnersOf σ.coldGroups ρ).map fun rows ↦
        σ.hotWinners.map src.materialize ++ (hotRest σ).map src.showHot ++
          (σ.coldWinners.map src.materialize ++ rows.map src.showCold) := by
  rw [remaining, h]

theorem remaining_congr (hmd : σ.mode = .streaming) (hmd' : σ'.mode = .streaming)
    (hr : src.coldResolver σ = src.coldResolver σ') (hh : src.hotOutput σ = src.hotOutput σ')
    (hgs : σ.coldGroups = σ'.coldGroups) (hcd : σ.coldWinners = σ'.coldWinners) :
    src.remaining σ = src.remaining σ' := by
  unfold hotOutput at hh
  rw [remaining_streaming hmd, remaining_streaming hmd', hr, hgs, hh, hcd]

theorem loadNextHotPage_spec (h : src.Invariant σ) (hdn : σ.hotPhaseDone = false)
    (hws : σ.hotWinners = []) :
    match loadNextHotPage σ with
    | .error e => src.remaining σ = .error e
    | .ok σ' => src.Invariant σ' ∧ SameScan σ σ' ∧ src.remaining σ = src.remaining σ' ∧
        σ'.hotPhaseDone = false ∧ (σ'.hotWinners = [] ∧ σ' = σ ∧ σ.hotPages = [] ∨
          σ'.hotWinners ≠ [] ∧ σ'.hotPages.length + 1 = σ.hotPages.length) := by
  obtain ⟨hgs, hcd, hmd⟩ := h.hot_phase hdn
  rw [loadNextHotPage]
  cases hp : σ.hotPages with
  | nil => exact ⟨h, ⟨rfl, rfl, rfl, fun _ ↦ rfl⟩, rfl, hdn, .inl ⟨hws, rfl, rfl⟩⟩
  | cons page pages =>
    have hu : pages <:+ src.hotPages := (suffix_cons page pages).trans (hp ▸ h.pages)
    have hne : page ≠ [] := h.pages_ne_nil page (by simp [hp])
    have hks : pageKeys σ.hotPages = page.map HotPageRow.pk ++ pageKeys pages := by
      simp [pageKeys, hp]
    have hs : ∀ row ∈ page.map (hotResolved (C := C) (W := W)), row.source = .hot := by
      intro row hr
      obtain ⟨hot, -, rfl⟩ := mem_map.1 hr
      rfl
    dsimp only
    by_cases hrp : σ.replayHot = true
    · have hl : resolveHotPage σ.replayHot page σ.resolver =
          .ok (page.map hotResolved, σ.resolver) := by simp [resolveHotPage, hrp]
      rw [hl]
      refine ⟨⟨h.overlay, hu, h.groups, hs, fun _ ↦ ⟨hgs, hcd, hmd⟩, ?_, ?_⟩,
        ⟨rfl, rfl, rfl, fun _ ↦ rfl⟩, ?_, hdn, .inr ⟨by simpa using hne, by simp⟩⟩
      · simp [hrp]
      · simp [hrp]
      · refine remaining_congr hmd hmd ?_ ?_ rfl rfl
        · simp [coldResolver, hrp]
        · simp [hotOutput, hotRest, hdn, hp, hws, showHot]
    · rw [Bool.not_eq_true] at hrp
      obtain ⟨hov, loaded, hld, hloadedKeys⟩ := h.first_pass hdn hrp
      have hnd := h.nodup hdn hrp
      rw [hks, ← List.append_assoc] at hnd hloadedKeys
      have hpg := (nodup_append.1 hnd).1
      have hl : resolveHotPage σ.replayHot page σ.resolver =
          (maskOlderPks (page.map HotPageRow.pk) σ.resolver).map fun ρ ↦
            (page.map hotResolved, ρ) := by rw [hrp, resolveHotPage_first hpg]
      rw [hl]
      cases hmk : maskOlderPks (page.map HotPageRow.pk) σ.resolver with
      | error e =>
        rw [remaining_streaming hmd]
        simp [coldResolver, hdn, hrp, hks, List.append_assoc, maskOlderPks_append, hmk,
          Except.bind, Except.map]
      | ok ρ =>
        have hρ := maskOlderPks_eq_ok hpg hmk
        refine ⟨⟨h.overlay, hu, h.groups, hs, fun _ ↦ ⟨hgs, hcd, hmd⟩, ?_, ?_⟩,
          ⟨rfl, by rw [hρ], by rw [hρ], by simp [hrp]⟩, ?_, hdn,
          .inr ⟨by simpa using hne, by simp⟩⟩
        · refine fun _ _ ↦ ⟨hov, loaded ++ page.map HotPageRow.pk, ?_, hloadedKeys⟩
          rw [maskOlderPks_append, hld]
          exact hmk
        · simp [hdn]
        · refine remaining_congr hmd hmd ?_ ?_ rfl rfl
          · simp only [coldResolver, hdn, hrp, hks, List.append_assoc]
            rw [maskOlderPks_append, hmk]
            rfl
          · simp [hotOutput, hotRest, hdn, hp, hws, showHot]

theorem finishHotPhase_spec (h : src.Invariant σ) (hdn : σ.hotPhaseDone = false)
    (hp : σ.hotPages = []) : src.Progress σ (finishHotPhase σ) := by
  obtain ⟨hgs, hcd, hmd⟩ := h.hot_phase hdn
  rw [finishHotPhase]
  by_cases hrp : σ.replayHot = true
  · rw [if_pos hrp]
    refine ⟨⟨h.overlay, h.pages, h.groups, h.hot_source, by simp, by simp, by simp [hrp]⟩,
      ⟨rfl, rfl, rfl, fun _ ↦ rfl⟩, .of_eq ?_, by simp [work, hmd, hdn]⟩
    refine remaining_congr hmd hmd ?_ ?_ rfl rfl
    · simp [coldResolver, hrp]
    · simp [hotOutput, hotRest, hp]
  · rw [if_neg hrp]
    rw [Bool.not_eq_true] at hrp
    obtain ⟨hov, loaded, hld, hks⟩ := h.first_pass hdn hrp
    have hr : src.coldResolver σ = (maskOlderPks σ.overlay σ.resolver).map checkpoint := by
      simp [coldResolver, hdn, hrp, hp, pageKeys, hov]
    cases hmk : maskOlderPks σ.overlay σ.resolver with
    | error e =>
      rw [Except.map, Progress, remaining_streaming hmd, hr, hmk]
      rfl
    | ok ρ =>
      rw [hmk] at hr
      have hfr := maskOlderPks_frame hmk
      have hm : ρ.maxSeenKeys = σ.resolver.maxSeenKeys := by rw [hfr]
      have hsk : ρ.skipColdIdentityRetention = σ.resolver.skipColdIdentityRetention := by rw [hfr]
      refine ⟨⟨h.overlay, h.pages, h.groups, h.hot_source, nofun, nofun, ?_⟩,
        ⟨rfl, hm, hsk, by simp [hrp]⟩, .of_eq ?_, by simp [work, hmd, hdn]⟩
      · refine fun _ _ ↦ ⟨ρ, ?_, rfl⟩
        have ha : loaded = pageKeys src.hotPages := by simpa [hp, pageKeys] using hks
        rw [maskOlderPks_append, ← ha, hld, ← hov]
        exact hmk
      · refine remaining_congr hmd hmd ?_ ?_ rfl rfl
        · rw [hr]
          simp [coldResolver, Except.map]
        · simp [hotOutput, hotRest, hp]

variable [LinearOrder B]

variable {plan : OrderedPlan C B}

omit [DecidableEq K] [DecidableEq C] [LinearOrder B] in
theorem initialOverlay_of_ordered (hpl : src.ordered = some plan) : src.initialOverlay = [] := by
  rw [initialOverlay]
  split
  next pks hs => simp [src.ordered_deferred pks hs] at hpl
  · rfl

theorem showBuffer_sortBuffer (src : MergeSources K C W B) (plan : OrderedPlan C B)
    (hydratePending : Bool) (rows : List (ResolvedRow K C W)) :
    (src.showBuffer hydratePending (src.sortBuffer plan rows)).Perm
      (src.showBuffer hydratePending rows) :=
  (perm_insertionSort _ rows).map _

def drainedResolver (σ : MergeRowStream K C W) :
    Except SeenKeyLimitExceeded (NewestFirstWinnerResolver K) :=
  if σ.replayHot then .ok σ.resolver else maskOlderPks (pageKeys σ.hotPages) σ.resolver

omit [DecidableEq C] [LinearOrder B] in
theorem drainHot_eq (h : src.Invariant σ) (hdn : σ.hotPhaseDone = false) :
    drainHot σ.replayHot σ.hotPages σ.resolver =
      (drainedResolver σ).map fun ρ ↦ (σ.hotPages.flatten.map hotResolved, [], ρ) := by
  rw [drainedResolver]
  cases hrp : σ.replayHot with
  | true => rw [drainHot_replay h.pages_ne_nil]; rfl
  | false => rw [drainHot_first h.pages_ne_nil (h.nodup hdn hrp)]; rfl

omit [DecidableEq C] [LinearOrder B] in
theorem drainedResolver_ok (h : src.Invariant σ) (hdn : σ.hotPhaseDone = false)
    {ρ : NewestFirstWinnerResolver K} (hρ : drainedResolver σ = .ok ρ) :
    ρ = { σ.resolver with seen := ρ.seen } ∧
      (σ.replayHot = false → maskOlderPks (pageKeys src.hotPages) src.freshResolver = .ok ρ) := by
  rw [drainedResolver] at hρ
  split at hρ
  next hrp =>
    obtain ⟨⟩ := hρ
    exact ⟨rfl, fun hf ↦ by simp [hf] at hrp⟩
  · refine ⟨maskOlderPks_frame hρ, fun hrp ↦ ?_⟩
    obtain ⟨-, loaded, hld, hks⟩ := h.first_pass hdn hrp
    rw [← hks, maskOlderPks_append, hld]
    exact hρ

theorem maybeEnterOrderedBuffer_spec (hpl : src.ordered = some plan)
    (h : src.Invariant σ) (hdn : σ.hotPhaseDone = false) :
    match src.maybeEnterOrderedBuffer plan σ with
    | .error e => src.remaining σ = .error e
    | .ok σ' => src.Invariant σ' ∧ SameScan σ σ' ∧ (src.remaining σ).PermEq (src.remaining σ') ∧
        (σ' = σ ∨ ∃ queue, σ'.mode = .sortedBuffer queue) := by
  obtain ⟨hgs, hcd, hmd⟩ := h.hot_phase hdn
  have hin := initialOverlay_of_ordered hpl
  have hs : src.coldResolver σ = (drainedResolver σ).map fun ρ ↦
      if σ.replayHot then ρ else ρ.checkpoint := by
    rw [coldResolver, drainedResolver]
    cases hrp : σ.replayHot <;> simp [hdn, hin, Except.map]
  rw [maybeEnterOrderedBuffer]
  by_cases ho : src.dominates plan σ = true
  · rw [if_pos ho]
    exact ⟨h, ⟨rfl, rfl, rfl, fun _ ↦ rfl⟩, .of_eq rfl, .inl rfl⟩
  rw [if_neg ho, drainHot_eq h hdn]
  cases hd : drainedResolver σ with
  | error e =>
    rw [remaining_streaming hmd, hs, hd]
    rfl
  | ok ρ =>
    have hr : src.remaining σ =
        ((src.drainCold σ.coldGroups σ.overlay (if σ.replayHot then ρ else ρ.checkpoint)).map
          Prod.fst).map fun rows ↦ src.hotOutput σ ++ rows.map src.showCold := by
      rw [remaining_streaming hmd, hs, hd, drainCold_fst h.overlay, hcd]
      rfl
    simp only [Except.map, Except.bind]
    cases hdr : src.drainCold σ.coldGroups σ.overlay
        (if σ.replayHot then ρ else ρ.checkpoint) with
    | error e =>
      rw [hr, hdr]
      rfl
    | ok r =>
      obtain ⟨coldRows, overlay, ρ'⟩ := r
      obtain ⟨hov, hfr, hmem⟩ := drainCold_ok h.overlay hdr
      obtain ⟨hfr₀, hf⟩ := drainedResolver_ok h hdn hd
      have hm : ρ'.maxSeenKeys = σ.resolver.maxSeenKeys := by
        rw [hfr, hfr₀]
        split <;> rfl
      have hsk : ρ'.skipColdIdentityRetention = σ.resolver.skipColdIdentityRetention := by
        rw [hfr, hfr₀]
        split <;> rfl
      refine ⟨⟨hov, nil_suffix, nil_suffix, forall_mem_nil _, nofun, nofun,
        fun _ hrp ↦ ⟨ρ, ?_, ?_⟩⟩, ⟨rfl, hm, hsk, fun hrp ↦ ?_⟩, ?_, .inr ⟨_, rfl⟩⟩
      · rw [hin, append_nil]
        exact hf hrp
      · rw [hfr, if_neg (by simp [show σ.replayHot = false from hrp])]
        rfl
      · rw [hfr, if_pos hrp, hfr₀]
      · rw [hr, hdr]
        have hh : ∀ row ∈ σ.hotWinners ++ σ.hotPages.flatten.map hotResolved,
            row.source = .hot := by
          intro row hrow
          rcases mem_append.1 hrow with hrow | hrow
          · exact h.hot_source row hrow
          · obtain ⟨hot, -, rfl⟩ := mem_map.1 hrow
            rfl
        have hmem' : ∀ r ∈ coldRows, r ∈ src.coldGroups.flatten := hgs ▸ hmem
        have hre : hotRest σ = σ.hotPages.flatten := by simp [hotRest, hdn]
        refine (List.Perm.of_eq ?_).trans (src.showBuffer_sortBuffer plan _ _).symm
        rw [showBuffer_drained hh hmem', hotOutput_eq, hre]

theorem stepHotPhase_spec (h : src.Invariant σ) (hdn : σ.hotPhaseDone = false)
    (hws : σ.hotWinners = []) : src.Progress σ (src.stepHotPhase σ) := by
  obtain ⟨hgs, hcd, hmd⟩ := h.hot_phase hdn
  have hld := loadNextHotPage_spec h hdn hws
  have hwo : 0 < work σ := by simp [work, hmd, hdn]
  rw [stepHotPhase]
  cases hσ₁ : loadNextHotPage σ with
  | error e =>
    rw [hσ₁] at hld
    exact hld
  | ok σ₁ =>
    rw [hσ₁] at hld
    obtain ⟨h₁, hsm, hr, hdn₁, ⟨he, rfl, hg⟩ | ⟨hne, hg⟩⟩ := hld
    · -- the hot phase is exhausted
      have hf := finishHotPhase_spec h hdn hg
      simp only [Except.bind, he, isEmpty_nil, if_true]
      cases hpl : src.ordered with
      | none => exact hf
      | some plan =>
        by_cases hrp : σ₁.replayHot = true
        · simpa [hrp] using hf
        · have hn := maybeEnterOrderedBuffer_spec hpl h hdn
          simp only [hrp]
          cases hσ₂ : src.maybeEnterOrderedBuffer plan σ₁ with
          | error e =>
            rw [hσ₂] at hn
            exact hn
          | ok σ₂ =>
            rw [hσ₂] at hn
            obtain ⟨h₂, hsm₂, hp, rfl | ⟨queue, hq⟩⟩ := hn
            · simpa [hmd] using hf
            · simp only [hq]
              exact ⟨h₂, hsm₂, hp, by simpa [work, hq] using hwo⟩
    · -- a page was loaded
      obtain ⟨hgs₁, -, hmd₁⟩ := h₁.hot_phase hdn₁
      have hls : work σ₁ < work σ := by
        simp only [work, hmd, hmd₁, hdn, hdn₁, hgs, hgs₁]
        omega
      simp only [Except.bind, List.isEmpty_iff, hne, if_false]
      cases hpl : src.ordered with
      | none => exact ⟨h₁, hsm, .of_eq hr, hls⟩
      | some plan =>
        have hn := maybeEnterOrderedBuffer_spec hpl h₁ hdn₁
        dsimp only
        cases hσ₂ : src.maybeEnterOrderedBuffer plan σ₁ with
        | error e =>
          rw [hσ₂] at hn
          exact hr.trans hn
        | ok σ₂ =>
          rw [hσ₂] at hn
          obtain ⟨h₂, hsm₂, hp, heq⟩ := hn
          refine ⟨h₂, hsm.trans hsm₂, hr ▸ hp, ?_⟩
          rcases heq with rfl | ⟨queue, hq⟩
          · exact hls
          · simpa [work, hq] using hwo

end HotPhase

section Step

def StepSpec (σ : MergeRowStream K C W) : Except SeenKeyLimitExceeded (StepResult K C W) → Prop
  | .error e => src.remaining σ = .error e
  | .ok (.emit row σ') => src.Invariant σ' ∧ SameScan σ σ' ∧
      src.remaining σ = (src.remaining σ').map (row :: ·) ∧ work σ' = work σ
  | .ok (.again σ') => src.Progress σ (.ok σ')
  | .ok (.finished σ') => src.Invariant σ' ∧ SameScan σ σ' ∧ src.remaining σ = .ok []

variable {src} {σ : MergeRowStream K C W}

theorem hydrateIfNeeded_spec (h : src.Invariant σ) :
    src.Invariant (src.hydrateIfNeeded σ) ∧ SameScan σ (src.hydrateIfNeeded σ) ∧
      src.remaining (src.hydrateIfNeeded σ) = src.remaining σ ∧
      work (src.hydrateIfNeeded σ) = work σ := by
  rw [hydrateIfNeeded]
  split
  next row queue hmd =>
    split
    next hpe =>
      have hdn : σ.hotPhaseDone = false → False := fun hdn ↦ by
        simp [(h.hot_phase hdn).2.2] at hmd
      rw [Bool.and_eq_true] at hpe
      refine ⟨⟨h.overlay, h.pages, h.groups, h.hot_source, fun hd ↦ (hdn hd).elim,
        fun hd ↦ (hdn hd).elim, h.checkpointed⟩, ⟨rfl, rfl, rfl, fun _ ↦ rfl⟩, ?_, ?_⟩
      · simp [remaining, hmd, showBuffer, hpe.1, Function.comp_def]
      · simp [work, hmd]
    · exact ⟨h, ⟨rfl, rfl, rfl, fun _ ↦ rfl⟩, rfl, rfl⟩
  · exact ⟨h, ⟨rfl, rfl, rfl, fun _ ↦ rfl⟩, rfl, rfl⟩

variable {row : ResolvedRow K C W} {rows : List (ResolvedRow K C W)}

theorem emit_hot_spec (h : src.Invariant σ) (hmd : σ.mode = .streaming)
    (hws : σ.hotWinners = row :: rows) :
    src.StepSpec σ (.ok (.emit (src.materialize row) { σ with hotWinners := rows })) := by
  have hs : ∀ row ∈ rows, row.source = .hot := fun r hr ↦
    h.hot_source r (hws ▸ mem_cons_of_mem _ hr)
  refine ⟨⟨h.overlay, h.pages, h.groups, hs, h.hot_phase, h.first_pass, h.checkpointed⟩,
    ⟨rfl, rfl, rfl, fun _ ↦ rfl⟩, ?_, by simp [work]⟩
  have hrsv : src.coldResolver { σ with hotWinners := rows } = src.coldResolver σ := rfl
  rw [remaining_streaming hmd, remaining_streaming (by exact hmd), hrsv, hws]
  cases src.coldResolver σ with
  | error e => rfl
  | ok ρ =>
    simp only [Except.bind]
    cases src.coldWinnersOf σ.coldGroups ρ <;> rfl

theorem emit_cold_spec (h : src.Invariant σ) (hmd : σ.mode = .streaming) (hh : σ.hotWinners = [])
    (hdn : σ.hotPhaseDone = true) (hws : σ.coldWinners = row :: rows) :
    src.StepSpec σ (.ok (.emit (src.materialize row) { σ with coldWinners := rows })) := by
  refine ⟨⟨h.overlay, h.pages, h.groups, h.hot_source, by simp [hdn], by simp [hdn],
    h.checkpointed⟩, ⟨rfl, rfl, rfl, fun _ ↦ rfl⟩, ?_, by simp [work]⟩
  have hr : src.coldResolver { σ with coldWinners := rows } = src.coldResolver σ := rfl
  have hre : hotRest σ = [] := by simp [hotRest, hdn]
  have hre' : hotRest { σ with coldWinners := rows } = [] := hre
  rw [remaining_streaming hmd, remaining_streaming (by exact hmd), hr, hws, hre, hre', hh]
  cases src.coldResolver σ with
  | error e => rfl
  | ok ρ =>
    simp only [Except.bind]
    cases src.coldWinnersOf σ.coldGroups ρ <;> rfl

theorem stepColdPhase_spec (h : src.Invariant σ) (hmd : σ.mode = .streaming)
    (hh : σ.hotWinners = []) (hdn : σ.hotPhaseDone = true) (hcd : σ.coldWinners = []) :
    src.StepSpec σ (src.stepColdPhase σ) := by
  have he : src.remaining σ =
      (src.coldWinnersOf σ.coldGroups σ.resolver).map (List.map src.showCold) := by
    rw [remaining_streaming hmd]
    simp [coldResolver, hotRest, hdn, hh, hcd, Except.bind]
  rw [stepColdPhase]
  cases hgs : σ.coldGroups with
  | nil =>
    refine ⟨h, ⟨rfl, rfl, rfl, fun _ ↦ rfl⟩, ?_⟩
    rw [he, hgs]
    rfl
  | cons group groups =>
    dsimp only
    rw [resolveColdGroup_eq h.overlay]
    cases hres : resolveCold σ.resolver (src.unmasked group) with
    | error e =>
      rw [Except.map, Except.map, StepSpec, he, hgs, coldWinnersOf, hres]
      rfl
    | ok r =>
      obtain ⟨rows, ρ⟩ := r
      obtain ⟨hfr, -⟩ := resolveCold_ok hres
      have hmsk : ρ.masked = σ.resolver.masked := by rw [hfr]
      have hm : ρ.maxSeenKeys = σ.resolver.maxSeenKeys := by rw [hfr]
      have hsk : ρ.skipColdIdentityRetention = σ.resolver.skipColdIdentityRetention := by rw [hfr]
      have hs : groups <:+ src.coldGroups := (suffix_cons group groups).trans (hgs ▸ h.groups)
      refine ⟨⟨h.overlay.probe group, h.pages, hs, h.hot_source, by simp [hdn],
        by simp [hdn], fun hd hr ↦ ?_⟩, ⟨rfl, hm, hsk, fun _ ↦ hmsk⟩, .of_eq ?_, ?_⟩
      · obtain ⟨ρ₀, hρ₀, hsn⟩ := h.checkpointed hd hr
        exact ⟨ρ₀, hρ₀, hmsk.trans hsn⟩
      · rw [he, hgs, coldWinnersOf, hres, remaining_streaming (by exact hmd)]
        simp only [coldResolver, hotRest, hdn, hh, Bool.true_or, if_true, Except.bind]
        cases src.coldWinnersOf groups ρ with
        | error e => rfl
        | ok rest => simp [Except.map, showCold, Function.comp_def]
      · simp [work, hmd, hdn, hgs]

variable {queue : List (ResolvedRow K C W)}

theorem source_of_hydrateIfNeeded
    (hmd : (src.hydrateIfNeeded σ).mode = .sortedBuffer (row :: queue))
    (hpe : (src.hydrateIfNeeded σ).bodyHydratePending = true) : row.source = .hot := by
  rw [hydrateIfNeeded] at hmd hpe
  split at hmd
  next first rest hq =>
    split at hmd
    next hc => simp [hq, hc] at hpe
    next hc =>
      obtain ⟨rfl, -⟩ : first = row ∧ rest = queue := by simpa [hq] using hmd
      have hp : σ.bodyHydratePending = true := by simpa [hq, hc] using hpe
      cases hs : first.source with
      | hot => rfl
      | cold => simp [hp, hs] at hc
  next hn => exact absurd hmd (hn row queue)

theorem emit_buffer_spec (h : src.Invariant σ) (hmd : σ.mode = .sortedBuffer (row :: queue))
    (hs : σ.bodyHydratePending = true → row.source = .hot) :
    src.StepSpec σ (.ok (.emit (src.materialize row) { σ with mode := .sortedBuffer queue })) := by
  have hdn : σ.hotPhaseDone = false → False := fun hdn ↦ by
    simp [(h.hot_phase hdn).2.2] at hmd
  refine ⟨⟨h.overlay, h.pages, h.groups, h.hot_source, fun hd ↦ (hdn hd).elim,
    fun hd ↦ (hdn hd).elim, h.checkpointed⟩, ⟨rfl, rfl, rfl, fun _ ↦ rfl⟩, ?_,
    by simp [work, hmd]⟩
  have hr : (if σ.bodyHydratePending then src.hydrateBody row else row) = row := by
    split
    next hpe => exact hydrateBody_of_hot (hs hpe)
    · rfl
  simp [remaining, hmd, showBuffer, hr, Except.map]

theorem StepSpec.of_same {r : Except SeenKeyLimitExceeded (StepResult K C W)}
    (hspec : src.StepSpec σ' r) (hsm : SameScan σ σ')
    (hr : src.remaining σ' = src.remaining σ) (hwo : work σ' = work σ) : src.StepSpec σ r := by
  match r with
  | .error e => exact hr.symm.trans hspec
  | .ok (.emit row τ) =>
    exact ⟨hspec.1, hsm.trans hspec.2.1, hr.symm.trans hspec.2.2.1, hspec.2.2.2.trans hwo⟩
  | .ok (.again τ) => exact ⟨hspec.1, hsm.trans hspec.2.1, hr ▸ hspec.2.2.1, hwo ▸ hspec.2.2.2⟩
  | .ok (.finished τ) => exact ⟨hspec.1, hsm.trans hspec.2.1, hr.symm.trans hspec.2.2⟩

variable [LinearOrder B]

theorem step_spec (h : src.Invariant σ) : src.StepSpec σ (src.step σ) := by
  obtain ⟨h₁, hsm, hr, hwo⟩ := hydrateIfNeeded_spec h
  have hs : ∀ row queue, (src.hydrateIfNeeded σ).mode = .sortedBuffer (row :: queue) →
      (src.hydrateIfNeeded σ).bodyHydratePending = true → row.source = .hot :=
    fun _ _ ↦ source_of_hydrateIfNeeded
  refine StepSpec.of_same ?_ hsm hr hwo
  unfold step
  generalize src.hydrateIfNeeded σ = σ₁ at h₁ hs ⊢
  dsimp only
  split
  next row queue hmd => exact emit_buffer_spec h₁ hmd (hs row queue hmd)
  next hmd =>
    refine ⟨h₁, ⟨rfl, rfl, rfl, fun _ ↦ rfl⟩, ?_⟩
    simp [remaining, hmd, showBuffer]
  next hmd =>
    split
    next row rows hh => exact emit_hot_spec h₁ hmd hh
    next hh =>
      split
      next hdn =>
        split
        next row rows hcd => exact emit_cold_spec h₁ hmd hh hdn hcd
        next hcd => exact stepColdPhase_spec h₁ hmd hh hdn hcd
      next hdn =>
        rw [Bool.not_eq_true] at hdn
        have hspec := stepHotPhase_spec h₁ hdn hh
        cases hstep : src.stepHotPhase σ₁ with
        | error e | ok σ₂ =>
          rw [hstep] at hspec
          exact hspec

end Step

section Pass

variable [LinearOrder B] {src} {σ τ υ : MergeRowStream K C W} {rows : List (EmittedRow K W)}

theorem emits_of_remaining (h : src.Invariant σ) (hrs : src.remaining σ = .ok rows) :
    ∃ rows', src.Emits σ rows' ∧ rows'.Perm rows := by
  induction hn : rows.length + work σ using Nat.strong_induction_on generalizing σ rows with
  | _ n ih =>
    have hspec := step_spec h
    cases hstep : src.step σ with
    | error e =>
      rw [hstep] at hspec
      simp [show src.remaining σ = .error e from hspec] at hrs
    | ok r =>
      rw [hstep] at hspec
      cases r with
      | finished σ' =>
        obtain ⟨-, -, hnil⟩ := hspec
        obtain rfl : [] = rows := by simpa [hnil] using hrs
        exact ⟨[], .finished hstep, .refl _⟩
      | emit row σ' =>
        obtain ⟨h', -, hr, hwo⟩ := hspec
        rw [hr] at hrs
        obtain ⟨rest, hre, rfl⟩ := map_eq_ok_iff.1 hrs
        have hls : rest.length + work σ' < n := by
          rw [← hn, hwo, length_cons]
          omega
        obtain ⟨rest', hem, hp⟩ := ih _ hls h' hre rfl
        exact ⟨row :: rest', .emit hstep hem, hp.cons row⟩
      | again σ' =>
        obtain ⟨h', -, hp, hwo⟩ := hspec
        obtain ⟨rows₁, hrs₁, hp₁⟩ := hp.exists_right hrs
        have hls : rows₁.length + work σ' < n := by
          rw [← hn, ← hp₁.length_eq]
          omega
        obtain ⟨rows', hem, hp'⟩ := ih _ hls h' hrs₁ rfl
        exact ⟨rows', .again hstep hem, hp'.trans hp₁.symm⟩

theorem remaining_of_emits (h : src.Invariant σ) (hem : src.Emits σ rows) :
    ∃ rows', src.remaining σ = .ok rows' ∧ rows.Perm rows' := by
  induction hem with
  | again hstep _ ih =>
    have hspec := step_spec h
    rw [hstep] at hspec
    obtain ⟨h', -, hp, -⟩ := hspec
    obtain ⟨rows₁, hrs₁, hp₁⟩ := ih h'
    obtain ⟨rows', hrs', hp'⟩ := hp.exists_left hrs₁
    exact ⟨rows', hrs', hp₁.trans hp'.symm⟩
  | @emit _ _ row _ hstep _ ih =>
    have hspec := step_spec h
    rw [hstep] at hspec
    obtain ⟨h', -, hr, -⟩ := hspec
    obtain ⟨rows₁, hrs₁, hp₁⟩ := ih h'
    exact ⟨row :: rows₁, by rw [hr, hrs₁]; rfl, hp₁.cons row⟩
  | finished hstep =>
    have hspec := step_spec h
    rw [hstep] at hspec
    exact ⟨[], hspec.2.2, .refl _⟩

variable {n : ℕ}

theorem pulls_spec (h : src.Invariant σ) (hp : src.Pulls σ n τ) :
    src.Invariant τ ∧ SameScan σ τ := by
  induction hp with
  | enough => exact ⟨h, ⟨rfl, rfl, rfl, fun _ ↦ rfl⟩⟩
  | again hstep _ ih | emit hstep _ ih =>
    have hspec := step_spec h
    rw [hstep] at hspec
    obtain ⟨h', hsm⟩ := ih hspec.1
    exact ⟨h', hspec.2.1.trans hsm⟩
  | finished hstep =>
    have hspec := step_spec h
    rw [hstep] at hspec
    exact ⟨hspec.1, hspec.2.1⟩

/-! ### Later passes -/

variable {ρ : NewestFirstWinnerResolver K}

omit [DecidableEq C] [LinearOrder B] in
theorem coldWinnersOf_addsBase {base : List K} {ρ' : NewestFirstWinnerResolver K}
    (hba : AddsBase base ρ ρ') (hgs : ∀ group ∈ groups, ∀ r ∈ src.unmasked group, r.pk ∉ base)
    (h : src.coldWinnersOf groups ρ = .ok winners) : src.coldWinnersOf groups ρ' = .ok winners := by
  induction groups generalizing ρ ρ' winners with
  | nil => exact h
  | cons group groups ih =>
    rw [forall_mem_cons] at hgs
    obtain ⟨⟨rows, ρ₁⟩, hr, hre⟩ := bind_eq_ok_iff.1 h
    obtain ⟨rest, hcd, rfl⟩ := map_eq_ok_iff.1 hre
    obtain ⟨ρ₁', hr', hba'⟩ := hba.resolveBatch hgs.1 hr
    rw [hba.skip] at hr'
    have hcd' := ih hba' hgs.2 hcd
    rw [coldWinnersOf, resolveCold, hr']
    simp [Except.bind, Except.map, hcd']

/-- A stream that was reset to the checkpoint `masked`. -/
structure Rewound (src : MergeSources K C W B) (masked : List K) (σ : MergeRowStream K C W) :
    Prop where
  eq_reset : ∃ τ, σ = src.reset τ
  invariant : src.Invariant σ
  masked : σ.resolver.masked = masked
  maxSeenKeys : σ.resolver.maxSeenKeys = src.freshResolver.maxSeenKeys
  skip : σ.resolver.skipColdIdentityRetention = src.freshResolver.skipColdIdentityRetention

theorem Rewound.passes {masked : List K} (h : src.Rewound masked σ) {ns : List ℕ}
    (hps : src.Passes σ ns υ) : src.Rewound masked υ := by
  induction hps with
  | nil => exact h
  | @cons σ τ υ n ns hp _ ih =>
    obtain ⟨hτ, hsm⟩ := pulls_spec h.invariant hp
    obtain ⟨τ₀, rfl⟩ := h.eq_reset
    refine ih ⟨⟨τ, rfl⟩, hτ.reset, ?_, ?_, ?_⟩
    · exact (hsm.masked rfl).trans h.masked
    · exact hsm.maxSeenKeys.trans h.maxSeenKeys
    · exact hsm.skip.trans h.skip

omit [LinearOrder B] in
theorem remaining_newStream (src : MergeSources K C W B) : src.remaining src.newStream =
    (maskOlderPks (pageKeys src.hotPages ++ src.initialOverlay) src.freshResolver).bind fun ρ ↦
      (src.coldWinnersOf src.coldGroups ρ.checkpoint).map fun rows ↦
        src.hotPages.flatten.map src.showHot ++ rows.map src.showCold := by
  have hr : src.coldResolver src.newStream = (maskOlderPks
      (pageKeys src.hotPages ++ src.initialOverlay) src.freshResolver).map checkpoint := rfl
  rw [remaining_streaming rfl, hr]
  cases maskOlderPks (pageKeys src.hotPages ++ src.initialOverlay) src.freshResolver <;> rfl

omit [LinearOrder B] in
theorem remaining_reset (σ : MergeRowStream K C W) : src.remaining (src.reset σ) =
    (src.coldWinnersOf src.coldGroups σ.resolver.reset).map fun rows ↦
      src.hotPages.flatten.map src.showHot ++ rows.map src.showCold :=
  rfl

theorem checkpoint_of_first_pass (hf : src.Pulls src.newStream n τ)
    (hρ : maskOlderPks (pageKeys src.hotPages ++ src.initialOverlay) src.freshResolver = .ok ρ) :
    (τ.hotPhaseDone = true → τ.resolver.masked = ρ.seen) ∧
      (τ.hotPhaseDone = false → τ.resolver.masked = []) := by
  obtain ⟨h, hsm⟩ := pulls_spec invariant_newStream hf
  constructor
  · intro hdn
    obtain ⟨ρ₀, hρ₀, hm⟩ := h.checkpointed hdn hsm.replayHot
    rw [hρ] at hρ₀
    rw [hm, Except.ok.inj hρ₀]
  · intro hdn
    obtain ⟨-, loaded, hld, -⟩ := h.first_pass hdn hsm.replayHot
    rw [maskOlderPks_frame hld]
    rfl

theorem exists_addsBase (hf : src.Pulls src.newStream n τ)
    (hs : τ.hotPhaseDone = true ∨ ∀ group ∈ src.coldGroups, ∀ r ∈ group,
      src.masks r.pk = false → r.pk ∉ pageKeys src.hotPages)
    (hρ : maskOlderPks (pageKeys src.hotPages ++ src.initialOverlay) src.freshResolver = .ok ρ)
    (hυ : src.Rewound τ.resolver.masked (src.reset υ)) :
    ∃ base, AddsBase base ρ.checkpoint υ.resolver.reset ∧
      ∀ group ∈ src.coldGroups, ∀ r ∈ src.unmasked group, r.pk ∉ base := by
  obtain ⟨hdn, hcut⟩ := checkpoint_of_first_pass hf hρ
  have hfr := maskOlderPks_frame hρ
  have hm : ρ.maxSeenKeys = υ.resolver.maxSeenKeys := by
    rw [hfr]
    exact hυ.maxSeenKeys.symm
  have hsk : ρ.skipColdIdentityRetention = υ.resolver.skipColdIdentityRetention := by
    rw [hfr]
    exact hυ.skip.symm
  have hc : υ.resolver.masked = τ.resolver.masked := hυ.masked
  by_cases hph : τ.hotPhaseDone = true
  · refine ⟨[], ⟨?_, hm, hsk⟩, fun _ _ _ _ ↦ not_mem_nil⟩
    exact (hc.trans (hdn hph)).symm
  · rw [Bool.not_eq_true] at hph
    refine ⟨ρ.seen, ⟨?_, hm, hsk⟩, fun group hg r hr hmem ↦ ?_⟩
    · have he : υ.resolver.masked = [] := hc.trans (hcut hph)
      simp [checkpoint, NewestFirstWinnerResolver.reset, he]
    · obtain ⟨hrow, hu⟩ := mem_filter.1 hr
      rw [Bool.not_eq_true'] at hu
      have hd := (hs.resolve_left (by simp [hph])) group hg r hrow hu
      rcases mem_of_mem_maskOlderPks hρ hmem with hfre | hmem
      · exact not_mem_nil hfre
      · rcases mem_append.1 hmem with hh | hin
        · exact hd hh
        · have := invariant_newStream.overlay.masks _ hin
          simp [hu] at this

/-- **Every pass emits the rows of a fresh scan**, after any pulls and resets. -/
theorem passes_emit_perm (src : MergeSources K C W B) {n : ℕ} {ns : List ℕ}
    {τ υ : MergeRowStream K C W} (hfirst : src.Pulls src.newStream n τ)
    (hmasked : τ.hotPhaseDone = true ∨ ∀ group ∈ src.coldGroups, ∀ r ∈ group,
      src.masks r.pk = false → r.pk ∉ pageKeys src.hotPages)
    (hpasses : src.Passes (src.reset τ) ns υ) {rows : List (EmittedRow K W)}
    (hfresh : src.Emits src.newStream rows) :
    (∃ rows', src.Emits υ rows') ∧ ∀ rows', src.Emits υ rows' → rows'.Perm rows := by
  obtain ⟨rows₀, hrs₀, hp₀⟩ := remaining_of_emits invariant_newStream hfresh
  rw [remaining_newStream] at hrs₀
  obtain ⟨ρ, hρ, hcd⟩ := bind_eq_ok_iff.1 hrs₀
  obtain ⟨winners, hws, hs⟩ := map_eq_ok_iff.1 hcd
  obtain ⟨hτ, hsm⟩ := pulls_spec invariant_newStream hfirst
  have he : src.Rewound τ.resolver.masked (src.reset τ) :=
    ⟨⟨τ, rfl⟩, hτ.reset, rfl, hsm.maxSeenKeys, hsm.skip⟩
  have hυ := he.passes hpasses
  obtain ⟨τ', rfl⟩ := hυ.eq_reset
  obtain ⟨base, hba, hgs⟩ := exists_addsBase hfirst hmasked hρ hυ
  have hr : src.remaining (src.reset τ') = .ok rows₀ := by
    rw [remaining_reset, coldWinnersOf_addsBase hba hgs hws, ← hs]
    rfl
  constructor
  · obtain ⟨rows', hem, -⟩ := emits_of_remaining hυ.invariant hr
    exact ⟨rows', hem⟩
  · intro rows' hem
    obtain ⟨rows₁, hrs₁, hp₁⟩ := remaining_of_emits hυ.invariant hem
    obtain rfl : rows₀ = rows₁ := Except.ok.inj (hr.symm.trans hrs₁)
    exact hp₁.trans hp₀.symm

end Pass

/-! ### A rescan in the middle of the hot phase -/

def exampleSources : MergeSources ℕ Unit ℕ ℕ where
  hotPages := [[⟨1, fun _ ↦ some 11⟩, ⟨2, fun _ ↦ some 12⟩]]
  coldGroups := [[⟨1, 5, false, fun _ ↦ some 10⟩]]
  overlay := .eager []
  maxSeenKeys := 0
  pkRangesDisjoint := false
  projection := [()]
  projectionColumns := [()]
  primaryKeyColumns := [()]
  ordered := none
  encodeLeadingKey := id
  pages_ne_nil := by decide
  hot_nodup := by decide
  versions := by simp
  projected := by simp
  ordered_deferred _ _ := rfl

def exampleRows : List (EmittedRow ℕ ℕ) :=
  [⟨1, .hot, hotSeqSentinel, [some 11]⟩, ⟨2, .hot, hotSeqSentinel, [some 12]⟩]

theorem emits_exampleRows : exampleSources.Emits exampleSources.newStream exampleRows :=
  .again rfl (.emit rfl (.emit rfl (.again rfl (.again rfl (.finished rfl)))))

theorem pulls_complete :
    ∃ τ, exampleSources.Pulls exampleSources.newStream 3 τ ∧ τ.hotPhaseDone = true :=
  ⟨_, .again rfl (.emit rfl (.emit rfl (.again rfl (.again rfl (.finished rfl))))), rfl⟩

theorem passes_emit_perm_complete : ∃ τ, exampleSources.Pulls exampleSources.newStream 3 τ ∧
    τ.hotPhaseDone = true ∧
    ∀ ns υ, exampleSources.Passes (exampleSources.reset τ) ns υ →
      (∃ rows', exampleSources.Emits υ rows') ∧
        ∀ rows', exampleSources.Emits υ rows' → rows'.Perm exampleRows := by
  obtain ⟨τ, hp, hdn⟩ := pulls_complete
  exact ⟨τ, hp, hdn, fun ns υ hps ↦
    exampleSources.passes_emit_perm hp (.inl hdn) hps emits_exampleRows⟩

theorem rescan_shows_superseded_row : ∃ υ rows,
    exampleSources.Passes exampleSources.newStream [1] υ ∧ exampleSources.Emits υ rows ∧
      (⟨1, .cold, 5, [some 10]⟩ : EmittedRow ℕ ℕ) ∈ rows ∧ ¬rows.Perm exampleRows := by
  refine ⟨_, exampleRows ++ [⟨1, .cold, 5, [some 10]⟩], .cons (.again rfl (.emit rfl .enough)) .nil,
    .again rfl (.emit rfl (.emit rfl (.again rfl (.again rfl (.emit rfl (.finished rfl)))))),
    by simp, fun hp ↦ ?_⟩
  simpa [exampleRows] using hp.length_eq

end MergeSources

end Koldstore
