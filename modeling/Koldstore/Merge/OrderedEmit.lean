import Koldstore.Merge.Rescan

/-!
# The order of an ordered merge stream

PostgreSQL puts no sort above an ordered stream.
-/

namespace Koldstore

open List Except
open Except (bind_eq_ok_iff map_eq_ok_iff)

namespace MergeSources

open NewestFirstWinnerResolver

section Order

variable {B : Type*} [LinearOrder B]

/-- PostgreSQL's default order of a direction. -/
def PgDefaultLe : OrderDirection → Option B → Option B → Prop
  | .asc, _, none => True
  | .asc, none, some _ => False
  | .asc, some a, some b => a ≤ b
  | .desc, none, _ => True
  | .desc, some _, none => False
  | .desc, some a, some b => b ≤ a

theorem keyLe_total (a b : Option B) : keyLe a b = true ∨ keyLe b a = true := by
  cases a <;> cases b <;> simp [keyLe, le_total]

theorem keyLe_trans {a b c : Option B} (hab : keyLe a b = true) (hbc : keyLe b c = true) :
    keyLe a c = true := by
  cases a <;> cases b <;> cases c <;> simp_all [keyLe]
  exact hab.trans hbc

theorem pgDefaultLe_of_keyLe {direction : OrderDirection} {a b : Option B} (ha : a.isSome = true)
    (hb : b.isSome = true)
    (h : (match direction with | .asc => keyLe a b | .desc => keyLe b a) = true) :
    PgDefaultLe direction a b := by
  obtain ⟨a, rfl⟩ := Option.isSome_iff_exists.1 ha
  obtain ⟨b, rfl⟩ := Option.isSome_iff_exists.1 hb
  cases direction with
  | asc => exact of_decide_eq_true (p := a ≤ b) h
  | desc => exact of_decide_eq_true (p := b ≤ a) h

end Order

variable {K C W B : Type*} [DecidableEq K] (src : MergeSources K C W B) (plan : OrderedPlan C B)

/-! ### Leading keys -/

def hotKey (row : HotPageRow K C W) : Option B :=
  src.encodeLeadingKey (row.image plan.leadingColumn)

def coldKey (row : ColdRow K C W) : Option B := src.encodeLeadingKey (row.stored plan.leadingColumn)

def versionKey (pk : K) (source : RowSource) (seq : ℕ) : Option B :=
  match source with
  | .hot => (src.hotPages.flatten.find? fun r ↦ decide (r.pk = pk)).bind (src.hotKey plan)
  | .cold => (src.bodyVersion pk seq).bind (src.coldKey plan)

def rowKey (row : ResolvedRow K C W) : Option B := src.versionKey plan row.pk row.source row.seq

def leadingKey (row : EmittedRow K W) : Option B := src.versionKey plan row.pk row.source row.seq

variable {r : ColdRow K C W}

section Keys

variable {src plan}

theorem rowKey_hotResolved {r : HotPageRow K C W} (hr : r ∈ src.hotPages.flatten) :
    src.rowKey plan (hotResolved r) = src.hotKey plan r := by
  obtain ⟨found, hf⟩ : ∃ found,
      src.hotPages.flatten.find? (fun r' ↦ decide (r'.pk = r.pk)) = some found :=
    Option.isSome_iff_exists.1 (find?_isSome.2 ⟨r, hr, decide_eq_true rfl⟩)
  have hpk : found.pk = r.pk := by simpa using find?_some hf
  obtain rfl : found = r := inj_on_of_nodup_map src.hot_nodup (mem_of_find?_eq_some hf) hr hpk
  exact congrArg (Option.bind · (src.hotKey plan)) hf

theorem rowKey_coldResolved [DecidableEq C] (hr : r ∈ src.coldGroups.flatten) (columns : List C) :
    src.rowKey plan (coldResolved columns r) = src.coldKey plan r := by
  obtain ⟨version, hv, hs⟩ := exists_bodyVersion hr
  show (src.bodyVersion r.pk r.seq).bind (src.coldKey plan) = _
  rw [hv]
  exact congrArg (fun stored ↦ src.encodeLeadingKey (stored plan.leadingColumn)) hs

theorem rowKey_hydrateBody [DecidableEq C] (row : ResolvedRow K C W) :
    src.rowKey plan (src.hydrateBody row) = src.rowKey plan row := by
  rw [hydrateBody]
  split
  · split <;> rfl
  · rfl

end Keys

/-! ### When passes are in order -/

def groupWinners (group : List (ColdRow K C W)) : List (ColdRow K C W) :=
  batchWinners .cold ColdRow.pk ColdRow.seq (src.unmasked group)

variable {groups : List (List (ColdRow K C W))}

variable {src} in
theorem mem_of_mem_groupWinners (h : r ∈ groups.flatMap src.groupWinners) : r ∈ groups.flatten := by
  obtain ⟨group, hg, hr⟩ := mem_flatMap.1 h
  have hmem : r ∈ group := mem_of_mem_filter (mem_of_mem_batchWinners hr)
  exact mem_flatten.2 ⟨group, hg, hmem⟩

section Conditions

variable [LinearOrder B]

def ColdLe (a b : ColdRow K C W) : Prop :=
  PgDefaultLe plan.direction (src.coldKey plan a) (src.coldKey plan b)

def Ahead (row : HotPageRow K C W) : Prop :=
  match plan.coldBound with
  | none => src.coldGroups = []
  | some bound => hotStrictlyWins plan.direction bound (src.hotKey plan row) = true

structure Arranged : Prop where
  leading_read : plan.leadingColumn ∈ src.projectionColumns
  hot_sorted : src.hotPages.flatten.Pairwise fun a b ↦
    PgDefaultLe plan.direction (src.hotKey plan a) (src.hotKey plan b)
  bound : ∀ bound, plan.coldBound = some bound → ∀ key,
    hotStrictlyWins plan.direction bound key = true →
      ∀ r ∈ src.coldGroups.flatten, PgDefaultLe plan.direction key (src.coldKey plan r)
  keyed : ((∀ r ∈ src.hotPages.flatten, (src.hotKey plan r).isSome = true) ∧
      ∀ r ∈ src.coldGroups.flatten, (src.coldKey plan r).isSome = true) ∨
    src.coldGroups = [] ∧ plan.coldBound = none

/-- What a pass after a reset needs. -/
def ReplaysInOrder : Prop := (∃ r ∈ src.hotPages.flatten, ¬src.Ahead plan r) ∨
    (src.coldGroups.flatMap src.groupWinners).Pairwise (src.ColdLe plan)

variable {src plan}

omit [DecidableEq K] in
theorem Ahead.le_coldKey (h : src.Arranged plan) {row : HotPageRow K C W}
    (hrow : src.Ahead plan row) (hr : r ∈ src.coldGroups.flatten) :
    PgDefaultLe plan.direction (src.hotKey plan row) (src.coldKey plan r) := by
  rw [Ahead] at hrow
  cases hb : plan.coldBound with
  | none =>
    rw [hb] at hrow
    rw [show src.coldGroups = [] from hrow] at hr
    cases hr
  | some bound =>
    rw [hb] at hrow
    exact h.bound bound hb _ hrow r hr

end Conditions

variable {queue : List (ResolvedRow K C W)} {loaded winners : List (HotPageRow K C W)}

section Future

def future (σ : MergeRowStream K C W) : List (Option B) :=
  match σ.mode with
  | .sortedBuffer queue => queue.map (src.rowKey plan)
  | .streaming =>
    σ.hotWinners.map (src.rowKey plan) ++ (hotRest σ).map (src.hotKey plan) ++
      (σ.coldWinners.map (src.rowKey plan) ++
        (σ.coldGroups.flatMap src.groupWinners).map (src.coldKey plan))

section

variable {src plan} {σ : MergeRowStream K C W}

theorem future_streaming (h : σ.mode = .streaming) : src.future plan σ =
    σ.hotWinners.map (src.rowKey plan) ++ (hotRest σ).map (src.hotKey plan) ++
      (σ.coldWinners.map (src.rowKey plan) ++
        (σ.coldGroups.flatMap src.groupWinners).map (src.coldKey plan)) := by
  rw [future, h]

theorem future_buffer (h : σ.mode = .sortedBuffer queue) :
    src.future plan σ = queue.map (src.rowKey plan) := by
  rw [future, h]

end

def HotLoaded (σ : MergeRowStream K C W) (loaded winners : List (HotPageRow K C W)) : Prop :=
  src.hotPages.flatten = loaded ++ winners ++ σ.hotPages.flatten ∧
    σ.hotWinners = winners.map hotResolved

variable {src plan} in
theorem future_hot {σ : MergeRowStream K C W} (h : src.Invariant σ) (hdn : σ.hotPhaseDone = false)
    (hld : src.HotLoaded σ loaded winners) :
    src.future plan σ = (winners ++ σ.hotPages.flatten).map (src.hotKey plan) ++
      (src.coldGroups.flatMap src.groupWinners).map (src.coldKey plan) := by
  obtain ⟨hgs, hcd, hmd⟩ := h.hot_phase hdn
  obtain ⟨hp, hws⟩ := hld
  have hks : σ.hotWinners.map (src.rowKey plan) = winners.map (src.hotKey plan) := by
    rw [hws, map_map]
    refine map_congr_left fun r hr ↦ rowKey_hotResolved ?_
    rw [hp]
    exact mem_append_left _ (mem_append_right _ hr)
  rw [future_streaming hmd, hks, hcd, hgs, map_append]
  simp [hotRest, hdn]

variable [LinearOrder B]

def ColdOpened [DecidableEq C] (σ : MergeRowStream K C W) (winners : List (ColdRow K C W)) : Prop :=
  σ.coldWinners = winners.map (coldResolved src.projectionColumns) ∧
    (∀ r ∈ winners, r ∈ src.coldGroups.flatten) ∧
    (winners ++ σ.coldGroups.flatMap src.groupWinners).Pairwise (src.ColdLe plan)

structure OrderInv [DecidableEq C] (σ : MergeRowStream K C W) : Prop where
  buffer : ∀ queue, σ.mode = .sortedBuffer queue →
    (queue.map (src.rowKey plan)).Pairwise (PgDefaultLe plan.direction)
  hot : σ.mode = .streaming → σ.hotPhaseDone = false →
    ∃ loaded winners, src.HotLoaded σ loaded winners ∧
      ∀ r ∈ loaded ++ winners, src.Ahead plan r
  cold : σ.mode = .streaming → σ.hotPhaseDone = true →
    σ.hotWinners = [] ∧ ∃ winners, src.ColdOpened plan σ winners

variable {src plan} {σ σ' : MergeRowStream K C W} [DecidableEq C]

theorem OrderInv.of_buffer (hmd : σ.mode = .sortedBuffer queue)
    (h : (queue.map (src.rowKey plan)).Pairwise (PgDefaultLe plan.direction)) :
    src.OrderInv plan σ where
  buffer queue' hqueue' := by
    obtain rfl : queue = queue' := by simpa [hmd] using hqueue'
    exact h
  hot hstreaming := by simp [hmd] at hstreaming
  cold hstreaming := by simp [hmd] at hstreaming

theorem OrderInv.of_hot (hmd : σ.mode = .streaming) (hdn : σ.hotPhaseDone = false)
    (h : src.HotLoaded σ loaded winners) (hah : ∀ r ∈ loaded ++ winners, src.Ahead plan r) :
    src.OrderInv plan σ where
  buffer queue hqueue := by simp [hmd] at hqueue
  hot _ _ := ⟨loaded, winners, h, hah⟩
  cold _ hdone' := by simp [hdn] at hdone'

theorem OrderInv.of_cold (hmd : σ.mode = .streaming) (hdn : σ.hotPhaseDone = true)
    (hh : σ.hotWinners = []) {winners : List (ColdRow K C W)} (h : src.ColdOpened plan σ winners) :
    src.OrderInv plan σ where
  buffer queue hqueue := by simp [hmd] at hqueue
  hot _ hdone' := by simp [hdn] at hdone'
  cold _ _ := ⟨hh, winners, h⟩

theorem orderInv_start (hmd : σ.mode = .streaming) (hdn : σ.hotPhaseDone = false)
    (hws : σ.hotWinners = []) (hp : σ.hotPages = src.hotPages) : src.OrderInv plan σ := by
  have hld : src.HotLoaded σ [] [] := ⟨by rw [hp]; rfl, hws⟩
  exact .of_hot hmd hdn hld (forall_mem_nil _)

end Future

section Step

variable [DecidableEq C] [LinearOrder B]

def Sorts (σ : MergeRowStream K C W) : Except SeenKeyLimitExceeded (StepResult K C W) → Prop
  | .error _ => True
  | .ok (.finished _) => True
  | .ok (.again σ') => src.OrderInv plan σ' ∧ src.future plan σ' ⊆ src.future plan σ
  | .ok (.emit row σ') => src.OrderInv plan σ' ∧
      src.future plan σ = src.leadingKey plan row :: src.future plan σ' ∧
      ∀ key ∈ src.future plan σ', PgDefaultLe plan.direction (src.leadingKey plan row) key

variable {src plan} {σ σ' : MergeRowStream K C W}

/-! #### Emitting a row -/

variable {row : ResolvedRow K C W}

theorem emit_buffer_sorts (ho : src.OrderInv plan σ) (hmd : σ.mode = .sortedBuffer (row :: queue)) :
    src.Sorts plan σ
      (.ok (.emit (src.materialize row) { σ with mode := .sortedBuffer queue })) := by
  obtain ⟨hf, hre⟩ := pairwise_cons.1 (ho.buffer _ hmd)
  exact ⟨.of_buffer rfl hre, future_buffer hmd, hf⟩

variable {rows : List (ResolvedRow K C W)}

theorem emit_hot_sorts (ha : src.Arranged plan) (h : src.Invariant σ) (ho : src.OrderInv plan σ)
    (hmd : σ.mode = .streaming) (hws : σ.hotWinners = row :: rows) :
    src.Sorts plan σ (.ok (.emit (src.materialize row) { σ with hotWinners := rows })) := by
  have hdn : σ.hotPhaseDone = false := by
    by_contra hdn
    rw [Bool.not_eq_false] at hdn
    simp [(ho.cold hmd hdn).1] at hws
  obtain ⟨loaded, winners, hld, hah⟩ := ho.hot hmd hdn
  obtain ⟨first, rest, rfl, rfl, rfl⟩ : ∃ first rest, winners = first :: rest ∧
      row = hotResolved first ∧ rows = rest.map hotResolved := by
    obtain ⟨first, rest, rfl, hrow, hrs⟩ := map_eq_cons_iff.1 (hld.2.symm.trans hws)
    exact ⟨first, rest, rfl, hrow.symm, hrs.symm⟩
  have hspec := emit_hot_spec h hmd hws
  have hld' : src.HotLoaded { σ with hotWinners := rest.map hotResolved }
      (loaded ++ [first]) rest := ⟨by simp [hld.1], rfl⟩
  have hk : src.leadingKey plan (src.materialize (hotResolved first)) = src.hotKey plan first :=
    rowKey_hotResolved (by simp [hld.1])
  refine ⟨.of_hot hmd hdn hld' (by simpa using hah), ?_, fun key hmem ↦ ?_⟩
  · rw [future_hot h hdn hld, future_hot hspec.1 hdn hld', hk]
    rfl
  · rw [future_hot hspec.1 hdn hld'] at hmem
    rw [hk]
    rcases mem_append.1 hmem with hmem | hmem
    · obtain ⟨r, hr, rfl⟩ := mem_map.1 hmem
      have hso := ha.hot_sorted
      rw [hld.1, List.append_assoc, cons_append] at hso
      exact (pairwise_cons.1 (pairwise_append.1 hso).2.1).1 r hr
    · obtain ⟨r, hr, rfl⟩ := mem_map.1 hmem
      exact (hah first (by simp)).le_coldKey ha (mem_of_mem_groupWinners hr)

theorem future_cold {winners : List (ColdRow K C W)} (hop : src.ColdOpened plan σ winners)
    (hmd : σ.mode = .streaming) (hdn : σ.hotPhaseDone = true) (hh : σ.hotWinners = []) :
    src.future plan σ =
      (winners ++ σ.coldGroups.flatMap src.groupWinners).map (src.coldKey plan) := by
  obtain ⟨hws, hmem, -⟩ := hop
  have hks : σ.coldWinners.map (src.rowKey plan) = winners.map (src.coldKey plan) := by
    rw [hws, map_map]
    exact map_congr_left fun r hr ↦ rowKey_coldResolved (hmem r hr) _
  rw [future_streaming hmd, hks, hh, map_append]
  simp [hotRest, hdn]

theorem emit_cold_sorts (ho : src.OrderInv plan σ) (hmd : σ.mode = .streaming)
    (hdn : σ.hotPhaseDone = true) (hws : σ.coldWinners = row :: rows) :
    src.Sorts plan σ (.ok (.emit (src.materialize row) { σ with coldWinners := rows })) := by
  obtain ⟨hh, winners, hop⟩ := ho.cold hmd hdn
  obtain ⟨first, rest, rfl, rfl, rfl⟩ : ∃ first rest, winners = first :: rest ∧
      row = coldResolved src.projectionColumns first ∧
      rows = rest.map (coldResolved src.projectionColumns) := by
    obtain ⟨first, rest, rfl, hrow, hrs⟩ := map_eq_cons_iff.1 (hop.1.symm.trans hws)
    exact ⟨first, rest, rfl, hrow.symm, hrs.symm⟩
  obtain ⟨hmem, hso⟩ := hop.2
  rw [cons_append, pairwise_cons] at hso
  have hop' : src.ColdOpened plan
      { σ with coldWinners := rest.map (coldResolved src.projectionColumns) } rest :=
    ⟨rfl, fun r hr ↦ hmem r (mem_cons_of_mem _ hr), hso.2⟩
  have hk : src.leadingKey plan (src.materialize (coldResolved src.projectionColumns first)) =
      src.coldKey plan first :=
    rowKey_coldResolved (hmem first mem_cons_self) src.projectionColumns
  refine ⟨.of_cold hmd hdn hh hop', ?_, fun key hkeyMem ↦ ?_⟩
  · rw [future_cold hop hmd hdn hh, future_cold hop' hmd hdn hh, hk]
    rfl
  · rw [future_cold hop' hmd hdn hh] at hkeyMem
    obtain ⟨r, hr, rfl⟩ := mem_map.1 hkeyMem
    rw [hk]
    exact hso.1 r hr

/-! #### Loading rows -/

variable {ρ ρ' : NewestFirstWinnerResolver K}

variable {overlay overlay' : List K}

omit [DecidableEq C] [LinearOrder B] in
theorem resolveColdGroup_sublist
    (hov : src.OverlayRight overlay) {group rows : List (ColdRow K C W)}
    (h : src.resolveColdGroup group overlay ρ = .ok (rows, overlay', ρ')) :
    rows.Sublist (src.groupWinners group) := by
  rw [resolveColdGroup_eq hov] at h
  obtain ⟨r, hr, ⟨⟩⟩ := map_eq_ok_iff.1 h
  exact takeUnseenOrdered_sublist hr

omit [DecidableEq C] [LinearOrder B] in
theorem drainCold_subset (hov : src.OverlayRight overlay)
    {rows : List (ColdRow K C W)} (h : src.drainCold groups overlay ρ = .ok (rows, overlay', ρ')) :
    rows ⊆ groups.flatMap src.groupWinners := by
  induction groups generalizing overlay overlay' ρ ρ' rows with
  | nil =>
    cases h
    exact nil_subset _
  | cons group groups ih =>
    obtain ⟨⟨winners, overlay₁, ρ₁⟩, hg, hre⟩ := bind_eq_ok_iff.1 h
    obtain ⟨⟨rest, overlay₂, ρ₂⟩, hdr, ⟨⟩⟩ := map_eq_ok_iff.1 hre
    have hov₁ : src.OverlayRight overlay₁ := by
      rw [resolveColdGroup_eq hov] at hg
      obtain ⟨r, -, heq⟩ := map_eq_ok_iff.1 hg
      obtain rfl := congrArg (fun r ↦ r.2.1) heq
      exact hov.probe group
    rw [flatMap_cons]
    exact append_subset.2
      ⟨List.Subset.trans (resolveColdGroup_sublist hov hg).subset
        (subset_append_left _ _),
        List.Subset.trans (ih hov₁ hdr) (subset_append_right _ _)⟩

theorem stepColdPhase_sorts (h : src.Invariant σ) (ho : src.OrderInv plan σ)
    (hmd : σ.mode = .streaming) (hdn : σ.hotPhaseDone = true) (he : σ.coldWinners = []) :
    src.Sorts plan σ (src.stepColdPhase σ) := by
  obtain ⟨hh, winners, hop⟩ := ho.cold hmd hdn
  obtain rfl : winners = [] := map_eq_nil_iff.1 (hop.1.symm.trans he)
  rw [stepColdPhase]
  cases hgs : σ.coldGroups with
  | nil => trivial
  | cons group groups =>
    dsimp only
    cases hres : src.resolveColdGroup group σ.overlay σ.resolver with
    | error e => trivial
    | ok r =>
      obtain ⟨rows, overlay, ρ⟩ := r
      have hs := resolveColdGroup_sublist h.overlay hres
      have hu : (group :: groups).flatten ⊆ src.coldGroups.flatten := by
        intro r hr
        obtain ⟨g, hg, hr⟩ := mem_flatten.1 hr
        exact mem_flatten.2 ⟨g, h.groups.subset (hgs ▸ hg), hr⟩
      have hs' : (rows ++ groups.flatMap src.groupWinners).Sublist
          ((group :: groups).flatMap src.groupWinners) := by
        rw [flatMap_cons]
        exact hs.append_right _
      have hso := hop.2.2
      rw [hgs, nil_append] at hso
      have hop' : src.ColdOpened plan { σ with
          coldGroups := groups
          overlay := overlay
          resolver := ρ
          coldWinners := rows.map (coldResolved src.projectionColumns) } rows := by
        refine ⟨rfl, fun r hr ↦ ?_, hso.sublist hs'⟩
        exact hu (mem_of_mem_groupWinners (hs'.subset (mem_append_left _ hr)))
      refine ⟨.of_cold hmd hdn hh hop', ?_⟩
      rw [future_cold hop' hmd hdn hh, future_cold hop hmd hdn hh, hgs]
      exact map_subset _ hs'.subset

omit [DecidableEq C] [LinearOrder B] in
theorem loadNextHotPage_ok (h : src.Invariant σ) (hdn : σ.hotPhaseDone = false)
    (hld : loadNextHotPage σ = .ok σ') :
    σ.hotPages = [] ∧ σ' = σ ∨ ∃ page pages ρ, σ.hotPages = page :: pages ∧
      σ' = { σ with hotPages := pages, hotWinners := page.map hotResolved, resolver := ρ } := by
  rw [loadNextHotPage] at hld
  cases hp : σ.hotPages with
  | nil =>
    rw [hp] at hld
    exact .inl ⟨rfl, (ok.inj hld).symm⟩
  | cons page pages =>
    rw [hp] at hld
    obtain ⟨⟨rows, ρ⟩, hr, rfl⟩ := map_eq_ok_iff.1 hld
    have hrs : rows = page.map hotResolved := by
      cases hrp : σ.replayHot with
      | true =>
        rw [hrp] at hr
        exact (congrArg Prod.fst (ok.inj hr)).symm
      | false =>
        have hnd := h.nodup hdn hrp
        rw [hp, pageKeys, flatten_cons, map_append, ← List.append_assoc] at hnd
        rw [hrp, resolveHotPage_first (nodup_append.1 hnd).1] at hr
        obtain ⟨ρ', -, heq⟩ := map_eq_ok_iff.1 hr
        exact (congrArg Prod.fst heq).symm
    exact .inr ⟨page, pages, ρ, rfl, by rw [hrs]⟩

omit [DecidableEq C] in
theorem ahead_of_dominates (h : src.Invariant σ) (hdn : σ.hotPhaseDone = false)
    (hld : src.HotLoaded σ loaded winners) (hd : src.dominates plan σ = true) :
    ∀ r ∈ winners, src.Ahead plan r := by
  intro r hr
  rw [dominates] at hd
  rw [Ahead]
  cases hb : plan.coldBound with
  | none =>
    rw [hb] at hd
    rw [← (h.hot_phase hdn).1]
    exact List.isEmpty_iff.1 hd
  | some bound =>
    rw [hb, Bool.and_eq_true, all_eq_true] at hd
    exact hd.2 (hotResolved r) (hld.2 ▸ mem_map_of_mem hr)

omit [DecidableEq C] in
theorem coldGroups_of_dominates (h : src.Invariant σ) (hdn : σ.hotPhaseDone = false)
    (hws : σ.hotWinners = []) (hd : src.dominates plan σ = true) : src.coldGroups = [] := by
  rw [dominates] at hd
  split at hd
  · rw [← (h.hot_phase hdn).1]
    exact List.isEmpty_iff.1 hd
  · simp [hws] at hd

/-! #### The buffer -/

omit [DecidableEq K] [LinearOrder B] in
theorem leading_mem_competeColumns (hpl : src.ordered = some plan)
    (hrd : plan.leadingColumn ∈ src.projectionColumns) :
    plan.leadingColumn ∈ src.competeColumns := by
  rw [competeColumns]
  split
  · exact hrd
  next late hla =>
    rw [lateProjection, hpl, Option.bind_some, coldProjectionPlan] at hla
    split at hla
    · cases hla
    · cases hla
      simp

omit [DecidableEq C] in
theorem pairwise_sortBuffer
    (hks : ∀ row ∈ rows, src.encodeLeadingKey (row.image plan.leadingColumn) = src.rowKey plan row ∧
        (src.rowKey plan row).isSome = true) :
    ((src.sortBuffer plan rows).map (src.rowKey plan)).Pairwise (PgDefaultLe plan.direction) := by
  have hmem : ∀ row ∈ src.sortBuffer plan rows, row ∈ rows := fun row hrow ↦
    (mem_insertionSort _).1 hrow
  have : Std.Total fun left right ↦ src.comesBefore plan left right = true := ⟨fun left right ↦ by
    unfold comesBefore
    cases plan.direction with
    | asc => exact keyLe_total _ _
    | desc => exact keyLe_total _ _⟩
  have : IsTrans _ fun left right ↦ src.comesBefore plan left right = true :=
    ⟨fun left mid right hl hr ↦ by
      unfold comesBefore at hl hr ⊢
      cases hd : plan.direction with
      | asc =>
        simp only [hd] at hl hr
        exact keyLe_trans hl hr
      | desc =>
        simp only [hd] at hl hr
        exact keyLe_trans hr hl⟩
  rw [pairwise_map]
  refine (pairwise_insertionSort _ rows).imp_of_mem fun {left right} hl hr hle ↦ ?_
  obtain ⟨hleftKey, hleftSome⟩ := hks left (hmem left hl)
  obtain ⟨hrightKey, hrightSome⟩ := hks right (hmem right hr)
  rw [comesBefore, hleftKey, hrightKey] at hle
  exact pgDefaultLe_of_keyLe hleftSome hrightSome hle

theorem maybeEnterOrderedBuffer_sorts (ha : src.Arranged plan) (hpl : src.ordered = some plan)
    (h : src.Invariant σ) (hdn : σ.hotPhaseDone = false) (hld : src.HotLoaded σ loaded winners)
    (he : src.maybeEnterOrderedBuffer plan σ = .ok σ') :
    src.dominates plan σ = true ∧ σ' = σ ∨
      (∃ queue, σ'.mode = .sortedBuffer queue) ∧ src.OrderInv plan σ' ∧
        src.future plan σ' ⊆ src.future plan σ := by
  rw [maybeEnterOrderedBuffer] at he
  split at he
  next hd => exact .inl ⟨hd, (ok.inj he).symm⟩
  next hd =>
  obtain ⟨⟨hotRows, pages, ρ⟩, hh, hre⟩ := bind_eq_ok_iff.1 he
  obtain ⟨⟨coldRows, overlay, ρ'⟩, hcd, rfl⟩ := map_eq_ok_iff.1 hre
  rw [drainHot_eq h hdn] at hh
  obtain ⟨_, -, ⟨⟩⟩ := map_eq_ok_iff.1 hh
  obtain ⟨hgs, -, -⟩ := h.hot_phase hdn
  have hcoldMem : coldRows ⊆ src.coldGroups.flatMap src.groupWinners :=
    hgs ▸ drainCold_subset h.overlay hcd
  have hcoldRows : ∀ r ∈ coldRows, r ∈ src.coldGroups.flatten := fun r hr ↦
    mem_of_mem_groupWinners (hcoldMem hr)
  have hhotRows : ∀ r ∈ winners ++ σ.hotPages.flatten, r ∈ src.hotPages.flatten := by
    intro r hr
    rw [hld.1, List.append_assoc]
    exact mem_append_right _ hr
  -- the buffer is only entered when there is something cold to compare with
  obtain ⟨hhotKeyed, hcoldKeyed⟩ := ha.keyed.resolve_right fun hnone ↦ hd (by
    rw [dominates, hnone.2, hgs, hnone.1]
    rfl)
  have hrs : σ.hotWinners ++ σ.hotPages.flatten.map hotResolved =
      (winners ++ σ.hotPages.flatten).map hotResolved := by rw [hld.2, map_append]
  refine .inr ⟨⟨_, rfl⟩, .of_buffer rfl (pairwise_sortBuffer fun row hrow ↦ ?_), ?_⟩
  · rw [hrs] at hrow
    rcases mem_append.1 hrow with hrow | hrow
    · obtain ⟨r, hr, rfl⟩ := mem_map.1 hrow
      rw [rowKey_hotResolved (hhotRows r hr)]
      exact ⟨rfl, hhotKeyed r (hhotRows r hr)⟩
    · obtain ⟨r, hr, rfl⟩ := mem_map.1 hrow
      rw [rowKey_coldResolved (hcoldRows r hr)]
      refine ⟨?_, hcoldKeyed r (hcoldRows r hr)⟩
      exact congrArg src.encodeLeadingKey
        (if_pos (leading_mem_competeColumns hpl ha.leading_read))
  · rw [future_buffer rfl, future_hot h hdn hld]
    intro key hk
    obtain ⟨row, hrow, rfl⟩ := mem_map.1 hk
    rw [sortBuffer, mem_insertionSort, hrs] at hrow
    rcases mem_append.1 hrow with hrow | hrow
    · obtain ⟨r, hr, rfl⟩ := mem_map.1 hrow
      rw [rowKey_hotResolved (hhotRows r hr)]
      exact mem_append_left _ (mem_map_of_mem hr)
    · obtain ⟨r, hr, rfl⟩ := mem_map.1 hrow
      rw [rowKey_coldResolved (hcoldRows r hr)]
      exact mem_append_right _ (mem_map_of_mem (hcoldMem hr))

/-! #### The hot phase -/

theorem finishHotPhase_sorts (h : src.Invariant σ) (hdn : σ.hotPhaseDone = false)
    (hws : σ.hotWinners = [])
    (hcd : (src.coldGroups.flatMap src.groupWinners).Pairwise (src.ColdLe plan))
    (hf : finishHotPhase σ = .ok σ') :
    src.OrderInv plan σ' ∧ src.future plan σ' ⊆ src.future plan σ := by
  obtain ⟨hgs, hcoldWinners, hmd⟩ := h.hot_phase hdn
  obtain ⟨ρ, rfl⟩ : ∃ ρ, σ' = { σ with resolver := ρ, hotPhaseDone := true } := by
    rw [finishHotPhase] at hf
    split at hf
    · exact ⟨σ.resolver, (ok.inj hf).symm⟩
    · obtain ⟨ρ, -, rfl⟩ := map_eq_ok_iff.1 hf
      exact ⟨ρ.checkpoint, rfl⟩
  have hop : src.ColdOpened plan { σ with resolver := ρ, hotPhaseDone := true } [] :=
    ⟨hcoldWinners, forall_mem_nil _, by rw [nil_append, hgs]; exact hcd⟩
  refine ⟨.of_cold hmd rfl hws hop, ?_⟩
  rw [future_cold hop hmd rfl hws, future_streaming hmd]
  exact List.Subset.trans (subset_append_right _ _) (subset_append_right _ _)

theorem stepHotPhase_sorts (harr : src.Arranged plan) (hpl : src.ordered = some plan)
    (hl : σ.replayHot = true → src.ReplaysInOrder plan) (h : src.Invariant σ)
    (ho : src.OrderInv plan σ) (hdn : σ.hotPhaseDone = false) (hws : σ.hotWinners = [])
    (hstep : src.stepHotPhase σ = .ok σ') :
    src.OrderInv plan σ' ∧ src.future plan σ' ⊆ src.future plan σ := by
  obtain ⟨-, -, hmd⟩ := h.hot_phase hdn
  obtain ⟨loaded, winners, hld, hah⟩ := ho.hot hmd hdn
  obtain rfl : winners = [] := map_eq_nil_iff.1 (hld.2.symm.trans hws)
  obtain ⟨σ₁, hload, hre⟩ := bind_eq_ok_iff.1 hstep
  rw [hpl] at hre
  dsimp only at hre
  have hspec := loadNextHotPage_spec h hdn hws
  rw [hload] at hspec
  rcases loadNextHotPage_ok h hdn hload with ⟨hp, rfl⟩ | ⟨page, pages, ρ, hp, rfl⟩
  · -- the hot phase is exhausted, and every hot row was ahead
    simp only [hws, isEmpty_nil, if_true] at hre
    have ha : ∀ r ∈ src.hotPages.flatten, src.Ahead plan r := by
      intro r hr
      rw [hld.1, hp] at hr
      exact hah r (by simpa using hr)
    split at hre
    next hrp =>
      refine finishHotPhase_sorts h hdn hws ?_ hre
      exact (hl hrp).resolve_left fun ⟨r, hr, hn⟩ ↦ hn (ha r hr)
    · obtain ⟨σ₂, he, hf⟩ := bind_eq_ok_iff.1 hre
      rcases maybeEnterOrderedBuffer_sorts harr hpl h hdn hld he with
        ⟨hd, rfl⟩ | ⟨⟨queue, hq⟩, hso⟩
      · rw [hmd] at hf
        refine finishHotPhase_sorts h hdn hws ?_ hf
        rw [coldGroups_of_dominates h hdn hws hd]
        exact .nil
      · rw [hq] at hf
        cases hf
        exact hso
  · -- a page was loaded
    have hne : page ≠ [] := h.pages_ne_nil page (by simp [hp])
    have hdn₁ : ({ σ with hotPages := pages, hotWinners := page.map hotResolved, resolver := ρ } :
        MergeRowStream K C W).hotPhaseDone = false := hdn
    have hld₁ : src.HotLoaded { σ with
        hotPages := pages, hotWinners := page.map hotResolved, resolver := ρ } loaded page :=
      ⟨by simp [hld.1, hp], rfl⟩
    have hu : src.future plan { σ with
        hotPages := pages, hotWinners := page.map hotResolved, resolver := ρ } =
        src.future plan σ := by
      rw [future_hot hspec.1 hdn₁ hld₁, future_hot h hdn hld, hp]
      simp
    rw [if_neg (by simpa using hne)] at hre
    rcases maybeEnterOrderedBuffer_sorts harr hpl hspec.1 hdn₁ hld₁ hre with
      ⟨hd, rfl⟩ | ⟨-, hso, hs⟩
    · refine ⟨.of_hot hmd hdn₁ hld₁ fun r hr ↦ ?_, hu ▸ List.Subset.refl _⟩
      rcases mem_append.1 hr with hr | hr
      · exact hah r (mem_append_left _ hr)
      · exact ahead_of_dominates hspec.1 hdn₁ hld₁ hd r hr
    · exact ⟨hso, hu ▸ hs⟩

/-! #### All cases -/

theorem hydrateIfNeeded_sorts (ho : src.OrderInv plan σ) :
    src.OrderInv plan (src.hydrateIfNeeded σ) ∧
      src.future plan (src.hydrateIfNeeded σ) = src.future plan σ := by
  rw [hydrateIfNeeded]
  split
  next row queue hmd =>
    split
    · have hks : ((row :: queue).map src.hydrateBody).map (src.rowKey plan) =
          (row :: queue).map (src.rowKey plan) := by
        rw [map_map]
        exact map_congr_left fun row _ ↦ rowKey_hydrateBody row
      refine ⟨.of_buffer rfl ?_, ?_⟩
      · rw [hks]
        exact ho.buffer _ hmd
      · rw [future_buffer rfl, hks, future_buffer hmd]
    · exact ⟨ho, rfl⟩
  · exact ⟨ho, rfl⟩

theorem step_sorts (ha : src.Arranged plan) (hpl : src.ordered = some plan)
    (hl : σ.replayHot = true → src.ReplaysInOrder plan) (h : src.Invariant σ)
    (ho : src.OrderInv plan σ) : src.Sorts plan σ (src.step σ) := by
  obtain ⟨h₁, hsm, -, -⟩ := hydrateIfNeeded_spec h
  obtain ⟨ho₁, hf⟩ := hydrateIfNeeded_sorts ho
  have hl₁ : (src.hydrateIfNeeded σ).replayHot = true → src.ReplaysInOrder plan := fun hr ↦
    hl (hsm.replayHot.symm.trans hr)
  suffices hsorts : src.Sorts plan (src.hydrateIfNeeded σ) (src.step σ) by
    unfold Sorts at hsorts ⊢
    rwa [hf] at hsorts
  unfold step
  generalize src.hydrateIfNeeded σ = σ₁ at h₁ ho₁ hl₁ ⊢
  dsimp only
  split
  next row queue hmd => exact emit_buffer_sorts ho₁ hmd
  · trivial
  next hmd =>
    split
    next row rows hh => exact emit_hot_sorts ha h₁ ho₁ hmd hh
    next hh =>
      split
      next hdn =>
        split
        next row rows hcd => exact emit_cold_sorts ho₁ hmd hdn hcd
        next hcd => exact stepColdPhase_sorts h₁ ho₁ hmd hdn hcd
      next hdn =>
        rw [Bool.not_eq_true] at hdn
        cases hstep : src.stepHotPhase σ₁ with
        | error e => trivial
        | ok σ₂ => exact stepHotPhase_sorts ha hpl hl₁ h₁ ho₁ hdn hh hstep

end Step

section Pass

variable [DecidableEq C] [LinearOrder B]

inductive Gives : MergeRowStream K C W → List (EmittedRow K W) → Prop
  | nil {σ} : Gives σ []
  | again {σ σ' rows} : src.step σ = .ok (.again σ') → Gives σ' rows → Gives σ rows
  | emit {σ σ' row rows} : src.step σ = .ok (.emit row σ') → Gives σ' rows →
      Gives σ (row :: rows)

def InOrder (rows : List (EmittedRow K W)) : Prop :=
  (rows.map (src.leadingKey plan)).Pairwise (PgDefaultLe plan.direction)

variable {src plan} {σ τ : MergeRowStream K C W} {rows : List (EmittedRow K W)}

theorem Emits.gives (h : src.Emits σ rows) : src.Gives σ rows := by
  induction h with
  | again hstep _ ih => exact .again hstep ih
  | emit hstep _ ih => exact .emit hstep ih
  | finished _ => exact .nil

theorem Gives.inOrder_of_orderInv (ha : src.Arranged plan) (hpl : src.ordered = some plan)
    (hl : σ.replayHot = true → src.ReplaysInOrder plan) (h : src.Invariant σ)
    (ho : src.OrderInv plan σ) (hg : src.Gives σ rows) :
    src.InOrder plan rows ∧ rows.map (src.leadingKey plan) ⊆ src.future plan σ := by
  induction hg with
  | nil => exact ⟨.nil, nil_subset _⟩
  | again hstep _ ih =>
    have hspec := step_spec h
    have hsrt := step_sorts ha hpl hl h ho
    rw [hstep] at hspec hsrt
    obtain ⟨hso, hs⟩ := ih (fun hr ↦ hl (hspec.2.1.replayHot.symm.trans hr)) hspec.1
      hsrt.1
    exact ⟨hso, List.Subset.trans hs hsrt.2⟩
  | emit hstep _ ih =>
    have hspec := step_spec h
    have hsrt := step_sorts ha hpl hl h ho
    rw [hstep] at hspec hsrt
    obtain ⟨hi, hu, hf⟩ := hsrt
    obtain ⟨hso, hs⟩ := ih (fun hr ↦ hl (hspec.2.1.replayHot.symm.trans hr)) hspec.1
      hi
    rw [hu]
    exact ⟨pairwise_cons.2 ⟨fun key hk ↦ hf key (hs hk), hso⟩, cons_subset_cons _ hs⟩

theorem passes_start (h : src.Invariant σ) {ns : List ℕ} (hps : src.Passes σ ns τ) :
    src.Invariant τ ∧ (ns = [] ∧ τ = σ ∨ ns ≠ [] ∧ ∃ υ, τ = src.reset υ) := by
  induction hps with
  | nil => exact ⟨h, .inl ⟨rfl, rfl⟩⟩
  | @cons σ υ τ n ns hp _ ih =>
    obtain ⟨hi, hst⟩ := ih (pulls_spec h hp).1.reset
    refine ⟨hi, .inr ⟨cons_ne_nil n ns, ?_⟩⟩
    rcases hst with ⟨-, rfl⟩ | ⟨-, hrs⟩
    · exact ⟨υ, rfl⟩
    · exact hrs

/-- **Every pass emits its rows in order** — the first one over sources that are arranged, a later
one if moreover a hot row competes with what is cold or the cold winners come in order. -/
theorem gives_inOrder (harr : src.Arranged plan) (hplan : src.ordered = some plan) {ns : List ℕ}
    (hpasses : src.Passes src.newStream ns τ) (hlater : ns = [] ∨ src.ReplaysInOrder plan)
    (hgives : src.Gives τ rows) : src.InOrder plan rows := by
  obtain ⟨hi, hst⟩ := passes_start invariant_newStream hpasses
  rcases hst with ⟨-, rfl⟩ | ⟨hns, υ, rfl⟩
  · have hf : src.newStream.replayHot = true → src.ReplaysInOrder plan := nofun
    exact (hgives.inOrder_of_orderInv harr hplan hf hi (orderInv_start rfl rfl rfl rfl)).1
  · have hr := hlater.resolve_left hns
    exact (hgives.inOrder_of_orderInv harr hplan (fun _ ↦ hr) hi
      (orderInv_start rfl rfl rfl rfl)).1

end Pass

namespace OrderedEmitExample

def ascending : OrderedPlan Unit ℕ := ⟨.asc, some 10, ()⟩

theorem projected_columns : [()] ⊆ [()] := List.Subset.refl _

theorem deferred_of_eager (masked : ℕ → Bool) (pks : List ℕ)
    (h : OverlaySource.deferred masked = .eager pks) : some ascending = none := by
  cases h

def sources (hot : List (List (HotPageRow ℕ Unit ℕ))) (hne : ∀ page ∈ hot, page ≠ [])
    (hnodup : (hot.flatten.map HotPageRow.pk).Nodup) : MergeSources ℕ Unit ℕ ℕ where
  hotPages := hot
  coldGroups := [[⟨1, 5, false, fun _ ↦ some 20⟩], [⟨2, 4, false, fun _ ↦ some 10⟩]]
  overlay := .deferred fun _ ↦ false
  maxSeenKeys := 0
  pkRangesDisjoint := false
  projection := [()]
  projectionColumns := [()]
  primaryKeyColumns := [()]
  ordered := some ascending
  encodeLeadingKey := id
  pages_ne_nil := hne
  hot_nodup := hnodup
  versions := by simp
  projected := projected_columns
  ordered_deferred := deferred_of_eager _

def allCold : MergeSources ℕ Unit ℕ ℕ := sources [] (by simp) (by simp)

def oneHot : MergeSources ℕ Unit ℕ ℕ := sources [[⟨3, fun _ ↦ some 15⟩]] (by simp) (by simp)

theorem arranged_sources {hot : List (List (HotPageRow ℕ Unit ℕ))} {hne hnd}
    (hso : hot.flatten.Pairwise fun a b ↦ PgDefaultLe .asc (a.image ()) (b.image ()))
    (hkd : ∀ r ∈ hot.flatten, (r.image ()).isSome = true) :
    (sources hot hne hnd).Arranged ascending where
  leading_read := mem_singleton_self _
  hot_sorted := hso
  bound bound hb key hws r hr := by
    obtain rfl : 10 = bound := Option.some.inj hb
    cases key with
    | none => cases hws
    | some key =>
      have hlt : key < 10 := of_decide_eq_true hws
      have hc : r = ⟨1, 5, false, fun _ ↦ some 20⟩ ∨ r = ⟨2, 4, false, fun _ ↦ some 10⟩ := by
        simpa [sources] using hr
      rcases hc with rfl | rfl
      · exact show key ≤ 20 by omega
      · exact show key ≤ 10 by omega
  keyed := by
    refine .inl ⟨hkd, fun r hr ↦ ?_⟩
    have hc : r = ⟨1, 5, false, fun _ ↦ some 20⟩ ∨ r = ⟨2, 4, false, fun _ ↦ some 10⟩ := by
      simpa [sources] using hr
    rcases hc with rfl | rfl <;> rfl

theorem gives_inOrder_oneHot : ∃ τ rows, oneHot.Passes oneHot.newStream [4] τ ∧
    oneHot.Emits τ rows ∧ rows.map EmittedRow.values = [[some 10], [some 15], [some 20]] ∧
    oneHot.InOrder ascending rows := by
  have hps : ∃ τ, oneHot.Passes oneHot.newStream [4] τ ∧ ∃ rows, oneHot.Emits τ rows ∧
      rows.map EmittedRow.values = [[some 10], [some 15], [some 20]] :=
    ⟨_, .cons (.again rfl (.emit rfl (.emit rfl (.emit rfl (.finished rfl))))) .nil,
      _, .again rfl (.emit rfl (.emit rfl (.emit rfl (.finished rfl)))), rfl⟩
  obtain ⟨τ, hps, rows, hem, hrs⟩ := hps
  have ha : oneHot.Arranged ascending := arranged_sources (by simp) (by simp)
  have hr : oneHot.ReplaysInOrder ascending := by
    refine .inl ⟨⟨3, fun _ ↦ some 15⟩, by simp [oneHot, sources], ?_⟩
    show ¬hotStrictlyWins .asc 10 (some 15) = true
    decide
  exact ⟨τ, rows, hps, hem, hrs, gives_inOrder ha rfl hps (.inr hr) hem.gives⟩

theorem rescan_emits_unsorted : allCold.Arranged ascending ∧
    (∃ rows, allCold.Emits allCold.newStream rows ∧
      rows.map EmittedRow.values = [[some 10], [some 20]]) ∧
    ∃ τ rows, allCold.Passes allCold.newStream [3] τ ∧ allCold.Emits τ rows ∧
      rows.map EmittedRow.values = [[some 20], [some 10]] ∧ ¬allCold.InOrder ascending rows := by
  refine ⟨arranged_sources .nil (by simp),
    ⟨_, .again rfl (.emit rfl (.emit rfl (.finished rfl))), rfl⟩, _, _,
    .cons (.again rfl (.emit rfl (.emit rfl (.finished rfl)))) .nil,
    .again rfl (.again rfl (.emit rfl (.again rfl (.emit rfl (.finished rfl))))), rfl, ?_⟩
  intro hso
  have hle : PgDefaultLe .asc (some 20) (some 10) := (pairwise_cons.1 hso).1 _ mem_cons_self
  exact absurd (show 20 ≤ 10 from hle) (by decide)

end OrderedEmitExample

end MergeSources

end Koldstore
