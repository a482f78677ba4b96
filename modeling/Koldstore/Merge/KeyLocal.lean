import Koldstore.Merge.Disjoint

/-!
# A run is a run for each key

What a run emits for a key depends on the versions of that key alone.
-/

namespace Koldstore.NewestFirstWinnerResolver

open List Except NewestFirstWinnerResolver

variable {K R : Type*} [DecidableEq K] {key : R → K} {seq : R → ℕ} {deleted : R → Bool}
  {p : K → Bool} {ρ ρ' τ : NewestFirstWinnerResolver K} {rows out : List R}
  {batches : List (List R)} {overlay : List (Overlay K R)}

/-! ### Batches -/

def restrict (key : R → K) (p : K → Bool) (rows : List R) : List R := rows.filter fun r ↦ p (key r)

def Overlay.restrict (key : R → K) (p : K → Bool) : Overlay K R → Overlay K R
  | .hot rows => .hot (NewestFirstWinnerResolver.restrict key p rows)
  | .tombstones pks => .tombstones (pks.filter p)

variable {r : R}

omit [DecidableEq K] in
theorem restrict_cons_of_pos (h : p (key r) = true) :
    restrict key p (r :: rows) = r :: restrict key p rows :=
  filter_cons_of_pos h

omit [DecidableEq K] in
theorem restrict_cons_of_neg (h : ¬p (key r) = true) :
    restrict key p (r :: rows) = restrict key p rows :=
  filter_cons_of_neg h

omit [DecidableEq K] in
theorem restrict_append (rows rows' : List R) :
    restrict key p (rows ++ rows') = restrict key p rows ++ restrict key p rows' :=
  filter_append ..

theorem restrict_insertCandidate (source : RowSource) (row : R) (winners : List R) :
    restrict key p (insertCandidate source key seq row winners) =
      if p (key row) then insertCandidate source key seq row (restrict key p winners)
      else restrict key p winners := by
  induction winners with
  | nil => by_cases h : p (key row) = true <;> simp [restrict, insertCandidate, h]
  | cons winner winners ih =>
    by_cases hk : key winner = key row
    · -- the row and the winner it meets are both kept or both dropped
      rw [insertCandidate, if_pos hk]
      by_cases h : p (key row) = true
      · have hw : p (key winner) = true := by rw [hk, h]
        rw [if_pos h, restrict_cons_of_pos hw, insertCandidate, if_pos hk]
        split_ifs
        · rw [restrict_cons_of_pos h]
        · rw [restrict_cons_of_pos hw]
      · have hw : ¬p (key winner) = true := by rwa [hk]
        rw [if_neg h, restrict_cons_of_neg hw]
        split_ifs
        · rw [restrict_cons_of_neg h]
        · rw [restrict_cons_of_neg hw]
    · rw [insertCandidate, if_neg hk]
      by_cases hw : p (key winner) = true
      · rw [restrict_cons_of_pos hw, restrict_cons_of_pos hw, ih]
        split_ifs
        · rw [insertCandidate, if_neg hk]
        · rfl
      · rw [restrict_cons_of_neg hw, restrict_cons_of_neg hw, ih]

theorem batchWinners_restrict (source : RowSource) (rows : List R) :
    batchWinners source key seq (restrict key p rows) =
      restrict key p (batchWinners source key seq rows) := by
  have hfo : ∀ winners, (restrict key p rows).foldl
      (fun ws row ↦ insertCandidate source key seq row ws) (restrict key p winners) = restrict key p
          (rows.foldl (fun ws row ↦ insertCandidate source key seq row ws) winners) := by
    induction rows with
    | nil => exact fun _ ↦ rfl
    | cons row rows ih =>
      intro winners
      rw [foldl_cons, ← ih, restrict_insertCandidate]
      by_cases h : p (key row) = true
      · rw [restrict_cons_of_pos h, if_pos h]
        rfl
      · rw [restrict_cons_of_neg h, if_neg h]
  exact hfo []

structure AgreesOn (p : K → Bool) (ρ τ : NewestFirstWinnerResolver K) : Prop where
  seen : ∀ k, p k = true → (k ∈ ρ.seen ↔ k ∈ τ.seen)
  retains : ρ.skipColdIdentityRetention = false
  retains' : τ.skipColdIdentityRetention = false
  uncapped : τ.maxSeenKeys = none

variable {source : RowSource}

theorem AgreesOn.resolveBatch (h : AgreesOn p ρ τ)
    (hok : resolveBatch source key seq deleted true rows ρ = .ok (out, ρ')) :
    ∃ τ', resolveBatch source key seq deleted true
      (restrict key p rows) τ = .ok (restrict key p out, τ') ∧ AgreesOn p ρ' τ' := by
  obtain ⟨rfl, rfl⟩ := takeUnseenOrdered_eq_ok (nodup_map_key_batchWinners _ _ _ _) hok
  obtain ⟨⟨out', τ'⟩, htk⟩ : ∃ r, resolveBatch source key seq deleted
      true (restrict key p rows) τ = .ok r := exists_takeUnseenOrdered_eq_ok _ h.uncapped
  obtain ⟨rfl, rfl⟩ := takeUnseenOrdered_eq_ok (nodup_map_key_batchWinners _ _ _ _) htk
  rw [batchWinners_restrict] at htk
  have hrs : ∀ winners : List R,
      (restrict key p winners).filter (fun w ↦ !decide (key w ∈ τ.seen) && !deleted w) =
        restrict key p (winners.filter fun w ↦ !decide (key w ∈ ρ.seen) && !deleted w) := by
    intro winners
    simp only [restrict, filter_filter]
    refine filter_congr fun w _ ↦ ?_
    by_cases hp : p (key w) = true
    · rw [decide_eq_decide.2 (h.seen _ hp), Bool.and_comm]
    · simp [Bool.not_eq_true _ ▸ hp]
  rw [hrs] at htk
  refine ⟨_, htk, fun k hk ↦ ?_, h.retains, h.retains', h.uncapped⟩
  simp only [mem_append, mem_filter, mem_map, restrict, h.seen k hk]
  constructor
  · rintro (hmem | ⟨⟨w, hw, rfl⟩, hn⟩)
    · exact .inl hmem
    · exact .inr ⟨⟨w, ⟨hw, hk⟩, rfl⟩, by simpa [h.seen _ hk] using hn⟩
  · rintro (hmem | ⟨⟨w, hw, rfl⟩, hn⟩)
    · exact .inl hmem
    · exact .inr ⟨⟨w, hw.1, rfl⟩, by simpa [h.seen _ hk] using hn⟩

/-! ### Tombstones -/

theorem mem_maskOlderPks_iff {pks : List K} (h : maskOlderPks pks ρ = .ok ρ') {k : K} :
    k ∈ ρ'.seen ↔ k ∈ ρ.seen ∨ k ∈ pks := by
  refine ⟨mem_of_mem_maskOlderPks h, ?_⟩
  induction pks generalizing ρ with
  | nil =>
    cases h
    simp
  | cons pk pks ih =>
    obtain ⟨⟨isNew, ρ₁⟩, hi, hre⟩ := bind_eq_ok_iff.1 h
    obtain ⟨-, hρ₁⟩ := insertSeen_eq_ok hi
    intro hk
    refine ih hre ?_
    rw [hρ₁]
    by_cases hmem : pk ∈ ρ.seen
    · rw [if_pos hmem]
      rcases hk with hk | hk
      · exact .inl hk
      · rcases mem_cons.1 hk with rfl | hk
        · exact .inl hmem
        · exact .inr hk
    · rw [if_neg hmem, mem_append, mem_singleton]
      rcases hk with hk | hk
      · exact .inl (.inl hk)
      · exact (mem_cons.1 hk).imp_left .inr

theorem AgreesOn.maskOlderPks (h : AgreesOn p ρ τ) {pks : List K}
    (hok : maskOlderPks pks ρ = .ok ρ') :
    ∃ τ', maskOlderPks (pks.filter p) τ = .ok τ' ∧ AgreesOn p ρ' τ' := by
  obtain ⟨τ', hτ'⟩ := exists_maskOlderPks_eq_ok (pks.filter p) h.uncapped
  refine ⟨τ', hτ', fun k hk ↦ ?_, ?_, ?_, ?_⟩
  · rw [mem_maskOlderPks_iff hok, mem_maskOlderPks_iff hτ', h.seen k hk, mem_filter,
      and_iff_left hk]
  · rw [maskOlderPks_frame hok, h.retains]
  · rw [maskOlderPks_frame hτ', h.retains']
  · rw [maskOlderPks_frame hτ', h.uncapped]

/-! ### Whole runs -/

theorem AgreesOn.resolveOverlay (h : AgreesOn p ρ τ)
    (hok : resolveOverlay key seq deleted overlay ρ = .ok (out, ρ')) :
    ∃ τ', resolveOverlay key seq deleted
      (overlay.map (Overlay.restrict key p)) τ = .ok (restrict key p out, τ') ∧
        AgreesOn p ρ' τ' := by
  induction overlay generalizing ρ τ out with
  | nil =>
    cases hok
    exact ⟨τ, rfl, h⟩
  | cons supplied overlay ih =>
    cases supplied with
    | hot rows =>
      obtain ⟨out₁, ρ₁, out₂, hbt, hl, rfl⟩ := exists_of_bind_append_eq_ok hok
      obtain ⟨τ₁, hbt', h₁⟩ := h.resolveBatch hbt
      obtain ⟨τ₂, hl', h₂⟩ := ih h₁ hl
      refine ⟨τ₂, ?_, h₂⟩
      rw [map_cons, Overlay.restrict, resolveOverlay, resolveHotBatch, hbt']
      show (resolveOverlay key seq deleted _ τ₁).map _ = _
      rw [hl', restrict_append]
      rfl
    | tombstones pks =>
      obtain ⟨ρ₁, hmk, hl⟩ := bind_eq_ok_iff.1 hok
      obtain ⟨τ₁, hmk', h₁⟩ := h.maskOlderPks hmk
      obtain ⟨τ₂, hl', h₂⟩ := ih h₁ hl
      refine ⟨τ₂, ?_, h₂⟩
      rw [map_cons, Overlay.restrict, resolveOverlay, hmk']
      exact hl'

theorem AgreesOn.resolveCold (h : AgreesOn p ρ τ)
    (hok : resolveCold key seq deleted batches ρ = .ok (out, ρ')) :
    ∃ τ', resolveCold key seq deleted
      (batches.map (restrict key p)) τ = .ok (restrict key p out, τ') ∧ AgreesOn p ρ' τ' := by
  induction batches generalizing ρ τ out with
  | nil =>
    cases hok
    exact ⟨τ, rfl, h⟩
  | cons batch batches ih =>
    obtain ⟨out₁, ρ₁, out₂, hbt, hl, rfl⟩ := exists_of_bind_append_eq_ok hok
    rw [resolveColdBatch, h.retains] at hbt
    obtain ⟨τ₁, hbt', h₁⟩ := h.resolveBatch hbt
    obtain ⟨τ₂, hl', h₂⟩ := ih h₁ hl
    refine ⟨τ₂, ?_, h₂⟩
    rw [map_cons, resolveCold, resolveColdBatch, h.retains', Bool.not_false, hbt']
    show (resolveCold key seq deleted _ τ₁).map _ = _
    rw [hl', restrict_append]
    rfl

variable {maxSeenKeys : Option ℕ}

/-- **A run restricted to some keys.** -/
theorem resolveRun_restrict (p : K → Bool)
    (hok : resolveRun key seq deleted overlay batches (new [] maxSeenKeys) = .ok (out, ρ')) :
    ∃ τ', resolveRun key seq deleted (overlay.map (Overlay.restrict key p))
      (batches.map (restrict key p)) (new [] none) = .ok (restrict key p out, τ') := by
  have h : AgreesOn p (new [] maxSeenKeys : NewestFirstWinnerResolver K) (new [] none) :=
    ⟨fun _ _ ↦ Iff.rfl, rfl, rfl, rfl⟩
  obtain ⟨out₁, ρ₁, out₂, hov, hcd, rfl⟩ := exists_of_bind_append_eq_ok hok
  obtain ⟨τ₁, hov', h₁⟩ := h.resolveOverlay hov
  obtain ⟨τ₂, hcd', -⟩ := h₁.resolveCold hcd
  refine ⟨τ₂, ?_⟩
  rw [resolveRun, hov']
  show (resolveCold key seq deleted _ τ₁).map _ = _
  rw [hcd', restrict_append]
  rfl

theorem resolveCold_filter_ne_nil (batches : List (List R)) (ρ : NewestFirstWinnerResolver K) :
    resolveCold key seq deleted (batches.filter fun batch ↦ !batch.isEmpty) ρ =
      resolveCold key seq deleted batches ρ := by
  induction batches generalizing ρ with
  | nil => rfl
  | cons batch batches ih =>
    cases batch with
    | nil =>
      rw [filter_cons_of_neg (by simp), ih]
      show _ = (resolveCold key seq deleted batches ρ).map _
      cases resolveCold key seq deleted batches ρ <;> rfl
    | cons row rows =>
      rw [filter_cons_of_pos (by simp), resolveCold, resolveCold]
      congr 1
      funext r
      rw [ih]

theorem resolveRun_filter_ne_nil (overlay : List (Overlay K R)) (batches : List (List R))
    (ρ : NewestFirstWinnerResolver K) :
    resolveRun key seq deleted overlay (batches.filter fun batch ↦ !batch.isEmpty) ρ =
      resolveRun key seq deleted overlay batches ρ := by
  simp only [resolveRun, resolveCold_filter_ne_nil]

theorem mem_of_mem_resolveBatch
    (hok : resolveBatch source key seq deleted true rows ρ = .ok (out, ρ')) (hr : r ∈ out) :
    deleted r = false ∧ r ∈ rows := by
  obtain ⟨rfl, -⟩ := takeUnseenOrdered_eq_ok (nodup_map_key_batchWinners _ _ _ _) hok
  obtain ⟨hw, hlv⟩ := mem_filter.1 hr
  exact ⟨by simpa using (Bool.and_eq_true_iff.1 hlv).2, mem_of_mem_batchWinners hw⟩

theorem mem_of_mem_resolveOverlay_rows
    (hok : resolveOverlay key seq deleted overlay ρ = .ok (out, ρ')) (hr : r ∈ out) :
    deleted r = false ∧ ∃ rows, Overlay.hot rows ∈ overlay ∧ r ∈ rows := by
  induction overlay generalizing ρ out with
  | nil =>
    cases hok
    cases hr
  | cons supplied overlay ih =>
    cases supplied with
    | hot rows =>
      obtain ⟨out₁, ρ₁, out₂, hbt, hl, rfl⟩ := exists_of_bind_append_eq_ok hok
      rcases mem_append.1 hr with hr | hr
      · obtain ⟨hlv, hmem⟩ := mem_of_mem_resolveBatch hbt hr
        exact ⟨hlv, rows, mem_cons_self, hmem⟩
      · obtain ⟨hlv, rows', hrs', hmem⟩ := ih hl hr
        exact ⟨hlv, rows', mem_cons_of_mem _ hrs', hmem⟩
    | tombstones pks =>
      obtain ⟨ρ₁, hmk, hl⟩ := bind_eq_ok_iff.1 hok
      obtain ⟨hlv, rows', hrs', hmem⟩ := ih hl hr
      exact ⟨hlv, rows', mem_cons_of_mem _ hrs', hmem⟩

theorem mem_of_mem_resolveCold (he : ρ.skipColdIdentityRetention = false)
    (hok : resolveCold key seq deleted batches ρ = .ok (out, ρ')) (hr : r ∈ out) :
    deleted r = false ∧ ∃ batch ∈ batches, r ∈ batch := by
  induction batches generalizing ρ out with
  | nil =>
    cases hok
    cases hr
  | cons batch batches ih =>
    obtain ⟨out₁, ρ₁, out₂, hbt, hl, rfl⟩ := exists_of_bind_append_eq_ok hok
    rw [resolveColdBatch, he] at hbt
    rcases mem_append.1 hr with hr | hr
    · obtain ⟨hlv, hmem⟩ := mem_of_mem_resolveBatch hbt hr
      exact ⟨hlv, batch, mem_cons_self, hmem⟩
    · have hr₁ : ρ₁.skipColdIdentityRetention = false := by
        rw [takeUnseenOrdered_frame hbt, he]
      obtain ⟨hlv, later, hl', hmem⟩ := ih hr₁ hl hr
      exact ⟨hlv, later, mem_cons_of_mem _ hl', hmem⟩

theorem mem_of_mem_resolveRun
    (hok : resolveRun key seq deleted overlay batches (new [] maxSeenKeys) = .ok (out, ρ'))
    (hr : r ∈ out) :
    deleted r = false ∧
      ((∃ rows, Overlay.hot rows ∈ overlay ∧ r ∈ rows) ∨ ∃ batch ∈ batches, r ∈ batch) := by
  obtain ⟨out₁, ρ₁, out₂, hov, hcd, rfl⟩ := exists_of_bind_append_eq_ok hok
  have he : ρ₁.skipColdIdentityRetention = false := by
    rw [resolveOverlay_frame hov]
    rfl
  rcases mem_append.1 hr with hr | hr
  · exact (mem_of_mem_resolveOverlay_rows hov hr).imp_right .inl
  · exact (mem_of_mem_resolveCold he hcd hr).imp_right .inr

end Koldstore.NewestFirstWinnerResolver
