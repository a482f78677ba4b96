import Koldstore.Merge.Resolver

/-!
# Cold segments without common keys

Without common keys the resolver need not remember the cold keys it has returned.
-/

namespace Koldstore.NewestFirstWinnerResolver

open List Except

variable {K R : Type*} [DecidableEq K]

/-! ### Runs -/

def new (maskedPks : List K) (maxSeenKeys : Option ℕ) : NewestFirstWinnerResolver K :=
  ⟨maskedPks.dedup, maskedPks.dedup, maxSeenKeys, false⟩

def withoutColdIdentityRetention (ρ : NewestFirstWinnerResolver K) : NewestFirstWinnerResolver K :=
  { ρ with skipColdIdentityRetention := true }

inductive Overlay (K R : Type*)
  | hot (rows : List R)
  | tombstones (pks : List K)

section Run

variable (key : R → K) (seq : R → ℕ) (deleted : R → Bool)

def Overlay.keys : Overlay K R → List K
  | .hot rows => rows.map key
  | .tombstones pks => pks

def resolveHotBatch (rows : List R) (ρ : NewestFirstWinnerResolver K) :
    Except SeenKeyLimitExceeded (List R × NewestFirstWinnerResolver K) :=
  resolveBatch .hot key seq deleted true rows ρ

def resolveColdBatch (rows : List R) (ρ : NewestFirstWinnerResolver K) :
    Except SeenKeyLimitExceeded (List R × NewestFirstWinnerResolver K) :=
  resolveBatch .cold key seq deleted (!ρ.skipColdIdentityRetention) rows ρ

def resolveOverlay : List (Overlay K R) → NewestFirstWinnerResolver K →
    Except SeenKeyLimitExceeded (List R × NewestFirstWinnerResolver K)
  | [], ρ => .ok ([], ρ)
  | .hot rows :: overlay, ρ =>
    (resolveHotBatch key seq deleted rows ρ).bind fun r ↦
      (resolveOverlay overlay r.2).map fun r' ↦ (r.1 ++ r'.1, r'.2)
  | .tombstones pks :: overlay, ρ => (maskOlderPks pks ρ).bind fun ρ ↦ resolveOverlay overlay ρ

def resolveCold : List (List R) → NewestFirstWinnerResolver K →
    Except SeenKeyLimitExceeded (List R × NewestFirstWinnerResolver K)
  | [], ρ => .ok ([], ρ)
  | batch :: batches, ρ =>
    (resolveColdBatch key seq deleted batch ρ).bind fun r ↦
      (resolveCold batches r.2).map fun r' ↦ (r.1 ++ r'.1, r'.2)

def resolveRun (overlay : List (Overlay K R)) (batches : List (List R))
    (ρ : NewestFirstWinnerResolver K) :
    Except SeenKeyLimitExceeded (List R × NewestFirstWinnerResolver K) :=
  (resolveOverlay key seq deleted overlay ρ).bind fun r ↦
    (resolveCold key seq deleted batches r.2).map fun r' ↦ (r.1 ++ r'.1, r'.2)

end Run

variable {key : R → K} {seq : R → ℕ} {deleted : R → Bool} {ρ ρ' τ : NewestFirstWinnerResolver K}
  {rows : List R} {batches : List (List R)} {overlay : List (Overlay K R)}

/-! ### Before the cold batches -/

theorem insertSeen_without (ρ : NewestFirstWinnerResolver K) (k : K) :
    ρ.withoutColdIdentityRetention.insertSeen k =
      (ρ.insertSeen k).map fun r ↦ (r.1, r.2.withoutColdIdentityRetention) := by
  unfold insertSeen
  by_cases hmem : k ∈ ρ.seen
  · rw [if_pos hmem, if_pos (show k ∈ ρ.withoutColdIdentityRetention.seen from hmem)]
    rfl
  · rw [if_neg hmem, if_neg (show k ∉ ρ.withoutColdIdentityRetention.seen from hmem)]
    rcases hc : ρ.maxSeenKeys with _ | limit
    · simp [withoutColdIdentityRetention, hc, Except.map]
    · by_cases hfu : limit ≤ ρ.seen.length <;>
        simp [withoutColdIdentityRetention, hc, hfu, Except.map]

theorem maskOlderPks_without (pks : List K) (ρ : NewestFirstWinnerResolver K) :
    maskOlderPks pks ρ.withoutColdIdentityRetention =
      (maskOlderPks pks ρ).map withoutColdIdentityRetention := by
  induction pks generalizing ρ with
  | nil => rfl
  | cons k pks ih =>
    rw [maskOlderPks, maskOlderPks, insertSeen_without]
    cases ρ.insertSeen k with
    | error e => rfl
    | ok r => exact ih r.2

theorem takeUnseenOrdered_without (winners : List R) (ρ : NewestFirstWinnerResolver K) :
    takeUnseenOrdered key deleted true winners ρ.withoutColdIdentityRetention =
      (takeUnseenOrdered key deleted true winners ρ).map fun r ↦
        (r.1, r.2.withoutColdIdentityRetention) := by
  induction winners generalizing ρ with
  | nil => rfl
  | cons winner winners ih =>
    rw [takeUnseenOrdered, takeUnseenOrdered, if_pos rfl, if_pos rfl, insertSeen_without]
    cases ρ.insertSeen (key winner) with
    | error e => rfl
    | ok r =>
      show (takeUnseenOrdered key deleted true winners r.2.withoutColdIdentityRetention).map _ =
        Except.map _ ((takeUnseenOrdered key deleted true winners r.2).map _)
      rw [ih]
      cases takeUnseenOrdered key deleted true winners r.2 <;> rfl

theorem resolveOverlay_without (overlay : List (Overlay K R)) (ρ : NewestFirstWinnerResolver K) :
    resolveOverlay key seq deleted overlay ρ.withoutColdIdentityRetention =
      (resolveOverlay key seq deleted overlay ρ).map fun r ↦
        (r.1, r.2.withoutColdIdentityRetention) := by
  induction overlay generalizing ρ with
  | nil => rfl
  | cons supplied overlay ih =>
    cases supplied with
    | hot rows =>
      rw [resolveOverlay, resolveOverlay, resolveHotBatch, resolveHotBatch, resolveBatch,
        resolveBatch, takeUnseenOrdered_without]
      cases takeUnseenOrdered key deleted true (batchWinners .hot key seq rows) ρ with
      | error e => rfl
      | ok r =>
        show (resolveOverlay key seq deleted overlay r.2.withoutColdIdentityRetention).map _ =
          Except.map _ ((resolveOverlay key seq deleted overlay r.2).map _)
        rw [ih]
        cases resolveOverlay key seq deleted overlay r.2 <;> rfl
    | tombstones pks =>
      rw [resolveOverlay, resolveOverlay, maskOlderPks_without]
      cases maskOlderPks pks ρ with
      | error e => rfl
      | ok ρ₁ => exact ih ρ₁

theorem mem_of_mem_resolveOverlay (h : resolveOverlay key seq deleted overlay ρ = .ok (rows, ρ'))
    {k : K} (hk : k ∈ ρ'.seen) : k ∈ ρ.seen ∨ ∃ supplied ∈ overlay, k ∈ supplied.keys key := by
  induction overlay generalizing ρ rows with
  | nil =>
    cases h
    exact .inl hk
  | cons supplied overlay ih =>
    -- what the first one adds are its own keys
    have hre {ρ₁ : NewestFirstWinnerResolver K} {rows₁ : List R}
        (hl : resolveOverlay key seq deleted overlay ρ₁ = .ok (rows₁, ρ'))
        (ha : ∀ k ∈ ρ₁.seen, k ∈ ρ.seen ∨ k ∈ supplied.keys key) :
        k ∈ ρ.seen ∨ ∃ s ∈ supplied :: overlay, k ∈ s.keys key := by
      rcases ih hl with hk | ⟨s, hs, hk⟩
      · exact (ha k hk).imp_right fun hk ↦ ⟨supplied, mem_cons_self, hk⟩
      · exact .inr ⟨s, mem_cons_of_mem _ hs, hk⟩
    cases supplied with
    | hot rows =>
      obtain ⟨rows₁, ρ₁, rows₂, hbt, hl, rfl⟩ := exists_of_bind_append_eq_ok h
      refine hre hl fun k hk ↦ ?_
      rw [(takeUnseenOrdered_eq_ok (nodup_map_key_batchWinners _ _ _ _) hbt).2] at hk
      refine (mem_append.1 hk).imp_right fun hk ↦ ?_
      obtain ⟨w, hw, rfl⟩ := mem_map.1 (mem_of_mem_filter hk)
      exact mem_map_of_mem (mem_of_mem_batchWinners hw)
    | tombstones pks =>
      obtain ⟨ρ₁, hmk, hl⟩ := bind_eq_ok_iff.1 h
      exact hre hl fun k hk ↦ mem_of_mem_maskOlderPks hmk hk

/-! ### Cold batches -/

/-- The rows of a batch that are emitted after the keys `seen`. -/
def emittedOf (key : R → K) (seq : R → ℕ) (deleted : R → Bool) (seen : List K) (batch : List R) :
    List R :=
  (batchWinners .cold key seq batch).filter fun w ↦ !decide (key w ∈ seen) && !deleted w

theorem resolveCold_of_skip (batches : List (List R)) (hsk : ρ.skipColdIdentityRetention = true) :
    resolveCold key seq deleted batches ρ =
      .ok (batches.flatMap (emittedOf key seq deleted ρ.seen), ρ) := by
  induction batches with
  | nil => rfl
  | cons batch batches ih =>
    rw [resolveCold, resolveColdBatch, resolveBatch, hsk, Bool.not_true, takeUnseenOrdered_false]
    show (resolveCold key seq deleted batches ρ).map _ = _
    rw [ih]
    rfl

theorem exists_batch_of_mem_resolveCold {r : R}
    (h : resolveCold key seq deleted batches ρ = .ok (rows, ρ')) (hr : r ∈ rows) :
    ∃ batch ∈ batches, r ∈ batch := by
  induction batches generalizing ρ rows with
  | nil =>
    cases h
    cases hr
  | cons batch batches ih =>
    obtain ⟨rows₁, ρ₁, rows₂, hbt, hl, rfl⟩ := exists_of_bind_append_eq_ok h
    rcases mem_append.1 hr with hr | hr
    · exact ⟨batch, mem_cons_self,
        mem_of_mem_batchWinners ((takeUnseenOrdered_sublist hbt).subset hr)⟩
    · obtain ⟨later, hmem, hr⟩ := ih hl hr
      exact ⟨later, mem_cons_of_mem _ hmem, hr⟩

def DisjointBatches (key : R → K) (batches : List (List R)) : Prop :=
  batches.Pairwise fun a b ↦ ∀ r ∈ a, ∀ s ∈ b, key r ≠ key s

def Agrees (key : R → K) (batches : List (List R)) (seen seen' : List K) : Prop :=
  ∀ batch ∈ batches, ∀ r ∈ batch, key r ∈ seen ↔ key r ∈ seen'

theorem emittedOf_congr {seen seen' : List K} {batch : List R}
    (h : ∀ r ∈ batch, key r ∈ seen ↔ key r ∈ seen') :
    emittedOf key seq deleted seen batch = emittedOf key seq deleted seen' batch :=
  filter_congr fun w hw ↦ by
    rw [decide_eq_decide.2 (h w (mem_of_mem_batchWinners hw))]

/-- **With retention the same rows are emitted.** -/
theorem resolveCold_of_retain {seen : List K} (hd : DisjointBatches key batches)
    (ha : Agrees key batches τ.seen seen) (he : τ.skipColdIdentityRetention = false)
    (h : resolveCold key seq deleted batches τ = .ok (rows, ρ')) :
    rows = batches.flatMap (emittedOf key seq deleted seen) := by
  induction batches generalizing τ rows with
  | nil =>
    cases h
    rfl
  | cons batch batches ih =>
    obtain ⟨hf, hre⟩ := pairwise_cons.1 hd
    obtain ⟨rows₁, τ₁, rows₂, hbt, hl, rfl⟩ := exists_of_bind_append_eq_ok h
    rw [resolveColdBatch, he] at hbt
    obtain ⟨hrs, hτ₁⟩ := takeUnseenOrdered_eq_ok (nodup_map_key_batchWinners _ _ _ _) hbt
    have hagr₁ : Agrees key batches τ₁.seen seen := by
      intro later hmem r hr
      rw [← ha later (mem_cons_of_mem _ hmem) r hr, hτ₁, mem_append]
      refine or_iff_left fun hk ↦ ?_
      obtain ⟨w, hw, hkey⟩ := mem_map.1 (mem_of_mem_filter hk)
      exact hf later hmem w (mem_of_mem_batchWinners hw) r hr hkey
    rw [ih hre hagr₁ (by rw [hτ₁]; exact he) hl, hrs, flatMap_cons]
    exact congrArg (· ++ _) (emittedOf_congr (ha batch mem_cons_self))

theorem exists_resolveCold_eq_ok (batches : List (List R)) (hc : τ.maxSeenKeys = none)
    (hr : τ.skipColdIdentityRetention = false) :
    ∃ r, resolveCold key seq deleted batches τ = .ok r := by
  induction batches generalizing τ with
  | nil => exact ⟨_, rfl⟩
  | cons batch batches ih =>
    obtain ⟨⟨rows₁, τ₁⟩, hbt⟩ : ∃ r, resolveColdBatch key seq deleted batch τ = .ok r := by
      rw [resolveColdBatch, hr]
      exact exists_takeUnseenOrdered_eq_ok _ hc
    have hfr := takeUnseenOrdered_frame hbt
    have hc₁ : τ₁.maxSeenKeys = none := by rw [hfr, hc]
    have hr₁ : τ₁.skipColdIdentityRetention = false := by rw [hfr, hr]
    obtain ⟨r, hl⟩ := ih hc₁ hr₁
    rw [resolveCold, hbt]
    exact ⟨_, congrArg (Except.map _) hl⟩

/-! ### Whole runs -/

theorem resolveOverlay_frame (h : resolveOverlay key seq deleted overlay ρ = .ok (rows, ρ')) :
    ρ' = { ρ with seen := ρ'.seen } := by
  induction overlay generalizing ρ rows with
  | nil =>
    cases h
    rfl
  | cons supplied overlay ih =>
    cases supplied with
    | hot rows =>
      obtain ⟨rows₁, ρ₁, rows₂, hbt, hl, rfl⟩ := exists_of_bind_append_eq_ok h
      exact (ih hl).trans (by rw [takeUnseenOrdered_frame hbt])
    | tombstones pks =>
      obtain ⟨ρ₁, hmk, hl⟩ := bind_eq_ok_iff.1 h
      exact (ih hl).trans (by rw [maskOlderPks_frame hmk])

theorem exists_maskOlderPks_eq_ok (pks : List K) (hc : ρ.maxSeenKeys = none) :
    ∃ ρ', maskOlderPks pks ρ = .ok ρ' := by
  induction pks generalizing ρ with
  | nil => exact ⟨_, rfl⟩
  | cons k pks ih =>
    rw [maskOlderPks, insertSeen]
    split_ifs with hmem
    · exact ih hc
    · rw [hc]
      exact ih rfl

theorem exists_resolveOverlay_eq_ok (overlay : List (Overlay K R)) (hc : ρ.maxSeenKeys = none) :
    ∃ r, resolveOverlay key seq deleted overlay ρ = .ok r := by
  induction overlay generalizing ρ with
  | nil => exact ⟨_, rfl⟩
  | cons supplied overlay ih =>
    cases supplied with
    | hot rows =>
      obtain ⟨⟨rows₁, ρ₁⟩, hbt⟩ : ∃ r, resolveHotBatch key seq deleted rows ρ = .ok r :=
        exists_takeUnseenOrdered_eq_ok _ hc
      have hc₁ : ρ₁.maxSeenKeys = none := by rw [takeUnseenOrdered_frame hbt, hc]
      obtain ⟨r, hl⟩ := ih hc₁
      rw [resolveOverlay, hbt]
      exact ⟨_, congrArg (Except.map _) hl⟩
    | tombstones pks =>
      obtain ⟨ρ₁, hmk⟩ := exists_maskOlderPks_eq_ok pks hc
      rw [resolveOverlay, hmk]
      exact ih (by rw [maskOlderPks_frame hmk, hc])

theorem exists_resolveRun_eq_ok (key : R → K) (seq : R → ℕ) (deleted : R → Bool)
    (maskedPks : List K) (overlay : List (Overlay K R)) (batches : List (List R)) :
    ∃ r, resolveRun key seq deleted overlay batches (new maskedPks none) = .ok r := by
  obtain ⟨⟨rows₁, ρ₁⟩, hov⟩ :
      ∃ r, resolveOverlay key seq deleted overlay (new maskedPks none) = .ok r :=
    exists_resolveOverlay_eq_ok overlay rfl
  have hfr := resolveOverlay_frame hov
  have hc₁ : ρ₁.maxSeenKeys = none := by
    rw [hfr]
    rfl
  have hr : ρ₁.skipColdIdentityRetention = false := by
    rw [hfr]
    rfl
  obtain ⟨r, hcd⟩ : ∃ r, resolveCold key seq deleted batches ρ₁ = .ok r :=
    exists_resolveCold_eq_ok batches hc₁ hr
  rw [resolveRun, hov]
  exact ⟨_, congrArg (Except.map _) hcd⟩

/-- **Cold keys need not be remembered.** -/
theorem run_without_retention (key : R → K) (seq : R → ℕ) (deleted : R → Bool)
    (maskedPks : List K) (maxSeenKeys : Option ℕ) (overlay : List (Overlay K R))
    (batches : List (List R)) (hdisjoint : DisjointBatches key batches) :
    (∀ rows ρ', resolveRun key seq deleted overlay batches (new maskedPks maxSeenKeys) =
        .ok (rows, ρ') →
      ∃ ρ'', resolveRun key seq deleted overlay batches
        (new maskedPks maxSeenKeys).withoutColdIdentityRetention = .ok (rows, ρ'')) ∧
    (∀ rows ρ'', resolveRun key seq deleted overlay batches
        (new maskedPks maxSeenKeys).withoutColdIdentityRetention = .ok (rows, ρ'') →
      ∀ k ∈ ρ''.seen, k ∈ maskedPks ∨ ∃ supplied ∈ overlay, k ∈ supplied.keys key) ∧
    (maxSeenKeys = none →
      ∃ r, resolveRun key seq deleted overlay batches (new maskedPks maxSeenKeys) = .ok r) := by
  refine ⟨fun rows ρ' h ↦ ?_, fun rows ρ'' h k hk ↦ ?_, fun hc ↦ ?_⟩
  · obtain ⟨rows₁, ρ₁, rows₂, hov, hcd, rfl⟩ :=
      exists_of_bind_append_eq_ok h
    have hr : ρ₁.skipColdIdentityRetention = false := by
      rw [resolveOverlay_frame hov]
      rfl
    obtain rfl := resolveCold_of_retain hdisjoint (fun _ _ _ _ ↦ Iff.rfl) hr hcd
    refine ⟨ρ₁.withoutColdIdentityRetention, ?_⟩
    rw [resolveRun, resolveOverlay_without, hov]
    show (resolveCold key seq deleted batches ρ₁.withoutColdIdentityRetention).map _ = _
    rw [resolveCold_of_skip batches rfl]
    rfl
  · obtain ⟨⟨rows₁, ρ₁⟩, hov, hrun⟩ := bind_eq_ok_iff.1 h
    have hsk : ρ₁.skipColdIdentityRetention = true := by
      rw [resolveOverlay_frame hov]
      rfl
    rw [resolveCold_of_skip batches hsk] at hrun
    obtain rfl : ρ₁ = ρ'' := congrArg Prod.snd (ok.inj hrun)
    exact (mem_of_mem_resolveOverlay hov hk).imp_left mem_dedup.1
  · rw [hc]
    exact exists_resolveRun_eq_ok key seq deleted maskedPks overlay batches

theorem run_without_retention_tombstone :
    DisjointBatches (id : ℕ → ℕ) [[1, 2], [3]] ∧
    (resolveRun id (fun _ ↦ 5) (fun _ ↦ false) [.tombstones [2]] [[1, 2], [3]] (new [] none)).map
      Prod.fst = .ok [1, 3] ∧
    ∃ ρ'', resolveRun id (fun _ ↦ 5) (fun _ ↦ false) [.tombstones [2]] [[1, 2], [3]]
      (new ([] : List ℕ) none).withoutColdIdentityRetention = .ok ([1, 3], ρ'') := by
  have hd : DisjointBatches (id : ℕ → ℕ) [[1, 2], [3]] := by simp [DisjointBatches]
  have hr : (resolveRun id (fun _ ↦ 5) (fun _ ↦ false) [.tombstones [2]] [[1, 2], [3]]
      (new ([] : List ℕ) none)).map Prod.fst = .ok [1, 3] := by
    decide +kernel
  obtain ⟨⟨rows, ρ'⟩, hok, rfl⟩ := map_eq_ok_iff.1 hr
  exact ⟨hd, hr, (run_without_retention id (fun _ ↦ 5) (fun _ ↦ false) [] none _ _ hd).1 _ ρ' hok⟩

/-- **The cap stops only one of the runs.** -/
theorem cap_stops_retaining_run :
    DisjointBatches (id : ℕ → ℕ) [[1], [2]] ∧
    resolveRun id (fun _ ↦ 5) (fun _ ↦ false) [] [[1], [2]] (new ([] : List ℕ) (some 1)) =
      .error ⟨1, 1⟩ ∧ (resolveRun id (fun _ ↦ 5) (fun _ ↦ false) [] [[1], [2]]
      (new ([] : List ℕ) (some 1)).withoutColdIdentityRetention).map Prod.fst = .ok [1, 2] := by
  refine ⟨by simp [DisjointBatches], rfl, ?_⟩
  decide +kernel

end Koldstore.NewestFirstWinnerResolver
