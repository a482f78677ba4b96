import Koldstore.Basic.Except
import Koldstore.Basic.Winners

/-!
# Resolving winners newest first

The first version of a key that a merge scan meets is the one to show.
-/

namespace Koldstore

open List
open Except (bind_eq_ok_iff map_eq_ok_iff)

inductive RowSource
  | hot
  | cold
  deriving DecidableEq, Repr

def candidateBeats (candidateSeq : ℕ) (candidateSource : RowSource) (currentSeq : ℕ)
    (currentSource : RowSource) : Bool :=
  decide (currentSeq < candidateSeq) ||
    (decide (candidateSeq = currentSeq) && decide (candidateSource = .hot) &&
      decide (currentSource = .cold))

structure SeenKeyLimitExceeded where
  limit : ℕ
  seen : ℕ
  deriving DecidableEq, Repr

structure NewestFirstWinnerResolver (K : Type*) where
  masked : List K
  seen : List K
  maxSeenKeys : Option ℕ
  skipColdIdentityRetention : Bool

open NewestFirstWinnerResolver

namespace NewestFirstWinnerResolver

variable {K : Type*} [DecidableEq K]

def withMaxSeenKeys (maxSeenKeys : ℕ) (skipColdIdentityRetention : Bool) :
    NewestFirstWinnerResolver K :=
  ⟨[], [], if maxSeenKeys = 0 then none else some maxSeenKeys, skipColdIdentityRetention⟩

def insertSeen (ρ : NewestFirstWinnerResolver K) (key : K) :
    Except SeenKeyLimitExceeded (Bool × NewestFirstWinnerResolver K) :=
  if key ∈ ρ.seen then .ok (false, ρ)
  else
    match ρ.maxSeenKeys with
    | none => .ok (true, { ρ with seen := ρ.seen ++ [key] })
    | some limit =>
      if limit ≤ ρ.seen.length then .error ⟨limit, ρ.seen.length⟩
      else .ok (true, { ρ with seen := ρ.seen ++ [key] })

def maskOlderPks : List K → NewestFirstWinnerResolver K →
    Except SeenKeyLimitExceeded (NewestFirstWinnerResolver K)
  | [], ρ => .ok ρ
  | key :: keys, ρ => (ρ.insertSeen key).bind fun r ↦ maskOlderPks keys r.2

def checkpoint (ρ : NewestFirstWinnerResolver K) : NewestFirstWinnerResolver K :=
  { ρ with masked := ρ.seen }

def reset (ρ : NewestFirstWinnerResolver K) : NewestFirstWinnerResolver K :=
  { ρ with seen := ρ.masked }

section Batch

variable {R : Type*} (source : RowSource) (key : R → K) (seq : R → ℕ) (deleted : R → Bool)

def insertCandidate (row : R) : List R → List R
  | [] => [row]
  | winner :: winners =>
    if key winner = key row then
      (if candidateBeats (seq row) source (seq winner) source then row else winner) :: winners
    else winner :: insertCandidate row winners

def batchWinners (rows : List R) : List R :=
  rows.foldl (fun winners row ↦ insertCandidate source key seq row winners) []

def takeUnseenOrdered (retain : Bool) : List R → NewestFirstWinnerResolver K →
    Except SeenKeyLimitExceeded (List R × NewestFirstWinnerResolver K)
  | [], ρ => .ok ([], ρ)
  | winner :: winners, ρ =>
    if retain then
      (ρ.insertSeen (key winner)).bind fun (isNew, ρ) ↦
        (takeUnseenOrdered retain winners ρ).map fun (resolved, ρ) ↦
          (if isNew && !deleted winner then winner :: resolved else resolved, ρ)
    else
      (takeUnseenOrdered retain winners ρ).map fun (resolved, ρ') ↦
        (if !deleted winner && !decide (key winner ∈ ρ.seen) then winner :: resolved
          else resolved, ρ')

def resolveBatch (retain : Bool) (rows : List R) (ρ : NewestFirstWinnerResolver K) :
    Except SeenKeyLimitExceeded (List R × NewestFirstWinnerResolver K) :=
  takeUnseenOrdered key deleted retain (batchWinners source key seq rows) ρ

end Batch

/-! ### Remembering keys -/

variable {ρ ρ' : NewestFirstWinnerResolver K}

theorem insertSeen_eq_ok {key : K} {isNew : Bool} (h : ρ.insertSeen key = .ok (isNew, ρ')) :
    isNew = !decide (key ∈ ρ.seen) ∧
      ρ' = { ρ with seen := if key ∈ ρ.seen then ρ.seen else ρ.seen ++ [key] } := by
  rw [insertSeen] at h
  split at h
  next hmem =>
    cases h
    simp [hmem]
  next hmem =>
    split at h
    · cases h
      simp [hmem]
    · split at h
      · simp at h
      · cases h
        simp [hmem]

theorem maskOlderPks_append (keys keys' : List K) (ρ : NewestFirstWinnerResolver K) :
    maskOlderPks (keys ++ keys') ρ = (maskOlderPks keys ρ).bind (maskOlderPks keys') := by
  induction keys generalizing ρ with
  | nil => rfl
  | cons key keys ih =>
    simp only [cons_append, maskOlderPks]
    cases ρ.insertSeen key with
    | error e => rfl
    | ok r => exact ih r.2

variable {keys : List K}

theorem maskOlderPks_eq_ok (hnd : (ρ.seen ++ keys).Nodup) (h : maskOlderPks keys ρ = .ok ρ') :
    ρ' = { ρ with seen := ρ.seen ++ keys } := by
  induction keys generalizing ρ with
  | nil =>
    cases h
    simp
  | cons key keys ih =>
    obtain ⟨⟨isNew, ρ₁⟩, hi, hre⟩ := bind_eq_ok_iff.1 h
    have hk : key ∉ ρ.seen := fun hmem ↦ (nodup_append.1 hnd).2.2 key hmem key mem_cons_self rfl
    obtain ⟨-, hρ₁⟩ := insertSeen_eq_ok hi
    rw [if_neg hk] at hρ₁
    have hnd₁ : (ρ₁.seen ++ keys).Nodup := by
      rw [hρ₁]
      simpa using hnd
    rw [ih hnd₁ hre, hρ₁]
    simp

theorem maskOlderPks_frame (h : maskOlderPks keys ρ = .ok ρ') :
    ρ' = { ρ with seen := ρ'.seen } := by
  induction keys generalizing ρ with
  | nil =>
    cases h
    rfl
  | cons key keys ih =>
    obtain ⟨⟨isNew, ρ₁⟩, hi, hre⟩ := bind_eq_ok_iff.1 h
    obtain ⟨-, hρ₁⟩ := insertSeen_eq_ok hi
    rw [ih hre, hρ₁]

theorem mem_of_mem_maskOlderPks (h : maskOlderPks keys ρ = .ok ρ') {k : K} (hk : k ∈ ρ'.seen) :
    k ∈ ρ.seen ∨ k ∈ keys := by
  induction keys generalizing ρ with
  | nil =>
    cases h
    exact .inl hk
  | cons key keys ih =>
    obtain ⟨⟨isNew, ρ₁⟩, hi, hre⟩ := bind_eq_ok_iff.1 h
    obtain ⟨-, hρ₁⟩ := insertSeen_eq_ok hi
    rcases ih hre with hmem | hmem
    · rw [hρ₁] at hmem
      split at hmem
      · exact .inl hmem
      · rcases mem_append.1 hmem with hmem | hmem
        · exact .inl hmem
        · exact .inr (mem_singleton.1 hmem ▸ mem_cons_self)
    · exact .inr (mem_cons_of_mem _ hmem)

section Resolve

variable {R : Type*} {source : RowSource} {key : R → K} {seq : R → ℕ} {deleted : R → Bool}
  {retain : Bool} {rows winners resolved : List R}

theorem insertCandidate_of_not_mem {row : R} (h : key row ∉ winners.map key) :
    insertCandidate source key seq row winners = winners ++ [row] := by
  induction winners with
  | nil => rfl
  | cons winner winners ih =>
    rw [map_cons, mem_cons, not_or] at h
    rw [insertCandidate, if_neg (Ne.symm h.1), ih h.2, cons_append]

theorem mem_of_mem_insertCandidate {row w : R}
    (h : w ∈ insertCandidate source key seq row winners) : w = row ∨ w ∈ winners := by
  induction winners with
  | nil => simpa [insertCandidate] using h
  | cons winner winners ih =>
    rw [insertCandidate] at h
    split at h
    · rcases mem_cons.1 h with h | h
      · split at h
        · exact .inl h
        · exact .inr (h ▸ mem_cons_self)
      · exact .inr (mem_cons_of_mem _ h)
    · rcases mem_cons.1 h with h | h
      · exact .inr (h ▸ mem_cons_self)
      · exact (ih h).imp_right (mem_cons_of_mem _)

theorem foldl_insertCandidate_of_nodup (h : ((winners ++ rows).map key).Nodup) :
    rows.foldl (fun ws row ↦ insertCandidate source key seq row ws) winners = winners ++ rows := by
  induction rows generalizing winners with
  | nil => simp
  | cons row rows ih =>
    have hr : key row ∉ winners.map key := by
      intro hmem
      rw [map_append, nodup_append] at h
      exact h.2.2 _ hmem _ (mem_map_of_mem mem_cons_self) rfl
    rw [foldl_cons, insertCandidate_of_not_mem hr, ih (by simpa using h)]
    simp

theorem mem_of_mem_foldl_insertCandidate {w : R}
    (h : w ∈ rows.foldl (fun ws row ↦ insertCandidate source key seq row ws) winners) :
    w ∈ winners ∨ w ∈ rows := by
  induction rows generalizing winners with
  | nil => exact .inl h
  | cons row rows ih =>
    rcases ih h with h | h
    · rcases mem_of_mem_insertCandidate h with rfl | h
      · exact .inr mem_cons_self
      · exact .inl h
    · exact .inr (mem_cons_of_mem _ h)

theorem mem_of_mem_batchWinners {w : R} (h : w ∈ batchWinners source key seq rows) : w ∈ rows :=
  (mem_of_mem_foldl_insertCandidate h).resolve_left not_mem_nil

theorem batchWinners_eq_winners (source : RowSource) (key : R → K) (seq : R → ℕ) (rows : List R) :
    batchWinners source key seq rows = Winners.winners key seq rows := by
  have hi (row : R) (table : List R) :
      insertCandidate source key seq row table = Winners.insert key seq row table := by
    induction table with
    | nil => rfl
    | cons winner table ih =>
      rw [insertCandidate, Winners.insert, ih]
      cases source <;> simp [candidateBeats]
  simp only [batchWinners, Winners.winners, hi]

theorem nodup_map_key_batchWinners (source : RowSource) (key : R → K) (seq : R → ℕ)
    (rows : List R) : ((batchWinners source key seq rows).map key).Nodup := by
  rw [batchWinners_eq_winners]
  exact Winners.nodup_map_key_winners rows

theorem takeUnseenOrdered_cons {winner : R}
    (h : takeUnseenOrdered key deleted retain (winner :: winners) ρ = .ok (resolved, ρ')) :
    ∃ resolved₁ seen, takeUnseenOrdered key deleted retain winners { ρ with seen := seen } =
      .ok (resolved₁, ρ') ∧ (resolved = winner :: resolved₁ ∨ resolved = resolved₁) := by
  cases retain with
  | true =>
    obtain ⟨⟨isNew, ρ₁⟩, hi, hre⟩ := bind_eq_ok_iff.1 h
    obtain ⟨⟨resolved₁, ρ₂⟩, htk, ⟨⟩⟩ := map_eq_ok_iff.1 hre
    rw [(insertSeen_eq_ok hi).2] at htk
    exact ⟨_, _, htk, ite_eq_or_eq _ _ _⟩
  | false =>
    obtain ⟨⟨resolved₁, ρ₂⟩, htk, ⟨⟩⟩ := map_eq_ok_iff.1 h
    exact ⟨_, _, htk, ite_eq_or_eq _ _ _⟩

theorem takeUnseenOrdered_frame
    (h : takeUnseenOrdered key deleted retain winners ρ = .ok (resolved, ρ')) :
    ρ' = { ρ with seen := ρ'.seen } := by
  induction winners generalizing ρ resolved with
  | nil =>
    cases h
    rfl
  | cons winner winners ih =>
    obtain ⟨_, seen, htk, -⟩ := takeUnseenOrdered_cons h
    rw [ih htk]

theorem takeUnseenOrdered_sublist
    (h : takeUnseenOrdered key deleted retain winners ρ = .ok (resolved, ρ')) :
    resolved.Sublist winners := by
  induction winners generalizing ρ resolved with
  | nil =>
    cases h
    exact .slnil
  | cons winner winners ih =>
    obtain ⟨resolved₁, seen, htk, rfl | rfl⟩ := takeUnseenOrdered_cons h
    · exact (ih htk).cons_cons winner
    · exact (ih htk).cons winner

theorem takeUnseenOrdered_of_nodup (hnd : (ρ.seen ++ rows.map key).Nodup)
    (hlv : ∀ row ∈ rows, deleted row = false) :
    takeUnseenOrdered key deleted true rows ρ =
      (maskOlderPks (rows.map key) ρ).map fun ρ' ↦ (rows, ρ') := by
  induction rows generalizing ρ with
  | nil => rfl
  | cons row rows ih =>
    rw [forall_mem_cons] at hlv
    have hr : key row ∉ ρ.seen := fun hmem ↦ (nodup_append.1 hnd).2.2 _ hmem _ mem_cons_self rfl
    simp only [takeUnseenOrdered, map_cons, maskOlderPks, if_true]
    cases hi : ρ.insertSeen (key row) with
    | error e => rfl
    | ok r =>
      obtain ⟨isNew, ρ₁⟩ := r
      obtain ⟨hn, hρ₁⟩ := insertSeen_eq_ok hi
      rw [if_neg hr] at hρ₁
      have hnd₁ : (ρ₁.seen ++ rows.map key).Nodup := by
        rw [hρ₁]
        simpa using hnd
      simp only [Except.bind, ih hnd₁ hlv.2, hn, hr, hlv.1]
      cases maskOlderPks (rows.map key) ρ₁ <;> rfl

theorem resolveBatch_of_nodup (hnd : (ρ.seen ++ rows.map key).Nodup)
    (hlv : ∀ row ∈ rows, deleted row = false) :
    resolveBatch source key seq deleted true rows ρ =
      (maskOlderPks (rows.map key) ρ).map fun ρ' ↦ (rows, ρ') := by
  have hrs : ((([] : List R) ++ rows).map key).Nodup := (nodup_append.1 hnd).2.1
  rw [resolveBatch, batchWinners, foldl_insertCandidate_of_nodup hrs, nil_append,
    takeUnseenOrdered_of_nodup hnd hlv]

theorem takeUnseenOrdered_eq_ok (hnd : (winners.map key).Nodup)
    (h : takeUnseenOrdered key deleted true winners ρ = .ok (resolved, ρ')) :
    resolved = winners.filter (fun w ↦ !decide (key w ∈ ρ.seen) && !deleted w) ∧
      ρ' = { ρ with seen := ρ.seen ++ (winners.map key).filter fun k ↦ !decide (k ∈ ρ.seen) } := by
  induction winners generalizing ρ resolved with
  | nil =>
    cases h
    simp
  | cons winner winners ih =>
    rw [map_cons, nodup_cons] at hnd
    obtain ⟨⟨isNew, ρ₁⟩, hi, hre⟩ := bind_eq_ok_iff.1 h
    obtain ⟨⟨resolved₁, ρ₂⟩, htk, ⟨⟩⟩ := map_eq_ok_iff.1 hre
    obtain ⟨hn, hρ₁⟩ := insertSeen_eq_ok hi
    obtain ⟨hr, hρ₂⟩ := ih hnd.2 htk
    -- the key that is remembered is not the key of a later winner
    have hsn : ∀ k ∈ winners.map key, k ∈ ρ₁.seen ↔ k ∈ ρ.seen := by
      intro k hk
      have hne : k ≠ key winner := fun heq ↦ hnd.1 (heq ▸ hk)
      rw [hρ₁]
      by_cases hmem : key winner ∈ ρ.seen <;> simp [hmem, hne]
    have hrs : winners.filter (fun w ↦ !decide (key w ∈ ρ₁.seen) && !deleted w) =
        winners.filter (fun w ↦ !decide (key w ∈ ρ.seen) && !deleted w) :=
      filter_congr fun w hw ↦ by rw [decide_eq_decide.2 (hsn _ (mem_map_of_mem hw))]
    have hks : (winners.map key).filter (fun k ↦ !decide (k ∈ ρ₁.seen)) =
        (winners.map key).filter (fun k ↦ !decide (k ∈ ρ.seen)) :=
      filter_congr fun k hk ↦ by rw [decide_eq_decide.2 (hsn k hk)]
    rw [hks] at hρ₂
    rw [hr, hrs, hρ₂, hn, hρ₁]
    by_cases hmem : key winner ∈ ρ.seen
    · simp [hmem]
    · simp [hmem, filter_cons]

theorem takeUnseenOrdered_false (winners : List R) (ρ : NewestFirstWinnerResolver K) :
    takeUnseenOrdered key deleted false winners ρ =
      .ok (winners.filter (fun w ↦ !decide (key w ∈ ρ.seen) && !deleted w), ρ) := by
  induction winners with
  | nil => rfl
  | cons winner winners ih =>
    rw [takeUnseenOrdered, if_neg Bool.false_ne_true, ih, filter_cons, Bool.and_comm]
    rfl

theorem exists_takeUnseenOrdered_eq_ok (winners : List R) (hc : ρ.maxSeenKeys = none) :
    ∃ r, takeUnseenOrdered key deleted true winners ρ = .ok r := by
  induction winners generalizing ρ with
  | nil => exact ⟨_, rfl⟩
  | cons winner winners ih =>
    obtain ⟨isNew, ρ₁, hi⟩ : ∃ isNew ρ₁, ρ.insertSeen (key winner) = .ok (isNew, ρ₁) := by
      rw [insertSeen, hc]
      split_ifs
      · exact ⟨_, _, rfl⟩
      · exact ⟨_, _, rfl⟩
    have hc₁ : ρ₁.maxSeenKeys = none := by rw [(insertSeen_eq_ok hi).2, hc]
    obtain ⟨r, htk⟩ := ih hc₁
    rw [takeUnseenOrdered, if_pos rfl, hi]
    exact ⟨_, congrArg (Except.map _) htk⟩

/-! ### Keys that do not occur do not matter -/

/-- `ρ` has met the keys of `base` before everything that `τ` has met. -/
structure AddsBase (base : List K) (ρ τ : NewestFirstWinnerResolver K) : Prop where
  seen : ρ.seen = base ++ τ.seen
  maxSeenKeys : ρ.maxSeenKeys = τ.maxSeenKeys
  skip : ρ.skipColdIdentityRetention = τ.skipColdIdentityRetention

variable {base : List K} {τ : NewestFirstWinnerResolver K}

theorem AddsBase.insertSeen (hba : AddsBase base ρ τ) {k : K} (hk : k ∉ base) {isNew : Bool}
    (h : ρ.insertSeen k = .ok (isNew, ρ')) :
    ∃ τ', τ.insertSeen k = .ok (isNew, τ') ∧ AddsBase base ρ' τ' := by
  obtain ⟨hn, hρ'⟩ := insertSeen_eq_ok h
  have hmem : k ∈ ρ.seen ↔ k ∈ τ.seen := by simp [hba.seen, hk]
  by_cases hsn : k ∈ τ.seen
  · refine ⟨τ, by simp [NewestFirstWinnerResolver.insertSeen, hsn, hn, hmem], ?_⟩
    rw [hρ', if_pos (hmem.2 hsn)]
    exact hba
  · have hl : ρ.seen.length = base.length + τ.seen.length := by
      rw [hba.seen, length_append]
    refine ⟨{ τ with seen := τ.seen ++ [k] }, ?_, ?_⟩
    · rw [NewestFirstWinnerResolver.insertSeen, if_neg (hmem.not.2 hsn), hba.maxSeenKeys] at h
      rw [NewestFirstWinnerResolver.insertSeen, if_neg hsn]
      cases hi : τ.maxSeenKeys with
      | none => simp [hn, hmem, hsn]
      | some limit =>
        rw [hi] at h
        have hlt : ¬limit ≤ τ.seen.length := by
          intro hle
          have hle' : limit ≤ ρ.seen.length := by omega
          simp [hle'] at h
        simp [hn, hmem, hsn, hlt]
    · rw [hρ', if_neg (hmem.not.2 hsn)]
      exact ⟨by simp [hba.seen], hba.maxSeenKeys, hba.skip⟩

theorem AddsBase.takeUnseenOrdered (hba : AddsBase base ρ τ) (hws : ∀ w ∈ winners, key w ∉ base)
    (h : takeUnseenOrdered key deleted retain winners ρ = .ok (resolved, ρ')) :
    ∃ τ', takeUnseenOrdered key deleted retain winners τ =
      .ok (resolved, τ') ∧ AddsBase base ρ' τ' := by
  induction winners generalizing ρ ρ' τ resolved with
  | nil =>
    cases h
    exact ⟨τ, rfl, hba⟩
  | cons winner winners ih =>
    rw [forall_mem_cons] at hws
    cases retain with
    | true =>
      obtain ⟨⟨isNew, ρ₁⟩, hi, hre⟩ := bind_eq_ok_iff.1 h
      obtain ⟨⟨resolved₁, ρ₂⟩, htk, heq⟩ := map_eq_ok_iff.1 hre
      obtain ⟨τ₁, hi₁, hba₁⟩ := hba.insertSeen hws.1 hi
      obtain ⟨τ₂, htk₂, hba₂⟩ := ih hba₁ hws.2 htk
      cases heq
      refine ⟨τ₂, ?_, hba₂⟩
      simp [takeUnseenOrdered, hi₁, htk₂, Except.bind, Except.map]
    | false =>
      obtain ⟨⟨resolved₁, ρ₂⟩, htk, heq⟩ := map_eq_ok_iff.1 h
      obtain ⟨τ₂, htk₂, hba₂⟩ := ih hba hws.2 htk
      cases heq
      refine ⟨τ₂, ?_, hba₂⟩
      simp [takeUnseenOrdered, htk₂, Except.map, hba.seen, hws.1]

theorem AddsBase.resolveBatch (hba : AddsBase base ρ τ) (hrs : ∀ row ∈ rows, key row ∉ base)
    (h : resolveBatch source key seq deleted retain rows ρ = .ok (resolved, ρ')) :
    ∃ τ', resolveBatch source key seq deleted retain rows τ =
      .ok (resolved, τ') ∧ AddsBase base ρ' τ' :=
  hba.takeUnseenOrdered (fun w hw ↦ hrs w (mem_of_mem_batchWinners hw)) h

end Resolve

end NewestFirstWinnerResolver

end Koldstore
