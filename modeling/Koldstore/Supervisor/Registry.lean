import Koldstore.Basic.Runs

/-!
# The registry of databases

Each of `N` slots is the id of the database that owns it or `0`.
-/

namespace Koldstore.Registry

open Machine List Function

/-! ### The table -/

/-- `registry_start_index`, with the multiplication of a 64-bit `usize`. -/
def startIndex (N databaseOid : ℕ) : ℕ := databaseOid * 0x9E3779B1 % 2 ^ 64 % N

def slotAt (N databaseOid offset : ℕ) : ℕ := (startIndex N databaseOid + offset) % N

/-- The two ways to go through the slots: `find` and `entry_or_overflow`. -/
inductive Kind
  | find
  | entryOrOverflow
  deriving DecidableEq, Repr

inductive Stage
  | loading (offset : ℕ)
  | claiming (offset : ℕ)
  | overflowing
  | returned (slot : Option ℕ)
  deriving DecidableEq, Repr

structure Call where
  databaseOid : ℕ
  kind : Kind
  stage : Stage
  accesses : ℕ
  deriving DecidableEq, Repr

structure Table where
  slots : ℕ → ℕ
  overflowReconcileRequired : Bool
  calls : List Call

inductive Event
  | call (kind : Kind) (databaseOid : ℕ)
  | access (i : ℕ)
  deriving DecidableEq, Repr

namespace Table

def empty : Table := ⟨fun _ ↦ 0, false, []⟩

variable (N : ℕ)

def pass (kind : Kind) (offset : ℕ) : Stage :=
  if offset + 1 < N then .loading (offset + 1)
  else
    match kind with
    | .find => .returned none
    | .entryOrOverflow => .overflowing

def loaded (call : Call) (offset current : ℕ) : Stage :=
  if current = call.databaseOid then .returned (some (slotAt N call.databaseOid offset))
  else if current = 0 then
    match call.kind with
    | .find => .returned none
    | .entryOrOverflow => .claiming offset
  else pass N call.kind offset

def become (σ : Table) (i : ℕ) (call : Call) (stage : Stage) : Table :=
  { σ with calls := σ.calls.set i { call with stage := stage, accesses := call.accesses + 1 } }

def access (σ : Table) (i : ℕ) (call : Call) : Option Table :=
  match call.stage with
  | .loading offset =>
    some (σ.become i call (loaded N call offset (σ.slots (slotAt N call.databaseOid offset))))
  | .claiming offset =>
    if σ.slots (slotAt N call.databaseOid offset) = 0 then
      some { σ.become i call (.returned (some (slotAt N call.databaseOid offset))) with
        slots := update σ.slots (slotAt N call.databaseOid offset) call.databaseOid }
    else if σ.slots (slotAt N call.databaseOid offset) = call.databaseOid then
      some (σ.become i call (.returned (some (slotAt N call.databaseOid offset))))
    else some (σ.become i call (pass N call.kind offset))
  | .overflowing => some { σ.become i call (.returned none) with overflowReconcileRequired := true }
  | .returned _ => none

/-- The first stage of a call. -/
def begun (kind : Kind) (databaseOid : ℕ) : Stage := if N = 0 ∨ databaseOid = 0 then
    match kind with
    | .find => .returned none
    | .entryOrOverflow => .overflowing
  else .loading 0

def step (σ : Table) : Event → Option Table
  | .call kind databaseOid =>
    some { σ with calls := σ.calls ++ [⟨databaseOid, kind, begun N kind databaseOid, 0⟩] }
  | .access i => (σ.calls[i]?).bind (σ.access N i)

end Table

variable {j : ℕ}

section Probe

variable {N x k k' : ℕ}

theorem exists_slotAt (hj : j < N) : ∃ k < N, slotAt N x k = j := by
  have hp : 0 < N := Nat.zero_lt_of_lt hj
  have hst : startIndex N x < N := Nat.mod_lt _ hp
  refine ⟨(j + N - startIndex N x) % N, Nat.mod_lt _ hp, ?_⟩
  have hs : startIndex N x + (j + N - startIndex N x) = j + N := by omega
  rw [slotAt, Nat.add_mod_mod, hs, Nat.add_mod_right, Nat.mod_eq_of_lt hj]

theorem slotAt_inj (hk : k < N) (hk' : k' < N) (h : slotAt N x k = slotAt N x k') : k = k' :=
  (Nat.ModEq.add_left_cancel' _ h).eq_of_lt_of_lt hk hk'

theorem slotAt_lt (hk : k < N) : slotAt N x k < N := Nat.mod_lt _ (Nat.zero_lt_of_lt hk)

end Probe

namespace Table

variable {N : ℕ} {σ τ : Table} {call : Call} {x k : ℕ}

def Passed (N : ℕ) (slots : ℕ → ℕ) (x k : ℕ) : Prop :=
  ∀ m < k, slots (slotAt N x m) ≠ 0 ∧ slots (slotAt N x m) ≠ x

/-- What a call for `x` has found out. -/
def StageSound (N : ℕ) (slots : ℕ → ℕ) (x : ℕ) (kind : Kind) : Stage → Prop
  | .loading k => x ≠ 0 ∧ k < N ∧ Passed N slots x k
  | .claiming k => kind = .entryOrOverflow ∧ x ≠ 0 ∧ k < N ∧ Passed N slots x k
  | .overflowing => kind = .entryOrOverflow ∧ (x ≠ 0 → Passed N slots x N)
  | .returned none => kind = .entryOrOverflow → x ≠ 0 → Passed N slots x N
  | .returned (some j) => x ≠ 0 ∧ j < N ∧ slots j = x

structure CallSound (N : ℕ) (slots : ℕ → ℕ) (call : Call) : Prop where
  stage : StageSound N slots call.databaseOid call.kind call.stage
  accesses : call.kind = .find → ∀ k, call.stage = .loading k → call.accesses = k

structure Inv (N : ℕ) (σ : Table) : Prop where
  before : ∀ x ≠ 0, ∀ k < N, σ.slots (slotAt N x k) = x → Passed N σ.slots x k
  calls : ∀ call ∈ σ.calls, CallSound N σ.slots call

theorem inv_empty : Inv N empty where
  before _ hx _ _ h := absurd h.symm hx
  calls _ h := nomatch h

def Keeps (slots slots' : ℕ → ℕ) : Prop := ∀ j, slots j ≠ 0 → slots' j = slots j

section Passing

variable {slots slots' : ℕ → ℕ} {kind : Kind} {stage : Stage}

theorem Keeps.refl (slots : ℕ → ℕ) : Keeps slots slots := fun _ _ ↦ rfl

theorem Passed.mono (h : Passed N slots x k) (hkp : Keeps slots slots') : Passed N slots' x k := by
  intro m hm
  rw [hkp _ (h m hm).1]
  exact h m hm

theorem Passed.succ (h : Passed N slots x k) (hfe : slots (slotAt N x k) ≠ 0)
    (ho : slots (slotAt N x k) ≠ x) : Passed N slots x (k + 1) := by
  intro m hm
  rcases Nat.lt_succ_iff_lt_or_eq.1 hm with hm | rfl
  · exact h m hm
  · exact ⟨hfe, ho⟩

theorem Passed.le {k₀ : ℕ} (h : Passed N slots x k) (ho : slots (slotAt N x k₀) = x) : k ≤ k₀ := by
  by_contra hlt
  exact (h k₀ (Nat.lt_of_not_le hlt)).2 ho

theorem StageSound.mono (h : StageSound N slots x kind stage) (hkp : Keeps slots slots') :
    StageSound N slots' x kind stage := by
  cases stage with
  | loading k => exact ⟨h.1, h.2.1, h.2.2.mono hkp⟩
  | claiming k => exact ⟨h.1, h.2.1, h.2.2.1, h.2.2.2.mono hkp⟩
  | overflowing => exact ⟨h.1, fun hx ↦ (h.2 hx).mono hkp⟩
  | returned slot =>
    cases slot with
    | none => exact fun hkd hx ↦ (h hkd hx).mono hkp
    | some j => exact ⟨h.1, h.2.1, (hkp j (h.2.2 ▸ h.1)).trans h.2.2⟩

theorem stageSound_pass (hx : x ≠ 0) (hk : k < N) (hpa : Passed N slots x (k + 1)) :
    StageSound N slots x kind (pass N kind k) := by
  unfold pass
  split
  next hnx => exact ⟨hx, hnx, hpa⟩
  next hl =>
    have ha : k + 1 = N := by omega
    rw [ha] at hpa
    cases kind with
    | find => exact nofun
    | entryOrOverflow => exact ⟨rfl, fun _ ↦ hpa⟩

theorem stageSound_loaded {call : Call} (hx : call.databaseOid ≠ 0) (hk : k < N)
    (hpa : Passed N slots call.databaseOid k) :
    StageSound N slots call.databaseOid call.kind
      (loaded N call k (slots (slotAt N call.databaseOid k))) := by
  rw [loaded]
  split
  next hw => exact ⟨hx, slotAt_lt hk, hw⟩
  next ho =>
    split
    next =>
      split
      next hkd => rw [hkd]; exact nofun
      next hkd => exact ⟨hkd, hx, hk, hpa⟩
    next hfe => exact stageSound_pass hx hk (hpa.succ hfe ho)

theorem stageSound_begun (N : ℕ) (slots : ℕ → ℕ) (kind : Kind) (x : ℕ) :
    StageSound N slots x kind (begun N kind x) := by
  unfold begun
  split
  next hnone =>
    have hpa (hx : x ≠ 0) : Passed N slots x N := by
      rw [hnone.resolve_right hx]
      exact fun _ hm ↦ absurd hm (Nat.not_lt_zero _)
    cases kind with
    | find => exact nofun
    | entryOrOverflow => exact ⟨rfl, hpa⟩
  next hsome =>
    obtain ⟨hN, hx⟩ := not_or.1 hsome
    exact ⟨hx, Nat.pos_of_ne_zero hN, fun _ hm ↦ absurd hm (Nat.not_lt_zero _)⟩

end Passing

/-! ### Steps -/

/-- **What an access can do.** -/
theorem access_cases {i : ℕ} (h : σ.access N i call = some τ) :
    (∃ k, (call.stage = .loading k ∨ call.stage = .claiming k) ∧
      τ = σ.become i call (loaded N call k (σ.slots (slotAt N call.databaseOid k)))) ∨
    (∃ k, call.stage = .claiming k ∧ σ.slots (slotAt N call.databaseOid k) = 0 ∧
      τ = { σ.become i call (.returned (some (slotAt N call.databaseOid k))) with
        slots := update σ.slots (slotAt N call.databaseOid k) call.databaseOid }) ∨
    (call.stage = .overflowing ∧
      τ = { σ.become i call (.returned none) with overflowReconcileRequired := true }) := by
  unfold access at h
  split at h
  next k hs =>
    cases h
    exact .inl ⟨k, .inl hs, rfl⟩
  next k hs =>
    split at h
    next hfe =>
      cases h
      exact .inr (.inl ⟨k, hs, hfe, rfl⟩)
    next hfe =>
      refine .inl ⟨k, .inr hs, ?_⟩
      rw [loaded]
      split at h <;> cases h
      next hw => rw [if_pos hw]
      next ho => rw [if_neg ho, if_neg hfe]
  next hs =>
    cases h
    exact .inr (.inr ⟨hs, rfl⟩)
  next => cases h

theorem loaded_eq_loading {k' current : ℕ} (h : loaded N call k current = .loading k') :
    k' = k + 1 := by
  unfold loaded pass at h
  split at h
  next => cases h
  next =>
    split at h
    next => split at h <;> cases h
    next =>
      split at h
      next => cases h; rfl
      next => split at h <;> cases h

theorem keeps_update {slots : ℕ → ℕ} (hfe : slots j = 0) : Keeps slots (update slots j x) := by
  intro j' hj'
  refine update_of_ne ?_ _ _
  rintro rfl
  exact hj' hfe

variable {e : Event}

theorem keeps_step (hstep : σ.step N e = some τ) : Keeps σ.slots τ.slots := by
  cases e with
  | call kind x =>
    cases hstep
    exact .refl _
  | access i =>
    obtain ⟨call, -, ha⟩ := Option.bind_eq_some_iff.1 hstep
    obtain ⟨k, -, rfl⟩ | ⟨k, -, hfe, rfl⟩ | ⟨-, rfl⟩ := access_cases ha
    · exact .refl _
    · exact keeps_update hfe
    · exact .refl _

theorem CallSound.passed {slots : ℕ → ℕ} (h : CallSound N slots call)
    (hs : call.stage = .loading k ∨ call.stage = .claiming k) :
    call.databaseOid ≠ 0 ∧ k < N ∧ Passed N slots call.databaseOid k := by
  have hsd := h.stage
  rcases hs with hs | hs <;> rw [hs] at hsd
  · exact hsd
  · exact hsd.2

theorem Inv.become (h : Inv N σ) {i : ℕ} {stage : Stage}
    (hs : StageSound N σ.slots call.databaseOid call.kind stage)
    (ha : call.kind = .find → ∀ k, stage = .loading k → call.accesses + 1 = k) :
    Inv N (σ.become i call stage) where
  before := h.before
  calls c hc := by
    rcases mem_or_eq_of_mem_set hc with hc | rfl
    · exact h.calls c hc
    · exact ⟨hs, ha⟩

theorem Inv.claim (h : Inv N σ) (hx : x ≠ 0) (hk : k < N) (hpa : Passed N σ.slots x k)
    (hfe : σ.slots (slotAt N x k) = 0) :
    Inv N { σ with slots := update σ.slots (slotAt N x k) x } where
  before y hy m hm hown := by
    have hkp := keeps_update (x := x) hfe
    by_cases hsl : slotAt N y m = slotAt N x k
    · have hsm : y = x := by
        rw [hsl] at hown
        exact hown.symm.trans (update_self _ _ _)
      subst hsm
      rw [slotAt_inj hm hk hsl]
      exact hpa.mono hkp
    · refine (h.before y hy m hm ?_).mono hkp
      simp only [update_of_ne hsl] at hown
      exact hown
  calls c hc := ⟨(h.calls c hc).stage.mono (keeps_update hfe), (h.calls c hc).accesses⟩

theorem inv_step (h : Inv N σ) (hstep : σ.step N e = some τ) : Inv N τ := by
  cases e with
  | call kind x =>
    cases hstep
    refine ⟨h.before, fun c hc ↦ ?_⟩
    rcases mem_append.1 hc with hc | hc
    · exact h.calls c hc
    · rw [mem_singleton.1 hc]
      refine ⟨stageSound_begun N σ.slots kind x, fun _ k hk ↦ ?_⟩
      have hk : begun N kind x = .loading k := hk
      unfold begun at hk
      split at hk
      next => split at hk <;> cases hk
      next => cases hk; rfl
  | access i =>
    obtain ⟨call, hcall, ha⟩ := Option.bind_eq_some_iff.1 hstep
    have hsd := h.calls call (mem_of_getElem? hcall)
    obtain ⟨k, hs, rfl⟩ | ⟨k, hs, hfe, rfl⟩ | ⟨hs, rfl⟩ := access_cases ha
    · obtain ⟨hx, hk, hpa⟩ := hsd.passed hs
      refine h.become (stageSound_loaded hx hk hpa) fun hkd k' hk' ↦ ?_
      rcases hs with hs | hs
      · rw [hsd.accesses hkd k hs, loaded_eq_loading hk']
      · have hr := hsd.stage
        rw [hs] at hr
        rw [hr.1] at hkd
        cases hkd
    · obtain ⟨hx, hk, hpa⟩ := hsd.passed (.inr hs)
      have hl := h.claim hx hk hpa hfe
      refine ⟨hl.before, fun c hc ↦ ?_⟩
      rcases mem_or_eq_of_mem_set hc with hc | rfl
      · exact hl.calls c hc
      · exact ⟨⟨hx, slotAt_lt hk, update_self _ _ _⟩, nofun⟩
    · have ho := hsd.stage
      rw [hs] at ho
      have hnx : Inv N (σ.become i call (.returned none)) :=
        h.become (fun _ ↦ ho.2) nofun
      exact ⟨hnx.before, hnx.calls⟩

/-! ### What holds of every run -/

abbrev Run (N : ℕ) : Table → Table → Prop := Reaches (step N) fun _ _ ↦ True

theorem inv_of_run (h : Run N empty σ) : Inv N σ :=
  h.inv inv_empty fun _ _ _ hi _ hstep ↦ inv_step hi hstep

theorem inv_run (h : Inv N σ) (hr : Run N σ τ) : Inv N τ :=
  hr.inv h fun _ _ _ hi _ hstep ↦ inv_step hi hstep

theorem keeps_of_run (h : Run N σ τ) : Keeps σ.slots τ.slots :=
  h.inv (P := fun τ ↦ Keeps σ.slots τ.slots) (.refl _) fun _ _ _ hkp _ hstep j hj ↦
    (keeps_step hstep j ((hkp j hj).symm ▸ hj)).trans (hkp j hj)

theorem Inv.slot_unique (h : Inv N σ) {j' : ℕ} (hx : x ≠ 0) (hj : j < N) (hj' : j' < N)
    (ho : σ.slots j = x) (ho' : σ.slots j' = x) : j' = j := by
  obtain ⟨k, hk, rfl⟩ := exists_slotAt (x := x) hj
  obtain ⟨k', hk', rfl⟩ := exists_slotAt (x := x) hj'
  have hle : k ≤ k' := (h.before x hx k hk ho).le ho'
  have hge : k' ≤ k := (h.before x hx k' hk' ho').le ho
  rw [le_antisymm hle hge]

theorem Inv.loaded_ne_none (h : Inv N σ) (hx : call.databaseOid ≠ 0) (hj : j < N)
    (hw : σ.slots j = call.databaseOid) (hpa : Passed N σ.slots call.databaseOid k) :
    loaded N call k (σ.slots (slotAt N call.databaseOid k)) ≠ .returned none := by
  obtain ⟨k₀, hk₀, rfl⟩ := exists_slotAt (x := call.databaseOid) hj
  rw [loaded]
  split
  next => exact nofun
  next ho =>
    have hlt : k < k₀ := lt_of_le_of_ne (hpa.le hw) fun h ↦ ho (h ▸ hw)
    have hb := h.before _ hx k₀ hk₀ hw k hlt
    rw [if_neg hb.1, pass.eq_def, if_pos (by omega)]
    exact nofun

/-- The calls from the `n`-th on that are for `x` have not come back without a slot. -/
def Finds (n x : ℕ) (σ : Table) : Prop :=
  ∀ i, n ≤ i → ∀ c, σ.calls[i]? = some c → c.databaseOid = x → c.stage ≠ .returned none

theorem finds_step {n : ℕ} (h : Inv N σ) (hx : x ≠ 0) (hj : j < N)
    (ho : σ.slots j = x) (hf : Finds n x σ) (hstep : σ.step N e = some τ) : Finds n x τ := by
  intro i' hi' c hc hcx
  cases e with
  | call kind y =>
    cases hstep
    rcases getElem?_concat_eq_some hc with ⟨-, rfl⟩ | hc
    · have hy : y = x := hcx
      have hp : ¬(N = 0 ∨ y = 0) := not_or.2 ⟨Nat.ne_zero_of_lt hj, hy ▸ hx⟩
      show begun N kind y ≠ _
      rw [begun.eq_def, if_neg hp]
      exact nofun
    · exact hf i' hi' c hc hcx
  | access i =>
    obtain ⟨call, hcall, ha⟩ := Option.bind_eq_some_iff.1 hstep
    have hsd := h.calls call (mem_of_getElem? hcall)
    obtain ⟨k, hs, rfl⟩ | ⟨k, hs, hfe, rfl⟩ | ⟨hs, rfl⟩ := access_cases ha
    · rcases getElem?_set_eq_some hc with ⟨-, rfl⟩ | hc
      · obtain ⟨hx', -, hpa⟩ := hsd.passed hs
        exact h.loaded_ne_none hx' hj (ho.trans hcx.symm) hpa
      · exact hf i' hi' c hc hcx
    · rcases getElem?_set_eq_some hc with ⟨-, rfl⟩ | hc
      · exact nofun
      · exact hf i' hi' c hc hcx
    · rcases getElem?_set_eq_some hc with ⟨-, rfl⟩ | hc
      · -- a registration that has passed all slots would have passed this one
        have hv := hsd.stage
        rw [hs] at hv
        have hcx : call.databaseOid = x := hcx
        rw [hcx] at hv
        obtain ⟨k₀, hk₀, rfl⟩ := exists_slotAt (x := x) hj
        exact absurd ((hv.2 hx).le ho) (Nat.not_le_of_lt hk₀)
      · exact hf i' hi' c hc hcx

theorem CallSound.finds {slots : ℕ → ℕ} (h : CallSound N slots call) (hkd : call.kind = .find)
    (hsome : call.stage ≠ .returned none) :
    (∃ j, call.stage = .returned (some j)) ∨ call.accesses < N := by
  have hsd := h.stage
  rcases hs : call.stage with k | k | _ | slot
  · rw [hs] at hsd
    exact .inr (h.accesses hkd k hs ▸ hsd.2.1)
  · rw [hs] at hsd
    rw [hsd.1] at hkd
    cases hkd
  · rw [hs] at hsd
    rw [hsd.1] at hkd
    cases hkd
  · cases slot with
    | none => exact absurd hs hsome
    | some j => exact .inl ⟨j, rfl⟩

/-- **The registry.** In every run, an id owns one slot at most, and it keeps it; a lookup that
begins after a registration has returned a slot finds that slot, in at most `N` accesses; and a
registration reports an overflow only when every slot is owned by another id. -/
theorem ownership_of_run {N : ℕ} {σ τ : Table} (hσ : Run N empty σ) (hτ : Run N σ τ) :
    (∀ x ≠ 0, ∀ j < N, ∀ j' < N, σ.slots j = x → τ.slots j' = x → j' = j) ∧
      (∀ registration ∈ σ.calls, registration.kind = .entryOrOverflow →
        ∀ j, registration.stage = .returned (some j) →
        σ.slots j = registration.databaseOid ∧
        ∀ i ≥ σ.calls.length, ∀ lookup, τ.calls[i]? = some lookup → lookup.kind = .find →
          lookup.databaseOid = registration.databaseOid →
          (∀ r, lookup.stage = .returned r → r = some j) ∧
          (N ≤ lookup.accesses → lookup.stage = .returned (some j))) ∧
      ∀ registration ∈ τ.calls, registration.kind = .entryOrOverflow →
        registration.databaseOid ≠ 0 →
        registration.stage = .overflowing ∨ registration.stage = .returned none →
        ∀ j < N, τ.slots j ≠ 0 ∧ τ.slots j ≠ registration.databaseOid := by
  have hinv := inv_of_run hσ
  have hi' := inv_run hinv hτ
  have hkp := keeps_of_run hτ
  have huq : ∀ x ≠ 0, ∀ j < N, ∀ j' < N, σ.slots j = x → τ.slots j' = x → j' = j :=
    fun x hx j hj j' hj' ho ho' ↦ hi'.slot_unique hx hj hj' ((hkp j (ho ▸ hx)).trans ho) ho'
  refine ⟨huq, fun r hr _ j hs ↦ ?_, fun r hr hkd hx hs j hj ↦ ?_⟩
  · obtain ⟨hx, hj, ho⟩ : r.databaseOid ≠ 0 ∧ j < N ∧ σ.slots j = r.databaseOid := by
      have hsd := (hinv.calls r hr).stage
      rw [hs] at hsd
      exact hsd
    have hl : Inv N τ ∧ τ.slots j = r.databaseOid ∧ Finds σ.calls.length r.databaseOid τ := by
      refine hτ.inv (P := fun τ ↦ Inv N τ ∧ τ.slots j = r.databaseOid ∧
        Finds σ.calls.length r.databaseOid τ) ⟨hinv, ho, fun i hi c hc ↦ ?_⟩ ?_
      · rw [getElem?_eq_none hi] at hc
        cases hc
      · rintro ρ e ρ' ⟨hρ, hρown, hf⟩ - hstep
        exact ⟨inv_step hρ hstep, (keeps_step hstep j (hρown ▸ hx)).trans hρown,
          finds_step hρ hx hj hρown hf hstep⟩
    refine ⟨ho, fun i hi lookup hlk hkd hsm ↦ ?_⟩
    have hsd := hl.1.calls lookup (mem_of_getElem? hlk)
    have hsome := hl.2.2 i hi lookup hlk hsm
    have hsl {j'} (he : lookup.stage = .returned (some j')) : j' = j := by
      have hs' := hsd.stage
      rw [he, hsm] at hs'
      exact huq _ hx j hj j' hs'.2.1 ho hs'.2.2
    constructor
    · rintro (_ | j') he
      · exact absurd he hsome
      · rw [hsl he]
    · intro ha
      obtain ⟨j', he⟩ := (hsd.finds hkd hsome).resolve_right (Nat.not_lt.2 ha)
      rw [he, hsl he]
  · have hpa : Passed N τ.slots r.databaseOid N := by
      have hsd := (hi'.calls r hr).stage
      rcases hs with hs | hs <;> rw [hs] at hsd
      · exact hsd.2 hx
      · exact hsd hkd hx
    obtain ⟨k, hk, rfl⟩ := exists_slotAt (x := r.databaseOid) hj
    exact hpa k hk

def raced : List Event :=
  [.call .entryOrOverflow 7, .call .entryOrOverflow 7, .access 0, .access 1, .access 1]

def lookedUp : List Event := [.call .find 7, .access 0, .access 2]

theorem ownership_of_run_raced : ∃ σ τ : Table, exec (step 4) empty raced = some σ ∧
    exec (step 4) σ lookedUp = some τ ∧ σ.slots 3 = 7 ∧
      τ.calls[2]? = some ⟨7, .find, .returned (some 3), 1⟩ ∧ ∀ j < 4, τ.slots j = 7 → j = 3 := by
  obtain ⟨σ, τ, hσ, hτ, hf, hs, ho, hlk⟩ :
      ∃ σ τ : Table, exec (step 4) empty raced = some σ ∧ exec (step 4) σ lookedUp = some τ ∧
        MeetsAll (step 4) (fun _ _ ↦ True) empty raced ∧
        MeetsAll (step 4) (fun _ _ ↦ True) σ lookedUp ∧ σ.slots 3 = 7 ∧
        τ.calls[2]? = some ⟨7, .find, .returned (some 3), 1⟩ :=
    ⟨_, _, rfl, rfl, ⟨trivial, trivial, trivial, trivial, trivial, trivial⟩,
      ⟨trivial, trivial, trivial, trivial⟩, rfl, rfl⟩
  refine ⟨σ, τ, hσ, hτ, ho, hlk, fun j hj hj' ↦ ?_⟩
  exact (ownership_of_run (reaches_of_exec hσ hf) (reaches_of_exec hτ hs)).1 7 (by decide)
    3 (by decide) j hj ho hj'

end Table

end Koldstore.Registry
