import Koldstore.Basic.Runs

/-!
# Maintenance requests and passes

Backends ask for the maintenance of a database through one entry of shared memory: a request bumps
the generation, and in a second step raises its flag. The one maintenance worker of the database
samples generation and flags, acts on what it saw, and then marks the sampled generation reconciled,
which clears the flags unless the generation has moved on. Every atomic access is one step of the
model, so that requests fall between any two of them.

An entry also carries what no word of shared memory holds: the requests that no pass has seen yet
(`requested`) and whether a recovery that a pass has failed at is still to be done (`owed`).
-/

namespace Koldstore

open List Function
open Function (update_apply update_self)

namespace Supervisor

open Machine

/-! ### The entry of a database -/

inductive Request
  | recovery | schedule
  deriving DecidableEq, Repr

/-- The maintenance flags among `event_flags`: `EVENT_RECOVERY_REQUIRED` and
`EVENT_SCHEDULE_DIRTY`. -/
abbrev Flags := Request → Bool

structure Publication where
  kind : Request
  generation : ℕ
  deriving DecidableEq, Repr

structure Sample where
  generation : ℕ
  seen : Flags

/-- Where the maintenance worker stands. From `marking` on, `ok` is how its work ended. -/
inductive Pass
  | idle
  | sampling (generation : ℕ)
  | acting (sample : Sample)
  | marking (sample : Sample) (ok : Bool)
  | testing (sample : Sample) (ok : Bool)
  | clearing (sample : Sample) (ok : Bool)
  | retesting (sample : Sample) (ok : Bool) (dropped : Flags)
  | restoring (sample : Sample) (ok : Bool) (dropped : Flags)
  | reconciled (sample : Sample) (ok : Bool) (dropped : Flags)

/-- The maintenance part of `DatabaseWorkEntry`. -/
structure Entry where
  generation : ℕ
  processedGeneration : ℕ
  flags : Flags
  nextDueAtMs : ℕ
  publishing : List Publication
  pass : Pass
  requested : Request → Option ℕ
  owed : Bool

/-- `DatabaseWorkEntry::empty`. -/
def Entry.empty : Entry where
  generation := 0
  processedGeneration := 0
  flags := fun _ ↦ false
  nextDueAtMs := 0
  publishing := []
  pass := .idle
  requested := fun _ ↦ none
  owed := false

/-! ### Steps -/

inductive Event
  | bump (kind : Request)
  | raise (publication : Publication)
  | sampleGeneration
  | sampleFlags
  | act (ok : Bool) (nowMs cadenceMs : ℕ) (nextDueAtMs : Option ℕ)
  | mark
  | test
  | clear
  | retest
  | restore
  | finish (nowMs cadenceMs : ℕ)
  | consumeDeadline (nowMs : ℕ)
  deriving DecidableEq, Repr

def atomicMinNonzero (current value : ℕ) : ℕ :=
  if 0 < current ∧ current ≤ value then current else value

def scheduleMaintenanceAtMs (current deadline : ℕ) : ℕ :=
  if deadline = 0 then current else atomicMinNonzero current deadline

/-- `update_timed_policy_deadline`: the next tick, or a policy deadline that comes sooner. -/
def updateTimedPolicyDeadline (current nowMs cadenceMs : ℕ) (nextDueAtMs : Option ℕ) : ℕ :=
  let deadline := match nextDueAtMs.filter (nowMs < ·) with
    | some policyDeadline => min policyDeadline (nowMs + cadenceMs)
    | none => nowMs + cadenceMs
  if nowMs < deadline then scheduleMaintenanceAtMs current deadline else 0

namespace Entry

/-- `maintenance_generation` is an `AtomicU64`, whose `fetch_add` wraps. -/
def nextGeneration (σ : Entry) : ℕ := (σ.generation + 1) % 2 ^ 64

theorem nextGeneration_eq {σ : Entry} (h : σ.generation + 1 < 2 ^ 64) :
    σ.nextGeneration = σ.generation + 1 := Nat.mod_eq_of_lt h

def step (σ : Entry) : Event → Option Entry
  | .bump kind =>
    some { σ with
      generation := σ.nextGeneration
      publishing := ⟨kind, σ.nextGeneration⟩ :: σ.publishing
      requested := update σ.requested kind (some σ.nextGeneration) }
  | .raise publication =>
    if publication ∈ σ.publishing then
      some { σ with
        flags := update σ.flags publication.kind true
        publishing := σ.publishing.erase publication }
    else none
  | .sampleGeneration =>
    match σ.pass with
    | .idle => some { σ with pass := .sampling σ.generation }
    | _ => none
  | .sampleFlags =>
    match σ.pass with
    | .sampling generation =>
      -- a pass that sees no flag has nothing to reconcile
      if σ.flags .recovery || σ.flags .schedule then
        some { σ with
          pass := .acting ⟨generation, σ.flags⟩
          requested := fun kind ↦ if σ.flags kind then none else σ.requested kind }
      else some { σ with pass := .idle }
    | _ => none
  | .act ok nowMs cadenceMs nextDueAtMs =>
    match σ.pass with
    | .acting sample =>
      some { σ with
        pass := .marking sample ok
        nextDueAtMs :=
          if ok then updateTimedPolicyDeadline σ.nextDueAtMs nowMs cadenceMs nextDueAtMs
          else σ.nextDueAtMs
        owed := if sample.seen .recovery then !ok else σ.owed }
    | _ => none
  | .mark =>
    match σ.pass with
    | .marking sample ok =>
      some { σ with
        pass := .testing sample ok
        processedGeneration := max σ.processedGeneration sample.generation }
    | _ => none
  | .test =>
    match σ.pass with
    | .testing sample ok =>
      if σ.generation = sample.generation then some { σ with pass := .clearing sample ok }
      else some { σ with pass := .reconciled sample ok fun _ ↦ false }
    | _ => none
  | .clear =>
    match σ.pass with
    | .clearing sample ok =>
      some { σ with
        pass := .retesting sample ok fun kind ↦ σ.flags kind && !sample.seen kind
        flags := fun _ ↦ false }
    | _ => none
  | .retest =>
    match σ.pass with
    | .retesting sample ok dropped =>
      if σ.generation ≠ sample.generation then
        some { σ with pass := .restoring sample ok dropped }
      else some { σ with pass := .reconciled sample ok dropped }
    | _ => none
  | .restore =>
    match σ.pass with
    | .restoring sample ok dropped =>
      some { σ with
        flags := update σ.flags .recovery true
        pass := .reconciled sample ok dropped }
    | _ => none
  | .finish nowMs cadenceMs =>
    match σ.pass with
    | .reconciled _ ok _ =>
      some { σ with
        pass := .idle
        nextDueAtMs := if ok then σ.nextDueAtMs
          else scheduleMaintenanceAtMs σ.nextDueAtMs (nowMs + max cadenceMs 1000) }
    | _ => none
  | .consumeDeadline nowMs =>
    -- the supervisor then publishes a scheduling request
    if 0 < σ.nextDueAtMs ∧ σ.nextDueAtMs ≤ nowMs then some { σ with nextDueAtMs := 0 } else none

section Inversion

variable {σ τ : Entry}

theorem step_sampleGeneration (h : σ.step .sampleGeneration = some τ) :
    σ.pass = .idle ∧ τ = { σ with pass := .sampling σ.generation } := by
  rw [step] at h
  split at h
  next hpa => exact ⟨hpa, (Option.some.inj h).symm⟩
  next => cases h

theorem step_sampleFlags (h : σ.step .sampleFlags = some τ) :
    ∃ generation, σ.pass = .sampling generation ∧
      ((σ.flags .recovery || σ.flags .schedule) = true ∧ τ = { σ with
          pass := .acting ⟨generation, σ.flags⟩
          requested := fun kind ↦ if σ.flags kind then none else σ.requested kind } ∨
        (σ.flags .recovery || σ.flags .schedule) = false ∧ τ = { σ with pass := .idle }) := by
  rw [step] at h
  split at h
  next generation hpa =>
    refine ⟨generation, hpa, ?_⟩
    split_ifs at h with ha
    · exact .inl ⟨ha, (Option.some.inj h).symm⟩
    · exact .inr ⟨eq_false_of_ne_true ha, (Option.some.inj h).symm⟩
  next => cases h

theorem step_act {ok : Bool} {nowMs cadenceMs : ℕ} {nextDueAtMs : Option ℕ}
    (h : σ.step (.act ok nowMs cadenceMs nextDueAtMs) = some τ) :
    ∃ sample dueAtMs, σ.pass = .acting sample ∧ τ = { σ with
      pass := .marking sample ok
      nextDueAtMs := dueAtMs
      owed := if sample.seen .recovery then !ok else σ.owed } := by
  rw [step] at h
  split at h
  next sample hpa => exact ⟨sample, _, hpa, (Option.some.inj h).symm⟩
  next => cases h

theorem step_mark (h : σ.step .mark = some τ) :
    ∃ sample ok, σ.pass = .marking sample ok ∧ τ = { σ with
      pass := .testing sample ok
      processedGeneration := max σ.processedGeneration sample.generation } := by
  rw [step] at h
  split at h
  next sample ok hpa => exact ⟨sample, ok, hpa, (Option.some.inj h).symm⟩
  next => cases h

theorem step_test (h : σ.step .test = some τ) : ∃ sample ok, σ.pass = .testing sample ok ∧
      (σ.generation = sample.generation ∧ τ = { σ with pass := .clearing sample ok } ∨
        σ.generation ≠ sample.generation ∧
          τ = { σ with pass := .reconciled sample ok fun _ ↦ false }) := by
  rw [step] at h
  split at h
  next sample ok hpa =>
    refine ⟨sample, ok, hpa, ?_⟩
    split_ifs at h with hsm
    · exact .inl ⟨hsm, (Option.some.inj h).symm⟩
    · exact .inr ⟨hsm, (Option.some.inj h).symm⟩
  next => cases h

theorem step_clear (h : σ.step .clear = some τ) :
    ∃ sample ok, σ.pass = .clearing sample ok ∧ τ = { σ with
      pass := .retesting sample ok fun kind ↦ σ.flags kind && !sample.seen kind
      flags := fun _ ↦ false } := by
  rw [step] at h
  split at h
  next sample ok hpa => exact ⟨sample, ok, hpa, (Option.some.inj h).symm⟩
  next => cases h

theorem step_retest (h : σ.step .retest = some τ) :
    ∃ sample ok dropped, σ.pass = .retesting sample ok dropped ∧
      (σ.generation ≠ sample.generation ∧ τ = { σ with pass := .restoring sample ok dropped } ∨
        σ.generation = sample.generation ∧
          τ = { σ with pass := .reconciled sample ok dropped }) := by
  rw [step] at h
  split at h
  next sample ok dropped hpa =>
    refine ⟨sample, ok, dropped, hpa, ?_⟩
    split_ifs at h with hsm
    · exact .inl ⟨hsm, (Option.some.inj h).symm⟩
    · exact .inr ⟨not_not.1 hsm, (Option.some.inj h).symm⟩
  next => cases h

theorem step_restore (h : σ.step .restore = some τ) :
    ∃ sample ok dropped, σ.pass = .restoring sample ok dropped ∧ τ = { σ with
      flags := update σ.flags .recovery true
      pass := .reconciled sample ok dropped } := by
  rw [step] at h
  split at h
  next sample ok dropped hpa => exact ⟨sample, ok, dropped, hpa, (Option.some.inj h).symm⟩
  next => cases h

theorem step_finish {nowMs cadenceMs : ℕ} (h : σ.step (.finish nowMs cadenceMs) = some τ) :
    ∃ sample ok dropped dueAtMs, σ.pass = .reconciled sample ok dropped ∧
      τ = { σ with pass := .idle, nextDueAtMs := dueAtMs } := by
  rw [step] at h
  split at h
  next sample ok dropped hpa => exact ⟨sample, ok, dropped, _, hpa, (Option.some.inj h).symm⟩
  next => cases h

end Inversion

end Entry

/-! ### Requests that stay visible -/

def Pass.Restores (generation : ℕ) : Pass → Prop
  | retesting sample _ _ => generation ≠ sample.generation
  | restoring _ _ _ => True
  | _ => False

namespace Entry

/-- No bump wraps the generation, no flags are loaded between the bump and the flag of a request
that the loaded generation counts, and no schedule flag comes up between a reconcile's test and its
clear. -/
def Apart (σ : Entry) : Event → Prop
  | .bump _ => σ.generation + 1 < 2 ^ 64
  | .sampleFlags => ∀ generation, σ.pass = .sampling generation →
      (σ.flags .recovery || σ.flags .schedule) = true →
        ∀ p ∈ σ.publishing, p.generation ≤ generation → σ.flags p.kind = true
  | .raise p => p.kind = .schedule → ∀ sample ok, σ.pass ≠ .clearing sample ok
  | _ => True

structure NeverLost (σ : Entry) : Prop where
  kept : ∀ sample ok dropped, σ.pass = .reconciled sample ok dropped →
    ∀ kind, dropped kind = true → σ.flags kind = true
  visible : ∀ kind generation, σ.requested kind = some generation →
    σ.processedGeneration < σ.generation ∧
      (σ.flags kind = true ∨ ⟨kind, generation⟩ ∈ σ.publishing ∨
        kind = .recovery ∧ σ.pass.Restores σ.generation)

def Sampled (σ : Entry) (sample : Sample) : Prop := sample.generation ≤ σ.generation ∧
    (∀ kind generation, σ.requested kind = some generation → sample.generation < generation) ∧
    (∀ p ∈ σ.publishing, sample.seen p.kind = false → sample.generation < p.generation) ∧
    ∀ kind, σ.flags kind = true → sample.seen kind = false → sample.generation < σ.generation

def PassInv (σ : Entry) : Pass → Prop
  | .idle => True
  | .sampling generation => generation ≤ σ.generation
  | .acting sample | .marking sample _ | .testing sample _ => σ.Sampled sample
  | .clearing sample _ => σ.Sampled sample ∧
      (σ.flags .schedule = true → sample.seen .schedule = true) ∧
      ∀ generation, σ.requested .schedule = some generation → ⟨.schedule, generation⟩ ∈ σ.publishing
  | .retesting sample _ dropped => sample.generation ≤ σ.generation ∧
      ∀ kind, dropped kind = true → kind = .recovery ∧ sample.generation < σ.generation
  | .restoring _ _ dropped => ∀ kind, dropped kind = true → kind = .recovery
  | .reconciled _ _ dropped => ∀ kind, dropped kind = true → σ.flags kind = true

structure Inv (σ : Entry) : Prop where
  processed : σ.processedGeneration ≤ σ.generation
  publishing : ∀ p ∈ σ.publishing, p.generation ≤ σ.generation
  requested : ∀ kind generation, σ.requested kind = some generation →
    generation ≤ σ.generation ∧ σ.processedGeneration < generation
  raised : ∀ kind generation, σ.requested kind = some generation →
    σ.flags kind = true ∨ ⟨kind, generation⟩ ∈ σ.publishing ∨
      kind = .recovery ∧ σ.pass.Restores σ.generation
  pass : σ.PassInv σ.pass

theorem inv_empty : Inv .empty where
  processed := Nat.le_refl 0
  publishing := by simp [empty]
  requested := by simp [empty]
  raised := by simp [empty]
  pass := trivial

variable {σ τ : Entry} {sample : Sample} {ok : Bool} {kind : Request}

theorem Inv.neverLost (h : σ.Inv) : σ.NeverLost where
  kept sample ok dropped hpass := by
    have hkt := h.pass
    rw [hpass] at hkt
    exact hkt
  visible kind generation hreq := by
    obtain ⟨hle, hgt⟩ := h.requested kind generation hreq
    exact ⟨by omega, h.raised kind generation hreq⟩

/-! ### Publications -/

variable {kind' : Request}

theorem requested_bump {generation : ℕ}
    (h : update σ.requested kind (some (σ.generation + 1)) kind' = some generation) :
    kind' = kind ∧ generation = σ.generation + 1 ∨ σ.requested kind' = some generation := by
  rw [update_apply] at h
  split_ifs at h with hkd
  · exact .inl ⟨hkd, (Option.some.inj h).symm⟩
  · exact .inr h

theorem Sampled.bump (h : σ.Sampled sample) : Sampled { σ with
      generation := σ.generation + 1
      publishing := ⟨kind, σ.generation + 1⟩ :: σ.publishing
      requested := update σ.requested kind (some (σ.generation + 1)) } sample := by
  obtain ⟨hle, hr, hu, hf⟩ := h
  refine ⟨Nat.le_succ_of_le hle, ?_, ?_, fun kind' hup hsn ↦ Nat.lt_succ_of_le hle⟩
  · intro kind' generation hn
    rcases requested_bump hn with ⟨-, rfl⟩ | hold
    · exact Nat.lt_succ_of_le hle
    · exact hr kind' generation hold
  · intro p hp hsn
    rcases mem_cons.1 hp with rfl | hp
    · exact Nat.lt_succ_of_le hle
    · exact hu p hp hsn

variable {pass : Pass}

theorem PassInv.bump (h : σ.PassInv pass) : PassInv { σ with
      generation := σ.generation + 1
      publishing := ⟨kind, σ.generation + 1⟩ :: σ.publishing
      requested := update σ.requested kind (some (σ.generation + 1)) } pass := by
  cases pass with
  | idle => trivial
  | sampling generation => exact Nat.le_succ_of_le h
  | acting sample | marking sample ok | testing sample ok => exact Sampled.bump h
  | clearing sample ok =>
    obtain ⟨hs, hsn, hp⟩ := h
    refine ⟨hs.bump, hsn, fun generation hn ↦ ?_⟩
    rcases requested_bump hn with ⟨rfl, rfl⟩ | hold
    · exact mem_cons_self
    · exact mem_cons_of_mem _ (hp generation hold)
  | retesting sample ok dropped =>
    exact ⟨Nat.le_succ_of_le h.1, fun kind' hdr ↦ (h.2 kind' hdr).imp_right Nat.lt_succ_of_lt⟩
  | restoring sample ok dropped => exact h
  | reconciled sample ok dropped => exact h

theorem PassInv.restores_bump (h : σ.PassInv pass) (hr : pass.Restores σ.generation) :
    pass.Restores (σ.generation + 1) := by
  cases pass with
  | retesting sample ok dropped =>
    show σ.generation + 1 ≠ sample.generation
    have hle := h.1
    omega
  | restoring sample ok dropped => trivial
  | _ => exact hr

theorem Inv.bump (h : σ.Inv) (hap : σ.Apart (.bump kind)) (hstep : σ.step (.bump kind) = some τ) :
    τ.Inv := by
  cases hstep
  rw [nextGeneration_eq hap]
  refine ⟨Nat.le_succ_of_le h.processed, ?_, ?_, ?_, h.pass.bump⟩
  · intro p hp
    rcases mem_cons.1 hp with rfl | hp
    · exact Nat.le_refl _
    · exact Nat.le_succ_of_le (h.publishing p hp)
  · intro kind' generation hn
    rcases requested_bump hn with ⟨-, rfl⟩ | hold
    · exact ⟨Nat.le_refl _, Nat.lt_succ_of_le h.processed⟩
    · exact (h.requested kind' generation hold).imp_left Nat.le_succ_of_le
  · intro kind' generation hn
    rcases requested_bump hn with ⟨rfl, rfl⟩ | hold
    · exact .inr (.inl mem_cons_self)
    · exact (h.raised kind' generation hold).imp_right
        (.imp (mem_cons_of_mem _) (.imp_right h.pass.restores_bump))

variable {p : Publication}

theorem flags_raise (h : update σ.flags p.kind true kind' = true) :
    kind' = p.kind ∨ σ.flags kind' = true := by
  rw [update_apply] at h
  split_ifs at h with hkd
  · exact .inl hkd
  · exact .inr h

theorem update_flags_of_up (h : σ.flags kind' = true) : update σ.flags kind true kind' = true := by
  rw [update_apply, h, ite_self]

theorem Sampled.raise (h : σ.Sampled sample) (hp : p ∈ σ.publishing)
    (hle : p.generation ≤ σ.generation) :
    Sampled { σ with
      flags := update σ.flags p.kind true
      publishing := σ.publishing.erase p } sample := by
  obtain ⟨hs, hr, hu, hf⟩ := h
  refine ⟨hs, hr, fun q hq ↦ hu q (mem_of_mem_erase hq), ?_⟩
  intro kind' hup hsn
  rcases flags_raise hup with rfl | hup
  · exact Nat.lt_of_lt_of_le (hu p hp hsn) hle
  · exact hf kind' hup hsn

theorem PassInv.raise (h : σ.PassInv pass) (hp : p ∈ σ.publishing)
    (hle : p.generation ≤ σ.generation)
    (hap : p.kind = .schedule → ∀ sample ok, pass ≠ .clearing sample ok) :
    PassInv { σ with
      flags := update σ.flags p.kind true
      publishing := σ.publishing.erase p } pass := by
  cases pass with
  | idle => trivial
  | sampling generation => exact h
  | acting sample | marking sample ok | testing sample ok => exact Sampled.raise h hp hle
  | clearing sample ok =>
    obtain ⟨hs, hsn, hu⟩ := h
    have hkd : p.kind ≠ .schedule := fun hkd ↦ hap hkd sample ok rfl
    refine ⟨hs.raise hp hle, fun hup ↦ ?_, fun generation hr ↦ ?_⟩
    · rcases flags_raise hup with heq | hup
      · exact absurd heq.symm hkd
      · exact hsn hup
    · refine (mem_erase_of_ne ?_).2 (hu generation hr)
      rintro rfl
      exact hkd rfl
  | retesting sample ok dropped => exact h
  | restoring sample ok dropped => exact h
  | reconciled sample ok dropped => exact fun kind' hdr ↦ update_flags_of_up (h kind' hdr)

variable (h : σ.Inv)
include h

theorem Inv.raise (hap : σ.Apart (.raise p)) (hstep : σ.step (.raise p) = some τ) : τ.Inv := by
  rw [Entry.step] at hstep
  split_ifs at hstep with hp
  cases hstep
  refine ⟨h.processed, fun q hq ↦ h.publishing q (mem_of_mem_erase hq), h.requested, ?_,
    h.pass.raise hp (h.publishing p hp) hap⟩
  intro kind' generation hr
  show update σ.flags p.kind true kind' = true ∨ _
  by_cases hkd : kind' = p.kind
  · exact .inl (by rw [hkd, update_self])
  · refine (h.raised kind' generation hr).imp update_flags_of_up (.imp_left fun hmem ↦ ?_)
    refine (mem_erase_of_ne ?_).2 hmem
    rintro rfl
    exact hkd rfl

/-! ### The pass -/

theorem Inv.withPass (pass : Pass) (hpa : σ.PassInv pass)
    (hs : σ.pass.Restores σ.generation → pass.Restores σ.generation) (dueAtMs : ℕ) (owed : Bool) :
    Inv { σ with pass := pass, nextDueAtMs := dueAtMs, owed := owed } :=
  ⟨h.processed, h.publishing, h.requested, fun kind generation hr ↦
    (h.raised kind generation hr).imp_right (.imp_right (.imp_right hs)), hpa⟩

theorem Inv.passInv (hpa : σ.pass = pass) : σ.PassInv pass := hpa ▸ h.pass

theorem Inv.raised_of_not_restores {generation : ℕ}
    (hpa : ¬σ.pass.Restores σ.generation) (hr : σ.requested kind = some generation) :
    σ.flags kind = true ∨ ⟨kind, generation⟩ ∈ σ.publishing := by
  rcases h.raised kind generation hr with hup | hmem | ⟨-, hs⟩
  · exact .inl hup
  · exact .inr hmem
  · exact absurd hs hpa

theorem Inv.sampleFlags (hap : σ.Apart .sampleFlags) (hstep : σ.step .sampleFlags = some τ) :
    τ.Inv := by
  obtain ⟨generation, hp, ⟨ha, rfl⟩ | ⟨-, rfl⟩⟩ := step_sampleFlags hstep
  · -- a publication whose flag is down is younger than the sample
    have hyg : ∀ p ∈ σ.publishing, σ.flags p.kind = false → generation < p.generation := by
      intro p hmem hd
      by_contra hle
      rw [hap generation hp ha p hmem (Nat.le_of_not_lt hle)] at hd
      cases hd
    have hu : ∀ kind n, (if σ.flags kind then none else σ.requested kind) = some n →
        σ.flags kind = false ∧ σ.requested kind = some n ∧ ⟨kind, n⟩ ∈ σ.publishing := by
      intro kind n hr
      split_ifs at hr with hup
      exact ⟨by simpa using hup, hr,
        (h.raised_of_not_restores (by simp [hp, Pass.Restores]) hr).resolve_left hup⟩
    refine ⟨h.processed, h.publishing, ?_, ?_, h.passInv hp, ?_, hyg, ?_⟩
    · exact fun kind n hr ↦ h.requested kind n (hu kind n hr).2.1
    · exact fun kind n hr ↦ .inr (.inl (hu kind n hr).2.2)
    · intro kind n hr
      obtain ⟨hd, -, hmem⟩ := hu kind n hr
      exact hyg ⟨kind, n⟩ hmem hd
    · exact fun kind hup hd ↦ absurd (hd.symm.trans hup) Bool.false_ne_true
  · exact h.withPass .idle trivial (by simp [hp, Pass.Restores]) _ _

theorem Inv.mark (hstep : σ.step .mark = some τ) : τ.Inv := by
  obtain ⟨sample, ok, hp, rfl⟩ := step_mark hstep
  have hs : σ.Sampled sample := h.passInv hp
  refine ⟨Nat.max_le.2 ⟨h.processed, hs.1⟩, h.publishing, ?_, ?_, hs⟩
  · intro kind n hr
    obtain ⟨hle, hgt⟩ := h.requested kind n hr
    exact ⟨hle, Nat.max_lt.2 ⟨hgt, hs.2.1 kind n hr⟩⟩
  · intro kind n hr
    exact (h.raised_of_not_restores (by simp [hp, Pass.Restores]) hr).imp_right .inl

theorem Inv.test (hstep : σ.step .test = some τ) : τ.Inv := by
  obtain ⟨sample, ok, hp, ⟨hsm, rfl⟩ | ⟨-, rfl⟩⟩ := step_test hstep
  · have hs : σ.Sampled sample := h.passInv hp
    obtain ⟨-, hr, -, hf⟩ := id hs
    refine h.withPass (.clearing sample ok) ⟨hs, ?_, ?_⟩ (by simp [hp, Pass.Restores]) _ _
    · intro hup
      by_contra hsn
      have hlt := hf .schedule hup (by simpa using hsn)
      omega
    · intro n hn
      have hlt := hr .schedule n hn
      have hle := (h.requested .schedule n hn).1
      omega
  · refine h.withPass (.reconciled sample ok fun _ ↦ false) ?_ (by simp [hp, Pass.Restores]) _ _
    exact fun kind hdr ↦ absurd hdr Bool.false_ne_true

theorem Inv.clear (hstep : σ.step .clear = some τ) : τ.Inv := by
  obtain ⟨sample, ok, hp, rfl⟩ := step_clear hstep
  obtain ⟨⟨hle, hr, -, hf⟩, hsn, hu⟩ := h.passInv hp
  refine ⟨h.processed, h.publishing, h.requested, ?_, hle, ?_⟩
  · intro kind n hn
    cases kind with
    | schedule => exact .inr (.inl (hu n hn))
    | recovery =>
      refine .inr (.inr ⟨rfl, ?_⟩)
      show σ.generation ≠ sample.generation
      have hlt := hr .recovery n hn
      have hle' := (h.requested .recovery n hn).1
      omega
  · intro kind hdr
    obtain ⟨hup, ho⟩ : σ.flags kind = true ∧ sample.seen kind = false := by
      simpa using hdr
    refine ⟨?_, hf kind hup ho⟩
    cases kind with
    | recovery => rfl
    | schedule => exact absurd (ho.symm.trans (hsn hup)) Bool.false_ne_true

theorem Inv.retest (hstep : σ.step .retest = some τ) : τ.Inv := by
  obtain ⟨sample, ok, dropped, hp, ⟨-, rfl⟩ | ⟨hsm, rfl⟩⟩ := step_retest hstep
  · exact h.withPass (.restoring sample ok dropped)
      (fun kind hdr ↦ ((h.passInv hp).2 kind hdr).1) (fun _ ↦ trivial) _ _
  · refine h.withPass (.reconciled sample ok dropped) (fun kind hdr ↦ ?_) ?_ _ _
    · have hlt := ((h.passInv hp).2 kind hdr).2
      omega
    · rw [hp]
      exact fun hr ↦ absurd hsm hr

theorem Inv.restore (hstep : σ.step .restore = some τ) : τ.Inv := by
  obtain ⟨sample, ok, dropped, hp, rfl⟩ := step_restore hstep
  refine ⟨h.processed, h.publishing, h.requested, ?_, ?_⟩
  · intro kind n hr
    show update σ.flags .recovery true kind = true ∨ _
    rcases h.raised kind n hr with hup | hmem | ⟨rfl, -⟩
    · exact .inl (update_flags_of_up hup)
    · exact .inr (.inl hmem)
    · exact .inl (update_self ..)
  · intro kind hdr
    obtain rfl : kind = .recovery := h.passInv hp kind hdr
    show update σ.flags .recovery true .recovery = true
    exact update_self ..

/-- **Every step that keeps requests apart from passes keeps the invariant.** -/
theorem Inv.step {e : Event} (hap : σ.Apart e) (hstep : σ.step e = some τ) : τ.Inv := by
  cases e with
  | bump kind => exact h.bump hap hstep
  | raise p => exact h.raise hap hstep
  | sampleGeneration =>
    obtain ⟨hp, rfl⟩ := step_sampleGeneration hstep
    exact h.withPass (.sampling σ.generation) (Nat.le_refl _) (by simp [hp, Pass.Restores]) _ _
  | sampleFlags => exact h.sampleFlags hap hstep
  | act ok nowMs cadenceMs nextDueAtMs =>
    obtain ⟨sample, dueAtMs, hp, rfl⟩ := step_act hstep
    have hs : σ.Sampled sample := h.passInv hp
    exact h.withPass (.marking sample ok) hs (by simp [hp, Pass.Restores]) _ _
  | mark => exact h.mark hstep
  | test => exact h.test hstep
  | clear => exact h.clear hstep
  | retest => exact h.retest hstep
  | restore => exact h.restore hstep
  | finish nowMs cadenceMs =>
    obtain ⟨sample, ok, dropped, dueAtMs, hp, rfl⟩ := step_finish hstep
    exact h.withPass .idle trivial (by simp [hp, Pass.Restores]) _ _
  | consumeDeadline nowMs =>
    rw [Entry.step] at hstep
    split_ifs at hstep
    cases hstep
    exact h.withPass σ.pass h.pass id _ _

omit h

/-- **In every run whose steps keep requests apart from passes, no request is lost.** -/
theorem neverLost_of_reaches (hrun : Reaches Entry.step Apart .empty σ) : σ.NeverLost :=
  (hrun.inv inv_empty fun _ _ _ h hap hstep ↦ h.step hap hstep).neverLost

end Entry

/-! ### A request that is lost -/

def recoveryDuringSample : List Event :=
  [.bump .schedule, .raise ⟨.schedule, 1⟩, .bump .recovery, .sampleGeneration, .sampleFlags,
    .raise ⟨.recovery, 2⟩, .act true 0 60000 none, .mark, .test, .clear, .retest, .finish 0 60000]

theorem recovery_request_lost :
    ∃ σ, exec Entry.step .empty recoveryDuringSample = some σ ∧ ¬σ.NeverLost ∧
      σ.requested .recovery = some 2 ∧ σ.publishing = [] ∧ σ.flags .recovery = false ∧
      σ.generation = σ.processedGeneration := by
  refine ⟨_, rfl, fun h ↦ ?_, rfl, rfl, rfl, rfl⟩
  exact absurd (h.visible .recovery 2 rfl).1 (by decide)

def recoveryBeforeSample : List Event :=
  [.bump .recovery, .raise ⟨.recovery, 1⟩, .sampleGeneration, .sampleFlags]

theorem recoveryBeforeSample_apart : MeetsAll Entry.step Entry.Apart .empty recoveryBeforeSample :=
  ⟨show 0 + 1 < 2 ^ 64 by norm_num, fun hkd ↦ absurd hkd (by decide), trivial, nofun, trivial⟩

theorem neverLost_of_reaches_published :
    ∃ σ, exec Entry.step .empty recoveryBeforeSample = some σ ∧ σ.NeverLost := by
  obtain ⟨σ, hσ⟩ : ∃ σ, exec Entry.step .empty recoveryBeforeSample = some σ := ⟨_, rfl⟩
  exact ⟨σ, hσ, Entry.neverLost_of_reaches (reaches_of_exec hσ recoveryBeforeSample_apart)⟩

end Supervisor

end Koldstore
