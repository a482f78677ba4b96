import Koldstore.Supervisor.Maintenance

/-!
# Retrying a failed recovery

A pass that sees the recovery flag first recovers and then schedules. When it fails, the worker
marks its generation reconciled all the same and arms a deadline, at which the supervisor publishes
a scheduling request. Whether that request's pass recovers again depends on the flag, which the mark
has cleared unless another publication came in between.
-/

namespace Koldstore.Supervisor

open Machine

namespace Entry

/-- A failed recovery is overtaken: when its pass tests the generation, a publication has moved it
on. No bump wraps the generation. -/
def Overtaken (σ : Entry) : Event → Prop
  | .bump _ => σ.generation + 1 < 2 ^ 64
  | .test => ∀ sample, σ.pass = .testing sample false → sample.seen .recovery = true →
      σ.generation ≠ sample.generation
  | _ => True

/-- An owed recovery keeps its flag, a pass that takes its sample sees it, and between passes
`maintenance_due` holds, so that the supervisor starts one. A pass that has failed arms the deadline
of its retry, at most one cadence ahead. -/
structure RecoveryPending (σ : Entry) : Prop where
  flag : σ.owed = true → σ.flags .recovery = true
  seen : σ.owed = true → ∀ τ, σ.step .sampleFlags = some τ →
    ∃ sample, τ.pass = .acting sample ∧ sample.seen .recovery = true
  due : σ.owed = true → σ.pass = .idle → σ.generation ≠ σ.processedGeneration
  armed : ∀ sample dropped nowMs cadenceMs τ, σ.pass = .reconciled sample false dropped →
    σ.step (.finish nowMs cadenceMs) = some τ →
      0 < τ.nextDueAtMs ∧ τ.nextDueAtMs ≤ nowMs + max cadenceMs 1000

/-- What an owed recovery says of the pass. Only between a failed pass's mark and its test may the
owed recovery not be due. -/
def OwedInv (processed generation : ℕ) : Pass → Prop
  | .acting sample => sample.seen .recovery = true ∧ processed < generation
  | .marking sample ok | .testing sample ok => sample.seen .recovery = true ∧ ok = false
  | .clearing _ _ | .retesting _ _ _ | .restoring _ _ _ => False
  | _ => processed < generation

/-- A sample is not older than what has been processed. -/
def SampleInv (processed generation : ℕ) : Pass → Prop
  | .sampling sampled => processed ≤ sampled ∧ sampled ≤ generation
  | .acting sample | .marking sample _ | .testing sample _ =>
    processed ≤ sample.generation ∧ sample.generation ≤ generation
  | _ => True

structure RetryInv (σ : Entry) : Prop where
  flag : σ.owed = true → σ.flags .recovery = true
  pass : σ.owed = true → OwedInv σ.processedGeneration σ.generation σ.pass
  acting : ∀ sample, σ.pass = .acting sample → sample.seen .recovery = true →
    σ.flags .recovery = true
  processed : σ.processedGeneration ≤ σ.generation
  sample : SampleInv σ.processedGeneration σ.generation σ.pass

variable {σ τ : Entry} {processed generation : ℕ} {pass : Pass}

theorem retryInv_empty : RetryInv .empty where
  flag howed := by cases howed
  pass howed := by cases howed
  acting sample hpass := by cases hpass
  processed := Nat.le_refl 0
  sample := trivial

theorem OwedInv.bump (h : OwedInv processed generation pass) :
    OwedInv processed (generation + 1) pass := by
  cases pass with
  | acting sample => exact ⟨h.1, Nat.lt_succ_of_lt h.2⟩
  | idle | sampling | reconciled => exact Nat.lt_succ_of_lt h
  | _ => exact h

theorem SampleInv.bump (h : SampleInv processed generation pass) :
    SampleInv processed (generation + 1) pass := by
  cases pass with
  | sampling | acting | marking | testing => exact ⟨h.1, Nat.le_succ_of_le h.2⟩
  | _ => trivial

theorem armed_of_finish {sample : Sample} {dropped : Flags} {nowMs cadenceMs : ℕ}
    (hp : σ.pass = .reconciled sample false dropped)
    (hstep : σ.step (.finish nowMs cadenceMs) = some τ) :
    0 < τ.nextDueAtMs ∧ τ.nextDueAtMs ≤ nowMs + max cadenceMs 1000 := by
  rw [Entry.step, hp] at hstep
  obtain rfl := Option.some.inj hstep
  have hpos : 0 < nowMs + max cadenceMs 1000 := by omega
  simp only [Bool.false_eq_true, if_false, scheduleMaintenanceAtMs, if_neg hpos.ne',
    atomicMinNonzero]
  split_ifs with hcur
  · exact hcur
  · exact ⟨hpos, le_rfl⟩

variable (h : σ.RetryInv)
include h

theorem RetryInv.recoveryPending : σ.RecoveryPending where
  flag := h.flag
  seen how τ hstep := by
    have hup := h.flag how
    obtain ⟨generation, -, ⟨-, rfl⟩ | ⟨hnone, -⟩⟩ := step_sampleFlags hstep
    · exact ⟨⟨generation, σ.flags⟩, rfl, hup⟩
    · rw [hup] at hnone
      cases hnone
  due how hidle := by
    have hdue := h.pass how
    rw [hidle] at hdue
    exact (show σ.processedGeneration < σ.generation from hdue).ne'
  armed _ _ _ _ _ hp hstep := armed_of_finish hp hstep

theorem RetryInv.owedInv (hpa : σ.pass = pass) (how : σ.owed = true) :
    OwedInv σ.processedGeneration σ.generation pass :=
  hpa ▸ h.pass how

theorem RetryInv.sampleInv (hpa : σ.pass = pass) :
    SampleInv σ.processedGeneration σ.generation pass :=
  hpa ▸ h.sample

/-- A step that moves the pass alone. -/
theorem RetryInv.withPass (hτ : τ.pass = pass) (hf : τ.flags = σ.flags) (how : τ.owed = σ.owed)
    (hg : τ.generation = σ.generation) (hpr : τ.processedGeneration = σ.processedGeneration)
    (hpa : σ.owed = true → OwedInv σ.processedGeneration σ.generation pass)
    (hsa : SampleInv σ.processedGeneration σ.generation pass)
    (ha : ∀ sample, pass ≠ .acting sample) : τ.RetryInv where
  flag := hf ▸ how ▸ h.flag
  pass := by rwa [hτ, how, hg, hpr]
  acting sample hp := absurd (hτ.symm.trans hp) (ha sample)
  processed := hg ▸ hpr ▸ h.processed
  sample := by rwa [hτ, hg, hpr]

theorem RetryInv.bump {kind : Request} (hov : σ.Overtaken (.bump kind))
    (hstep : σ.step (.bump kind) = some τ) : τ.RetryInv := by
  cases hstep
  rw [nextGeneration_eq hov]
  exact ⟨h.flag, fun how ↦ (h.pass how).bump, h.acting, Nat.le_succ_of_le h.processed,
    h.sample.bump⟩

theorem RetryInv.act {ok : Bool} {nowMs cadenceMs : ℕ} {nextDueAtMs : Option ℕ}
    (hstep : σ.step (.act ok nowMs cadenceMs nextDueAtMs) = some τ) : τ.RetryInv := by
  obtain ⟨sample, dueAtMs, hp, rfl⟩ := step_act hstep
  -- a recovery that is owed afterwards was seen, and this pass has failed
  have how : (if sample.seen .recovery then !ok else σ.owed) = true →
      sample.seen .recovery = true ∧ ok = false := by
    intro how
    split_ifs at how with hsn
    · exact ⟨hsn, by simpa using how⟩
    · exact absurd (h.owedInv hp how).1 hsn
  have hsample := h.sampleInv hp
  exact ⟨fun hτ ↦ h.acting sample hp (how hτ).1, how, nofun, h.processed, hsample⟩

theorem RetryInv.mark (hstep : σ.step .mark = some τ) : τ.RetryInv := by
  obtain ⟨sample, ok, hp, rfl⟩ := step_mark hstep
  obtain ⟨hle, hge⟩ := h.sampleInv hp
  exact ⟨h.flag, fun how ↦ h.owedInv hp how, nofun, Nat.max_le.2 ⟨h.processed, hge⟩,
    Nat.max_le.2 ⟨hle, Nat.le_refl _⟩, hge⟩

theorem RetryInv.test (hov : σ.Overtaken .test) (hstep : σ.step .test = some τ) : τ.RetryInv := by
  obtain ⟨sample, ok, hp, ⟨hsm, rfl⟩ | ⟨hsm, rfl⟩⟩ := step_test hstep
  · refine h.withPass rfl rfl rfl rfl rfl (fun how ↦ ?_) trivial (by simp)
    obtain ⟨hsn, rfl⟩ := h.owedInv hp how
    exact absurd hsm (hov sample hp hsn)
  · refine h.withPass rfl rfl rfl rfl rfl (fun _ ↦ ?_) trivial (by simp)
    obtain ⟨hle, hge⟩ := h.sampleInv hp
    exact Nat.lt_of_le_of_lt hle (Nat.lt_of_le_of_ne hge (Ne.symm hsm))

theorem RetryInv.sampleFlags (hstep : σ.step .sampleFlags = some τ) : τ.RetryInv := by
  obtain ⟨generation, hp, hstep⟩ := step_sampleFlags hstep
  have hdue := h.owedInv hp
  have hsample := h.sampleInv hp
  rcases hstep with ⟨-, rfl⟩ | ⟨-, rfl⟩
  · refine ⟨h.flag, fun how ↦ ⟨h.flag how, hdue how⟩, fun sample hpa hsn ↦ ?_, h.processed, hsample⟩
    cases hpa
    exact hsn
  · exact h.withPass rfl rfl rfl rfl rfl hdue trivial (by simp)

theorem RetryInv.step {e : Event} (hov : σ.Overtaken e) (hstep : σ.step e = some τ) :
    τ.RetryInv := by
  cases e with
  | bump kind => exact h.bump hov hstep
  | raise p =>
    rw [Entry.step] at hstep
    split_ifs at hstep
    cases hstep
    exact ⟨fun how ↦ update_flags_of_up (h.flag how), h.pass,
      fun sample hp hsn ↦ update_flags_of_up (h.acting sample hp hsn), h.processed, h.sample⟩
  | sampleGeneration =>
    obtain ⟨hp, rfl⟩ := step_sampleGeneration hstep
    have hdue := h.owedInv hp
    exact h.withPass rfl rfl rfl rfl rfl hdue ⟨h.processed, Nat.le_refl _⟩ (by simp)
  | sampleFlags => exact h.sampleFlags hstep
  | act ok nowMs cadenceMs nextDueAtMs => exact h.act hstep
  | mark => exact h.mark hstep
  | test => exact h.test hov hstep
  | clear =>
    obtain ⟨sample, ok, hp, rfl⟩ := step_clear hstep
    exact ⟨fun how ↦ (h.owedInv hp how).elim, fun how ↦ (h.owedInv hp how).elim, by simp,
      h.processed, trivial⟩
  | retest =>
    obtain ⟨sample, ok, dropped, hp, ⟨-, rfl⟩ | ⟨-, rfl⟩⟩ := step_retest hstep <;>
      exact h.withPass rfl rfl rfl rfl rfl (fun how ↦ (h.owedInv hp how).elim) trivial (by simp)
  | restore =>
    obtain ⟨sample, ok, dropped, hp, rfl⟩ := step_restore hstep
    exact ⟨fun how ↦ (h.owedInv hp how).elim, fun how ↦ (h.owedInv hp how).elim, by simp,
      h.processed, trivial⟩
  | finish nowMs cadenceMs =>
    obtain ⟨sample, ok, dropped, dueAtMs, hp, rfl⟩ := step_finish hstep
    have hdue := h.owedInv hp
    exact h.withPass rfl rfl rfl rfl rfl hdue trivial (by simp)
  | consumeDeadline nowMs =>
    rw [Entry.step] at hstep
    split_ifs at hstep
    cases hstep
    exact ⟨h.flag, h.pass, h.acting, h.processed, h.sample⟩

omit h

/-- **In every run whose failed recoveries are all overtaken by another publication, an owed
recovery stays pending**: its flag stays up, another pass is due, and that pass sees the flag. -/
theorem recoveryPending_of_reaches (hrun : Reaches Entry.step Overtaken .empty σ) :
    σ.RecoveryPending :=
  (hrun.inv retryInv_empty fun _ _ _ h hov hstep ↦ h.step hov hstep).recoveryPending

end Entry

/-! ### A failed recovery that is not retried -/

def failingRecovery : List Event :=
  [.bump .recovery, .raise ⟨.recovery, 1⟩, .sampleGeneration, .sampleFlags, .act false 0 60000 none]

def retryAtDeadline : List Event :=
  [.mark, .test, .clear, .retest, .finish 0 60000, .consumeDeadline 60000, .bump .schedule,
    .raise ⟨.schedule, 2⟩, .sampleGeneration, .sampleFlags]

theorem failed_recovery_not_retried :
    ∃ σ sample, exec Entry.step .empty (failingRecovery ++ retryAtDeadline) = some σ ∧
      σ.owed = true ∧ σ.pass = .acting sample ∧ sample.seen .recovery = false ∧
      ¬σ.RecoveryPending :=
  ⟨_, ⟨2, _⟩, rfl, rfl, rfl, rfl, fun h ↦ absurd (h.flag rfl) Bool.false_ne_true⟩

/-- The failing pass is overtaken by a scheduling request, arms its retry and ends; the request's
pass has loaded the generation. -/
def overtakenRecovery : List Event :=
  failingRecovery ++ [.bump .schedule, .mark, .test, .finish 0 60000, .raise ⟨.schedule, 2⟩,
    .sampleGeneration]

theorem overtakenRecovery_overtaken :
    MeetsAll Entry.step Entry.Overtaken .empty overtakenRecovery := by
  refine ⟨show 0 + 1 < 2 ^ 64 by norm_num, trivial, trivial, trivial, trivial,
    show 1 + 1 < 2 ^ 64 by norm_num, trivial, fun sample hp _ ↦ ?_, trivial, trivial, trivial,
    trivial⟩
  cases hp
  decide

/-- The second pass sees the recovery flag, and the deadline of the retry is armed besides. -/
theorem recoveryPending_of_reaches_overtaken :
    ∃ σ τ sample, exec Entry.step .empty overtakenRecovery = some σ ∧ σ.owed = true ∧
      σ.nextDueAtMs = 60000 ∧ σ.RecoveryPending ∧ σ.step .sampleFlags = some τ ∧
      τ.pass = .acting sample ∧ sample.seen .recovery = true := by
  obtain ⟨σ, τ, hσ, how, hdue, hτ⟩ : ∃ σ τ, exec Entry.step .empty overtakenRecovery = some σ ∧
      σ.owed = true ∧ σ.nextDueAtMs = 60000 ∧ σ.step .sampleFlags = some τ :=
    ⟨_, _, rfl, rfl, rfl, rfl⟩
  have hpending := Entry.recoveryPending_of_reaches
    (reaches_of_exec hσ overtakenRecovery_overtaken)
  obtain ⟨sample, hp, hsn⟩ := hpending.seen how τ hτ
  exact ⟨σ, τ, sample, hσ, how, hdue, hpending, hτ, hp, hsn⟩

end Koldstore.Supervisor
