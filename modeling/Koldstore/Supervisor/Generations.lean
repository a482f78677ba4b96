import Koldstore.Basic.Runs

/-!
# Published and processed generations

A database entry has two **lanes** of work, the log and the flush queue.
-/

namespace Koldstore.Generations

open Function (update_apply)

open Machine Function

/-! ### The entry of a database -/

/-- The two lanes of work, with the flags `EVENT_WAL_DIRTY` and `EVENT_FLUSH_QUEUE_DIRTY`. -/
inductive Lane
  | wal | flush
  deriving DecidableEq, Repr

def generationModulus : ℕ := 2 ^ 64

structure Load where
  generation : ℕ
  published : ℕ
  deriving DecidableEq, Repr

/-- The published generations of a `DatabaseWorkSnapshot`. -/
structure Snapshot where
  wal : Load
  flush : Load
  deriving DecidableEq, Repr

def Snapshot.load (snapshot : Snapshot) : Lane → Load
  | .wal => snapshot.wal
  | .flush => snapshot.flush

inductive Marking
  | advancing (current : ℕ)
  | testing
  | clearing
  | retesting
  | restoring
  deriving DecidableEq, Repr

inductive Worker
  | idle
  | sampling (wal : Load)
  | holding (snapshot : Snapshot)
  | marking (snapshot : Snapshot) (lane : Lane) (stage : Marking)
  deriving DecidableEq, Repr

def Worker.Repairs (lane : Lane) : Worker → Prop
  | .marking _ marked .retesting | .marking _ marked .restoring => marked = lane
  | _ => False

/-- The lanes of a `DatabaseWorkEntry`. -/
structure Entry (W : Type*) where
  generation : Lane → ℕ
  processed : Lane → ℕ
  dirty : Lane → Bool
  publishing : Lane → ℕ
  worker : W → Worker
  published : Lane → ℕ
  covered : Lane → ℕ

namespace Entry

variable {W : Type*}

/-- `DatabaseWorkEntry::empty`. -/
def empty : Entry W where
  generation := fun _ ↦ 0
  processed := fun _ ↦ 0
  dirty := fun _ ↦ false
  publishing := fun _ ↦ 0
  worker := fun _ ↦ .idle
  published := fun _ ↦ 0
  covered := fun _ ↦ 0

def load (σ : Entry W) (lane : Lane) : Load := ⟨σ.generation lane, σ.published lane⟩

/-- The loop of `atomic_max` with the processed generation it has seen last. -/
def atomicMaxSeen (current value : ℕ) : Marking :=
  if current < value then .advancing current else .testing

/-! ### Steps -/

end Entry

inductive Event (W : Type*)
  | bump (lane : Lane)
  | raise (lane : Lane)
  | sampleWal (w : W)
  | sampleFlush (w : W)
  | discard (w : W)
  | mark (w : W) (lane : Lane)
  | exchange (w : W) (spurious : Bool)
  | test (w : W)
  | clear (w : W)
  | retest (w : W)
  | restore (w : W)
  deriving DecidableEq, Repr

namespace Entry

variable {W : Type*} [DecidableEq W]

/-- The entry after worker `w` has moved. -/
def move (σ : Entry W) (w : W) (worker : Worker) : Entry W :=
  { σ with worker := update σ.worker w worker }

def step (σ : Entry W) : Event W → Option (Entry W)
  | .bump lane =>
    some { σ with
      generation := update σ.generation lane
        ((σ.generation lane + 1) % generationModulus)
      publishing := update σ.publishing lane (σ.publishing lane + 1)
      published := update σ.published lane (σ.published lane + 1) }
  | .raise lane =>
    if 0 < σ.publishing lane then
      some { σ with
        dirty := update σ.dirty lane true
        publishing := update σ.publishing lane (σ.publishing lane - 1) }
    else none
  | .sampleWal w =>
    match σ.worker w with
    | .idle => some (σ.move w (.sampling (σ.load .wal)))
    | _ => none
  | .sampleFlush w =>
    match σ.worker w with
    | .sampling wal => some (σ.move w (.holding ⟨wal, σ.load .flush⟩))
    | _ => none
  | .discard w =>
    match σ.worker w with
    | .holding _ => some (σ.move w .idle)
    | _ => none
  | .mark w lane =>
    match σ.worker w with
    | .holding snapshot =>
      some { σ.move w (.marking snapshot lane
          (atomicMaxSeen (σ.processed lane) (snapshot.load lane).generation)) with
        covered := update σ.covered lane
          (max (σ.covered lane) (snapshot.load lane).published) }
    | _ => none
  | .exchange w spurious =>
    match σ.worker w with
    | .marking snapshot lane (.advancing current) =>
      if σ.processed lane = current ∧ spurious = false then
        some { σ.move w (.marking snapshot lane .testing) with
          processed := update σ.processed lane (snapshot.load lane).generation }
      else
        some (σ.move w (.marking snapshot lane
          (atomicMaxSeen (σ.processed lane) (snapshot.load lane).generation)))
    | _ => none
  | .test w =>
    match σ.worker w with
    | .marking snapshot lane .testing =>
      if σ.generation lane ≠ (snapshot.load lane).generation then
        some (σ.move w (.holding snapshot))
      else some (σ.move w (.marking snapshot lane .clearing))
    | _ => none
  | .clear w =>
    match σ.worker w with
    | .marking snapshot lane .clearing =>
      some { σ.move w (.marking snapshot lane .retesting) with
        dirty := update σ.dirty lane false }
    | _ => none
  | .retest w =>
    match σ.worker w with
    | .marking snapshot lane .retesting =>
      if σ.generation lane ≠ (snapshot.load lane).generation then
        some (σ.move w (.marking snapshot lane .restoring))
      else some (σ.move w (.holding snapshot))
    | _ => none
  | .restore w =>
    match σ.worker w with
    | .marking snapshot lane .restoring =>
      some { σ.move w (.holding snapshot) with dirty := update σ.dirty lane true }
    | _ => none

/-! ### What holds in every run without a wrap -/

def NoWrap (σ : Entry W) : Event W → Prop
  | .bump lane => σ.generation lane + 1 < generationModulus
  | _ => True

end Entry

def Snapshot.Counts (snapshot : Snapshot) : Prop :=
  ∀ lane, (snapshot.load lane).generation = (snapshot.load lane).published

/-- What a worker knows. -/
def Worker.Sound (covered : Lane → ℕ) : Worker → Prop
  | .idle => True
  | .sampling wal => wal.generation = wal.published
  | .holding snapshot => snapshot.Counts
  | .marking snapshot lane stage => snapshot.Counts ∧
      (snapshot.load lane).published ≤ covered lane ∧
      ∀ current, stage = .advancing current → current < (snapshot.load lane).generation

namespace Entry

variable {W : Type*}

structure Inv (σ : Entry W) : Prop where
  generation : ∀ lane, σ.generation lane = σ.published lane
  processed : ∀ lane, σ.processed lane ≤ σ.covered lane
  worker : ∀ w, (σ.worker w).Sound σ.covered
  visible : ∀ lane, σ.covered lane < σ.published lane →
    σ.dirty lane = true ∨ 0 < σ.publishing lane ∨ ∃ w, (σ.worker w).Repairs lane

variable {σ τ : Entry W} {w : W}

theorem inv_empty : Inv (empty : Entry W) where
  generation := fun _ ↦ rfl
  processed := fun _ ↦ Nat.le_refl _
  worker := fun _ ↦ trivial
  visible := fun _ h ↦ absurd h (Nat.lt_irrefl _)

variable {worker : Worker}

theorem Inv.sound (h : Inv σ) (hw : σ.worker w = worker) : worker.Sound σ.covered := hw ▸ h.worker w

variable {lane : Lane}

theorem Inv.bump (h : Inv σ) (hwrap : σ.generation lane + 1 < generationModulus) :
    Inv { σ with
      generation := update σ.generation lane
        ((σ.generation lane + 1) % generationModulus)
      publishing := update σ.publishing lane (σ.publishing lane + 1)
      published := update σ.published lane (σ.published lane + 1) } where
  generation := by
    intro other
    simp only [update_apply, Nat.mod_eq_of_lt hwrap]
    split
    · rw [h.generation lane]
    · exact h.generation other
  processed := h.processed
  worker := h.worker
  visible := by
    intro other ho
    simp only [update_apply] at ho ⊢
    split_ifs at ho ⊢ with heq
    · exact .inr (.inl (Nat.succ_pos _))
    · exact h.visible other ho

theorem Inv.raise (h : Inv σ) (lane : Lane) (count : ℕ) : Inv { σ with
      dirty := update σ.dirty lane true
      publishing := update σ.publishing lane count } where
  generation := h.generation
  processed := h.processed
  worker := h.worker
  visible := by
    intro other ho
    simp only [update_apply]
    split_ifs
    · exact .inl rfl
    · exact h.visible other ho

theorem Worker.Sound.mono {covered covered' : Lane → ℕ} (h : worker.Sound covered)
    (hle : ∀ lane, covered lane ≤ covered' lane) : worker.Sound covered' := by
  cases worker with
  | idle => trivial
  | sampling => exact h
  | holding => exact h
  | marking snapshot lane stage => exact ⟨h.1, Nat.le_trans h.2.1 (hle lane), h.2.2⟩

theorem Inv.cover (h : Inv σ) (lane : Lane) (count : ℕ) : Inv { σ with
      covered := update σ.covered lane (max (σ.covered lane) count) } := by
  have hle : ∀ other, σ.covered other ≤
      update σ.covered lane (max (σ.covered lane) count) other := by
    intro other
    rw [update_apply]
    split_ifs with heq
    · exact heq ▸ Nat.le_max_left _ _
    · exact Nat.le_refl _
  exact
    { generation := h.generation
      processed := fun other ↦ Nat.le_trans (h.processed other) (hle other)
      worker := fun w ↦ Worker.Sound.mono (h.worker w) hle
      visible := fun other ho ↦ h.visible other (Nat.lt_of_le_of_lt (hle other) ho) }

theorem Inv.advance (h : Inv σ) {value : ℕ} (hv : value ≤ σ.covered lane) :
    Inv { σ with processed := update σ.processed lane value } where
  generation := h.generation
  processed := (forall_update_iff σ.processed fun other n ↦ n ≤ σ.covered other).2
    ⟨hv, fun other _ ↦ h.processed other⟩
  worker := h.worker
  visible := h.visible

theorem Inv.lower (h : Inv σ) (hr : (σ.worker w).Repairs lane) :
    Inv { σ with dirty := update σ.dirty lane false } where
  generation := h.generation
  processed := h.processed
  worker := h.worker
  visible := by
    intro other ho
    by_cases heq : other = lane
    · exact .inr (.inr ⟨w, heq ▸ hr⟩)
    · simpa [heq] using h.visible other ho

variable [DecidableEq W]

theorem Inv.move (h : Inv σ) (hsd : worker.Sound σ.covered)
    (hr : ∀ lane, (σ.worker w).Repairs lane → σ.covered lane < σ.published lane →
      σ.dirty lane = true ∨ worker.Repairs lane) : Inv (σ.move w worker) where
  generation := h.generation
  processed := h.processed
  worker := (forall_update_iff σ.worker fun _ worker ↦ worker.Sound σ.covered).2
    ⟨hsd, fun other _ ↦ h.worker other⟩
  visible := by
    intro lane hlane
    rcases h.visible lane hlane with hdirty | hp | ⟨other, ho⟩
    · exact .inl hdirty
    · exact .inr (.inl hp)
    · by_cases heq : other = w
      · subst heq
        refine (hr lane ho hlane).imp_right fun hwk ↦ .inr ⟨other, ?_⟩
        simpa [Entry.move] using hwk
      · refine .inr (.inr ⟨other, ?_⟩)
        simpa [Entry.move, heq] using ho

theorem Inv.move_of_not_repairs (h : Inv σ) (hsd : worker.Sound σ.covered)
    (hn : ∀ lane, ¬(σ.worker w).Repairs lane) : Inv (σ.move w worker) :=
  h.move hsd fun lane hr ↦ absurd hr (hn lane)

theorem atomicMaxSeen_eq_advancing {seen value current : ℕ}
    (h : atomicMaxSeen seen value = .advancing current) : current < value := by
  rw [atomicMaxSeen] at h
  split_ifs at h with hlt
  cases h
  exact hlt

theorem Inv.step_sampleWal (h : Inv σ) (hstep : σ.step (.sampleWal w) = some τ) : Inv τ := by
  simp only [step] at hstep
  split at hstep
  next hw =>
    cases hstep
    exact h.move_of_not_repairs (h.generation .wal) (by simp [hw, Worker.Repairs])
  next => cases hstep

theorem Inv.step_sampleFlush (h : Inv σ) (hstep : σ.step (.sampleFlush w) = some τ) : Inv τ := by
  simp only [step] at hstep
  split at hstep
  next wal hw =>
    cases hstep
    have hwal : wal.generation = wal.published := h.sound hw
    refine h.move_of_not_repairs (fun lane ↦ ?_) (by simp [hw, Worker.Repairs])
    cases lane with
    | wal => exact hwal
    | flush => exact h.generation .flush
  next => cases hstep

theorem Inv.step_mark (h : Inv σ) (hstep : σ.step (.mark w lane) = some τ) : Inv τ := by
  simp only [step] at hstep
  split at hstep
  next snapshot hw =>
    cases hstep
    have hcs : snapshot.Counts := h.sound hw
    refine (h.cover lane (snapshot.load lane).published).move_of_not_repairs (w := w)
      ⟨hcs, ?_, fun current ↦ atomicMaxSeen_eq_advancing⟩ (by simp [hw, Worker.Repairs])
    simp
  next => cases hstep

theorem Inv.step_exchange (h : Inv σ) {spurious : Bool}
    (hstep : σ.step (.exchange w spurious) = some τ) : Inv τ := by
  simp only [step] at hstep
  split at hstep
  next snapshot lane current hw =>
    obtain ⟨hcs, hc, -⟩ := h.sound hw
    have hn : ∀ other, ¬(σ.worker w).Repairs other := by simp [hw, Worker.Repairs]
    split_ifs at hstep with hfnd
    · cases hstep
      have hv : (snapshot.load lane).generation ≤ σ.covered lane :=
        Nat.le_trans (Nat.le_of_eq (hcs lane)) hc
      exact (h.advance hv).move_of_not_repairs (w := w)
        ⟨hcs, hc, nofun⟩ hn
    · cases hstep
      exact h.move_of_not_repairs
        ⟨hcs, hc, fun current ↦ atomicMaxSeen_eq_advancing⟩ hn
  next => cases hstep

theorem Inv.step_test (h : Inv σ) (hstep : σ.step (.test w) = some τ) : Inv τ := by
  simp only [step] at hstep
  split at hstep
  next snapshot lane hw =>
    obtain ⟨hcs, hc, -⟩ := h.sound hw
    have hn : ∀ other, ¬(σ.worker w).Repairs other := by simp [hw, Worker.Repairs]
    split_ifs at hstep
    · cases hstep
      exact h.move_of_not_repairs hcs hn
    · cases hstep
      exact h.move_of_not_repairs ⟨hcs, hc, nofun⟩ hn
  next => cases hstep

theorem Inv.step_clear (h : Inv σ) (hstep : σ.step (.clear w) = some τ) : Inv τ := by
  simp only [step] at hstep
  split at hstep
  next snapshot lane hw =>
    cases hstep
    obtain ⟨hcs, hc, -⟩ := h.sound hw
    have hmv : Inv (σ.move w (.marking snapshot lane .retesting)) :=
      h.move_of_not_repairs ⟨hcs, hc, nofun⟩
        (by simp [hw, Worker.Repairs])
    exact hmv.lower (w := w) (by simp [Entry.move, Worker.Repairs])
  next => cases hstep

theorem Inv.step_retest (h : Inv σ) (hstep : σ.step (.retest w) = some τ) : Inv τ := by
  simp only [step] at hstep
  split at hstep
  next snapshot lane hw =>
    obtain ⟨hcs, hc, -⟩ := h.sound hw
    split_ifs at hstep with hsm
    · cases hstep
      refine h.move ⟨hcs, hc, nofun⟩ fun other hr _ ↦ ?_
      rw [hw] at hr
      exact .inr hr
    · cases hstep
      -- a publication that is not covered has moved the generation on
      refine h.move hcs fun other hr hnw ↦ absurd (not_not.1 hsm) ?_
      rw [hw] at hr
      cases hr
      rw [h.generation lane, hcs lane]
      omega
  next => cases hstep

theorem Inv.step_restore (h : Inv σ) (hstep : σ.step (.restore w) = some τ) : Inv τ := by
  simp only [step] at hstep
  split at hstep
  next snapshot lane hw =>
    cases hstep
    obtain ⟨hcs, -⟩ := h.sound hw
    have hraised : Inv { σ with dirty := update σ.dirty lane true } := by
      simpa using h.raise lane (σ.publishing lane)
    refine hraised.move (w := w) hcs fun other hr _ ↦ .inl ?_
    simp only [hw, Worker.Repairs] at hr
    simp [hr]
  next => cases hstep

theorem inv_step (h : Inv σ) {e : Event W} (hwrap : σ.NoWrap e) (hstep : σ.step e = some τ) :
    Inv τ := by
  cases e with
  | bump lane =>
    cases hstep
    exact h.bump hwrap
  | raise lane =>
    simp only [step, Option.ite_none_right_eq_some] at hstep
    obtain ⟨-, ⟨⟩⟩ := hstep
    exact h.raise lane _
  | sampleWal _ => exact h.step_sampleWal hstep
  | sampleFlush _ => exact h.step_sampleFlush hstep
  | discard w =>
    simp only [step] at hstep
    split at hstep
    next snapshot hw =>
      cases hstep
      exact h.move_of_not_repairs trivial (by simp [hw, Worker.Repairs])
    next => cases hstep
  | mark _ _ => exact h.step_mark hstep
  | exchange _ _ => exact h.step_exchange hstep
  | test _ => exact h.step_test hstep
  | clear _ => exact h.step_clear hstep
  | retest _ => exact h.step_retest hstep
  | restore _ => exact h.step_restore hstep

/-! ### Whole runs -/

def Grows (σ τ : Entry W) : Prop :=
  ∀ lane, σ.generation lane ≤ τ.generation lane ∧ σ.processed lane ≤ τ.processed lane

theorem grows_step (h : Inv σ) {e : Event W} (hwrap : σ.NoWrap e) (hstep : σ.step e = some τ) :
    σ.Grows τ := by
  intro other
  cases e with
  | bump lane =>
    cases hstep
    refine ⟨?_, Nat.le_refl _⟩
    simp only [update_apply, Nat.mod_eq_of_lt hwrap]
    split_ifs with heq
    · exact heq ▸ Nat.le_succ _
    · exact Nat.le_refl _
  | exchange w spurious =>
    simp only [step] at hstep
    split at hstep
    next snapshot lane current hw =>
      obtain ⟨-, -, hup⟩ := h.sound hw
      split_ifs at hstep with hfnd
      · cases hstep
        refine ⟨Nat.le_refl _, ?_⟩
        simp only [update_apply]
        split_ifs with heq
        · have hlt := hup current rfl
          rw [heq, hfnd.1]
          exact Nat.le_of_lt hlt
        · exact Nat.le_refl _
      · cases hstep
        exact ⟨Nat.le_refl _, Nat.le_refl _⟩
    next => cases hstep
  | _ =>
    -- no other step writes a counter
    simp only [step] at hstep
    split at hstep <;> try split at hstep
    all_goals cases hstep
    all_goals exact ⟨Nat.le_refl _, Nat.le_refl _⟩

def Settled (σ : Entry W) (lane : Lane) : Prop :=
  σ.publishing lane = 0 ∧ ∀ w, ¬(σ.worker w).Repairs lane

/-- **Work published after the marked snapshots stays due.** -/
theorem staysDue_of_reaches {σ τ : Entry W} (hσ : Reaches step NoWrap empty σ)
    (hτ : Reaches step NoWrap σ τ) :
    σ.Grows τ ∧ ∀ lane, τ.covered lane < τ.published lane →
      τ.processed lane < τ.generation lane ∧ (τ.Settled lane → τ.dirty lane = true) := by
  have hi : Inv σ := hσ.inv inv_empty fun _ _ _ h hwrap hstep ↦ inv_step h hwrap hstep
  obtain ⟨hτ, hgr⟩ : Inv τ ∧ σ.Grows τ := by
    refine hτ.inv (P := fun υ ↦ Inv υ ∧ σ.Grows υ)
      ⟨hi, fun _ ↦ ⟨Nat.le_refl _, Nat.le_refl _⟩⟩ ?_
    intro υ e υ' ⟨hυ, hgr⟩ hwrap hstep
    have hl := grows_step hυ hwrap hstep
    exact ⟨inv_step hυ hwrap hstep, fun lane ↦
      ⟨Nat.le_trans (hgr lane).1 (hl lane).1, Nat.le_trans (hgr lane).2 (hl lane).2⟩⟩
  refine ⟨hgr, fun lane hnw ↦ ⟨?_, fun hs ↦ ?_⟩⟩
  · rw [hτ.generation lane]
    exact Nat.lt_of_le_of_lt (hτ.processed lane) hnw
  · rcases hτ.visible lane hnw with hdirty | hp | ⟨w, hw⟩
    · exact hdirty
    · rw [hs.1] at hp
      exact absurd hp (Nat.lt_irrefl 0)
    · exact absurd hw (hs.2 w)

def untilTested : List (Event Unit) :=
  [.bump .wal, .raise .wal, .sampleWal (), .sampleFlush (), .mark () .wal, .exchange () true,
    .exchange () false, .test ()]

def overtaken : List (Event Unit) := [.bump .wal, .raise .wal, .clear (), .retest (), .restore ()]

theorem staysDue_of_reaches_overtaken : ∃ σ τ : Entry Unit, exec step empty untilTested = some σ ∧
    exec step σ overtaken = some τ ∧ τ.Settled .wal ∧ τ.processed .wal < τ.generation .wal ∧
      τ.dirty .wal = true := by
  obtain ⟨σ, τ, hσ, hτ, hf, hsnd, hnw, hp, hwk⟩ :
      ∃ σ τ : Entry Unit, exec step empty untilTested = some σ ∧ exec step σ overtaken = some τ ∧
        MeetsAll step NoWrap empty untilTested ∧ MeetsAll step NoWrap σ overtaken ∧
        τ.covered .wal < τ.published .wal ∧ τ.publishing .wal = 0 ∧
        τ.worker () = .holding ⟨⟨1, 1⟩, ⟨0, 0⟩⟩ := by
    have hrm : 0 + 1 < generationModulus ∧ 1 + 1 < generationModulus := by decide
    exact ⟨_, _, rfl, rfl, ⟨hrm.1, trivial, trivial, trivial, trivial, trivial, trivial, trivial,
      trivial⟩, ⟨hrm.2, trivial, trivial, trivial, trivial, trivial⟩, by decide, rfl, rfl⟩
  have hs : τ.Settled .wal := ⟨hp, fun w ↦ by simp [hwk, Worker.Repairs]⟩
  have hdue := (staysDue_of_reaches (reaches_of_exec hσ hf) (reaches_of_exec hτ hsnd)).2
    .wal hnw
  exact ⟨σ, τ, hσ, hτ, hs, hdue.1, hdue.2 hs⟩

/-! ### The end of the counter -/

theorem reaches_generation (n : ℕ) : ∃ σ : Entry Unit,
    Reaches step (fun _ _ ↦ True) empty σ ∧ σ.generation .wal = n % generationModulus := by
  induction n with
  | zero => exact ⟨empty, .refl, (Nat.zero_mod _).symm⟩
  | succ n ih =>
    obtain ⟨σ, hσ, hg⟩ := ih
    refine ⟨_, .tail hσ trivial (e := .bump .wal) rfl, ?_⟩
    simp [hg]

theorem generation_wraps : ∃ σ τ : Entry Unit, Reaches step (fun _ _ ↦ True) empty σ ∧
    Reaches step (fun _ _ ↦ True) σ τ ∧ σ.generation .wal = 2 ^ 64 - 1 ∧
      τ.generation .wal = 0 ∧ ¬σ.Grows τ := by
  obtain ⟨σ, hσ, hg⟩ := reaches_generation (2 ^ 64 - 1)
  have hl : σ.generation .wal = 2 ^ 64 - 1 := hg.trans (by decide)
  have hwrapped : (σ.generation .wal + 1) % generationModulus = 0 := by
    rw [hl]
    decide
  obtain ⟨τ, hstep, hz⟩ : ∃ τ, σ.step (.bump .wal) = some τ ∧ τ.generation .wal = 0 :=
    ⟨_, rfl, by simpa using hwrapped⟩
  refine ⟨σ, τ, hσ, .tail .refl trivial hstep, hl, hz, fun hgr ↦ ?_⟩
  have hle := (hgr .wal).1
  rw [hl, hz] at hle
  exact absurd hle (by decide)

end Entry

end Koldstore.Generations
