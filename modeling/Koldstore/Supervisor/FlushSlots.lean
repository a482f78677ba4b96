import Koldstore.Basic.Runs

/-!
# Flush slots of a database

The supervisor bounds how many flush workers of a database there are at a time.
-/

namespace Koldstore.FlushSlots

open Machine List

/-- The atomics are `u32`. -/
def counterModulus : ℕ := 2 ^ 32

/-- `u32::saturating_add`. -/
def saturatingAdd (a b : ℕ) : ℕ := min (a + b) (counterModulus - 1)

/-! ### The threads -/

/-- Where `take_one_if_positive` stands. -/
inductive Take
  | loading
  | exchanging (rest : ℕ)
  deriving DecidableEq, Repr

/-- What one access of `take_one_if_positive` leads to. -/
inductive Taken
  | pending (take : Take)
  | took
  | nothing
  deriving DecidableEq, Repr

def Take.saw : ℕ → Taken
  | 0 => .nothing
  | rest + 1 => .pending (.exchanging rest)

/-- The next access, to an atomic that holds `value`. -/
def Take.access (value : ℕ) (spurious : Bool) : Take → Taken
  | .loading => Take.saw value
  | .exchanging rest => if value = rest + 1 ∧ spurious = false then .took else Take.saw value

/-- Where `try_reserve_flush` stands. -/
inductive Reserver
  | idle
  | limited (limit : ℕ)
  | loadedStarting (limit starting : ℕ)
  | looping (limit : ℕ)
  | reloadedStarting (limit starting : ℕ)
  | exchanging (limit starting : ℕ)
  deriving DecidableEq, Repr

/-- Where a worker stands: in `flush_started`, running, or in `flush_stopped`. -/
inductive Worker
  | taking (take : Take)
  | rollingBack (take : Take)
  | refused
  | storing
  | running
  | stopping (take : Take)
  | stopped
  deriving DecidableEq, Repr

open Worker

def Worker.counted : Worker → Bool
  | .refused | .stopped => false
  | _ => true

def Worker.active : Worker → Bool
  | .storing | .running | .stopping _ => true
  | _ => false

def Worker.calling : Worker → Bool
  | .taking _ | .rollingBack _ | .storing | .stopping _ => true
  | _ => false

theorem Worker.counted_of_active {worker : Worker} (h : worker.active = true) :
    worker.counted = true := by
  cases worker <;> first | rfl | cases h

/-! ### The entry -/

structure Entry where
  flushLimit : ℕ
  flushStarting : ℕ
  flushRunning : ℕ
  reserver : Reserver
  workers : List Worker
  cancels : List (Option Take)
  granted : ℕ
  accepted : ℕ
  cancelled : ℕ
  deriving DecidableEq, Repr

namespace Entry

def initial (limit : UInt32) : Entry := ⟨max limit.toNat 1, 0, 0, .idle, [], [], 0, 0, 0⟩

variable (σ : Entry)

def outstanding : ℕ := σ.granted - σ.accepted - σ.cancelled

def activeWorkers : ℕ := σ.workers.countP active

structure Quiescent (σ : Entry) : Prop where
  reserver : σ.reserver = .idle
  workers : ∀ worker ∈ σ.workers, worker.calling = false
  cancels : ∀ cancel ∈ σ.cancels, cancel = none

inductive Event
  | reserve (spurious : Bool)
  | start
  | work (i : ℕ) (spurious : Bool)
  | stop (i : ℕ)
  | cancel
  | takeBack (i : ℕ) (spurious : Bool)
  deriving DecidableEq, Repr

def reserve (spurious : Bool) : Entry :=
  match σ.reserver with
  | .idle => { σ with reserver := .limited (max σ.flushLimit 1) }
  | .limited limit => { σ with reserver := .loadedStarting limit σ.flushStarting }
  | .loadedStarting limit starting =>
    if saturatingAdd starting σ.flushRunning < limit then { σ with reserver := .looping limit }
    else { σ with reserver := .idle }
  | .looping limit => { σ with reserver := .reloadedStarting limit σ.flushStarting }
  | .reloadedStarting limit starting =>
    if saturatingAdd starting σ.flushRunning < limit then
      { σ with reserver := .exchanging limit starting }
    else { σ with reserver := .idle }
  | .exchanging limit starting =>
    if σ.flushStarting = starting ∧ spurious = false then
      { σ with
        flushStarting := saturatingAdd starting 1
        granted := σ.granted + 1
        reserver := .idle }
    else { σ with reserver := .looping limit }

def become (i : ℕ) (worker : Worker) : Entry := { σ with workers := σ.workers.set i worker }

def work (limit : UInt32) (i : ℕ) (spurious : Bool) : Worker → Option Entry
  | .taking take =>
    match take.access σ.flushStarting spurious with
    | .pending take => some (σ.become i (.taking take))
    | .took =>
      some { σ.become i .storing with
        flushStarting := σ.flushStarting - 1
        accepted := σ.accepted + 1 }
    | .nothing => some (σ.become i (.rollingBack .loading))
  | .rollingBack take =>
    match take.access σ.flushRunning spurious with
    | .pending take => some (σ.become i (.rollingBack take))
    | .took => some { σ.become i .refused with flushRunning := σ.flushRunning - 1 }
    | .nothing => some (σ.become i .refused)
  | .storing => some { σ.become i .running with flushLimit := max limit.toNat 1 }
  | .stopping take =>
    match take.access σ.flushRunning spurious with
    | .pending take => some (σ.become i (.stopping take))
    | .took => some { σ.become i .stopped with flushRunning := σ.flushRunning - 1 }
    | .nothing => some (σ.become i .stopped)
  | .refused | .running | .stopped => none

def takeBack (i : ℕ) (spurious : Bool) (take : Take) : Entry :=
  match take.access σ.flushStarting spurious with
  | .pending take => { σ with cancels := σ.cancels.set i (some take) }
  | .took =>
    { σ with
      flushStarting := σ.flushStarting - 1
      cancelled := σ.cancelled + 1
      cancels := σ.cancels.set i none }
  | .nothing => { σ with cancels := σ.cancels.set i none }

def step (limit : UInt32) (σ : Entry) : Event → Option Entry
  | .reserve spurious => some (σ.reserve spurious)
  | .start =>
    some { σ with
      flushRunning := (σ.flushRunning + 1) % counterModulus
      workers := σ.workers ++ [.taking .loading] }
  | .work i spurious => (σ.workers[i]?).bind (σ.work limit i spurious)
  | .stop i =>
    if σ.workers[i]? = some .running then some (σ.become i (.stopping .loading)) else none
  | .cancel => some { σ with cancels := σ.cancels ++ [some .loading] }
  | .takeBack i spurious => (σ.cancels[i]?).join.map (σ.takeBack i spurious)

def NoWrap : Event → Prop
  | .start => σ.flushRunning + 1 < counterModulus
  | _ => True

end Entry

/-! ### What an access can do -/

variable {spurious : Bool} {take : Take}

theorem Take.access_eq_took {value : ℕ} (h : take.access value spurious = .took) : 0 < value := by
  cases take with
  | loading => cases value <;> cases h
  | exchanging rest =>
    rw [Take.access] at h
    split at h
    next hsm => omega
    next => cases value <;> cases h

theorem Take.access_zero (spurious : Bool) (take : Take) : take.access 0 spurious = .nothing := by
  cases take with
  | loading => rfl
  | exchanging rest =>
    rw [Take.access, if_neg fun h ↦ Nat.succ_ne_zero rest h.1.symm]
    rfl

theorem Take.access_eq_nothing {value : ℕ} (h : take.access value spurious = .nothing) :
    value = 0 := by
  cases value with
  | zero => rfl
  | succ rest =>
    cases take with
    | loading => cases h
    | exchanging _ =>
      rw [Take.access] at h
      split at h <;> cases h

section Count

variable {workers : List Worker} {i : ℕ} {worker : Worker}

theorem countP_become (p : Worker → Bool) (next : Worker) (h : workers[i]? = some worker) :
    (workers.set i next).countP p + (if p worker then 1 else 0) =
      workers.countP p + (if p next then 1 else 0) := by
  obtain ⟨hlt, hg⟩ := List.getElem?_eq_some_iff.1 h
  have hle := boole_getElem_le_countP (p := p) hlt
  rw [countP_set hlt]
  rw [hg] at hle ⊢
  omega

theorem countP_le_countP_counted (workers : List Worker) :
    workers.countP active ≤ workers.countP counted :=
  countP_mono_left fun _ _ h ↦ counted_of_active h

end Count

namespace Entry

variable {limit : UInt32} {σ τ : Entry}

def ReserverSound (limit : UInt32) (starting active : ℕ) : Reserver → Prop
  | .idle => True
  | .limited l | .loadedStarting l _ | .looping l => l = max limit.toNat 1
  | .reloadedStarting l s => l = max limit.toNat 1 ∧ starting ≤ s
  | .exchanging l s =>
    l = max limit.toNat 1 ∧ starting ≤ s ∧ (starting = s → s + active < max limit.toNat 1)

structure Inv (limit : UInt32) (σ : Entry) : Prop where
  limit_eq : max σ.flushLimit 1 = max limit.toNat 1
  starting_eq : σ.flushStarting + σ.accepted + σ.cancelled = σ.granted
  running_eq : σ.flushRunning = σ.workers.countP counted
  bound : σ.flushStarting + σ.activeWorkers ≤ max limit.toNat 1
  reserver : ReserverSound limit σ.flushStarting σ.activeWorkers σ.reserver

theorem inv_initial (limit : UInt32) : Inv limit (initial limit) where
  limit_eq := by simp [initial]
  starting_eq := rfl
  running_eq := rfl
  bound := Nat.zero_le _
  reserver := trivial

theorem max_limit_lt (limit : UInt32) : max limit.toNat 1 < counterModulus :=
  max_lt limit.toNat_lt (by decide)

theorem add_lt_of_saturatingAdd_lt {a b : ℕ} (h : saturatingAdd a b < max limit.toNat 1) :
    a + b < max limit.toNat 1 := by
  have hl := max_limit_lt limit
  rw [saturatingAdd] at h
  omega

theorem ReserverSound.mono {starting starting' active active' : ℕ} {reserver : Reserver}
    (h : ReserverSound limit starting active reserver) (hle : starting' ≤ starting)
    (ha : starting' = starting → active' ≤ active) :
    ReserverSound limit starting' active' reserver := by
  cases reserver with
  | idle => trivial
  | limited => exact h
  | loadedStarting => exact h
  | looping => exact h
  | reloadedStarting => exact ⟨h.1, hle.trans h.2⟩
  | exchanging l s =>
    obtain ⟨hl, hst, hrm⟩ := h
    refine ⟨hl, hle.trans hst, fun hsm ↦ ?_⟩
    have heq : starting' = starting := le_antisymm hle (hsm ▸ hst)
    have hb := hrm (heq ▸ hsm)
    have hls := ha heq
    omega

/-- **The reserver's steps.** -/
theorem Inv.reserve (h : Inv limit σ) (spurious : Bool) : Inv limit (σ.reserve spurious) := by
  have hsd := h.reserver
  rw [Entry.reserve]
  -- only the last access changes anything but where the reserver stands
  have hmv {reserver : Reserver}
      (hnx : ReserverSound limit σ.flushStarting σ.activeWorkers reserver) :
      Inv limit { σ with reserver := reserver } :=
    ⟨h.limit_eq, h.starting_eq, h.running_eq, h.bound, hnx⟩
  split
  next => exact hmv h.limit_eq
  next heq =>
    rw [heq] at hsd
    exact hmv hsd
  next heq =>
    rw [heq] at hsd
    split
    · exact hmv hsd
    · exact hmv trivial
  next heq =>
    rw [heq] at hsd
    exact hmv ⟨hsd, le_rfl⟩
  next l s heq =>
    rw [heq] at hsd
    obtain ⟨rfl, hle⟩ := hsd
    split
    next hrm =>
      refine hmv ⟨rfl, hle, fun _ ↦ ?_⟩
      have hs := add_lt_of_saturatingAdd_lt hrm
      rw [h.running_eq] at hs
      have hc := countP_le_countP_counted σ.workers
      rw [activeWorkers]
      omega
    next => exact hmv trivial
  next l s heq =>
    rw [heq] at hsd
    obtain ⟨rfl, hle, hrm⟩ := hsd
    split
    next hsm =>
      obtain ⟨rfl, -⟩ := hsm
      have hb := hrm rfl
      have hl := max_limit_lt limit
      have ho : saturatingAdd σ.flushStarting 1 = σ.flushStarting + 1 := by
        rw [saturatingAdd]
        omega
      have hst := h.starting_eq
      refine ⟨h.limit_eq, ?_, h.running_eq, ?_, trivial⟩
      · show saturatingAdd _ 1 + σ.accepted + σ.cancelled = σ.granted + 1
        omega
      · show saturatingAdd _ 1 + σ.activeWorkers ≤ _
        omega
    next => exact hmv rfl

variable {worker : Worker} (h : Inv limit σ)
include h

variable {i : ℕ}

theorem Inv.become {next : Worker} (hwk : σ.workers[i]? = some worker)
    (ho : next.counted = worker.counted) (ha : next.active = worker.active) :
    Inv limit (σ.become i next) := by
  have hc := countP_become counted next hwk
  have hactiveCount := countP_become active next hwk
  rw [ho] at hc
  rw [ha] at hactiveCount
  have hsm : (σ.become i next).activeWorkers = σ.activeWorkers := Nat.add_right_cancel hactiveCount
  refine ⟨h.limit_eq, h.starting_eq, ?_, ?_, ?_⟩
  · exact h.running_eq.trans (Nat.add_right_cancel hc).symm
  · rw [hsm]
    exact h.bound
  · rw [hsm]
    exact h.reserver

theorem Inv.accept (hwk : σ.workers[i]? = some (.taking take)) (hp : 0 < σ.flushStarting) :
    Inv limit { σ.become i .storing with
      flushStarting := σ.flushStarting - 1
      accepted := σ.accepted + 1 } := by
  have hc := countP_become counted .storing hwk
  have ha : (σ.become i .storing).activeWorkers = σ.activeWorkers + 1 :=
    countP_become active .storing hwk
  have hst := h.starting_eq
  have hb := h.bound
  refine ⟨h.limit_eq, ?_, h.running_eq.trans (Nat.add_right_cancel hc).symm, ?_, ?_⟩
  · show σ.flushStarting - 1 + (σ.accepted + 1) + σ.cancelled = σ.granted
    omega
  · show σ.flushStarting - 1 + (σ.become i .storing).activeWorkers ≤ _
    omega
  · refine h.reserver.mono (Nat.sub_le _ _) fun hsm ↦ absurd hsm ?_
    show σ.flushStarting - 1 ≠ σ.flushStarting
    omega

theorem Inv.uncount {next : Worker} (hwk : σ.workers[i]? = some worker)
    (ho : worker.counted = true) (hnx : next.counted = false) :
    Inv limit { σ.become i next with flushRunning := σ.flushRunning - 1 } := by
  have hc := countP_become counted next hwk
  rw [ho, hnx] at hc
  have hi : next.active = false :=
    Bool.eq_false_iff.2 fun ha ↦ by simp [counted_of_active ha] at hnx
  have ha := countP_become active next hwk
  rw [hi] at ha
  have hf : (σ.become i next).activeWorkers ≤ σ.activeWorkers := (Nat.le_add_right _ _).trans ha.le
  have hr := h.running_eq
  refine ⟨h.limit_eq, h.starting_eq, ?_, ?_, h.reserver.mono le_rfl fun _ ↦ hf⟩
  · show σ.flushRunning - 1 = (σ.workers.set i next).countP counted
    simp only [if_true, Bool.false_eq_true, if_false] at hc
    omega
  · exact (Nat.add_le_add_left hf _).trans h.bound

theorem Inv.running_pos (hwk : σ.workers[i]? = some worker) (hc : worker.counted = true) :
    0 < σ.flushRunning := by
  rw [h.running_eq, countP_pos_iff]
  exact ⟨worker, mem_of_getElem? hwk, hc⟩

/-- **The workers' steps.** -/
theorem Inv.work (hwk : σ.workers[i]? = some worker)
    (hstep : σ.work limit i spurious worker = some τ) : Inv limit τ := by
  cases worker with
  | taking take =>
    rw [Entry.work] at hstep
    split at hstep <;> cases hstep
    next => exact h.become hwk rfl rfl
    next ht => exact h.accept hwk (Take.access_eq_took ht)
    next => exact h.become hwk rfl rfl
  | rollingBack take | stopping take =>
    rw [Entry.work] at hstep
    split at hstep <;> cases hstep
    next => exact h.become hwk rfl rfl
    next => exact h.uncount hwk rfl rfl
    next hn => exact absurd (Take.access_eq_nothing hn) (h.running_pos hwk rfl).ne'
  | storing =>
    cases hstep
    have hmv : Inv limit (σ.become i .running) := h.become hwk rfl rfl
    exact ⟨by simp, hmv.starting_eq, hmv.running_eq, hmv.bound, hmv.reserver⟩
  | refused | running | stopped => cases hstep

/-- **The cancellations' steps.** -/
theorem Inv.takeBack (i : ℕ) (spurious : Bool) (take : Take) :
    Inv limit (σ.takeBack i spurious take) := by
  rw [Entry.takeBack]
  split
  next => exact ⟨h.limit_eq, h.starting_eq, h.running_eq, h.bound, h.reserver⟩
  next ht =>
    have hp := Take.access_eq_took ht
    have hst := h.starting_eq
    have hb := h.bound
    refine ⟨h.limit_eq, ?_, h.running_eq, ?_, h.reserver.mono (Nat.sub_le _ _) fun _ ↦ le_rfl⟩
    · show σ.flushStarting - 1 + σ.accepted + (σ.cancelled + 1) = σ.granted
      omega
    · show σ.flushStarting - 1 + σ.activeWorkers ≤ _
      omega
  next => exact ⟨h.limit_eq, h.starting_eq, h.running_eq, h.bound, h.reserver⟩

theorem inv_step {e : Event} (hw : σ.NoWrap e) (hstep : σ.step limit e = some τ) : Inv limit τ := by
  cases e with
  | reserve spurious =>
    cases hstep
    exact h.reserve spurious
  | start =>
    cases hstep
    have ha : (σ.workers ++ [taking .loading]).countP active = σ.activeWorkers := by
      rw [countP_append]
      rfl
    refine ⟨h.limit_eq, h.starting_eq, ?_, ?_, ?_⟩
    · show (σ.flushRunning + 1) % counterModulus = _
      rw [Nat.mod_eq_of_lt hw, countP_append, h.running_eq]
      rfl
    · show σ.flushStarting + (σ.workers ++ [taking .loading]).countP active ≤ _
      rw [ha]
      exact h.bound
    · show ReserverSound limit _ ((σ.workers ++ [taking .loading]).countP active) _
      rw [ha]
      exact h.reserver
  | work i spurious =>
    obtain ⟨worker, hwk, hnx⟩ := Option.bind_eq_some_iff.1 hstep
    exact h.work hwk hnx
  | stop i =>
    rw [step] at hstep
    split at hstep <;> cases hstep
    next hr => exact h.become hr rfl rfl
  | cancel =>
    cases hstep
    exact ⟨h.limit_eq, h.starting_eq, h.running_eq, h.bound, h.reserver⟩
  | takeBack i spurious =>
    obtain ⟨take, -, rfl⟩ := Option.map_eq_some_iff.1 hstep
    exact h.takeBack i spurious take

omit h

theorem inv_of_reaches (h : Reaches (step limit) NoWrap (initial limit) σ) : Inv limit σ :=
  h.inv (inv_initial limit) fun _ _ _ hi hmt hstep ↦ inv_step hi hmt hstep

theorem Inv.outstanding_eq (h : Inv limit σ) : σ.outstanding = σ.flushStarting := by
  have hst := h.starting_eq
  rw [outstanding]
  omega

/-! ### What holds of every run -/

theorem Quiescent.running_eq (hq : σ.Quiescent) (h : Inv limit σ) :
    σ.flushRunning = σ.activeWorkers := by
  rw [h.running_eq, activeWorkers]
  refine countP_congr fun worker hwk ↦ ?_
  have hc := hq.workers worker hwk
  cases worker <;> first | rfl | cases hc

theorem work_of_none (hnone : σ.flushStarting = 0) (hwk : σ.workers[i]? = some (.taking take)) :
    σ.step limit (.work i spurious) = some (σ.become i (.rollingBack .loading)) := by
  rw [step, hwk, Option.bind_some, work, hnone, Take.access_zero]

theorem accepted_of_none {e : Event} (hnone : σ.flushStarting = 0)
    (hstep : σ.step limit e = some τ) : τ.accepted = σ.accepted := by
  cases e with
  | reserve spurious =>
    cases hstep
    rw [reserve]
    split <;> first | rfl | (split <;> rfl)
  | start | cancel => cases hstep; rfl
  | work i spurious =>
    obtain ⟨worker, hwk, hnx⟩ := Option.bind_eq_some_iff.1 hstep
    cases worker with
    | taking take =>
      rw [work, hnone, Take.access_zero] at hnx
      cases hnx
      rfl
    | rollingBack take | stopping take =>
      rw [work] at hnx
      split at hnx <;> cases hnx <;> rfl
    | storing => cases hnx; rfl
    | refused | running | stopped => cases hnx
  | stop i =>
    rw [step] at hstep
    split at hstep <;> cases hstep
    rfl
  | takeBack i spurious =>
    obtain ⟨take, -, rfl⟩ := Option.map_eq_some_iff.1 hstep
    rw [takeBack]
    split <;> rfl

/-- **The flush limit.** In every run in which the running counter does not wrap around, the
reservations and the accepted workers together stay within the limit, a start that finds no
reservation is not accepted and goes on to its rollback, and when no call is in progress both
counters are exact. -/
theorem within_limit_of_reaches {limit : UInt32} {σ : Entry}
    (h : Reaches (step limit) NoWrap (initial limit) σ) :
    σ.outstanding + σ.activeWorkers ≤ max limit.toNat 1 ∧ (σ.outstanding = 0 →
        (∀ e τ, σ.step limit e = some τ → τ.accepted = σ.accepted) ∧
        ∀ i spurious take, σ.workers[i]? = some (.taking take) →
          σ.step limit (.work i spurious) = some (σ.become i (.rollingBack .loading))) ∧
      (σ.Quiescent → σ.flushStarting = σ.outstanding ∧ σ.flushRunning = σ.activeWorkers) := by
  have hi := inv_of_reaches h
  rw [hi.outstanding_eq]
  refine ⟨hi.bound, fun hnone ↦ ⟨fun _ _ ↦ accepted_of_none hnone,
    fun _ _ _ hwk ↦ work_of_none hnone hwk⟩, fun hq ↦ ⟨rfl, hq.running_eq hi⟩⟩

def reserving : List Event := List.replicate 6 (.reserve false)

def staleStart : List Event :=
  reserving ++ [.start, .start, .work 1 false, .work 1 true, .work 1 false, .work 0 false,
    .work 0 false, .work 0 false, .work 1 false]

theorem within_limit_of_reaches_staleStart :
    ∃ σ : Entry, exec (step 1) (initial 1) staleStart = some σ ∧
      σ.workers = [.refused, .running] ∧
      σ.outstanding + σ.activeWorkers ≤ 1 := by
  obtain ⟨σ, hσ, hw, hmt⟩ : ∃ σ : Entry, exec (step 1) (initial 1) staleStart = some σ ∧
        σ.workers = [.refused, .running] ∧
        MeetsAll (step 1) NoWrap (initial 1) staleStart := by
    have hrm : 0 + 1 < counterModulus ∧ 1 + 1 < counterModulus := by decide
    exact ⟨_, rfl, rfl, trivial, trivial, trivial, trivial, trivial, trivial, hrm.1, hrm.2,
      trivial, trivial, trivial, trivial, trivial, trivial, trivial, trivial⟩
  exact ⟨σ, hσ, hw, (within_limit_of_reaches (reaches_of_exec hσ hmt)).1⟩

/-! ### The end of the counter -/

theorem exec_starts (limit : UInt32) (n : ℕ) (hr : σ.flushRunning < counterModulus) :
    exec (step limit) σ (List.replicate n .start) = some { σ with
        flushRunning := (σ.flushRunning + n) % counterModulus
        workers := σ.workers ++ List.replicate n (.taking .loading) } := by
  induction n generalizing σ with
  | zero =>
    simp only [replicate_zero, append_nil, Nat.add_zero, Nat.mod_eq_of_lt hr]
    rfl
  | succ n ih =>
    rw [replicate_succ, exec, step, Option.bind_some]
    rw [ih (Nat.mod_lt _ (by decide))]
    simp only [Nat.mod_add_mod, List.append_assoc, replicate_succ, singleton_append]
    rw [Nat.add_right_comm, Nat.add_assoc]

theorem exec_reserving (hi : σ.reserver = .idle)
    (hrm : saturatingAdd σ.flushStarting σ.flushRunning < max σ.flushLimit 1) :
    exec (step limit) σ reserving = some { σ with
        flushStarting := saturatingAdd σ.flushStarting 1
        granted := σ.granted + 1
        reserver := .idle } := by
  simp [reserving, exec, step, reserve, hi, hrm]

def slotUsed : List Event := reserving ++ [.start, .work 0 false, .work 0 false]

theorem exceeds_of_wraps {n : ℕ} (hw : (1 + n) % counterModulus = 0) :
    ∃ σ, exec (step 1) (initial 1) (slotUsed ++ (List.replicate n .start ++ reserving)) = some σ ∧
      2 ≤ σ.outstanding + σ.activeWorkers := by
  have hu : exec (step 1) (initial 1) slotUsed =
      some ⟨1, 0, 1, .idle, [.storing], [], 1, 1, 0⟩ := rfl
  have hs := exec_starts (σ := ⟨1, 0, 1, .idle, [.storing], [], 1, 1, 0⟩) 1 n (by decide)
  have hrm : saturatingAdd 0 0 < max 1 1 := by decide
  rw [exec_append hu, exec_append hs, hw, exec_reserving rfl hrm]
  refine ⟨_, rfl, ?_⟩
  rw [outstanding, activeWorkers, countP_append]
  exact Nat.add_le_add_left (Nat.le_add_right 1 _) 1

/-- **`2 ^ 32` workers at a time are none.** -/
theorem slots_exceed_limit : ∃ es σ, exec (step 1) (initial 1) es = some σ ∧
    max (1 : UInt32).toNat 1 < σ.outstanding + σ.activeWorkers := by
  obtain ⟨σ, hσ, he⟩ := exceeds_of_wraps (n := counterModulus - 1) (by decide)
  exact ⟨_, σ, hσ, he⟩

end Entry

end Koldstore.FlushSlots
