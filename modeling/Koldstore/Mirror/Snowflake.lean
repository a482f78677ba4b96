import Koldstore.Basic.Runs

/-!
# Snowflake ids

A millisecond, a worker id and a counter within the millisecond.
-/

namespace Koldstore.Snowflake

open Machine List

/-! ### The code's arithmetic -/

/-- `KOLDSTORE_EPOCH_MILLIS`. -/
def epochMillis : ℕ := 1704067200000

def timestampShift : ℕ := 22

def workerIdShift : ℕ := 12

def maxWorkerId : ℕ := 1023

def maxSequence : ℕ := 4095

inductive Error
  | timestampBeforeEpoch
  | clockUnavailable
  | workerIdOutOfRange (workerId : UInt16)
  | idOverflow
  deriving DecidableEq, Repr

/-- `current_timestamp_millis`, for what the clock says. -/
def currentTimestampMillis : Option ℕ → Except Error ℕ
  | none => .error .clockUnavailable
  | some millis =>
    if epochMillis ≤ millis % 2 ^ 64 then .ok (millis % 2 ^ 64 - epochMillis)
    else .error .timestampBeforeEpoch

def packTimestampAndSequence (timestamp sequence : ℕ) : ℕ :=
  (timestamp <<< 12) % 2 ^ 64 ||| sequence

def unpackTimestampAndSequence (value : ℕ) : ℕ × ℕ := (value >>> 12, value &&& maxSequence)

/-- The pair that `next_timestamp_and_sequence` tries to write. -/
def nextTimestampAndSequence (now observed : ℕ) : ℕ × ℕ :=
  let last := unpackTimestampAndSequence observed
  if last.1 < now then (now, 0)
  else if last.2 < maxSequence then (last.1, last.2 + 1)
  else (last.1 + 1, 0)

/-- The word that `advance_generator_to_timestamp` tries to write. -/
def advancedState (timestamp observed : ℕ) : Option ℕ :=
  let last := unpackTimestampAndSequence observed
  if timestamp < last.1 ∨ (last.1 = timestamp ∧ last.2 = maxSequence) then none
  else if last.1 < timestamp then some (packTimestampAndSequence timestamp 0)
  else if last.2 < maxSequence then some (packTimestampAndSequence last.1 (last.2 + 1))
  else some (packTimestampAndSequence (last.1 + 1) 0)

def composeId (timestamp workerId sequence : ℕ) : Except Error ℕ :=
  let id := (timestamp <<< timestampShift) % 2 ^ 64 ||| (workerId <<< workerIdShift) % 2 ^ 64 |||
    sequence
  if id < 2 ^ 63 then .ok id else .error .idOverflow

def workerId (id : ℕ) : ℕ := (id >>> workerIdShift) &&& maxWorkerId

def minTimestamp (floor : Int64) : ℕ := (floor.toInt.toNat >>> timestampShift) + 1

/-! ### Callers -/

inductive Stage
  | begun
  | clocked (now : ℕ)
  | observed (now observed : ℕ)
  | advancing (timestamp : ℕ)
  | advancingFrom (timestamp observed : ℕ)
  | returned (result : Except Error ℕ)

/-- A call of `next_id`, or of `next_id_after` if it has a floor. -/
structure Call where
  workerId : UInt16
  floor : Option Int64
  raised : Bool
  stage : Stage

structure Issue where
  call : ℕ
  workerId : ℕ
  id : ℕ
  deriving DecidableEq, Repr

structure Generator where
  last : ℕ
  calls : List Call
  issued : List Issue

inductive Event
  | call (workerId : UInt16) (floor : Option Int64)
  | clock (i : ℕ) (reading : Option ℕ)
  | load (i : ℕ)
  | exchange (i : ℕ)

namespace Generator

def initial : Generator := ⟨0, [], []⟩

def entered (workerId : UInt16) (floor : Option Int64) : Stage :=
  if maxWorkerId < workerId.toNat then .returned (.error (.workerIdOutOfRange workerId))
  else if floor = some Int64.maxValue then .returned (.error .idOverflow)
  else .begun

def taken (call : Call) (pair : ℕ × ℕ) : Stage :=
  match composeId pair.1 call.workerId.toNat pair.2 with
  | .error e => .returned (.error e)
  | .ok id =>
    match call.floor with
    | none => .returned (.ok id)
    | some floor =>
      if floor.toInt < id then .returned (.ok id)
      else if call.raised then .returned (.error .idOverflow)
      else .advancing (minTimestamp floor)

variable (i : ℕ)

def issue (call : Call) : Stage → List Issue
  | .returned (.ok id) => [⟨i, call.workerId.toNat, id⟩]
  | _ => []

variable (σ : Generator)

def become (call : Call) : Generator := { σ with calls := σ.calls.set i call }

def exchange (call : Call) : Option Generator :=
  match call.stage with
  | .observed now observed =>
    let pair := nextTimestampAndSequence now observed
    if σ.last = observed then
      some { σ.become i { call with stage := taken call pair } with
        last := packTimestampAndSequence pair.1 pair.2
        issued := σ.issued ++ issue i call (taken call pair) }
    else some (σ.become i { call with stage := .begun })
  | .advancingFrom timestamp observed =>
    (advancedState timestamp observed).map fun next ↦ if σ.last = observed then
        { σ.become i { call with raised := true, stage := .begun } with last := next }
      else σ.become i { call with stage := .advancing timestamp }
  | _ => none

def load (call : Call) : Option Generator :=
  match call.stage with
  | .clocked now => some (σ.become i { call with stage := .observed now σ.last })
  | .advancing timestamp =>
    match advancedState timestamp σ.last with
    | none => some (σ.become i { call with raised := true, stage := .begun })
    | some _ => some (σ.become i { call with stage := .advancingFrom timestamp σ.last })
  | _ => none

def clock (reading : Option ℕ) (call : Call) : Option Generator :=
  match call.stage with
  | .begun =>
    match currentTimestampMillis reading with
    | .error e => some (σ.become i { call with stage := .returned (.error e) })
    | .ok now => some (σ.become i { call with stage := .clocked now })
  | _ => none

def step : Event → Option Generator
  | .call workerId floor =>
    some { σ with calls := σ.calls ++ [⟨workerId, floor, false, entered workerId floor⟩] }
  | .clock i reading => (σ.calls[i]?).bind (σ.clock i reading)
  | .load i => (σ.calls[i]?).bind (σ.load i)
  | .exchange i => (σ.calls[i]?).bind (σ.exchange i)

/-- The milliseconds stay within the 42 bits of an id. -/
def InRange : Event → Prop
  | .clock _ (some millis) => millis % 2 ^ 64 < epochMillis + 2 ^ 42
  | .exchange _ => σ.last + 1 < 2 ^ 54
  | _ => True

instance (σ : Generator) : ∀ e, Decidable (σ.InRange e)
  | .clock _ (some _) => inferInstanceAs (Decidable (_ < _))
  | .exchange _ => inferInstanceAs (Decidable (_ < _))
  | .clock _ none | .call _ _ | .load _ => .isTrue trivial

end Generator

/-! ### Words -/

theorem unpack_eq (value : ℕ) :
    unpackTimestampAndSequence value = (value / 2 ^ 12, value % 2 ^ 12) := by
  rw [unpackTimestampAndSequence, Nat.shiftRight_eq_div_pow]
  exact congrArg (value / 2 ^ 12, ·) (Nat.and_two_pow_sub_one_eq_mod value 12)

variable {timestamp : ℕ}

variable {sequence : ℕ}

theorem pack_eq (ht : timestamp < 2 ^ 42) (hs : sequence < 2 ^ 12) :
    packTimestampAndSequence timestamp sequence = timestamp * 2 ^ 12 + sequence := by
  have hlt : timestamp <<< 12 < 2 ^ 64 := by
    rw [Nat.shiftLeft_eq]
    omega
  rw [packTimestampAndSequence, Nat.mod_eq_of_lt hlt, ← Nat.shiftLeft_add_eq_or_of_lt hs,
    Nat.shiftLeft_eq]

variable {now : ℕ}

theorem currentTimestampMillis_spec {millis : ℕ}
    (h : currentTimestampMillis (some millis) = .ok now) : now + epochMillis = millis % 2 ^ 64 := by
  rw [currentTimestampMillis] at h
  split at h
  next hep => exact Except.ok.inj h ▸ Nat.sub_add_cancel hep
  next => cases h

variable {last : ℕ}

theorem next_spec (hn : now < 2 ^ 42) (hl : last + 1 < 2 ^ 54) :
    (nextTimestampAndSequence now last).1 < 2 ^ 42 ∧
      (nextTimestampAndSequence now last).2 < 2 ^ 12 ∧
      last < (nextTimestampAndSequence now last).1 * 2 ^ 12 +
        (nextTimestampAndSequence now last).2 := by
  simp only [nextTimestampAndSequence, unpack_eq, maxSequence]
  split
  next => omega
  next =>
    split
    next => omega
    next => omega

theorem advancedState_spec {next : ℕ} (ht : timestamp ≤ 2 ^ 41) (hl : last + 1 < 2 ^ 54)
    (h : advancedState timestamp last = some next) : last < next ∧ next < 2 ^ 54 := by
  simp only [advancedState, unpack_eq, maxSequence] at h
  split at h
  next => cases h
  next =>
    split at h
    next =>
      cases h
      rw [pack_eq (by omega) (by omega)]
      omega
    next => split at h <;> cases h <;> rw [pack_eq (by omega) (by omega)] <;> omega

theorem workerId_eq (id : ℕ) : workerId id = id / 2 ^ 12 % 2 ^ 10 := by
  rw [workerId, workerIdShift, Nat.shiftRight_eq_div_pow]
  exact Nat.and_two_pow_sub_one_eq_mod _ 10

def pairOf (id : ℕ) : ℕ := id / 2 ^ 22 * 2 ^ 12 + id % 2 ^ 12

theorem parts_eq {worker : ℕ} (ht : timestamp < 2 ^ 42)
    (hw : worker ≤ maxWorkerId) (hs : sequence < 2 ^ 12) :
    (timestamp <<< timestampShift) % 2 ^ 64 ||| (worker <<< workerIdShift) % 2 ^ 64 ||| sequence =
      timestamp * 2 ^ 22 + worker * 2 ^ 12 + sequence := by
  have hw : worker < 2 ^ 10 := Nat.lt_succ_of_le hw
  have hm : worker <<< 12 < 2 ^ 22 := by
    rw [Nat.shiftLeft_eq]
    omega
  have ho : timestamp <<< 22 < 2 ^ 64 := by
    rw [Nat.shiftLeft_eq]
    omega
  have hj : timestamp <<< 22 + worker <<< 12 = (timestamp <<< 10 + worker) <<< 12 := by
    simp only [Nat.shiftLeft_eq]
    omega
  rw [timestampShift, workerIdShift, Nat.mod_eq_of_lt ho, Nat.mod_eq_of_lt (by omega),
    ← Nat.shiftLeft_add_eq_or_of_lt hm, hj, ← Nat.shiftLeft_add_eq_or_of_lt hs]
  simp only [Nat.shiftLeft_eq]
  omega

theorem composeId_spec {worker id : ℕ} (ht : timestamp < 2 ^ 42) (hw : worker ≤ maxWorkerId)
    (hs : sequence < 2 ^ 12) (h : composeId timestamp worker sequence = .ok id) :
    pairOf id = timestamp * 2 ^ 12 + sequence ∧ workerId id = worker := by
  simp only [composeId, parts_eq ht hw hs] at h
  have hw : worker < 2 ^ 10 := Nat.lt_succ_of_le hw
  split at h <;> cases h
  rw [pairOf, workerId_eq]
  omega

theorem minTimestamp_le (floor : Int64) : minTimestamp floor ≤ 2 ^ 41 := by
  have hlt : floor.toInt < 2 ^ 63 := floor.toInt_lt
  rw [minTimestamp, timestampShift, Nat.shiftRight_eq_div_pow]
  omega

namespace Generator

variable {σ τ : Generator} {i : ℕ} {call : Call} {issued : List Issue} {worker : ℕ}

/-- What holds of the `i`-th call. -/
def StageSound (issued : List Issue) (i worker : ℕ) : Stage → Prop
  | .begun => worker ≤ maxWorkerId
  | .clocked now | .observed now _ => worker ≤ maxWorkerId ∧ now < 2 ^ 42
  | .advancing timestamp | .advancingFrom timestamp _ => worker ≤ maxWorkerId ∧ timestamp ≤ 2 ^ 41
  | .returned (.error _) => True
  | .returned (.ok id) => ⟨i, worker, id⟩ ∈ issued

structure Inv (σ : Generator) : Prop where
  last_lt : σ.last < 2 ^ 54
  sorted : σ.issued.Pairwise fun p q ↦ pairOf p.id < pairOf q.id
  le_last : ∀ p ∈ σ.issued, pairOf p.id ≤ σ.last
  decodes : ∀ p ∈ σ.issued, workerId p.id = p.workerId
  calls : ∀ i call, σ.calls[i]? = some call →
    StageSound σ.issued i call.workerId.toNat call.stage

theorem inv_initial : Inv initial where
  last_lt := by decide
  sorted := .nil
  le_last _ h := nomatch h
  decodes _ h := nomatch h
  calls _ _ h := by cases h

theorem StageSound.mono {stage : Stage} (h : StageSound issued i worker stage) (more : List Issue) :
    StageSound (issued ++ more) i worker stage := by
  cases stage with
  | returned result =>
    cases result with
    | error e => trivial
    | ok id => exact mem_append_left _ h
  | begun => exact h
  | clocked now => exact h
  | observed now observed => exact h
  | advancing timestamp => exact h
  | advancingFrom timestamp observed => exact h

theorem Inv.become (h : Inv σ) (hle : σ.last ≤ last) (hlt : last < 2 ^ 54)
    (hs : StageSound σ.issued i call.workerId.toNat call.stage) :
    Inv { σ.become i call with last := last } where
  last_lt := hlt
  sorted := h.sorted
  le_last p hp := (h.le_last p hp).trans hle
  decodes := h.decodes
  calls j c hc := by
    rcases getElem?_set_eq_some hc with ⟨rfl, rfl⟩ | hc
    · exact hs
    · exact h.calls j c hc

/-- **What becomes of a pair.** -/
theorem taken_cases (call : Call) (pair : ℕ × ℕ) :
    (∃ id, composeId pair.1 call.workerId.toNat pair.2 = .ok id ∧
      taken call pair = .returned (.ok id)) ∨ (∃ e, taken call pair = .returned (.error e)) ∨
    ∃ floor, taken call pair = .advancing (minTimestamp floor) := by
  rw [taken]
  split
  next e _ => exact .inr (.inl ⟨e, rfl⟩)
  next id hid =>
    split
    next => exact .inl ⟨id, hid, rfl⟩
    next floor _ =>
      split
      next => exact .inl ⟨id, hid, rfl⟩
      next =>
        split
        next => exact .inr (.inl ⟨_, rfl⟩)
        next => exact .inr (.inr ⟨floor, rfl⟩)

variable (h : Inv σ)
include h

/-- **An exchange of the word for the next pair.** -/
theorem Inv.take (hwk : call.workerId.toNat ≤ maxWorkerId)
    (hn : now < 2 ^ 42) (hl : σ.last + 1 < 2 ^ 54) :
    Inv { σ.become i { call with
        stage := taken call (nextTimestampAndSequence now σ.last) } with
      last := packTimestampAndSequence (nextTimestampAndSequence now σ.last).1
        (nextTimestampAndSequence now σ.last).2
      issued := σ.issued ++ issue i call (taken call (nextTimestampAndSequence now σ.last)) } := by
  obtain ⟨hti, hs, hup⟩ := next_spec hn hl
  generalize nextTimestampAndSequence now σ.last = pair at hti hs hup ⊢
  rw [pack_eq hti hs]
  have hlt : pair.1 * 2 ^ 12 + pair.2 < 2 ^ 54 := by omega
  obtain ⟨id, hid, htk⟩ | ⟨e, htk⟩ | ⟨floor, htk⟩ := taken_cases call pair
  · obtain ⟨hpr, hd⟩ := composeId_spec hti hwk hs hid
    rw [htk]
    refine ⟨hlt, ?_, ?_, ?_, fun j c hc ↦ ?_⟩
    · refine pairwise_append.2 ⟨h.sorted, pairwise_singleton _ _, fun p hp q hq ↦ ?_⟩
      rw [mem_singleton.1 hq, hpr]
      exact (h.le_last p hp).trans_lt hup
    · intro p hp
      rcases mem_append.1 hp with hp | hp
      · exact (h.le_last p hp).trans hup.le
      · rw [mem_singleton.1 hp]
        exact hpr.le
    · intro p hp
      rcases mem_append.1 hp with hp | hp
      · exact h.decodes p hp
      · rw [mem_singleton.1 hp]
        exact hd
    · rcases getElem?_set_eq_some hc with ⟨rfl, rfl⟩ | hc
      · exact mem_append_right _ (mem_singleton.2 rfl)
      · exact (h.calls j c hc).mono _
  · rw [htk, issue, append_nil]
    · exact h.become hup.le hlt trivial
    · exact nofun
  · rw [htk, issue, append_nil]
    · exact h.become hup.le hlt ⟨hwk, minTimestamp_le floor⟩
    · exact nofun

theorem Inv.move (hs : StageSound σ.issued i call.workerId.toNat call.stage) :
    Inv (σ.become i call) := h.become le_rfl h.last_lt hs

theorem Inv.exchange (hl : σ.last + 1 < 2 ^ 54)
    (hsd : StageSound σ.issued i call.workerId.toNat call.stage)
    (hstep : σ.exchange i call = some τ) : Inv τ := by
  unfold Generator.exchange at hstep
  split at hstep
  next now observed hs =>
    rw [hs] at hsd
    simp only at hstep
    split at hstep <;> cases hstep
    next hsm =>
      subst hsm
      exact h.take hsd.1 hsd.2 hl
    next => exact h.move hsd.1
  next timestamp observed hs =>
    rw [hs] at hsd
    obtain ⟨next, hnx, rfl⟩ := Option.map_eq_some_iff.1 hstep
    split
    next hsm =>
      subst hsm
      obtain ⟨hup, hlt⟩ := advancedState_spec hsd.2 hl hnx
      exact h.become hup.le hlt hsd.1
    next => exact h.move hsd
  next => cases hstep

theorem Inv.load (hsd : StageSound σ.issued i call.workerId.toNat call.stage)
    (hstep : σ.load i call = some τ) : Inv τ := by
  unfold Generator.load at hstep
  split at hstep
  next now hs =>
    rw [hs] at hsd
    cases hstep
    exact h.move hsd
  next timestamp hs =>
    rw [hs] at hsd
    split at hstep <;> cases hstep
    next => exact h.move hsd.1
    next => exact h.move hsd
  next => cases hstep

theorem Inv.clock {reading : Option ℕ} (hr : σ.InRange (.clock i reading))
    (hsd : StageSound σ.issued i call.workerId.toNat call.stage)
    (hstep : σ.clock i reading call = some τ) : Inv τ := by
  unfold Generator.clock at hstep
  split at hstep
  next hs =>
    rw [hs] at hsd
    cases reading with
    | none =>
      cases hstep
      exact h.move trivial
    | some millis =>
      have hm : millis % 2 ^ 64 < epochMillis + 2 ^ 42 := hr
      split at hstep <;> cases hstep
      next => exact h.move trivial
      next now hn =>
        refine h.move ⟨hsd, ?_⟩
        rw [← currentTimestampMillis_spec hn, Nat.add_comm] at hm
        exact Nat.lt_of_add_lt_add_left hm
  next => cases hstep

theorem inv_step {e : Event} (hr : σ.InRange e) (hstep : σ.step e = some τ) : Inv τ := by
  cases e with
  | call worker floor =>
    cases hstep
    refine ⟨h.last_lt, h.sorted, h.le_last, h.decodes, fun j c hc ↦ ?_⟩
    rcases getElem?_concat_eq_some hc with ⟨-, rfl⟩ | hc
    · show StageSound σ.issued j worker.toNat (entered worker floor)
      rw [entered]
      split
      next => trivial
      next hwk =>
        split
        next => trivial
        next => exact Nat.le_of_not_lt hwk
    · exact h.calls j c hc
  | clock i reading =>
    obtain ⟨call, ha, hl⟩ := Option.bind_eq_some_iff.1 hstep
    exact h.clock hr (h.calls i call ha) hl
  | load i =>
    obtain ⟨call, ha, hld⟩ := Option.bind_eq_some_iff.1 hstep
    exact h.load (h.calls i call ha) hld
  | exchange i =>
    obtain ⟨call, ha, he⟩ := Option.bind_eq_some_iff.1 hstep
    exact h.exchange hr (h.calls i call ha) he

omit h

/-! ### What holds of every run -/

theorem lt_of_pairOf_lt {a b : ℕ} (h : pairOf a < pairOf b) (hwk : workerId a = workerId b) :
    a < b := by
  rw [workerId_eq, workerId_eq] at hwk
  rw [pairOf, pairOf] at h
  omega

/-- **Snowflake ids.** In every run that stays within 42 bits of milliseconds, whatever the clock
says and however the callers interleave, two calls do not return the same id, the ids of one worker
grow in the order in which the calls took effect, and an id decodes to the worker it is for. -/
theorem ids_of_reaches {σ : Generator} (h : Reaches step InRange initial σ) :
    (∀ (i j : ℕ) (c d : Call) a b, i ≠ j → σ.calls[i]? = some c → σ.calls[j]? = some d →
      c.stage = .returned (.ok a) → d.stage = .returned (.ok b) → a ≠ b) ∧
    (σ.issued.Pairwise fun p q ↦ p.workerId = q.workerId → p.id < q.id) ∧
    ∀ (i : ℕ) (c : Call) a, σ.calls[i]? = some c → c.stage = .returned (.ok a) →
      ⟨i, c.workerId.toNat, a⟩ ∈ σ.issued ∧ workerId a = c.workerId.toNat := by
  have hi : Inv σ := h.inv inv_initial fun _ _ _ hi hr hstep ↦ inv_step hi hr hstep
  have hs {i : ℕ} {c : Call} {a} (hc : σ.calls[i]? = some c) (ha : c.stage = .returned (.ok a)) :
      ⟨i, c.workerId.toNat, a⟩ ∈ σ.issued := by
    have hsd := hi.calls i c hc
    rw [ha] at hsd
    exact hsd
  have hdecodes {i : ℕ} {c : Call} {a} (hc : σ.calls[i]? = some c)
      (ha : c.stage = .returned (.ok a)) : workerId a = c.workerId.toNat := by
    have he := hi.decodes _ (hs hc ha)
    exact he
  refine ⟨?_, ?_, fun i c a hc ha ↦ ⟨hs hc ha, hdecodes hc ha⟩⟩
  · intro i j c d a b hij hc hd ha hb hsm
    have hdist : σ.issued.Pairwise fun p q ↦ pairOf p.id ≠ pairOf q.id :=
      hi.sorted.imp fun hlt ↦ hlt.ne
    have hcal : (⟨i, c.workerId.toNat, a⟩ : Issue) ≠ ⟨j, d.workerId.toNat, b⟩ :=
      fun h ↦ hij (Issue.mk.inj h).1
    have : Std.Symm fun p q : Issue ↦ pairOf p.id ≠ pairOf q.id := ⟨fun _ _ hne ↦ hne.symm⟩
    subst hsm
    exact hdist.forall (hs hc ha) (hs hd hb) hcal rfl
  · refine hi.sorted.imp_of_mem fun {p q} hp hq hlt hwk ↦ lt_of_pairOf_lt hlt ?_
    rw [hi.decodes p hp, hi.decodes q hq, hwk]

/-- A second caller whose clock has gone back raises the generator. -/
def raisedPast : List Event :=
  [.call 1 none, .call 1 (some 29360128), .clock 0 (some (epochMillis + 5)), .load 0, .exchange 0,
    .clock 1 (some (epochMillis + 4)), .load 1, .exchange 1, .load 1, .exchange 1,
    .clock 1 (some (epochMillis + 4)), .load 1, .exchange 1]

theorem ids_of_reaches_raisedPast : ∃ σ : Generator, exec step initial raisedPast = some σ ∧
    σ.issued = [⟨0, 1, 5 * 2 ^ 22 + 2 ^ 12⟩, ⟨1, 1, 8 * 2 ^ 22 + 2 ^ 12 + 1⟩] ∧
      σ.issued.Pairwise fun p q ↦ p.workerId = q.workerId → p.id < q.id := by
  have he : (exec step initial raisedPast).map (·.issued) =
      some [⟨0, 1, 5 * 2 ^ 22 + 2 ^ 12⟩, ⟨1, 1, 8 * 2 ^ 22 + 2 ^ 12 + 1⟩] := by decide +kernel
  have hr : MeetsAll step InRange initial raisedPast := by decide +kernel
  obtain ⟨σ, hσ, hi⟩ := Option.map_eq_some_iff.1 he
  exact ⟨σ, hσ, hi, (ids_of_reaches (reaches_of_exec hσ hr)).2.1⟩

/-! ### Past 42 bits -/

/-- Two calls, the second `2 ^ 42` milliseconds after the first. -/
def farApart : List Event := [.call 0 none, .clock 0 (some (epochMillis + 5)), .load 0, .exchange 0,
    .call 0 none, .clock 1 (some (epochMillis + 2 ^ 42 + 5)), .load 1, .exchange 1]

/-- **The same id twice.** The second caller's millisecond has a bit above the 42 that the id has
room for. -/
theorem farApart_same_id : ∃ σ : Generator, exec step initial farApart = some σ ∧
    σ.issued = [⟨0, 0, 5 * 2 ^ 22⟩, ⟨1, 0, 5 * 2 ^ 22⟩] := by
  have he : (exec step initial farApart).map (·.issued) =
      some [⟨0, 0, 5 * 2 ^ 22⟩, ⟨1, 0, 5 * 2 ^ 22⟩] := by decide +kernel
  exact Option.map_eq_some_iff.1 he

end Generator

end Koldstore.Snowflake
