import Koldstore.Basic.Except
import Koldstore.Mirror.PgOutput

/-!
# One bounded apply pass

`applyBoundedLocked` is the loop that turns a decoded stream into mirror rows.
-/

namespace Koldstore

open List Except

/-! ### Requests and budgets -/

structure BoundedApplyRequest where
  skipThrough : Option ℕ
  targetPruneFloor : Option (ℕ × ℤ)
  maxRows : Option ℤ
  maxMs : Option ℤ

structure BoundedApplyOutcome where
  rowChanges : ℕ
  lastApplied : Option ℕ
  budgetExhausted : Bool
  deriving DecidableEq, Repr

def resolveBudget (override : Option ℤ) (gucDefault : ℤ) : Option ℤ :=
  match override with
  | some limit => if 0 < limit then some limit else none
  | none => if 0 < gucDefault then some gucDefault else none

def budgetHit (rowBudget timeBudget : Option ℤ) (applied : ℕ) (elapsed : ℤ) : Bool :=
  rowBudget.any (fun limit ↦ decide (limit ≤ (applied : ℤ))) ||
    timeBudget.any fun limit ↦ decide (limit ≤ elapsed)

/-! ### What a pass reads and what it writes -/

structure StagedRow (Key : Type*) where
  pk : Key
  orderKey : Option (List UInt8)
  scope : Option String
  deriving DecidableEq

structure RowChange (Key : Type*) where
  relationId : ℕ
  operation : MirrorOperation
  row : StagedRow Key
  deriving DecidableEq

structure ManagedRelation (Tuple Key : Type*) where
  tableOid : ℕ
  takeRow : MirrorOperation → Tuple → Except String (StagedRow Key)

structure ApplyEnv (Tuple Key : Type*) where
  managed : ℕ → Option (ManagedRelation Tuple Key)
  isFlushReplicationOrigin : String → Bool
  nextIdAfter : ℕ → ℤ → Except String ℤ
  elapsed : ℕ → ℤ
  maxRowsPerTick : ℤ
  maxMsPerTick : ℤ

structure ApplyBatch (Key : Type*) where
  relationId : ℕ
  operation : MirrorOperation
  rows : List (StagedRow Key × ℤ)

def applyBatchRows : ℕ := 8192

structure ApplyState (Key : Type*) where
  relations : List ℕ
  transactionLsn : Option ℕ
  skippingTransaction : Bool
  skippingFlushOrigin : Bool
  appliedEndLsn : Option ℕ
  batch : Option (ApplyBatch Key)
  applied : ℕ
  budgetExhausted : Bool
  stopAfterCommit : Bool
  seqWatermark : ℤ
  issued : ℕ
  written : List (RowChange Key × ℤ)

open ApplyState

namespace ApplyBatch

variable {Key : Type*}

def changes (b : ApplyBatch Key) : List (RowChange Key × ℤ) :=
  b.rows.map fun r ↦ (⟨b.relationId, b.operation, r.1⟩, r.2)

def mustFlushBeforePush [DecidableEq Key] (b : ApplyBatch Key) (relationId : ℕ)
    (operation : MirrorOperation) (pk : Key) : Bool :=
  decide (b.relationId ≠ relationId ∨ b.operation ≠ operation) ||
    decide (applyBatchRows ≤ b.rows.length) || b.rows.any fun r ↦ decide (r.1.pk = pk)

end ApplyBatch

section Loop

variable {Tuple Key : Type*} [DecidableEq Key]

def flushBatch (s : ApplyState Key) : Except String (ApplyState Key) :=
  match s.batch with
  | none => .ok s
  | some b =>
    if b.rows = [] then .ok { s with batch := none }
    else if b.relationId ∈ s.relations then
      .ok { s with batch := none, written := s.written ++ b.changes }
    else .error "relation metadata disappeared while applying batch"

def stageRow (relationId : ℕ) (operation : MirrorOperation) (row : StagedRow Key) (seq : ℤ)
    (s : ApplyState Key) : Except String (ApplyState Key) :=
  match s.batch with
  | none => .ok { s with batch := some ⟨relationId, operation, [(row, seq)]⟩ }
  | some b =>
    if b.mustFlushBeforePush relationId operation row.pk then
      (flushBatch s).map fun s' ↦ { s' with batch := some ⟨relationId, operation, [(row, seq)]⟩ }
    else .ok { s with batch := some { b with rows := b.rows ++ [(row, seq)] } }

def seqFloor (req : BoundedApplyRequest) (tableOid : ℕ) (watermark : ℤ) : ℤ :=
  match req.targetPruneFloor with
  | some (target, floor) => if tableOid = target then max watermark floor else watermark
  | none => watermark

variable (env : ApplyEnv Tuple Key)

def pushChange (req : BoundedApplyRequest) (relationId : ℕ)
    (operation : MirrorOperation) (tuple : Tuple) (s : ApplyState Key) :
    Except String (ApplyState Key) :=
  if s.transactionLsn.isNone then .error "pgoutput row arrived without BEGIN"
  else if relationId ∉ s.relations then
    .error s!"pgoutput row references unknown relation {relationId}"
  else
    match env.managed relationId with
    | none => .ok s
    | some config =>
      (config.takeRow operation tuple).bind fun row ↦
        (env.nextIdAfter s.issued (seqFloor req config.tableOid s.seqWatermark)).bind fun seq ↦
          stageRow relationId operation row seq
            { s with seqWatermark := seq, issued := s.issued + 1 }

def applyRowMessage (req : BoundedApplyRequest) (relationId : ℕ)
    (operation : MirrorOperation) (tuple : Tuple) (s : ApplyState Key) :
    Except String (ApplyState Key) :=
  if s.skippingTransaction || s.skippingFlushOrigin then .ok s
  else (pushChange env req relationId operation tuple s).map fun s' ↦
    { s' with applied := s'.applied + 1 }

def applyMessage (req : BoundedApplyRequest) (s : ApplyState Key) :
    PgOutputMessage Tuple → Except String (ApplyState Key)
  | .begin finalLsn => (flushBatch s).map fun s' ↦ { s' with
        transactionLsn := some finalLsn
        skippingFlushOrigin := false
        skippingTransaction := req.skipThrough.any fun boundary ↦ decide (finalLsn ≤ boundary) }
  | .origin name =>
    if env.isFlushReplicationOrigin name then .ok { s with skippingFlushOrigin := true }
    else .ok s
  | .commit endLsn =>
    if s.transactionLsn.isNone then .error "pgoutput COMMIT arrived without BEGIN"
    else (flushBatch s).map fun s' ↦
      -- the budgets are looked at only here, so a pass always ends between two transactions
      let hit := budgetHit (resolveBudget req.maxRows env.maxRowsPerTick)
        (resolveBudget req.maxMs env.maxMsPerTick) s'.applied (env.elapsed endLsn)
      { s' with
        transactionLsn := none
        appliedEndLsn := if s'.skippingTransaction then s'.appliedEndLsn else some endLsn
        skippingTransaction := false
        skippingFlushOrigin := false
        budgetExhausted := s'.budgetExhausted || hit
        stopAfterCommit := s'.stopAfterCommit || hit }
  | .relation id => .ok { s with relations := id :: s.relations }
  | .insert relationId new => applyRowMessage env req relationId .insert new s
  | .update relationId _ new => applyRowMessage env req relationId .update new s
  | .delete relationId old => applyRowMessage env req relationId .delete old s
  | .ignored => .ok s

def applyMessages (env : ApplyEnv Tuple Key) (req : BoundedApplyRequest) :
    ApplyState Key → List (PgOutputMessage Tuple) → Except String (ApplyState Key)
  | s, [] => .ok s
  | s, m :: ms =>
    if s.stopAfterCommit then .ok s
    else (applyMessage env req s m).bind fun s' ↦ applyMessages env req s' ms

def ApplyState.initial (seqWatermark : ℤ) : ApplyState Key where
  relations := []
  transactionLsn := none
  skippingTransaction := false
  skippingFlushOrigin := false
  appliedEndLsn := none
  batch := none
  applied := 0
  budgetExhausted := false
  stopAfterCommit := false
  seqWatermark := seqWatermark
  issued := 0
  written := []

def applyBoundedLocked (req : BoundedApplyRequest)
    (durable : Option ℕ) (seqWatermark : ℤ) (stream : List (PgOutputMessage Tuple)) :
    Except String (BoundedApplyOutcome × List (RowChange Key × ℤ)) :=
  (applyMessages env req (.initial seqWatermark) stream).bind fun s ↦
    if s.transactionLsn.isSome then .error "pgoutput stream ended before COMMIT"
    else .ok (⟨s.applied, (s.appliedEndLsn.or req.skipThrough).or durable, s.budgetExhausted⟩,
      s.written)

end Loop

section Emitted

variable {Tuple Key : Type*} (s : ApplyState Key)

def ApplyState.emitted : List (RowChange Key × ℤ) :=
  s.written ++ (s.batch.map ApplyBatch.changes).getD []

def ApplyState.changes : List (RowChange Key) := s.emitted.map Prod.fst

structure ApplyControl where
  transactionLsn : Option ℕ
  skippingTransaction : Bool
  skippingFlushOrigin : Bool
  appliedEndLsn : Option ℕ
  budgetExhausted : Bool
  stopAfterCommit : Bool

def ApplyState.control : ApplyControl :=
  ⟨s.transactionLsn, s.skippingTransaction, s.skippingFlushOrigin, s.appliedEndLsn,
    s.budgetExhausted, s.stopAfterCommit⟩

variable (env : ApplyEnv Tuple Key)

def mirroredRow (relationId : ℕ) (operation : MirrorOperation)
    (tuple : Tuple) : List (RowChange Key) :=
  match env.managed relationId with
  | none => []
  | some config =>
    match config.takeRow operation tuple with
    | .ok row => [⟨relationId, operation, row⟩]
    | .error _ => []

def PgOutputMessage.mirrored : PgOutputMessage Tuple → List (RowChange Key)
  | .insert relationId new => mirroredRow env relationId .insert new
  | .update relationId _ new => mirroredRow env relationId .update new
  | .delete relationId old => mirroredRow env relationId .delete old
  | _ => []

def Transaction.fromFlush (t : Transaction Tuple) : Bool :=
  t.origin.any env.isFlushReplicationOrigin

/-- **The row changes of a transaction that belong in the mirror.** -/
def Transaction.mirrored (env : ApplyEnv Tuple Key) (t : Transaction Tuple) :
    List (RowChange Key) :=
  if t.fromFlush env then [] else t.body.flatMap (PgOutputMessage.mirrored env)

/-- The skip test made at `begin`. -/
def BoundedApplyRequest.skips (req : BoundedApplyRequest) (t : Transaction Tuple) : Bool :=
  req.skipThrough.any fun boundary ↦ decide (t.finalLsn ≤ boundary)

end Emitted

section Steps

variable {Tuple Key : Type*} {env : ApplyEnv Tuple Key} {req : BoundedApplyRequest}
  {s s' : ApplyState Key}

theorem flushBatch_eq_ok (h : flushBatch s = .ok s') :
    s' = { s with batch := none, written := s.emitted } := by
  rcases hb : s.batch with - | b
  · simp only [flushBatch, hb, ok.injEq] at h
    subst h
    cases s
    simp_all [emitted]
  · simp only [flushBatch, hb] at h
    split_ifs at h with hrs hr
    · cases h
      simp [emitted, ApplyBatch.changes, hb, hrs]
    · cases h
      simp [emitted, hb]

theorem flushBatch_changes (h : flushBatch s = .ok s') : s'.changes = s.changes := by
  rw [flushBatch_eq_ok h]
  simp [changes, emitted]

theorem flushBatch_control (h : flushBatch s = .ok s') : s'.control = s.control := by
  rw [flushBatch_eq_ok h]
  rfl

variable [DecidableEq Key]

variable {relationId : ℕ} {operation : MirrorOperation} {r : ApplyState Key}
  {rest : List (PgOutputMessage Tuple)}

theorem ApplyBatch.key_eq_of_not_mustFlush {b : ApplyBatch Key} {pk : Key}
    (h : ¬b.mustFlushBeforePush relationId operation pk = true) :
    b.relationId = relationId ∧ b.operation = operation := by
  simp only [mustFlushBeforePush, Bool.or_eq_true, decide_eq_true_eq, not_or, ne_eq, not_not] at h
  exact h.1.1

theorem stageRow_spec {row : StagedRow Key}
    {seq : ℤ} (h : stageRow relationId operation row seq s = .ok s') :
    s'.emitted = s.emitted ++ [(⟨relationId, operation, row⟩, seq)] ∧ s'.control = s.control ∧
      s'.seqWatermark = s.seqWatermark := by
  rcases hb : s.batch with - | b
  · simp only [stageRow, hb, ok.injEq] at h
    subst h
    exact ⟨by simp [emitted, ApplyBatch.changes, hb], rfl, rfl⟩
  · simp only [stageRow, hb] at h
    split_ifs at h with hfl
    · obtain ⟨s₁, hs₁, rfl⟩ := map_eq_ok_iff.1 h
      have hs₁ := flushBatch_eq_ok hs₁
      subst hs₁
      exact ⟨by simp [emitted, ApplyBatch.changes, hb], rfl, rfl⟩
    · cases h
      obtain ⟨rfl, rfl⟩ := ApplyBatch.key_eq_of_not_mustFlush hfl
      exact ⟨by simp [emitted, ApplyBatch.changes, hb], rfl, rfl⟩

theorem pushChange_spec {tuple : Tuple}
    (h : pushChange env req relationId operation tuple s = .ok s') :
    s'.changes = s.changes ++ mirroredRow env relationId operation tuple ∧
      s'.control = s.control := by
  simp only [pushChange, ite_error_eq_ok_iff] at h
  obtain ⟨-, -, h⟩ := h
  rcases hm : env.managed relationId with - | config
  · simp only [hm, ok.injEq] at h
    subst h
    simp [mirroredRow, hm]
  · simp only [hm, bind_eq_ok_iff] at h
    obtain ⟨row, hr, seq, -, ht⟩ := h
    obtain ⟨hemd, hc, -⟩ := stageRow_spec ht
    refine ⟨?_, hc⟩
    rw [changes, hemd]
    simp [mirroredRow, hm, hr, changes, emitted]

theorem applyRowMessage_spec {tuple : Tuple}
    (h : applyRowMessage env req relationId operation tuple s = .ok s') :
    s'.changes = s.changes ++ (if s.skippingTransaction || s.skippingFlushOrigin then []
      else mirroredRow env relationId operation tuple) ∧ s'.control = s.control := by
  rw [applyRowMessage] at h
  split_ifs at h with hsk
  · cases h
    simp [hsk]
  · obtain ⟨s₁, hs₁, rfl⟩ := map_eq_ok_iff.1 h
    obtain ⟨hcs, hc⟩ := pushChange_spec hs₁
    rw [if_neg hsk]
    exact ⟨hcs, hc⟩

variable {m : PgOutputMessage Tuple}

/-- **A body message.** -/
theorem applyMessage_body_spec (hm : m.InBody) (h : applyMessage env req s m = .ok s') :
    s'.changes = s.changes ++ (if s.skippingTransaction || s.skippingFlushOrigin then []
      else m.mirrored env) ∧ s'.control = s.control := by
  cases m with
  | begin _ | origin _ | commit _ => exact hm.elim
  | relation id =>
    cases h
    exact ⟨by simp [PgOutputMessage.mirrored, changes, emitted], rfl⟩
  | insert relationId new | update relationId old new | delete relationId old =>
    exact applyRowMessage_spec h
  | ignored =>
    cases h
    simp [PgOutputMessage.mirrored]

/-! ### One transaction, then the whole stream -/

variable {ms : List (PgOutputMessage Tuple)}

theorem applyMessages_cons_of_not_stop (hs : s.stopAfterCommit = false)
    (h : applyMessages env req s (m :: ms) = .ok r) :
    ∃ s₁, applyMessage env req s m = .ok s₁ ∧ applyMessages env req s₁ ms = .ok r := by
  rw [applyMessages, if_neg (by simp [hs])] at h
  exact bind_eq_ok_iff.1 h

theorem applyMessages_of_stop (hs : s.stopAfterCommit = true) :
    applyMessages env req s ms = .ok s := by
  cases ms <;> simp [applyMessages, hs]

theorem applyMessages_body {body : List (PgOutputMessage Tuple)} (hb : ∀ m ∈ body, m.InBody)
    (hs : s.stopAfterCommit = false) (h : applyMessages env req s (body ++ rest) = .ok r) :
    ∃ s₁, applyMessages env req s₁ rest = .ok r ∧ s₁.control = s.control ∧
      s₁.changes = s.changes ++ (if s.skippingTransaction || s.skippingFlushOrigin then []
        else body.flatMap (PgOutputMessage.mirrored env)) := by
  induction body generalizing s with
  | nil => exact ⟨s, h, rfl, by simp⟩
  | cons m body ih =>
    obtain ⟨s₁, hm, hre⟩ := applyMessages_cons_of_not_stop hs h
    obtain ⟨hcs, hc⟩ := applyMessage_body_spec (hb m (by simp)) hm
    obtain ⟨-, hsk, ho, -, -, hsp⟩ := ApplyControl.mk.inj hc
    obtain ⟨s₂, hs₂, hc₂, hcs₂⟩ :=
      ih (fun m' hm' ↦ hb m' (mem_cons_of_mem m hm')) (hsp.trans hs) hre
    refine ⟨s₂, hs₂, hc₂.trans hc, ?_⟩
    rw [hcs₂, hcs, hsk, ho]
    split_ifs <;> simp

variable (hs : s.stopAfterCommit = false)
include hs

variable {t : Transaction Tuple}

theorem applyMessages_open (h : applyMessages env req s (.begin t.finalLsn ::
      ((t.origin.map PgOutputMessage.origin).toList ++ rest)) = .ok r) :
    ∃ s₁, applyMessages env req s₁ rest = .ok r ∧ s₁.changes = s.changes ∧
      s₁.control = ⟨some t.finalLsn, req.skips t, t.fromFlush env, s.appliedEndLsn,
        s.budgetExhausted, s.stopAfterCommit⟩ := by
  obtain ⟨s₁, hbegin, hre⟩ := applyMessages_cons_of_not_stop hs h
  obtain ⟨s₀, hfl, rfl⟩ := map_eq_ok_iff.1 hbegin
  have hcs := flushBatch_changes hfl
  obtain ⟨-, -, -, he, hb, hsp⟩ := ApplyControl.mk.inj (flushBatch_control hfl)
  rcases ho : t.origin with - | name
  · simp only [ho, Option.map_none, Option.toList_none, nil_append] at hre
    refine ⟨_, hre, hcs, ?_⟩
    simp [ApplyState.control, he, hb, hsp, Transaction.fromFlush, ho, BoundedApplyRequest.skips]
  · simp only [ho, Option.map_some, Option.toList_some, singleton_append] at hre
    obtain ⟨s₂, hnm, hre⟩ := applyMessages_cons_of_not_stop (by exact hsp.trans hs) hre
    simp only [applyMessage] at hnm
    split_ifs at hnm with hflushOrigin
    all_goals
      cases hnm
      refine ⟨_, hre, hcs, ?_⟩
      simp [ApplyState.control, he, hb, hsp, Transaction.fromFlush, ho,
        BoundedApplyRequest.skips, hflushOrigin]

/-- **One transaction.** -/
theorem applyMessages_transaction (hb : s.budgetExhausted = false)
    (h : applyMessages env req s (t.messages ++ rest) = .ok r) :
    ∃ s₁, applyMessages env req s₁ rest = .ok r ∧ s₁.transactionLsn = none ∧ s₁.batch = none ∧
      s₁.budgetExhausted = s₁.stopAfterCommit ∧
      s₁.appliedEndLsn = (if req.skips t then s.appliedEndLsn else some t.endLsn) ∧
      s₁.changes = s.changes ++ (if req.skips t then [] else t.mirrored env) := by
  rw [Transaction.messages, cons_append, List.append_assoc, List.append_assoc] at h
  obtain ⟨s₁, h₁, hcs₁, hc₁⟩ := applyMessages_open hs h
  obtain ⟨-, hk, ho, he, hu, hsp⟩ := ApplyControl.mk.inj hc₁
  obtain ⟨s₂, h₂, hc₂, hcs₂⟩ := applyMessages_body t.inBody (hsp.trans hs) h₁
  obtain ⟨htxn₂, hsk₂, -, he₂, hbud₂, hsp₂⟩ := ApplyControl.mk.inj (hc₂.trans hc₁)
  obtain ⟨s₃, hc, h₃⟩ := applyMessages_cons_of_not_stop (hsp₂.trans hs) h₂
  simp only [applyMessage, htxn₂, Option.isNone_some, Bool.false_eq_true, if_false] at hc
  obtain ⟨s₄, hfl, rfl⟩ := map_eq_ok_iff.1 hc
  obtain ⟨-, hsk₄, -, he₄, hbud₄, hsp₄⟩ := ApplyControl.mk.inj (flushBatch_control hfl)
  refine ⟨_, h₃, rfl, ?_, ?_, ?_, ?_⟩
  · simp [flushBatch_eq_ok hfl]
  · simp only [hbud₄, hbud₂, hsp₄, hsp₂, hs, hb]
  · simp only [hsk₄, hsk₂, he₄, he₂]
  · have hcs₃ : s₄.changes = s₁.changes ++ _ := (flushBatch_changes hfl).trans hcs₂
    rw [hk, ho, hcs₁] at hcs₃
    refine Eq.trans (show _ = s₄.changes from rfl) (hcs₃.trans ?_)
    by_cases hsk : req.skips t = true <;> by_cases hff : t.fromFlush env = true <;>
      simp [Transaction.mirrored, hsk, hff]

/-- **The whole stream.** -/
theorem applyMessages_stream {ts : List (Transaction Tuple)}
    (hb : s.budgetExhausted = false) (ht : s.transactionLsn = none) (hbt : s.batch = none)
    (h : applyMessages env req s (decodeStream ts) = .ok r) :
    ∃ k ≤ ts.length, r.transactionLsn = none ∧ r.batch = none ∧ r.changes = s.changes ++
        ((ts.take k).filter (!req.skips ·)).flatMap (Transaction.mirrored env) ∧
      r.appliedEndLsn = (((ts.take k).filter (!req.skips ·)).getLast?.map Transaction.endLsn).or
          s.appliedEndLsn ∧ (r.budgetExhausted = false → k = ts.length) := by
  induction ts generalizing s with
  | nil =>
    cases h
    exact ⟨0, Nat.le_refl 0, ht, hbt, by simp, by simp, fun _ ↦ rfl⟩
  | cons t ts ih =>
    rw [decodeStream_cons] at h
    obtain ⟨s₁, h₁, htxn₁, hbt₁, hsp₁, he₁, hcs₁⟩ := applyMessages_transaction hs hb h
    by_cases hst : s₁.stopAfterCommit = true
    · -- a budget is spent at this commit
      rw [applyMessages_of_stop hst] at h₁
      cases h₁
      refine ⟨1, by simp, htxn₁, hbt₁, ?_, ?_, fun hno ↦ ?_⟩
      · by_cases hsk : req.skips t = true <;> simp [hcs₁, hsk]
      · by_cases hsk : req.skips t = true <;> simp [he₁, hsk]
      · rw [hsp₁, hst] at hno
        exact absurd hno (by simp)
    · have hst' : s₁.stopAfterCommit = false := by simpa using hst
      obtain ⟨k, hk, htxn₂, hbt₂, hcs₂, he₂, ha⟩ := ih hst' (hsp₁.trans hst') htxn₁ hbt₁ h₁
      refine ⟨k + 1, by simpa using hk, htxn₂, hbt₂, ?_, ?_, fun hno ↦ by simp [ha hno]⟩
      · rw [hcs₂, hcs₁]
        by_cases hsk : req.skips t = true <;> simp [hsk]
      · rw [he₂, he₁]
        by_cases hsk : req.skips t = true
        · simp [hsk]
        · simp only [hsk, Bool.false_eq_true, if_false, take_succ_cons, Bool.not_false,
            filter_cons_of_pos]
          rcases hl : (ts.take k).filter (!req.skips ·) with - | ⟨u, us⟩
          · simp
          · simp [getLast?_cons]

omit hs

end Steps

end Koldstore
