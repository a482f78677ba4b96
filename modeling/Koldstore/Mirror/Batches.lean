import Koldstore.Cell.Decimal
import Koldstore.Mirror.Sequence

/-!
# Batches of mirror changes

An apply pass does not write its changes one by one: it stages rows of one relation and operation
and writes a batch as one statement. A batch is cut before a change of relation or operation, before
a key it already has, and when it is full. Whether it has a key is asked of the key's **text**,
while the statement joins on the key's **value**; where a value comes in one text only, batches have
no key twice, and the pass does what its changes do one after the other.
-/

namespace Koldstore

open List Function
open Except (bind_eq_ok_iff ite_error_eq_ok_iff map_eq_ok_iff)

namespace MirrorBatches

/-! ### The mirror tables -/

structure MirrorRow where
  orderKey : Option (List UInt8)
  seq : ℤ
  op : MirrorOperation
  scopeId : Option String
  deriving DecidableEq

abbrev Table (V : Type*) := V → Option MirrorRow

abbrev Mirror (V : Type*) := ℕ → Table V

abbrev Incoming (Key : Type*) := StagedRow Key × ℤ

structure Statements (Key V : Type*) where
  value : Key → V
  ordered : ℕ → Bool
  joined : List (Incoming Key) → Option (Incoming Key)
  joined_mem : ∀ rows x, joined rows = some x → x ∈ rows
  joined_isSome : ∀ rows, rows ≠ [] → (joined rows).isSome

section Rows

variable {Key : Type*} (op : MirrorOperation) (x : Incoming Key)

def inserted : MirrorRow := ⟨x.1.orderKey, x.2, op, x.1.scope⟩

def updated (row : MirrorRow) : MirrorRow :=
  { row with seq := x.2, op := op, scopeId := x.1.scope.or row.scopeId }

def upserted : Option MirrorRow → MirrorRow
  | none => inserted op x
  | some row => updated op x row

def marked (row : MirrorRow) : MirrorRow := { row with seq := x.2, op := op }

end Rows

variable {Key V : Type*} [DecidableEq V] (T : Statements Key V)

/-! ### One change at a time -/

def rowAfter (relationId : ℕ) (op : MirrorOperation) (x : Incoming Key) (row : Option MirrorRow) :
    Option MirrorRow :=
  if op = .delete ∧ T.ordered relationId then row.map (marked op x) else some (upserted op x row)

def applyChange (μ : Mirror V) (e : RowChange Key × ℤ) : Mirror V :=
  update μ e.1.relationId (update (μ e.1.relationId) (T.value e.1.row.pk)
    (rowAfter T e.1.relationId e.1.operation (e.1.row, e.2)
      (μ e.1.relationId (T.value e.1.row.pk))))

def applyChanges (μ : Mirror V) (changes : List (RowChange Key × ℤ)) : Mirror V :=
  changes.foldl (applyChange T) μ

theorem applyChanges_append (μ : Mirror V) (changes changes' : List (RowChange Key × ℤ)) :
    applyChanges T μ (changes ++ changes') = applyChanges T (applyChanges T μ changes) changes' :=
  foldl_append

/-! ### A batch as one statement -/

def values (rows : List (Incoming Key)) : List V := rows.map fun x ↦ T.value x.1.pk

/-- `INSERT … ON CONFLICT (key) DO UPDATE`. -/
def upsertStatement (op : MirrorOperation) (rows : List (Incoming Key)) (table : Table V) :
    Except String (Table V) :=
  if (values T rows).Nodup then
    .ok (rows.foldl (fun table x ↦ update table (T.value x.1.pk)
      (some (upserted op x (table (T.value x.1.pk))))) table)
  else .error "ON CONFLICT DO UPDATE command cannot affect row a second time"

/-- `UPDATE … FROM`. -/
def updateStatement (set : Incoming Key → MirrorRow → MirrorRow) (rows : List (Incoming Key))
    (table : Table V) : Table V := fun v ↦
  (table v).map fun row ↦
    (T.joined (rows.filter fun x ↦ T.value x.1.pk = v)).elim row fun x ↦ set x row

def batchUpdate (rows : List (Incoming Key)) (table : Table V) : Except String (Table V) :=
  upsertStatement T .update (rows.filter fun x ↦ (table (T.value x.1.pk)).isNone)
    (updateStatement T (updated .update) rows table)

def batchStatement (b : ApplyBatch Key) (table : Table V) : Except String (Table V) :=
  match b.operation with
  | .update => batchUpdate T b.rows table
  | .delete =>
    if T.ordered b.relationId then .ok (updateStatement T (marked .delete) b.rows table)
    else upsertStatement T .delete b.rows table
  | .insert => upsertStatement T .insert b.rows table

def applyBatch (μ : Mirror V) (b : ApplyBatch Key) : Except String (Mirror V) :=
  (batchStatement T b (μ b.relationId)).map (update μ b.relationId)

/-! ### Cutting batches -/

inductive Event (Key : Type*)
  | push (change : RowChange Key) (seq : ℤ)
  | flush
  deriving DecidableEq

def pushes : List (Event Key) → List (RowChange Key × ℤ)
  | [] => []
  | .push change seq :: events => (change, seq) :: pushes events
  | .flush :: events => pushes events

structure BatchRun (Key V : Type*) where
  batch : Option (ApplyBatch Key)
  mirror : Mirror V
  executed : List (ApplyBatch Key)

variable [DecidableEq Key] (cap : ℕ)

def mustFlushBeforePush (b : ApplyBatch Key) (change : RowChange Key) : Bool :=
  decide (b.relationId ≠ change.relationId ∨ b.operation ≠ change.operation) ||
    decide (cap ≤ b.rows.length) || b.rows.any fun r ↦ decide (r.1.pk = change.row.pk)

def stagedAfter (staged : Option (ApplyBatch Key)) (change : RowChange Key) (seq : ℤ) :
    ApplyBatch Key :=
  let opened : ApplyBatch Key := ⟨change.relationId, change.operation, [(change.row, seq)]⟩
  match staged with
  | none => opened
  | some b =>
    if mustFlushBeforePush cap b change then opened
    else { b with rows := b.rows ++ [(change.row, seq)] }

def nextBatch (staged : Option (ApplyBatch Key)) : Event Key → Option (ApplyBatch Key)
  | .flush => none
  | .push change seq => some (stagedAfter cap staged change seq)

namespace BatchRun

def flush (σ : BatchRun Key V) : Except String (BatchRun Key V) :=
  match σ.batch with
  | none => .ok σ
  | some b =>
    if b.rows = [] then .ok { σ with batch := none }
    else (applyBatch T σ.mirror b).map fun μ ↦ ⟨none, μ, σ.executed ++ [b]⟩

def push (change : RowChange Key) (seq : ℤ) (σ : BatchRun Key V) : Except String (BatchRun Key V) :=
  (if σ.batch.any fun b ↦ mustFlushBeforePush cap b change then σ.flush T else .ok σ).map fun σ' ↦
    { σ' with batch := some (stagedAfter cap σ.batch change seq) }

def step (σ : BatchRun Key V) : Event Key → Except String (BatchRun Key V)
  | .flush => σ.flush T
  | .push change seq => σ.push T cap change seq

def run : BatchRun Key V → List (Event Key) → Except String (BatchRun Key V)
  | σ, [] => .ok σ
  | σ, event :: events => (σ.step T cap event).bind fun σ' ↦ run σ' events

end BatchRun

section Distinct

omit [DecidableEq Key]

variable {rows : List (Incoming Key)}

variable {T} in
theorem foldl_update_apply (f : Incoming Key → Option MirrorRow → Option MirrorRow)
    (hnd : (values T rows).Nodup) (table : Table V) (v : V) :
    rows.foldl (fun table x ↦ update table (T.value x.1.pk)
        (f x (table (T.value x.1.pk)))) table v =
      (rows.find? fun x ↦ T.value x.1.pk = v).elim (table v) fun x ↦ f x (table v) := by
  induction rows generalizing table with
  | nil => rfl
  | cons x rows ih =>
    obtain ⟨hx, hrs⟩ := nodup_cons.1 hnd
    rw [foldl_cons, ih hrs]
    by_cases hv : T.value x.1.pk = v
    · -- no later row has this key
      have hnone : rows.find? (fun y ↦ T.value y.1.pk = v) = none := by
        rw [find?_eq_none]
        intro y hy hyv
        exact hx (mem_map.2 ⟨y, hy, (of_decide_eq_true hyv).trans hv.symm⟩)
      rw [hnone, find?_cons_of_pos (by simpa using hv)]
      simp [hv]
    · rw [find?_cons_of_neg (by simpa using hv), update_of_ne (Ne.symm hv)]

theorem joined_filter (hnd : (values T rows).Nodup) (v : V) :
    T.joined (rows.filter fun x ↦ T.value x.1.pk = v) = rows.find? fun x ↦ T.value x.1.pk = v := by
  have hf : rows.filter (fun x ↦ T.value x.1.pk = v) =
      (rows.find? fun x ↦ T.value x.1.pk = v).toList := by
    induction rows with
    | nil => rfl
    | cons x rows ih =>
      obtain ⟨hx, hrs⟩ := nodup_cons.1 hnd
      by_cases hv : T.value x.1.pk = v
      · have hnone : rows.filter (fun y ↦ T.value y.1.pk = v) = [] := by
          rw [filter_eq_nil_iff]
          intro y hy hyv
          exact hx (mem_map.2 ⟨y, hy, (of_decide_eq_true hyv).trans hv.symm⟩)
        simp [hv, hnone]
      · simp [hv, ih hrs]
  rw [hf]
  cases rows.find? fun x ↦ T.value x.1.pk = v with
  | none =>
    cases hj : T.joined [] with
    | none => exact hj
    | some x => exact absurd (T.joined_mem _ _ hj) not_mem_nil
  | some x =>
    obtain ⟨y, hy⟩ := Option.isSome_iff_exists.1 (T.joined_isSome [x] (by simp))
    obtain rfl := mem_singleton.1 (T.joined_mem _ _ hy)
    exact hy

def tableAfter (b : ApplyBatch Key) (table : Table V) : Table V := fun v ↦
  (b.rows.find? fun x ↦ T.value x.1.pk = v).elim (table v) fun x ↦
    rowAfter T b.relationId b.operation x (table v)

theorem batchUpdate_of_distinct (hnd : (values T rows).Nodup) (table : Table V) :
    batchUpdate T rows table = .ok fun v ↦
      (rows.find? fun x ↦ T.value x.1.pk = v).elim (table v) fun x ↦
        some (upserted .update x (table v)) := by
  have hs : (values T (rows.filter fun x ↦ (table (T.value x.1.pk)).isNone)).Nodup :=
    hnd.sublist (filter_sublist.map _)
  rw [batchUpdate, upsertStatement, if_pos hs]
  congr 1
  funext v
  rw [foldl_update_apply (fun x row ↦ some (upserted .update x row)) hs, updateStatement,
    joined_filter T hnd]
  have hfi : (rows.filter fun x ↦ (table (T.value x.1.pk)).isNone).find?
      (fun x ↦ T.value x.1.pk = v) =
        if table v = none then rows.find? (fun x ↦ T.value x.1.pk = v) else none := by
    rw [find?_filter]
    split_ifs with ht
    · congr 1
      funext x
      by_cases hv : T.value x.1.pk = v <;> simp [hv, ht]
    · rw [find?_eq_none]
      intro x _
      by_cases hv : T.value x.1.pk = v <;> simp [hv, ht]
  rw [hfi]
  cases ht : table v with
  | none => rfl
  | some row => cases rows.find? fun x ↦ T.value x.1.pk = v <;> rfl

variable {b : ApplyBatch Key}

theorem batchStatement_of_distinct (hnd : (values T b.rows).Nodup) (table : Table V) :
    batchStatement T b table = .ok (tableAfter T b table) := by
  have hu : ∀ op, upsertStatement T op b.rows table = .ok fun v ↦
      (b.rows.find? fun x ↦ T.value x.1.pk = v).elim (table v) fun x ↦
        some (upserted op x (table v)) := by
    intro op
    rw [upsertStatement, if_pos hnd]
    congr 1
    funext v
    exact foldl_update_apply (fun x row ↦ some (upserted op x row)) hnd table v
  unfold batchStatement tableAfter rowAfter
  cases hop : b.operation with
  | insert => simpa using hu .insert
  | update => simpa using batchUpdate_of_distinct T hnd table
  | delete =>
    by_cases ho : T.ordered b.relationId = true
    · simp only [ho, and_self, if_true]
      congr 1
      funext v
      rw [updateStatement, joined_filter T hnd]
      cases b.rows.find? fun x ↦ T.value x.1.pk = v <;> cases table v <;> rfl
    · simpa [ho] using hu .delete

theorem applyChanges_changes (hnd : (values T b.rows).Nodup) (μ : Mirror V) :
    applyChanges T μ b.changes =
      update μ b.relationId (tableAfter T b (μ b.relationId)) := by
  have hfo : ∀ (rows : List (Incoming Key)) (μ : Mirror V),
      applyChanges T μ (ApplyBatch.changes { b with rows := rows }) =
        update μ b.relationId (rows.foldl (fun table x ↦
          update table (T.value x.1.pk)
            (rowAfter T b.relationId b.operation x (table (T.value x.1.pk))))
          (μ b.relationId)) := by
    intro rows
    induction rows with
    | nil => intro μ; exact (update_eq_self b.relationId μ).symm
    | cons x rows ih =>
      intro μ
      have hc : ApplyBatch.changes { b with rows := x :: rows } =
          (⟨b.relationId, b.operation, x.1⟩, x.2) ::
            ApplyBatch.changes { b with rows := rows } := rfl
      rw [hc, applyChanges, foldl_cons]
      refine (ih _).trans ?_
      simp [applyChange]
  refine (hfo b.rows μ).trans ?_
  congr 1
  funext v
  exact foldl_update_apply (rowAfter T b.relationId b.operation) hnd (μ b.relationId) v

/-- **A batch of distinct keys.** -/
theorem applyBatch_of_distinct (hnd : (values T b.rows).Nodup) (μ : Mirror V) :
    applyBatch T μ b = .ok (applyChanges T μ b.changes) := by
  rw [applyBatch, batchStatement_of_distinct T hnd, applyChanges_changes T hnd]
  rfl

end Distinct

/-! ### Runs -/

def Admits (staged : Option (ApplyBatch Key)) : Event Key → Prop
  | .flush => True
  | .push change _ => ∀ b, staged = some b → mustFlushBeforePush cap b change = false →
      ∀ x ∈ b.rows, T.value x.1.pk ≠ T.value change.row.pk

/-- No event puts a key into a batch that has it. -/
def Distinguished : Option (ApplyBatch Key) → List (Event Key) → Prop
  | _, [] => True
  | staged, event :: events =>
    Admits T cap staged event ∧ Distinguished (nextBatch cap staged event) events

section Runs

variable {T cap} {σ τ : BatchRun Key V} {event : Event Key} {events : List (Event Key)}
  {b : ApplyBatch Key} {change : RowChange Key} {seq : ℤ} {staged : Option (ApplyBatch Key)}

def stagedChanges (staged : Option (ApplyBatch Key)) : List (RowChange Key × ℤ) :=
  (staged.map ApplyBatch.changes).getD []

omit [DecidableEq V] in
theorem key_eq_of_not_mustFlush (h : mustFlushBeforePush cap b change = false) :
    b.relationId = change.relationId ∧ b.operation = change.operation := by
  simp only [mustFlushBeforePush, Bool.or_eq_false_iff, decide_eq_false_iff_not, not_or,
    not_not] at h
  exact h.1.1

structure Sound (T : Statements Key V) (μ : Mirror V) (emitted : List (RowChange Key × ℤ))
    (σ : BatchRun Key V) : Prop where
  mirror : applyChanges T σ.mirror (stagedChanges σ.batch) = applyChanges T μ emitted
  staged : ∀ b, σ.batch = some b → (values T b.rows).Nodup
  executed : ∀ b ∈ σ.executed, (values T b.rows).Nodup

variable {μ : Mirror V} {emitted : List (RowChange Key × ℤ)}

omit [DecidableEq Key] in
theorem Sound.flush (h : Sound T μ emitted σ) :
    ∃ τ, σ.flush T = .ok τ ∧ τ.batch = none ∧ Sound T μ emitted τ := by
  cases hbt : σ.batch with
  | none => exact ⟨σ, by rw [BatchRun.flush, hbt], hbt, h⟩
  | some b =>
    have hm := h.mirror
    rw [hbt] at hm
    rw [BatchRun.flush, hbt]
    by_cases hrs : b.rows = []
    · refine ⟨{ σ with batch := none }, if_pos hrs, rfl, ?_, fun b hb ↦ (by cases hb), h.executed⟩
      rw [← hm]
      simp [stagedChanges, ApplyBatch.changes, hrs]
    · refine ⟨⟨none, applyChanges T σ.mirror b.changes, σ.executed ++ [b]⟩, ?_, rfl, hm,
        fun b hb ↦ (by cases hb), ?_⟩
      · simp only [if_neg hrs, applyBatch_of_distinct T (h.staged b hbt), Except.map]
      · intro b' hb'
        rcases mem_append.1 hb' with hb' | hb'
        · exact h.executed b' hb'
        · rw [mem_singleton.1 hb']
          exact h.staged b hbt

omit [DecidableEq Key] in
theorem Sound.opened (h : Sound T μ emitted σ) (hbt : σ.batch = none) :
    Sound T μ (emitted ++ [(change, seq)])
      { σ with batch := some ⟨change.relationId, change.operation, [(change.row, seq)]⟩ } := by
  have hm := h.mirror
  rw [hbt] at hm
  refine ⟨?_, ?_, h.executed⟩
  · have hσ : σ.mirror = applyChanges T μ emitted := hm
    rw [applyChanges_append, ← hσ]
    rfl
  · rintro b ⟨rfl⟩
    exact nodup_singleton _

theorem Sound.extended (h : Sound T μ emitted σ) (hbt : σ.batch = some b)
    (hfl : mustFlushBeforePush cap b change = false)
    (hne : ∀ x ∈ b.rows, T.value x.1.pk ≠ T.value change.row.pk) :
    Sound T μ (emitted ++ [(change, seq)])
      { σ with batch := some { b with rows := b.rows ++ [(change.row, seq)] } } := by
  obtain ⟨relationId, op, row⟩ := change
  obtain ⟨rfl, rfl⟩ := key_eq_of_not_mustFlush hfl
  have hm := h.mirror
  rw [hbt] at hm
  refine ⟨?_, ?_, h.executed⟩
  · have hcs : stagedChanges (some { b with rows := b.rows ++ [(row, seq)] }) =
        stagedChanges (some b) ++ [(⟨b.relationId, b.operation, row⟩, seq)] := by
      simp [stagedChanges, ApplyBatch.changes]
    show applyChanges T σ.mirror
      (stagedChanges (some { b with rows := b.rows ++ [(row, seq)] })) = _
    rw [hcs, applyChanges_append, hm, applyChanges_append]
  · rintro b' ⟨rfl⟩
    rw [values, map_append]
    refine (h.staged b hbt).append (nodup_singleton _) ?_
    intro v hv hv'
    obtain ⟨x, hx, rfl⟩ := mem_map.1 hv
    exact hne x hx (mem_singleton.1 hv')

/-- **One event** that is admitted keeps a run sound. -/
theorem Sound.step (h : Sound T μ emitted σ) (ha : Admits T cap σ.batch event) :
    ∃ τ, σ.step T cap event = .ok τ ∧ τ.batch = nextBatch cap σ.batch event ∧
      Sound T μ (emitted ++ pushes [event]) τ := by
  cases event with
  | flush =>
    obtain ⟨τ, hτ, hbt, hsd⟩ := h.flush
    exact ⟨τ, hτ, hbt, by simpa [pushes] using hsd⟩
  | push change seq =>
    rw [BatchRun.step, BatchRun.push, nextBatch]
    cases hbt : σ.batch with
    | none => exact ⟨_, rfl, rfl, h.opened hbt⟩
    | some b =>
      rw [stagedAfter, Option.any_some]
      cases hfl : mustFlushBeforePush cap b change with
      | true =>
        obtain ⟨τ, hτ, he, hsd⟩ := h.flush
        exact ⟨_, by simp only [if_true, hτ, Except.map], rfl, hsd.opened he⟩
      | false => exact ⟨_, rfl, rfl, h.extended hbt hfl (ha b hbt hfl)⟩

omit [DecidableEq Key] in
theorem pushes_append (events events' : List (Event Key)) :
    pushes (events ++ events') = pushes events ++ pushes events' := by
  induction events with
  | nil => rfl
  | cons event events ih => cases event <;> simp [pushes, ih]

/-- **A run** whose events are all admitted succeeds and is sound. -/
theorem Sound.run (h : Sound T μ emitted σ) (hd : Distinguished T cap σ.batch events) :
    ∃ τ, σ.run T cap events = .ok τ ∧ Sound T μ (emitted ++ pushes events) τ := by
  induction events generalizing σ emitted with
  | nil => exact ⟨σ, rfl, by simpa [pushes] using h⟩
  | cons event events ih =>
    obtain ⟨σ₁, hstep, hbt, hsd⟩ := h.step hd.1
    obtain ⟨τ, hr, hτ⟩ := ih hsd (hbt ▸ hd.2)
    refine ⟨τ, by rw [BatchRun.run, hstep]; exact hr, ?_⟩
    rwa [List.append_assoc, ← pushes_append] at hτ

omit [DecidableEq Key] in
theorem flush_batch (h : σ.flush T = .ok τ) : τ.batch = none := by
  rw [BatchRun.flush] at h
  split at h
  next hbt =>
    cases h
    exact hbt
  · split_ifs at h
    · cases h
      rfl
    · obtain ⟨μ', -, rfl⟩ := map_eq_ok_iff.1 h
      rfl

theorem step_batch (h : σ.step T cap event = .ok τ) : τ.batch = nextBatch cap σ.batch event := by
  cases event with
  | flush => exact flush_batch h
  | push change seq =>
    obtain ⟨υ, -, rfl⟩ := map_eq_ok_iff.1 h
    rfl

end Runs

section Pass

variable {Tuple : Type*} (env : ApplyEnv Tuple Key) (req : BoundedApplyRequest)

def rowEvents (s : ApplyState Key) (relationId : ℕ) (operation : MirrorOperation) (tuple : Tuple) :
    List (Event Key) :=
  if s.skippingTransaction || s.skippingFlushOrigin then []
  else
    match env.managed relationId with
    | none => []
    | some config =>
      match config.takeRow operation tuple with
      | .error _ => []
      | .ok row =>
        match env.nextIdAfter s.issued (seqFloor req config.tableOid s.seqWatermark) with
        | .error _ => []
        | .ok seq => [.push ⟨relationId, operation, row⟩ seq]

def messageEvents (s : ApplyState Key) : PgOutputMessage Tuple → List (Event Key)
  | .begin _ => [.flush]
  | .commit _ => [.flush]
  | .insert relationId new => rowEvents env req s relationId .insert new
  | .update relationId _ new => rowEvents env req s relationId .update new
  | .delete relationId old => rowEvents env req s relationId .delete old
  | _ => []

def passEvents : ApplyState Key → List (PgOutputMessage Tuple) → List (Event Key)
  | _, [] => []
  | s, m :: ms =>
    if s.stopAfterCommit then []
    else
      match applyMessage env req s m with
      | .error _ => []
      | .ok s' => messageEvents env req s m ++ passEvents s' ms

def logStep (log : Option (ApplyBatch Key) × List (RowChange Key × ℤ)) :
    Event Key → Option (ApplyBatch Key) × List (RowChange Key × ℤ)
  | .flush => (none, log.2 ++ stagedChanges log.1)
  | .push change seq =>
    (some (stagedAfter applyBatchRows log.1 change seq),
      if log.1.any fun b ↦ mustFlushBeforePush applyBatchRows b change then
        log.2 ++ stagedChanges log.1
      else log.2)

variable {env req} {s s' : ApplyState Key} {operation : MirrorOperation}

theorem stageRow_log {relationId : ℕ} {row : StagedRow Key} {seq : ℤ}
    (h : stageRow relationId operation row seq s = .ok s') : (s'.batch, s'.written) =
      logStep (s.batch, s.written) (.push ⟨relationId, operation, row⟩ seq) := by
  rw [stageRow] at h
  cases hb : s.batch with
  | none =>
    rw [hb] at h
    cases h
    rfl
  | some b =>
    rw [hb] at h
    have hm : mustFlushBeforePush applyBatchRows b ⟨relationId, operation, row⟩ =
        b.mustFlushBeforePush relationId operation row.pk := rfl
    simp only at h
    split_ifs at h with hfl
    · obtain ⟨s₁, hs₁, rfl⟩ := map_eq_ok_iff.1 h
      rw [flushBatch_eq_ok hs₁]
      simp [logStep, stagedAfter, hm, hfl, ApplyState.emitted, stagedChanges, hb]
    · cases h
      simp [logStep, stagedAfter, hm, hfl]

theorem applyRowMessage_log {relationId : ℕ} {tuple : Tuple}
    (h : applyRowMessage env req relationId operation tuple s = .ok s') : (s'.batch, s'.written) =
      (rowEvents env req s relationId operation tuple).foldl logStep (s.batch, s.written) := by
  rw [applyRowMessage] at h
  rw [rowEvents]
  split_ifs at h ⊢ with hsk
  · cases h
    rfl
  · obtain ⟨s₁, hs₁, rfl⟩ := map_eq_ok_iff.1 h
    simp only [pushChange, ite_error_eq_ok_iff] at hs₁
    obtain ⟨-, -, hs₁⟩ := hs₁
    cases hm : env.managed relationId with
    | none =>
      simp only [hm, Except.ok.injEq] at hs₁
      subst hs₁
      rfl
    | some config =>
      simp only [hm, bind_eq_ok_iff] at hs₁
      obtain ⟨row, hr, seq, hs, ht⟩ := hs₁
      have hl := stageRow_log ht
      simp only [hr, hs]
      exact hl

theorem applyMessage_log {m : PgOutputMessage Tuple} (h : applyMessage env req s m = .ok s') :
    (s'.batch, s'.written) = (messageEvents env req s m).foldl logStep (s.batch, s.written) := by
  have hf : ∀ {s₁ : ApplyState Key}, flushBatch s = .ok s₁ →
      (s₁.batch, s₁.written) = logStep (s.batch, s.written) .flush := by
    intro s₁ hs₁
    rw [flushBatch_eq_ok hs₁]
    rfl
  cases m with
  | begin finalLsn =>
    obtain ⟨s₁, hs₁, rfl⟩ := map_eq_ok_iff.1 h
    have hl := hf hs₁
    exact hl
  | origin name =>
    simp only [applyMessage] at h
    split_ifs at h <;> obtain rfl := Except.ok.inj h <;> rfl
  | commit endLsn =>
    simp only [applyMessage, ite_error_eq_ok_iff] at h
    obtain ⟨s₁, hs₁, rfl⟩ := map_eq_ok_iff.1 h.2
    have hl := hf hs₁
    exact hl
  | relation id | ignored =>
    cases h
    rfl
  | insert relationId new | update relationId old new | delete relationId old =>
    exact applyRowMessage_log h

variable {ms : List (PgOutputMessage Tuple)}

theorem applyMessages_log (h : applyMessages env req s ms = .ok s') :
    (s'.batch, s'.written) = (passEvents env req s ms).foldl logStep (s.batch, s.written) := by
  induction ms generalizing s with
  | nil =>
    cases h
    rfl
  | cons m ms ih =>
    rw [applyMessages] at h
    rw [passEvents]
    split_ifs at h ⊢ with hsp
    · cases h
      rfl
    · obtain ⟨s₁, hm, hms⟩ := bind_eq_ok_iff.1 h
      rw [hm]
      simp only [foldl_append]
      rw [← applyMessage_log hm, ih hms]

theorem foldl_logStep_emitted (events : List (Event Key))
    (log : Option (ApplyBatch Key) × List (RowChange Key × ℤ)) :
    (events.foldl logStep log).2 ++ stagedChanges (events.foldl logStep log).1 =
      log.2 ++ stagedChanges log.1 ++ pushes events := by
  have hstep : ∀ log : Option (ApplyBatch Key) × List (RowChange Key × ℤ), ∀ event,
      (logStep log event).2 ++ stagedChanges (logStep log event).1 =
        log.2 ++ stagedChanges log.1 ++ pushes [event] := by
    rintro ⟨staged, written⟩ event
    cases event with
    | flush => simp [logStep, stagedChanges, pushes]
    | push change seq =>
      obtain ⟨relationId, op, row⟩ := change
      cases staged with
      | none => simp [logStep, stagedChanges, stagedAfter, ApplyBatch.changes, pushes]
      | some b =>
        cases hfl : mustFlushBeforePush applyBatchRows b ⟨relationId, op, row⟩ with
        | true => simp [logStep, stagedChanges, stagedAfter, ApplyBatch.changes, pushes, hfl]
        | false =>
          obtain ⟨rfl, rfl⟩ := key_eq_of_not_mustFlush hfl
          simp [logStep, stagedChanges, stagedAfter, ApplyBatch.changes, pushes, hfl]
  induction events generalizing log with
  | nil => simp [pushes]
  | cons event events ih =>
    rw [foldl_cons, ih, hstep, List.append_assoc, ← pushes_append, singleton_append]

theorem run_batch_eq_none_iff {σ τ : BatchRun Key V} {events : List (Event Key)}
    (h : σ.run T cap events = .ok τ) {log : Option (ApplyBatch Key) × List (RowChange Key × ℤ)}
    (hl : σ.batch = none ↔ log.1 = none) :
    τ.batch = none ↔ (events.foldl logStep log).1 = none := by
  induction events generalizing σ log with
  | nil =>
    cases h
    exact hl
  | cons event events ih =>
    obtain ⟨σ₁, hσ₁, hre⟩ := bind_eq_ok_iff.1 h
    refine ih hre ?_
    rw [step_batch hσ₁]
    cases event <;> simp [nextBatch, logStep]

theorem batch_eq_none_of_applyMessages
    (h : applyMessages env req s ms = .ok s') (hs : s.transactionLsn = none → s.batch = none) :
    s'.transactionLsn = none → s'.batch = none := by
  induction ms generalizing s with
  | nil => exact Except.ok.inj h ▸ hs
  | cons m ms ih =>
    rw [applyMessages] at h
    split_ifs at h
    · exact Except.ok.inj h ▸ hs
    obtain ⟨s₁, hm, hms⟩ := bind_eq_ok_iff.1 h
    refine ih hms ?_
    have hr : ∀ {relationId operation tuple},
        applyRowMessage env req relationId operation tuple s = .ok s₁ →
        s₁.transactionLsn = none → s₁.batch = none := by
      intro relationId operation tuple ha hcl
      rw [applyRowMessage] at ha
      split_ifs at ha
      · exact Except.ok.inj ha ▸ hs (Except.ok.inj ha ▸ hcl)
      · obtain ⟨s₂, hs₂, rfl⟩ := map_eq_ok_iff.1 ha
        have ho := (ApplyControl.mk.inj (pushChange_spec hs₂).2).1
        simp only [pushChange, ite_error_eq_ok_iff] at hs₂
        rw [← ho] at hs₂
        exact absurd hcl (by simpa using hs₂.1)
    cases m with
    | begin finalLsn =>
      obtain ⟨s₂, -, rfl⟩ := map_eq_ok_iff.1 hm
      rintro ⟨⟩
    | origin name =>
      simp only [applyMessage] at hm
      split_ifs at hm <;> obtain rfl := Except.ok.inj hm <;> exact hs
    | commit endLsn =>
      simp only [applyMessage, ite_error_eq_ok_iff] at hm
      obtain ⟨s₂, hs₂, rfl⟩ := map_eq_ok_iff.1 hm.2
      exact fun _ ↦ by rw [flushBatch_eq_ok hs₂]
    | relation id =>
      cases hm
      exact hs
    | insert relationId new | update relationId old new | delete relationId old => exact hr hm
    | ignored => exact Except.ok.inj hm ▸ hs

/-- What a batched pass owes to its changes in WAL order. -/
structure BatchedApply (T : Statements Key V) (cap : ℕ) (env : ApplyEnv Tuple Key)
    (req : BoundedApplyRequest) (μ : Mirror V) (watermark : ℤ) (events : List (Event Key))
    (written : List (RowChange Key × ℤ)) : Prop where
  order : pushes events = written
  mirror : ∃ σ : BatchRun Key V, BatchRun.run T cap ⟨none, μ, []⟩ events = .ok σ ∧ σ.batch = none ∧
    σ.mirror = applyChanges T μ written ∧ ∀ b ∈ σ.executed, (values T b.rows).Nodup
  increasing : (written.map Prod.snd).Pairwise (· < ·)
  above : ∀ e ∈ written, watermark < e.2
  floored : ∀ e ∈ written, ∀ config floor, env.managed e.1.relationId = some config →
    req.targetPruneFloor = some (config.tableOid, floor) → floor < e.2

variable {durable : Option ℕ} {watermark : ℤ} {stream : List (PgOutputMessage Tuple)}
  {outcome : BoundedApplyOutcome} {written : List (RowChange Key × ℤ)}

theorem pushes_passEvents
    (h : applyBoundedLocked env req durable watermark stream = .ok (outcome, written)) :
    pushes (passEvents env req (.initial watermark) stream) = written ∧
      ((passEvents env req (.initial watermark) stream).foldl logStep (none, [])).1 = none := by
  obtain ⟨s, hs, hf⟩ := bind_eq_ok_iff.1 h
  simp only [ite_error_eq_ok_iff, Except.ok.injEq, Prod.mk.injEq] at hf
  obtain ⟨hcl, -, rfl⟩ := hf
  have hbt : s.batch = none := batch_eq_none_of_applyMessages hs (fun _ ↦ rfl) (by simpa using hcl)
  have hl : (s.batch, s.written) =
      (passEvents env req (.initial watermark) stream).foldl logStep (none, []) :=
    applyMessages_log hs
  have he := foldl_logStep_emitted (passEvents env req (.initial watermark) stream) (none, [])
  rw [← hl, hbt] at he
  rw [← hl]
  exact ⟨by simpa [stagedChanges] using he.symm, hbt⟩

theorem batchedApply_of_distinguished (henv : env.AllocatesAbove)
    (h : applyBoundedLocked env req durable watermark stream = .ok (outcome, written))
    {T : Statements Key V} {cap : ℕ} (μ : Mirror V)
    (hd : Distinguished T cap none (passEvents env req (.initial watermark) stream)) :
    BatchedApply T cap env req μ watermark (passEvents env req (.initial watermark) stream)
      written := by
  obtain ⟨ho, hnone⟩ := pushes_passEvents h
  obtain ⟨hi, hab, hf⟩ := applyBoundedLocked_allocates henv h
  have hin : Sound T μ [] (⟨none, μ, []⟩ : BatchRun Key V) :=
    ⟨rfl, fun b hb ↦ (by cases hb), nofun⟩
  obtain ⟨σ, hr, hsd⟩ := hin.run hd
  have hbt : σ.batch = none := (run_batch_eq_none_iff T cap hr Iff.rfl).2 hnone
  have hm := hsd.mirror
  rw [hbt, nil_append, ho] at hm
  exact ⟨ho, ⟨σ, hr, hbt, hm, hsd.executed⟩, hi, hab, hf⟩

/-! ### Keys of a stream -/

/-- The key of a row message, with its relation. -/
def messageKey (env : ApplyEnv Tuple Key) (relationId : ℕ) (operation : MirrorOperation)
    (tuple : Tuple) : List (ℕ × Key) :=
  match env.managed relationId with
  | none => []
  | some config => ((config.takeRow operation tuple).toOption.map fun row ↦
      (relationId, row.pk)).toList

/-- The keys of managed relations in a stream. -/
def streamKeys (env : ApplyEnv Tuple Key) (stream : List (PgOutputMessage Tuple)) :
    List (ℕ × Key) :=
  stream.flatMap fun
    | .insert relationId new => messageKey env relationId .insert new
    | .update relationId _ new => messageKey env relationId .update new
    | .delete relationId old => messageKey env relationId .delete old
    | _ => []

/-- Keys of one relation that are equal in the database are equal texts. -/
def OneText (T : Statements Key V) (keys : List (ℕ × Key)) : Prop :=
  ∀ a ∈ keys, ∀ b ∈ keys, a.1 = b.1 → T.value a.2 = T.value b.2 → a.2 = b.2

instance (T : Statements Key V) (keys : List (ℕ × Key)) : Decidable (OneText T keys) :=
  inferInstanceAs (Decidable (∀ a ∈ keys, ∀ b ∈ keys, _))

omit [DecidableEq Key] in
theorem mem_messageKey_of_mem_rowEvents {relationId : ℕ} {tuple : Tuple}
    {e : RowChange Key × ℤ} (he : e ∈ pushes (rowEvents env req s relationId operation tuple)) :
    (e.1.relationId, e.1.row.pk) ∈ messageKey env relationId operation tuple := by
  rw [rowEvents] at he
  split at he
  · cases he
  · rw [messageKey]
    split at he
    · cases he
    · split at he
      · cases he
      next hr =>
        split at he
        · cases he
        · obtain rfl := mem_singleton.1 he
          simp [hr, Except.toOption]

theorem mem_streamKeys_of_mem_passEvents {e : RowChange Key × ℤ}
    (he : e ∈ pushes (passEvents env req s ms)) :
    (e.1.relationId, e.1.row.pk) ∈ streamKeys env ms := by
  induction ms generalizing s with
  | nil => cases he
  | cons m ms ih =>
    rw [passEvents] at he
    split at he
    · cases he
    · split at he
      · cases he
      · rw [pushes_append, mem_append] at he
        rw [streamKeys, flatMap_cons, mem_append]
        refine he.imp (fun he ↦ ?_) ih
        cases m with
        | insert relationId new | update relationId old new | delete relationId old =>
          exact mem_messageKey_of_mem_rowEvents he
        | _ => cases he

omit [DecidableEq V] in
/-- Staged keys and keys to come are told apart by their texts. -/
theorem distinguished_of_oneText {T : Statements Key V} {cap : ℕ} {keys : List (ℕ × Key)}
    (hk : OneText T keys) {staged : Option (ApplyBatch Key)} {events : List (Event Key)}
    (hs : ∀ b, staged = some b → ∀ x ∈ b.rows, (b.relationId, x.1.pk) ∈ keys)
    (he : ∀ e ∈ pushes events, (e.1.relationId, e.1.row.pk) ∈ keys) :
    Distinguished T cap staged events := by
  induction events generalizing staged with
  | nil => trivial
  | cons event events ih =>
    cases event with
    | flush => exact ⟨trivial, ih (fun b hb ↦ by cases hb) he⟩
    | push change seq =>
      obtain ⟨hc, hre⟩ := forall_mem_cons.1 he
      refine ⟨fun b hb hfl x hx hv ↦ ?_, ih ?_ hre⟩
      · obtain ⟨hrel, -⟩ := key_eq_of_not_mustFlush hfl
        have hpk := hk _ (hs b hb x hx) _ hc hrel hv
        simp only [mustFlushBeforePush, Bool.or_eq_false_iff, any_eq_false] at hfl
        exact hfl.2 x hx (decide_eq_true hpk)
      · rintro _ ⟨⟩ x hx
        cases staged with
        | none =>
          obtain rfl := mem_singleton.1 hx
          exact hc
        | some b =>
          rw [stagedAfter] at hx ⊢
          split at hx
          next hfl =>
            rw [if_pos hfl]
            obtain rfl := mem_singleton.1 hx
            exact hc
          next hfl =>
            rw [if_neg hfl]
            obtain ⟨hrel, -⟩ := key_eq_of_not_mustFlush (Bool.eq_false_of_not_eq_true hfl)
            rcases mem_append.1 hx with hx | hx
            · exact hs b rfl x hx
            · rw [mem_singleton.1 hx, hrel]
              exact hc

/-- **A batched pass** does what its changes do one after the other, for every stream whose key
values each come in one text. -/
theorem batchedApply_of_oneText (henv : env.AllocatesAbove)
    (h : applyBoundedLocked env req durable watermark stream = .ok (outcome, written))
    (T : Statements Key V) (htext : OneText T (streamKeys env stream)) (cap : ℕ) (μ : Mirror V) :
    BatchedApply T cap env req μ watermark (passEvents env req (.initial watermark) stream)
      written :=
  batchedApply_of_distinguished henv h μ
    (distinguished_of_oneText htext (fun b hb ↦ by cases hb) fun _ ↦
      mem_streamKeys_of_mem_passEvents)

end Pass

section Numeric

/-- A table whose key is `numeric`. -/
def numericStatements : Statements NumericText NumericValue where
  value := NumericText.number
  ordered := fun _ ↦ false
  joined := List.head?
  joined_mem := fun _ _ h ↦ mem_of_head? h
  joined_isSome := fun rows hrows ↦ by cases rows <;> simp_all

def numericEnv : ApplyEnv NumericText NumericText where
  managed := fun id ↦ if id = 1 then some ⟨1, fun _ tuple ↦ .ok ⟨tuple, none, none⟩⟩ else none
  isFlushReplicationOrigin := fun _ ↦ false
  nextIdAfter := fun _ floor ↦ .ok (floor + 1)
  elapsed := fun _ ↦ 0
  maxRowsPerTick := 0
  maxMsPerTick := 0

def unboundedRequest : BoundedApplyRequest := ⟨none, none, some 0, some 0⟩

def updateStream (keys : List NumericText) : List (PgOutputMessage NumericText) :=
  [.begin 1, .relation 1] ++ keys.map (.update 1 none) ++ [.commit 2]

theorem numericEnv_allocatesAbove : numericEnv.AllocatesAbove := by
  rintro n floor seq ⟨⟩
  omega

/-- Two keys, the first of which comes back in the text it had. -/
def repeated : List NumericText :=
  [.decimal (.unsigned 1 [5]), .decimal (.unsigned 2 []), .decimal (.unsigned 1 [5])]

/-- The repeated key starts a second batch. -/
theorem batchedApply_of_oneText_repeated : ∃ written : List (RowChange NumericText × ℤ),
    written.map Prod.snd = [1, 2, 3] ∧
    passEvents numericEnv unboundedRequest (.initial 0) (updateStream repeated) ≠ [] ∧
    BatchedApply numericStatements applyBatchRows numericEnv unboundedRequest (fun _ _ ↦ none) 0
      (passEvents numericEnv unboundedRequest (.initial 0) (updateStream repeated)) written := by
  have hpa : applyBoundedLocked numericEnv unboundedRequest none 0 (updateStream repeated) =
      .ok (⟨3, some 2, false⟩, [(⟨1, .update, ⟨.decimal (.unsigned 1 [5]), none, none⟩⟩, 1),
        (⟨1, .update, ⟨.decimal (.unsigned 2 []), none, none⟩⟩, 2),
        (⟨1, .update, ⟨.decimal (.unsigned 1 [5]), none, none⟩⟩, 3)]) := by decide +kernel
  exact ⟨_, rfl, by decide +kernel, batchedApply_of_oneText numericEnv_allocatesAbove hpa
    numericStatements (by decide +kernel) applyBatchRows _⟩

/-- The key `62.5` in two spellings. -/
def respelled : List NumericText := [.decimal (.unsigned 62 [5]), .decimal (.unsigned 62 [5, 0])]

/-- A mirror that has the row `62.5`. -/
def insertedRow : Mirror NumericValue := fun _ v ↦
  if v = .finite (125 / 2) then some ⟨none, 0, .insert, none⟩ else none

theorem batch_with_one_key_twice :
    ∃ outcome written σ,
      applyBoundedLocked numericEnv unboundedRequest none 0 (updateStream respelled) =
        .ok (outcome, written) ∧
      BatchRun.run numericStatements applyBatchRows ⟨none, insertedRow, []⟩
        (passEvents numericEnv unboundedRequest (.initial 0) (updateStream respelled)) = .ok σ ∧
      (∃ b ∈ σ.executed, ¬(values numericStatements b.rows).Nodup) ∧
      σ.mirror 1 (.finite (125 / 2)) = some ⟨none, 1, .update, none⟩ ∧
      applyChanges numericStatements insertedRow written 1 (.finite (125 / 2)) =
        some ⟨none, 2, .update, none⟩ := by
  have hpa : applyBoundedLocked numericEnv unboundedRequest none 0 (updateStream respelled) =
      .ok (⟨2, some 2, false⟩, [(⟨1, .update, ⟨.decimal (.unsigned 62 [5]), none, none⟩⟩, 1),
        (⟨1, .update, ⟨.decimal (.unsigned 62 [5, 0]), none, none⟩⟩, 2)]) := by decide +kernel
  have he : (BatchRun.run numericStatements applyBatchRows ⟨none, insertedRow, []⟩
      (passEvents numericEnv unboundedRequest (.initial 0) (updateStream respelled))).toOption.map
        (fun σ ↦ σ.executed.map fun b ↦ values numericStatements b.rows) =
      some [[.finite (125 / 2), .finite (125 / 2)]] := by decide +kernel
  have hm : (BatchRun.run numericStatements applyBatchRows ⟨none, insertedRow, []⟩
      (passEvents numericEnv unboundedRequest (.initial 0) (updateStream respelled))).toOption.bind
        (fun σ ↦ σ.mirror 1 (.finite (125 / 2))) = some ⟨none, 1, .update, none⟩ := by
    decide +kernel
  cases hr : BatchRun.run numericStatements applyBatchRows ⟨none, insertedRow, []⟩
      (passEvents numericEnv unboundedRequest (.initial 0) (updateStream respelled)) with
  | error e =>
    rw [hr] at hm
    cases hm
  | ok σ =>
    rw [hr] at he hm
    refine ⟨_, _, σ, hpa, rfl, ?_, hm, by decide +kernel⟩
    obtain ⟨b, hb, hvs⟩ : ∃ b ∈ σ.executed,
        values numericStatements b.rows = [.finite (125 / 2), .finite (125 / 2)] := by
      have hmem : [NumericValue.finite (125 / 2), .finite (125 / 2)] ∈
          σ.executed.map fun b ↦ values numericStatements b.rows := by
        have hli : σ.executed.map (fun b ↦ values numericStatements b.rows) =
            [[.finite (125 / 2), .finite (125 / 2)]] := Option.some.inj he
        rw [hli]
        exact mem_singleton_self _
      exact mem_map.1 hmem
    exact ⟨b, hb, by rw [hvs]; simp⟩

end Numeric

end MirrorBatches

end Koldstore
