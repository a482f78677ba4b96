import Koldstore.Basic.Except
import Koldstore.Basic.Keyset
import Koldstore.Cell.Value
import Koldstore.Mirror.PgOutput

/-!
# Streaming rows into segment chunks

`stream_flush_chunks` cuts pages of mirror rows into the chunks that become segment files.
-/

namespace Koldstore

open List Keyset
open Except (bind_eq_ok_iff map_eq_ok_iff)

namespace Chunks

/-! ### Rows and their scopes -/

structure FlushMirrorRow (O : Type*) where
  seq : ℕ
  op : MirrorOperation
  values : List CellValue
  orderKey : Option O
  scope : Option String

section Scope

variable {O : Type*}

def scopeText : CellValue → Option String
  | .utf8 text => some text
  | .int16 value => some (toString value)
  | .int32 value => some (toString value)
  | .int64 value => some (toString value)
  | .bool value => some (toString value)
  | _ => none

/-- The scope a flushed row belongs to; `none` is the table-wide group. -/
def rowScope (row : FlushMirrorRow O) (scopeColumnIndex : ℕ) : Option String :=
  -- a delete marker has no row values
  (if row.op = .delete then row.scope else row.values[scopeColumnIndex]?.bind scopeText).filter
    fun text ↦ !text.isEmpty

end Scope

/-! ### The encoder -/

/-- The part of `StreamEncodeInput` that cuts chunks. -/
structure StreamEncodeInput where
  maxRowsPerFile : ℕ
  fetchBatchSize : ℕ
  fetchBatchSize_pos : 0 < fetchBatchSize
  targetFileSizeBytes : Option ℕ
  rowGroupSize : ℕ
  sortByOrderKey : Bool
  scopeColumnIndex : Option ℕ
  pkIndices : List ℕ

structure FlushWriteChunk (O M : Type*) where
  rowGroups : List (List (FlushMirrorRow O))
  metadata : M
  scope : Option String

def FlushWriteChunk.rows {O M : Type*} (chunk : FlushWriteChunk O M) : List (FlushMirrorRow O) :=
  chunk.rowGroups.flatten

/-- What a pass calls. -/
structure Encoder (O A M : Type*) where
  start : A
  pushTypedRow : FlushMirrorRow O → Except String Unit
  writeBatch : List (List (FlushMirrorRow O)) → List (FlushMirrorRow O) → Except String Unit
  currentBytes : List (List (FlushMirrorRow O)) → ℕ
  addBatch : A → List (FlushMirrorRow O) → A
  finish : A → List (List (FlushMirrorRow O)) → Except String (M × A)
  writeChunk : List (FlushWriteChunk O M) → FlushWriteChunk O M → Except String Unit

/-- `SegmentSplitPolicy::should_close`. -/
def shouldClose (input : StreamEncodeInput) (currentBytes currentRows : ℕ) : Bool :=
  decide (max input.maxRowsPerFile 1 ≤ currentRows) ||
    input.targetFileSizeBytes.any fun target ↦ decide (target ≤ currentBytes)

/-- The state of a pass; the scope is none before the first row. -/
structure StreamState (O A M : Type*) where
  pending : List (FlushMirrorRow O)
  rowGroups : List (List (FlushMirrorRow O))
  acc : A
  currentScope : Option (Option String)
  rowsWritten : ℕ
  maxSeq : ℕ
  written : List (FlushWriteChunk O M)

namespace StreamState

variable {O A M : Type*} (input : StreamEncodeInput) (enc : Encoder O A M)

def initial : StreamState O A M := ⟨[], [], enc.start, none, 0, 0, []⟩

variable (σ : StreamState O A M)

def rowCount : ℕ := σ.rowGroups.flatten.length

/-- `take_batch` and `push_batch`: the pending rows become a row group. -/
def pushBatch : Except String (Bool × StreamState O A M) :=
  (enc.writeBatch σ.rowGroups σ.pending).map fun _ ↦ let pushed := { σ with
      pending := []
      rowGroups := σ.rowGroups ++ [σ.pending]
      acc := enc.addBatch σ.acc σ.pending }
    (shouldClose input (enc.currentBytes pushed.rowGroups) pushed.rowCount, pushed)

/-- `finish_segment`, and `write_chunk` if there was a segment. -/
def finishSegment : Except String (StreamState O A M) :=
  if σ.rowGroups = [] then .ok σ
  else
    (enc.finish σ.acc σ.rowGroups).bind fun (metadata, acc) ↦
      let chunk : FlushWriteChunk O M := ⟨σ.rowGroups, metadata, σ.currentScope.join⟩
      (enc.writeChunk σ.written chunk).map fun _ ↦
        { σ with rowGroups := [], acc := acc, written := σ.written ++ [chunk] }

def closeSegment : Except String (StreamState O A M) :=
  if σ.pending = [] then finishSegment enc σ
  else (pushBatch input enc σ).bind fun pushed ↦ finishSegment enc pushed.2

variable (row : FlushMirrorRow O)

def enterScope (σ : StreamState O A M) : Except String (StreamState O A M) :=
  match input.scopeColumnIndex with
  | none => .ok σ
  | some index =>
    (if σ.currentScope.any fun current ↦ decide (current ≠ rowScope row index)
      then closeSegment input enc σ else .ok σ).map fun σ ↦
        { σ with currentScope := some (rowScope row index) }

def rowGroupLimit : ℕ :=
  min (max input.rowGroupSize 1) (max (max input.maxRowsPerFile 1 - σ.rowCount) 1)

def takeRow (σ : StreamState O A M) : Except String (StreamState O A M) :=
  let σ := { σ with pending := σ.pending ++ [row], rowsWritten := σ.rowsWritten + 1 }
  if rowGroupLimit input σ ≤ σ.pending.length then
    (pushBatch input enc σ).bind fun (close, σ) ↦ if close then finishSegment enc σ else .ok σ
  else .ok σ

def pushRow : Except String (StreamState O A M) :=
  (enterScope input enc row { σ with maxSeq := max σ.maxSeq row.seq }).bind fun σ ↦
    (enc.pushTypedRow row).bind fun _ ↦ takeRow input enc row σ

def pushRows : List (FlushMirrorRow O) → StreamState O A M → Except String (StreamState O A M)
  | [], σ => .ok σ
  | row :: rows, σ => (pushRow input enc σ row).bind (pushRows rows)

def pushPages : List (Except String (List (FlushMirrorRow O))) → StreamState O A M →
    Except String (StreamState O A M)
  | [], σ => .ok σ
  | answer :: answers, σ => answer.bind fun page ↦ if page = [] then .ok σ
    else if input.sortByOrderKey && page.any fun row ↦ row.orderKey.isNone then
      .error "configured segment order key is missing from a mirror row"
    else (pushRows input enc page σ).bind fun σ ↦
        if page.length < input.fetchBatchSize then .ok σ else pushPages answers σ

end StreamState

structure StreamEncodeOutcome where
  maxSeq : ℕ
  rowsWritten : ℕ
  deriving DecidableEq, Repr

section Stream

variable {O A M : Type*} (input : StreamEncodeInput)

def streamFlushChunks (enc : Encoder O A M)
    (answers : List (Except String (List (FlushMirrorRow O)))) :
    Except String (StreamEncodeOutcome × List (FlushWriteChunk O M)) :=
  (StreamState.pushPages input enc answers (.initial enc)).bind fun σ ↦
    (σ.closeSegment input enc).map fun σ ↦ (⟨σ.maxSeq, σ.rowsWritten⟩, σ.written)

def fetchedRows : List (Except String (List (FlushMirrorRow O))) → List (FlushMirrorRow O)
  | [] => []
  | .error _ :: _ => []
  | .ok page :: answers =>
    if page = [] then []
    else if page.length < input.fetchBatchSize then page
    else page ++ fetchedRows answers

end Stream

section Tiles

variable {O A M : Type*} (input : StreamEncodeInput) (enc : Encoder O A M)

def Encoder.Resets : Prop := ∀ groups metadata acc,
    enc.finish (groups.foldl enc.addBatch enc.start) groups = .ok (metadata, acc) → acc = enc.start

/-- A chunk as a pass may write it. -/
structure FlushWriteChunk.Sound (chunk : FlushWriteChunk O M) : Prop where
  nonempty : chunk.rows ≠ []
  length_le : chunk.rows.length ≤ max input.maxRowsPerFile 1
  scope : ∀ index, input.scopeColumnIndex = some index →
    ∀ row ∈ chunk.rows, rowScope row index = chunk.scope
  metadata : enc.Resets → ∃ acc,
    enc.finish (chunk.rowGroups.foldl enc.addBatch enc.start) chunk.rowGroups =
      .ok (chunk.metadata, acc)

structure Tiles (taken : List (FlushMirrorRow O)) (σ : StreamState O A M) : Prop where
  rows : σ.written.flatMap FlushWriteChunk.rows ++ σ.rowGroups.flatten ++ σ.pending = taken
  written : ∀ chunk ∈ σ.written, chunk.Sound input enc
  groups_ne_nil : ∀ group ∈ σ.rowGroups, group ≠ []
  length_le : σ.rowCount + σ.pending.length ≤ max input.maxRowsPerFile 1
  scope : ∀ index, input.scopeColumnIndex = some index →
    ∀ row ∈ σ.rowGroups.flatten ++ σ.pending, σ.currentScope = some (rowScope row index)
  acc : enc.Resets → σ.acc = σ.rowGroups.foldl enc.addBatch enc.start

structure SameCounts (σ τ : StreamState O A M) : Prop where
  currentScope : τ.currentScope = σ.currentScope
  rowsWritten : τ.rowsWritten = σ.rowsWritten
  maxSeq : τ.maxSeq = σ.maxSeq

namespace Tiles

open StreamState

variable {input enc} {taken : List (FlushMirrorRow O)} {σ τ : StreamState O A M}
  {row : FlushMirrorRow O}

theorem initial : Tiles input enc [] (.initial enc) where
  rows := rfl
  written := by simp [StreamState.initial]
  groups_ne_nil := by simp [StreamState.initial]
  length_le := by simp [StreamState.initial, rowCount]
  scope := by simp [StreamState.initial]
  acc := fun _ ↦ rfl

theorem pushBatch (h : Tiles input enc taken σ) (hpe : σ.pending ≠ []) {close : Bool}
    (hok : σ.pushBatch input enc = .ok (close, τ)) :
    Tiles input enc taken τ ∧ SameCounts σ τ ∧ τ.pending = [] ∧
      (close = false → τ.rowCount < max input.maxRowsPerFile 1) := by
  obtain ⟨-, -, heq⟩ := map_eq_ok_iff.1 hok
  obtain ⟨hcl, rfl⟩ := Prod.mk.inj heq
  refine ⟨?_, ⟨rfl, rfl, rfl⟩, rfl, ?_⟩
  · exact
      { rows := by simpa using h.rows
        written := h.written
        groups_ne_nil := by
          intro group hg
          rcases mem_append.1 hg with hg | hg
          · exact h.groups_ne_nil group hg
          · rwa [mem_singleton.1 hg]
        length_le := by simpa [rowCount] using h.length_le
        scope := by simpa using h.scope
        acc := by
          intro hrs
          simp [h.acc hrs] }
  · rintro rfl
    simp only [shouldClose, Bool.or_eq_false_iff, decide_eq_false_iff_not, Nat.not_le] at hcl
    exact hcl.1

theorem finishSegment (h : Tiles input enc taken σ) (hpe : σ.pending = [])
    (hok : σ.finishSegment enc = .ok τ) :
    Tiles input enc taken τ ∧ SameCounts σ τ ∧ τ.pending = [] ∧ τ.rowGroups = [] := by
  rw [StreamState.finishSegment] at hok
  split at hok
  next hnone =>
    cases hok
    exact ⟨h, ⟨rfl, rfl, rfl⟩, hpe, hnone⟩
  next hsome =>
    obtain ⟨⟨metadata, acc⟩, hf, hw⟩ := bind_eq_ok_iff.1 hok
    obtain ⟨-, -, rfl⟩ := map_eq_ok_iff.1 hw
    refine ⟨?_, ⟨rfl, rfl, rfl⟩, hpe, rfl⟩
    have hsd : FlushWriteChunk.Sound input enc
        ⟨σ.rowGroups, metadata, σ.currentScope.join⟩ :=
      { nonempty := by
          obtain ⟨group, groups, hgs⟩ := exists_cons_of_ne_nil hsome
          have hg := h.groups_ne_nil group (hgs ▸ mem_cons_self)
          simp [FlushWriteChunk.rows, hgs, hg]
        length_le := Nat.le_trans (Nat.le_add_right _ _) h.length_le
        scope := by
          intro index hi row hr
          rw [h.scope index hi row (mem_append_left _ hr)]
          rfl
        metadata := fun hrs ↦ ⟨acc, h.acc hrs ▸ hf⟩ }
    exact
      { rows := by simpa [FlushWriteChunk.rows, hpe] using h.rows
        written := by
          intro chunk hc
          rcases mem_append.1 hc with hc | hc
          · exact h.written chunk hc
          · rwa [mem_singleton.1 hc]
        groups_ne_nil := by simp
        length_le := by simp [rowCount, hpe]
        scope := by simp [hpe]
        acc := fun hrs ↦ hrs _ _ _ (h.acc hrs ▸ hf) }

theorem closeSegment (h : Tiles input enc taken σ) (hok : σ.closeSegment input enc = .ok τ) :
    Tiles input enc taken τ ∧ SameCounts σ τ ∧ τ.pending = [] ∧ τ.rowGroups = [] := by
  rw [StreamState.closeSegment] at hok
  split at hok
  next hpe => exact h.finishSegment hpe hok
  next hpe =>
    obtain ⟨⟨close, υ⟩, hp, hf⟩ := bind_eq_ok_iff.1 hok
    obtain ⟨hυ, hcs, he, -⟩ := h.pushBatch hpe hp
    obtain ⟨hτ, hcs', hre⟩ := hυ.finishSegment he hf
    exact ⟨hτ, ⟨hcs'.currentScope.trans hcs.currentScope,
      hcs'.rowsWritten.trans hcs.rowsWritten, hcs'.maxSeq.trans hcs.maxSeq⟩, hre⟩

def Room (input : StreamEncodeInput) (σ : StreamState O A M) : Prop :=
  σ.rowCount + σ.pending.length < max input.maxRowsPerFile 1

theorem enterScope (h : Tiles input enc taken σ) (hrm : Room input σ)
    (hok : σ.enterScope input enc row = .ok τ) :
    Tiles input enc taken τ ∧ Room input τ ∧ τ.rowsWritten = σ.rowsWritten ∧
      τ.maxSeq = σ.maxSeq ∧ ∀ index, input.scopeColumnIndex = some index →
        τ.currentScope = some (rowScope row index) := by
  rw [StreamState.enterScope] at hok
  split at hok
  next hnone =>
    cases hok
    exact ⟨h, hrm, rfl, rfl, fun index hi ↦ by simp [hnone] at hi⟩
  next index hi =>
    obtain ⟨υ, hcl, rfl⟩ := map_eq_ok_iff.1 hok
    have hsm : ∀ index', input.scopeColumnIndex = some index' → index' = index := by
      intro index' hi'
      exact Option.some.inj (hi'.symm.trans hi)
    split at hcl
    next =>
      obtain ⟨hυ, hcs, hpe, hgs⟩ := h.closeSegment hcl
      refine ⟨{ hυ with scope := by simp [hpe, hgs] }, ?_, hcs.rowsWritten,
        hcs.maxSeq, fun index' hi' ↦ by rw [hsm index' hi']⟩
      simp [Room, rowCount, hpe, hgs]
    next ha =>
      cases hcl
      refine ⟨{ h with scope := ?_ }, hrm, rfl, rfl, fun index' hi' ↦ by rw [hsm index' hi']⟩
      intro index' hi' held hhe
      have hc := h.scope index' hi' held hhe
      simp only [hc, Option.any_some, decide_eq_true_eq, not_not] at ha
      rw [ha]

theorem takeRow (h : Tiles input enc taken σ) (hrm : Room input σ)
    (hsc : ∀ index, input.scopeColumnIndex = some index →
      σ.currentScope = some (rowScope row index)) (hok : σ.takeRow input enc row = .ok τ) :
    Tiles input enc (taken ++ [row]) τ ∧ Room input τ ∧ τ.rowsWritten = σ.rowsWritten + 1 ∧
      τ.maxSeq = σ.maxSeq := by
  obtain ⟨υ, hυ⟩ : ∃ υ : StreamState O A M,
      υ = { σ with pending := σ.pending ++ [row], rowsWritten := σ.rowsWritten + 1 } := ⟨_, rfl⟩
  have htk : Tiles input enc (taken ++ [row]) υ := by
    rw [hυ]
    exact
      { rows := by rw [← h.rows]; simp
        written := h.written
        groups_ne_nil := h.groups_ne_nil
        length_le := by
          simp only [Room, rowCount] at hrm ⊢
          rw [length_append, length_singleton]
          omega
        scope := by
          intro index hi held hhe
          rw [← List.append_assoc] at hhe
          rcases mem_append.1 hhe with hhe | hhe
          · exact h.scope index hi held hhe
          · rw [mem_singleton.1 hhe]
            exact hsc index hi
        acc := h.acc }
  rw [StreamState.takeRow, ← hυ] at hok
  have hcs : υ.rowsWritten = σ.rowsWritten + 1 ∧ υ.maxSeq = σ.maxSeq := by simp [hυ]
  have hpe : υ.pending ≠ [] := by simp [hυ]
  simp only at hok
  split at hok
  next =>
    obtain ⟨⟨close, φ⟩, hp, hre⟩ := bind_eq_ok_iff.1 hok
    obtain ⟨hφ, hsm, he, ho⟩ := htk.pushBatch hpe hp
    cases close with
    | true =>
      obtain ⟨hτ, hsm', he', hgs⟩ := hφ.finishSegment he hre
      refine ⟨hτ, ?_, by rw [hsm'.rowsWritten, hsm.rowsWritten, hcs.1],
        by rw [hsm'.maxSeq, hsm.maxSeq, hcs.2]⟩
      simp [Room, rowCount, he', hgs]
    | false =>
      cases hre
      refine ⟨hφ, ?_, by rw [hsm.rowsWritten, hcs.1], by rw [hsm.maxSeq, hcs.2]⟩
      simpa [Room, he] using ho rfl
  next hl =>
    obtain rfl : υ = τ := Except.ok.inj hok
    refine ⟨htk, ?_, hcs.1, hcs.2⟩
    -- a row group that is not full leaves room in the file
    simp only [rowGroupLimit, Nat.not_le] at hl
    have hrm' : υ.pending.length < max (max input.maxRowsPerFile 1 - υ.rowCount) 1 :=
      Nat.lt_of_lt_of_le hl (Nat.min_le_right _ _)
    have hne : 0 < υ.pending.length := length_pos_iff.2 hpe
    simp only [Room]
    omega

/-- The largest sequence of some rows, `0` if there are none. -/
def maxSeqOf (rows : List (FlushMirrorRow O)) : ℕ := rows.foldl (fun m row ↦ max m row.seq) 0

structure Between (input : StreamEncodeInput) (enc : Encoder O A M)
    (taken : List (FlushMirrorRow O)) (σ : StreamState O A M) : Prop where
  tiles : Tiles input enc taken σ
  room : Room input σ
  rowsWritten : σ.rowsWritten = taken.length
  maxSeq : σ.maxSeq = maxSeqOf taken

theorem Between.initial : Between input enc [] (.initial enc) where
  tiles := Tiles.initial
  room := by simp [Room, StreamState.initial, rowCount]
  rowsWritten := rfl
  maxSeq := rfl

variable (h : Between input enc taken σ)
include h

theorem Between.pushRow (hok : σ.pushRow input enc row = .ok τ) :
    Between input enc (taken ++ [row]) τ := by
  obtain ⟨υ, he, hre⟩ := bind_eq_ok_iff.1 hok
  obtain ⟨-, -, htk⟩ := bind_eq_ok_iff.1 hre
  have hsn : Tiles input enc taken { σ with maxSeq := max σ.maxSeq row.seq } :=
    ⟨h.tiles.rows, h.tiles.written, h.tiles.groups_ne_nil, h.tiles.length_le, h.tiles.scope,
      h.tiles.acc⟩
  obtain ⟨hυ, hrm, hc, hm, hsc⟩ := hsn.enterScope h.room he
  obtain ⟨hτ, hrm', hc', hm'⟩ := hυ.takeRow hrm hsc htk
  refine ⟨hτ, hrm', ?_, ?_⟩
  · rw [hc', hc, length_append, length_singleton]
    exact congrArg (· + 1) h.rowsWritten
  · rw [hm', hm, maxSeqOf, foldl_append, ← maxSeqOf, ← h.maxSeq]
    rfl

theorem Between.pushRows {rows : List (FlushMirrorRow O)}
    (hok : σ.pushRows input enc rows = .ok τ) : Between input enc (taken ++ rows) τ := by
  induction rows generalizing taken σ with
  | nil =>
    cases hok
    simpa using h
  | cons row rows ih =>
    obtain ⟨υ, hr, hrs⟩ := bind_eq_ok_iff.1 hok
    simpa using ih (h.pushRow hr) hrs

theorem Between.pushPages {answers : List (Except String (List (FlushMirrorRow O)))}
    (hok : σ.pushPages input enc answers = .ok τ) :
    Between input enc (taken ++ fetchedRows input answers) τ := by
  induction answers generalizing taken σ with
  | nil =>
    cases hok
    simpa [fetchedRows] using h
  | cons answer answers ih =>
    obtain ⟨page, rfl, hpg⟩ := bind_eq_ok_iff.1 hok
    rw [fetchedRows]
    split_ifs at hpg ⊢ with he hsh
    · cases hpg
      simpa using h
    · obtain ⟨υ, hrs, ⟨⟩⟩ := bind_eq_ok_iff.1 hpg
      exact h.pushRows hrs
    · obtain ⟨υ, hrs, hl⟩ := bind_eq_ok_iff.1 hpg
      rw [← List.append_assoc]
      exact ih (h.pushRows hrs) hl

omit h

end Tiles

end Tiles

section Total

variable {O A M : Type*} {input : StreamEncodeInput} {enc : Encoder O A M}

structure Encoder.Total (enc : Encoder O A M) : Prop where
  pushTypedRow : ∀ row, enc.pushTypedRow row = .ok ()
  writeBatch : ∀ groups batch, enc.writeBatch groups batch = .ok ()
  finish : ∀ acc groups, ∃ result, enc.finish acc groups = .ok result
  writeChunk : ∀ chunks chunk, enc.writeChunk chunks chunk = .ok ()

namespace Encoder.Total

open StreamState

variable (h : enc.Total)
include h

variable (σ : StreamState O A M)

theorem pushBatch : ∃ result, σ.pushBatch input enc = .ok result := by
  rw [StreamState.pushBatch, h.writeBatch]
  exact ⟨_, rfl⟩

theorem finishSegment : ∃ τ, σ.finishSegment enc = .ok τ := by
  rw [StreamState.finishSegment]
  split_ifs
  · exact ⟨σ, rfl⟩
  · obtain ⟨⟨metadata, acc⟩, hf⟩ := h.finish σ.acc σ.rowGroups
    simp only [hf, Except.bind, h.writeChunk]
    exact ⟨_, rfl⟩

theorem closeSegment : ∃ τ, σ.closeSegment input enc = .ok τ := by
  rw [StreamState.closeSegment]
  split_ifs
  · exact h.finishSegment σ
  · obtain ⟨pushed, hp⟩ : ∃ pushed, σ.pushBatch input enc = .ok pushed := h.pushBatch σ
    rw [hp]
    exact h.finishSegment pushed.2

theorem pushRow (row : FlushMirrorRow O) : ∃ τ, σ.pushRow input enc row = .ok τ := by
  obtain ⟨υ, hυ⟩ : ∃ υ, enterScope input enc row { σ with maxSeq := max σ.maxSeq row.seq } =
      .ok υ := by
    rw [enterScope]
    split
    · exact ⟨_, rfl⟩
    · split_ifs
      · obtain ⟨υ, hυ⟩ : ∃ υ, StreamState.closeSegment input enc
            { σ with maxSeq := max σ.maxSeq row.seq } = .ok υ := h.closeSegment _
        rw [hυ]
        exact ⟨_, rfl⟩
      · exact ⟨_, rfl⟩
  rw [StreamState.pushRow, hυ]
  simp only [Except.bind, h.pushTypedRow, takeRow]
  split_ifs
  · obtain ⟨⟨close, φ⟩, hφ⟩ : ∃ result, StreamState.pushBatch input enc
        { υ with pending := υ.pending ++ [row], rowsWritten := υ.rowsWritten + 1 } = .ok result :=
      h.pushBatch _
    rw [hφ]
    cases close with
    | true => exact h.finishSegment φ
    | false => exact ⟨φ, rfl⟩
  · exact ⟨_, rfl⟩

theorem pushRows (rows : List (FlushMirrorRow O)) (σ : StreamState O A M) :
    ∃ τ, σ.pushRows input enc rows = .ok τ := by
  induction rows generalizing σ with
  | nil => exact ⟨σ, rfl⟩
  | cons row rows ih =>
    obtain ⟨υ, hυ⟩ : ∃ υ, σ.pushRow input enc row = .ok υ := h.pushRow σ row
    rw [StreamState.pushRows, hυ]
    exact ih υ

theorem pushPages (pages : List (List (FlushMirrorRow O)))
    (hks : input.sortByOrderKey = true → ∀ page ∈ pages, ∀ row ∈ page, row.orderKey.isSome)
    (σ : StreamState O A M) : ∃ τ, σ.pushPages input enc (pages.map .ok) = .ok τ := by
  induction pages generalizing σ with
  | nil => exact ⟨σ, rfl⟩
  | cons page pages ih =>
    have hpg : (input.sortByOrderKey && page.any fun row ↦ row.orderKey.isNone) = false := by
      rw [Bool.and_eq_false_iff]
      by_cases hso : input.sortByOrderKey = true
      · right
        rw [any_eq_false]
        intro row hr
        simpa using Option.isSome_iff_ne_none.1 (hks hso page mem_cons_self row hr)
      · exact .inl (by simpa using hso)
    obtain ⟨υ, hυ⟩ : ∃ υ, σ.pushRows input enc page = .ok υ := h.pushRows page σ
    simp only [map_cons, StreamState.pushPages, Except.bind, hpg, hυ, Bool.false_eq_true, if_false]
    split_ifs
    · exact ⟨σ, rfl⟩
    · exact ⟨υ, rfl⟩
    · exact ih (fun hso later hl ↦ hks hso later (mem_cons_of_mem _ hl)) υ

omit h

end Encoder.Total

end Total

section Keyset

variable {O P : Type*} [LinearOrder O] [LinearOrder P]

inductive MirrorFlushPageCursor (O : Type*)
  | afterSeq (afterSeq : ℕ)
  | afterOrderKey (afterOrderKey : Option O) (afterPkValues : List CellValue) (afterSeq : ℕ)

def pkValues (input : StreamEncodeInput) (row : FlushMirrorRow O) : List CellValue :=
  input.pkIndices.map fun index ↦ row.values[index]?.getD .null

def initialPageCursor (input : StreamEncodeInput) : MirrorFlushPageCursor O :=
  if input.sortByOrderKey then .afterOrderKey none [] 0 else .afterSeq 0

/-- Cursor of the page that follows one ending at `last`. -/
def nextPageCursor (input : StreamEncodeInput) (last : FlushMirrorRow O) :
    MirrorFlushPageCursor O :=
  if input.sortByOrderKey then .afterOrderKey last.orderKey (pkValues input last) last.seq
  else .afterSeq last.seq

variable (input : StreamEncodeInput) (pkOrder : List CellValue → P)

def nullsLast : Option O → WithTop O
  | none => ⊤
  | some key => key

/-- `(order_key, primary key, seq)`. -/
def orderedKey (row : FlushMirrorRow O) : WithTop O ×ₗ P ×ₗ ℕ :=
  toLex (nullsLast row.orderKey, toLex (pkOrder (pkValues input row), row.seq))

def fetchMirrorBatch (selection : List (FlushMirrorRow O)) :
    MirrorFlushPageCursor O → List (FlushMirrorRow O)
  | .afterSeq seq => page FlushMirrorRow.seq input.fetchBatchSize selection (some seq)
  | .afterOrderKey none _ _ =>
    page (orderedKey input pkOrder) input.fetchBatchSize selection none
  | .afterOrderKey (some key) pk seq =>
    page (orderedKey input pkOrder) input.fetchBatchSize
      (selection.filter fun row ↦ row.orderKey.isSome)
      (some (toLex ((key : WithTop O), toLex (pkOrder pk, seq))))

def keysetPages (selection : List (FlushMirrorRow O)) :
    ℕ → MirrorFlushPageCursor O → List (List (FlushMirrorRow O))
  | 0, _ => []
  | fuel + 1, cursor =>
    let page := fetchMirrorBatch input pkOrder selection cursor
    page :: match page.getLast? with
      | none => []
      | some last => keysetPages selection fuel (nextPageCursor input last)

/-- A fixed selection of mirror rows that a keyset can page. -/
structure MirrorSelection where
  rows : List (FlushMirrorRow O)
  seq_pos : ∀ row ∈ rows, 0 < row.seq
  pk_nodup : (rows.map fun row ↦ pkOrder (pkValues input row)).Nodup
  orderKey : input.sortByOrderKey = true → ∀ row ∈ rows, row.orderKey.isSome
  seq_nodup : input.sortByOrderKey = false → (rows.map FlushMirrorRow.seq).Nodup

variable {input pkOrder}

theorem fetchedRows_keysetPages {κ : Type*} [LinearOrder κ] (key : FlushMirrorRow O → κ)
    {selection : List (FlushMirrorRow O)} (hnx : ∀ last ∈ selection,
      fetchMirrorBatch input pkOrder selection (nextPageCursor input last) =
        page key input.fetchBatchSize selection (some (key last)))
    (fuel : ℕ) {cursor : MirrorFlushPageCursor O} (after : Option κ)
    (hc : fetchMirrorBatch input pkOrder selection cursor =
      page key input.fetchBatchSize selection after) :
    fetchedRows input ((keysetPages input pkOrder selection fuel cursor).map .ok) =
      readPages key input.fetchBatchSize selection fuel after := by
  induction fuel generalizing cursor after with
  | zero => rfl
  | succ fuel ih =>
    simp only [keysetPages, hc, map_cons, fetchedRows, readPages]
    cases hl : (page key input.fetchBatchSize selection after).getLast? with
    | none => rw [if_pos (getLast?_eq_none_iff.1 hl)]
    | some last =>
      have hmem := mem_of_getLast? hl
      rw [if_neg (ne_nil_of_mem hmem)]
      simp only
      rw [ih (some (key last)) (hnx last (mem_of_mem_page hmem))]

theorem MirrorSelection.fetchedRows_perm (selection : MirrorSelection (O := O) input pkOrder) :
    (fetchedRows input ((keysetPages input pkOrder selection.rows (selection.rows.length + 1)
      (initialPageCursor input)).map .ok)).Perm selection.rows := by
  cases hso : input.sortByOrderKey with
  | false =>
    rw [fetchedRows_keysetPages FlushMirrorRow.seq ?_ _ (some 0)]
    · refine (readPages_perm_iff input.fetchBatchSize_pos ?_ (Nat.lt_succ_self _)).2 ?_
      · exact after_some_of_lt selection.seq_pos
      · exact noSplitTies_of_nodup _ (selection.seq_nodup hso)
    · simp [initialPageCursor, hso, fetchMirrorBatch]
    · intro last _
      simp [nextPageCursor, hso, fetchMirrorBatch]
  | true =>
    have hks := selection.orderKey hso
    have ha : (selection.rows.filter fun row ↦ row.orderKey.isSome) = selection.rows :=
      filter_eq_self.2 hks
    rw [fetchedRows_keysetPages (orderedKey input pkOrder) ?_ _ none]
    · refine (readPages_perm_iff input.fetchBatchSize_pos (after_none _)
        (Nat.lt_succ_self _)).2 (noSplitTies_of_nodup _ ?_)
      refine List.Nodup.of_map (fun key : WithTop O ×ₗ P ×ₗ ℕ ↦ (ofLex (ofLex key).2).1) ?_
      rw [map_map]
      exact selection.pk_nodup
    · simp [initialPageCursor, hso, fetchMirrorBatch]
    · intro last hl
      obtain ⟨key, hk⟩ := Option.isSome_iff_exists.1 (hks last hl)
      simp [nextPageCursor, hso, fetchMirrorBatch, hk, ha, orderedKey, nullsLast]

end Keyset

section Pass

variable {O P A M : Type*} [LinearOrder O] [LinearOrder P]

omit [LinearOrder O] in
theorem sound_of_mem_streamFlushChunks {input : StreamEncodeInput} {enc : Encoder O A M}
    {answers : List (Except String (List (FlushMirrorRow O)))} {outcome : StreamEncodeOutcome}
    {chunks : List (FlushWriteChunk O M)}
    (hok : streamFlushChunks input enc answers = .ok (outcome, chunks))
    {chunk : FlushWriteChunk O M} (hc : chunk ∈ chunks) : chunk.Sound input enc := by
  obtain ⟨σ, hp, hl⟩ := bind_eq_ok_iff.1 hok
  obtain ⟨τ, hcl, ⟨⟩⟩ := map_eq_ok_iff.1 hl
  have hσ := Tiles.Between.initial.pushPages hp
  exact (hσ.tiles.closeSegment hcl).1.written chunk hc

/-- **Every fetched row goes into exactly one chunk.** -/
theorem streamFlushChunks_spec (input : StreamEncodeInput) (enc : Encoder O A M)
    (pkOrder : List CellValue → P) :
    (∀ answers outcome chunks, streamFlushChunks input enc answers = .ok (outcome, chunks) →
      chunks.flatMap FlushWriteChunk.rows = fetchedRows input answers ∧
      (∀ chunk ∈ chunks, chunk.rows ≠ [] ∧ chunk.rows.length ≤ max input.maxRowsPerFile 1 ∧
        ∀ index, input.scopeColumnIndex = some index →
          ∀ row ∈ chunk.rows, rowScope row index = chunk.scope) ∧
      outcome.rowsWritten = (fetchedRows input answers).length ∧
      outcome.maxSeq = Tiles.maxSeqOf (fetchedRows input answers)) ∧
    (enc.Total → ∀ pages : List (List (FlushMirrorRow O)),
      (input.sortByOrderKey = true → ∀ page ∈ pages, ∀ row ∈ page, row.orderKey.isSome) →
      ∃ result, streamFlushChunks input enc (pages.map .ok) = .ok result) ∧
    ∀ selection : MirrorSelection (O := O) input pkOrder,
      (fetchedRows input ((keysetPages input pkOrder selection.rows (selection.rows.length + 1)
        (initialPageCursor input)).map .ok)).Perm selection.rows := by
  refine ⟨?_, ?_, fun selection ↦ selection.fetchedRows_perm⟩
  · intro answers outcome chunks hok
    obtain ⟨σ, hp, hl⟩ := bind_eq_ok_iff.1 hok
    obtain ⟨τ, hcl, ⟨⟩⟩ := map_eq_ok_iff.1 hl
    have hσ := Tiles.Between.initial.pushPages hp
    rw [nil_append] at hσ
    obtain ⟨hτ, hsm, hpe, hgs⟩ := hσ.tiles.closeSegment hcl
    refine ⟨?_, ?_, hsm.rowsWritten.trans hσ.rowsWritten, hsm.maxSeq.trans hσ.maxSeq⟩
    · simpa [hpe, hgs] using hτ.rows
    · intro chunk hc
      have hsd := sound_of_mem_streamFlushChunks hok hc
      exact ⟨hsd.nonempty, hsd.length_le, hsd.scope⟩
  · intro ht pages hks
    obtain ⟨σ, hσ⟩ := ht.pushPages pages hks (.initial enc)
    obtain ⟨τ, hτ⟩ : ∃ τ, σ.closeSegment input enc = .ok τ := ht.closeSegment σ
    rw [streamFlushChunks, hσ]
    simp only [Except.bind, hτ]
    exact ⟨_, rfl⟩

end Pass

end Chunks

end Koldstore
