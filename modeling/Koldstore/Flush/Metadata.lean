import Koldstore.Basic.Pairing
import Koldstore.Flush.Chunks
import Koldstore.Parquet.Footer
import Koldstore.Parquet.TermFilter
import Koldstore.Scan.SegmentIndex

/-!
# Accumulators over the rows of a segment

While a flush pass writes the rows of a segment, it feeds them batch by batch to one accumulator for
each piece of metadata: a **summary** of the keys, the bounds of the key **tuples** and a **term
filter** for every indexed column of arrays or documents. `finish` gives the metadata of the
segment, or nothing when a row was not covered.

How the rows were cut into batches leaves no trace: `finish_foldl` says so for each accumulator, so
what a finished accumulator covers is said of one batch (`covers_of_finish`).
-/

namespace Koldstore

open SortKey Accumulate Chunks List TermFilterBuilder Except
open Option (bind_eq_some_iff ite_none_left_eq_some map_eq_some_iff)

structure PkSummaryState where
  columns : List KeyColumn
  columnId : ℤ
  builder : Option ValueSummaryBuilder

structure KeyBoundsState where
  columns : List KeyColumn
  columnId : ℤ
  builder : Option KeyBoundsBuilder

structure TermFilterState where
  name : String
  columnId : ℤ
  typeOid : ℕ
  kind : TermFilterKind
  builder : TermFilterBuilder

namespace PkSummaryState

variable {R : Type*}

def addBatch (codec : RowCodec) (schema : ArrowSchema R) (state : PkSummaryState)
    (batch : List R) : PkSummaryState :=
  { state with builder := state.builder.bind fun builder ↦
      (codec.addKeyColumnsToValueSummary builder schema batch state.columns).toOption }

/-- The summary, if it covers exactly `rowCount` keys. An oversized one has length 0. -/
def finish (state : PkSummaryState) (rowCount : ℕ) : Option Summary :=
  state.builder.bind fun builder ↦ if builder.len = rowCount then builder.finish else none

end PkSummaryState

namespace KeyBoundsState

variable {R : Type*}

def addBatch (codec : RowCodec) (schema : ArrowSchema R) (state : KeyBoundsState)
    (batch : List R) : KeyBoundsState :=
  { state with builder := state.builder.bind fun builder ↦
      (builder.addBatch codec schema batch state.columns).toOption }

def finish (state : KeyBoundsState) (rowCount : ℕ) : Option (Bytes × Bytes) :=
  state.builder.bind fun builder ↦ builder.finish rowCount

end KeyBoundsState

namespace TermFilterState

variable {R : Type*}

def addBatch (reader : JsonReader) (schema : ArrowSchema R) (state : TermFilterState)
    (batch : List R) : TermFilterState :=
  { state with builder := state.builder.addBatch reader schema batch state.name }

def finish (state : TermFilterState) (rowCount : ℕ) : Option Summary :=
  state.builder.finish rowCount

end TermFilterState

/-! ### Batches leave no trace -/

variable {typeOid : ℕ} {kind : TermFilterKind}

section Accumulators

variable {R : Type*} {codec : RowCodec} {reader : JsonReader} {schema : ArrowSchema R}
  {columns : List KeyColumn} {arrays : List (KeyColumn × ArrowArray R)} {columnId : ℤ}
  {name : String} {cell : R → Option String} {rows : List R} {row : R} {lo hi : Bytes}

variable {summary : Summary}

namespace PkSummaryState

theorem covers_of_finish (hr : RowCodec.Resolves schema columns arrays)
    (h : (addBatch codec schema ⟨columns, columnId, some .new⟩ rows).finish rows.length =
      some summary) (hrow : row ∈ rows) :
    ∃ key, codec.rowKey arrays row = .ok (some key) ∧ summaryMayContain summary key = true := by
  obtain ⟨builder, hb, hf⟩ := bind_eq_some_iff.1 h
  change (codec.addKeyColumnsToValueSummary .new schema rows columns).toOption = some builder
    at hb
  rw [RowCodec.toOption_addKeyColumns hr] at hb
  obtain ⟨keys, hks, rfl⟩ := map_eq_some_iff.1 hb
  rw [ValueSummaryBuilder.foldl_insert] at hf
  split at hf
  next hl =>
    obtain ⟨hf, hs⟩ := Option.ite_none_right_eq_some.1 hf
    have he : keys.length = rows.length := by simpa [ValueSummaryBuilder.len] using hf
    obtain ⟨key, hk, hrd⟩ := exists_of_length_collect hks he hrow
    exact ⟨key, toOption_eq_some_iff.1 hrd,
      summaryMayContain_of_finish hs (mem_map_of_mem hk)⟩
  · -- the builder overflowed
    obtain ⟨-, ⟨⟩⟩ := Option.ite_none_right_eq_some.1 hf

theorem finish_foldl {state : PkSummaryState} (hr : RowCodec.Resolves schema state.columns arrays)
    (batches : List (List R)) (rowCount : ℕ) :
    (batches.foldl (addBatch codec schema) state).finish rowCount =
      (addBatch codec schema state batches.flatten).finish rowCount := by
  have hstep : ∀ (s : PkSummaryState) (batch : List R), s.columns = state.columns →
      (addBatch codec schema s batch).builder = s.builder.bind fun builder ↦
        (collect (fun row ↦ (codec.rowKey arrays row).toOption) batch).map fun keys ↦
          keys.foldl ValueSummaryBuilder.insert builder := by
    intro s batch hs
    rw [addBatch, hs]
    simp only [RowCodec.toOption_addKeyColumns hr]
  rw [finish, finish, view_foldl _ builder (addBatch codec schema) (fun s batch hs ↦ hs) hstep
    batches rfl]

end PkSummaryState

namespace KeyBoundsState

theorem finish_foldl {state : KeyBoundsState} (hr : RowCodec.Resolves schema state.columns arrays)
    (batches : List (List R)) (rowCount : ℕ) :
    (batches.foldl (addBatch codec schema) state).finish rowCount =
      (addBatch codec schema state batches.flatten).finish rowCount := by
  have hstep : ∀ (s : KeyBoundsState) (batch : List R), s.columns = state.columns →
      (addBatch codec schema s batch).builder = s.builder.bind fun builder ↦
        (collect (fun row ↦ (codec.rowTuple arrays row).toOption.map some) batch).map fun tuples ↦
          tuples.foldl KeyBoundsBuilder.add builder := by
    intro s batch hs
    rw [addBatch, hs]
    simp only [RowCodec.toOption_addBatch hr]
  rw [finish, finish, view_foldl _ builder (addBatch codec schema) (fun s batch hs ↦ hs) hstep
    batches rfl]

end KeyBoundsState

namespace TermFilterState

variable (state : TermFilterState)

theorem finish_eq (rowCount : ℕ) :
    state.finish rowCount = state.builder.view.bind fun (rows, hashes) ↦
      if decide (rows ≠ rowCount) || hashes.isEmpty then none
      else (hashes.foldl ValueSummaryBuilder.insertHash .new).finish := by
  rw [finish, TermFilterBuilder.finish, TermFilterBuilder.view]
  cases state.builder.complete <;> simp

theorem view_addBatch (hs : schema state.name = some (.utf8 cell)) (batch : List R) :
    (state.addBatch reader schema batch).builder.view =
      state.builder.view.bind fun found ↦ (collect (fun row ↦
          (rowTerms reader state.builder.kind cell row).map some) batch).map
            fun items ↦ items.foldl addTerms found :=
  TermFilterBuilder.view_addBatch hs state.builder batch

theorem covers_of_finish (hs : schema name = some (.utf8 cell))
    (h : (addBatch reader schema ⟨name, columnId, typeOid, kind, .new kind⟩ rows).finish
      rows.length = some summary) (hr : row ∈ rows) {text : String} (htx : cell row = some text) :
    ∃ terms, valueTerms reader kind text = some terms ∧
      ∀ term ∈ terms, summaryMayContain summary term = true := by
  rw [finish_eq, view_addBatch _ hs] at h
  obtain ⟨found, hn, hf⟩ := bind_eq_some_iff.1 h
  change ((collect _ rows).map fun items ↦ items.foldl addTerms (0, [])) =
    some found at hn
  obtain ⟨items, hitems, rfl⟩ := map_eq_some_iff.1 hn
  rw [foldl_addTerms] at hf
  obtain ⟨-, hf⟩ := ite_none_left_eq_some.1 hf
  obtain ⟨item, hrd, hmem⟩ := exists_read_of_collect hitems hr
  obtain ⟨terms, ht, rfl⟩ := map_eq_some_iff.1 hrd
  rw [rowTerms, htx] at ht
  refine ⟨terms, ht, fun term he ↦ ?_⟩
  have hha : summaryHash term ∈ insertTerms [] items.flatten :=
    mem_insertTerms.2
      (.inr ⟨term, mem_flatten.2 ⟨terms, hmem _ rfl, he⟩, rfl⟩)
  rw [ValueSummaryBuilder.foldl_insertHash] at hf
  split at hf
  · exact summaryMayContain_of_finish hf hha
  · cases hf

theorem finish_foldl {state : TermFilterState} (hc : schema state.name = some (.utf8 cell))
    (batches : List (List R)) (rowCount : ℕ) :
    (batches.foldl (addBatch reader schema) state).finish rowCount =
      (addBatch reader schema state batches.flatten).finish rowCount := by
  have hkp : ∀ (s : TermFilterState) (batch : List R),
      s.name = state.name ∧ s.builder.kind = state.builder.kind →
        (s.addBatch reader schema batch).name = state.name ∧
          (s.addBatch reader schema batch).builder.kind = state.builder.kind := fun s batch hs ↦
    ⟨hs.1, (kind_addBatch _ _).trans hs.2⟩
  rw [finish_eq, finish_eq, view_foldl _ (fun s ↦ s.builder.view) (addBatch reader schema) hkp
    (fun s batch hs ↦ hs.2 ▸ view_addBatch s (hs.1 ▸ hc) batch) batches ⟨rfl, rfl⟩]

end TermFilterState

end Accumulators

end Koldstore
