import Koldstore.Flush.Chunks
import Koldstore.Merge.KeyLocal
import Koldstore.Scan.PruneSafety

/-!
# Scopes

A flush puts the rows of a scope into segments of their own.
-/

namespace Koldstore

open List
open Except (bind_eq_ok_iff map_eq_ok_iff)

namespace Scopes

open Chunks SortKey NewestFirstWinnerResolver

/-! ### The filter -/

def scopeText : SortKeyValue → Option String
  | .text text => if text.isEmpty then none else some text
  | .int2 number => some (toString number)
  | .int4 number => some (toString number)
  | .int8 number => some (toString number)
  | .bool flag => some (toString flag)
  | _ => none

def Names : SortKeyValue → CellValue → Prop
  | .numeric _, cell => ∃ text, cell = .utf8 text
  | value, cell => cell = value.cell

def Admits (p : PrunePredicate SortKeyValue) (cell : CellValue) : Prop :=
  (p.anyOf ≠ [] → ∃ value ∈ p.anyOf, Names value cell) ∧
    (p.isEquality = true → ∀ value, p.min = some value → Names value cell)

variable {text : String}

theorem scopeText_of_names {value : SortKeyValue} {cell : CellValue} (h : Names value cell)
    (htx : scopeText value = some text) : Chunks.scopeText cell = some text := by
  cases value with
  | text t =>
    obtain rfl : cell = .utf8 t := h
    rw [scopeText] at htx
    split at htx
    · cases htx
    · exact htx
  | bool | int2 | int4 | int8 =>
    obtain rfl := h
    exact htx
  | date | timestamp | timestamptz | uuid | numeric => cases htx

theorem mem_scopeSet {p : PrunePredicate SortKeyValue} {cell : CellValue} {texts : List String}
    (h : Admits p cell) (hs : p.scopeSet scopeText = some texts)
    (htx : Chunks.scopeText cell = some text) : text ∈ texts := by
  have hv : ∃ value text', Names value cell ∧ scopeText value = some text' ∧ text' ∈ texts := by
    rcases PruneQuery.exists_scopeText hs with ⟨hne, hall⟩ | ⟨heq, value, hv, text', hmem, htx'⟩
    · obtain ⟨value, hv, hn⟩ := h.1 hne
      obtain ⟨text', hmem, htx'⟩ := hall value hv
      exact ⟨value, text', hn, htx', hmem⟩
    · exact ⟨value, text', h.2 heq value hv, htx', hmem⟩
  obtain ⟨value, text', hn, htx', hmem⟩ := hv
  obtain rfl := Option.some.inj (htx.symm.trans (scopeText_of_names hn htx'))
  exact hmem

structure ScopeQuery (O : Type*) where
  predicates : List (PrunePredicate SortKeyValue)
  session : Option String
  accepts : FlushMirrorRow O → Bool

variable {K O M A : Type*} [DecidableEq K] {index : ℕ} {column : ℤ} {cell : CellValue}

structure ScopeQuery.Allows (q : ScopeQuery O) (column : ℤ) (cell : CellValue) : Prop where
  predicates : ∀ p ∈ q.predicates, p.columnId = column → Admits p cell
  session : ∀ scope, q.session = some scope → cell = .utf8 scope

def ScopeQuery.RestrictedTo (q : ScopeQuery O) (column : ℤ) (index : ℕ) (cell : CellValue) : Prop :=
  ∀ row, q.accepts row = true → row.op ≠ .delete → row.values[index]? = some cell ∧
    q.Allows column cell

def ScopeQuery.scopes (q : ScopeQuery O) (column : ℤ) : Option (List String) :=
  scopeFilterValues scopeText q.predicates column q.session

omit [DecidableEq K] in
theorem ScopeQuery.Allows.mem_scopes {q : ScopeQuery O} (h : q.Allows column cell)
    {scopes : List String} (hc : q.scopes column = some scopes)
    (htx : Chunks.scopeText cell = some text) : text ∈ scopes := by
  have he : ∀ set ∈ (q.predicates.filter fun p ↦ decide (p.columnId = column)).filterMap
      (PrunePredicate.scopeSet scopeText) ++ (q.session.map fun scope ↦ [scope]).toList,
      text ∈ set := by
    intro set hs
    rcases mem_append.1 hs with hs | hs
    · obtain ⟨p, hp, hpset⟩ := mem_filterMap.1 hs
      obtain ⟨hmem, hpc⟩ := mem_filter.1 hp
      exact mem_scopeSet (h.predicates p hmem (of_decide_eq_true hpc)) hpset htx
    · obtain ⟨scope, hsc, rfl⟩ : ∃ scope, q.session = some scope ∧ [scope] = set := by
        simpa using hs
      obtain rfl := h.session scope hsc
      exact mem_singleton.2 (Option.some.inj htx).symm
  rw [ScopeQuery.scopes, scopeFilterValues] at hc
  split at hc
  · cases hc
  next first rest heq =>
    cases hc
    rw [heq, forall_mem_cons] at he
    rw [mem_dedup, mem_insertionSort]
    exact PruneQuery.mem_foldl_filter he.1 he.2

variable {row : FlushMirrorRow O}

/-- **The segment of a row is kept.** -/
theorem inScope_of_allows {q : ScopeQuery O} (h : q.Allows column cell)
    (hlv : row.op ≠ .delete) (hc : row.values[index]? = some cell) :
    inScope (q.scopes column) (rowScope row index) = true := by
  rcases hs : q.scopes column with _ | scopes
  · rfl
  · rcases hsc : rowScope row index with _ | text
    · rfl
    · have htx : Chunks.scopeText cell = some text := by
        rw [rowScope, if_neg hlv, hc] at hsc
        exact (Option.filter_eq_some_iff.1 hsc).1
      exact decide_eq_true (h.mem_scopes hs htx)

/-! ### Where a flush puts rows -/

structure Unscoped (σ : StreamState O A M) : Prop where
  current : σ.currentScope = none
  written : ∀ chunk ∈ σ.written, chunk.scope = none

variable {rows : List (FlushMirrorRow O)} {answers : List (Except String (List (FlushMirrorRow O)))}

namespace Unscoped

variable {input : StreamEncodeInput} {enc : Encoder O A M} {σ τ : StreamState O A M}

omit [DecidableEq K] in
theorem pushBatch (h : Unscoped σ) {close : Bool} (hok : σ.pushBatch input enc = .ok (close, τ)) :
    Unscoped τ := by
  obtain ⟨-, -, ⟨⟩⟩ := map_eq_ok_iff.1 hok
  exact ⟨h.current, h.written⟩

theorem finishSegment (h : Unscoped σ) (hok : σ.finishSegment enc = .ok τ) : Unscoped τ := by
  rw [StreamState.finishSegment] at hok
  split_ifs at hok with hgs
  · cases hok
    exact h
  · obtain ⟨⟨metadata, acc⟩, -, hw⟩ := bind_eq_ok_iff.1 hok
    obtain ⟨-, -, rfl⟩ := map_eq_ok_iff.1 hw
    refine ⟨h.current, fun chunk hc ↦ ?_⟩
    rcases mem_append.1 hc with hc | hc
    · exact h.written chunk hc
    · rw [mem_singleton.1 hc, h.current]
      rfl

theorem closeSegment (h : Unscoped σ) (hok : σ.closeSegment input enc = .ok τ) : Unscoped τ := by
  rw [StreamState.closeSegment] at hok
  split_ifs at hok with hpe
  · exact h.finishSegment hok
  · obtain ⟨⟨close, υ⟩, hp, hf⟩ := bind_eq_ok_iff.1 hok
    exact (h.pushBatch hp).finishSegment hf

variable (hinput : input.scopeColumnIndex = none)
include hinput

theorem pushRow (h : Unscoped σ) (hok : σ.pushRow input enc row = .ok τ) : Unscoped τ := by
  obtain ⟨υ, he, hre⟩ := bind_eq_ok_iff.1 hok
  obtain ⟨-, -, htk⟩ := bind_eq_ok_iff.1 hre
  rw [StreamState.enterScope, hinput] at he
  cases he
  rw [StreamState.takeRow] at htk
  split_ifs at htk with hl
  · obtain ⟨⟨close, υ⟩, hp, hcl⟩ := bind_eq_ok_iff.1 htk
    have hmv : Unscoped { σ with
        pending := σ.pending ++ [row]
        rowsWritten := σ.rowsWritten + 1
        maxSeq := max σ.maxSeq row.seq } := ⟨h.current, h.written⟩
    have hυ : Unscoped υ := hmv.pushBatch hp
    cases close with
    | true => exact hυ.finishSegment hcl
    | false =>
      cases hcl
      exact hυ
  · cases htk
    exact ⟨h.current, h.written⟩

theorem pushRows (h : Unscoped σ) (hok : σ.pushRows input enc rows = .ok τ) : Unscoped τ := by
  induction rows generalizing σ with
  | nil =>
    cases hok
    exact h
  | cons row rows ih =>
    obtain ⟨υ, hr, hre⟩ := bind_eq_ok_iff.1 hok
    exact ih (h.pushRow hinput hr) hre

theorem pushPages (h : Unscoped σ) (hok : StreamState.pushPages input enc answers σ = .ok τ) :
    Unscoped τ := by
  induction answers generalizing σ with
  | nil =>
    cases hok
    exact h
  | cons answer answers ih =>
    obtain ⟨page, -, hpg⟩ := bind_eq_ok_iff.1 hok
    split_ifs at hpg with he hks hl
    · cases hpg
      exact h
    · obtain ⟨υ, hrs, ⟨⟩⟩ := bind_eq_ok_iff.1 hpg
      exact h.pushRows hinput hrs
    · obtain ⟨υ, hrs, hre⟩ := bind_eq_ok_iff.1 hpg
      exact ih (h.pushRows hinput hrs) hre

omit hinput

end Unscoped

/-- **A flush puts a row where the queries of its scope look.** -/
theorem inScope_of_flushed {q : ScopeQuery O} (h : q.Allows column cell)
    {input : StreamEncodeInput} {enc : Encoder O A M}
    (hinput : ∀ i, input.scopeColumnIndex = some i → i = index) {outcome : StreamEncodeOutcome}
    {chunks : List (FlushWriteChunk O M)}
    (hok : streamFlushChunks input enc answers = .ok (outcome, chunks))
    {chunk : FlushWriteChunk O M} (hh : chunk ∈ chunks) (hr : row ∈ chunk.rows)
    (hlv : row.op ≠ .delete) (hc : row.values[index]? = some cell) :
    inScope (q.scopes column) chunk.scope = true := by
  rcases hi : input.scopeColumnIndex with _ | i
  · obtain ⟨σ, hp, hl⟩ := bind_eq_ok_iff.1 hok
    obtain ⟨τ, hcl, ⟨⟩⟩ := map_eq_ok_iff.1 hl
    have hin : Unscoped (StreamState.initial enc) := ⟨rfl, by simp [StreamState.initial]⟩
    have hτ := (hin.pushPages hi hp).closeSegment hcl
    rw [hτ.written chunk hh]
    cases q.scopes column <;> rfl
  · obtain rfl := hinput i hi
    rw [← (sound_of_mem_streamFlushChunks hok hh).scope i hi row hr]
    exact inScope_of_allows h hlv hc

/-! ### What a scope sees of a table -/

structure TableState (O M : Type*) where
  hot : List (FlushMirrorRow O)
  markers : List (FlushMirrorRow O)
  segments : List (FlushWriteChunk O M)

namespace TableState

variable (recorded : CellValue → Option String) (index : ℕ) (cell : CellValue)
  (key : FlushMirrorRow O → K) (column : ℤ) (maxSeenKeys : Option ℕ) (q : ScopeQuery O)

def versions (s : TableState O M) : List (FlushMirrorRow O) :=
  s.hot ++ s.markers ++ s.segments.flatMap FlushWriteChunk.rows

def kept (s : TableState O M) : List (FlushWriteChunk O M) :=
  s.segments.filter fun segment ↦ inScope (q.scopes column) segment.scope

def result (s : TableState O M) : Except SeenKeyLimitExceeded (List (FlushMirrorRow O)) :=
  (resolveRun key FlushMirrorRow.seq (fun row ↦ decide (row.op = .delete))
    [.hot s.hot, .tombstones (s.markers.map key)] ((s.kept column q).map FlushWriteChunk.rows)
      (new [] maxSeenKeys)).map fun r ↦ r.1.filter q.accepts

def ofScope (row : FlushMirrorRow O) : Bool :=
  if row.op = .delete then decide (row.scope = none) || decide (row.scope = recorded cell)
  else decide (row.values[index]? = some cell)

def seen (segment : FlushWriteChunk O M) : Option String × List (FlushMirrorRow O) :=
  (segment.scope, if segment.scope.isNone then segment.rows
    else segment.rows.filter (ofScope recorded index cell))

structure AgreeOn (s s' : TableState O M) : Prop where
  hot : s.hot.filter (ofScope recorded index cell) = s'.hot.filter (ofScope recorded index cell)
  markers : s.markers.filter (ofScope recorded index cell) =
    s'.markers.filter (ofScope recorded index cell)
  segments : (s.segments.map (seen recorded index cell)).filter (fun v ↦ !v.2.isEmpty) =
    (s'.segments.map (seen recorded index cell)).filter fun v ↦ !v.2.isEmpty

def OneScope (s : TableState O M) : Prop :=
  ∀ row ∈ s.versions, row.op ≠ .delete → row.values[index]? = some cell →
    ∀ row' ∈ s.versions, key row' = key row → ofScope recorded index cell row' = true

def scopeKey (s : TableState O M) (k : K) : Bool := s.versions.any fun row ↦
    decide (row.op ≠ .delete) && decide (row.values[index]? = some cell) && decide (key row = k)

variable {recorded index cell key column maxSeenKeys q} {s s' : TableState O M}

theorem AgreeOn.symm (h : AgreeOn recorded index cell s s') : AgreeOn recorded index cell s' s :=
  ⟨h.hot.symm, h.markers.symm, h.segments.symm⟩

theorem mem_of_filter_eq {α : Type*} {f : α → Bool} {l l' : List α} (h : l.filter f = l'.filter f)
    {a : α} (ha : a ∈ l) (hf : f a = true) : a ∈ l' :=
  mem_of_mem_filter (h ▸ mem_filter.2 ⟨ha, hf⟩)

theorem AgreeOn.mem_versions (h : AgreeOn recorded index cell s s') (hr : row ∈ s.versions)
    (hsc : ofScope recorded index cell row = true) : row ∈ s'.versions := by
  simp only [versions, mem_append, mem_flatMap] at hr ⊢
  rcases hr with (hr | hr) | ⟨segment, hs, hr⟩
  · exact .inl (.inl (mem_of_filter_eq h.hot hr hsc))
  · exact .inl (.inr (mem_of_filter_eq h.markers hr hsc))
  · have hsn : row ∈ (seen recorded index cell segment).2 := by
      rw [seen]
      split_ifs
      · exact hr
      · exact mem_filter.2 ⟨hr, hsc⟩
    have hne : (!(seen recorded index cell segment).2.isEmpty) = true := by
      simpa using ne_nil_of_mem hsn
    obtain ⟨segment', hs', heq⟩ := mem_map.1
      (mem_of_filter_eq h.segments (mem_map_of_mem hs) hne)
    refine .inr ⟨segment', hs', ?_⟩
    rw [← heq, seen] at hsn
    split_ifs at hsn
    · exact hsn
    · exact mem_of_mem_filter hsn

theorem scopeKey_eq_true {k : K} : s.scopeKey index cell key k = true ↔
    ∃ row ∈ s.versions, row.op ≠ .delete ∧ row.values[index]? = some cell ∧ key row = k := by
  simp [scopeKey, and_assoc]

theorem AgreeOn.scopeKey_eq (h : AgreeOn recorded index cell s s') :
    s.scopeKey index cell key = s'.scopeKey index cell key := by
  have hle {s s' : TableState O M} (h : AgreeOn recorded index cell s s') {k : K}
      (hk : s.scopeKey index cell key k = true) : s'.scopeKey index cell key k = true := by
    obtain ⟨row, hr, hlv, hc, rfl⟩ := scopeKey_eq_true.1 hk
    have hsc : ofScope recorded index cell row = true := by simp [ofScope, hlv, hc]
    exact scopeKey_eq_true.2 ⟨row, h.mem_versions hr hsc, hlv, hc, rfl⟩
  funext k
  exact Bool.eq_iff_iff.2 ⟨hle h, hle h.symm⟩

variable (h : s.OneScope recorded index cell key)
include h

theorem OneScope.ofScope_of_scopeKey (hr : row ∈ s.versions)
    (hk : s.scopeKey index cell key (key row) = true) : ofScope recorded index cell row = true := by
  obtain ⟨row', hr', hlv, hc, heq⟩ := scopeKey_eq_true.1 hk
  exact h row' hr' hlv hc row hr heq.symm

theorem OneScope.restrict_filter (hrs : ∀ row ∈ rows, row ∈ s.versions) :
    restrict key (s.scopeKey index cell key) (rows.filter (ofScope recorded index cell)) =
      restrict key (s.scopeKey index cell key) rows := by
  rw [restrict, filter_filter, restrict]
  refine filter_congr fun row hr ↦ ?_
  rcases hk : s.scopeKey index cell key (key row) with _ | _
  · rfl
  · rw [h.ofScope_of_scopeKey (hrs row hr) hk]
    rfl

theorem OneScope.restrict_seen {segment : FlushWriteChunk O M} (hs : segment ∈ s.segments) :
    restrict key (s.scopeKey index cell key) (seen recorded index cell segment).2 =
      restrict key (s.scopeKey index cell key) segment.rows := by
  rw [seen]
  split_ifs
  · rfl
  · refine h.restrict_filter fun row hr ↦ ?_
    exact mem_append_right _ (mem_flatMap.2 ⟨segment, hs, hr⟩)

theorem OneScope.kept_eq : ((s.kept column q).map fun segment ↦
        restrict key (s.scopeKey index cell key) segment.rows).filter (fun batch ↦ !batch.isEmpty) =
      ((((s.segments.map (seen recorded index cell)).filter fun v ↦ !v.2.isEmpty).filter fun v ↦
        inScope (q.scopes column) v.1).map fun v ↦
          restrict key (s.scopeKey index cell key) v.2).filter fun batch ↦ !batch.isEmpty := by
  have hss : ∀ segments : List (FlushWriteChunk O M), (∀ x ∈ segments, x ∈ s.segments) →
      ((segments.filter fun x ↦ inScope (q.scopes column) x.scope).map fun x ↦
        restrict key (s.scopeKey index cell key) x.rows).filter (fun batch ↦ !batch.isEmpty) =
      ((((segments.map (seen recorded index cell)).filter fun v ↦ !v.2.isEmpty).filter fun v ↦
        inScope (q.scopes column) v.1).map fun v ↦
          restrict key (s.scopeKey index cell key) v.2).filter fun batch ↦ !batch.isEmpty := by
    intro segments hmem
    induction segments with
    | nil => rfl
    | cons segment segments ih =>
      rw [forall_mem_cons] at hmem
      have hsm := h.restrict_seen hmem.1
      have hre := ih hmem.2
      have hsc : (seen recorded index cell segment).1 = segment.scope := rfl
      by_cases hin : inScope (q.scopes column) segment.scope = true
      · by_cases he : (seen recorded index cell segment).2.isEmpty = true
        · -- what the scope does not see of a segment has no key of the scope
          have hnone : restrict key (s.scopeKey index cell key) segment.rows = [] := by
            rw [← hsm, List.isEmpty_iff.1 he]
            rfl
          simpa [hin, he, hnone] using hre
        · simp [hin, he, hsc, hsm, filter_cons, hre]
      · by_cases he : (seen recorded index cell segment).2.isEmpty = true
        · simpa [hin, he] using hre
        · simpa [hin, he, hsc] using hre
  exact hss s.segments fun _ hx ↦ hx

theorem OneScope.restrict_markers : (s.markers.map key).filter (s.scopeKey index cell key) =
      (restrict key (s.scopeKey index cell key)
        (s.markers.filter (ofScope recorded index cell))).map key := by
  rw [h.restrict_filter fun row hr ↦ mem_append_left _ (mem_append_right _ hr),
    restrict, filter_map]
  rfl

omit h

theorem AgreeOn.restricted_eq (h : AgreeOn recorded index cell s s')
    (ho : s.OneScope recorded index cell key) (ho' : s'.OneScope recorded index cell key)
    (ρ : NewestFirstWinnerResolver K) :
    resolveRun key FlushMirrorRow.seq (fun row ↦ decide (row.op = .delete))
      ([Overlay.hot s.hot, .tombstones (s.markers.map key)].map
        (Overlay.restrict key (s.scopeKey index cell key)))
      (((s.kept column q).map FlushWriteChunk.rows).map
        (restrict key (s.scopeKey index cell key))) ρ =
    resolveRun key FlushMirrorRow.seq (fun row ↦ decide (row.op = .delete))
      ([Overlay.hot s'.hot, .tombstones (s'.markers.map key)].map
        (Overlay.restrict key (s.scopeKey index cell key)))
      (((s'.kept column q).map FlushWriteChunk.rows).map
        (restrict key (s.scopeKey index cell key))) ρ := by
  have hks : s.scopeKey index cell key = s'.scopeKey index cell key := h.scopeKey_eq
  have hh : restrict key (s.scopeKey index cell key) s.hot =
      restrict key (s.scopeKey index cell key) s'.hot := by
    rw [← ho.restrict_filter fun row hr ↦ mem_append_left _ (mem_append_left _ hr), h.hot,
      hks, ho'.restrict_filter fun row hr ↦ mem_append_left _ (mem_append_left _ hr)]
  have hm : (s.markers.map key).filter (s.scopeKey index cell key) =
      (s'.markers.map key).filter (s.scopeKey index cell key) := by
    rw [ho.restrict_markers, h.markers, hks, ho'.restrict_markers]
  have hb : (((s.kept column q).map FlushWriteChunk.rows).map
        (restrict key (s.scopeKey index cell key))).filter (fun batch ↦ !batch.isEmpty) =
      (((s'.kept column q).map FlushWriteChunk.rows).map
        (restrict key (s.scopeKey index cell key))).filter fun batch ↦ !batch.isEmpty := by
    rw [map_map, map_map]
    refine ho.kept_eq.trans ?_
    rw [h.segments, hks]
    exact ho'.kept_eq.symm
  rw [← resolveRun_filter_ne_nil, hb, resolveRun_filter_ne_nil, map_cons, map_cons, map_cons,
    map_cons, Overlay.restrict, Overlay.restrict, Overlay.restrict, Overlay.restrict, hh, hm]

theorem exists_result_eq_ok (s : TableState O M) (key : FlushMirrorRow O → K) (column : ℤ)
    (q : ScopeQuery O) : ∃ rows, s.result key column none q = .ok rows := by
  obtain ⟨r, hr⟩ := exists_resolveRun_eq_ok key FlushMirrorRow.seq
    (fun row ↦ decide (row.op = .delete)) [] [.hot s.hot, .tombstones (s.markers.map key)]
    ((s.kept column q).map FlushWriteChunk.rows)
  exact ⟨_, congrArg (Except.map _) hr⟩

theorem result_eq_filter (hq : q.RestrictedTo column index cell) {out : List (FlushMirrorRow O)}
    {ρ : NewestFirstWinnerResolver K}
    (hok : resolveRun key FlushMirrorRow.seq (fun row ↦ decide (row.op = .delete))
      [.hot s.hot, .tombstones (s.markers.map key)] ((s.kept column q).map FlushWriteChunk.rows)
        (new [] maxSeenKeys) = .ok (out, ρ)) :
    out.filter q.accepts = (restrict key (s.scopeKey index cell key) out).filter q.accepts := by
  rw [restrict, filter_filter]
  refine filter_congr fun row hr ↦ ?_
  rcases ha : q.accepts row with _ | _
  · rfl
  · obtain ⟨hd, hf⟩ := mem_of_mem_resolveRun hok hr
    have hlv : row.op ≠ .delete := of_decide_eq_false hd
    have hmem : row ∈ s.versions := by
      simp only [versions, mem_append, mem_flatMap]
      rcases hf with ⟨rows, hrs, hr⟩ | ⟨batch, hbt, hr⟩
      · obtain rfl : rows = s.hot := by simpa using hrs
        exact .inl (.inl hr)
      · obtain ⟨segment, hs, rfl⟩ := mem_map.1 hbt
        exact .inr ⟨segment, mem_of_mem_filter hs, hr⟩
    have hk : s.scopeKey index cell key (key row) = true :=
      scopeKey_eq_true.2 ⟨row, hmem, hlv, (hq row ha hlv).1, rfl⟩
    rw [hk]
    rfl

end TableState

/-- **A query sees its scope and nothing of the others.** -/
theorem scope_isolated (recorded : CellValue → Option String) (index : ℕ) (column : ℤ)
    (cell : CellValue) (key : FlushMirrorRow O → K) (maxSeenKeys : Option ℕ) (q : ScopeQuery O)
    (hq : q.RestrictedTo column index cell) (s s' : TableState O M)
    (hone : s.OneScope recorded index cell key) (hone' : s'.OneScope recorded index cell key)
    (hagree : TableState.AgreeOn recorded index cell s s') :
    (∀ rows rows', s.result key column maxSeenKeys q = .ok rows →
      s'.result key column maxSeenKeys q = .ok rows' → rows = rows') ∧
    (maxSeenKeys = none → ∃ rows, s.result key column maxSeenKeys q = .ok rows ∧
      s'.result key column maxSeenKeys q = .ok rows) ∧
    (∀ (input : StreamEncodeInput) (enc : Encoder O A M) answers outcome chunks,
      (∀ i, input.scopeColumnIndex = some i → i = index) →
      streamFlushChunks input enc answers = .ok (outcome, chunks) →
      ∀ chunk ∈ chunks, ∀ row ∈ chunk.rows, row.op ≠ .delete → row.values[index]? = some cell →
        q.Allows column cell → inScope (q.scopes column) chunk.scope = true) ∧
    ∀ chunk : FlushWriteChunk O M, chunk.scope = none →
      inScope (q.scopes column) chunk.scope = true := by
  have hsm : ∀ rows rows', s.result key column maxSeenKeys q = .ok rows →
      s'.result key column maxSeenKeys q = .ok rows' → rows = rows' := by
    intro rows rows' h h'
    obtain ⟨⟨out, ρ⟩, ho, rfl⟩ := map_eq_ok_iff.1 h
    obtain ⟨⟨out', ρ'⟩, ho', rfl⟩ := map_eq_ok_iff.1 h'
    obtain ⟨τ, hrun⟩ := resolveRun_restrict (s.scopeKey index cell key) ho
    obtain ⟨τ', hr'⟩ := resolveRun_restrict (s.scopeKey index cell key) ho'
    rw [hagree.restricted_eq hone hone', hr'] at hrun
    have heq := congrArg Prod.fst (Except.ok.inj hrun)
    show out.filter q.accepts = out'.filter q.accepts
    rw [TableState.result_eq_filter hq ho, TableState.result_eq_filter hq ho', ← hagree.scopeKey_eq]
    exact congrArg _ heq.symm
  refine ⟨hsm, ?_, ?_, ?_⟩
  · rintro rfl
    obtain ⟨rows, hrs⟩ := s.exists_result_eq_ok key column q
    obtain ⟨rows', hrs'⟩ := s'.exists_result_eq_ok key column q
    obtain rfl := hsm rows rows' hrs hrs'
    exact ⟨rows, hrs, hrs'⟩
  · intro input enc answers outcome chunks hinput hok chunk hh row hr hlv hc ha
    exact inScope_of_flushed ha hinput hok hh hr hlv hc
  · intro chunk hsc
    rw [hsc]
    cases q.scopes column <;> rfl

def sampleRow (seq : ℕ) (id : String) (scope : String) : FlushMirrorRow Unit :=
  ⟨seq, .insert, [.utf8 id, .utf8 scope], none, some scope⟩

/-- `scope = 'ann'` -/
def sampleQuery : ScopeQuery Unit where
  predicates := [.equality 2 "scope" (.text "ann")]
  session := none
  accepts row := decide (row.values[1]? = some (.utf8 "ann"))

theorem sampleQuery_restrictedTo : sampleQuery.RestrictedTo 2 1 (.utf8 "ann") := by
  intro row ha _
  refine ⟨of_decide_eq_true ha, ⟨fun p hp _ ↦ ?_, nofun⟩⟩
  obtain rfl := mem_singleton.1 hp
  refine ⟨fun h ↦ absurd rfl h, fun _ value hv ↦ ?_⟩
  cases hv
  rfl

theorem scope_isolated_neighbour :
    ∃ rows, TableState.result (fun row ↦ row.values[0]?) 2 none sampleQuery
        ⟨[sampleRow 3 "x" "ann"], [], [⟨[[sampleRow 1 "x" "ann", sampleRow 2 "y" "ann"]], (),
          some "ann"⟩]⟩ = .ok rows ∧
      TableState.result (fun row ↦ row.values[0]?) 2 none sampleQuery
        ⟨[sampleRow 3 "x" "ann", sampleRow 4 "z" "bob"], [], [⟨[[sampleRow 5 "w" "bob"]], (),
          some "bob"⟩, ⟨[[sampleRow 1 "x" "ann", sampleRow 2 "y" "ann"]], (), some "ann"⟩]⟩ =
            .ok rows :=
  (scope_isolated (A := Unit) (fun _ ↦ none) 1 2 (.utf8 "ann") (fun row ↦ row.values[0]?) none
    sampleQuery sampleQuery_restrictedTo _ _ (by unfold TableState.OneScope; decide)
    (by unfold TableState.OneScope; decide) ⟨rfl, rfl, rfl⟩).2.1 rfl

/-- **A hot row of another scope hides a row.** -/
theorem other_scope_hides_row :
    sampleQuery.RestrictedTo 2 1 (.utf8 "ann") ∧
    TableState.AgreeOn (fun _ ↦ none) 1 (.utf8 "ann")
      ⟨[], [], [⟨[[sampleRow 1 "x" "ann"]], (), some "ann"⟩]⟩
      ⟨[sampleRow 2 "x" "bob"], [], [⟨[[sampleRow 1 "x" "ann"]], (), some "ann"⟩]⟩ ∧
    TableState.result (fun row ↦ row.values[0]?) 2 none sampleQuery
      ⟨[], [], [⟨[[sampleRow 1 "x" "ann"]], (), some "ann"⟩]⟩ = .ok [sampleRow 1 "x" "ann"] ∧
    TableState.result (fun row ↦ row.values[0]?) 2 none sampleQuery
      ⟨[sampleRow 2 "x" "bob"], [], [⟨[[sampleRow 1 "x" "ann"]], (), some "ann"⟩]⟩ = .ok [] ∧
    TableState.AgreeOn (M := Unit) (fun _ ↦ none) 1 (.utf8 "ann") ⟨[sampleRow 1 "x" "ann"], [], []⟩
      ⟨[sampleRow 1 "x" "ann", sampleRow 2 "y" "bob"], [], []⟩ ∧
    TableState.result (M := Unit) (fun row ↦ row.values[0]?) 2 (some 1) sampleQuery
      ⟨[sampleRow 1 "x" "ann"], [], []⟩ = .ok [sampleRow 1 "x" "ann"] ∧
    TableState.result (M := Unit) (fun row ↦ row.values[0]?) 2 (some 1) sampleQuery
      ⟨[sampleRow 1 "x" "ann", sampleRow 2 "y" "bob"], [], []⟩ = .error ⟨1, 1⟩ := by
  refine ⟨sampleQuery_restrictedTo, ⟨rfl, rfl, rfl⟩, ?_, ?_, ⟨rfl, rfl, rfl⟩, ?_, ?_⟩
  · rfl
  · rfl
  · rfl
  · rfl

end Scopes

end Koldstore
