import Koldstore.Flush.Writes
import Koldstore.Mirror.Sequence

/-!
# One flush pass among committed writes

A pass does its work in pieces that other transactions run between: it fetches pages of the mirror
with the heap's images, uploads them, locks the table, has the fence apply the WAL, and prunes.
Every change that is applied meanwhile must get an id above what the pass prunes. The fence asks for
that (its **prune floor**); every other apply pass starts at the **durable watermark** of the ids
handed out so far, which says nothing of ids that were not handed out by a recorded apply pass.
-/

namespace Koldstore

open List

variable {K O C L V : Type*} (compare : C → V → L → Ordering)

/-! ### State -/

structure FetchedRow (K O C V : Type*) where
  row : MirrorRow K O
  image : HeapRow C V

def fetchedImage (sel : ResolvedFlushSelection C L) (heap : Heap K C V) (pk : K) : HeapRow C V :=
  if deleteOnly sel.mirrorOps then fun _ ↦ none else leftJoin heap pk

def FetchedRow.toCold (f : FetchedRow K O C V) : ColdVersion K C V where
  pk := f.row.pk
  seq := f.row.seq
  deleted := decide (f.row.op = .delete)
  image := f.image

inductive PassPhase (K O C V : Type*)
  | reading (cursor : MirrorFlushPageCursor K O) (fetched : List (FetchedRow K O C V))
  | uploaded (fetched : List (FetchedRow K O C V))
  | locked (fetched : List (FetchedRow K O C V))
  | done

structure PassState (K O C V : Type*) where
  heap : Heap K C V
  mirror : MirrorTable K O
  cold : List (ColdVersion K C V)
  wal : List (List (RowWrite K C V))
  /-- `seq_high_watermark` of `koldstore.async_mirror_state`. -/
  seqWatermark : ℕ
  phase : PassPhase K O C V

def PassPhase.admitsWrites : PassPhase K O C V → Bool
  | reading _ _ => true
  | uploaded _ => true
  | locked _ => false
  | done => false

def fetchedMaxSeq (fetched : List (FetchedRow K O C V)) : ℕ :=
  pruneMaxSeq (fetched.map FetchedRow.row)

def PassPhase.bound (sel : ResolvedFlushSelection C L) : PassPhase K O C V → ℕ
  | reading _ _ => sel.stats.maxSeq
  | uploaded fetched => fetchedMaxSeq fetched
  | locked fetched => fetchedMaxSeq fetched
  | done => 0

section Steps

variable [LinearOrder K] [LinearOrder O]
variable (cfg : TableConfig O C V) (sel : ResolvedFlushSelection C L)

def fetchPage (σ : PassState K O C V) (cursor : MirrorFlushPageCursor K O) :
    List (MirrorRow K O) :=
  fetchMirrorBatch (flushMirrorFetchLimit cfg.maxRowsPerFile)
    (flushRows compare sel σ.mirror.rows σ.heap) cursor

def withImages (heap : Heap K C V) (page : List (MirrorRow K O)) : List (FetchedRow K O C V) :=
  page.map fun r ↦ ⟨r, fetchedImage sel heap r.pk⟩

/-- The state after the finalizing transaction. -/
def prune (σ : PassState K O C V) (fetched : List (FetchedRow K O C V)) : PassState K O C V :=
  let removed := removedMirror compare (fetchedMaxSeq fetched) sel.mirrorOps sel.rowFilter
    σ.mirror.rows σ.heap
  { heap := fun k ↦
      if removed.any fun m ↦ decide (m.pk = k ∧ m.op ≠ .delete) then none else σ.heap k
    mirror :=
      { rows := σ.mirror.rows.filter fun m ↦ !cleanupRemoves compare (fetchedMaxSeq fetched)
          sel.mirrorOps sel.rowFilter σ.heap m
        pk_nodup := σ.mirror.pk_nodup.sublist (filter_sublist.map _)
        seq_pos := fun m hm ↦ σ.mirror.seq_pos m (mem_filter.1 hm).1 }
    cold := σ.cold ++ fetched.map FetchedRow.toCold
    wal := σ.wal
    seqWatermark := σ.seqWatermark
    phase := .done }

/-- What an apply pass allocates above: the durable watermark, and the pass's bound if it is the
fence. -/
def applyFloor (σ : PassState K O C V) (fence : Bool) : ℕ :=
  if fence then max σ.seqWatermark (σ.phase.bound sel) else σ.seqWatermark

/-- The state after an apply pass. Only a pass that records its progress (`record_applied_lsn`)
raises the watermark. -/
def PassState.applied (σ : PassState K O C V) (recorded : Bool) (ws : List (RowWrite K C V))
    (seqs : List SeqId) (rest : List (List (RowWrite K C V))) : PassState K O C V :=
  { σ with
    mirror := σ.mirror.applyWrites cfg (ws.zip seqs)
    wal := rest
    seqWatermark := if recorded then seqs.foldl (fun w seq ↦ max w seq.1) σ.seqWatermark
      else σ.seqWatermark }

inductive PassStep : PassState K O C V → List (RowWrite K C V) → PassState K O C V → Prop
  | commit {σ : PassState K O C V} {txn : List (RowWrite K C V)}
      (hopen : σ.phase.admitsWrites = true) (haccepted : AcceptedAll σ.heap txn) :
      PassStep σ txn { σ with heap := replay σ.heap txn, wal := σ.wal ++ [txn] }
  | apply {σ : PassState K O C V} {txns rest : List (List (RowWrite K C V))} {seqs : List SeqId}
      (fence recorded : Bool) (hrunning : σ.phase ≠ .done) (hwal : σ.wal = txns ++ rest)
      (hlen : seqs.length = txns.flatten.length)
      (hfloor : ∀ seq ∈ seqs, applyFloor sel σ fence < seq.1) :
      PassStep σ [] (σ.applied cfg recorded txns.flatten seqs rest)
  | fetch {σ : PassState K O C V} {cursor : MirrorFlushPageCursor K O}
      {fetched : List (FetchedRow K O C V)} {last : MirrorRow K O}
      (hphase : σ.phase = .reading cursor fetched)
      (hlast : (fetchPage compare cfg sel σ cursor).getLast? = some last)
      (hfull : ¬(fetchPage compare cfg sel σ cursor).length <
        flushMirrorFetchLimit cfg.maxRowsPerFile) :
      PassStep σ [] { σ with
        phase := .reading (nextPageCursor cfg.sortByOrderKey last)
          (fetched ++ withImages sel σ.heap (fetchPage compare cfg sel σ cursor)) }
  | upload {σ : PassState K O C V} {cursor : MirrorFlushPageCursor K O}
      {fetched : List (FetchedRow K O C V)}
      (hphase : σ.phase = .reading cursor fetched)
      (hshort : (fetchPage compare cfg sel σ cursor).length <
        flushMirrorFetchLimit cfg.maxRowsPerFile)
      (hvalid : validateFlushRowSelection sel.stats.rowCount
        (fetched ++ withImages sel σ.heap (fetchPage compare cfg sel σ cursor)).length = .ok ()) :
      PassStep σ [] { σ with
        phase := .uploaded
          (fetched ++ withImages sel σ.heap (fetchPage compare cfg sel σ cursor)) }
  | lock {σ : PassState K O C V} {fetched : List (FetchedRow K O C V)}
      (hphase : σ.phase = .uploaded fetched) (hprune : 0 < fetchedMaxSeq fetched) :
      PassStep σ [] { σ with phase := .locked fetched }
  | finalize {σ : PassState K O C V} {fetched : List (FetchedRow K O C V)}
      (hphase : σ.phase = .locked fetched) (hfence : σ.wal.flatten = []) :
      PassStep σ [] (prune compare sel σ fetched)

inductive PassRun : PassState K O C V → List (RowWrite K C V) → PassState K O C V → Prop
  | refl {σ : PassState K O C V} : PassRun σ [] σ
  | tail {σ τ υ : PassState K O C V} {ws ws' : List (RowWrite K C V)}
      (hrun : PassRun σ ws τ) (hstep : PassStep compare cfg sel τ ws' υ) : PassRun σ (ws ++ ws') υ

/-- The pass is about to fetch its first page. -/
structure PassStart (committed : K → Option (HeapRow C V)) (σ : PassState K O C V) : Prop where
  phase : σ.phase = .reading (initialPageCursor cfg.sortByOrderKey) []
  consistent : Consistent committed σ.heap σ.mirror σ.cold σ.wal.flatten
  cold_lt : ∀ m ∈ σ.mirror.rows, ∀ v ∈ σ.cold, v.pk = m.pk → v.seq < m.seq
  seq_nodup : cfg.sortByOrderKey = false → (σ.mirror.rows.map MirrorRow.seq).Nodup

variable {compare cfg sel}

/-- **An apply pass is a step**, the fence as well as a pass without prune floor: the ids it writes
are above the floor of the step. -/
theorem PassStep.of_applyBoundedLocked {Tuple : Type*} {env : ApplyEnv Tuple K}
    {req : BoundedApplyRequest} (henv : env.AllocatesAbove) {table : ManagedRelation Tuple K}
    {σ : PassState K O C V} {fence : Bool} (recorded : Bool)
    (hfloor : req.targetPruneFloor =
      if fence then some (table.tableOid, (σ.phase.bound sel : ℤ)) else none)
    {durable : Option ℕ} {stream : List (PgOutputMessage Tuple)} {outcome : BoundedApplyOutcome}
    {written : List (RowChange K × ℤ)}
    (happly : applyBoundedLocked env req durable σ.seqWatermark stream = .ok (outcome, written))
    (htable : ∀ e ∈ written, env.managed e.1.relationId = some table)
    {txns rest : List (List (RowWrite K C V))} (hrunning : σ.phase ≠ .done)
    (hwal : σ.wal = txns ++ rest)
    (hwritten : written.map (fun e ↦ (e.1.row.pk, e.1.operation)) =
      txns.flatten.map fun w ↦ (w.pk, w.op)) :
    ∃ seqs : List SeqId, seqs.map (fun seq ↦ (seq.1 : ℤ)) = written.map Prod.snd ∧
      PassStep compare cfg sel σ [] (σ.applied cfg recorded txns.flatten seqs rest) := by
  obtain ⟨-, hmark, hfl⟩ := applyBoundedLocked_allocates henv happly
  have habove : ∀ e ∈ written, (applyFloor sel σ fence : ℤ) < e.2 := by
    intro e he
    rw [applyFloor]
    split_ifs with hfe
    · rw [if_pos hfe] at hfloor
      rw [Nat.cast_max]
      exact max_lt (hmark e he) (hfl e he table _ (htable e he) hfloor)
    · exact hmark e he
  have hpos : ∀ e ∈ written, 0 < e.2.toNat := fun e he ↦ by
    have := habove e he
    omega
  refine ⟨written.pmap (fun e he ↦ ⟨e.2.toNat, he⟩) hpos, ?_,
    .apply fence recorded hrunning hwal ?_ ?_⟩
  · rw [map_pmap]
    refine (pmap_congr_left written fun e he _ h₂ ↦ ?_).trans (pmap_eq_map hpos)
    have := habove e he
    show ((e.2.toNat : ℕ) : ℤ) = e.2
    omega
  · have hlen := congrArg List.length hwritten
    rw [length_map, length_map] at hlen
    rw [length_pmap, hlen]
  · intro seq hseq
    obtain ⟨e, he, rfl⟩ := mem_pmap.1 hseq
    have := habove e he
    show applyFloor sel σ fence < e.2.toNat
    omega

end Steps

section Cursor

variable {limit : ℕ} {rows : List (MirrorRow K O)} {cursor : MirrorFlushPageCursor K O}
variable {sortByOrderKey : Bool} {m last : MirrorRow K O}

def MirrorFlushPageCursor.Matches (sortByOrderKey : Bool) : MirrorFlushPageCursor K O → Prop
  | afterSeq _ => sortByOrderKey = false
  | afterOrderKey _ => sortByOrderKey = true

theorem matches_initialPageCursor :
    (initialPageCursor sortByOrderKey : MirrorFlushPageCursor K O).Matches sortByOrderKey := by
  cases sortByOrderKey <;> rfl

theorem matches_nextPageCursor : (nextPageCursor sortByOrderKey last).Matches sortByOrderKey := by
  cases sortByOrderKey <;> rfl

theorem orderedKey_inj {m m' : MirrorRow K O} (h : m.orderedKey = m'.orderedKey) :
    m.pk = m'.pk := by
  simp only [MirrorRow.orderedKey, toLex_inj, Prod.mk.injEq] at h
  exact h.2.1

variable [LinearOrder K] [LinearOrder O]

def MirrorFlushPageCursor.Precedes (m : MirrorRow K O) : MirrorFlushPageCursor K O → Prop
  | afterSeq seq => seq < m.seq
  | afterOrderKey after => ∀ key, after = some key → key < m.orderedKey

theorem precedes_initialPageCursor (hp : 0 < m.seq) :
    (initialPageCursor sortByOrderKey : MirrorFlushPageCursor K O).Precedes m := by
  cases sortByOrderKey with
  | false => exact hp
  | true => exact fun _ h ↦ absurd h (by simp)

theorem mem_of_mem_fetchMirrorBatch (h : m ∈ fetchMirrorBatch limit rows cursor) : m ∈ rows := by
  cases cursor with
  | afterSeq seq | afterOrderKey after => exact Keyset.mem_of_mem_page h

theorem mem_fetchMirrorBatch_of_short (hsh : (fetchMirrorBatch limit rows cursor).length < limit)
    (hmem : m ∈ rows) (hu : cursor.Precedes m) : m ∈ fetchMirrorBatch limit rows cursor := by
  cases cursor with
  | afterSeq seq =>
    rw [fetchMirrorBatch, Keyset.page_eq_after_of_length_lt hsh]
    exact Keyset.mem_after.2 ⟨hmem, fun c hc ↦ Option.some.inj hc ▸ hu⟩
  | afterOrderKey after =>
    rw [fetchMirrorBatch, Keyset.page_eq_after_of_length_lt hsh]
    exact Keyset.mem_after.2 ⟨hmem, hu⟩

theorem mem_fetchMirrorBatch_or_precedes (hm : cursor.Matches sortByOrderKey)
    (hmem : m ∈ rows) (hu : cursor.Precedes m) (hpk : ∀ b ∈ rows, b.pk = m.pk → b = m)
    (hs : sortByOrderKey = false → ∀ b ∈ rows, b.seq = m.seq → b = m)
    (hl : (fetchMirrorBatch limit rows cursor).getLast? = some last) :
    m ∈ fetchMirrorBatch limit rows cursor ∨ (nextPageCursor sortByOrderKey last).Precedes m := by
  cases cursor with
  | afterSeq seq =>
    obtain rfl : sortByOrderKey = false := hm
    exact Keyset.mem_page_or_after hmem (fun c hc ↦ Option.some.inj hc ▸ hu) (hs rfl) hl
  | afterOrderKey after =>
    obtain rfl : sortByOrderKey = true := hm
    have hi : ∀ b ∈ rows, b.orderedKey = m.orderedKey → b = m := fun b hb hk ↦
      hpk b hb (orderedKey_inj hk)
    refine (Keyset.mem_page_or_after hmem hu hi hl).imp_right fun hlt key hk ↦ ?_
    exact Option.some.inj hk ▸ hlt

end Cursor

section ReadInv

variable (cfg : TableConfig O C V) (sel : ResolvedFlushSelection C L)

/-- `origin` are the mirror rows at selection. -/
structure ReadInv (origin : List (MirrorRow K O)) (bound : ℕ)
    (fetched : List (FetchedRow K O C V)) (Passed : MirrorRow K O → Prop) (heap : Heap K C V)
    (mirror : MirrorTable K O) (pending : List (RowWrite K C V)) : Prop where
  old : ∀ m ∈ mirror.rows, m.seq ≤ bound → m ∈ origin
  kept : ∀ m ∈ origin, ∃ m' ∈ mirror.rows, m'.pk = m.pk
  fetched_origin : ∀ f ∈ fetched, f.row ∈ origin ∧ f.row.seq ≤ bound
  image : ∀ f ∈ fetched, f.row ∈ mirror.rows → Untouched pending f.row.pk →
    f.image = fetchedImage sel heap f.row.pk
  complete : ∀ m ∈ mirror.rows, m.seq ≤ bound → Untouched pending m.pk →
    flushSelects compare sel heap m = true → Passed m → ∃ f ∈ fetched, f.row = m

variable {compare cfg sel} {origin : List (MirrorRow K O)} {bound : ℕ}
variable {fetched : List (FetchedRow K O C V)} {Passed : MirrorRow K O → Prop}
variable {heap heap' : Heap K C V} {mirror : MirrorTable K O}
variable {pending rest : List (RowWrite K C V)} {w : RowWrite K C V} {m : MirrorRow K O}

theorem seq_le_of_flushSelects (h : flushSelects compare sel heap m = true) :
    m.seq ≤ sel.stats.maxSeq := by
  simp only [flushSelects, Bool.and_eq_true, decide_eq_true_eq] at h
  exact h.1.1

theorem flushSelects_of_cleanupRemoves {maxSeq : ℕ} (hm : maxSeq ≤ sel.stats.maxSeq)
    (h : cleanupRemoves compare maxSeq sel.mirrorOps sel.rowFilter heap m = true) :
    m.seq ≤ maxSeq ∧ flushSelects compare sel heap m = true := by
  simp only [cleanupRemoves, Bool.and_eq_true, decide_eq_true_eq] at h
  obtain ⟨⟨hs, ho⟩, hf⟩ := h
  refine ⟨hs, ?_⟩
  simp only [flushSelects, Bool.and_eq_true, decide_eq_true_eq]
  refine ⟨⟨hs.trans hm, ho⟩, ?_⟩
  cases hr : sel.rowFilter with
  | none => rfl
  | some filter =>
    simp only [hr, Bool.or_eq_true, decide_eq_true_eq] at hf ⊢
    refine .inr (hf.imp_right fun ha ↦ ?_)
    cases hh : heap m.pk with
    | none => simp [hh] at ha
    | some row => simpa [leftJoin, hh] using ha

theorem fetchedImage_of_live {maxSeq : ℕ}
    (hr : cleanupRemoves compare maxSeq sel.mirrorOps sel.rowFilter heap m = true)
    (hop : m.op ≠ .delete) (hlv : heap m.pk ≠ none) :
    some (fetchedImage sel heap m.pk) = heap m.pk := by
  simp only [cleanupRemoves, Bool.and_eq_true] at hr
  have ho : deleteOnly sel.mirrorOps = false := by
    refine decide_eq_false fun hd ↦ hop ?_
    simpa [hd, mirrorOpsWhereClause] using hr.1.2
  obtain ⟨row, hrow⟩ := Option.ne_none_iff_exists'.1 hlv
  simp [fetchedImage, ho, leftJoin, hrow]

theorem untouched_nil (k : K) : Untouched ([] : List (RowWrite K C V)) k :=
  nofun

theorem flushSelects_congr (h : heap m.pk = heap' m.pk) :
    flushSelects compare sel heap m = flushSelects compare sel heap' m := by
  simp [flushSelects, leftJoin, h]

theorem fetchedImage_congr {k : K} (h : heap k = heap' k) :
    fetchedImage sel heap k = fetchedImage sel heap' k := by
  simp [fetchedImage, leftJoin, h]

theorem ReadInv.toPruneBound
    (h : ReadInv compare sel origin sel.stats.maxSeq fetched Passed heap mirror pending) :
    ReadInv compare sel origin (fetchedMaxSeq fetched) fetched Passed heap mirror pending := by
  have hle : fetchedMaxSeq fetched ≤ sel.stats.maxSeq := pruneMaxSeq_le_iff.2 fun r hr ↦ by
    obtain ⟨f, hf, rfl⟩ := mem_map.1 hr
    exact (h.fetched_origin f hf).2
  exact ⟨fun m hm hb ↦ h.old m hm (hb.trans hle), h.kept,
    fun f hf ↦ ⟨(h.fetched_origin f hf).1, seq_le_pruneMaxSeq (mem_map_of_mem hf)⟩, h.image,
    fun m hm hb ↦ h.complete m hm (hb.trans hle)⟩

variable [DecidableEq K]

theorem ReadInv.commit (h : ReadInv compare sel origin bound fetched Passed heap mirror pending)
    (w : RowWrite K C V) :
    ReadInv compare sel origin bound fetched Passed (replay heap [w]) mirror (pending ++ [w]) := by
  refine ⟨h.old, h.kept, h.fetched_origin, fun f hf hr hk ↦ ?_,
    fun m hm hb hk hs hpa ↦ ?_⟩
  · obtain ⟨hk', hne⟩ := untouched_append_singleton.1 hk
    rw [h.image f hf hr hk', fetchedImage_congr (replay_singleton_of_ne heap hne)]
  · obtain ⟨hk', hne⟩ := untouched_append_singleton.1 hk
    rw [flushSelects_congr (replay_singleton_of_ne heap hne)] at hs
    exact h.complete m hm hb hk' hs hpa

theorem ReadInv.apply (h : ReadInv compare sel origin bound fetched Passed heap mirror (w :: rest))
    {seq : SeqId} (hfl : bound < seq.1) :
    ReadInv compare sel origin bound fetched Passed heap (mirror.applyWrite cfg w seq) rest := by
  have hold : ∀ m ∈ (mirror.applyWrite cfg w seq).rows, m.seq ≤ bound →
      m ∈ mirror.rows ∧ m.pk ≠ w.pk := by
    intro m hm hb
    rcases MirrorTable.mem_applyWrite hm with hm' | ⟨-, he, -⟩
    · exact hm'
    · omega
  refine ⟨fun m hm hb ↦ h.old m (hold m hm hb).1 hb, fun m hm ↦ ?_,
    h.fetched_origin, fun f hf hr hk ↦ ?_, fun m hm hb hk hs hpa ↦ ?_⟩
  · obtain ⟨m', hm', hpk⟩ := h.kept m hm
    by_cases hw : m'.pk = w.pk
    · have ht : ∃ m₁ ∈ (mirror.applyWrite cfg w seq).rows, m₁.pk = w.pk :=
        MirrorTable.exists_mem_applyWrite (fun _ ↦ ⟨m', hm', hw⟩) seq
      obtain ⟨m₁, hm₁, hpk₁⟩ := ht
      exact ⟨m₁, hm₁, hpk₁.trans (hw.symm.trans hpk)⟩
    · exact ⟨m', MirrorTable.mem_applyWrite_of_ne hm' hw seq, hpk⟩
  · obtain ⟨hr', hne⟩ := hold f.row hr (h.fetched_origin f hf).2
    exact h.image f hf hr' (untouched_cons.2 ⟨hne.symm, hk⟩)
  · obtain ⟨hm', hne⟩ := hold m hm hb
    exact h.complete m hm' hb (untouched_cons.2 ⟨hne.symm, hk⟩) hs hpa

end ReadInv

variable {txn : List (RowWrite K C V)} {seqs : List SeqId}

section Lists

variable [DecidableEq K] {compare} {cfg : TableConfig O C V} {sel : ResolvedFlushSelection C L}
variable {committed : K → Option (HeapRow C V)} {cold : List (ColdVersion K C V)}
variable {origin : List (MirrorRow K O)} {bound : ℕ} {fetched : List (FetchedRow K O C V)}
variable {Passed : MirrorRow K O → Prop} {heap : Heap K C V} {mirror : MirrorTable K O}
variable {pending rest : List (RowWrite K C V)}

theorem Consistent.commitAll
    (h : Consistent committed heap mirror cold pending) (ha : AcceptedAll heap txn) :
    Consistent (replay committed txn) (replay heap txn) mirror cold (pending ++ txn) := by
  induction txn generalizing committed heap pending with
  | nil => simpa using h
  | cons w txn ih =>
    have hstep := ih (h.commit ha.1) ha.2
    rwa [← replay_append, ← replay_append, List.append_assoc] at hstep

theorem ReadInv.commitAll (txn : List (RowWrite K C V))
    (h : ReadInv compare sel origin bound fetched Passed heap mirror pending) :
    ReadInv compare sel origin bound fetched Passed (replay heap txn) mirror (pending ++ txn) := by
  induction txn generalizing heap pending with
  | nil => simpa using h
  | cons w txn ih =>
    have hstep := ih (h.commit w)
    rwa [← replay_append, List.append_assoc] at hstep

variable {ws : List (RowWrite K C V)}

theorem Consistent.applyAll
    (hl : seqs.length = ws.length) (h : Consistent committed heap mirror cold (ws ++ rest)) :
    Consistent committed heap (mirror.applyWrites cfg (ws.zip seqs)) cold rest := by
  induction ws generalizing mirror seqs with
  | nil => exact h
  | cons w ws ih =>
    cases seqs with
    | nil => cases hl
    | cons seq seqs => exact ih (Nat.succ.inj hl) (Consistent.apply h seq)

theorem ReadInv.applyAll (hl : seqs.length = ws.length) (hfl : ∀ seq ∈ seqs, bound < seq.1)
    (h : ReadInv compare sel origin bound fetched Passed heap mirror (ws ++ rest)) :
    ReadInv compare sel origin bound fetched Passed heap (mirror.applyWrites cfg (ws.zip seqs))
      rest := by
  induction ws generalizing mirror seqs with
  | nil => exact h
  | cons w ws ih =>
    cases seqs with
    | nil => cases hl
    | cons seq seqs =>
      exact ih (Nat.succ.inj hl) (fun q hq ↦ hfl q (mem_cons_of_mem _ hq))
        (ReadInv.apply h (hfl seq mem_cons_self))

end Lists

section Fetch

variable [LinearOrder K] [LinearOrder O] {compare} {cfg : TableConfig O C V}
variable {sel : ResolvedFlushSelection C L} {origin : List (MirrorRow K O)}
variable {fetched : List (FetchedRow K O C V)} {σ : PassState K O C V}
variable {cursor : MirrorFlushPageCursor K O} {Passed : MirrorRow K O → Prop}
variable {pending : List (RowWrite K C V)}

theorem mem_fetchPage {m : MirrorRow K O} (h : m ∈ fetchPage compare cfg sel σ cursor) :
    m ∈ σ.mirror.rows ∧ flushSelects compare sel σ.heap m = true :=
  mem_flushRows.1 (mem_of_mem_fetchMirrorBatch h)

theorem ReadInv.fetch
    (h : ReadInv compare sel origin sel.stats.maxSeq fetched (fun m ↦ ¬cursor.Precedes m) σ.heap
      σ.mirror pending)
    (hc : ∀ m ∈ flushRows compare sel σ.mirror.rows σ.heap, cursor.Precedes m → Passed m →
      m ∈ fetchPage compare cfg sel σ cursor) :
    ReadInv compare sel origin sel.stats.maxSeq
      (fetched ++ withImages sel σ.heap (fetchPage compare cfg sel σ cursor)) Passed σ.heap σ.mirror
      pending := by
  refine ⟨h.old, h.kept, fun f hf ↦ ?_, fun f hf hr hk ↦ ?_,
    fun m hm hb hk hs hpa ↦ ?_⟩
  · rcases mem_append.1 hf with hf | hf
    · exact h.fetched_origin f hf
    · obtain ⟨m, hm, rfl⟩ := mem_map.1 hf
      obtain ⟨hmem, hs⟩ := mem_fetchPage hm
      have hb := seq_le_of_flushSelects hs
      exact ⟨h.old m hmem hb, hb⟩
  · rcases mem_append.1 hf with hf | hf
    · exact h.image f hf hr hk
    · obtain ⟨m, -, rfl⟩ := mem_map.1 hf
      rfl
  · by_cases hu : cursor.Precedes m
    · have hpg := hc m (mem_flushRows.2 ⟨hm, hs⟩) hu hpa
      exact ⟨_, mem_append_right _ (mem_map_of_mem hpg), rfl⟩
    · obtain ⟨f, hf, hr⟩ := h.complete m hm hb hk hs hu
      exact ⟨f, mem_append_left _ hf, hr⟩

end Fetch

section Prune

variable [LinearOrder K] {compare} {sel : ResolvedFlushSelection C L}
variable {committed : K → Option (HeapRow C V)} {origin : List (MirrorRow K O)}
variable {fetched : List (FetchedRow K O C V)} {σ : PassState K O C V}

structure Fenced (compare : C → V → L → Ordering) (sel : ResolvedFlushSelection C L)
    (committed : K → Option (HeapRow C V)) (origin : List (MirrorRow K O))
    (fetched : List (FetchedRow K O C V)) (σ : PassState K O C V) : Prop where
  consistent : Consistent committed σ.heap σ.mirror σ.cold []
  read : ReadInv compare sel origin (fetchedMaxSeq fetched) fetched (fun _ ↦ True) σ.heap σ.mirror
    []
  max_le : fetchedMaxSeq fetched ≤ sel.stats.maxSeq
  origin_pk : (origin.map MirrorRow.pk).Nodup
  cold_lt : ∀ m ∈ origin, ∀ v ∈ σ.cold, v.pk = m.pk → v.seq < m.seq

variable {m : MirrorRow K O}

theorem Fenced.newestCold_removed (h : Fenced compare sel committed origin fetched σ)
    (hm : m ∈ σ.mirror.rows)
    (hr : cleanupRemoves compare (fetchedMaxSeq fetched) sel.mirrorOps sel.rowFilter σ.heap
      m = true) :
    newestCold (σ.cold ++ fetched.map FetchedRow.toCold) m.pk =
      some ⟨m.pk, m.seq, decide (m.op = .delete), fetchedImage sel σ.heap m.pk⟩ := by
  obtain ⟨he, hs⟩ := flushSelects_of_cleanupRemoves h.max_le hr
  have ho := h.read.old m hm he
  -- whatever was fetched under this key is this row, with this image
  have hcd : ∀ f ∈ fetched, f.row.pk = m.pk →
      f.toCold = ⟨m.pk, m.seq, decide (m.op = .delete), fetchedImage sel σ.heap m.pk⟩ := by
    intro f hf hpk
    have hrow : f.row = m :=
      inj_on_of_nodup_map h.origin_pk (h.read.fetched_origin f hf).1 ho hpk
    have hi := h.read.image f hf (hrow ▸ hm) (untouched_nil _)
    simp [FetchedRow.toCold, hi, hrow]
  obtain ⟨f, hf, hrow⟩ := h.read.complete m hm he (untouched_nil _) hs trivial
  have hp : f.row.pk = m.pk := congrArg MirrorRow.pk hrow
  rw [← hcd f hf hp, show m.pk = f.toCold.pk from hp.symm]
  refine newestCold_eq_some (mem_append_right _ (mem_map_of_mem hf)) fun v hv hpk ↦ ?_
  have hpk' : v.pk = m.pk := hpk.trans hp
  rcases mem_append.1 hv with hv | hv
  · have hlt := h.cold_lt m ho v hv hpk'
    exact .inl (hlt.trans_eq (congrArg MirrorRow.seq hrow.symm))
  · obtain ⟨f', hf', rfl⟩ := mem_map.1 hv
    exact .inr ((hcd f' hf' hpk').trans (hcd f hf hp).symm)

theorem prune_heap_eq_none_iff {k : K} : (prune compare sel σ fetched).heap k = none ↔
    σ.heap k = none ∨ ∃ m ∈ σ.mirror.rows, m.pk = k ∧ m.op ≠ .delete ∧
      cleanupRemoves compare (fetchedMaxSeq fetched) sel.mirrorOps sel.rowFilter σ.heap m =
        true := by
  have ha : ((removedMirror compare (fetchedMaxSeq fetched) sel.mirrorOps sel.rowFilter
      σ.mirror.rows σ.heap).any fun m ↦ decide (m.pk = k ∧ m.op ≠ .delete)) = true ↔
        ∃ m ∈ σ.mirror.rows, m.pk = k ∧ m.op ≠ .delete ∧
          cleanupRemoves compare (fetchedMaxSeq fetched) sel.mirrorOps sel.rowFilter σ.heap m =
            true := by
    simp only [removedMirror, any_eq_true, mem_filter, decide_eq_true_eq]
    exact ⟨fun ⟨m, ⟨hm, hr⟩, hk, hop⟩ ↦ ⟨m, hm, hk, hop, hr⟩,
      fun ⟨m, hm, hk, hop, hr⟩ ↦ ⟨m, ⟨hm, hr⟩, hk, hop⟩⟩
  simp only [prune]
  split
  · rename_i he
    exact iff_of_true rfl (.inr (ha.1 he))
  · rename_i hkt
    rw [ha] at hkt
    simp [hkt]

theorem prune_heap_eq_of_ne_none {k : K} (h : (prune compare sel σ fetched).heap k ≠ none) :
    (prune compare sel σ fetched).heap k = σ.heap k := by
  simp only [prune] at h ⊢
  split
  · rename_i hr
    rw [if_pos hr] at h
    exact absurd rfl h
  · rfl

theorem mem_prune_mirror : m ∈ (prune compare sel σ fetched).mirror.rows ↔
    m ∈ σ.mirror.rows ∧
      cleanupRemoves compare (fetchedMaxSeq fetched) sel.mirrorOps sel.rowFilter σ.heap m =
        false := by
  simp [prune]

/-- **After the prune the merged view is what was committed.** -/
theorem Fenced.prune_view (h : Fenced compare sel committed origin fetched σ) (k : K) :
    mergedView (prune compare sel σ fetched).heap (prune compare sel σ fetched).mirror
      (prune compare sel σ fetched).cold k = committed k := by
  by_cases hrow : ∃ m ∈ σ.mirror.rows, m.pk = k
  · obtain ⟨m, hm, rfl⟩ := hrow
    obtain ⟨htb, hc⟩ := h.consistent.mirrored m hm (untouched_nil _)
    have huq : ∀ m' ∈ σ.mirror.rows, m'.pk = m.pk → m' = m := fun m' hm' hpk ↦
      inj_on_of_nodup_map σ.mirror.pk_nodup hm' hm hpk
    cases he : cleanupRemoves compare (fetchedMaxSeq fetched) sel.mirrorOps sel.rowFilter
        σ.heap m with
    | true =>
      -- removed: nothing hot is left under the key, and cold storage has it
      have hh : (prune compare sel σ fetched).heap m.pk = none := by
        rw [prune_heap_eq_none_iff, htb]
        by_cases hop : m.op = .delete
        · exact .inl hop
        · exact .inr ⟨m, hm, rfl, hop, he⟩
      have hg : ∀ m' ∈ (prune compare sel σ fetched).mirror.rows, m'.pk ≠ m.pk := by
        intro m' hm' hpk
        obtain ⟨hmem, hkt⟩ := mem_prune_mirror.1 hm'
        rw [huq m' hmem hpk, he] at hkt
        cases hkt
      rw [mergedView_of_cold hh hg, hc, coldView,
        show (prune compare sel σ fetched).cold = σ.cold ++ fetched.map FetchedRow.toCold from rfl,
        h.newestCold_removed hm he]
      by_cases hop : m.op = .delete
      · simp [hop, htb.2 hop]
      · have hlv : σ.heap m.pk ≠ none := fun hnone ↦ hop (htb.1 hnone)
        simp [hop, fetchedImage_of_live he hop hlv]
    | false =>
      -- kept: the heap row or the tombstone is still there
      have hh : (prune compare sel σ fetched).heap m.pk = none ↔ m.op = .delete := by
        rw [prune_heap_eq_none_iff, htb, or_iff_left]
        rintro ⟨m', hm', hpk, -, hr⟩
        rw [huq m' hm' hpk, he] at hr
        cases hr
      by_cases hop : m.op = .delete
      · rw [mergedView_of_tombstone (hh.2 hop) (mem_prune_mirror.2 ⟨hm, he⟩) hop, hc, htb.2 hop]
      · have hp : (prune compare sel σ fetched).heap m.pk ≠ none := fun hnone ↦
          hop (hh.1 hnone)
        rw [mergedView_of_heap hp, prune_heap_eq_of_ne_none hp, hc]
  · -- the key is in cold storage alone, and the pass did not fetch it
    simp only [not_exists, not_and] at hrow
    obtain ⟨hh, hc⟩ := h.consistent.unmirrored k (untouched_nil _) hrow
    have hg : ∀ m ∈ (prune compare sel σ fetched).mirror.rows, m.pk ≠ k := fun m hm ↦
      hrow m (mem_prune_mirror.1 hm).1
    rw [mergedView_of_cold (prune_heap_eq_none_iff.2 (.inl hh)) hg, hc]
    refine coldView_append_of_forall_ne fun v hv hpk ↦ ?_
    obtain ⟨f, hf, rfl⟩ := mem_map.1 hv
    obtain ⟨m, hm, hpk'⟩ := h.read.kept f.row (h.read.fetched_origin f hf).1
    exact hrow m hm (hpk'.trans hpk)

end Prune

section Run

variable [LinearOrder K] [LinearOrder O]

def PassPhase.fetched : PassPhase K O C V → List (FetchedRow K O C V)
  | reading _ fetched => fetched
  | uploaded fetched => fetched
  | locked fetched => fetched
  | done => []

def PassPhase.Passed (m : MirrorRow K O) : PassPhase K O C V → Prop
  | reading cursor _ => ¬cursor.Precedes m
  | _ => True

/-- What holds of a pass that has not committed. -/
structure PassInv (compare : C → V → L → Ordering) (cfg : TableConfig O C V)
    (sel : ResolvedFlushSelection C L) (origin : MirrorTable K O)
    (committed : K → Option (HeapRow C V)) (σ : PassState K O C V) : Prop where
  running : σ.phase ≠ .done
  consistent : Consistent committed σ.heap σ.mirror σ.cold σ.wal.flatten
  read : ReadInv compare sel origin.rows (σ.phase.bound sel) σ.phase.fetched
    (fun m ↦ σ.phase.Passed m) σ.heap σ.mirror σ.wal.flatten
  bound_le : σ.phase.bound sel ≤ sel.stats.maxSeq
  cursor : ∀ cursor fetched, σ.phase = .reading cursor fetched →
    cursor.Matches cfg.sortByOrderKey
  cold_lt : ∀ m ∈ origin.rows, ∀ v ∈ σ.cold, v.pk = m.pk → v.seq < m.seq
  watermark : sel.stats.maxSeq ≤ σ.seqWatermark

variable {compare} {cfg : TableConfig O C V} {sel : ResolvedFlushSelection C L}
variable {committed : K → Option (HeapRow C V)} {origin : MirrorTable K O}
variable {σ τ : PassState K O C V} {ws : List (RowWrite K C V)}

theorem PassStart.passInv (h : PassStart cfg committed σ)
    (hwm : sel.stats.maxSeq ≤ σ.seqWatermark) : PassInv compare cfg sel σ.mirror committed σ := by
  have hpa : ∀ m ∈ σ.mirror.rows, ¬σ.phase.Passed m := by
    intro m hm hpa
    rw [h.phase] at hpa
    exact hpa (precedes_initialPageCursor (σ.mirror.seq_pos m hm))
  have hf : σ.phase.fetched = [] := by rw [h.phase]; rfl
  have hr : σ.phase ≠ .done := by rw [h.phase]; exact nofun
  refine ⟨hr, h.consistent, ⟨fun m hm _ ↦ hm, fun m hm ↦ ⟨m, hm, rfl⟩, ?_, ?_,
    fun m hm _ _ _ hp ↦ absurd hp (hpa m hm)⟩, ?_, fun cursor fetched hph ↦ ?_, h.cold_lt, hwm⟩
  · simp [hf]
  · simp [hf]
  · rw [h.phase]
    exact le_rfl
  · rw [h.phase] at hph
    obtain ⟨rfl, -⟩ := PassPhase.reading.inj hph
    exact matches_initialPageCursor

theorem PassInv.commit
    (h : PassInv compare cfg sel origin committed σ) (ha : AcceptedAll σ.heap txn) :
    PassInv compare cfg sel origin (replay committed txn)
      { σ with heap := replay σ.heap txn, wal := σ.wal ++ [txn] } := by
  refine ⟨h.running, ?_, ?_, h.bound_le, h.cursor, h.cold_lt, h.watermark⟩
  · rw [flatten_concat]
    exact h.consistent.commitAll ha
  · rw [flatten_concat]
    exact h.read.commitAll txn

theorem le_foldl_max (seqs : List SeqId) (w : ℕ) : w ≤ seqs.foldl (fun w seq ↦ max w seq.1) w := by
  induction seqs generalizing w with
  | nil => exact le_rfl
  | cons seq seqs ih => exact (le_max_left _ _).trans (ih _)

/-- Ids above the watermark are above whatever the pass may prune. -/
theorem PassInv.bound_lt {fence : Bool} (h : PassInv compare cfg sel origin committed σ)
    (hfl : ∀ seq ∈ seqs, applyFloor sel σ fence < seq.1) : ∀ seq ∈ seqs,
      σ.phase.bound sel < seq.1 := by
  intro seq hs
  have hle : σ.seqWatermark ≤ applyFloor sel σ fence := by
    rw [applyFloor]
    split_ifs
    · exact le_max_left _ _
    · exact le_rfl
  exact ((h.bound_le.trans h.watermark).trans hle).trans_lt (hfl seq hs)

theorem PassInv.apply {txns rest : List (List (RowWrite K C V))} {fence recorded : Bool}
    (h : PassInv compare cfg sel origin committed σ) (hw : σ.wal = txns ++ rest)
    (hl : seqs.length = txns.flatten.length)
    (hfl : ∀ seq ∈ seqs, applyFloor sel σ fence < seq.1) :
    PassInv compare cfg sel origin committed (σ.applied cfg recorded txns.flatten seqs rest) := by
  have hc := h.consistent
  have hrd := h.read
  rw [hw, flatten_append] at hc hrd
  refine ⟨h.running, hc.applyAll hl, hrd.applyAll hl (h.bound_lt hfl), h.bound_le, h.cursor,
    h.cold_lt, h.watermark.trans ?_⟩
  rw [PassState.applied]
  split_ifs
  · exact le_foldl_max seqs _
  · exact le_rfl

variable {cursor : MirrorFlushPageCursor K O} {fetched : List (FetchedRow K O C V)}
  (h : PassInv compare cfg sel origin committed σ)
include h

theorem PassInv.reading (hph : σ.phase = .reading cursor fetched) :
    ReadInv compare sel origin.rows sel.stats.maxSeq fetched (fun m ↦ ¬cursor.Precedes m) σ.heap
      σ.mirror σ.wal.flatten := by
  have hrd := h.read
  rwa [hph] at hrd

theorem PassInv.fetch {last : MirrorRow K O}
    (hori : cfg.sortByOrderKey = false → (origin.rows.map MirrorRow.seq).Nodup)
    (hph : σ.phase = .reading cursor fetched)
    (hl : (fetchPage compare cfg sel σ cursor).getLast? = some last) :
    PassInv compare cfg sel origin committed { σ with
      phase := .reading (nextPageCursor cfg.sortByOrderKey last)
        (fetched ++ withImages sel σ.heap (fetchPage compare cfg sel σ cursor)) } := by
  have hrd := h.reading hph
  have ho : ∀ r ∈ flushRows compare sel σ.mirror.rows σ.heap, r ∈ origin.rows := by
    intro r hr
    obtain ⟨hr, hs⟩ := mem_flushRows.1 hr
    exact hrd.old r hr (seq_le_of_flushSelects hs)
  -- two rows of one page query with one keyset are one row
  have hpk : ∀ m ∈ flushRows compare sel σ.mirror.rows σ.heap,
      ∀ b ∈ flushRows compare sel σ.mirror.rows σ.heap, b.pk = m.pk → b = m := fun m hm b hb ↦
    inj_on_of_nodup_map origin.pk_nodup (ho b hb) (ho m hm)
  have he : cfg.sortByOrderKey = false → ∀ m ∈ flushRows compare sel σ.mirror.rows σ.heap,
      ∀ b ∈ flushRows compare sel σ.mirror.rows σ.heap, b.seq = m.seq → b = m :=
    fun hso m hm b hb ↦
      inj_on_of_nodup_map (hori hso) (ho b hb) (ho m hm)
  refine ⟨nofun, h.consistent, ?_, le_rfl, fun cursor' fetched' hph' ↦ ?_, h.cold_lt, h.watermark⟩
  · refine hrd.fetch fun m hm hc hpa ↦ ?_
    exact (mem_fetchMirrorBatch_or_precedes (h.cursor cursor fetched hph) hm hc
      (hpk m hm) (fun hso ↦ he hso m hm) hl).resolve_right hpa
  · obtain ⟨rfl, -⟩ := PassPhase.reading.inj hph'
    exact matches_nextPageCursor

theorem PassInv.upload (hph : σ.phase = .reading cursor fetched)
    (hsh : (fetchPage compare cfg sel σ cursor).length < flushMirrorFetchLimit cfg.maxRowsPerFile) :
    PassInv compare cfg sel origin committed { σ with
      phase := .uploaded
        (fetched ++ withImages sel σ.heap (fetchPage compare cfg sel σ cursor)) } := by
  have ha : ReadInv compare sel origin.rows sel.stats.maxSeq
      (fetched ++ withImages sel σ.heap (fetchPage compare cfg sel σ cursor)) (fun _ ↦ True) σ.heap
      σ.mirror σ.wal.flatten :=
    (h.reading hph).fetch fun m hm hc _ ↦ mem_fetchMirrorBatch_of_short hsh hm hc
  refine ⟨nofun, h.consistent, ha.toPruneBound, ?_, (fun _ _ hph' ↦ nomatch hph'),
    h.cold_lt, h.watermark⟩
  exact pruneMaxSeq_le_iff.2 fun r hr ↦ by
    obtain ⟨f, hf, rfl⟩ := mem_map.1 hr
    exact (ha.fetched_origin f hf).2

theorem PassInv.lock (hph : σ.phase = .uploaded fetched) :
    PassInv compare cfg sel origin committed { σ with phase := .locked fetched } := by
  have hrd := h.read
  have hb := h.bound_le
  rw [hph] at hrd hb
  exact ⟨nofun, h.consistent, hrd, hb, (fun _ _ hph' ↦ nomatch hph'), h.cold_lt, h.watermark⟩

theorem PassInv.fenced (hph : σ.phase = .locked fetched) (hf : σ.wal.flatten = []) :
    Fenced compare sel committed origin.rows fetched σ := by
  have hc := h.consistent
  have hrd := h.read
  have hb := h.bound_le
  rw [hf] at hc hrd
  rw [hph] at hrd hb
  exact ⟨hc, hrd, hb, origin.pk_nodup, h.cold_lt⟩

theorem PassInv.step (ho : cfg.sortByOrderKey = false → (origin.rows.map MirrorRow.seq).Nodup)
    (hstep : PassStep compare cfg sel σ ws τ) :
    PassInv compare cfg sel origin (replay committed ws) τ ∨
      τ.phase = .done ∧ ∀ k, mergedView τ.heap τ.mirror τ.cold k = replay committed ws k := by
  cases hstep with
  | commit hp ha => exact .inl (h.commit ha)
  | apply fence recorded hr hw hlen hfl => exact .inl (h.apply hw hlen hfl)
  | fetch hph hl hfu => exact .inl (h.fetch ho hph hl)
  | upload hph hsh hv => exact .inl (h.upload hph hsh)
  | lock hph hprn => exact .inl (h.lock hph)
  | finalize hph hf => exact .inr ⟨rfl, (h.fenced hph hf).prune_view⟩

omit h

theorem PassStep.phase_ne_done (hstep : PassStep compare cfg sel σ ws τ) : σ.phase ≠ .done := by
  intro hdn
  cases hstep with
  | commit ho ha =>
    rw [hdn] at ho
    cases ho
  | apply fence recorded hr hw hlen hfl => exact hr hdn
  | fetch hph hl hfu | upload hph hsh hv | lock hph hp | finalize hph hf =>
    exact nomatch hdn.symm.trans hph

theorem PassRun.passInv (hst : PassStart cfg committed σ)
    (hwm : sel.stats.maxSeq ≤ σ.seqWatermark) (hr : PassRun compare cfg sel σ ws τ) :
    PassInv compare cfg sel σ.mirror (replay committed ws) τ ∨
      τ.phase = .done ∧ ∀ k, mergedView τ.heap τ.mirror τ.cold k = replay committed ws k := by
  induction hr with
  | refl => exact .inl (hst.passInv hwm)
  | tail hr hstep ih =>
    rw [replay_append]
    rcases ih with hi | ⟨hdn, -⟩
    · exact hi.step hst.seq_nodup hstep
    · exact absurd hdn hstep.phase_ne_done

end Run

namespace ExamplePass

def heap : Heap ℕ Unit ℕ := fun k ↦ if k ∈ [1, 2, 3] then some fun _ ↦ some (10 * k) else none

def start (seqWatermark : ℕ) : PassState ℕ Unit Unit ℕ where
  heap := heap
  mirror :=
    { rows := [⟨1, (), 5, .insert⟩, ⟨2, (), 6, .insert⟩, ⟨3, (), 7, .update⟩]
      pk_nodup := by decide
      seq_pos := by decide }
  cold := []
  wal := []
  seqWatermark := seqWatermark
  phase := .reading (.afterSeq 0) []

def cfg : TableConfig Unit Unit ℕ := ⟨false, fun _ ↦ (), 4⟩

def sel : ResolvedFlushSelection Unit ℕ := .new ⟨3, 5, 7⟩

theorem passStart (seqWatermark : ℕ) : PassStart cfg heap (start seqWatermark) := by
  refine ⟨rfl, ⟨fun l w r h ↦ by simp [start] at h, fun m hm _ ↦ ?_, fun k _ hk ↦ ?_,
    fun l w r h ↦ by simp [start] at h⟩, nofun,
    fun _ ↦ by simp [start]⟩
  · simp only [start, mem_cons, not_mem_nil, or_false] at hm
    rcases hm with rfl | rfl | rfl <;> exact ⟨by simp [start, heap], rfl⟩
  · have ha : heap k = none := by
      simp only [start, mem_cons, not_mem_nil, or_false, forall_eq_or_imp, forall_eq] at hk
      obtain ⟨h₁, h₂, h₃⟩ := hk
      simp [heap, Ne.symm h₁, Ne.symm h₂, Ne.symm h₃]
    exact ⟨ha, ha⟩

/-- An update that an ordinary apply pass takes during the upload, and a delete that is left to the
fence. -/
theorem passRun : ∃ τ, PassRun (fun _ ↦ Ord.compare) cfg sel (start 7)
    ([] ++ [.update 2 fun _ ↦ some 21] ++ [] ++ [] ++ [.delete 3] ++ [] ++ [] ++ []) τ ∧
      τ.phase = .done := by
  refine ⟨_, .tail (.tail (.tail (.tail (.tail (.tail (.tail .refl
    (.commit rfl ⟨rfl, trivial⟩)) (.upload rfl (by decide) (by decide)))
    (.apply false true nofun (append_nil _).symm
      (rfl : ([⟨8, by decide⟩] : List SeqId).length = _) (by decide)))
    (.commit rfl ⟨rfl, trivial⟩)) (.lock rfl (by decide)))
    (.apply true false nofun (append_nil _).symm
      (rfl : ([⟨9, by decide⟩] : List SeqId).length = _) (by decide)))
    (.finalize rfl rfl), rfl⟩

end ExamplePass

end Koldstore
