import Koldstore.Flush.Table

/-!
# Committed writes, their way into the mirror, and the merged view

A write is *pending* until an apply pass decodes it from the WAL.
-/

namespace Koldstore

open List

/-! ### Writes -/

inductive RowWrite (K C V : Type*)
  | insert (pk : K) (row : HeapRow C V)
  | update (pk : K) (row : HeapRow C V)
  | delete (pk : K)

namespace RowWrite

variable {K C V : Type*}

def pk : RowWrite K C V → K
  | insert pk _ => pk
  | update pk _ => pk
  | delete pk => pk

def op : RowWrite K C V → MirrorOperation
  | insert _ _ => .insert
  | update _ _ => .update
  | delete _ => .delete

def result : RowWrite K C V → Option (HeapRow C V)
  | insert _ row => some row
  | update _ row => some row
  | delete _ => none

def Accepted (heap : Heap K C V) : RowWrite K C V → Prop
  | insert pk _ => heap pk = none
  | update pk _ => (heap pk).isSome = true
  | delete pk => (heap pk).isSome = true

theorem result_isNone_iff (w : RowWrite K C V) : w.result = none ↔ w.op = .delete := by
  cases w <;> simp [result, op]

theorem Accepted.op_ne_delete {heap : Heap K C V} {w : RowWrite K C V} (h : w.Accepted heap)
    (ha : heap w.pk = none) : w.op ≠ .delete := by
  cases w with
  | insert pk row | update pk row => simp [op]
  | delete pk =>
    have hp : (heap pk).isSome = true := h
    rw [show heap pk = none from ha] at hp
    cases hp

end RowWrite

section Replay

variable {K C V : Type*} [DecidableEq K] (before : K → Option (HeapRow C V))

def replay (writes : List (RowWrite K C V)) : K → Option (HeapRow C V) :=
  writes.foldl (fun rows w ↦ Function.update rows w.pk w.result) before

def AcceptedAll : Heap K C V → List (RowWrite K C V) → Prop
  | _, [] => True
  | heap, w :: ws => w.Accepted heap ∧ AcceptedAll (replay heap [w]) ws

@[simp] theorem replay_nil : replay before [] = before := rfl

theorem replay_append (ws ws' : List (RowWrite K C V)) :
    replay before (ws ++ ws') = replay (replay before ws) ws' :=
  foldl_append

theorem replay_singleton_self (w : RowWrite K C V) : replay before [w] w.pk = w.result := by
  simp [replay]

theorem replay_singleton_of_ne {w : RowWrite K C V} {k : K} (h : w.pk ≠ k) :
    replay before [w] k = before k := by
  simp [replay, Function.update_of_ne h.symm]

end Replay

/-! ### Applying writes to the mirror -/

abbrev SeqId := { n : ℕ // 0 < n }

structure TableConfig (O C V : Type*) where
  sortByOrderKey : Bool
  orderKey : HeapRow C V → O
  maxRowsPerFile : ℕ

namespace MirrorTable

variable {K O C V : Type*} [DecidableEq K]

def update (mirror : MirrorTable K O) (pk : K) (seq : SeqId) (op : MirrorOperation) :
    MirrorTable K O where
  rows := mirror.rows.map fun r ↦ if r.pk = pk then { r with seq := seq, op := op } else r
  pk_nodup := by
    have hpk : (fun r : MirrorRow K O ↦
        (if r.pk = pk then { r with seq := seq.1, op := op } else r).pk) = MirrorRow.pk := by
      funext r
      split <;> rfl
    rw [map_map]
    exact (congrArg (fun f ↦ (mirror.rows.map f).Nodup) hpk).mpr mirror.pk_nodup
  seq_pos := by
    intro r hr
    obtain ⟨r', hr', rfl⟩ := mem_map.1 hr
    split
    · exact seq.2
    · exact mirror.seq_pos r' hr'

def upsert (mirror : MirrorTable K O) (pk : K) (orderKey : O) (seq : SeqId)
    (op : MirrorOperation) : MirrorTable K O :=
  if h : pk ∈ mirror.rows.map MirrorRow.pk then mirror.update pk seq op
  else
    { rows := mirror.rows ++ [⟨pk, orderKey, seq, op⟩]
      pk_nodup := by
        rw [map_append, nodup_append]
        refine ⟨mirror.pk_nodup, nodup_singleton _, fun a ha b hb heq ↦ h ?_⟩
        obtain rfl : b = pk := by simpa using hb
        exact heq ▸ ha
      seq_pos := by
        intro r hr
        rcases mem_append.1 hr with hr | hr
        · exact mirror.seq_pos r hr
        · obtain rfl := mem_singleton.1 hr
          exact seq.2 }

def applyWrite (cfg : TableConfig O C V) (mirror : MirrorTable K O) (w : RowWrite K C V)
    (seq : SeqId) : MirrorTable K O :=
  match w with
  | .insert pk row => mirror.upsert pk (cfg.orderKey row) seq .insert
  | .update pk row => mirror.upsert pk (cfg.orderKey row) seq .update
  | .delete pk =>
    if cfg.sortByOrderKey then mirror.update pk seq .delete
    else mirror.upsert pk (cfg.orderKey fun _ ↦ none) seq .delete

def applyWrites (cfg : TableConfig O C V) (mirror : MirrorTable K O)
    (stamped : List (RowWrite K C V × SeqId)) : MirrorTable K O :=
  stamped.foldl (fun mirror ws ↦ mirror.applyWrite cfg ws.1 ws.2) mirror

variable {mirror : MirrorTable K O} {m : MirrorRow K O} {pk : K} {cfg : TableConfig O C V}
  {w : RowWrite K C V}

theorem mem_update {seq : SeqId} {op : MirrorOperation} (h : m ∈ (mirror.update pk seq op).rows) :
    m ∈ mirror.rows ∧ m.pk ≠ pk ∨ m.pk = pk ∧ m.seq = seq ∧ m.op = op := by
  obtain ⟨r, hr, rfl⟩ := mem_map.1 h
  by_cases hpk : r.pk = pk
  · rw [if_pos hpk]
    exact .inr ⟨hpk, rfl, rfl⟩
  · rw [if_neg hpk]
    exact .inl ⟨hr, hpk⟩

theorem mem_upsert {orderKey : O} {seq : SeqId}
    {op : MirrorOperation} (h : m ∈ (mirror.upsert pk orderKey seq op).rows) :
    m ∈ mirror.rows ∧ m.pk ≠ pk ∨ m.pk = pk ∧ m.seq = seq ∧ m.op = op := by
  rw [upsert] at h
  split at h
  · exact mem_update h
  · rename_i hn
    rcases mem_append.1 h with h | h
    · exact .inl ⟨h, fun heq ↦ hn (heq ▸ mem_map_of_mem h)⟩
    · obtain rfl := mem_singleton.1 h
      exact .inr ⟨rfl, rfl, rfl⟩

theorem mem_applyWrite {seq : SeqId} (h : m ∈ (mirror.applyWrite cfg w seq).rows) :
    m ∈ mirror.rows ∧ m.pk ≠ w.pk ∨ m.pk = w.pk ∧ m.seq = seq ∧ m.op = w.op := by
  cases w with
  | insert pk row | update pk row => exact mem_upsert h
  | delete pk =>
    simp only [applyWrite] at h
    split at h
    · exact mem_update h
    · exact mem_upsert h

theorem mem_update_of_ne (hm : m ∈ mirror.rows) (hpk : m.pk ≠ pk) (seq : SeqId)
    (op : MirrorOperation) : m ∈ (mirror.update pk seq op).rows :=
  mem_map.2 ⟨m, hm, if_neg hpk⟩

theorem mem_upsert_of_ne (hm : m ∈ mirror.rows) (hpk : m.pk ≠ pk) (orderKey : O)
    (seq : SeqId) (op : MirrorOperation) : m ∈ (mirror.upsert pk orderKey seq op).rows := by
  rw [upsert]
  split
  · exact mem_update_of_ne hm hpk seq op
  · exact mem_append_left _ hm

theorem mem_applyWrite_of_ne (hm : m ∈ mirror.rows)
    (hpk : m.pk ≠ w.pk) (seq : SeqId) : m ∈ (mirror.applyWrite cfg w seq).rows := by
  cases w with
  | insert pk row | update pk row => exact mem_upsert_of_ne hm hpk _ seq _
  | delete pk =>
    simp only [applyWrite]
    split
    · exact mem_update_of_ne hm hpk seq _
    · exact mem_upsert_of_ne hm hpk _ seq _

theorem exists_mem_update (h : ∃ m ∈ mirror.rows, m.pk = pk) (seq : SeqId)
    (op : MirrorOperation) : ∃ m ∈ (mirror.update pk seq op).rows, m.pk = pk := by
  obtain ⟨m, hm, hpk⟩ := h
  refine ⟨{ m with seq := seq, op := op }, mem_map.2 ⟨m, hm, if_pos hpk⟩, hpk⟩

theorem exists_mem_upsert (mirror : MirrorTable K O) (pk : K) (orderKey : O) (seq : SeqId)
    (op : MirrorOperation) : ∃ m ∈ (mirror.upsert pk orderKey seq op).rows, m.pk = pk := by
  rw [upsert]
  split
  · rename_i h
    obtain ⟨m, hm, hpk⟩ := mem_map.1 h
    exact exists_mem_update ⟨m, hm, hpk⟩ seq op
  · exact ⟨_, mem_append_right _ (mem_singleton_self _), rfl⟩

theorem exists_mem_applyWrite (h : w.op = .delete → ∃ m ∈ mirror.rows, m.pk = w.pk) (seq : SeqId) :
    ∃ m ∈ (mirror.applyWrite cfg w seq).rows, m.pk = w.pk := by
  cases w with
  | insert pk row | update pk row => exact exists_mem_upsert mirror pk _ seq _
  | delete pk =>
    simp only [applyWrite]
    split
    · exact exists_mem_update (h rfl) seq _
    · exact exists_mem_upsert mirror pk _ seq _

end MirrorTable

/-! ### Cold versions and the merged view -/

structure ColdVersion (K C V : Type*) where
  pk : K
  seq : ℕ
  deleted : Bool
  image : HeapRow C V

section View

variable {K O C V : Type*} [DecidableEq K]

def newer (best : Option (ColdVersion K C V)) (v : ColdVersion K C V) :
    Option (ColdVersion K C V) :=
  match best with
  | none => some v
  | some b => if b.seq < v.seq then some v else some b

def newestCold (cold : List (ColdVersion K C V)) (k : K) : Option (ColdVersion K C V) :=
  (cold.filter fun v ↦ decide (v.pk = k)).foldl newer none

def coldView (cold : List (ColdVersion K C V)) (k : K) : Option (HeapRow C V) :=
  (newestCold cold k).bind fun v ↦ if v.deleted then none else some v.image

def mergedView (heap : Heap K C V) (mirror : MirrorTable K O) (cold : List (ColdVersion K C V))
    (k : K) : Option (HeapRow C V) :=
  match heap k with
  | some row => some row
  | none =>
    if mirror.rows.any fun m ↦ decide (m.pk = k ∧ m.op = .delete) then none else coldView cold k

omit [DecidableEq K] in
theorem foldl_newer_spec (versions : List (ColdVersion K C V)) (best : Option (ColdVersion K C V)) :
    (∀ v, versions.foldl newer best = some v → v ∈ versions ∨ best = some v) ∧
      (∀ v, v ∈ versions ∨ best = some v →
        ∃ b, versions.foldl newer best = some b ∧ v.seq ≤ b.seq) := by
  induction versions generalizing best with
  | nil =>
    refine ⟨fun v h ↦ .inr h, fun v h ↦ ⟨v, ?_, le_rfl⟩⟩
    simpa using h
  | cons x versions ih =>
    obtain ⟨hmem, hle⟩ := ih (newer best x)
    have hnw : ∀ v, newer best x = some v → v = x ∨ best = some v := by
      intro v h
      unfold newer at h
      split at h
      · exact .inl (Option.some.inj h).symm
      · split at h
        · exact .inl (Option.some.inj h).symm
        · exact .inr h
    have hl : ∀ v, v = x ∨ best = some v → ∃ b, newer best x = some b ∧ v.seq ≤ b.seq := by
      intro v h
      unfold newer
      cases best with
      | none =>
        obtain rfl : v = x := by simpa using h
        exact ⟨v, rfl, le_rfl⟩
      | some b =>
        simp only [Option.some.injEq] at h ⊢
        split
        · rename_i hlt
          rcases h with rfl | rfl
          · exact ⟨v, rfl, le_rfl⟩
          · exact ⟨x, rfl, hlt.le⟩
        · rename_i hge
          rcases h with rfl | rfl
          · exact ⟨b, rfl, not_lt.1 hge⟩
          · exact ⟨b, rfl, le_rfl⟩
    constructor
    · intro v h
      rcases hmem v h with h | h
      · exact .inl (mem_cons_of_mem _ h)
      · rcases hnw v h with rfl | h
        · exact .inl mem_cons_self
        · exact .inr h
    · intro v h
      have ha : v ∈ versions ∨ v = x ∨ best = some v := by
        rcases h with h | h
        · rcases mem_cons.1 h with rfl | h
          · exact .inr (.inl rfl)
          · exact .inl h
        · exact .inr (.inr h)
      rcases ha with h | h
      · exact hle v (.inl h)
      · obtain ⟨b, hb, hvb⟩ := hl v h
        obtain ⟨c, hc, hbc⟩ := hle b (.inr hb)
        exact ⟨c, hc, hvb.trans hbc⟩

variable {cold : List (ColdVersion K C V)} {mirror : MirrorTable K O} {heap : Heap K C V} {k : K}

theorem newestCold_eq_some {v : ColdVersion K C V} (hv : v ∈ cold)
    (hn : ∀ v' ∈ cold, v'.pk = v.pk → v'.seq < v.seq ∨ v' = v) : newestCold cold v.pk = some v := by
  obtain ⟨hmem, hle⟩ := foldl_newer_spec (cold.filter fun v' ↦ decide (v'.pk = v.pk)) none
  obtain ⟨b, hb, hvb⟩ := hle v (.inl (mem_filter.2 ⟨hv, by simp⟩))
  have hb' := (hmem b hb).resolve_right (by simp)
  obtain ⟨hc, hp⟩ := mem_filter.1 hb'
  rcases hn b hc (by simpa using hp) with hlt | rfl
  · omega
  · exact hb

theorem coldView_append_of_forall_ne {more : List (ColdVersion K C V)}
    (h : ∀ v ∈ more, v.pk ≠ k) : coldView (cold ++ more) k = coldView cold k := by
  have hn : (more.filter fun v ↦ decide (v.pk = k)) = [] :=
    filter_eq_nil_iff.2 fun v hv ↦ by simpa using h v hv
  simp [coldView, newestCold, hn]

theorem mergedView_of_heap (h : heap k ≠ none) :
    mergedView heap mirror cold k = heap k := by
  cases hr : heap k with
  | none => exact absurd hr h
  | some row => simp [mergedView, hr]

theorem mergedView_of_tombstone {m : MirrorRow K O} (hh : heap m.pk = none)
    (hm : m ∈ mirror.rows) (hop : m.op = .delete) : mergedView heap mirror cold m.pk = none := by
  have ha : mirror.rows.any (fun m' ↦ decide (m'.pk = m.pk ∧ m'.op = .delete)) = true :=
    any_eq_true.2 ⟨m, hm, by simp [hop]⟩
  rw [mergedView, hh]
  exact if_pos ha

theorem mergedView_of_cold (hh : heap k = none)
    (hm : ∀ m ∈ mirror.rows, m.pk ≠ k) : mergedView heap mirror cold k = coldView cold k := by
  have ha : mirror.rows.any (fun m ↦ decide (m.pk = k ∧ m.op = .delete)) = false :=
    any_eq_false.2 fun m hm' ↦ by simp [hm m hm']
  rw [mergedView, hh]
  exact if_neg (Bool.eq_false_iff.1 ha)

end View

/-! ### Consistency -/

def Untouched {K C V : Type*} (pending : List (RowWrite K C V)) (k : K) : Prop :=
  ∀ w ∈ pending, w.pk ≠ k

structure Consistent {K O C V : Type*} [DecidableEq K] (committed : K → Option (HeapRow C V))
    (heap : Heap K C V) (mirror : MirrorTable K O) (cold : List (ColdVersion K C V))
    (pending : List (RowWrite K C V)) : Prop where
  written : ∀ l w r, pending = l ++ w :: r → Untouched r w.pk →
    heap w.pk = w.result ∧ committed w.pk = w.result
  mirrored : ∀ m ∈ mirror.rows, Untouched pending m.pk →
    (heap m.pk = none ↔ m.op = .delete) ∧ committed m.pk = heap m.pk
  unmirrored : ∀ k, Untouched pending k → (∀ m ∈ mirror.rows, m.pk ≠ k) →
    heap k = none ∧ committed k = coldView cold k
  first : ∀ l w r, pending = l ++ w :: r → Untouched l w.pk → (∀ m ∈ mirror.rows, m.pk ≠ w.pk) →
    w.op ≠ .delete

section Preservation

variable {K O C V : Type*} [DecidableEq K] {committed : K → Option (HeapRow C V)}
variable {heap : Heap K C V} {mirror : MirrorTable K O} {cold : List (ColdVersion K C V)}
variable {pending rest : List (RowWrite K C V)} {w : RowWrite K C V}

omit [DecidableEq K] in
theorem append_singleton_eq_append_cons {l r : List (RowWrite K C V)} {w' : RowWrite K C V}
    (h : pending ++ [w] = l ++ w' :: r) :
    r = [] ∧ l = pending ∧ w' = w ∨ ∃ r', r = r' ++ [w] ∧ pending = l ++ w' :: r' := by
  rcases eq_nil_or_concat r with rfl | ⟨r', a, rfl⟩
  · obtain ⟨hl, hw⟩ := append_inj' h rfl
    exact .inl ⟨rfl, hl.symm, by simpa using hw.symm⟩
  · rw [concat_eq_append, ← cons_append, ← List.append_assoc] at h
    obtain ⟨hl, hw⟩ := append_inj' h rfl
    obtain rfl : w = a := by simpa using hw
    exact .inr ⟨r', by simp, hl⟩

omit [DecidableEq K] in
theorem untouched_append_singleton {k : K} :
    Untouched (pending ++ [w]) k ↔ Untouched pending k ∧ w.pk ≠ k := by
  simp [Untouched, or_imp, forall_and]

omit [DecidableEq K] in
theorem untouched_cons {k : K} : Untouched (w :: rest) k ↔ w.pk ≠ k ∧ Untouched rest k := by
  simp [Untouched]

theorem Consistent.commit (h : Consistent committed heap mirror cold pending)
    (hw : w.Accepted heap) :
    Consistent (replay committed [w]) (replay heap [w]) mirror cold (pending ++ [w]) := by
  refine ⟨fun l w' r heq hr ↦ ?_, fun m hm hk ↦ ?_, fun k hk hm ↦ ?_, fun l w' r heq hl hm ↦ ?_⟩
  · rcases append_singleton_eq_append_cons heq with ⟨rfl, rfl, rfl⟩ | ⟨r', rfl, rfl⟩
    · exact ⟨replay_singleton_self _ _, replay_singleton_self _ _⟩
    · obtain ⟨hr', hne⟩ := untouched_append_singleton.1 hr
      rw [replay_singleton_of_ne _ hne, replay_singleton_of_ne _ hne]
      exact h.written l w' r' rfl hr'
  · obtain ⟨hk', hne⟩ := untouched_append_singleton.1 hk
    rw [replay_singleton_of_ne _ hne, replay_singleton_of_ne _ hne]
    exact h.mirrored m hm hk'
  · obtain ⟨hk', hne⟩ := untouched_append_singleton.1 hk
    rw [replay_singleton_of_ne _ hne, replay_singleton_of_ne _ hne]
    exact h.unmirrored k hk' hm
  · rcases append_singleton_eq_append_cons heq with ⟨-, rfl, rfl⟩ | ⟨r', -, rfl⟩
    · exact hw.op_ne_delete (h.unmirrored w'.pk hl hm).1
    · exact h.first l w' r' rfl hl hm

theorem Consistent.apply {cfg : TableConfig O C V}
    (h : Consistent committed heap mirror cold (w :: rest)) (seq : SeqId) :
    Consistent committed heap (mirror.applyWrite cfg w seq) cold rest := by
  have hrow : ∃ m ∈ (mirror.applyWrite cfg w seq).rows, m.pk = w.pk := by
    refine MirrorTable.exists_mem_applyWrite (fun hd ↦ ?_) seq
    by_contra hnone
    simp only [not_exists, not_and] at hnone
    exact h.first [] w rest rfl (nofun) hnone hd
  refine ⟨fun l w' r heq hr ↦ ?_, fun m hm hk ↦ ?_, fun k hk hm ↦ ?_, fun l w' r heq hl hm ↦ ?_⟩
  · exact h.written (w :: l) w' r (by rw [heq]; rfl) hr
  · rcases MirrorTable.mem_applyWrite hm with ⟨hm', hne⟩ | ⟨hpk, -, hop⟩
    · exact h.mirrored m hm' (untouched_cons.2 ⟨hne.symm, hk⟩)
    · -- the write just applied was the key's last pending one
      obtain ⟨hh, hc⟩ := h.written [] w rest rfl (hpk ▸ hk)
      rw [hpk, hh, hc, hop]
      exact ⟨w.result_isNone_iff, rfl⟩
  · have hne : w.pk ≠ k := by
      rintro rfl
      obtain ⟨m, hm', hpk⟩ := hrow
      exact hm m hm' hpk
    exact h.unmirrored k (untouched_cons.2 ⟨hne, hk⟩) fun m hm' hpk ↦
      hm m (MirrorTable.mem_applyWrite_of_ne hm' (hpk ▸ hne.symm) seq) hpk
  · have hne : w.pk ≠ w'.pk := by
      intro heq'
      obtain ⟨m, hm', hpk⟩ := hrow
      exact hm m hm' (hpk.trans heq')
    exact h.first (w :: l) w' r (by rw [heq]; rfl) (untouched_cons.2 ⟨hne, hl⟩) fun m hm' hpk ↦
      hm m (MirrorTable.mem_applyWrite_of_ne hm' (hpk ▸ hne.symm) seq) hpk

end Preservation

end Koldstore
