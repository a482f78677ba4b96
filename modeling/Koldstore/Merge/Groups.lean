import Koldstore.Basic.Keyset
import Koldstore.Basic.Sweep
import Koldstore.Merge.Resolver

/-!
# Streaming groups of cold segments

`resolve_rows` finds the visible rows in one shot, and streaming finds them group by group.
-/

namespace Koldstore.MergeGroups

open List Winners NewestFirstWinnerResolver Keyset

/-! ### Rows and segments -/

/-- What `HotRow` and `ColdRow` have in common: one version of a row, or a tombstone. -/
structure MergeRow (K I : Type*) where
  pk : K
  seq : ℕ
  deleted : Bool
  image : I
  deriving DecidableEq, Repr

structure Candidate (K I : Type*) extends MergeRow K I where
  source : RowSource
  deriving DecidableEq, Repr

def candidates {K I : Type*} (source : RowSource) (rows : List (MergeRow K I)) :
    List (Candidate K I) :=
  rows.map fun row ↦ ⟨row, source⟩

structure ColdSegment (K I : Type*) where
  objectPath : String
  minSeq : ℕ
  maxSeq : ℕ
  rows : List (MergeRow K I)
  deriving DecidableEq, Repr

variable {K I : Type*} [DecidableEq K]

/-! ### One shot -/

def Candidate.beats (candidate current : Candidate K I) : Bool :=
  candidateBeats candidate.seq candidate.source current.seq current.source

def insertBorrowedCandidate (candidate : Candidate K I) :
    List (Candidate K I) → List (Candidate K I)
  | [] => [candidate]
  | winner :: winners =>
    if winner.pk = candidate.pk then
      (if candidate.beats winner then candidate else winner) :: winners
    else winner :: insertBorrowedCandidate candidate winners

def resolveRows (hot cold : List (MergeRow K I)) : List (Candidate K I) :=
  ((candidates .cold cold ++ candidates .hot hot).foldl
    (fun winners candidate ↦ insertBorrowedCandidate candidate winners) []).filter
      fun winner ↦ !winner.deleted

/-! ### Groups of segments -/

variable (segment : ColdSegment K I)

def segmentSeqRange : Except String (ℕ × ℕ) := if segment.maxSeq < segment.minSeq then
    .error <| s!"cold segment `{segment.objectPath}` has reversed `seq` range " ++
      s!"{segment.minSeq}..={segment.maxSeq}"
  else .ok (segment.minSeq, segment.maxSeq)

def newestFirstKey : ℕᵒᵈ ×ₗ ℕᵒᵈ ×ₗ String := toLex (OrderDual.toDual segment.maxSeq,
    toLex (OrderDual.toDual segment.minSeq, segment.objectPath))

def groupLoop : List (ColdSegment K I) → List (ColdSegment K I) → Option ℕ →
    List (List (ColdSegment K I))
  | [], current, _ => if current = [] then [] else [current]
  | segment :: segments, current, currentMin =>
    if currentMin.any fun groupMin ↦ decide (segment.maxSeq < groupMin) then
      current :: groupLoop segments [segment] (some segment.minSeq)
    else
      groupLoop segments (current ++ [segment])
        (some (currentMin.elim segment.minSeq fun groupMin ↦ min groupMin segment.minSeq))

def groupSegmentsNewestFirst (segments : List (ColdSegment K I)) :
    Except String (List (List (ColdSegment K I))) :=
  (segments.mapM segmentSeqRange).map fun _ ↦
    groupLoop (ordered newestFirstKey segments) [] none

/-! ### Streaming -/

def groupRows (group : List (ColdSegment K I)) : List (MergeRow K I) :=
  group.flatMap ColdSegment.rows

def resolveBatches : List (RowSource × List (Candidate K I)) → NewestFirstWinnerResolver K →
    Except SeenKeyLimitExceeded (List (Candidate K I) × NewestFirstWinnerResolver K)
  | [], ρ => .ok ([], ρ)
  | (source, batch) :: batches, ρ =>
    (ρ.resolveBatch source (fun c : Candidate K I ↦ c.pk) (fun c ↦ c.seq) (fun c ↦ c.deleted) true
      batch).bind fun (rows, ρ) ↦ (resolveBatches batches ρ).map fun (later, ρ) ↦ (rows ++ later, ρ)

def streamWinners (maxSeenKeys : ℕ) (hot : List (MergeRow K I))
    (groups : List (List (ColdSegment K I))) :
    Except SeenKeyLimitExceeded (List (Candidate K I)) :=
  (resolveBatches ((.hot, candidates .hot hot) ::
    groups.map fun group ↦ (.cold, candidates .cold (groupRows group)))
      (.withMaxSeenKeys maxSeenKeys false)).map Prod.fst

section Groups

omit [DecidableEq K]

variable {segments current : List (ColdSegment K I)} {currentMin : Option ℕ}

theorem groupLoop_eq_sweep (segments current : List (ColdSegment K I)) (currentMin : Option ℕ) :
    groupLoop segments current currentMin =
      Sweep.sweep ColdSegment.minSeq ColdSegment.maxSeq segments current currentMin := by
  induction segments generalizing current currentMin with
  | nil => cases current <;> rfl
  | cons segment segments ih => rw [groupLoop, Sweep.sweep, ih, ih]

theorem flatten_groupLoop (segments current : List (ColdSegment K I)) (currentMin : Option ℕ) :
    (groupLoop segments current currentMin).flatten = current ++ segments := by
  rw [groupLoop_eq_sweep, Sweep.flatten_sweep]

def Separated (groups : List (List (ColdSegment K I))) : Prop :=
  groups.Pairwise fun newer older ↦ ∀ a ∈ newer, ∀ b ∈ older, b.maxSeq < a.minSeq

theorem mapM_segmentSeqRange (hrng : ∀ s ∈ segments, s.minSeq ≤ s.maxSeq) :
    segments.mapM segmentSeqRange = .ok (segments.map fun s ↦ (s.minSeq, s.maxSeq)) := by
  induction segments with
  | nil => rfl
  | cons segment segments ih =>
    rw [forall_mem_cons] at hrng
    rw [mapM_cons, ih hrng.2, segmentSeqRange, if_neg (not_lt.2 hrng.1)]
    rfl

theorem mapM_segmentSeqRange_eq_error_iff : (∃ e, segments.mapM segmentSeqRange = .error e) ↔
    ∃ s ∈ segments, s.maxSeq < s.minSeq := by
  refine ⟨fun ⟨e, he⟩ ↦ ?_, fun ⟨s, hs, hlt⟩ ↦ ?_⟩
  · by_contra! hrange
    rw [mapM_segmentSeqRange hrange] at he
    cases he
  · induction segments with
    | nil => cases hs
    | cons segment segments ih =>
      rw [mapM_cons, segmentSeqRange]
      split_ifs with h
      · exact ⟨_, rfl⟩
      · rcases mem_cons.1 hs with rfl | hs
        · exact absurd hlt h
        · obtain ⟨e, he⟩ := ih ⟨s, hs, hlt⟩ hs
          exact ⟨e, by rw [he]; rfl⟩

variable (hrng : ∀ s ∈ segments, s.minSeq ≤ s.maxSeq)
include hrng

theorem groupSegmentsNewestFirst_eq_ok : groupSegmentsNewestFirst segments =
      .ok (groupLoop (ordered newestFirstKey segments) [] none) := by
  rw [groupSegmentsNewestFirst, mapM_segmentSeqRange hrng]
  rfl

theorem grouping_newest : Sweep.Grouping ColdSegment.minSeq ColdSegment.maxSeq segments
      (groupLoop (ordered newestFirstKey segments) [] none) := by
  have hp := perm_ordered newestFirstKey segments
  rw [groupLoop_eq_sweep]
  refine (Sweep.grouping_sweep ?_ fun s hs ↦ hrng s (hp.subset hs)).of_perm hp
  refine (pairwise_ordered newestFirstKey segments).imp fun {a b} hle ↦ ?_
  rcases (Prod.Lex.toLex_le_toLex).1 hle with hlt | ⟨heq, -⟩
  · exact (OrderDual.toDual_lt_toDual.1 hlt).le
  · exact (OrderDual.toDual_inj.1 heq).ge

theorem separated_groups : Separated (groupLoop (ordered newestFirstKey segments) [] none) :=
  (grouping_newest hrng).separated

omit hrng

/-! ### Oldest first -/

def oldestFirstKey : ℕ ×ₗ ℕ ×ₗ String :=
  toLex (segment.minSeq, toLex (segment.maxSeq, segment.objectPath))

/-- `group_segments_newest_first` with the order reversed. -/
def groupSegmentsOldestFirst (segments : List (ColdSegment K I)) :
    Except String (List (List (ColdSegment K I))) :=
  (segments.mapM segmentSeqRange).map fun _ ↦
    Sweep.sweep (fun s ↦ OrderDual.toDual s.maxSeq) (fun s ↦ OrderDual.toDual s.minSeq)
      (ordered oldestFirstKey segments) [] none

def Linked (segments : List (ColdSegment K I)) : ColdSegment K I → ColdSegment K I → Prop :=
  Sweep.Linked ColdSegment.minSeq ColdSegment.maxSeq segments

theorem grouping_oldest (hrng : ∀ s ∈ segments, s.minSeq ≤ s.maxSeq) :
    ∃ groups, groupSegmentsOldestFirst segments = .ok groups ∧
      Sweep.Grouping ColdSegment.minSeq ColdSegment.maxSeq segments groups.reverse := by
  have hp := perm_ordered oldestFirstKey segments
  refine ⟨_, by rw [groupSegmentsOldestFirst, mapM_segmentSeqRange hrng]; rfl, ?_⟩
  refine Sweep.Grouping.of_dual (Sweep.Grouping.of_perm (Sweep.grouping_sweep ?_ ?_) hp)
  · refine (pairwise_ordered oldestFirstKey segments).imp fun {a b} hle ↦ ?_
    exact ((Prod.Lex.toLex_le_toLex).1 hle).elim le_of_lt fun h ↦ h.1.le
  · exact fun s hs ↦ hrng s (hp.subset hs)

/-- **Groups of segments.** Both functions fail exactly if a range is reversed. -/
theorem groupSegments_spec (segments : List (ColdSegment K I)) :
    ((∃ e, groupSegmentsNewestFirst segments = .error e) ↔ ∃ s ∈ segments, s.maxSeq < s.minSeq) ∧
    ((∃ e, groupSegmentsOldestFirst segments = .error e) ↔ ∃ s ∈ segments, s.maxSeq < s.minSeq) ∧
    ((∀ s ∈ segments, s.minSeq ≤ s.maxSeq) → ∃ newest oldest,
      groupSegmentsNewestFirst segments = .ok newest ∧
      groupSegmentsOldestFirst segments = .ok oldest ∧
      newest.flatten.Perm segments ∧ oldest.flatten.Perm segments ∧ (∀ g ∈ newest, g ≠ []) ∧
      (∀ g ∈ newest, ∀ a ∈ g, ∀ b, b ∈ g ↔ Linked segments a b) ∧ Separated newest ∧
      oldest.map (fun g ↦ {s | s ∈ g}) = (newest.map fun g ↦ {s | s ∈ g}).reverse) := by
  have he {α} (f : List (ℕ × ℕ) → α) : (∃ e, (segments.mapM segmentSeqRange).map f = .error e) ↔
        ∃ s ∈ segments, s.maxSeq < s.minSeq := by
    rw [← mapM_segmentSeqRange_eq_error_iff]
    cases segments.mapM segmentSeqRange <;> simp [Except.map]
  refine ⟨he _, he _, fun hrng ↦ ?_⟩
  have hn := grouping_newest hrng
  obtain ⟨oldest, hok, hold⟩ := grouping_oldest hrng
  refine ⟨_, oldest, groupSegmentsNewestFirst_eq_ok hrng, hok, hn.perm, ?_, hn.ne_nil,
    fun g hg a ha b ↦ hn.mem_iff hg ha, hn.separated, ?_⟩
  · exact (oldest.reverse_perm.flatten.symm).trans hold.perm
  · have huq := hold.unique hrng hn
    rw [Sweep.members, map_reverse] at huq
    rw [← reverse_reverse (oldest.map _), huq]
    rfl

end Groups

section Batches

variable {source : RowSource} {ρ ρ' : NewestFirstWinnerResolver K} {seen : List K}
  {batches : List (RowSource × List (Candidate K I))} {batch rows : List (Candidate K I)}
  {c : Candidate K I}

/-- The winners of a batch by `seq`; all rows of a batch come from one side. -/
def winnersBySeq (batch : List (Candidate K I)) : List (Candidate K I) :=
  winners (fun c ↦ c.pk) (fun c ↦ c.seq) batch

theorem batchWinners_eq (source : RowSource) (batch : List (Candidate K I)) :
    batchWinners source (fun c : Candidate K I ↦ c.pk) (fun c ↦ c.seq)
      batch = winnersBySeq batch :=
  batchWinners_eq_winners source _ _ batch

def newKeys (seen : List K) (batch : List (Candidate K I)) : List K :=
  ((winnersBySeq batch).map fun w ↦ w.pk).filter fun k ↦ !decide (k ∈ seen)

/-- The rows that `resolveBatches` returns unless it is stopped, after the keys `seen`. -/
def emitted : List K → List (List (Candidate K I)) → List (Candidate K I)
  | _, [] => []
  | seen, batch :: batches =>
    ((winnersBySeq batch).filter fun w ↦ !decide (w.pk ∈ seen) && !w.deleted) ++
      emitted (seen ++ newKeys seen batch) batches

theorem resolveBatches_eq_ok (h : resolveBatches batches ρ = .ok (rows, ρ')) :
    rows = emitted ρ.seen (batches.map Prod.snd) := by
  induction batches generalizing ρ rows with
  | nil =>
    cases h
    rfl
  | cons head batches ih =>
    obtain ⟨source, batch⟩ := head
    obtain ⟨rows₁, ρ₁, rows₂, hbt, hl, rfl⟩ := Except.exists_of_bind_append_eq_ok h
    rw [resolveBatch, batchWinners_eq] at hbt
    obtain ⟨hrs₁, hρ₁⟩ := takeUnseenOrdered_eq_ok
      (nodup_map_key_winners batch) hbt
    rw [ih hl, hrs₁, hρ₁]
    rfl

theorem exists_resolveBatches_eq_ok (batches : List (RowSource × List (Candidate K I)))
    (hc : ρ.maxSeenKeys = none) : ∃ r, resolveBatches batches ρ = .ok r := by
  induction batches generalizing ρ with
  | nil => exact ⟨_, rfl⟩
  | cons head batches ih =>
    obtain ⟨source, batch⟩ := head
    obtain ⟨⟨rows₁, ρ₁⟩, hbt⟩ : ∃ r, ρ.resolveBatch source (fun c : Candidate K I ↦ c.pk)
        (fun c ↦ c.seq) (fun c ↦ c.deleted) true batch = .ok r :=
      exists_takeUnseenOrdered_eq_ok _ hc
    have hc₁ : ρ₁.maxSeenKeys = none := by
      rw [takeUnseenOrdered_frame hbt, hc]
    obtain ⟨r, hl⟩ := ih hc₁
    rw [resolveBatches, hbt]
    exact ⟨_, congrArg (Except.map _) hl⟩

theorem mem_newKeys {k : K} : k ∈ newKeys seen batch ↔ k ∉ seen ∧ ∃ c ∈ batch, c.pk = k := by
  rw [newKeys, mem_filter, winnersBySeq, mem_map_key_winners, mem_map]
  simp [and_comm]

theorem mem_emitted {batches : List (List (Candidate K I))} :
    c ∈ emitted seen batches ↔ c.pk ∉ seen ∧ c.deleted = false ∧
      firstNewest (fun c : Candidate K I ↦ c.pk) (fun c ↦ c.seq) c.pk batches = some c := by
  induction batches generalizing seen with
  | nil => simp [emitted, firstNewest]
  | cons batch batches ih =>
    rw [emitted, mem_append, mem_filter, ih, winnersBySeq, mem_winners_iff,
      firstNewest, mem_append, mem_newKeys]
    cases hn : newest (fun c : Candidate K I ↦ c.pk) (fun c ↦ c.seq) c.pk batch with
    | none =>
      have hk : ∀ a ∈ batch, a.pk ≠ c.pk := newest_eq_none_iff.1 hn
      have ho : ¬∃ a ∈ batch, a.pk = c.pk := by
        rintro ⟨a, ha, heq⟩
        exact hk a ha heq
      simp [ho]
    | some winner =>
      have hsome : ∃ a ∈ batch, a.pk = c.pk := ⟨winner, mem_of_newest_eq hn⟩
      simp only [Bool.and_eq_true, Bool.not_eq_true', decide_eq_false_iff_not, hsome, and_true,
        Option.some_or]
      tauto

theorem nodup_emitted (seen : List K) (batches : List (List (Candidate K I))) :
    ((emitted seen batches).map fun c ↦ c.pk).Nodup := by
  induction batches generalizing seen with
  | nil => exact nodup_nil
  | cons batch batches ih =>
    rw [emitted, map_append]
    refine nodup_append.2 ⟨?_, ih _, ?_⟩
    · exact (nodup_map_key_winners batch).sublist (filter_sublist.map _)
    · rintro k hk k' hk' rfl
      obtain ⟨c, hc, rfl⟩ := mem_map.1 hk
      obtain ⟨c', hc', heq⟩ := mem_map.1 hk'
      have hsn : c'.pk ∉ seen ++ newKeys seen batch := (mem_emitted.1 hc').1
      rw [heq, mem_append, not_or, mem_newKeys] at hsn
      obtain ⟨hw, -⟩ := mem_filter.1 hc
      have hmem : c ∈ batch := (mem_of_newest_eq (mem_winners_iff.1 hw)).1
      exact hsn.2 ⟨hsn.1, c, hmem, rfl⟩

end Batches

section OneShot

variable {c d : Candidate K I} {hot cold : List (MergeRow K I)}

/-- The rank that `candidate_beats` compares: a hot version wins against a cold one as new. -/
def Candidate.rank (c : Candidate K I) : ℕ ×ₗ Bool := toLex (c.seq, decide (c.source = .hot))

omit [DecidableEq K] in
theorem Candidate.beats_iff : c.beats d = true ↔ d.rank < c.rank := by
  rw [Candidate.rank, Candidate.rank, Prod.Lex.toLex_lt_toLex, Candidate.beats, candidateBeats]
  cases c.source <;> cases d.source <;> simp [eq_comm (a := c.seq)]

theorem resolveRows_eq (hot cold : List (MergeRow K I)) : resolveRows hot cold =
      (winners (fun c : Candidate K I ↦ c.pk) Candidate.rank
        (candidates .cold cold ++ candidates .hot hot)).filter fun w ↦ !w.deleted := by
  have hi : ∀ (c : Candidate K I) table,
      insertBorrowedCandidate c table = insert (fun c ↦ c.pk) Candidate.rank c table := by
    intro c table
    induction table with
    | nil => rfl
    | cons winner table ih =>
      rw [insertBorrowedCandidate, Winners.insert, ih]
      simp only [Candidate.beats_iff]
  simp only [resolveRows, Winners.winners, hi]

theorem mem_resolveRows : c ∈ resolveRows hot cold ↔ c.deleted = false ∧
    newest (fun c : Candidate K I ↦ c.pk) Candidate.rank c.pk
      (candidates .cold cold ++ candidates .hot hot) = some c := by
  rw [resolveRows_eq, mem_filter, mem_winners_iff, and_comm]
  simp

theorem nodup_resolveRows (hot cold : List (MergeRow K I)) :
    ((resolveRows hot cold).map fun c ↦ c.pk).Nodup := by
  rw [resolveRows_eq]
  exact (nodup_map_key_winners _).sublist (filter_sublist.map _)

variable {source : RowSource} {rows : List (MergeRow K I)}

omit [DecidableEq K] in
theorem mem_candidates : c ∈ candidates source rows ↔ c.toMergeRow ∈ rows ∧ c.source = source := by
  obtain ⟨row, s⟩ := c
  simp [candidates, eq_comm]

theorem newest_rank_candidates {k : K} :
    newest (fun c : Candidate K I ↦ c.pk) Candidate.rank k (candidates source rows) =
      newest (fun c ↦ c.pk) (fun c ↦ c.seq) k (candidates source rows) := by
  refine newest_congr fun a ha b hb ↦ ?_
  have hs : a.source = b.source := (mem_candidates.1 ha).2.trans (mem_candidates.1 hb).2.symm
  rw [Candidate.rank, Candidate.rank, Prod.Lex.toLex_lt_toLex, hs]
  simp

theorem exists_cold_mem_resolveRows {hot cold : MergeRow K I} (hs : cold.seq ≤ hot.seq)
    (hlv : cold.deleted = false) :
    (∃ r ∈ resolveRows [hot] [cold], r.source = .cold) ↔ hot.pk ≠ cold.pk := by
  by_cases hpk : cold.pk = hot.pk
  · have hb : (⟨hot, .hot⟩ : Candidate K I).beats ⟨cold, .cold⟩ = true := by
      rw [Candidate.beats, candidateBeats]
      rcases hs.lt_or_eq with hlt | heq
      · simp [hlt]
      · simp [heq]
    simp [resolveRows, candidates, insertBorrowedCandidate, hpk, hb]
  · simp [resolveRows, candidates, insertBorrowedCandidate, hpk, Ne.symm hpk, hlv]

end OneShot

section Refinement

variable {hot cold : List (MergeRow K I)} {segments : List (ColdSegment K I)}
  {groups : List (List (ColdSegment K I))}

def scanBatches (hot : List (MergeRow K I)) (groups : List (List (ColdSegment K I))) :
    List (List (Candidate K I)) :=
  candidates .hot hot :: groups.map fun group ↦ candidates .cold (groupRows group)

theorem streamWinners_eq_ok {maxSeenKeys : ℕ} {rows : List (Candidate K I)}
    (h : streamWinners maxSeenKeys hot groups = .ok rows) :
    rows = emitted [] (scanBatches hot groups) := by
  obtain ⟨⟨rows', ρ⟩, hr, rfl⟩ := Except.map_eq_ok_iff.1 h
  rw [resolveBatches_eq_ok hr, map_cons, map_map]
  rfl

theorem streamWinners_uncapped (hot : List (MergeRow K I))
    (groups : List (List (ColdSegment K I))) :
    streamWinners 0 hot groups = .ok (emitted [] (scanBatches hot groups)) := by
  obtain ⟨⟨rows, ρ⟩, hr⟩ := exists_resolveBatches_eq_ok
    ((.hot, candidates .hot hot) ::
      groups.map fun group ↦ (.cold, candidates .cold (groupRows group)))
    (ρ := withMaxSeenKeys 0 false) rfl
  have hok : streamWinners 0 hot groups = .ok rows := by rw [streamWinners, hr]; rfl
  rw [hok, streamWinners_eq_ok hok]

omit [DecidableEq K] in
theorem mem_groupRows {group : List (ColdSegment K I)} {row : MergeRow K I} :
    row ∈ groupRows group ↔ ∃ s ∈ group, row ∈ s.rows := mem_flatMap

omit [DecidableEq K] in
theorem candidates_append (source : RowSource) (rows rows' : List (MergeRow K I)) :
    candidates source (rows ++ rows') = candidates source rows ++ candidates source rows' :=
  map_append

omit [DecidableEq K] in
theorem flatten_map_candidates (groups : List (List (ColdSegment K I))) :
    (groups.map fun group ↦ candidates .cold (groupRows group)).flatten =
      candidates .cold (groupRows groups.flatten) := by
  induction groups with
  | nil => rfl
  | cons group groups ih =>
    rw [map_cons, flatten_cons, flatten_cons, ih, ← candidates_append, groupRows,
      groupRows, groupRows, flatMap_append]

omit [DecidableEq K] in
theorem pairwise_coldBatches (he : Separated groups)
    (hrs : ∀ s ∈ groups.flatten, ∀ r ∈ s.rows, s.minSeq ≤ r.seq ∧ r.seq ≤ s.maxSeq) (k : K) :
    (groups.map fun group ↦ candidates .cold (groupRows group)).Pairwise fun newer older ↦
      ∀ a ∈ newer, ∀ b ∈ older, a.pk = k → b.pk = k → b.seq ≤ a.seq := by
  refine pairwise_map.2 (List.Pairwise.imp_of_mem ?_ he)
  intro newer older hnw hold hlt a ha b hb _ _
  obtain ⟨s, hs, has⟩ := mem_groupRows.1 (mem_candidates.1 ha).1
  obtain ⟨t, ht, hbt⟩ := mem_groupRows.1 (mem_candidates.1 hb).1
  have hsa := hrs s (mem_flatten.2 ⟨newer, hnw, hs⟩) _ has
  have htb := hrs t (mem_flatten.2 ⟨older, hold, ht⟩) _ hbt
  have hst := hlt s hs t ht
  omega

theorem mem_emitted_scanBatches {c : Candidate K I} (hs : Separated groups)
    (hrs : ∀ s ∈ groups.flatten, ∀ r ∈ s.rows, s.minSeq ≤ r.seq ∧ r.seq ≤ s.maxSeq) :
    c ∈ emitted [] (scanBatches hot groups) ↔ c.deleted = false ∧
      (newest (fun c : Candidate K I ↦ c.pk) (fun c ↦ c.seq) c.pk
        (candidates .hot hot)).or (newest (fun c ↦ c.pk) (fun c ↦ c.seq) c.pk
          (candidates .cold (groupRows groups.flatten))) = some c := by
  rw [mem_emitted, scanBatches, firstNewest,
    firstNewest_eq_newest (pairwise_coldBatches hs hrs c.pk), flatten_map_candidates]
  simp

theorem firstNewest_scanBatches (he : Separated groups)
    (hrs : ∀ s ∈ groups.flatten, ∀ r ∈ s.rows, s.minSeq ≤ r.seq ∧ r.seq ≤ s.maxSeq)
    (hh : ∀ h ∈ hot, ∀ r ∈ groupRows groups.flatten, h.pk = r.pk → r.seq ≤ h.seq) (k : K) :
    firstNewest (fun c : Candidate K I ↦ c.pk) (fun c ↦ c.seq) k (scanBatches hot groups) =
      newest (fun c ↦ c.pk) (fun c ↦ c.seq) k (scanBatches hot groups).flatten := by
  refine firstNewest_eq_newest
    (pairwise_cons.2 ⟨?_, pairwise_coldBatches he hrs k⟩)
  intro batch hbt a ha b hb hak hbk
  obtain ⟨group, hg, rfl⟩ := mem_map.1 hbt
  obtain ⟨s, hs, hr⟩ := mem_groupRows.1 (mem_candidates.1 hb).1
  refine hh _ (mem_candidates.1 ha).1 _ ?_ (hak.trans hbk.symm)
  exact mem_groupRows.2 ⟨s, mem_flatten.2 ⟨group, hg, hs⟩, hr⟩

theorem newest_hot_append (hh : ∀ h ∈ hot, ∀ r ∈ cold, h.pk = r.pk → r.seq ≤ h.seq) (k : K) :
    newest (fun c : Candidate K I ↦ c.pk) (fun c ↦ c.seq) k
        (candidates .hot hot ++ candidates .cold cold) =
      newest (fun c ↦ c.pk) Candidate.rank k (candidates .cold cold ++ candidates .hot hot) := by
  have hs : ∀ a ∈ candidates .hot hot, ∀ b ∈ candidates .cold cold, a.pk = k → b.pk = k →
      b.seq ≤ a.seq := fun a ha b hb hak hbk ↦
    hh _ (mem_candidates.1 ha).1 _ (mem_candidates.1 hb).1 (hak.trans hbk.symm)
  cases hn : newest (fun c : Candidate K I ↦ c.pk) (fun c ↦ c.seq) k
      (candidates .hot hot) with
  | none =>
    rw [newest_append, newest_append, newest_rank_candidates,
      newest_rank_candidates, hn, pick_none_left, pick_none_right]
  | some r =>
    have hsome : newest (fun c : Candidate K I ↦ c.pk) (fun c ↦ c.seq) k
        (candidates .hot hot) ≠ none := by simp [hn]
    have hrk : ∀ b ∈ candidates .cold cold, ∀ a ∈ candidates .hot hot, b.pk = k → a.pk = k →
        b.rank < a.rank := by
      intro b hb a ha hbk hak
      rw [Candidate.rank, Candidate.rank, Prod.Lex.toLex_lt_toLex, (mem_candidates.1 ha).2,
        (mem_candidates.1 hb).2]
      rcases (hs a ha b hb hak hbk).lt_or_eq with hlt | heq
      · exact .inl hlt
      · exact .inr ⟨heq, by simp⟩
    rw [newest_append_of_ge hs hsome,
      newest_append_of_lt hrk (by rwa [newest_rank_candidates]), newest_rank_candidates]

variable {cold' : List (MergeRow K I)}

theorem newest_cold_perm (hp : cold.Perm cold')
    (huq : ∀ a ∈ cold, ∀ b ∈ cold, a.pk = b.pk → a.seq = b.seq → a = b) (k : K) :
    newest (fun c : Candidate K I ↦ c.pk) Candidate.rank k
        (candidates .cold cold ++ candidates .hot hot) =
      newest (fun c ↦ c.pk) Candidate.rank k (candidates .cold cold' ++ candidates .hot hot) := by
  have hcd : newest (fun c : Candidate K I ↦ c.pk) Candidate.rank k
      (candidates .cold cold) = newest (fun c ↦ c.pk) Candidate.rank k
        (candidates .cold cold') := by
    refine newest_perm (hp.map _) fun a ha b hb hak hbk heq ↦ ?_
    obtain ⟨harow, hasource⟩ := mem_candidates.1 ha
    obtain ⟨hbrow, hbsource⟩ := mem_candidates.1 hb
    have hs : a.seq = b.seq := congrArg (fun rank ↦ (ofLex rank).1) heq
    have hr := huq _ harow _ hbrow (hak.trans hbk.symm) hs
    obtain ⟨row, source⟩ := a
    obtain ⟨row', source'⟩ := b
    simp_all
  rw [newest_append, newest_append, hcd]

theorem resolveRows_perm (hp : cold.Perm cold')
    (huq : ∀ a ∈ cold, ∀ b ∈ cold, a.pk = b.pk → a.seq = b.seq → a = b) :
    (resolveRows hot cold).Perm (resolveRows hot cold') := by
  refine (perm_ext_iff_of_nodup (nodup_resolveRows _ _).of_map
    (nodup_resolveRows _ _).of_map).2 fun c ↦ ?_
  rw [mem_resolveRows, mem_resolveRows, newest_cold_perm hp huq]

theorem emitted_perm_resolveRows (hs : Separated groups)
    (hrs : ∀ s ∈ groups.flatten, ∀ r ∈ s.rows, s.minSeq ≤ r.seq ∧ r.seq ≤ s.maxSeq)
    (hh : ∀ h ∈ hot, ∀ r ∈ groupRows groups.flatten, h.pk = r.pk → r.seq ≤ h.seq) :
    (emitted [] (scanBatches hot groups)).Perm (resolveRows hot (groupRows groups.flatten)) := by
  refine (perm_ext_iff_of_nodup (nodup_emitted _ _).of_map (nodup_resolveRows _ _).of_map).2
    fun c ↦ ?_
  rw [mem_emitted, mem_resolveRows, firstNewest_scanBatches hs hrs hh, scanBatches,
    flatten_cons, flatten_map_candidates, newest_hot_append hh]
  simp

/-- **Streaming the groups newest first** returns what one resolution of all rows does. -/
theorem streamWinners_perm_resolveRows (hrange : ∀ s ∈ segments, s.minSeq ≤ s.maxSeq)
    (hrows : ∀ s ∈ segments, ∀ r ∈ s.rows, s.minSeq ≤ r.seq ∧ r.seq ≤ s.maxSeq)
    (hhot : ∀ h ∈ hot, ∀ s ∈ segments, ∀ r ∈ s.rows, h.pk = r.pk → r.seq ≤ h.seq) :
    ∃ groups, groupSegmentsNewestFirst segments = .ok groups ∧
      (∃ rows, streamWinners 0 hot groups = .ok rows ∧
        rows.Perm (resolveRows hot (groupRows groups.flatten)) ∧
        ((∀ s ∈ segments, ∀ r ∈ s.rows, ∀ t ∈ segments, ∀ r' ∈ t.rows,
            r.pk = r'.pk → r.seq = r'.seq → r = r') →
          ∀ cold : List (MergeRow K I), cold.Perm (segments.flatMap ColdSegment.rows) →
            rows.Perm (resolveRows hot cold))) ∧
      ∀ maxSeenKeys rows, streamWinners maxSeenKeys hot groups = .ok rows →
        streamWinners 0 hot groups = .ok rows := by
  have ho := perm_ordered newestFirstKey segments
  have hf := flatten_groupLoop (ordered newestFirstKey segments) [] none
  rw [nil_append] at hf
  have hmem : ∀ r ∈ groupRows (ordered newestFirstKey segments),
      ∃ s ∈ segments, r ∈ s.rows := by
    intro r hr
    obtain ⟨s, hs, hrow⟩ := mem_groupRows.1 hr
    exact ⟨s, ho.mem_iff.1 hs, hrow⟩
  have hh' : ∀ h ∈ hot, ∀ r ∈ groupRows (ordered newestFirstKey segments),
      h.pk = r.pk → r.seq ≤ h.seq := by
    intro h hh r hr
    obtain ⟨s, hs, hrow⟩ := hmem r hr
    exact hhot h hh s hs r hrow
  have hrs' : ∀ s ∈ ordered newestFirstKey segments, ∀ r ∈ s.rows,
      s.minSeq ≤ r.seq ∧ r.seq ≤ s.maxSeq := fun s hs ↦ hrows s (ho.mem_iff.1 hs)
  rw [← hf] at hh' hrs'
  have hp := emitted_perm_resolveRows (separated_groups hrange) hrs' hh'
  refine ⟨_, groupSegmentsNewestFirst_eq_ok hrange, ⟨_, streamWinners_uncapped _ _, hp, ?_⟩, ?_⟩
  · intro huq cold hcd
    rw [hf] at hp
    refine hp.trans (resolveRows_perm (hcd.trans (ho.symm.flatMap_right _)).symm ?_)
    intro a ha b hb
    obtain ⟨s, hs, has⟩ := hmem a ha
    obtain ⟨t, ht, hbt⟩ := hmem b hb
    exact huq s hs a has t ht b hbt
  · intro maxSeenKeys rows h
    rw [streamWinners_uncapped, streamWinners_eq_ok h]

def overlapping : List (ColdSegment ℕ ℕ) := [⟨"a", 1, 4, [⟨7, 1, false, 10⟩, ⟨8, 4, false, 11⟩]⟩,
    ⟨"b", 3, 6, [⟨7, 3, true, 12⟩, ⟨9, 6, false, 13⟩]⟩,
    ⟨"c", 8, 9, [⟨8, 8, false, 14⟩, ⟨9, 9, true, 15⟩]⟩]

theorem streamWinners_perm_resolveRows_overlapping :
    ∃ groups, groupSegmentsNewestFirst overlapping = .ok groups ∧
      ∃ rows, streamWinners 0 [⟨9, 12, false, 16⟩] groups = .ok rows ∧
        rows.Perm (resolveRows [⟨9, 12, false, 16⟩] (groupRows groups.flatten)) := by
  have hh : ∀ h ∈ [(⟨9, 12, false, 16⟩ : MergeRow ℕ ℕ)], ∀ s ∈ overlapping, ∀ r ∈ s.rows,
      h.pk = r.pk → r.seq ≤ h.seq := by decide
  obtain ⟨groups, hgs, ⟨rows, hrs, hp, -⟩, -⟩ :=
    streamWinners_perm_resolveRows (by decide) (by decide) hh
  exact ⟨groups, hgs, rows, hrs, hp⟩

end Refinement

end Koldstore.MergeGroups
