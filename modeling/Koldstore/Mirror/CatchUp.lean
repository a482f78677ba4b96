import Koldstore.Basic.SortedList
import Koldstore.Mirror.Apply

/-!
# Catching the mirror up in several passes

A flush brings the mirror up to date in bounded passes before it prunes.
-/

namespace Koldstore

open List Except

variable {Tuple Key : Type*} {ts : List (Transaction Tuple)}

theorem CommitOrdered.increasingBy (h : CommitOrdered ts) : ts.IncreasingBy Transaction.finalLsn :=
  List.Pairwise.imp (fun {s _} hst ↦ Nat.lt_of_lt_of_le s.final_lt_end hst) h

variable {t : Transaction Tuple}

variable {u : Transaction Tuple}

theorem CommitOrdered.final_lt_end_iff (h : CommitOrdered ts) (ht : t ∈ ts) (hu : u ∈ ts) :
    t.finalLsn < u.endLsn ↔ t.finalLsn ≤ u.finalLsn := by
  obtain ⟨i, hi, rfl⟩ := getElem_of_mem ht
  obtain ⟨j, hj, rfl⟩ := getElem_of_mem hu
  have hg := pairwise_iff_getElem.1 h
  have hti := ts[i].final_lt_end
  have huj := ts[j].final_lt_end
  rcases lt_trichotomy i j with hij | rfl | hij
  · have hij := hg i j hi hj hij
    omega
  · omega
  · have hji := hg j i hj hi hij
    omega

section Pass

variable [DecidableEq Key] {env : ApplyEnv Tuple Key} {req : BoundedApplyRequest}

/-- **What one pass does**, in terms of the transactions it decodes. -/
theorem applyBoundedLocked_spec {durable : Option ℕ} {seqWatermark : ℤ}
    {ts : List (Transaction Tuple)} {out : BoundedApplyOutcome} {writes : List (RowChange Key × ℤ)}
    (h : applyBoundedLocked env req durable seqWatermark (decodeStream ts) = .ok (out, writes)) :
    ∃ k ≤ ts.length, writes.map Prod.fst =
        ((ts.take k).filter (!req.skips ·)).flatMap (Transaction.mirrored env) ∧
      out.lastApplied = ((((ts.take k).filter (!req.skips ·)).getLast?.map Transaction.endLsn).or
          req.skipThrough).or durable ∧ (out.budgetExhausted = false → k = ts.length) := by
  obtain ⟨s, hs, h⟩ := bind_eq_ok_iff.1 h
  obtain ⟨k, hk, -, hbt, hcs, he, ha⟩ := applyMessages_stream rfl rfl rfl rfl hs
  rw [ite_error_eq_ok_iff, ok.injEq, Prod.mk.injEq] at h
  obtain ⟨-, rfl, rfl⟩ := h
  refine ⟨k, hk, ?_, ?_, ha⟩
  · simpa [ApplyState.changes, ApplyState.emitted, hbt, ApplyState.initial] using hcs
  · simp [he, ApplyState.initial]

end Pass

/-! ### Runs of passes -/

/-- What may differ from one pass to the next. -/
structure ApplyPass where
  visible : ℕ
  maxRows : Option ℤ
  maxMs : Option ℤ
  targetPruneFloor : Option (ℕ × ℤ)
  seqWatermark : ℤ
  nextIdAfter : ℕ → ℤ → Except String ℤ
  elapsed : ℕ → ℤ

structure CatchUp (Key : Type*) where
  skipThrough : Option ℕ
  mirror : List (RowChange Key)
  rowChanges : ℕ
  budgetExhausted : Bool
  requested : List ℕ

def CatchUp.start : CatchUp Key := ⟨none, [], 0, false, []⟩

section Run

variable (env : ApplyEnv Tuple Key) (durable : Option ℕ) (ts : List (Transaction Tuple))

/-- One pass of the catch-up. -/
def catchUpPass [DecidableEq Key] (c : CatchUp Key) (p : ApplyPass) : Except String (CatchUp Key) :=
  (applyBoundedLocked { env with nextIdAfter := p.nextIdAfter, elapsed := p.elapsed }
    ⟨c.skipThrough, p.targetPruneFloor, p.maxRows, p.maxMs⟩ durable p.seqWatermark
    (decodeStream (ts.take p.visible))).map fun r ↦
      { skipThrough := r.1.lastApplied.or c.skipThrough
        mirror := c.mirror ++ r.2.map Prod.fst
        rowChanges := r.1.rowChanges
        budgetExhausted := r.1.budgetExhausted
        requested := c.requested ++ c.skipThrough.toList }

def catchUp [DecidableEq Key] : CatchUp Key → List ApplyPass → Except String (CatchUp Key)
  | c, [] => .ok c
  | c, p :: ps => (catchUpPass env durable ts c p).bind fun c' ↦ catchUp c' ps

def CatchUp.reached (c : CatchUp Key) (t : Transaction Tuple) : Bool :=
  c.skipThrough.any (fun b ↦ decide (t.finalLsn < b)) && !c.requested.contains t.finalLsn

structure CatchUp.Invariant (c : CatchUp Key) : Prop where
  mirror_eq : c.mirror = (ts.filter c.reached).flatMap (Transaction.mirrored env)
  requested_le : ∀ b ∈ c.requested, ∃ s ∈ c.skipThrough, b ≤ s

end Run

variable {ps : List ApplyPass}

section Invariant

variable {env : ApplyEnv Tuple Key} {durable : Option ℕ} {ts : List (Transaction Tuple)}
  {c c' : CatchUp Key}

theorem CatchUp.invariant_start : (CatchUp.start : CatchUp Key).Invariant env ts where
  mirror_eq := by simp [CatchUp.start, CatchUp.reached]
  requested_le := by simp [CatchUp.start]

/-- The transactions a pass starting from `c` does not pass over. -/
def CatchUp.ahead (c : CatchUp Key) (t : Transaction Tuple) : Bool :=
  !c.skipThrough.any fun b ↦ decide (t.finalLsn ≤ b)

variable {p : ApplyPass}

/-- **The two ways a pass can go.** -/
theorem catchUpPass_cases [DecidableEq Key] (hts : CommitOrdered ts)
    (h : catchUpPass env durable ts c p = .ok c') :
    c'.requested = c.requested ++ c.skipThrough.toList ∧
      ((c'.mirror = c.mirror ∧ c'.skipThrough = c.skipThrough.or durable ∧
          (c'.budgetExhausted = false → ts.length ≤ p.visible → ∀ t ∈ ts, c.ahead t = false)) ∨
        ∃ u ∈ ts, c.ahead u = true ∧ c'.skipThrough = some u.endLsn ∧
          c'.mirror = c.mirror ++ (ts.filter fun t ↦
            c.ahead t && decide (t.finalLsn ≤ u.finalLsn)).flatMap (Transaction.mirrored env) ∧
          (c'.budgetExhausted = false → ts.length ≤ p.visible →
            ∀ t ∈ ts, c.ahead t = true → t.finalLsn ≤ u.finalLsn)) := by
  obtain ⟨⟨out, writes⟩, hpa, rfl⟩ := map_eq_ok_iff.1 h
  obtain ⟨k, -, hws, hl, ha⟩ := applyBoundedLocked_spec hpa
  refine ⟨rfl, ?_⟩
  -- the pass handled the first `n` transactions of the log, and the test it made is `ahead`
  set n := min k p.visible with hn
  have htk : ((ts.take p.visible).take k).filter
      (!BoundedApplyRequest.skips ⟨c.skipThrough, p.targetPruneFloor, p.maxRows, p.maxMs⟩ ·) =
      (ts.take n).filter c.ahead := by
    rw [take_take]
    rfl
  rw [htk] at hws hl
  have hfu : out.budgetExhausted = false → ts.length ≤ p.visible → ts.take n = ts := by
    intro hb hv
    have := ha hb
    rw [length_take] at this
    exact take_of_length_le (by omega)
  rcases hu : ((ts.take n).filter c.ahead).getLast? with - | u
  · left
    rw [getLast?_eq_none_iff] at hu
    refine ⟨by simp [hws, hu], ?_, fun hb hv t ht ↦ ?_⟩
    · rw [hl, hu]
      rcases c.skipThrough with - | b <;> simp
    · have := filter_eq_nil_iff.1 hu t (by rwa [hfu hb hv])
      simpa using this
  · right
    obtain ⟨hmem, hah⟩ := mem_filter.1 (mem_of_getLast? hu)
    refine ⟨u, mem_of_mem_take hmem, hah, ?_, ?_, fun hb hv t ht hta ↦ ?_⟩
    · rw [hl, hu]
      simp
    · rw [← hts.increasingBy.filter_take_eq hu]
      exact congrArg _ hws
    · refine (hts.increasingBy.sublist (filter_sublist.trans (take_sublist n ts))
        |>.le_getLast (mem_filter.2 ⟨?_, hta⟩) hu)
      rwa [hfu hb hv]

theorem CatchUp.Invariant.requested_eq_nil (hc : c.Invariant env ts) (hb : c.skipThrough = none) :
    c.requested = [] :=
  eq_nil_iff_forall_not_mem.2 fun b hmem ↦ by
    obtain ⟨s, hs, -⟩ := hc.requested_le b hmem
    simp [hb] at hs

theorem CatchUp.Invariant.le_of_mem_requested (hc : c.Invariant env ts) {b r : ℕ}
    (hb : c.skipThrough = some b) (hr : r ∈ c.requested ++ [b]) : r ≤ b := by
  rcases mem_append.1 hr with hmem | hmem
  · obtain ⟨s, hs, hrs⟩ := hc.requested_le r hmem
    rw [hb] at hs
    exact Option.some.inj hs ▸ hrs
  · exact le_of_eq (mem_singleton.1 hmem)

theorem CatchUp.Invariant.reached_of_move (hts : CommitOrdered ts) (hc : c.Invariant env ts)
    (hu : u ∈ ts) (hah : c.ahead u = true) (hsk : c'.skipThrough = some u.endLsn)
    (hr : c'.requested = c.requested ++ c.skipThrough.toList) (ht : t ∈ ts) :
    c'.reached t = (c.reached t || (c.ahead t && decide (t.finalLsn ≤ u.finalLsn))) := by
  have hi := hts.final_lt_end_iff ht hu
  rcases hb : c.skipThrough with - | b
  · simp [reached, ahead, hsk, hr, hb, hc.requested_eq_nil hb, hi]
  · have hbu : b < u.finalLsn := by simpa [ahead, hb] using hah
    rcases lt_trichotomy t.finalLsn b with hlt | heq | hgt
    · have hle : t.finalLsn ≤ u.finalLsn := by omega
      simp [reached, ahead, hsk, hr, hb, hi, hlt, hle, hlt.le, hlt.ne]
    · simp [reached, ahead, hsk, hr, hb, heq]
    · have hn : t.finalLsn ∉ c.requested := fun hmem ↦
        absurd (hc.le_of_mem_requested hb (mem_append_left _ hmem)) (not_le.2 hgt)
      simp [reached, ahead, hsk, hr, hb, hi, hgt.not_gt, hgt.not_ge, hgt.ne', hn]

/-- **One pass keeps the invariant.** -/
theorem CatchUp.Invariant.pass [DecidableEq Key] (hts : CommitOrdered ts)
    (hsl : ∀ t ∈ ts, ∀ d ∈ durable, d ≤ t.finalLsn) (hc : c.Invariant env ts)
    (h : catchUpPass env durable ts c p = .ok c') : c'.Invariant env ts := by
  obtain ⟨hreq, ⟨hm, hsk, -⟩ | ⟨u, hu, hah, hsk, hm, -⟩⟩ := catchUpPass_cases hts h
  · rcases hb : c.skipThrough with - | b
    · simp only [hb, Option.toList_none, hc.requested_eq_nil hb, append_nil] at hreq
      refine ⟨?_, by simp [hreq]⟩
      rw [hm, hc.mirror_eq]
      congr 1
      refine filter_congr fun t ht ↦ ?_
      rcases durable with - | d
      · simp [reached, hb, hsk]
      · simp [reached, hb, hsk, Nat.not_lt.2 (hsl t ht d rfl)]
    · rw [hb, Option.toList_some] at hreq
      rw [hb, Option.some_or] at hsk
      refine ⟨?_, fun r hr ↦ ⟨b, hsk, hc.le_of_mem_requested hb (hreq ▸ hr)⟩⟩
      rw [hm, hc.mirror_eq]
      congr 1
      refine filter_congr fun t _ ↦ ?_
      by_cases hlt : t.finalLsn < b
      · simp [reached, hb, hsk, hreq, hlt, Nat.ne_of_lt hlt]
      · simp [reached, hb, hsk, hlt]
  · refine ⟨?_, fun r hr ↦ ⟨u.endLsn, hsk, ?_⟩⟩
    · rw [hm, hc.mirror_eq, filter_congr fun t ht ↦ hc.reached_of_move hts hu hah hsk hreq ht,
        hts.increasingBy.filter_or, flatMap_append]
      -- what was accounted for starts below the old boundary, what is new starts above it
      intro a _ a' _ ha ha'
      rcases hb : c.skipThrough with - | b
      · simp [reached, hb] at ha
      · simp only [reached, hb, Option.any_some, Bool.and_eq_true, decide_eq_true_eq] at ha
        simp only [ahead, hb, Option.any_some, Bool.and_eq_true, Bool.not_eq_true',
          decide_eq_false_iff_not, not_le] at ha'
        omega
    · rcases hb : c.skipThrough with - | b
      · simp [hreq, hb, hc.requested_eq_nil hb] at hr
      · have hbu : b < u.finalLsn := by simpa [ahead, hb] using hah
        have hrb : r ≤ b := hc.le_of_mem_requested hb (by simpa [hreq, hb] using hr)
        have he := u.final_lt_end
        omega

/-- **The invariant along a run.** -/
theorem CatchUp.Invariant.run [DecidableEq Key] (hts : CommitOrdered ts)
    (hsl : ∀ t ∈ ts, ∀ d ∈ durable, d ≤ t.finalLsn) (hc : c.Invariant env ts)
    (h : catchUp env durable ts c ps = .ok c') : c'.Invariant env ts := by
  induction ps generalizing c with
  | nil => exact ok.inj h ▸ hc
  | cons p ps ih =>
    obtain ⟨c₁, hp, hps⟩ := bind_eq_ok_iff.1 h
    exact ih (hc.pass hts hsl hp) hps

theorem catchUp_append_singleton [DecidableEq Key]
    (h : catchUp env durable ts c (ps ++ [p]) = .ok c') :
    ∃ c₁, catchUp env durable ts c ps = .ok c₁ ∧ catchUpPass env durable ts c₁ p = .ok c' := by
  induction ps generalizing c with
  | nil =>
    obtain ⟨c₁, hp, hn⟩ := bind_eq_ok_iff.1 h
    exact ⟨c, rfl, ok.inj hn ▸ hp⟩
  | cons q ps ih =>
    obtain ⟨c₁, hq, hps⟩ := bind_eq_ok_iff.1 h
    obtain ⟨c₂, hps, hp⟩ := ih hps
    exact ⟨c₂, bind_eq_ok_iff.2 ⟨c₁, hq, hps⟩, hp⟩

theorem CatchUp.reached_of_complete [DecidableEq Key] (hts : CommitOrdered ts)
    (h : catchUpPass env durable ts c p = .ok c') (hu : c'.budgetExhausted = false)
    (hv : ts.length ≤ p.visible) (ht : t ∈ ts) :
    c'.reached t = !c'.requested.contains t.finalLsn := by
  by_cases hmem : t.finalLsn ∈ c'.requested
  · simp [reached, hmem]
  obtain ⟨hr, ⟨-, hsk, hdn⟩ | ⟨u, -, hah, hsk, -, hdn⟩⟩ := catchUpPass_cases hts h
  · have hbeh := hdn hu hv t ht
    rcases hb : c.skipThrough with - | b
    · simp [ahead, hb] at hbeh
    · have hle : t.finalLsn ≤ b := by simpa [ahead, hb] using hbeh
      have hne : t.finalLsn ≠ b := fun heq ↦ hmem (by simp [hr, hb, heq])
      simp [reached, hsk, hb, Nat.lt_of_le_of_ne hle hne]
  · have hlt : t.finalLsn < u.endLsn := by
      have he := u.final_lt_end
      by_cases hta : c.ahead t = true
      · have := hdn hu hv t ht hta
        omega
      · rcases hb : c.skipThrough with - | b
        · simp [ahead, hb] at hta
        · have hle : t.finalLsn ≤ b := by simpa [ahead, hb] using hta
          have hbu : b < u.finalLsn := by simpa [ahead, hb] using hah
          omega
    simp [reached, hsk, hlt]

end Invariant

/-! ### Exactly once -/

theorem mirror_eq_iff_of_last_pass [DecidableEq Key] {env : ApplyEnv Tuple Key}
    {durable : Option ℕ} {c c' : CatchUp Key} {last : ApplyPass}
    (hts : CommitOrdered ts) (hsl : ∀ t ∈ ts, ∀ d ∈ durable, d ≤ t.finalLsn)
    (hps : catchUp env durable ts .start ps = .ok c)
    (hl : catchUpPass env durable ts c last = .ok c') (hb : c'.budgetExhausted = false)
    (hv : ts.length ≤ last.visible) :
    c'.mirror = ts.flatMap (Transaction.mirrored env) ↔
      ∀ t ∈ ts, t.mirrored env ≠ [] → t.finalLsn ∉ c'.requested := by
  have hi := (CatchUp.invariant_start.run hts hsl hps).pass hts hsl hl
  rw [hi.mirror_eq, filter_congr fun t ht ↦ CatchUp.reached_of_complete hts hl hb hv ht,
    List.flatMap_filter_eq_flatMap_iff]
  refine forall₂_congr fun t _ ↦ ?_
  simp only [Bool.not_eq_false', contains_iff_mem]
  exact ⟨fun h hne hmem ↦ hne (h hmem), fun h hmem ↦ by_contra fun hne ↦ h hne hmem⟩

/-- **Exactly when every transaction is applied exactly once.** -/
theorem catchUp_mirror_eq_iff [DecidableEq Key] {env : ApplyEnv Tuple Key} {durable : Option ℕ}
    {ts : List (Transaction Tuple)} {c : CatchUp Key} {ps : List ApplyPass} {last : ApplyPass}
    (hts : CommitOrdered ts) (hslot : ∀ t ∈ ts, ∀ d ∈ durable, d ≤ t.finalLsn)
    (hrun : catchUp env durable ts .start (ps ++ [last]) = .ok c)
    (hbudget : c.budgetExhausted = false) (hvisible : ts.length ≤ last.visible) :
    c.mirror = ts.flatMap (Transaction.mirrored env) ↔
      ∀ t ∈ ts, t.mirrored env ≠ [] → t.finalLsn ∉ c.requested := by
  obtain ⟨c₁, hps, hl⟩ := catchUp_append_singleton hrun
  exact mirror_eq_iff_of_last_pass hts hslot hps hl hbudget hvisible

section Example

def singleKeyEnv : ApplyEnv ℕ ℕ where
  managed _ := some ⟨1, fun _ tuple ↦ .ok ⟨tuple, none, none⟩⟩
  isFlushReplicationOrigin _ := false
  nextIdAfter _ floor := .ok (floor + 1)
  elapsed _ := 0
  maxRowsPerTick := 0
  maxMsPerTick := 0

def insertTransaction (finalLsn endLsn key : ℕ) (h : finalLsn < endLsn) : Transaction ℕ where
  finalLsn := finalLsn
  endLsn := endLsn
  origin := none
  body := [.relation 7, .insert 7 key]
  final_lt_end := h
  inBody := by simp [PgOutputMessage.InBody]

/-- A pass without budgets over the first `n` transactions. -/
def unboundedPass (n : ℕ) : ApplyPass where
  visible := n
  maxRows := some 0
  maxMs := some 0
  targetPruneFloor := some (1, 0)
  seqWatermark := 0
  nextIdAfter _ floor := .ok (floor + 1)
  elapsed _ := 0

def gappedLog : List (Transaction ℕ) :=
  [insertTransaction 10 20 1 (by decide), insertTransaction 21 30 2 (by decide)]

/-- Two adjacent commit records, `[10, 20)` and `[20, 30)`. -/
def adjacentLog : List (Transaction ℕ) :=
  [insertTransaction 10 20 1 (by decide), insertTransaction 20 30 2 (by decide)]

theorem commitOrdered_gappedLog : CommitOrdered gappedLog := by
  simp [CommitOrdered, gappedLog, insertTransaction]

theorem catchUp_mirror_eq_iff_gapped :
    ∃ c, catchUp singleKeyEnv (some 5) gappedLog .start
        ([unboundedPass 1] ++ [unboundedPass 2]) = .ok c ∧
      (∀ t ∈ gappedLog, t.mirrored singleKeyEnv ≠ [] → t.finalLsn ∉ c.requested) ∧
      c.mirror = gappedLog.flatMap (Transaction.mirrored singleKeyEnv) := by
  have hr : catchUp singleKeyEnv (some 5) gappedLog .start
      ([unboundedPass 1] ++ [unboundedPass 2]) = .ok _ := rfl
  have hslot : ∀ t ∈ gappedLog, ∀ d ∈ some 5, d ≤ t.finalLsn := by
    simp [gappedLog, insertTransaction]
  have hiff := catchUp_mirror_eq_iff commitOrdered_gappedLog hslot hr rfl (by decide)
  refine ⟨_, hr, ?_, hiff.2 ?_⟩ <;> decide

/-- **A lost transaction.** The commit records are adjacent. -/
theorem catchUp_loses_adjacent_commit :
    CommitOrdered adjacentLog ∧
      ∃ c, catchUp singleKeyEnv none adjacentLog .start [unboundedPass 1, unboundedPass 2] =
          .ok c ∧ c.budgetExhausted = false ∧
        c.mirror = [⟨7, .insert, 1, none, none⟩] ∧
        adjacentLog.flatMap (Transaction.mirrored singleKeyEnv) =
          [⟨7, .insert, 1, none, none⟩, ⟨7, .insert, 2, none, none⟩] := by
  refine ⟨?_, _, rfl, rfl, rfl, rfl⟩
  simp [CommitOrdered, adjacentLog, insertTransaction]

end Example

end Koldstore
