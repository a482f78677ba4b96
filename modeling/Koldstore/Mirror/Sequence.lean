import Koldstore.Mirror.Apply

/-!
# The sequence ids of an apply pass

An apply pass takes an id above a floor for every row change.
-/

namespace Koldstore

open List Except

variable {Tuple Key : Type*}

/-- `next_id_after` returns ids above its floor or fails. -/
def ApplyEnv.AllocatesAbove (env : ApplyEnv Tuple Key) : Prop :=
  ∀ n floor seq, env.nextIdAfter n floor = .ok seq → floor < seq

/-- What a pass that started at the watermark `start` has handed out. -/
structure Allocated (env : ApplyEnv Tuple Key) (req : BoundedApplyRequest) (start : ℤ)
    (s : ApplyState Key) : Prop where
  increasing : (s.emitted.map Prod.snd).Pairwise (· < ·)
  start_le : start ≤ s.seqWatermark
  range : ∀ e ∈ s.emitted, start < e.2 ∧ e.2 ≤ s.seqWatermark
  floored : ∀ e ∈ s.emitted, ∀ config floor, env.managed e.1.relationId = some config →
    req.targetPruneFloor = some (config.tableOid, floor) → floor < e.2

section Steps

variable {env : ApplyEnv Tuple Key} {req : BoundedApplyRequest} {start : ℤ}
variable {s s' : ApplyState Key}

theorem Allocated.congr (h : Allocated env req start s) (he : s'.emitted = s.emitted)
    (hwm : s'.seqWatermark = s.seqWatermark) : Allocated env req start s' :=
  ⟨he ▸ h.increasing, hwm ▸ h.start_le, he ▸ hwm ▸ h.range, he ▸ h.floored⟩

theorem flushBatch_emitted (h : flushBatch s = .ok s') : s'.emitted = s.emitted := by
  rw [flushBatch_eq_ok h]
  simp [ApplyState.emitted]

theorem Allocated.flushBatch (h : Allocated env req start s) (hfl : flushBatch s = .ok s') :
    Allocated env req start s' :=
  h.congr (flushBatch_emitted hfl) (by rw [flushBatch_eq_ok hfl])

theorem watermark_le_seqFloor (req : BoundedApplyRequest) (tableOid : ℕ) (watermark : ℤ) :
    watermark ≤ seqFloor req tableOid watermark := by
  rw [seqFloor]
  split
  · split
    · exact le_max_left _ _
    · exact le_rfl
  · exact le_rfl

theorem floor_le_seqFloor {tableOid : ℕ} {floor : ℤ}
    (h : req.targetPruneFloor = some (tableOid, floor)) (watermark : ℤ) :
    floor ≤ seqFloor req tableOid watermark := by
  simp [seqFloor, h]

variable [DecidableEq Key] {operation : MirrorOperation}

variable {relationId : ℕ}

variable (henv : env.AllocatesAbove)
include henv

variable (h : Allocated env req start s)
include h

theorem Allocated.pushChange {tuple : Tuple}
    (hp : pushChange env req relationId operation tuple s = .ok s') :
    Allocated env req start s' := by
  simp only [Koldstore.pushChange, ite_error_eq_ok_iff] at hp
  obtain ⟨-, -, hp⟩ := hp
  rcases hm : env.managed relationId with - | config
  · simp only [hm, ok.injEq] at hp
    exact hp ▸ h
  · simp only [hm, bind_eq_ok_iff] at hp
    obtain ⟨row, -, seq, hs, ht⟩ := hp
    obtain ⟨hemd, -, hwm⟩ := stageRow_spec ht
    have hab := henv _ _ _ hs
    have hgr : s.seqWatermark < seq :=
      (watermark_le_seqFloor req config.tableOid s.seqWatermark).trans_lt hab
    have he' : s'.emitted = s.emitted ++ [(⟨relationId, operation, row⟩, seq)] := hemd
    have hwm' : s'.seqWatermark = seq := hwm
    refine ⟨?_, ?_, fun e he ↦ ?_, fun e he config' floor hman hfl ↦ ?_⟩
    · rw [he', map_append, pairwise_append]
      refine ⟨h.increasing, pairwise_singleton _ _, fun a ha b hb ↦ ?_⟩
      obtain ⟨e, he, rfl⟩ := mem_map.1 ha
      obtain rfl : b = seq := by simpa using hb
      exact (h.range e he).2.trans_lt hgr
    · rw [hwm']
      exact h.start_le.trans hgr.le
    · rw [hwm']
      rw [he'] at he
      rcases mem_append.1 he with he | he
      · exact ⟨(h.range e he).1, (h.range e he).2.trans hgr.le⟩
      · obtain rfl := mem_singleton.1 he
        exact ⟨h.start_le.trans_lt hgr, le_rfl⟩
    · rw [he'] at he
      rcases mem_append.1 he with he | he
      · exact h.floored e he config' floor hman hfl
      · obtain rfl := mem_singleton.1 he
        obtain rfl : config = config' := Option.some.inj (hm.symm.trans hman)
        exact (floor_le_seqFloor hfl s.seqWatermark).trans_lt hab

theorem Allocated.applyRowMessage {tuple : Tuple}
    (ha : applyRowMessage env req relationId operation tuple s = .ok s') :
    Allocated env req start s' := by
  rw [Koldstore.applyRowMessage] at ha
  split_ifs at ha
  · exact ok.inj ha ▸ h
  · obtain ⟨s₁, hs₁, rfl⟩ := map_eq_ok_iff.1 ha
    exact (h.pushChange henv hs₁).congr rfl rfl

theorem Allocated.applyMessage {m : PgOutputMessage Tuple}
    (ha : applyMessage env req s m = .ok s') : Allocated env req start s' := by
  cases m with
  | begin finalLsn =>
    obtain ⟨s₁, hfl, rfl⟩ := map_eq_ok_iff.1 ha
    exact (h.flushBatch hfl).congr rfl rfl
  | origin name =>
    simp only [Koldstore.applyMessage] at ha
    split_ifs at ha <;> cases ha
    · exact h.congr rfl rfl
    · exact h
  | commit endLsn =>
    simp only [Koldstore.applyMessage, ite_error_eq_ok_iff] at ha
    obtain ⟨s₁, hfl, rfl⟩ := map_eq_ok_iff.1 ha.2
    exact (h.flushBatch hfl).congr rfl rfl
  | relation id =>
    cases ha
    exact h.congr rfl rfl
  | insert relationId new | update relationId old new | delete relationId old =>
    exact h.applyRowMessage henv ha
  | ignored => exact ok.inj ha ▸ h

theorem Allocated.applyMessages {ms : List (PgOutputMessage Tuple)}
    (ha : applyMessages env req s ms = .ok s') : Allocated env req start s' := by
  induction ms generalizing s with
  | nil => exact ok.inj ha ▸ h
  | cons m ms ih =>
    rw [Koldstore.applyMessages] at ha
    split_ifs at ha
    · exact ok.inj ha ▸ h
    · obtain ⟨s₁, hm, hms⟩ := bind_eq_ok_iff.1 ha
      exact ih (h.applyMessage henv hm) hms

omit h

/-- **The ids a pass writes.** -/
theorem applyBoundedLocked_allocates {durable : Option ℕ}
    {watermark : ℤ} {stream : List (PgOutputMessage Tuple)} {outcome : BoundedApplyOutcome}
    {written : List (RowChange Key × ℤ)}
    (h : applyBoundedLocked env req durable watermark stream = .ok (outcome, written)) :
    (written.map Prod.snd).Pairwise (· < ·) ∧ (∀ e ∈ written, watermark < e.2) ∧
      ∀ e ∈ written, ∀ config floor, env.managed e.1.relationId = some config →
        req.targetPruneFloor = some (config.tableOid, floor) → floor < e.2 := by
  obtain ⟨s, hs, hf⟩ := bind_eq_ok_iff.1 h
  simp only [ite_error_eq_ok_iff, ok.injEq, Prod.mk.injEq] at hf
  obtain ⟨-, -, rfl⟩ := hf
  have hin : Allocated env req watermark (ApplyState.initial watermark : ApplyState Key) :=
    ⟨List.Pairwise.nil, le_rfl, nofun, nofun⟩
  have ha := hin.applyMessages henv hs
  -- what is written is the front part of what is emitted
  have hsub : s.written.Sublist s.emitted := sublist_append_left _ _
  exact ⟨ha.increasing.sublist (hsub.map _), fun e he ↦ (ha.range e (hsub.subset he)).1,
    fun e he ↦ ha.floored e (hsub.subset he)⟩

omit henv

end Steps

end Koldstore
