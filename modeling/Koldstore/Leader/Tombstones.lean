import Koldstore.Cell.Decimal
import Koldstore.Mirror.PgOutput

/-!
# Fingerprints of the leader's delete markers

A leader publishes its unflushed delete markers and the deleted keys it has inserted again, and
skips a round when a text of their counts and seqs has not changed.
-/

namespace Koldstore.Tombstones

open List

structure MirrorEntry (K : Type*) where
  key : K
  op : MirrorOperation
  seq : ℤ

/-- The mirror's rows in the order of their seqs, and the table's rows of `reinserted_keys`. -/
structure Leader (K : Type*) where
  mirror : List (MirrorEntry K)
  reinserted : List K
  lastSeq : ℤ
  seq_le : ∀ m ∈ mirror, m.seq ≤ lastSeq
  increasing : mirror.Pairwise (·.seq < ·.seq)
  keys_nodup : (mirror.map (·.key)).Nodup

/-- An insert is guarded before its row reaches the mirror. A write takes a seq
above all earlier ones, after `skipped` that no row keeps. -/
inductive Event (K : Type*)
  | recordReinsert (key : K)
  | write (op : MirrorOperation) (key : K) (skipped : ℕ)
  | flush (flushed : K → Bool)
  | pruneReinserted

variable {K : Type*} [DecidableEq K]

namespace Leader

variable (s : Leader K)

/-- `record_reinsert`: the mirror has a delete marker for the inserted key. -/
def recordReinsert (key : K) : Leader K :=
  if (∃ m ∈ s.mirror, m.key = key ∧ m.op = .delete) ∧ key ∉ s.reinserted then
    { s with reinserted := key :: s.reinserted }
  else s

def write (op : MirrorOperation) (key : K) (skipped : ℕ) : Leader K where
  mirror := s.mirror.filter (·.key ≠ key) ++ [⟨key, op, s.lastSeq + skipped + 1⟩]
  reinserted := s.reinserted
  lastSeq := s.lastSeq + skipped + 1
  seq_le m hm := by
    rcases mem_append.1 hm with hm | hm
    · have := s.seq_le m (mem_of_mem_filter hm)
      omega
    · rw [mem_singleton.1 hm]
  increasing := by
    refine pairwise_append.2 ⟨s.increasing.filter _, pairwise_singleton .., fun a ha b hb ↦ ?_⟩
    rw [mem_singleton.1 hb]
    have := s.seq_le a (mem_of_mem_filter ha)
    show a.seq < s.lastSeq + skipped + 1
    omega
  keys_nodup := by
    rw [map_append]
    refine (s.keys_nodup.sublist (filter_sublist.map _)).append (nodup_singleton _) ?_
    intro k hk hkey
    obtain ⟨m, hm, rfl⟩ := mem_map.1 hk
    exact of_decide_eq_true (mem_filter.1 hm).2 (mem_singleton.1 hkey)

def flush (flushed : K → Bool) : Leader K := { s with
    mirror := s.mirror.filter (!flushed ·.key)
    seq_le := fun m hm ↦ s.seq_le m (mem_of_mem_filter hm)
    increasing := s.increasing.filter _
    keys_nodup := s.keys_nodup.sublist (filter_sublist.map _) }

def pruneReinserted : Leader K :=
  { s with reinserted := s.reinserted.filter fun key ↦ s.mirror.any fun m ↦
      decide (m.key = key ∧ 0 < m.seq) }

def step : Event K → Leader K
  | .recordReinsert key => s.recordReinsert key
  | .write op key skipped => s.write op key skipped
  | .flush flushed => s.flush flushed
  | .pruneReinserted => s.pruneReinserted

def run (events : List (Event K)) : Leader K := events.foldl step s

def deletes : List (MirrorEntry K) := s.mirror.filter fun m ↦ decide (m.op = .delete ∧ 0 < m.seq)

/-- The mirror rows of `reinserted_join`. -/
def reinserts : List (MirrorEntry K) :=
  s.mirror.filter fun m ↦ decide (m.key ∈ s.reinserted ∧ m.op ≠ .delete ∧ 0 < m.seq)

/-- `leader_tombstones`: the keys published, and whether some were left out. -/
def leaderTombstones (limit : ℕ) : List K × Bool :=
  let keys := ((s.deletes ++ s.reinserts).map (·.key)).take (limit + 1)
  (keys.take limit, decide (limit < keys.length))

end Leader

def seqs (rows : List (MirrorEntry K)) : List ℕ := rows.map (·.seq.toNat)

def Leader.tombstoneFingerprint (s : Leader K) : List Char :=
  Nat.toDigits 10 s.deletes.length ++ ':' :: (Nat.toDigits 10 ((seqs s.deletes).min?.getD 0) ++
    ':' :: (Nat.toDigits 10 ((seqs s.deletes).max?.getD 0) ++
    '/' :: (Nat.toDigits 10 s.reinserts.length ++
    ':' :: Nat.toDigits 10 ((seqs s.reinserts).max?.getD 0))))

/-! ### What a run leaves of the old rows -/

/-- The rows of an earlier moment that are left come first, and none of them has been recorded
since. -/
structure Continues (s t : Leader K) (old new : List (MirrorEntry K)) : Prop where
  mirror : t.mirror = old ++ new
  sublist : old <+ s.mirror
  later : ∀ m ∈ new, s.lastSeq < m.seq
  recorded : ∀ m ∈ old, m.op ≠ .delete → m.key ∈ t.reinserted → m.key ∈ s.reinserted
  lastSeq : s.lastSeq ≤ t.lastSeq

theorem exists_continues (s : Leader K) (events : List (Event K)) :
    ∃ old new, Continues s (s.run events) old new := by
  induction events using reverseRecOn with
  | nil => exact ⟨s.mirror, [], (append_nil _).symm, .refl _, nofun, fun _ _ _ h ↦ h, le_rfl⟩
  | append_singleton events e ih =>
    obtain ⟨old, new, h⟩ := ih
    rw [Leader.run, foldl_append, foldl_cons, foldl_nil, ← Leader.run]
    generalize s.run events = t at h ⊢
    cases e with
    | recordReinsert key =>
      rw [Leader.step, Leader.recordReinsert]
      split_ifs with hmarker
      · refine ⟨old, new, h.mirror, h.sublist, h.later, fun m hm hop hk ↦ ?_, h.lastSeq⟩
        rcases mem_cons.1 hk with rfl | hk
        · -- the marker is the key's only row
          obtain ⟨⟨d, hd, hkey, hdel⟩, -⟩ := hmarker
          have hmem : m ∈ t.mirror := h.mirror ▸ mem_append_left _ hm
          exact absurd (inj_on_of_nodup_map t.keys_nodup hd hmem hkey ▸ hdel) hop
        · exact h.recorded m hm hop hk
      · exact ⟨old, new, h⟩
    | write op key skipped =>
      refine ⟨old.filter (·.key ≠ key), new.filter (·.key ≠ key) ++
        [⟨key, op, t.lastSeq + skipped + 1⟩], ?_, filter_sublist.trans h.sublist, ?_, ?_, ?_⟩
      · show t.mirror.filter _ ++ _ = _
        rw [h.mirror, filter_append, append_assoc]
      · intro m hm
        rcases mem_append.1 hm with hm | hm
        · exact h.later m (mem_of_mem_filter hm)
        · rw [mem_singleton.1 hm]
          exact Int.lt_add_one_of_le (h.lastSeq.trans (by simp))
      · exact fun m hm ↦ h.recorded m (mem_of_mem_filter hm)
      · exact h.lastSeq.trans (by simp [Leader.step, Leader.write, add_assoc]; omega)
    | flush flushed =>
      refine ⟨old.filter (!flushed ·.key), new.filter (!flushed ·.key), ?_,
        filter_sublist.trans h.sublist, fun m hm ↦ h.later m (mem_of_mem_filter hm),
        fun m hm ↦ h.recorded m (mem_of_mem_filter hm), h.lastSeq⟩
      show t.mirror.filter _ = _
      rw [h.mirror, filter_append]
    | pruneReinserted =>
      exact ⟨old, new, h.mirror, h.sublist, h.later,
        fun m hm hop hk ↦ h.recorded m hm hop (mem_of_mem_filter hk), h.lastSeq⟩

/-! ### Fingerprints -/

theorem digits_inj {m n : ℕ} {c : Char} {r r' : List Char} (hc : c.isDigit = false)
    (h : Nat.toDigits 10 m ++ c :: r = Nat.toDigits 10 n ++ c :: r') : m = n ∧ r = r' := by
  have ht : ∀ (n : ℕ) (r : List Char),
      (Nat.toDigits 10 n ++ c :: r).takeWhile Char.isDigit = Nat.toDigits 10 n := by
    intro n r
    rw [takeWhile_append_of_pos fun _ ↦ Decimal.isDigit_of_mem_whole,
      takeWhile_cons_of_neg (by simp [hc]), append_nil]
  obtain rfl := Decimal.toDigits_injective ((ht m r).symm.trans (h ▸ ht n r'))
  exact ⟨rfl, (cons.inj (append_cancel_left h)).2⟩

omit [DecidableEq K] in
theorem max_seqs_le {rows : List (MirrorEntry K)} {last : ℤ} (h : ∀ m ∈ rows, m.seq ≤ last) :
    (seqs rows).max?.getD 0 ≤ last.toNat := by
  cases hmax : (seqs rows).max? with
  | none => exact Nat.zero_le _
  | some n =>
    obtain ⟨m, hm, rfl⟩ := mem_map.1 (max?_mem hmax)
    exact Int.toNat_le_toNat (h m hm)

omit [DecidableEq K] in
/-- Rows of the earlier moment are all that is left when counts and newest seqs agree. -/
theorem filter_eq_of_continues {s t : Leader K} {old new : List (MirrorEntry K)}
    (h : Continues s t old new) {p q : MirrorEntry K → Bool} (hpos : ∀ m, p m → 0 < m.seq)
    (hpq : ∀ m ∈ old, p m → q m) (hc : (t.mirror.filter p).length = (s.mirror.filter q).length)
    (hmax : (seqs (t.mirror.filter p)).max?.getD 0 = (seqs (s.mirror.filter q)).max?.getD 0) :
    t.mirror.filter p = s.mirror.filter q := by
  have hn : new.filter p = [] := by
    refine eq_nil_iff_forall_not_mem.2 fun m hm ↦ ?_
    obtain ⟨hmem, hp⟩ := mem_filter.1 hm
    have ht : m ∈ t.mirror.filter p := mem_filter.2 ⟨h.mirror ▸ mem_append_right old hmem, hp⟩
    have hge := le_max?_getD_of_mem (k := 0) (mem_map_of_mem (f := (·.seq.toNat)) ht)
    have hle := max_seqs_le fun m hm ↦ s.seq_le m (mem_of_mem_filter (p := q) hm)
    have hl := h.later m hmem
    have := hpos m hp
    rw [← hmax] at hle
    have := hge.trans hle
    omega
  rw [h.mirror, filter_append, hn, append_nil] at hc ⊢
  refine Sublist.eq_of_length (Sublist.trans ?_ (h.sublist.filter q)) hc
  rw [show old.filter p = (old.filter q).filter p by
    rw [filter_filter]
    refine filter_congr fun m hm ↦ ?_
    cases hm' : p m with
    | false => rw [Bool.false_and]
    | true => rw [hpq m hm hm', Bool.true_and]]
  exact filter_sublist

/-- **When the fingerprint is that of an earlier moment, so is what the leader publishes.** -/
theorem leaderTombstones_of_fingerprint_eq (s : Leader K) (events : List (Event K)) (limit : ℕ)
    (h : (s.run events).tombstoneFingerprint = s.tombstoneFingerprint) :
    (s.run events).leaderTombstones limit = s.leaderTombstones limit := by
  obtain ⟨ho, h⟩ := digits_inj (by decide) h
  obtain ⟨-, h⟩ := digits_inj (by decide) h
  obtain ⟨hmax, h⟩ := digits_inj (by decide) h
  obtain ⟨hc', h⟩ := digits_inj (by decide) h
  obtain ⟨old, new, hc⟩ := exists_continues s events
  have hd : (s.run events).deletes = s.deletes :=
    filter_eq_of_continues hc (by simp) (fun _ _ h ↦ h) ho hmax
  have hr : (s.run events).reinserts = s.reinserts := by
    refine filter_eq_of_continues hc (by simp) (fun m hm hp ↦ ?_) hc'
      (Decimal.toDigits_injective h)
    simp only [decide_eq_true_eq] at hp ⊢
    exact ⟨hc.recorded m hm hp.2.1 hp.1, hp.2⟩
  rw [Leader.leaderTombstones, hd, hr, Leader.leaderTombstones]

/-- A delete marker of key `1` and a row of key `3` that was inserted again. -/
def markerAndReinsert : Leader ℕ where
  mirror := [⟨1, .delete, 5⟩, ⟨3, .insert, 6⟩]
  reinserted := [3]
  lastSeq := 6
  seq_le := by simp
  increasing := by simp
  keys_nodup := by simp

theorem leaderTombstones_markerAndReinsert :
    (markerAndReinsert.run [.write .insert 2 0, .flush (· == 2), .pruneReinserted]).leaderTombstones
      10 = ([1, 3], false) :=
  leaderTombstones_of_fingerprint_eq markerAndReinsert _ 10 (by decide +kernel)

end Koldstore.Tombstones
