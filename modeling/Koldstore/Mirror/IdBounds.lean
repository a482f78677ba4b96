import Koldstore.Mirror.Snowflake

/-!
# Ids from a time on, and ids above a floor

`minimum_id_at_unix_millis` and `next_id_after`.
-/

namespace Koldstore.Snowflake

open List Except

/-! ### The parts of an id -/

theorem composeId_mod (timestamp worker sequence : ℕ) :
    composeId timestamp worker sequence = composeId (timestamp % 2 ^ 42) worker sequence := by
  have hs : (timestamp <<< timestampShift) % 2 ^ 64 =
      ((timestamp % 2 ^ 42) <<< timestampShift) % 2 ^ 64 := by
    simp only [timestampShift, Nat.shiftLeft_eq]
    omega
  rw [composeId, composeId, hs]

variable {timestamp worker sequence : ℕ} {id : ℕ}

theorem workerId_of_composeId (hw : worker ≤ maxWorkerId) (hs : sequence < 2 ^ 12)
    (h : composeId timestamp worker sequence = .ok id) : workerId id = worker := by
  rw [composeId_mod] at h
  exact (composeId_spec (Nat.mod_lt _ (by decide)) hw hs h).2

theorem lt_of_composeId (h : composeId timestamp worker sequence = .ok id) : id < 2 ^ 63 := by
  simp only [composeId] at h
  split at h
  next hlt => exact ok.inj h ▸ hlt
  next => cases h

theorem composeId_eq (ht : timestamp < 2 ^ 41)
    (hw : worker ≤ maxWorkerId) (hs : sequence < 2 ^ 12) :
    composeId timestamp worker sequence =
      .ok (timestamp * 2 ^ 22 + worker * 2 ^ 12 + sequence) := by
  have hw' : worker < 2 ^ 10 := Nat.lt_succ_of_le hw
  rw [composeId, parts_eq (by omega) hw hs, if_pos (by omega)]

theorem composeId_overflow (hlo : 2 ^ 41 ≤ timestamp)
    (hhi : timestamp < 2 ^ 42) (hw : worker ≤ maxWorkerId) (hs : sequence < 2 ^ 12) :
    composeId timestamp worker sequence = .error .idOverflow := by
  rw [composeId, parts_eq hhi hw hs, if_neg (by omega)]

/-! ### The first id of a millisecond -/

def minimumIdAtUnixMillis (unixMillis : Int64) : Option ℕ :=
  if unixMillis.toInt < epochMillis then none
  else
    let id := ((unixMillis.toInt.toNat - epochMillis) <<< timestampShift) % 2 ^ 64
    if id < 2 ^ 63 then some id else none

def unixMillisFromId (id : ℤ) : Option ℕ :=
  if id < 0 then none
  else
    let unixMillis := epochMillis + (id.toNat >>> timestampShift)
    if unixMillis < 2 ^ 63 then some unixMillis else none

theorem unixMillisFromId_eq (h : id < 2 ^ 63) :
    unixMillisFromId id = some (epochMillis + id / 2 ^ 22) := by
  simp only [unixMillisFromId, timestampShift, Nat.shiftRight_eq_div_pow, Int.toNat_natCast,
    epochMillis]
  rw [if_neg (by omega), if_pos (by omega)]

theorem minimumIdAtUnixMillis_eq_some {unixMillis : Int64} {m : ℕ}
    (h : minimumIdAtUnixMillis unixMillis = some m) : ∃ elapsed : ℕ,
      unixMillis.toInt = epochMillis + elapsed ∧ m = elapsed % 2 ^ 42 * 2 ^ 22 ∧ m < 2 ^ 63 := by
  rw [minimumIdAtUnixMillis] at h
  split at h
  next => cases h
  next hep =>
    simp only [timestampShift, Nat.shiftLeft_eq] at h
    split at h
    next hlt =>
      rw [Option.some.injEq] at h
      refine ⟨unixMillis.toInt.toNat - epochMillis, ?_, ?_, h ▸ hlt⟩
      · omega
      · rw [← h]
        omega
    next => cases h

structure Separates (unixMillis : Int64) (m : ℕ) : Prop where
  le_iff : ∀ timestamp worker sequence id, worker ≤ maxWorkerId → sequence ≤ maxSequence →
    composeId timestamp worker sequence = .ok id →
      (m ≤ id ↔ ∃ millis, unixMillisFromId id = some millis ∧ unixMillis.toInt ≤ millis)
  mono : ∀ earlier m', earlier.toInt ≤ unixMillis.toInt →
    minimumIdAtUnixMillis earlier = some m' → m' ≤ m
  decodes : ∃ millis, unixMillisFromId m = some millis ∧ (millis : ℤ) = unixMillis.toInt

/-- **A cutoff separates the ids if and only if its time fits the 42 bits of an id's
millisecond.** -/
theorem separates_iff {unixMillis : Int64} {m : ℕ} (h : minimumIdAtUnixMillis unixMillis = some m) :
    Separates unixMillis m ↔ unixMillis.toInt < epochMillis + 2 ^ 42 := by
  obtain ⟨elapsed, hti, hm, hlt⟩ := minimumIdAtUnixMillis_eq_some h
  constructor
  · intro he
    obtain ⟨millis, hd, hi⟩ := he.decodes
    rw [unixMillisFromId_eq hlt, Option.some.injEq] at hd
    omega
  · intro hft
    have hsmall : elapsed < 2 ^ 42 := by
      rw [hti] at hft
      exact_mod_cast Int.lt_of_add_lt_add_left hft
    rw [Nat.mod_eq_of_lt hsmall] at hm
    refine ⟨fun timestamp worker sequence id hw hs hid ↦ ?_, fun earlier m' hle h' ↦ ?_, ?_⟩
    · rw [unixMillisFromId_eq (lt_of_composeId hid), hti]
      simp only [Option.some.injEq, exists_eq_left']
      push_cast
      omega
    · obtain ⟨elapsed', hti', hm', -⟩ := minimumIdAtUnixMillis_eq_some h'
      omega
    · refine ⟨_, unixMillisFromId_eq hlt, ?_⟩
      omega

theorem separates_minute : Separates 1704067260000 251658240000 :=
  (separates_iff (by decide)).2 (by decide)

theorem not_separates_turn : minimumIdAtUnixMillis 6102113711104 = some 0 ∧
    ¬ Separates 6102113711104 0 := by
  refine ⟨by decide, fun h ↦ ?_⟩
  obtain ⟨millis, hd, hm⟩ := h.decodes
  have hz : unixMillisFromId 0 = some epochMillis := by decide
  rw [show ((0 : ℕ) : ℤ) = 0 from rfl, hz, Option.some.injEq] at hd
  subst hd
  revert hm
  decide

/-! ### An id above a floor -/

/-- `next_id` without interference: its result, and the word that it leaves. -/
def nextId (worker : UInt16) (reading : Option ℕ) (last : ℕ) : Except Error ℕ × ℕ :=
  if maxWorkerId < worker.toNat then (.error (.workerIdOutOfRange worker), last)
  else
    match currentTimestampMillis reading with
    | .error e => (.error e, last)
    | .ok now =>
      let pair := nextTimestampAndSequence now last
      (composeId pair.1 worker.toNat pair.2, packTimestampAndSequence pair.1 pair.2)

def advanceGeneratorToTimestamp (timestamp last : ℕ) : ℕ :=
  (advancedState timestamp last).getD last

/-- A call of `next_id_after` with its readings of the clock. -/
structure Invocation where
  workerId : UInt16
  floor : Int64
  first : Option ℕ
  second : Option ℕ

def lastPair : ℕ := 2 ^ 53 - 1

def RoomLeft (last : ℕ) : Prop := last < lastPair

instance (last : ℕ) : Decidable (RoomLeft last) := inferInstanceAs (Decidable (_ < _))

namespace Invocation

variable (c : Invocation)

/-- The part of `next_id_after` after its candidate was not above the floor. -/
def raise (last : ℕ) : Except Error ℕ × ℕ :=
  let raised := nextId c.workerId c.second
    (advanceGeneratorToTimestamp (minTimestamp c.floor) last)
  match raised.1 with
  | .error e => (.error e, raised.2)
  | .ok id => (if c.floor.toInt < id then .ok id else .error .idOverflow, raised.2)

def nextIdAfter (last : ℕ) : Except Error ℕ × ℕ :=
  if maxWorkerId < c.workerId.toNat then (.error (.workerIdOutOfRange c.workerId), last)
  else if c.floor = Int64.maxValue then (.error .idOverflow, last)
  else
    let candidate := nextId c.workerId c.first last
    match candidate.1 with
    | .error e => (.error e, candidate.2)
    | .ok id => if c.floor.toInt < id then (.ok id, candidate.2) else c.raise candidate.2

def results : List Invocation → ℕ → List (Except Error ℕ)
  | [], _ => []
  | c :: calls, last => (c.nextIdAfter last).1 :: results calls (c.nextIdAfter last).2

def final : List Invocation → ℕ → ℕ
  | [], last => last
  | c :: calls, last => final calls (c.nextIdAfter last).2

/-- The clock, as far as it can be read, is less than `2 ^ 41` milliseconds past the epoch. -/
def InTime : Prop :=
  ∀ now, currentTimestampMillis c.first = .ok now ∨ currentTimestampMillis c.second = .ok now →
    now < 2 ^ 41

def LowFloor : Prop := c.floor.toInt < (2 ^ 41 - 1) * 2 ^ 22

instance (c : Invocation) : Decidable c.LowFloor := inferInstanceAs (Decidable (_ < _))

def Refused : Prop :=
  maxWorkerId < c.workerId.toNat ∨ c.floor = Int64.maxValue ∨
    ∃ e, currentTimestampMillis c.first = .error e

def Harmless : Prop := c.LowFloor ∨ c.Refused

structure HasRoom (c : Invocation) : Prop where
  worker : c.workerId.toNat ≤ maxWorkerId
  floor : c.LowFloor
  first : ∃ now < 2 ^ 41, currentTimestampMillis c.first = .ok now
  second : ∃ now < 2 ^ 41, currentTimestampMillis c.second = .ok now

end Invocation

/-! ### The word after one step -/

def idOf (worker word : ℕ) : ℕ := word / 2 ^ 12 * 2 ^ 22 + worker * 2 ^ 12 + word % 2 ^ 12

theorem pairOf_idOf {word : ℕ} (hw : worker ≤ maxWorkerId) : pairOf (idOf worker word) = word := by
  have hw : worker < 2 ^ 10 := Nat.lt_succ_of_le hw
  rw [pairOf, idOf]
  omega

theorem millis_idOf {word : ℕ} (hw : worker ≤ maxWorkerId) :
    idOf worker word / 2 ^ 22 = word / 2 ^ 12 := by
  have hw : worker < 2 ^ 10 := Nat.lt_succ_of_le hw
  rw [idOf]
  omega

theorem sequence_lt (now last : ℕ) : (nextTimestampAndSequence now last).2 < 2 ^ 12 := by
  simp only [nextTimestampAndSequence, unpack_eq, maxSequence]
  split
  next => exact Nat.two_pow_pos 12
  next =>
    split
    next => omega
    next => exact Nat.two_pow_pos 12

theorem next_eq (now last : ℕ) :
    nextTimestampAndSequence now last =
      (max (last + 1) (now * 2 ^ 12) / 2 ^ 12, max (last + 1) (now * 2 ^ 12) % 2 ^ 12) := by
  simp only [nextTimestampAndSequence, unpack_eq, maxSequence]
  split
  next =>
    rw [max_eq_right (by omega)]
    ext <;> simp only <;> omega
  next =>
    rw [max_eq_left (by omega)]
    split
    next => ext <;> simp only <;> omega
    next => ext <;> simp only <;> omega

variable {reading : Option ℕ}

/-- **`next_id` takes the next pair.** -/
theorem nextId_eq {worker : UInt16} (hw : worker.toNat ≤ maxWorkerId) {now : ℕ}
    (hr : currentTimestampMillis reading = .ok now) (hn : now < 2 ^ 41) {last : ℕ}
    (hl : last < 2 ^ 53 + 2 ^ 12) :
    nextId worker reading last = (if max (last + 1) (now * 2 ^ 12) ≤ lastPair then
        .ok (idOf worker.toNat (max (last + 1) (now * 2 ^ 12))) else .error .idOverflow,
        max (last + 1) (now * 2 ^ 12)) := by
  rw [nextId, if_neg (not_lt.2 hw)]
  simp only [hr, next_eq]
  generalize hword : max (last + 1) (now * 2 ^ 12) = word
  have hlt : word < 2 ^ 54 := by omega
  rw [pack_eq (by omega) (by omega)]
  rw [Nat.div_add_mod']
  congr 1
  split
  next hle =>
    rw [lastPair] at hle
    exact composeId_eq (by omega) hw (by omega)
  next hgt =>
    rw [lastPair] at hgt
    exact composeId_overflow (by omega) (by omega) hw (by omega)

theorem nextId_of_error {worker : UInt16} (hw : worker.toNat ≤ maxWorkerId)
    {e : Error} (hr : currentTimestampMillis reading = .error e) (last : ℕ) :
    nextId worker reading last = (.error e, last) := by
  rw [nextId, if_neg (not_lt.2 hw)]
  simp only [hr]

theorem workerId_of_nextId {worker : UInt16} {last : ℕ}
    (h : (nextId worker reading last).1 = .ok id) : workerId id = worker.toNat := by
  rw [nextId] at h
  split at h
  next => cases h
  next hw =>
    split at h
    next => cases h
    next now _ => exact workerId_of_composeId (not_lt.1 hw) (sequence_lt now last) h

theorem advance_eq {last : ℕ} (ht : timestamp ≤ 2 ^ 41) (hlt : last / 2 ^ 12 < timestamp) :
    advanceGeneratorToTimestamp timestamp last = timestamp * 2 ^ 12 := by
  rw [advanceGeneratorToTimestamp, advancedState]
  simp only [unpack_eq]
  rw [if_neg (by omega), if_pos hlt, Option.getD_some, pack_eq (by omega) (Nat.two_pow_pos 12),
    Nat.add_zero]

theorem minTimestamp_eq (floor : Int64) : minTimestamp floor = floor.toInt.toNat / 2 ^ 22 + 1 := by
  rw [minTimestamp, timestampShift, Nat.shiftRight_eq_div_pow]

namespace Invocation

variable {c : Invocation} {last word : ℕ}

theorem lt_minTimestamp {floor : Int64} {worker : ℕ} (hw : worker ≤ maxWorkerId)
    (h : ¬ floor.toInt < idOf worker word) : word / 2 ^ 12 < minTimestamp floor := by
  rw [minTimestamp_eq, ← millis_idOf hw, Nat.lt_succ_iff]
  exact Nat.div_le_div_right (by omega)

theorem lt_of_minTimestamp_le {floor : Int64} {worker : ℕ} (hw : worker ≤ maxWorkerId)
    (h : minTimestamp floor ≤ word / 2 ^ 12) : floor.toInt < idOf worker word := by
  by_contra hle
  exact absurd (lt_minTimestamp hw hle) (not_lt.2 h)

theorem minTimestamp_lt_iff : minTimestamp c.floor < 2 ^ 41 ↔ c.LowFloor := by
  rw [minTimestamp_eq, LowFloor]
  omega

variable (hw : c.workerId.toNat ≤ maxWorkerId)
include hw

theorem raise_of_lowFloor (hti : c.InTime)
    (hfl : c.LowFloor) (hlt : word / 2 ^ 12 < minTimestamp c.floor) :
    (∃ e, currentTimestampMillis c.second = .error e ∧
      c.raise word = (.error e, minTimestamp c.floor * 2 ^ 12)) ∨
    ∃ w ≤ lastPair, c.raise word = (.ok (idOf c.workerId.toNat w), w) := by
  rw [← minTimestamp_lt_iff] at hfl
  rw [raise, advance_eq (minTimestamp_le _) hlt]
  cases hs : currentTimestampMillis c.second with
  | error e =>
    rw [nextId_of_error hw hs]
    exact .inl ⟨e, rfl, rfl⟩
  | ok now =>
    have hn := hti now (.inr hs)
    have hle : max (minTimestamp c.floor * 2 ^ 12 + 1) (now * 2 ^ 12) ≤ lastPair := by
      rw [lastPair]
      omega
    have hab : minTimestamp c.floor ≤
        max (minTimestamp c.floor * 2 ^ 12 + 1) (now * 2 ^ 12) / 2 ^ 12 := by omega
    rw [nextId_eq hw hs hn (by omega), if_pos hle]
    simp only [lt_of_minTimestamp_le hw hab, if_true]
    exact .inr ⟨_, hle, rfl⟩

theorem raise_of_not_lowFloor (hti : c.InTime)
    (hfl : ¬ c.LowFloor) (hlt : word / 2 ^ 12 < minTimestamp c.floor) :
    2 ^ 53 ≤ (c.raise word).2 ∧ (c.raise word).2 ≤ 2 ^ 53 + 1 := by
  have ht : minTimestamp c.floor = 2 ^ 41 :=
    le_antisymm (minTimestamp_le _) (not_lt.1 fun h ↦ hfl (minTimestamp_lt_iff.1 h))
  rw [raise, advance_eq (minTimestamp_le _) hlt, ht]
  cases hs : currentTimestampMillis c.second with
  | error e =>
    rw [nextId_of_error hw hs]
    exact ⟨le_rfl, by simp⟩
  | ok now =>
    have hn := hti now (.inr hs)
    rw [nextId_eq hw hs hn (by omega), if_neg (by rw [lastPair]; omega)]
    simp only
    omega

/-- **What a call does that reaches the word.** -/
theorem nextIdAfter_eq (hm : c.floor ≠ Int64.maxValue) {now : ℕ}
    (hf : currentTimestampMillis c.first = .ok now) (hn : now < 2 ^ 41) (hrm : RoomLeft last) :
    ∃ w ≤ lastPair, c.nextIdAfter last =
      if c.floor.toInt < idOf c.workerId.toNat w then (.ok (idOf c.workerId.toNat w), w)
      else c.raise w := by
  rw [RoomLeft, lastPair] at hrm
  have hle : max (last + 1) (now * 2 ^ 12) ≤ lastPair := by
    rw [lastPair]
    omega
  refine ⟨_, hle, ?_⟩
  rw [nextIdAfter, if_neg (not_lt.2 hw), if_neg hm, nextId_eq hw hf hn (by omega), if_pos hle]

omit hw

theorem nextIdAfter_of_refused (h : c.Refused) (last : ℕ) :
    ∃ e, c.nextIdAfter last = (.error e, last) := by
  rw [nextIdAfter]
  split
  next => exact ⟨_, rfl⟩
  next hw =>
    split
    next => exact ⟨_, rfl⟩
    next hm =>
      obtain ⟨e, hf⟩ := (h.resolve_left hw).resolve_left hm
      rw [nextId_of_error (not_lt.1 hw) hf]
      exact ⟨e, rfl⟩

theorem ne_maxValue_of_lowFloor (h : c.LowFloor) : c.floor ≠ Int64.maxValue := by
  intro hm
  rw [LowFloor, hm] at h
  revert h
  decide

/-- **A call with room succeeds.** -/
theorem HasRoom.succeeds (h : c.HasRoom) (hrm : RoomLeft last) :
    ∃ id, (c.nextIdAfter last).1 = .ok id := by
  obtain ⟨now, ho, hf⟩ := h.first
  obtain ⟨now', hn', hs⟩ := h.second
  have hti : c.InTime := by
    rintro n (hn | hn)
    · exact ok.inj (hf.symm.trans hn) ▸ ho
    · exact ok.inj (hs.symm.trans hn) ▸ hn'
  obtain ⟨w, -, heq⟩ :=
    nextIdAfter_eq h.worker (ne_maxValue_of_lowFloor h.floor) hf ho hrm
  rw [heq]
  split
  next => exact ⟨_, rfl⟩
  next hle =>
    rcases raise_of_lowFloor h.worker hti h.floor (lt_minTimestamp h.worker hle) with
      ⟨e, he, -⟩ | ⟨w', -, hr⟩
    · rw [hs] at he
      cases he
    · exact ⟨_, congrArg Prod.fst hr⟩

/-- **A harmless call leaves room.** -/
theorem Harmless.roomLeft (h : c.Harmless) (hti : c.InTime) (hrm : RoomLeft last)
    (hid : ∀ id, (c.nextIdAfter last).1 = .ok id → pairOf id ≠ lastPair) :
    RoomLeft (c.nextIdAfter last).2 := by
  by_cases hr : c.Refused
  · obtain ⟨e, heq⟩ := nextIdAfter_of_refused hr last
    rwa [heq]
  have hfl := h.resolve_right hr
  simp only [Refused, not_or, not_exists, not_lt] at hr
  obtain ⟨hw, hm, hf⟩ := hr
  cases hn : currentTimestampMillis c.first with
  | error e => exact absurd hn (hf e)
  | ok now =>
    have hi : ∀ w ≤ lastPair, pairOf (idOf c.workerId.toNat w) ≠ lastPair → RoomLeft w :=
      fun w hle hne ↦ lt_of_le_of_ne hle fun h ↦ hne ((pairOf_idOf hw).trans h)
    obtain ⟨w, hle, heq⟩ := nextIdAfter_eq hw hm hn (hti now (.inl hn)) hrm
    rw [heq] at hid ⊢
    split
    next hab =>
      rw [if_pos hab] at hid
      exact hi w hle (hid _ rfl)
    next hb =>
      rw [if_neg hb] at hid
      rcases raise_of_lowFloor hw hti hfl (lt_minTimestamp hw hb) with
        ⟨e, -, ha⟩ | ⟨w', hle', ha⟩
      · rw [ha, RoomLeft, lastPair]
        have := minTimestamp_lt_iff.2 hfl
        simp only
        omega
      · rw [ha] at hid ⊢
        exact hi w' hle' (hid _ rfl)

/-- **Room is left after any number of harmless calls.** -/
theorem roomLeft_final {calls : List Invocation} (hc : ∀ c ∈ calls, c.InTime ∧ c.Harmless)
    (hrm : RoomLeft last) (hi : ∀ id, .ok id ∈ results calls last → pairOf id ≠ lastPair) :
    RoomLeft (final calls last) := by
  induction calls generalizing last with
  | nil => exact hrm
  | cons c calls ih =>
    rw [forall_mem_cons] at hc
    have hstep : RoomLeft (c.nextIdAfter last).2 :=
      hc.1.2.roomLeft hc.1.1 hrm fun id hid ↦ hi id (hid ▸ mem_cons_self)
    exact ih hc.2 hstep fun id hid ↦ hi id (mem_cons_of_mem _ hid)

theorem fails_of_wedged (hlo : 2 ^ 53 ≤ last) (hhi : last ≤ 2 ^ 53 + 1) (id : ℕ) :
    (nextIdAfter ⟨0, 0, some epochMillis, some epochMillis⟩ last).1 ≠ .ok id := by
  have hf : currentTimestampMillis (some epochMillis) = .ok 0 := by decide
  rw [nextIdAfter, if_neg (by decide), if_neg (by decide),
    nextId_eq (by decide) hf (by decide) (by omega), if_neg (by rw [lastPair]; omega)]
  exact fun h ↦ nomatch h

/-- **The failed calls that take nothing from later calls are the harmless ones.** -/
theorem harmless_iff (hti : c.InTime) (hrm : RoomLeft last)
    (hfa : ∀ id, (c.nextIdAfter last).1 ≠ .ok id) :
    (∀ c' : Invocation, c'.HasRoom → ∃ id, (c'.nextIdAfter (c.nextIdAfter last).2).1 = .ok id) ↔
      c.Harmless := by
  constructor
  · intro hl
    by_contra hh
    obtain ⟨hfl, hr⟩ := not_or.1 hh
    simp only [Refused, not_or, not_exists, not_lt] at hr
    obtain ⟨hw, hm, hf⟩ := hr
    cases hn : currentTimestampMillis c.first with
    | error e => exact hf e hn
    | ok now =>
      obtain ⟨w, hle, heq⟩ := nextIdAfter_eq hw hm hn (hti now (.inl hn)) hrm
      have hb : ¬ c.floor.toInt < idOf c.workerId.toNat w := by
        intro hab
        rw [heq, if_pos hab] at hfa
        exact hfa _ rfl
      rw [heq, if_neg hb] at hl
      obtain ⟨hlo, hhi⟩ := raise_of_not_lowFloor hw hti hfl (lt_minTimestamp hw hb)
      obtain ⟨id, hid⟩ := hl ⟨0, 0, some epochMillis, some epochMillis⟩
        ⟨by decide, by decide, ⟨0, by decide, by decide⟩, ⟨0, by decide, by decide⟩⟩
      exact fails_of_wedged hlo hhi id hid
  · intro ha c' hc'
    exact hc'.succeeds (ha.roomLeft hti hrm fun id hid ↦ absurd hid (hfa id))

theorem nextIdAfter_spec (h : (c.nextIdAfter last).1 = .ok id) :
    c.floor.toInt < id ∧ Snowflake.workerId id = c.workerId.toNat := by
  rw [nextIdAfter] at h
  split at h
  next => cases h
  next =>
    split at h
    next => cases h
    next =>
      simp only at h
      split at h
      next => cases h
      next candidate hc =>
        split at h
        next hab => exact ok.inj h ▸ ⟨hab, workerId_of_nextId hc⟩
        next =>
          rw [raise] at h
          split at h
          next => cases h
          next raised hr =>
            simp only at h
            split at h
            next hab => exact ok.inj h ▸ ⟨hab, workerId_of_nextId hr⟩
            next => cases h

/-- **Ids above a floor.** A call returns an id above its floor with its worker's bits, or fails. -/
theorem nextIdAfter_recovers (c : Invocation) (last : ℕ) : (∀ id, (c.nextIdAfter last).1 = .ok id →
      c.floor.toInt < id ∧ Snowflake.workerId id = c.workerId.toNat) ∧
    (∀ calls : List Invocation, RoomLeft last → (∀ c' ∈ calls, c'.InTime ∧ c'.Harmless) →
      (∀ id, .ok id ∈ results calls last → pairOf id ≠ lastPair) →
      c.HasRoom → ∃ id, (c.nextIdAfter (final calls last)).1 = .ok id) ∧
    (RoomLeft last → c.InTime → (∀ id, (c.nextIdAfter last).1 ≠ .ok id) →
      ((∀ c' : Invocation, c'.HasRoom →
        ∃ id, (c'.nextIdAfter (c.nextIdAfter last).2).1 = .ok id) ↔ c.Harmless)) :=
  ⟨fun _ h ↦ nextIdAfter_spec h,
    fun _ hrm ha hi hc ↦ hc.succeeds (roomLeft_final ha hrm hi),
    fun hrm hti hfa ↦ harmless_iff hti hrm hfa⟩

theorem nextIdAfter_recovers_clock :
    ∃ id, (nextIdAfter ⟨1, 0, some 1704067201000, some 1704067201000⟩
      (final [⟨1, 8388608000, some 1704067201000, none⟩] 0)).1 = .ok id := by
  have ho : currentTimestampMillis (some 1704067201000) = .ok 1000 := by decide
  have hnone : currentTimestampMillis none = .error .clockUnavailable := rfl
  refine (nextIdAfter_recovers _ 0).2.1 _ (by decide) (fun c hc ↦ ?_) (fun id hid ↦ ?_)
    ⟨by decide, by decide, ⟨1000, by decide, ho⟩, ⟨1000, by decide, ho⟩⟩
  · rw [mem_singleton.1 hc]
    refine ⟨?_, .inl (by decide)⟩
    rintro n (hn | hn)
    · rw [ho] at hn
      exact ok.inj hn ▸ by decide
    · rw [hnone] at hn
      cases hn
  · have hfa : results [⟨1, 8388608000, some 1704067201000, none⟩] 0 =
        [.error .clockUnavailable] := by decide
    rw [hfa, mem_singleton] at hid
    cases hid

theorem nextIdAfter_wedged :
    results [⟨1, 9223372036854775806, some 1704067201000, some 1704067201000⟩,
      ⟨1, 0, some 1704067202000, some 1704067202000⟩] 0 = [.error .idOverflow, .error .idOverflow] ∧
    results [⟨1, 0, some 1704067202000, some 1704067202000⟩] 0 = [.ok 8388612096] := by
  decide

end Invocation

end Koldstore.Snowflake
