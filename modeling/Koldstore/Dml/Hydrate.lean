import Koldstore.Basic.Except

/-!
# Hydrating cold rows before a write

`hydrate_target` runs beside any history of other sessions, so beside one in which they write a key
only under its lock.
-/

namespace Koldstore.Hydrate

open List Except

inductive Isolation
  | readCommitted
  | repeatableRead
  | serializable

inductive Event (R : Type*)
  | locked (key : String)
  /-- A read through a snapshot taken after the first `taken` events. -/
  | looked (taken : ℕ) (rows : List (String × R))
  | inserted (rows : List (String × R))

def Event.isLook {R : Type*} : Event R → Bool
  | .looked _ _ => true
  | _ => false

inductive HydrateError
  | failed (error : String)
  | busy (keys : ℕ)
  | writtenBefore
  | unsettled
  | overCap (rows : ℕ)

/-- The committed state, the locks other sessions hold, this transaction's own writes, and what it
did so far. -/
structure World (R D W : Type*) where
  db : D
  busy : ℤ → Bool
  own : W
  pauses : ℕ
  trace : List (Event R)

/-- What `hydrate_target` reads; `others i` is what the other sessions have made of the database
and of their locks by its `i`-th pause, and `expired i` whether a deadline has passed. -/
structure Target (R D W : Type*) where
  isolation : Isolation
  hasCold : Bool
  wasWritten : Bool
  allowSameTxnColdReads : Bool
  takeJobLock : Bool
  fenceMirror : Bool
  maxHydrateRows : ℕ
  /-- What the snapshot shows that the statement began with. -/
  snapshot : D
  hashtext : String → ℤ
  jobLock : Except HydrateError Unit
  coldOnlyMatchingRows : D → W → Except HydrateError (List (String × R))
  fenceForRead : D → W → Except HydrateError W
  hydrateRows : D → W → List R → Except HydrateError W
  others : ℕ → D × (ℤ → Bool)
  expired : ℕ → Bool

variable {R D W : Type*} (c : Target R D W)

def pause (w : World R D W) : World R D W :=
  { w with db := (c.others w.pauses).1, busy := (c.others w.pauses).2, pauses := w.pauses + 1 }

/-- `pg_try_advisory_xact_lock` of each pending key. -/
def tryLocks (pending : List String) (w : World R D W) : World R D W := { w with
    trace := w.trace ++ (pending.filter fun key ↦ !w.busy (c.hashtext key)).map .locked }

/-- The loop of `lock_keys_within`, by the number of times it can still sleep. -/
def pollLocks : ℕ → List String → World R D W → Except HydrateError (World R D W)
  | sleeps, pending, w =>
    let failed := pending.filter fun key ↦ w.busy (c.hashtext key)
    if failed = [] then .ok (tryLocks c pending w)
    else match sleeps with
      | 0 => .error (.busy failed.length)
      | sleeps + 1 =>
        if c.expired w.pauses then .error (.busy failed.length)
        else pollLocks sleeps failed (pause c (tryLocks c pending w))

/-- A sleep takes 5 ms or more, so `timeout / 5` of them reach the deadline. -/
def lockKeysWithin (keys : List String) (timeout : ℕ) (w : World R D W) :
    Except HydrateError (World R D W) :=
  if keys = [] then .ok w else pollLocks c (timeout / 5) keys (pause c w)

def look (taken : ℕ) (db : D) (w : World R D W) :
    Except HydrateError (List (String × R) × World R D W) :=
  (c.coldOnlyMatchingRows db w.own).map fun rows ↦
    (rows, { w with trace := w.trace ++ [.looked taken rows] })

/-- `GetTransactionSnapshot` is fresh at READ COMMITTED, and else the transaction's first. -/
def withCurrentView (w : World R D W) : Except HydrateError (List (String × R) × World R D W) :=
  (if c.fenceMirror then c.fenceForRead (pause c w).db w.own else .ok w.own).bind fun own ↦
    let w' := pause c { pause c w with own := own }
    match c.isolation with
    | .readCommitted => look c w'.trace.length w'.db w'
    | _ => look c 0 c.snapshot w'

/-- The rounds of `hydrate_target`: the rows of the last, and whether they are settled. -/
def rounds : ℕ → Finset String → List (String × R) → World R D W →
    Except HydrateError ((List (String × R) × Bool) × World R D W)
  | 0, _, rows, w => .ok ((rows, false), w)
  | n + 1, locked, _, w =>
    (withCurrentView c w).bind fun view ↦
      let newKeys := (view.1.map Prod.fst).filter (· ∉ locked)
      if newKeys = [] then .ok ((view.1, true), view.2)
      else if c.maxHydrateRows < locked.card + newKeys.length then .ok ((view.1, false), view.2)
      else (lockKeysWithin c newKeys (if c.fenceMirror then 250 else 5000) view.2).bind
        (rounds n (locked ∪ newKeys.toFinset) view.1)

def insertSettled (rows : List (String × R)) (settled : Bool) (w : World R D W) :
    Except HydrateError (Bool × World R D W) :=
  if rows = [] then .ok (false, w)
  else if settled = false ∧ rows.length ≤ c.maxHydrateRows then .error .unsettled
  else if c.maxHydrateRows < rows.length then .error (.overCap rows.length)
  else (c.hydrateRows (pause c w).db w.own (rows.map Prod.snd)).map fun own ↦
    (true, { pause c w with own := own, trace := w.trace ++ [.inserted rows] })

/-- With the fence on, the keys of the first look are locked before it. -/
def lockProbe (probe : List (String × R)) (w : World R D W) :
    Except HydrateError (Finset String × World R D W) :=
  if c.fenceMirror = true ∧ probe.length ≤ c.maxHydrateRows then
    (lockKeysWithin c (probe.map Prod.fst) 5000 w).map ((probe.map Prod.fst).toFinset, ·)
  else .ok (∅, w)

/-- An error ends the transaction, and undoes what it inserted. -/
def hydrateTarget (w : World R D W) : Except HydrateError (Bool × World R D W) :=
  if c.hasCold = false ∨ c.wasWritten = true ∧ c.allowSameTxnColdReads = true then .ok (false, w)
  else (if c.takeJobLock && !c.wasWritten then c.jobLock else .ok ()).bind fun _ ↦
    (look c 0 c.snapshot (pause c w)).bind fun probe ↦
      if probe.1 = [] then .ok (false, probe.2)
      else if c.wasWritten then .error .writtenBefore
      else (lockProbe c probe.1 probe.2).bind fun l ↦
        (rounds c 6 l.1 [] l.2).bind fun r ↦ insertSettled c r.1.1 r.1.2 r.2

def ReadAfterLock (t : List (Event R)) (x : String × R) : Prop :=
  ∃ taken rows, .looked taken rows ∈ t ∧ x ∈ rows ∧ .locked x.1 ∈ t.take taken

/-- At most `n` looks, and an insert only as the last event: of rows within the cap, each read by a
view that was taken after its key was locked. -/
def Meets (cap n : ℕ) (inserts : Bool) (t : List (Event R)) : Prop :=
  ∃ t', t'.countP Event.isLook ≤ n ∧ (∀ rows, .inserted rows ∉ t') ∧
    if inserts then ∃ rows, t = t' ++ [.inserted rows] ∧ rows.length ≤ cap ∧
      ∀ x ∈ rows, ReadAfterLock t' x
    else t = t'

variable {c} {w w' w'' : World R D W} {m n : ℕ}

/-- `w'` comes after `w`, with at most `n` looks and no insert between. -/
def After (n : ℕ) (w w' : World R D W) : Prop :=
  ∃ es, w'.trace = w.trace ++ es ∧ es.countP Event.isLook ≤ n ∧ ∀ rows, .inserted rows ∉ es

theorem After.of_eq (h : w'.trace = w.trace) : After n w w' := ⟨[], by simp [h]⟩

theorem After.trans (h : After m w w') (h' : After n w' w'') : After (m + n) w w'' := by
  obtain ⟨es, he, hl, hi⟩ := h
  obtain ⟨es', he', hl', hi'⟩ := h'
  refine ⟨es ++ es', by rw [he', he, append_assoc], ?_, fun rows hm ↦ ?_⟩
  · rw [countP_append]
    omega
  · exact (mem_append.1 hm).elim (hi rows) (hi' rows)

theorem After.mono (h : After m w w') (hmn : m ≤ n) : After n w w' := by
  obtain ⟨es, he, hl, hi⟩ := h
  exact ⟨es, he, hl.trans hmn, hi⟩

theorem After.mem (h : After n w w') {e : Event R} (he : e ∈ w.trace) : e ∈ w'.trace := by
  obtain ⟨es, hw, -⟩ := h
  exact hw ▸ mem_append_left es he

variable {keys : List String} {rows : List (String × R)}

theorem after_pause : After 0 w (pause c w) := .of_eq rfl

theorem after_tryLocks (c : Target R D W) (keys : List String) (w : World R D W) :
    After 0 w (tryLocks c keys w) ∧ ∀ key ∈ keys,
      w.busy (c.hashtext key) = false → .locked key ∈ (tryLocks c keys w).trace := by
  refine ⟨⟨_, rfl, by simp [countP_map, Function.comp_def, Event.isLook], by simp⟩,
    fun key hk hb ↦ mem_append_right _ ?_⟩
  exact mem_map_of_mem (mem_filter.2 ⟨hk, by simp [hb]⟩)

theorem after_pollLocks {sleeps : ℕ} (h : pollLocks c sleeps keys w = .ok w') :
    After 0 w w' ∧ ∀ key ∈ keys, .locked key ∈ w'.trace := by
  fun_induction pollLocks c sleeps keys w with
  | case1 sleeps keys w failed hf =>
    cases h
    obtain ⟨hw, hl⟩ := after_tryLocks c keys w
    exact ⟨hw, fun key hk ↦ hl key hk (by simpa using filter_eq_nil_iff.1 hf key hk)⟩
  | case2 | case3 => cases h
  | case4 keys w failed hf sleeps hx ih =>
    obtain ⟨hw, hl⟩ := after_tryLocks c keys w
    obtain ⟨hp, hl'⟩ := ih h
    refine ⟨(hw.trans after_pause).trans hp, fun key hk ↦ ?_⟩
    cases hb : w.busy (c.hashtext key) with
    | false => exact hp.mem (hl key hk hb)
    | true => exact hl' key (mem_filter.2 ⟨hk, hb⟩)

theorem after_lockKeysWithin {timeout : ℕ} (h : lockKeysWithin c keys timeout w = .ok w') :
    After 0 w w' ∧ ∀ key ∈ keys, .locked key ∈ w'.trace := by
  rw [lockKeysWithin] at h
  split at h
  next hn =>
    cases h
    exact ⟨.of_eq rfl, by simp [hn]⟩
  · obtain ⟨hp, hl⟩ := after_pollLocks h
    exact ⟨after_pause.trans hp, hl⟩

theorem after_look {taken : ℕ} {db : D} (h : look c taken db w = .ok (rows, w')) :
    After 1 w w' ∧ w'.trace = w.trace ++ [.looked taken rows] := by
  obtain ⟨rows', -, ⟨⟩⟩ := map_eq_ok_iff.1 h
  exact ⟨⟨_, rfl, by simp [Event.isLook], by simp⟩, rfl⟩

/-- At READ COMMITTED the view is newer than the locks that were taken before it. -/
theorem after_withCurrentView (hc : c.isolation = .readCommitted)
    (h : withCurrentView c w = .ok (rows, w')) :
    After 1 w w' ∧ ∀ x ∈ rows, .locked x.1 ∈ w.trace → ReadAfterLock w'.trace x := by
  obtain ⟨own, -, hv⟩ := bind_eq_ok_iff.1 h
  rw [hc] at hv
  obtain ⟨hw, ht⟩ := after_look hv
  replace ht : w'.trace = w.trace ++ [.looked w.trace.length rows] := ht
  refine ⟨(After.of_eq rfl).trans hw, fun x hx hl ↦ ⟨w.trace.length, rows, by simp [ht], hx, ?_⟩⟩
  rwa [ht, take_left]

theorem after_rounds (hc : c.isolation = .readCommitted) {locked : Finset String}
    {rows' : List (String × R)} {settled : Bool} (hl : ∀ key ∈ locked, .locked key ∈ w.trace)
    (h : rounds c n locked rows w = .ok ((rows', settled), w')) :
    After n w w' ∧ (settled = true → ∀ x ∈ rows', ReadAfterLock w'.trace x) := by
  induction n generalizing locked rows w with
  | zero =>
    cases h
    exact ⟨.of_eq rfl, nofun⟩
  | succ n ih =>
    obtain ⟨⟨view, w₁⟩, hview, h⟩ := bind_eq_ok_iff.1 h
    obtain ⟨hw, hr⟩ := after_withCurrentView hc hview
    dsimp only at h
    split at h
    next hnew =>
      -- every key of this view was locked in an earlier round
      cases h
      refine ⟨hw.mono (by omega), fun _ x hx ↦ hr x hx (hl x.1 ?_)⟩
      simpa using filter_eq_nil_iff.1 hnew x.1 (mem_map_of_mem hx)
    · split at h
      · cases h
        exact ⟨hw.mono (by omega), nofun⟩
      · obtain ⟨w₂, hlock, h⟩ := bind_eq_ok_iff.1 h
        obtain ⟨hw', hnew⟩ := after_lockKeysWithin hlock
        obtain ⟨hw'', hr'⟩ := ih (fun key hk ↦ (Finset.mem_union.1 hk).elim
          (fun hk ↦ hw'.mem (hw.mem (hl key hk))) fun hk ↦ hnew key (mem_toFinset.1 hk)) h
        exact ⟨((hw.trans hw').trans hw'').mono (by omega), hr'⟩

theorem after_lockProbe {locked : Finset String} (h : lockProbe c rows w = .ok (locked, w')) :
    After 0 w w' ∧ ∀ key ∈ locked, .locked key ∈ w'.trace := by
  rw [lockProbe] at h
  split at h
  · obtain ⟨w₁, hlock, ⟨⟩⟩ := map_eq_ok_iff.1 h
    simpa using after_lockKeysWithin hlock
  · cases h
    exact ⟨.of_eq rfl, by simp⟩

variable {w₀ : World R D W} {inserts : Bool}

theorem meets_false (hw : After m w₀ w) (h₀ : w₀.trace = []) (hmn : m ≤ n) (cap : ℕ) :
    Meets cap n false w.trace := by
  obtain ⟨es, he, hl, hi⟩ := hw.mono hmn
  rw [h₀, nil_append] at he
  exact ⟨es, hl, hi, he⟩

theorem meets_insertSettled {settled : Bool} (hw : After n w₀ w) (h₀ : w₀.trace = [])
    (hr : settled = true → ∀ x ∈ rows, ReadAfterLock w.trace x)
    (h : insertSettled c rows settled w = .ok (inserts, w')) :
    Meets c.maxHydrateRows n inserts w'.trace := by
  rw [insertSettled] at h
  split at h
  · cases h
    exact meets_false hw h₀ le_rfl _
  · obtain ⟨hs, h⟩ := ite_error_eq_ok_iff.1 h
    obtain ⟨hcap, h⟩ := ite_error_eq_ok_iff.1 h
    obtain ⟨own, -, ⟨⟩⟩ := map_eq_ok_iff.1 h
    rw [not_lt] at hcap
    have hset : settled = true := by simpa [hcap] using hs
    obtain ⟨t, hl, hi, rfl⟩ := meets_false hw h₀ le_rfl 0
    exact ⟨_, hl, hi, rows, rfl, hcap, hr hset⟩

/-- At READ COMMITTED, whatever the other sessions do, `hydrate_target` looks at most seven times,
and the rows it inserts are within the cap and were read after their keys were locked. -/
theorem hydrateTarget_meets (hc : c.isolation = .readCommitted) (h₀ : w₀.trace = [])
    (h : hydrateTarget c w₀ = .ok (inserts, w')) :
    Meets c.maxHydrateRows 7 inserts w'.trace := by
  rw [hydrateTarget] at h
  split at h
  · cases h
    exact meets_false (.of_eq rfl) h₀ (Nat.zero_le 7) _
  obtain ⟨-, -, h⟩ := bind_eq_ok_iff.1 h
  obtain ⟨⟨probe, w₁⟩, hlook, h⟩ := bind_eq_ok_iff.1 h
  have hw := after_pause.trans (after_look hlook).1
  split at h
  · cases h
    exact meets_false hw h₀ (by omega) _
  · obtain ⟨-, h⟩ := ite_error_eq_ok_iff.1 h
    obtain ⟨⟨locked, w₂⟩, hprobe, h⟩ := bind_eq_ok_iff.1 h
    obtain ⟨⟨⟨rows, settled⟩, w₃⟩, hrounds, h⟩ := bind_eq_ok_iff.1 h
    obtain ⟨hw₂, hl⟩ := after_lockProbe hprobe
    obtain ⟨hw₃, hr⟩ := after_rounds hc hl hrounds
    exact meets_insertSettled ((hw.trans hw₂).trans hw₃) h₀ hr h

def coldRows : List (String × ℕ) := [("[1]", 7), ("[2]", 8)]

/-- Another session deletes `[1]` under its lock, and commits before this one takes any lock. -/
def deletedMeanwhile (isolation : Isolation) : Target ℕ (List (String × ℕ)) Unit where
  isolation := isolation
  hasCold := true
  wasWritten := false
  allowSameTxnColdReads := false
  takeJobLock := false
  fenceMirror := true
  maxHydrateRows := 10000
  snapshot := coldRows
  hashtext key := .ofNat key.length
  jobLock := .ok ()
  coldOnlyMatchingRows db _ := .ok db
  fenceForRead _ own := .ok own
  hydrateRows _ own _ := .ok own
  others _ := ([("[2]", 8)], fun _ ↦ false)
  expired _ := false

def begun : World ℕ (List (String × ℕ)) Unit := ⟨coldRows, fun _ ↦ false, (), 0, []⟩

theorem hydrateTarget_meets_deletedMeanwhile :
    ∃ w', hydrateTarget (deletedMeanwhile .readCommitted) begun = .ok (true, w') ∧
      .inserted [("[2]", 8)] ∈ w'.trace ∧ Meets 10000 7 true w'.trace := by
  obtain ⟨w', h, ht⟩ : ∃ w',
      hydrateTarget (deletedMeanwhile .readCommitted) begun = .ok (true, w') ∧
        w'.trace = [.looked 0 coldRows, .locked "[1]", .locked "[2]", .looked 3 [("[2]", 8)],
          .inserted [("[2]", 8)]] := ⟨_, rfl, rfl⟩
  exact ⟨w', h, by simp [ht], hydrateTarget_meets rfl rfl h⟩

/-- At REPEATABLE READ the deleted row comes back. -/
theorem frozen_view_precedes_locks :
    ∃ w', hydrateTarget (deletedMeanwhile .repeatableRead) begun = .ok (true, w') ∧
      .inserted coldRows ∈ w'.trace ∧ ¬Meets 10000 7 true w'.trace := by
  obtain ⟨w', h, ht⟩ : ∃ w',
      hydrateTarget (deletedMeanwhile .repeatableRead) begun = .ok (true, w') ∧
        w'.trace = [.looked 0 coldRows, .locked "[1]", .locked "[2]", .looked 0 coldRows] ++
          [.inserted coldRows] := ⟨_, rfl, rfl⟩
  refine ⟨w', h, by simp [ht], ?_⟩
  rintro ⟨t', -, -, rows, heq, -, hr⟩
  obtain ⟨rfl, ⟨⟩⟩ := append_inj' (ht.symm.trans heq) rfl
  obtain ⟨taken, rows, hl, -, hk⟩ := hr ("[1]", 7) mem_cons_self
  obtain ⟨rfl, -⟩ : taken = 0 ∧ rows = coldRows := by simpa using hl
  cases hk

end Koldstore.Hydrate
