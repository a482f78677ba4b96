import Koldstore.Basic.Except

/-!
# How many rows a policy flushes

A row limit keeps the newest rows hot and flushes whole batches of the others.
-/

namespace Koldstore

namespace FlushPolicy

inductive Kind (A P : Type*)
  | rowLimit (hotRowLimit : ℕ)
  | olderThan (age : A)
  | filter (predicate : P) (olderThan : Option A)

end FlushPolicy

structure FlushPolicy (A P : Type*) where
  kind : FlushPolicy.Kind A P
  minFlushRows : ℕ
  maxRowsPerFile : ℕ
  maxRowsPerFlush : ℕ

def flushRowsForExcess (excess minFlushRows : ℕ) : ℕ :=
  if excess < minFlushRows then 0
  else
    let remainder := excess % minFlushRows
    excess / minFlushRows * minFlushRows + if minFlushRows / 2 ≤ remainder then remainder else 0

namespace FlushPolicy

variable {A P : Type*}

/-- The part of `try_from_value` on the flush policy. -/
def check (newAge : A → Except String Unit) (validate : P → Except String Unit)
    (policy : FlushPolicy A P) : Except String Unit :=
  if policy.minFlushRows = 0 ∨ policy.maxRowsPerFile = 0 ∨ policy.maxRowsPerFlush = 0 then
    .error "flush policy row bounds must be greater than zero"
  else
    match policy.kind with
    | .rowLimit 0 => .error "hot_row_limit must be greater than zero"
    | .rowLimit (_ + 1) => .ok ()
    | .olderThan age => newAge age
    | .filter predicate _ => validate predicate

/-- `i64::try_from(rows).unwrap_or(0)`. -/
def toI64 (rows : ℕ) : ℤ := if rows < 2 ^ 63 then rows else 0

def flushRowCount (pending : ℤ) (policy : FlushPolicy A P) : ℤ :=
  match policy.kind with
  | .rowLimit limit =>
    if pending.toNat ≤ limit then 0
    else
      let excess := pending.toNat - limit
      let selected := min (flushRowsForExcess excess policy.minFlushRows) policy.maxRowsPerFlush
      let fileMin := max policy.maxRowsPerFile 1
      if selected = 0 then 0
      else if selected < fileMin then
        if fileMin ≤ excess then toI64 (min fileMin policy.maxRowsPerFlush) else 0
      else toI64 selected
  | .olderThan _ | .filter _ _ => 0

/-- The pending rows after a number of passes. -/
def pendingAfter (policy : FlushPolicy A P) : ℕ → ℤ → ℤ
  | 0, pending => pending
  | n + 1, pending => policy.pendingAfter n (pending - policy.flushRowCount pending)

structure Within (policy : FlushPolicy A P) (limit : ℕ) (pending rows : ℤ) : Prop where
  pos : 0 < rows
  le_excess : limit + rows ≤ pending
  le_flush : rows ≤ policy.maxRowsPerFlush
  file : policy.maxRowsPerFile ≤ rows ∨
    rows = policy.maxRowsPerFlush ∧ policy.maxRowsPerFlush < policy.maxRowsPerFile

theorem flushRowsForExcess_le (excess minFlushRows : ℕ) :
    flushRowsForExcess excess minFlushRows ≤ excess := by
  have hd := Nat.div_add_mod' excess minFlushRows
  simp only [flushRowsForExcess]
  split_ifs <;> omega

variable {newAge : A → Except String Unit} {validate : P → Except String Unit}
  {policy : FlushPolicy A P} {limit : ℕ} {pending : ℤ}

theorem flushRowCount_within (hc : policy.check newAge validate = .ok ())
    (hkd : policy.kind = .rowLimit limit) (hpe : pending < 2 ^ 63) :
    policy.flushRowCount pending = 0 ∨
      policy.Within limit pending (policy.flushRowCount pending) := by
  obtain ⟨hp, -⟩ := Except.ite_error_eq_ok_iff.1 hc
  have hle := flushRowsForExcess_le (pending.toNat - limit) policy.minFlushRows
  have htoI64 : ∀ rows : ℕ, rows ≤ pending.toNat → toI64 rows = rows := fun rows hrs ↦
    if_pos (by omega)
  rw [flushRowCount, hkd]
  dsimp only
  split_ifs
  · exact .inl rfl
  · exact .inl rfl
  · refine .inr ?_
    rw [htoI64 _ (by omega)]
    exact ⟨by omega, by omega, by omega, by omega⟩
  · exact .inl rfl
  · refine .inr ?_
    rw [htoI64 _ (by omega)]
    exact ⟨by omega, by omega, by omega, by omega⟩

/-- **Flushing by a row limit**: a pass respects all bounds, and passes end with the limit kept. -/
theorem flushRowCount_spec (hchk : policy.check newAge validate = .ok ())
    (hkd : policy.kind = .rowLimit limit) (hpe : pending < 2 ^ 63) :
    (policy.flushRowCount pending = 0 ∨
      policy.Within limit pending (policy.flushRowCount pending)) ∧
    (∀ n, min pending limit ≤ policy.pendingAfter n pending) ∧
    ∃ n, policy.flushRowCount (policy.pendingAfter n pending) = 0 := by
  refine ⟨flushRowCount_within hchk hkd hpe, fun n ↦ ?_, ?_⟩
  · induction n generalizing pending with
    | zero => exact min_le_left _ _
    | succ n ih =>
      have hre : pending - policy.flushRowCount pending < 2 ^ 63 ∧
          min pending limit ≤ min (pending - policy.flushRowCount pending) limit := by
        rcases flushRowCount_within hchk hkd hpe with hz | hrs
        · omega
        · have := hrs.pos
          have := hrs.le_excess
          omega
      exact hre.2.trans (ih hre.1)
  · -- every pass that flushes takes a row
    induction hm : pending.toNat using Nat.strong_induction_on generalizing pending with
    | _ m ih =>
      rcases flushRowCount_within hchk hkd hpe with hz | hrs
      · exact ⟨0, hz⟩
      · have := hrs.pos
        have := hrs.le_excess
        obtain ⟨n, hn⟩ := ih (pending - policy.flushRowCount pending).toNat (by omega)
          (by omega) rfl
        exact ⟨n + 1, hn⟩

theorem flushRowCount_spec_hundred :
    let policy : FlushPolicy Unit Unit := ⟨.rowLimit 10, 30, 50, 70⟩
    (policy.flushRowCount 100 = 0 ∨ policy.Within 10 100 (policy.flushRowCount 100)) ∧
    (∀ n, min 100 10 ≤ policy.pendingAfter n 100) ∧
    ∃ n, policy.flushRowCount (policy.pendingAfter n 100) = 0 :=
  flushRowCount_spec (show check (fun _ ↦ .ok ()) (fun _ ↦ .ok ()) _ = _ from rfl) rfl (by decide)

end FlushPolicy

end Koldstore
