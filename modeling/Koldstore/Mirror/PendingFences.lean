import Mathlib

/-!
# Fences that are not committed yet

A read fence counts once all subtransactions around it have committed.
-/

namespace Koldstore

open List

/-- For a nesting level the highest LSN of the fences at that level. -/
abbrev PendingFences : Type := List (ℕ × ℕ)

namespace PendingFences

def raise (level lsn : ℕ) : PendingFences → PendingFences
  | [] => [(level, lsn)]
  | e :: es => if e.1 = level then (level, max e.2 lsn) :: es else e :: raise level lsn es

def note (level lsn : ℕ) (p : PendingFences) : PendingFences := p.raise level lsn

/-- The highest LSN at a level. -/
def highest (level : ℕ) (p : PendingFences) : WithBot ℕ :=
  ((p.filter fun e ↦ decide (e.1 = level)).map Prod.snd).maximum

def commitSubtransaction (level : ℕ) (p : PendingFences) : PendingFences :=
  if level ≤ 1 then p
  else
    let kept := p.filter fun e ↦ decide (e.1 ≠ level)
    match p.highest level with
    | some promoted => raise (level - 1) promoted kept
    | none => kept

def abortSubtransaction (level : ℕ) (p : PendingFences) : PendingFences :=
  p.filter fun e ↦ decide (e.1 < level)

def takeCommitted (p : PendingFences) : WithBot ℕ × PendingFences := ((p.map Prod.snd).maximum, [])

/-! ### Traces -/

/-- What happens in a transaction or subtransaction, up to its end. -/
inductive Trace
  | done
  | fence (lsn : ℕ) (rest : Trace)
  | sub (commits : Bool) (body rest : Trace)

namespace Trace

def run (level : ℕ) : Trace → PendingFences → PendingFences
  | done, p => p
  | fence lsn rest, p => rest.run level (p.note level lsn)
  | sub commits body rest, p =>
    let inner := body.run (level + 1) p
    rest.run level (if commits then inner.commitSubtransaction (level + 1)
      else inner.abortSubtransaction (level + 1))

/-- The fences all of whose enclosing subtransactions commit. -/
def surviving : Trace → List ℕ
  | done => []
  | fence lsn rest => lsn :: rest.surviving
  | sub commits body rest => (if commits then body.surviving else []) ++ rest.surviving

end Trace

/-- A whole transaction; an aborted or a prepared one only clears. -/
def transaction (p : PendingFences) (commits : Bool) (trace : Trace) : WithBot ℕ × PendingFences :=
  if commits then (trace.run 1 p).takeCommitted else (⊥, [])

/-! ### Levels -/

theorem maximum_append (l m : List ℕ) : (l ++ m).maximum = max l.maximum m.maximum := by
  induction l with
  | nil => exact (bot_sup_eq _).symm
  | cons x l ih => rw [cons_append, maximum_cons, maximum_cons, ih, max_assoc]

variable {p : PendingFences} {level l lsn : ℕ}

theorem highest_cons (e : ℕ × ℕ) : highest l (e :: p) =
    if e.1 = l then max (WithBot.some e.2) (p.highest l) else p.highest l := by
  by_cases h : e.1 = l <;> simp [highest, h, maximum_cons]

theorem highest_raise : (p.raise level lsn).highest l =
    if l = level then max (p.highest l) (WithBot.some lsn) else p.highest l := by
  induction p with
  | nil => by_cases h : level = l <;> simp [raise, highest, h, eq_comm]
  | cons e p ih =>
    by_cases he : e.1 = level
    · by_cases hl : l = level <;> simp_all [raise, highest_cons, eq_comm, max_right_comm]
    · rw [raise, if_neg he, highest_cons, highest_cons, ih]
      by_cases hl : e.1 = l
      · simp [← hl, he]
      · simp [hl]

theorem highest_filter (q : ℕ → Bool) : highest l (p.filter fun e ↦ q e.1) =
    if q l then p.highest l else ⊥ := by
  induction p with
  | nil => exact (ite_self _).symm
  | cons e p ih =>
    by_cases hl : e.1 = l
    · cases hq : q l <;> simp_all [highest_cons]
    · cases hq : q e.1 <;> simp_all [highest_cons]

theorem highest_commit (he : 1 ≤ level) : (p.commitSubtransaction (level + 1)).highest l =
      if l = level then max (p.highest l) (p.highest (level + 1))
      else if l = level + 1 then ⊥ else p.highest l := by
  have hkt := highest_filter (p := p) (l := l) fun l ↦ decide (l ≠ level + 1)
  rw [commitSubtransaction, if_neg (by omega)]
  cases hhi : p.highest (level + 1) with
  | bot =>
    dsimp only
    rw [hkt]
    by_cases hl : l = level + 1 <;> simp [hl]
  | coe lsn =>
    dsimp only
    rw [highest_raise, hkt, Nat.add_sub_cancel]
    by_cases hl : l = level <;> simp [hl]

/-- Only the level itself changes, as the levels above it have nothing before and after. -/
theorem highest_run (trace : Trace) (he : 1 ≤ level)
    (h : ∀ l, level < l → p.highest l = ⊥) (l : ℕ) : (trace.run level p).highest l =
      if l = level then max (p.highest l) trace.surviving.maximum else p.highest l := by
  induction trace generalizing level p l with
  | done => simp [Trace.run, Trace.surviving]
  | fence lsn rest ih =>
    have hn : ∀ l, level < l → (p.note level lsn).highest l = ⊥ := by
      intro l hl
      rw [note, highest_raise, if_neg hl.ne', h l hl]
    rw [Trace.run, ih he hn, note, highest_raise, Trace.surviving, maximum_cons]
    split_ifs
    · exact max_assoc _ _ _
    · rfl
  | sub commits body rest ihbody ih =>
    have hi := ihbody (p := p) (Nat.succ_pos level) fun l hl ↦ h l (by omega)
    have hab := h (level + 1) (Nat.lt_succ_self level)
    have ha : ∀ l, highest l (if commits then
        (body.run (level + 1) p).commitSubtransaction (level + 1)
        else (body.run (level + 1) p).abortSubtransaction (level + 1)) =
          if l = level then max (p.highest l) (if commits then body.surviving else []).maximum
          else p.highest l := by
      intro l
      cases commits with
      | true =>
        rw [if_pos rfl, highest_commit he, hi, hi, if_pos rfl, hab]
        by_cases hl : l = level
        · simp [hl]
        · by_cases hl' : l = level + 1 <;> simp [hl, hl', hab]
      | false =>
        rw [if_neg Bool.false_ne_true, abortSubtransaction,
          highest_filter fun l ↦ decide (l < level + 1), hi]
        by_cases hl : l < level + 1
        · simp [hl, hl.ne]
        · simp [hl, show l ≠ level by omega, h l (by omega)]
    rw [Trace.run, Trace.surviving,
      ih he fun l hl ↦ by rw [ha, if_neg hl.ne', h l hl], ha, maximum_append]
    by_cases hl : l = level
    · rw [if_pos hl, if_pos hl, if_pos hl, max_assoc]
    · rw [if_neg hl, if_neg hl, if_neg hl]

/-- **A commit takes the greatest surviving fence** of its own transaction, whatever the earlier
transactions did. -/
theorem takeCommitted_surviving (earlier : List (Bool × Trace)) (trace : Trace) :
    (transaction (earlier.foldl (fun p t ↦ (transaction p t.1 t.2).2) []) true trace).1 =
      trace.surviving.maximum := by
  have hc : earlier.foldl (fun p t ↦ (transaction p t.1 t.2).2) [] = [] := by
    induction earlier with
    | nil => rfl
    | cons t earlier ih =>
      rw [foldl_cons, transaction]
      split_ifs <;> exact ih
  have hr := highest_run (p := []) trace (Nat.le_refl 1) fun _ _ ↦ rfl
  have ha : (trace.run 1 []).filter (fun e ↦ decide (e.1 = 1)) = trace.run 1 [] := by
    refine filter_eq_self.2 fun e he ↦ decide_eq_true ?_
    by_contra hne
    have hnone : highest e.1 (trace.run 1 []) = ⊥ := (hr e.1).trans (if_neg hne)
    rw [highest, maximum_eq_bot, map_eq_nil_iff, filter_eq_nil_iff] at hnone
    exact hnone e he (decide_eq_true rfl)
  have ho := hr 1
  rw [highest, ha, if_pos rfl] at ho
  rw [hc, transaction, if_pos rfl, takeCommitted, ho]
  exact bot_sup_eq _

end PendingFences

end Koldstore
