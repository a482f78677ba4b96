import Mathlib

/-!
# Runs of a machine

`step s e` is `none` when event `e` cannot happen in state `s`.
-/

namespace Koldstore.Machine

open List

variable {S E : Type*} {step : S → E → Option S}

def exec (step : S → E → Option S) : S → List E → Option S
  | s, [] => some s
  | s, e :: es => (step s e).bind fun t ↦ exec step t es

/-- The states reached from `s` by steps that meet a condition. -/
inductive Reaches (step : S → E → Option S) (meets : S → E → Prop) (s : S) : S → Prop
  | refl : Reaches step meets s s
  | tail {t u : S} {e : E} (hreach : Reaches step meets s t) (hmeets : meets t e)
      (hstep : step t e = some u) : Reaches step meets s u

variable {meets : S → E → Prop} {s t : S}

/-- **The invariant rule.** What holds at the start and is kept by every step that meets the
condition holds in every state reached. -/
theorem Reaches.inv {P : S → Prop} (h : Reaches step meets s t) (hst : P s)
    (hkp : ∀ t e u, P t → meets t e → step t e = some u → P u) : P t := by
  induction h with
  | refl => exact hst
  | tail _ hmt hstep ih => exact hkp _ _ _ ih hmt hstep

theorem Reaches.head {u : S} {e : E} (hmt : meets s e) (hstep : step s e = some t)
    (h : Reaches step meets t u) : Reaches step meets s u := by
  induction h with
  | refl => exact .tail .refl hmt hstep
  | tail _ hmt' hstep' ih => exact .tail ih hmt' hstep'

def MeetsAll (step : S → E → Option S) (meets : S → E → Prop) : S → List E → Prop
  | _, [] => True
  | s, e :: es => meets s e ∧ match step s e with
      | none => True
      | some t => MeetsAll step meets t es

/-- Whether a schedule meets a decidable condition is found out by executing it. -/
instance MeetsAll.decidable [∀ s e, Decidable (meets s e)] :
    ∀ s es, Decidable (MeetsAll step meets s es)
  | _, [] => .isTrue trivial
  | s, e :: es =>
    have : Decidable (match step s e with
        | none => True
        | some t => MeetsAll step meets t es) :=
      match step s e with
      | none => .isTrue trivial
      | some t => MeetsAll.decidable t es
    inferInstanceAs (Decidable (_ ∧ _))

theorem reaches_of_exec {es : List E} (h : exec step s es = some t)
    (hmt : MeetsAll step meets s es) : Reaches step meets s t := by
  induction es generalizing s with
  | nil =>
    cases h
    exact .refl
  | cons e es ih =>
    obtain ⟨u, hstep, hre⟩ := Option.bind_eq_some_iff.mp h
    obtain ⟨hf, hl⟩ := hmt
    rw [hstep] at hl
    exact .head hf hstep (ih hre hl)

theorem exec_append {es es' : List E} (h : exec step s es = some t) :
    exec step s (es ++ es') = exec step t es' := by
  induction es generalizing s with
  | nil =>
    cases h
    rfl
  | cons e es ih =>
    obtain ⟨u, hstep, hre⟩ := Option.bind_eq_some_iff.mp h
    rw [cons_append, exec, hstep, Option.bind_some]
    exact ih hre

theorem getElem?_set_eq_some {α : Type*} {threads : List α} {i j : ℕ} {a b : α}
    (h : (threads.set i a)[j]? = some b) : (j = i ∧ b = a) ∨ threads[j]? = some b := by
  rw [getElem?_set] at h
  split at h
  next hsm =>
    split at h <;> cases h
    exact .inl ⟨hsm.symm, rfl⟩
  next => exact .inr h

theorem getElem?_concat_eq_some {α : Type*} {threads : List α} {j : ℕ} {a b : α}
    (h : (threads ++ [a])[j]? = some b) : (j = threads.length ∧ b = a) ∨ threads[j]? = some b := by
  rw [getElem?_append] at h
  split at h
  next => exact .inr h
  next hlt =>
    obtain ⟨hj, hg⟩ := List.getElem?_eq_some_iff.1 h
    refine .inl ⟨?_, ?_⟩
    · rw [length_singleton] at hj
      omega
    · exact (mem_singleton.1 (mem_of_getElem? h))

end Koldstore.Machine
