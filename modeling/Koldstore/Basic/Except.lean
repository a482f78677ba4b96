import Mathlib

/-!
# Inverting successful computations

A fallible step function is a chain of `Except.bind` and `Except.map`.
-/

namespace Except

variable {ε α β γ δ : Type*} {x : Except ε α}

variable {b : β}

@[simp] theorem bind_eq_ok_iff {f : α → Except ε β} :
    x.bind f = .ok b ↔ ∃ a, x = .ok a ∧ f a = .ok b := by
  cases x <;> simp [Except.bind]

variable {f : α → β}

@[simp] theorem map_eq_ok_iff : x.map f = .ok b ↔ ∃ a, x = .ok a ∧ f a = b := by
  cases x <;> simp [Except.map]

theorem exists_of_bind_append_eq_ok {x : Except ε (List α × β)} {f : β → Except ε (List α × β)}
    {out : List α} (h : (x.bind fun r ↦ (f r.2).map fun r' ↦ (r.1 ++ r'.1, r'.2)) = .ok (out, b)) :
    ∃ out₁ b₁ out₂, x = .ok (out₁, b₁) ∧ f b₁ = .ok (out₂, b) ∧ out₁ ++ out₂ = out := by
  obtain ⟨⟨out₁, b₁⟩, hx, hre⟩ := bind_eq_ok_iff.1 h
  obtain ⟨⟨out₂, b₂⟩, hf, heq⟩ := map_eq_ok_iff.1 hre
  obtain ⟨ho, rfl⟩ := Prod.mk.inj heq
  exact ⟨out₁, b₁, out₂, hx, hf, ho⟩

theorem toOption_map : (x.map f).toOption = x.toOption.map f := by
  cases x <;> rfl

theorem toOption_eq_some_iff {a : α} : x.toOption = some a ↔ x = .ok a := by
  cases x <;> simp [Except.toOption]

theorem ite_error_eq_ok_iff {c : Prop} [Decidable c] {e : ε} {a : α} :
    (if c then .error e else x) = .ok a ↔ ¬c ∧ x = .ok a := by
  by_cases h : c <;> simp [h]

theorem map_bind_congr {y : Except ε α} {g h : α → Except ε γ} {k : γ → δ}
    (hxy : x.map f = y.map f) (hgh : ∀ a b, f a = f b → (g a).map k = (h b).map k) :
    (x.bind g).map k = (y.bind h).map k := by
  cases x with
  | error e =>
    cases y with
    | error e' =>
      simp only [Except.map, error.injEq] at hxy
      simp [Except.bind, Except.map, hxy]
    | ok b => simp [Except.map] at hxy
  | ok a =>
    cases y with
    | error e' => simp [Except.map] at hxy
    | ok b => exact hgh a b (by simpa [Except.map] using hxy)

section Perm

def PermEq (x y : Except ε (List α)) : Prop :=
  match x, y with
  | .ok a, .ok b => a.Perm b
  | .error e, .error e' => e = e'
  | _, _ => False

variable {x y : Except ε (List α)}

theorem PermEq.of_eq (h : x = y) : x.PermEq y := by
  subst h
  cases x with
  | error e => rfl
  | ok a => exact List.Perm.refl a

theorem PermEq.exists_right (h : x.PermEq y) {a : List α} (hx : x = .ok a) :
    ∃ b, y = .ok b ∧ a.Perm b := by
  subst hx
  cases y with
  | error e => exact h.elim
  | ok b => exact ⟨b, rfl, h⟩

theorem PermEq.exists_left (h : x.PermEq y) {b : List α} (hy : y = .ok b) :
    ∃ a, x = .ok a ∧ a.Perm b := by
  subst hy
  cases x with
  | error e => exact h.elim
  | ok a => exact ⟨a, rfl, h⟩

end Perm

end Except
