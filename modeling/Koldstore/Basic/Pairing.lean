import Mathlib

/-!
# Lists paired element by element

`List.Forall₂ R l m` pairs two lists.
-/

namespace Koldstore.Pairing

open List

variable {α β γ : Type*} {R : α → β → Prop} {l : List α} {m : List β}

theorem of_mapM {f : α → Option β} (h : l.mapM f = some m) :
    List.Forall₂ (fun a b ↦ f a = some b) l m := by
  induction l generalizing m with
  | nil =>
    obtain rfl : [] = m := by simpa using h
    exact List.Forall₂.nil
  | cons a l ih =>
    rw [mapM_cons] at h
    obtain ⟨b, hb, h⟩ := Option.bind_eq_some_iff.1 h
    obtain ⟨rest, hre, ⟨⟩⟩ := Option.bind_eq_some_iff.1 h
    exact List.Forall₂.cons hb (ih hre)

theorem exists_right (h : List.Forall₂ R l m) {a : α} (ha : a ∈ l) : ∃ b ∈ m, R a b := by
  obtain ⟨i, hi, rfl⟩ := getElem_of_mem ha
  have hi' : i < m.length := hi.trans_eq h.length_eq
  exact ⟨m[i], getElem_mem hi', h.get hi hi'⟩

theorem pairwise {S : α → α → Prop} {T : β → β → Prop}
    (hm : ∀ a b c d, R a c → R b d → S a b → T c d) (h : List.Forall₂ R l m) (hl : l.Pairwise S) :
    m.Pairwise T := by
  rw [pairwise_iff_get] at hl ⊢
  intro i j hij
  have hi : i.val < l.length := i.isLt.trans_eq h.length_eq.symm
  have hj : j.val < l.length := j.isLt.trans_eq h.length_eq.symm
  exact hm _ _ _ _ (h.get hi i.isLt) (h.get hj j.isLt) (hl ⟨i, hi⟩ ⟨j, hj⟩ hij)

theorem map_eq_map_iff {f : α → γ} {g : β → γ} :
    l.map f = m.map g ↔ List.Forall₂ (fun a b ↦ f a = g b) l m := by
  rw [← forall₂_eq_eq_eq, forall₂_map_left_iff, forall₂_map_right_iff]

end Koldstore.Pairing
