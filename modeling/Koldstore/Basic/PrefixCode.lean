import Mathlib

/-!
# Prefix codes

Words of which none begins another one are read off a text one by one.
-/

namespace Koldstore.PrefixCode

open List

variable {α β : Type*} {code : α → List β} {r s : List β} {l m : List α}

/-- A text of words followed by one that no word begins is read in one way only. -/
theorem flatMap_append_inj (hcode : ∀ a b, code a <+: code b → a = b)
    (hr : ∀ a, ¬code a <+: r) (hs : ∀ a, ¬code a <+: s)
    (h : l.flatMap code ++ r = m.flatMap code ++ s) : l = m ∧ r = s := by
  induction l generalizing m with
  | nil =>
    cases m with
    | nil => exact ⟨rfl, h⟩
    | cons b m =>
      rw [flatMap_cons, append_assoc] at h
      exact absurd ⟨_, h.symm⟩ (hr b)
  | cons a l ih =>
    rw [flatMap_cons, append_assoc] at h
    cases m with
    | nil => exact absurd ⟨_, h⟩ (hs a)
    | cons b m =>
      rw [flatMap_cons, append_assoc] at h
      obtain rfl : a = b := by
        rcases prefix_or_prefix_of_prefix (prefix_append (code a) _)
          (h ▸ prefix_append (code b) _) with hp | hp
        · exact hcode a b hp
        · exact (hcode b a hp).symm
      obtain ⟨rfl, rfl⟩ := ih (append_cancel_left h)
      exact ⟨rfl, rfl⟩

end Koldstore.PrefixCode
