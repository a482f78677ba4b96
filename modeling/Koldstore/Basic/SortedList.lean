import Mathlib

/-!
# Lists that increase along a key

Logs, feeds and pages are lists with strictly increasing positions.
-/

namespace List

variable {α β : Type*}

section FlatMap

theorem flatMap_filter_eq_flatMap_iff {f : α → List β} {p : α → Bool} {l : List α} :
    (l.filter p).flatMap f = l.flatMap f ↔ ∀ a ∈ l, p a = false → f a = [] := by
  constructor
  · induction l with
    | nil => simp
    | cons a l ih =>
      intro h
      have hl : ((l.filter p).flatMap f).length ≤ (l.flatMap f).length :=
        (filter_sublist.flatMap f).length_le
      by_cases hp : p a = true
      · simp only [hp, filter_cons_of_pos, flatMap_cons, append_cancel_left_eq] at h
        simpa [hp] using ih h
      · simp only [hp, Bool.false_eq_true, not_false_eq_true, filter_cons_of_neg, flatMap_cons] at h
        have hn : f a = [] := by
          rw [← length_eq_zero_iff]
          have := congrArg length h
          rw [length_append] at this
          omega
        rw [hn, nil_append] at h
        simpa [hn] using ih h
  · intro h
    induction l with
    | nil => rfl
    | cons a l ih =>
      rw [forall_mem_cons] at h
      by_cases hp : p a = true
      · simp [hp, ih h.2]
      · simp [hp, ih h.2, h.1 (by simpa using hp)]

end FlatMap

variable [LinearOrder β] {f : α → β} {l : List α}

def IncreasingBy (f : α → β) (l : List α) : Prop := l.Pairwise fun a b ↦ f a < f b

variable (h : l.IncreasingBy f)
include h

theorem IncreasingBy.sublist {l' : List α} (hl : l'.Sublist l) : l'.IncreasingBy f :=
  Pairwise.sublist hl h

theorem IncreasingBy.filter_or {p q : α → Bool} (hpq : ∀ a ∈ l, ∀ b ∈ l, p a → q b → f a < f b) :
    l.filter (fun a ↦ p a || q a) = l.filter p ++ l.filter q := by
  induction l with
  | nil => rfl
  | cons a l ih =>
    rw [IncreasingBy, pairwise_cons] at h
    have ih := ih h.2 fun x hx y hy ↦ hpq x (mem_cons_of_mem a hx) y (mem_cons_of_mem a hy)
    by_cases hp : p a = true
    · have hq : q a = false := by
        by_contra hq
        exact lt_irrefl _ (hpq a mem_cons_self a mem_cons_self hp (by simpa using hq))
      simp [hp, hq, ih]
    · by_cases hq : q a = true
      · -- nothing behind `a` satisfies `p`, or it would come before `a`
        have hn : l.filter p = [] := by
          rw [filter_eq_nil_iff]
          intro x hx hpx
          exact lt_asymm (h.1 x hx) (hpq x (mem_cons_of_mem a hx) a mem_cons_self hpx hq)
        simp [hp, hq, ih, hn]
      · simp [hp, hq, ih]

theorem IncreasingBy.le_getLast {a b : α} (ha : a ∈ l) (hb : l.getLast? = some b) : f a ≤ f b := by
  obtain ⟨l', rfl⟩ := getLast?_eq_some_iff.1 hb
  rcases mem_append.1 ha with ha | ha
  · exact le_of_lt (pairwise_append.1 h |>.2.2 a ha b (by simp))
  · rw [mem_singleton.1 ha]

theorem IncreasingBy.filter_lt_last_take {n : ℕ} {u : α} (hu : (l.take n).getLast? = some u) :
    l.filter (fun a ↦ decide (f u < f a)) = l.drop n := by
  have hs := h
  rw [← take_append_drop n l, IncreasingBy, pairwise_append] at hs
  have htk : (l.take n).filter (fun a ↦ decide (f u < f a)) = [] :=
    filter_eq_nil_iff.2 fun a ha ↦ by
      simpa using IncreasingBy.le_getLast hs.1 ha hu
  have hdr : (l.drop n).filter (fun a ↦ decide (f u < f a)) = l.drop n :=
    filter_eq_self.2 fun a ha ↦ by
      simpa using hs.2.2 u (mem_of_getLast? hu) a ha
  have hwh := filter_append (p := fun a ↦ decide (f u < f a)) (l.take n) (l.drop n)
  rwa [take_append_drop, htk, hdr, nil_append] at hwh

theorem IncreasingBy.filter_take_eq {p : α → Bool} {n : ℕ} {u : α}
    (hu : ((l.take n).filter p).getLast? = some u) :
    (l.take n).filter p = l.filter fun a ↦ p a && decide (f a ≤ f u) := by
  have hmem : u ∈ l.take n := (mem_filter.1 (mem_of_getLast? hu)).1
  have hs := h
  rw [← take_append_drop n l, IncreasingBy, pairwise_append] at hs
  have hdr : (l.drop n).filter (fun a ↦ p a && decide (f a ≤ f u)) = [] := by
    rw [filter_eq_nil_iff]
    intro a ha hpa
    have hle : f a ≤ f u := by simpa using (Bool.and_eq_true_iff.1 hpa).2
    exact absurd (hs.2.2 u hmem a ha) (not_lt.2 hle)
  have hwh : l.filter (fun a ↦ p a && decide (f a ≤ f u)) =
      (l.take n).filter fun a ↦ p a && decide (f a ≤ f u) := by
    rw [← append_nil (filter _ (l.take n)), ← hdr, ← filter_append, take_append_drop]
  rw [hwh]
  refine filter_congr fun a ha ↦ ?_
  by_cases hp : p a = true
  · have hle : f a ≤ f u := (h.sublist (filter_sublist.trans (take_sublist n l))).le_getLast
        (mem_filter.2 ⟨ha, hp⟩) hu
    simp [hp, hle]
  · simp [hp]

omit h

end List
