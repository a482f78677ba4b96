import Koldstore.Basic.Keyset
import Koldstore.Basic.SortedList

/-!
# Keeping the smallest rows

A loop that wants the `n` rows with the smallest keys may sort and cut what it has at any time.
-/

namespace Koldstore.Keyset

open List

variable {α κ : Type*} [LinearOrder κ]

/-- `ORDER BY key LIMIT n`. -/
def smallest (key : α → κ) (n : ℕ) (rows : List α) : List α := (ordered key rows).take n

variable {key : α → κ} {n : ℕ} {l m : List α}

/-! ### Sorting rows with distinct keys -/

theorem nodup_map_ordered (h : (l.map key).Nodup) : ((ordered key l).map key).Nodup :=
  ((perm_ordered key l).map key).nodup_iff.2 h

theorem increasingBy_ordered (h : (l.map key).Nodup) : (ordered key l).IncreasingBy key := by
  have hne : (ordered key l).Pairwise fun a b ↦ key a ≠ key b :=
    pairwise_map.1 (nodup_map_ordered h)
  exact ((pairwise_ordered key l).and hne).imp fun hab ↦ lt_of_le_of_ne hab.1 hab.2

theorem eq_of_perm_of_increasingBy (hl : l.IncreasingBy key) (hm : m.IncreasingBy key)
    (h : l.Perm m) : l = m :=
  h.eq_of_pairwise (fun _ _ _ _ hab hba ↦ absurd hab (lt_asymm hba)) hl hm

theorem ordered_eq_of_perm (h : l.Perm m) (hnd : (l.map key).Nodup) :
    ordered key l = ordered key m := by
  refine eq_of_perm_of_increasingBy (increasingBy_ordered hnd)
    (increasingBy_ordered ((h.map key).nodup_iff.1 hnd)) ?_
  exact (perm_ordered key l).trans (h.trans (perm_ordered key m).symm)

theorem ordered_eq_self (h : l.IncreasingBy key) : ordered key l = l :=
  List.Pairwise.insertionSort_eq (h.imp fun hab ↦ le_of_lt hab)

theorem ordered_append_of_lt (hnd : ((l ++ m).map key).Nodup)
    (h : ∀ a ∈ l, ∀ b ∈ m, key a < key b) :
    ordered key (l ++ m) = ordered key l ++ ordered key m := by
  obtain ⟨hl, hm, -⟩ := nodup_append.1 (map_append ▸ hnd)
  have hso : (ordered key l ++ ordered key m).IncreasingBy key :=
    pairwise_append.2 ⟨increasingBy_ordered hl, increasingBy_ordered hm,
      fun a ha b hb ↦ h a ((perm_ordered key l).mem_iff.1 ha) b ((perm_ordered key m).mem_iff.1 hb)⟩
  rw [← ordered_eq_self hso]
  refine ordered_eq_of_perm ?_ hnd
  exact (perm_ordered key l).symm.append (perm_ordered key m).symm

theorem increasingBy_after (h : (l.map key).Nodup) (cursor : Option κ) :
    (after key l cursor).IncreasingBy key :=
  (increasingBy_ordered h).sublist filter_sublist

theorem after_some_eq_ordered (h : (l.map key).Nodup) (c : κ) :
    after key l (some c) = ordered key (l.filter fun a ↦ decide (c < key a)) := by
  refine eq_of_perm_of_increasingBy (increasingBy_after h _)
    (increasingBy_ordered (h.sublist (filter_sublist.map key))) ?_
  exact ((perm_ordered key l).filter _).trans (perm_ordered key _).symm

/-! ### The smallest rows -/

theorem length_smallest : (smallest key n l).length = min n l.length := by
  rw [smallest, length_take, (perm_ordered key l).length_eq]

theorem smallest_subperm : (smallest key n l).Subperm l :=
  (take_sublist n _).subperm.trans (perm_ordered key l).subperm

theorem nodup_smallest_append (h : ((l ++ m).map key).Nodup) :
    ((smallest key n l ++ m).map key).Nodup := by
  have hp : ((ordered key l ++ m).map key).Perm ((l ++ m).map key) :=
    ((perm_ordered key l).append_right m).map key
  exact (hp.nodup_iff.2 h).sublist (((take_sublist n _).append_right m).map key)

theorem lt_of_mem_smallest {p : List α} (hp : p.Subperm l) (hl : n ≤ p.length) {k : κ}
    (hlt : ∀ a ∈ p, key a < k) {a : α} (ha : a ∈ smallest key n l) : key a < k := by
  by_contra hle
  rw [not_lt] at hle
  obtain ⟨i, hi, rfl⟩ := getElem_of_mem ha
  simp only [smallest, length_take, getElem_take] at hi hle
  -- rows below `k` are counted in `p`, and they can only stand in front of position `i`
  have hc : n ≤ (ordered key l).countP fun a ↦ key a < k := by
    have hall : p.countP (fun a ↦ key a < k) = p.length :=
      countP_eq_length.2 fun a ha ↦ by simpa using hlt a ha
    have hle := hp.countP_le fun a ↦ key a < k
    rw [(perm_ordered key l).countP_eq]
    omega
  have hdr : ((ordered key l).drop i).countP (fun a ↦ key a < k) = 0 := by
    rw [countP_eq_zero]
    intro b hb
    obtain ⟨j, hj, rfl⟩ := getElem_of_mem hb
    rw [getElem_drop, decide_eq_true_eq, not_lt]
    refine hle.trans ?_
    rcases Nat.eq_zero_or_pos j with rfl | hpos
    · rfl
    · exact pairwise_iff_getElem.1 (pairwise_ordered key l) i (i + j) _ _ (by omega)
  have htk := countP_le_length (p := fun a ↦ decide (key a < k))
    (l := (ordered key l).take i)
  rw [← take_append_drop i (ordered key l), countP_append, hdr] at hc
  rw [length_take] at htk
  omega

theorem smallest_append_of_lt {p : List α} (hnd : ((l ++ m).map key).Nodup)
    (hp : p.Subperm l) (hlen : n ≤ p.length) (hlt : ∀ a ∈ p, ∀ b ∈ m, key a < key b) :
    smallest key n (l ++ m) = smallest key n l := by
  have hl : (l.map key).Nodup := by
    rw [map_append, nodup_append] at hnd
    exact hnd.1
  have hperm : (smallest key n l ++ ((ordered key l).drop n ++ m)).Perm (l ++ m) := by
    rw [← List.append_assoc, smallest, take_append_drop]
    exact (perm_ordered key l).append_right m
  have hso : (smallest key n l).IncreasingBy key :=
    (increasingBy_ordered hl).sublist (take_sublist _ _)
  have hbel : ∀ a ∈ smallest key n l, ∀ b ∈ (ordered key l).drop n ++ m, key a < key b := by
    intro a ha b hb
    rcases mem_append.1 hb with hb | hb
    · have hs := increasingBy_ordered hl
      rw [← take_append_drop n (ordered key l), List.IncreasingBy, pairwise_append] at hs
      exact hs.2.2 a ha b hb
    · exact lt_of_mem_smallest hp hlen (fun a ha ↦ hlt a ha b hb) ha
  have hnd' := ((hperm.map key).nodup_iff).2 hnd
  rw [smallest, ← ordered_eq_of_perm hperm hnd', ordered_append_of_lt hnd' hbel,
    ordered_eq_self hso]
  have he : (smallest key n l).length = n := by
    have := hp.length_le
    rw [length_smallest]
    omega
  rw [take_append_of_le_length he.ge, take_of_length_le he.le]

theorem smallest_smallest_append (hnd : ((l ++ m).map key).Nodup) :
    smallest key n (smallest key n l ++ m) = smallest key n (l ++ m) := by
  have hl : (l.map key).Nodup := by
    rw [map_append, nodup_append] at hnd
    exact hnd.1
  have hp : (smallest key n l ++ m ++ (ordered key l).drop n).Perm (l ++ m) := by
    rw [List.append_assoc]
    refine (perm_append_comm.append_left _).trans ?_
    rw [← List.append_assoc, smallest, take_append_drop]
    exact (perm_ordered key l).append_right m
  have hnd' := ((hp.map key).nodup_iff).2 hnd
  have hwh : smallest key n (l ++ m) =
      smallest key n (smallest key n l ++ m ++ (ordered key l).drop n) :=
    congrArg (List.take n) (ordered_eq_of_perm hp hnd').symm
  rw [hwh]
  rcases Nat.lt_or_ge l.length n with hsh | hlo
  · -- nothing was cut off
    have hn : (ordered key l).drop n = [] := by
      rw [drop_eq_nil_iff, (perm_ordered key l).length_eq]
      omega
    rw [hn, append_nil]
  · have hs := increasingBy_ordered hl
    rw [← take_append_drop n (ordered key l), List.IncreasingBy, pairwise_append] at hs
    refine (smallest_append_of_lt hnd' (sublist_append_left _ m).subperm ?_ hs.2.2).symm
    show n ≤ (smallest key n l).length
    rw [length_smallest, min_eq_left hlo]

/-! ### The largest rows -/

/-- The `n` rows with the largest keys, in key order. -/
def largest (key : α → κ) (n : ℕ) (rows : List α) : List α :=
  (ordered key rows).drop (rows.length - n)

theorem length_largest : (largest key n l).length = min n l.length := by
  rw [largest, length_drop, (perm_ordered key l).length_eq]
  omega

theorem increasingBy_largest (h : (l.map key).Nodup) : (largest key n l).IncreasingBy key :=
  (increasingBy_ordered h).sublist (drop_sublist _ _)

theorem largest_eq_of_perm (h : l.Perm m) (hnd : (l.map key).Nodup) :
    largest key n l = largest key n m := by
  rw [largest, largest, ordered_eq_of_perm h hnd, h.length_eq]

theorem mem_largest_iff (hnd : (l.map key).Nodup) {a : α} :
    a ∈ largest key n l ↔ a ∈ l ∧ (l.countP fun b ↦ key a < key b) < n := by
  have hso := increasingBy_ordered hnd
  have hl := (perm_ordered key l).length_eq
  -- behind position `i` stand exactly the rows that are larger
  have hc : ∀ i (hi : i < (ordered key l).length),
      (l.countP fun b ↦ key ((ordered key l)[i]) < key b) = l.length - (i + 1) := by
    intro i hi
    have he : ((ordered key l).take (i + 1)).countP
        (fun b ↦ key ((ordered key l)[i]) < key b) = 0 := by
      rw [countP_eq_zero]
      intro b hb
      obtain ⟨j, hj, rfl⟩ := getElem_of_mem hb
      rw [length_take] at hj
      rw [getElem_take, decide_eq_true_eq, not_lt]
      rcases Nat.lt_or_ge j i with hji | hji
      · exact (pairwise_iff_getElem.1 hso j i _ hi hji).le
      · obtain rfl : j = i := by omega
        exact le_rfl
    have hf : ((ordered key l).drop (i + 1)).countP
        (fun b ↦ key ((ordered key l)[i]) < key b) = ((ordered key l).drop (i + 1)).length := by
      rw [countP_eq_length]
      intro b hb
      obtain ⟨j, hj, rfl⟩ := getElem_of_mem hb
      rw [getElem_drop, decide_eq_true_eq]
      exact pairwise_iff_getElem.1 hso i (i + 1 + j) hi _ (by omega)
    have hs : ∀ p : α → Bool, (ordered key l).countP p =
        ((ordered key l).take (i + 1)).countP p + ((ordered key l).drop (i + 1)).countP p :=
      fun p ↦ by rw [← countP_append, take_append_drop]
    rw [← (perm_ordered key l).countP_eq, hs, he, hf, length_drop, hl, Nat.zero_add]
  constructor
  · intro ha
    obtain ⟨j, hj, rfl⟩ := getElem_of_mem ha
    have hmem := mem_of_mem_drop ha
    simp only [largest, length_drop, getElem_drop] at hj hmem ⊢
    refine ⟨(perm_ordered key l).mem_iff.1 hmem, ?_⟩
    rw [hc]
    omega
  · rintro ⟨ha, hlt⟩
    obtain ⟨i, hi, rfl⟩ := getElem_of_mem ((perm_ordered key l).mem_iff.2 ha)
    rw [hc i hi] at hlt
    refine mem_iff_getElem.2 ⟨i - (l.length - n), ?_, ?_⟩
    · rw [length_largest]
      omega
    · simp only [largest, getElem_drop]
      congr 1
      omega

theorem largest_eq_largest_append_iff (hnd : ((l ++ m).map key).Nodup) :
    largest key n l = largest key n (l ++ m) ↔
      ∀ b ∈ m, n ≤ (l ++ m).countP fun a ↦ key b < key a := by
  have hs := nodup_append.1 (map_append ▸ hnd)
  constructor
  · intro heq b hb
    by_contra hlt
    have hmem : b ∈ largest key n (l ++ m) :=
      (mem_largest_iff hnd).2 ⟨mem_append_right _ hb, not_le.1 hlt⟩
    rw [← heq, mem_largest_iff hs.1] at hmem
    exact hs.2.2 _ (mem_map_of_mem hmem.1) _ (mem_map_of_mem hb) rfl
  · intro h
    have hsub : ∀ a ∈ largest key n (l ++ m), a ∈ largest key n l := by
      intro a ha
      obtain ⟨hmem, hlt⟩ := (mem_largest_iff hnd).1 ha
      rw [mem_largest_iff hs.1]
      rcases mem_append.1 hmem with hmem | hmem
      · rw [countP_append] at hlt
        exact ⟨hmem, by omega⟩
      · exact absurd (h a hmem) (not_le.2 hlt)
    have hi := increasingBy_largest (n := n) hnd
    have hne : (largest key n (l ++ m)).Nodup :=
      List.Pairwise.imp (fun hlt heq ↦ absurd (congrArg key heq) hlt.ne) hi
    have hu : (largest key n (l ++ m)).Subperm (largest key n l) := subperm_of_subset hne hsub
    refine (eq_of_perm_of_increasingBy hi (increasingBy_largest hs.1)
      (hu.perm_of_length_le ?_)).symm
    rw [length_largest, length_largest, length_append]
    omega

end Koldstore.Keyset
