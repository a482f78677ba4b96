import Mathlib

/-!
# Keyset pagination

`ORDER BY key LIMIT n`, and from the second page on `key > last`.
-/

namespace Koldstore.Keyset

open List

variable {α κ : Type*} [LinearOrder κ] (key : α → κ)

/-- `ORDER BY key`. -/
def ordered (rows : List α) : List α := rows.insertionSort fun a b ↦ key a ≤ key b

def after (rows : List α) (cursor : Option κ) : List α :=
  (ordered key rows).filter fun a ↦ cursor.all fun c ↦ decide (c < key a)

/-- One page of at most `n` rows. -/
def page (n : ℕ) (rows : List α) (cursor : Option κ) : List α := (after key rows cursor).take n

def readPages (n : ℕ) (rows : List α) : ℕ → Option κ → List α
  | 0, _ => []
  | fuel + 1, cursor =>
    match (page key n rows cursor).getLast? with
    | none => []
    | some last =>
      if (page key n rows cursor).length < n then page key n rows cursor
      else page key n rows cursor ++ readPages n rows fuel (some (key last))

def NoSplitTies (n : ℕ) (rows : List α) : Prop :=
  ∀ i (h : i + 1 < rows.length), n ∣ i + 1 → key (rows[i]) < key (rows[i + 1])

/-! ### The rows after a cursor -/

theorem perm_ordered (rows : List α) : (ordered key rows).Perm rows := perm_insertionSort _ _

theorem pairwise_ordered (rows : List α) : (ordered key rows).Pairwise fun a b ↦ key a ≤ key b :=
  pairwise_insertionSort _ _

theorem pairwise_after (rows : List α) (cursor : Option κ) :
    (after key rows cursor).Pairwise fun a b ↦ key a ≤ key b :=
  (pairwise_ordered key rows).filter _

variable {key} {rows : List α} {cursor : Option κ} {n : ℕ}

variable {a : α}

theorem mem_after : a ∈ after key rows cursor ↔ a ∈ rows ∧ ∀ c, cursor = some c → c < key a := by
  rw [after]
  rw [mem_filter, (perm_ordered key rows).mem_iff]
  cases cursor <;> simp

@[simp] theorem after_none (rows : List α) : after key rows none = ordered key rows := by
  simp [after]

theorem after_some_of_lt {c : κ} (h : ∀ a ∈ rows, c < key a) :
    after key rows (some c) = ordered key rows := by
  refine filter_eq_self.2 fun a ha ↦ ?_
  simpa using h a ((perm_ordered key rows).mem_iff.1 ha)

theorem after_some_eq_filter {c : κ} (h : ∀ d, cursor = some d → d ≤ c) :
    after key rows (some c) = (after key rows cursor).filter fun a ↦ decide (c < key a) := by
  unfold after
  rw [filter_filter]
  refine filter_congr fun a _ ↦ ?_
  cases cursor with
  | none => simp
  | some d =>
    have hd := h d rfl
    by_cases hc : c < key a
    · simp [hc, hd.trans_lt hc]
    · simp [hc]

theorem countP_lt_getElem_le {i : ℕ} (hi : i < (ordered key rows).length) :
    rows.countP (fun a ↦ decide (key a < key (ordered key rows)[i])) ≤ i := by
  rw [← (perm_ordered key rows).countP_eq]
  have hso := pairwise_ordered key rows
  rw [← take_append_drop i (ordered key rows), pairwise_append] at hso
  have hdr : ((ordered key rows).drop i).countP
      (fun a ↦ decide (key a < key (ordered key rows)[i])) = 0 := by
    rw [countP_eq_zero]
    intro a ha
    rw [drop_eq_getElem_cons hi] at ha
    have hle := hso.2.1
    rw [drop_eq_getElem_cons hi, pairwise_cons] at hle
    rcases mem_cons.1 ha with rfl | ha
    · simp
    · simpa using hle.1 a ha
  calc (ordered key rows).countP (fun a ↦ decide (key a < key (ordered key rows)[i]))
      = ((ordered key rows).take i).countP _ + ((ordered key rows).drop i).countP _ := by
        rw [← countP_append, take_append_drop]
    _ = ((ordered key rows).take i).countP _ := by rw [hdr, Nat.add_zero]
    _ ≤ ((ordered key rows).take i).length := countP_le_length
    _ ≤ i := length_take_le _ _

/-! ### One page -/

theorem mem_of_mem_page (h : a ∈ page key n rows cursor) : a ∈ rows :=
  (mem_after.1 (mem_of_mem_take h)).1

theorem page_eq_after_of_length_lt (h : (page key n rows cursor).length < n) :
    page key n rows cursor = after key rows cursor := by
  refine take_of_length_le ?_
  by_contra hlong
  rw [page, length_take, min_eq_left (by omega)] at h
  exact lt_irrefl n h

variable {last : α}

theorem mem_page_or_after (hmem : a ∈ rows) (hc : ∀ c, cursor = some c → c < key a)
    (hi : ∀ b ∈ rows, key b = key a → b = a) (hl : (page key n rows cursor).getLast? = some last) :
    a ∈ page key n rows cursor ∨ key last < key a := by
  have ha : a ∈ after key rows cursor := mem_after.2 ⟨hmem, hc⟩
  have hs : a ∈ (after key rows cursor).take n ++ (after key rows cursor).drop n := by
    rwa [take_append_drop]
  rcases mem_append.1 hs with htk | hdr
  · exact .inl htk
  · have hmemLast : last ∈ page key n rows cursor := mem_of_getLast? hl
    have hso := pairwise_after key rows cursor
    rw [← take_append_drop n (after key rows cursor), pairwise_append] at hso
    rcases (hso.2.2 last hmemLast a hdr).lt_or_eq with hlt | heq
    · exact .inr hlt
    · obtain rfl := hi last (mem_of_mem_page hmemLast) heq
      exact .inl hmemLast

/-! ### All pages of a fixed table -/

theorem noSplitTies_of_length_le (h : rows.length ≤ n) : NoSplitTies key n rows := by
  intro i hi hd
  have := Nat.le_of_dvd (Nat.succ_pos i) hd
  omega

theorem noSplitTies_iff (hn : 0 < n) (hlen : n < rows.length) : NoSplitTies key n rows ↔
      key (rows[n - 1]) < key (rows[n]) ∧ NoSplitTies key n (rows.drop n) := by
  constructor
  · intro h
    refine ⟨?_, fun i hi hd ↦ ?_⟩
    · have hf := h (n - 1) (by omega) ⟨1, by omega⟩
      simpa [Nat.sub_add_cancel hn] using hf
    · rw [length_drop] at hi
      have hl := h (n + i) (by omega) ((Nat.dvd_add_right (Nat.dvd_refl n)).2 hd)
      simpa [getElem_drop, Nat.add_assoc] using hl
  · rintro ⟨hf, hre⟩ i hi hd
    obtain ⟨m, hm⟩ := hd
    match m with
    | 0 => omega
    | 1 =>
      obtain rfl : i = n - 1 := by omega
      simpa [Nat.sub_add_cancel hn] using hf
    | m + 2 =>
      have hm' : i + 1 = n + n * (m + 1) := by rw [hm, Nat.mul_succ n (m + 1), Nat.add_comm]
      have hp : n ≤ n * (m + 1) := Nat.le_mul_of_pos_right n (Nat.succ_pos m)
      have hl := hre (i - n) (by rw [length_drop]; omega)
        ⟨m + 1, by omega⟩
      simpa [getElem_drop, show n + (i - n) = i by omega,
        show n + (i - n + 1) = i + 1 by omega] using hl

theorem noSplitTies_congr {rows' : List α} (h : rows.map key = rows'.map key) :
    NoSplitTies key n rows → NoSplitTies key n rows' := by
  intro ht i hi hd
  have hl : rows.length = rows'.length := by simpa using congrArg List.length h
  have hg : ∀ j (hj : j < rows'.length), key (rows[j]) = key (rows'[j]) := fun j hj ↦ by
    have hj' : j < rows.length := hl ▸ hj
    have hg? := congrArg (·[j]?) h
    simpa [getElem?_eq_getElem hj, getElem?_eq_getElem hj'] using hg?
  have hlt := ht i (by omega) hd
  rwa [hg i (by omega), hg (i + 1) hi] at hlt

theorem noSplitTies_of_nodup (n : ℕ) (h : (rows.map key).Nodup) :
    NoSplitTies key n (ordered key rows) := by
  intro i hi _
  have hle := pairwise_iff_getElem.1 (pairwise_ordered key rows) i (i + 1)
    (by omega) hi (Nat.lt_succ_self i)
  refine lt_of_le_of_ne hle fun heq ↦ ?_
  have hnd : ((ordered key rows).map key).Nodup := ((perm_ordered key rows).map key).nodup_iff.2 h
  have hi' : i + 1 < ((ordered key rows).map key).length := by simpa using hi
  have hlt := pairwise_iff_getElem.1 hnd i (i + 1) (Nat.lt_of_succ_lt hi') hi'
    (Nat.lt_succ_self i)
  exact hlt (by simpa using heq)

theorem after_last_eq (hl : (page key n rows cursor).getLast? = some last) :
    after key rows (some (key last)) =
      ((after key rows cursor).drop n).filter fun a ↦ decide (key last < key a) := by
  have hmem : last ∈ page key n rows cursor := mem_of_getLast? hl
  have hc := (mem_after.1 (mem_of_mem_take hmem)).2
  rw [after_some_eq_filter fun d hd ↦ (hc d hd).le]
  conv_lhs => rw [← take_append_drop n (after key rows cursor), filter_append]
  -- nothing of the page itself comes after its last row
  have htk : (page key n rows cursor).filter (fun a ↦ decide (key last < key a)) = [] := by
    refine filter_eq_nil_iff.2 fun a ha ↦ ?_
    obtain ⟨init, hin⟩ := getLast?_eq_some_iff.1 hl
    have hso : (init ++ [last]).Pairwise fun a b ↦ key a ≤ key b :=
      hin ▸ (pairwise_after key rows cursor).sublist (take_sublist _ _)
    rw [hin] at ha
    rcases mem_append.1 ha with ha | ha
    · simpa using (pairwise_append.1 hso).2.2 a ha last (mem_singleton_self _)
    · simp [mem_singleton.1 ha]
  rw [show (after key rows cursor).take n = page key n rows cursor from rfl, htk, nil_append]

theorem after_last_eq_drop_iff (hn : 0 < n) (hl : (page key n rows cursor).getLast? = some last)
    (hlen : n < (after key rows cursor).length) :
    after key rows (some (key last)) = (after key rows cursor).drop n ↔
      key ((after key rows cursor)[n - 1]) < key ((after key rows cursor)[n]) := by
  have hlastKey : last = (after key rows cursor)[n - 1] := by
    have hg : (page key n rows cursor)[n - 1]? = some last := by
      rw [← hl, getLast?_eq_getElem?]
      simp [page, min_eq_left hlen.le]
    rw [page, getElem?_take_of_lt (by omega), getElem?_eq_getElem (by omega)] at hg
    exact (Option.some.inj hg).symm
  rw [after_last_eq hl, filter_eq_self, ← hlastKey]
  have hdr := drop_eq_getElem_cons hlen
  have hso : ((after key rows cursor).drop n).Pairwise fun a b ↦ key a ≤ key b :=
    (pairwise_after key rows cursor).sublist (drop_sublist _ _)
  rw [hdr] at hso ⊢
  constructor
  · intro h
    simpa using h _ mem_cons_self
  · intro h a ha
    rcases mem_cons.1 ha with rfl | ha
    · simpa using h
    · simpa using h.trans_le ((pairwise_cons.1 hso).1 a ha)

variable {fuel : ℕ}

theorem readPages_spec (hn : 0 < n) (rows : List α) (hf : (after key rows cursor).length < fuel) :
    (readPages key n rows fuel cursor).Sublist (after key rows cursor) ∧
      (readPages key n rows fuel cursor = after key rows cursor ↔
        NoSplitTies key n (after key rows cursor)) := by
  induction fuel generalizing cursor with
  | zero => omega
  | succ fuel ih =>
    cases hl : (page key n rows cursor).getLast? with
    | none =>
      have hpg : page key n rows cursor = [] := getLast?_eq_none_iff.1 hl
      have ha : after key rows cursor = [] :=
        (page_eq_after_of_length_lt (by simpa [hpg] using hn)).symm.trans hpg
      rw [readPages, hl, ha]
      exact ⟨List.Sublist.refl _, iff_of_true rfl (noSplitTies_of_length_le (Nat.zero_le n))⟩
    | some last =>
      rw [readPages, hl]
      simp only
      split
      · -- a short page is all there is
        rename_i hsh
        have hpg := page_eq_after_of_length_lt hsh
        rw [hpg] at hsh ⊢
        exact ⟨List.Sublist.refl _, iff_of_true rfl (noSplitTies_of_length_le hsh.le)⟩
      · rename_i hfu
        rw [not_lt] at hfu
        have hlen : n ≤ (after key rows cursor).length := hfu.trans (take_sublist _ _).length_le
        have hre := after_last_eq hl
        have hsubDrop : (after key rows (some (key last))).Sublist
            ((after key rows cursor).drop n) := hre ▸ filter_sublist
        have hf' : (after key rows (some (key last))).length < fuel := by
          have := hsubDrop.length_le
          rw [length_drop] at this
          omega
        obtain ⟨hsub, hi⟩ := ih hf'
        have hs := take_append_drop n (after key rows cursor)
        refine ⟨?_, ?_⟩
        · rw [← hs]
          exact (List.Sublist.refl _).append (hsub.trans hsubDrop)
        · have hc : page key n rows cursor ++ readPages key n rows fuel (some (key last)) =
              after key rows cursor ↔
                readPages key n rows fuel (some (key last)) = (after key rows cursor).drop n := by
            conv_lhs => rw [← hs]
            exact append_right_inj _
          rw [hc]
          rcases hlen.eq_or_lt with heq | hlt
          · have hnil : (after key rows cursor).drop n = [] := by simp [heq]
            rw [hnil] at hsubDrop ⊢
            rw [sublist_nil.1 hsubDrop] at hsub
            exact iff_of_true (sublist_nil.1 hsub) (noSplitTies_of_length_le heq.ge)
          · rw [noSplitTies_iff hn hlt, ← after_last_eq_drop_iff hn hl hlt]
            constructor
            · intro hrd
              have hall : after key rows (some (key last)) = (after key rows cursor).drop n :=
                hsubDrop.eq_of_length_le (hrd ▸ hsub.length_le)
              exact ⟨hall, hall ▸ hi.1 (hrd.trans hall.symm)⟩
            · rintro ⟨hall, ht⟩
              rw [← hall] at ht ⊢
              exact hi.2 ht

theorem readPages_subperm (hn : 0 < n) (hc : after key rows cursor = ordered key rows)
    (hf : rows.length < fuel) : (readPages key n rows fuel cursor).Subperm rows := by
  have hl : (ordered key rows).length = rows.length := (perm_ordered key rows).length_eq
  have hs := (readPages_spec hn rows (hc ▸ hl ▸ hf)).1
  rw [hc] at hs
  exact hs.subperm.trans (perm_ordered key rows).subperm

theorem readPages_perm_iff (hn : 0 < n)
    (hc : after key rows cursor = ordered key rows) (hf : rows.length < fuel) :
    (readPages key n rows fuel cursor).Perm rows ↔ NoSplitTies key n (ordered key rows) := by
  have hl : (ordered key rows).length = rows.length := (perm_ordered key rows).length_eq
  obtain ⟨hs, hi⟩ := readPages_spec hn rows (hc ▸ hl ▸ hf)
  rw [hc] at hs hi
  rw [← hi]
  constructor
  · intro hp
    exact hs.eq_of_length (hp.length_eq.trans hl.symm)
  · intro heq
    rw [heq]
    exact perm_ordered key rows

end Koldstore.Keyset
