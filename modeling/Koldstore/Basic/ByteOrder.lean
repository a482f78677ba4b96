import Mathlib

/-!
# Orders and bytes

An encoding is right if it carries one comparison over to another: `lexCmp (f a) (f b) = cmp a b`.
-/

namespace Koldstore.ByteOrder

open List

section Lex

variable {α : Type*} [LinearOrder α]

def lexCmp : List α → List α → Ordering
  | [], [] => .eq
  | [], _ :: _ => .lt
  | _ :: _, [] => .gt
  | a :: l, b :: m => (cmp a b).then (lexCmp l m)

theorem lexCmp_cons_cons (a b : α) (l m : List α) :
    lexCmp (a :: l) (b :: m) = (cmp a b).then (lexCmp l m) := rfl

@[simp] theorem lexCmp_self (l : List α) : lexCmp l l = .eq := by
  induction l with
  | nil => rfl
  | cons a l ih => rw [lexCmp_cons_cons, cmp_self_eq_eq, ih, Ordering.then]

theorem lexCmp_swap (l m : List α) : (lexCmp l m).swap = lexCmp m l := by
  induction l generalizing m with
  | nil => cases m <;> rfl
  | cons a l ih =>
    cases m with
    | nil => rfl
    | cons b m => rw [lexCmp_cons_cons, lexCmp_cons_cons, Ordering.swap_then, cmp_swap, ih]

theorem lexCmp_append_left (l m n : List α) : lexCmp (l ++ m) (l ++ n) = lexCmp m n := by
  induction l with
  | nil => rfl
  | cons a l ih =>
    rw [cons_append, cons_append, lexCmp_cons_cons, cmp_self_eq_eq, ih, Ordering.then]

theorem lexCmp_append {l m : List α} (h : l.length = m.length) (l' m' : List α) :
    lexCmp (l ++ l') (m ++ m') = (lexCmp l m).then (lexCmp l' m') := by
  induction l generalizing m with
  | nil =>
    obtain rfl := length_eq_zero_iff.1 h.symm
    rfl
  | cons a l ih =>
    obtain ⟨b, m, rfl⟩ := exists_cons_of_length_eq_add_one h.symm
    have hl : l.length = m.length := by simpa using h
    rw [cons_append, cons_append, lexCmp_cons_cons, ih hl, lexCmp_cons_cons]
    cases cmp a b <;> rfl

theorem compares_lexCmp (l m : List α) :
    @Ordering.Compares (List α) Preorder.toLT (lexCmp l m) l m := by
  induction l generalizing m with
  | nil =>
    cases m with
    | nil => rfl
    | cons b m => exact List.Lex.nil
  | cons a l ih =>
    cases m with
    | nil => exact List.Lex.nil
    | cons b m =>
      have hc := cmp_compares a b
      rw [lexCmp_cons_cons]
      revert hc
      cases cmp a b with
      | lt | gt => exact fun h ↦ List.Lex.rel h
      | eq =>
        rintro rfl
        have htl := ih m
        rw [Ordering.then]
        revert htl
        cases lexCmp l m with
        | lt | gt => exact fun h ↦ List.Lex.cons h
        | eq => exact fun h ↦ congrArg _ h

end Lex

/-! ### Numbers -/

instance neZero_256 : NeZero 256 := ⟨Nat.succ_ne_zero 255⟩

/-- The last `width` bytes of a number, the most significant first. -/
def bigEndian : ℕ → ℕ → List (Fin 256)
  | 0, _ => []
  | width + 1, n => Fin.ofNat 256 (n / 256 ^ width) :: bigEndian width (n % 256 ^ width)

def signedBigEndian (width : ℕ) (z : ℤ) : List (Fin 256) :=
  bigEndian width (z + 2 ^ (8 * width - 1)).toNat

theorem cmp_bigEndian {width m n : ℕ} (hm : m < 256 ^ width) (hn : n < 256 ^ width) :
    lexCmp (bigEndian width m) (bigEndian width n) = cmp m n := by
  induction width generalizing m n with
  | zero =>
    obtain ⟨rfl, rfl⟩ : m = 0 ∧ n = 0 := by simpa using And.intro hm hn
    rfl
  | succ width ih =>
    have hp : 0 < 256 ^ width := Nat.pow_pos (by norm_num)
    have hd : ∀ k, k < 256 ^ (width + 1) → k / 256 ^ width < 256 := fun k hk ↦
      Nat.div_lt_of_lt_mul (by rwa [pow_succ] at hk)
    have hh : cmp (Fin.ofNat 256 (m / 256 ^ width)) (Fin.ofNat 256 (n / 256 ^ width)) =
        cmp (m / 256 ^ width) (n / 256 ^ width) := by
      refine Ordering.Compares.cmp_eq ?_
      have hc := cmp_compares (m / 256 ^ width) (n / 256 ^ width)
      revert hc
      cases cmp (m / 256 ^ width) (n / 256 ^ width) <;>
        simp [Ordering.Compares, Fin.lt_def, Fin.ext_iff, Nat.mod_eq_of_lt (hd m hm),
          Nat.mod_eq_of_lt (hd n hn)]
    rw [bigEndian, bigEndian, lexCmp_cons_cons, hh, ih (Nat.mod_lt _ hp) (Nat.mod_lt _ hp)]
    have he := Nat.div_add_mod m (256 ^ width)
    have hneq := Nat.div_add_mod n (256 ^ width)
    rcases lt_trichotomy (m / 256 ^ width) (n / 256 ^ width) with h | h | h
    · have hlt : m < n := Nat.lt_of_div_lt_div h
      rw [h.cmp_eq_lt, hlt.cmp_eq_lt]
      rfl
    · rw [h.cmp_eq_eq, Ordering.then]
      rw [h] at he
      rcases lt_trichotomy (m % 256 ^ width) (n % 256 ^ width) with h' | h' | h'
      · rw [h'.cmp_eq_lt, LT.lt.cmp_eq_lt (show m < n by omega)]
      · rw [h'.cmp_eq_eq, Eq.cmp_eq_eq (show m = n by omega)]
      · rw [h'.cmp_eq_gt, LT.lt.cmp_eq_gt (show n < m by omega)]
    · have hlt : n < m := Nat.lt_of_div_lt_div h
      rw [h.cmp_eq_gt, hlt.cmp_eq_gt]
      rfl

theorem cmp_signedBigEndian {width : ℕ} {x y : ℤ} (hw : 0 < width)
    (hx : -2 ^ (8 * width - 1) ≤ x ∧ x < 2 ^ (8 * width - 1))
    (hy : -2 ^ (8 * width - 1) ≤ y ∧ y < 2 ^ (8 * width - 1)) :
    lexCmp (signedBigEndian width x) (signedBigEndian width y) = cmp x y := by
  have hp : (256 : ℕ) ^ width = 2 * 2 ^ (8 * width - 1) := by
    rw [← pow_succ', Nat.sub_add_cancel (by omega), pow_mul]
    norm_num
  have hc : ((2 ^ (8 * width - 1) : ℕ) : ℤ) = 2 ^ (8 * width - 1) := by push_cast; rfl
  rw [← hc] at hx hy
  have hf : ∀ z : ℤ, -((2 ^ (8 * width - 1) : ℕ) : ℤ) ≤ z ∧ z < ((2 ^ (8 * width - 1) : ℕ) : ℤ) →
      (z + 2 ^ (8 * width - 1)).toNat < 256 ^ width := by
    intro z hz
    rw [hp, ← hc]
    omega
  rw [signedBigEndian, signedBigEndian, cmp_bigEndian (hf x hx) (hf y hy), ← hc]
  rcases lt_trichotomy x y with h | rfl | h
  · rw [h.cmp_eq_lt, LT.lt.cmp_eq_lt (by omega)]
  · rw [cmp_self_eq_eq, cmp_self_eq_eq]
  · rw [h.cmp_eq_gt, LT.lt.cmp_eq_gt (by omega)]

end Koldstore.ByteOrder
