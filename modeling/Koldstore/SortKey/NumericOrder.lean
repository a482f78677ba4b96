import Koldstore.Basic.Except
import Koldstore.Cell.Decimal
import Koldstore.SortKey.Encode

/-!
# The order of numeric keys

A sign, an exponent and the significant digits, complemented below zero.
-/

namespace Koldstore.SortKey

open List

open ByteOrder

/-! ### Digits after the decimal point -/

variable (l : List ℕ)

theorem fraction_rdropWhile : fraction (l.rdropWhile (· = 0)) = fraction l := by
  induction l using List.reverseRecOn with
  | nil => rfl
  | append_singleton l digit ih =>
    rw [rdropWhile_concat]
    split_ifs with hz
    · rw [of_decide_eq_true hz, ih]
      exact (fraction_append_zeros l 1).symm
    · rfl

theorem fraction_dropWhile :
    fraction l = fraction (l.dropWhile (· = 0)) / 10 ^ (l.takeWhile (· = 0)).length := by
  induction l with
  | nil => simp [fraction]
  | cons digit l ih =>
    by_cases hz : digit = 0
    · rw [fraction, ih]
      simp [hz, pow_succ, div_div]
    · simp [hz]

theorem fraction_nonneg : 0 ≤ fraction l := by
  induction l with
  | nil => exact le_rfl
  | cons digit l ih =>
    have hd : (0 : ℚ) ≤ digit := Nat.cast_nonneg digit
    rw [fraction]
    linarith

theorem fraction_lt_one {l : List ℕ} (h : ∀ digit ∈ l, digit ≤ 9) : fraction l < 1 := by
  induction l with
  | nil => exact one_pos
  | cons digit l ih =>
    obtain ⟨hd, hl⟩ := forall_mem_cons.1 h
    have hd' : (digit : ℚ) ≤ 9 := by exact_mod_cast hd
    have hre := ih hl
    rw [fraction]
    linarith

theorem fraction_pos {digit : ℕ} {l : List ℕ} (h : (digit :: l).getLast? ≠ some 0) :
    0 < fraction (digit :: l) := by
  induction l generalizing digit with
  | nil =>
    have hd : 0 < (digit : ℚ) := by exact_mod_cast Nat.pos_of_ne_zero fun h' ↦ h (by simp [h'])
    rw [fraction, fraction]
    linarith
  | cons next l ih =>
    have hd : (0 : ℚ) ≤ digit := Nat.cast_nonneg digit
    have hre : 0 < fraction (next :: l) := ih (by simpa using h)
    rw [fraction]
    linarith

theorem cmp_fraction_cons {x y : ℕ} {l m : List ℕ} (hl : ∀ digit ∈ x :: l, digit ≤ 9)
    (hm : ∀ digit ∈ y :: m, digit ≤ 9) :
    cmp (fraction (x :: l)) (fraction (y :: m)) =
      (cmp x y).then (cmp (fraction l) (fraction m)) := by
  have hlt : ∀ {x y : ℕ} {l m : List ℕ}, (∀ digit ∈ l, digit ≤ 9) → x < y →
      fraction (x :: l) < fraction (y :: m) := by
    intro x y l m hl hxy
    have hxy' : (x : ℚ) + 1 ≤ y := by exact_mod_cast hxy
    have hl' := fraction_lt_one hl
    have hm' := fraction_nonneg m
    rw [fraction, fraction]
    linarith
  rcases lt_trichotomy x y with h | rfl | h
  · rw [h.cmp_eq_lt, (hlt (forall_mem_cons.1 hl).2 h).cmp_eq_lt]
    rfl
  · have ho : StrictMono fun q : ℚ ↦ ((x : ℚ) + q) / 10 := fun p q h ↦ by
      simp only
      linarith
    rw [cmp_self_eq_eq, Ordering.then]
    exact ho.cmp_map_eq (fraction l) (fraction m)
  · rw [h.cmp_eq_gt, (hlt (forall_mem_cons.1 hm).2 h).cmp_eq_gt]
    rfl

/-! ### The bytes of a magnitude -/

/-- A number above zero, `0.d₁d₂… × 10 ^ exponent` without a zero at either end of the digits. -/
structure Magnitude where
  exponent : ℤ
  first : ℕ
  rest : List ℕ
  exponent_mem : -2 ^ 31 ≤ exponent ∧ exponent < 2 ^ 31
  digits_le : ∀ digit ∈ first :: rest, digit ≤ 9
  first_ne : first ≠ 0
  last_ne : (first :: rest).getLast? ≠ some 0

namespace Magnitude

def value (m : Magnitude) : ℚ := fraction (m.first :: m.rest) * 10 ^ m.exponent

def body (m : Magnitude) : Bytes := numericBody m.exponent (m.first :: m.rest)

theorem value_pos (m : Magnitude) : 0 < m.value := mul_pos (fraction_pos m.last_ne) (by positivity)

theorem value_lt_of_exponent_lt {m m' : Magnitude} (h : m.exponent < m'.exponent) :
    m.value < m'.value := by
  have hb := fraction_lt_one m.digits_le
  have hab : 1 / 10 ≤ fraction (m'.first :: m'.rest) := by
    have hf : (1 : ℚ) ≤ m'.first := by exact_mod_cast Nat.one_le_iff_ne_zero.2 m'.first_ne
    have hre := fraction_nonneg m'.rest
    rw [fraction]
    linarith
  have hp : (10 : ℚ) ^ m.exponent ≤ 10 ^ (m'.exponent - 1) :=
    zpow_le_zpow_right₀ (by norm_num) (by omega)
  calc m.value < 1 * 10 ^ m.exponent := mul_lt_mul_of_pos_right hb (by positivity)
    _ ≤ 1 * 10 ^ (m'.exponent - 1) := by rwa [one_mul, one_mul]
    _ = 1 / 10 * 10 ^ m'.exponent := by
      rw [zpow_sub_one₀ (by norm_num), one_mul, one_div, mul_comm]
    _ ≤ m'.value := mul_le_mul_of_nonneg_right hab (by positivity)

theorem cmp_value (m m' : Magnitude) : cmp m.value m'.value = (cmp m.exponent m'.exponent).then
      (cmp (fraction (m.first :: m.rest)) (fraction (m'.first :: m'.rest))) := by
  rcases lt_trichotomy m.exponent m'.exponent with h | h | h
  · rw [h.cmp_eq_lt, (value_lt_of_exponent_lt h).cmp_eq_lt]
    rfl
  · rw [value, value, h, cmp_self_eq_eq, Ordering.then]
    exact (strictMono_mul_right_of_pos (by positivity)).cmp_map_eq _ _
  · rw [h.cmp_eq_gt, (value_lt_of_exponent_lt h).cmp_eq_gt]
    rfl

end Magnitude

def complement (negative : Bool) (byte : Fin 256) : Fin 256 := if negative then 255 - byte else byte

def reverse (negative : Bool) (o : Ordering) : Ordering := if negative then o.swap else o

theorem reverse_then (negative : Bool) (o p : Ordering) :
    reverse negative (o.then p) = (reverse negative o).then (reverse negative p) := by
  cases negative <;> cases o <;> rfl

theorem cmp_complement (negative : Bool) (x y : Fin 256) :
    cmp (complement negative x) (complement negative y) = reverse negative (cmp x y) := by
  cases negative with
  | false => rfl
  | true =>
    rw [reverse, if_pos rfl, cmp_swap]
    have ha : StrictAnti (complement true) := by
      intro x y h
      simp only [complement, if_true]
      omega
    exact ha.cmp_map_eq x y

theorem lexCmp_complement (negative : Bool) {l m : Bytes} (h : l.length = m.length) :
    lexCmp (l.map (complement negative)) (m.map (complement negative)) =
      reverse negative (lexCmp l m) := by
  induction l generalizing m with
  | nil =>
    obtain rfl := length_eq_zero_iff.1 h.symm
    cases negative <;> rfl
  | cons x l ih =>
    obtain ⟨y, m, rfl⟩ := exists_cons_of_length_eq_add_one h.symm
    rw [map_cons, map_cons, lexCmp_cons_cons, lexCmp_cons_cons, cmp_complement,
      reverse_then, ih (by simpa using h)]

def digitByte (digit : ℕ) : Fin 256 := Fin.ofNat 256 (digit + 1)

theorem cmp_digitByte : ∀ x ≤ 9, ∀ y ≤ 9, cmp (digitByte x) (digitByte y) = cmp x y := by
  decide

theorem lexCmp_digits (negative : Bool) {l m : List ℕ} (hl : ∀ digit ∈ l, digit ≤ 9)
    (hm : ∀ digit ∈ m, digit ≤ 9) (hl' : l.getLast? ≠ some 0) (hm' : m.getLast? ≠ some 0) :
    lexCmp ((l.map digitByte ++ [0]).map (complement negative))
        ((m.map digitByte ++ [0]).map (complement negative)) =
      reverse negative (cmp (fraction l) (fraction m)) := by
  have hz : ∀ digit ≤ 9, cmp 0 (digitByte digit) = .lt := by decide
  induction l generalizing m with
  | nil =>
    cases m with
    | nil => cases negative <;> rfl
    | cons y m =>
      rw [fraction, (fraction_pos hm').cmp_eq_lt, map_cons, cons_append, map_cons, map_nil,
        nil_append, map_cons, lexCmp_cons_cons, cmp_complement, hz y (hm y mem_cons_self)]
      cases negative <;> rfl
  | cons x l ih =>
    cases m with
    | nil =>
      have hx : cmp (digitByte x) 0 = .gt := by
        rw [← cmp_swap, hz x (hl x mem_cons_self), Ordering.swap]
      rw [fraction.eq_1, (fraction_pos hl').cmp_eq_gt, map_cons, cons_append, map_cons, map_nil,
        nil_append, map_cons, lexCmp_cons_cons, cmp_complement, hx]
      cases negative <;> rfl
    | cons y m =>
      obtain ⟨hx, hl₁⟩ := forall_mem_cons.1 hl
      obtain ⟨hy, hm₁⟩ := forall_mem_cons.1 hm
      have ha : ∀ {z : ℕ} {k : List ℕ}, (z :: k).getLast? ≠ some 0 → k.getLast? ≠ some 0 := by
        intro z k h
        cases k with
        | nil => simp
        | cons w k => simpa using h
      rw [cmp_fraction_cons hl hm, reverse_then, ← ih hl₁ hm₁ (ha hl') (ha hm'),
        ← cmp_digitByte x hx y hy, ← cmp_complement]
      rfl

theorem Magnitude.lexCmp_body (negative : Bool) (m m' : Magnitude) :
    lexCmp (m.body.map (complement negative)) (m'.body.map (complement negative)) =
      reverse negative (cmp m.value m'.value) := by
  have hl : ∀ e e' : ℤ, (signedBigEndian 4 e).length = (signedBigEndian 4 e').length :=
    fun _ _ ↦ rfl
  have hb : ∀ m : Magnitude, m.body.map (complement negative) =
      (signedBigEndian 4 m.exponent).map (complement negative) ++
        ((m.first :: m.rest).map digitByte ++ [0]).map (complement negative) := by
    intro m
    rw [body, numericBody, List.append_assoc, map_append]
    rfl
  rw [hb, hb, lexCmp_append (by rw [length_map, length_map, hl]),
    lexCmp_complement negative (hl _ _),
    cmp_signedBigEndian (by decide) m.exponent_mem m'.exponent_mem, cmp_value, reverse_then]
  exact congrArg _ (lexCmp_digits negative m.digits_le m'.digits_le m.last_ne m'.last_ne)

/-! ### The numbers -/

/-- The numbers of PostgreSQL in their order: `-Infinity`, the rationals, `Infinity`, `NaN`. -/
abbrev Number : Type := WithBot (WithTop (WithTop ℚ))

def Number.ofRat (q : ℚ) : Number := ((q : WithTop ℚ) : WithTop (WithTop ℚ))

theorem Number.strictMono_ofRat : StrictMono Number.ofRat := fun p q h ↦ by
  simpa [Number.ofRat] using h

/-- The number a text is read as. -/
def numericValue (text : String) : Number :=
  let trimmed := trim text.toList
  if trimmed = "NaN".toList then ⊤
  else if trimmed = "Infinity".toList ∨ trimmed = "+Infinity".toList then
    ((⊤ : WithTop ℚ) : WithTop (WithTop ℚ))
  else if trimmed = "-Infinity".toList then ⊥
  else
    let unsigned := stripSign trimmed
    let intPart := unsigned.takeWhile (· ≠ '.')
    let fracPart := (unsigned.dropWhile (· ≠ '.')).drop 1
    let decimal := fraction ((intPart ++ fracPart).map fun c ↦ c.toNat - '0'.toNat) *
      10 ^ intPart.length
    Number.ofRat (if trimmed.head? = some '-' then -decimal else decimal)

/-- What a key stands for. -/
inductive Numeric
  | negInfinity
  | negative (m : Magnitude)
  | zero
  | positive (m : Magnitude)
  | infinity
  | nan

namespace Numeric

def rank : Numeric → Fin 256
  | negInfinity => 0x00
  | negative _ => 0x10
  | zero => 0x20
  | positive _ => 0x30
  | infinity => 0x40
  | nan => 0x50

def body : Numeric → Bytes
  | negative m => m.body.map (complement true)
  | positive m => m.body
  | _ => []

def value : Numeric → Number
  | negInfinity => ⊥
  | negative m => .ofRat (-m.value)
  | zero => .ofRat 0
  | positive m => .ofRat m.value
  | infinity => ((⊤ : WithTop ℚ) : WithTop (WithTop ℚ))
  | nan => ⊤

theorem value_lt_of_rank_lt {v w : Numeric} (h : v.rank < w.rank) : v.value < w.value := by
  have hn : ∀ m : Magnitude, -m.value < 0 := fun m ↦ neg_lt_zero.2 m.value_pos
  cases v <;> cases w <;> simp only [rank] at h <;>
    first
    | exact absurd h (by decide)
    | exact WithBot.bot_lt_coe _
    | exact Number.strictMono_ofRat (hn _)
    | exact Number.strictMono_ofRat (Magnitude.value_pos _)
    | exact Number.strictMono_ofRat ((hn _).trans (Magnitude.value_pos _))
    | exact WithBot.coe_lt_coe.2 (WithTop.coe_lt_coe.2 (WithTop.coe_lt_top _))
    | exact WithBot.coe_lt_coe.2 (WithTop.coe_lt_top _)

theorem lexCmp_eq_cmp_value (v w : Numeric) :
    lexCmp (v.rank :: v.body) (w.rank :: w.body) = cmp v.value w.value := by
  rw [lexCmp_cons_cons]
  rcases lt_trichotomy v.rank w.rank with h | h | h
  · rw [h.cmp_eq_lt, (value_lt_of_rank_lt h).cmp_eq_lt]
    rfl
  · rw [h, cmp_self_eq_eq, Ordering.then]
    cases v <;> cases w <;> cases h
    case negative.negative.refl m m' =>
      have ha : StrictAnti fun q : ℚ ↦ -q := fun p q h ↦ neg_lt_neg h
      rw [body, body, Magnitude.lexCmp_body, value, value, Number.strictMono_ofRat.cmp_map_eq,
        reverse, if_pos rfl, cmp_swap]
      exact (ha.cmp_map_eq _ _).symm
    case positive.positive.refl m m' =>
      have hb := Magnitude.lexCmp_body false m m'
      rw [show complement false = id from rfl, map_id, map_id] at hb
      rw [body, body, hb, value, value, Number.strictMono_ofRat.cmp_map_eq]
      rfl
    all_goals exact (cmp_self_eq_eq _).symm
  · rw [h.cmp_eq_gt, (value_lt_of_rank_lt h).cmp_eq_gt]
    rfl

end Numeric

/-! ### The texts -/

theorem exists_magnitude {digits : List ℕ} {length : ℕ} (hle : ∀ digit ∈ digits, digit ≤ 9)
    (hz : (digits.takeWhile (· = 0)).length ≠ digits.length) (hlen : length ≤ i32Max)
    (he : (digits.takeWhile (· = 0)).length ≤ i32Max) :
    ∃ m : Magnitude, m.body = numericBody (length - (digits.takeWhile (· = 0)).length)
        (significantDigits digits) ∧ m.value = fraction digits * 10 ^ length := by
  have hp : (10 : ℚ) ≠ 0 := by norm_num
  have hs : significantDigits digits ≠ [] := by
    rw [significantDigits, Ne, rdropWhile_eq_nil_iff, ← dropWhile_eq_nil_iff,
      dropWhile_idempotent, dropWhile_eq_nil_iff, ← takeWhile_eq_self_iff]
    exact fun h ↦ hz (congrArg List.length h)
  obtain ⟨first, rest, hc⟩ := exists_cons_of_ne_nil hs
  obtain ⟨zeros, ha⟩ : significantDigits digits <+: digits.dropWhile (· = 0) :=
    rdropWhile_prefix _ _
  have hf := head?_dropWhile_not (· = 0) digits
  rw [← ha, hc, cons_append, head?_cons] at hf
  have hl : (first :: rest).getLast? ≠ some 0 := by
    intro h
    rw [← hc, getLast?_eq_some_getLast hs] at h
    exact rdropWhile_last_not _ _ hs (decide_eq_true (Option.some.inj h))
  refine ⟨{
    exponent := length - (digits.takeWhile (· = 0)).length
    first
    rest
    exponent_mem := by rw [i32Max] at hlen he; omega
    digits_le := fun digit hd ↦ hle digit ?_
    first_ne := of_decide_eq_false hf
    last_ne := hl }, by rw [Magnitude.body, hc], ?_⟩
  · rw [← hc] at hd
    exact (dropWhile_suffix _).subset (ha ▸ mem_append_left _ hd)
  · have hr : fraction (first :: rest) = fraction (digits.dropWhile (· = 0)) := by
      rw [← hc, significantDigits, fraction_rdropWhile]
    rw [Magnitude.value, hr, fraction_dropWhile digits, zpow_sub₀ hp, zpow_natCast,
      zpow_natCast, div_mul_eq_mul_div, mul_div_assoc]

theorem digit_le {c : Char} (h : c.isDigit = true) : c.toNat - '0'.toNat ≤ 9 := by
  have hle : c.val.toNat ≤ 57 := by
    simp only [Char.isDigit, Bool.and_eq_true, decide_eq_true_eq] at h
    exact h.2
  exact Nat.sub_le_sub_right hle 48

theorem exists_numeric {text : String} {key : Bytes} (h : encodeNumericKey text = .ok key) :
    ∃ v : Numeric, key = v.rank :: v.body ∧ numericValue text = v.value := by
  unfold encodeNumericKey at h
  unfold numericValue
  generalize trim text.toList = trimmed at h ⊢
  by_cases ha : trimmed = "NaN".toList
  · rw [if_pos ha] at h ⊢
    exact ⟨.nan, (Except.ok.inj h).symm, rfl⟩
  by_cases hi : trimmed = "Infinity".toList ∨ trimmed = "+Infinity".toList
  · rw [if_neg ha, if_pos hi] at h ⊢
    exact ⟨.infinity, (Except.ok.inj h).symm, rfl⟩
  by_cases hnegInfinity : trimmed = "-Infinity".toList
  · rw [if_neg ha, if_neg hi, if_pos hnegInfinity] at h ⊢
    exact ⟨.negInfinity, (Except.ok.inj h).symm, rfl⟩
  rw [if_neg ha, if_neg hi, if_neg hnegInfinity] at h ⊢
  simp only at h ⊢
  generalize (stripSign trimmed).takeWhile (· ≠ '.') = intPart at h ⊢
  generalize ((stripSign trimmed).dropWhile (· ≠ '.')).drop 1 = fracPart at h ⊢
  obtain ⟨hval, h⟩ := Except.ite_error_eq_ok_iff.1 h
  have hle : ∀ digit ∈ (intPart ++ fracPart).map (fun c ↦ c.toNat - '0'.toNat), digit ≤ 9 := by
    intro digit hd
    obtain ⟨c, hc, rfl⟩ := mem_map.1 hd
    exact digit_le (all_eq_true.1 (not_not.1 (not_or.1 hval).2) c hc)
  generalize (intPart ++ fracPart).map (fun c ↦ c.toNat - '0'.toNat) = digits at h hle ⊢
  split_ifs at h with hz hr hs
  · refine ⟨.zero, (Except.ok.inj h).symm, ?_⟩
    have hp : digits.takeWhile (· = 0) <+: digits := takeWhile_prefix _
    have hn : digits.dropWhile (· = 0) = [] :=
      dropWhile_eq_nil_iff.2 (takeWhile_eq_self_iff.1 (hp.eq_of_length hz))
    have hv : fraction digits = 0 := by rw [fraction_dropWhile, hn, fraction, zero_div]
    rw [hv, zero_mul, neg_zero, ite_self]
    rfl
  · obtain ⟨hl, he⟩ := not_or.1 hr
    obtain ⟨m, hb, hv⟩ := exists_magnitude hle hz (not_lt.1 hl) (not_lt.1 he)
    refine ⟨.negative m, ?_, ?_⟩
    · rw [← Except.ok.inj h, ← hb]
      rfl
    · rw [if_pos hs, ← hv]
      rfl
  · obtain ⟨hl, he⟩ := not_or.1 hr
    obtain ⟨m, hb, hv⟩ := exists_magnitude hle hz (not_lt.1 hl) (not_lt.1 he)
    refine ⟨.positive m, ?_, ?_⟩
    · rw [← Except.ok.inj h, ← hb]
      rfl
    · rw [if_neg hs, ← hv]
      rfl

/-- **Numeric keys are ordered as the numbers**, and equal exactly for equal numbers. -/
theorem encodeNumericKey_order {a b : String} {keyA keyB : Bytes}
    (ha : encodeNumericKey a = .ok keyA) (hb : encodeNumericKey b = .ok keyB) :
    lexCmp keyA keyB = cmp (numericValue a) (numericValue b) ∧
      (keyA = keyB ↔ numericValue a = numericValue b) := by
  obtain ⟨v, rfl, hv⟩ := exists_numeric ha
  obtain ⟨w, rfl, hw⟩ := exists_numeric hb
  have hc := Numeric.lexCmp_eq_cmp_value v w
  rw [hv, hw]
  exact ⟨hc, (compares_lexCmp _ _).eq_eq.symm.trans (hc ▸ cmp_eq_eq_iff _ _)⟩

theorem encodeNumericKey_order_decimals :
    ∃ a b, encodeNumericKey "-12.5" = .ok a ∧ encodeNumericKey "+1.00" = .ok b ∧
      lexCmp a b = cmp (numericValue "-12.5") (numericValue "+1.00") := by
  have ha : encodeNumericKey "-12.5" = .ok [0x10, 127, 255, 255, 253, 253, 252, 249, 255] := by
    decide +kernel
  have hb : encodeNumericKey "+1.00" = .ok [0x30, 128, 0, 0, 1, 2, 0] := by decide +kernel
  exact ⟨_, _, ha, hb, (encodeNumericKey_order ha hb).1⟩

end Koldstore.SortKey
