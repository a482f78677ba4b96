import Koldstore.Parquet.PkProbe

/-!
# Plain decimals of floats

A float is printed with `{:e}`, and the point is then moved by its exponent.
-/

namespace Koldstore.PlainDecimal

open List Decimal

def digitChars (digits : List (Fin 10)) : List Char := digits.map fun d ↦ Nat.digitChar d.val

/-- What `{:e}` prints for a finite float. -/
structure ExpForm where
  negative : Bool
  lead : Fin 10
  fraction : List (Fin 10)
  exponent : ℤ
  lead_ne : (∃ d ∈ fraction, d ≠ 0) → lead ≠ 0
  finite : -324 ≤ exponent ∧ exponent ≤ 308

namespace ExpForm

variable (f : ExpForm)

def mantissaChars : List Char := Nat.digitChar f.lead.val :: fractionChars f.fraction

def chars : List Char := (if f.negative then ['-'] else []) ++ f.mantissaChars ++
    'e' :: (PkProbe.intText f.exponent).toList

def value : ℚ :=
  (if f.negative then -1 else 1) * (f.lead.val + fractionValue f.fraction) * 10 ^ f.exponent

end ExpForm

def plainBody (digits : List Char) (point : ℤ) : List Char :=
  if point ≤ 0 then '0' :: '.' :: (replicate (-point).toNat '0' ++ digits)
  else if digits.length ≤ point then digits ++ replicate (point - digits.length).toNat '0'
  else digits.take point.toNat ++ '.' :: digits.drop point.toNat

def plainDecimalFromExpForm (expForm : List Char) : List Char :=
  let rest := expForm.dropWhile (· ≠ 'e')
  let exponent := (PkProbe.parseI64 (if rest = [] then "0" else String.ofList rest.tail)).getD 0
  let signed := expForm.takeWhile (· ≠ 'e')
  let negative := decide (signed.head? = some '-')
  let mantissa := if negative then signed.tail else signed
  let digits := mantissa.filter Char.isDigit
  if digits.all (· = '0') then ['0']
  else
    let body := plainBody digits ((mantissa.takeWhile (· ≠ '.')).length + exponent)
    if negative then '-' :: body else body

/-! ### Digits -/

def number (ds : List (Fin 10)) : ℕ := Nat.ofDigits 10 (ds.map Fin.val).reverse

variable (ds : List (Fin 10))

theorem number_concat (d : Fin 10) : number (ds ++ [d]) = 10 * number ds + d.val := by
  simp [number, Nat.ofDigits_cons, add_comm]

theorem number_cons (d : Fin 10) : number (d :: ds) = d.val * 10 ^ ds.length + number ds := by
  simp [number, Nat.ofDigits_append, mul_comm, add_comm]

theorem fractionValue_cons (d : Fin 10) :
    fractionValue (d :: ds) = (d.val + fractionValue ds) / 10 := rfl

theorem toDigits_number {d : Fin 10} (hd : d ≠ 0) :
    0 < number (d :: ds) ∧ Nat.toDigits 10 (number (d :: ds)) = digitChars (d :: ds) := by
  induction ds using reverseRecOn with
  | nil =>
    have hpos : 0 < d.val := Nat.pos_of_ne_zero fun h ↦ hd (Fin.ext h)
    simpa [number, digitChars, hpos] using Nat.toDigits_of_lt_base d.isLt
  | append_singleton ds e ih =>
    rw [← cons_append, number_concat, ← Nat.toDigits_append_toDigits (by decide) ih.1 e.isLt, ih.2,
      Nat.toDigits_of_lt_base e.isLt]
    exact ⟨by omega, by simp [digitChars]⟩

theorem fractionValue_append (ds es : List (Fin 10)) :
    fractionValue (ds ++ es) * 10 ^ ds.length = number ds + fractionValue es := by
  induction ds with
  | nil => simp [number]
  | cons d ds ih =>
    rw [cons_append, fractionValue_cons, number_cons, length_cons, pow_succ, Nat.cast_add,
      Nat.cast_mul, Nat.cast_pow, add_assoc, ← ih]
    push_cast
    ring

theorem fractionValue_append_zeros (n : ℕ) :
    fractionValue (ds ++ replicate n 0) = fractionValue ds := by
  simp [fractionValue, fraction_append_zeros]

theorem fractionValue_zeros (n : ℕ) : fractionValue (replicate n 0) = 0 :=
  fractionValue_append_zeros [] n

theorem plainBody_spec {d : Fin 10} (hd : d ≠ 0) (point : ℤ) :
    ∃ whole fraction, plainBody (digitChars (d :: ds)) point =
        Nat.toDigits 10 whole ++ fractionChars fraction ∧
      (whole + fractionValue fraction : ℚ) = fractionValue (d :: ds) * 10 ^ point := by
  rw [plainBody]
  split_ifs with hn hle
  · obtain ⟨k, rfl⟩ : ∃ k : ℕ, point = -k := ⟨point.natAbs, by omega⟩
    have hval := fractionValue_append (replicate k 0) (d :: ds)
    refine ⟨0, replicate k 0 ++ d :: ds, by simp [fractionChars, digitChars], ?_⟩
    have hz : number (replicate k 0) = 0 := by simp [number]
    rw [hz, length_replicate, Nat.cast_zero, zero_add] at hval
    rw [zpow_neg, zpow_natCast, ← hval, Nat.cast_zero, zero_add, mul_assoc,
      mul_inv_cancel₀ (by positivity), mul_one]
  · obtain ⟨k, hk⟩ : ∃ k : ℕ, point = (d :: ds).length + k := ⟨(point - (d :: ds).length).toNat, by
      simp [digitChars] at hle ⊢; omega⟩
    have hval := fractionValue_append (d :: (ds ++ replicate k 0)) []
    refine ⟨number (d :: (ds ++ replicate k 0)), [], ?_, ?_⟩
    · rw [(toDigits_number _ hd).2]
      simp [fractionChars, digitChars, hk]
    · rw [← hval, append_nil, ← cons_append, fractionValue_append_zeros, hk, ← Nat.cast_add,
        zpow_natCast, length_append, length_replicate]
  · obtain ⟨k, rfl⟩ : ∃ k : ℕ, point = (k + 1 : ℕ) := ⟨point.toNat - 1, by omega⟩
    have hval := fractionValue_append (d :: ds.take k) (ds.drop k)
    have hlen : k < ds.length := by simpa [digitChars] using hle
    refine ⟨number (d :: ds.take k), ds.drop k, ?_, ?_⟩
    · rw [(toDigits_number _ hd).2, fractionChars, if_neg (by simpa using hlen)]
      simp [digitChars, map_take, map_drop]
    · rw [zpow_natCast, ← hval, cons_append, take_append_drop, length_cons,
        length_take_of_le hlen.le]

/-! ### The text of a float -/

theorem digitChar_facts : ∀ d : Fin 10, Nat.digitChar d.val ≠ 'e' ∧ Nat.digitChar d.val ≠ '.' ∧
    Nat.digitChar d.val ≠ '-' ∧ (Nat.digitChar d.val = '0' ↔ d = 0) := by
  decide

variable (f : ExpForm)

theorem filter_mantissaChars :
    f.mantissaChars.filter Char.isDigit = digitChars (f.lead :: f.fraction) := by
  have hall : (digitChars f.fraction).filter Char.isDigit = digitChars f.fraction := by
    refine filter_eq_self.2 fun c hc ↦ ?_
    obtain ⟨d, -, rfl⟩ := mem_map.1 hc
    exact isDigit_digitChar d
  rw [ExpForm.mantissaChars, filter_cons_of_pos (isDigit_digitChar f.lead), fractionChars]
  split_ifs with hnil
  · rw [hnil]
    rfl
  · exact congrArg _ hall

theorem takeWhile_mantissaChars :
    (f.mantissaChars.takeWhile fun c ↦ !decide (c = '.')).length = 1 := by
  rw [ExpForm.mantissaChars, takeWhile_cons_of_pos (by simp [digitChar_facts]), fractionChars]
  split_ifs <;> rfl

theorem ne_of_mem_mantissaChars : ∀ c ∈ f.mantissaChars, c ≠ 'e' := by
  refine forall_mem_cons.2 ⟨(digitChar_facts f.lead).1, fun c hc ↦ ?_⟩
  rw [fractionChars] at hc
  split_ifs at hc
  · cases hc
  · rcases mem_cons.1 hc with rfl | hc
    · decide
    · obtain ⟨d, -, rfl⟩ := mem_map.1 hc
      exact (digitChar_facts d).1

/-- The mantissa and the exponent are what is read of a float's text. -/
theorem plainDecimal_chars : plainDecimalFromExpForm f.chars =
    if (digitChars (f.lead :: f.fraction)).all (· = '0') then ['0']
    else (if f.negative then ['-'] else []) ++
      plainBody (digitChars (f.lead :: f.fraction)) (1 + f.exponent) := by
  have hne : ∀ c ∈ (if f.negative then ['-'] else []) ++ f.mantissaChars, decide (c ≠ 'e') := by
    intro c hc
    rcases mem_append.1 hc with hc | hc
    · split_ifs at hc
      · simp [mem_singleton.1 hc]
      · cases hc
    · simpa using ne_of_mem_mantissaChars f c hc
  have he : PkProbe.parseI64 (PkProbe.intText f.exponent) = some f.exponent := by
    rw [PkProbe.parseI64, PkProbe.parseInt_intText (by have := f.finite; omega)
      (by have := f.finite; omega)]
    rfl
  have ht : f.chars.takeWhile (· ≠ 'e') =
      (if f.negative then ['-'] else []) ++ f.mantissaChars := by
    rw [ExpForm.chars, takeWhile_append_of_pos hne, takeWhile_cons_of_neg (by decide), append_nil]
  have hd : f.chars.dropWhile (· ≠ 'e') = 'e' :: (PkProbe.intText f.exponent).toList := by
    rw [ExpForm.chars, dropWhile_append_of_pos hne, dropWhile_cons_of_neg (by decide)]
  have hh : f.mantissaChars.head? ≠ some '-' := fun h ↦
    (digitChar_facts f.lead).2.2.1 (Option.some.inj h)
  simp only [plainDecimalFromExpForm, ht, hd, tail_cons, String.ofList_toList, he,
    reduceCtorEq, if_false, Option.getD_some]
  cases f.negative with
  | true => simp [filter_mantissaChars, takeWhile_mantissaChars]
  | false => simp [filter_mantissaChars, takeWhile_mantissaChars, hh]

/-- **The plain decimal of a float's text has its value**, and is a number of JSON without an
exponent. -/
theorem plainDecimal_spec : ∃ d : Decimal,
    plainDecimalFromExpForm f.chars = d.chars ∧ d.value = f.value := by
  rw [plainDecimal_chars]
  by_cases hall : ∀ d ∈ f.lead :: f.fraction, d = 0
  · have hc : (digitChars (f.lead :: f.fraction)).all (· = '0') := by
      simpa [digitChars, digitChar_facts] using hall
    obtain ⟨hl, he⟩ := forall_mem_cons.1 hall
    refine ⟨unsigned 0 [], if_pos hc, ?_⟩
    rw [ExpForm.value, hl, eq_replicate_of_mem he, fractionValue_zeros]
    simp [value, unsigned]
  · have hl : f.lead ≠ 0 := by
      intro hl
      refine hall (forall_mem_cons.2 ⟨hl, fun d hd ↦ ?_⟩)
      by_contra hne
      exact f.lead_ne ⟨d, hd, hne⟩ hl
    rw [if_neg (by simpa [digitChars, digitChar_facts] using hall)]
    obtain ⟨whole, fraction, hb, hval⟩ := plainBody_spec f.fraction hl (1 + f.exponent)
    have hpos : fractionValue (f.lead :: f.fraction) ≠ 0 := by
      intro hz
      have hn := fractionValue_append (f.lead :: f.fraction) []
      rw [append_nil, hz, zero_mul, fractionValue_nil, add_zero, eq_comm, Nat.cast_eq_zero] at hn
      exact (toDigits_number f.fraction hl).1.ne' hn
    have ho : whole ≠ 0 ∨ ∃ digit ∈ fraction, digit ≠ 0 := by
      by_contra h
      simp only [not_or, not_not, not_exists, not_and] at h
      rw [h.1, eq_replicate_of_mem h.2, fractionValue_zeros, Nat.cast_zero, add_zero] at hval
      exact mul_ne_zero hpos (zpow_ne_zero _ (by norm_num)) hval.symm
    refine ⟨⟨f.negative, whole, fraction, fun _ ↦ ho⟩, ?_, ?_⟩
    · rw [hb, Decimal.chars]
      cases f.negative <;> rfl
    · rw [Decimal.value, ExpForm.value, hval, fractionValue_cons, zpow_add₀ (by norm_num), zpow_one]
      cases f.negative <;> simp <;> ring

/-- The float `-1.5e-7`. -/
example : plainDecimalFromExpForm (ExpForm.chars ⟨true, 1, [5], -7, by decide, by decide⟩) =
    "-0.00000015".toList := by
  decide +kernel

end Koldstore.PlainDecimal
