import Mathlib

/-!
# The texts of a numeric column

PostgreSQL prints a `numeric` without an exponent, and a zero without a sign.
-/

namespace Koldstore

open List Function

/-- The number `0.d₁d₂…`. -/
def fraction : List ℕ → ℚ
  | [] => 0
  | digit :: digits => (digit + fraction digits) / 10

theorem fraction_append_zeros (l : List ℕ) (n : ℕ) :
    fraction (l ++ replicate n 0) = fraction l := by
  induction l with
  | nil => induction n <;> simp_all [replicate_succ, fraction]
  | cons digit l ih => rw [cons_append, fraction, fraction, ih]

-- a shortcut for digit literals
instance neZero_10 : NeZero 10 := inferInstance

structure Decimal where
  negative : Bool
  whole : ℕ
  fraction : List (Fin 10)
  nonzero : negative = true → whole ≠ 0 ∨ ∃ digit ∈ fraction, digit ≠ 0
  deriving DecidableEq

namespace Decimal

def fractionValue (digits : List (Fin 10)) : ℚ := Koldstore.fraction (digits.map Fin.val)

variable (d : Decimal)

def value : ℚ :=
  if d.negative then -(d.whole + fractionValue d.fraction) else d.whole + fractionValue d.fraction

variable (fraction : List (Fin 10))

def fractionChars : List Char :=
  if fraction = [] then [] else '.' :: fraction.map fun digit ↦ Nat.digitChar digit.val

def magnitudeChars : List Char := Nat.toDigits 10 d.whole ++ fractionChars d.fraction

def chars : List Char := if d.negative then '-' :: d.magnitudeChars else d.magnitudeChars

theorem nonzero_ofInt (n : ℤ) (h : decide (n < 0) = true) :
    n.natAbs ≠ 0 ∨ ∃ digit ∈ ([] : List (Fin 10)), digit ≠ 0 :=
  .inl (Int.natAbs_ne_zero.2 (of_decide_eq_true h).ne)

def ofInt (n : ℤ) : Decimal := ⟨decide (n < 0), n.natAbs, [], nonzero_ofInt n⟩

def unsigned (whole : ℕ) (fraction : List (Fin 10)) : Decimal :=
  ⟨false, whole, fraction, fun h ↦ absurd h Bool.false_ne_true⟩

@[simp] theorem fractionValue_nil : fractionValue [] = 0 := rfl

@[simp] theorem fraction_unsigned (whole : ℕ) (fraction : List (Fin 10)) :
    (unsigned whole fraction).fraction = fraction := rfl

@[simp] theorem fraction_ofInt (n : ℤ) : (ofInt n).fraction = [] := rfl

@[simp] theorem value_ofInt (n : ℤ) : (ofInt n).value = n := by
  by_cases hn : n < 0
  · have ha : (n.natAbs : ℚ) = -n := by rw [Nat.cast_natAbs, abs_of_neg hn, Int.cast_neg]
    simp only [value, ofInt, fractionValue_nil, hn, ha, decide_true, if_true, add_zero, neg_neg]
  · have ha : (n.natAbs : ℚ) = n := by rw [Nat.cast_natAbs, abs_of_nonneg (not_lt.1 hn)]
    simp only [value, ofInt, fractionValue_nil, hn, ha, decide_false, Bool.false_eq_true,
      if_false, add_zero]

theorem ofInt_injective : Injective ofInt := fun m n h ↦ by
  have hv := congrArg value h
  rwa [value_ofInt, value_ofInt, Int.cast_inj] at hv

/-! ### Nothing is lost in the text -/

theorem isDigit_of_mem_whole {n : ℕ} {c : Char} (hc : c ∈ Nat.toDigits 10 n) : c.isDigit = true :=
  Nat.isDigit_of_mem_toDigits (by decide) (by decide) hc

theorem toDigits_injective : Injective (Nat.toDigits 10) := fun m n h ↦ by
  have hm := Nat.ofDigitChars_toDigits (b := 10) (n := m) (by decide) (by decide)
  rwa [h, Nat.ofDigitChars_toDigits (by decide) (by decide), eq_comm] at hm

theorem digitChar_inj : ∀ digit digit' : Fin 10,
    Nat.digitChar digit.val = Nat.digitChar digit'.val → digit = digit' := by
  decide

theorem isDigit_digitChar : ∀ digit : Fin 10, (Nat.digitChar digit.val).isDigit = true := by
  decide

theorem takeWhile_fractionChars : (fractionChars fraction).takeWhile Char.isDigit = [] := by
  rw [fractionChars]
  split_ifs
  · rfl
  · rfl

theorem dropWhile_fractionChars :
    (fractionChars fraction).dropWhile Char.isDigit = fractionChars fraction := by
  rw [fractionChars]
  split_ifs
  · rfl
  · rfl

theorem fractionChars_injective : Injective fractionChars := by
  intro f g h
  rw [fractionChars, fractionChars] at h
  split_ifs at h with hf hg hg
  · rw [hf, hg]
  · exact map_injective_iff.2 (fun _ _ ↦ digitChar_inj _ _) (List.cons.inj h).2

theorem magnitudeChars_inj {d e : Decimal} (h : d.magnitudeChars = e.magnitudeChars) :
    d.whole = e.whole ∧ d.fraction = e.fraction := by
  have htk := congrArg (List.takeWhile Char.isDigit) h
  have hdr := congrArg (List.dropWhile Char.isDigit) h
  rw [magnitudeChars, magnitudeChars, takeWhile_append_of_pos fun c ↦ isDigit_of_mem_whole,
    takeWhile_append_of_pos fun c ↦ isDigit_of_mem_whole, takeWhile_fractionChars,
    takeWhile_fractionChars, append_nil, append_nil] at htk
  rw [magnitudeChars, magnitudeChars, dropWhile_append_of_pos fun c ↦ isDigit_of_mem_whole,
    dropWhile_append_of_pos fun c ↦ isDigit_of_mem_whole, dropWhile_fractionChars,
    dropWhile_fractionChars] at hdr
  exact ⟨toDigits_injective htk, fractionChars_injective hdr⟩

theorem magnitudeChars_ne_minus (cs : List Char) : d.magnitudeChars ≠ '-' :: cs := by
  intro h
  obtain ⟨c, ds, hi⟩ := exists_cons_of_ne_nil (Nat.toDigits_ne_nil (n := d.whole) (b := 10))
  rw [magnitudeChars, hi, cons_append] at h
  have hd : c.isDigit = true := isDigit_of_mem_whole (n := d.whole) (by rw [hi]; simp)
  rw [(List.cons.inj h).1] at hd
  exact absurd hd (by decide)

theorem chars_injective : Injective chars := by
  intro d e h
  obtain ⟨hs, hm⟩ : d.negative = e.negative ∧ d.magnitudeChars = e.magnitudeChars := by
    rw [chars, chars] at h
    cases hd : d.negative <;> cases he : e.negative <;> simp only [hd, he] at h
    · exact ⟨rfl, h⟩
    · exact absurd h (magnitudeChars_ne_minus d _)
    · exact absurd h.symm (magnitudeChars_ne_minus e _)
    · exact ⟨rfl, (List.cons.inj h).2⟩
  obtain ⟨hwh, hf⟩ := magnitudeChars_inj hm
  obtain ⟨_, _, _, _⟩ := d
  obtain ⟨_, _, _, _⟩ := e
  simp_all

theorem mem_chars {d : Decimal} {c : Char} (hc : c ∈ d.chars) :
    c.isDigit = true ∨ c = '.' ∨ c = '-' := by
  have hm : ∀ c ∈ d.magnitudeChars, c.isDigit = true ∨ c = '.' := by
    intro c hc
    rw [magnitudeChars, fractionChars] at hc
    rcases mem_append.1 hc with hc | hc
    · exact .inl (isDigit_of_mem_whole hc)
    · split_ifs at hc with hf
      · cases hc
      · rcases mem_cons.1 hc with hc | hc
        · exact .inr hc
        · obtain ⟨digit, -, rfl⟩ := mem_map.1 hc
          exact .inl (isDigit_digitChar digit)
  rw [chars] at hc
  split_ifs at hc
  · rcases mem_cons.1 hc with hc | hc
    · exact .inr (.inr hc)
    · exact (hm c hc).imp_right .inl
  · exact (hm c hc).imp_right .inl

end Decimal

/-! ### Numbers and special values -/

/-- What a `numeric` column prints. -/
inductive NumericText
  | decimal (d : Decimal)
  | nan
  | infinity (negative : Bool)
  deriving DecidableEq

/-- A value of type `numeric`. -/
inductive NumericValue
  | finite (q : ℚ)
  | nan
  | infinity (negative : Bool)
  deriving DecidableEq

namespace NumericText

def text : NumericText → String
  | decimal d => String.ofList d.chars
  | nan => "NaN"
  | infinity negative => if negative then "-Infinity" else "Infinity"

def number : NumericText → NumericValue
  | decimal d => .finite d.value
  | nan => .nan
  | infinity negative => .infinity negative

theorem ofList_chars_ne {d : Decimal} {word : String} (hw : 'n' ∈ word.toList ∨ 'a' ∈ word.toList) :
    String.ofList d.chars ≠ word := by
  rintro rfl
  rw [String.toList_ofList] at hw
  rcases hw with hc | hc
  · exact absurd (Decimal.mem_chars hc) (by decide)
  · exact absurd (Decimal.mem_chars hc) (by decide)

theorem text_injective : Injective text := by
  intro s t h
  cases s with
  | decimal d =>
    cases t with
    | decimal e => exact congrArg decimal (Decimal.chars_injective (String.ofList_injective h))
    | nan => exact absurd h (ofList_chars_ne (by decide))
    | infinity negative => exact absurd h (ofList_chars_ne (by cases negative <;> decide))
  | nan =>
    cases t with
    | decimal e => exact absurd h.symm (ofList_chars_ne (by decide))
    | nan => rfl
    | infinity negative => cases negative <;> exact absurd h (by decide)
  | infinity negative =>
    cases t with
    | decimal e => exact absurd h.symm (ofList_chars_ne (by cases negative <;> decide))
    | nan => cases negative <;> exact absurd h (by decide)
    | infinity negative' =>
      cases negative <;> cases negative' <;> first | rfl | exact absurd h (by decide)

end NumericText

end Koldstore
