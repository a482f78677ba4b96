import Koldstore.Basic.PrefixCode
import Koldstore.SortKey.Encode

/-!
# The bytes of the stable key hash

Columns and JSON values of a key are hashed one after the other, each with an end mark.
-/

namespace Koldstore.StablePkHash

open List SortKey

def isNumberChar (c : Char) : Bool := decide (c ∈ "+-.0123456789Ee".toList)

inductive Json
  | null
  | bool (value : Bool)
  | number (text : {text : List Char // text ≠ [] ∧ ∀ c ∈ text, isNumberChar c = true})
  | string (text : String)
  | array (items : List Json)
  | object (fields : List (String × Json))

def controlEscape (n : ℕ) : List Char :=
  ['\\', 'u', '0', '0', Nat.digitChar (n / 16), Nat.digitChar (n % 16)]

/-- The escapes of `serde_json`, the first entry of a character counts. -/
def escapes : List (Char × List Char) :=
  [('"', ['\\', '"']), ('\\', ['\\', '\\']), ('\n', ['\\', 'n']), ('\r', ['\\', 'r']),
    ('\t', ['\\', 't']), ('\x08', ['\\', 'b']), ('\x0c', ['\\', 'f'])] ++
  (range 32).map fun n ↦ (Char.ofNat n, controlEscape n)

def escapeChar (c : Char) : List Char := (escapes.lookup c).getD [c]

def quoted (text : String) : List Char := '"' :: (text.toList.flatMap escapeChar ++ ['"'])

mutual

def Json.chars : Json → List Char
  | .null => ['n', 'u', 'l', 'l']
  | .bool true => ['t', 'r', 'u', 'e']
  | .bool false => ['f', 'a', 'l', 's', 'e']
  | .number text => text.val
  | .string text => quoted text
  | .array items => '[' :: itemsChars [] items
  | .object fields => '{' :: fieldsChars [] fields

def itemsChars (separator : List Char) : List Json → List Char
  | [] => [']']
  | item :: items => separator ++ (item.chars ++ itemsChars [','] items)

def fieldsChars (separator : List Char) : List (String × Json) → List Char
  | [] => ['}']
  | field :: fields =>
    separator ++ (quoted field.1 ++ ':' :: (field.2.chars ++ fieldsChars [','] fields))

end

/-- The bytes that the hash is computed of. -/
def hashed : List (String × Json) → Bytes
  | [] => []
  | (column, value) :: key => utf8 column ++ 0 :: (charBytes value.chars ++ 255 :: hashed key)

/-! ### Quoted texts -/

theorem escapes_check : ((escapes.map Prod.fst).all fun c ↦
    (escapeChar c).head? == some '\\' && decide (1 < (escapeChar c).length) &&
      (escapes.map Prod.fst).all fun d ↦ !(escapeChar c).isPrefixOf (escapeChar d) || c == d) := by
  decide +kernel

theorem escapeChar_of_mem (c : Char) (hc : c ∈ escapes.map Prod.fst) :
    (escapeChar c).head? = some '\\' ∧ 1 < (escapeChar c).length ∧
      ∀ d ∈ escapes.map Prod.fst, escapeChar c <+: escapeChar d → c = d := by
  have h := all_eq_true.1 escapes_check c hc
  simp only [Bool.and_eq_true, beq_iff_eq, decide_eq_true_eq] at h
  refine ⟨h.1.1, h.1.2, fun d hd hp ↦ ?_⟩
  simpa [ isPrefixOf_iff_prefix.2 hp] using all_eq_true.1 h.2 d hd

variable {c : Char}

theorem escapeChar_of_notMem (h : c ∉ escapes.map Prod.fst) : escapeChar c = [c] := by
  rw [escapeChar, lookup_eq_none_iff.2, Option.getD_none]
  intro entry he
  exact bne_iff_ne.2 (ne_of_mem_of_not_mem (mem_map_of_mem he) h).symm

theorem escapeChar_ne_quote {y : List Char} : ¬escapeChar c <+: '"' :: y := by
  rintro ⟨x, h⟩
  by_cases hc : c ∈ escapes.map Prod.fst
  · have hh := congrArg head? h
    rw [head?_append, (escapeChar_of_mem c hc).1] at hh
    exact absurd (Option.some.inj hh) (by decide)
  · rw [escapeChar_of_notMem hc] at h
    exact hc ((cons.inj h).1 ▸ by decide +kernel)

theorem escapeChar_inj (c d : Char) (h : escapeChar c <+: escapeChar d) : c = d := by
  by_cases hd : d ∈ escapes.map Prod.fst <;> by_cases hc : c ∈ escapes.map Prod.fst
  · exact (escapeChar_of_mem c hc).2.2 d hd h
  · rw [escapeChar_of_notMem hc] at h
    obtain ⟨rest, hre⟩ := h
    have hh := (escapeChar_of_mem d hd).1
    rw [← hre, cons_append, head?_cons] at hh
    exact absurd (Option.some.inj hh ▸ by decide +kernel : c ∈ escapes.map Prod.fst) hc
  · have hl := (escapeChar_of_mem c hc).2.1
    have hle := h.length_le
    rw [escapeChar_of_notMem hd, length_singleton] at hle
    omega
  · rw [escapeChar_of_notMem hc, escapeChar_of_notMem hd] at h
    simpa using h

variable {r s : List Char}

theorem quoted_inj {t u : String} (h : quoted t ++ r = quoted u ++ s) : t = u ∧ r = s := by
  simp only [quoted, cons_append, List.append_assoc, cons.injEq, true_and, nil_append] at h
  obtain ⟨ht, hre⟩ := PrefixCode.flatMap_append_inj escapeChar_inj
    (fun _ ↦ escapeChar_ne_quote) (fun _ ↦ escapeChar_ne_quote) h
  exact ⟨String.toList_inj.1 ht, (cons.inj hre).2⟩

/-! ### JSON texts -/

/-- A number ends before this text. -/
def Stops (r : List Char) : Prop := ∀ c ∈ r.head?, isNumberChar c = false

def tag (c : Char) : ℕ := if isNumberChar c then 0 else c.toNat

def Json.tag : Json → ℕ
  | .null => 110
  | .bool true => 116
  | .bool false => 102
  | .number _ => 0
  | .string _ => 34
  | .array _ => 91
  | .object _ => 123

theorem tag_chars (a : Json) : ∃ c cs, a.chars = c :: cs ∧ tag c = a.tag := by
  match a with
  | .number ⟨[], h⟩ => exact absurd rfl h.1
  | .number ⟨c :: cs, h⟩ => exact ⟨c, cs, by rw [Json.chars], if_pos (h.2 c mem_cons_self)⟩
  | .null | .bool true | .bool false | .string _ | .array _ | .object _ =>
    exact ⟨_, _, by simp only [Json.chars, quoted]; rfl, rfl⟩

theorem tag_eq {a b : Json} (h : a.chars ++ r = b.chars ++ s) : a.tag = b.tag := by
  obtain ⟨c, cs, ha, hc⟩ := tag_chars a
  obtain ⟨d, ds, hb, hd⟩ := tag_chars b
  rw [ha, hb] at h
  rw [← hc, ← hd, (cons.inj h).1]

theorem item_ne_bracket {a : Json} {separator : List Char}
    (hsep : separator = [] ∨ separator = [',']) : separator ++ (a.chars ++ r) ≠ ']' :: s := by
  intro h
  obtain ⟨c, cs, ha, hc⟩ := tag_chars a
  rw [ha] at h
  rcases hsep with rfl | rfl
  · obtain rfl := (cons.inj h).1
    match a with
    | .null | .bool true | .bool false | .number _ | .string _ | .array _ | .object _ => cases hc
  · cases h

theorem takeWhile_number {t : List Char} (ht : ∀ c ∈ t, isNumberChar c = true) (hr : Stops r) :
    (t ++ r).takeWhile isNumberChar = t := by
  rw [takeWhile_append_of_pos ht]
  cases r with
  | nil => simp
  | cons c r => rw [takeWhile_cons_of_neg (by simp [hr c rfl]), append_nil]

theorem stops_itemsChars (items : List Json) (r : List Char) :
    Stops (itemsChars [','] items ++ r) := by
  cases items <;> (rw [itemsChars]; rintro c ⟨⟩; decide)

theorem stops_fieldsChars (fields : List (String × Json)) (r : List Char) :
    Stops (fieldsChars [','] fields ++ r) := by
  cases fields <;> (rw [fieldsChars]; rintro c ⟨⟩; decide)

mutual

theorem chars_inj : ∀ (a b : Json) {r s : List Char}, Stops r → Stops s →
    a.chars ++ r = b.chars ++ s → a = b ∧ r = s
  | a, b, r, s, hr, hs, h => by
    have ha := tag_eq h
    match a, b with
    | .null, .null | .bool true, .bool true | .bool false, .bool false =>
      exact ⟨rfl, append_cancel_left h⟩
    | .number t, .number u =>
      rw [Json.chars, Json.chars] at h
      have ht : t.val = u.val := by rw [← takeWhile_number t.2.2 hr, h, takeWhile_number u.2.2 hs]
      exact ⟨congrArg Json.number (Subtype.ext ht), append_cancel_left (ht ▸ h)⟩
    | .string t, .string u =>
      rw [Json.chars, Json.chars] at h
      exact ⟨congrArg Json.string (quoted_inj h).1, (quoted_inj h).2⟩
    | .array l, .array m =>
      rw [Json.chars, Json.chars] at h
      obtain ⟨rfl, rfl⟩ := itemsChars_inj l m (.inl rfl) (cons.inj h).2
      exact ⟨rfl, rfl⟩
    | .object l, .object m =>
      rw [Json.chars, Json.chars] at h
      obtain ⟨rfl, rfl⟩ := fieldsChars_inj l m (.inl rfl) (cons.inj h).2
      exact ⟨rfl, rfl⟩

theorem itemsChars_inj : ∀ (l m : List Json) {sep r s : List Char}, sep = [] ∨ sep = [','] →
    itemsChars sep l ++ r = itemsChars sep m ++ s → l = m ∧ r = s
  | [], [], _, _, _, _, h => by simpa [itemsChars] using h
  | [], b :: m, _, _, _, hs, h => by
    simp only [itemsChars, List.append_assoc] at h
    exact absurd h.symm (item_ne_bracket hs)
  | a :: l, [], _, _, _, hs, h => by
    simp only [itemsChars, List.append_assoc] at h
    exact absurd h (item_ne_bracket hs)
  | a :: l, b :: m, sep, r, s, _, h => by
    simp only [itemsChars, List.append_assoc] at h
    obtain ⟨rfl, hre⟩ := chars_inj a b (stops_itemsChars l r) (stops_itemsChars m s)
      (append_cancel_left h)
    obtain ⟨rfl, rfl⟩ := itemsChars_inj l m (.inr rfl) hre
    exact ⟨rfl, rfl⟩

theorem fieldsChars_inj : ∀ (l m : List (String × Json)) {sep r s : List Char},
    sep = [] ∨ sep = [','] → fieldsChars sep l ++ r = fieldsChars sep m ++ s → l = m ∧ r = s
  | [], [], _, _, _, _, h => by simpa [fieldsChars] using h
  | [], _ :: _, _, _, _, hs, h | _ :: _, [], _, _, _, hs, h => by
    rcases hs with rfl | rfl <;> simp [fieldsChars, quoted] at h
  | (f, a) :: l, (g, b) :: m, sep, r, s, _, h => by
    simp only [fieldsChars, cons_append, List.append_assoc] at h
    obtain ⟨rfl, hv⟩ := quoted_inj (append_cancel_left h)
    obtain ⟨rfl, hre⟩ := chars_inj a b (stops_fieldsChars l r) (stops_fieldsChars m s)
      (cons.inj hv).2
    obtain ⟨rfl, rfl⟩ := fieldsChars_inj l m (.inr rfl) hre
    exact ⟨rfl, rfl⟩

end

/-! ### Bytes -/

theorem utf8EncodeChar_ne (c : Char) : ∀ byte ∈ String.utf8EncodeChar c, byte.toFin ≠ 255 := by
  intro byte hb heq
  have hv : byte.toNat = 255 := congrArg Fin.val heq
  simp only [String.utf8EncodeChar] at hb
  split_ifs at hb <;> simp only [mem_cons, not_mem_nil, or_false] at hb
  · rw [hb, UInt8.toNat_ofNat'] at hv
    omega
  · rcases hb with rfl | rfl <;> rw [UInt8.toNat_ofNat'] at hv <;> omega
  · rcases hb with rfl | rfl | rfl <;> rw [UInt8.toNat_ofNat'] at hv <;> omega
  · rcases hb with rfl | rfl | rfl | rfl <;> rw [UInt8.toNat_ofNat'] at hv <;> omega

theorem notMem_charBytes (chars : List Char) : 255 ∉ charBytes chars := by
  intro hmem
  obtain ⟨byte, hb, heq⟩ := mem_map.1 hmem
  obtain ⟨c, -, hc⟩ := mem_flatMap.1 hb
  exact utf8EncodeChar_ne c byte hc heq

theorem append_mark_inj {x y r s : Bytes} (hx : 255 ∉ x) (hy : 255 ∉ y)
    (h : x ++ 255 :: r = y ++ 255 :: s) : x = y ∧ r = s := by
  have ht : ∀ {x r : Bytes}, 255 ∉ x → (x ++ 255 :: r).takeWhile (· != 255) = x := by
    intro x r hx
    have hp : ∀ b ∈ x, (b != 255) = true := fun b hb ↦ bne_iff_ne.2 (ne_of_mem_of_not_mem hb hx)
    rw [takeWhile_append_of_pos hp, takeWhile_cons_of_neg (by decide), append_nil]
  obtain rfl : x = y := by rw [← ht hx, h, ht hy]
  exact ⟨rfl, (cons.inj (append_cancel_left h)).2⟩

/-- **Keys with the same columns that are hashed as the same bytes are the same key**, whatever
their values are. -/
theorem eq_of_hashed_eq (key other : List (String × Json))
    (hshape : key.map Prod.fst = other.map Prod.fst) (h : hashed key = hashed other) :
    key = other := by
  induction key generalizing other with
  | nil => exact (map_eq_nil_iff.1 hshape.symm).symm
  | cons entry key ih =>
    obtain ⟨column, value⟩ := entry
    cases other with
    | nil => cases hshape
    | cons entry other =>
      obtain ⟨_, value'⟩ := entry
      obtain ⟨rfl, ht⟩ := cons.inj hshape
      have hv := (cons.inj (append_cancel_left h)).2
      obtain ⟨hc, hre⟩ := append_mark_inj (notMem_charBytes _) (notMem_charBytes _) hv
      have hs := charBytes_inj hc
      rw [← append_nil value.chars, ← append_nil value'.chars] at hs
      have hn : Stops [] := fun _ h ↦ nomatch h
      rw [(chars_inj value value' hn hn hs).1, ih other ht hre]

/-- A quote, a backslash and a NUL do not move the border between two columns. -/
theorem hashed_ne_of_border_moved :
    hashed [("a\"", Json.string "x\\\"y"), ("b", Json.string "\x00")] ≠
      hashed [("a\"", Json.string "x\\\"y\x00"), ("b", Json.string "")] := by
  intro h
  have hkey := eq_of_hashed_eq [("a\"", Json.string "x\\\"y"), ("b", Json.string "\x00")]
    [("a\"", Json.string "x\\\"y\x00"), ("b", Json.string "")] rfl h
  simp at hkey

end Koldstore.StablePkHash
