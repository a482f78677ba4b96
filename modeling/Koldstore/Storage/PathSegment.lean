import Koldstore.Basic.PrefixCode
import Koldstore.SortKey.Encode

/-!
# Names as parts of object paths

A schema or table name becomes one part of an object's path, with every byte percent-encoded that
is no letter, digit, underscore or hyphen.
-/

namespace Koldstore.PathSegment

open List SortKey

def isPlainByte (byte : Fin 256) : Bool :=
  (Char.ofNat byte.val).isAlphanum || decide (byte.val = '_'.toNat) || decide (byte.val = '-'.toNat)

/-- A digit of `{:02X}`. -/
def upperDigit (digit : ℕ) : Char := (Nat.digitChar digit).toUpper

def encodeByte (byte : Fin 256) : List Char :=
  if isPlainByte byte then [Char.ofNat byte.val]
  else ['%', upperDigit (byte.val / 16), upperDigit (byte.val % 16)]

def encodePathSegment (value : String) : String := String.ofList ((utf8 value).flatMap encodeByte)

def tableObjectPrefix (schema table : String) : String :=
  encodePathSegment schema ++ "/" ++ encodePathSegment table

/-- The characters that encoded names are made of. -/
def isSegmentChar (c : Char) : Bool := c.isAlphanum || decide (c ∈ ['_', '-', '%'])

/-- The directory that a path leads to from another one: `..` goes up. -/
def walk (start : List (List Char)) (path : String) : List (List Char) :=
  (path.toList.splitOn '/').foldl
    (fun dirs part ↦
      if part = ['.', '.'] then dirs.tail
      else if part = [] ∨ part = ['.'] then dirs
      else part :: dirs)
    start

/-! ### Single bytes -/

theorem isSegmentChar_encodeByte :
    ∀ byte : Fin 256, (encodeByte byte).all isSegmentChar = true := by
  decide +kernel

def digitValue (c : Char) : ℕ := if c.isDigit then c.toNat - 48 else c.toNat - 55

/-- Reads one encoded byte off a text. -/
def readByte (text : List Char) : Option (ℕ × List Char) :=
  match text with
  | [] => none
  | c :: rest =>
    if c ≠ '%' then some (c.toNat, rest)
    else some (16 * digitValue (rest.headD c) + digitValue (rest.tail.headD c), rest.drop 2)

theorem readByte_plain : ∀ byte : Fin 256, isPlainByte byte = true →
    Char.ofNat byte.val ≠ '%' ∧ (Char.ofNat byte.val).toNat = byte.val := by
  decide +kernel

theorem digitValue_upperDigit : ∀ digit :
    Fin 16, digitValue (upperDigit digit.val) = digit.val := by
  decide

theorem readByte_encodeByte (byte : Fin 256) (rest : List Char) :
    readByte (encodeByte byte ++ rest) = some (byte.val, rest) := by
  rw [encodeByte]
  split_ifs with hplain
  · obtain ⟨hne, hval⟩ := readByte_plain byte hplain
    rw [singleton_append, readByte, if_pos hne, hval]
  · have hhigh := digitValue_upperDigit ⟨byte.val / 16, by omega⟩
    have hlow := digitValue_upperDigit ⟨byte.val % 16, by omega⟩
    show some (16 * digitValue (upperDigit (byte.val / 16)) +
      digitValue (upperDigit (byte.val % 16)), rest) = _
    rw [hhigh, hlow, Nat.div_add_mod]

/-! ### Names -/

theorem encodeByte_inj (a b : Fin 256) (h : encodeByte a <+: encodeByte b) : a = b := by
  obtain ⟨rest, hrest⟩ := h
  have ha := readByte_encodeByte a rest
  have hb := readByte_encodeByte b []
  rw [append_nil, ← hrest, ha] at hb
  exact Fin.ext (Prod.mk.inj (Option.some.inj hb)).1

theorem not_encodeByte_nil (byte : Fin 256) : ¬encodeByte byte <+: [] := by
  intro h
  have hread := readByte_encodeByte byte []
  rw [prefix_nil.1 h] at hread
  cases hread

theorem encodePathSegment_injective : Function.Injective encodePathSegment := by
  intro name other h
  have hchars : (utf8 name).flatMap encodeByte ++ [] = (utf8 other).flatMap encodeByte ++ [] :=
    congrArg (· ++ []) (String.ofList_injective h)
  have hbytes := PrefixCode.flatMap_append_inj encodeByte_inj not_encodeByte_nil
    not_encodeByte_nil hchars
  exact String.toList_inj.1 (charBytes_inj hbytes.1)

theorem isSegmentChar_of_mem {name : String} {c : Char}
    (hc : c ∈ (encodePathSegment name).toList) : isSegmentChar c = true := by
  rw [encodePathSegment, String.toList_ofList] at hc
  obtain ⟨byte, -, hmem⟩ := mem_flatMap.1 hc
  exact all_eq_true.1 (isSegmentChar_encodeByte byte) c hmem

theorem notMem_encodePathSegment (name : String) {c : Char} (hc : isSegmentChar c = false) :
    c ∉ (encodePathSegment name).toList := by
  intro hmem
  rw [isSegmentChar_of_mem hmem] at hc
  cases hc

/-- The two names are the parts of the path. -/
theorem splitOn_tableObjectPrefix (schema table : String) :
    (tableObjectPrefix schema table).toList.splitOn '/' =
      [(encodePathSegment schema).toList, (encodePathSegment table).toList] := by
  have hslash : ∀ name, '/' ∉ (encodePathSegment name).toList :=
    fun name ↦ notMem_encodePathSegment name (by decide)
  rw [tableObjectPrefix, String.toList_append, String.toList_append, List.append_assoc]
  exact (splitOn_append_cons_self_of_not_mem (hslash schema) _).trans
    (congrArg _ (splitOn_eq_singleton (hslash table)))

theorem suffix_walk (start : List (List Char)) (schema table : String) :
    start <:+ walk start (tableObjectPrefix schema table) := by
  have hdot : ∀ name, '.' ∉ (encodePathSegment name).toList :=
    fun name ↦ notMem_encodePathSegment name (by decide)
  have hup : ∀ name, (encodePathSegment name).toList ≠ ['.', '.'] :=
    fun name h ↦ hdot name (h ▸ mem_cons_self)
  rw [walk, splitOn_tableObjectPrefix, foldl_cons, foldl_cons, foldl_nil, if_neg (hup schema),
    if_neg (hup table)]
  split_ifs
  · exact suffix_rfl
  · exact suffix_cons _ _
  · exact suffix_cons _ _
  · exact (suffix_cons _ _).trans (suffix_cons _ _)

/-- **Encoded names** are different for different names and have no separator and no dot, so that
different tables have different paths, and no path leads out of the directory it starts in. -/
theorem encodePathSegment_spec (schema table schema' table' : String) :
    (encodePathSegment table = encodePathSegment table' → table = table') ∧
    (∀ c ∈ (encodePathSegment table).toList, isSegmentChar c = true ∧ c ≠ '/' ∧ c ≠ '.') ∧
    (tableObjectPrefix schema table = tableObjectPrefix schema' table' →
      schema = schema' ∧ table = table') ∧
    ∀ start, start <:+ walk start (tableObjectPrefix schema table) := by
  refine ⟨fun h ↦ encodePathSegment_injective h, fun c hc ↦ ⟨isSegmentChar_of_mem hc, ?_, ?_⟩,
    fun h ↦ ?_, fun start ↦ suffix_walk start schema table⟩
  · rintro rfl
    exact notMem_encodePathSegment table (by decide) hc
  · rintro rfl
    exact notMem_encodePathSegment table (by decide) hc
  · have hparts := splitOn_tableObjectPrefix schema table
    rw [h, splitOn_tableObjectPrefix] at hparts
    simp only [cons.injEq, and_true, String.toList_inj] at hparts
    exact ⟨encodePathSegment_injective hparts.1.symm, encodePathSegment_injective hparts.2.symm⟩

end Koldstore.PathSegment
