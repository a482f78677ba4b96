import Koldstore.Cell.Decimal
import Koldstore.Flush.Metadata

/-!
# Array literals and their terms

Array literals as PostgreSQL prints them (`array_out`), and what `parse_text_array` reads in them. A
flush writes its cells with `text_array_literal`, which quotes every element; its literals are not
treated here.
-/

namespace Koldstore.TextArrays

open List

open SortKey

/-! ### How PostgreSQL prints an array -/

/-- `array_isspace` of PostgreSQL. -/
def arrayIsSpace (c : Char) : Bool := decide (9 ≤ c.toNat ∧ c.toNat ≤ 13) || decide (c = ' ')

/-- The word `NULL` in any case. -/
def isNullWord (chars : List Char) : Bool := chars.map Char.toLower = "null".toList

def isSpecial (c : Char) : Bool :=
  decide (c = doubleQuote) || decide (c = backslash) || decide (c = '{') || decide (c = '}') ||
    decide (c = ',') || arrayIsSpace c

def needsQuotes (element : List Char) : Bool :=
  element.isEmpty || isNullWord element || element.any isSpecial

def escapeChar (c : Char) : List Char :=
  if c = doubleQuote ∨ c = backslash then [backslash, c] else [c]

def writeElement : Option String → List Char
  | none => "NULL".toList
  | some text =>
    if needsQuotes text.toList then doubleQuote :: (text.toList.flatMap escapeChar ++ [doubleQuote])
    else text.toList

def writeElements : List (Option String) → List Char
  | [] => []
  | [element] => writeElement element
  | element :: next :: elements => writeElement element ++ ',' :: writeElements (next :: elements)

def boundChars : ℤ → List Char
  | .ofNat n => Nat.toDigits 10 n
  | .negSucc n => '-' :: Nat.toDigits 10 (n + 1)

def dimension (low : ℤ) (elements : List (Option String)) : List Char :=
  if elements.isEmpty ∨ low = 1 then []
  else '[' :: (boundChars low ++ ':' :: (boundChars (low + elements.length - 1) ++ [']', '=']))

def arrayOut (low : ℤ) (elements : List (Option String)) : String :=
  String.ofList (dimension low elements ++ '{' :: (writeElements elements ++ ['}']))

/-! ### What the reader makes of an element -/

def readBack : Option String → Option String
  | none => none
  | some text =>
    if needsQuotes text.toList then some text
    else if isNullWord (trim text.toList) then none
    else some (String.ofList (trim text.toList))

def readArray (elements : List (Option String)) : List (Option String) :=
  if trim (writeElements elements) = [] then [] else elements.map readBack

def Survives (text : String) : Prop := needsQuotes text.toList ∨ trim text.toList = text.toList

variable {chars rest : List Char} {elements : List (Option String)}

theorem isNullWord_iff :
    isNullWord chars = true ↔ chars.map Char.toLower = "null".toList := decide_eq_true_iff

theorem dropWhile_rest (hre : rest = [] ∨ ∃ cs, rest = ',' :: cs) :
    rest.dropWhile isWhitespace = rest := by
  rcases hre with rfl | ⟨cs, rfl⟩
  · rfl
  · rw [dropWhile_cons_of_neg (by decide)]

theorem readQuotedElement_backslash (c : Char) (rest : List Char) :
    readQuotedElement (backslash :: c :: rest) = (readQuotedElement rest).map (pushChar c) := by
  rw [readQuotedElement.eq_def]
  simp

theorem readQuotedElement_quote (rest : List Char) :
    readQuotedElement (doubleQuote :: rest) = some ([], rest) := by
  rw [readQuotedElement.eq_def]
  simp [show doubleQuote ≠ backslash by decide]

variable {c : Char}

theorem readQuotedElement_other (hc : ¬(c = doubleQuote ∨ c = backslash)) (rest : List Char) :
    readQuotedElement (c :: rest) =
      (readQuotedElement rest).map (pushChar c) := by
  rw [not_or] at hc
  rw [readQuotedElement.eq_def]
  simp [hc.1, hc.2]

theorem readQuotedElement_escape (chars rest : List Char) :
    readQuotedElement (chars.flatMap escapeChar ++ doubleQuote :: rest) = some (chars, rest) := by
  induction chars with
  | nil => exact readQuotedElement_quote rest
  | cons c cs ih =>
    rw [flatMap_cons, escapeChar, List.append_assoc]
    split_ifs with hc
    · rw [cons_append, cons_append, nil_append, readQuotedElement_backslash, ih]
      rfl
    · rw [cons_append, nil_append, readQuotedElement_other hc, ih]
      rfl

theorem readBareElement_append
    (hh : ∀ c ∈ chars, c ≠ ',' ∧ c ≠ backslash) (hre : rest = [] ∨ ∃ cs, rest = ',' :: cs) :
    readBareElement (chars ++ rest) = some (chars, rest) := by
  induction chars with
  | nil =>
    rcases hre with rfl | ⟨cs, rfl⟩
    · rfl
    · rw [nil_append, readBareElement.eq_def]
      simp
  | cons c cs ih =>
    obtain ⟨hc, hcs⟩ := forall_mem_cons.1 hh
    rw [cons_append, readBareElement.eq_def]
    simp only [if_neg hc.1, if_neg hc.2, ih hcs]
    rfl

theorem readElement_bare (hchars : ∀ c ∈ chars, isSpecial c = false)
    (hre : rest = [] ∨ ∃ cs, rest = ',' :: cs) :
    readElement ((chars ++ rest).dropWhile isWhitespace) =
      some (if isNullWord (trim chars) then none else some (String.ofList (trim chars)), rest) := by
  have hdr : (chars ++ rest).dropWhile isWhitespace = chars.dropWhile isWhitespace ++ rest := by
    rw [dropWhile_append]
    split_ifs with he
    · rw [List.isEmpty_iff.1 he, dropWhile_rest hre, nil_append]
    · rfl
  have hmem : ∀ c ∈ chars.dropWhile isWhitespace, isSpecial c = false := fun c hc ↦
    hchars c ((dropWhile_suffix _).subset hc)
  have hh : ∀ c, isSpecial c = true → c ≠ ',' →
      (chars.dropWhile isWhitespace ++ rest).head? ≠ some c := by
    intro c hc hne hh
    cases hcs : chars.dropWhile isWhitespace with
    | nil =>
      rw [hcs, nil_append] at hh
      rcases hre with rfl | ⟨cs, rfl⟩
      · cases hh
      · exact hne (Option.some.inj hh).symm
    | cons c' cs =>
      rw [hcs, cons_append, head?_cons, Option.some.injEq] at hh
      have hs := hmem c' (by simp [hcs])
      rw [hh, hc] at hs
      cases hs
  have hpl : ∀ c ∈ chars.dropWhile isWhitespace, c ≠ ',' ∧ c ≠ backslash := by
    intro c hc
    have hs := hmem c hc
    constructor
    · rintro rfl
      exact absurd hs (by decide)
    · rintro rfl
      exact absurd hs (by decide)
  rw [hdr, readElement, if_neg (hh '{' (by decide) (by decide)),
    if_neg (hh doubleQuote (by decide) (by decide)), readBareElement_append hpl hre]
  change some (if (trim chars).map Char.toLower = "null".toList then none
    else some (String.ofList (trim chars)), rest) = _
  simp only [isNullWord_iff]

theorem readElement_writeElement (element : Option String)
    (hre : rest = [] ∨ ∃ cs, rest = ',' :: cs) :
    readElement ((writeElement element ++ rest).dropWhile isWhitespace) =
      some (readBack element, rest) := by
  cases element with
  | none =>
    have hw : ∀ c ∈ ['N', 'U', 'L', 'L'], isSpecial c = false := by
      simp only [forall_mem_cons]
      exact ⟨rfl, rfl, rfl, rfl, forall_mem_nil _⟩
    exact readElement_bare hw hre
  | some text =>
    rw [writeElement, readBack]
    by_cases hqs : needsQuotes text.toList = true
    · rw [if_pos hqs, if_pos hqs, cons_append,
        dropWhile_cons_of_neg (by decide), readElement, head?_cons,
        if_neg (by decide), if_pos rfl, tail_cons, List.append_assoc, singleton_append,
        readQuotedElement_escape]
      simp
    · rw [if_neg hqs, if_neg hqs]
      refine readElement_bare ?_ hre
      rw [needsQuotes, Bool.or_eq_true, not_or, any_eq_true, not_exists] at hqs
      exact fun c hc ↦ Bool.eq_false_iff.2 fun hs ↦ hqs.2 c ⟨hc, hs⟩

theorem readElements_writeElements (hne : elements ≠ []) {fuel : ℕ} (hf : elements.length ≤ fuel) :
    readElements fuel (writeElements elements) = some (elements.map readBack) := by
  induction elements generalizing fuel with
  | nil => exact absurd rfl hne
  | cons element elements ih =>
    cases fuel with
    | zero => simp at hf
    | succ fuel =>
      cases elements with
      | nil =>
        have hrd := readElement_writeElement element (.inl rfl)
        rw [append_nil] at hrd
        rw [writeElements, readElements, hrd]
        rfl
      | cons next elements =>
        rw [length_cons, Nat.add_le_add_iff_right] at hf
        rw [writeElements, readElements, readElement_writeElement element (.inr ⟨_, rfl⟩)]
        simp only [Option.bind_some]
        rw [dropWhile_cons_of_neg (by decide)]
        simp only [ih (cons_ne_nil _ _) hf, Option.map_some, map_cons]

theorem length_le_writeElements (elements : List (Option String)) :
    elements.length ≤ (writeElements elements).length + 1 := by
  induction elements with
  | nil => simp
  | cons element elements ih =>
    cases elements with
    | nil => simp
    | cons next elements =>
      simp only [writeElements, length_append, length_cons] at ih ⊢
      omega

/-! ### The array -/

theorem splitOnce_append {separator : List Char} (hs : separator ≠ [])
    (hh : ∀ c ∈ chars, separator.head? ≠ some c) :
    splitOnce separator (chars ++ (separator ++ rest)) = some (chars, rest) := by
  obtain ⟨s, separator, rfl⟩ := exists_cons_of_ne_nil hs
  induction chars with
  | nil =>
    rw [nil_append, cons_append, splitOnce, if_pos]
    · simp
    · rw [ isPrefixOf_iff_prefix, ← cons_append]
      exact prefix_append _ _
  | cons c cs ih =>
    obtain ⟨hc, hcs⟩ := forall_mem_cons.1 hh
    rw [cons_append, splitOnce, if_neg, ih hcs]
    · rfl
    · rw [ isPrefixOf_iff_prefix, cons_prefix_cons]
      exact fun h ↦ hc (by rw [head?_cons, h.1])

theorem mem_boundChars {bound : ℤ} (hc : c ∈ boundChars bound) : c = '-' ∨ c.isDigit = true := by
  cases bound with
  | ofNat n => exact .inr (Decimal.isDigit_of_mem_whole hc)
  | negSucc n => exact (mem_cons.1 hc).imp_right Decimal.isDigit_of_mem_whole

theorem isArrayBound_boundChars (bound : ℤ) : isArrayBound (boundChars bound) = true := by
  have hd : ∀ n, (Nat.toDigits 10 n).all Char.isDigit = true := fun n ↦
    all_eq_true.2 fun c hc ↦ Decimal.isDigit_of_mem_whole hc
  have hne : ∀ n, Nat.toDigits 10 n ≠ [] := fun n ↦ Nat.toDigits_ne_nil
  cases bound with
  | ofNat n =>
    have hh : (Nat.toDigits 10 n).head? ≠ some '-' := by
      intro hh
      exact absurd (Decimal.isDigit_of_mem_whole (mem_of_head? hh)) (by decide)
    simp [boundChars, isArrayBound, hh, hne, hd n]
  | negSucc n => simp [boundChars, isArrayBound, hne, hd (n + 1)]

theorem stripDimensionPrefix_arrayOut (low : ℤ) (elements : List (Option String))
    (rest : List Char) :
    stripDimensionPrefix (dimension low elements ++ '{' :: rest) = '{' :: rest := by
  rw [dimension]
  generalize low + (elements.length : ℤ) - 1 = high
  split_ifs
  · simp [stripDimensionPrefix]
  · have hb : ∀ (bound : ℤ) (c : Char), c = ']' ∨ c = ':' → c ∉ boundChars bound := by
      rintro bound c (rfl | rfl) hc
      · rcases mem_boundChars hc with h | h <;> exact absurd h (by decide)
      · rcases mem_boundChars hc with h | h <;> exact absurd h (by decide)
    have ho : splitOnce [':'] (boundChars low ++ ([':'] ++ boundChars high)) =
        some (boundChars low, boundChars high) := by
      refine splitOnce_append (cons_ne_nil _ _) fun c hc h ↦ ?_
      exact hb low ':' (.inr rfl) (Option.some.inj h ▸ hc)
    have hs : splitOnce [']', '=']
        ((boundChars low ++ ([':'] ++ boundChars high)) ++ ([']', '='] ++ '{' :: rest)) =
        some (boundChars low ++ ([':'] ++ boundChars high), '{' :: rest) := by
      refine splitOnce_append (cons_ne_nil _ _) fun c hc h ↦ ?_
      obtain rfl : ']' = c := Option.some.inj h
      rw [mem_append, mem_append] at hc
      rcases hc with hc | hc | hc
      · exact hb low ']' (.inl rfl) hc
      · exact absurd hc (by decide)
      · exact hb high ']' (.inl rfl) hc
    have htx : '[' :: (boundChars low ++ ':' :: (boundChars high ++ [']', '='])) ++ '{' :: rest =
        '[' :: ((boundChars low ++ ([':'] ++ boundChars high)) ++ ([']', '='] ++ '{' :: rest)) := by
      simp
    rw [htx, stripDimensionPrefix, head?_cons, if_pos rfl, tail_cons, hs]
    simp only [ho, isArrayBound_boundChars, Bool.and_self, if_true]

theorem trim_eq_self {c' : Char} (hc : isWhitespace c = false) (hc' : isWhitespace c' = false) :
    trim (c :: (chars ++ [c'])) = c :: (chars ++ [c']) := by
  rw [trim, dropWhile_cons_of_neg (by simp [hc]), trimEnd, ← cons_append,
    rdropWhile_concat_neg _ _ _ (by simp [hc'])]

/-- **What is read of a printed array.** -/
theorem parse_arrayOut (reader : JsonReader) (low : ℤ) (elements : List (Option String)) :
    parseTextArray reader (arrayOut low elements) = some (readArray elements) := by
  have ht : trim (dimension low elements ++ '{' :: (writeElements elements ++ ['}'])) =
      dimension low elements ++ '{' :: (writeElements elements ++ ['}']) := by
    rw [dimension]
    split_ifs
    · exact trim_eq_self (by decide) (by decide)
    · rw [cons_append, ← cons_append (a := '{'), ← List.append_assoc]
      exact trim_eq_self (by decide) (by decide)
  have hl : (writeElements elements ++ ['}']).getLast? = some '}' := by simp
  simp only [parseTextArray, arrayOut, String.toList_ofList, ht, stripDimensionPrefix_arrayOut,
    head?_cons, tail_cons, hl, dropLast_concat]
  rw [if_neg (by decide), if_pos (by decide), readArray]
  split_ifs with he
  · rfl
  · refine readElements_writeElements ?_ (length_le_writeElements elements)
    rintro rfl
    exact he rfl

/-! ### Which arrays survive -/

theorem readBack_eq_self {text : String} : readBack (some text) = some text ↔ Survives text := by
  rw [readBack, Survives]
  by_cases hqs : needsQuotes text.toList = true
  · simp [hqs]
  · rw [if_neg hqs, or_iff_right hqs]
    constructor
    · intro h
      split_ifs at h
      have hc := congrArg String.toList (Option.some.inj h)
      rwa [String.toList_ofList] at hc
    · intro h
      rw [h, if_neg, String.ofList_toList]
      intro hn
      exact hqs (by simp [needsQuotes, hn])

theorem isWhitespace_of_trim (h : trim chars = []) (hc : c ∈ chars) : isWhitespace c = true := by
  rw [trim, trimEnd, rdropWhile_eq_nil_iff] at h
  by_cases hdr : chars.dropWhile isWhitespace = []
  · exact dropWhile_eq_nil_iff.1 hdr c hc
  · have hh := head_dropWhile_not isWhitespace hdr
    rw [h _ (head_mem hdr)] at hh
    cases hh

variable {element : Option String}

theorem not_survives_of_trim (h : ∀ c ∈ writeElement element, isWhitespace c = true) :
    ∃ text, element = some text ∧ ¬Survives text := by
  cases element with
  | none => exact absurd (h 'N' (by decide)) (by decide)
  | some text =>
    refine ⟨text, rfl, ?_⟩
    rw [writeElement] at h
    split_ifs at h with hqs
    · exact absurd (h doubleQuote mem_cons_self) (by decide)
    · rintro (hsv | hsv)
      · exact hqs hsv
      · have he : trim text.toList = [] := by
          rw [trim, dropWhile_eq_nil_iff.2 h]
          rfl
        rw [he] at hsv
        exact hqs (by simp [needsQuotes, ← hsv])

theorem mem_writeElements (hc : c ∈ writeElement element) :
    c ∈ writeElements (element :: elements) := by
  cases elements with
  | nil => exact hc
  | cons next elements => exact mem_append_left _ hc

theorem readArray_eq_self :
    readArray elements = elements ↔ ∀ text, some text ∈ elements → Survives text := by
  rw [readArray]
  split_ifs with he
  · cases elements with
    | nil => simp
    | cons element elements =>
      obtain ⟨text, rfl, hn⟩ := not_survives_of_trim fun c hc ↦
        isWhitespace_of_trim he (mem_writeElements hc)
      refine iff_of_false (cons_ne_nil _ _).symm fun h ↦ hn (h text mem_cons_self)
  · have hs : elements.map readBack = elements ↔ ∀ e ∈ elements, readBack e = e := by
      simpa using map_inj_left (l := elements) (f := readBack) (g := id)
    rw [hs]
    constructor
    · intro h text htx
      exact readBack_eq_self.1 (h _ htx)
    · intro h element hl
      cases element with
      | none => rfl
      | some text => exact readBack_eq_self.2 (h text hl)

/-! ### Clauses -/

abbrev TermClauses : Type := List (List Bytes)

/-- The clauses of `@>`: every element is needed. -/
def arrayContainsClauses (elements : List (Option String)) : Option TermClauses :=
  if elements.isEmpty || elements.any Option.isNone then none
  else some (elements.reduceOption.map fun element ↦ [arrayElementTerm element])

/-- The clause of `&&`: one element is needed. -/
def arrayOverlapClauses (elements : List (Option String)) : Option TermClauses :=
  let terms := elements.reduceOption.map arrayElementTerm
  if terms.isEmpty then none else some [terms]

def maxTermClauses : ℕ := 16

def termFilterExcludes (summary : Summary) (clauses : TermClauses) : Bool :=
  (clauses.take maxTermClauses).any fun clause ↦
    !clause.isEmpty && clause.all fun term ↦ !summaryMayContain summary term

/-- `@>`: every element of the other array is an element. A null is not equal to anything. -/
def Contains (elements other : List (Option String)) : Prop :=
  ∀ element ∈ other, ∃ text, element = some text ∧ some text ∈ elements

/-- The operator `&&`: the arrays have an element in common. -/
def Overlaps (elements other : List (Option String)) : Prop :=
  ∃ text, some text ∈ elements ∧ some text ∈ other

theorem termFilterExcludes_eq_false {summary : Summary} {clauses : TermClauses}
    (h : ∀ clause ∈ clauses, ∃ term ∈ clause, summaryMayContain summary term = true) :
    termFilterExcludes summary clauses = false := by
  rw [termFilterExcludes, any_eq_false]
  intro clause hc
  obtain ⟨term, ht, hm⟩ := h clause (mem_of_mem_take hc)
  rw [Bool.and_eq_true, not_and, all_eq_true, not_forall]
  exact fun _ ↦ ⟨term, by simp [ht, hm]⟩

section Clauses

variable {summary : Summary} {elements other : List (Option String)} {clauses : TermClauses}
  (hsummary : ∀ text, some text ∈ elements →
    summaryMayContain summary (arrayElementTerm text) = true)

include hsummary

theorem excludes_of_contains (ho : Contains elements other)
    (hl : arrayContainsClauses other = some clauses) :
    termFilterExcludes summary clauses = false := by
  rw [arrayContainsClauses] at hl
  split_ifs at hl
  rw [Option.some.injEq] at hl
  subst hl
  refine termFilterExcludes_eq_false fun clause hc ↦ ?_
  obtain ⟨text, htx, rfl⟩ := mem_map.1 hc
  obtain ⟨text', heq, hmem⟩ := ho _ (reduceOption_mem_iff.1 htx)
  rw [Option.some.injEq] at heq
  subst heq
  exact ⟨_, mem_singleton_self _, hsummary text hmem⟩

theorem excludes_of_overlaps (hv : Overlaps elements other)
    (hl : arrayOverlapClauses other = some clauses) :
    termFilterExcludes summary clauses = false := by
  rw [arrayOverlapClauses] at hl
  split_ifs at hl
  rw [Option.some.injEq] at hl
  subst hl
  obtain ⟨text, hmem, ho⟩ := hv
  refine termFilterExcludes_eq_false fun clause hc ↦ ?_
  rw [mem_singleton.1 hc]
  exact ⟨_, mem_map.2 ⟨text, reduceOption_mem_iff.2 ho, rfl⟩, hsummary text hmem⟩

end Clauses

/-! ### Filters and rows -/

/-- **Arrays and their filters.** -/
theorem parse_arrayOut_iff (reader : JsonReader) (low : ℤ) (elements : List (Option String)) :
    (parseTextArray reader (arrayOut low elements) = some elements ↔
      ∀ text, some text ∈ elements → Survives text) ∧
    ((∀ text, some text ∈ elements → Survives text) →
      ∀ {R : Type} (schema : ArrowSchema R) (name : String) (cell : R → Option String)
        (columnId : ℤ) (typeOid : ℕ) (batches : List (List R)) (summary : Summary) (row : R),
        schema name = some (.utf8 cell) → (batches.foldl (TermFilterState.addBatch reader schema)
          ⟨name, columnId, typeOid, .textArray, .new .textArray⟩).finish batches.flatten.length =
            some summary →
        row ∈ batches.flatten → cell row = some (arrayOut low elements) →
        ∀ other clauses, (Contains elements other → arrayContainsClauses other = some clauses →
            termFilterExcludes summary clauses = false) ∧
          (Overlaps elements other → arrayOverlapClauses other = some clauses →
            termFilterExcludes summary clauses = false)) := by
  have hi : parseTextArray reader (arrayOut low elements) = some elements ↔
      ∀ text, some text ∈ elements → Survives text := by
    rw [parse_arrayOut, Option.some.injEq, readArray_eq_self]
  refine ⟨hi, ?_⟩
  intro hsv R schema name cell columnId typeOid batches summary row hs hf hr htx
    other clauses
  rw [TermFilterState.finish_foldl hs] at hf
  obtain ⟨terms, ht, hm⟩ := TermFilterState.covers_of_finish hs hf hr htx
  rw [valueTerms, hi.2 hsv, Option.map_some, Option.some.injEq] at ht
  have hsummary : ∀ text, some text ∈ elements →
      summaryMayContain summary (arrayElementTerm text) = true := by
    intro text hmem
    refine hm _ ?_
    rw [← ht]
    exact mem_map.2 ⟨text, reduceOption_mem_iff.2 hmem, rfl⟩
  exact ⟨excludes_of_contains hsummary, excludes_of_overlaps hsummary⟩

def noJson : JsonReader := ⟨fun _ ↦ none, fun _ ↦ none, fun _ ↦ ""⟩

def rowFilter (text : String) : Option Summary :=
  ([[()]].foldl (TermFilterState.addBatch noJson fun _ ↦ some (.utf8 fun _ : Unit ↦ some text))
    ⟨"tags", 1, 1009, .textArray, .new .textArray⟩).finish 1

theorem parse_arrayOut_bounds :
    parseTextArray noJson (arrayOut 0 [some "a b", none, some "x"]) =
        some [some "a b", none, some "x"] ∧
      ∃ summary clauses, rowFilter (arrayOut 0 [some "a b", none, some "x"]) = some summary ∧
        arrayOverlapClauses [some "y", some "x"] = some clauses ∧
        termFilterExcludes summary clauses = false := by
  have hsv : ∀ text, some text ∈ [some "a b", none, some "x"] → Survives text := by
    intro text htx
    simp only [mem_cons, Option.some.injEq, reduceCtorEq, not_mem_nil, false_or, or_false] at htx
    rcases htx with rfl | rfl
    · exact .inl (by decide)
    · exact .inr (by decide)
  obtain ⟨hp, hf⟩ := parse_arrayOut_iff noJson 0 [some "a b", none, some "x"]
  obtain ⟨summary, hsummary⟩ := Option.isSome_iff_exists.1
    (show (rowFilter (arrayOut 0 [some "a b", none, some "x"])).isSome = true by decide +kernel)
  refine ⟨hp.2 hsv, summary, _, hsummary, rfl, ?_⟩
  have hc := hf hsv _ "tags" _ 1 1009 [[()]] summary () rfl hsummary
    mem_cons_self rfl [some "y", some "x"]
  exact (hc _).2 ⟨"x", by simp, by simp⟩ rfl

theorem parse_arrayOut_nbsp :
    parseTextArray noJson (arrayOut 1 [some "\u00a0x"]) = some [some "x"] ∧
      ∃ summary clauses, rowFilter (arrayOut 1 [some "\u00a0x"]) = some summary ∧
        arrayContainsClauses [some "\u00a0x"] = some clauses ∧
        Contains [some "\u00a0x"] [some "\u00a0x"] ∧
        termFilterExcludes summary clauses = true := by
  refine ⟨by decide, _, _, rfl, rfl, ?_, by decide +kernel⟩
  intro element he
  exact ⟨_, mem_singleton.1 he, mem_singleton_self _⟩

end Koldstore.TextArrays
