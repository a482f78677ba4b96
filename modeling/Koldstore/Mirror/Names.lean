import Koldstore.Basic.Runs

/-!
# Names of mirrors

The name of a mirror is derived from the schema and the name of its source.
-/

namespace Koldstore.MirrorName

open Machine List

abbrev Text := List Char

/-! ### The code -/

/-- `u64` hash of the bytes of a text (64-bit FNV-1a). -/
def stableNameHash (value : Text) : UInt64 := (value.flatMap String.utf8EncodeChar).foldl
    (fun hash byte ↦ (hash ^^^ byte.toUInt64) * 0x100000001b3) 0xcbf29ce484222325

def isAsciiAlphabetic (c : Char) : Bool := c.isAlpha

def isAsciiAlphanumeric (c : Char) : Bool := c.isAlphanum

def isSafeIdentifier : Text → Bool
  | [] => false
  | first :: rest =>
    (first == '_' || isAsciiAlphabetic first) &&
      rest.all fun c ↦ c == '_' || isAsciiAlphanumeric c

def hexText : ℕ → ℕ → Text
  | 0, _ => []
  | width + 1, n => hexText width (n / 16) ++ [Nat.digitChar (n % 16)]

/-- The text of a hash (`016x`). -/
def hashText (hash : UInt64) : Text := hexText 16 hash.toNat

variable (schema : Option Text) (name : Text)

/-- `schema_name`. -/
def joinedName : Text :=
  match schema with
  | none => name
  | some schema => schema ++ '_' :: name

def isPlain : Bool := isSafeIdentifier name && schema.all isSafeIdentifier

variable (text : Text)

def sanitized : Text := text.map fun c ↦ if isAsciiAlphanumeric c then c else '_'

def leading : Text → Text
  | [] => []
  | first :: _ => if first.isDigit then ['_'] else []

def pairText : Text := schema.getD [] ++ Char.ofNat 0 :: name

def derivedBaseName : Text :=
  if isPlain schema name then joinedName schema name
  else
    leading (sanitized (joinedName schema name)) ++ sanitized (joinedName schema name) ++
      '_' :: hashText (stableNameHash (pairText schema name))

def byteLen : ℕ := (text.map Char.utf8Size).sum

/-- `floor_str`: the characters that fit into a number of bytes. -/
def floorStr : Text → ℕ → Text
  | [], _ => []
  | c :: rest, maxBytes =>
    if c.utf8Size ≤ maxBytes then c :: floorStr rest (maxBytes - c.utf8Size) else []

def maxPostgresIdentifierBytes : ℕ := 63

def mirrorNameHashHexLen : ℕ := 16

def changeLogMirrorSuffix : Text := "__cl".toList

def boundedIdentifier (stem suffix : Text) : Text :=
  if byteLen (stem ++ suffix) ≤ maxPostgresIdentifierBytes then stem ++ suffix
  else
    floorStr stem (maxPostgresIdentifierBytes - 1 - mirrorNameHashHexLen - byteLen suffix) ++
      '_' :: hashText (stableNameHash stem) ++ suffix

structure Source where
  schema : Text
  name : Text
  deriving DecidableEq, Repr

namespace Source

variable (p : Source)

def base : Text := derivedBaseName (some p.schema) p.name

def mirrorRelationName : Text := boundedIdentifier p.base changeLogMirrorSuffix

/-- `mirror_relation_for_source`, without the schema of the store in front. -/
def mirrorRelationForSource : Except Text Text :=
  if isSafeIdentifier p.mirrorRelationName then .ok p.mirrorRelationName
  else .error p.mirrorRelationName

/-- Any name that is not empty and has no `NUL` is legal. -/
def Legal : Prop := p.schema ≠ [] ∧ Char.ofNat 0 ∉ p.schema ∧ p.name ≠ [] ∧ Char.ofNat 0 ∉ p.name

def Plain : Prop := isPlain (some p.schema) p.name = true

def hashed : List Text := [pairText (some p.schema) p.name, p.base]

structure HashesApart (p q : Source) : Prop where
  distinct : ∀ a ∈ p.hashed, ∀ b ∈ q.hashed, stableNameHash a = stableNameHash b → a = b
  left : p.Plain → ∀ b ∈ q.hashed, ¬hashText (stableNameHash b) <:+ p.base
  right : q.Plain → ∀ a ∈ p.hashed, ¬hashText (stableNameHash a) <:+ q.base

end Source

/-! ### Texts of hashes -/

theorem length_hexText (width n : ℕ) : (hexText width n).length = width := by
  induction width generalizing n with
  | zero => rfl
  | succ width ih => rw [hexText, length_append, ih, length_singleton]

theorem digitChar_inj {a b : ℕ} (ha : a < 16) (hb : b < 16)
    (h : Nat.digitChar a = Nat.digitChar b) : a = b := by
  have hall : ∀ a < 16, ∀ b < 16, Nat.digitChar a = Nat.digitChar b → a = b := by decide
  exact hall a ha b hb h

theorem hexText_inj {width a b : ℕ} (ha : a < 16 ^ width) (hb : b < 16 ^ width)
    (h : hexText width a = hexText width b) : a = b := by
  induction width generalizing a b with
  | zero => omega
  | succ width ih =>
    rw [hexText, hexText] at h
    obtain ⟨hf, hl⟩ := append_inj' h rfl
    have hd : a / 16 = b / 16 := ih (by omega) (by omega) hf
    have hm : a % 16 = b % 16 := digitChar_inj (Nat.mod_lt _ (by decide))
      (Nat.mod_lt _ (by decide)) (List.cons.inj hl).1
    omega

theorem length_hashText (hash : UInt64) : (hashText hash).length = 16 := length_hexText _ _

theorem hashText_inj {a b : UInt64} (h : hashText a = hashText b) : a = b :=
  UInt64.toNat_inj.1 (hexText_inj a.toNat_lt b.toNat_lt h)

theorem hash_eq_of_append {x y : Text} {a b : UInt64} (h : x ++ hashText a = y ++ hashText b) :
    a = b :=
  hashText_inj (append_inj' h ((length_hashText a).trans (length_hashText b).symm)).2

/-! ### Characters and bytes -/

def isSafeChar (c : Char) : Bool := c == '_' || isAsciiAlphanumeric c

theorem isSafeChar_digitChar {d : ℕ} (h : d < 16) : isSafeChar (Nat.digitChar d) = true := by
  have ha : ∀ d < 16, isSafeChar (Nat.digitChar d) = true := by decide
  exact ha d h

theorem all_hexText (width n : ℕ) : (hexText width n).all isSafeChar = true := by
  induction width generalizing n with
  | zero => rfl
  | succ width ih =>
    rw [hexText, all_append, ih, Bool.true_and, all_cons, all_nil, Bool.and_true]
    exact isSafeChar_digitChar (Nat.mod_lt _ (by decide))

variable {c : Char}

theorem isAlpha_iff : c.isAlpha = true ↔
      (65 ≤ c.val.toNat ∧ c.val.toNat ≤ 90) ∨ (97 ≤ c.val.toNat ∧ c.val.toNat ≤ 122) := by
  refine Bool.or_eq_true_iff.trans (or_congr decide_eq_true_iff ?_)
  refine Bool.and_eq_true_iff.trans (and_congr decide_eq_true_iff decide_eq_true_iff)

theorem isDigit_iff : c.isDigit = true ↔ 48 ≤ c.val.toNat ∧ c.val.toNat ≤ 57 :=
  Bool.and_eq_true_iff.trans (and_congr decide_eq_true_iff decide_eq_true_iff)

theorem isDigit_of_isAlpha (h : c.isAlpha = true) : c.isDigit = false := by
  rw [Bool.eq_false_iff]
  intro hd
  rw [isAlpha_iff] at h
  rw [isDigit_iff] at hd
  omega

theorem utf8Size_of_isSafeChar (h : isSafeChar c = true) : c.utf8Size = 1 := by
  rcases Bool.or_eq_true_iff.1 h with h | h
  · rw [eq_of_beq h]
    rfl
  · rw [isAsciiAlphanumeric, Char.isAlphanum, Bool.or_eq_true, isAlpha_iff, isDigit_iff] at h
    rw [Char.utf8Size_eq_one_iff, UInt32.le_iff_toNat_le]
    show _ ≤ 127
    omega

theorem isSafeIdentifier_cons {first : Char} {rest : Text} :
    isSafeIdentifier (first :: rest) = true ↔
      isSafeChar first = true ∧ first.isDigit = false ∧ rest.all isSafeChar = true := by
  simp only [isSafeIdentifier, Bool.and_eq_true, Bool.or_eq_true, isSafeChar, isAsciiAlphabetic,
    isAsciiAlphanumeric, Char.isAlphanum, ← and_assoc]
  refine and_congr_left fun _ ↦ ⟨?_, ?_⟩
  · rintro (h | h)
    · exact ⟨.inl h, eq_of_beq h ▸ rfl⟩
    · exact ⟨.inr (.inl h), isDigit_of_isAlpha h⟩
  · rintro ⟨h | h | h, hd⟩
    · exact .inl h
    · exact .inr h
    · rw [h] at hd
      cases hd

theorem isSafeIdentifier_append {a b : Text} (ha : isSafeIdentifier a = true)
    (hb : b.all isSafeChar = true) : isSafeIdentifier (a ++ b) = true := by
  cases a with
  | nil => cases ha
  | cons first rest =>
    obtain ⟨hf, hd, hre⟩ := isSafeIdentifier_cons.1 ha
    rw [cons_append]
    refine isSafeIdentifier_cons.2 ⟨hf, hd, ?_⟩
    rw [all_append, hre, hb]
    rfl

theorem all_of_isSafeIdentifier {a : Text} (h : isSafeIdentifier a = true) :
    a.all isSafeChar = true := by
  cases a with
  | nil => rfl
  | cons first rest =>
    obtain ⟨hf, -, hre⟩ := isSafeIdentifier_cons.1 h
    rw [all_cons, hf, hre]
    rfl

theorem all_sanitized : (sanitized text).all isSafeChar = true := by
  rw [sanitized, all_map, all_eq_true]
  intro c _
  show isSafeChar (if isAsciiAlphanumeric c then c else '_') = true
  split
  next h => rw [isSafeChar, h, Bool.or_true]
  next => rfl

theorem isSafeIdentifier_leading_sanitized {text : Text} (h : text ≠ []) :
    isSafeIdentifier (leading (sanitized text) ++ sanitized text) = true := by
  have ha := all_sanitized text
  rcases hs : sanitized text with _ | ⟨first, rest⟩
  · exact absurd (map_eq_nil_iff.1 hs) h
  · rw [hs, all_cons, Bool.and_eq_true] at ha
    rw [leading]
    split
    · rw [singleton_append]
      refine isSafeIdentifier_cons.2 ⟨rfl, rfl, ?_⟩
      rw [all_cons, ha.1, ha.2]
      rfl
    next hd => exact isSafeIdentifier_cons.2 ⟨ha.1, Bool.eq_false_iff.2 hd, ha.2⟩

theorem byteLen_append (a b : Text) : byteLen (a ++ b) = byteLen a + byteLen b := by
  rw [byteLen, map_append, sum_append]
  rfl

theorem byteLen_of_all {text : Text} (h : text.all isSafeChar = true) :
    byteLen text = text.length := by
  induction text with
  | nil => rfl
  | cons c rest ih =>
    rw [all_cons, Bool.and_eq_true] at h
    have hre : (rest.map Char.utf8Size).sum = rest.length := ih h.2
    rw [byteLen, map_cons, sum_cons, utf8Size_of_isSafeChar h.1, hre, length_cons, Nat.add_comm]

theorem byteLen_floorStr_le (maxBytes : ℕ) : byteLen (floorStr text maxBytes) ≤ maxBytes := by
  induction text generalizing maxBytes with
  | nil => exact Nat.zero_le _
  | cons c rest ih =>
    rw [floorStr]
    split
    next hft =>
      have hre := ih (maxBytes - c.utf8Size)
      rw [byteLen] at hre ⊢
      rw [map_cons, sum_cons]
      omega
    next => exact Nat.zero_le _

theorem isSafeIdentifier_floorStr {text : Text} {maxBytes : ℕ} (hm : 1 ≤ maxBytes)
    (h : isSafeIdentifier text = true) : isSafeIdentifier (floorStr text maxBytes) = true := by
  have ha : ∀ (rest : Text) (n : ℕ), rest.all isSafeChar = true →
      (floorStr rest n).all isSafeChar = true := by
    intro rest
    induction rest with
    | nil => exact fun _ _ ↦ rfl
    | cons c rest ih =>
      intro n hre
      rw [all_cons, Bool.and_eq_true] at hre
      rw [floorStr]
      split
      · rw [all_cons, hre.1, ih _ hre.2]
        rfl
      · rfl
  cases text with
  | nil => cases h
  | cons first rest =>
    obtain ⟨hf, hd, hre⟩ := isSafeIdentifier_cons.1 h
    rw [floorStr, utf8Size_of_isSafeChar hf, if_pos hm]
    exact isSafeIdentifier_cons.2 ⟨hf, hd, ha _ _ hre⟩

theorem all_hashText (hash : UInt64) : ('_' :: hashText hash).all isSafeChar = true := by
  rw [all_cons, hashText, all_hexText]
  rfl

namespace Source

variable {p q : Source}

theorem joinedName_some (schema name : Text) :
    joinedName (some schema) name = schema ++ '_' :: name := rfl

theorem base_of_plain (h : p.Plain) : p.base = p.schema ++ '_' :: p.name := by
  have h : isPlain (some p.schema) p.name = true := h
  rw [base, derivedBaseName, if_pos h, joinedName_some]

theorem base_of_not_plain (h : ¬p.Plain) :
    p.base = (leading (sanitized (p.schema ++ '_' :: p.name)) ++
      sanitized (p.schema ++ '_' :: p.name) ++ ['_']) ++
        hashText (stableNameHash (pairText (some p.schema) p.name)) := by
  have h : ¬isPlain (some p.schema) p.name = true := h
  rw [base, derivedBaseName, if_neg h, joinedName_some, append_cons]

theorem isSafeIdentifier_base (p : Source) : isSafeIdentifier p.base = true := by
  by_cases hpl : p.Plain
  · rw [base_of_plain hpl]
    obtain ⟨hnm, hs⟩ := Bool.and_eq_true_iff.1 hpl
    refine isSafeIdentifier_append hs ?_
    rw [all_cons, all_of_isSafeIdentifier hnm]
    rfl
  · rw [base_of_not_plain hpl, ← append_cons]
    refine isSafeIdentifier_append (isSafeIdentifier_leading_sanitized ?_) (all_hashText _)
    exact append_ne_nil_of_right_ne_nil _ (cons_ne_nil _ _)

def body (p : Source) : Text :=
  if byteLen (p.base ++ changeLogMirrorSuffix) ≤ maxPostgresIdentifierBytes then p.base
  else floorStr p.base 42 ++ '_' :: hashText (stableNameHash p.base)

theorem stem_bytes : maxPostgresIdentifierBytes - 1 - mirrorNameHashHexLen -
    byteLen changeLogMirrorSuffix = 42 := by decide

theorem mirrorRelationName_eq (p : Source) :
    p.mirrorRelationName = p.body ++ changeLogMirrorSuffix := by
  rw [mirrorRelationName, boundedIdentifier, body, stem_bytes]
  split_ifs
  · rfl
  · rfl

theorem mirrorRelationForSource_eq (p : Source) :
    p.mirrorRelationForSource = .ok p.mirrorRelationName := by
  have hb : isSafeIdentifier p.body = true := by
    rw [body]
    split
    · exact p.isSafeIdentifier_base
    · exact isSafeIdentifier_append
        (isSafeIdentifier_floorStr (by decide) p.isSafeIdentifier_base) (all_hashText _)
  rw [mirrorRelationForSource, if_pos]
  rw [mirrorRelationName_eq]
  exact isSafeIdentifier_append hb (by decide)

theorem byteLen_mirrorRelationName_le (p : Source) : byteLen p.mirrorRelationName ≤ 63 := by
  rw [mirrorRelationName_eq, body]
  split
  next hft => exact hft
  next =>
    have hc := byteLen_floorStr_le p.base 42
    have hha : byteLen ('_' :: hashText (stableNameHash p.base)) = 17 := by
      rw [byteLen_of_all (all_hashText _), length_cons, length_hashText]
    have hs : byteLen changeLogMirrorSuffix = 4 := by decide
    rw [byteLen_append, byteLen_append]
    omega

/-! ### When two names are the same -/

/-- **The end of a mirror name.** -/
theorem body_cases (p : Source) :
    p.body = p.base ∨ ∃ x, p.body = x ++ hashText (stableNameHash p.base) := by
  rw [body]
  split
  · exact .inl rfl
  · exact .inr ⟨floorStr p.base 42 ++ ['_'], append_cons ..⟩

theorem pairText_mem_hashed (p : Source) : pairText (some p.schema) p.name ∈ p.hashed :=
  mem_cons_self

theorem base_mem_hashed (p : Source) : p.base ∈ p.hashed := mem_cons_of_mem _ mem_cons_self

theorem eq_of_pairText (hp : p.Legal) (hq : q.Legal)
    (h : pairText (some p.schema) p.name = pairText (some q.schema) q.name) : p = q := by
  obtain ⟨hs, -, hnm⟩ := (append_cons_inj_of_notMem hq.2.1 hq.2.2.2).1 h.symm
  cases p
  cases q
  exact congrArg₂ Source.mk hs.symm hnm.symm

theorem pairText_ne_base (p q : Source) : pairText (some p.schema) p.name ≠ q.base := by
  intro h
  have ha := all_of_isSafeIdentifier q.isSafeIdentifier_base
  rw [← h, all_eq_true] at ha
  have hn := ha (Char.ofNat 0) (mem_append_right _ mem_cons_self)
  exact absurd hn (by decide)

theorem base_eq_iff (hp : p.Legal) (hq : q.Legal) (hne : p ≠ q) (hap : HashesApart p q) :
    p.base = q.base ↔
      p.Plain ∧ q.Plain ∧ p.schema ++ '_' :: p.name = q.schema ++ '_' :: q.name := by
  constructor
  · intro h
    by_cases hpl : p.Plain <;> by_cases hpl' : q.Plain
    · rw [base_of_plain hpl, base_of_plain hpl'] at h
      exact ⟨hpl, hpl', h⟩
    · refine absurd ?_ (hap.left hpl _ q.pairText_mem_hashed)
      rw [h, base_of_not_plain hpl']
      exact suffix_append _ _
    · refine absurd ?_ (hap.right hpl' _ p.pairText_mem_hashed)
      rw [← h, base_of_not_plain hpl]
      exact suffix_append _ _
    · rw [base_of_not_plain hpl, base_of_not_plain hpl'] at h
      have hha := hash_eq_of_append h
      have hpr := hap.distinct _ p.pairText_mem_hashed _ q.pairText_mem_hashed hha
      exact absurd (eq_of_pairText hp hq hpr) hne
  · rintro ⟨hpl, hpl', h⟩
    rw [base_of_plain hpl, base_of_plain hpl', h]

theorem base_ne_of_hashed (hap : HashesApart p q) {x : Text} :
    x ++ hashText (stableNameHash p.base) ≠ q.base := by
  intro h
  by_cases hpl : q.Plain
  · exact hap.right hpl _ p.base_mem_hashed (h ▸ suffix_append _ _)
  · rw [base_of_not_plain hpl] at h
    have hha := hash_eq_of_append h
    have hsm := hap.distinct _ p.base_mem_hashed _ q.pairText_mem_hashed hha
    exact pairText_ne_base q p hsm.symm

theorem HashesApart.symm (h : HashesApart p q) : HashesApart q p :=
  ⟨fun a ha b hb heq ↦ (h.distinct b hb a ha heq.symm).symm, h.right, h.left⟩

theorem mirrorRelationName_eq_iff (hap : HashesApart p q) :
    p.mirrorRelationName = q.mirrorRelationName ↔ p.base = q.base := by
  constructor
  · intro h
    rw [mirrorRelationName_eq, mirrorRelationName_eq] at h
    have h : p.body = q.body := append_cancel_right h
    rcases p.body_cases with hp | ⟨x, hp⟩ <;> rcases q.body_cases with hq | ⟨y, hq⟩
    · rw [← hp, h, hq]
    · exact absurd (hq.symm.trans (h.symm.trans hp)) (base_ne_of_hashed hap.symm)
    · exact absurd (hp.symm.trans (h.trans hq)) (base_ne_of_hashed hap)
    · rw [hp, hq] at h
      exact hap.distinct _ p.base_mem_hashed _ q.base_mem_hashed (hash_eq_of_append h)
  · intro h
    rw [mirrorRelationName, mirrorRelationName, h]

end Source

/-! ### Ownership -/

abbrev Owners := List (ℕ × Text)

namespace Owners

variable (owners : Owners)

/-- `mirror_has_other_active_owner`. -/
def hasOtherActiveOwner (tableOid : ℕ) (mirror : Text) : Bool :=
  owners.any fun owner ↦ decide (owner.1 ≠ tableOid) && decide (owner.2 = mirror)

inductive Event
  | manage (tableOid : ℕ) (source : Source)
  | release (tableOid : ℕ)

def step : Event → Option Owners
  | .manage tableOid source =>
    match source.mirrorRelationForSource with
    | .error _ => none
    | .ok mirror =>
      if owners.hasOtherActiveOwner tableOid mirror then none
      else some ((tableOid, mirror) :: owners.filter fun owner ↦ decide (owner.1 ≠ tableOid))
  | .release tableOid => some (owners.filter fun owner ↦ decide (owner.1 ≠ tableOid))

def Apart : Prop := ∀ a ∈ owners, ∀ b ∈ owners, a.2 = b.2 → a.1 = b.1

theorem Apart.filter {owners : Owners} (h : owners.Apart) (p : ℕ × Text → Bool) :
    Apart (owners.filter p) :=
  fun a ha b hb ↦ h a (mem_of_mem_filter ha) b (mem_of_mem_filter hb)

theorem apart_step {owners owners' : Owners} {e : Event} (h : owners.Apart)
    (hstep : owners.step e = some owners') : owners'.Apart := by
  cases e with
  | release tableOid =>
    cases hstep
    exact h.filter _
  | manage tableOid source =>
    rw [step, source.mirrorRelationForSource_eq] at hstep
    simp only at hstep
    split at hstep <;> cases hstep
    next hfe =>
      have ho : ∀ a ∈ owners, a.2 = source.mirrorRelationName → a.1 = tableOid := by
        intro a ha hm
        by_contra hother
        refine hfe (any_eq_true.2 ⟨a, ha, ?_⟩)
        rw [decide_eq_true hother, decide_eq_true hm]
        rfl
      intro a ha b hb hm
      rcases mem_cons.1 ha with rfl | ha <;> rcases mem_cons.1 hb with rfl | hb
      · rfl
      · exact (ho b (mem_of_mem_filter hb) hm.symm).symm
      · exact ho a (mem_of_mem_filter ha) hm
      · exact h.filter _ a ha b hb hm

abbrev Run : Owners → Owners → Prop := Reaches step fun _ _ ↦ True

theorem apart_of_run {owners : Owners} (h : Run [] owners) : owners.Apart :=
  h.inv (nofun) fun _ _ _ hi _ hstep ↦ apart_step hi hstep

end Owners

/-- **Mirror names.** Every source has a mirror name of at most 63 bytes. -/
theorem mirrorNames_apart {p q : Source} (hp : p.Legal) (hq : q.Legal) (hne : p ≠ q)
    (hapart : p.HashesApart q) :
    p.mirrorRelationForSource = .ok p.mirrorRelationName ∧
      q.mirrorRelationForSource = .ok q.mirrorRelationName ∧
      byteLen p.mirrorRelationName ≤ 63 ∧ byteLen q.mirrorRelationName ≤ 63 ∧
      (p.mirrorRelationName = q.mirrorRelationName ↔
        p.Plain ∧ q.Plain ∧ p.schema ++ '_' :: p.name = q.schema ++ '_' :: q.name) ∧
      ∀ owners, Owners.Run [] owners → owners.Apart :=
  ⟨p.mirrorRelationForSource_eq, q.mirrorRelationForSource_eq, p.byteLen_mirrorRelationName_le,
    q.byteLen_mirrorRelationName_le,
    (Source.mirrorRelationName_eq_iff hapart).trans (Source.base_eq_iff hp hq hne hapart),
    fun _ ↦ Owners.apart_of_run⟩

def left : Source := ⟨"a_b".toList, "c".toList⟩

def right : Source := ⟨"a".toList, "b_c".toList⟩

def quoted : Source := ⟨"a b".toList, "c".toList⟩

instance (p : Source) : Decidable p.Plain := inferInstanceAs (Decidable (_ = _))

theorem hashesApart_iff {p q : Source} : p.HashesApart q ↔
    (∀ a ∈ p.hashed, ∀ b ∈ q.hashed, stableNameHash a = stableNameHash b → a = b) ∧
      (p.Plain → ∀ b ∈ q.hashed, ¬hashText (stableNameHash b) <:+ p.base) ∧
      (q.Plain → ∀ a ∈ p.hashed, ¬hashText (stableNameHash a) <:+ q.base) :=
  ⟨fun h ↦ ⟨h.distinct, h.left, h.right⟩, fun h ↦ ⟨h.1, h.2.1, h.2.2⟩⟩

instance (p q : Source) : Decidable (p.HashesApart q) := decidable_of_iff' _ hashesApart_iff

instance (p : Source) : Decidable p.Legal := inferInstanceAs (Decidable (_ ∧ _ ∧ _ ∧ _))

theorem mirrorNames_apart_quoted : left.mirrorRelationName ≠ quoted.mirrorRelationName := by
  have hap : left.HashesApart quoted := by decide +kernel
  have hn := mirrorNames_apart (p := left) (q := quoted) (by decide) (by decide) (by decide)
    hap
  exact fun h ↦ absurd (hn.2.2.2.2.1.1 h).2.1 (by decide)

/-- **Two plain sources with one mirror name.** -/
theorem left_right_same_name : left ≠ right ∧ left.Legal ∧ right.Legal ∧ left.HashesApart right ∧
    left.mirrorRelationName = right.mirrorRelationName := by
  decide +kernel

end Koldstore.MirrorName
