import Koldstore.Basic.Pairing
import Koldstore.Compaction.Rewrite

/-!
# The order of rewritten rows

A rewrite sorts the rows it keeps and cuts them into segments.
-/

namespace Koldstore.Compaction

open List

open ByteOrder SortKey

/-! ### Comparing cells -/

def totalRank (width bits : ℕ) : ℤ :=
  if bits < 2 ^ (width - 1) then bits else 2 ^ (width - 1) - 1 - bits

def cmpCells (left right : CellValue) : Ordering :=
  match left.asI64, right.asI64 with
  | some l, some r => cmp l.toInt r.toInt
  | some _, none => .lt
  | none, some _ => .gt
  | none, none =>
    match left, right with
    | .utf8 l, .utf8 r => lexCmp (utf8 l) (utf8 r)
    | .float64 l, .float64 r => cmp (totalRank 64 l.toNat) (totalRank 64 r.toNat)
    | .float32 l, .float32 r => cmp (totalRank 32 l.toNat) (totalRank 32 r.toNat)
    | _, _ => .eq

section Agree

variable {storekey : Storekey} {v w : SortKeyValue}

/-- The sort key of a value; only a `numeric` may have none. -/
def sortKey (storekey : Storekey) (v : SortKeyValue) : Bytes :=
  (encodeSortKey storekey v).toOption.getD []

theorem encodeSortKey_eq_ok (hn : v.sortKeyType ≠ .numeric) :
    encodeSortKey storekey v = .ok (sortKey storekey v) := by
  cases v with
  | numeric text => exact absurd rfl hn
  | _ => rfl

theorem cmpCells_cell (hty : v.sortKeyType = w.sortKeyType) (hb : v.sortKeyType ≠ .bool)
    (hn : v.sortKeyType ≠ .numeric) :
    cmpCells v.cell w.cell = lexCmp (sortKey storekey v) (sortKey storekey w) := by
  cases v <;> cases w <;> cases hty
  case bool.bool.refl => exact absurd rfl hb
  case numeric.numeric.refl => exact absurd rfl hn
  case int2.int2.refl a b =>
    refine Eq.trans ?_ (storekey.lexCmp_encodeI16 a b).symm
    rw [← Int16.toInt_toInt64 a, ← Int16.toInt_toInt64 b]
    rfl
  case int4.int4.refl a b | date.date.refl a b =>
    refine Eq.trans ?_ (storekey.lexCmp_encodeI32 a b).symm
    rw [← Int32.toInt_toInt64 a, ← Int32.toInt_toInt64 b]
    rfl
  case int8.int8.refl a b | timestamp.timestamp.refl a b | timestamptz.timestamptz.refl a b =>
    exact (storekey.lexCmp_encodeI64 a b).symm
  case uuid.uuid.refl a b =>
    refine Eq.trans ?_ (storekey.lexCmp_encodeUuid a b).symm
    rw [← lexCmp_charBytes_uuidChars (i := 0) (a.length_bytes.trans b.length_bytes.symm)]
    show lexCmp (utf8 a.text) (utf8 b.text) = _
    rw [utf8, utf8, Uuid.text, Uuid.text, String.toList_ofList, String.toList_ofList]
  case text.text.refl => rfl

theorem utf8_injective : Function.Injective utf8 := by
  intro s t h
  have hbs : s.toList.flatMap String.utf8EncodeChar = t.toList.flatMap String.utf8EncodeChar :=
    map_injective_iff.2 (fun _ _ ↦ UInt8.toFin_inj.1) h
  rw [← String.ofList_toList (s := s), ← String.ofList_toList (s := t), ← String.toByteArray_inj,
    String.toByteArray_ofList, String.toByteArray_ofList, List.utf8Encode, hbs, List.utf8Encode]

theorem eq_of_encodeI16 {a b : Int16}
    (h : lexCmp (storekey.encodeI16 a) (storekey.encodeI16 b) = .eq) : a = b :=
  Int16.toInt_inj.1 ((cmp_eq_eq_iff _ _).1 ((storekey.lexCmp_encodeI16 a b).symm.trans h))

theorem eq_of_encodeI32 {a b : Int32}
    (h : lexCmp (storekey.encodeI32 a) (storekey.encodeI32 b) = .eq) : a = b :=
  Int32.toInt_inj.1 ((cmp_eq_eq_iff _ _).1 ((storekey.lexCmp_encodeI32 a b).symm.trans h))

theorem eq_of_encodeI64 {a b : Int64}
    (h : lexCmp (storekey.encodeI64 a) (storekey.encodeI64 b) = .eq) : a = b :=
  Int64.toInt_inj.1 ((cmp_eq_eq_iff _ _).1 ((storekey.lexCmp_encodeI64 a b).symm.trans h))

theorem sortKey_injective (hty : v.sortKeyType = w.sortKeyType)
    (hn : v.sortKeyType ≠ .numeric) (h : sortKey storekey v = sortKey storekey w) : v = w := by
  have hs : lexCmp (sortKey storekey v) (sortKey storekey w) = .eq := by rw [h, lexCmp_self]
  cases v <;> cases w <;> cases hty
  case numeric.numeric.refl => exact absurd rfl hn
  case bool.bool.refl a b =>
    rw [(cmp_eq_eq_iff _ _).1 ((storekey.lexCmp_encodeBool a b).symm.trans hs)]
  case int2.int2.refl => exact congrArg _ (eq_of_encodeI16 hs)
  case int4.int4.refl | date.date.refl => exact congrArg _ (eq_of_encodeI32 hs)
  case int8.int8.refl | timestamp.timestamp.refl | timestamptz.timestamptz.refl =>
    exact congrArg _ (eq_of_encodeI64 hs)
  case uuid.uuid.refl a b =>
    have hbs := compares_lexCmp a.bytes b.bytes
    rw [(storekey.lexCmp_encodeUuid a b).symm.trans hs] at hbs
    exact congrArg _ (Uuid.ext hbs)
  case text.text.refl => exact congrArg _ (utf8_injective h)

end Agree

section Sorting

variable {K V : Type*} (order : Option (Feed.ColdRow K V → CellValue))
  (keys : List (Feed.ColdRow K V → CellValue))

def cmpRows (left right : Feed.ColdRow K V) : Ordering :=
  let byOrder := order.elim .eq fun cell ↦ cmpCells (cell left) (cell right)
  (keys.foldl (fun ordering cell ↦ ordering.then (cmpCells (cell left) (cell right))) byOrder).then
    (cmp left.seq right.seq)

def sortRows (rows : List (Feed.ColdRow K V)) :
    List (Feed.ColdRow K V) :=
  rows.insertionSort fun left right ↦ cmpRows order keys left right ≠ .gt

theorem perm_sortRows (rows : List (Feed.ColdRow K V)) : (sortRows order keys rows).Perm rows :=
  perm_insertionSort _ rows

end Sorting

abbrev KeyOf (ty : SortKeyType) : Type := { v : SortKeyValue // v.sortKeyType = ty }

section Single

variable {ty : SortKeyType} {V : Type*} {storekey : Storekey}
  {order : Option (Feed.ColdRow (KeyOf ty) V → CellValue)}
  {rows : List (Feed.ColdRow (KeyOf ty) V)} {r r' : Feed.ColdRow (KeyOf ty) V}

def keyCell (r : Feed.ColdRow (KeyOf ty) V) : CellValue := r.pk.val.cell

def rowKey (storekey : Storekey) (r : Feed.ColdRow (KeyOf ty) V) : Bytes :=
  sortKey storekey r.pk.val

def OrderedByKey (order : Option (Feed.ColdRow (KeyOf ty) V → CellValue)) : Prop :=
  order = none ∨ order = some keyCell

theorem rowKey_injective (hn : ty ≠ .numeric) (h : rowKey storekey r = rowKey storekey r') :
    r.pk = r'.pk :=
  Subtype.ext (sortKey_injective (r.pk.property.trans r'.pk.property.symm)
    (r.pk.property.symm ▸ hn) h)

theorem cmpRows_of_orderedByKey (ho : OrderedByKey order) (hb : ty ≠ .bool) (hn : ty ≠ .numeric) :
    cmpRows order [keyCell] r r' =
      (lexCmp (rowKey storekey r) (rowKey storekey r')).then (cmp r.seq r'.seq) := by
  have hcs : cmpCells (keyCell r) (keyCell r') =
      lexCmp (rowKey storekey r) (rowKey storekey r') :=
    cmpCells_cell (r.pk.property.trans r'.pk.property.symm) (r.pk.property.symm ▸ hb)
      (r.pk.property.symm ▸ hn)
  rcases ho with rfl | rfl
  · show (Ordering.eq.then (cmpCells _ _)).then _ = _
    rw [hcs, Ordering.then]
  · show ((cmpCells _ _).then (cmpCells _ _)).then _ = _
    rw [hcs]
    cases lexCmp (rowKey storekey r) (rowKey storekey r') <;> rfl

theorem cmpRows_ne_gt_iff (ho : OrderedByKey order) (hb : ty ≠ .bool) (hn : ty ≠ .numeric) :
    cmpRows order [keyCell] r r' ≠ .gt ↔
      toLex (rowKey storekey r, r.seq) ≤ toLex (rowKey storekey r', r'.seq) := by
  have hc : cmpRows order [keyCell] r r' =
      (lexCmp (rowKey storekey r) (rowKey storekey r')).then (cmp r.seq r'.seq) :=
    cmpRows_of_orderedByKey ho hb hn
  rw [hc, Prod.Lex.toLex_le_toLex]
  have hk := compares_lexCmp (rowKey storekey r) (rowKey storekey r')
  have hs := cmp_compares r.seq r'.seq
  revert hk
  cases lexCmp (rowKey storekey r) (rowKey storekey r') with
  | lt => exact fun hk ↦ iff_of_true (nofun) (.inl hk)
  | gt =>
    intro hk
    refine iff_of_false (fun h ↦ h rfl) ?_
    rintro (hlt | ⟨heq, -⟩)
    · exact absurd hlt (lt_asymm hk)
    · exact absurd heq (ne_of_gt hk)
  | eq =>
    intro hk
    rw [Ordering.then, hs.ne_gt]
    exact ⟨fun h ↦ .inr ⟨hk, h⟩, fun h ↦ h.elim (fun h ↦ absurd hk h.ne) And.right⟩

theorem pairwise_sortRows (ho : OrderedByKey order) (hb : ty ≠ .bool)
    (hn : ty ≠ .numeric) (rows : List (Feed.ColdRow (KeyOf ty) V)) :
    (sortRows order [keyCell] rows).Pairwise fun a b ↦ rowKey storekey a ≤ rowKey storekey b := by
  have hi : ∀ a b : Feed.ColdRow (KeyOf ty) V, cmpRows order [keyCell] a b ≠ .gt ↔
      toLex (rowKey storekey a, a.seq) ≤ toLex (rowKey storekey b, b.seq) :=
    fun a b ↦ cmpRows_ne_gt_iff ho hb hn
  have ht : Std.Total fun a b : Feed.ColdRow (KeyOf ty) V ↦
      cmpRows order [keyCell] a b ≠ .gt :=
    ⟨fun a b ↦ by rw [hi, hi]; exact le_total _ _⟩
  have hr : IsTrans (Feed.ColdRow (KeyOf ty) V) fun a b ↦ cmpRows order [keyCell] a b ≠ .gt :=
    ⟨fun a b c hab hbc ↦ (hi a c).2 (((hi a b).1 hab).trans ((hi b c).1 hbc))⟩
  refine (pairwise_insertionSort _ rows).imp fun {a b} hab ↦ ?_
  exact Prod.Lex.monotone_fst _ _ ((hi a b).1 hab)

end Single

section Rewritten

variable {K V B : Type*} [DecidableEq K] [LinearOrder B] (u : Feed.CompactionUnit K V B)
  (feed : Feed.ChangeFeed K V)

def rewritten : List (Feed.ColdSegment K V) :=
  (u.batches feed).flatMap fun b ↦ u.encoder.encode b.kept

def WritesSorted (order : Option (Feed.ColdRow K V → CellValue))
    (keys : List (Feed.ColdRow K V → CellValue)) (encoder : Feed.SegmentEncoder K V) : Prop :=
  ∀ rows, (encoder.encode rows).flatMap Feed.ColdSegment.rows = sortRows order keys rows

variable {u feed}

theorem pairwise_kept :
    ((u.batches feed).flatMap Feed.ResolvedRows.kept).Pairwise fun a b ↦ a.pk ≠ b.pk := by
  obtain ⟨dropped, hp⟩ := u.splits_batches feed
  have hsub : ((u.batches feed).flatMap Feed.ResolvedRows.kept).Sublist
      ((u.batches feed).flatMap Feed.ResolvedRows.kept ++
        (u.batches feed).flatMap Feed.ResolvedRows.history ++ dropped) :=
    (sublist_append_left _ _).trans (sublist_append_left _ _)
  have hnd := ((hp.perm.map fun r ↦ r.seq).nodup_iff.2 (u.nodup_rows feed)).sublist
    (hsub.map fun r ↦ r.seq)
  refine List.Pairwise.imp_of_mem ?_ (pairwise_map.1 hnd)
  intro a b ha hb hs hpk
  obtain ⟨ha, hkt⟩ := hp.mem_kept_iff.1 ha
  obtain ⟨hb, hkt'⟩ := hp.mem_kept_iff.1 hb
  rcases lt_or_gt_of_ne hs with hlt | hlt
  · exact hkt (.inl ⟨b, hb, hpk.symm, hlt⟩)
  · exact hkt' (.inl ⟨a, ha, hpk, hlt⟩)

variable {order : Option (Feed.ColdRow K V → CellValue)}
  {keys : List (Feed.ColdRow K V → CellValue)}

theorem flatMap_rows_rewritten (hws : WritesSorted order keys u.encoder) :
    (rewritten u feed).flatMap Feed.ColdSegment.rows =
      (u.batches feed).flatMap fun b ↦ sortRows order keys b.kept := by
  rw [rewritten, flatMap_assoc]
  exact flatMap_congr fun b _ ↦ hws b.kept

theorem pairwise_pk_rewritten (hws : WritesSorted order keys u.encoder) :
    (rewritten u feed).Pairwise fun s s' ↦ ∀ a ∈ s.rows, ∀ b ∈ s'.rows, a.pk ≠ b.pk := by
  have hp : ((rewritten u feed).flatMap Feed.ColdSegment.rows).Perm
      ((u.batches feed).flatMap Feed.ResolvedRows.kept) := by
    rw [flatMap_rows_rewritten hws]
    exact List.Perm.flatMap_left _ fun b _ ↦ perm_sortRows order keys b.kept
  have hpw : ((rewritten u feed).flatMap Feed.ColdSegment.rows).Pairwise
      fun a b ↦ a.pk ≠ b.pk :=
    (hp.pairwise_iff fun h ↦ h.symm).2 pairwise_kept
  exact (pairwise_flatMap.1 hpw).2

theorem mem_slice_of_mem_kept {lo hi : Option B} {r : Feed.ColdRow K V}
    (hr : r ∈ (Feed.resolveVersions (Feed.slice u.lead lo hi (u.rows feed)) u.dropMarkers
      u.retainFrom).kept) : r ∈ Feed.slice u.lead lo hi (u.rows feed) := by
  obtain ⟨dropped, hs⟩ := Feed.resolveVersions_splits
    ((u.nodup_rows feed).sublist (filter_sublist.map _)) u.dropMarkers u.retainFrom
  exact (hs.mem_kept_iff.1 hr).1

theorem pairwise_batches : (u.batches feed).Pairwise fun b b' ↦
    ∀ r ∈ b.kept, ∀ r' ∈ b'.kept, u.lead r.pk < u.lead r'.pk := by
  rw [Feed.CompactionUnit.batches, pairwise_map]
  refine List.Pairwise.imp_of_mem ?_ (Feed.pairwise_slices u.sorted)
  intro s s' hs hs' hlt r hr r' hr'
  obtain ⟨lo, hi, rfl⟩ := Feed.exists_slice_of_mem_slices hs
  obtain ⟨lo', hi', rfl⟩ := Feed.exists_slice_of_mem_slices hs'
  exact hlt r (mem_slice_of_mem_kept hr) r' (mem_slice_of_mem_kept hr')

end Rewritten

variable {range : SegmentRange Bytes}

section Boxes

variable {ty : SortKeyType} {V : Type*} {storekey : Storekey}
  {order : Option (Feed.ColdRow (KeyOf ty) V → CellValue)}
  {u : Feed.CompactionUnit (KeyOf ty) V Bytes} {feed : Feed.ChangeFeed (KeyOf ty) V}

theorem pairwise_rowKey_rewritten (ho : OrderedByKey order) (hbool : ty ≠ .bool)
    (hn : ty ≠ .numeric) (hl : ∀ k, u.lead k = sortKey storekey k.val)
    (hws : WritesSorted order [keyCell] u.encoder) : (rewritten u feed).Pairwise fun s s' ↦
      ∀ a ∈ s.rows, ∀ b ∈ s'.rows, rowKey storekey a < rowKey storekey b := by
  have hso : ((rewritten u feed).flatMap Feed.ColdSegment.rows).Pairwise
      fun a b ↦ rowKey storekey a ≤ rowKey storekey b := by
    rw [flatMap_rows_rewritten hws, pairwise_flatMap]
    refine ⟨fun b _ ↦ pairwise_sortRows ho hbool hn b.kept, ?_⟩
    refine pairwise_batches.imp fun {b b'} hlt r hr r' hr' ↦ ?_
    have hle := hlt r ((perm_sortRows _ _ _).mem_iff.1 hr) r' ((perm_sortRows _ _ _).mem_iff.1 hr')
    rw [hl, hl] at hle
    exact hle.le
  refine ((pairwise_pk_rewritten hws).and (pairwise_flatMap.1 hso).2).imp ?_
  intro s s' h a ha b hb
  refine lt_of_le_of_ne (h.2 a ha b hb) fun heq ↦ h.1 a ha b hb ?_
  exact rowKey_injective hn heq

def statisticsLength : ℕ := 64

def textBytes : SortKeyValue → Bytes
  | .text value => utf8 value
  | _ => []

def Truncated (v : SortKeyValue) : Prop := statisticsLength < (textBytes v).length

instance : DecidablePred Truncated := fun v ↦
  inferInstanceAs (Decidable (statisticsLength < (textBytes v).length))

def Describes (storekey : Storekey) (keys : List (KeyOf ty)) (range : SegmentRange Bytes) : Prop :=
  ∃ lo hi, range.bounds = [(lo, hi)] ∧
    (∀ k ∈ keys, lo ≤ sortKey storekey k.val ∧ sortKey storekey k.val ≤ hi) ∧
    ((∀ k ∈ keys, ¬Truncated k.val) →
      (∃ k ∈ keys, sortKey storekey k.val = lo) ∧ ∃ k ∈ keys, sortKey storekey k.val = hi)

def DescribeAll (storekey : Storekey) (segments : List (Feed.ColdSegment (KeyOf ty) V))
    (ranges : List (SegmentRange Bytes)) : Prop :=
  List.Forall₂ (Describes storekey) (segments.map fun s ↦ s.rows.map fun r ↦ r.pk) ranges

theorem mayShareKeys_eq_false {range' : SegmentRange Bytes} {lo hi lo' hi' : Bytes}
    (hr : range.bounds = [(lo, hi)]) (hr' : range'.bounds = [(lo', hi')])
    (h : hi < lo' ∨ hi' < lo) : range.mayShareKeys range' = false := by
  have hap : intersects (lo, hi) (lo', hi') = false := by
    rcases h with h | h <;> simp [intersects, h.not_ge]
  simp [SegmentRange.mayShareKeys, hr, hr', hap]

theorem Describes.exists_ends {rows : List (Feed.ColdRow (KeyOf ty) V)}
    (h : Describes storekey (rows.map fun r ↦ r.pk) range) (hex : ∀ r ∈ rows, ¬Truncated r.pk.val) :
    ∃ a ∈ rows, ∃ b ∈ rows,
      range.bounds = [(rowKey storekey a, rowKey storekey b)] := by
  obtain ⟨lo, hi, hbs, -, he⟩ := h
  obtain ⟨⟨k, hk, rfl⟩, k', hk', rfl⟩ := he (forall_mem_map.2 hex)
  obtain ⟨a, ha, rfl⟩ := mem_map.1 hk
  obtain ⟨b, hb, rfl⟩ := mem_map.1 hk'
  exact ⟨a, ha, b, hb, hbs⟩

theorem eq_of_ne_of_ne (hb : ty = .bool) {a b c : KeyOf ty} (hac : a ≠ c) (hbc : b ≠ c) :
    a = b := by
  subst hb
  have hv : ∀ k : KeyOf .bool, ∃ value, k.val = .bool value := by
    rintro ⟨k, hk⟩
    cases k <;> cases hk
    exact ⟨_, rfl⟩
  obtain ⟨x, hx⟩ := hv a
  obtain ⟨y, hy⟩ := hv b
  obtain ⟨z, hz⟩ := hv c
  rw [ne_eq, Subtype.ext_iff, hx, hz, SortKeyValue.bool.injEq] at hac
  rw [ne_eq, Subtype.ext_iff, hy, hz, SortKeyValue.bool.injEq] at hbc
  rw [Subtype.ext_iff, hx, hy, SortKeyValue.bool.injEq]
  revert hac hbc
  cases x <;> cases y <;> cases z <;> simp

/-- **A rewrite separates the keys.** -/
theorem pairwise_rewritten (ho : OrderedByKey order) (hn : ty ≠ .numeric)
    (hle : ∀ k, u.lead k = sortKey storekey k.val) (hws : WritesSorted order [keyCell] u.encoder)
    (hex : ∀ s ∈ rewritten u feed, ∀ r ∈ s.rows, ¬Truncated r.pk.val)
    {ranges : List (SegmentRange Bytes)} (hr : DescribeAll storekey (rewritten u feed) ranges) :
    ranges.Pairwise fun range range' ↦ range.mayShareKeys range' = false := by
  have he : List.Forall₂ (fun (s : Feed.ColdSegment (KeyOf ty) V) range ↦ ∃ a ∈ s.rows,
      ∃ b ∈ s.rows, range.bounds = [(rowKey storekey a, rowKey storekey b)])
        (rewritten u feed) ranges :=
    ((forall₂_and_left _ _).2 ⟨hex, forall₂_map_left_iff.1 hr⟩).imp
      fun s range h ↦ h.2.exists_ends h.1
  by_cases hbool : ty = .bool
  · -- Each of two segments has one key only.
    refine Pairing.pairwise ?_ he (pairwise_pk_rewritten hws)
    rintro s s' range range' ⟨a, ha, b, hb, hbs⟩ ⟨a', ha', b', hb', hbs'⟩ hne
    have hab : a.pk = b.pk := eq_of_ne_of_ne hbool (hne a ha a' ha') (hne b hb a' ha')
    have hab' : a'.pk = b'.pk :=
      eq_of_ne_of_ne hbool (hne a ha a' ha').symm (hne a ha b' hb').symm
    have hks : rowKey storekey a ≠ rowKey storekey a' := fun heq ↦
      hne a ha a' ha' (rowKey_injective hn heq)
    refine mayShareKeys_eq_false hbs hbs' ?_
    rw [rowKey, rowKey, ← hab, rowKey, rowKey, ← hab']
    exact lt_or_gt_of_ne hks
  · refine Pairing.pairwise ?_ he
      (pairwise_rowKey_rewritten ho hbool hn hle hws)
    rintro s s' range range' ⟨a, ha, b, hb, hbs⟩ ⟨a', ha', b', hb', hbs'⟩ hlt
    exact mayShareKeys_eq_false hbs hbs' (.inl (hlt b hb a' ha'))

theorem mem_rows_of_mem_rewritten {s : Feed.ColdSegment (KeyOf ty) V} (hs : s ∈ rewritten u feed)
    {r : Feed.ColdRow (KeyOf ty) V} (hr : r ∈ s.rows) : r ∈ u.rows feed := by
  obtain ⟨dropped, hp⟩ := u.splits_batches feed
  have hkt := (u.rows_encode_batches feed Feed.ResolvedRows.kept).mem_iff.1
    (mem_flatMap.2 ⟨s, hs, hr⟩)
  exact (hp.mem_kept_iff.1 hkt).1

end Boxes

/-- **A rewritten unit is settled**: planning its outputs again finds no overlap. -/
theorem rewrite_settles (storekey : Storekey) (ty : SortKeyType) (V : Type*) :
    (ty ≠ .bool → ty ≠ .numeric → ∀ v w : KeyOf ty, ∃ a b,
      encodeSortKey storekey v.val = .ok a ∧ encodeSortKey storekey w.val = .ok b ∧
        cmpCells v.val.cell w.val.cell = lexCmp a b) ∧
    (ty ≠ .numeric → ∀ (t : CompactionTable (KeyOf ty) V Bytes)
      (order : Option (Feed.ColdRow (KeyOf ty) V → CellValue)) (auto : Bool) (maxRows : ℤ),
      t.keyColumns = 1 → (∀ k, t.cells k = [sortKey storekey k.val]) → OrderedByKey order →
      ∀ p ∈ t.selectedUnits auto maxRows, ∀ o : RewriteOptions (KeyOf ty) V Bytes,
        WritesSorted order [keyCell] o.encoder →
        (∀ r ∈ (t.rewrite p o).rows t.feed, ¬Truncated r.pk.val) →
        ∀ ranges, DescribeAll storekey (rewritten (t.rewrite p o) t.feed) ranges →
          (ranges.Pairwise fun range range' ↦ range.mayShareKeys range' = false) ∧
          ∀ ranges', ranges'.Perm ranges → Sorted ranges' → ∀ maxRowsPerFile maxUnitRows,
            ∀ unit ∈ (planCompactionUnits ranges' maxRowsPerFile maxUnitRows).all,
              unit.overlapping = false) := by
  refine ⟨fun hb hn v w ↦ ?_, ?_⟩
  · have hv : v.val.sortKeyType ≠ .numeric := v.property.symm ▸ hn
    refine ⟨_, _, encodeSortKey_eq_ok hv, encodeSortKey_eq_ok (w.property.symm ▸ hn), ?_⟩
    exact cmpCells_cell (v.property.trans w.property.symm) (v.property.symm ▸ hb) hv
  · intro hn t order auto maxRows _ hcs ho p _ o hws hex ranges hrngs
    have hle : ∀ k, (t.rewrite p o).lead k = sortKey storekey k.val := by
      intro k
      show (t.cells k).headD (t.tuple k) = _
      rw [hcs, headD_cons]
    have hpw := pairwise_rewritten ho hn hle hws
      (fun s hs r hr ↦ hex r (mem_rows_of_mem_rewritten hs hr)) hrngs
    refine ⟨hpw, fun ranges' hp hso maxRowsPerFile maxUnitRows unit hun ↦ ?_⟩
    refine not_overlapping_of_pairwise hso (fun range hrng ↦ ?_) ?_ hun
    · obtain ⟨i, hi⟩ := mem_iff_get.1 (hp.mem_iff.1 hrng)
      have hl := hrngs.length_eq
      obtain ⟨lo, hi', hbs, -⟩ := hrngs.get (i.isLt.trans_eq hl.symm) i.isLt
      rw [← hi, hbs]
      exact cons_ne_nil _ _
    · refine (hp.pairwise_iff ?_).2 hpw
      intro range range' h
      rwa [SegmentRange.mayShareKeys_comm]

namespace Texts

abbrev Row : Type := Feed.ColdRow (KeyOf .text) CellValue

def row (seq : ℤ) (key : String) (column : Int32) : Row :=
  ⟨⟨seq, .insert, ⟨.text key, rfl⟩⟩, .int32 column⟩

def single (r : Row) : Feed.ColdSegment (KeyOf .text) CellValue :=
  ⟨"single", r.seq, r.seq, [r], by simp, by simp, by simp⟩

def pair (r r' : Row) : Feed.ColdSegment (KeyOf .text) CellValue :=
  ⟨"pair", min r.seq r'.seq, max r.seq r'.seq, [r, r'], by simp, by simp, by
    rcases le_total r.seq r'.seq with h | h <;> simp [h]⟩

def cut : List Row → List (Feed.ColdSegment (KeyOf .text) CellValue)
  | [] => []
  | [r] => [single r]
  | r :: r' :: rows => pair r r' :: cut rows

theorem flatMap_rows_cut : ∀ rows, (cut rows).flatMap Feed.ColdSegment.rows = rows
  | [] => rfl
  | [_] => rfl
  | r :: r' :: rows => by
    rw [cut, flatMap_cons, flatMap_rows_cut rows]
    rfl

variable (order : Option (Row → CellValue))

def encoder : Feed.SegmentEncoder (KeyOf .text) CellValue where
  encode rows := cut (sortRows order [keyCell] rows)
  rows_encode rows := by
    rw [flatMap_rows_cut]
    exact perm_sortRows order [keyCell] rows

def byColumn : Option (Row → CellValue) := some fun r ↦ r.image

def rewriteOptions :
    RewriteOptions (KeyOf .text) CellValue Bytes where
  boundaries := []
  retainFrom := 100
  encoder := encoder order
  sorted := sorted_nil

variable (start : String)

def first : List Row :=
  [row 1 (start ++ "a") 0, row 2 (start ++ "c") 2, row 3 (start ++ "b") 3]

def second : List Row := [row 4 (start ++ "d") 4, row 5 (start ++ "a") 1]

def firstSegment : Feed.ColdSegment (KeyOf .text) CellValue :=
  ⟨"first", 1, 3, first start, by simp [first, row], by simp [first, row], by simp [first, row]⟩

def secondSegment : Feed.ColdSegment (KeyOf .text) CellValue :=
  ⟨"second", 4, 5, second start, by simp [second, row], by simp [second, row], by
    simp [second, row]⟩

theorem utf8_append (s t : String) : utf8 (s ++ t) = utf8 s ++ utf8 t := by
  rw [utf8, String.toList_append, charBytes_append]
  rfl

variable {s t : String}

theorem utf8_append_le {start : String} (h : lexCmp (utf8 s) (utf8 t) ≠ .gt) :
    utf8 (start ++ s) ≤ utf8 (start ++ t) := by
  have hc := compares_lexCmp (utf8 (start ++ s)) (utf8 (start ++ t))
  rw [utf8_append, utf8_append, lexCmp_append_left] at hc
  rw [utf8_append, utf8_append]
  exact hc.ne_gt.1 h

def box : List (Bytes × Bytes) := [(utf8 (start ++ "a"), utf8 (start ++ "d"))]

theorem mem_box :
    ∀ letter ∈ ["a", "b", "c", "d"],
      List.Forall₂ (fun p c ↦ p.1 ≤ c ∧ c ≤ p.2) (box start) [utf8 (start ++ letter)] := by
  intro letter hl
  refine .cons ⟨utf8_append_le ?_, utf8_append_le ?_⟩ .nil
  · revert letter
    decide +kernel
  · revert letter
    decide +kernel

theorem mem_box_of_mem {start : String} {r : Row} (hr : r ∈ first start ++ second start) :
    List.Forall₂ (fun p c ↦ p.1 ≤ c ∧ c ≤ p.2) (box start)
      [sortKey Storekey.bigEndian r.pk.val] := by
  simp only [first, second, cons_append, nil_append, mem_cons, not_mem_nil, or_false] at hr
  rcases hr with rfl | rfl | rfl | rfl | rfl <;> exact mem_box start _ (by simp)

def table (orderedByKey : Bool) :
    CompactionTable (KeyOf .text) CellValue Bytes where
  feed :=
    { hot := []
      active := [firstSegment start, secondSegment start]
      history := []
      historyFloor := 0
      hot_pos := by simp
      cold_pos := by simp [firstSegment, secondSegment, first, second, row]
      seq_nodup := by simp [firstSegment, secondSegment, first, second, row]
      historyFloor_nonneg := Feed.Example.zero_nonneg }
  listed := [⟨firstSegment start, 3, some (box start), none, none⟩,
    ⟨secondSegment start, 2, some (box start), none, none⟩]
  keyColumns := 1
  orderedByKey := orderedByKey
  maxRowsPerFile := 2
  cells k := [sortKey Storekey.bigEndian k.val]
  tuple k := sortKey Storekey.bigEndian k.val
  keyColumns_pos := Nat.one_pos
  perm_active := .rfl
  paths_nodup := by simp [firstSegment, secondSegment]
  sorted := by simp [box]
  length_bounds := by simp [box]
  mem_bounds := by
    simp only [forall_mem_cons, not_mem_nil, false_implies, implies_true, and_true,
      Option.some.injEq]
    refine ⟨?_, ?_⟩
    · rintro _ rfl r hr
      exact mem_box_of_mem (mem_append_left _ hr)
    · rintro _ rfl r hr
      exact mem_box_of_mem (mem_append_right _ hr)
  mem_tupleBounds := by simp

def unit (orderedByKey : Bool) : PlannedUnit (KeyOf .text) CellValue Bytes :=
  ⟨⟨[0, 1], 5, true⟩, (table start orderedByKey).listed, none, false, false, true⟩

def longStart : String := String.ofList (List.replicate statisticsLength 'x')

def key (text : String) : KeyOf .text := ⟨.text text, rfl⟩

def columnRanges : List (SegmentRange Bytes) :=
  [⟨2, [(utf8 "a", utf8 "c")], none⟩, ⟨2, [(utf8 "b", utf8 "d")], none⟩]

def longRanges : List (SegmentRange Bytes) :=
  List.replicate 2 ⟨2, [(List.replicate 64 120, List.replicate 63 120 ++ [121])], none⟩

theorem keys_byColumn :
    ((rewritten ((table "" false).rewrite (unit "" false) (rewriteOptions byColumn))
      (table "" false).feed).map fun s ↦ s.rows.map fun r ↦ r.pk) =
      [[key "a", key "c"], [key "b", key "d"]] := by
  decide +kernel

theorem keys_byKey : ((rewritten ((table "" true).rewrite (unit "" true) (rewriteOptions none))
      (table "" true).feed).map fun s ↦ s.rows.map fun r ↦ r.pk) =
      [[key "a", key "b"], [key "c", key "d"]] := by
  decide +kernel

theorem keys_long :
    ((rewritten ((table longStart true).rewrite (unit longStart true) (rewriteOptions none))
      (table longStart true).feed).map fun s ↦ s.rows.map fun r ↦ r.pk) =
      [[key (longStart ++ "a"), key (longStart ++ "b")],
        [key (longStart ++ "c"), key (longStart ++ "d")]] := by
  decide +kernel

theorem describes_pair (h : utf8 s ≤ utf8 t) :
    Describes Storekey.bigEndian [key s, key t] ⟨2, [(utf8 s, utf8 t)], none⟩ := by
  refine ⟨utf8 s, utf8 t, rfl, ?_, fun _ ↦ ⟨⟨key s, by simp, rfl⟩, ⟨key t, by simp, rfl⟩⟩⟩
  intro k hk
  simp only [mem_cons, not_mem_nil, or_false] at hk
  rcases hk with rfl | rfl
  · exact ⟨le_rfl, h⟩
  · exact ⟨h, le_rfl⟩

theorem describes_long {lo hi : Bytes}
    (hbs : range.bounds = [(lo, hi)]) (hs : lo ≤ utf8 s ∧ utf8 s ≤ hi)
    (ht : lo ≤ utf8 t ∧ utf8 t ≤ hi) (hlo : statisticsLength < (utf8 s).length) :
    Describes Storekey.bigEndian [key s, key t] range := by
  refine ⟨lo, hi, hbs, ?_, fun hex ↦ absurd hlo (hex (key s) mem_cons_self)⟩
  intro k hk
  simp only [mem_cons, not_mem_nil, or_false] at hk
  rcases hk with rfl | rfl
  · exact hs
  · exact ht

theorem mem_selectedUnits {start : String} {orderedByKey : Bool}
    (hpl : (table start orderedByKey).groupPlan 1000 none = ⟨[⟨[0, 1], 5, true⟩], 0, []⟩) :
    unit start orderedByKey ∈ (table start orderedByKey).selectedUnits false 1000 := by
  have hu : (table start orderedByKey).selectedUnits false 1000 =
      [unit start orderedByKey] := by
    show CompactionTable.withinBudget 1000 1000
      ((table start orderedByKey).planGroup false 1000 none ++ []) = _
    rw [CompactionTable.planGroup, hpl]
    cases orderedByKey <;> rfl
  rw [hu]
  exact mem_singleton_self _

end Texts

open Texts

theorem rewrite_settles_short_texts :
    cmpCells (.int64 2) (.int64 10) = .lt ∧
    [(⟨2, [(utf8 "a", utf8 "b")], none⟩ : SegmentRange Bytes),
      ⟨2, [(utf8 "c", utf8 "d")], none⟩].Pairwise
        fun range range' ↦ range.mayShareKeys range' = false := by
  refine ⟨?_, ?_⟩
  · obtain ⟨a, b, ha, hb, hcs⟩ := (rewrite_settles Storekey.bigEndian .int8 Unit).1
      (by decide) (by decide) ⟨.int8 2, rfl⟩ ⟨.int8 10, rfl⟩
    refine hcs.trans ?_
    cases ha
    cases hb
    decide +kernel
  · have hrs : ((table "" true).rewrite (unit "" true)
        (rewriteOptions none)).rows (table "" true).feed =
          first "" ++ second "" := rfl
    have hs := (rewrite_settles Storekey.bigEndian .text CellValue).2 (by decide)
      (table "" true) none false 1000 rfl (fun _ ↦ rfl) (.inl rfl) (unit "" true)
      (mem_selectedUnits (by decide +kernel)) (rewriteOptions none)
      (fun rows ↦ flatMap_rows_cut _)
    refine (hs ?_ _ ?_).1
    · rw [hrs]
      decide +kernel
    · rw [DescribeAll, keys_byKey]
      exact .cons (describes_pair (by decide +kernel))
        (.cons (describes_pair (by decide +kernel)) .nil)

theorem rewrite_does_not_settle :
    (cmpCells (SortKeyValue.numeric "10").cell (SortKeyValue.numeric "9").cell = .lt ∧
      lexCmp (sortKey Storekey.bigEndian (.numeric "10"))
        (sortKey Storekey.bigEndian (.numeric "9")) = .gt) ∧
    (cmpCells (SortKeyValue.bool false).cell (SortKeyValue.bool true).cell = .eq ∧
      lexCmp (sortKey Storekey.bigEndian (.bool false))
        (sortKey Storekey.bigEndian (.bool true)) = .lt) ∧
    (unit "" false ∈ (table "" false).selectedUnits false 1000 ∧
      DescribeAll Storekey.bigEndian (rewritten ((table "" false).rewrite
        (unit "" false) (rewriteOptions byColumn)) (table "" false).feed)
          columnRanges ∧ (planCompactionUnits columnRanges 2 1000).all = [⟨[0, 1], 4, true⟩]) ∧
    (unit longStart true ∈ (table longStart true).selectedUnits false 1000 ∧
      DescribeAll Storekey.bigEndian (rewritten ((table longStart true).rewrite
        (unit longStart true) (rewriteOptions none)) (table longStart true).feed) longRanges ∧
      (planCompactionUnits longRanges 2 1000).all = [⟨[0, 1], 4, true⟩]) := by
  refine ⟨⟨by decide +kernel, by decide +kernel⟩, ⟨by decide +kernel, by decide +kernel⟩,
    ⟨mem_selectedUnits (by decide +kernel), ?_, by decide +kernel⟩,
    ⟨mem_selectedUnits (by decide +kernel), ?_, by decide +kernel⟩⟩
  · rw [DescribeAll, keys_byColumn]
    exact .cons (describes_pair (by decide +kernel))
      (.cons (describes_pair (by decide +kernel)) .nil)
  · rw [DescribeAll, keys_long]
    exact .cons (describes_long rfl (by decide +kernel) (by decide +kernel) (by decide +kernel))
      (.cons (describes_long rfl (by decide +kernel) (by decide +kernel)
        (by decide +kernel)) .nil)

end Koldstore.Compaction
