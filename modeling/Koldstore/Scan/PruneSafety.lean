import Koldstore.Basic.Pairing
import Koldstore.Scan.PruneKeeps

/-!
# Pruned reads and deleted rows

A scan merges the hot rows with the row groups its plan keeps and filters afterwards. Every row that
the query accepts is read (`PruneQuery.reads_of_accepts`), so a pruned read can only go wrong by
showing an old version whose newest version it did not read (`Resurrects`). The columns that may
prune before the merge have one value in all live versions of a row, so a newest version that is
live is read with the old one. A delete marker has no value outside the key, and is read with it
only if the query asks for nothing else or they share a row group.
-/

namespace Koldstore

open MergeGroups List IndexCatalog
open Option (bind_eq_some_iff isSome_iff_exists map_eq_some_iff)

/-! ### Rows that satisfy predicates -/

def EncodedBounds.Admits {B : Type*} [LinearOrder B] (bounds : EncodedBounds B)
    (cells : Cells B) : Prop :=
  ∀ e ∈ bounds, ∃ b, cells e.1 = some b ∧ (∀ low, e.2.1 = some low → low ≤ b) ∧
    ∀ high, e.2.2 = some high → b ≤ high

namespace PrunePredicate

variable {V B : Type*} [LinearOrder B]

def satisfied (encode : V → Except String B) (p : PrunePredicate V) (cells : Cells B) : Bool :=
  (cells p.columnId).any fun b ↦
    p.min.all (fun v ↦ (encode v).toOption.any fun low ↦ decide (low ≤ b)) &&
    p.max.all (fun v ↦ (encode v).toOption.any fun high ↦ decide (b ≤ high)) &&
    (p.anyOf.isEmpty || p.anyOf.any fun v ↦ decide ((encode v).toOption = some b))

variable {encode : V → Except String B} {p : PrunePredicate V} {cells : Cells B}

theorem satisfied_iff : p.satisfied encode cells = true ↔ ∃ b, cells p.columnId = some b ∧
    (∀ v, p.min = some v → ∃ low, encode v = .ok low ∧ low ≤ b) ∧
    (∀ v, p.max = some v → ∃ high, encode v = .ok high ∧ b ≤ high) ∧
    (p.anyOf = [] ∨ ∃ v ∈ p.anyOf, encode v = .ok b) := by
  simp only [satisfied, Option.any_eq_true, Bool.and_eq_true, Option.all_eq_true, Bool.or_eq_true,
    List.isEmpty_iff, any_eq_true, decide_eq_true_eq, Except.toOption_eq_some_iff, and_assoc]

theorem cell_of_isEquality [DecidableEq V] (h : p.satisfied encode cells = true)
    (heq : p.isEquality = true) {v : V} (hv : p.min = some v) {b : B} (hb : encode v = .ok b) :
    cells p.columnId = some b := by
  obtain ⟨c, hc, hmin, hm, -⟩ := satisfied_iff.1 h
  have hv' : p.max = some v := by
    rw [isEquality, Bool.and_eq_true, decide_eq_true_eq] at heq
    rw [← heq.2, hv]
  obtain ⟨low, hl, hle⟩ := hmin v hv
  obtain ⟨high, hhi, hge⟩ := hm v hv'
  obtain rfl := Except.ok.inj (hb.symm.trans hl)
  obtain rfl := Except.ok.inj (hb.symm.trans hhi)
  rw [hc, le_antisymm hle hge]

end PrunePredicate

namespace EncodedBounds

variable {B : Type*}

theorem mem_of_get {bounds : EncodedBounds B} {c : ℤ} {entry : Option B × Option B}
    (h : bounds.get c = some entry) : (c, entry) ∈ bounds := by
  obtain ⟨e, he, rfl⟩ := map_eq_some_iff.1 h
  have hc : e.1 = c := by simpa using find?_some he
  exact hc ▸ mem_of_find?_eq_some he

theorem mem_set {bounds : EncodedBounds B} {c : ℤ} {entry : Option B × Option B}
    {e : ℤ × Option B × Option B} (h : e ∈ bounds.set c entry) : e = (c, entry) ∨ e ∈ bounds := by
  induction bounds with
  | nil => exact .inl (mem_singleton.1 h)
  | cons first rest ih =>
    rw [EncodedBounds.set] at h
    split_ifs at h
    · rcases mem_cons.1 h with rfl | h
      · exact .inl rfl
      · exact .inr h
    · rcases mem_cons.1 h with rfl | h
      · exact .inl rfl
      · exact .inr (mem_cons_of_mem _ h)
    · rcases mem_cons.1 h with rfl | h
      · exact .inr mem_cons_self
      · exact (ih h).imp_right (mem_cons_of_mem _)

end EncodedBounds

namespace IndexCatalog

variable {V T B S : Type*} [DecidableEq T] [LinearOrder B] {cat : IndexCatalog V T B S}

omit [LinearOrder B] in
theorem tightenBound_eq_ok {side column : String} {expected : T} {tighter : B → B → Bool}
    {current result : Option B} {value : Option V}
    (h : cat.tightenBound side column expected tighter current value = .ok result) {b : B}
    (hb : result = some b) :
    current = some b ∨ ∃ v, value = some v ∧ cat.codec.encodeSortKey v = .ok b := by
  cases value with
  | none =>
    cases h
    exact .inl hb
  | some v =>
    obtain ⟨-, h⟩ := Except.ite_error_eq_ok_iff.1 h
    obtain ⟨encoded, he, rfl⟩ := Except.map_eq_ok_iff.1 h
    split at hb
    · cases hb
      exact .inr ⟨v, rfl, he⟩
    · exact .inl hb

/-- **Rows that satisfy the predicates are within their bounds.** -/
theorem admits_encodePredicates {predicates : List (PrunePredicate V)} {cells : Cells B}
    (h : ∀ p ∈ predicates, p.satisfied cat.codec.encodeSortKey cells = true)
    {bounds bounds' : EncodedBounds B} (hbs : bounds.Admits cells) (hn : cat.encodePredicates bounds
      (predicates.map fun p ↦ p.toSegmentPrunePredicate) = .ok bounds') :
    bounds'.Admits cells := by
  induction predicates generalizing bounds with
  | nil =>
    cases hn
    exact hbs
  | cons p ps ih =>
    rw [forall_mem_cons] at h
    rw [map_cons, encodePredicates] at hn
    split at hn
    · exact ih h.2 hbs hn
    · split at hn
      · exact ih h.2 hbs hn
      · obtain ⟨lower, hlo, hn⟩ := Except.bind_eq_ok_iff.1 hn
        obtain ⟨upper, hup, hn⟩ := Except.bind_eq_ok_iff.1 hn
        refine ih h.2 ?_ hn
        intro e he
        rcases EncodedBounds.mem_set he with rfl | he
        · obtain ⟨b, hb, hmin, hm, -⟩ := PrunePredicate.satisfied_iff.1 h.1
          -- the old bounds of the column, if it had some
          have hold : ∀ entry, bounds.get p.columnId = some entry →
              (∀ low, entry.1 = some low → low ≤ b) ∧ ∀ high, entry.2 = some high → b ≤ high := by
            intro entry hent
            obtain ⟨b', hb', hl, hhi⟩ := hbs _ (EncodedBounds.mem_of_get hent)
            obtain rfl := Option.some.inj (hb.symm.trans hb')
            exact ⟨hl, hhi⟩
          refine ⟨b, hb, fun low hl ↦ ?_, fun high hhi ↦ ?_⟩
          · rcases tightenBound_eq_ok hlo hl with hc | ⟨v, hv, henc⟩
            · cases hent : bounds.get p.columnId with
              | none => simp [hent] at hc
              | some entry => exact (hold entry hent).1 low (by simpa [hent] using hc)
            · obtain ⟨low', hl', hle⟩ := hmin v hv
              obtain rfl := Except.ok.inj (henc.symm.trans hl')
              exact hle
          · rcases tightenBound_eq_ok hup hhi with hc | ⟨v, hv, henc⟩
            · cases hent : bounds.get p.columnId with
              | none => simp [hent] at hc
              | some entry => exact (hold entry hent).2 high (by simpa [hent] using hc)
            · obtain ⟨high', hhi', hle⟩ := hm v hv
              obtain rfl := Except.ok.inj (henc.symm.trans hhi')
              exact hle
        · exact hbs e he

end IndexCatalog

namespace PruneTable

variable {K V T B S : Type*} [DecidableEq V] [DecidableEq T] [LinearOrder B]
  {t : PruneTable K V T B S} {s : ColdSegment} {i : ℕ} {g : List (MergeRow K (Cells B))}
  {r : MergeRow K (Cells B)} {bounds : EncodedBounds B}

omit [DecidableEq V] [DecidableEq T] in
theorem boundsKeep_of_admits (hs : s ∈ t.segments) (hg : (t.rowGroups s)[i]? = some g) (hr : r ∈ g)
    (h : bounds.Admits r.image) : BoundsKeep (t.packedRow s) bounds i := by
  intro e he index hp
  obtain ⟨b, hb, hl, hhi⟩ := h e he
  obtain ⟨keep, hkp, hv⟩ := selectRowGroup_packedRow hs hp hg e.2.1 e.2.2
  exact .inr (hkp.trans (congrArg Except.ok (hv r hr b hb hl hhi)))

omit [DecidableEq V] [DecidableEq T] in
theorem overlapsBounds_of_mem (hs : s ∈ t.segments) {x : SegmentIndexRow B S} (hx : x ∈ t.indexRows)
    (he : x.segmentId = s.segmentId) (hg : g ∈ t.rowGroups s) (hr : r ∈ g) {b : B}
    (hb : r.image x.columnId = some b) {lower upper : Option B}
    (hl : ∀ low, lower = some low → low ≤ b) (hhi : ∀ high, upper = some high → b ≤ high) :
    overlapsBounds x (lower, upper) = true := by
  have hd := t.describes s hs x hx he
  have hc : some b ∈ g.map fun r ↦ r.image x.columnId := mem_map.2 ⟨r, hr, hb⟩
  have hgrp : (g.map fun r ↦ r.image x.columnId) ∈
      (t.rowGroups s).map fun g ↦ g.map fun r ↦ r.image x.columnId := mem_map.2 ⟨g, hg, rfl⟩
  have hmin := hd.min_le _ hgrp b hc
  have hm := hd.le_max _ hgrp b hc
  have hpr := hd.paired
  cases hminValue : x.minValue with
  | none =>
    have hmaxValue : x.maxValue = none := by simpa [hminValue] using hpr.symm
    cases lower <;> cases upper <;> simp [overlapsBounds, hminValue, hmaxValue]
  | some min =>
    obtain ⟨max, hmaxValue⟩ : ∃ max, x.maxValue = some max := by
      rw [hminValue] at hpr
      exact isSome_iff_exists.1 hpr.symm
    have hle := hmin min hminValue
    have hge := hm max hmaxValue
    cases lower with
    | none =>
      cases upper with
      | none => rfl
      | some high => simp [overlapsBounds, hminValue, hle.trans (hhi high rfl)]
    | some low =>
      cases upper with
      | none => simp [overlapsBounds, hmaxValue, (hl low rfl).trans hge]
      | some high =>
        simp [overlapsBounds, hminValue, hmaxValue, hle.trans (hhi high rfl),
          (hl low rfl).trans hge]

omit [DecidableEq V] [DecidableEq T] in
theorem pointHash_eq_some {column : IndexColumn} {compositeHash : Option ℤ}
    {driving : Option B × Option B} {hash : ℤ}
    (h : t.pointHash column compositeHash driving = some hash) :
    compositeHash = some hash ∨ t.primaryKey = [column.columnId] ∧
      ∃ b, driving = (some b, some b) ∧ t.codec.summaryHash b = some hash := by
  obtain ⟨lower, upper⟩ := driving
  cases lower with
  | none => cases h
  | some low =>
    cases upper with
    | none => cases h
    | some high =>
      rw [pointHash] at h
      split at h
      next hp =>
        cases compositeHash with
        | some composite => exact .inl h
        | none =>
          rw [Option.none_or] at h
          split at h
          next hk => exact .inr ⟨hk, low, by rw [hp.1], h⟩
          · cases h
      · cases h

def ProbesKey (t : PruneTable K V T B S) (lookup : CandidateLookup V) (k : K) : Prop :=
  ∀ hash, lookup.compositeHash = some hash → t.primaryKey.head? = some lookup.column.columnId ∧
      t.codec.summaryHash (t.concat (t.keyCells k)) = some hash

omit [DecidableEq V] [DecidableEq T] in
theorem segmentCandidate_isSome (hs : s ∈ t.segments) (hg : g ∈ t.rowGroups s) (hr : r ∈ g)
    (h : bounds.Admits r.image) {lookup : CandidateLookup V} (hp : t.ProbesKey lookup r.pk) :
    (t.segmentCandidate lookup.column lookup.compositeHash
      (drivingBounds lookup bounds) s).isSome = true := by
  rw [segmentCandidate]
  split
  · rfl
  next x hfi =>
    have hx : x ∈ t.indexRows := mem_of_find?_eq_some hfi
    obtain ⟨hseg, ho, -⟩ : x.segmentId = s.segmentId ∧
        x.columnId = lookup.column.columnId ∧ x.typeOid = lookup.column.typeOid ∧
        x.codecVersion = t.codec.codecVersion := by simpa using find?_some hfi
    -- the cell of the driving column lies within the driving bounds
    have hd : drivingBounds lookup bounds = (none, none) ∨
        ∃ b, r.image x.columnId = some b ∧
          (∀ low, (drivingBounds lookup bounds).1 = some low → low ≤ b) ∧
          ∀ high, (drivingBounds lookup bounds).2 = some high → b ≤ high := by
      rw [drivingBounds]
      cases he : bounds.get lookup.column.columnId with
      | none => exact .inl rfl
      | some entry =>
        obtain ⟨b, hb, hn⟩ := h _ (EncodedBounds.mem_of_get he)
        exact .inr ⟨b, ho ▸ hb, hn⟩
    have hv : overlapsBounds x (drivingBounds lookup bounds) = true := by
      rcases hd with hnone | ⟨b, hb, hl, hhi⟩
      · rw [hnone]
        rfl
      · exact overlapsBounds_of_mem hs hx hseg hg hr hb hl hhi
    -- a probed key is the row's, and the summary has it
    have hu : ∀ hash, t.pointHash lookup.column lookup.compositeHash
        (drivingBounds lookup bounds) = some hash → ∀ summary,
          x.valueSummary = some summary → t.codec.summaryMayContain summary hash = true := by
      intro hash hha summary hu
      rcases pointHash_eq_some hha with hcomposite | ⟨hk, b, hbs, hb⟩
      · obtain ⟨hh, hkeyHash⟩ := hp hash hcomposite
        exact t.summary s hs x hx hseg (ho ▸ hh) summary hu g hg r hr hash
          hkeyHash
      · have hc : r.image x.columnId = some b := by
          rcases hd with hnone | ⟨b', hb', hl, hhi⟩
          · rw [hbs] at hnone
            cases hnone
          · rw [hbs] at hl hhi
            rw [hb', le_antisymm (hhi b rfl) (hl b rfl)]
        have hcs : t.keyCells r.pk = [b] := by
          have hm := t.key_cells s hs g hg r hr
          rw [hk, ← ho, map_singleton, hc] at hm
          exact map_injective_iff.2 (Option.some_injective B) hm.symm
        refine t.summary s hs x hx hseg ?_ summary hu g hg r hr hash ?_
        · rw [hk, ← ho]
          rfl
        · rw [hcs, t.concat_singleton]
          exact hb
    have ha : (overlapsBounds x (drivingBounds lookup bounds) &&
        (t.pointHash lookup.column lookup.compositeHash
          (drivingBounds lookup bounds)).all fun hash ↦ x.valueSummary.all
            fun summary ↦ t.codec.summaryMayContain summary hash) = true := by
      rw [hv, Bool.true_and, Option.all_eq_true]
      intro hash hha
      rw [Option.all_eq_true]
      exact hu hash hha
    rw [if_pos ha]
    rfl

omit [DecidableEq V] in
theorem lookupKeeps_of_satisfied (hs : s ∈ t.segments) (hg : (t.rowGroups s)[i]? = some g)
    (hr : r ∈ g) {lookup : CandidateLookup V} {predicates : List (PrunePredicate V)}
    (hpredicates : lookup.predicates = predicates.map fun p ↦ p.toSegmentPrunePredicate)
    (hsat : ∀ p ∈ predicates, p.satisfied t.codec.encodeSortKey r.image = true)
    (hbs : t.encodePrunePredicateBounds lookup.predicates = .ok bounds)
    (hp : t.ProbesKey lookup r.pk) : t.LookupKeeps lookup s i := by
  have ha : bounds.Admits r.image := by
    have hm : EncodedBounds.Admits [] r.image := nofun
    exact admits_encodePredicates hsat hm (hpredicates ▸ hbs)
  exact ⟨bounds, hbs, .inr ⟨segmentCandidate_isSome hs (mem_of_getElem? hg) hr ha
    hp, boundsKeep_of_admits hs hg hr ha⟩⟩

section Composite

variable {predicates : List (PrunePredicate V)}

theorem cell_of_probeCell {cells : Cells B} {c : ℤ} {probe : IndexColumn × B}
    (hs : ∀ p ∈ predicates, p.satisfied t.codec.encodeSortKey cells = true)
    (h : t.probeCell predicates c = some probe) :
    probe.1.columnId = c ∧ cells c = some probe.2 := by
  obtain ⟨column, hc, h⟩ := bind_eq_some_iff.1 h
  have hid : column.columnId = c := by simpa using find?_some hc
  obtain ⟨ty, -, h⟩ := bind_eq_some_iff.1 h
  split at h
  · obtain ⟨p, hfi, h⟩ := bind_eq_some_iff.1 h
    obtain ⟨value, hv, h⟩ := bind_eq_some_iff.1 h
    split at h
    · obtain ⟨b, hb, rfl⟩ := map_eq_some_iff.1 h
      have hp := find?_some hfi
      rw [Bool.and_eq_true, decide_eq_true_eq] at hp
      refine ⟨hid, ?_⟩
      rw [← hid, ← hp.1]
      exact PrunePredicate.cell_of_isEquality (hs p (mem_of_find?_eq_some hfi)) hp.2
        hv (Except.toOption_eq_some_iff.1 hb)
    · cases h
  · cases h

theorem cells_of_mapM_probeCell {cells : Cells B} {key : List ℤ} {probes : List (IndexColumn × B)}
    (hs : ∀ p ∈ predicates, p.satisfied t.codec.encodeSortKey cells = true)
    (h : key.mapM (t.probeCell predicates) = some probes) :
    key = probes.map (fun probe ↦ probe.1.columnId) ∧
      key.map cells = (probes.map Prod.snd).map some := by
  have hr := (Pairing.of_mapM h).imp fun c probe hp ↦ cell_of_probeCell hs hp
  refine ⟨?_, ?_⟩
  · have hi := Pairing.map_eq_map_iff.2 (hr.imp fun c probe hp ↦
      (show id c = probe.1.columnId from hp.1.symm))
    rwa [map_id] at hi
  · rw [map_map]
    exact Pairing.map_eq_map_iff.2 (hr.imp fun c probe hp ↦ hp.2)

theorem compositeKeyProbe_eq_some (hs : s ∈ t.segments) (hg : g ∈ t.rowGroups s) (hr : r ∈ g)
    (ha : ∀ p ∈ predicates, p.satisfied t.codec.encodeSortKey r.image = true)
    {probe : IndexColumn × ℤ} (h : t.compositeKeyProbe predicates = some probe) :
    t.primaryKey.head? = some probe.1.columnId ∧
      t.codec.summaryHash (t.concat (t.keyCells r.pk)) = some probe.2 := by
  rw [compositeKeyProbe] at h
  split at h
  · cases h
  · obtain ⟨probes, hp, h⟩ := bind_eq_some_iff.1 h
    obtain ⟨first, hf, h⟩ := bind_eq_some_iff.1 h
    obtain ⟨hash, hha, rfl⟩ := map_eq_some_iff.1 h
    obtain ⟨hk, hcs⟩ := cells_of_mapM_probeCell ha hp
    have hkeyCells : t.keyCells r.pk = probes.map Prod.snd := by
      have hm := (t.key_cells s hs g hg r hr).symm.trans hcs
      exact map_injective_iff.2 (Option.some_injective B) hm
    refine ⟨?_, by rw [hkeyCells]; exact hha⟩
    rw [hk, head?_map, hf]
    rfl

end Composite

theorem planKeeps_of_satisfied (hs : s ∈ t.segments) (hg : (t.rowGroups s)[i]? = some g)
    (hr : r ∈ g) {predicates : List (PrunePredicate V)} (hty : ∀ p ∈ predicates, t.Typed p)
    (hsat : ∀ p ∈ predicates, p.satisfied t.codec.encodeSortKey r.image = true) :
    t.PlanKeeps predicates s i := by
  have hbs : ∀ lookup ∈ (t.candidatePlan predicates).lookups,
      ∃ bounds, t.encodePrunePredicateBounds lookup.predicates = .ok bounds :=
    fun lookup hlk ↦ exists_encode_lookups hty hlk
  rw [PlanKeeps]
  rw [candidatePlan] at hbs ⊢
  split at hbs
  · exact .inl rfl
  next column hc =>
    refine .inr ?_
    split at hbs
    next list hli =>
      -- the row's value is one of the list
      have hun := find?_some hli
      simp only [isUnionList, Bool.and_eq_true, decide_eq_true_eq] at hun
      obtain ⟨b, hb, -, -, ha⟩ := PrunePredicate.satisfied_iff.1
        (hsat list (mem_of_find?_eq_some hli))
      have hne : list.anyOf ≠ [] := by
        intro hn
        simp [hn] at hun
      obtain ⟨value, hval, he⟩ := ha.resolve_left hne
      have hmem := mem_map_of_mem (f := fun value ↦ (⟨column, (pointPredicates column value
        predicates).map fun p ↦ p.toSegmentPrunePredicate, none⟩ : CandidateLookup V)) hval
      obtain ⟨bounds, hbs⟩ := hbs _ hmem
      refine ⟨_, hmem, lookupKeeps_of_satisfied hs hg hr rfl (fun p hp ↦ ?_) hbs
        fun _ h ↦ by cases h⟩
      rcases mem_pointPredicates hli hp with hp | rfl
      · exact hsat p hp
      · refine PrunePredicate.satisfied_iff.2 ⟨b, hb, ?_, ?_, .inl rfl⟩
        · rintro v ⟨⟩
          exact ⟨b, he, le_refl b⟩
        · rintro v ⟨⟩
          exact ⟨b, he, le_refl b⟩
    · obtain ⟨bounds, hbs⟩ := hbs _ (mem_singleton_self _)
      refine ⟨_, mem_singleton_self _, lookupKeeps_of_satisfied hs hg hr rfl hsat hbs ?_⟩
      intro hash hha
      obtain ⟨probe, hprb, rfl⟩ := map_eq_some_iff.1 hha
      rw [hprb] at hc
      cases hc
      exact compositeKeyProbe_eq_some hs (mem_of_getElem? hg) hr hsat hprb

end PruneTable

namespace PruneTable

variable {K V T B S : Type*} [LinearOrder B] (t : PruneTable K V T B S)

def coldRows : List (MergeRow K (Cells B)) := t.segments.flatMap fun s ↦ (t.rowGroups s).flatten

def readRows (hints : List SegmentStatsHint) : List (MergeRow K (Cells B)) :=
  hints.flatMap fun hint ↦ hint.effective.2.flatMap fun i ↦ (t.rowGroups hint.segment).getD i []

variable {t}

theorem mem_coldRows {r : MergeRow K (Cells B)} : r ∈ t.coldRows ↔ ∃ s ∈ t.segments,
    ∃ (i : ℕ) (g : List (MergeRow K (Cells B))), (t.rowGroups s)[i]? = some g ∧ r ∈ g := by
  simp only [coldRows, mem_flatMap, mem_flatten]
  constructor
  · rintro ⟨s, hs, g, hg, hr⟩
    obtain ⟨i, hi⟩ := mem_iff_getElem?.1 hg
    exact ⟨s, hs, i, g, hi, hr⟩
  · rintro ⟨s, hs, i, g, hg, hr⟩
    exact ⟨s, hs, g, mem_of_getElem? hg, hr⟩

theorem eq_of_mem_coldRows {r r' : MergeRow K (Cells B)} (hr : r ∈ t.coldRows)
    (hr' : r' ∈ t.coldRows) (hpk : r.pk = r'.pk) (he : r.seq = r'.seq) : r = r' := by
  obtain ⟨s, hs, i, g, hg, hmem⟩ := mem_coldRows.1 hr
  obtain ⟨s', hs', i', g', hg', hmem'⟩ := mem_coldRows.1 hr'
  exact t.version_unique s hs g (mem_of_getElem? hg) r hmem s' hs' g' (mem_of_getElem? hg')
    r' hmem' hpk he

end PruneTable

namespace PruneQuery

variable {K V T B S : Type*} [DecidableEq V] [DecidableEq T] [LinearOrder B]
  {t : PruneTable K V T B S} (q : PruneQuery t)

def accepts (cells : Cells B) : Bool :=
  q.predicates.all (fun p ↦ p.satisfied t.codec.encodeSortKey cells) &&
    match t.scopeColumn, q.session with
    | some c, some scope => (cells c).any fun b ↦ decide (t.cellText b = scope)
    | _, _ => true

def Reads (r : MergeRow K (Cells B)) : Prop :=
  ∃ s ∈ t.segments, ∃ (i : ℕ) (g : List (MergeRow K (Cells B))),
    (t.rowGroups s)[i]? = some g ∧ r ∈ g ∧ q.KeepsRowGroup s i

variable {q} {cells : Cells B} {r : MergeRow K (Cells B)}

theorem satisfied_of_accepts (h : q.accepts cells = true) {p : PrunePredicate V}
    (hp : p ∈ q.predicates) : p.satisfied t.codec.encodeSortKey cells = true := by
  rw [accepts, Bool.and_eq_true, all_eq_true] at h
  exact h.1 p hp

theorem mem_readRows {his : List SegmentStatsHint} (hpl : q.planColdSegments = .ok his) :
    r ∈ t.readRows his ↔ q.Reads r := by
  obtain ⟨his', hpl', ha, he⟩ := q.planColdSegments_spec
  obtain rfl := Except.ok.inj (hpl.symm.trans hpl')
  simp only [PruneTable.readRows, mem_flatMap, getD_eq_getElem?_getD]
  constructor
  · rintro ⟨hint, hhi, i, hi, hr⟩
    have hs := ha hint hhi
    obtain ⟨g, hg⟩ : ∃ g, (t.rowGroups hint.segment)[i]? = some g := by
      cases hg : (t.rowGroups hint.segment)[i]? with
      | none => simp [hg] at hr
      | some g => exact ⟨g, rfl⟩
    have hlt : i < hint.segment.rowGroupCount := by
      rw [← PruneTable.length_rowGroups hs]
      exact (List.getElem?_eq_some_iff.1 hg).1
    rw [hg] at hr
    exact ⟨hint.segment, hs, i, g, hg, hr, (he _ hs i hlt).1 ⟨hint, hhi, rfl, hi⟩⟩
  · rintro ⟨s, hs, i, g, hg, hr, hkp⟩
    have hlt : i < s.rowGroupCount := by
      rw [← PruneTable.length_rowGroups hs]
      exact (List.getElem?_eq_some_iff.1 hg).1
    obtain ⟨hint, hhi, rfl, hi⟩ := (he s hs i hlt).2 hkp
    exact ⟨hint, hhi, i, hi, by rw [hg]; exact hr⟩

/-! #### Scopes -/

section Scopes

variable {p : PrunePredicate V} {c : ℤ} {b : B} {texts : List String}

omit [DecidableEq T] [LinearOrder B] in
theorem exists_scopeText {f : V → Option String} (h : p.scopeSet f = some texts) :
    p.anyOf ≠ [] ∧ (∀ v ∈ p.anyOf, ∃ text ∈ texts, f v = some text) ∨
      p.isEquality = true ∧ ∃ v, p.min = some v ∧ ∃ text ∈ texts, f v = some text := by
  rw [PrunePredicate.scopeSet] at h
  split at h
  next hne => exact .inl ⟨hne, fun v ↦ Pairing.exists_right (Pairing.of_mapM h)⟩
  · obtain ⟨heq, h⟩ := Option.ite_none_right_eq_some.1 h
    have hm := heq
    rw [PrunePredicate.isEquality, Bool.and_eq_true] at hm
    obtain ⟨v, hv⟩ := isSome_iff_exists.1 hm.1
    exact .inr ⟨heq, v, hv, Pairing.exists_right (Pairing.of_mapM h) (by simp [hv])⟩

omit [DecidableEq T] in
theorem cellText_mem_scopeSet (hy : t.Typed p) (hc : t.scopeColumn = some p.columnId)
    (hs : p.satisfied t.codec.encodeSortKey cells = true) (h : p.scopeSet t.scopeText = some texts)
    (hb : cells p.columnId = some b) : t.cellText b ∈ texts := by
  obtain ⟨b', hb', -, -, ha⟩ := PrunePredicate.satisfied_iff.1 hs
  obtain rfl := Option.some.inj (hb'.symm.trans hb)
  obtain ⟨column, ty, ho, hty, hvs⟩ := hy
  -- the value that fixes the cell, and its text
  have hval : ∃ v text, t.codec.sortKeyType v = ty ∧ t.codec.encodeSortKey v = .ok b' ∧
      t.scopeText v = some text ∧ text ∈ texts := by
    rcases exists_scopeText h with ⟨hne, hall⟩ | ⟨heq, v, hv, text, hmem, htx⟩
    · obtain ⟨v, hv, he⟩ := ha.resolve_left hne
      obtain ⟨text, hmem, htx⟩ := hall v hv
      exact ⟨v, text, (hvs v (.inr (.inr hv))).1, he, htx, hmem⟩
    · obtain ⟨ht, encoded, hn⟩ := hvs v (.inl hv)
      have hcell := PrunePredicate.cell_of_isEquality hs heq hv hn
      obtain rfl := Option.some.inj (hb'.symm.trans hcell)
      exact ⟨v, text, ht, hn, htx, hmem⟩
  obtain ⟨v, text, ht, he, htx, hmem⟩ := hval
  exact t.cell_text p.columnId column ty hc ho hty v b' text ht he htx ▸ hmem

theorem mem_foldl_filter {first : List String} {rest : List (List String)} {scope : String}
    (hf : scope ∈ first) (hre : ∀ set ∈ rest, scope ∈ set) :
    scope ∈ rest.foldl (fun result set ↦ result.filter fun scope ↦ decide (scope ∈ set)) first := by
  induction rest generalizing first with
  | nil => exact hf
  | cons set rest ih =>
    rw [forall_mem_cons] at hre
    exact ih (mem_filter.2 ⟨hf, decide_eq_true hre.1⟩) hre.2

theorem cellText_mem_scopes (h : q.accepts cells = true) {scopes : List String}
    (hscs : q.scopes = some scopes) :
    ∃ c b, t.scopeColumn = some c ∧ cells c = some b ∧ t.cellText b ∈ scopes := by
  obtain ⟨c, hc, hvs⟩ := bind_eq_some_iff.1 hscs
  -- every set of scopes comes from a predicate or from the session, and has the row's scope
  have he : ∀ set ∈ (q.predicates.filter fun p ↦ decide (p.columnId = c)).filterMap
      (PrunePredicate.scopeSet t.scopeText) ++ (q.session.map fun scope ↦ [scope]).toList,
      ∃ b, cells c = some b ∧ t.cellText b ∈ set := by
    intro set hs
    rcases mem_append.1 hs with hs | hs
    · obtain ⟨p, hp, hpset⟩ := mem_filterMap.1 hs
      obtain ⟨hmem, hpc⟩ := mem_filter.1 hp
      obtain rfl : p.columnId = c := of_decide_eq_true hpc
      have ha := satisfied_of_accepts h hmem
      obtain ⟨b, hb, -⟩ := PrunePredicate.satisfied_iff.1 ha
      exact ⟨b, hb, cellText_mem_scopeSet (q.typed p hmem) hc ha hpset hb⟩
    · obtain ⟨scope, hsc, rfl⟩ : ∃ scope, q.session = some scope ∧ [scope] = set := by
        simpa using hs
      rw [accepts, Bool.and_eq_true, hc, hsc] at h
      obtain ⟨b, hb, htx⟩ := (Option.any_eq_true _ _).1 h.2
      exact ⟨b, hb, by simpa using htx⟩
  rw [scopeFilterValues] at hvs
  split at hvs
  · cases hvs
  next first rest heq =>
    cases hvs
    rw [heq, forall_mem_cons] at he
    obtain ⟨⟨b, hb, hf⟩, hre⟩ := he
    refine ⟨c, b, hc, hb, ?_⟩
    rw [mem_dedup, mem_insertionSort]
    refine mem_foldl_filter hf fun set hs ↦ ?_
    obtain ⟨b', hb', hmem⟩ := hre set hs
    obtain rfl := Option.some.inj (hb.symm.trans hb')
    exact hmem

end Scopes

theorem inScope_of_accepts {s : ColdSegment} (hs : s ∈ t.segments)
    {g : List (MergeRow K (Cells B))} (hg : g ∈ t.rowGroups s) (hr : r ∈ g)
    (h : q.accepts r.image = true) : t.inScope q.scopes s = true := by
  refine PruneTable.inScope_eq_true_iff.2 fun scopes scope hscs hsc ↦ ?_
  obtain ⟨c, b, hc, hb, hmem⟩ := cellText_mem_scopes h hscs
  rw [← t.scope_id s hs scope hsc c hc g hg r hr b hb]
  exact hmem

/-- **Rows that the query accepts are read.** -/
theorem reads_of_accepts (hr : r ∈ t.coldRows) (h : q.accepts r.image = true) : q.Reads r := by
  obtain ⟨s, hs, i, g, hg, hmem⟩ := PruneTable.mem_coldRows.1 hr
  refine ⟨s, hs, i, g, hg, hmem, inScope_of_accepts hs (mem_of_getElem? hg) hmem h, ?_⟩
  exact PruneTable.planKeeps_of_satisfied hs hg hmem
    (fun p hp ↦ q.typed p (mem_of_mem_filter hp))
    fun p hp ↦ satisfied_of_accepts h (mem_of_mem_filter hp)

end PruneQuery

namespace MergeGroups

section Part

variable {K I : Type*}

def Competes (hot : List (MergeRow K I)) (Read : MergeRow K I → Prop) (c : Candidate K I) : Prop :=
  (c.source = .cold ∧ Read c.toMergeRow) ∨ (c.source = .hot ∧ c.toMergeRow ∈ hot)

def Resurrects (hot cold : List (MergeRow K I)) (Read : MergeRow K I → Prop) (accepts : I → Bool) :
    Prop :=
  ∃ newest ∈ cold, ¬Read newest ∧ (∀ r ∈ cold, r.pk = newest.pk → r.seq ≤ newest.seq) ∧
    (∀ h ∈ hot, h.pk = newest.pk → h.seq < newest.seq) ∧
    ∃ older, Competes hot Read older ∧ older.pk = newest.pk ∧ older.deleted = false ∧
      accepts older.image = true ∧
      ∀ c, Competes hot Read c → c.pk = newest.pk → c.rank ≤ older.rank

variable [DecidableEq K] {hot cold read : List (MergeRow K I)} {accepts : I → Bool}

omit [DecidableEq K] in
theorem competes_iff {c : Candidate K I} :
    Competes hot (fun r ↦ r ∈ read) c ↔ c ∈ candidates .cold read ++ candidates .hot hot := by
  rw [mem_append, mem_candidates, mem_candidates, Competes, and_comm,
    and_comm (b := c.source = .hot)]

omit [DecidableEq K] in
theorem Candidate.rank_le_rank {c d : Candidate K I} (h : c.rank ≤ d.rank) : c.seq ≤ d.seq := by
  rcases Prod.Lex.toLex_le_toLex.1 h with hlt | ⟨heq, -⟩
  · exact hlt.le
  · exact heq.le

omit [DecidableEq K] in
theorem Candidate.seq_lt_of_rank_le {c d : Candidate K I} (hc : c.source = .hot)
    (hd : d.source = .cold) (h : c.rank ≤ d.rank) : c.seq < d.seq := by
  rcases Prod.Lex.toLex_le_toLex.1 h with hlt | ⟨-, hle⟩
  · exact hlt
  · have ht : decide (c.source = .hot) = true := by simp [hc]
    have hfa : decide (d.source = .hot) = false := by simp [hd]
    rw [ht, hfa] at hle
    have hle' : true ≤ false := hle
    exact absurd hle' (by decide)

section Unique

variable (hread : ∀ r ∈ read, r ∈ cold)
  (hunique : ∀ a ∈ cold, ∀ b ∈ cold, a.pk = b.pk → a.seq = b.seq → a = b)
  (hhot : ∀ a ∈ hot, ∀ b ∈ hot, a.pk = b.pk → a = b)

include hread hunique hhot

omit [DecidableEq K] in
theorem eq_of_rank_eq {k : K} : ∀ a ∈ candidates .cold read ++ candidates .hot hot,
    ∀ b ∈ candidates .cold read ++ candidates .hot hot,
      a.pk = k → b.pk = k → a.rank = b.rank → a = b := by
  intro a ha b hb hak hbk hrk
  have hpk : a.pk = b.pk := hak.trans hbk.symm
  have hs : a.seq = b.seq := congrArg (fun rank ↦ (ofLex rank).1) hrk
  have hsrc : decide (a.source = .hot) = decide (b.source = .hot) :=
    congrArg (fun rank ↦ (ofLex rank).2) hrk
  have hr : a.toMergeRow = b.toMergeRow ∧ a.source = b.source := by
    rcases competes_iff.2 ha with ⟨hca, hra⟩ | ⟨hca, hra⟩
    · rcases competes_iff.2 hb with ⟨hcb, hrb⟩ | ⟨hcb, hrb⟩
      · exact ⟨hunique _ (hread _ hra) _ (hread _ hrb) hpk hs, hca.trans hcb.symm⟩
      · simp [hca, hcb] at hsrc
    · rcases competes_iff.2 hb with ⟨hcb, hrb⟩ | ⟨hcb, hrb⟩
      · simp [hca, hcb] at hsrc
      · exact ⟨hhot _ hra _ hrb hpk, hca.trans hcb.symm⟩
  obtain ⟨row, source⟩ := a
  obtain ⟨row', source'⟩ := b
  obtain ⟨rfl, rfl⟩ := hr
  rfl

theorem mem_resolveRows_iff {c : Candidate K I} : c ∈ resolveRows hot read ↔
    Competes hot (fun r ↦ r ∈ read) c ∧ c.deleted = false ∧
      ∀ d, Competes hot (fun r ↦ r ∈ read) d → d.pk = c.pk → d.rank ≤ c.rank := by
  rw [mem_resolveRows, Winners.newest_eq_some_iff (eq_of_rank_eq hread hunique hhot)]
  simp only [competes_iff]
  tauto

end Unique

/-- **A partial read differs only by rows that it resurrects.** -/
theorem filter_resolveRows_perm (hread : ∀ r ∈ read, r ∈ cold)
    (haccepts : ∀ r ∈ cold, accepts r.image = true → r ∈ read)
    (hunique : ∀ a ∈ cold, ∀ b ∈ cold, a.pk = b.pk → a.seq = b.seq → a = b)
    (hhot : ∀ a ∈ hot, ∀ b ∈ hot, a.pk = b.pk → a = b)
    (hnot : ¬Resurrects hot cold (fun r ↦ r ∈ read) accepts) :
    ((resolveRows hot read).filter fun c ↦ accepts c.image).Perm
      ((resolveRows hot cold).filter fun c ↦ accepts c.image) := by
  have hpart := @mem_resolveRows_iff K I _ hot cold read hread hunique hhot
  have hfu := @mem_resolveRows_iff K I _ hot cold cold (fun r hr ↦ hr) hunique hhot
  have hmono : ∀ {c : Candidate K I}, Competes hot (fun r ↦ r ∈ read) c →
      Competes hot (fun r ↦ r ∈ cold) c := by
    rintro c (⟨hc, hr⟩ | hc)
    · exact .inl ⟨hc, hread _ hr⟩
    · exact .inr hc
  refine (perm_ext_iff_of_nodup ((nodup_resolveRows _ _).of_map.filter _)
    ((nodup_resolveRows _ _).of_map.filter _)).2 fun c ↦ ?_
  rw [mem_filter, mem_filter]
  refine and_congr_left fun ha ↦ ?_
  constructor
  · intro hc
    obtain ⟨ho, hlv, hm⟩ := hpart.1 hc
    -- the newest version of the key among all rows
    have hmem : c ∈ candidates .cold cold ++ candidates .hot hot := competes_iff.1 (hmono ho)
    obtain ⟨d, hd⟩ : ∃ d, Winners.newest (fun c : Candidate K I ↦ c.pk) Candidate.rank c.pk
        (candidates .cold cold ++ candidates .hot hot) = some d := Winners.exists_newest hmem rfl
    obtain ⟨hdmem, hdk, hdmax⟩ := (Winners.newest_eq_some_iff
      (eq_of_rank_eq (fun r hr ↦ hr) hunique hhot)).1 hd
    by_cases hdread : Competes hot (fun r ↦ r ∈ read) d
    · have hrank : d.rank = c.rank := le_antisymm (hm d hdread hdk) (hdmax c hmem rfl)
      obtain rfl := eq_of_rank_eq hread hunique hhot d (competes_iff.1 hdread) c
        (competes_iff.1 ho) hdk rfl hrank
      exact hfu.2 ⟨hmono ho, hlv, fun e he hek ↦ hdmax e (competes_iff.1 he) hek⟩
    · exfalso
      rcases competes_iff.2 hdmem with ⟨hs, hdcold⟩ | hdhot
      · refine hnot ⟨d.toMergeRow, hdcold, fun hr ↦ hdread (.inl ⟨hs, hr⟩), ?_, ?_,
          c, ho, hdk.symm, hlv, ha, fun e he hek ↦ hm e he (hek.trans hdk)⟩
        · intro r hr hrk
          exact Candidate.rank_le_rank (hdmax ⟨r, .cold⟩
            (competes_iff.1 (.inl ⟨rfl, hr⟩)) (hrk.trans hdk))
        · intro h hh hhk
          exact Candidate.seq_lt_of_rank_le (c := ⟨h, .hot⟩) rfl hs (hdmax ⟨h, .hot⟩
            (competes_iff.1 (.inr ⟨rfl, hh⟩)) (hhk.trans hdk))
      · exact hdread (.inr hdhot)
  · intro hc
    obtain ⟨ho, hlv, hm⟩ := hfu.1 hc
    refine hpart.2 ⟨?_, hlv, fun d hd hdk ↦ hm d (hmono hd) hdk⟩
    rcases ho with ⟨hs, hr⟩ | hhot
    · exact .inl ⟨hs, haccepts _ hr ha⟩
    · exact .inr hhot

end Part

end MergeGroups

/-! ### Pruned reads -/

structure HotOverlay (K I : Type*) where
  rows : List (MergeRow K I)
  pk_nodup : (rows.map fun r ↦ r.pk).Nodup

namespace PruneQuery

variable {K V T B S : Type*} [DecidableEq K] [DecidableEq V] [DecidableEq T] [LinearOrder B]
  {t : PruneTable K V T B S}

variable (t : PruneTable K V T B S) (hot : HotOverlay K (Cells B))

def Version (r : MergeRow K (Cells B)) : Prop := r ∈ hot.rows ∨ r ∈ t.coldRows

/-- Live versions of a key agree on the key, the scope and the order column, and every version is in
a segment of their scope; hot rows are not older than cold ones. -/
structure Immutable : Prop where
  cells : ∀ a b, Version t hot a → Version t hot b → a.pk = b.pk → a.deleted = false →
    b.deleted = false → ∀ c, c ∈ t.primaryKey ∨ t.scopeColumn = some c ∨ t.orderColumn = some c →
      a.image c = b.image c
  scope : ∀ a, Version t hot a → a.deleted = false → ∀ c b, t.scopeColumn = some c →
    a.image c = some b → ∀ s ∈ t.segments, ∀ g ∈ t.rowGroups s, ∀ r ∈ g, r.pk = a.pk →
      ∀ scope, t.scopeId s = some scope → t.cellText b = scope
  newer : ∀ h ∈ hot.rows, ∀ r ∈ t.coldRows, h.pk = r.pk → r.seq ≤ h.seq

variable {t hot}

/-- Where delete markers and older versions may lie for a query. -/
inductive Prunable (q : PruneQuery t) : Prop
  /-- Anywhere, for predicates on the key. -/
  | key (h : ∀ p ∈ q.predicates, p.columnId ∈ t.primaryKey)
  /-- The row groups of a marker's older live versions have the marker, for predicates on the key,
  the scope and the order column. -/
  | markers (hcolumns : ∀ p ∈ q.predicates, p.columnId ∈ t.primaryKey ∨
      t.scopeColumn = some p.columnId ∨ t.orderColumn = some p.columnId)
    (h : ∀ m ∈ t.coldRows, m.deleted = true → ∀ s ∈ t.segments, ∀ g ∈ t.rowGroups s, ∀ r ∈ g,
      r.pk = m.pk → r.deleted = false → r.seq < m.seq → m ∈ g)
  /-- Segments have no key in common and each has one version of a key. -/
  | disjoint (h : ∀ s ∈ t.segments, ∀ g ∈ t.rowGroups s, ∀ r ∈ g, ∀ s' ∈ t.segments,
      ∀ g' ∈ t.rowGroups s', ∀ r' ∈ g', r.pk = r'.pk → s = s' ∧ r = r')

variable {q : PruneQuery t}

omit [DecidableEq K] in
/-- A cold row is read with an accepted version of its key if it has the version's cells. -/
theorem reads_of_cells_eq (himm : Immutable t hot) {older newest : MergeRow K (Cells B)}
    (hv : Version t hot older) (hlv : older.deleted = false) (hacc : q.accepts older.image = true)
    (hn : newest ∈ t.coldRows) (hpk : older.pk = newest.pk)
    (hcells : ∀ p ∈ q.predicates, older.image p.columnId = newest.image p.columnId) :
    q.Reads newest := by
  obtain ⟨s, hs, i, g, hg, hmem⟩ := PruneTable.mem_coldRows.1 hn
  refine ⟨s, hs, i, g, hg, hmem, PruneTable.inScope_eq_true_iff.2 fun scopes scope hscs hsc ↦ ?_,
    PruneTable.planKeeps_of_satisfied hs hg hmem (fun p hp ↦ q.typed p (mem_of_mem_filter hp))
      fun p hp ↦ ?_⟩
  · obtain ⟨c, b, hc, hb, hb'⟩ := cellText_mem_scopes hacc hscs
    rw [← himm.scope older hv hlv c b hc hb s hs g (mem_of_getElem? hg) newest hmem hpk.symm scope
      hsc]
    exact hb'
  · have hsat := satisfied_of_accepts hacc (mem_of_mem_filter hp)
    rw [PrunePredicate.satisfied] at hsat ⊢
    rwa [hcells p (mem_of_mem_filter hp)] at hsat

omit [DecidableEq K] [DecidableEq V] [DecidableEq T] in
theorem image_eq_of_mem_primaryKey {r r' : MergeRow K (Cells B)} (hr : r ∈ t.coldRows)
    (hr' : r' ∈ t.coldRows) (hpk : r.pk = r'.pk) {c : ℤ} (hc : c ∈ t.primaryKey) :
    r.image c = r'.image c := by
  obtain ⟨s, hs, i, g, hg, hmem⟩ := PruneTable.mem_coldRows.1 hr
  obtain ⟨s', hs', i', g', hg', hmem'⟩ := PruneTable.mem_coldRows.1 hr'
  have hk := t.key_cells s hs g (mem_of_getElem? hg) r hmem
  rw [hpk, ← t.key_cells s' hs' g' (mem_of_getElem? hg') r' hmem'] at hk
  exact map_inj_left.1 hk c hc

omit [DecidableEq K] in
/-- **Nothing is resurrected** where the query may prune. -/
theorem Prunable.not_resurrects (h : Prunable q) (himm : Immutable t hot) :
    ¬Resurrects hot.rows t.coldRows q.Reads q.accepts := by
  rintro ⟨newest, hn, hunread, hmax, hlt, older, hc, hpk, hlv, hacc, -⟩
  rcases hc with ⟨-, s, hs, i, g, hg, hmem, hkp⟩ | ⟨-, hhot⟩
  · have ho : older.toMergeRow ∈ t.coldRows := PruneTable.mem_coldRows.2 ⟨s, hs, i, g, hg, hmem⟩
    refine hunread ?_
    cases h with
    | key hkey =>
      exact reads_of_cells_eq himm (.inr ho) hlv hacc hn hpk fun p hp ↦
        image_eq_of_mem_primaryKey ho hn hpk (hkey p hp)
    | markers hcolumns hmarker =>
      cases hd : newest.deleted with
      | false =>
        exact reads_of_cells_eq himm (.inr ho) hlv hacc hn hpk fun p hp ↦
          himm.cells _ _ (.inr ho) (.inr hn) hpk hlv hd _ (hcolumns p hp)
      | true =>
        have hne : older.seq ≠ newest.seq := by
          intro heq
          have hrow := PruneTable.eq_of_mem_coldRows ho hn hpk heq
          exact absurd (hrow ▸ hlv) (by simp [hd])
        have hmg := hmarker newest hn hd s hs g (mem_of_getElem? hg) _ hmem hpk hlv
          (lt_of_le_of_ne (hmax _ ho hpk) hne)
        exact ⟨s, hs, i, g, hg, hmg, hkp⟩
    | disjoint hone =>
      obtain ⟨s', hs', i', g', hg', hmem'⟩ := PruneTable.mem_coldRows.1 hn
      obtain ⟨-, hrow⟩ := hone s hs g (mem_of_getElem? hg) _ hmem s' hs' g' (mem_of_getElem? hg')
        newest hmem' hpk
      exact hrow ▸ ⟨s, hs, i, g, hg, hmem, hkp⟩
  · exact (hlt _ hhot hpk).not_ge (himm.newer _ hhot newest hn hpk)

end PruneQuery

/-! ### A deleted row that comes back -/

def flushedCells {B : Type*} (primaryKey : List ℤ) (deleted : Bool) (values : Cells B) : Cells B :=
  fun c ↦ if deleted ∧ c ∉ primaryKey then none else values c

namespace DeletedOrder

def values : Cells ℕ := fun c ↦ if c = 1 then some 1 else if c = 2 then some 10 else none

def version (deleted : Bool) : MergeRow ℕ (Cells ℕ) :=
  ⟨1, if deleted then 2 else 1, deleted, flushedCells [1] deleted values⟩

theorem describesColumn_singleton {B : Type*} [LinearOrder B] (cell : Option B) :
    DescribesColumn [[cell]] cell cell [cell] [cell] [some (if cell = none then 1 else 0)] := by
  refine ⟨rfl, rfl, rfl, ?_, rfl, ?_, ?_⟩
  · intro i cells hcs
    obtain ⟨rfl, rfl⟩ : i = 0 ∧ cells = [cell] := by
      cases i with
      | zero => exact ⟨rfl, (Option.some.inj hcs).symm⟩
      | succ i => cases hcs
    refine ⟨rfl, ?_, ?_, ?_, ?_⟩
    · rintro b hb m rfl
      exact (Option.some.inj (mem_singleton.1 hb)).ge
    · rintro b hb m rfl
      exact (Option.some.inj (mem_singleton.1 hb)).le
    · intro hsome
      obtain ⟨b, rfl⟩ := isSome_iff_exists.1 hsome
      exact ⟨b, mem_singleton_self _⟩
    · rintro n ⟨⟩
      cases cell <;> simp
  · rintro cells hcs b hb m rfl
    rw [mem_singleton.1 hcs, mem_singleton] at hb
    exact (Option.some.inj hb).ge
  · rintro cells hcs b hb m rfl
    rw [mem_singleton.1 hcs, mem_singleton] at hb
    exact (Option.some.inj hb).le

def indexRow (segmentId : ℕ) (columnId : ℤ) (deleted : Bool) : SegmentIndexRow ℕ Unit :=
  let cell := (version deleted).image columnId
  ⟨segmentId, columnId, 20, 1, cell, cell, [cell], [cell], [some (if cell = none then 1 else 0)],
    none⟩

def rowGroups (s : ColdSegment) : List (List (MergeRow ℕ (Cells ℕ))) :=
  [[version (decide (s.segmentId = 8))]]

theorem describes_indexRow {s : ColdSegment} {x : SegmentIndexRow ℕ Unit}
    (hx : x ∈ [indexRow 7 1 false, indexRow 7 2 false, indexRow 8 1 true, indexRow 8 2 true])
    (hs : x.segmentId = s.segmentId) :
    DescribesColumn ((rowGroups s).map fun g ↦ g.map fun r ↦ r.image x.columnId) x.minValue
      x.maxValue x.rowGroupMinValues x.rowGroupMaxValues x.rowGroupNullCounts := by
  have hr : ∃ segmentId columnId, x = indexRow segmentId columnId (decide (segmentId = 8)) := by
    simp only [mem_cons, not_mem_nil, or_false] at hx
    rcases hx with rfl | rfl | rfl | rfl
    · exact ⟨7, 1, rfl⟩
    · exact ⟨7, 2, rfl⟩
    · exact ⟨8, 1, rfl⟩
    · exact ⟨8, 2, rfl⟩
  obtain ⟨segmentId, columnId, rfl⟩ := hr
  have hid : segmentId = s.segmentId := hs
  subst hid
  exact describesColumn_singleton _

theorem row_of_mem {s : ColdSegment} {g : List (MergeRow ℕ (Cells ℕ))} (hg : g ∈ rowGroups s)
    {r : MergeRow ℕ (Cells ℕ)} (hr : r ∈ g) : ∃ deleted, r = version deleted := by
  rw [rowGroups, mem_singleton] at hg
  subst hg
  exact ⟨_, mem_singleton.1 hr⟩

def table : PruneTable ℕ ℕ Unit ℕ Unit where
  codec := natCodec
  tableOid := 1
  generation := 1
  columns := [⟨1, 20⟩, ⟨2, 20⟩]
  primaryKey := [1]
  segments := [⟨7, "seg-7", 1, [1]⟩, ⟨8, "seg-8", 1, [1]⟩]
  indexRows := [indexRow 7 1 false, indexRow 7 2 false, indexRow 8 1 true, indexRow 8 2 true]
  segments_nodup := by decide
  indexRows_nodup := by decide
  row_counts_length := by decide
  row_counts_pos := by decide
  scopeColumn := none
  orderColumn := some 2
  indexedColumns := []
  scopeId _ := none
  keyTuple _ := none
  concat cells := cells.headD 0
  frame cells := cells.headD 0
  scopeText _ := none
  cellText _ := ""
  keyCells k := [k]
  rowGroups := rowGroups
  paths_nodup := by decide
  row_counts := by simp [rowGroups]
  key_cells := by
    intro s _ g hg r hr
    obtain ⟨deleted, rfl⟩ := row_of_mem hg hr
    cases deleted <;> rfl
  version_unique := by
    intro s _ g hg r hr s' _ g' hg' r' hr' _ hseq
    obtain ⟨deleted, rfl⟩ := row_of_mem hg hr
    obtain ⟨deleted', rfl⟩ := row_of_mem hg' hr'
    cases deleted <;> cases deleted' <;> first | rfl | cases hseq
  describes _ _ _ hx hsegment := describes_indexRow hx hsegment
  concat_singleton _ := rfl
  summary := by
    intro s _ x _ _ _ summary _ g _ r _ hash _
    rfl
  key_tuple := by
    intro s _ p hp
    cases hp
  cell_text := by
    intro c column ty hc
    cases hc
  scope_id := by
    nofun

/-- `WHERE day = 10`. -/
def query : PruneQuery table where
  predicates := [.equality 2 "day" 10]
  session := none
  typed := by
    intro p hp
    rw [mem_singleton.1 hp]
    exact ⟨⟨2, 20⟩, (), rfl, rfl, fun v _ ↦ ⟨rfl, v, rfl⟩⟩

end DeletedOrder

end Koldstore
