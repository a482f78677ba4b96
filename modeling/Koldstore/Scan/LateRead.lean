import Koldstore.Merge.Disjoint
import Koldstore.Merge.Stream
import Koldstore.Scan.Remap

/-!
# Reading the columns of a row in two steps

The key and the order column are read first.
-/

namespace Koldstore

open List
open Option (isSome_iff_exists map_eq_some_iff)

namespace LateRead

open NewestFirstWinnerResolver

/-! ### Reads -/

structure StoredRow (V : Type*) where
  physicalName : ColumnRef → Option String
  cells : NamedCells V
  seq : ℕ
  deleted : Bool

abbrev LogicalKey (V : Type*) := List (Option V)

section Read

variable {V : Type*} (null : V) (primaryKey projected : List ColumnRef) (r : StoredRow V)

def physicalNames : List (ColumnRef × String) :=
  projected.filterMap fun c ↦ (r.physicalName c).map fun name ↦ (c, name)

def missingLogicalNames : List String :=
  (projected.filter fun c ↦ (r.physicalName c).isNone).map ColumnRef.name

def cellsUnder (names : List String) : NamedCells V := fun n ↦ if n ∈ names then r.cells n else none

def fillMissingLogicalNulls (image : NamedCells V) (missing : List String) : NamedCells V :=
  fun n ↦ (image n).or (if n ∈ missing then some null else none)

def readImage : NamedCells V := fillMissingLogicalNulls null (remapRowToLogicalNames
    (cellsUnder r ((physicalNames projected r).map Prod.snd)) (physicalNames projected r))
    (missingLogicalNames projected r)

def readPk : LogicalKey V :=
  primaryKey.map fun c ↦ remapToLogicalNames (cellsUnder r (primaryKey.filterMap r.physicalName))
    (physicalNames projected r) c.name

def storedCell (c : ColumnRef) : Option V :=
  match r.physicalName c with
  | some name => r.cells name
  | none => some null

end Read

/-! ### The plan -/

/-- `dedup_by_key`: the first of neighbours with one number. -/
def dedupFrom (c : ColumnRef) : List ColumnRef → List ColumnRef
  | [] => [c]
  | d :: columns =>
    if c.columnId = d.columnId then dedupFrom c columns else c :: dedupFrom d columns

def dedupByKey : List ColumnRef → List ColumnRef
  | [] => []
  | c :: columns => dedupFrom c columns

def forOrdered (full primaryKey : List ColumnRef) (leading : ColumnRef) :
    Option (List ColumnRef × List ColumnRef) :=
  let compete := dedupByKey ((primaryKey ++ [leading]).insertionSort fun c d ↦
    c.columnId ≤ d.columnId)
  let body := full.filter fun c ↦ !compete.any fun d ↦ decide (d.columnId = c.columnId)
  if body = [] ∨ full.length ≤ compete.length then none else some (compete, body)

def bodyWithPrimaryKey (body primaryKey : List ColumnRef) : List ColumnRef :=
  body ++ primaryKey.filter fun c ↦ !body.any fun d ↦ decide (d.columnId = c.columnId)

/-! ### The ordered buffer -/

structure OrderedScan (V B : Type*) where
  catalog : List ColumnRef
  primaryKey : List ColumnRef
  full : List ColumnRef
  leading : ColumnRef
  emitted : List ColumnRef
  direction : OrderDirection
  encodeLeadingKey : Option V → Option B
  null : V
  hot : List (ResolvedRow (LogicalKey V) String V)
  masked : LogicalKey V → Bool
  resolver : NewestFirstWinnerResolver (LogicalKey V)
  groups : List (List (StoredRow V))
  id_inj : ∀ c ∈ catalog, ∀ d ∈ catalog, c.columnId = d.columnId → c = d
  name_inj : ∀ c ∈ catalog, ∀ d ∈ catalog, c.name = d.name → c = d
  full_subset : full ⊆ catalog
  full_nodup : full.Nodup
  primaryKey_subset : primaryKey ⊆ full
  primaryKey_nodup : primaryKey.Nodup
  leading_mem : leading ∈ catalog
  emitted_subset : emitted ⊆ full
  hot_source : ∀ row ∈ hot, row.source = .hot
  physical_inj : ∀ r ∈ groups.flatten, ∀ c ∈ catalog, ∀ d ∈ catalog, ∀ name,
    r.physicalName c = some name → r.physicalName d = some name → c = d
  physical_key : ∀ r ∈ groups.flatten, ∀ c ∈ primaryKey, (r.physicalName c).isSome
  stored : ∀ r ∈ groups.flatten, ∀ c ∈ catalog, ∀ name, r.physicalName c = some name →
    (r.cells name).isSome
  versions : ∀ r ∈ groups.flatten, ∀ r' ∈ groups.flatten,
    primaryKey.map (storedCell null r) = primaryKey.map (storedCell null r') → r.seq = r'.seq →
      ∀ c ∈ catalog, storedCell null r c = storedCell null r' c

namespace OrderedScan

variable {V B : Type*} [DecidableEq V] [LinearOrder B] (scan : OrderedScan V B)
  (projected : List ColumnRef)

def coldRow (r : StoredRow V) : ResolvedRow (LogicalKey V) String V :=
  ⟨readPk scan.primaryKey projected r, .cold, r.seq, readImage scan.null projected r⟩

def coldWinners : Except SeenKeyLimitExceeded (List (StoredRow V)) :=
  (resolveCold (readPk scan.primaryKey projected) StoredRow.seq StoredRow.deleted
    (scan.groups.map fun group ↦ group.filter fun r ↦
      !scan.masked (readPk scan.primaryKey projected r)) scan.resolver).map Prod.fst

variable (row : ResolvedRow (LogicalKey V) String V)

def leadingKey : Option B := scan.encodeLeadingKey (row.image scan.leading.name)

def keyBefore (left right : Option B) : Bool :=
  match scan.direction with
  | .asc => MergeSources.keyLe left right
  | .desc => MergeSources.keyLe right left

def buffer : Except SeenKeyLimitExceeded (List (ResolvedRow (LogicalKey V) String V)) :=
  (scan.coldWinners projected).map fun winners ↦
    (scan.hot ++ winners.map (scan.coldRow projected)).insertionSort fun left right ↦
      scan.keyBefore (scan.leadingKey left) (scan.leadingKey right) = true

/-- The image under a key and a `seq` that the second read meets last. -/
def bodyImage (columns : List ColumnRef) (pk : LogicalKey V) (seq : ℕ) : Option (NamedCells V) :=
  (scan.groups.flatten.reverse.find? fun r ↦
    decide (readPk scan.primaryKey columns r = pk ∧ r.seq = seq)).map (readImage scan.null columns)

def hydrate (columns : List ColumnRef) (row : ResolvedRow (LogicalKey V) String V) :
    ResolvedRow (LogicalKey V) String V :=
  match row.source with
  | .hot => row
  | .cold =>
    match scan.bodyImage columns row.pk row.seq with
    | none => row
    | some body => { row with image := fun n ↦ (body n).or (row.image n) }

def emit : EmittedRow (LogicalKey V) V :=
  ⟨row.pk, row.source, row.seq, scan.emitted.map fun c ↦ row.image c.name⟩

def emitFull : Except SeenKeyLimitExceeded (List (EmittedRow (LogicalKey V) V)) :=
  (scan.buffer scan.full).map fun rows ↦ rows.map scan.emit

def emitLate : Except SeenKeyLimitExceeded (List (EmittedRow (LogicalKey V) V)) :=
  match forOrdered scan.full scan.primaryKey scan.leading with
  | none => scan.emitFull
  | some (compete, body) =>
    (scan.buffer compete).map fun rows ↦
      (rows.map (scan.hydrate (bodyWithPrimaryKey body scan.primaryKey))).map scan.emit

end OrderedScan

end LateRead

namespace NewestFirstWinnerResolver

variable {K R : Type*} [DecidableEq K] {key key' : R → K} {seq : R → ℕ} {deleted : R → Bool}

variable {source : RowSource} {winners : List R}

theorem insertCandidate_congr {row : R}
    (hrow : key row = key' row) (h : ∀ w ∈ winners, key w = key' w) :
    insertCandidate source key seq row winners = insertCandidate source key' seq row winners := by
  induction winners with
  | nil => rfl
  | cons winner winners ih =>
    rw [forall_mem_cons] at h
    rw [insertCandidate, insertCandidate, h.1, hrow, ih h.2]

theorem batchWinners_congr {rows : List R} (h : ∀ r ∈ rows, key r = key' r) :
    batchWinners source key seq rows = batchWinners source key' seq rows := by
  have hfo : ∀ winners, (∀ w ∈ winners, key w = key' w) →
      rows.foldl (fun ws row ↦ insertCandidate source key seq row ws) winners =
        rows.foldl (fun ws row ↦ insertCandidate source key' seq row ws) winners := by
    induction rows with
    | nil => exact fun _ _ ↦ rfl
    | cons row rows ih =>
      intro winners hws
      rw [forall_mem_cons] at h
      rw [foldl_cons, foldl_cons, ← insertCandidate_congr h.1 hws]
      refine ih h.2 _ fun w hw ↦ ?_
      rcases mem_of_mem_insertCandidate hw with rfl | hw
      · exact h.1
      · exact hws w hw
  exact hfo [] (by simp)

theorem takeUnseenOrdered_congr {retain : Bool}
    (h : ∀ w ∈ winners, key w = key' w) (ρ : NewestFirstWinnerResolver K) :
    takeUnseenOrdered key deleted retain winners ρ =
      takeUnseenOrdered key' deleted retain winners ρ := by
  induction winners generalizing ρ with
  | nil => rfl
  | cons winner winners ih =>
    rw [forall_mem_cons] at h
    simp only [takeUnseenOrdered, h.1, ih h.2]

theorem resolveCold_congr {batches : List (List R)}
    (h : ∀ batch ∈ batches, ∀ r ∈ batch, key r = key' r) (ρ : NewestFirstWinnerResolver K) :
    resolveCold key seq deleted batches ρ = resolveCold key' seq deleted batches ρ := by
  induction batches generalizing ρ with
  | nil => rfl
  | cons batch batches ih =>
    rw [forall_mem_cons] at h
    have hbt : resolveColdBatch key seq deleted batch ρ =
        resolveColdBatch key' seq deleted batch ρ := by
      rw [resolveColdBatch, resolveColdBatch, resolveBatch, resolveBatch, ← batchWinners_congr h.1]
      exact takeUnseenOrdered_congr (fun w hw ↦ h.1 w (mem_of_mem_batchWinners hw)) ρ
    rw [resolveCold, resolveCold, hbt]
    simp only [ih h.2]

end NewestFirstWinnerResolver

namespace LateRead

open NewestFirstWinnerResolver Renames

/-! ### A read that loses nothing -/

def NoClash {V : Type*} (projected : List ColumnRef) (r : StoredRow V) : Prop :=
  (physicalNames projected r).Pairwise fun p q ↦ p.1.name ≠ q.2

theorem mem_physicalNames {V : Type*} {projected : List ColumnRef} {r : StoredRow V}
    {p : ColumnRef × String} :
    p ∈ physicalNames projected r ↔ p.1 ∈ projected ∧ r.physicalName p.1 = some p.2 := by
  simp only [physicalNames, mem_filterMap, map_eq_some_iff]
  constructor
  · rintro ⟨c, hc, n, hn, rfl⟩
    exact ⟨hc, hn⟩
  · rintro ⟨hc, hn⟩
    exact ⟨p.1, hc, p.2, hn, rfl⟩

theorem remap_other {V : Type*} {cells : NamedCells V} {names : List (ColumnRef × String)}
    {n : String} (hl : ∀ p ∈ names, p.1.name ≠ n) (hcs : cells n ≠ none → ∃ p ∈ names, p.2 = n) :
    remapToLogicalNames cells names n = none := by
  by_cases hnone : cells n = none
  · exact remap_eq_none hl hnone
  · obtain ⟨p, hp, rfl⟩ := hcs hnone
    exact remap_physical_eq_none hp hl

variable {c : ColumnRef}

namespace OrderedScan

variable {V B : Type*} {scan : OrderedScan V B} {projected : List ColumnRef} {r : StoredRow V}

theorem logical_nodup (hsub : projected ⊆ scan.catalog) (hnd : projected.Nodup) :
    ((physicalNames projected r).map fun p ↦ p.1.name).Nodup := by
  rw [List.Nodup, pairwise_map, physicalNames, pairwise_filterMap]
  refine List.Pairwise.imp_of_mem (fun {c d} hc hd hne p hp q hq heq ↦ ?_) hnd
  obtain ⟨_, -, rfl⟩ := map_eq_some_iff.1 hp
  obtain ⟨_, -, rfl⟩ := map_eq_some_iff.1 hq
  exact hne (scan.name_inj c (hsub hc) d (hsub hd) heq)

variable (hr : r ∈ scan.groups.flatten)
include hr

variable (hsub : projected ⊆ scan.catalog)
include hsub

variable (hnd : projected.Nodup)
include hnd

theorem physical_nodup : ((physicalNames projected r).map Prod.snd).Nodup := by
  rw [List.Nodup, pairwise_map, physicalNames, pairwise_filterMap]
  refine List.Pairwise.imp_of_mem (fun {c d} hc hd hne p hp q hq heq ↦ ?_) hnd
  obtain ⟨n, hn, rfl⟩ := map_eq_some_iff.1 hp
  obtain ⟨m, hm, rfl⟩ := map_eq_some_iff.1 hq
  obtain rfl : n = m := heq
  exact hne (scan.physical_inj r hr c (hsub hc) d (hsub hd) n hn hm)

theorem remap_column (hclash : NoClash projected r) {cells : NamedCells V} (hc : c ∈ projected)
    {name : String} (hnm : r.physicalName c = some name) {value : V}
    (hv : cells name = some value) :
    remapToLogicalNames cells (physicalNames projected r) c.name = some value :=
  stored_of_spares (logical_nodup hsub hnd) (physical_nodup hr hsub hnd)
    (hclash.imp fun hne _ _ heq ↦ absurd heq hne) (p := (c, name))
    (mem_physicalNames.2 ⟨hc, hnm⟩) hv

/-- **A read shows what is stored of its columns, and nothing of the others.** -/
theorem readImage_eq (hclash : NoClash projected r) (hc : c ∈ scan.catalog) :
    readImage scan.null projected r c.name =
      if c ∈ projected then storedCell scan.null r c else none := by
  -- only a column that is read is moved to its name
  have hsm {d : ColumnRef} (hd : d ∈ projected) (hnm : d.name = c.name) : d = c :=
    scan.name_inj d (hsub hd) c hc hnm
  have ho (h : c ∉ projected ∨ r.physicalName c = none) :
      remapRowToLogicalNames (cellsUnder r ((physicalNames projected r).map Prod.snd))
        (physicalNames projected r) c.name = none := by
    refine remap_other (fun p hp hnm ↦ ?_) fun hcell ↦ ?_
    · obtain ⟨hmem, hph⟩ := mem_physicalNames.1 hp
      have heq := hsm hmem hnm
      rw [heq] at hmem hph
      rcases h with h | h
      · exact h hmem
      · rw [h] at hph
        cases hph
    · rw [cellsUnder] at hcell
      split_ifs at hcell with hmem
      · obtain ⟨p, hp, hp'⟩ := mem_map.1 hmem
        exact ⟨p, hp, hp'⟩
      · exact absurd rfl hcell
  by_cases hmem : c ∈ projected
  · rw [if_pos hmem, readImage, fillMissingLogicalNulls, storedCell]
    rcases hnm : r.physicalName c with _ | name
    · have hmiss : c.name ∈ missingLogicalNames projected r :=
        mem_map.2 ⟨c, mem_filter.2 ⟨hmem, by rw [hnm]; rfl⟩, rfl⟩
      rw [ho (.inr hnm), if_pos hmiss]
      rfl
    · obtain ⟨value, hv⟩ := isSome_iff_exists.1 (scan.stored r hr c hc name hnm)
      have hcell : cellsUnder r ((physicalNames projected r).map Prod.snd) name = some value := by
        rw [cellsUnder, if_pos (mem_map.2 ⟨(c, name), mem_physicalNames.2 ⟨hmem, hnm⟩, rfl⟩), hv]
      rw [remapRowToLogicalNames, remap_column hr hsub hnd hclash hmem hnm hcell]
      exact hv.symm
  · have hmiss : c.name ∉ missingLogicalNames projected r := by
      intro h
      obtain ⟨d, hd, hnm⟩ := mem_map.1 h
      have hd' := mem_of_mem_filter hd
      exact hmem (hsm hd' hnm ▸ hd')
    rw [if_neg hmem, readImage, fillMissingLogicalNulls, ho (.inl hmem), if_neg hmiss]
    rfl

theorem readPk_eq (hclash : NoClash projected r) (hk : scan.primaryKey ⊆ projected) :
    readPk scan.primaryKey projected r = scan.primaryKey.map (storedCell scan.null r) := by
  refine map_congr_left fun c hc ↦ ?_
  obtain ⟨name, hnm⟩ := isSome_iff_exists.1 (scan.physical_key r hr c hc)
  obtain ⟨value, hv⟩ := isSome_iff_exists.1 (scan.stored r hr c (hsub (hk hc)) name hnm)
  have hcell : cellsUnder r (scan.primaryKey.filterMap r.physicalName) name = some value := by
    rw [cellsUnder, if_pos (mem_filterMap.2 ⟨c, hc, hnm⟩), hv]
  rw [remap_column hr hsub hnd hclash (hk hc) hnm hcell, storedCell, hnm]
  exact hv.symm

omit hnd

omit hsub

omit hr

end OrderedScan

/-! ### The columns of the plan -/

variable {columns : List ColumnRef}

theorem mem_of_mem_dedupFrom {d : ColumnRef} (h : d ∈ dedupFrom c columns) : d ∈ c :: columns := by
  induction columns generalizing c with
  | nil => exact h
  | cons e columns ih =>
    rw [dedupFrom] at h
    split_ifs at h with hid
    · rcases mem_cons.1 (ih h) with rfl | h
      · exact mem_cons_self
      · exact mem_cons_of_mem _ (mem_cons_of_mem _ h)
    · rcases mem_cons.1 h with rfl | h
      · exact mem_cons_self
      · exact mem_cons_of_mem _ (ih h)

theorem mem_dedupFrom {d : ColumnRef} (hinj : ∀ e ∈ c :: columns, e.columnId = d.columnId → e = d)
    (h : d ∈ c :: columns) : d ∈ dedupFrom c columns := by
  induction columns generalizing c with
  | nil => exact h
  | cons e columns ih =>
    have hc := hinj c mem_cons_self
    rw [dedupFrom]
    split_ifs with hid
    · refine ih (fun f hf ↦ hinj f ?_) ?_
      · exact (mem_cons.1 hf).elim (fun heq ↦ heq ▸ mem_cons_self)
          fun hf ↦ mem_cons_of_mem _ (mem_cons_of_mem _ hf)
      · rcases mem_cons.1 h with rfl | h
        · exact mem_cons_self
        · rcases mem_cons.1 h with rfl | h
          · exact hc hid ▸ mem_cons_self
          · exact mem_cons_of_mem _ h
    · rcases mem_cons.1 h with rfl | h
      · exact mem_cons_self
      · exact mem_cons_of_mem _ (ih (fun f hf ↦ hinj f (mem_cons_of_mem _ hf)) h)

theorem pairwise_dedupFrom (h : (c :: columns).Pairwise fun d e ↦ d.columnId ≤ e.columnId) :
    (dedupFrom c columns).Pairwise fun d e ↦ d.columnId < e.columnId := by
  induction columns generalizing c with
  | nil => exact pairwise_singleton _ _
  | cons e columns ih =>
    obtain ⟨hf, hre⟩ := pairwise_cons.1 h
    rw [dedupFrom]
    split_ifs with hid
    · exact ih (pairwise_cons.2
        ⟨fun d hd ↦ hf d (mem_cons_of_mem _ hd), (pairwise_cons.1 hre).2⟩)
    · refine pairwise_cons.2 ⟨fun d hd ↦ ?_, ih hre⟩
      have hle := hf e mem_cons_self
      rcases mem_cons.1 (mem_of_mem_dedupFrom hd) with rfl | hd
      · omega
      · have := (pairwise_cons.1 hre).1 d hd
        omega

structure Divides {V B : Type*} (scan : OrderedScan V B) (compete body : List ColumnRef) :
    Prop where
  compete_nodup : compete.Nodup
  compete_subset : compete ⊆ scan.catalog
  primaryKey_subset : scan.primaryKey ⊆ compete
  leading_mem : scan.leading ∈ compete
  body_nodup : body.Nodup
  body_subset : body ⊆ scan.full
  cover : ∀ c ∈ scan.full, c ∈ compete ∨ c ∈ body

theorem divides_of_forOrdered {V B : Type*} (scan : OrderedScan V B) {compete body : List ColumnRef}
    (h : forOrdered scan.full scan.primaryKey scan.leading = some (compete, body)) :
    Divides scan compete body := by
  have hcat : ∀ c ∈ scan.primaryKey ++ [scan.leading], c ∈ scan.catalog := by
    intro c hc
    rcases mem_append.1 hc with hc | hc
    · exact scan.full_subset (scan.primaryKey_subset hc)
    · exact mem_singleton.1 hc ▸ scan.leading_mem
  rw [forOrdered] at h
  set sorted := (scan.primaryKey ++ [scan.leading]).insertionSort fun c d ↦
    c.columnId ≤ d.columnId with hso
  have hmem {c : ColumnRef} : c ∈ sorted ↔ c ∈ scan.primaryKey ++ [scan.leading] :=
    mem_insertionSort _
  have hpw : sorted.Pairwise fun c d ↦ c.columnId ≤ d.columnId := by
    have : Std.Total fun c d : ColumnRef ↦ c.columnId ≤ d.columnId := ⟨fun c d ↦ le_total _ _⟩
    have : IsTrans ColumnRef fun c d ↦ c.columnId ≤ d.columnId := ⟨fun _ _ _ ↦ le_trans⟩
    exact pairwise_insertionSort _ _
  -- the columns that compete are those of the key and the order column
  have hkt : ∀ c, c ∈ dedupByKey sorted ↔ c ∈ scan.primaryKey ++ [scan.leading] := by
    intro c
    rw [← hmem]
    cases hs : sorted with
    | nil => rfl
    | cons d columns =>
      refine ⟨mem_of_mem_dedupFrom, fun hc ↦ mem_dedupFrom (fun e he hid ↦ ?_) hc⟩
      rw [← hs] at he hc
      exact scan.id_inj e (hcat e (hmem.1 he)) c (hcat c (hmem.1 hc)) hid
  have hnd : (dedupByKey sorted).Nodup := by
    cases hs : sorted with
    | nil => exact nodup_nil
    | cons d columns =>
      refine (pairwise_dedupFrom (hs ▸ hpw)).imp fun hlt heq ↦ ?_
      rw [heq] at hlt
      exact lt_irrefl _ hlt
  split_ifs at h with hnone
  cases h
  refine ⟨hnd, fun c hc ↦ hcat c ((hkt c).1 hc),
    fun c hc ↦ (hkt c).2 (mem_append_left _ hc), (hkt _).2 (by simp),
    scan.full_nodup.filter _, fun c hc ↦ mem_of_mem_filter hc, fun c hc ↦ ?_⟩
  by_cases hbody : c ∈ scan.full.filter fun c ↦
      !(dedupByKey sorted).any fun d ↦ decide (d.columnId = c.columnId)
  · exact .inr hbody
  · left
    have ha : (dedupByKey sorted).any (fun d ↦ decide (d.columnId = c.columnId)) = true := by
      by_contra ha
      exact hbody (mem_filter.2 ⟨hc, by simpa using ha⟩)
    obtain ⟨d, hd, hid⟩ := any_eq_true.1 ha
    have heq := scan.id_inj d (hcat d ((hkt d).1 hd)) c (scan.full_subset hc)
      (of_decide_eq_true hid)
    exact heq ▸ hd

namespace Divides

variable {V B : Type*} {scan : OrderedScan V B} {compete body : List ColumnRef}
  (h : Divides scan compete body)
include h

theorem mem_bodyWithPrimaryKey :
    c ∈ bodyWithPrimaryKey body scan.primaryKey ↔ c ∈ body ∨ c ∈ scan.primaryKey := by
  rw [bodyWithPrimaryKey, mem_append, mem_filter]
  constructor
  · exact Or.imp_right And.left
  · rintro (hc | hc)
    · exact .inl hc
    · by_cases ha : body.any (fun d ↦ decide (d.columnId = c.columnId)) = true
      · obtain ⟨d, hd, hid⟩ := any_eq_true.1 ha
        have heq := scan.id_inj d (scan.full_subset (h.body_subset hd)) c
          (scan.full_subset (scan.primaryKey_subset hc)) (of_decide_eq_true hid)
        exact .inl (heq ▸ hd)
      · exact .inr ⟨hc, by simpa using ha⟩

theorem bodyWithPrimaryKey_subset : bodyWithPrimaryKey body scan.primaryKey ⊆ scan.catalog := by
  intro c hc
  rcases h.mem_bodyWithPrimaryKey.1 hc with hc | hc
  · exact scan.full_subset (h.body_subset hc)
  · exact scan.full_subset (scan.primaryKey_subset hc)

theorem bodyWithPrimaryKey_nodup : (bodyWithPrimaryKey body scan.primaryKey).Nodup := by
  refine nodup_append.2 ⟨h.body_nodup, scan.primaryKey_nodup.filter _, fun c hc d hd ↦ ?_⟩
  rintro rfl
  have hnone := (mem_filter.1 hd).2
  simp only [Bool.not_eq_true', any_eq_false, decide_eq_true_eq] at hnone
  exact hnone c hc rfl

omit h

end Divides

namespace OrderedScan

variable {V B : Type*} (scan : OrderedScan V B)

structure ReadsRight (projected : List ColumnRef) : Prop where
  subset : projected ⊆ scan.catalog
  nodup : projected.Nodup
  key : scan.primaryKey ⊆ projected
  clash : ∀ r ∈ scan.groups.flatten, NoClash projected r

structure Unclashing : Prop where
  full : ∀ r ∈ scan.groups.flatten, NoClash scan.full r
  late : ∀ compete body, forOrdered scan.full scan.primaryKey scan.leading = some (compete, body) →
    ∀ r ∈ scan.groups.flatten,
      NoClash compete r ∧ NoClash (bodyWithPrimaryKey body scan.primaryKey) r

def storedKey (r : StoredRow V) : LogicalKey V := scan.primaryKey.map (storedCell scan.null r)

def items (winners : List (StoredRow V)) :
    List (ResolvedRow (LogicalKey V) String V ⊕ StoredRow V) :=
  scan.hot.map Sum.inl ++ winners.map Sum.inr

def itemKey : ResolvedRow (LogicalKey V) String V ⊕ StoredRow V → Option B
  | .inl row => scan.leadingKey row
  | .inr r => scan.encodeLeadingKey (storedCell scan.null r scan.leading)

def showItem (projected : List ColumnRef) :
    ResolvedRow (LogicalKey V) String V ⊕ StoredRow V → ResolvedRow (LogicalKey V) String V
  | .inl row => row
  | .inr r => scan.coldRow projected r

variable {scan} {projected compete body : List ColumnRef} {r : StoredRow V}

theorem ReadsRight.readPk_eq (h : scan.ReadsRight projected) (hr : r ∈ scan.groups.flatten) :
    readPk scan.primaryKey projected r = scan.storedKey r :=
  OrderedScan.readPk_eq hr h.subset h.nodup (h.clash r hr) h.key

theorem ReadsRight.readImage_eq (h : scan.ReadsRight projected) (hr : r ∈ scan.groups.flatten)
    (hc : c ∈ scan.catalog) : readImage scan.null projected r c.name =
      if c ∈ projected then storedCell scan.null r c else none :=
  OrderedScan.readImage_eq hr h.subset h.nodup (h.clash r hr) hc

variable [DecidableEq V]

variable (scan) in
def storedWinners : Except SeenKeyLimitExceeded (List (StoredRow V)) :=
  (resolveCold scan.storedKey StoredRow.seq StoredRow.deleted
    (scan.groups.map fun group ↦ group.filter fun r ↦ !scan.masked (scan.storedKey r))
    scan.resolver).map Prod.fst

theorem ReadsRight.coldWinners_eq (h : scan.ReadsRight projected) :
    scan.coldWinners projected = scan.storedWinners := by
  have hk : ∀ group ∈ scan.groups, ∀ r ∈ group,
      readPk scan.primaryKey projected r = scan.storedKey r :=
    fun group hg r hr ↦ h.readPk_eq (mem_flatten.2 ⟨group, hg, hr⟩)
  have hgs : (scan.groups.map fun group ↦ group.filter fun r ↦
        !scan.masked (readPk scan.primaryKey projected r)) =
      scan.groups.map fun group ↦ group.filter fun r ↦ !scan.masked (scan.storedKey r) :=
    map_congr_left fun group hg ↦ filter_congr fun r hr ↦ by rw [hk group hg r hr]
  rw [coldWinners, storedWinners, hgs, resolveCold_congr]
  intro batch hbt r hr
  obtain ⟨group, hg, rfl⟩ := mem_map.1 hbt
  exact hk group hg r (mem_of_mem_filter hr)

variable {winners : List (StoredRow V)}

theorem mem_of_mem_storedWinners (h : scan.storedWinners = .ok winners) (hr : r ∈ winners) :
    r ∈ scan.groups.flatten := by
  obtain ⟨⟨rows, ρ⟩, hcd, rfl⟩ := Except.map_eq_ok_iff.1 h
  obtain ⟨batch, hbt, hmem⟩ := exists_batch_of_mem_resolveCold hcd hr
  obtain ⟨group, hg, rfl⟩ := mem_map.1 hbt
  exact mem_flatten.2 ⟨group, hg, mem_of_mem_filter hmem⟩

variable [LinearOrder B]

theorem ReadsRight.buffer_eq (h : scan.ReadsRight projected) (hle : scan.leading ∈ projected)
    (hws : scan.storedWinners = .ok winners) :
    scan.buffer projected = .ok (((scan.items winners).insertionSort fun a b ↦
      scan.keyBefore (scan.itemKey a) (scan.itemKey b) = true).map (scan.showItem projected)) := by
  have hitems : (scan.items winners).map (scan.showItem projected) =
      scan.hot ++ winners.map (scan.coldRow projected) := by
    simp [items, showItem, Function.comp_def]
  have hks : ∀ a ∈ scan.items winners,
      scan.leadingKey (scan.showItem projected a) = scan.itemKey a := by
    intro a ha
    cases a with
    | inl row => rfl
    | inr r =>
      have hr : r ∈ winners := by simpa [items] using ha
      have hi := h.readImage_eq (mem_of_mem_storedWinners hws hr) scan.leading_mem
      rw [if_pos hle] at hi
      exact congrArg scan.encodeLeadingKey hi
  rw [buffer, h.coldWinners_eq, hws, Except.map, ← hitems]
  refine congrArg Except.ok (map_insertionSort _ _ _ _ fun a ha b hb ↦ ?_).symm
  rw [hks a ha, hks b hb]

omit [LinearOrder B] in
theorem bodyImage_eq (h : scan.ReadsRight projected) (hr : r ∈ scan.groups.flatten) :
    ∃ r' ∈ scan.groups.flatten,
      scan.bodyImage projected (scan.storedKey r) r.seq = some (readImage scan.null projected r') ∧
        ∀ c ∈ scan.catalog, storedCell scan.null r' c = storedCell scan.null r c := by
  obtain ⟨r', hfi⟩ : ∃ r', (scan.groups.flatten.reverse.find? fun x ↦
      decide (readPk scan.primaryKey projected x = scan.storedKey r ∧ x.seq = r.seq)) =
        some r' := by
    refine isSome_iff_exists.1 (find?_isSome.2 ⟨r, mem_reverse.2 hr, ?_⟩)
    exact decide_eq_true ⟨h.readPk_eq hr, rfl⟩
  have hr' : r' ∈ scan.groups.flatten := mem_reverse.1 (mem_of_find?_eq_some hfi)
  have hfnd := find?_some hfi
  obtain ⟨hk, hs⟩ := of_decide_eq_true hfnd
  rw [h.readPk_eq hr'] at hk
  exact ⟨r', hr', by rw [bodyImage, hfi]; rfl, scan.versions r' hr' r hr hk hs⟩

omit [LinearOrder B] in
theorem emit_hydrate (hdvd : Divides scan compete body) (hfu : scan.ReadsRight scan.full)
    (hcomp : scan.ReadsRight compete)
    (hbody : scan.ReadsRight (bodyWithPrimaryKey body scan.primaryKey))
    (hr : r ∈ scan.groups.flatten) :
    scan.emit (scan.hydrate (bodyWithPrimaryKey body scan.primaryKey) (scan.coldRow compete r)) =
      scan.emit (scan.coldRow scan.full r) := by
  obtain ⟨r', hr', hi, hsm⟩ := bodyImage_eq hbody hr
  simp only [hydrate, coldRow, emit, hcomp.readPk_eq hr, hfu.readPk_eq hr, hi,
    EmittedRow.mk.injEq, true_and]
  refine map_congr_left fun c hc ↦ ?_
  have hmem := scan.emitted_subset hc
  have hcat := scan.full_subset hmem
  rw [hbody.readImage_eq hr' hcat, hcomp.readImage_eq hr hcat,
    hfu.readImage_eq hr hcat, if_pos hmem]
  by_cases hla : c ∈ bodyWithPrimaryKey body scan.primaryKey
  · rw [if_pos hla, hsm c hcat]
    cases hcell : storedCell scan.null r c with
    | some value => rfl
    | none => split_ifs <;> rfl
  · have hn : c ∈ compete := (hdvd.cover c hmem).resolve_right fun h ↦
      hla (hdvd.mem_bodyWithPrimaryKey.2 (.inl h))
    rw [if_neg hla, if_pos hn]
    rfl

/-- **Reading in two steps emits the rows of a single read**, with the same values and in the same
order, if the order column is among those that are read and no column of a read is moved to the name
of a later one. -/
theorem late_eq_full (scan : OrderedScan V B) (hleading : scan.leading ∈ scan.full)
    (h : scan.Unclashing) : scan.emitLate = scan.emitFull := by
  have hfu : scan.ReadsRight scan.full :=
    ⟨scan.full_subset, scan.full_nodup, scan.primaryKey_subset, h.full⟩
  rw [emitLate]
  rcases hpl : forOrdered scan.full scan.primaryKey scan.leading with _ | ⟨compete, body⟩
  · rfl
  · have hdvd := divides_of_forOrdered scan hpl
    have hcomp : scan.ReadsRight compete :=
      ⟨hdvd.compete_subset, hdvd.compete_nodup, hdvd.primaryKey_subset,
        fun r hr ↦ (h.late compete body hpl r hr).1⟩
    have hbody : scan.ReadsRight (bodyWithPrimaryKey body scan.primaryKey) :=
      ⟨hdvd.bodyWithPrimaryKey_subset, hdvd.bodyWithPrimaryKey_nodup,
        fun c hc ↦ hdvd.mem_bodyWithPrimaryKey.2 (.inr hc),
        fun r hr ↦ (h.late compete body hpl r hr).2⟩
    rw [emitFull]
    show (scan.buffer compete).map _ = _
    rcases hws : scan.storedWinners with e | winners
    · rw [buffer, buffer, hcomp.coldWinners_eq, hfu.coldWinners_eq, hws]
      rfl
    · rw [hcomp.buffer_eq hdvd.leading_mem hws, hfu.buffer_eq hleading hws]
      simp only [Except.map, map_map]
      refine congrArg Except.ok (map_congr_left fun a ha ↦ ?_)
      rw [mem_insertionSort] at ha
      cases a with
      | inl row =>
        have hrow : row ∈ scan.hot := by simpa [items] using ha
        simp [showItem, hydrate, scan.hot_source row hrow]
      | inr r =>
        have hr : r ∈ winners := by simpa [items] using ha
        exact emit_hydrate hdvd hfu hcomp hbody (mem_of_mem_storedWinners hws hr)

end OrderedScan

/-! ### A renamed column, and two that have swapped their names -/

def timesColumns : List ColumnRef := [⟨1, "id"⟩, ⟨2, "created"⟩, ⟨3, "updated"⟩, ⟨4, "note"⟩]

/-- A table with one cold row, ordered by `created`. -/
def timesScan (row : StoredRow ℕ) (hphysical : ∀ c ∈ timesColumns, ∀ d ∈ timesColumns,
      row.physicalName c = row.physicalName d → c = d)
    (hstored : ∀ c ∈ timesColumns, ((row.physicalName c).bind row.cells).isSome = true) :
    OrderedScan ℕ ℕ where
  catalog := timesColumns
  primaryKey := [⟨1, "id"⟩]
  full := timesColumns
  leading := ⟨2, "created"⟩
  emitted := timesColumns
  direction := .asc
  encodeLeadingKey := id
  null := 0
  hot := []
  masked _ := false
  resolver := .new [] none
  groups := [[row]]
  id_inj := by decide
  name_inj := by decide
  full_subset := List.Subset.refl _
  full_nodup := by decide
  primaryKey_subset := by decide
  primaryKey_nodup := by decide
  leading_mem := by decide
  emitted_subset := List.Subset.refl _
  hot_source := by simp
  physical_inj r hr c hc d hd name h h' := by
    obtain rfl : r = row := by simpa using hr
    exact hphysical c hc d hd (h.trans h'.symm)
  physical_key r hr c hc := by
    obtain rfl : r = row := by simpa using hr
    obtain rfl : c = ⟨1, "id"⟩ := by simpa using hc
    obtain ⟨value, hvalue⟩ := isSome_iff_exists.1 (hstored ⟨1, "id"⟩ (by decide))
    obtain ⟨name, hname, -⟩ := Option.bind_eq_some_iff.1 hvalue
    rw [hname]
    rfl
  stored r hr c hc name hname := by
    obtain rfl : r = row := by simpa using hr
    have h := hstored c hc
    rwa [hname] at h
  versions r hr r' hr' _ _ c _ := by
    obtain rfl : r = row := by simpa using hr
    obtain rfl : r' = r := by simpa using hr'
    rfl

/-- A row from when `created` was called `made`. -/
def renamedRow : StoredRow ℕ where
  physicalName c := some (if c.columnId = 2 then "made" else c.name)
  cells n := if n = "id" then some 7 else if n = "made" then some 10
    else if n = "updated" then some 20 else if n = "note" then some 30 else none
  seq := 1
  deleted := false

/-- A row from when `created` and `updated` had each other's names. -/
def swappedRow : StoredRow ℕ where
  physicalName c := some (if c.columnId = 2 then "updated" else if c.columnId = 3 then "created"
    else c.name)
  cells n := if n = "id" then some 7 else if n = "updated" then some 10
    else if n = "created" then some 20 else if n = "note" then some 30 else none
  seq := 1
  deleted := false

theorem renamedRow_unclashing : (timesScan renamedRow (by decide) (by decide)).Unclashing := by
  have hpl : forOrdered timesColumns [⟨1, "id"⟩] ⟨2, "created"⟩ =
      some ([⟨1, "id"⟩, ⟨2, "created"⟩], [⟨3, "updated"⟩, ⟨4, "note"⟩]) := by decide +kernel
  refine ⟨fun r hr ↦ ?_, fun compete body h r hr ↦ ?_⟩
  · obtain rfl : r = renamedRow := by simpa [timesScan] using hr
    show (physicalNames timesColumns renamedRow).Pairwise _
    decide
  · obtain rfl : r = renamedRow := by simpa [timesScan] using hr
    obtain ⟨rfl, rfl⟩ := Prod.mk.inj (Option.some.inj (h.symm.trans hpl))
    constructor
    · show (physicalNames _ renamedRow).Pairwise _
      decide
    · show (physicalNames _ renamedRow).Pairwise _
      decide

theorem late_eq_full_renamed : (timesScan renamedRow (by decide) (by decide)).emitFull =
      .ok [⟨[some 7], .cold, 1, [some 7, some 10, some 20, some 30]⟩] ∧
    (timesScan renamedRow (by decide) (by decide)).emitLate =
      (timesScan renamedRow (by decide) (by decide)).emitFull :=
  ⟨by decide +kernel, OrderedScan.late_eq_full _ (by decide) renamedRow_unclashing⟩

/-- **Swapped columns are read right in two steps and wrong in one.** -/
theorem swapped_read_apart : (timesScan swappedRow (by decide) (by decide)).emitLate =
      .ok [⟨[some 7], .cold, 1, [some 7, some 10, some 20, some 30]⟩] ∧
    (timesScan swappedRow (by decide) (by decide)).emitFull =
      .ok [⟨[some 7], .cold, 1, [some 7, none, some 10, some 30]⟩] := by
  constructor
  · decide +kernel
  · decide +kernel

end LateRead

end Koldstore
