import Koldstore.Flush.Writes

/-!
# Pruning a follower's heap against adopted segments

A follower shares the leader's cold tier and keeps a heap of its own.
-/

namespace Koldstore.Follower

open List

variable {K C V : Type*}

/-! ### Hot rows of a follower -/

structure PeerMirrorRow where
  seq : ℤ
  op : MirrorOperation
  deriving DecidableEq

structure Hot (K C V : Type*) where
  heap : Heap K C V
  mirror : K → Option PeerMirrorRow

abbrev Image (K C V : Type*) := K × HeapRow C V

section Delete

variable [DecidableEq K] [DecidableEq (HeapRow C V)] (hot : Hot K C V)

def Hot.view (cold : List (ColdVersion K C V)) (k : K) : Option (HeapRow C V) :=
  match hot.heap k with
  | some row => some row
  | none => if (hot.mirror k).any fun m ↦ m.op = .delete then none else coldView cold k

variable (images : List (Image K C V))

def Hot.Covered (k : K) : Prop := ∃ image ∈ images, image.1 = k ∧ hot.heap k = some image.2

instance (hot : Hot K C V) (images : List (Image K C V)) (k : K) :
    Decidable (hot.Covered images k) :=
  inferInstanceAs (Decidable (∃ image ∈ images, image.1 = k ∧ hot.heap k = some image.2))

def Hot.without : Hot K C V where
  heap k := if hot.Covered images k then none else hot.heap k
  mirror k := if hot.Covered images k then none else hot.mirror k

/-- The keys `DELETE … RETURNING` returns. -/
def Hot.deleted : List K := ((images.map Prod.fst).filter fun k ↦ hot.Covered images k).dedup

/-! ### The prune -/

def batchRows : ℕ := 500

/-- `chunks(BATCH_ROWS)`. -/
def batches : List (List (Image K C V)) := (images.toChunksAux (batchRows - 1) 0).2

structure Pruned (K C V : Type*) where
  hotPruned : ℕ
  mirrorPruned : ℕ
  hot : Hot K C V

def Pruned.runBatch (p : Pruned K C V) (batch : List (Image K C V)) : Pruned K C V where
  hotPruned := p.hotPruned + (p.hot.deleted batch).length
  mirrorPruned := p.mirrorPruned +
    ((p.hot.deleted batch).filter fun k ↦ (p.hot.mirror k).isSome).length
  hot := p.hot.without batch

def Pruned.runBatches (p : Pruned K C V) (images : List (Image K C V)) : Pruned K C V :=
  (batches images).foldl Pruned.runBatch p

end Delete

structure AdoptedSegment (K C V : Type*) where
  scopeId : Option String
  minSeq : ℕ
  maxSeq : ℕ
  rows : List (ColdVersion K C V)
  minSeq_pos : 0 < minSeq
  seq_mem : ∀ v ∈ rows, minSeq ≤ v.seq ∧ v.seq ≤ maxSeq

/-- `read_cold_segment_page` from the start, without a limit. -/
def AdoptedSegment.readImages (segment : AdoptedSegment K C V) : List (ColdVersion K C V) :=
  (segment.rows.filter fun v ↦ 1 ≤ v.seq ∧ v.seq ≤ segment.maxSeq).insertionSort
    fun v w ↦ v.seq ≤ w.seq

def toImage (change : ColdVersion K C V) : Option (Image K C V) :=
  if change.deleted then none else some (change.pk, change.image)

def covers (only : Option (List (ℕ × ℕ))) (segment : AdoptedSegment K C V) : Bool :=
  segment.scopeId.isNone &&
    match only with
    | none => true
    | some only => only.contains (segment.minSeq, segment.maxSeq)

structure PruneLoop (K C V : Type*) where
  segments : ℕ
  rowsRead : ℕ
  pruned : Pruned K C V
  markerKeys : List K

section Prune

variable [DecidableEq K] [DecidableEq (HeapRow C V)]

def PruneLoop.step (loop : PruneLoop K C V) (segment : AdoptedSegment K C V) : PruneLoop K C V :=
  let changes := segment.readImages
  let images := changes.filterMap toImage
  { segments := loop.segments + 1
    rowsRead := loop.rowsRead + images.length
    pruned := loop.pruned.runBatches images
    markerKeys := ((changes.filter ColdVersion.deleted).map ColdVersion.pk).foldl
      (fun keys k ↦ keys.insert k) loop.markerKeys }

def laterChange (entry : Option (ℕ × Bool)) (change : ColdVersion K C V) : Option (ℕ × Bool) :=
  match entry with
  | none => some (change.seq, change.deleted)
  | some entry => if entry.1 ≤ change.seq then some (change.seq, change.deleted) else some entry

variable (segments : List (AdoptedSegment K C V))

def markerChanges (markerKeys : List K) : List (ColdVersion K C V) :=
  ((segments.filter fun s ↦ s.scopeId.isNone).flatMap AdoptedSegment.readImages).filter
    fun v ↦ v.pk ∈ markerKeys

def staleImages (markerKeys : List K) : List (Image K C V) :=
  let changes := markerChanges segments markerKeys
  let deleted := markerKeys.filter fun k ↦
    ((changes.filter fun v ↦ v.pk = k).foldl laterChange none).any Prod.snd
  deleted.flatMap fun k ↦ (changes.filter fun v ↦ v.pk = k).filterMap toImage

structure ManagedTableSnapshot where
  scopeColumn : Option String
  deriving DecidableEq, Repr

structure Peer (K C V : Type*) where
  snapshot : Option ManagedTableSnapshot
  manifest : Option (List (AdoptedSegment K C V))
  hot : Hot K C V

structure PruneReport where
  segments : ℕ
  rowsRead : ℕ
  hotPruned : ℕ
  deriving DecidableEq, Repr

structure PruneOutcome (K C V : Type*) where
  report : PruneReport
  countDeltas : Option (ℕ × ℕ)
  hot : Hot K C V

def pruneSegments (only : Option (List (ℕ × ℕ))) (hot : Hot K C V) : PruneOutcome K C V :=
  let loop := (segments.filter (covers only)).foldl PruneLoop.step ⟨0, 0, ⟨0, 0, hot⟩, []⟩
  let pruned :=
    if loop.markerKeys.isEmpty then loop.pruned
    else loop.pruned.runBatches (staleImages segments loop.markerKeys)
  { report := ⟨loop.segments, loop.rowsRead, pruned.hotPruned⟩
    countDeltas := if 0 < pruned.hotPruned ∨ 0 < pruned.mirrorPruned then
        some (pruned.mirrorPruned, pruned.hotPruned)
      else none
    hot := pruned.hot }

def Peer.pruneCovered (peer : Peer K C V) (only : Option (List (ℕ × ℕ))) :
    Except String (PruneOutcome K C V) :=
  match peer.snapshot with
  | none => .error "table is not managed"
  | some snapshot =>
    if snapshot.scopeColumn.isSome then
      .error "peer prune does not support user-scoped tables"
    else
      match peer.manifest with
      | none => .ok ⟨⟨0, 0, 0⟩, none, peer.hot⟩
      | some segments => .ok (pruneSegments segments only peer.hot)

end Prune

section Without

variable {hot : Hot K C V} {images more : List (Image K C V)} {k : K}

theorem Hot.covered_append :
    hot.Covered (images ++ more) k ↔ hot.Covered images k ∨ hot.Covered more k := by
  constructor
  · rintro ⟨image, hi, h⟩
    rcases mem_append.1 hi with hi | hi
    · exact .inl ⟨image, hi, h⟩
    · exact .inr ⟨image, hi, h⟩
  · rintro (⟨image, hi, h⟩ | ⟨image, hi, h⟩)
    · exact ⟨image, mem_append_left _ hi, h⟩
    · exact ⟨image, mem_append_right _ hi, h⟩

theorem toChunksAux_flatten {α : Type*} (n i : ℕ) (xs : List α) :
    (xs.toChunksAux n i).1 ++ (xs.toChunksAux n i).2.flatten = xs := by
  induction xs generalizing i with
  | nil => rfl
  | cons x xs ih =>
    cases i with
    | zero => simpa [List.toChunksAux] using ih n
    | succ i => simpa [List.toChunksAux] using ih i

theorem flatten_batches (images : List (Image K C V)) : (batches images).flatten = images := by
  have h := toChunksAux_flatten (batchRows - 1) 0 images
  have hn : (images.toChunksAux (batchRows - 1) 0).1 = [] := by cases images <;> rfl
  rwa [hn, nil_append] at h

variable [DecidableEq K] [DecidableEq (HeapRow C V)]

theorem Hot.heap_without_of_covered (h : hot.Covered images k) :
    (hot.without images).heap k = none := if_pos h

theorem Hot.mirror_without_of_covered (h : hot.Covered images k) :
    (hot.without images).mirror k = none := if_pos h

theorem Hot.heap_without_of_not_covered (h : ¬hot.Covered images k) :
    (hot.without images).heap k = hot.heap k := if_neg h

theorem Hot.mirror_without_of_not_covered (h : ¬hot.Covered images k) :
    (hot.without images).mirror k = hot.mirror k := if_neg h

theorem Hot.covered_without :
    (hot.without images).Covered more k ↔ hot.Covered more k ∧ ¬hot.Covered images k := by
  by_cases h : hot.Covered images k
  · refine ⟨?_, fun hm ↦ absurd h hm.2⟩
    rintro ⟨image, -, -, hr⟩
    rw [Hot.heap_without_of_covered h] at hr
    cases hr
  · rw [Hot.Covered, Hot.heap_without_of_not_covered h]
    exact ⟨fun hm ↦ ⟨hm, h⟩, And.left⟩

@[simp] theorem Hot.without_nil (hot : Hot K C V) : hot.without [] = hot := by
  have h : ∀ k, ¬hot.Covered [] k := fun k ⟨_, hi, _⟩ ↦ nomatch hi
  cases hot
  simp only [Hot.without, h, if_false]

theorem Hot.ite_without {α : Type*} (a : Option α) :
    (if (hot.without images).Covered more k then none
      else if hot.Covered images k then none else a) =
    if hot.Covered (images ++ more) k then none else a := by
  by_cases hi : hot.Covered images k <;> by_cases hm : hot.Covered more k <;>
    simp [Hot.covered_without, Hot.covered_append, hi, hm]

theorem Hot.without_without (hot : Hot K C V) (images more : List (Image K C V)) :
    (hot.without images).without more = hot.without (images ++ more) := by
  show Hot.mk _ _ = Hot.mk _ _
  congr 1
  · exact funext fun k ↦ ite_without (hot.heap k)
  · exact funext fun k ↦ ite_without (hot.mirror k)

theorem Pruned.hot_runBatches (p : Pruned K C V) (images : List (Image K C V)) :
    (p.runBatches images).hot = p.hot.without images := by
  have hfo : ∀ (bs : List (List (Image K C V))) (p : Pruned K C V),
      (bs.foldl Pruned.runBatch p).hot = p.hot.without bs.flatten := by
    intro bs
    induction bs with
    | nil => exact fun p ↦ (Hot.without_nil p.hot).symm
    | cons b bs ih =>
      intro p
      rw [foldl_cons, ih, flatten_cons, ← Hot.without_without]
      rfl
  rw [Pruned.runBatches, hfo, flatten_batches]

variable (segments : List (AdoptedSegment K C V))

def segmentImages : List (Image K C V) := segments.flatMap fun s ↦ s.readImages.filterMap toImage

theorem hot_foldl_step (loop : PruneLoop K C V) : (segments.foldl PruneLoop.step loop).pruned.hot =
      loop.pruned.hot.without (segmentImages segments) := by
  induction segments generalizing loop with
  | nil => exact (Hot.without_nil _).symm
  | cons s segments ih =>
    rw [foldl_cons, ih]
    show ((loop.pruned.runBatches _).hot).without _ = _
    rw [Pruned.hot_runBatches, Hot.without_without]
    rfl

end Without

variable {v : ColdVersion K C V}

section Reach

theorem AdoptedSegment.mem_readImages {segment : AdoptedSegment K C V} :
    v ∈ segment.readImages ↔ v ∈ segment.rows := by
  rw [readImages, mem_insertionSort, mem_filter]
  refine ⟨And.left, fun hv ↦ ⟨hv, ?_⟩⟩
  have hp := segment.minSeq_pos
  obtain ⟨hmin, hm⟩ := segment.seq_mem v hv
  exact decide_eq_true ⟨hp.trans_le hmin, hm⟩

variable {image : Image K C V}

theorem toImage_eq_some {change : ColdVersion K C V} :
    toImage change = some image ↔
      change.deleted = false ∧ change.pk = image.1 ∧ change.image = image.2 := by
  obtain ⟨pk, row⟩ := image
  cases h : change.deleted <;> simp [toImage, h]

variable {segments : List (AdoptedSegment K C V)}

theorem mem_segmentImages : image ∈ segmentImages segments ↔
      ∃ s ∈ segments, ∃ v ∈ s.rows, v.deleted = false ∧ v.pk = image.1 ∧ v.image = image.2 := by
  simp only [segmentImages, mem_flatMap, mem_filterMap, AdoptedSegment.mem_readImages,
    toImage_eq_some]

variable [DecidableEq K]

theorem mem_markerKeys [DecidableEq (HeapRow C V)] {loop : PruneLoop K C V} {k : K}
    (h : k ∈ (segments.foldl PruneLoop.step loop).markerKeys) :
    k ∈ loop.markerKeys ∨ ∃ s ∈ segments, ∃ v ∈ s.rows, v.deleted = true ∧ v.pk = k := by
  have hi : ∀ (new keys : List K), k ∈ new.foldl (fun keys k ↦ keys.insert k) keys →
      k ∈ keys ∨ k ∈ new := by
    intro new
    induction new with
    | nil => exact fun keys h ↦ .inl h
    | cons a new ih =>
      intro keys h
      rcases ih _ h with h | h
      · rcases mem_insert_iff.1 h with rfl | h
        · exact .inr mem_cons_self
        · exact .inl h
      · exact .inr (mem_cons_of_mem _ h)
  induction segments generalizing loop with
  | nil => exact .inl h
  | cons s segments ih =>
    rcases ih h with h | ⟨s', hs', hv⟩
    · rcases hi _ _ h with h | h
      · exact .inl h
      · obtain ⟨v, hv, hpk⟩ := mem_map.1 h
        obtain ⟨hv, hd⟩ := mem_filter.1 hv
        exact .inr ⟨s, mem_cons_self, v, AdoptedSegment.mem_readImages.1 hv, hd, hpk⟩
    · exact .inr ⟨s', mem_cons_of_mem _ hs', hv⟩

theorem mem_staleImages {markerKeys : List K} (h : image ∈ staleImages segments markerKeys) :
    image.1 ∈ markerKeys := by
  obtain ⟨k, hk, hi⟩ := mem_flatMap.1 h
  obtain ⟨v, hv, hi⟩ := mem_filterMap.1 hi
  have hpk : v.pk = k := of_decide_eq_true (mem_filter.1 hv).2
  rw [← (toImage_eq_some.1 hi).2.1, hpk]
  exact (mem_filter.1 hk).1

end Reach

/-! ### What is left under a key without a delete marker -/

def Peer.cold (peer : Peer K C V) : List (ColdVersion K C V) :=
  (peer.manifest.getD []).flatMap AdoptedSegment.rows

def MarkerFree (cold : List (ColdVersion K C V)) (k : K) : Prop :=
  ∀ v ∈ cold, v.pk = k → v.deleted = false

variable {only : Option (List (ℕ × ℕ))}

section View

variable [DecidableEq K]

def NewestIs (cold : List (ColdVersion K C V)) (k : K) (row : HeapRow C V) : Prop :=
  ∃ v, newestCold cold k = some v ∧ v.image = row

theorem newestCold_mem {cold : List (ColdVersion K C V)} {k : K} (h : newestCold cold k = some v) :
    v ∈ cold ∧ v.pk = k := by
  have hmem := ((foldl_newer_spec (cold.filter fun v ↦ decide (v.pk = k)) none).1 v h).resolve_right
    (by simp)
  exact ⟨(mem_filter.1 hmem).1, of_decide_eq_true (mem_filter.1 hmem).2⟩

theorem coldView_eq_some_iff {cold : List (ColdVersion K C V)} {k : K} {row : HeapRow C V}
    (hfe : MarkerFree cold k) : coldView cold k = some row ↔ NewestIs cold k row := by
  rw [coldView, NewestIs, Option.bind_eq_some_iff]
  refine exists_congr fun v ↦ and_congr_right fun hv ↦ ?_
  obtain ⟨hmem, hpk⟩ := newestCold_mem hv
  simp [hfe v hmem hpk]

variable [DecidableEq (HeapRow C V)] {hot : Hot K C V} {images : List (Image K C V)} {k : K}
variable {cold : List (ColdVersion K C V)}

theorem Hot.view_without_of_not_covered (h : ¬hot.Covered images k) :
    (hot.without images).view cold k = hot.view cold k := by
  rw [Hot.view, Hot.view, heap_without_of_not_covered h, mirror_without_of_not_covered h]

theorem Hot.view_without_of_covered (h : hot.Covered images k) :
    (hot.without images).view cold k = coldView cold k := by
  rw [Hot.view, heap_without_of_covered h, mirror_without_of_covered h]
  rfl

theorem pruneSegments_hot (segments : List (AdoptedSegment K C V)) (only : Option (List (ℕ × ℕ)))
    (hot : Hot K C V) :
    ∃ stale : List (Image K C V), (pruneSegments segments only hot).hot =
        hot.without (segmentImages (segments.filter (covers only)) ++ stale) ∧
      ∀ image ∈ stale, ¬MarkerFree (segments.flatMap AdoptedSegment.rows) image.1 := by
  let loop := (segments.filter (covers only)).foldl PruneLoop.step ⟨0, 0, ⟨0, 0, hot⟩, []⟩
  have hl : loop.pruned.hot = hot.without (segmentImages (segments.filter (covers only))) :=
    hot_foldl_step _ _
  by_cases he : loop.markerKeys.isEmpty = true
  · refine ⟨[], ?_, nofun⟩
    show (if loop.markerKeys.isEmpty = true then loop.pruned else _).hot = _
    rw [if_pos he, hl, append_nil]
  · refine ⟨staleImages segments loop.markerKeys, ?_, fun image hi hfe ↦ ?_⟩
    · show (if loop.markerKeys.isEmpty = true then loop.pruned else _).hot = _
      rw [if_neg he, Pruned.hot_runBatches, hl, Hot.without_without]
    · -- the marker that put the key on the list is in the cold history
      rcases mem_markerKeys (mem_staleImages hi) with h | ⟨s, hs, v, hv, hd, hpk⟩
      · cases h
      · have hcd := mem_flatMap.2 ⟨s, (mem_filter.1 hs).1, hv⟩
        exact Bool.false_ne_true ((hfe v hcd hpk).symm.trans hd)

omit [DecidableEq K] [DecidableEq (HeapRow C V)] in
theorem covered_pruneSegments {segments : List (AdoptedSegment K C V)} {stale : List (Image K C V)}
    (ht : ∀ image ∈ stale, ¬MarkerFree (segments.flatMap AdoptedSegment.rows) image.1)
    (hfe : MarkerFree (segments.flatMap AdoptedSegment.rows) k) :
    hot.Covered (segmentImages (segments.filter (covers only)) ++ stale) k ↔
      ∃ s ∈ segments, covers only s = true ∧
        ∃ v ∈ s.rows, v.pk = k ∧ hot.heap k = some v.image := by
  rw [Hot.covered_append]
  constructor
  · rintro (⟨image, hi, hpk, hr⟩ | ⟨image, hi, rfl, -⟩)
    · obtain ⟨s, hs, v, hv, -, hp, hvimage⟩ := mem_segmentImages.1 hi
      obtain ⟨hs, hc⟩ := mem_filter.1 hs
      exact ⟨s, hs, hc, v, hv, hp.trans hpk, by rw [hr, hvimage]⟩
    · exact absurd hfe (ht image hi)
  · rintro ⟨s, hs, hc, v, hv, hpk, hr⟩
    have hd := hfe v (mem_flatMap.2 ⟨s, hs, hv⟩) hpk
    refine .inl ⟨(v.pk, v.image), mem_segmentImages.2 ?_, hpk, hr⟩
    exact ⟨s, mem_filter.2 ⟨hs, hc⟩, v, hv, hd, rfl, rfl⟩

end View

section Main

variable [DecidableEq K] [DecidableEq (HeapRow C V)]

/-- A completed prune leaves the merged row of every key. -/
def Peer.KeepsView (peer : Peer K C V) (only : Option (List (ℕ × ℕ))) : Prop :=
  ∀ out, peer.pruneCovered only = .ok out → ∀ k, MarkerFree peer.cold k →
    out.hot.view peer.cold k = peer.hot.view peer.cold k ∧
    ∀ row, peer.hot.heap k = some row → out.hot.heap k = none → NewestIs peer.cold k row

/-- A hot row that equals a version the call works on equals the newest cold version. -/
def Peer.MatchesNewest (peer : Peer K C V) (only : Option (List (ℕ × ℕ))) : Prop :=
  ∀ snapshot, peer.snapshot = some snapshot → snapshot.scopeColumn = none →
    ∀ s ∈ peer.manifest.getD [], covers only s = true → ∀ v ∈ s.rows, MarkerFree peer.cold v.pk →
      peer.hot.heap v.pk = some v.image → NewestIs peer.cold v.pk v.image

variable {peer : Peer K C V}

theorem Peer.pruneCovered_eq_ok {out : PruneOutcome K C V} (h : peer.pruneCovered only = .ok out) :
    (∃ snapshot, peer.snapshot = some snapshot ∧ snapshot.scopeColumn = none) ∧
      out.hot = (pruneSegments (peer.manifest.getD []) only peer.hot).hot := by
  unfold pruneCovered at h
  split at h
  · cases h
  · rename_i snapshot hs
    split at h
    · cases h
    · rename_i hsc
      refine ⟨⟨snapshot, hs, by simpa using hsc⟩, ?_⟩
      split at h
      · rename_i hm
        cases h
        rw [hm]
        rfl
      · rename_i segments hm
        cases h
        rw [hm]
        rfl

theorem Peer.exists_pruneCovered (only : Option (List (ℕ × ℕ))) {snapshot : ManagedTableSnapshot}
    (hs : peer.snapshot = some snapshot) (hsc : snapshot.scopeColumn = none) :
    ∃ out, peer.pruneCovered only = .ok out := by
  cases hm : peer.manifest with
  | none | some segments => exact ⟨_, by simp [pruneCovered, hs, hsc, hm]; rfl⟩

/-- **A prune keeps the merged rows exactly when no hot row equals an outdated version.** -/
theorem Peer.pruneCovered_keepsView_iff (peer : Peer K C V) (only : Option (List (ℕ × ℕ))) :
    peer.KeepsView only ↔ peer.MatchesNewest only := by
  constructor
  · intro h snapshot hsnap hsc s hs hcovers v hv hfe hr
    obtain ⟨out, ho⟩ := peer.exists_pruneCovered only hsnap hsc
    obtain ⟨-, hh⟩ := pruneCovered_eq_ok ho
    obtain ⟨stale, hp, ht⟩ := pruneSegments_hot (peer.manifest.getD []) only peer.hot
    have hc := (covered_pruneSegments ht hfe).2 ⟨s, hs, hcovers, v, hv, rfl, hr⟩
    refine (h out ho v.pk hfe).2 v.image hr ?_
    rw [hh, hp, Hot.heap_without_of_covered hc]
  · intro h out ho k hfe
    obtain ⟨⟨snapshot, hsnap, hsc⟩, hh⟩ := pruneCovered_eq_ok ho
    obtain ⟨stale, hp, ht⟩ := pruneSegments_hot (peer.manifest.getD []) only peer.hot
    rw [hh, hp]
    by_cases hc :
        peer.hot.Covered (segmentImages ((peer.manifest.getD []).filter (covers only)) ++ stale) k
    · obtain ⟨s, hs, hcovers, v, hv, rfl, hr⟩ := (covered_pruneSegments ht hfe).1 hc
      have hn := h snapshot hsnap hsc s hs hcovers v hv hfe hr
      refine ⟨?_, fun row hr' _ ↦ ?_⟩
      · rw [Hot.view_without_of_covered hc, (coldView_eq_some_iff hfe).2 hn, Hot.view, hr]
      · obtain rfl : v.image = row := Option.some.inj (hr.symm.trans hr')
        exact hn
    · refine ⟨Hot.view_without_of_not_covered hc, fun row hr hnone ↦ ?_⟩
      rw [Hot.heap_without_of_not_covered hc, hr] at hnone
      cases hnone

end Main

namespace PeerPruneExample

def flushed (seq value : ℕ) (hseq : 0 < seq) : AdoptedSegment ℕ Unit ℕ where
  scopeId := none
  minSeq := seq
  maxSeq := seq
  rows := [⟨1, seq, false, fun _ ↦ some value⟩]
  minSeq_pos := hseq
  seq_mem := by
    intro v hv
    obtain rfl := mem_singleton.1 hv
    exact ⟨le_rfl, le_rfl⟩

def peer : Peer ℕ Unit ℕ where
  snapshot := some ⟨none⟩
  manifest := some [flushed 1 10 Nat.one_pos, flushed 2 20 Nat.two_pos]
  hot := ⟨fun k ↦ if k = 1 then some fun _ ↦ some 10 else none,
    fun k ↦ if k = 1 then some ⟨3, .update⟩ else none⟩

theorem returned_row_is_pruned :
    MarkerFree peer.cold 1 ∧ (peer.hot.view peer.cold 1).map (fun row ↦ row ()) = some (some 10) ∧
    ∃ out, peer.pruneCovered (some [(1, 1), (2, 2)]) = .ok out ∧ out.report = ⟨2, 2, 1⟩ ∧
      (out.hot.view peer.cold 1).map (fun row ↦ row ()) = some (some 20) := by
  refine ⟨?_, by decide, _, rfl, by decide, by decide⟩
  intro v hv _
  have hc : v = ⟨1, 1, false, fun _ ↦ some 10⟩ ∨ v = ⟨1, 2, false, fun _ ↦ some 20⟩ := by
    simpa [peer, Peer.cold, flushed] using hv
  rcases hc with rfl | rfl <;> rfl

end PeerPruneExample

end Koldstore.Follower
