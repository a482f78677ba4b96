import Koldstore.Feed.Resolution

/-!
# The streamed rewrite of a unit

A unit too large for memory is rewritten slice by slice.
-/

namespace Koldstore.Feed

open List Except

variable {K V B : Type*}

section Stream

variable [LinearOrder B]

structure StreamMember (K V B : Type*) where
  rows : List (ColdRow K V)
  rowCount : ℤ
  bounds : Option (B × B)

def StreamMember.Enclosed (lead : K → B) (m : StreamMember K V B) : Prop :=
  ∀ p, m.bounds = some p → ∀ r ∈ m.rows, p.1 ≤ lead r.pk ∧ lead r.pk ≤ p.2

def streamSampleTarget : ℤ := 65536

def stride (unitRows : ℤ) : ℕ := (max (unitRows / streamSampleTarget) 1).toNat

/-- Every `stride`-th lead key; nothing if a lead key has no sort key. -/
def sampleKeys (leadKey : K → Option B) (stride : ℕ) : List (ColdRow K V) → ℕ → Option (List B)
  | [], _ => some []
  | row :: rows, seen =>
    match leadKey row.pk, sampleKeys leadKey stride rows (seen + 1) with
    | some key, some keys => some (if seen % stride = 0 then key :: keys else keys)
    | _, _ => none

def sliceCount (unitRows sliceRows : ℤ) : ℕ :=
  let perSlice := max (sliceRows / 2) 1
  max ((unitRows + perSlice - 1) / perSlice).toNat 1

def chooseBoundaries (sample : List B) (sliceCount : ℕ) : List B :=
  let sorted := (sample.insertionSort (· ≤ ·)).destutter (· ≠ ·)
  ((List.range' 1 (sliceCount - 1)).filterMap fun i ↦
    sorted[i * sorted.length / sliceCount]?).destutter (· ≠ ·)

def StreamMember.skipped (lo hi : Option B) (m : StreamMember K V B) : Bool :=
  m.bounds.any fun p ↦ (hi.any fun b ↦ decide (b ≤ p.1)) || lo.any fun b ↦ decide (p.2 < b)

def sliceCap (sliceRows : ℤ) : ℕ := if 0 ≤ sliceRows then sliceRows.toNat else 2 ^ 64 - 1

def takeRows (leadKey : K → Option B) (lo hi : Option B) (sliceRows : ℤ) :
    List (ColdRow K V) → List (ColdRow K V) → Except String (List (ColdRow K V))
  | [], batch => .ok batch
  | row :: rows, batch =>
    match leadKey row.pk with
    | none => .error "compaction could not encode a primary key"
    | some key =>
      if (lo.any fun b ↦ decide (key < b)) || hi.any fun b ↦ decide (b ≤ key) then
        takeRows leadKey lo hi sliceRows rows batch
      else if sliceCap sliceRows < (batch ++ [row]).length then
        .error (s!"a key slice of the unit exceeds max_rows ({sliceRows}); " ++
          "the keys are too skewed to split, raise max_rows")
      else takeRows leadKey lo hi sliceRows rows (batch ++ [row])

def takeMembers (leadKey : K → Option B) (lo hi : Option B) (sliceRows : ℤ) :
    List (StreamMember K V B) → List (ColdRow K V) → Except String (List (ColdRow K V))
  | [], batch => .ok batch
  | m :: members, batch =>
    if m.skipped lo hi then takeMembers leadKey lo hi sliceRows members batch
    else
      match takeRows leadKey lo hi sliceRows m.rows batch with
      | .error e => .error e
      | .ok batch => takeMembers leadKey lo hi sliceRows members batch

/-- The batches of the slices, from the one that starts at `lo` on. -/
def streamBatches (leadKey : K → Option B) (sliceRows : ℤ) (members : List (StreamMember K V B)) :
    Option B → List B → Except String (List (List (ColdRow K V)))
  | lo, [] => (takeMembers leadKey lo none sliceRows members []).map fun batch ↦ [batch]
  | lo, hi :: boundaries =>
    match takeMembers leadKey lo (some hi) sliceRows members [],
      streamBatches leadKey sliceRows members (some hi) boundaries with
    | .ok batch, .ok batches => .ok (batch :: batches)
    | .error e, _ => .error e
    | _, .error e => .error e

/-- The streamed part of `compact_unit`. -/
def streamSlices (leadKey : K → Option B) (members : List (StreamMember K V B)) (sample : List B)
    (sliceRows : ℤ) : Except String (Option (List (List (ColdRow K V)))) :=
  let unitRows := members.foldl (fun sum m ↦ sum + m.rowCount) 0
  let boundaries := chooseBoundaries sample (sliceCount unitRows sliceRows)
  if boundaries.isEmpty then .ok none
  else (streamBatches leadKey sliceRows members none boundaries).map some

/-- With the sample that `compact_unit` takes. -/
def streamUnit (leadKey : K → Option B) (members : List (StreamMember K V B)) (sliceRows : ℤ) :
    Except String (Option (List (List (ColdRow K V)))) :=
  let unitRows := members.foldl (fun sum m ↦ sum + m.rowCount) 0
  match sampleKeys leadKey (stride unitRows) (members.flatMap fun m ↦ m.rows) 0 with
  | none => .ok none
  | some sample => streamSlices leadKey members sample sliceRows

/-- `rewrite_batch`: resolves and sorts a batch, and adds it to what has been written. -/
def rewriteBatch [DecidableEq K] (sortRows : List (ColdRow K V) → List (ColdRow K V))
    (dropMarkers : Bool) (retainFrom : ℤ) (written : ResolvedRows K V)
    (batch : List (ColdRow K V)) : ResolvedRows K V :=
  let resolved := resolveVersions batch dropMarkers retainFrom
  written.append ⟨sortRows resolved.kept, sortRows resolved.history, resolved.historyFloor⟩

def rewriteBatches [DecidableEq K] (sortRows : List (ColdRow K V) → List (ColdRow K V))
    (dropMarkers : Bool) (retainFrom : ℤ) (batches : List (List (ColdRow K V))) :
    ResolvedRows K V :=
  (batches.filter fun batch ↦ !batch.isEmpty).foldl (rewriteBatch sortRows dropMarkers retainFrom)
    ⟨[], [], 0⟩

variable {leadKey : K → Option B} {lead : K → B} {lo hi : Option B} {sliceRows : ℤ}
  {members : List (StreamMember K V B)} {rows batch : List (ColdRow K V)}

/-! ### The slices of the streamed rewrite -/

theorem pairwise_chooseBoundaries (sample : List B) (sliceCount : ℕ) :
    (chooseBoundaries sample sliceCount).Pairwise (· ≤ ·) := by
  rw [chooseBoundaries]
  generalize hsorted : (sample.insertionSort (· ≤ ·)).destutter (· ≠ ·) = sorted
  have hpw : sorted.Pairwise (· ≤ ·) := by
    rw [← hsorted]
    refine List.Pairwise.sublist (destutter_sublist _ _) ?_
    exact pairwise_insertionSort _ _
  refine List.Pairwise.sublist (destutter_sublist _ _) ?_
  have hr : (List.range' 1 (sliceCount - 1)).Pairwise (· < ·) := pairwise_lt_range' 1 (by decide)
  refine pairwise_filterMap.2 (hr.imp fun {i j} hij a ha b hb ↦ ?_)
  have hle : i * sorted.length / sliceCount ≤ j * sorted.length / sliceCount :=
    Nat.div_le_div_right (Nat.mul_le_mul_right _ hij.le)
  obtain ⟨hi, rfl⟩ := List.getElem?_eq_some_iff.1 ha
  obtain ⟨hj, rfl⟩ := List.getElem?_eq_some_iff.1 hb
  rcases hle.lt_or_eq with hlt | heq
  · exact pairwise_iff_getElem.1 hpw _ _ hi hj hlt
  · simp only [heq, le_refl]

theorem outside_eq (key : B) :
    ((lo.any fun b ↦ decide (key < b)) || hi.any fun b ↦ decide (b ≤ key)) =
      !((lo.all fun b ↦ decide (b ≤ key)) && hi.all fun b ↦ decide (key < b)) := by
  cases lo <;> cases hi <;> simp [← decide_not]

theorem takeRows_of_outside (hle : ∀ r ∈ rows, leadKey r.pk = some (lead r.pk))
    (hnone : slice lead lo hi rows = []) :
    takeRows leadKey lo hi sliceRows rows batch = .ok batch := by
  induction rows with
  | nil => rfl
  | cons row rows ih =>
    rw [forall_mem_cons] at hle
    rw [slice, filter_eq_nil_iff, forall_mem_cons] at hnone
    rw [takeRows, hle.1]
    simp only [outside_eq]
    rw [if_pos (by simpa only [Bool.not_eq_true', Bool.not_eq_true] using hnone.1)]
    exact ih hle.2 (filter_eq_nil_iff.2 hnone.2)

variable {batch' : List (ColdRow K V)}

theorem takeRows_eq_ok (hle : ∀ r ∈ rows, leadKey r.pk = some (lead r.pk))
    (h : takeRows leadKey lo hi sliceRows rows batch = .ok batch') :
    batch' = batch ++ slice lead lo hi rows := by
  induction rows generalizing batch with
  | nil =>
    rw [takeRows] at h
    simpa [slice] using (ok.inj h).symm
  | cons row rows ih =>
    rw [forall_mem_cons] at hle
    rw [takeRows, hle.1] at h
    simp only [outside_eq] at h
    split at h
    next ho =>
      rw [Bool.not_eq_true', ← Bool.not_eq_true] at ho
      rw [ih hle.2 h, slice, slice, filter_cons_of_neg (by exact ho)]
    next hin =>
      split at h
      next => cases h
      next =>
        rw [ih hle.2 h, slice, slice, filter_cons_of_pos (by simpa using hin),
          List.append_assoc, singleton_append]

theorem slice_of_skipped {m : StreamMember K V B} (he : m.Enclosed lead)
    (hs : m.skipped lo hi = true) : slice lead lo hi m.rows = [] := by
  refine filter_eq_nil_iff.2 fun r hr ↦ ?_
  rw [Bool.not_eq_true, ← Bool.not_eq_true', ← outside_eq]
  obtain ⟨p, hp, hsk⟩ := (Option.any_eq_true _ _).1 hs
  obtain ⟨hmin, hm⟩ := he p hp r hr
  rw [Bool.or_eq_true] at hsk ⊢
  rcases hsk with hhi | hlo
  · obtain ⟨b, hb, hle⟩ := (Option.any_eq_true _ _).1 hhi
    have hle' := (of_decide_eq_true hle).trans hmin
    exact .inr ((Option.any_eq_true _ _).2 ⟨b, hb, decide_eq_true hle'⟩)
  · obtain ⟨b, hb, hlt⟩ := (Option.any_eq_true _ _).1 hlo
    exact .inl ((Option.any_eq_true _ _).2
      ⟨b, hb, decide_eq_true (hm.trans_lt (of_decide_eq_true hlt))⟩)

/-- Every row has its leading key, and the recorded bounds enclose them. -/
structure Readable (leadKey : K → Option B) (lead : K → B) (m : StreamMember K V B) : Prop where
  keys : ∀ r ∈ m.rows, leadKey r.pk = some (lead r.pk)
  enclosed : m.Enclosed lead

theorem takeMembers_eq_ok (hmems : ∀ m ∈ members, Readable leadKey lead m)
    (h : takeMembers leadKey lo hi sliceRows members batch = .ok batch') :
    batch' = batch ++ slice lead lo hi (members.flatMap fun m ↦ m.rows) := by
  induction members generalizing batch with
  | nil =>
    rw [takeMembers] at h
    simpa [slice] using (ok.inj h).symm
  | cons m members ih =>
    rw [forall_mem_cons] at hmems
    have hs : slice lead lo hi ((m :: members).flatMap fun m ↦ m.rows) =
        slice lead lo hi m.rows ++ slice lead lo hi (members.flatMap fun m ↦ m.rows) := by
      rw [flatMap_cons, slice, filter_append]
      rfl
    rw [takeMembers] at h
    rw [hs]
    split at h
    next hsk => rw [ih hmems.2 h, slice_of_skipped hmems.1.enclosed hsk, nil_append]
    next =>
      split at h
      next => cases h
      next batch'' hrs => rw [ih hmems.2 h, takeRows_eq_ok hmems.1.keys hrs, List.append_assoc]

def StreamMember.unbounded (m : StreamMember K V B) : StreamMember K V B :=
  { m with bounds := none }

variable (hmems : ∀ m ∈ members, Readable leadKey lead m)
include hmems

/-- **Skipping members changes nothing.** -/
theorem takeMembers_unbounded :
    takeMembers leadKey lo hi sliceRows (members.map StreamMember.unbounded) batch =
      takeMembers leadKey lo hi sliceRows members batch := by
  induction members generalizing batch with
  | nil => rfl
  | cons m members ih =>
    rw [forall_mem_cons] at hmems
    have hn : m.unbounded.skipped lo hi = false := rfl
    rw [map_cons, takeMembers, takeMembers, hn]
    simp only [Bool.false_eq_true, if_false]
    have hrs : m.unbounded.rows = m.rows := rfl
    rw [hrs]
    split
    next e he =>
      split
      next hsk =>
        have hs := slice_of_skipped hmems.1.enclosed hsk
        rw [takeRows_of_outside hmems.1.keys hs] at he
        cases he
      next => rfl
    next batch' he =>
      split
      next hsk =>
        have hs := slice_of_skipped hmems.1.enclosed hsk
        rw [takeRows_of_outside hmems.1.keys hs] at he
        rw [ok.inj he]
        exact ih hmems.2
      next => exact ih hmems.2

theorem streamBatches_unbounded (boundaries : List B) (lo : Option B) :
    streamBatches leadKey sliceRows (members.map StreamMember.unbounded) lo boundaries =
      streamBatches leadKey sliceRows members lo boundaries := by
  induction boundaries generalizing lo with
  | nil => rw [streamBatches, streamBatches, takeMembers_unbounded hmems]
  | cons hi boundaries ih => rw [streamBatches, streamBatches, takeMembers_unbounded hmems, ih]

variable {boundaries : List B}

/-- **The batches are the slices** of the unit's rows. -/
theorem streamBatches_eq {batches : List (List (ColdRow K V))}
    (h : streamBatches leadKey sliceRows members lo boundaries = .ok batches) :
    batches = slices lead (members.flatMap fun m ↦ m.rows) lo boundaries := by
  induction boundaries generalizing lo batches with
  | nil =>
    rw [streamBatches] at h
    cases hbt : takeMembers leadKey lo none sliceRows members [] with
    | error e =>
      rw [hbt] at h
      cases h
    | ok batch =>
      rw [hbt] at h
      rw [← ok.inj h, takeMembers_eq_ok hmems hbt, nil_append, slices]
  | cons hi boundaries ih =>
    rw [streamBatches] at h
    split at h
    next batch rest hbt hre =>
      rw [← ok.inj h, takeMembers_eq_ok hmems hbt, ih hre, nil_append, slices]
    next => cases h
    next => cases h

omit hmems

/-! ### The streamed rewrite against the rewrite at once -/

open ResolvedRows

variable [DecidableEq K] {dropMarkers : Bool} {retainFrom : ℤ}
  {sortRows : List (ColdRow K V) → List (ColdRow K V)} {batches : List (List (ColdRow K V))}

omit [LinearOrder B] [DecidableEq K] in
theorem same_append_nil {a : ResolvedRows K V} (h : 0 ≤ a.historyFloor) :
    a.append ⟨[], [], 0⟩ = a := by
  simp only [ResolvedRows.append, append_nil, max_eq_left h]

def resolveBatches (dropMarkers : Bool) (retainFrom : ℤ) :
    List (List (ColdRow K V)) → ResolvedRows K V
  | [] => ⟨[], [], 0⟩
  | batch :: batches =>
    (resolveVersions batch dropMarkers retainFrom).append
      (resolveBatches dropMarkers retainFrom batches)

theorem resolveBatches_floor (batches : List (List (ColdRow K V))) :
    0 ≤ (resolveBatches dropMarkers retainFrom batches).historyFloor := by
  cases batches with
  | nil => exact le_rfl
  | cons batch batches =>
    exact (historyFloor_nonneg batch dropMarkers retainFrom).trans (le_max_left _ _)

theorem resolveVersions_nil :
    resolveVersions ([] : List (ColdRow K V)) dropMarkers retainFrom = ⟨[], [], 0⟩ := by
  cases dropMarkers <;> rfl

theorem same_foldl_rewriteBatch (hso : ∀ l, (sortRows l).Perm l)
    (batches : List (List (ColdRow K V))) {written : ResolvedRows K V}
    (hfl : 0 ≤ written.historyFloor) :
    Same ((batches.filter fun batch ↦ !batch.isEmpty).foldl
        (rewriteBatch sortRows dropMarkers retainFrom) written)
      (written.append (resolveBatches dropMarkers retainFrom batches)) := by
  induction batches generalizing written with
  | nil =>
    rw [resolveBatches, same_append_nil hfl]
    exact .refl _
  | cons batch batches ih =>
    rw [resolveBatches, ← ResolvedRows.append_assoc]
    cases batch with
    | nil =>
      rw [filter_cons_of_neg (by simp), resolveVersions_nil, same_append_nil hfl]
      exact ih hfl
    | cons row rest =>
      rw [filter_cons_of_pos (by simp), foldl_cons]
      refine (ih (hfl.trans (le_max_left _ _))).trans (Same.append ?_ (.refl _))
      exact (Same.refl written).append ⟨hso _, hso _, rfl⟩

/-- **Slice by slice is the same as at once.** -/
theorem same_resolveBatches (hso : boundaries.Pairwise (· ≤ ·))
    (hlo : ∀ b, lo = some b → ∀ b' ∈ boundaries, b ≤ b') :
    Same (resolveVersions (slice lead lo none rows) dropMarkers retainFrom)
      (resolveBatches dropMarkers retainFrom (slices lead rows lo boundaries)) := by
  induction boundaries generalizing lo with
  | nil =>
    rw [slices, resolveBatches, resolveBatches,
      same_append_nil (historyFloor_nonneg _ dropMarkers retainFrom)]
    exact .refl _
  | cons hi boundaries ih =>
    obtain ⟨hhi, hso⟩ := pairwise_cons.1 hso
    have hc : Same (resolveVersions (slice lead lo none rows) dropMarkers retainFrom) _ :=
      same_resolveVersions_filter (fun k ↦ decide (lead k < hi)) _ dropMarkers
    rw [← slice_below, ← slice_above fun b hb ↦ hlo b hb hi mem_cons_self] at hc
    rw [slices, resolveBatches]
    exact hc.trans ((Same.refl _).append (ih hso fun b hb ↦ Option.some.inj hb ▸ hhi))

theorem perm_dropped (hf : batches.flatten.Perm rows)
    (hsm : Same (resolveVersions rows dropMarkers retainFrom)
      (resolveBatches dropMarkers retainFrom batches))
    {dropped : List (ColdRow K V)} {droppedOf : List (ColdRow K V) → List (ColdRow K V)}
    (hdr : Accounts rows (resolveVersions rows dropMarkers retainFrom) dropped)
    (hdroppedOf : ∀ batch,
      Accounts batch (resolveVersions batch dropMarkers retainFrom) (droppedOf batch)) :
    (batches.flatMap droppedOf).Perm dropped := by
  have hb : ((resolveBatches dropMarkers retainFrom batches).kept ++
      (resolveBatches dropMarkers retainFrom batches).history ++
        batches.flatMap droppedOf).Perm batches.flatten := by
    clear hf hsm
    induction batches with
    | nil => exact .rfl
    | cons batch batches ih =>
      rw [flatten_cons, flatMap_cons, resolveBatches]
      refine List.Perm.trans ?_ ((hdroppedOf batch).append ih)
      classical
      rw [perm_iff_count]
      intro r
      simp only [ResolvedRows.append, count_append]
      omega
  have hre := ((hsm.kept.append hsm.history).append_right (batches.flatMap droppedOf)).trans
    (hb.trans (hf.trans hdr.symm))
  exact (perm_append_left_iff _).1 hre

omit [DecidableEq K] in
theorem streamSlices_unbounded (hmems : ∀ m ∈ members, Readable leadKey lead m) (sample : List B) :
    streamSlices leadKey (members.map StreamMember.unbounded) sample sliceRows =
      streamSlices leadKey members sample sliceRows := by
  simp only [streamSlices, foldl_map, streamBatches_unbounded hmems]
  rfl

omit [DecidableEq K] in
theorem streamSlices_eq_ok (hmems : ∀ m ∈ members, Readable leadKey lead m) {sample : List B}
    (h : streamSlices leadKey members sample sliceRows = .ok (some batches)) :
    ∃ boundaries : List B, boundaries.Pairwise (· ≤ ·) ∧
      batches = slices lead (members.flatMap fun m ↦ m.rows) none boundaries := by
  rw [streamSlices] at h
  split at h
  next => cases h
  next =>
    generalize ho : chooseBoundaries sample _ = boundaries at h
    refine ⟨boundaries, ho ▸ pairwise_chooseBoundaries _ _, ?_⟩
    cases hb : streamBatches leadKey sliceRows members none boundaries with
    | error e =>
      rw [hb] at h
      cases h
    | ok batches' =>
      rw [hb] at h
      cases h
      exact streamBatches_eq hmems hb

theorem mem_of_mem_kept {r : ColdRow K V}
    (hr : r ∈ (resolveVersions rows dropMarkers retainFrom).kept) : r ∈ rows := by
  obtain ⟨dropped, ha⟩ := exists_accounts rows dropMarkers retainFrom
  exact ha.mem_iff.1 (mem_append_left _ (mem_append_left _ hr))

/-- Slices between sorted boundaries have the rows of the unit, and their rewrites add up to its
own. -/
theorem rewrite_slices (dropMarkers : Bool) (retainFrom : ℤ) (hsort : ∀ l, (sortRows l).Perm l)
    {boundaries : List B} (hs : boundaries.Pairwise (· ≤ ·)) :
    (slices lead rows none boundaries).flatten.Perm rows ∧
    Same (rewriteBatches sortRows dropMarkers retainFrom (slices lead rows none boundaries))
      (resolveVersions rows dropMarkers retainFrom) ∧
    Same (resolveVersions rows dropMarkers retainFrom)
      (resolveBatches dropMarkers retainFrom (slices lead rows none boundaries)) := by
  have hall : slice lead none none rows = rows := by simp [slice]
  have hlo : ∀ b, (none : Option B) = some b → ∀ b' ∈ boundaries, b ≤ b' := by
    intro b hb
    cases hb
  have hf : (slices lead rows none boundaries).flatten.Perm _ := slices_flatten_perm hs hlo
  have hsm : Same (resolveVersions (slice lead none none rows) dropMarkers retainFrom) _ :=
    same_resolveBatches hs hlo
  rw [hall] at hf hsm
  have hwr : Same (rewriteBatches sortRows dropMarkers retainFrom _) _ :=
    same_foldl_rewriteBatch hsort (slices lead rows none boundaries) le_rfl
  refine ⟨hf, hwr.trans (Same.trans ?_ hsm.symm), hsm⟩
  exact ⟨.rfl, .rfl, max_eq_right (resolveBatches_floor _)⟩

/-- **The streamed rewrite of a unit, for every sample of its lead keys.** -/
theorem streamSlices_refines (dropMarkers : Bool) (retainFrom : ℤ)
    (hsort : ∀ l, (sortRows l).Perm l) (hmembers : ∀ m ∈ members, Readable leadKey lead m)
    {sample : List B} (h : streamSlices leadKey members sample sliceRows = .ok (some batches)) :
    batches.flatten.Perm (members.flatMap fun m ↦ m.rows) ∧
    Same (rewriteBatches sortRows dropMarkers retainFrom batches)
      (resolveVersions (members.flatMap fun m ↦ m.rows) dropMarkers retainFrom) ∧
    (∃ dropped droppedOf,
      Accounts (members.flatMap fun m ↦ m.rows)
        (resolveVersions (members.flatMap fun m ↦ m.rows) dropMarkers retainFrom) dropped ∧
      (∀ batch, Accounts batch (resolveVersions batch dropMarkers retainFrom) (droppedOf batch)) ∧
      (batches.flatMap droppedOf).Perm dropped) ∧
    streamSlices leadKey (members.map StreamMember.unbounded) sample sliceRows =
      .ok (some batches) ∧
    (batches.map fun batch ↦ sortRows (resolveVersions batch dropMarkers retainFrom).kept).Pairwise
      fun s t ↦ ∀ a ∈ s, ∀ b ∈ t, lead a.pk < lead b.pk := by
  obtain ⟨boundaries, hs, rfl⟩ := streamSlices_eq_ok hmembers h
  obtain ⟨hf, hwr, hsm⟩ := rewrite_slices dropMarkers retainFrom hsort hs
  refine ⟨hf, hwr, ?_, (streamSlices_unbounded hmembers sample).trans h, ?_⟩
  · obtain ⟨dropped, hdr⟩ :=
      exists_accounts (members.flatMap fun m ↦ m.rows) dropMarkers retainFrom
    choose droppedOf hdroppedOf using fun batch : List (ColdRow K V) ↦
      exists_accounts batch dropMarkers retainFrom
    exact ⟨dropped, droppedOf, hdr, hdroppedOf, perm_dropped hf hsm hdr hdroppedOf⟩
  · rw [pairwise_map]
    refine (pairwise_slices hs).imp fun {s t} hlt a ha b hb ↦ ?_
    exact hlt a (mem_of_mem_kept ((hsort _).mem_iff.1 ha)) b
      (mem_of_mem_kept ((hsort _).mem_iff.1 hb))

/-- With the sample it takes itself, `compact_unit` writes what it would write at once. -/
theorem streamUnit_same (dropMarkers : Bool) (retainFrom : ℤ) (hsort : ∀ l, (sortRows l).Perm l)
    (hmembers : ∀ m ∈ members, Readable leadKey lead m)
    (h : streamUnit leadKey members sliceRows = .ok (some batches)) :
    Same (rewriteBatches sortRows dropMarkers retainFrom batches)
      (resolveVersions (members.flatMap fun m ↦ m.rows) dropMarkers retainFrom) := by
  rw [streamUnit] at h
  split at h
  · cases h
  next sample _ =>
    obtain ⟨boundaries, hs, rfl⟩ := streamSlices_eq_ok hmembers h
    exact (rewrite_slices dropMarkers retainFrom hsort hs).2.1

end Stream

theorem streamSlices_refines_pair :
    ([[⟨⟨1, .insert, 1⟩, ()⟩, ⟨⟨3, .update, 1⟩, ()⟩],
      [⟨⟨2, .insert, 5⟩, ()⟩, ⟨⟨4, .insert, 9⟩, ()⟩]] :
      List (List (ColdRow ℕ Unit))).flatten.Perm
    [⟨⟨1, .insert, 1⟩, ()⟩, ⟨⟨2, .insert, 5⟩, ()⟩, ⟨⟨3, .update, 1⟩, ()⟩,
      ⟨⟨4, .insert, 9⟩, ()⟩] := by
  have hmems : ∀ m ∈ ([⟨[⟨⟨1, .insert, 1⟩, ()⟩, ⟨⟨2, .insert, 5⟩, ()⟩], 2, some (1, 5)⟩,
      ⟨[⟨⟨3, .update, 1⟩, ()⟩, ⟨⟨4, .insert, 9⟩, ()⟩], 2, some (1, 9)⟩] :
        List (StreamMember ℕ Unit ℕ)), Readable some id m := by
    intro m hm
    refine ⟨fun r _ ↦ rfl, fun p hp r hr ↦ ?_⟩
    simp only [mem_cons, not_mem_nil, or_false] at hm
    rcases hm with rfl | rfl <;> cases hp <;> revert r <;> decide
  have hs : streamSlices some ([⟨[⟨⟨1, .insert, 1⟩, ()⟩, ⟨⟨2, .insert, 5⟩, ()⟩], 2, some (1, 5)⟩,
      ⟨[⟨⟨3, .update, 1⟩, ()⟩, ⟨⟨4, .insert, 9⟩, ()⟩], 2, some (1, 9)⟩] :
        List (StreamMember ℕ Unit ℕ)) [1, 5, 1, 9] 4 = .ok (some [_, _]) := rfl
  exact (streamSlices_refines true 3 (fun l ↦ List.Perm.refl l) hmems hs).1

end Koldstore.Feed
