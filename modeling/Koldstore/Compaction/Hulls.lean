import Koldstore.Compaction.Components

/-!
# Merging runs of small segments

The bounds of a rewritten run are the **hull** of its segments' bounds, column by column, and of
their key tuples where these are known. On a line the hull of neighbours covers nothing between
them; the boxes of a composite key may lie in another order than the list, which is sorted by the
leading column alone, and then a hull covers boxes that none of its segments meets.

What keeps segments apart is therefore said of one interval per segment that orders the list: the
leading column's, or the tuple's.
-/

namespace Koldstore.Compaction

open List

variable {B : Type*} [LinearOrder B] {segments : List (SegmentRange B)}

/-! ### Hulls -/

def hullInterval (p q : B × B) : B × B := (min p.1 q.1, max p.2 q.2)

def SegmentRange.merge (s t : SegmentRange B) : SegmentRange B where
  rowCount := s.rowCount + t.rowCount
  bounds := s.bounds.zipWith hullInterval t.bounds
  tuple :=
    match s.tuple, t.tuple with
    | some p, some q => some (hullInterval p q)
    | _, _ => none

def hull : List (SegmentRange B) → Option (SegmentRange B)
  | [] => none
  | s :: rest => some (rest.foldl SegmentRange.merge s)

def segmentsAt (segments : List (SegmentRange B)) (positions : List ℕ) : List (SegmentRange B) :=
  positions.filterMap fun i ↦ segments[i]?

def blocks (segments : List (SegmentRange B)) (plan : CompactionPlan) : List (List ℕ) :=
  plan.units.map CompactionUnit.members ++ ((List.range segments.length).filter fun i ↦
      !plan.units.any fun u ↦ u.members.contains i).map fun i ↦ [i]

def mergeRuns (segments : List (SegmentRange B)) (plan : CompactionPlan) : List (SegmentRange B) :=
  (blocks segments plan).filterMap fun block ↦ hull (segmentsAt segments block)

/-- An interval of each segment that merging takes hulls of. -/
structure MergedBy (interval : SegmentRange B → Option (B × B)) : Prop where
  merge : ∀ s t p q, interval s = some p → interval t = some q →
    interval (s.merge t) = some (hullInterval p q)
  intersects : ∀ s t p q, interval s = some p → interval t = some q → s.mayShareKeys t = true →
    intersects p q = true

def lead (s : SegmentRange B) : Option (B × B) := s.bounds.head?

theorem mergedBy_lead : MergedBy (lead : SegmentRange B → Option (B × B)) where
  merge s t p q hp hq := by
    obtain ⟨l, hl⟩ := head?_eq_some_iff.1 hp
    obtain ⟨m, hm⟩ := head?_eq_some_iff.1 hq
    rw [lead, SegmentRange.merge, hl, hm, zipWith_cons_cons, head?_cons]
  intersects s t p q hp hq hsh := by
    obtain ⟨l, hl⟩ := head?_eq_some_iff.1 hp
    obtain ⟨m, hm⟩ := head?_eq_some_iff.1 hq
    simp only [SegmentRange.mayShareKeys, hl, hm, zip_cons_cons, all_cons, Bool.and_eq_true] at hsh
    exact hsh.1.2.1

theorem mergedBy_tuple : MergedBy (SegmentRange.tuple : SegmentRange B → Option (B × B)) where
  merge s t p q hp hq := by rw [SegmentRange.merge, hp, hq]
  intersects s t p q hp hq hsh := by
    simp only [SegmentRange.mayShareKeys, hp, hq, Bool.and_eq_true] at hsh
    exact hsh.2

/-- The interval of the first segment ends before that of the second. -/
def EndsBefore (interval : SegmentRange B → Option (B × B)) (s t : SegmentRange B) : Prop :=
  ∃ p q, interval s = some p ∧ interval t = some q ∧ p.2 < q.1

section Intervals

variable {interval : SegmentRange B → Option (B × B)} (hi : MergedBy interval)
include hi

theorem MergedBy.interval_hull {l : List (SegmentRange B)} {h : SegmentRange B}
    (hh : hull l = some h) (hs : ∀ s ∈ l, ∃ p, interval s = some p) :
    ∃ p, interval h = some p ∧
      (∀ x, (∀ s ∈ l, ∀ q, interval s = some q → x < q.1) → x < p.1) ∧
      ∀ x, (∀ s ∈ l, ∀ q, interval s = some q → q.2 < x) → p.2 < x := by
  cases l with
  | nil => cases hh
  | cons s rest =>
    cases hh
    induction rest generalizing s with
    | nil =>
      obtain ⟨p, hp⟩ := hs s mem_cons_self
      exact ⟨p, hp, fun x hx ↦ hx s mem_cons_self p hp, fun x hx ↦ hx s mem_cons_self p hp⟩
    | cons t rest ih =>
      rw [forall_mem_cons, forall_mem_cons] at hs
      obtain ⟨⟨p, hp⟩, ⟨q, hq⟩, hre⟩ := hs
      have hmg := hi.merge s t p q hp hq
      obtain ⟨r, hr, hlo, hup⟩ := ih (s.merge t) (forall_mem_cons.2 ⟨⟨_, hmg⟩, hre⟩)
      refine ⟨r, hr, fun x hx ↦ hlo x ?_, fun x hx ↦ hup x ?_⟩
      all_goals
        rw [forall_mem_cons, forall_mem_cons] at hx
        refine forall_mem_cons.2 ⟨fun r' hr' ↦ ?_, hx.2.2⟩
        obtain rfl := Option.some.inj (hmg.symm.trans hr')
      · exact lt_min (hx.1 p hp) (hx.2.1 q hq)
      · exact max_lt (hx.1 p hp) (hx.2.1 q hq)

theorem MergedBy.mayShareKeys {s t : SegmentRange B} (h : EndsBefore interval s t) :
    s.mayShareKeys t = false := by
  obtain ⟨p, q, hp, hq, hlt⟩ := h
  by_contra hsh
  have hov := hi.intersects s t p q hp hq (Bool.not_eq_false _ ▸ hsh)
  rw [Compaction.intersects, Bool.and_eq_true, decide_eq_true_eq, decide_eq_true_eq] at hov
  exact absurd hlt (not_lt.2 hov.2)

theorem MergedBy.endsBefore_hull {l m : List (SegmentRange B)} {h h' : SegmentRange B}
    (hl : hull l = some h) (hm : hull m = some h') (hs : ∀ s ∈ l, ∃ p, interval s = some p)
    (ht : ∀ t ∈ m, ∃ p, interval t = some p)
    (he : ∀ s ∈ l, ∀ t ∈ m, EndsBefore interval s t) : EndsBefore interval h h' := by
  obtain ⟨p, hp, -, hup⟩ := hi.interval_hull hl hs
  obtain ⟨q, hq, hlo, -⟩ := hi.interval_hull hm ht
  refine ⟨p, q, hp, hq, hlo _ fun t htm q' hq' ↦ hup _ fun s hsl p' hp' ↦ ?_⟩
  obtain ⟨p₁, q₁, hp₁, hq₁, hlt⟩ := he s hsl t htm
  rwa [Option.some.inj (hp'.symm.trans hp₁), Option.some.inj (hq'.symm.trans hq₁)]

end Intervals

/-! ### Runs are consecutive -/

theorem overlapComponents_of_lone (hl : ∀ c ∈ overlapComponents segments, c.length = 1) :
    overlapComponents segments = (List.range segments.length).map fun i ↦ [i] := by
  have hrt : ∀ i < segments.length, (joinLoop 0 segments [] .singletons).root i = i := by
    intro i hi
    generalize hf : joinLoop 0 segments [] .singletons = f
    have hc : (List.range segments.length).filter (fun j ↦ f.root j = f.root i) ∈
        overlapComponents segments := by
      refine mem_overlapComponents.2 ⟨f.root i, (f.root_le i).trans_lt hi, ?_, ?_⟩
      · rw [hf, Forest.root_root]
      · rw [hf]
    obtain ⟨j, hj⟩ := length_eq_one_iff.1 (hl _ hc)
    have hi' : i ∈ (List.range segments.length).filter fun j ↦ f.root j = f.root i := by simp [hi]
    have hri : f.root i ∈ (List.range segments.length).filter fun j ↦ f.root j = f.root i := by
      simp [(f.root_le i).trans_lt hi, Forest.root_root]
    rw [hj, mem_singleton] at hi' hri
    exact hri.trans hi'.symm
  rw [overlapComponents, Forest.classes_eq]
  have ha : (List.range segments.length).filter (fun r ↦
      (joinLoop 0 segments [] .singletons).root r = r) = List.range segments.length :=
    filter_eq_self.2 fun r hr ↦ decide_eq_true (hrt r (mem_range.1 hr))
  rw [ha]
  refine map_congr_left fun r hr ↦ ?_
  have hc : (List.range segments.length).filter (fun i ↦
      (joinLoop 0 segments [] .singletons).root i = r) ∈ overlapComponents segments :=
    mem_overlapComponents.2 ⟨r, mem_range.1 hr, hrt r (mem_range.1 hr), rfl⟩
  obtain ⟨j, hj⟩ := length_eq_one_iff.1 (hl _ hc)
  have hmem : r ∈ (List.range segments.length).filter fun i ↦
      (joinLoop 0 segments [] .singletons).root i = r :=
    mem_filter.2 ⟨hr, decide_eq_true (hrt r (mem_range.1 hr))⟩
  rw [hj] at hmem ⊢
  rw [mem_singleton.1 hmem]

def Consecutive (positions : List ℕ) : Prop := ∃ a m, positions = List.range' a m ∧ 0 < m

variable {plan : CompactionPlan}

theorem consecutive_closeRun {a m : ℕ} {runRows : ℤ}
    (hpl : ∀ u ∈ plan.units, Consecutive u.members) :
    ∀ u ∈ (closeRun (List.range' a m) runRows plan).units, Consecutive u.members := by
  rw [closeRun]
  split
  next hl =>
    rw [length_range'] at hl
    intro u hu
    rcases mem_append.1 hu with hu | hu
    · exact hpl u hu
    · rw [mem_singleton.1 hu]
      exact ⟨a, m, rfl, by omega⟩
  next => exact hpl

omit [LinearOrder B] in
theorem consecutive_planLoop {target cap : ℤ} (k : ℕ) {i a m : ℕ} {runRows : ℤ} (hr : a + m = i)
    (hpl : ∀ u ∈ plan.units, Consecutive u.members) :
    ∀ u ∈ (planLoop segments target cap ((List.range' i k).map fun i ↦ [i]) (List.range' a m)
      runRows plan).units, Consecutive u.members := by
  induction k generalizing i a m runRows plan with
  | zero => exact consecutive_closeRun hpl
  | succ k ih =>
    rw [range'_succ, map_cons, planLoop, if_neg (by simp)]
    split_ifs with hl hfu
    · exact ih (m := 0) rfl (consecutive_closeRun hpl)
    · exact ih (m := 1) rfl (consecutive_closeRun hpl)
    · have hgw : List.range' a m ++ [i] = List.range' a (m + 1) := by
        rw [range'_concat, one_mul, hr]
      rw [hgw]
      exact ih (by omega) hpl

theorem consecutive_of_lone (hl : ∀ c ∈ overlapComponents segments, c.length = 1)
    (maxRowsPerFile maxUnitRows : ℤ) :
    ∀ u ∈ (planCompactionUnits segments maxRowsPerFile maxUnitRows).units,
      Consecutive u.members := by
  rw [planCompactionUnits, overlapComponents_of_lone hl, range_eq_range']
  exact consecutive_planLoop (a := 0) (m := 0) segments.length rfl (by simp)

/-! ### Blocks -/

omit [LinearOrder B] in
theorem consecutive_blocks (hn : ∀ u ∈ plan.units, Consecutive u.members) :
    ∀ block ∈ blocks segments plan, Consecutive block := by
  intro block hb
  rcases mem_append.1 hb with hb | hb
  · obtain ⟨u, hu, rfl⟩ := mem_map.1 hb
    exact hn u hu
  · obtain ⟨i, -, rfl⟩ := mem_map.1 hb
    exact ⟨i, 1, rfl, Nat.one_pos⟩

omit [LinearOrder B] in
theorem pairwise_disjoint_blocks (hnd : (plan.units.flatMap CompactionUnit.members).Nodup) :
    (blocks segments plan).Pairwise List.Disjoint := by
  rw [flatMap_def, nodup_flatten] at hnd
  refine pairwise_append.2 ⟨hnd.2, ?_, ?_⟩
  · rw [pairwise_map]
    refine (nodup_range.filter _).imp fun {i j} hne ↦ ?_
    simpa using hne.symm
  · intro block hb lone hl
    obtain ⟨u, hu, rfl⟩ := mem_map.1 hb
    obtain ⟨i, hi, rfl⟩ := mem_map.1 hl
    have hfe := (mem_filter.1 hi).2
    intro j hj hji
    rw [mem_singleton.1 hji] at hj
    simp only [Bool.not_eq_true', any_eq_false] at hfe
    exact hfe u hu (contains_iff_mem.2 hj)

theorem before_of_disjoint {b b' : List ℕ} (hb : Consecutive b) (hb' : Consecutive b')
    (hd : b.Disjoint b') : (∀ i ∈ b, ∀ j ∈ b', i < j) ∨ ∀ i ∈ b, ∀ j ∈ b', j < i := by
  obtain ⟨a, m, rfl, hm⟩ := hb
  obtain ⟨a', m', rfl, hm'⟩ := hb'
  have hn : ∀ i, a ≤ i → i < a + m → a' ≤ i → i < a' + m' → False := fun i h₁ h₂ h₃ h₄ ↦
    hd (mem_range'_1.2 ⟨h₁, h₂⟩) (mem_range'_1.2 ⟨h₃, h₄⟩)
  simp only [mem_range'_1]
  rcases le_total a a' with hle | hle
  · have hap : a + m ≤ a' := by
      by_contra hlt
      exact hn a' hle (by omega) le_rfl (by omega)
    exact .inl fun i hi j hj ↦ by omega
  · have hap : a' + m' ≤ a := by
      by_contra hlt
      exact hn a le_rfl (by omega) hle (by omega)
    exact .inr fun i hi j hj ↦ by omega

omit [LinearOrder B] in
theorem forall_segmentsAt {P : SegmentRange B → Prop} (h : ∀ s ∈ segments, P s)
    (positions : List ℕ) : ∀ s ∈ segmentsAt segments positions, P s := by
  intro s hs
  obtain ⟨i, -, hi⟩ := mem_filterMap.1 hs
  exact h s (mem_of_getElem? hi)

theorem endsBefore_segmentsAt {interval : SegmentRange B → Option (B × B)}
    (he : segments.Pairwise (EndsBefore interval)) {b b' : List ℕ}
    (hb : ∀ i ∈ b, ∀ j ∈ b', i < j) :
    ∀ s ∈ segmentsAt segments b, ∀ t ∈ segmentsAt segments b', EndsBefore interval s t := by
  intro s hs t ht
  obtain ⟨i, hi, his⟩ := mem_filterMap.1 hs
  obtain ⟨j, hj, hjt⟩ := mem_filterMap.1 ht
  obtain ⟨hi', rfl⟩ := List.getElem?_eq_some_iff.1 his
  obtain ⟨hj', rfl⟩ := List.getElem?_eq_some_iff.1 hjt
  exact pairwise_iff_getElem.1 he i j hi' hj' (hb i hi j hj)

/-! ### Merging keeps ordered intervals apart -/

def leadIntersects (s t : SegmentRange B) : Bool :=
  (lead s).any fun p ↦ (lead t).any fun q ↦ intersects p q

theorem pairwise_endsBefore_lead (hso : Sorted segments)
    (hw : ∀ s ∈ segments, s.bounds ≠ [] ∧ ∀ p ∈ s.bounds, p.1 ≤ p.2)
    (hl : segments.Pairwise fun s t ↦ leadIntersects s t = false) :
    segments.Pairwise (EndsBefore lead) := by
  refine (hl.and hso).imp_of_mem fun {s t} hs ht h ↦ ?_
  have hp : lead s = some _ := head?_eq_some_head (hw s hs).1
  have hq : lead t = some _ := head?_eq_some_head (hw t ht).1
  refine ⟨_, _, hp, hq, ?_⟩
  have hv := (hw t ht).2 _ (head_mem (hw t ht).1)
  have hap := h.1
  simp only [leadIntersects, hp, hq, Option.any_some] at hap
  by_contra hle
  rw [intersects, decide_eq_true ((h.2 _ hp _ hq).trans hv), decide_eq_true (not_lt.1 hle)] at hap
  cases hap

/-- Runs of the planner are neighbours in the list, so where an interval orders the list their hulls
are in order too. -/
theorem MergedBy.pairwise_hulls {interval : SegmentRange B → Option (B × B)}
    (hi : MergedBy interval) (hso : Sorted segments) (hbs : ∀ s ∈ segments, s.bounds ≠ [])
    (hs : ∀ s ∈ segments, ∃ p, interval s = some p) (he : segments.Pairwise (EndsBefore interval))
    (maxRowsPerFile maxUnitRows : ℤ) :
    (mergeRuns segments (planCompactionUnits segments maxRowsPerFile maxUnitRows)).Pairwise
      fun s t ↦ s.mayShareKeys t = false := by
  have hap : segments.Pairwise fun s t ↦ s.mayShareKeys t = false :=
    he.imp fun h ↦ hi.mayShareKeys h
  have ho : ∀ block ∈ blocks segments
      (planCompactionUnits segments maxRowsPerFile maxUnitRows), Consecutive block :=
    consecutive_blocks (consecutive_of_lone
      (fun c hc ↦ length_of_pairwise hso hbs hap hc) maxRowsPerFile maxUnitRows)
  have hnd := nodup_members segments maxRowsPerFile maxUnitRows
  rw [CompactionPlan.all, flatMap_append] at hnd
  have hl : (blocks segments
      (planCompactionUnits segments maxRowsPerFile maxUnitRows)).Pairwise List.Disjoint :=
    pairwise_disjoint_blocks (nodup_append.1 hnd).1
  refine pairwise_filterMap.2 (hl.imp_of_mem fun {b b'} hb hb' hd h hh h' hh' ↦ ?_)
  rcases before_of_disjoint (ho b hb) (ho b' hb') hd with hbef | ha
  · exact hi.mayShareKeys (hi.endsBefore_hull hh hh' (forall_segmentsAt hs b)
      (forall_segmentsAt hs b') (endsBefore_segmentsAt he hbef))
  · rw [SegmentRange.mayShareKeys_comm]
    exact hi.mayShareKeys (hi.endsBefore_hull hh' hh (forall_segmentsAt hs b')
      (forall_segmentsAt hs b) (endsBefore_segmentsAt he fun i hi j hj ↦ ha j hj i hi))

/-- **Merging runs keeps segments apart** whose leading intervals are disjoint, or which all have
tuple bounds and are listed in the order of their tuples. For keys of one column the first is what
disjoint keys are. -/
theorem pairwise_mergeRuns : (∀ segments : List (SegmentRange B), Sorted segments →
      (∀ s ∈ segments, s.bounds ≠ [] ∧ ∀ p ∈ s.bounds, p.1 ≤ p.2) →
      segments.Pairwise (fun s t ↦ leadIntersects s t = false) ∨
        (∀ s ∈ segments, s.tuple ≠ none) ∧ segments.Pairwise (EndsBefore SegmentRange.tuple) →
      ∀ maxRowsPerFile maxUnitRows : ℤ,
        (mergeRuns segments (planCompactionUnits segments maxRowsPerFile maxUnitRows)).Pairwise
          fun s t ↦ s.mayShareKeys t = false) ∧
    ∀ segments : List (SegmentRange B), (∀ s ∈ segments, s.bounds.length = 1 ∧ s.tuple = none) →
      segments.Pairwise (fun s t ↦ s.mayShareKeys t = false) →
        segments.Pairwise fun s t ↦ leadIntersects s t = false := by
  refine ⟨fun segments hso hw hap maxRowsPerFile maxUnitRows ↦ ?_, fun segments hg hdisj ↦ ?_⟩
  · have hbs : ∀ s ∈ segments, s.bounds ≠ [] := fun s hs ↦ (hw s hs).1
    rcases hap with hle | ⟨htu, he⟩
    · exact mergedBy_lead.pairwise_hulls hso hbs
        (fun s hs ↦ ⟨_, head?_eq_some_head (hbs s hs)⟩) (pairwise_endsBefore_lead hso hw hle)
        maxRowsPerFile maxUnitRows
    · exact mergedBy_tuple.pairwise_hulls hso hbs
        (fun s hs ↦ Option.ne_none_iff_exists'.1 (htu s hs)) he maxRowsPerFile maxUnitRows
  · refine hdisj.imp_of_mem fun {s t} hs ht h ↦ ?_
    obtain ⟨p, hp⟩ := length_eq_one_iff.1 (hg s hs).1
    obtain ⟨q, hq⟩ := length_eq_one_iff.1 (hg t ht).1
    simpa [SegmentRange.mayShareKeys, hp, hq, (hg s hs).2, (hg t ht).2, leadIntersects, lead]
      using h

section OneShop

/-- Three segments of one shop's orders, two of them small, in the order of their tuples. -/
def ordered : List (SegmentRange ℕ) :=
  [⟨1, [(1, 1), (1, 10)], some (101, 110)⟩, ⟨1, [(1, 1), (11, 20)], some (111, 120)⟩,
    ⟨100, [(1, 1), (21, 30)], some (121, 130)⟩]

theorem pairwise_mergeRuns_ordered :
    mergeRuns ordered (planCompactionUnits ordered 50 1000) =
      [⟨2, [(1, 1), (1, 20)], some (101, 120)⟩, ⟨100, [(1, 1), (21, 30)], some (121, 130)⟩] ∧
    (mergeRuns ordered (planCompactionUnits ordered 50 1000)).Pairwise
      fun s t ↦ s.mayShareKeys t = false := by
  refine ⟨by decide +kernel, pairwise_mergeRuns.1 ordered (by simp [Sorted, ordered])
    (by decide) (.inr ⟨by decide, ?_⟩) 50 1000⟩
  simp [ordered, EndsBefore]

/-- The same shop with the large segment between the small ones. The list is sorted by the leading
column all the same, so the planner packs the small segments, and their hull covers the large
one. -/
def unordered : List (SegmentRange ℕ) :=
  [⟨1, [(1, 1), (1, 10)], some (101, 110)⟩, ⟨1, [(1, 1), (21, 30)], some (121, 130)⟩,
    ⟨100, [(1, 1), (11, 20)], some (111, 120)⟩]

theorem mergeRuns_covers :
    Sorted unordered ∧ unordered.Pairwise (fun s t ↦ s.mayShareKeys t = false) ∧
      keysDisjoint unordered 10 = some true ∧
      mergeRuns unordered (planCompactionUnits unordered 50 1000) =
        [⟨2, [(1, 1), (1, 30)], some (101, 130)⟩, ⟨100, [(1, 1), (11, 20)], some (111, 120)⟩] ∧
      ¬(mergeRuns unordered (planCompactionUnits unordered 50 1000)).Pairwise
        fun s t ↦ s.mayShareKeys t = false := by
  refine ⟨by simp [Sorted, unordered], by decide, by decide +kernel, by decide +kernel,
    by decide +kernel⟩

end OneShop

end Koldstore.Compaction
