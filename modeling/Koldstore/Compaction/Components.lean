import Koldstore.Compaction.Plan

/-!
# What the planner promises

Components, disjointness of the keys, and units.
-/

namespace Koldstore.Compaction

open List

variable {B : Type*} [LinearOrder B] {segments : List (SegmentRange B)}

/-! ### Components -/

def Meets (segments : List (SegmentRange B)) (i j : ℕ) : Prop :=
  ∃ s t, segments[i]? = some s ∧ segments[j]? = some t ∧ s.bounds ≠ [] ∧ s.mayShareKeys t = true

variable {i : ℕ}

omit [LinearOrder B] in
theorem mem_bounded {s : SegmentRange B} :
    (i, s) ∈ bounded (entriesFrom 0 segments) ↔ segments[i]? = some s ∧ s.bounds ≠ [] := by
  rw [bounded, mem_filter, mem_entriesFrom_zero]
  simp

variable {j : ℕ}

theorem meets_of_sharing (h : Sharing (bounded (entriesFrom 0 segments)) i j) :
    Meets segments i j := by
  obtain ⟨s, t, hs, ht, -, hsh⟩ := h
  exact ⟨s, t, (mem_bounded.1 hs).1, (mem_bounded.1 ht).1, (mem_bounded.1 hs).2, hsh⟩

theorem eqvGen_sharing_iff :
    Relation.EqvGen (Sharing (bounded (entriesFrom 0 segments))) i j ↔
      Relation.EqvGen (Meets segments) i j := by
  constructor
  · intro h
    exact h.mono fun x y hxy ↦ meets_of_sharing hxy
  · intro h
    induction h with
    | rel x y hmt =>
      obtain ⟨s, t, hs, ht, hbs, hsh⟩ := hmt
      have hbs' : t.bounds ≠ [] :=
        SegmentRange.bounds_ne_nil_of_mayShareKeys (SegmentRange.mayShareKeys_comm s t ▸ hsh)
          hbs
      rcases lt_trichotomy x y with hlt | rfl | hlt
      · rw [SegmentRange.mayShareKeys_comm] at hsh
        exact .symm _ _ (.rel _ _
          ⟨t, s, mem_bounded.2 ⟨ht, hbs'⟩, mem_bounded.2 ⟨hs, hbs⟩, hlt, hsh⟩)
      · exact .refl _
      · exact .rel _ _
          ⟨s, t, mem_bounded.2 ⟨hs, hbs⟩, mem_bounded.2 ⟨ht, hbs'⟩, hlt, hsh⟩
    | refl x => exact .refl x
    | symm x y _ ih => exact ih.symm
    | trans x y z _ _ ih ih' => exact ih.trans _ _ _ ih'

/-- **A component is a connected component** of the pairs that meet. -/
theorem mem_component_iff (hso : Sorted segments) {c : List ℕ}
    (hc : c ∈ overlapComponents segments) (hi : i ∈ c) :
    j ∈ c ↔ j < segments.length ∧ Relation.EqvGen (Meets segments) i j := by
  obtain ⟨r, -, -, rfl⟩ := mem_overlapComponents.1 hc
  simp only [mem_filter, mem_range, decide_eq_true_eq] at hi ⊢
  rw [← eqvGen_sharing_iff, ← joins_bounded hso i j, hi.2]
  exact and_congr_right fun _ ↦ eq_comm

/-! ### Disjointness -/

def leadMeets (earlier later : SegmentRange B) : Bool :=
  later.bounds.head?.any fun p ↦ earlier.reaches p.1

/-- The number of pairs with `leadMeets`, the later segment being one of the second list. -/
def leadPairsFrom : List (SegmentRange B) → List (SegmentRange B) → ℕ
  | _, [] => 0
  | done, s :: rest =>
    done.countP (fun earlier ↦ leadMeets earlier s) + leadPairsFrom (done ++ [s]) rest

def leadPairs (segments : List (SegmentRange B)) : ℕ := leadPairsFrom [] segments

section Examine

variable {maxPairs examined : ℕ} {s : SegmentRange B} {entries : List (Entry B)}

theorem examineActive_eq_ok {examined' : ℕ}
    (h : examineActive maxPairs s entries examined = .ok examined') :
    examined' = examined + entries.length := by
  induction entries generalizing examined with
  | nil =>
    rw [examineActive] at h
    exact (Except.ok.inj h).symm
  | cons other entries ih =>
    rw [examineActive] at h
    split_ifs at h
    rw [ih h, length_cons]
    omega

theorem examineActive_eq_none (h : examineActive maxPairs s entries examined = .error none) :
    maxPairs < examined + entries.length := by
  induction entries generalizing examined with
  | nil => cases h
  | cons other entries ih =>
    rw [examineActive] at h
    split_ifs at h with hc hsh
    · rw [length_cons]
      omega
    · cases h
    · have hre := ih h
      rw [length_cons]
      omega

theorem examineActive_eq_false
    (h : examineActive maxPairs s entries examined = .error (some false)) :
    ∃ e ∈ entries, s.mayShareKeys e.2 = true := by
  induction entries generalizing examined with
  | nil => cases h
  | cons other entries ih =>
    rw [examineActive] at h
    split_ifs at h with hc hsh
    · cases h
    · exact ⟨other, mem_cons_self, hsh⟩
    · obtain ⟨e, he, hsh'⟩ := ih h
      exact ⟨e, mem_cons_of_mem _ he, hsh'⟩

end Examine

variable {active : List (Entry B)} {done : List (SegmentRange B)}
  (hsub : (active.map Prod.snd).Sublist done)
include hsub

theorem length_retained_le {s : SegmentRange B} {lead : B × B} (hle : s.bounds.head? = some lead) :
    (retained lead.1 active).length ≤ done.countP fun earlier ↦ leadMeets earlier s := by
  calc (retained lead.1 active).length
    _ = active.countP fun e ↦ e.2.reaches lead.1 := countP_eq_length_filter.symm
    _ = (active.map Prod.snd).countP fun earlier ↦ earlier.reaches lead.1 := by
      rw [countP_map]
      rfl
    _ ≤ done.countP fun earlier ↦ earlier.reaches lead.1 := hsub.countP_le
    _ = done.countP fun earlier ↦ leadMeets earlier s := by
      simp only [leadMeets, hle, Option.any_some]

theorem sublist_concat (leadMin : B) (index : ℕ) (s : SegmentRange B) :
    ((retained leadMin active ++ [(index, s)]).map Prod.snd).Sublist (done ++ [s]) := by
  rw [map_append]
  exact ((filter_sublist.map _).trans hsub).append (List.Sublist.refl _)

variable {rest : List (SegmentRange B)}

theorem disjointLoop_eq_none {maxPairs index examined : ℕ}
    (h : disjointLoop maxPairs index rest active examined = none) :
    (∃ s ∈ rest, s.bounds = []) ∨ maxPairs < examined + leadPairsFrom done rest := by
  induction rest generalizing done active index examined with
  | nil => cases h
  | cons s rest ih =>
    rw [disjointLoop] at h
    rw [leadPairsFrom]
    split at h
    next hn => exact .inl ⟨s, mem_cons_self, head?_eq_none_iff.1 hn⟩
    next lead hle =>
      have hl := length_retained_le hsub hle
      split at h
      next result he =>
        have hc := examineActive_eq_none (h ▸ he)
        exact .inr (by omega)
      next examined' he =>
        have hcnt := examineActive_eq_ok he
        rcases ih (sublist_concat hsub lead.1 index s) h with ⟨t, ht, hn⟩ | hc
        · exact .inl ⟨t, mem_cons_of_mem _ ht, hn⟩
        · exact .inr (by omega)

theorem disjointLoop_eq_false {maxPairs index examined : ℕ}
    (h : disjointLoop maxPairs index rest active examined = some false) :
    ¬(done ++ rest).Pairwise fun s t ↦ s.mayShareKeys t = false := by
  induction rest generalizing done active index examined with
  | nil => cases h
  | cons s rest ih =>
    rw [disjointLoop] at h
    split at h
    next => cases h
    next lead hle =>
      split at h
      next result hx =>
        obtain ⟨e, he, hsh⟩ := examineActive_eq_false (h ▸ hx)
        have hdn : e.2 ∈ done := hsub.subset (mem_map_of_mem (mem_of_mem_filter he))
        intro hpw
        have hap := (pairwise_append.1 hpw).2.2 e.2 hdn s mem_cons_self
        rw [SegmentRange.mayShareKeys_comm, hap] at hsh
        cases hsh
      next =>
        rw [append_cons]
        exact ih (sublist_concat hsub lead.1 index s) h

omit hsub

namespace CompactionPlan

variable {cap : ℤ}

omit [LinearOrder B] in
theorem oversized_planLoop {target : ℤ} (todo : List (List ℕ)) (run : List ℕ) (runRows : ℤ)
    (plan : CompactionPlan) : (planLoop segments target cap todo run runRows plan).oversized =
      plan.oversized ++ (todo.filter fun c ↦
        decide (1 < c.length) && decide (cap < rowsOf segments c)).map fun c ↦
          ⟨c, rowsOf segments c, true⟩ := by
  have hcl : ∀ (run : List ℕ) (runRows : ℤ) (plan : CompactionPlan),
      (closeRun run runRows plan).oversized = plan.oversized := by
    intro run runRows plan
    rw [closeRun]
    split <;> rfl
  induction todo generalizing run runRows plan with
  | nil => simp [planLoop, hcl]
  | cons c todo ih =>
    rw [planLoop]
    split_ifs with hl ha hfu
    · rw [ih, addComponent]
      split_ifs with hc
      · rw [filter_cons_of_pos (by simp [hl, hc])]
        simp [hcl]
      · rw [filter_cons_of_neg (by simp [hc]), hcl]
    all_goals rw [ih, filter_cons_of_neg (by simp [hl])]
    · rw [hcl]
    · rw [hcl]

structure WithinCap (segments : List (SegmentRange B)) (cap : ℤ) (run : List ℕ) (runRows : ℤ)
    (plan : CompactionPlan) : Prop where
  units : ∀ u ∈ plan.units, u.rows = rowsOf segments u.members ∧ u.rows ≤ cap
  rows : runRows = rowsOf segments run
  run : 2 ≤ run.length → runRows ≤ cap

theorem foldl_addI64 (l : List ℤ) (a : ℤ) :
    l.foldl addI64 (a.bmod (2 ^ 64)) = (a + l.sum).bmod (2 ^ 64) := by
  induction l generalizing a with
  | nil => simp
  | cons b l ih =>
    have hb : addI64 (a.bmod (2 ^ 64)) b = (a + b).bmod (2 ^ 64) := Int.bmod_add_bmod
    rw [foldl_cons, hb, ih, sum_cons, Int.add_assoc]

/-- The rows of a unit, counted without bound. -/
def exactRows (segments : List (SegmentRange B)) (positions : List ℕ) : ℤ :=
  (positions.map (rowCountAt segments)).sum

omit [LinearOrder B] in
theorem rowsOf_eq_bmod (positions : List ℕ) :
    rowsOf segments positions = (exactRows segments positions).bmod (2 ^ 64) := by
  have hf := foldl_addI64 (positions.map (rowCountAt segments)) 0
  rwa [Int.zero_add] at hf

omit [LinearOrder B] in
theorem rowsOf_append (l m : List ℕ) :
    rowsOf segments (l ++ m) = addI64 (rowsOf segments l) (rowsOf segments m) := by
  rw [addI64, rowsOf_eq_bmod, rowsOf_eq_bmod, rowsOf_eq_bmod, Int.bmod_add_bmod, Int.add_bmod_bmod,
    exactRows, map_append, sum_append]
  rfl

/-- The row counts are counts, and all of them together fit an `i64`. -/
structure CountsFit (segments : List (SegmentRange B)) : Prop where
  nonneg : ∀ s ∈ segments, 0 ≤ s.rowCount
  sum_lt : (segments.map SegmentRange.rowCount).sum < 2 ^ 63

omit [LinearOrder B] in
theorem map_rowCountAt_range : (List.range segments.length).map (rowCountAt segments) =
    segments.map SegmentRange.rowCount := by
  refine ext_getElem (by simp) fun i hi hi' ↦ ?_
  rw [length_map] at hi'
  simp [rowCountAt, hi']

omit [LinearOrder B] in
/-- Rows that fit are summed exactly. -/
theorem CountsFit.rowsOf_eq (h : CountsFit segments) {positions : List ℕ}
    (hsub : positions.Subperm (List.range segments.length)) :
    rowsOf segments positions = exactRows segments positions := by
  have hpos : ∀ n ∈ segments.map SegmentRange.rowCount, 0 ≤ n := by
    intro n hn
    obtain ⟨s, hs, rfl⟩ := mem_map.1 hn
    exact h.nonneg s hs
  obtain ⟨l, hp, hs⟩ := hsub
  have heq : exactRows segments positions = (l.map (rowCountAt segments)).sum :=
    (hp.map _).sum_eq.symm
  have hl := hs.map (rowCountAt segments)
  rw [map_rowCountAt_range] at hl
  have hle := hl.sum_le_sum hpos
  have hge : 0 ≤ (l.map (rowCountAt segments)).sum :=
    sum_nonneg fun n hn ↦ hpos n (hl.subset hn)
  have hlt := h.sum_lt
  rw [rowsOf_eq_bmod, heq, Int.bmod_eq_of_le (by omega) (by omega)]

variable {plan : CompactionPlan}

omit [LinearOrder B] in
theorem WithinCap.closeRun {runRows : ℤ} {run : List ℕ}
    (h : WithinCap segments cap run runRows plan) :
    ∀ u ∈ (closeRun run runRows plan).units, u.rows = rowsOf segments u.members ∧ u.rows ≤ cap := by
  rw [Koldstore.Compaction.closeRun]
  split
  next hl =>
    intro u hu
    rcases mem_append.1 hu with hu | hu
    · exact h.units u hu
    · rw [mem_singleton.1 hu]
      exact ⟨h.rows, h.run hl⟩
  next => exact h.units

omit [LinearOrder B] in
theorem withinCap_nil (h : ∀ u ∈ plan.units, u.rows = rowsOf segments u.members ∧ u.rows ≤ cap) :
    WithinCap segments cap [] 0 plan :=
  ⟨h, rfl, fun hl ↦ absurd hl (by decide)⟩

omit [LinearOrder B] in
theorem withinCap_planLoop {target : ℤ} {todo : List (List ℕ)} {run : List ℕ} {runRows : ℤ}
    (h : WithinCap segments cap run runRows plan) :
    ∀ u ∈ (planLoop segments target cap todo run runRows plan).units,
      u.rows = rowsOf segments u.members ∧ u.rows ≤ cap := by
  induction todo generalizing run runRows plan with
  | nil => exact h.closeRun
  | cons c todo ih =>
    rw [planLoop]
    split_ifs with hl ha hfu
    · refine ih (withinCap_nil ?_)
      rw [addComponent]
      split_ifs with hc
      · exact h.closeRun
      · intro u hu
        rcases mem_append.1 hu with hu | hu
        · exact h.closeRun u hu
        · rw [mem_singleton.1 hu]
          exact ⟨rfl, not_lt.1 hc⟩
    · exact ih (withinCap_nil h.closeRun)
    · exact ih ⟨h.closeRun, rfl, fun ht ↦ absurd ht (by omega)⟩
    · refine ih ⟨h.units, ?_, fun _ ↦ ?_⟩
      · rw [rowsOf_append, h.rows]
      · exact (not_lt.1 hfu).trans (min_le_right _ _)

end CompactionPlan

/-! ### The planner -/

omit [LinearOrder B] in
theorem subperm_range {l : List ℕ} (hnd : l.Nodup) (hlt : ∀ i ∈ l, i < segments.length) :
    l.Subperm (List.range segments.length) :=
  hnd.subperm fun i hi ↦ mem_range.2 (hlt i hi)

theorem subperm_of_mem_overlapComponents {c : List ℕ} (hc : c ∈ overlapComponents segments) :
    c.Subperm (List.range segments.length) := by
  obtain ⟨r, -, -, rfl⟩ := mem_overlapComponents.1 hc
  exact filter_sublist.subperm

theorem subperm_members {maxRowsPerFile maxUnitRows : ℤ} {u : CompactionUnit}
    (hu : u ∈ (planCompactionUnits segments maxRowsPerFile maxUnitRows).all) :
    u.members.Subperm (List.range segments.length) := by
  have hnd := nodup_members segments maxRowsPerFile maxUnitRows
  obtain ⟨cs, hcs, hm, -⟩ := (sound_planCompactionUnits segments maxRowsPerFile maxUnitRows).whole u
    hu
  rw [flatMap_def] at hnd
  refine subperm_range ((nodup_flatten.1 hnd).1 _ (mem_map_of_mem hu)) fun i hi ↦ ?_
  rw [hm] at hi
  obtain ⟨c, hc, hi⟩ := mem_flatten.1 hi
  exact mem_range.1 ((subperm_of_mem_overlapComponents (hcs hc)).subset hi)

/-- **What the planner promises** for segments in the order of the leading key. Row counts are
added as `i64`, so that caps are about the rows themselves only where the counts fit one. -/
theorem planner_spec (hsorted : Sorted segments) (maxPairs : ℕ) (maxRowsPerFile maxUnitRows : ℤ) :
    ((overlapComponents segments).flatten.Perm (List.range segments.length) ∧
      ∀ c ∈ overlapComponents segments, ∀ i ∈ c, ∀ j,
        j ∈ c ↔ j < segments.length ∧ Relation.EqvGen (Meets segments) i j) ∧
    ((keysDisjoint segments maxPairs = some true →
        segments.Pairwise fun s t ↦ s.mayShareKeys t = false) ∧
      (keysDisjoint segments maxPairs = some false →
        ¬segments.Pairwise fun s t ↦ s.mayShareKeys t = false) ∧
      (keysDisjoint segments maxPairs = none →
        (∃ s ∈ segments, s.bounds = []) ∨ maxPairs < leadPairs segments)) ∧
    (((planCompactionUnits segments maxRowsPerFile maxUnitRows).units.flatMap
        CompactionUnit.members).Nodup ∧
      (CompactionPlan.CountsFit segments →
        (∀ u ∈ (planCompactionUnits segments maxRowsPerFile maxUnitRows).units,
          u.rows = CompactionPlan.exactRows segments u.members ∧ u.rows ≤ max maxUnitRows 1) ∧
        (planCompactionUnits segments maxRowsPerFile maxUnitRows).oversized =
          ((overlapComponents segments).filter fun c ↦ decide (1 < c.length) &&
            decide (max maxUnitRows 1 < CompactionPlan.exactRows segments c)).map fun c ↦
              ⟨c, CompactionPlan.exactRows segments c, true⟩)) := by
  refine ⟨⟨perm_flatten_overlapComponents segments,
    fun c hc i hi j ↦ mem_component_iff hsorted hc hi⟩, ⟨?_, ?_, ?_⟩, ?_, fun hfit ↦ ⟨?_, ?_⟩⟩
  · exact fun h ↦ (pairwise_of_keysDisjoint hsorted h).2
  · exact fun h ↦ disjointLoop_eq_false (List.Sublist.refl _) h
  · intro h
    have hnone := disjointLoop_eq_none (List.Sublist.refl _) h
    rwa [Nat.zero_add] at hnone
  · have hnd := nodup_members segments maxRowsPerFile maxUnitRows
    rw [CompactionPlan.all, flatMap_append] at hnd
    exact (nodup_append.1 hnd).1
  · intro u hu
    obtain ⟨hr, hle⟩ := CompactionPlan.withinCap_planLoop
      (CompactionPlan.withinCap_nil (by simp)) u hu
    exact ⟨hr.trans (hfit.rowsOf_eq (subperm_members (mem_append_left _ hu))), hle⟩
  · have hx : ∀ c ∈ overlapComponents segments,
        rowsOf segments c = CompactionPlan.exactRows segments c := fun c hc ↦
      hfit.rowsOf_eq (subperm_of_mem_overlapComponents hc)
    rw [planCompactionUnits, CompactionPlan.oversized_planLoop, nil_append]
    have hf : ((overlapComponents segments).filter fun c ↦
        decide (1 < c.length) && decide (max maxUnitRows 1 < rowsOf segments c)) =
          (overlapComponents segments).filter fun c ↦ decide (1 < c.length) &&
            decide (max maxUnitRows 1 < CompactionPlan.exactRows segments c) :=
      filter_congr fun c hc ↦ by rw [hx c hc]
    rw [hf]
    exact map_congr_left fun c hc ↦ by rw [hx c (mem_of_mem_filter hc)]

def threeSegments : List (SegmentRange ℕ) :=
  [⟨5, [(1, 4)], none⟩, ⟨5, [(3, 6)], none⟩, ⟨5, [(8, 9)], none⟩]

theorem planner_spec_three :
    Relation.EqvGen (Meets threeSegments) 0 1 ∧ ¬Relation.EqvGen (Meets threeSegments) 0 2 ∧
      (planCompactionUnits threeSegments 100 9).units = [] ∧
      (planCompactionUnits threeSegments 100 9).oversized = [⟨[0, 1], 10, true⟩] := by
  have hso : Sorted threeSegments := by simp [Sorted, threeSegments]
  have hfit : CompactionPlan.CountsFit threeSegments := ⟨by decide, by decide⟩
  have hmem : [0, 1] ∈ overlapComponents threeSegments := by decide +kernel
  obtain ⟨⟨-, hmt⟩, -, -, hrows⟩ := planner_spec hso 10 100 9
  refine ⟨((hmt _ hmem 0 (by decide) 1).1 (by decide)).2, fun h ↦ ?_, by decide +kernel, ?_⟩
  · exact absurd ((hmt _ hmem 0 (by decide) 2).2 ⟨by decide, h⟩) (by decide)
  · rw [(hrows hfit).2]
    decide +kernel

/-- Two segments without bounds share a key for `mayShareKeys` and are components of their own; two
overlapping segments of `2 ^ 62` rows add up to `-2 ^ 63` and pass the cap. -/
theorem planner_exceptions :
    (Sorted ([⟨1, [], none⟩, ⟨1, [], none⟩] : List (SegmentRange ℕ)) ∧
      SegmentRange.mayShareKeys (⟨1, [], none⟩ : SegmentRange ℕ) ⟨1, [], none⟩ = true ∧
      overlapComponents ([⟨1, [], none⟩, ⟨1, [], none⟩] : List (SegmentRange ℕ)) = [[0], [1]]) ∧
    Sorted ([⟨2 ^ 62, [(1, 4)], none⟩, ⟨2 ^ 62, [(3, 6)], none⟩] : List (SegmentRange ℕ)) ∧
      planCompactionUnits ([⟨2 ^ 62, [(1, 4)], none⟩, ⟨2 ^ 62, [(3, 6)], none⟩] :
        List (SegmentRange ℕ)) 100 1000 = ⟨[⟨[0, 1], -2 ^ 63, true⟩], 0, []⟩ := by
  refine ⟨⟨by simp [Sorted], by decide, by decide +kernel⟩, by simp [Sorted], by decide +kernel⟩

end Koldstore.Compaction
