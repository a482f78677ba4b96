import Koldstore.Basic.MinForest

/-!
# Planning compaction

Compaction rewrites segments that may hold versions of the same keys into segments that do not.
-/

namespace Koldstore.Compaction

open List hiding beq_eq_decide

/-! ### Key boxes -/

structure SegmentRange (B : Type*) where
  rowCount : ℤ
  bounds : List (B × B)
  tuple : Option (B × B)
  deriving DecidableEq, Repr

variable {B : Type*} [LinearOrder B]

def intersects (p q : B × B) : Bool := decide (p.1 ≤ q.2) && decide (q.1 ≤ p.2)

theorem intersects_comm (p q : B × B) : intersects p q = intersects q p := Bool.and_comm _ _

theorem intersects_of_mem {p q : B × B} {b : B} (hp : p.1 ≤ b ∧ b ≤ p.2) (hq : q.1 ≤ b ∧ b ≤ q.2) :
    intersects p q = true := by
  simp [intersects, hp.1.trans hq.2, hq.1.trans hp.2]

namespace SegmentRange

def mayShareKeys (a b : SegmentRange B) : Bool := decide (a.bounds.length = b.bounds.length) &&
    (a.bounds.zip b.bounds).all (fun p ↦ intersects p.1 p.2) &&
    match a.tuple, b.tuple with
    | some p, some q => intersects p q
    | _, _ => true

def reaches (leadMin : B) (s : SegmentRange B) : Bool :=
  s.bounds.head?.any fun p ↦ decide (leadMin ≤ p.2)

structure Encloses (s : SegmentRange B) (cells : List B) (tuple : B) : Prop where
  bounds : List.Forall₂ (fun p c ↦ p.1 ≤ c ∧ c ≤ p.2) s.bounds cells
  tuple : ∀ p, s.tuple = some p → p.1 ≤ tuple ∧ tuple ≤ p.2

theorem all_zip_comm (l m : List (B × B)) :
    (l.zip m).all (fun p ↦ intersects p.1 p.2) = (m.zip l).all fun p ↦ intersects p.1 p.2 := by
  rw [← zip_swap m l, all_map]
  simp only [Function.comp_def, Prod.fst_swap, Prod.snd_swap, intersects_comm]

theorem mayShareKeys_comm (a b : SegmentRange B) : a.mayShareKeys b = b.mayShareKeys a := by
  have hl : decide (a.bounds.length = b.bounds.length) =
      decide (b.bounds.length = a.bounds.length) := by rw [decide_eq_decide, eq_comm]
  rw [mayShareKeys, mayShareKeys, all_zip_comm, hl]
  cases a.tuple <;> cases b.tuple <;> simp [intersects_comm]

theorem Encloses.mayShareKeys {a b : SegmentRange B} {cells : List B} {tuple : B}
    (ha : a.Encloses cells tuple) (hb : b.Encloses cells tuple) : a.mayShareKeys b = true := by
  have hlen : a.bounds.length = b.bounds.length :=
    ha.bounds.length_eq.trans hb.bounds.length_eq.symm
  have ho : ∀ {l m : List (B × B)} {cells : List B},
      List.Forall₂ (fun p c ↦ p.1 ≤ c ∧ c ≤ p.2) l cells →
      List.Forall₂ (fun p c ↦ p.1 ≤ c ∧ c ≤ p.2) m cells →
      (l.zip m).all (fun p ↦ intersects p.1 p.2) = true := by
    intro l m cells hl hm
    induction hl generalizing m with
    | nil => rfl
    | cons hp _ ih =>
      cases hm with
      | cons hq hm => simp [intersects_of_mem hp hq, ih hm]
  have ht : ∀ p q, a.tuple = some p → b.tuple = some q → intersects p q = true :=
    fun p q hp hq ↦ intersects_of_mem (ha.tuple p hp) (hb.tuple q hq)
  rw [SegmentRange.mayShareKeys, ho ha.bounds hb.bounds]
  cases hta : a.tuple with
  | none => simp [hlen]
  | some p =>
    cases htb : b.tuple with
    | none => simp [hlen]
    | some q => simp [hlen, ht p q hta htb]

theorem reaches_of_mayShareKeys {s t : SegmentRange B} {p : B × B} {leadMin : B}
    (hp : s.bounds.head? = some p) (hle : leadMin ≤ p.1) (hsh : s.mayShareKeys t = true) :
    t.reaches leadMin = true := by
  obtain ⟨bounds, hbs⟩ := head?_eq_some_iff.1 hp
  rw [mayShareKeys, hbs] at hsh
  cases htb : t.bounds with
  | nil => simp [htb] at hsh
  | cons q rest =>
    have hmt : p.1 ≤ q.2 := by
      simp only [htb, zip_cons_cons, all_cons, intersects, Bool.and_eq_true,
        decide_eq_true_eq] at hsh
      exact hsh.1.2.1.1
    simp [reaches, htb, hle.trans hmt]

theorem bounds_ne_nil_of_mayShareKeys {s t : SegmentRange B} (hsh : s.mayShareKeys t = true)
    (ht : t.bounds ≠ []) : s.bounds ≠ [] := by
  rw [mayShareKeys, Bool.and_eq_true, Bool.and_eq_true, decide_eq_true_eq] at hsh
  rw [← length_pos_iff] at ht ⊢
  exact hsh.1.1 ▸ ht

end SegmentRange

/-! ### The sweep -/

abbrev Entry (B : Type*) := ℕ × SegmentRange B

/-- The active segments that a segment starting at `leadMin` can still meet. -/
def retained (leadMin : B) (active : List (Entry B)) : List (Entry B) :=
  active.filter fun e ↦ e.2.reaches leadMin

def joinActive (index : ℕ) (s : SegmentRange B) : List (Entry B) → Forest → Forest
  | [], f => f
  | other :: rest, f =>
    joinActive index s rest (if s.mayShareKeys other.2 then f.union index other.1 else f)

/-- The loop of `overlapComponents`. -/
def joinLoop : ℕ → List (SegmentRange B) → List (Entry B) → Forest → Forest
  | _, [], _, f => f
  | index, s :: rest, active, f =>
    match s.bounds.head? with
    | none => joinLoop (index + 1) rest active f
    | some lead =>
      joinLoop (index + 1) rest (retained lead.1 active ++ [(index, s)])
        (joinActive index s (retained lead.1 active) f)

def overlapComponents (segments : List (SegmentRange B)) : List (List ℕ) :=
  (joinLoop 0 segments [] .singletons).classes segments.length

def examineActive (maxPairs : ℕ) (s : SegmentRange B) : List (Entry B) → ℕ → Except (Option Bool) ℕ
  | [], examined => .ok examined
  | other :: rest, examined =>
    if maxPairs < examined + 1 then .error none
    else if s.mayShareKeys other.2 then .error (some false)
    else examineActive maxPairs s rest (examined + 1)

/-- The loop of `keysDisjoint`. -/
def disjointLoop (maxPairs : ℕ) : ℕ → List (SegmentRange B) → List (Entry B) → ℕ → Option Bool
  | _, [], _, _ => some true
  | index, s :: rest, active, examined =>
    match s.bounds.head? with
    | none => none
    | some lead =>
      match examineActive maxPairs s (retained lead.1 active) examined with
      | .error result => result
      | .ok examined =>
        disjointLoop maxPairs (index + 1) rest (retained lead.1 active ++ [(index, s)]) examined

/-- `none` if it would take too many comparisons. -/
def keysDisjoint (segments : List (SegmentRange B)) (maxPairs : ℕ) : Option Bool :=
  disjointLoop maxPairs 0 segments [] 0

/-! ### What has left the active list cannot meet what follows -/

def Sorted (segments : List (SegmentRange B)) : Prop :=
  segments.Pairwise fun s t ↦
    ∀ p, s.bounds.head? = some p → ∀ q, t.bounds.head? = some q → p.1 ≤ q.1

structure Swept (done active : List (Entry B)) (rest : List (SegmentRange B)) : Prop where
  active_subset : active ⊆ done
  mem_active : ∀ e ∈ done, ∀ s ∈ rest, s.mayShareKeys e.2 = true → e ∈ active

section Sweep

variable {done active : List (Entry B)} {rest segments : List (SegmentRange B)}
  {s : SegmentRange B} {lead : B × B} {index examined maxPairs : ℕ}

theorem swept_nil (segments : List (SegmentRange B)) : Swept [] [] segments :=
  ⟨List.Subset.refl _, fun e he ↦ by simp at he⟩

theorem Swept.step (h : Swept done active (s :: rest)) (hso : Sorted (s :: rest))
    (hdn : ∀ e ∈ done, e.2.bounds ≠ []) (hl : s.bounds.head? = some lead) (index : ℕ) :
    Swept (done ++ [(index, s)]) (retained lead.1 active ++ [(index, s)]) rest := by
  constructor
  · intro e he
    rcases mem_append.1 he with he | he
    · exact mem_append_left _ (h.active_subset (mem_of_mem_filter he))
    · exact mem_append_right _ he
  · intro e he t ht hsh
    rcases mem_append.1 he with he | he
    · obtain ⟨p, hp⟩ : ∃ p, t.bounds.head? = some p := ⟨_, head?_eq_some_head
          (SegmentRange.bounds_ne_nil_of_mayShareKeys hsh (hdn e he))⟩
      have hle : lead.1 ≤ p.1 := (pairwise_cons.1 hso).1 t ht lead hl p hp
      refine mem_append_left _ (mem_filter.2 ⟨?_, ?_⟩)
      · exact h.mem_active e he t (mem_cons_of_mem _ ht) hsh
      · exact SegmentRange.reaches_of_mayShareKeys hp hle hsh
    · exact mem_append_right _ he

theorem Swept.skip (h : Swept done active (s :: rest)) : Swept done active rest :=
  ⟨h.active_subset, fun e he t ht ↦ h.mem_active e he t (mem_cons_of_mem _ ht)⟩

omit [LinearOrder B] in
theorem bounds_ne_nil_concat (hdn : ∀ e ∈ done, e.2.bounds ≠ [])
    (hle : s.bounds.head? = some lead) (index : ℕ) :
    ∀ e ∈ done ++ [(index, s)], e.2.bounds ≠ [] := by
  intro e he
  rcases mem_append.1 he with he | he
  · exact hdn e he
  · rw [mem_singleton.1 he]
    rintro (hn : s.bounds = [])
    simp [hn] at hle

theorem Swept.mem_retained (h : Swept done active (s :: rest)) (hle : s.bounds.head? = some lead)
    {e : Entry B} (hsh : s.mayShareKeys e.2 = true) : e ∈ retained lead.1 active ↔ e ∈ done := by
  refine ⟨fun he ↦ h.active_subset (mem_of_mem_filter he), fun he ↦ ?_⟩
  refine mem_filter.2 ⟨h.mem_active e he s mem_cons_self hsh, ?_⟩
  exact SegmentRange.reaches_of_mayShareKeys hle le_rfl hsh

theorem examineActive_spec {entries : List (Entry B)} :
    (∀ examined', examineActive maxPairs s entries examined = .ok examined' →
        ∀ e ∈ entries, s.mayShareKeys e.2 = false) ∧
      examineActive maxPairs s entries examined ≠ .error (some true) := by
  induction entries generalizing examined with
  | nil => simp [examineActive]
  | cons other entries ih =>
    rw [examineActive]
    split_ifs with hc hsh
    · simp
    · simp
    · refine ⟨fun examined' h ↦ ?_, ih.2⟩
      rw [forall_mem_cons]
      exact ⟨by simpa using hsh, ih.1 examined' h⟩

theorem pairwise_of_disjointLoop (hso : Sorted rest) (hdn : ∀ e ∈ done, e.2.bounds ≠ [])
    (hs : Swept done active rest)
    (h : disjointLoop maxPairs index rest active examined = some true) :
    (∀ t ∈ rest, t.bounds ≠ []) ∧ rest.Pairwise (fun s t ↦ s.mayShareKeys t = false) ∧
      ∀ t ∈ rest, ∀ e ∈ done, t.mayShareKeys e.2 = false := by
  induction rest generalizing done active index examined with
  | nil => simp
  | cons s rest ih =>
    rw [disjointLoop] at h
    split at h
    · simp at h
    next lead hle =>
      split at h
      next result hx => exact absurd (h ▸ hx) examineActive_spec.2
      next examined' hx =>
        obtain ⟨hbs, hpw, hl⟩ := ih (pairwise_cons.1 hso).2
          (bounds_ne_nil_concat hdn hle index) (hs.step hso hdn hle index) h
        have hf : ∀ e ∈ done, s.mayShareKeys e.2 = false := by
          intro e he
          by_contra hsh
          rw [Bool.not_eq_false] at hsh
          have ha := (hs.mem_retained hle hsh).2 he
          simp [examineActive_spec.1 examined' hx e ha] at hsh
        refine ⟨forall_mem_cons.2 ⟨fun hn ↦ by simp [hn] at hle, hbs⟩,
          pairwise_cons.2 ⟨fun t ht ↦ ?_, hpw⟩, ?_⟩
        · rw [SegmentRange.mayShareKeys_comm]
          exact hl t ht (index, s) (by simp)
        · rw [forall_mem_cons]
          exact ⟨hf, fun t ht e he ↦ hl t ht e (mem_append_left _ he)⟩

/-- **Disjointness is never claimed of segments that meet.** -/
theorem pairwise_of_keysDisjoint (hso : Sorted segments)
    (h : keysDisjoint segments maxPairs = some true) :
    (∀ s ∈ segments, s.bounds ≠ []) ∧ segments.Pairwise fun s t ↦ s.mayShareKeys t = false := by
  obtain ⟨hbs, hpw, -⟩ := pairwise_of_disjointLoop hso (by simp) (swept_nil segments) h
  exact ⟨hbs, hpw⟩

/-! ### Components -/

def Sharing (done : List (Entry B)) (x y : ℕ) : Prop :=
  ∃ s t, (x, s) ∈ done ∧ (y, t) ∈ done ∧ y < x ∧ s.mayShareKeys t = true

theorem sharing_concat (hi : ∀ e ∈ done, e.1 < index) {x y : ℕ} :
    Sharing (done ++ [(index, s)]) x y ↔
      Sharing done x y ∨ x = index ∧ ∃ t, (y, t) ∈ done ∧ s.mayShareKeys t = true := by
  simp only [Sharing, mem_append, mem_singleton, Prod.mk.injEq]
  constructor
  · rintro ⟨a, b, ha | ⟨rfl, rfl⟩, hb | ⟨rfl, rfl⟩, hlt, hsh⟩
    · exact .inl ⟨a, b, ha, hb, hlt, hsh⟩
    · exact absurd (hi _ ha) hlt.not_gt
    · exact .inr ⟨rfl, b, hb, hsh⟩
    · exact absurd hlt (lt_irrefl _)
  · rintro (⟨a, b, ha, hb, hlt, hsh⟩ | ⟨rfl, b, hb, hsh⟩)
    · exact ⟨a, b, .inl ha, .inl hb, hlt, hsh⟩
    · exact ⟨s, b, .inr ⟨rfl, rfl⟩, .inl hb, hi _ hb, hsh⟩

theorem joins_joinActive {f : Forest} {r : ℕ → ℕ → Prop} (h : f.Joins r)
    (entries : List (Entry B)) : (joinActive index s entries f).Joins fun x y ↦
      r x y ∨ x = index ∧ ∃ t, (y, t) ∈ entries ∧ s.mayShareKeys t = true := by
  induction entries generalizing f r with
  | nil => exact h.congr fun x y ↦ by simp
  | cons other entries ih =>
    obtain ⟨position, t⟩ := other
    rw [joinActive]
    split_ifs with hsh
    · refine (ih (h.union index position)).congr fun x y ↦ ?_
      simp only [mem_cons, Prod.mk.injEq]
      constructor
      · rintro ((hr | ⟨rfl, rfl⟩) | ⟨rfl, u, hu, hsh'⟩)
        · exact .inl hr
        · exact .inr ⟨rfl, t, .inl ⟨rfl, rfl⟩, hsh⟩
        · exact .inr ⟨rfl, u, .inr hu, hsh'⟩
      · rintro (hr | ⟨rfl, u, ⟨rfl, rfl⟩ | hu, hsh'⟩)
        · exact .inl (.inl hr)
        · exact .inl (.inr ⟨rfl, rfl⟩)
        · exact .inr ⟨rfl, u, hu, hsh'⟩
    · refine (ih h).congr fun x y ↦ ?_
      simp only [mem_cons, Prod.mk.injEq]
      constructor
      · rintro (hr | ⟨rfl, u, hu, hsh'⟩)
        · exact .inl hr
        · exact .inr ⟨rfl, u, .inr hu, hsh'⟩
      · rintro (hr | ⟨rfl, u, ⟨rfl, rfl⟩ | hu, hsh'⟩)
        · exact .inl hr
        · exact absurd hsh' hsh
        · exact .inr ⟨rfl, u, hu, hsh'⟩

def entriesFrom (index : ℕ) (segments : List (SegmentRange B)) : List (Entry B) :=
  (segments.zipIdx index).map Prod.swap

omit [LinearOrder B] in
theorem entriesFrom_cons (index : ℕ) (s : SegmentRange B) (rest : List (SegmentRange B)) :
    entriesFrom index (s :: rest) = (index, s) :: entriesFrom (index + 1) rest := by
  simp [entriesFrom]

omit [LinearOrder B] in
theorem mem_entriesFrom_zero {i : ℕ} : (i, s) ∈ entriesFrom 0 segments ↔ segments[i]? = some s := by
  rw [entriesFrom, mem_map]
  constructor
  · rintro ⟨⟨t, j⟩, hmem, heq⟩
    obtain ⟨rfl, rfl⟩ : j = i ∧ t = s := by simpa using heq
    exact (mem_zipIdx_iff_getElem?).1 hmem
  · intro h
    exact ⟨(s, i), (mem_zipIdx_iff_getElem?).2 h, rfl⟩

def bounded (entries : List (Entry B)) : List (Entry B) :=
  entries.filter fun e ↦ !e.2.bounds.isEmpty

theorem joins_joinLoop {f : Forest} (hso : Sorted rest) (hdn : ∀ e ∈ done, e.2.bounds ≠ [])
    (hs : Swept done active rest) (hi : ∀ e ∈ done, e.1 < index) (h : f.Joins (Sharing done)) :
    (joinLoop index rest active f).Joins (Sharing (done ++ bounded (entriesFrom index rest))) := by
  induction rest generalizing done active index f with
  | nil => simpa [joinLoop, entriesFrom, bounded] using h
  | cons s rest ih =>
    rw [joinLoop, entriesFrom_cons]
    cases hle : s.bounds.head? with
    | none =>
      have hsk : bounded ((index, s) :: entriesFrom (index + 1) rest) =
          bounded (entriesFrom (index + 1) rest) :=
        filter_cons_of_neg (by simp [head?_eq_none_iff.1 hle])
      rw [hsk]
      exact ih (pairwise_cons.1 hso).2 hdn hs.skip
        (fun e he ↦ (hi e he).trans (Nat.lt_succ_self _)) h
    | some lead =>
      have htk : bounded ((index, s) :: entriesFrom (index + 1) rest) =
          (index, s) :: bounded (entriesFrom (index + 1) rest) :=
        filter_cons_of_pos
          (by obtain ⟨l, hl⟩ := head?_eq_some_iff.1 hle; simp [hl])
      have hi' : ∀ e ∈ done ++ [(index, s)], e.1 < index + 1 := by
        intro e he
        rcases mem_append.1 he with he | he
        · exact (hi e he).trans (Nat.lt_succ_self _)
        · rw [mem_singleton.1 he]
          exact Nat.lt_succ_self _
      have hj : (joinActive index s (retained lead.1 active) f).Joins
          (Sharing (done ++ [(index, s)])) := by
        refine (joins_joinActive h _).congr fun x y ↦ ?_
        rw [sharing_concat hi]
        refine or_congr_right (and_congr_right fun _ ↦ exists_congr fun t ↦ ?_)
        exact and_congr_left fun hsh ↦ hs.mem_retained hle hsh
      rw [htk, append_cons]
      exact ih (pairwise_cons.1 hso).2 (bounds_ne_nil_concat hdn hle index)
        (hs.step hso hdn hle index) hi' hj

theorem joins_bounded (hso : Sorted segments) :
    (joinLoop 0 segments [] .singletons).Joins (Sharing (bounded (entriesFrom 0 segments))) := by
  have hn : Forest.singletons.Joins (Sharing ([] : List (Entry B))) :=
    Forest.joins_singletons fun x y ↦ by simp [Sharing]
  simpa using joins_joinLoop hso (by simp) (swept_nil segments) (by simp) hn

theorem joins_overlap (hso : Sorted segments) (hbs : ∀ s ∈ segments, s.bounds ≠ []) :
    (joinLoop 0 segments [] .singletons).Joins (Sharing (entriesFrom 0 segments)) := by
  have ha : bounded (entriesFrom 0 segments) = entriesFrom 0 segments := by
    refine filter_eq_self.2 fun e he ↦ ?_
    have hmem : e.2 ∈ segments := mem_of_getElem? (mem_entriesFrom_zero.1 he)
    simp [hbs e.2 hmem]
  exact ha ▸ joins_bounded hso

theorem mem_overlapComponents {component : List ℕ} :
    component ∈ overlapComponents segments ↔ ∃ r < segments.length,
      (joinLoop 0 segments [] .singletons).root r = r ∧
        component = (List.range segments.length).filter fun i ↦
          (joinLoop 0 segments [] .singletons).root i = r := by
  rw [overlapComponents, Forest.classes_eq, mem_map]
  simp [and_assoc, eq_comm]

theorem eq_of_mayShareKeys (hso : Sorted segments) (hbs : ∀ s ∈ segments, s.bounds ≠ [])
    {c d : List ℕ} (hc : c ∈ overlapComponents segments) (hd : d ∈ overlapComponents segments)
    {i j : ℕ} (hi : i ∈ c) (hj : j ∈ d) {s t : SegmentRange B} (hs : segments[i]? = some s)
    (ht : segments[j]? = some t) (hsh : s.mayShareKeys t = true) : c = d := by
  obtain ⟨a, -, -, rfl⟩ := mem_overlapComponents.1 hc
  obtain ⟨b, -, -, rfl⟩ := mem_overlapComponents.1 hd
  simp only [mem_filter, decide_eq_true_eq] at hi hj
  have ho : Relation.EqvGen (Sharing (entriesFrom 0 segments)) i j := by
    have hs' := mem_entriesFrom_zero.2 hs
    have ht' := mem_entriesFrom_zero.2 ht
    rcases lt_trichotomy i j with hlt | rfl | hlt
    · rw [SegmentRange.mayShareKeys_comm] at hsh
      exact .symm _ _ (.rel _ _ ⟨t, s, ht', hs', hlt, hsh⟩)
    · exact .refl _
    · exact .rel _ _ ⟨s, t, hs', ht', hlt, hsh⟩
  have hrt := (joins_overlap hso hbs i j).2 ho
  rw [← hi.2, ← hj.2, hrt]

theorem perm_flatten_overlapComponents (segments : List (SegmentRange B)) :
    (overlapComponents segments).flatten.Perm (List.range segments.length) := by
  generalize hf : joinLoop 0 segments [] .singletons = f
  have hnd : (overlapComponents segments).flatten.Nodup := by
    rw [nodup_flatten]
    constructor
    · intro c hc
      obtain ⟨r, -, -, rfl⟩ := mem_overlapComponents.1 hc
      exact nodup_range.filter _
    · rw [overlapComponents, Forest.classes_eq, pairwise_map]
      refine (nodup_range.filter _).imp fun {a b} hne i hia hib ↦ hne ?_
      simp only [mem_filter, decide_eq_true_eq] at hia hib
      exact hia.2.symm.trans hib.2
  refine (perm_ext_iff_of_nodup hnd nodup_range).2 fun i ↦ ?_
  rw [mem_flatten, mem_range]
  constructor
  · rintro ⟨c, hc, hi⟩
    obtain ⟨r, -, -, rfl⟩ := mem_overlapComponents.1 hc
    exact mem_range.1 (mem_of_mem_filter hi)
  · intro hi
    refine ⟨_, mem_overlapComponents.2 ⟨f.root i, (f.root_le i).trans_lt hi, ?_, rfl⟩, ?_⟩
    · rw [hf, Forest.root_root]
    · simp [hi, hf]

theorem length_of_pairwise (hso : Sorted segments) (hbs : ∀ s ∈ segments, s.bounds ≠ [])
    (hpw : segments.Pairwise fun s t ↦ s.mayShareKeys t = false) {component : List ℕ}
    (h : component ∈ overlapComponents segments) : component.length = 1 := by
  have hnone : ∀ x y, ¬ Sharing (entriesFrom 0 segments) x y := by
    rintro x y ⟨s, t, hs, ht, hlt, hsh⟩
    rw [mem_entriesFrom_zero, List.getElem?_eq_some_iff] at hs ht
    obtain ⟨hx, rfl⟩ := hs
    obtain ⟨hy, rfl⟩ := ht
    rw [SegmentRange.mayShareKeys_comm] at hsh
    simp [pairwise_iff_getElem.1 hpw y x hy hx hlt] at hsh
  have ha : ∀ x y, (joinLoop 0 segments [] .singletons).root x =
      (joinLoop 0 segments [] .singletons).root y → x = y := by
    intro x y hxy
    have hg := Forest.joins_singletons hnone
    rw [joins_overlap hso hbs x y, ← hg x y] at hxy
    simpa using hxy
  obtain ⟨r, hr, hrt, rfl⟩ := mem_overlapComponents.1 h
  have heq : (List.range segments.length).filter (fun i ↦
      (joinLoop 0 segments [] .singletons).root i = r) =
        (List.range segments.length).filter fun i ↦ i == r := by
    refine filter_congr fun i _ ↦ ?_
    rw [beq_eq_decide, decide_eq_decide]
    exact ⟨fun hi ↦ ha i r (hi.trans hrt.symm), fun hi ↦ hi ▸ hrt⟩
  rw [heq, ← count_eq_length_filter]
  exact count_eq_one_of_mem nodup_range (mem_range.2 hr)

end Sweep

/-! ### Units -/

structure CompactionUnit where
  members : List ℕ
  rows : ℤ
  overlapping : Bool
  deriving DecidableEq, Repr

structure CompactionPlan where
  units : List CompactionUnit
  skippedOverCap : ℕ
  oversized : List CompactionUnit
  deriving DecidableEq, Repr

def i64Max : ℤ := 2 ^ 63 - 1

/-- The sum of two `i64`, which wraps. -/
def addI64 (a b : ℤ) : ℤ := (a + b).bmod (2 ^ 64)

def closeRun (run : List ℕ) (runRows : ℤ) (plan : CompactionPlan) : CompactionPlan :=
  if 2 ≤ run.length then { plan with units := plan.units ++ [⟨run, runRows, false⟩] } else plan

def rowCountAt (segments : List (SegmentRange B)) (i : ℕ) : ℤ :=
  (segments[i]?.map SegmentRange.rowCount).getD 0

def rowsOf (segments : List (SegmentRange B)) (positions : List ℕ) : ℤ :=
  (positions.map (rowCountAt segments)).foldl addI64 0

def addComponent (cap : ℤ) (component : List ℕ) (rows : ℤ) (plan : CompactionPlan) :
    CompactionPlan :=
  if cap < rows then
    { plan with
      skippedOverCap := plan.skippedOverCap + 1
      oversized := plan.oversized ++ [⟨component, rows, true⟩] }
  else { plan with units := plan.units ++ [⟨component, rows, true⟩] }

/-- The loop of `planCompactionUnits`. -/
def planLoop (segments : List (SegmentRange B)) (target cap : ℤ) :
    List (List ℕ) → List ℕ → ℤ → CompactionPlan → CompactionPlan
  | [], run, runRows, plan => closeRun run runRows plan
  | component :: rest, run, runRows, plan =>
    let rows := rowsOf segments component
    if 1 < component.length then
      planLoop segments target cap rest [] 0
        (addComponent cap component rows (closeRun run runRows plan))
    else if target < min (2 * rows) i64Max then
      planLoop segments target cap rest [] 0 (closeRun run runRows plan)
    else if min target cap < addI64 runRows rows then
      planLoop segments target cap rest component rows (closeRun run runRows plan)
    else
      planLoop segments target cap rest (run ++ component) (addI64 runRows rows) plan

def planCompactionUnits (segments : List (SegmentRange B)) (maxRowsPerFile maxUnitRows : ℤ) :
    CompactionPlan :=
  planLoop segments (max maxRowsPerFile 1) (max maxUnitRows 1) (overlapComponents segments) [] 0
    ⟨[], 0, []⟩

namespace CompactionPlan

def all (plan : CompactionPlan) : List CompactionUnit := plan.units ++ plan.oversized

def Whole (components : List (List ℕ)) (unit : CompactionUnit) : Prop :=
  ∃ cs ⊆ components, unit.members = cs.flatten ∧
    if unit.overlapping then ∃ c, cs = [c] ∧ 1 < c.length else ∀ c ∈ cs, c.length ≤ 1

structure Sound (components : List (List ℕ)) (rest : List ℕ) (plan : CompactionPlan) : Prop where
  whole : ∀ u ∈ plan.all, Whole components u
  subperm : (plan.all.flatMap CompactionUnit.members ++ rest).Subperm components.flatten

def LoneRun (components : List (List ℕ)) (run : List ℕ) : Prop :=
  ∃ cs ⊆ components, run = cs.flatten ∧ ∀ c ∈ cs, c.length ≤ 1

variable {components : List (List ℕ)} {run rest c : List ℕ} {plan plan' : CompactionPlan}
  {unit : CompactionUnit} {runRows rows target cap : ℤ} {segments : List (SegmentRange B)}

theorem Sound.take (h : Sound components rest plan) (c : List ℕ) :
    Sound (components ++ [c]) (rest ++ c) plan := by
  refine ⟨fun u hu ↦ ?_, ?_⟩
  · obtain ⟨cs, hcs, hu⟩ := h.whole u hu
    exact ⟨cs, subset_append_of_subset_left _ hcs, hu⟩
  · rw [flatten_append, flatten_singleton, ← List.append_assoc]
    exact (subperm_append_right c).2 h.subperm

theorem Sound.drop (h : Sound components rest plan) : Sound components [] plan := by
  refine ⟨h.whole, ?_⟩
  rw [append_nil]
  exact (sublist_append_left _ _).subperm.trans h.subperm

theorem Sound.addUnit (h : Sound components (rest ++ unit.members) plan)
    (hun : Whole components unit) (ha : plan'.all.Perm (unit :: plan.all)) :
    Sound components rest plan' := by
  refine ⟨fun u hu ↦ ?_, ?_⟩
  · rcases mem_cons.1 (ha.mem_iff.1 hu) with rfl | hu
    · exact hun
    · exact h.whole u hu
  · refine (List.Perm.subperm_right ?_).1 h.subperm
    have hms := ha.flatMap_right CompactionUnit.members
    rw [flatMap_cons] at hms
    refine List.Perm.trans ?_ (hms.symm.append_right rest)
    rw [← List.append_assoc, List.append_assoc unit.members]
    exact perm_append_comm

theorem Sound.closeRun (h : Sound components run plan) (hr : LoneRun components run) :
    Sound components [] (closeRun run runRows plan) := by
  rw [Compaction.closeRun]
  split_ifs
  · obtain ⟨cs, hcs, hf, hl⟩ := hr
    have hun : Whole components ⟨run, runRows, false⟩ := ⟨cs, hcs, hf, by simpa using hl⟩
    have hre : Sound components ([] ++ (⟨run, runRows, false⟩ : CompactionUnit).members) plan := by
      simpa using h
    refine hre.addUnit hun ?_
    simp only [all, List.append_assoc, singleton_append]
    exact perm_middle
  · exact h.drop

theorem Sound.addComponent (h : Sound components [] plan) (hc : 1 < c.length) :
    Sound (components ++ [c]) [] (addComponent cap c rows plan) := by
  have hun : Whole (components ++ [c]) ⟨c, rows, true⟩ := ⟨[c], by simp, by simp, by simpa using hc⟩
  refine Sound.addUnit (h.take c) hun ?_
  rw [Compaction.addComponent]
  split_ifs
  · simp only [all, ← List.append_assoc]
    exact perm_append_singleton _ _
  · simp only [all, List.append_assoc, singleton_append]
    exact perm_middle

theorem LoneRun.nil (components : List (List ℕ)) : LoneRun components [] :=
  ⟨[], nil_subset _, rfl, by simp⟩

theorem LoneRun.take (h : LoneRun components run) (hc : c.length ≤ 1) :
    LoneRun (components ++ [c]) (run ++ c) := by
  obtain ⟨cs, hcs, rfl, hl⟩ := h
  refine ⟨cs ++ [c], ?_, by simp, ?_⟩
  · exact append_subset.2
      ⟨subset_append_of_subset_left _ hcs, subset_append_right _ _⟩
  · intro d hd
    rcases mem_append.1 hd with hd | hd
    · exact hl d hd
    · rwa [mem_singleton.1 hd]

omit [LinearOrder B] in
theorem sound_planLoop {todo : List (List ℕ)} (h : Sound components run plan)
    (hr : LoneRun components run) :
    Sound (components ++ todo) [] (planLoop segments target cap todo run runRows plan) := by
  induction todo generalizing components run runRows plan with
  | nil => simpa [planLoop] using h.closeRun hr
  | cons c todo ih =>
    have hcl : Sound components [] (closeRun run runRows plan) := h.closeRun hr
    rw [append_cons, planLoop]
    split_ifs with hl ha hfu
    · exact ih (hcl.addComponent hl) (LoneRun.nil _)
    · exact ih (hcl.take c).drop (LoneRun.nil _)
    · exact ih (hcl.take c) ((LoneRun.nil _).take (not_lt.1 hl))
    · exact ih (h.take c) (hr.take (not_lt.1 hl))

end CompactionPlan

section Units

variable {segments : List (SegmentRange B)} {maxRowsPerFile maxUnitRows : ℤ} {unit : CompactionUnit}

theorem sound_planCompactionUnits (segments : List (SegmentRange B))
    (maxRowsPerFile maxUnitRows : ℤ) :
    CompactionPlan.Sound (overlapComponents segments) []
      (planCompactionUnits segments maxRowsPerFile maxUnitRows) := by
  have hin : CompactionPlan.Sound [] [] ⟨[], 0, []⟩ :=
    ⟨by simp [CompactionPlan.all], by simp [CompactionPlan.all]⟩
  exact CompactionPlan.sound_planLoop hin (CompactionPlan.LoneRun.nil _)

theorem nodup_members (segments : List (SegmentRange B)) (maxRowsPerFile maxUnitRows : ℤ) :
    ((planCompactionUnits segments maxRowsPerFile maxUnitRows).all.flatMap
      CompactionUnit.members).Nodup := by
  have hs := (sound_planCompactionUnits segments maxRowsPerFile maxUnitRows).subperm
  rw [append_nil] at hs
  obtain ⟨l, hp, hu⟩ := hs
  have hnd := (perm_flatten_overlapComponents segments).nodup_iff.2 nodup_range
  exact hp.nodup_iff.1 (hnd.sublist hu)

/-- **A unit is closed**: a segment that meets one of its members is a member. -/
theorem mem_members_of_mayShareKeys (hso : Sorted segments) (hbs : ∀ s ∈ segments, s.bounds ≠ [])
    (hun : unit ∈ (planCompactionUnits segments maxRowsPerFile maxUnitRows).all) {i j : ℕ}
    (hi : i ∈ unit.members) {s t : SegmentRange B} (hs : segments[i]? = some s)
    (ht : segments[j]? = some t) (hsh : s.mayShareKeys t = true) : j ∈ unit.members := by
  obtain ⟨cs, hcs, hms, -⟩ :=
    (sound_planCompactionUnits segments maxRowsPerFile maxUnitRows).whole unit hun
  rw [hms] at hi ⊢
  obtain ⟨c, hc, hic⟩ := mem_flatten.1 hi
  have hj : j ∈ (overlapComponents segments).flatten := by
    rw [(perm_flatten_overlapComponents segments).mem_iff, mem_range]
    exact (List.getElem?_eq_some_iff.1 ht).1
  obtain ⟨d, hd, hjd⟩ := mem_flatten.1 hj
  obtain rfl := eq_of_mayShareKeys hso hbs (hcs hc) hd hic hjd hs ht hsh
  exact mem_flatten.2 ⟨c, hc, hjd⟩

theorem not_overlapping_of_pairwise (hso : Sorted segments) (hbs : ∀ s ∈ segments, s.bounds ≠ [])
    (hpw : segments.Pairwise fun s t ↦ s.mayShareKeys t = false)
    (hun : unit ∈ (planCompactionUnits segments maxRowsPerFile maxUnitRows).all) :
    unit.overlapping = false := by
  obtain ⟨cs, hcs, -, hkd⟩ :=
    (sound_planCompactionUnits segments maxRowsPerFile maxUnitRows).whole unit hun
  by_contra hoverlapping
  rw [Bool.not_eq_false] at hoverlapping
  rw [if_pos hoverlapping] at hkd
  obtain ⟨c, rfl, hl⟩ := hkd
  have ho := length_of_pairwise hso hbs hpw (hcs mem_cons_self)
  omega

end Units

end Koldstore.Compaction
