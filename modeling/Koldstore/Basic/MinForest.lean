import Mathlib

/-!
# Disjoint sets with least representatives

Parent pointers over the natural numbers in which **no pointer goes up**.
-/

namespace Koldstore

open List Function

structure Forest where
  parent : ℕ → ℕ
  parent_le : ∀ i, parent i ≤ i

namespace Forest

def singletons : Forest := ⟨fun i ↦ i, fun _ ↦ le_rfl⟩

variable {p : ℕ}

theorem update_parent_le (f : Forest) {i : ℕ} (h : p ≤ i) (j : ℕ) : update f.parent i p j ≤ j := by
  rcases eq_or_ne j i with rfl | hne
  · rwa [update_self]
  · rw [update_of_ne hne]
    exact f.parent_le j

/-- Points `i` at `p`. -/
def point (f : Forest) (i p : ℕ) (h : p ≤ i) : Forest := ⟨update f.parent i p, f.update_parent_le h⟩

theorem grandparent_le (f : Forest) (i : ℕ) : f.parent (f.parent i) ≤ i :=
  (f.parent_le _).trans (f.parent_le i)

def findLoop : ℕ → Forest → ℕ → ℕ × Forest
  | 0, f, node => (node, f)
  | fuel + 1, f, node =>
    if f.parent node = node then (node, f)
    else findLoop fuel (f.point node (f.parent (f.parent node)) (f.grandparent_le node))
      (f.parent (f.parent node))

def find (f : Forest) (node : ℕ) : ℕ × Forest := findLoop node f node

def link (f : Forest) (a b : ℕ) : Forest :=
  if a ≠ b then f.point (max a b) (min a b) min_le_max else f

def union (f : Forest) (i j : ℕ) : Forest :=
  let (a, f) := f.find i
  let (b, f) := f.find j
  f.link a b

/-! ### Roots -/

def root (f : Forest) (i : ℕ) : ℕ := if h : f.parent i = i then i else
    have : f.parent i < i := lt_of_le_of_ne (f.parent_le i) h
    root f (f.parent i)
termination_by i

variable {f : Forest} {i j x y : ℕ}

theorem root_of_parent_eq (h : f.parent i = i) : f.root i = i := by
  rw [root, dif_pos h]

theorem root_parent (f : Forest) (i : ℕ) : f.root (f.parent i) = f.root i := by
  by_cases h : f.parent i = i
  · rw [h]
  · rw [root.eq_def f i, dif_neg h]

theorem parent_root (f : Forest) (i : ℕ) : f.parent (f.root i) = f.root i := by
  induction i using Nat.strong_induction_on with
  | _ i ih =>
    by_cases h : f.parent i = i
    · rw [root_of_parent_eq h, h]
    · rw [← root_parent]
      exact ih _ (lt_of_le_of_ne (f.parent_le i) h)

theorem root_le (f : Forest) (i : ℕ) : f.root i ≤ i := by
  induction i using Nat.strong_induction_on with
  | _ i ih =>
    by_cases h : f.parent i = i
    · rw [root_of_parent_eq h]
    · rw [← root_parent]
      exact (ih _ (lt_of_le_of_ne (f.parent_le i) h)).trans (f.parent_le i)

@[simp] theorem root_root (f : Forest) (i : ℕ) : f.root (f.root i) = f.root i :=
  root_of_parent_eq (f.parent_root i)

@[simp] theorem root_singletons (i : ℕ) : singletons.root i = i := root_of_parent_eq rfl

theorem root_point (h : p < i) (hi : f.parent i = i ∨ f.root p = f.root i) (x : ℕ) :
    (f.point i p h.le).root x = if f.root x = f.root i then f.root p else f.root x := by
  -- below `i` nothing changes, and a path from above `i` meets `i` or stays clear of it
  have hb : ∀ x < i, (f.point i p h.le).root x = f.root x := by
    intro x hx
    induction x using Nat.strong_induction_on with
    | _ x ih =>
      have hp : (f.point i p h.le).parent x = f.parent x := update_of_ne hx.ne _ _
      by_cases hrt : f.parent x = x
      · rw [root_of_parent_eq hrt, root_of_parent_eq (hp.trans hrt)]
      · rw [← root_parent _ x, hp, ← root_parent f x]
        have hlt : f.parent x < x := lt_of_le_of_ne (f.parent_le x) hrt
        exact ih _ hlt (hlt.trans hx)
  have hs : (f.point i p h.le).root i = f.root p := by
    have hp : (f.point i p h.le).parent i = p := update_self _ _ _
    rw [← root_parent, hp, hb p h]
  induction x using Nat.strong_induction_on with
  | _ x ih =>
    rcases eq_or_ne x i with rfl | hne
    · rw [if_pos rfl, hs]
    · have hp : (f.point i p h.le).parent x = f.parent x := update_of_ne hne _ _
      by_cases hrt : f.parent x = x
      · rw [root_of_parent_eq (hp.trans hrt), root_of_parent_eq hrt]
        split_ifs with heq
        · rcases hi with hi | hi
          · exact absurd (heq.trans (root_of_parent_eq hi)) hne
          · rw [hi, heq]
        · rfl
      · rw [← root_parent _ x, hp, ih _ (lt_of_le_of_ne (f.parent_le x) hrt), root_parent]

theorem root_point_of_root_eq (h : p < i) (hrt : f.root p = f.root i) (x : ℕ) :
    (f.point i p h.le).root x = f.root x := by
  rw [root_point h (.inr hrt)]
  split_ifs with heq
  · rw [hrt, heq]
  · rfl

theorem findLoop_spec {fuel node : ℕ} (h : node ≤ fuel) :
    (findLoop fuel f node).1 = f.root node ∧ ∀ x, (findLoop fuel f node).2.root x = f.root x := by
  induction fuel generalizing f node with
  | zero =>
    obtain rfl : node = 0 := Nat.le_zero.1 h
    exact ⟨(root_of_parent_eq (Nat.le_zero.1 (f.parent_le 0))).symm, fun _ ↦ rfl⟩
  | succ fuel ih =>
    rw [findLoop]
    split_ifs with hrt
    · exact ⟨(root_of_parent_eq hrt).symm, fun _ ↦ rfl⟩
    · have hlt : f.parent (f.parent node) < node :=
        (f.parent_le _).trans_lt (lt_of_le_of_ne (f.parent_le node) hrt)
      have hsm : f.root (f.parent (f.parent node)) = f.root node := by rw [root_parent, root_parent]
      have hu : f.parent (f.parent node) ≤ fuel := by omega
      obtain ⟨hf, hs⟩ := ih (f := f.point node _ (f.grandparent_le node)) hu
      have hp := root_point_of_root_eq hlt hsm
      exact ⟨hf.trans ((hp _).trans hsm), fun x ↦ (hs x).trans (hp x)⟩

@[simp] theorem find_fst (f : Forest) (i : ℕ) : (f.find i).1 = f.root i := (findLoop_spec le_rfl).1

@[simp] theorem root_find (f : Forest) (i x : ℕ) : (f.find i).2.root x = f.root x :=
  (findLoop_spec le_rfl).2 x

theorem root_link {a b : ℕ} (ha : f.root a = a) (hb : f.root b = b) (x : ℕ) :
    (f.link a b).root x = if f.root x = a ∨ f.root x = b then min a b else f.root x := by
  have hm : f.root (max a b) = max a b := by
    rcases max_choice a b with h | h <;> rw [h] <;> assumption
  have hmin : f.root (min a b) = min a b := by
    rcases min_choice a b with h | h <;> rw [h] <;> assumption
  rw [link]
  split_ifs with hne
  · have hlt : min a b < max a b := by omega
    rw [root_point hlt (.inl (hm ▸ parent_root f _)), hm, hmin]
    split_ifs <;> omega
  · have hlt : min a b < max a b := by omega
    rw [root_point hlt (.inl (hm ▸ parent_root f _)), hm, if_neg (by omega)]
  · omega
  · rfl

theorem root_union (f : Forest) (i j x : ℕ) :
    (f.union i j).root x = if f.root x = f.root i ∨ f.root x = f.root j then
      min (f.root i) (f.root j) else f.root x := by
  have hun : f.union i j = ((f.find i).2.find j).2.link (f.find i).1 ((f.find i).2.find j).1 := rfl
  rw [hun, root_link (by simp) (by simp)]
  simp

/-! ### What a sequence of unions joins -/

/-- The classes of the forest are those generated by the pairs of `r`. -/
def Joins (f : Forest) (r : ℕ → ℕ → Prop) : Prop :=
  ∀ x y, f.root x = f.root y ↔ Relation.EqvGen r x y

variable {r : ℕ → ℕ → Prop}

theorem joins_singletons (h : ∀ x y, ¬ r x y) : singletons.Joins r := by
  intro x y
  rw [root_singletons, root_singletons]
  refine ⟨fun hxy ↦ hxy ▸ .refl _, fun hxy ↦ ?_⟩
  induction hxy with
  | rel a b hab => exact absurd hab (h a b)
  | refl a => rfl
  | symm a b _ ih => exact ih.symm
  | trans a b c _ _ ihab ihbc => exact ihab.trans ihbc

theorem Joins.congr {r' : ℕ → ℕ → Prop} (h : f.Joins r) (hr : ∀ x y, r x y ↔ r' x y) :
    f.Joins r' := by
  obtain rfl : r = r' := funext₂ fun x y ↦ propext (hr x y)
  exact h

theorem Joins.union (h : f.Joins r) (i j : ℕ) :
    (f.union i j).Joins fun x y ↦ r x y ∨ x = i ∧ y = j := by
  have hm : ∀ {x y}, Relation.EqvGen r x y →
      Relation.EqvGen (fun x y ↦ r x y ∨ x = i ∧ y = j) x y :=
    fun hxy ↦ hxy.mono fun _ _ ↦ .inl
  have hpr : Relation.EqvGen (fun x y ↦ r x y ∨ x = i ∧ y = j) i j := .rel _ _ (.inr ⟨rfl, rfl⟩)
  -- a member of either old class is connected to `i`
  have hc : ∀ x, f.root x = f.root i ∨ f.root x = f.root j →
      Relation.EqvGen (fun x y ↦ r x y ∨ x = i ∧ y = j) x i := by
    rintro x (hx | hx)
    · exact hm ((h x i).1 hx)
    · exact (hm ((h x j).1 hx)).trans _ _ _ (hpr.symm _ _)
  intro x y
  constructor
  · intro hxy
    rw [root_union, root_union] at hxy
    split_ifs at hxy with hx hy hy
    · exact (hc x hx).trans _ _ _ ((hc y hy).symm _ _)
    · exact absurd hxy (by rcases min_choice (f.root i) (f.root j) with h | h <;> omega)
    · exact absurd hxy (by rcases min_choice (f.root i) (f.root j) with h | h <;> omega)
    · exact hm ((h x y).1 hxy)
  · intro hxy
    induction hxy with
    | rel a b hab =>
      rcases hab with hab | ⟨rfl, rfl⟩
      · rw [root_union, root_union, (h a b).2 (.rel _ _ hab)]
      · rw [root_union, root_union, if_pos (.inl rfl), if_pos (.inr rfl)]
    | refl a => rfl
    | symm a b _ ih => exact ih.symm
    | trans a b c _ _ ihab ihbc => exact ihab.trans ihbc

/-! ### Listing classes -/

def addMember (root index : ℕ) : List (ℕ × List ℕ) → List (ℕ × List ℕ)
  | [] => [(root, [index])]
  | (r, members) :: rest =>
    if r = root then (r, members ++ [index]) :: rest
    else (r, members) :: addMember root index rest

def collect : List ℕ → Forest → List (ℕ × List ℕ) → List (ℕ × List ℕ)
  | [], _, groups => groups
  | i :: is, f, groups => collect is (f.find i).2 (addMember (f.find i).1 i groups)

/-- The classes of the numbers below `n`, without their roots. -/
def classes (f : Forest) (n : ℕ) : List (List ℕ) := (collect (List.range n) f []).map Prod.snd

theorem addMember_of_notMem {groups : List (ℕ × List ℕ)} {r : ℕ} (h : ∀ g ∈ groups, g.1 ≠ r) :
    addMember r i groups = groups ++ [(r, [i])] := by
  induction groups with
  | nil => rfl
  | cons g groups ih =>
    rw [forall_mem_cons] at h
    rw [addMember, if_neg h.1, ih h.2, cons_append]

theorem addMember_map {roots : List ℕ} (hnd : roots.Nodup) {r : ℕ} (hr : r ∈ roots)
    (members : ℕ → List ℕ) :
    addMember r i (roots.map fun s ↦ (s, members s)) =
      roots.map fun s ↦ (s, if s = r then members s ++ [i] else members s) := by
  induction roots with
  | nil => simp at hr
  | cons s roots ih =>
    rw [nodup_cons] at hnd
    rw [map_cons, map_cons, addMember]
    split_ifs with hs
    · have hre : ∀ t ∈ roots, (t, members t) =
          (t, if t = r then members t ++ [i] else members t) := by
        intro t ht
        have hne : t ≠ r := by rintro rfl; exact hnd.1 (hs ▸ ht)
        rw [if_neg hne]
      rw [map_congr_left hre]
    · rw [ih hnd.2 ((mem_cons.1 hr).resolve_left (Ne.symm hs))]

/-- The classes of the elements below `n`, by ascending root. -/
def groupsBelow (f : Forest) (n : ℕ) : List (ℕ × List ℕ) :=
  ((List.range n).filter fun r ↦ f.root r = r).map fun r ↦
    (r, (List.range n).filter fun i ↦ f.root i = r)

theorem addMember_groupsBelow (f : Forest) (n : ℕ) :
    addMember (f.root n) n (f.groupsBelow n) = f.groupsBelow (n + 1) := by
  have hf : ∀ r, (List.range (n + 1)).filter (fun i ↦ f.root i = r) =
      if f.root n = r then (List.range n).filter (fun i ↦ f.root i = r) ++ [n]
      else (List.range n).filter fun i ↦ f.root i = r := by
    intro r
    rw [range_succ, filter_append]
    split_ifs with h <;> simp [h]
  rw [groupsBelow, groupsBelow]
  simp only [hf]
  rw [range_succ, filter_append]
  by_cases hrt : f.root n = n
  · -- a root starts a class of its own
    have hb : ∀ g ∈ ((List.range n).filter fun r ↦ f.root r = r).map (fun r ↦
        (r, (List.range n).filter fun i ↦ f.root i = r)), g.1 ≠ f.root n := by
      intro g hg
      obtain ⟨r, hr, rfl⟩ := mem_map.1 hg
      have hlt := mem_range.1 (mem_filter.1 hr).1
      rw [hrt]
      exact hlt.ne
    have he : (List.range n).filter (fun i ↦ f.root i = n) = [] := by
      refine filter_eq_nil_iff.2 fun i hi ↦ ?_
      have hlt := mem_range.1 hi
      have hle := f.root_le i
      simp only [decide_eq_true_eq]
      omega
    rw [addMember_of_notMem hb, map_append, hrt]
    have hs : [n].filter (fun r ↦ decide (f.root r = r)) = [n] := by simp [hrt]
    rw [hs, map_singleton, if_pos rfl, he, nil_append]
    congr 1
    refine map_congr_left fun r hr ↦ ?_
    have hlt := mem_range.1 (mem_filter.1 hr).1
    rw [if_neg (by omega)]
  · have hmem : f.root n ∈ (List.range n).filter fun r ↦ f.root r = r := by
      refine mem_filter.2 ⟨mem_range.2 ?_, by simp⟩
      exact lt_of_le_of_ne (f.root_le n) hrt
    have hs : [n].filter (fun r ↦ decide (f.root r = r)) = [] := by simp [hrt]
    rw [addMember_map (nodup_range.filter _) hmem, hs, append_nil]
    refine map_congr_left fun r _ ↦ ?_
    simp only [eq_comm]

theorem groupsBelow_congr {g : Forest} (h : ∀ x, g.root x = f.root x) (n : ℕ) :
    g.groupsBelow n = f.groupsBelow n := by
  simp only [groupsBelow, h]

theorem collect_range' (f : Forest) (start count : ℕ) :
    collect (List.range' start count) f (f.groupsBelow start) = f.groupsBelow (start + count) := by
  induction count generalizing start f with
  | zero => rfl
  | succ count ih =>
    rw [range'_succ, collect, find_fst, addMember_groupsBelow,
      ← groupsBelow_congr (root_find f start), ih, groupsBelow_congr (root_find f start)]
    congr 1
    omega

theorem classes_eq (f : Forest) (n : ℕ) :
    f.classes n = ((List.range n).filter fun r ↦ f.root r = r).map fun r ↦
      (List.range n).filter fun i ↦ f.root i = r := by
  have h := collect_range' f 0 n
  rw [← range_eq_range', Nat.zero_add] at h
  rw [classes, show ([] : List (ℕ × List ℕ)) = f.groupsBelow 0 from rfl, h, groupsBelow, map_map]
  rfl

end Forest

end Koldstore
