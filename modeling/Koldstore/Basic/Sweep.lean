import Mathlib

/-!
# Sweeping over intervals

Intervals sorted by descending end are put into groups in one pass.
-/

namespace Koldstore.Sweep

open List

variable {S α : Type*} [LinearOrder α] (lo hi : S → α)

def sweep : List S → List S → Option α → List (List S)
  | [], current, _ => if current.isEmpty then [] else [current]
  | s :: rest, current, bound =>
    if bound.any fun b ↦ decide (hi s < b) then current :: sweep rest [s] (some (lo s))
    else sweep rest (current ++ [s]) (some (bound.elim (lo s) fun b ↦ min b (lo s)))

def Overlap (a b : S) : Prop := lo a ≤ hi b ∧ lo b ≤ hi a

def Linked (l : List S) : S → S → Prop :=
  Relation.ReflTransGen fun a b ↦ a ∈ l ∧ b ∈ l ∧ Overlap lo hi a b

def Separated (groups : List (List S)) : Prop :=
  groups.Pairwise fun g g' ↦ ∀ a ∈ g, ∀ b ∈ g', hi b < lo a

structure Grouping (all : List S) (groups : List (List S)) : Prop where
  perm : groups.flatten.Perm all
  ne_nil : ∀ g ∈ groups, g ≠ []
  separated : Separated lo hi groups
  linked : ∀ g ∈ groups, ∀ a ∈ g, ∀ b ∈ g, Linked lo hi g a b

variable {lo hi} {all l current : List S} {bound : Option α} {a b : S}

theorem Linked.mono {m : List S} (hs : l ⊆ m) (h : Linked lo hi l a b) : Linked lo hi m a b :=
  Relation.ReflTransGen.mono (fun _ _ h ↦ ⟨hs h.1, hs h.2.1, h.2.2⟩) a b h

theorem Linked.symm (h : Linked lo hi l a b) : Linked lo hi l b a := by
  induction h with
  | refl => exact .refl
  | tail _ hstep ih => exact .head ⟨hstep.2.1, hstep.1, hstep.2.2.2, hstep.2.2.1⟩ ih

/-! ### The pass -/

structure Open (lo hi : S → α) (current : List S) (bound : Option α) : Prop where
  none : bound = none → current = []
  attained : ∀ b, bound = some b → ∃ c ∈ current, lo c = b
  le : ∀ b, bound = some b → ∀ a ∈ current, b ≤ lo a
  linked : ∀ a ∈ current, ∀ b ∈ current, Linked lo hi current a b

theorem Open.single (s : S) : Open lo hi [s] (some (lo s)) := by
  refine ⟨fun h ↦ (Option.some_ne_none _ h).elim, ?_, ?_, ?_⟩
  · rintro b ⟨⟩
    exact ⟨s, mem_singleton_self s, rfl⟩
  · rintro b ⟨⟩ a ha
    rw [mem_singleton.1 ha]
  · intro a ha b hb
    rw [mem_singleton.1 ha, mem_singleton.1 hb]
    exact .refl

theorem Open.push {s : S} (h : Open lo hi current bound) (hs : lo s ≤ hi s)
    (hso : ∀ c ∈ current, hi s ≤ hi c) (hft : ¬(bound.any fun b ↦ decide (hi s < b)) = true) :
    Open lo hi (current ++ [s]) (some (bound.elim (lo s) fun b ↦ min b (lo s))) := by
  cases bound with
  | none =>
    rw [h.none rfl]
    exact .single s
  | some m =>
    obtain ⟨c, hc, hcm⟩ := h.attained m rfl
    have hms : m ≤ hi s := by simpa using hft
    -- the interval that starts first reaches the new one
    have hlk : Linked lo hi (current ++ [s]) c s :=
      .single ⟨mem_append_left _ hc, mem_append_right _ (mem_singleton_self s), hcm ▸ hms,
        hs.trans (hso c hc)⟩
    have hf : ∀ a ∈ current ++ [s], Linked lo hi (current ++ [s]) a s := by
      intro a ha
      rcases mem_append.1 ha with ha | ha
      · exact ((h.linked a ha c hc).mono (subset_append_left _ _)).trans hlk
      · rw [mem_singleton.1 ha]
        exact .refl
    refine ⟨fun h ↦ (Option.some_ne_none _ h).elim, ?_, ?_,
      fun a ha b hb ↦ (hf a ha).trans (hf b hb).symm⟩
    · rintro b ⟨⟩
      rcases min_choice m (lo s) with hm | hm
      · exact ⟨c, mem_append_left _ hc, hcm.trans hm.symm⟩
      · exact ⟨s, mem_append_right _ (mem_singleton_self s), hm.symm⟩
    · rintro b ⟨⟩ a ha
      rcases mem_append.1 ha with ha | ha
      · exact (min_le_left _ _).trans (h.le m rfl a ha)
      · rw [mem_singleton.1 ha]
        exact min_le_right _ _

theorem flatten_sweep (l current : List S) (bound : Option α) :
    (sweep lo hi l current bound).flatten = current ++ l := by
  induction l generalizing current bound with
  | nil => cases current <;> simp [sweep]
  | cons s l ih =>
    rw [sweep]
    split_ifs <;> simp [ih]

theorem grouping_of_open (h : Open lo hi current bound)
    (hso : (current ++ l).Pairwise fun a b ↦ hi b ≤ hi a) (hn : ∀ s ∈ l, lo s ≤ hi s) :
    Grouping lo hi (current ++ l) (sweep lo hi l current bound) := by
  induction l generalizing current bound with
  | nil =>
    have hlinked := h.linked
    refine ⟨.of_eq (flatten_sweep [] current bound), ?_, ?_, ?_⟩ <;>
      cases current <;> simp_all [sweep, Separated]
  | cons s l ih =>
    obtain ⟨hs, hl⟩ := forall_mem_cons.1 hn
    obtain ⟨-, hr, hcross⟩ := pairwise_append.1 hso
    rw [sweep]
    split_ifs with hu
    · obtain ⟨m, rfl, he⟩ := (Option.any_eq_true _ _).1 hu
      obtain ⟨c, hc, -⟩ := h.attained m rfl
      have hre := ih (Open.single s) hr hl
      refine ⟨hre.perm.append_left current, forall_mem_cons.2 ⟨ne_nil_of_mem hc, hre.ne_nil⟩,
        pairwise_cons.2 ⟨?_, hre.separated⟩, forall_mem_cons.2 ⟨h.linked, hre.linked⟩⟩
      -- the interval that closes the group ends last of those that are left
      intro g hg a ha b hb
      have hmem : b ∈ s :: l := by
        rw [← singleton_append, ← flatten_sweep l [s] (some (lo s))]
        exact mem_flatten.2 ⟨g, hg, hb⟩
      have hle : hi b ≤ hi s := by
        rcases mem_cons.1 hmem with rfl | hmem
        · exact le_rfl
        · exact (pairwise_cons.1 hr).1 b hmem
      exact hle.trans_lt ((of_decide_eq_true he).trans_le (h.le m rfl a ha))
    · rw [append_cons] at hso ⊢
      exact ih (h.push hs (fun c hc ↦ hcross c hc s mem_cons_self) hu) hso hl

theorem grouping_sweep (hso : all.Pairwise fun a b ↦ hi b ≤ hi a) (hr : ∀ s ∈ all, lo s ≤ hi s) :
    Grouping lo hi all (sweep lo hi all [] none) :=
  grouping_of_open ⟨fun _ ↦ rfl, by simp, by simp, by simp⟩ hso hr

/-! ### What a grouping is -/

variable {groups groups' : List (List S)} {g g' : List S}

theorem Grouping.of_perm {m : List S} (h : Grouping lo hi all groups) (hp : all.Perm m) :
    Grouping lo hi m groups :=
  { h with perm := h.perm.trans hp }

theorem Grouping.of_dual (h : Grouping (fun s ↦ OrderDual.toDual (hi s))
    (fun s ↦ OrderDual.toDual (lo s)) all groups) : Grouping lo hi all groups.reverse where
  perm := (groups.reverse_perm.flatten).trans h.perm
  ne_nil g hg := h.ne_nil g (mem_reverse.1 hg)
  separated := pairwise_reverse.2 (h.separated.imp fun h a ha b hb ↦ h b hb a ha)
  linked g hg a ha b hb := Relation.ReflTransGen.mono
    (fun _ _ h ↦ ⟨h.1, h.2.1, h.2.2.2, h.2.2.1⟩) a b (h.linked g (mem_reverse.1 hg) a ha b hb)

/-- **A group is a component.** -/
theorem Grouping.mem_iff (h : Grouping lo hi all groups) (hg : g ∈ groups) (ha : a ∈ g) :
    b ∈ g ↔ Linked lo hi all a b := by
  have hs : g ⊆ all := fun x hx ↦ h.perm.subset (mem_flatten.2 ⟨g, hg, hx⟩)
  refine ⟨fun hb ↦ (h.linked g hg a ha b hb).mono hs, fun hlk ↦ ?_⟩
  obtain ⟨newer, older, rfl⟩ := append_of_mem hg
  obtain ⟨-, hr, hc⟩ := pairwise_append.1 h.separated
  induction hlk with
  | refl => exact ha
  | tail _ hstep ih =>
    obtain ⟨-, hy, hle, hle'⟩ := hstep
    obtain ⟨g', hg', hy'⟩ := mem_flatten.1 (h.perm.symm.subset hy)
    rcases mem_append.1 hg' with hg' | hg'
    · exact absurd hle' (hc g' hg' g mem_cons_self _ hy' _ ih).not_ge
    · rcases mem_cons.1 hg' with rfl | hg'
      · exact hy'
      · exact absurd hle ((pairwise_cons.1 hr).1 g' hg' _ ih _ hy').not_ge

def members (groups : List (List S)) : List (Set S) := groups.map fun g ↦ {s | s ∈ g}

theorem Grouping.mem_members (h : Grouping lo hi all groups) {t : Set S} :
    t ∈ members groups ↔ ∃ a ∈ all, t = {b | Linked lo hi all a b} := by
  constructor
  · intro ht
    obtain ⟨g, hg, rfl⟩ := mem_map.1 ht
    obtain ⟨a, ha⟩ := exists_mem_of_ne_nil g (h.ne_nil g hg)
    exact ⟨a, h.perm.subset (mem_flatten.2 ⟨g, hg, ha⟩), Set.ext fun b ↦ h.mem_iff hg ha⟩
  · rintro ⟨a, ha, rfl⟩
    obtain ⟨g, hg, hag⟩ := mem_flatten.1 (h.perm.symm.subset ha)
    exact mem_map.2 ⟨g, hg, Set.ext fun b ↦ h.mem_iff hg hag⟩

/-- **There is one grouping** in the order of the sweep. -/
theorem Grouping.unique (hr : ∀ s ∈ all, lo s ≤ hi s) (h : Grouping lo hi all groups)
    (h' : Grouping lo hi all groups') : members groups = members groups' := by
  have hso {ks} (hk : Grouping lo hi all ks) :
      (members ks).Pairwise fun t t' ↦ ∀ a ∈ t, ∀ b ∈ t', hi b < lo a :=
    pairwise_map.2 hk.separated
  have hap {t : Set S} (ht : t ∈ members groups) : ¬∀ a ∈ t, ∀ b ∈ t, hi b < lo a := by
    obtain ⟨a, ha, rfl⟩ := h.mem_members.1 ht
    exact fun hlt ↦ absurd (hr a ha) (hlt a .refl a .refl).not_ge
  have hnd {ks} (hk : Grouping lo hi all ks) : (members ks).Nodup := by
    refine (hso hk).imp_of_mem fun {t t'} ht _ hlt heq ↦ ?_
    exact hap (h.mem_members.2 (hk.mem_members.1 ht)) (heq ▸ hlt)
  have hp : (members groups).Perm (members groups') := by
    rw [perm_ext_iff_of_nodup (hnd h) (hnd h')]
    exact fun t ↦ h.mem_members.trans h'.mem_members.symm
  refine hp.eq_of_pairwise (fun t t' ht ht' hlt hgt ↦ ?_) (hso h) (hso h')
  obtain ⟨a, ha, rfl⟩ := h.mem_members.1 ht
  obtain ⟨a', ha', rfl⟩ := h'.mem_members.1 ht'
  have hlt := hlt a .refl a' .refl
  have hgt := hgt a' .refl a .refl
  have := hr a ha
  have := hr a' ha'
  order

end Koldstore.Sweep
