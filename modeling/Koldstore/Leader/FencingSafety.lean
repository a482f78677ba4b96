import Koldstore.Leader.Fencing

/-!
# The fence holds

Without a gap a sync adopts only what it may. `Inv` follows leases, seals and elections;
`VerifiedInv` says that what a sync verified still holds, as long as nothing it looked at has
changed before its commit.
-/

namespace Koldstore.Fencing

open Machine List Function
open Function (forall_update_iff update_of_ne update_self)

namespace World

variable {N P C : Type*}

/-! ### The invariant -/

def StampLe (catalog : Catalog C) (bound : ℕ) : Prop :=
  ∀ epoch, catalog.leaseEpoch = some epoch → epoch ≤ bound

def SealAdopted (w : World N P C) (n : N) (more : List (Catalog C))
    (sealed : Option (Catalog C)) : Prop :=
  ∃ catalog, sealed = some catalog ∧ (catalog ∈ more ∨ catalog ∈ (w.nodes n).adopted)

structure LeaseInv (w : World N P C) (epoch : ℕ) (lease : Lease N C) : Prop where
  held : epoch ≤ (w.nodes lease.holder).held
  sealed : lease.sealed ∈ w.seals epoch
  object : (w.objects epoch).isSome = true

structure SettleInv (w : World N P C) (p : P) (epoch : ℕ) (more : List (Catalog C)) : Prop where
  claimer : w.claimer epoch = some p
  held : epoch ≤ (w.nodes (w.node p)).held
  object : (w.objects epoch).isSome = true
  seals : ∀ sealed ∈ w.seals epoch, w.SealAdopted (w.node p) more sealed

def SettledInv (settled : Settled C) : Prop :=
  ∀ catalog ∈ settled.adopted, ∀ epoch, catalog.leaseEpoch = some epoch →
    ∃ seen, settled.seen = some seen ∧ epoch ≤ seen

def PhaseInv (w : World N P C) (p : P) : Phase N C → Prop
  | .overwriting why epoch lease => why ≠ .elect ∧ lease.holder = w.node p ∧ w.LeaseInv epoch lease
  | .claiming _ sealed elects => elects = true → w.SealAdopted (w.node p) [] sealed
  | .committing epoch => ∀ e, epoch = some e → e ≤ (w.nodes (w.node p)).held
  | .caughtUp catalog => catalog ∈ (w.nodes (w.node p)).adopted
  | .settleSeal epoch => w.SettleInv p epoch []
  | .settling _ epoch target lease settled => target = epoch ∧ w.LeaseInv target lease ∧
      w.SettleInv p epoch settled.adopted ∧ SettledInv settled
  | .sealing _ epoch target lease _ settled => target = epoch ∧ w.LeaseInv target lease ∧
      w.SettleInv p epoch settled.adopted ∧ SettledInv settled
  | .adopting _ epoch target lease catalog settled => target = epoch ∧ w.LeaseInv target lease ∧
      w.SettleInv p epoch (catalog :: settled.adopted) ∧ SettledInv settled
  | .returning epoch settled => w.SettleInv p epoch settled.adopted ∧ SettledInv settled
  | .exported catalog => StampLe catalog (w.nodes (w.node p)).held
  | .fenced catalog => StampLe catalog (w.nodes (w.node p)).held
  | .fetched catalog => StampLe catalog.toCatalog catalog.writerHeld
  | .verified catalog => StampLe catalog.toCatalog catalog.writerHeld
  | _ => True

structure NodeInv (state : Node C) : Prop where
  localEpoch : ∀ epoch, state.localEpoch = some epoch → epoch ≤ state.held
  seen : ∀ catalog ∈ state.adopted, StampLe catalog state.seenLeaderEpoch

structure ElectionInv (w : World N P C) (epoch : ℕ) (n : N) : Prop where
  le_highest : epoch ≤ w.highest
  object : (w.objects epoch).isSome = true
  seals : ∀ sealed ∈ w.seals epoch, w.SealAdopted n [] sealed
  settled : ∀ p, (w.phases p).settles ≠ some epoch

structure Inv (w : World N P C) : Prop where
  nodes : ∀ n, NodeInv (w.nodes n)
  objects : ∀ epoch lease, w.objects epoch = some lease →
    w.LeaseInv epoch lease ∧ epoch ≤ w.highest
  unsealed : ∀ epoch, w.objects epoch = none → w.seals epoch = []
  published : ∀ catalog, w.published = some catalog → StampLe catalog.toCatalog catalog.writerHeld
  phases : ∀ p, w.PhaseInv p (w.phases p)
  elections : ∀ e ∈ w.elections, w.ElectionInv e.1 e.2

theorem inv_start (node : P → N) : (start node : World N P C).Inv where
  nodes n := {
    localEpoch := nofun
    seen := nofun }
  objects epoch lease h := by cases h
  unsealed epoch _ := rfl
  published catalog h := by cases h
  phases p := trivial
  elections e h := nomatch h

/-! ### What processes rely on -/

structure Grows (w w' : World N P C) : Prop where
  node : w'.node = w.node
  highest : w.highest ≤ w'.highest
  held : ∀ n, (w.nodes n).held ≤ (w'.nodes n).held
  adopted : ∀ n, (w.nodes n).adopted ⊆ (w'.nodes n).adopted
  object : ∀ epoch, (w.objects epoch).isSome = true → (w'.objects epoch).isSome = true
  claimer : ∀ epoch, (w.objects epoch).isSome = true → w'.claimer epoch = w.claimer epoch
  seals : ∀ epoch, w.seals epoch ⊆ w'.seals epoch

structure Keeps (w w' : World N P C) : Prop extends w.Grows w' where
  phases : w'.phases = w.phases
  elections : w'.elections = w.elections
  grown : ∀ epoch, ∀ sealed ∈ w'.seals epoch, sealed ∈ w.seals epoch ∨
    (∀ p, (w.phases p).settles ≠ some epoch) ∧ ∀ e ∈ w.elections, e.1 ≠ epoch

variable {state : Node C}

section Keep

variable {w w' : World N P C} {p : P} {n : N} {epoch : ℕ} {lease : Lease N C}
  {phase : Phase N C} {more : List (Catalog C)}

variable {sealed : Option (Catalog C)}

theorem SealAdopted.grows (hgw : w.Grows w') (h : w.SealAdopted n more sealed) :
    w'.SealAdopted n more sealed := by
  obtain ⟨catalog, hsl, hmem⟩ := h
  exact ⟨catalog, hsl, hmem.imp_right fun hmem ↦ hgw.adopted n hmem⟩

theorem LeaseInv.grows (hgw : w.Grows w') (h : w.LeaseInv epoch lease) : w'.LeaseInv epoch lease :=
  ⟨Nat.le_trans h.held (hgw.held _), hgw.seals epoch h.sealed, hgw.object epoch h.object⟩

theorem SettleInv.grows (hgw : w.Grows w') (hs : w'.seals epoch ⊆ w.seals epoch)
    (h : w.SettleInv p epoch more) : w'.SettleInv p epoch more where
  claimer := (hgw.claimer epoch h.object).trans h.claimer
  held := by
    rw [hgw.node]
    exact Nat.le_trans h.held (hgw.held _)
  object := hgw.object epoch h.object
  seals sealed hsealed := by
    rw [hgw.node]
    exact (h.seals sealed (hs hsealed)).grows hgw

theorem PhaseInv.grows (hgw : w.Grows w')
    (hl : ∀ epoch, phase.settles = some epoch → w'.seals epoch ⊆ w.seals epoch)
    (h : w.PhaseInv p phase) : w'.PhaseInv p phase := by
  have hhe : (w.nodes (w.node p)).held ≤ (w'.nodes (w'.node p)).held := by
    rw [hgw.node]
    exact hgw.held _
  cases phase with
  | idle => trivial
  | acquiring next => trivial
  | overwriting why epoch lease =>
    obtain ⟨hw, hh, hls⟩ := h
    refine ⟨hw, ?_, hls.grows hgw⟩
    rw [hgw.node]
    exact hh
  | claiming next sealed elects =>
    intro helects
    rw [hgw.node]
    exact (h helects).grows hgw
  | committing epoch | exported catalog | fenced catalog =>
    exact fun e he ↦ Nat.le_trans (h e he) hhe
  | caughtUp catalog =>
    show catalog ∈ (w'.nodes (w'.node p)).adopted
    rw [hgw.node]
    exact hgw.adopted _ h
  | settleSeal epoch => exact SettleInv.grows hgw (hl epoch rfl) h
  | settling rounds epoch target lease settled
  | sealing rounds epoch target lease catalog settled
  | adopting rounds epoch target lease catalog settled =>
    obtain ⟨ht, hls, hs, hse⟩ := h
    exact ⟨ht, hls.grows hgw, hs.grows hgw (hl epoch rfl), hse⟩
  | returning epoch settled => exact ⟨h.1.grows hgw (hl epoch rfl), h.2⟩
  | fetched catalog => exact h
  | verified catalog => exact h

theorem Inv.keeps (h : w.Inv) (hkp : w.Keeps w') (hn : ∀ n, NodeInv (w'.nodes n))
    (hb : ∀ epoch lease, w'.objects epoch = some lease →
      w'.LeaseInv epoch lease ∧ epoch ≤ w'.highest)
    (hu : ∀ epoch, w'.objects epoch = none → w'.seals epoch = [])
    (hp : ∀ catalog, w'.published = some catalog →
      StampLe catalog.toCatalog catalog.writerHeld) : w'.Inv := by
  refine ⟨hn, hb, hu, hp, fun p ↦ ?_, fun e he ↦ ?_⟩
  · rw [hkp.phases]
    refine (h.phases p).grows hkp.toGrows fun epoch hep sealed hsl ↦ ?_
    rcases hkp.grown epoch sealed hsl with hsl | ⟨hnone, -⟩
    · exact hsl
    · exact absurd hep (hnone p)
  · rw [hkp.elections] at he
    obtain ⟨hle, ho, hl, hs⟩ := h.elections e he
    refine ⟨Nat.le_trans hle hkp.highest, hkp.object e.1 ho, fun sealed hsl ↦ ?_, fun p ↦ ?_⟩
    · rcases hkp.grown e.1 sealed hsl with hsl | ⟨-, hnone⟩
      · exact (hl sealed hsl).grows hkp.toGrows
      · exact absurd rfl (hnone e he)
    · rw [hkp.phases]
      exact hs p

theorem Inv.phaseInv (h : w.Inv) (hp : w.phases p = phase) : w.PhaseInv p phase := hp ▸ h.phases p

theorem Inv.settleInv (h : w.Inv) (hp : (w.phases p).settles = some epoch) :
    ∃ more, w.SettleInv p epoch more := by
  have hph := h.phases p
  cases hc : w.phases p <;> rw [hc] at hp hph <;> cases hp
  case settleSeal => exact ⟨_, hph⟩
  case settling | sealing | adopting => exact ⟨_, hph.2.2.1⟩
  case returning => exact ⟨_, hph.1⟩

theorem Grows.setPhase [DecidableEq P] (w : World N P C) (p : P) (phase : Phase N C) :
    w.Grows (w.setPhase p phase) :=
  ⟨rfl, Nat.le_refl _, fun _ ↦ Nat.le_refl _, fun _ _ ↦ id, fun _ ↦ id, fun _ _ ↦ rfl, fun _ _ ↦ id⟩

theorem Inv.setPhase [DecidableEq P] (h : w.Inv) (hph : w.PhaseInv p phase)
    (hse : ∀ epoch, phase.settles = some epoch → ∀ e ∈ w.elections, e.1 ≠ epoch) :
    (w.setPhase p phase).Inv := by
  refine ⟨h.nodes, fun epoch lease hls ↦ ?_, h.unsealed, h.published, fun q ↦ ?_, fun e he ↦ ?_⟩
  · obtain ⟨hi, hle⟩ := h.objects epoch lease hls
    exact ⟨⟨hi.1, hi.2, hi.3⟩, hle⟩
  · refine .grows (.setPhase w p phase) (fun _ _ _ ↦ id) ?_
    revert q
    show ∀ q, w.PhaseInv q (update w.phases p phase q)
    exact (forall_update_iff w.phases w.PhaseInv).2 ⟨hph, fun q _ ↦ h.phases q⟩
  · obtain ⟨hle, ho, hl, hs⟩ := h.elections e he
    refine ⟨hle, ho, hl, ?_⟩
    show ∀ q, (update w.phases p phase q).settles ≠ some e.1
    exact (forall_update_iff w.phases fun _ phase ↦ phase.settles ≠ some e.1).2
      ⟨fun hep ↦ hse e.1 hep e he rfl, fun q _ ↦ hs q⟩

theorem Inv.setPhase_of_settles_eq_none [DecidableEq P] (h : w.Inv) (hph : w.PhaseInv p phase)
    (hnone : phase.settles = none) : (w.setPhase p phase).Inv := by
  refine h.setPhase hph fun epoch hep ↦ ?_
  rw [hnone] at hep
  cases hep

theorem Inv.ne_of_settles (h : w.Inv) (hp : (w.phases p).settles = some epoch) :
    ∀ epoch', some epoch = some epoch' → ∀ e ∈ w.elections, e.1 ≠ epoch' := by
  rintro _ ⟨⟩ e he rfl
  exact (h.elections e he).settled p hp

theorem Inv.setNode [DecidableEq N] (h : w.Inv) (hst : NodeInv state)
    (hhe : (w.nodes n).held ≤ state.held) (ha : (w.nodes n).adopted ⊆ state.adopted) :
    (w.setNode n state).Inv := by
  have hnd : ∀ n', (w.nodes n').held ≤ ((w.setNode n state).nodes n').held ∧
      (w.nodes n').adopted ⊆ ((w.setNode n state).nodes n').adopted ∧
      NodeInv ((w.setNode n state).nodes n') := by
    show ∀ n', _ ≤ (update w.nodes n state n').held ∧ _ ⊆ (update w.nodes n state n').adopted ∧
      NodeInv (update w.nodes n state n')
    exact (forall_update_iff w.nodes fun n' state ↦ (w.nodes n').held ≤ state.held ∧
      (w.nodes n').adopted ⊆ state.adopted ∧ NodeInv state).2
      ⟨⟨hhe, ha, hst⟩, fun n' _ ↦ ⟨Nat.le_refl _, List.Subset.refl _, h.nodes n'⟩⟩
  have hgw : w.Grows (w.setNode n state) :=
    ⟨rfl, Nat.le_refl _, fun n' ↦ (hnd n').1, fun n' ↦ (hnd n').2.1, fun _ ↦ id, fun _ _ ↦ rfl,
      fun _ _ ↦ id⟩
  exact h.keeps ⟨hgw, rfl, rfl, fun _ _ ↦ .inl⟩ (fun n' ↦ (hnd n').2.2)
    (fun epoch lease hls ↦
      ⟨(h.objects epoch lease hls).1.grows hgw, (h.objects epoch lease hls).2⟩) h.unsealed
    h.published

/-! ### Writes of lease objects -/

theorem objects_setObject (epoch' : ℕ) : (w.setObject epoch lease).objects epoch' =
      if epoch' = epoch then some lease else w.objects epoch' := by
  show update w.objects epoch (some lease) epoch' = _
  exact update_apply _ _ _ _

theorem mem_seals_setObject {epoch' : ℕ} : sealed ∈ (w.setObject epoch lease).seals epoch' ↔
      epoch' = epoch ∧ sealed = lease.sealed ∨ sealed ∈ w.seals epoch' := by
  show sealed ∈ update w.seals epoch (lease.sealed :: w.seals epoch) epoch' ↔ _
  by_cases hep : epoch' = epoch
  · subst hep
    rw [update_self, mem_cons]
    exact or_congr_left (and_iff_right rfl).symm
  · rw [update_of_ne hep]
    exact (or_iff_right fun h ↦ hep h.1).symm

theorem Grows.setObject (w : World N P C) (epoch : ℕ) (lease : Lease N C) :
    w.Grows (w.setObject epoch lease) where
  node := rfl
  highest := Nat.le_refl _
  held _ := Nat.le_refl _
  adopted _ _ := id
  object epoch' hepoch' := by
    rw [objects_setObject]
    split
    · rfl
    · exact hepoch'
  claimer _ _ := rfl
  seals _ _ hsealed := mem_seals_setObject.2 (.inr hsealed)

theorem Inv.unsealed_setObject (h : w.Inv) (lease : Lease N C) (epoch' : ℕ)
    (ha : (w.setObject epoch lease).objects epoch' = none) :
    (w.setObject epoch lease).seals epoch' = [] := by
  rw [objects_setObject] at ha
  split at ha
  · cases ha
  next hep =>
    show update w.seals epoch _ epoch' = []
    rw [update_of_ne hep]
    exact h.unsealed epoch' ha

theorem Inv.setObject (h : w.Inv) (ho : (w.objects epoch).isSome = true)
    (hhe : epoch ≤ (w.nodes lease.holder).held) (hsl : lease.sealed ∈ w.seals epoch ∨
      (∀ p, (w.phases p).settles ≠ some epoch) ∧ ∀ e ∈ w.elections, e.1 ≠ epoch) :
    (w.setObject epoch lease).Inv := by
  have hgw := Grows.setObject w epoch lease
  refine h.keeps ⟨hgw, rfl, rfl, fun epoch' sealed hmem ↦ ?_⟩ h.nodes
    (fun epoch' lease' hls' ↦ ?_) (h.unsealed_setObject lease) h.published
  · rcases mem_seals_setObject.1 hmem with ⟨rfl, rfl⟩ | hmem
    · exact hsl
    · exact .inl hmem
  · rw [objects_setObject] at hls'
    split at hls'
    next hep =>
      cases hls'
      subst hep
      obtain ⟨before, hb⟩ := Option.isSome_iff_exists.1 ho
      exact ⟨⟨hhe, mem_seals_setObject.2 (.inl ⟨rfl, rfl⟩), hgw.object epoch' ho⟩,
        (h.objects epoch' before hb).2⟩
    · obtain ⟨hi, hle⟩ := h.objects epoch' lease' hls'
      exact ⟨hi.grows hgw, hle⟩

theorem nodes_claimed [DecidableEq N] (w : World N P C) (p : P) (next : ℕ)
    (sealed : Option (Catalog C)) (n : N) :
    ((w.claimed p next sealed).nodes n).adopted = (w.nodes n).adopted ∧
      ((w.claimed p next sealed).nodes n).held =
        if n = w.node p then max (w.nodes n).held next else (w.nodes n).held := by
  show (update w.nodes (w.node p) _ n).adopted = _ ∧ (update w.nodes (w.node p) _ n).held = _
  split
  next hn =>
    subst hn
    rw [update_self]
    exact ⟨rfl, rfl⟩
  next hn =>
    rw [update_of_ne hn]
    exact ⟨rfl, rfl⟩

theorem le_held_claimed [DecidableEq N] (w : World N P C) (p : P) (next : ℕ)
    (sealed : Option (Catalog C)) : next ≤ ((w.claimed p next sealed).nodes (w.node p)).held := by
  rw [(nodes_claimed w p next sealed _).2, if_pos rfl]
  exact Nat.le_max_right _ _

theorem Grows.claimed [DecidableEq N] (ha : w.objects epoch = none) :
    w.Grows (w.claimed p epoch sealed) where
  node := rfl
  highest := Nat.le_max_left _ _
  held n := by
    rw [(nodes_claimed w p epoch sealed n).2]
    split
    · exact Nat.le_max_left _ _
    · exact Nat.le_refl _
  adopted n := by
    rw [(nodes_claimed w p epoch sealed n).1]
    exact List.Subset.refl _
  object := (Grows.setObject w epoch ⟨w.node p, sealed⟩).object
  claimer epoch' hobject := by
    refine update_of_ne ?_ _ _
    rintro rfl
    rw [ha] at hobject
    cases hobject
  seals := (Grows.setObject w epoch ⟨w.node p, sealed⟩).seals

theorem Inv.claimed [DecidableEq N] (h : w.Inv) (ha : w.objects epoch = none) :
    (w.claimed p epoch sealed).Inv := by
  have hgw : w.Grows (w.claimed p epoch sealed) := .claimed ha
  have hnone : ¬(w.objects epoch).isSome = true := by
    rw [ha]
    exact Bool.false_ne_true
  refine h.keeps ⟨hgw, rfl, rfl, fun epoch' sealed' hmem ↦ ?_⟩ (fun n ↦ ?_)
    (fun epoch' lease' hls' ↦ ?_) (h.unsealed_setObject ⟨w.node p, sealed⟩) h.published
  · rcases mem_seals_setObject.1 hmem with ⟨rfl, -⟩ | hmem
    · refine .inr ⟨fun q hq ↦ hnone (h.settleInv hq).choose_spec.object, ?_⟩
      rintro e he rfl
      exact hnone (h.elections e he).object
    · exact .inl hmem
  · show NodeInv (update w.nodes (w.node p) _ n)
    by_cases hn : n = w.node p
    · rw [hn, update_self]
      obtain ⟨hl, hsn⟩ := h.nodes (w.node p)
      exact ⟨fun e he ↦ Nat.le_trans (hl e he) (Nat.le_max_left _ _), hsn⟩
    · rw [update_of_ne hn]
      exact h.nodes n
  · replace hls' : (w.setObject epoch ⟨w.node p, sealed⟩).objects epoch' = some lease' := hls'
    have ho : ((w.claimed p epoch sealed).objects epoch').isSome = true := by
      show ((w.setObject epoch ⟨w.node p, sealed⟩).objects epoch').isSome = true
      rw [hls']
      rfl
    rw [objects_setObject] at hls'
    split at hls'
    next hep =>
      cases hls'
      subst hep
      exact ⟨⟨le_held_claimed w p epoch' sealed, mem_seals_setObject.2 (.inl ⟨rfl, rfl⟩), ho⟩,
        Nat.le_max_right _ _⟩
    · obtain ⟨hi, hle⟩ := h.objects epoch' lease' hls'
      exact ⟨hi.grows hgw, Nat.le_trans hle (Nat.le_max_left _ _)⟩

end Keep

section Step

variable [DecidableEq N] [DecidableEq P] [DecidableEq C] {w w' : World N P C} {p : P}

theorem Inv.step_claim (h : w.Inv) (hstep : w.step (.claim p) = some w') : w'.Inv := by
  simp only [step] at hstep
  split at hstep
  next next sealed elects hp =>
    split at hstep
    · cases hstep
      exact h.setPhase_of_settles_eq_none trivial rfl
    next ha =>
      cases hstep
      have hc : (w.claimed p next sealed).Inv := h.claimed ha
      have hhe := le_held_claimed w p next sealed
      cases elects with
      | false =>
        refine hc.setPhase_of_settles_eq_none ?_ rfl
        rintro e ⟨⟩
        exact hhe
      | true =>
        refine hc.setPhase ⟨update_self _ _ _, hhe, ?_, fun sealed' hmem ↦ ?_⟩ ?_
        · show ((w.setObject next ⟨w.node p, sealed⟩).objects next).isSome = true
          rw [objects_setObject, if_pos rfl]
          rfl
        · rcases mem_seals_setObject.1 hmem with ⟨-, rfl⟩ | hmem
          · exact (h.phaseInv hp rfl).grows (.claimed ha)
          · rw [h.unsealed next ha] at hmem
            cases hmem
        · rintro _ ⟨⟩ e he rfl
          have ho := (h.elections e he).object
          rw [ha] at ho
          cases ho
  · cases hstep

variable {epoch : ℕ}

omit [DecidableEq N] [DecidableEq C] in
theorem Inv.settles_idle (h : w.Inv) (hp : (w.phases p).settles = some epoch) (q : P) :
    ((w.setPhase p .idle).phases q).settles ≠ some epoch := by
  show (update w.phases p .idle q).settles ≠ some epoch
  by_cases hq : q = p
  · rw [hq, update_self]
    nofun
  · rw [update_of_ne hq]
    intro hs
    obtain ⟨_, hi⟩ := h.settleInv hp
    obtain ⟨_, hi'⟩ := h.settleInv hs
    exact hq (Option.some.inj (hi'.claimer.symm.trans hi.claimer))

omit [DecidableEq N] [DecidableEq C] in
theorem Inv.setPhase_idle (h : w.Inv) : (w.setPhase p .idle).Inv :=
  h.setPhase_of_settles_eq_none trivial rfl

omit [DecidableEq N] [DecidableEq C] in
theorem setObject_setPhase_idle (w : World N P C) (p : P) (epoch : ℕ) (lease : Lease N C)
    (phase : Phase N C) : ((w.setPhase p .idle).setObject epoch lease).setPhase p phase =
      (w.setObject epoch lease).setPhase p phase := by
  simp only [World.setPhase, World.setObject, update_idem]

theorem Inv.step_settleWrite (h : w.Inv) (hstep : w.step (.settleWrite p) = some w') : w'.Inv := by
  simp only [step] at hstep
  split at hstep
  next rounds epoch target lease catalog settled hp =>
    cases hstep
    obtain ⟨rfl, hls, hs, hse⟩ := h.phaseInv hp
    have he : (w.phases p).settles = some target := by
      rw [hp]
      rfl
    -- The process lets go of the seal, adds to it, and takes it up again.
    have hw : ((w.setPhase p .idle).setObject target { lease with sealed := some catalog }).Inv :=
      h.setPhase_idle.setObject hls.object hls.held
        (.inr ⟨h.settles_idle he, h.ne_of_settles he target rfl⟩)
    have hgw := Grows.setObject (w.setPhase p .idle) target { lease with sealed := some catalog }
    rw [← setObject_setPhase_idle]
    refine hw.setPhase
      ⟨rfl, ⟨hls.held, mem_seals_setObject.2 (.inl ⟨rfl, rfl⟩), hgw.object _ hls.object⟩,
        ⟨hs.claimer, hs.held, hgw.object _ hs.object, fun sealed hmem ↦ ?_⟩,
        hse⟩
      (h.ne_of_settles he)
    rcases mem_seals_setObject.1 hmem with ⟨-, rfl⟩ | hmem
    · exact ⟨catalog, rfl, .inl mem_cons_self⟩
    · obtain ⟨sealed', hsl', hmem⟩ := hs.seals sealed hmem
      exact ⟨sealed', hsl', hmem.imp_left (mem_cons_of_mem _)⟩
  · cases hstep

variable {catalog : Catalog C}

variable {settled : Settled C}

omit [DecidableEq C] in
theorem settledInv_cons {seen : ℕ}
    (h : SettledInv settled) (hold : older catalog (settled.seen.getD seen) = false) :
    SettledInv ⟨catalog :: settled.adopted, catalog.leaseEpoch.or settled.seen⟩ := by
  intro earlier he epoch hep
  rcases mem_cons.1 he with rfl | he
  · exact ⟨epoch, by rw [hep]; rfl, Nat.le_refl _⟩
  · obtain ⟨s, hs, hle⟩ := h earlier he epoch hep
    cases ht : catalog.leaseEpoch with
    | none => exact ⟨s, hs, hle⟩
    | some e =>
      rw [older, ht, hs] at hold
      have hn : ¬e < s := of_decide_eq_false hold
      exact ⟨e, rfl, Nat.le_trans hle (Nat.le_of_not_lt hn)⟩

theorem Inv.step_settleAdopt (h : w.Inv) (hmt : w.NoGap (.settleAdopt p))
    (hstep : w.step (.settleAdopt p) = some w') : w'.Inv := by
  simp only [step] at hstep
  simp only [NoGap] at hmt
  split at hstep
  next rounds epoch target lease catalog settled catalog' hp hu =>
    rw [hp] at hmt
    replace hmt : w.published.map Written.toCatalog = some catalog := hmt
    rw [hu] at hmt
    cases hmt
    split at hstep
    next hv =>
      cases hstep
      obtain ⟨ht, hls, hs, hse⟩ := h.phaseInv hp
      exact h.setPhase ⟨ht, hls, hs, settledInv_cons hse hv.2⟩
        (h.ne_of_settles (p := p) (by rw [hp]; rfl))
    · cases hstep
  · cases hstep

omit [DecidableEq C] in
theorem NodeInv.elect (h : NodeInv state) (hhe : epoch ≤ state.held) (hset : SettledInv settled)
    (hsn : ∀ seen, settled.seen = some seen → state.seenLeaderEpoch ≤ seen) :
    NodeInv (state.elect epoch settled) where
  localEpoch := by
    rintro e ⟨⟩
    exact hhe
  seen catalog hc e he := by
    show e ≤ settled.seen.getD state.seenLeaderEpoch
    rcases mem_append.1 hc with hc | hc
    · obtain ⟨seen, hs, hle⟩ := hset catalog hc e he
      rw [hs]
      exact hle
    · have hle := h.seen catalog hc e he
      cases hs : settled.seen with
      | none => exact hle
      | some seen => exact Nat.le_trans hle (hsn seen hs)

omit [DecidableEq N] [DecidableEq P] [DecidableEq C] in
theorem Inv.elected (h : w.Inv) {n : N} (hl : w.ElectionInv epoch n) :
    Inv { w with elections := (epoch, n) :: w.elections } := by
  have hgw : w.Grows { w with elections := (epoch, n) :: w.elections } :=
    ⟨rfl, Nat.le_refl _, fun _ ↦ Nat.le_refl _, fun _ _ ↦ id, fun _ ↦ id, fun _ _ ↦ rfl,
      fun _ _ ↦ id⟩
  refine ⟨h.nodes, fun e lease hls ↦ ?_, h.unsealed, h.published,
    fun p ↦ (h.phases p).grows hgw fun _ _ _ ↦ id, forall_mem_cons.2 ⟨?_, fun e he ↦ ?_⟩⟩
  · exact ⟨(h.objects e lease hls).1.grows hgw, (h.objects e lease hls).2⟩
  · exact ⟨hl.1, hl.2, hl.3, hl.4⟩
  · obtain ⟨hle, ho, hs, hnone⟩ := h.elections e he
    exact ⟨hle, ho, hs, hnone⟩

theorem Inv.step_electReturn (h : w.Inv) (hmt : w.NoGap (.electReturn p))
    (hstep : w.step (.electReturn p) = some w') : w'.Inv := by
  simp only [step] at hstep
  obtain ⟨-, hmt⟩ := hmt
  split at hstep
  next epoch settled hp =>
    rw [hp] at hmt
    cases hstep
    obtain ⟨hs, hse⟩ := h.phaseInv hp
    have he : (w.phases p).settles = some epoch := by
      rw [hp]
      rfl
    have hnd : ((w.setPhase p .idle).setNode (w.node p)
        ((w.nodes (w.node p)).elect epoch settled)).Inv :=
      h.setPhase_idle.setNode ((h.nodes _).elect hs.held hse hmt) (Nat.le_refl _)
        (subset_append_right _ _)
    obtain ⟨lease, hls⟩ := Option.isSome_iff_exists.1 hs.object
    refine hnd.elected ⟨(h.objects epoch lease hls).2, hs.object,
      fun sealed hsl ↦ ?_, h.settles_idle he⟩
    obtain ⟨catalog, hc, hmem⟩ := hs.seals sealed hsl
    refine ⟨catalog, hc, .inr ?_⟩
    show catalog ∈ (update w.nodes (w.node p) _ (w.node p)).adopted
    rw [update_self]
    exact mem_append.2 hmem
  · cases hstep

omit [DecidableEq C] in
theorem NodeInv.adopt (h : NodeInv state)
    (hsn : ∀ epoch, catalog.leaseEpoch = some epoch → state.seenLeaderEpoch ≤ epoch) :
    NodeInv (state.adopt catalog) where
  localEpoch := h.localEpoch
  seen earlier ha e he := by
    show e ≤ catalog.leaseEpoch.getD state.seenLeaderEpoch
    rcases mem_cons.1 ha with rfl | ha
    · rw [he]
      exact Nat.le_refl _
    · have hle := h.seen earlier ha e he
      cases hs : catalog.leaseEpoch with
      | none => exact hle
      | some epoch => exact Nat.le_trans hle (hsn epoch hs)

theorem Inv.step_overwrite (h : w.Inv) (hstep : w.step (.overwrite p) = some w') : w'.Inv := by
  simp only [step] at hstep
  split at hstep
  next why epoch lease hp =>
    cases hstep
    obtain ⟨hwhy, hh, hls⟩ := h.phaseInv hp
    have hw : (w.setObject epoch lease).Inv := h.setObject hls.object hls.held (.inl hls.sealed)
    cases why with
    | acquire =>
      refine hw.setPhase_of_settles_eq_none ?_ rfl
      rintro e ⟨⟩
      exact hh ▸ hls.held
    | renew => exact hw.setPhase_of_settles_eq_none trivial rfl
    | release =>
      refine hw.setPhase_of_settles_eq_none ?_ rfl
      nofun
    | elect => exact absurd rfl hwhy
  · cases hstep

theorem Inv.step_settleCheck (h : w.Inv) (hstep : w.step (.settleCheck p) = some w') : w'.Inv := by
  simp only [step] at hstep
  split at hstep
  next rounds epoch target lease settled hp =>
    obtain ⟨ht, hls, hs, hse⟩ := h.phaseInv hp
    have hep : (w.phases p).settles = some epoch := by
      rw [hp]
      rfl
    have he := h.ne_of_settles hep
    split at hstep
    · cases hstep
      exact h.setPhase ⟨hs, hse⟩ he
    · split at hstep
      · cases hstep
        exact h.setPhase ⟨hs, hse⟩ he
      · cases hstep
        exact h.setPhase ⟨ht, hls, hs, hse⟩ he
  · cases hstep

/-! ### Verified catalogs -/

/-- What makes it safe to adopt a catalog: its epoch is not older than what the node has seen, at
most the next epoch has been claimed, and that has sealed this catalog or none. -/
def CommitsInTime (w : World N P C) (n : N) (catalog : Catalog C) : Prop :=
  w.Current n catalog ∧ ∀ epoch, catalog.leaseEpoch = some epoch →
    (w.nodes n).seenLeaderEpoch ≤ epoch ∧ w.verifyCatalogSealed catalog = true

/-- What a sync has verified still holds. -/
def VerifiedInv (w : World N P C) : Prop :=
  ∀ p catalog, w.phases p = .verified catalog → w.CommitsInTime (w.node p) catalog.toCatalog

/-- Nothing that a sync looks at has changed. -/
structure SameChecks (w w' : World N P C) : Prop where
  node : w'.node = w.node
  highest : w'.highest = w.highest
  objects : w'.objects = w.objects
  elections : w'.elections = w.elections
  seen : ∀ n, (w'.nodes n).seenLeaderEpoch = (w.nodes n).seenLeaderEpoch
  adopted : ∀ n, (w'.nodes n).adopted = (w.nodes n).adopted

section Verified

variable {w₁ : World N P C} {phase : Phase N C}

omit [DecidableEq N] [DecidableEq P] [DecidableEq C] in
theorem SameChecks.refl (w : World N P C) : w.SameChecks w :=
  ⟨rfl, rfl, rfl, rfl, fun _ ↦ rfl, fun _ ↦ rfl⟩

omit [DecidableEq P] [DecidableEq C] in
/-- A node's generation and epochs of its own are no part of the checks. -/
theorem SameChecks.setNode {n : N} {state : Node C}
    (hs : state.seenLeaderEpoch = (w.nodes n).seenLeaderEpoch)
    (ha : state.adopted = (w.nodes n).adopted) : w.SameChecks (w.setNode n state) := by
  refine ⟨rfl, rfl, rfl, rfl, fun m ↦ ?_, fun m ↦ ?_⟩
  · show (update w.nodes n state m).seenLeaderEpoch = _
    by_cases hm : m = n
    · rw [hm, update_self, hs]
    · rw [update_of_ne hm]
  · show (update w.nodes n state m).adopted = _
    by_cases hm : m = n
    · rw [hm, update_self, ha]
    · rw [update_of_ne hm]

omit [DecidableEq N] [DecidableEq P] in
theorem CommitsInTime.congr (h : w.SameChecks w₁) {n : N} {catalog : Catalog C}
    (hc : w.CommitsInTime n catalog) : w₁.CommitsInTime n catalog := by
  unfold CommitsInTime Current verifyCatalogSealed at hc ⊢
  rwa [h.highest, h.objects, h.elections, h.seen, h.adopted]

omit [DecidableEq N] [DecidableEq C] in
/-- A step of one process makes no other sync a verified one. -/
theorem verified_of_setPhase (hw : w₁.phases = w.phases) (hph : phase.isVerified = false) {q : P}
    {catalog : Written C} (h : (w₁.setPhase p phase).phases q = .verified catalog) :
    w.phases q = .verified catalog := by
  replace h : update w₁.phases p phase q = .verified catalog := h
  by_cases hq : q = p
  · rw [hq, update_self] at h
    rw [h] at hph
    cases hph
  · rwa [update_of_ne hq, hw] at h

omit [DecidableEq N] in
theorem VerifiedInv.setPhase (h : w.VerifiedInv) (hs : w.SameChecks w₁) (hw : w₁.phases = w.phases)
    (hph : phase.isVerified = false) : (w₁.setPhase p phase).VerifiedInv := by
  intro q catalog hq
  have hc := (h q catalog (verified_of_setPhase hw hph hq)).congr hs
  rw [show w.node q = (w₁.setPhase p phase).node q from congrFun hs.node.symm q] at hc
  exact hc

omit [DecidableEq N] in
theorem Quiet.verifiedInv (h : w.Quiet) (hw : w₁.phases = w.phases)
    (hph : phase.isVerified = false) : (w₁.setPhase p phase).VerifiedInv := by
  intro q catalog hq
  have hv := h q
  rw [verified_of_setPhase hw hph hq] at hv
  cases hv

theorem VerifiedInv.step_verify (h : w.VerifiedInv) (hmt : w.NoGap (.verify p))
    (hstep : w.step (.verify p) = some w') : w'.VerifiedInv := by
  simp only [step] at hstep
  simp only [NoGap] at hmt
  split at hstep
  next catalog hp =>
    rw [hp] at hmt
    split at hstep
    next hv =>
      cases hstep
      intro q catalog' hq
      show w.CommitsInTime (w.node q) catalog'.toCatalog
      replace hq : update w.phases p (.verified catalog) q = .verified catalog' := hq
      by_cases hqp : q = p
      · subst hqp
        rw [update_self] at hq
        cases hq
        refine ⟨hmt, fun epoch hep ↦ ⟨?_, hv.1⟩⟩
        have hold := hv.2
        rw [older, hep, Option.any_some, decide_eq_false_iff_not] at hold
        exact Nat.le_of_not_lt hold
      · rw [update_of_ne hqp] at hq
        exact h q catalog' hq
    · cases hstep
  · cases hstep

theorem VerifiedInv.step_commit (h : w.VerifiedInv) (hmt : w.NoGap (.commit p))
    (hstep : w.step (.commit p) = some w') : w'.VerifiedInv := by
  simp only [step] at hstep
  split at hstep
  next catalog hp =>
    cases hstep
    intro q catalog' hq
    have hq' : w.phases q = .verified catalog' := verified_of_setPhase rfl rfl hq
    -- the sync of `q` is on another node
    have hne : w.node q ≠ w.node p := by
      intro hnode
      have hqp : q ≠ p := by
        rintro rfl
        replace hq : update w.phases q .idle q = .verified catalog' := hq
        rw [update_self] at hq
        cases hq
      have hv := hmt q hqp hnode
      rw [hq'] at hv
      cases hv
    have hc := h q catalog' hq'
    show CommitsInTime _ (w.node q) catalog'.toCatalog
    unfold CommitsInTime Current verifyCatalogSealed at hc ⊢
    show _ ∧ _
    simp only [World.setPhase, World.setNode, update_of_ne hne]
    exact hc
  · cases hstep

/-- **What a sync has verified still holds when it commits.** -/
theorem VerifiedInv.step {e : Event N P C} (h : w.VerifiedInv) (hmt : w.NoGap e)
    (hstep : w.step e = some w') : w'.VerifiedInv := by
  cases e with
  | verify p => exact h.step_verify hmt hstep
  | commit p => exact h.step_commit hmt hstep
  | claim p =>
    simp only [World.step] at hstep
    split at hstep
    next next sealed elects hp =>
      split at hstep
      · cases hstep
        exact h.setPhase (.refl w) rfl rfl
      · cases hstep
        exact Quiet.verifiedInv hmt rfl (by cases elects <;> rfl)
    · cases hstep
  | overwrite p =>
    simp only [World.step] at hstep
    split at hstep
    next why epoch lease hp =>
      cases hstep
      exact Quiet.verifiedInv hmt rfl (by cases why <;> rfl)
    · cases hstep
  | settleWrite p =>
    simp only [World.step] at hstep
    split at hstep
    · cases hstep
      exact Quiet.verifiedInv hmt rfl rfl
    · cases hstep
  | electReturn p =>
    simp only [World.step] at hstep
    split at hstep
    · cases hstep
      exact Quiet.verifiedInv hmt.1 rfl rfl
    · cases hstep
  | setGeneration n generation | demote n =>
    cases hstep
    intro q catalog hq
    refine CommitsInTime.congr ?_ (h q catalog hq)
    exact .setNode rfl rfl
  | commitLocal p =>
    simp only [World.step] at hstep
    split at hstep
    · cases hstep
      exact h.setPhase (.setNode rfl rfl) rfl rfl
    · cases hstep
  | put p =>
    simp only [World.step] at hstep
    split at hstep
    · cases hstep
      exact h.setPhase ⟨rfl, rfl, rfl, rfl, fun _ ↦ rfl, fun _ ↦ rfl⟩ rfl rfl
    · cases hstep
  | abort p =>
    cases hstep
    exact h.setPhase (.refl w) rfl rfl
  -- the other steps move one process alone
  | readOwn p why epoch | acquire p next | readSeal p | electCheck p | electAcquire p next
    | electRenew p epoch | settleRead p target | settleCheck p | settleAdopt p
    | exportCatalog p content | fence p readOk | fetch p =>
    simp only [World.step] at hstep
    repeat' split at hstep
    all_goals cases hstep
    all_goals exact h.setPhase (.refl w) rfl rfl

end Verified

/-! ### Steps and runs -/

theorem Inv.step_readOwn (h : w.Inv) {why : Overwrite} {epoch : ℕ}
    (hstep : w.step (.readOwn p why epoch) = some w') : w'.Inv := by
  simp only [step] at hstep
  split at hstep
  next lease hp hls =>
    split at hstep
    next ho =>
      cases hstep
      exact h.setPhase_of_settles_eq_none ⟨ho.2, ho.1, (h.objects epoch lease hls).1⟩ rfl
    · cases hstep
  · cases hstep

theorem Inv.step_acquire (h : w.Inv) {next : ℕ} (hstep : w.step (.acquire p next) = some w') :
    w'.Inv := by
  simp only [step] at hstep
  split at hstep
  · split at hstep
    · cases hstep
      exact h.setPhase_of_settles_eq_none trivial rfl
    · cases hstep
  · cases hstep

theorem Inv.step_readSeal (h : w.Inv) (hstep : w.step (.readSeal p) = some w') : w'.Inv := by
  simp only [step] at hstep
  split at hstep
  · cases hstep
    exact h.setPhase_of_settles_eq_none (by rintro ⟨⟩) rfl
  · cases hstep

theorem Inv.step_commitLocal (h : w.Inv) (hstep : w.step (.commitLocal p) = some w') : w'.Inv := by
  simp only [step] at hstep
  split at hstep
  next epoch hp =>
    cases hstep
    have hnd : (w.setNode (w.node p) { w.nodes (w.node p) with localEpoch := epoch }).Inv :=
      h.setNode ⟨h.phaseInv hp, (h.nodes _).seen⟩ (Nat.le_refl _) (List.Subset.refl _)
    exact hnd.setPhase_idle
  · cases hstep

theorem Inv.step_electCheck (h : w.Inv) (hmt : w.NoGap (.electCheck p))
    (hstep : w.step (.electCheck p) = some w') : w'.Inv := by
  simp only [step] at hstep
  simp only [NoGap] at hmt
  split at hstep
  next catalog hp hu =>
    rw [hu] at hmt
    split at hstep
    · cases hstep
    next hr =>
      cases hstep
      have hcaughtUp : behind (w.nodes (w.node p)) catalog.toCatalog = false :=
        Bool.eq_false_iff.2 fun hb ↦ hr (.inr hb)
      exact h.setPhase_of_settles_eq_none (hmt hcaughtUp) rfl
  · cases hstep

theorem Inv.step_electAcquire (h : w.Inv) {next : ℕ}
    (hstep : w.step (.electAcquire p next) = some w') : w'.Inv := by
  simp only [step] at hstep
  split at hstep
  next catalog hp =>
    split at hstep
    · cases hstep
      exact h.setPhase_of_settles_eq_none (fun _ ↦ ⟨catalog, rfl, .inr (h.phaseInv hp)⟩) rfl
    · cases hstep
  · cases hstep

theorem Inv.step_settleRead (h : w.Inv) {target : ℕ} (hmt : w.NoGap (.settleRead p target))
    (hstep : w.step (.settleRead p target) = some w') : w'.Inv := by
  simp only [step] at hstep
  simp only [NoGap] at hmt
  split at hstep
  next epoch lease hp hls =>
    rw [hp] at hmt
    cases hstep
    exact h.setPhase ⟨hmt, (h.objects target lease hls).1, h.phaseInv hp, nofun⟩
      (h.ne_of_settles (p := p) (by rw [hp]; rfl))
  · cases hstep

theorem Inv.step_exportCatalog (h : w.Inv) {content : C}
    (hstep : w.step (.exportCatalog p content) = some w') : w'.Inv := by
  simp only [step] at hstep
  split at hstep
  · cases hstep
    exact h.setPhase_of_settles_eq_none (h.nodes (w.node p)).localEpoch rfl
  · cases hstep

theorem Inv.step_fence (h : w.Inv) {readOk : Bool} (hstep : w.step (.fence p readOk) = some w') :
    w'.Inv := by
  simp only [step] at hstep
  split at hstep
  next catalog hp =>
    obtain ⟨-, ⟨⟩⟩ := Option.ite_none_left_eq_some.1 hstep
    have hs : StampLe catalog (w.nodes (w.node p)).held := h.phaseInv hp
    exact h.setPhase_of_settles_eq_none hs rfl
  · cases hstep

theorem Inv.step_put (h : w.Inv) (hstep : w.step (.put p) = some w') : w'.Inv := by
  simp only [step] at hstep
  split at hstep
  next catalog hp =>
    cases hstep
    have hgw : w.Grows { w with published := some ⟨catalog, (w.nodes (w.node p)).held⟩ } :=
      ⟨rfl, Nat.le_refl _, fun _ ↦ Nat.le_refl _, fun _ _ ↦ id, fun _ ↦ id, fun _ _ ↦ rfl,
        fun _ _ ↦ id⟩
    have hput : Inv { w with published := some ⟨catalog, (w.nodes (w.node p)).held⟩ } := by
      refine h.keeps ⟨hgw, rfl, rfl, fun _ _ ↦ .inl⟩ h.nodes (fun epoch lease hls ↦
        ⟨(h.objects epoch lease hls).1.grows hgw, (h.objects epoch lease hls).2⟩)
        h.unsealed fun written hwr ↦ ?_
      cases hwr
      exact h.phaseInv hp
    exact hput.setPhase_idle
  · cases hstep

theorem Inv.step_fetch (h : w.Inv) (hstep : w.step (.fetch p) = some w') : w'.Inv := by
  simp only [step] at hstep
  split at hstep
  next catalog hp hu =>
    cases hstep
    exact h.setPhase_of_settles_eq_none (h.published catalog hu) rfl
  · cases hstep

theorem Inv.step_verify (h : w.Inv) (hstep : w.step (.verify p) = some w') : w'.Inv := by
  simp only [step] at hstep
  split at hstep
  next catalog hp =>
    split at hstep
    · cases hstep
      have hs : StampLe catalog.toCatalog catalog.writerHeld := h.phaseInv hp
      exact h.setPhase_of_settles_eq_none hs rfl
    · cases hstep
  · cases hstep

theorem Inv.step_commit (h : w.Inv) (hv : w.VerifiedInv) (hstep : w.step (.commit p) = some w') :
    w'.Inv := by
  simp only [step] at hstep
  split at hstep
  next catalog hp =>
    cases hstep
    have hnd : (w.setNode (w.node p) ((w.nodes (w.node p)).adopt catalog.toCatalog)).Inv :=
      h.setNode ((h.nodes _).adopt fun epoch hep ↦ ((hv p catalog hp).2 epoch hep).1)
        (Nat.le_refl _) (subset_cons_self _ _)
    exact hnd.setPhase_idle
  · cases hstep

/-- **One step** that hits no gap keeps the invariant. -/
theorem inv_step {e : Event N P C} (h : w.Inv ∧ w.VerifiedInv) (hmt : w.NoGap e)
    (hstep : w.step e = some w') : w'.Inv ∧ w'.VerifiedInv := by
  refine ⟨?_, h.2.step hmt hstep⟩
  obtain ⟨h, hv⟩ := h
  cases e with
  | setGeneration n generation =>
    cases hstep
    exact h.setNode ⟨(h.nodes n).1, (h.nodes n).2⟩ (Nat.le_refl _) (List.Subset.refl _)
  | readOwn p why epoch => exact h.step_readOwn hstep
  | overwrite p => exact h.step_overwrite hstep
  | acquire p next => exact h.step_acquire hstep
  | readSeal p => exact h.step_readSeal hstep
  | claim p => exact h.step_claim hstep
  | commitLocal p => exact h.step_commitLocal hstep
  | demote n =>
    cases hstep
    exact h.setNode ⟨by rintro e ⟨⟩, (h.nodes n).2⟩ (Nat.le_refl _) (List.Subset.refl _)
  | electCheck p => exact h.step_electCheck hmt hstep
  | electAcquire p next => exact h.step_electAcquire hstep
  | electRenew p epoch => exact hmt.elim
  | settleRead p target => exact h.step_settleRead hmt hstep
  | settleCheck p => exact h.step_settleCheck hstep
  | settleWrite p => exact h.step_settleWrite hstep
  | settleAdopt p => exact h.step_settleAdopt hmt hstep
  | electReturn p => exact h.step_electReturn hmt hstep
  | exportCatalog p content => exact h.step_exportCatalog hstep
  | fence p readOk => exact h.step_fence hstep
  | put p => exact h.step_put hstep
  | fetch p => exact h.step_fetch hstep
  | verify p => exact h.step_verify hstep
  | commit p => exact h.step_commit hv hstep
  | abort p =>
    cases hstep
    exact h.setPhase_idle

theorem inv_of_reaches {node : P → N} (h : Reaches step NoGap (start node : World N P C) w) :
    w.Inv ∧ w.VerifiedInv :=
  h.inv (P := fun w ↦ w.Inv ∧ w.VerifiedInv) ⟨inv_start node, fun _ _ hp ↦ by cases hp⟩
    fun _ _ _ ↦ inv_step

omit [DecidableEq N] [DecidableEq P] in
theorem ElectionInv.adopted_of_verified (h : w.Inv) {n : N} (he : w.ElectionInv (epoch + 1) n)
    (hep : catalog.leaseEpoch = some epoch) (hv : w.verifyCatalogSealed catalog = true) :
    catalog ∈ (w.nodes n).adopted := by
  obtain ⟨lease, hls⟩ := Option.isSome_iff_exists.1 he.object
  obtain ⟨sealed, hsl, hmem⟩ := he.seals lease.sealed (h.objects _ lease hls).1.sealed
  simp only [verifyCatalogSealed, hep, hls, hsl, Option.all_some, decide_eq_true_eq] at hv
  exact hv ▸ hmem.resolve_left not_mem_nil

/-- **The fence holds**: in a run that hits no gap, a sync adopts only what it may. -/
theorem fenced_of_reaches {node : P → N} (h : Reaches step NoGap (start node : World N P C) w)
    (e : Event N P C) : w.Fenced e := by
  obtain ⟨hi, hv⟩ := inv_of_reaches h
  cases e with
  | commit p =>
    simp only [Fenced]
    split
    next catalog hp =>
      have hs : StampLe catalog.toCatalog catalog.writerHeld := hi.phaseInv hp
      obtain ⟨hcur, hchecked⟩ := hv p catalog hp
      unfold Current at hcur
      split at hcur
      next epoch hep =>
        obtain ⟨hsn, hsealed⟩ := hchecked epoch hep
        refine ⟨fun earlier ha e he ↦ ?_, fun election hl ↦ ?_⟩
        · exact Nat.le_trans ((hi.nodes _).seen earlier ha e he)
            (Nat.le_trans hsn (hs epoch hep))
        · have hinvElection := hi.elections election hl
          by_cases hle : election.1 ≤ epoch
          · exact .inl ⟨epoch, hep, hle⟩
          · -- Only the next epoch has been claimed, so the election is to that one.
            have hnx : election.1 = epoch + 1 := by
              have := hinvElection.le_highest
              omega
            rw [hnx] at hinvElection
            exact .inr (hinvElection.adopted_of_verified hi hep hsealed)
      · obtain ⟨hu, hnone⟩ := hcur
        refine ⟨fun earlier ha e he ↦ ?_, fun election hl ↦ ?_⟩
        · rw [hu earlier ha] at he
          cases he
        · rw [hnone] at hl
          cases hl
    · trivial
  | _ => trivial

end Step

end World

namespace FencingExample

open World

def nodes : World (Fin 3) (Fin 3) ℕ := start id

def sync (p : Fin 3) : List (Event (Fin 3) (Fin 3) ℕ) := [.fetch p, .verify p]

def led : List (Event (Fin 3) (Fin 3) ℕ) :=
  [.acquire 0 1, .readSeal 0, .claim 0, .commitLocal 0, .exportCatalog 0 10, .fence 0 true, .put 0]
    ++ sync 1 ++ [.commit 1]

def elected : List (Event (Fin 3) (Fin 3) ℕ) :=
  [.electCheck 1, .electAcquire 1 2, .claim 1, .settleRead 1 2, .settleCheck 1, .electReturn 1]

theorem fenced_of_reaches_elected :
    ∃ w : World (Fin 3) (Fin 3) ℕ, w.elections = [(2, 1)] ∧
      w.phases 2 = .verified ⟨⟨10, 0, some 1⟩, 1⟩ ∧ w.Fenced (.commit 2) := by
  obtain ⟨w, hw, he, hph⟩ :
      ∃ w, exec step nodes (led ++ elected ++ sync 2) = some w ∧ w.elections = [(2, 1)] ∧
        w.phases 2 = .verified ⟨⟨10, 0, some 1⟩, 1⟩ :=
    ⟨_, rfl, rfl, rfl⟩
  refine ⟨w, he, hph, fenced_of_reaches (reaches_of_exec hw ?_) (.commit 2)⟩
  -- the claims, the verifications, the commit and the election of the run
  refine ⟨trivial, trivial, by unfold NoGap Quiet; decide, trivial, trivial, trivial, trivial,
    trivial, show (1 : ℕ) ≤ 1 + 1 by decide, by unfold NoGap; decide, fun _ ↦ mem_cons_self,
    trivial, by unfold NoGap Quiet; decide, rfl, trivial,
    ⟨by unfold Quiet; decide, fun _ hsn ↦ (by cases hsn)⟩, trivial,
    show (2 : ℕ) ≤ 1 + 1 by decide, trivial⟩

theorem unstamped_is_adopted :
    ∃ w, exec step nodes (led ++ [.exportCatalog 2 20, .fence 2 true, .put 2] ++ sync 1) = some w ∧
      (w.step (.commit 1)).isSome = true ∧ ¬w.Fenced (.commit 1) := by
  refine ⟨_, rfl, rfl, fun hf ↦ ?_⟩
  have hw := hf.writer ⟨10, 0, some 1⟩ mem_cons_self 1 rfl
  exact absurd hw (by decide)

end FencingExample

end Koldstore.Fencing
