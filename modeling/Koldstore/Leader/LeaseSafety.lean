import Koldstore.Leader.Lease

/-!
# Takeovers of the lease are justified

Without a gap an unreleased lease is taken over only after its holder was silent for long enough,
and at most one node passes the check at a time. The first rests on what is known of records and
reads (`Inv`), the second on what a check that is under way has listed (`CheckInv`).
-/

namespace Koldstore.LeaderLease

open Machine List Function
open Function (update_of_ne update_self)

namespace Cluster

variable {N P S : Type*}

/-! ### The invariant -/

def SameHolder (w : Cluster N P S) (epoch : ℕ) (lease : Lease N S) : Prop :=
  ∃ object, w.objects epoch = some object ∧ object.holder = lease.holder

structure RecordInv (w : Cluster N P S) (seen : Observed) : Prop where
  exists_object : (w.objects seen.epoch).isSome = true
  ne_zero : seen.heartbeatMs ≠ 0
  claimedAt_le : w.claimedAt seen.epoch ≤ seen.since
  since_le : seen.since ≤ w.time
  unchanged : ∀ object, w.objects seen.epoch = some object →
    object.heartbeatMs = seen.heartbeatMs → ∀ x, (seen.epoch, x) ∈ w.renewals → x ≤ seen.since

structure ReadInv (w : Cluster N P S) (seen : Option Observed) (epoch : ℕ) (lease : Lease N S)
    (readAt : ℕ) : Prop where
  sameHolder : w.SameHolder epoch lease
  readAt_le : readAt ≤ w.time
  claimedAt_le : w.claimedAt epoch ≤ readAt
  released : lease.heartbeatMs = 0 → w.released epoch = true
  silent : ∀ record, seen = some record → record.Of epoch lease.heartbeatMs →
    w.Silent epoch record.since readAt

def PhaseInv (w : Cluster N P S) (n : N) (seen : Option Observed) : Phase N S → Prop
  | .read _ epoch lease readAt => w.ReadInv seen epoch lease readAt
  | .claiming _ _ _ (some (epoch, lease)) => (w.objects epoch).isSome = true ∧
      (lease.holder ≠ n → w.released epoch = false → w.Justified epoch lease)
  | .writing kind epoch lease => w.SameHolder epoch lease ∧
      (kind = .release → lease.heartbeatMs = 0)
  | _ => True

structure Inv (w : Cluster N P S) : Prop where
  released : ∀ epoch lease, w.objects epoch = some lease → lease.heartbeatMs = 0 →
    w.released epoch = true
  claimedAt : ∀ epoch, w.claimedAt epoch ≤ w.time
  renewals : ∀ epoch x, (epoch, x) ∈ w.renewals → x ≤ w.time
  records : ∀ p seen, w.observed p = some seen → w.RecordInv seen
  phases : ∀ p, w.PhaseInv (w.node p) (w.observed p) (w.phases p)

theorem inv_start (node : P → N) : (start node : Cluster N P S).Inv where
  released epoch lease h := by cases h
  claimedAt epoch := Nat.le_refl 0
  renewals epoch x h := nomatch h
  records p seen h := by cases h
  phases p := trivial

structure Keeps (w w' : Cluster N P S) : Prop where
  time : w.time ≤ w'.time
  objects : ∀ epoch lease, w.SameHolder epoch lease → w'.SameHolder epoch lease
  claimedAt : ∀ epoch, (w.objects epoch).isSome = true → w'.claimedAt epoch = w.claimedAt epoch
  released : ∀ epoch, w.released epoch = true → w'.released epoch = true
  renewals : ∀ epoch x, (epoch, x) ∈ w'.renewals → (epoch, x) ∈ w.renewals ∨ w.time ≤ x

variable {seen : Option Observed}

section Keep

variable {w w' : Cluster N P S} {p : P} {phase : Phase N S} {epoch : ℕ} {lease : Lease N S}

theorem sameHolder_of_objects (h : w.objects epoch = some lease) : w.SameHolder epoch lease :=
  ⟨lease, h, rfl⟩

theorem SameHolder.isSome (h : w.SameHolder epoch lease) : (w.objects epoch).isSome = true := by
  obtain ⟨object, ho, -⟩ := h
  rw [ho]
  rfl

theorem Keeps.isSome (h : w.Keeps w') (hep : (w.objects epoch).isSome = true) :
    (w'.objects epoch).isSome = true := by
  obtain ⟨lease, hls⟩ := Option.isSome_iff_exists.1 hep
  exact (h.objects epoch lease (sameHolder_of_objects hls)).isSome

theorem Silent.keeps (h : w.Keeps w') {since till : ℕ} (ht : till ≤ w.time)
    (hs : w.Silent epoch since till) : w'.Silent epoch since till := by
  intro x hx
  rcases h.renewals epoch x hx with hx | hx
  · exact hs x hx
  · exact .inr (Nat.le_trans ht hx)

theorem Justified.keeps (h : w.Keeps w') (hep : (w.objects epoch).isSome = true)
    (hj : w.Justified epoch lease) : w'.Justified epoch lease := by
  obtain ⟨since, till, hc, hl, ht, hs⟩ := hj
  refine ⟨since, till, ?_, hl, Nat.le_trans ht h.time, hs.keeps h ht⟩
  rw [h.claimedAt epoch hep]
  exact hc

theorem PhaseInv.keeps (h : w.Keeps w') {n : N} (hph : w.PhaseInv n seen phase) :
    w'.PhaseInv n seen phase := by
  cases phase with
  | idle => trivial
  | listed purpose epoch => trivial
  | committing epoch => trivial
  | read purpose epoch lease readAt =>
    obtain ⟨hh, hreadAt, hc, hr, hs⟩ := hph
    refine ⟨h.objects epoch lease hh, Nat.le_trans hreadAt h.time, ?_,
      fun hz ↦ h.released epoch (hr hz),
      fun record he hof ↦ (hs record he hof).keeps h hreadAt⟩
    rw [h.claimedAt epoch hh.isSome]
    exact hc
  | writing kind epoch lease => exact ⟨h.objects epoch lease hph.1, hph.2⟩
  | claiming ttlS now next existing =>
    rcases existing with _ | ⟨epoch, lease⟩
    · trivial
    · obtain ⟨hep, hj⟩ := hph
      refine ⟨h.isSome hep, fun hh hr ↦ ?_⟩
      refine (hj hh ?_).keeps h hep
      exact Bool.eq_false_iff.2 fun ht ↦ by
        rw [h.released epoch ht] at hr
        cases hr

theorem RecordInv.frame {seen : Observed} (h : w.RecordInv seen) (ho : w'.objects = w.objects)
    (hclaimedAt : w'.claimedAt = w.claimedAt) (hti : w.time ≤ w'.time)
    (hr : w'.renewals = w.renewals) : w'.RecordInv seen := by
  obtain ⟨hsome, hz, hc, hs, hsm⟩ := h
  refine ⟨?_, hz, ?_, Nat.le_trans hs hti, ?_⟩
  · rwa [ho]
  · rwa [hclaimedAt]
  · rwa [ho, hr]

theorem Inv.setPhase [DecidableEq P] (h : w.Inv)
    (hph : w.PhaseInv (w.node p) (w.observed p) phase) : (w.setPhase p phase).Inv := by
  have hkp : w.Keeps (w.setPhase p phase) :=
    ⟨Nat.le_refl _, fun _ _ ↦ id, fun _ _ ↦ rfl, fun _ ↦ id, fun _ _ ↦ .inl⟩
  refine ⟨h.released, h.claimedAt, h.renewals,
    fun q seen hsn ↦ (h.records q seen hsn).frame rfl rfl (Nat.le_refl _) rfl,
    fun q ↦ .keeps hkp ?_⟩
  revert q
  show ∀ q, w.PhaseInv (w.node q) (w.observed q) (update w.phases p phase q)
  exact (forall_update_iff w.phases fun q ↦ w.PhaseInv (w.node q) (w.observed q)).2
    ⟨hph, fun q _ ↦ h.phases q⟩

theorem Inv.phaseInv (h : w.Inv) (hp : w.phases p = phase) :
    w.PhaseInv (w.node p) (w.observed p) phase := hp ▸ h.phases p

theorem Inv.tick (h : w.Inv) (ms : ℕ) : Inv { w with time := w.time + ms } := by
  have hti : w.time ≤ w.time + ms := Nat.le_add_right _ _
  have hkp : w.Keeps { w with time := w.time + ms } :=
    ⟨hti, fun _ _ ↦ id, fun _ _ ↦ rfl, fun _ ↦ id, fun _ _ ↦ .inl⟩
  refine ⟨h.released, fun epoch ↦ Nat.le_trans (h.claimedAt epoch) hti,
    fun epoch x hx ↦ Nat.le_trans (h.renewals epoch x hx) hti,
    fun p seen hsn ↦ (h.records p seen hsn).frame rfl rfl hti rfl,
    fun p ↦ (h.phases p).keeps hkp⟩

theorem Inv.setObserved [DecidableEq P] (h : w.Inv)
    (hr : ∀ record, seen = some record → w.RecordInv record)
    (hph : w.PhaseInv (w.node p) seen phase) : ((w.setObserved p seen).setPhase p phase).Inv := by
  have hkp : w.Keeps ((w.setObserved p seen).setPhase p phase) :=
    ⟨Nat.le_refl _, fun _ _ ↦ id, fun _ _ ↦ rfl, fun _ ↦ id, fun _ _ ↦ .inl⟩
  refine ⟨h.released, h.claimedAt, h.renewals, fun q record hq ↦ ?_, fun q ↦ .keeps hkp ?_⟩
  · have hi : w.RecordInv record := by
      replace hq : update w.observed p seen q = some record := hq
      by_cases hqp : q = p
      · rw [hqp, update_self] at hq
        exact hr record hq
      · rw [update_of_ne hqp] at hq
        exact h.records q record hq
    exact hi.frame rfl rfl (Nat.le_refl _) rfl
  · show w.PhaseInv (w.node q) (update w.observed p seen q)
      (update w.phases p phase q)
    by_cases hqp : q = p
    · rw [hqp, update_self, update_self]
      exact hph
    · rw [update_of_ne hqp, update_of_ne hqp]
      exact h.phases q

/-! ### Writes of lease objects -/

theorem objects_setObject (epoch' : ℕ) : (w.setObject epoch lease).objects epoch' =
      if epoch' = epoch then some lease else w.objects epoch' := by
  show update w.objects epoch (some lease) epoch' = _
  exact update_apply _ _ _ _

theorem SameHolder.setObject (hw : w.SameHolder epoch lease) {epoch' : ℕ} {lease' : Lease N S}
    (h : w.SameHolder epoch' lease') : (w.setObject epoch lease).SameHolder epoch' lease' := by
  obtain ⟨object, ho, hh⟩ := hw
  obtain ⟨object', ho', hh'⟩ := h
  unfold SameHolder
  rw [objects_setObject]
  split
  next heq =>
    rw [heq, ho] at ho'
    cases ho'
    exact ⟨lease, rfl, hh.symm.trans hh'⟩
  · exact ⟨object', ho', hh'⟩

/-- What a write of a lease object has to show, with what is recorded beside it. -/
theorem Inv.write {renewals : List (ℕ × ℕ)} {released : ℕ → Bool} {claimedAt : ℕ → ℕ} (h : w.Inv)
    (hh : ∀ e l, w.SameHolder e l → (w.setObject epoch lease).SameHolder e l)
    (hc : ∀ e, (w.objects e).isSome = true → claimedAt e = w.claimedAt e)
    (hle : ∀ e, claimedAt e ≤ w.time) (hr : ∀ e, w.released e = true → released e = true)
    (hz : lease.heartbeatMs = 0 → released epoch = true)
    (hx : ∀ e x, (e, x) ∈ renewals → (e, x) ∈ w.renewals ∨ e = epoch ∧ x = w.time)
    (hs : ∀ p seen, w.observed p = some seen → seen.Of epoch lease.heartbeatMs →
      ∀ x, (epoch, x) ∈ renewals → x ≤ seen.since) (highest : ℕ) :
    Inv { w.setObject epoch lease with
      renewals := renewals, released := released, claimedAt := claimedAt, highest := highest } := by
  have hkp : w.Keeps { w.setObject epoch lease with
      renewals := renewals, released := released, claimedAt := claimedAt, highest := highest } :=
    ⟨Nat.le_refl _, hh, hc, hr, fun e x hm ↦ (hx e x hm).imp_right fun he ↦ Nat.le_of_eq he.2.symm⟩
  refine ⟨fun e l hl hl₀ ↦ ?_, hle, fun e x hm ↦ ?_, fun p seen hsn ↦ ?_,
    fun p ↦ (h.phases p).keeps hkp⟩
  · replace hl : (w.setObject epoch lease).objects e = some l := hl
    rw [objects_setObject] at hl
    split at hl
    next he =>
      cases hl
      exact he ▸ hz hl₀
    · exact hr e (h.released e l hl hl₀)
  · exact (hx e x hm).elim (h.renewals e x) fun he ↦ Nat.le_of_eq he.2
  · obtain ⟨hsome, hne, hsc, hst, hu⟩ := h.records p seen hsn
    refine ⟨hkp.isSome hsome, hne, Nat.le_trans (Nat.le_of_eq (hc _ hsome)) hsc, hst,
      fun object ho hb x hm ↦ ?_⟩
    replace ho : (w.setObject epoch lease).objects seen.epoch = some object := ho
    rw [objects_setObject] at ho
    split at ho
    next he =>
      cases ho
      exact hs p seen hsn ⟨he, hb.symm⟩ x (he ▸ hm)
    next he => exact hu object ho hb x ((hx _ x hm).resolve_right fun h ↦ he h.1)

theorem Inv.renew (h : w.Inv) (hh : w.SameHolder epoch lease) (hz : lease.heartbeatMs ≠ 0)
    (hf : ∀ q seen, w.observed q = some seen → ¬seen.Of epoch lease.heartbeatMs) :
    Inv { w.setObject epoch lease with renewals := (epoch, w.time) :: w.renewals } := by
  refine h.write (fun _ _ ↦ hh.setObject) (fun _ _ ↦ rfl) h.claimedAt (fun _ ↦ id)
    (absurd · hz) (fun e x hx ↦ ?_) (fun q seen hsn hof ↦ absurd hof (hf q seen hsn)) w.highest
  rw [mem_cons, Prod.mk.injEq] at hx
  exact hx.symm

theorem Inv.release (h : w.Inv) (hh : w.SameHolder epoch lease) (hz : lease.heartbeatMs = 0) :
    Inv { w.setObject epoch lease with released := update w.released epoch true } := by
  refine h.write (fun _ _ ↦ hh.setObject) (fun _ _ ↦ rfl) h.claimedAt (fun e ht ↦ ?_)
    (fun _ ↦ update_self ..) (fun _ _ ↦ .inl) (fun q seen hsn hof ↦ ?_) w.highest
  · rw [update_apply, ht, ite_self]
  · exact absurd (hof.2.trans hz) (h.records q seen hsn).ne_zero

theorem Inv.seal (h : w.Inv) (hh : w.SameHolder epoch lease)
    (hsm : ∀ object, w.objects epoch = some object → object.heartbeatMs = lease.heartbeatMs) :
    (w.setObject epoch lease).Inv := by
  obtain ⟨before, hb, -⟩ := id hh
  refine h.write (fun _ _ ↦ hh.setObject) (fun _ _ ↦ rfl) h.claimedAt (fun _ ↦ id)
    (fun hz ↦ h.released epoch before hb ((hsm before hb).trans hz)) (fun _ _ ↦ .inl)
    (fun q seen hsn hof ↦ ?_) w.highest
  obtain ⟨rfl, he⟩ := hof
  exact (h.records q seen hsn).unchanged before hb ((hsm before hb).trans he.symm)

theorem Inv.claim (h : w.Inv) (ha : w.objects epoch = none) (hz : lease.heartbeatMs ≠ 0)
    (highest : ℕ) :
    Inv { w.setObject epoch lease with
      highest := highest, claimedAt := update w.claimedAt epoch w.time } := by
  have hne : ∀ e, (w.objects e).isSome = true → e ≠ epoch := by
    rintro e hsome rfl
    rw [ha] at hsome
    cases hsome
  refine h.write (fun e l hh ↦ ?_) (fun e hsome ↦ update_of_ne (hne e hsome) _ _)
    ((forall_update_iff w.claimedAt fun _ claimed ↦ claimed ≤ w.time).2
      ⟨Nat.le_refl _, fun e _ ↦ h.claimedAt e⟩) (fun _ ↦ id) (absurd · hz) (fun _ _ ↦ .inl)
    (fun q seen hsn hof ↦ absurd hof.1 (hne _ (h.records q seen hsn).exists_object)) highest
  obtain ⟨object, ho, hsm⟩ := id hh
  refine ⟨object, ?_, hsm⟩
  rw [objects_setObject, if_neg (hne e hh.isSome)]
  exact ho

end Keep

section Read

variable {w : Cluster N P S} {p : P} {epoch readAt : ℕ} {lease : Lease N S}

theorem Inv.readInv (h : w.Inv) (hls : w.objects epoch = some lease) :
    w.ReadInv (w.observed p) epoch lease w.time where
  sameHolder := sameHolder_of_objects hls
  readAt_le := Nat.le_refl _
  claimedAt_le := h.claimedAt epoch
  released := h.released epoch lease hls
  silent := by
    rintro record hr ⟨rfl, hb⟩ x hx
    exact .inl ((h.records p record hr).unchanged lease hls hb.symm x hx)

theorem Inv.recordInv (h : w.Inv)
    (hrd : w.ReadInv seen epoch lease readAt) (hz : lease.heartbeatMs ≠ 0) :
    w.RecordInv ⟨epoch, lease.heartbeatMs, w.time⟩ where
  exists_object := hrd.sameHolder.isSome
  ne_zero := hz
  claimedAt_le := h.claimedAt epoch
  since_le := Nat.le_refl _
  unchanged _ _ _ x hx := h.renewals epoch x hx

/-- **A takeover is justified** when the wait is over. -/
theorem Inv.takeover (h : w.Inv) (hrd : w.ReadInv (w.observed p) epoch lease readAt)
    (hla : ∀ seen, w.observed p = some seen → seen.Of epoch lease.heartbeatMs →
      seen.since + lease.ttlMs ≤ w.time → seen.since + lease.ttlMs ≤ readAt)
    (hw : (takeoverWaitMs (w.observed p) w.time epoch lease).1 = 0)
    (hr : w.released epoch = false) : w.Justified epoch lease := by
  have hz : lease.heartbeatMs ≠ 0 := fun hz ↦ by
    rw [hrd.released hz] at hr
    cases hr
  -- With nothing recorded the wait is the whole time to live, so that is zero.
  have hn : lease.ttlMs - 0 = 0 → w.Justified epoch lease := fun ht ↦
    ⟨w.time, w.time, h.claimedAt epoch, by omega, Nat.le_refl _,
      fun x hx ↦ .inl (h.renewals epoch x hx)⟩
  simp only [takeoverWaitMs, if_neg hz, silentFor] at hw
  cases hsn : w.observed p with
  | none =>
    rw [hsn] at hw
    exact hn hw
  | some seen =>
    rw [hsn] at hw
    simp only at hw
    split at hw
    next hof =>
      obtain ⟨-, -, hc, hs, -⟩ := h.records p seen hsn
      have hlo : seen.since + lease.ttlMs ≤ w.time := by
        replace hw : lease.ttlMs - (w.time - seen.since) = 0 := hw
        omega
      refine ⟨seen.since, readAt, hof.1 ▸ hc, hla seen hsn hof hlo, hrd.readAt_le,
        hrd.silent seen hsn hof⟩
    · exact hn hw

theorem Inv.recordInv_takeover (h : w.Inv) (hrd : w.ReadInv (w.observed p) epoch lease readAt)
    {record : Observed} (hr : (takeoverWaitMs (w.observed p) w.time epoch lease).2 = some record) :
    w.RecordInv record := by
  unfold takeoverWaitMs at hr
  split at hr
  · exact h.records p record hr
  next hz =>
    simp only [silentFor, Option.some.injEq] at hr
    cases hsn : w.observed p with
    | none =>
      rw [hsn] at hr
      exact hr ▸ h.recordInv hrd hz
    | some seen =>
      rw [hsn] at hr
      simp only at hr
      split at hr
      · exact hr ▸ h.records p seen hsn
      · exact hr ▸ h.recordInv hrd hz

theorem Inv.act [DecidableEq N] [DecidableEq P] (h : w.Inv) {purpose : Purpose} {now : ℕ}
    {claims : Bool} (hp : w.phases p = .read purpose epoch lease readAt)
    (hmt : w.NoGap (.act p now claims)) : (w.act p epoch lease claims purpose).Inv := by
  have hrd : w.ReadInv (w.observed p) epoch lease readAt := h.phaseInv hp
  simp only [NoGap, hp] at hmt
  cases purpose with
  | acquire ttlS now' =>
    show (w.actAcquire p ttlS now' epoch lease claims).Inv
    have hc : ∀ {seen}, (lease.holder ≠ w.node p → w.released epoch = false →
        w.Justified epoch lease) → w.PhaseInv (w.node p) seen
          (if claims then .claiming ttlS now' (epoch + 1) (some (epoch, lease)) else .idle) := by
      intro seen hj
      cases claims with
      | false => trivial
      | true => exact ⟨hrd.sameHolder.isSome, hj⟩
    by_cases hh : lease.holder = w.node p
    · rw [actAcquire, if_pos hh]
      by_cases he : lease.expired now' = true
      · rw [if_pos he]
        exact h.setPhase (hc fun ho ↦ absurd hh ho)
      · rw [if_neg he]
        refine h.setPhase ?_
        cases claims with
        | false => trivial
        | true => exact ⟨hrd.sameHolder, nofun⟩
    · rw [actAcquire, if_neg hh]
      refine h.setObserved (fun record ↦ h.recordInv_takeover hrd) ?_
      by_cases hw : (takeoverWaitMs (w.observed p) w.time epoch lease).1 = 0
      · rw [if_pos hw]
        exact hc fun _ ↦ h.takeover hrd hmt hw
      · rw [if_neg hw]
        trivial
  | renew held now' =>
    refine h.setPhase ?_
    split
    · exact ⟨hrd.sameHolder, nofun⟩
    · trivial
  | release held =>
    refine h.setPhase ?_
    split
    · exact ⟨hrd.sameHolder, fun _ ↦ rfl⟩
    · trivial
  | require held => exact h.setPhase trivial
  | settleSeal => exact h.setPhase ⟨hrd.sameHolder, nofun⟩

end Read

section Step

variable [DecidableEq N] [DecidableEq P] {w w' : Cluster N P S}

theorem Inv.step_overwrite (h : w.Inv) {p : P} {sealedSha : Option S}
    (hmt : w.NoGap (.overwrite p sealedSha)) (hstep : w.step (.overwrite p sealedSha) = some w') :
    w'.Inv := by
  simp only [step] at hstep
  simp only [NoGap] at hmt
  split at hstep
  next acquires epoch lease hp =>
    rw [hp] at hmt
    cases hstep
    refine (h.renew (h.phaseInv hp).1 hmt.1 hmt.2).setPhase ?_
    cases acquires <;> trivial
  next epoch lease hp =>
    cases hstep
    obtain ⟨hh, hz⟩ := h.phaseInv hp
    exact (h.release hh (hz rfl)).setPhase trivial
  next epoch lease hp =>
    rw [hp] at hmt
    cases hstep
    have hh : w.SameHolder epoch { lease with sealedSha := sealedSha } := (h.phaseInv hp).1
    exact (h.seal hh hmt).setPhase
      ⟨hh.setObject hh, nofun⟩
  · cases hstep

/-- **One step** that hits no gap keeps the invariant. -/
theorem inv_step {e : Event P S} (h : w.Inv) (hmt : w.NoGap e) (hstep : w.step e = some w') :
    w'.Inv := by
  cases e with
  | tick ms =>
    cases hstep
    exact h.tick ms
  | list p purpose =>
    simp only [step] at hstep
    split at hstep
    · split at hstep
      · cases hstep
        refine h.setPhase ?_
        split <;> trivial
      · cases hstep
    · cases hstep
  | get p =>
    simp only [step] at hstep
    split at hstep
    · obtain ⟨lease, hls, rfl⟩ := Option.map_eq_some_iff.1 hstep
      exact h.setPhase (h.readInv hls)
    · cases hstep
  | act p now claims =>
    simp only [step] at hstep
    split at hstep
    next hp =>
      cases hstep
      exact h.act hp hmt
    · cases hstep
  | claim p sealedSha =>
    simp only [step] at hstep
    simp only [NoGap] at hmt
    split at hstep
    next hp =>
      rw [hp] at hmt
      split at hstep
      · cases hstep
        exact h.setPhase trivial
      next ha =>
        cases hstep
        exact (h.claim ha hmt.1 _).setPhase trivial
    · cases hstep
  | overwrite p sealedSha => exact h.step_overwrite hmt hstep
  | commit p =>
    simp only [step] at hstep
    split at hstep
    next epoch hp =>
      cases hstep
      have hkp : w.Keeps { w with
          localEpoch := update w.localEpoch (w.node p) epoch } :=
        ⟨Nat.le_refl _, fun _ _ ↦ id, fun _ _ ↦ rfl, fun _ ↦ id, fun _ _ ↦ .inl⟩
      have hc : Inv { w with
          localEpoch := update w.localEpoch (w.node p) epoch } :=
        ⟨h.released, h.claimedAt, h.renewals,
          fun q seen hsn ↦ (h.records q seen hsn).frame rfl rfl (Nat.le_refl _) rfl,
          fun q ↦ (h.phases q).keeps hkp⟩
      exact hc.setPhase trivial
    · cases hstep
  | demote p =>
    simp only [step] at hstep
    split at hstep
    · cases hstep
      exact h.setPhase trivial
    · cases hstep
  | abort p =>
    cases hstep
    exact h.setPhase trivial

/-! ### Checks under way -/

omit [DecidableEq N] [DecidableEq P] in
theorem eq_of_checks_listed {purpose : Purpose}
    {listed epoch : ℕ} (h : (Phase.listed purpose listed : Phase N S).checks = some epoch) :
    listed = epoch := by
  cases purpose with
  | require held => exact Option.some.inj h
  | _ => cases h

/-- What a check has listed is still the highest epoch. -/
def CheckInv (w : Cluster N P S) : Prop := ∀ p epoch, (w.phases p).checks = some epoch →
  w.highest = epoch

omit [DecidableEq N] in
theorem CheckInv.setPhase (h : w.CheckInv) {p : P} {phase : Phase N S}
    (hph : ∀ epoch, phase.checks = some epoch → w.highest = epoch) :
    (w.setPhase p phase).CheckInv :=
  (forall_update_iff w.phases fun _ phase ↦ ∀ epoch, phase.checks = some epoch →
    w.highest = epoch).2 ⟨hph, fun q _ ↦ h q⟩

theorem CheckInv.act (h : w.CheckInv) (p : P) (epoch : ℕ) (lease : Lease N S) (claims : Bool)
    (purpose : Purpose) : (w.act p epoch lease claims purpose).CheckInv := by
  cases purpose with
  | acquire ttlS now =>
    simp only [Cluster.act, actAcquire]
    split_ifs
    -- none of the phases that follow is a check, and the record is no part of the invariant
    all_goals exact CheckInv.setPhase h (by simp [Phase.checks])
  | renew held now | release held =>
    refine h.setPhase ?_
    split <;> simp [Phase.checks]
  | require held | settleSeal => exact h.setPhase (by simp [Phase.checks])

theorem CheckInv.step {e : Event P S} (h : w.CheckInv) (hmt : w.NoGap e)
    (hstep : w.step e = some w') : w'.CheckInv := by
  cases e with
  | tick ms =>
    cases hstep
    exact h
  | list p purpose =>
    simp only [Cluster.step] at hstep
    split at hstep
    · split at hstep
      · cases hstep
        refine h.setPhase fun epoch hch ↦ ?_
        split at hch
        · cases hch
        · cases hch
        · cases hch
        · exact eq_of_checks_listed hch
      · cases hstep
    · cases hstep
  | get p =>
    simp only [Cluster.step] at hstep
    split at hstep
    next purpose epoch hp =>
      obtain ⟨lease, -, rfl⟩ := Option.map_eq_some_iff.1 hstep
      refine h.setPhase fun epoch' hch ↦ h p epoch' ?_
      rw [hp]
      cases purpose with
      | require held => exact hch
      | _ => cases hch
    · cases hstep
  | act p now claims =>
    simp only [Cluster.step] at hstep
    split at hstep
    · cases hstep
      exact h.act p _ _ claims _
    · cases hstep
  | claim p sealedSha =>
    simp only [Cluster.step] at hstep
    simp only [NoGap] at hmt
    split at hstep
    next hp =>
      rw [hp] at hmt
      split at hstep
      · cases hstep
        exact h.setPhase (by simp [Phase.checks])
      next ha =>
        cases hstep
        -- no check is under way
        refine CheckInv.setPhase (fun q epoch hch ↦ ?_) (by simp [Phase.checks])
        replace hch : (w.phases q).checks = some epoch := hch
        rw [hmt.2 ha q] at hch
        cases hch
    · cases hstep
  | overwrite p sealedSha =>
    simp only [Cluster.step] at hstep
    split at hstep
    next acquires _ _ _ =>
      cases hstep
      exact CheckInv.setPhase h (by cases acquires <;> simp [Phase.checks])
    · cases hstep
      exact CheckInv.setPhase h (by simp [Phase.checks])
    · cases hstep
      exact CheckInv.setPhase h (by simp [Phase.checks])
    · cases hstep
  | commit p | demote p =>
    simp only [Cluster.step] at hstep
    split at hstep
    · cases hstep
      exact CheckInv.setPhase h (by simp [Phase.checks])
    · cases hstep
  | abort p =>
    cases hstep
    exact h.setPhase (by simp [Phase.checks])

theorem checkInv_of_reaches {node : P → N} (h : Reaches step NoGap (start node) w) : w.CheckInv :=
  h.inv (P := CheckInv) (fun _ _ hch ↦ by cases hch) fun _ _ _ ↦ CheckInv.step

theorem inv_of_reaches {node : P → N} (h : Reaches step NoGap (start node) w) : w.Inv :=
  h.inv (P := Inv) (inv_start node) fun _ _ _ ↦ inv_step

/-- **Takeovers are justified and the check is exclusive**, in every run that hits no gap. -/
theorem safe_of_reaches {node : P → N} (h : Reaches step NoGap (start node) w) {e : Event P S}
    (hmeets : w.NoGap e) : w.Safe e := by
  have hi := inv_of_reaches h
  cases e with
  | claim p sealedSha =>
    simp only [Safe]
    split
    next hp => exact fun _ ↦ (hi.phaseInv hp).2
    · trivial
  | act p now claims =>
    simp only [Safe]
    split
    next held epoch lease readAt hp =>
      rintro hps n hn now' ⟨lease', -, hls', hh', -⟩
      -- The lease that was read is still the highest, and has kept its holder.
      have hhi : w.highest = epoch := checkInv_of_reaches h p epoch (by rw [hp]; rfl)
      obtain ⟨object, ho, hh⟩ := (hi.phaseInv hp).sameHolder
      rw [hhi, ho] at hls'
      cases hls'
      exact hn (hh'.symm.trans (hh.trans hps.2.1))
    · trivial
  | _ => trivial

end Step

end Cluster

namespace LeaseExample

open Cluster

def pair : Cluster Bool Bool Unit := start id

def watched : List (Event Bool Unit) :=
  [.list false (.acquire 3 100), .claim false none, .commit false,
    .list true (.acquire 3 100), .get true, .act true 100 true]

def silence : List (Event Bool Unit) :=
  [.tick 3000, .list true (.acquire 3 3100), .get true, .act true 3100 true]

/-- The takeover after three seconds of silence, and a check of the holder, which no other node
would pass. -/
theorem safe_of_reaches_silence :
    (∃ w : Cluster Bool Bool Unit, w.objects 2 = none ∧ w.released 1 = false ∧
      w.phases true = .claiming 3 3100 2 (some (1, ⟨false, 100, 3, none⟩)) ∧
      w.Safe (.claim true none)) ∧
    ∃ w : Cluster Bool Bool Unit, w.Passes false 1 1 ⟨false, 100, 3, none⟩ 200 ∧
      ∀ n ≠ false, ∀ now', ¬w.WouldPass n now' := by
  refine ⟨?_, ?_⟩
  · obtain ⟨w, hw, ha, hr, hph⟩ : ∃ w, exec step pair (watched ++ silence) = some w ∧
        w.objects 2 = none ∧ w.released 1 = false ∧
        w.phases true = .claiming 3 3100 2 (some (1, ⟨false, 100, 3, none⟩)) :=
      ⟨_, rfl, rfl, rfl, rfl⟩
    have hrun : MeetsAll step NoGap pair (watched ++ silence) := by
      refine ⟨trivial, ⟨Nat.succ_ne_zero _, fun _ q ↦ by cases q <;> rfl⟩, trivial, trivial,
        trivial, ?_, trivial, trivial, trivial, ?_, trivial⟩
      · nofun
      · intro seen hsn _ _
        cases hsn
        decide
    have hmt : w.NoGap (.claim true none) := by
      simp only [NoGap, hph]
      refine ⟨by decide, fun _ q ↦ ?_⟩
      cases hw
      cases q <;> rfl
    exact ⟨w, ha, hr, hph, safe_of_reaches (reaches_of_exec hw hrun) hmt⟩
  · obtain ⟨w, hw, hph, hps⟩ : ∃ w,
        exec step pair (watched ++ [.list false (.require 1), .get false]) = some w ∧
        w.phases false = .read (.require 1) 1 ⟨false, 100, 3, none⟩ 0 ∧
        w.Passes false 1 1 ⟨false, 100, 3, none⟩ 200 :=
      ⟨_, rfl, rfl, rfl, rfl, by decide⟩
    have hrun : MeetsAll step NoGap pair (watched ++ [.list false (.require 1), .get false]) := by
      refine ⟨trivial, ⟨Nat.succ_ne_zero _, fun _ q ↦ by cases q <;> rfl⟩, trivial, trivial,
        trivial, ?_, trivial, trivial, trivial⟩
      nofun
    have hsafe := safe_of_reaches (reaches_of_exec hw hrun) (e := .act false 200 true)
      (by simp only [NoGap, hph])
    simp only [Safe, hph] at hsafe
    exact ⟨w, hps, fun n hn ↦ hsafe hps n (by cases hw; exact hn)⟩

theorem live_lease_is_taken :
    (∃ w, exec step pair (watched ++ [.tick 1000, .list true (.acquire 3 1100), .get true,
        .tick 500, .list false (.renew 1 1600), .get false, .act false 1600 true,
        .overwrite false none, .tick 1500, .act true 3100 true]) = some w ∧
      ¬w.Safe (.claim true none)) ∧
    ∃ w, exec step pair (watched ++ .list false (.require 1) :: silence ++
        [.claim true none, .commit true, .get false]) = some w ∧
      ¬w.Safe (.act false 3100 true) := by
  refine ⟨⟨_, rfl, fun hs ↦ ?_⟩, ⟨_, rfl, fun hs ↦ ?_⟩⟩
  · obtain ⟨since, till, -, hl, ht, hi⟩ := hs rfl nofun rfl
    replace hl : since + 3000 ≤ till := hl
    replace ht : till ≤ 3000 := ht
    rcases hi 1500 mem_cons_self with h | h <;> omega
  · exact hs ⟨rfl, rfl, by decide⟩ true nofun 3100 ⟨_, rfl, rfl, rfl, by decide⟩

end LeaseExample

end Koldstore.LeaderLease
