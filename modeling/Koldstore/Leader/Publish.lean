import Koldstore.Basic.Runs

/-!
# Publication numbers of the leader catalog

The leader publishes its cold-tier catalog as one object on shared storage, and followers adopt it.
-/

namespace Koldstore.Leader

open Machine List Function

/-! ### Exports and catalogs -/

/-- The largest publication number (`i64::MAX`). -/
def maxPublication : ℕ := 2 ^ 63 - 1

def tombstoneChunksMax : ℕ := 100

structure TableState (S M : Type*) where
  generation : ℕ
  segments : List S
  tombstones : List M
  deriving DecidableEq

structure Export (S M : Type*) where
  taken : ℕ
  state : TableState S M
  leaseEpoch : Option ℕ
  deriving DecidableEq

structure Catalog (S M : Type*) extends Export S M where
  publication : ℕ
  deriving DecidableEq

section Contents

variable {S M : Type*}

def TableState.leaderTombstones (limit : ℕ) (state : TableState S M) : List M :=
  state.tombstones.take (limit * tombstoneChunksMax)

def TableState.tombstoneChunks (limit : ℕ) (state : TableState S M) : List (List M) :=
  (((state.leaderTombstones limit).drop limit).toChunksAux (max limit 1 - 1) 0).2

def Catalog.Contains (catalog : Catalog S M) (e : Export S M) : Prop :=
  e.taken < catalog.taken ∨ catalog.state = e.state

def nextPublication (mine : Export S M) : Option (Catalog S M) → Except String ℕ
  | none => .ok 1
  | some existing =>
    match mine.leaseEpoch, existing.leaseEpoch with
    | some epoch, some theirs =>
      if epoch < theirs then
        .error (s!"a catalog from a newer leader lease epoch is already published (epoch {theirs}, "
          ++ s!"this node {epoch})")
      else floor mine existing
    | _, _ => floor mine existing
where
  floor (mine : Export S M) (existing : Catalog S M) : Except String ℕ :=
    let published := existing.state.generation
    let generation := mine.state.generation
    if generation < published then
      .error (s!"a newer leader catalog is already published (generation {published}, this node "
        ++ s!"{generation})")
    else .ok (min (existing.publication + 1) maxPublication)

theorem nextPublication_eq_ok {mine : Export S M} {existing : Option (Catalog S M)} {n : ℕ}
    (h : nextPublication mine existing = .ok n) :
    ∀ c, existing = some c → c.state.generation ≤ mine.state.generation ∧
      n = min (c.publication + 1) maxPublication := by
  rintro c rfl
  have hfl : nextPublication.floor mine c = .ok n := by
    rw [nextPublication] at h
    split at h
    · split at h
      · cases h
      · exact h
    · exact h
  unfold nextPublication.floor at hfl
  dsimp only at hfl
  split at hfl
  · cases hfl
  next hle => exact ⟨Nat.le_of_not_lt hle, (Except.ok.inj hfl).symm⟩

end Contents

/-! ### Publishers and followers -/

inductive Phase (S M : Type*)
  | idle
  | failed (error : String)
  | exported (e : Export S M)
  | staged (e : Export S M)
  | numbered (e : Export S M) (existing : Option (Catalog S M)) (publication : ℕ)
  | written (catalog : Catalog S M)
  | confirmed (catalog : Catalog S M)

structure Follower (S M : Type*) where
  fetched : Option (Catalog S M)
  adopted : Option (Catalog S M)
  seenLeaderEpoch : ℕ

inductive PutOutcome
  | stored
  | failed (wasStored : Bool) (error : String)
  deriving DecidableEq

def PutOutcome.stores : PutOutcome → Bool
  | .stored => true
  | .failed wasStored _ => wasStored

structure World (S M P F : Type*) where
  earlier : List (TableState S M)
  current : TableState S M
  leaseEpoch : Option ℕ
  published : Option (Catalog S M)
  sidecars : List (List M)
  publishers : P → Phase S M
  followers : F → Follower S M
  writes : List (Catalog S M)
  returned : List (Export S M × ℕ)

inductive Event (S M P F : Type*)
  | advance (state : TableState S M)
  | setLocalEpoch (epoch : Option ℕ)
  | exportValue (p : P) (lease : Except String Unit)
  | putSidecars (p : P) (failure : Option (ℕ × String))
  | readExisting (p : P) (fails : Bool)
  | putCatalog (p : P) (lease : Except String Unit) (outcome : PutOutcome)
  | confirm (p : P) (lease : Except String Unit)
  | cleanUp (p : P) (kept : List (List M))
  | fetch (f : F)
  | adopt (f : F) (accepted : Bool)

namespace World

variable {S M P F : Type*} [DecidableEq M] [DecidableEq P] [DecidableEq F]

def setPhase (w : World S M P F) (p : P) (phase : Phase S M) : World S M P F :=
  { w with publishers := update w.publishers p phase }

def setFollower (w : World S M P F) (f : F) (follower : Follower S M) : World S M P F :=
  { w with followers := update w.followers f follower }

/-- One step; `limit` is the number of delete markers a catalog holds inline. -/
def step (limit : ℕ) (w : World S M P F) : Event S M P F → Option (World S M P F)
  | .advance state => some { w with earlier := w.earlier ++ [w.current], current := state }
  | .setLocalEpoch epoch => some { w with leaseEpoch := epoch }
  | .exportValue p lease =>
    match w.publishers p, lease with
    | .idle, .ok () | .failed _, .ok () =>
      some (w.setPhase p (.exported ⟨w.earlier.length, w.current, w.leaseEpoch⟩))
    | .idle, .error error | .failed _, .error error => some (w.setPhase p (.failed error))
    | _, _ => none
  | .putSidecars p failure =>
    match w.publishers p with
    | .exported e =>
      let chunks := e.state.tombstoneChunks limit
      match failure with
      | none => some ({ w with sidecars := w.sidecars ++ chunks }.setPhase p (.staged e))
      | some (n, error) =>
        some ({ w with sidecars := w.sidecars ++ chunks.take n }.setPhase p (.failed error))
    | _ => none
  | .readExisting p fails =>
    match w.publishers p with
    | .staged e =>
      let existing := if fails then none else w.published
      match nextPublication e existing with
      | .ok publication => some (w.setPhase p (.numbered e existing publication))
      | .error error => some (w.setPhase p (.failed error))
    | _ => none
  | .putCatalog p lease outcome =>
    match w.publishers p, lease with
    | .numbered e _ publication, .ok () =>
      let catalog : Catalog S M := ⟨e, publication⟩
      let w := if outcome.stores then
        { w with published := some catalog, writes := catalog :: w.writes } else w
      match outcome with
      | .stored => some (w.setPhase p (.written catalog))
      | .failed _ error => some (w.setPhase p (.failed error))
    | .numbered _ _ _, .error error => some (w.setPhase p (.failed error))
    | _, _ => none
  | .confirm p lease =>
    match w.publishers p, lease with
    | .written catalog, .ok () => some (w.setPhase p (.confirmed catalog))
    | .written _, .error error => some (w.setPhase p (.failed (error ++
        " (the catalog was written just before the lease was lost; followers ignore it)")))
    | _, _ => none
  | .cleanUp p kept =>
    match w.publishers p with
    | .confirmed catalog =>
      let listed := catalog.state.tombstoneChunks limit
      some ({ w with
        sidecars := w.sidecars.filter fun chunk ↦ chunk ∈ listed ∨ chunk ∈ kept
        returned := (catalog.toExport, catalog.publication) :: w.returned }.setPhase p .idle)
    | _ => none
  | .fetch f =>
    w.published.map fun catalog ↦ w.setFollower f { w.followers f with fetched := some catalog }
  | .adopt f accepted =>
    match (w.followers f).fetched with
    | some catalog =>
      let current := (catalog.leaseEpoch.getD (w.followers f).seenLeaderEpoch)
      if accepted ∧ (w.followers f).seenLeaderEpoch ≤ current ∧
          ∀ chunk ∈ catalog.state.tombstoneChunks limit, chunk ∈ w.sidecars then
        some (w.setFollower f ⟨none, some catalog, current⟩)
      else some (w.setFollower f { w.followers f with fetched := none })
    | none => none

def start (state : TableState S M) (epoch : Option ℕ) : World S M P F where
  earlier := []
  current := state
  leaseEpoch := epoch
  published := none
  sidecars := []
  publishers := fun _ ↦ .idle
  followers := fun _ ↦ ⟨none, none, 0⟩
  writes := []
  returned := []

def Recorded (w : World S M P F) (e : Export S M) : Prop :=
  (w.earlier ++ [w.current])[e.taken]? = some e.state

/-- **Read your writes.** -/
structure ReadYourWrites (w : World S M P F) : Prop where
  contains : ∀ f catalog, (w.followers f).adopted = some catalog →
    ∀ r ∈ w.returned, r.2 ≤ catalog.publication → catalog.Contains r.1
  generation : w.writes.Pairwise fun later earlier ↦
    earlier.state.generation ≤ later.state.generation

def Undisturbed (w : World S M P F) : Event S M P F → Prop
  | .putCatalog p lease outcome => lease = .ok () → outcome.stores = true →
      match w.publishers p with
      | .numbered e existing _ => w.published = existing ∧
          ∀ c, existing = some c → c.taken ≤ e.taken ∧ c.publication < maxPublication
      | _ => True
  | _ => True

/-! ### The invariant -/

def PhaseInv (w : World S M P F) : Phase S M → Prop
  | .idle => True
  | .failed _ => True
  | .exported e => w.Recorded e
  | .staged e => w.Recorded e
  | .numbered e existing n => w.Recorded e ∧ nextPublication e existing = .ok n
  | .written catalog => catalog ∈ w.writes
  | .confirmed catalog => catalog ∈ w.writes

def FollowerInv (w : World S M P F) (follower : Follower S M) : Prop :=
  ∀ c, follower.fetched = some c ∨ follower.adopted = some c → c ∈ w.writes

def Later (later earlier : Catalog S M) : Prop :=
  earlier.publication < later.publication ∧ earlier.taken ≤ later.taken ∧
    earlier.state.generation ≤ later.state.generation

structure Inv (w : World S M P F) : Prop where
  phases : ∀ p, w.PhaseInv (w.publishers p)
  followers : ∀ f, w.FollowerInv (w.followers f)
  recorded : ∀ c ∈ w.writes, w.Recorded c.toExport
  published : w.published = w.writes.head?
  ordered : w.writes.Pairwise Later
  returned : ∀ r ∈ w.returned, ∃ c ∈ w.writes, c.toExport = r.1 ∧ c.publication = r.2

section Keep

omit [DecidableEq M] [DecidableEq P] [DecidableEq F]

variable {w : World S M P F} {p : P} {f : F} {phase : Phase S M} {follower : Follower S M}

theorem inv_start (state : TableState S M) (epoch : Option ℕ) :
    (start state epoch : World S M P F).Inv where
  phases _ := trivial
  followers _ c hc := by simp [start] at hc
  recorded c hc := nomatch hc
  published := rfl
  ordered := .nil
  returned r hr := nomatch hr

theorem Inv.setPhase [DecidableEq P] (h : w.Inv) (hph : w.PhaseInv phase) :
    (w.setPhase p phase).Inv := by
  refine ⟨?_, h.followers, h.recorded, h.published, h.ordered, h.returned⟩
  show ∀ p', w.PhaseInv (update w.publishers p phase p')
  exact (forall_update_iff w.publishers fun _ ↦ w.PhaseInv).2
    ⟨hph, fun p' _ ↦ h.phases p'⟩

theorem Inv.setFollower [DecidableEq F] (h : w.Inv) (hf : w.FollowerInv follower) :
    (w.setFollower f follower).Inv := by
  refine ⟨h.phases, ?_, h.recorded, h.published, h.ordered, h.returned⟩
  show ∀ f', w.FollowerInv (update w.followers f follower f')
  exact (forall_update_iff w.followers fun _ ↦ w.FollowerInv).2
    ⟨hf, fun f' _ ↦ h.followers f'⟩

theorem Inv.phaseInv (h : w.Inv) (hp : w.publishers p = phase) : w.PhaseInv phase := hp ▸ h.phases p

theorem PhaseInv.mono {w' : World S M P F} (hr : ∀ e, w.Recorded e → w'.Recorded e)
    (hws : w.writes ⊆ w'.writes) (h : w.PhaseInv phase) : w'.PhaseInv phase := by
  cases phase with
  | idle => trivial
  | failed error => trivial
  | exported e | staged e => exact hr e h
  | numbered e existing n => exact ⟨hr e h.1, h.2⟩
  | written catalog | confirmed catalog => exact hws h

theorem Inv.advance (h : w.Inv) (state : TableState S M) :
    Inv { w with earlier := w.earlier ++ [w.current], current := state } := by
  have hr : ∀ e, w.Recorded e →
      Recorded { w with earlier := w.earlier ++ [w.current], current := state } e :=
    fun e he ↦ getElem?_append_left (List.getElem?_eq_some_iff.1 he).1 |>.trans he
  exact ⟨fun p ↦ (h.phases p).mono hr (List.Subset.refl _), h.followers,
    fun c hc ↦ hr _ (h.recorded c hc), h.published, h.ordered, h.returned⟩

variable {catalog : Catalog S M}

theorem Inv.later_of_published (h : w.Inv) (hl : ∀ c, w.published = some c → Later catalog c) :
    ∀ c ∈ w.writes, Later catalog c := by
  have ho := h.ordered
  rw [h.published] at hl
  cases hws : w.writes with
  | nil => exact forall_mem_nil _
  | cons first rest =>
    rw [hws] at hl ho
    have hf := hl first rfl
    intro c hc
    rcases mem_cons.1 hc with rfl | hc
    · exact hf
    · obtain ⟨hn, htk, hg⟩ := (pairwise_cons.1 ho).1 c hc
      exact ⟨Nat.lt_trans hn hf.1, Nat.le_trans htk hf.2.1, Nat.le_trans hg hf.2.2⟩

theorem Inv.write (h : w.Inv) (he : w.Recorded catalog.toExport)
    (hl : ∀ c, w.published = some c → Later catalog c) :
    Inv { w with published := some catalog, writes := catalog :: w.writes } := by
  have hws : w.writes ⊆ catalog :: w.writes := subset_cons_self _ _
  refine ⟨fun p ↦ .mono (w := w) (fun _ ↦ id) hws (h.phases p),
    fun f c hc ↦ hws (h.followers f c hc), fun c hc ↦ ?_, rfl,
    pairwise_cons.2 ⟨h.later_of_published hl, h.ordered⟩, fun r hr ↦ ?_⟩
  · rcases mem_cons.1 hc with rfl | hc
    · exact he
    · exact h.recorded c hc
  · obtain ⟨c, hc, hr⟩ := h.returned r hr
    exact ⟨c, hws hc, hr⟩

end Keep

section Step

variable {limit : ℕ} {w w' : World S M P F} {e : Event S M P F}

theorem Inv.putCatalog (h : w.Inv) {p : P} {lease : Except String Unit} {outcome : PutOutcome}
    (hmt : w.Undisturbed (.putCatalog p lease outcome))
    (hstep : w.step limit (.putCatalog p lease outcome) = some w') : w'.Inv := by
  simp only [step] at hstep
  split at hstep
  next e existing n hph =>
    obtain ⟨hr, hnum⟩ := h.phaseInv hph
    have hw : ∀ hs : outcome.stores = true, Inv { w with
        published := some ⟨e, n⟩, writes := ⟨e, n⟩ :: w.writes } := by
      intro hs
      have hu := hmt rfl hs
      rw [hph] at hu
      obtain ⟨hp, hsm⟩ := hu
      refine h.write hr fun c hc ↦ ?_
      have hex := hp.symm.trans hc
      obtain ⟨htk, hm⟩ := hsm c hex
      obtain ⟨hg, hn⟩ := nextPublication_eq_ok hnum c hex
      exact ⟨show c.publication < n by omega, htk, hg⟩
    cases outcome with
    | stored =>
      cases hstep
      exact (hw rfl).setPhase (mem_cons_self (a := (⟨e, n⟩ : Catalog S M)))
    | failed wasStored error =>
      cases hstep
      cases wasStored with
      | true => exact (hw rfl).setPhase trivial
      | false => exact h.setPhase trivial
  · cases hstep
    exact h.setPhase trivial
  · cases hstep

theorem Inv.step (h : w.Inv) (hmt : w.Undisturbed e) (hstep : w.step limit e = some w') :
    w'.Inv := by
  cases e with
  | advance state =>
    cases hstep
    exact h.advance state
  | setLocalEpoch epoch =>
    cases hstep
    exact ⟨h.phases, h.followers, h.recorded, h.published, h.ordered, h.returned⟩
  | exportValue p lease =>
    have he : w.Recorded ⟨w.earlier.length, w.current, w.leaseEpoch⟩ := by simp [Recorded]
    simp only [World.step] at hstep
    split at hstep <;> cases hstep
    · exact h.setPhase he
    · exact h.setPhase he
    · exact h.setPhase trivial
    · exact h.setPhase trivial
  | putSidecars p failure =>
    have hs : ∀ sidecars, Inv { w with sidecars := sidecars } := fun _ ↦
      ⟨h.phases, h.followers, h.recorded, h.published, h.ordered, h.returned⟩
    simp only [World.step] at hstep
    split at hstep
    next e hph =>
      split at hstep <;> cases hstep
      · exact (hs _).setPhase (h.phaseInv hph)
      · exact (hs _).setPhase trivial
    · cases hstep
  | readExisting p fails =>
    simp only [World.step] at hstep
    split at hstep
    next e hph =>
      split at hstep <;> cases hstep
      next hn => exact h.setPhase ⟨h.phaseInv hph, hn⟩
      · exact h.setPhase trivial
    · cases hstep
  | putCatalog p lease outcome => exact h.putCatalog hmt hstep
  | confirm p lease =>
    simp only [World.step] at hstep
    split at hstep
    next catalog hph =>
      cases hstep
      have hwr : catalog ∈ w.writes := h.phaseInv hph
      exact h.setPhase (show w.PhaseInv (.confirmed catalog) from hwr)
    · cases hstep
      exact h.setPhase trivial
    · cases hstep
  | cleanUp p kept =>
    simp only [World.step] at hstep
    split at hstep
    next catalog hph =>
      cases hstep
      refine Inv.setPhase ⟨h.phases, h.followers, h.recorded, h.published, h.ordered, ?_⟩ trivial
      intro r hr
      rcases mem_cons.1 hr with rfl | hr
      · exact ⟨catalog, h.phaseInv hph, rfl, rfl⟩
      · exact h.returned r hr
    · cases hstep
  | fetch f =>
    obtain ⟨catalog, hp, rfl⟩ := Option.map_eq_some_iff.1 hstep
    refine h.setFollower fun c hc ↦ ?_
    rcases hc with hc | hc
    · cases hc
      exact mem_of_mem_head? (h.published.symm.trans hp)
    · exact h.followers f c (.inr hc)
  | adopt f accepted =>
    simp only [World.step] at hstep
    split at hstep
    next catalog hf =>
      split at hstep <;> cases hstep
      · refine h.setFollower fun c hc ↦ ?_
        rcases hc with hc | hc
        · cases hc
        · obtain rfl : catalog = c := Option.some.inj hc
          exact h.followers f catalog (.inl hf)
      · refine h.setFollower fun c hc ↦ ?_
        rcases hc with hc | hc
        · cases hc
        · exact h.followers f c (.inr hc)
    · cases hstep

variable {c c' : Catalog S M}

omit [DecidableEq M] [DecidableEq P] [DecidableEq F] in
theorem Inv.taken_le (h : w.Inv) (hc : c ∈ w.writes) (hc' : c' ∈ w.writes)
    (hle : c'.publication ≤ c.publication) : c'.taken ≤ c.taken := by
  let Agrees (a b : Catalog S M) : Prop := (b.publication ≤ a.publication → b.taken ≤ a.taken) ∧
      (a.publication ≤ b.publication → a.taken ≤ b.taken)
  have : Std.Symm Agrees := ⟨fun _ _ ⟨hab, hba⟩ ↦ ⟨hba, hab⟩⟩
  have ha : w.writes.Pairwise Agrees := h.ordered.imp fun hl ↦
    ⟨fun _ ↦ hl.2.1, fun hle ↦ absurd hl.1 (Nat.not_lt.2 hle)⟩
  have hr : ∀ a ∈ w.writes, Agrees a a := fun a _ ↦ ⟨fun _ ↦ Nat.le_refl _, fun _ ↦ Nat.le_refl _⟩
  exact (ha.forall_of_forall hr hc hc').1 hle

omit [DecidableEq M] [DecidableEq P] [DecidableEq F] in
theorem Inv.contains (h : w.Inv) (hc : c ∈ w.writes) (hc' : c' ∈ w.writes)
    (hle : c'.publication ≤ c.publication) : c.Contains c'.toExport := by
  rcases Nat.lt_or_eq_of_le (h.taken_le hc hc' hle) with hlt | heq
  · exact .inl hlt
  · have hst := h.recorded c hc
    rw [Recorded, ← heq] at hst
    exact .inr (Option.some.inj (hst.symm.trans (h.recorded c' hc')))

omit [DecidableEq M] [DecidableEq P] [DecidableEq F] in
theorem Inv.readYourWrites (h : w.Inv) : w.ReadYourWrites where
  contains f catalog ha r hr hle := by
    obtain ⟨c, hc, he, hn⟩ := h.returned r hr
    rw [← he]
    exact h.contains (h.followers f catalog (.inr ha)) hc (hn ▸ hle)
  generation := h.ordered.imp fun hl ↦ hl.2.2

end Step

/-- **Read your writes**, in every undisturbed run. -/
theorem readYourWrites_of_reaches {limit : ℕ} {state : TableState S M} {epoch : Option ℕ}
    {w : World S M P F} (hreach : Reaches (step limit) Undisturbed (start state epoch) w) :
    w.ReadYourWrites :=
  (hreach.inv (P := Inv) (inv_start state epoch) fun _ _ _ ↦ Inv.step).readYourWrites

/-- **A publication number names one catalog.** In an undisturbed run, of two adopted catalogs one
is the later in number, export and generation, and a follower at the number that a publisher was
given shows that publisher's export. -/
theorem publication_of_reaches {limit : ℕ} {state : TableState S M} {epoch : Option ℕ}
    {w : World S M P F} (hreach : Reaches (step limit) Undisturbed (start state epoch) w) {f : F}
    {c : Catalog S M} (hc : (w.followers f).adopted = some c) :
    (∀ g d, (w.followers g).adopted = some d → c = d ∨ Later c d ∨ Later d c) ∧
      ∀ r ∈ w.returned, r.2 = c.publication → r.1 = c.toExport := by
  have hi := hreach.inv (P := Inv) (inv_start state epoch) fun _ _ _ ↦ Inv.step
  have hpw : w.writes.Pairwise fun c d ↦ Later c d ∨ Later d c := hi.ordered.imp .inl
  have : Std.Symm fun c d : Catalog S M ↦ Later c d ∨ Later d c := ⟨fun _ _ ↦ Or.symm⟩
  have hor {d : Catalog S M} (hd : d ∈ w.writes) : c = d ∨ Later c d ∨ Later d c :=
    or_iff_not_imp_left.2 (hpw.forall (hi.followers f c (.inr hc)) hd)
  refine ⟨fun g d hd ↦ hor (hi.followers g d (.inr hd)), fun r hr hp ↦ ?_⟩
  obtain ⟨d, hd, he, hn⟩ := hi.returned r hr
  rcases hor hd with rfl | h | h
  · exact he.symm
  -- neither of two catalogs with one number is the later
  all_goals exact absurd h.1 (by omega)

end World

namespace PublishExample

open World

def flushedOnce : TableState ℕ ℕ := ⟨1, [10], []⟩

def flushedTwice : TableState ℕ ℕ := ⟨2, [10, 11], [7]⟩

/-- Publishers `false` and `true` and one follower. -/
abbrev Pair := World ℕ ℕ Bool Unit

def opening : Pair := start flushedOnce none

def prepare (p : Bool) : List (Event ℕ ℕ Bool Unit) :=
  [.exportValue p (.ok ()), .putSidecars p none, .readExisting p false]

def complete (p : Bool) : List (Event ℕ ℕ Bool Unit) :=
  [.putCatalog p (.ok ()) .stored, .confirm p (.ok ()), .cleanUp p []]

def sync : List (Event ℕ ℕ Bool Unit) := [.fetch (), .adopt () true]

def inTurn : List (Event ℕ ℕ Bool Unit) :=
  prepare false ++ complete false ++ [.advance flushedTwice] ++ prepare true ++ complete true ++
    sync

def overtaken : List (Event ℕ ℕ Bool Unit) :=
  prepare false ++ [.advance flushedTwice] ++ prepare true ++ complete true ++ complete false ++
    sync

theorem inTurn_undisturbed : MeetsAll (step 100) Undisturbed opening inTurn := by
  refine ⟨trivial, trivial, trivial, fun _ _ ↦ ⟨rfl, nofun⟩, trivial, trivial, trivial,
    trivial, trivial, trivial, fun _ _ ↦ ⟨rfl, fun c hc ↦ ?_⟩, trivial, trivial, trivial, trivial,
    trivial⟩
  cases hc
  exact ⟨show 0 ≤ 1 by decide, show 1 < maxPublication by decide⟩

theorem readYourWrites_of_reaches_inTurn : ∃ w, exec (step 100) opening inTurn = some w ∧
    w.returned.map Prod.snd = [2, 1] ∧ w.ReadYourWrites := by
  obtain ⟨w, hw, hr⟩ : ∃ w, exec (step 100) opening inTurn = some w ∧
      w.returned.map Prod.snd = [2, 1] := ⟨_, rfl, rfl⟩
  exact ⟨w, hw, hr, readYourWrites_of_reaches (reaches_of_exec hw inTurn_undisturbed)⟩

theorem publication_of_reaches_inTurn : ∃ w c, exec (step 100) opening inTurn = some w ∧
    (w.followers ()).adopted = some c ∧ c.publication = 2 ∧
      ∀ r ∈ w.returned, r.2 = 2 → r.1 = c.toExport := by
  obtain ⟨w, c, hw, hc, hp⟩ : ∃ w c, exec (step 100) opening inTurn = some w ∧
      (w.followers ()).adopted = some c ∧ c.publication = 2 := ⟨_, _, rfl, rfl, rfl⟩
  refine ⟨w, c, hw, hc, hp, ?_⟩
  exact hp ▸ (publication_of_reaches (reaches_of_exec hw inTurn_undisturbed) hc).2

theorem read_your_writes_fails : ∃ w, exec (step 100) opening overtaken = some w ∧
    (∃ catalog, (w.followers ()).adopted = some catalog ∧ ∃ r ∈ w.returned,
      r.2 ≤ catalog.publication ∧ r.1.state = flushedTwice ∧ catalog.state = flushedOnce ∧
        ¬catalog.Contains r.1) ∧
    w.writes.map (fun c ↦ c.state.generation) = [1, 2] := by
  refine ⟨_, rfl, ⟨_, rfl, _, mem_cons_of_mem _ mem_cons_self, Nat.le_refl _, rfl, rfl, ?_⟩, rfl⟩
  rintro (htk | hst)
  · exact absurd htk (by decide)
  · exact absurd hst (by decide)

end PublishExample

end Koldstore.Leader
