import Koldstore.Basic.Runs

/-!
# Fencing of the published catalog

A leader checks its lease and then writes the catalog, a follower verifies a catalog and then
commits it, and an election seals the catalog it found; each is a storage step of its own, so a
deposed leader may still write, and what a follower verified may no longer hold when it commits. The
model takes single storage steps of any number of processes, and leaves open which takeover or lease
check succeeds.
-/

namespace Koldstore.Fencing

open Machine Function

/-! ### Catalogs and leases -/

/-- A catalog; `content` is what else it says, the publication number included. -/
structure Catalog (C : Type*) where
  content : C
  generation : ℕ
  leaseEpoch : Option ℕ
  deriving DecidableEq

structure Written (C : Type*) extends Catalog C where
  writerHeld : ℕ

structure Lease (N C : Type*) where
  holder : N
  sealed : Option (Catalog C)

/-! ### Nodes and their processes -/

structure Node (C : Type*) where
  localEpoch : Option ℕ
  seenLeaderEpoch : ℕ
  generation : ℕ
  adopted : List (Catalog C)
  held : ℕ

inductive Overwrite
  | acquire
  | renew
  | release
  | elect
  deriving DecidableEq

structure Settled (C : Type*) where
  adopted : List (Catalog C)
  seen : Option ℕ

namespace Node

variable {C : Type*}

def adopt (state : Node C) (catalog : Catalog C) : Node C := { state with
    seenLeaderEpoch := catalog.leaseEpoch.getD state.seenLeaderEpoch
    generation := catalog.generation
    adopted := catalog :: state.adopted }

def elect (state : Node C) (epoch : ℕ) (settled : Settled C) : Node C := { state with
    localEpoch := some epoch
    seenLeaderEpoch := settled.seen.getD state.seenLeaderEpoch
    generation := (settled.adopted.head?.map Catalog.generation).getD state.generation
    adopted := settled.adopted ++ state.adopted }

end Node

inductive Phase (N C : Type*)
  | idle
  | overwriting (why : Overwrite) (epoch : ℕ) (lease : Lease N C)
  | acquiring (next : ℕ)
  | claiming (next : ℕ) (sealed : Option (Catalog C)) (elects : Bool)
  | committing (epoch : Option ℕ)
  | caughtUp (catalog : Catalog C)
  | settleSeal (epoch : ℕ)
  | settling (rounds epoch target : ℕ) (lease : Lease N C) (settled : Settled C)
  | sealing (rounds epoch target : ℕ) (lease : Lease N C) (catalog : Catalog C)
      (settled : Settled C)
  | adopting (rounds epoch target : ℕ) (lease : Lease N C) (catalog : Catalog C)
      (settled : Settled C)
  | returning (epoch : ℕ) (settled : Settled C)
  | exported (catalog : Catalog C)
  | fenced (catalog : Catalog C)
  | fetched (catalog : Written C)
  | verified (catalog : Written C)

def Phase.settles {N C : Type*} : Phase N C → Option ℕ
  | .settleSeal epoch => some epoch
  | .settling _ epoch _ _ _ => some epoch
  | .sealing _ epoch _ _ _ _ => some epoch
  | .adopting _ epoch _ _ _ _ => some epoch
  | .returning epoch _ => some epoch
  | _ => none

/-- A sync that has verified its catalog and not yet committed it. -/
def Phase.isVerified {N C : Type*} : Phase N C → Bool
  | .verified _ => true
  | _ => false

structure World (N P C : Type*) where
  node : P → N
  objects : ℕ → Option (Lease N C)
  highest : ℕ
  published : Option (Written C)
  nodes : N → Node C
  phases : P → Phase N C
  seals : ℕ → List (Option (Catalog C))
  claimer : ℕ → Option P
  elections : List (ℕ × N)

inductive Event (N P C : Type*)
  | setGeneration (n : N) (generation : ℕ)
  | readOwn (p : P) (why : Overwrite) (epoch : ℕ)
  | overwrite (p : P)
  | acquire (p : P) (next : ℕ)
  | readSeal (p : P)
  | claim (p : P)
  | commitLocal (p : P)
  | demote (n : N)
  | electCheck (p : P)
  | electAcquire (p : P) (next : ℕ)
  | electRenew (p : P) (epoch : ℕ)
  | settleRead (p : P) (epoch : ℕ)
  | settleCheck (p : P)
  | settleWrite (p : P)
  | settleAdopt (p : P)
  | electReturn (p : P)
  | exportCatalog (p : P) (content : C)
  | fence (p : P) (readOk : Bool)
  | put (p : P)
  | fetch (p : P)
  | verify (p : P)
  | commit (p : P)
  | abort (p : P)

namespace World

variable {N P C : Type*} [DecidableEq N] [DecidableEq P] [DecidableEq C] (w : World N P C)

def setPhase (p : P) (phase : Phase N C) : World N P C :=
  { w with phases := update w.phases p phase }

def setNode (n : N) (state : Node C) : World N P C := { w with nodes := update w.nodes n state }

def setObject (epoch : ℕ) (lease : Lease N C) : World N P C := { w with
    objects := update w.objects epoch (some lease)
    seals := update w.seals epoch (lease.sealed :: w.seals epoch) }

def CanClaim (next : ℕ) : Prop :=
  next = 1 ∧ w.highest = 0 ∨ 1 < next ∧ (w.objects (next - 1)).isSome = true

instance (w : World N P C) (next : ℕ) : Decidable (w.CanClaim next) :=
  inferInstanceAs (Decidable (_ ∨ _))

def claimed (p : P) (next : ℕ) (sealed : Option (Catalog C)) : World N P C :=
  let n := w.node p
  { (w.setObject next ⟨n, sealed⟩).setNode n
      { w.nodes n with held := max (w.nodes n).held next } with
    highest := max w.highest next
    claimer := update w.claimer next (some p) }

/-- `verify_catalog_sealed`: the next epoch, if claimed, has sealed this catalog or none. -/
def verifyCatalogSealed (catalog : Catalog C) : Bool :=
  match catalog.leaseEpoch with
  | none => true
  | some epoch =>
    match w.objects (epoch + 1) with
    | none => true
    | some lease => lease.sealed.all fun sealed ↦ sealed = catalog

def older (catalog : Catalog C) (seen : ℕ) : Bool := catalog.leaseEpoch.any fun epoch ↦ epoch < seen

def behind (state : Node C) (catalog : Catalog C) : Bool :=
  state.generation < catalog.generation || state.seenLeaderEpoch < catalog.leaseEpoch.getD 0

def fencedBy (catalog existing : Catalog C) : Bool :=
  (match catalog.leaseEpoch, existing.leaseEpoch with
    | some mine, some theirs => mine < theirs
    | _, _ => false) || catalog.generation < existing.generation

def step : Event N P C → Option (World N P C)
  | .setGeneration n generation => some (w.setNode n { w.nodes n with generation := generation })
  | .readOwn p why epoch =>
    match w.phases p, w.objects epoch with
    | .idle, some lease =>
      if lease.holder = w.node p ∧ why ≠ .elect then
        some (w.setPhase p (.overwriting why epoch lease))
      else none
    | _, _ => none
  | .overwrite p =>
    match w.phases p with
    | .overwriting why epoch lease =>
      some ((w.setObject epoch lease).setPhase p (match why with
        | .acquire => .committing (some epoch)
        | .renew => .idle
        | .release => .committing none
        | .elect => .settleSeal epoch))
    | _ => none
  | .acquire p next =>
    match w.phases p with
    | .idle => if w.CanClaim next then some (w.setPhase p (.acquiring next)) else none
    | _ => none
  | .readSeal p =>
    match w.phases p with
    | .acquiring next =>
      some (w.setPhase p (.claiming next (w.published.map Written.toCatalog) false))
    | _ => none
  | .claim p =>
    match w.phases p with
    | .claiming next sealed elects =>
      match w.objects next with
      | some _ => some (w.setPhase p .idle)
      | none =>
        some ((w.claimed p next sealed).setPhase p
          (if elects then .settleSeal next else .committing (some next)))
    | _ => none
  | .commitLocal p =>
    match w.phases p with
    | .committing epoch =>
      some ((w.setNode (w.node p) { w.nodes (w.node p) with localEpoch := epoch }).setPhase p .idle)
    | _ => none
  | .demote n => some (w.setNode n { w.nodes n with localEpoch := none })
  | .electCheck p =>
    match w.phases p, w.published with
    | .idle, some catalog =>
      if w.highest = 0 ∨ behind (w.nodes (w.node p)) catalog.toCatalog = true then none
      else some (w.setPhase p (.caughtUp catalog.toCatalog))
    | _, _ => none
  | .electAcquire p next =>
    match w.phases p with
    | .caughtUp catalog =>
      if w.CanClaim next then some (w.setPhase p (.claiming next (some catalog) true)) else none
    | _ => none
  | .electRenew p epoch =>
    match w.phases p, w.objects epoch with
    | .caughtUp _, some lease =>
      if lease.holder = w.node p then some (w.setPhase p (.overwriting .elect epoch lease))
      else none
    | _, _ => none
  | .settleRead p target =>
    match w.phases p, w.objects target with
    | .settleSeal epoch, some lease =>
      some (w.setPhase p (.settling 5 epoch target lease ⟨[], none⟩))
    | _, _ => none
  | .settleCheck p =>
    match w.phases p with
    | .settling (rounds + 1) epoch target lease settled =>
      match w.published with
      | none => some (w.setPhase p (.returning epoch settled))
      | some catalog =>
        if lease.sealed = some catalog.toCatalog then
          some (w.setPhase p (.returning epoch settled))
        else
          some (w.setPhase p (.sealing rounds epoch target lease catalog.toCatalog settled))
    | _ => none
  | .settleWrite p =>
    match w.phases p with
    | .sealing rounds epoch target lease catalog settled =>
      let lease := { lease with sealed := some catalog }
      some ((w.setObject target lease).setPhase p
        (.adopting rounds epoch target lease catalog settled))
    | _ => none
  | .settleAdopt p =>
    match w.phases p, w.published with
    | .adopting rounds epoch target lease _ settled, some catalog =>
      let seen := settled.seen.getD (w.nodes (w.node p)).seenLeaderEpoch
      if w.verifyCatalogSealed catalog.toCatalog = true ∧ older catalog.toCatalog seen = false then
        some (w.setPhase p (.settling rounds epoch target lease
          ⟨catalog.toCatalog :: settled.adopted, catalog.leaseEpoch.or settled.seen⟩))
      else none
    | _, _ => none
  | .electReturn p =>
    match w.phases p with
    | .returning epoch settled =>
      let n := w.node p
      some ({ w.setNode n ((w.nodes n).elect epoch settled) with
        elections := (epoch, n) :: w.elections }.setPhase p .idle)
    | _ => none
  | .exportCatalog p content =>
    match w.phases p with
    | .idle =>
      let state := w.nodes (w.node p)
      some (w.setPhase p (.exported ⟨content, state.generation, state.localEpoch⟩))
    | _ => none
  | .fence p readOk =>
    match w.phases p with
    | .exported catalog =>
      if (if readOk then w.published else none).any
          (fun existing ↦ fencedBy catalog existing.toCatalog) = true then none
      else some (w.setPhase p (.fenced catalog))
    | _ => none
  | .put p =>
    match w.phases p with
    | .fenced catalog =>
      some ({ w with published := some ⟨catalog, (w.nodes (w.node p)).held⟩ }.setPhase p .idle)
    | _ => none
  | .fetch p =>
    match w.phases p, w.published with
    | .idle, some catalog => some (w.setPhase p (.fetched catalog))
    | _, _ => none
  | .verify p =>
    match w.phases p with
    | .fetched catalog =>
      if w.verifyCatalogSealed catalog.toCatalog = true ∧
          older catalog.toCatalog (w.nodes (w.node p)).seenLeaderEpoch = false then
        some (w.setPhase p (.verified catalog))
      else none
    | _ => none
  | .commit p =>
    match w.phases p with
    | .verified catalog =>
      let n := w.node p
      some ((w.setNode n ((w.nodes n).adopt catalog.toCatalog)).setPhase p .idle)
    | _ => none
  | .abort p => some (w.setPhase p .idle)

def start (node : P → N) : World N P C where
  node := node
  objects := fun _ ↦ none
  highest := 0
  published := none
  nodes := fun _ ↦ ⟨none, 0, 0, [], 0⟩
  phases := fun _ ↦ .idle
  seals := fun _ ↦ []
  claimer := fun _ ↦ none
  elections := []

/-! ### What is to hold, and when it does -/

/-- **A sync adopts what it may.** -/
structure MayAdopt (w : World N P C) (n : N) (catalog : Written C) : Prop where
  writer : ∀ earlier ∈ (w.nodes n).adopted, ∀ epoch, earlier.leaseEpoch = some epoch →
    epoch ≤ catalog.writerHeld
  elected : ∀ e ∈ w.elections, (∃ epoch, catalog.leaseEpoch = some epoch ∧ e.1 ≤ epoch) ∨
    catalog.toCatalog ∈ (w.nodes e.2).adopted

def Fenced : Event N P C → Prop
  | .commit p =>
    match w.phases p with
    | .verified catalog => w.MayAdopt (w.node p) catalog
    | _ => True
  | _ => True

/-- What a sync does not look at when it verifies: epochs beyond the next one, and, for a catalog
without an epoch, whether leases are in use at all. -/
def Current (n : N) (catalog : Catalog C) : Prop :=
  match catalog.leaseEpoch with
  | some epoch => w.highest ≤ epoch + 1
  | none => (∀ earlier ∈ (w.nodes n).adopted, earlier.leaseEpoch = none) ∧ w.elections = []

/-- No sync stands between its verification and its commit. -/
def Quiet : Prop := ∀ q, (w.phases q).isVerified = false

def NoGap : Event N P C → Prop
  | .verify p =>
    match w.phases p with
    | .fetched catalog => w.Current (w.node p) catalog.toCatalog
    | _ => True
  -- Between a sync's verification and its commit no lease object is written, no election returns,
  -- and no other sync of its node commits.
  | .claim _ => w.Quiet
  | .overwrite _ => w.Quiet
  | .settleWrite _ => w.Quiet
  | .commit p => ∀ q ≠ p, w.node q = w.node p → (w.phases q).isVerified = false
  -- A node that is not behind a catalog has adopted it.
  | .electCheck p =>
    match w.published with
    | some catalog => behind (w.nodes (w.node p)) catalog.toCatalog = false →
        catalog.toCatalog ∈ (w.nodes (w.node p)).adopted
    | none => True
  -- An election claims its epoch, and settles the seal of that.
  | .electRenew _ _ => False
  | .settleRead p target =>
    match w.phases p with
    | .settleSeal epoch => target = epoch
    | _ => True
  -- It adopts the catalog that it has sealed.
  | .settleAdopt p =>
    match w.phases p with
    | .adopting _ _ _ _ catalog _ => w.published.map Written.toCatalog = some catalog
    | _ => True
  -- No other process of its node has seen a newer epoch meanwhile.
  | .electReturn p => w.Quiet ∧
    match w.phases p with
    | .returning _ settled => ∀ epoch, settled.seen = some epoch →
        (w.nodes (w.node p)).seenLeaderEpoch ≤ epoch
    | _ => True
  | _ => True

end World

end Koldstore.Fencing
