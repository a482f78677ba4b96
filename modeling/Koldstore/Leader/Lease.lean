import Koldstore.Basic.Runs

/-!
# The leader's lease

Without compare and swap, the lease is a series of objects, one for each **epoch**; the highest one
is in force. A node claims the next epoch by creating its object, and may do so after a lease of
another node only when it has seen the same heartbeat for the time to live. Processes **list** the
objects, **get** the highest one and **act** on it in separate steps, between which other processes
run and clocks move.
-/

namespace Koldstore.LeaderLease

open Machine Function

/-! ### Lease objects -/

/-- A lease object; `S` is the type of checksums of catalogs. -/
structure Lease (N S : Type*) where
  holder : N
  heartbeatMs : ℕ
  ttlS : ℕ
  sealedSha : Option S
  deriving DecidableEq

namespace Lease

variable {N S : Type*}

def ttlMs (lease : Lease N S) : ℕ := lease.ttlS * 1000

def expired (lease : Lease N S) (now : ℕ) : Bool :=
  lease.heartbeatMs = 0 || decide (lease.ttlMs < now - lease.heartbeatMs)

end Lease

structure Observed where
  epoch : ℕ
  heartbeatMs : ℕ
  since : ℕ
  deriving DecidableEq

def Observed.Of (observed : Observed) (epoch heartbeatMs : ℕ) : Prop :=
  observed.epoch = epoch ∧ observed.heartbeatMs = heartbeatMs

instance (observed : Observed) (epoch heartbeatMs : ℕ) :
    Decidable (observed.Of epoch heartbeatMs) :=
  inferInstanceAs (Decidable (_ ∧ _))

def silentFor (observed : Option Observed) (time epoch heartbeatMs : ℕ) : ℕ × Observed :=
  match observed with
  | some seen =>
    if seen.Of epoch heartbeatMs then (time - seen.since, seen) else (0, ⟨epoch, heartbeatMs, time⟩)
  | none => (0, ⟨epoch, heartbeatMs, time⟩)

def takeoverWaitMs {N S : Type*} (observed : Option Observed) (time epoch : ℕ)
    (lease : Lease N S) : ℕ × Option Observed :=
  if lease.heartbeatMs = 0 then (0, observed)
  else
    let silent := silentFor observed time epoch lease.heartbeatMs
    (lease.ttlMs - silent.1, some silent.2)

/-! ### Nodes and their processes -/

inductive Purpose
  | acquire (ttlS now : ℕ)
  | renew (held now : ℕ)
  | release (held : ℕ)
  | require (held : ℕ)
  | settleSeal
  deriving DecidableEq

/-- Why a lease object is overwritten. -/
inductive Overwrite
  | renewal (acquires : Bool)
  | release
  | seal
  deriving DecidableEq

inductive Phase (N S : Type*)
  | idle
  | listed (purpose : Purpose) (epoch : ℕ)
  | read (purpose : Purpose) (epoch : ℕ) (lease : Lease N S) (readAt : ℕ)
  | claiming (ttlS now next : ℕ) (existing : Option (ℕ × Lease N S))
  | writing (kind : Overwrite) (epoch : ℕ) (lease : Lease N S)
  | committing (epoch : Option ℕ)

/-- The epoch a `require_lease` under way has listed. -/
def Phase.checks {N S : Type*} : Phase N S → Option ℕ
  | .listed (.require _) epoch => some epoch
  | .read (.require _) epoch _ _ => some epoch
  | _ => none

structure Cluster (N P S : Type*) where
  node : P → N
  time : ℕ
  objects : ℕ → Option (Lease N S)
  highest : ℕ
  localEpoch : N → Option ℕ
  observed : P → Option Observed
  phases : P → Phase N S
  claimedAt : ℕ → ℕ
  released : ℕ → Bool
  renewals : List (ℕ × ℕ)

inductive Event (P S : Type*)
  | tick (ms : ℕ)
  | list (p : P) (purpose : Purpose)
  | get (p : P)
  | act (p : P) (now : ℕ) (claims : Bool)
  | claim (p : P) (sealedSha : Option S)
  | overwrite (p : P) (sealedSha : Option S)
  | commit (p : P)
  | demote (p : P)
  | abort (p : P)

namespace Cluster

variable {N P S : Type*} [DecidableEq N] [DecidableEq P] (w : Cluster N P S) (p : P)

def setPhase (phase : Phase N S) : Cluster N P S := { w with phases := update w.phases p phase }

def setObserved (observed : Option Observed) : Cluster N P S :=
  { w with observed := update w.observed p observed }

def setObject (epoch : ℕ) (lease : Lease N S) : Cluster N P S :=
  { w with objects := update w.objects epoch (some lease) }

def CanList : Purpose → Prop
  | .acquire ttlS _ => 3 ≤ ttlS
  | .renew held _ => w.localEpoch (w.node p) = some held
  | .release held => w.localEpoch (w.node p) = some held
  | .require held => w.localEpoch (w.node p) = some held
  | .settleSeal => True

instance (w : Cluster N P S) (p : P) : DecidablePred (w.CanList p)
  | .acquire ttlS _ => inferInstanceAs (Decidable (3 ≤ ttlS))
  | .renew held _ => inferInstanceAs (Decidable (w.localEpoch (w.node p) = some held))
  | .release held => inferInstanceAs (Decidable (w.localEpoch (w.node p) = some held))
  | .require held => inferInstanceAs (Decidable (w.localEpoch (w.node p) = some held))
  | .settleSeal => inferInstanceAs (Decidable True)

/-- `acquire` after its read: renewal, claim of the next epoch, or refusal. -/
def actAcquire (ttlS now epoch : ℕ) (lease : Lease N S) (claims : Bool) : Cluster N P S :=
  let claiming : Phase N S :=
    if claims then .claiming ttlS now (epoch + 1) (some (epoch, lease)) else .idle
  if lease.holder = w.node p then
    if lease.expired now then w.setPhase p claiming
    else
      w.setPhase p (if claims then
        .writing (.renewal true) epoch { lease with heartbeatMs := now, ttlS := ttlS } else .idle)
  else
    let wait := takeoverWaitMs (w.observed p) w.time epoch lease
    (w.setObserved p wait.2).setPhase p (if wait.1 = 0 then claiming else .idle)

/-- `require_lease` passes on what it has read. -/
def Passes (held epoch : ℕ) (lease : Lease N S) (now : ℕ) : Prop :=
  epoch = held ∧ lease.holder = w.node p ∧ lease.expired now = false

/-- What follows a read. A check only returns, and `Passes` says what. -/
def act (epoch : ℕ) (lease : Lease N S) (claims : Bool) : Purpose → Cluster N P S
  | .acquire ttlS now => w.actAcquire p ttlS now epoch lease claims
  | .renew held now =>
    w.setPhase p (if epoch = held ∧ lease.holder = w.node p ∧ lease.expired now = false then
      .writing (.renewal false) epoch { lease with heartbeatMs := now } else .idle)
  | .release held =>
    w.setPhase p (if epoch = held ∧ lease.holder = w.node p then
      .writing .release epoch { lease with heartbeatMs := 0 } else .committing none)
  | .require _ => w.setPhase p .idle
  | .settleSeal => w.setPhase p (.writing .seal epoch lease)

def step : Event P S → Option (Cluster N P S)
  | .tick ms => some { w with time := w.time + ms }
  | .list p purpose =>
    match w.phases p with
    | .idle =>
      if w.CanList p purpose then
        some (w.setPhase p (match w.highest, purpose with
          | 0, .acquire ttlS now => .claiming ttlS now 1 none
          | 0, .release _ => .committing none
          | 0, _ => .idle
          | epoch, purpose => .listed purpose epoch))
      else none
    | _ => none
  | .get p =>
    match w.phases p with
    | .listed purpose epoch =>
      (w.objects epoch).map fun lease ↦ w.setPhase p (.read purpose epoch lease w.time)
    | _ => none
  | .act p _ claims =>
    match w.phases p with
    | .read purpose epoch lease _ => some (w.act p epoch lease claims purpose)
    | _ => none
  | .claim p sealedSha =>
    match w.phases p with
    | .claiming ttlS now next _ =>
      match w.objects next with
      | some _ => some (w.setPhase p .idle)
      | none =>
        some ({ w.setObject next ⟨w.node p, now, ttlS, sealedSha⟩ with
          highest := max w.highest next
          claimedAt := update w.claimedAt next w.time }.setPhase p
            (.committing (some next)))
    | _ => none
  | .overwrite p sealedSha =>
    match w.phases p with
    | .writing (.renewal acquires) epoch lease =>
      some ({ w.setObject epoch lease with
        renewals := (epoch, w.time) :: w.renewals }.setPhase p
          (if acquires then .committing (some epoch) else .idle))
    | .writing .release epoch lease =>
      some ({ w.setObject epoch lease with
        released := update w.released epoch true }.setPhase p (.committing none))
    | .writing .seal epoch lease =>
      -- The election reads the catalog again, and may rewrite the seal once more.
      some ((w.setObject epoch { lease with sealedSha := sealedSha }).setPhase p
        (.writing .seal epoch { lease with sealedSha := sealedSha }))
    | _ => none
  | .commit p =>
    match w.phases p with
    | .committing epoch =>
      some ({ w with localEpoch := update w.localEpoch (w.node p) epoch }.setPhase p .idle)
    | _ => none
  | .demote p =>
    match w.phases p with
    | .idle => some (w.setPhase p (.committing none))
    | _ => none
  | .abort p => some (w.setPhase p .idle)

def start (node : P → N) : Cluster N P S where
  node := node
  time := 0
  objects := fun _ ↦ none
  highest := 0
  localEpoch := fun _ ↦ none
  observed := fun _ ↦ none
  phases := fun _ ↦ .idle
  claimedAt := fun _ ↦ 0
  released := fun _ ↦ false
  renewals := []

/-! ### What is to hold, and when it does -/

def Silent (epoch since till : ℕ) : Prop := ∀ x, (epoch, x) ∈ w.renewals → x ≤ since ∨ till ≤ x

def Justified (epoch : ℕ) (lease : Lease N S) : Prop :=
  ∃ since till, w.claimedAt epoch ≤ since ∧ since + lease.ttlMs ≤ till ∧ till ≤ w.time ∧
    w.Silent epoch since till

def WouldPass (n : N) (now : ℕ) : Prop :=
  ∃ lease, w.localEpoch n = some w.highest ∧ w.objects w.highest = some lease ∧
    lease.holder = n ∧ lease.expired now = false

def Safe : Event P S → Prop
  | .claim p _ =>
    match w.phases p with
    | .claiming _ _ next (some (epoch, lease)) =>
      w.objects next = none → lease.holder ≠ w.node p → w.released epoch = false →
        w.Justified epoch lease
    | _ => True
  | .act p now _ =>
    match w.phases p with
    | .read (.require held) epoch lease _ =>
      w.Passes p held epoch lease now → ∀ n ≠ w.node p, ∀ now', ¬w.WouldPass n now'
    | _ => True
  | _ => True

def NoGap : Event P S → Prop
  -- No heartbeat is that of a released lease, and no epoch is claimed while a check has listed the
  -- leases and not yet returned.
  | .claim p _ =>
    match w.phases p with
    | .claiming _ now next _ => now ≠ 0 ∧ (w.objects next = none → ∀ q, (w.phases q).checks = none)
    | _ => True
  -- A renewal has a heartbeat that no process has recorded, and a seal leaves it as it is.
  | .overwrite p _ =>
    match w.phases p with
    | .writing (.renewal _) epoch lease => lease.heartbeatMs ≠ 0 ∧
        ∀ q seen, w.observed q = some seen → ¬seen.Of epoch lease.heartbeatMs
    | .writing .seal epoch lease =>
      ∀ object, w.objects epoch = some object → object.heartbeatMs = lease.heartbeatMs
    | _ => True
  -- The heartbeat itself was read when it had been recorded for the time to live.
  | .act p _ _ =>
    match w.phases p with
    | .read (.acquire _ _) epoch lease readAt =>
      ∀ seen, w.observed p = some seen → seen.Of epoch lease.heartbeatMs →
        seen.since + lease.ttlMs ≤ w.time → seen.since + lease.ttlMs ≤ readAt
    | _ => True
  | _ => True

end Cluster

end Koldstore.LeaderLease
