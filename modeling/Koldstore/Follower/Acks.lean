import Koldstore.Basic.Runs

/-!
# Acknowledgements of followers, and what the leader may delete

A follower's catalog may list segments that the leader has compacted away since.
-/

namespace Koldstore.Follower

open Machine Function

/-! ### Segments and catalogs -/

/-- The largest generation (`i64::MAX`). -/
def maxGeneration : ℕ := 2 ^ 63 - 1

inductive SegmentStatus
  | unused
  | active
  | history (maxSeq : ℕ)
  | compacted (retiredGeneration : Option ℕ) (createdAt : ℕ)
  | dropped
  deriving DecidableEq

def SegmentStatus.listed : SegmentStatus → Bool
  | .active => true
  | .history _ => true
  | _ => false

def SegmentStatus.gone : SegmentStatus → Bool
  | .compacted _ _ => true
  | .dropped => true
  | _ => false

structure Listing (I : Type*) where
  generation : ℕ
  lists : I → Bool

/-! ### Acknowledgements -/

structure Ack where
  generation : ℕ
  syncedMs : ℕ
  storedMs : ℕ
  deriving DecidableEq

structure AckStore (F : Type*) where
  get : F → Option Ack
  keys : List F
  complete : ∀ f, (get f).isSome = true → f ∈ keys

namespace AckStore

variable {F : Type*} [DecidableEq F]

def empty : AckStore F where
  get _ := none
  keys := []
  complete _ h := by cases h

variable (store : AckStore F)

def put (f : F) (ack : Ack) : AckStore F where
  get := update store.get f (some ack)
  keys := f :: store.keys
  complete f' h := by
    by_cases hf : f' = f
    · exact hf ▸ List.mem_cons_self
    · rw [update_of_ne hf] at h
      exact List.mem_cons_of_mem _ (store.complete f' h)

def delete (f : F) : AckStore F where
  get := update store.get f none
  keys := store.keys
  complete f' h := by
    by_cases hf : f' = f
    · rw [hf, update_self] at h
      cases h
    · rw [update_of_ne hf] at h
      exact store.complete f' h

def list : List F := store.keys.filter fun f ↦ (store.get f).isSome

omit [DecidableEq F] in
theorem mem_list {store : AckStore F} {f : F} {ack : Ack} (h : store.get f = some ack) :
    f ∈ store.list :=
  List.mem_filter.2 ⟨store.complete f (by rw [h]; rfl), by rw [h]; rfl⟩

end AckStore

structure Observation (F : Type*) where
  observedBy : F
  generation : ℕ
  syncedMs : ℕ
  seenMs : ℕ
  deriving DecidableEq

def Observation.Matches {F : Type*} (seen : Observation F) (me : F) (generation syncedMs : ℕ) :
    Prop :=
  seen.observedBy = me ∧ seen.generation = generation ∧ seen.syncedMs = syncedMs

instance {F : Type*} [DecidableEq F] (seen : Observation F) (me : F) (generation syncedMs : ℕ) :
    Decidable (seen.Matches me generation syncedMs) :=
  inferInstanceAs (Decidable (_ ∧ _ ∧ _))

def observedAgeMs {F : Type*} [DecidableEq F] (previous : Option (Observation F)) (me : F)
    (ack : Ack) (now : ℕ) : Option ℕ :=
  match previous with
  | none => none
  | some seen =>
    if seen.Matches me ack.generation ack.syncedMs then some (now - seen.seenMs) else none

/-! ### Leader, followers and reaps -/

structure FollowerState (I : Type*) where
  catalog : Listing I
  fetched : Option (Listing I)
  jobs : List ℕ

inductive Reap (F I : Type*)
  | idle
  | purging (due done : List I)
  | reading (clock : ℕ) (pending : List F) (held : List ℕ)
  | checking (generation clock : ℕ) (pending : List F)
  | reaping (due : List (I × ℕ)) (done : List I)

def Reap.underWay {F I : Type*} : Reap F I → Bool
  | .reading _ _ _ => true
  | .reaping _ _ => true
  | _ => false

structure Fleet (F I R : Type*) where
  me : F
  maxAgeMs : ℕ
  retentionMs : ℕ
  now : ℕ
  generation : ℕ
  status : I → SegmentStatus
  ids : List I
  backups : List ℕ
  exporting : List ℕ
  exports : List (Listing I)
  published : Option (Listing I)
  acks : AckStore F
  seen : F → Option (Observation F)
  followers : F → FollowerState I
  reaps : R → Reap F I

inductive Event (F I R : Type*)
  | tick (ms : ℕ)
  | flush (new : List I)
  /-- Older versions do not record the generation of a retirement. -/
  | compact (now : ℕ) (replaced : List I) (recorded : Bool) (new : List I) (history : List (I × ℕ))
  | backup (takenAt : ℕ)
  | exportManifest
  | exportSegments (generation : ℕ)
  | publish (n : ℕ)
  | fetch (f : F)
  | commit (f : F) (acknowledge : Bool)
  | join (f : F)
  | putAck (f : F) (generation syncedMs : ℕ) (ok : Bool)
  | forget (f : F) (seenOk ackOk : Bool)
  | startReap (r : R) (horizon : ℕ)
  | purge (r : R) (ok : Bool)
  | listAcks (r : R) (clock : ℕ) (swept : List F)
  | check (r : R) (generation clock : ℕ) (swept : List F)
  | readAck (r : R) (getOk seenGetOk seenPutOk : Bool)
  | computeDue (r : R) (now graceMs : ℕ)
  | reap (r : R) (ok : Bool)
  | finishReap (r : R)
  | abort (r : R)

namespace Fleet

variable {F I R : Type*} [DecidableEq F] [DecidableEq I] [DecidableEq R] (w : Fleet F I R)

def setReap (r : R) (phase : Reap F I) : Fleet F I R := { w with reaps := update w.reaps r phase }

def setFollower (f : F) (state : FollowerState I) : Fleet F I R :=
  { w with followers := update w.followers f state }

def retiredAt (retiredGeneration : Option ℕ) : ℕ := retiredGeneration.getD w.generation

def pastGrace (now graceMs : ℕ) (floor : Option ℕ) (id : I) : Option (I × ℕ) :=
  match w.status id with
  | .compacted retiredGeneration createdAt =>
    if createdAt + max graceMs w.retentionMs ≤ now ∧ (∀ taken ∈ w.backups, createdAt ≤ taken) ∧
        floor.all (fun floor ↦ w.retiredAt retiredGeneration ≤ floor) = true then
      some (id, w.retiredAt retiredGeneration)
    else none
  | _ => none

def pastHorizon (horizon : ℕ) (id : I) : Bool :=
  match w.status id with
  | .history maxSeq => maxSeq < horizon
  | _ => false

def activate (now : ℕ) (replaced : List I) (recorded : Bool) (new : List I)
    (history : List (I × ℕ)) : Fleet F I R :=
  { w with
    generation := w.generation + 1
    status := fun id ↦ if id ∈ replaced then
        .compacted (if recorded then some (w.generation + 1) else none) now
      else if id ∈ new then .active
      else
        match history.lookup id with
        | some maxSeq => .history maxSeq
        | none => w.status id
    ids := w.ids ++ new ++ history.map Prod.fst }

def CanActivate (replaced new : List I) (history : List (I × ℕ)) : Prop :=
  w.generation < maxGeneration ∧ (∀ id ∈ replaced, w.status id = .active) ∧
    (∀ id ∈ new, w.status id = .unused) ∧ ∀ p ∈ history, w.status p.1 = .unused

instance (w : Fleet F I R) (replaced new : List I) (history : List (I × ℕ)) :
    Decidable (w.CanActivate replaced new history) :=
  inferInstanceAs (Decidable (_ ∧ _ ∧ _ ∧ _))

def dropRows (selected : SegmentStatus → Bool) (done : List I) : Fleet F I R := { w with
    status := fun id ↦ if id ∈ done ∧ selected (w.status id) = true then .dropped else w.status id }

def isHistory : SegmentStatus → Bool
  | .history _ => true
  | _ => false

def isCompacted : SegmentStatus → Bool
  | .compacted _ _ => true
  | _ => false

def sweepObservations (swept : List F) : Fleet F I R :=
  { w with seen := fun f ↦ if f ∈ swept ∧ f ∉ w.acks.list then none else w.seen f }

/-- One acknowledgement read by `laggards`. -/
def readLaggard (generation clock : ℕ) (f : F) (ack : Ack)
    (seenGetOk seenPutOk : Bool) : Option (Observation F) × Option ℕ :=
  if f = w.me ∨ generation ≤ ack.generation then (w.seen f, none)
  else
    match observedAgeMs (if seenGetOk then w.seen f else none) w.me ack clock with
    | some age => (w.seen f, if age ≤ w.maxAgeMs then some ack.generation else none)
    | none =>
      (if seenPutOk then some ⟨w.me, ack.generation, ack.syncedMs, clock⟩ else w.seen f,
        some ack.generation)

def readAck (generation clock : ℕ) (f : F) (getOk seenGetOk seenPutOk : Bool) :
    Option (Observation F) × Option ℕ :=
  match if getOk then w.acks.get f else none with
  | none => (w.seen f, none)
  | some ack => w.readLaggard generation clock f ack seenGetOk seenPutOk

def setSeen (f : F) (seen : Option (Observation F)) : Fleet F I R :=
  { w with seen := update w.seen f seen }

def step : Event F I R → Option (Fleet F I R)
  | .tick ms => some { w with now := w.now + ms }
  | .flush new => if w.CanActivate [] new [] then some (w.activate w.now [] true new []) else none
  | .compact now replaced recorded new history =>
    if w.CanActivate replaced new history then
      some (w.activate now replaced recorded new history)
    else none
  | .backup takenAt => some { w with backups := takenAt :: w.backups }
  | .exportManifest => some { w with exporting := w.generation :: w.exporting }
  | .exportSegments generation =>
    if generation ∈ w.exporting then
      some { w with exports := ⟨generation, fun id ↦ (w.status id).listed⟩ :: w.exports }
    else none
  | .publish n => (w.exports[n]?).map fun catalog ↦ { w with published := some catalog }
  | .fetch f =>
    w.published.map fun catalog ↦ w.setFollower f { w.followers f with fetched := some catalog }
  | .commit f acknowledge =>
    (w.followers f).fetched.map fun catalog ↦ w.setFollower f
      ⟨catalog, none,
        if acknowledge then catalog.generation :: (w.followers f).jobs else (w.followers f).jobs⟩
  | .join f =>
    some (w.setFollower f { w.followers f with
      jobs := (w.followers f).catalog.generation :: (w.followers f).jobs })
  | .putAck f generation syncedMs ok =>
    if generation ∈ (w.followers f).jobs then
      let w := w.setFollower f { w.followers f with
        jobs := (w.followers f).jobs.erase generation }
      some (if ok then { w with acks := w.acks.put f ⟨generation, syncedMs, w.now⟩ } else w)
    else none
  | .forget f seenOk ackOk =>
    some { w with
      seen := if seenOk then update w.seen f none else w.seen
      acks := if ackOk then w.acks.delete f else w.acks }
  | .startReap r horizon =>
    match w.reaps r with
    | .idle => some (w.setReap r (.purging (w.ids.filter (w.pastHorizon horizon)) []))
    | _ => none
  | .purge r ok =>
    match w.reaps r with
    | .purging (id :: due) done =>
      some (w.setReap r (.purging due (if ok then id :: done else done)))
    | _ => none
  | .listAcks r clock swept =>
    match w.reaps r with
    | .purging [] done =>
      let w := w.dropRows isHistory done
      if w.maxAgeMs = 0 then some (w.setReap r (.reading clock [] []))
      else some ((w.sweepObservations swept).setReap r (.reading clock w.acks.list []))
    | _ => none
  | .check r generation clock swept =>
    match w.reaps r with
    | .idle =>
      if w.maxAgeMs = 0 then some w
      else some ((w.sweepObservations swept).setReap r (.checking generation clock w.acks.list))
    | _ => none
  | .readAck r getOk seenGetOk seenPutOk =>
    match w.reaps r with
    | .reading clock (f :: pending) held =>
      let read := w.readAck maxGeneration clock f getOk seenGetOk seenPutOk
      some ((w.setSeen f read.1).setReap r (.reading clock pending (read.2.toList ++ held)))
    | .checking generation clock (f :: pending) =>
      let read := w.readAck generation clock f getOk seenGetOk seenPutOk
      some ((w.setSeen f read.1).setReap r (.checking generation clock pending))
    | _ => none
  | .computeDue r now graceMs =>
    match w.reaps r with
    | .reading _ [] held =>
      some (w.setReap r (.reaping (w.ids.filterMap (w.pastGrace now graceMs held.min?)) []))
    | _ => none
  | .reap r ok =>
    match w.reaps r with
    | .reaping ((id, _) :: due) done =>
      some (w.setReap r (.reaping due (if ok then id :: done else done)))
    | _ => none
  | .finishReap r =>
    match w.reaps r with
    | .reaping [] done => some ((w.dropRows isCompacted done).setReap r .idle)
    | _ => none
  | .abort r => some (w.setReap r .idle)

def deletes : Event F I R → Option I
  | .purge r true =>
    match w.reaps r with
    | .purging (id :: _) _ => some id
    | _ => none
  | .reap r true =>
    match w.reaps r with
    | .reaping ((id, _) :: _) _ => some id
    | _ => none
  | _ => none

def start (me : F) (maxAgeMs retentionMs : ℕ) : Fleet F I R where
  me := me
  maxAgeMs := maxAgeMs
  retentionMs := retentionMs
  now := 0
  generation := 0
  status := fun _ ↦ .unused
  ids := []
  backups := []
  exporting := []
  exports := [⟨0, fun _ ↦ false⟩]
  published := none
  acks := .empty
  seen := fun _ ↦ none
  followers := fun _ ↦ ⟨⟨0, fun _ ↦ false⟩, none, []⟩
  reaps := fun _ ↦ .idle

/-! ### What is to hold, and when it does -/

def Young (f : F) : Prop := ∃ ack, w.acks.get f = some ack ∧ w.now < ack.storedMs + w.maxAgeMs

def StoredBy (f : F) (clock : ℕ) : Prop := ∀ ack, w.acks.get f = some ack → ack.storedMs ≤ clock

def SafeDelete (e : Event F I R) : Prop :=
  ∀ id, w.deletes e = some id → ∀ f ≠ w.me, w.Young f → (w.followers f).catalog.lists id = false

def NoGap : Event F I R → Prop
  -- History is purged only while no acknowledgement is young.
  | .purge _ ok => ok = true → ∀ f ≠ w.me, ¬w.Young f
  -- The clock of a reap is not ahead of the time.
  | .listAcks _ clock _ => clock ≤ w.now
  -- A young acknowledgement was stored before the clock was read, and a reap can read it.
  | .readAck r getOk _ _ =>
    match w.reaps r with
    | .reading clock (f :: _) _ => w.Young f → getOk = true ∧ w.StoredBy f clock
    | .checking _ clock (f :: _) => w.Young f → w.StoredBy f clock
    | _ => True
  -- An acknowledgement does not repeat what the leader has a record of, and while a reap is under
  -- way only a follower with a young acknowledgement writes one.
  | .putAck f generation syncedMs ok => ok = true →
      (∀ seen, w.seen f = some seen → ¬seen.Matches w.me generation syncedMs) ∧
        ((∃ r, (w.reaps r).underWay = true) → w.Young f)
  -- A follower does not move back.
  | .commit f _ =>
    match (w.followers f).fetched with
    | some catalog => (w.followers f).catalog.generation ≤ catalog.generation
    | none => True
  | _ => True

end Fleet

end Koldstore.Follower
