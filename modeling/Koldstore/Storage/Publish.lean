import Koldstore.Basic.Runs

/-!
# Publishing an immutable object

An object is put under a key of the publisher's own, read back, and copied to its final key.
-/

namespace Koldstore.Storage

open Machine List Function

/-! ### Requests -/

inductive StorageError
  | notFound
  | alreadyExists
  | validation (message : String)
  | backend (message : String)
  deriving DecidableEq, Repr

/-- `str::contains`. -/
def contains (text pattern : String) : Bool := decide (pattern.toList <:+: text.toList)

/-- `is_not_implemented`: the backend has no copy that keeps an existing object. -/
def isNotImplemented : StorageError → Bool
  | .backend message =>
    contains message.toLower "not implemented" || contains message.toLower "not support" ||
      contains message.toLower "unsupported"
  | _ => false

inductive Reply
  | ok
  | error (e : StorageError) (applied : Bool)
  deriving DecidableEq, Repr

structure Objects (B : Type*) where
  final : Option (List B)
  temp : ℕ → Option (List B)

namespace Objects

variable {B : Type*} (o : Objects B)

def putTemp (i : ℕ) (bytes : List B) (reply : Reply) : Objects B × Except StorageError Unit :=
  match reply with
  | .ok => ({ o with temp := update o.temp i (some bytes) }, .ok ())
  | .error e applied =>
    (if applied then { o with temp := update o.temp i (some bytes) } else o, .error e)

def deleteTemp (i : ℕ) (reply : Reply) : Objects B :=
  match reply with
  | .ok => { o with temp := update o.temp i none }
  | .error _ applied => if applied then { o with temp := update o.temp i none } else o

def createFinal (bytes : List B) (reply : Reply) : Objects B × Except StorageError Unit :=
  match reply, o.final with
  | .ok, some _ => (o, .error .alreadyExists)
  | .ok, none => ({ o with final := some bytes }, .ok ())
  | .error e _, some _ => (o, .error e)
  | .error e applied, none => (if applied then { o with final := some bytes } else o, .error e)

def copyIfAbsent (i : ℕ) (reply : Reply) : Objects B × Except StorageError Unit :=
  match o.temp i with
  | some bytes => o.createFinal bytes reply
  | none =>
    match reply with
    | .ok => (o, .error .notFound)
    | .error e _ => (o, .error e)

end Objects

def read {B : Type*} (object : Option (List B)) : Reply → Except StorageError (List B)
  | .ok =>
    match object with
    | some bytes => .ok bytes
    | none => .error .notFound
  | .error e _ => .error e

/-! ### Publishers -/

structure Published where
  byteSize : ℕ
  reusedExisting : Bool
  deriving DecidableEq, Repr

abbrev Outcome := Except StorageError Published

inductive Stage
  | putTemp
  | headTemp
  | getTemp
  | headFinal (again : Bool)
  | getFinal (again : Bool)
  | copy
  | create
  | headCreated
  | getCreated
  | deleteTemp (outcome : Outcome)
  | returned (outcome : Outcome)
  | crashed
  deriving DecidableEq

structure Publisher (B : Type*) where
  bytes : List B
  stage : Stage
  deriving DecidableEq

structure World (B : Type*) where
  objects : Objects B
  publishers : List (Publisher B)

inductive Event (B : Type*)
  | publish (bytes : List B)
  | request (i : ℕ) (reply : Reply)
  | crash (i : ℕ)

def Stage.succeeds : Stage → Bool
  | .deleteTemp (.ok _) | .returned (.ok _) => true
  | _ => false

def finalSizeMessage (actual expected : ℕ) : String :=
  "final object exists with size " ++ toString actual ++ ", expected " ++ toString expected

def sizeMessage (actual expected : ℕ) : String :=
  "size mismatch: actual=" ++ toString actual ++ " expected=" ++ toString expected

section Next

variable {B : Type*} [DecidableEq B]

def checkSize (bytes : List B) (message : ℕ → ℕ → String) (passed : Stage) (actual : List B) :
    Stage :=
  if actual.length = bytes.length then passed
  else .returned (.error (.validation (message actual.length bytes.length)))

def checkBytes (bytes : List B) (message : String) (passed : Stage) (actual : List B) : Stage :=
  if actual = bytes then passed else .returned (.error (.validation message))

def afterRead (result : Except StorageError (List B)) (check : List B → Stage) : Stage :=
  match result with
  | .ok actual => check actual
  | .error e => .returned (.error e)

/-- What follows `copy_if_absent` or the put that replaces it. -/
def afterCreate (result : Except StorageError Unit) (failed : StorageError → Stage) : Stage :=
  match result with
  | .ok _ => .headCreated
  | .error .alreadyExists => .headFinal true
  | .error e => failed e

def next (o : Objects B) (i : ℕ) (bytes : List B) (reply : Reply) : Stage → Objects B × Stage
  | .putTemp =>
    ((o.putTemp i bytes reply).1, match (o.putTemp i bytes reply).2 with
      | .ok _ => .headTemp
      | .error e => .returned (.error e))
  | .headTemp => (o, afterRead (read (o.temp i) reply) (checkSize bytes sizeMessage .getTemp))
  | .getTemp =>
    (o, afterRead (read (o.temp i) reply)
      (checkBytes bytes "object bytes do not match expected payload" (.headFinal false)))
  | .headFinal again =>
    (o, match read o.final reply with
      -- nothing to reuse: an error if a create has just found an object there
      | .error .notFound =>
        if again then
          .returned (.error (.validation "final object exists but content does not match payload"))
        else .copy
      | result => afterRead result (checkSize bytes finalSizeMessage (.getFinal again)))
  | .getFinal _ =>
    (o, afterRead (read o.final reply)
      (checkBytes bytes "final object exists with matching size but different content"
        (.deleteTemp (.ok ⟨bytes.length, true⟩))))
  | .copy =>
    ((o.copyIfAbsent i reply).1, afterCreate (o.copyIfAbsent i reply).2 fun e ↦
      if isNotImplemented e then .create else .deleteTemp (.error e))
  | .create =>
    ((o.createFinal bytes reply).1,
      afterCreate (o.createFinal bytes reply).2 fun e ↦ .deleteTemp (.error e))
  | .headCreated => (o, afterRead (read o.final reply) (checkSize bytes sizeMessage .getCreated))
  | .getCreated =>
    (o, afterRead (read o.final reply)
      (checkBytes bytes "object bytes do not match expected payload"
        (.deleteTemp (.ok ⟨bytes.length, false⟩))))
  | .deleteTemp outcome => (o.deleteTemp i reply, .returned outcome)
  | .returned outcome => (o, .returned outcome)
  | .crashed => (o, .crashed)

end Next

namespace World

variable {B : Type*} [DecidableEq B]

def initial (final : Option (List B)) : World B := ⟨⟨final, fun _ ↦ none⟩, []⟩

/-- A request of the `i`-th publisher. -/
def request (ω : World B) (i : ℕ) (reply : Reply) (p : Publisher B) : World B :=
  ⟨(next ω.objects i p.bytes reply p.stage).1,
    ω.publishers.set i { p with stage := (next ω.objects i p.bytes reply p.stage).2 }⟩

def step (ω : World B) : Event B → Option (World B)
  | .publish bytes => some { ω with publishers := ω.publishers ++ [⟨bytes, .putTemp⟩] }
  | .request i reply => (ω.publishers[i]?).map (ω.request i reply)
  | .crash i => (ω.publishers[i]?).map fun p ↦
      { ω with publishers := ω.publishers.set i { p with stage := .crashed } }

abbrev Run : World B → World B → Prop := Reaches step fun _ _ ↦ True

end World

section Requests

variable {B : Type*} {o : Objects B} {i : ℕ} {bytes final : List B} {reply : Reply}

variable {object : Option (List B)}

theorem read_eq_ok (h : read object reply = .ok bytes) : object = some bytes := by
  cases reply with
  | ok =>
    cases object with
    | none => cases h
    | some actual =>
      cases h
      rfl
  | error e applied => cases h

theorem createFinal_final (h : o.final = some final) :
    (o.createFinal bytes reply).1.final = some final := by
  unfold Objects.createFinal
  rw [h]
  cases reply <;> exact h

theorem copyIfAbsent_final (h : o.final = some final) :
    (o.copyIfAbsent i reply).1.final = some final := by
  unfold Objects.copyIfAbsent
  split
  next => exact createFinal_final h
  next => cases reply <;> exact h

theorem putTemp_final : (o.putTemp i bytes reply).1.final = o.final := by
  cases reply with
  | ok => rfl
  | error e applied => cases applied <;> rfl

theorem deleteTemp_final : (o.deleteTemp i reply).final = o.final := by
  cases reply with
  | ok => rfl
  | error e applied => cases applied <;> rfl

variable {passed : Stage} {actual : List B}

theorem afterRead_succeeds {check : List B → Stage}
    (h : (afterRead (read object reply) check).succeeds = true) :
    ∃ actual, object = some actual ∧ (check actual).succeeds = true := by
  rcases hrd : read object reply with e | actual <;> rw [hrd] at h
  · cases h
  · exact ⟨actual, read_eq_ok hrd, h⟩

theorem checkSize_succeeds {message : ℕ → ℕ → String}
    (h : (checkSize bytes message passed actual).succeeds = true) : passed.succeeds = true := by
  rw [checkSize] at h
  split at h
  · exact h
  · cases h

theorem afterCreate_not_succeeds {result : Except StorageError Unit}
    {failed : StorageError → Stage} (hf : ∀ e, (failed e).succeeds = false) :
    (afterCreate result failed).succeeds = false := by
  unfold afterCreate
  split
  · rfl
  · rfl
  · exact hf _

variable [DecidableEq B] {stage : Stage}

theorem checkBytes_succeeds {message : String}
    (h : (checkBytes bytes message passed actual).succeeds = true) :
    actual = bytes ∧ passed.succeeds = true := by
  rw [checkBytes] at h
  split at h
  next hsm => exact ⟨hsm, h⟩
  next => cases h

/-- **No request changes a final object that is there.** -/
theorem next_final (h : o.final = some final) :
    (next o i bytes reply stage).1.final = some final := by
  cases stage with
  | putTemp => exact putTemp_final.trans h
  | copy => exact copyIfAbsent_final h
  | create => exact createFinal_final h
  | deleteTemp outcome => exact deleteTemp_final.trans h
  | _ => exact h

/-- **A publisher that comes to succeed has read its payload at the final key.** -/
theorem next_succeeds (h : (next o i bytes reply stage).2.succeeds = true)
    (hs : stage.succeeds = false) : o.final = some bytes := by
  cases stage with
  | putTemp =>
    rcases hp : (o.putTemp i bytes reply).2 with e | _ <;> simp [next, hp, Stage.succeeds] at h
  | headTemp | headCreated =>
    obtain ⟨actual, -, hc⟩ := afterRead_succeeds h
    cases checkSize_succeeds hc
  | getTemp =>
    obtain ⟨actual, -, hc⟩ := afterRead_succeeds h
    cases (checkBytes_succeeds hc).2
  | headFinal again =>
    rw [next] at h
    split at h
    next => cases again <;> cases h
    next =>
      obtain ⟨actual, -, hc⟩ := afterRead_succeeds h
      cases checkSize_succeeds hc
  | getFinal again | getCreated =>
    obtain ⟨actual, hf, hc⟩ := afterRead_succeeds h
    rw [hf, (checkBytes_succeeds hc).1]
  | copy =>
    refine absurd h (Bool.eq_false_iff.1 (afterCreate_not_succeeds fun e ↦ ?_))
    cases isNotImplemented e <;> rfl
  | create => exact absurd h (Bool.eq_false_iff.1 (afterCreate_not_succeeds fun _ ↦ rfl))
  | deleteTemp outcome | returned outcome =>
    cases outcome with
    | error e => cases h
    | ok published => cases hs
  | crashed => cases h

end Requests

namespace World

variable {B : Type*} [DecidableEq B] {ω ω' : World B}

def Inv (ω : World B) : Prop :=
  ∀ p ∈ ω.publishers, p.stage.succeeds = true → ω.objects.final = some p.bytes

theorem final_step {e : Event B} {final : List B} (h : ω.objects.final = some final)
    (hstep : ω.step e = some ω') : ω'.objects.final = some final := by
  cases e with
  | publish bytes =>
    cases hstep
    exact h
  | request i reply =>
    obtain ⟨p, -, rfl⟩ := Option.map_eq_some_iff.1 hstep
    exact next_final h
  | crash i =>
    obtain ⟨p, -, rfl⟩ := Option.map_eq_some_iff.1 hstep
    exact h

theorem inv_step {e : Event B} (h : Inv ω) (hstep : ω.step e = some ω') : Inv ω' := by
  intro q hq hu
  -- a publisher that has succeeded before is covered by what was there, which has stayed
  have hb (hmem : q ∈ ω.publishers) : ω'.objects.final = some q.bytes :=
    final_step (h q hmem hu) hstep
  cases e with
  | publish bytes =>
    cases hstep
    rcases mem_append.1 hq with hq | hq
    · exact hb hq
    · rw [mem_singleton.1 hq] at hu
      cases hu
  | request i reply =>
    obtain ⟨p, hp, rfl⟩ := Option.map_eq_some_iff.1 hstep
    rcases mem_or_eq_of_mem_set hq with hq | rfl
    · exact hb hq
    · refine next_final ?_
      rcases hs : p.stage.succeeds with _ | _
      · exact next_succeeds hu hs
      · exact h p (mem_of_getElem? hp) hs
  | crash i =>
    obtain ⟨p, hp, rfl⟩ := Option.map_eq_some_iff.1 hstep
    rcases mem_or_eq_of_mem_set hq with hq | rfl
    · exact hb hq
    · cases hu

theorem final_of_run {final : List B} (h : Run ω ω') (hf : ω.objects.final = some final) :
    ω'.objects.final = some final :=
  h.inv (P := fun ω ↦ ω.objects.final = some final) hf fun _ _ _ hf _ hstep ↦ final_step hf hstep

theorem inv_of_run {final : Option (List B)} (h : Run (initial final) ω) : Inv ω :=
  h.inv (nofun) fun _ _ _ hi _ hstep ↦ inv_step hi hstep

/-- **Publishing is exact.** -/
theorem publish_of_run {final : Option (List B)} {ω ω' : World B} (hω : Run (initial final) ω)
    (hω' : Run ω ω') : (∀ p ∈ ω.publishers, ∀ published, p.stage = .returned (.ok published) →
      ω'.objects.final = some p.bytes) ∧
    (∀ object, ω.objects.final = some object → ω'.objects.final = some object) ∧
    ∀ p ∈ ω.publishers, ∀ q ∈ ω'.publishers, ∀ published published',
      p.stage = .returned (.ok published) → q.stage = .returned (.ok published') →
        p.bytes = q.bytes := by
  have hi : Inv ω := inv_of_run hω
  have hi' : Inv ω' := hω'.inv hi fun _ _ _ hi _ hstep ↦ inv_step hi hstep
  have hu : ∀ p ∈ ω.publishers, ∀ published, p.stage = .returned (.ok published) →
      ω'.objects.final = some p.bytes := fun p hp published hs ↦
    final_of_run hω' (hi p hp (by rw [hs]; rfl))
  refine ⟨hu, fun _ ↦ final_of_run hω', fun p hp q hq published published' hp' hq' ↦ ?_⟩
  have hsm := (hu p hp published hp').symm.trans (hi' q hq (by rw [hq']; rfl))
  exact Option.some.inj hsm

def bothStaged : List (Event ℕ) :=
  [.publish [7], .publish [7], .request 0 .ok, .request 1 .ok, .request 0 .ok, .request 1 .ok,
    .request 0 .ok, .request 1 .ok, .request 0 .ok, .request 1 .ok]

def reused : List (Event ℕ) :=
  [.request 0 (.error (.backend "not supported") false), .request 0 (.error (.backend "") true),
    .request 1 .ok, .request 1 .ok, .request 1 .ok, .request 1 .ok]

theorem publish_of_run_reused : ∃ ω : World ℕ, exec step (initial none) (bothStaged ++ reused) =
    some ω ∧ ω.publishers[1]? = some ⟨[7], .returned (.ok ⟨1, true⟩)⟩ ∧
      ω.objects.final = some [7] := by
  have he : (exec step (initial none) (bothStaged ++ reused)).map (·.publishers[1]?) =
      some (some ⟨[7], .returned (.ok ⟨1, true⟩)⟩) := by decide +kernel
  have hmt : MeetsAll step (fun _ _ ↦ True) (initial none) (bothStaged ++ reused) := by decide
  obtain ⟨ω, hω, hs⟩ := Option.map_eq_some_iff.1 he
  refine ⟨ω, hω, hs, ?_⟩
  exact (publish_of_run (reaches_of_exec hω hmt) .refl).1 _ (mem_of_getElem? hs) _ rfl

end World

end Koldstore.Storage
