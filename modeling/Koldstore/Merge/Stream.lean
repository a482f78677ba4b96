import Koldstore.Merge.Resolver

/-!
# The merge row stream

`MergeRowStream` produces the rows of a merge scan one at a time.
-/

namespace Koldstore

/-! ### Rows -/

structure HotPageRow (K C W : Type*) where
  pk : K
  image : C → Option W

structure ColdRow (K C W : Type*) where
  pk : K
  seq : ℕ
  deleted : Bool
  stored : C → Option W

structure ResolvedRow (K C W : Type*) where
  pk : K
  source : RowSource
  seq : ℕ
  image : C → Option W

structure EmittedRow (K W : Type*) where
  pk : K
  source : RowSource
  seq : ℕ
  values : List (Option W)
  deriving DecidableEq, Repr

def hotSeqSentinel : ℕ := 2 ^ 63 - 1

/-! ### Sources -/

inductive OverlaySource (K : Type*)
  | eager (pks : List K)
  | deferred (masked : K → Bool)

inductive OrderDirection
  | asc
  | desc
  deriving DecidableEq, Repr

structure OrderedPlan (C B : Type*) where
  direction : OrderDirection
  coldBound : Option B
  leadingColumn : C

structure MergeSources (K C W B : Type*) where
  hotPages : List (List (HotPageRow K C W))
  coldGroups : List (List (ColdRow K C W))
  overlay : OverlaySource K
  maxSeenKeys : ℕ
  pkRangesDisjoint : Bool
  projection : List C
  projectionColumns : List C
  primaryKeyColumns : List C
  ordered : Option (OrderedPlan C B)
  encodeLeadingKey : Option W → Option B
  pages_ne_nil : ∀ page ∈ hotPages, page ≠ []
  hot_nodup : (hotPages.flatten.map HotPageRow.pk).Nodup
  versions : ∀ r ∈ coldGroups.flatten, ∀ r' ∈ coldGroups.flatten,
    r.pk = r'.pk → r.seq = r'.seq → r.stored = r'.stored
  projected : projection ⊆ projectionColumns
  ordered_deferred : ∀ pks, overlay = .eager pks → ordered = none

inductive OrderedEmitMode (K C W : Type*)
  | streaming
  | sortedBuffer (queue : List (ResolvedRow K C W))

structure MergeRowStream (K C W : Type*) where
  hotPages : List (List (HotPageRow K C W))
  coldGroups : List (List (ColdRow K C W))
  overlay : List K
  resolver : NewestFirstWinnerResolver K
  hotWinners : List (ResolvedRow K C W)
  coldWinners : List (ResolvedRow K C W)
  hotPhaseDone : Bool
  replayHot : Bool
  mode : OrderedEmitMode K C W
  bodyHydratePending : Bool

inductive StepResult (K C W : Type*)
  | emit (row : EmittedRow K W) (σ : MergeRowStream K C W)
  | again (σ : MergeRowStream K C W)
  | finished (σ : MergeRowStream K C W)

namespace MergeSources

variable {K C W B : Type*} [DecidableEq K] [DecidableEq C] [LinearOrder B]
  (src : MergeSources K C W B)

/-! ### Reading columns -/

def coldProjectionPlan (full primaryKey : List C) (leading : C) : Option (List C × List C) :=
  let compete := (primaryKey ++ [leading]).dedup
  let body := full.filter fun c ↦ !decide (c ∈ compete)
  if body = [] ∨ full.length ≤ compete.length then none else some (compete, body)

def lateProjection : Option (List C × List C) := src.ordered.bind fun plan ↦
    coldProjectionPlan src.projectionColumns src.primaryKeyColumns plan.leadingColumn

def hotResolved (row : HotPageRow K C W) : ResolvedRow K C W :=
  ⟨row.pk, .hot, hotSeqSentinel, row.image⟩

def coldResolved (columns : List C) (row : ColdRow K C W) : ResolvedRow K C W :=
  ⟨row.pk, .cold, row.seq, fun c ↦ if c ∈ columns then row.stored c else none⟩

def materialize (row : ResolvedRow K C W) : EmittedRow K W :=
  ⟨row.pk, row.source, row.seq, src.projection.map row.image⟩

def competeColumns : List C :=
  match src.lateProjection with
  | none => src.projectionColumns
  | some plan => plan.1

def bodyVersion (pk : K) (seq : ℕ) : Option (ColdRow K C W) :=
  src.coldGroups.flatten.reverse.find? fun r ↦ decide (r.pk = pk ∧ r.seq = seq)

def hydrateBody (row : ResolvedRow K C W) : ResolvedRow K C W :=
  match src.lateProjection, row.source with
  | some plan, .cold =>
    match src.bodyVersion row.pk row.seq with
    | none => row
    | some version =>
      let body := (coldResolved (plan.2 ++ src.primaryKeyColumns) version).image
      { row with image := fun c ↦ (body c).or (row.image c) }
  | _, _ => row

/-! ### Loading -/

def initialOverlay : List K :=
  match src.overlay with
  | .eager pks => pks
  | .deferred _ => []

def probeOverlayForColdBatch (batch : List (ColdRow K C W)) (overlay : List K) : List K :=
  match src.overlay with
  | .eager _ => overlay
  | .deferred masked => overlay ++ (batch.map ColdRow.pk).filter fun pk ↦
      !decide (pk ∈ overlay) && masked pk

def resolveHotPage (replayHot : Bool) (page : List (HotPageRow K C W))
    (ρ : NewestFirstWinnerResolver K) :
    Except SeenKeyLimitExceeded (List (ResolvedRow K C W) × NewestFirstWinnerResolver K) :=
  if replayHot then .ok (page.map hotResolved, ρ)
  else
    (ρ.resolveBatch .hot HotPageRow.pk (fun _ ↦ hotSeqSentinel) (fun _ ↦ false) true page).map
      fun (rows, ρ) ↦ (rows.map hotResolved, ρ)

def resolveColdGroup (group : List (ColdRow K C W)) (overlay : List K)
    (ρ : NewestFirstWinnerResolver K) : Except SeenKeyLimitExceeded
      (List (ColdRow K C W) × List K × NewestFirstWinnerResolver K) :=
  let overlay := src.probeOverlayForColdBatch group overlay
  (ρ.resolveBatch .cold ColdRow.pk ColdRow.seq ColdRow.deleted (!ρ.skipColdIdentityRetention)
    (group.filter fun r ↦ !decide (r.pk ∈ overlay))).map fun (rows, ρ) ↦ (rows, overlay, ρ)

def loadNextHotPage (σ : MergeRowStream K C W) :
    Except SeenKeyLimitExceeded (MergeRowStream K C W) :=
  match σ.hotPages with
  | [] => .ok σ
  | page :: pages =>
    (resolveHotPage σ.replayHot page σ.resolver).map fun (rows, ρ) ↦
      { σ with hotPages := pages, hotWinners := rows, resolver := ρ }

/-! ### The ordered buffer -/

def drainHot (replayHot : Bool) : List (List (HotPageRow K C W)) → NewestFirstWinnerResolver K →
    Except SeenKeyLimitExceeded (List (ResolvedRow K C W) × List (List (HotPageRow K C W)) ×
      NewestFirstWinnerResolver K)
  | [], ρ => .ok ([], [], ρ)
  | page :: pages, ρ =>
    (resolveHotPage replayHot page ρ).bind fun (rows, ρ) ↦ if rows.isEmpty then .ok ([], pages, ρ)
      else (drainHot replayHot pages ρ).map fun (rest, pages, ρ) ↦ (rows ++ rest, pages, ρ)

def drainCold : List (List (ColdRow K C W)) → List K → NewestFirstWinnerResolver K →
    Except SeenKeyLimitExceeded (List (ColdRow K C W) × List K × NewestFirstWinnerResolver K)
  | [], overlay, ρ => .ok ([], overlay, ρ)
  | group :: groups, overlay, ρ =>
    (src.resolveColdGroup group overlay ρ).bind fun (rows, overlay, ρ) ↦
      (drainCold groups overlay ρ).map fun (rest, overlay, ρ) ↦ (rows ++ rest, overlay, ρ)

def hotStrictlyWins (direction : OrderDirection) (bound : B) : Option B → Bool
  | none => false
  | some key =>
    match direction with
    | .asc => decide (key < bound)
    | .desc => decide (bound < key)

variable (plan : OrderedPlan C B)

def dominates (σ : MergeRowStream K C W) : Bool :=
  match plan.coldBound with
  | none => σ.coldGroups.isEmpty
  | some bound => !σ.hotWinners.isEmpty && σ.hotWinners.all fun row ↦
      hotStrictlyWins plan.direction bound (src.encodeLeadingKey (row.image plan.leadingColumn))

def keyLe : Option B → Option B → Bool
  | none, _ => true
  | some _, none => false
  | some a, some b => decide (a ≤ b)

def comesBefore (left right : ResolvedRow K C W) : Bool :=
  let leftKey := src.encodeLeadingKey (left.image plan.leadingColumn)
  let rightKey := src.encodeLeadingKey (right.image plan.leadingColumn)
  match plan.direction with
  | .asc => keyLe leftKey rightKey
  | .desc => keyLe rightKey leftKey

def sortBuffer (rows : List (ResolvedRow K C W)) : List (ResolvedRow K C W) :=
  rows.insertionSort fun left right ↦ src.comesBefore plan left right = true

def maybeEnterOrderedBuffer (σ : MergeRowStream K C W) :
    Except SeenKeyLimitExceeded (MergeRowStream K C W) :=
  if src.dominates plan σ then .ok σ
  else
    (drainHot σ.replayHot σ.hotPages σ.resolver).bind fun (hotRows, pages, ρ) ↦
    (src.drainCold σ.coldGroups σ.overlay (if σ.replayHot then ρ else ρ.checkpoint)).map
      fun (coldRows, overlay, ρ) ↦ { σ with
          hotPages := pages
          coldGroups := []
          overlay := overlay
          resolver := ρ
          hotWinners := []
          coldWinners := []
          hotPhaseDone := true
          mode := .sortedBuffer (src.sortBuffer plan
            (σ.hotWinners ++ hotRows ++ coldRows.map (coldResolved src.competeColumns)))
          bodyHydratePending := src.lateProjection.isSome && !coldRows.isEmpty }

/-! ### The loop -/

def finishHotPhase (σ : MergeRowStream K C W) :
    Except SeenKeyLimitExceeded (MergeRowStream K C W) :=
  if σ.replayHot then .ok { σ with hotPhaseDone := true }
  else
    (NewestFirstWinnerResolver.maskOlderPks σ.overlay σ.resolver).map fun ρ ↦
      { σ with resolver := ρ.checkpoint, hotPhaseDone := true }

def stepHotPhase (σ : MergeRowStream K C W) : Except SeenKeyLimitExceeded (MergeRowStream K C W) :=
  (loadNextHotPage σ).bind fun σ ↦ match src.ordered with
    | none => if σ.hotWinners.isEmpty then finishHotPhase σ else .ok σ
    | some plan =>
      if σ.hotWinners.isEmpty then
        if σ.replayHot then finishHotPhase σ
        else
          (src.maybeEnterOrderedBuffer plan σ).bind fun σ ↦ match σ.mode with
            | .sortedBuffer _ => .ok σ
            | .streaming => finishHotPhase σ
      else src.maybeEnterOrderedBuffer plan σ

def stepColdPhase (σ : MergeRowStream K C W) : Except SeenKeyLimitExceeded (StepResult K C W) :=
  match σ.coldGroups with
  | [] => .ok (.finished σ)
  | group :: groups =>
    (src.resolveColdGroup group σ.overlay σ.resolver).map fun (rows, overlay, ρ) ↦ .again { σ with
        coldGroups := groups
        overlay := overlay
        resolver := ρ
        coldWinners := rows.map (coldResolved src.projectionColumns) }

def hydrateIfNeeded (σ : MergeRowStream K C W) : MergeRowStream K C W :=
  match σ.mode with
  | .sortedBuffer (row :: queue) =>
    if σ.bodyHydratePending && decide (row.source = .cold) then
      { σ with
        mode := .sortedBuffer ((row :: queue).map src.hydrateBody)
        bodyHydratePending := false }
    else σ
  | _ => σ

/-- One iteration of the loop of `next_materialized`. -/
def step (σ : MergeRowStream K C W) : Except SeenKeyLimitExceeded (StepResult K C W) :=
  let σ := src.hydrateIfNeeded σ
  match σ.mode with
  | .sortedBuffer (row :: queue) =>
    .ok (.emit (src.materialize row) { σ with mode := .sortedBuffer queue })
  | .sortedBuffer [] => .ok (.finished σ)
  | .streaming =>
    match σ.hotWinners with
    | row :: rows => .ok (.emit (src.materialize row) { σ with hotWinners := rows })
    | [] =>
      if σ.hotPhaseDone then
        match σ.coldWinners with
        | row :: rows => .ok (.emit (src.materialize row) { σ with coldWinners := rows })
        | [] => src.stepColdPhase σ
      else (src.stepHotPhase σ).map .again

/-! ### Passes -/

def newStream : MergeRowStream K C W where
  hotPages := src.hotPages
  coldGroups := src.coldGroups
  overlay := src.initialOverlay
  resolver := .withMaxSeenKeys src.maxSeenKeys src.pkRangesDisjoint
  hotWinners := []
  coldWinners := []
  hotPhaseDone := false
  replayHot := false
  mode := .streaming
  bodyHydratePending := false

def reset (σ : MergeRowStream K C W) : MergeRowStream K C W := { σ with
    hotPages := src.hotPages
    coldGroups := src.coldGroups
    resolver := σ.resolver.reset
    hotWinners := []
    coldWinners := []
    hotPhaseDone := false
    replayHot := true
    mode := .streaming }

/-- Pulling rows until none is left emits `rows`. -/
inductive Emits : MergeRowStream K C W → List (EmittedRow K W) → Prop
  | again {σ σ' rows} : src.step σ = .ok (.again σ') → Emits σ' rows → Emits σ rows
  | emit {σ σ' row rows} : src.step σ = .ok (.emit row σ') → Emits σ' rows →
      Emits σ (row :: rows)
  | finished {σ σ'} : src.step σ = .ok (.finished σ') → Emits σ []

/-- Pulling `n` rows, or fewer if no more are left, leads to a state. -/
inductive Pulls : MergeRowStream K C W → ℕ → MergeRowStream K C W → Prop
  | enough {σ} : Pulls σ 0 σ
  | again {σ σ' n τ} : src.step σ = .ok (.again σ') → Pulls σ' (n + 1) τ → Pulls σ (n + 1) τ
  | emit {σ σ' row n τ} : src.step σ = .ok (.emit row σ') → Pulls σ' n τ → Pulls σ (n + 1) τ
  | finished {σ σ' n} : src.step σ = .ok (.finished σ') → Pulls σ (n + 1) σ'

inductive Passes : MergeRowStream K C W → List ℕ → MergeRowStream K C W → Prop
  | nil {σ} : Passes σ [] σ
  | cons {σ τ υ n ns} : src.Pulls σ n τ → Passes (src.reset τ) ns υ → Passes σ (n :: ns) υ

end MergeSources

end Koldstore
