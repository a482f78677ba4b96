import Koldstore.Basic.Smallest
import Koldstore.Mirror.PgOutput

/-!
# The change feed: `changes_since`

Changes are the rows of the mirror and of the cold segments, *active* and *history* ones.
-/

namespace Koldstore.Feed

/-! ### Stored changes -/

structure LogRow (K : Type*) where
  seq : ℤ
  op : MirrorOperation
  pk : K

structure ColdRow (K V : Type*) extends LogRow K where
  image : V

/-- The mirror's `op = 3`; a segment stores the same flag. -/
def LogRow.deleted {K : Type*} (r : LogRow K) : Bool := decide (r.op = .delete)

structure ColdSegment (K V : Type*) where
  objectPath : String
  minSeq : ℤ
  maxSeq : ℤ
  rows : List (ColdRow K V)
  minSeq_le : ∀ r ∈ rows, minSeq ≤ r.seq
  le_maxSeq : ∀ r ∈ rows, r.seq ≤ maxSeq
  exists_minSeq : ∃ r ∈ rows, r.seq = minSeq

/-- What `changes_since` reads of a table. -/
structure ChangeFeed (K V : Type*) where
  hot : List (LogRow K)
  active : List (ColdSegment K V)
  history : List (ColdSegment K V)
  historyFloor : ℤ
  hot_pos : ∀ r ∈ hot, 0 < r.seq
  cold_pos : ∀ s ∈ active ++ history, ∀ r ∈ s.rows, 0 < r.seq
  seq_nodup : (hot.map LogRow.seq ++ (((active ++ history).flatMap ColdSegment.rows).map
    fun r ↦ r.seq)).Nodup
  historyFloor_nonneg : 0 ≤ historyFloor

def ChangeFeed.segments {K V : Type*} (feed : ChangeFeed K V) : List (ColdSegment K V) :=
  feed.active ++ feed.history

/-! ### Reported changes -/

inductive ChangeSource
  | hotMirror
  | coldRecord
  deriving DecidableEq, Repr

structure MirrorChange (K S V : Type*) where
  tableOid : ℕ
  scopeKey : Option S
  pk : K
  operation : MirrorOperation
  seq : ℤ
  deleted : Bool
  rowImage : Option V
  source : ChangeSource
  deriving DecidableEq

structure ChangeFeedTargets (K S : Type*) where
  tableOid : ℕ
  scope : Option (S × (K → Option S))

inductive ChangesSinceError
  | negativeSinceSeq
  | nonPositiveLimit
  | nonPositiveLastRows
  | lastRowsOverLimit
  | predatesCompaction (sinceSeq floor : ℤ)
  | retentionGap (oldest : ℤ)
  deriving DecidableEq, Repr

def ChangesSinceError.message : ChangesSinceError → String
  | negativeSinceSeq => "since_seq must be >= 0"
  | nonPositiveLimit => "limit_rows must be positive"
  | nonPositiveLastRows => "last_rows must be positive"
  | lastRowsOverLimit => "last_rows must be <= limit_rows"
  | predatesCompaction sinceSeq floor =>
    s!"since_seq {sinceSeq} predates compaction: cold history up to seq {floor} was collapsed " ++
      "to the newest version of each key, so intermediate versions and deletes can no longer be " ++
      "replayed; resync from the current state (since_seq => 0) and resume from the last " ++
      "returned seq"
  | retentionGap oldest => s!"change records before sequence {oldest} are no longer retained"

variable {K S V : Type*} (targets : ChangeFeedTargets K S)

/-- The caller's scope, `None` on a shared table. -/
def ChangeFeedTargets.scopeKey : Option S := targets.scope.map Prod.fst

def decodeHotMirrorTuple (r : LogRow K) : MirrorChange K S V where
  tableOid := targets.tableOid
  scopeKey := targets.scopeKey
  pk := r.pk
  operation := r.op
  seq := r.seq
  deleted := r.deleted
  rowImage := none
  source := .hotMirror

def coldRowToMirrorChange (r : ColdRow K V) : MirrorChange K S V where
  tableOid := targets.tableOid
  scopeKey := targets.scope.bind fun scope ↦ scope.2 r.pk
  pk := r.pk
  operation := r.op
  seq := r.seq
  deleted := r.deleted
  rowImage := if r.deleted then none else some r.image
  source := .coldRecord

section Scope

variable [DecidableEq S]

def ChangeFeedTargets.visible (pk : K) : Bool :=
  targets.scope.all fun scope ↦ decide (scope.2 pk = some scope.1)

def ChangeFeedTargets.inScope (change : MirrorChange K S V) : Bool :=
  targets.scopeKey.all fun required ↦ decide (change.scopeKey = some required)

/-! ### Pages after a cursor -/

variable (feed : ChangeFeed K V)

/-- The mirror half of a page: `seq > since ORDER BY seq LIMIT limit`. -/
def fetchHotMirrorChanges (targets : ChangeFeedTargets K S) (sinceSeq : ℤ)
    (limit : ℕ) : List (MirrorChange K S V) :=
  (Keyset.page LogRow.seq limit (feed.hot.filter fun r ↦ targets.visible r.pk) (some sinceSeq)).map
    (decodeHotMirrorTuple targets)

variable (segment : ColdSegment K V)

def readColdSegmentPage (sinceSeq : ℤ) : List (MirrorChange K S V) :=
  let rows := segment.rows.filter fun r ↦ max (sinceSeq + 1) 1 ≤ r.seq ∧ r.seq ≤ segment.maxSeq
  Keyset.ordered MirrorChange.seq
    ((rows.map (coldRowToMirrorChange targets)).filter targets.inScope)

/-- The order in which candidates are read: `(min_seq, max_seq, object_path)`. -/
def ColdSegment.walkKey : ℤ ×ₗ ℤ ×ₗ String :=
  toLex (segment.minSeq, toLex (segment.maxSeq, segment.objectPath))

def walkCandidates (read : ColdSegment K V → List (MirrorChange K S V)) (limit : ℕ) :
    List (ColdSegment K V) → List (MirrorChange K S V) → List (MirrorChange K S V)
  | [], coldAcc => coldAcc
  | segment :: rest, coldAcc =>
    if limit ≤ coldAcc.length then
      let page := Keyset.smallest MirrorChange.seq limit coldAcc
      if (page[limit - 1]?).any fun last ↦ decide (last.seq < segment.minSeq) then page
      else walkCandidates read limit rest (page ++ read segment)
    else walkCandidates read limit rest (coldAcc ++ read segment)

def fetchColdChanges (targets : ChangeFeedTargets K S) (sinceSeq : ℤ)
    (limit : ℕ) : List (MirrorChange K S V) :=
  let candidates := Keyset.ordered ColdSegment.walkKey
    (feed.segments.filter fun segment ↦ sinceSeq < segment.maxSeq)
  Keyset.smallest MirrorChange.seq limit
    (walkCandidates (readColdSegmentPage targets · sinceSeq) limit candidates [])

/-- The smallest `min_seq` of a published segment. -/
def ChangeFeed.oldestCold : Option ℤ := (feed.segments.map ColdSegment.minSeq).min?

/-- The largest `max_seq` of a published segment. -/
def ChangeFeed.newestCold : Option ℤ := (feed.segments.map ColdSegment.maxSeq).max?

def fetchSinceSeqPage (targets : ChangeFeedTargets K S) (sinceSeq : ℤ)
    (limit : ℕ) : Except ChangesSinceError (List (MirrorChange K S V)) :=
  match feed.oldestCold.filter fun oldest ↦ decide (0 < sinceSeq ∧ sinceSeq < oldest - 1) with
  | some oldest => .error (.retentionGap oldest)
  | none =>
    if feed.segments.isEmpty ∨ feed.newestCold.any fun newest ↦ decide (newest ≤ sinceSeq) then
      .ok (fetchHotMirrorChanges feed targets sinceSeq limit)
    else
      let page := fetchColdChanges feed targets sinceSeq limit
      if page.length < limit then
        let cursor := (page.getLast?.map MirrorChange.seq).getD sinceSeq
        .ok (page ++ fetchHotMirrorChanges feed targets cursor (limit - page.length))
      else .ok page

/-! ### The rewind -/

/-- The newest mirror rows: `ORDER BY seq DESC LIMIT last_rows`. -/
def fetchHotMirrorLastRows (targets : ChangeFeedTargets K S)
    (lastRows : ℕ) : List (MirrorChange K S V) :=
  (Keyset.smallest (fun r ↦ OrderDual.toDual r.seq) lastRows
    (feed.hot.filter fun r ↦ targets.visible r.pk)).map (decodeHotMirrorTuple targets)

def changesLast (changes : List (MirrorChange K S V)) (targets : ChangeFeedTargets K S)
    (lastRows : ℕ) : List (MirrorChange K S V) :=
  let selected := Keyset.ordered MirrorChange.seq (changes.filter fun change ↦
    decide (change.tableOid = targets.tableOid) && decide (change.scopeKey = targets.scopeKey))
  selected.drop (selected.length - lastRows)

def pushWindow (limit : ℕ) (window : List (MirrorChange K S V))
    (r : ColdRow K V) : List (MirrorChange K S V) :=
  let change := coldRowToMirrorChange targets r
  if targets.inScope change then
    if limit < (window ++ [change]).length then (window ++ [change]).tail else window ++ [change]
  else window

/-- The last `limit` visible rows of a segment **in the order in which they are stored**. -/
def readColdSegmentNewestWindow (limit : ℕ) : List (MirrorChange K S V) :=
  segment.rows.foldl (pushWindow targets limit) []

def fillFromCold (targets : ChangeFeedTargets K S) (hot : List (MirrorChange K S V))
    (lastRows : ℕ) : List (ColdSegment K V) → List (MirrorChange K S V) → List (MirrorChange K S V)
  | [], coldAcc => coldAcc
  | segment :: rest, coldAcc =>
    if lastRows ≤ (changesLast (coldAcc ++ hot) targets lastRows).length then coldAcc
    else fillFromCold targets hot lastRows rest
      (coldAcc ++ readColdSegmentNewestWindow targets segment lastRows)

/-- The order of the rewind: `(max_seq, min_seq, object_path)`, descending. -/
def ColdSegment.rewindKey : (ℤ ×ₗ ℤ ×ₗ String)ᵒᵈ :=
  OrderDual.toDual (toLex (segment.maxSeq, toLex (segment.minSeq, segment.objectPath)))

def fetchLastRowsPage (targets : ChangeFeedTargets K S) (lastRows : ℕ) :
    List (MirrorChange K S V) :=
  let hot := fetchHotMirrorLastRows feed targets lastRows
  if lastRows ≤ hot.length then changesLast hot targets lastRows
  else if feed.active.isEmpty then changesLast hot targets lastRows
  else
    let ordered := Keyset.ordered ColdSegment.rewindKey feed.active
    changesLast (fillFromCold targets hot lastRows ordered [] ++ hot) targets lastRows

/-! ### The entry point -/

def defaultChangeLimit : ℤ := 1000

/-- `koldstore.changes_since(since_seq, limit_rows, last_rows)`. -/
def changesSincePgImpl (targets : ChangeFeedTargets K S) (sinceSeq : ℤ)
    (limitRows lastRows : Option ℤ) : Except ChangesSinceError (List (MirrorChange K S V)) :=
  let limit := limitRows.getD defaultChangeLimit
  if sinceSeq < 0 then .error .negativeSinceSeq
  else if limit ≤ 0 then .error .nonPositiveLimit
  else if lastRows.any fun n ↦ decide (n ≤ 0) then .error .nonPositiveLastRows
  else if lastRows.any fun n ↦ decide (limit < n) then .error .lastRowsOverLimit
  else if 0 < sinceSeq ∧ sinceSeq < feed.historyFloor then
    .error (.predatesCompaction sinceSeq feed.historyFloor)
  else
    match lastRows with
    | some n =>
      if sinceSeq = 0 then .ok (fetchLastRowsPage feed targets n.toNat)
      else fetchSinceSeqPage feed targets sinceSeq limit.toNat
    | none => fetchSinceSeqPage feed targets sinceSeq limit.toNat

end Scope

end Koldstore.Feed
