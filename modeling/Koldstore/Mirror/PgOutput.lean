import Mathlib

/-!
# The decoded WAL stream

PostgreSQL replays committed transactions as a flat stream of `pgoutput` messages.
-/

namespace Koldstore

/-- The operation a mirror row records; the codes are the mirror's `op` column. -/
inductive MirrorOperation
  | insert
  | update
  | delete
  deriving DecidableEq, Repr

namespace MirrorOperation

/-- The value stored in the mirror's `op` column. -/
def code : MirrorOperation → ℕ
  | insert => 1
  | update => 2
  | delete => 3

end MirrorOperation

/-- One decoded `pgoutput` message. -/
inductive PgOutputMessage (Tuple : Type*)
  | begin (finalLsn : ℕ)
  | origin (name : String)
  | commit (endLsn : ℕ)
  | relation (id : ℕ)
  | insert (relationId : ℕ) (new : Tuple)
  | update (relationId : ℕ) (old : Option Tuple) (new : Tuple)
  | delete (relationId : ℕ) (old : Tuple)
  | ignored

namespace PgOutputMessage

variable {Tuple : Type*}

/-- Messages that may stand between `begin` and `commit`, after the optional `origin`. -/
def InBody : PgOutputMessage Tuple → Prop
  | relation _ => True
  | insert _ _ => True
  | update _ _ _ => True
  | delete _ _ => True
  | ignored => True
  | _ => False

end PgOutputMessage

structure Transaction (Tuple : Type*) where
  finalLsn : ℕ
  endLsn : ℕ
  origin : Option String
  body : List (PgOutputMessage Tuple)
  final_lt_end : finalLsn < endLsn
  inBody : ∀ m ∈ body, m.InBody

namespace Transaction

variable {Tuple : Type*}

def messages (t : Transaction Tuple) : List (PgOutputMessage Tuple) := .begin t.finalLsn ::
    ((t.origin.map PgOutputMessage.origin).toList ++ (t.body ++ [.commit t.endLsn]))

end Transaction

section CommitOrder

variable {Tuple : Type*}

def CommitOrdered (ts : List (Transaction Tuple)) : Prop :=
  ts.Pairwise fun s t ↦ s.endLsn ≤ t.finalLsn

/-- The stream a peek over `ts` returns. -/
def decodeStream (ts : List (Transaction Tuple)) : List (PgOutputMessage Tuple) :=
  ts.flatMap Transaction.messages

@[simp] theorem decodeStream_cons (t : Transaction Tuple) (ts : List (Transaction Tuple)) :
    decodeStream (t :: ts) = t.messages ++ decodeStream ts := by
  simp [decodeStream]

end CommitOrder

end Koldstore
