import Koldstore.Basic.BitSet
import Koldstore.SortKey.Encode

/-!
# Value summaries

A small bit set tells which values a segment does not have.
-/

namespace Koldstore.SortKey

open List

abbrev Summary : Type := List (BitVec 8)

def summaryMaxBytes : ℕ := 8 * 1024

def summaryMaxRows : ℕ := summaryMaxBytes * 8 / 2

def bitsPerRow : ℕ := 16

def minBits : ℕ := 64

/-- Hashes bytes to a number below `2 ^ 63`: FNV-1a, and the finalizer of splitmix64. -/
def summaryHash (encoded : Bytes) : UInt64 :=
  let hash : UInt64 := encoded.foldl
    (fun hash byte ↦ (hash ^^^ UInt64.ofNat byte.val) * 0x00000100000001b3) 0xcbf29ce484222325
  let hash := hash + 0x9e3779b97f4a7c15
  let hash := (hash ^^^ (hash >>> 30)) * 0xbf58476d1ce4e5b9
  let hash := (hash ^^^ (hash >>> 27)) * 0x94d049bb133111eb
  (hash ^^^ (hash >>> 31)) >>> 1

example : summaryHash [] = 7043838727467204504 ∧
    summaryHash [0x80, 0, 0, 0, 0, 0, 0, 42] = 8093551759240755733 := by
  decide +kernel

/-! ### The builder -/

structure ValueSummaryBuilder where
  hashes : List UInt64
  overflowed : Bool
  deriving DecidableEq, Repr

namespace ValueSummaryBuilder

def new : ValueSummaryBuilder := ⟨[], false⟩

variable (builder : ValueSummaryBuilder)

def insertHash (hash : UInt64) : ValueSummaryBuilder :=
  if builder.overflowed then builder
  else if summaryMaxRows ≤ builder.hashes.length then ⟨[], true⟩
  else { builder with hashes := builder.hashes ++ [hash] }

def insert (encoded : Bytes) : ValueSummaryBuilder := builder.insertHash (summaryHash encoded)

def len : ℕ := builder.hashes.length

def summaryBits (rows : ℕ) : ℕ :=
  min (max ((rows * bitsPerRow + 7) / 8 * 8) minBits) (summaryMaxBytes * 8)

def finish : Option Summary :=
  let rows := builder.hashes.length
  if builder.overflowed || decide (rows = 0) then none
  else
    let bits := summaryBits rows
    some (BitSet.ofBits (bits / 8) (builder.hashes.map fun hash ↦ hash.toNat % bits))

theorem foldl_insertHash (hashes : List UInt64) : hashes.foldl insertHash new =
    if hashes.length ≤ summaryMaxRows then ⟨hashes, false⟩ else ⟨[], true⟩ := by
  -- from the end, since the builder appends
  induction hashes using List.reverseRecOn with
  | nil => rfl
  | append_singleton hashes hash ih =>
    rw [foldl_append, ih, foldl_cons, foldl_nil, length_append, length_singleton]
    rcases Nat.lt_trichotomy hashes.length summaryMaxRows with hlt | heq | hgt
    · rw [if_pos hlt.le, if_pos (by omega), insertHash, if_neg (by simp), if_neg (by simp; omega)]
    · rw [if_pos heq.le, if_neg (by omega), insertHash, if_neg (by simp), if_pos (by simp; omega)]
    · rw [if_neg (by omega), if_neg (by omega), insertHash, if_pos rfl]

theorem foldl_insert (keys : List Bytes) : keys.foldl insert new =
    if keys.length ≤ summaryMaxRows then ⟨keys.map summaryHash, false⟩ else ⟨[], true⟩ := by
  rw [← length_map (f := summaryHash), ← foldl_insertHash, foldl_map]
  rfl

theorem mul_summaryBits_div (rows : ℕ) : 8 * (summaryBits rows / 8) = summaryBits rows := by
  simp only [summaryBits, minBits, summaryMaxBytes]
  omega

theorem summaryBits_pos (rows : ℕ) : 0 < summaryBits rows := by
  simp only [summaryBits, minBits, summaryMaxBytes]
  omega

end ValueSummaryBuilder

/-! ### Reading a summary -/

def summaryHasHash (summary : Summary) (hash : UInt64) : Bool :=
  BitSet.getBit summary (hash.toNat % (8 * summary.length))

def summaryMayContain (summary : Summary) (encoded : Bytes) : Bool :=
  if summary = [] then true else summaryHasHash summary (summaryHash encoded)

open ValueSummaryBuilder in
theorem summaryHasHash_of_finish {builder : ValueSummaryBuilder} {summary : Summary} {hash : UInt64}
    (h : builder.finish = some summary) (hha : hash ∈ builder.hashes) :
    summaryHasHash summary hash = true := by
  rw [finish] at h
  split at h
  · cases h
  · cases h
    have hb : 8 * (summaryBits builder.hashes.length / 8) = summaryBits builder.hashes.length :=
      mul_summaryBits_div _
    rw [summaryHasHash, BitSet.length_ofBits, hb, BitSet.getBit_ofBits]
    · exact decide_eq_true (mem_map.2 ⟨hash, hha, rfl⟩)
    · intro bit hi
      obtain ⟨hash', -, rfl⟩ := mem_map.1 hi
      rw [hb]
      exact Nat.mod_lt _ (summaryBits_pos _)

theorem summaryMayContain_of_finish {builder : ValueSummaryBuilder} {summary : Summary}
    {encoded : Bytes} (h : builder.finish = some summary)
    (hk : summaryHash encoded ∈ builder.hashes) : summaryMayContain summary encoded = true := by
  rw [summaryMayContain]
  split
  · rfl
  · exact summaryHasHash_of_finish h hk

end Koldstore.SortKey
