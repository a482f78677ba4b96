import Mathlib

/-!
# Bounded lookup caches

A cache of optional values that forgets its least recently used entry when it is full.
-/

namespace Koldstore

open List

structure LookupCache (K V : Type*) where
  entries : List (K × Option V)
  limit : ℕ

namespace LookupCache

variable {K V : Type*} [DecidableEq K]

def withLimit (limit : ℕ) : LookupCache K V := ⟨[], max limit 1⟩

/-- Moves the entry of `key`, if there is one, to the most recently used end. -/
def touch (cache : LookupCache K V) (key : K) : LookupCache K V := { cache with
    entries := cache.entries.filter (fun e ↦ !decide (e.1 = key)) ++
      cache.entries.filter fun e ↦ decide (e.1 = key) }

/-- The cached answer for `key`, and the cache with `key` promoted. -/
def get (cache : LookupCache K V) (key : K) : Option (Option V) × LookupCache K V :=
  match cache.entries.find? fun e ↦ decide (e.1 = key) with
  | none => (none, cache)
  | some e => (some e.2, cache.touch key)

def insert (cache : LookupCache K V) (key : K) (value : Option V) : LookupCache K V :=
  if cache.entries.any fun e ↦ decide (e.1 = key) then
    { cache with
      entries := cache.entries.filter (fun e ↦ !decide (e.1 = key)) ++ [(key, value)] }
  else
    { cache with
      entries := cache.entries.drop (cache.entries.length + 1 - cache.limit) ++ [(key, value)] }

/-- Every cached answer satisfies `P`. -/
def Sound (P : K → Option V → Prop) (cache : LookupCache K V) : Prop :=
  ∀ e ∈ cache.entries, P e.1 e.2

variable {P : K → Option V → Prop} {cache : LookupCache K V} {key : K}

omit [DecidableEq K] in
@[simp] theorem sound_withLimit (limit : ℕ) : (withLimit limit : LookupCache K V).Sound P := by
  simp [Sound, withLimit]

theorem Sound.get_snd (h : cache.Sound P) (key : K) : (cache.get key).2.Sound P := by
  rw [get]
  split
  · exact h
  · intro e he
    simp only [touch, mem_append, mem_filter] at he
    exact h e (he.elim And.left And.left)

theorem Sound.of_get (h : cache.Sound P) {value : Option V} (hg : (cache.get key).1 = some value) :
    P key value := by
  rw [get] at hg
  split at hg
  · simp at hg
  next e he =>
    obtain rfl : e.1 = key := by simpa using find?_some he
    obtain rfl : e.2 = value := by simpa using hg
    exact h e (mem_of_find?_eq_some he)

theorem Sound.insert (h : cache.Sound P) {value : Option V} (hv : P key value) :
    (cache.insert key value).Sound P := by
  rw [LookupCache.insert]
  intro e he
  split at he
  · rcases mem_append.1 he with he | he
    · exact h e (mem_of_mem_filter he)
    · obtain rfl := mem_singleton.1 he
      exact hv
  · rcases mem_append.1 he with he | he
    · exact h e (mem_of_mem_drop he)
    · obtain rfl := mem_singleton.1 he
      exact hv

end LookupCache

end Koldstore
