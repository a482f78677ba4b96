import Koldstore.Basic.SortedList
import Koldstore.Basic.Except

/-!
# Following a feed

The cursor of the next call is taken from the last row of the page.
-/

namespace Koldstore

open List

variable {α κ ε : Type*}

/-- The consumer; `none` if it has calls left to make. -/
def follow (call : κ → ℕ → Except ε (List α)) (key : α → κ) :
    ℕ → (ℕ → ℕ) → κ → Except ε (Option (List α))
  | 0, _, _ => .ok none
  | fuel + 1, limits, cursor =>
    (call cursor (limits 0)).bind fun page ↦ match page.getLast? with
      | none => .ok (some [])
      | some last =>
        (follow call key fuel (fun i ↦ limits (i + 1)) (key last)).map (Option.map (page ++ ·))

variable {call call' : κ → ℕ → Except ε (List α)} {key : α → κ} {limits : ℕ → ℕ} {cursor : κ}

theorem follow_succ_of_ok {fuel : ℕ} {page : List α} {last : α}
    (hc : call cursor (limits 0) = .ok page) (hl : page.getLast? = some last) :
    follow call key (fuel + 1) limits cursor =
      (follow call key fuel (fun i ↦ limits (i + 1)) (key last)).map (Option.map (page ++ ·)) := by
  rw [follow, hc]
  show (match page.getLast? with | none => _ | some last => _) = _
  rw [hl]

theorem follow_succ_of_error {fuel : ℕ} {e : ε} (hc : call cursor (limits 0) = .error e) :
    follow call key (fuel + 1) limits cursor = .error e := by
  rw [follow, hc]
  rfl

/-- Pages are pieces off the front of the stream. -/
structure Serves (call : κ → ℕ → Except ε (List α)) (key : α → κ) (stream : κ → List α)
    (Good : κ → Prop) : Prop where
  page : ∀ cursor, Good cursor → ∀ limit, 0 < limit →
    call cursor limit = .ok ((stream cursor).take limit)
  good : ∀ cursor, Good cursor → ∀ a ∈ stream cursor, Good (key a)
  rest : ∀ cursor, Good cursor → ∀ limit last, ((stream cursor).take limit).getLast? = some last →
    stream (key last) = (stream cursor).drop limit

namespace Serves

variable {stream : κ → List α} {Good : κ → Prop}

theorem follow_eq (h : Serves call key stream Good) (hi : ∀ i, 0 < limits i)
    (hc : Good cursor) (fuel : ℕ) :
    ∃ o, follow call key fuel limits cursor = .ok o ∧ (∀ out, o = some out → out = stream cursor) ∧
      ((stream cursor).length < fuel → o = some (stream cursor)) := by
  induction fuel generalizing limits cursor with
  | zero => exact ⟨none, rfl, (fun _ h ↦ nomatch h), fun h ↦ absurd h (Nat.not_lt_zero _)⟩
  | succ fuel ih =>
    have hpg := h.page cursor hc (limits 0) (hi 0)
    cases hl : ((stream cursor).take (limits 0)).getLast? with
    | none =>
      -- an empty page of a positive limit is the end of the stream
      have hn : stream cursor = [] := by
        have := getLast?_eq_none_iff.1 hl
        rcases take_eq_nil_iff.1 this with h0 | h
        · exact absurd h0 (Nat.ne_of_gt (hi 0))
        · exact h
      refine ⟨some [], ?_, fun out ho ↦ ?_, fun _ ↦ by rw [hn]⟩
      · rw [follow, hpg, hn, take_nil]
        rfl
      · rw [hn]
        exact (Option.some.inj ho).symm
    | some last =>
      have hmem : last ∈ stream cursor := mem_of_mem_take (mem_of_getLast? hl)
      have hre := h.rest cursor hc (limits 0) last hl
      obtain ⟨o, hf, hsome, hfuel⟩ := ih (fun i ↦ hi (i + 1)) (h.good cursor hc last hmem)
      have hu : (stream cursor).take (limits 0) ++ stream (key last) = stream cursor := by
        rw [hre, take_append_drop]
      refine ⟨o.map ((stream cursor).take (limits 0) ++ ·), ?_, ?_, ?_⟩
      · rw [follow_succ_of_ok hpg hl, hf]
        rfl
      · intro out ho
        obtain ⟨tail, rfl, rfl⟩ := Option.map_eq_some_iff.1 ho
        rw [hsome tail rfl, hu]
      · intro hlen
        have hl' : (stream (key last)).length < fuel := by
          have hp := hi 0
          have := length_pos_of_mem hmem
          rw [hre, length_drop]
          omega
        rw [hfuel hl', Option.map_some, hu]

end Serves

theorem follow_toOption_congr {Good : κ → Prop} (ha : ∀ cursor, Good cursor → ∀ limit, 0 < limit →
      (call cursor limit).toOption = (call' cursor limit).toOption)
    (hg : ∀ cursor, Good cursor → ∀ limit, 0 < limit → ∀ page, call cursor limit = .ok page →
      ∀ a ∈ page, Good (key a)) (hi : ∀ i, 0 < limits i) (hc : Good cursor) (fuel : ℕ) :
    (follow call key fuel limits cursor).toOption =
      (follow call' key fuel limits cursor).toOption := by
  induction fuel generalizing limits cursor with
  | zero => rfl
  | succ fuel ih =>
    have heq := ha cursor hc (limits 0) (hi 0)
    cases hpg : call cursor (limits 0) with
    | error e =>
      cases hpg' : call' cursor (limits 0) with
      | error e' => rw [follow_succ_of_error hpg, follow_succ_of_error hpg']; rfl
      | ok page' => rw [hpg, hpg'] at heq; exact nomatch heq
    | ok page =>
      cases hpg' : call' cursor (limits 0) with
      | error e' => rw [hpg, hpg'] at heq; exact nomatch heq
      | ok page' =>
        obtain rfl : page = page' := by
          rw [hpg, hpg'] at heq
          exact Option.some.inj heq
        cases hl : page.getLast? with
        | none =>
          obtain rfl : page = [] := getLast?_eq_none_iff.1 hl
          rw [follow, follow, hpg, hpg']
          rfl
        | some last =>
          have hmem : Good (key last) := hg cursor hc (limits 0) (hi 0) page hpg last
            (mem_of_getLast? hl)
          have hre := ih (fun i ↦ hi (i + 1)) hmem
          rw [follow_succ_of_ok hpg hl, follow_succ_of_ok hpg' hl, Except.toOption_map,
            Except.toOption_map, hre]

end Koldstore
