import Koldstore.Feed.Versions

/-!
# Resolution, exactly

`resolve_versions` splits the rows of a unit into kept, moved and dropped ones.
-/

namespace Koldstore.Feed

open List ResolvedRows

variable {K V B : Type*}

variable {losers : List (ColdRow K V)}

section Floor

variable {retainFrom : ℤ} {Loses : ColdRow K V → Prop} {rows : List (ColdRow K V)}
  {resolved : ResolvedRows K V} {row : ColdRow K V}

def Floored (retainFrom : ℤ) (Loses : ColdRow K V → Prop) (rows : List (ColdRow K V))
    (historyFloor : ℤ) : Prop :=
  0 ≤ historyFloor ∧
    (historyFloor = 0 ∨ ∃ r ∈ rows, Loses r ∧ r.seq < retainFrom ∧ r.seq = historyFloor)

theorem Floored.mono {Loses' : ColdRow K V → Prop} {rows' : List (ColdRow K V)} {historyFloor : ℤ}
    (h : Floored retainFrom Loses rows historyFloor) (hl : ∀ r, Loses r → Loses' r)
    (hrs : ∀ r ∈ rows, r ∈ rows') : Floored retainFrom Loses' rows' historyFloor := by
  refine ⟨h.1, h.2.imp_right ?_⟩
  rintro ⟨r, hr, ho, hs⟩
  exact ⟨r, hrs r hr, hl r ho, hs⟩

theorem Floored.dropVersion (h : Floored retainFrom Loses rows resolved.historyFloor)
    (hrow : row ∈ rows) (hl : Loses row) :
    Floored retainFrom Loses rows (resolved.dropVersion retainFrom row).historyFloor := by
  rw [ResolvedRows.dropVersion]
  split
  next => exact h
  next hr =>
    refine ⟨h.1.trans (le_max_left _ _), ?_⟩
    rcases le_total row.seq resolved.historyFloor with hle | hle
    · rw [max_eq_left hle]
      exact h.2
    · exact .inr ⟨row, hrow, hl, not_le.1 hr, (max_eq_right hle).symm⟩

theorem Floored.foldl_dropVersion (h : Floored retainFrom Loses rows resolved.historyFloor)
    (hrs : ∀ r ∈ losers, r ∈ rows) (hl : ∀ r ∈ losers, Loses r) : Floored retainFrom Loses rows
      (losers.foldl (ResolvedRows.dropVersion retainFrom) resolved).historyFloor := by
  induction losers generalizing resolved with
  | nil => exact h
  | cons row losers ih =>
    rw [forall_mem_cons] at hrs hl
    exact ih (h.dropVersion hrs.1 hl.1) hrs.2 hl.2

variable [DecidableEq K] (h : Floored retainFrom (Superseded rows) rows resolved.historyFloor)
include h

theorem Floored.resolveRow (hws : Winners retainFrom rows resolved)
    (hnd : ((rows ++ [row]).map fun r ↦ r.seq).Nodup) :
    Floored retainFrom (Superseded (rows ++ [row])) (rows ++ [row])
      (resolveRow retainFrom resolved row).historyFloor := by
  have hl : Floored retainFrom (Superseded (rows ++ [row])) (rows ++ [row])
      resolved.historyFloor :=
    h.mono (fun r hr ↦ hr.mono fun _ ↦ mem_append_left _) fun _ ↦ mem_append_left _
  have hrow : row ∈ rows ++ [row] := mem_append_right _ mem_cons_self
  rw [Koldstore.Feed.resolveRow]
  cases hfi : resolved.kept.find? fun r ↦ decide (r.pk = row.pk) with
  | none => exact hl
  | some existing =>
    have hkt : existing ∈ resolved.kept := mem_of_find?_eq_some hfi
    have hpk : existing.pk = row.pk := by simpa using find?_some hfi
    have hex : existing ∈ rows ++ [row] := mem_append_left _ (hws.mem_seen hkt)
    have hne : existing.seq ≠ row.seq := by
      rw [map_append, nodup_append] at hnd
      exact hnd.2.2 _ (mem_map_of_mem (hws.mem_seen hkt)) _ mem_cons_self
    show Floored _ _ _ (historyFloor (if row.seq ≤ existing.seq then _ else _))
    rcases lt_or_gt_of_ne hne with hlt | hlt
    · rw [if_neg (not_le.2 hlt)]
      exact Floored.dropVersion hl hex ⟨row, hrow, hpk.symm, hlt⟩
    · rw [if_pos hlt.le]
      exact Floored.dropVersion hl hrow ⟨existing, hex, hpk, hlt⟩

theorem Floored.foldl {todo : List (ColdRow K V)} (hws : Winners retainFrom rows resolved)
    (hnd : ((rows ++ todo).map fun r ↦ r.seq).Nodup) :
    Floored retainFrom (Superseded (rows ++ todo)) (rows ++ todo)
      (todo.foldl (Koldstore.Feed.resolveRow retainFrom) resolved).historyFloor := by
  induction todo generalizing rows resolved with
  | nil => rwa [append_nil]
  | cons row todo ih =>
    rw [append_cons] at hnd ⊢
    have hnd' : ((rows ++ [row]).map fun r ↦ r.seq).Nodup := by
      rw [map_append] at hnd
      exact (nodup_append.1 hnd).1
    exact ih (h.resolveRow hws hnd') (hws.resolveRow hnd') hnd

omit h

omit [DecidableEq K] in
theorem winners_nil (retainFrom : ℤ) : Winners (K := K) (V := V) retainFrom [] ⟨[], [], 0⟩ := by
  have hnone : ∀ P : ColdRow K V → Prop, ∀ r ∈ ([] : List (ColdRow K V)), P r :=
    fun _ _ hr ↦ nomatch hr
  exact ⟨⟨[], ⟨.rfl, hnone _, hnone _, hnone _⟩⟩, nodup_nil, hnone _⟩

theorem floored_resolveVersions (hnd : (rows.map fun r ↦ r.seq).Nodup) (dropMarkers : Bool)
    (retainFrom : ℤ) :
    Floored retainFrom (fun r ↦ Superseded rows r ∨ dropMarkers ∧ r.deleted) rows
      (resolveVersions rows dropMarkers retainFrom).historyFloor := by
  have hin : Floored (K := K) (V := V) retainFrom (Superseded []) [] 0 := ⟨le_rfl, .inl rfl⟩
  have hfo := hin.foldl (winners_nil retainFrom) (by rwa [nil_append])
  have hws := (winners_nil retainFrom).foldl (by rwa [nil_append])
  rw [nil_append] at hfo hws
  have hfo' : Floored retainFrom (fun r ↦ Superseded rows r ∨ dropMarkers ∧ r.deleted) rows
      (rows.foldl (Koldstore.Feed.resolveRow retainFrom) ⟨[], [], 0⟩).historyFloor :=
    hfo.mono (fun r ↦ .inl) fun r hr ↦ hr
  cases dropMarkers with
  | false => exact hfo'
  | true =>
    refine Floored.foldl_dropVersion hfo' (fun r hr ↦ ?_) fun r hr ↦ ?_
    · exact hws.mem_seen (mem_of_mem_filter hr)
    · exact .inr ⟨rfl, (mem_filter.1 hr).2⟩

/-- **Resolution, exactly.** Every row is kept, moved or dropped, once. -/
theorem resolveVersions_exact (hnodup : (rows.map fun r ↦ r.seq).Nodup) (dropMarkers : Bool)
    (retainFrom : ℤ) : ∃ dropped, ((resolveVersions rows dropMarkers retainFrom).kept ++
        (resolveVersions rows dropMarkers retainFrom).history ++ dropped).Perm rows ∧
      (∀ r, r ∈ (resolveVersions rows dropMarkers retainFrom).kept ↔
        r ∈ rows ∧ (∀ r' ∈ rows, r'.pk = r.pk → r'.seq ≤ r.seq) ∧
          ¬(dropMarkers = true ∧ r.deleted = true)) ∧
      (∀ r ∈ (resolveVersions rows dropMarkers retainFrom).history, retainFrom ≤ r.seq) ∧
      (∀ r ∈ dropped, r.seq < retainFrom) ∧
      IsGreatest {n | n = 0 ∨ ∃ r ∈ dropped, r.seq = n}
        (resolveVersions rows dropMarkers retainFrom).historyFloor ∧
      ((∀ r ∈ rows, 0 ≤ r.seq) → dropped ≠ [] → IsGreatest {n | ∃ r ∈ dropped, r.seq = n}
        (resolveVersions rows dropMarkers retainFrom).historyFloor) := by
  obtain ⟨dropped, hspl⟩ := resolveVersions_splits hnodup dropMarkers retainFrom
  obtain ⟨ho, hfl⟩ := floored_resolveVersions hnodup dropMarkers retainFrom
  generalize resolveVersions rows dropMarkers retainFrom = resolved at hspl ho hfl ⊢
  -- the row whose id is the floor is not kept, since it lost, and not moved, since it is too old
  have ha : resolved.historyFloor = 0 ∨ ∃ r ∈ dropped, r.seq = resolved.historyFloor := by
    refine hfl.imp_right ?_
    rintro ⟨r, hr, hl, hlt, hs⟩
    refine ⟨r, ?_, hs⟩
    rcases mem_append.1 (hspl.perm.mem_iff.2 hr) with hr | hr
    · rcases (hspl.mem_iff.1 hr).2 with he | hn
      · exact absurd he (not_le.2 hlt)
      · exact absurd hl hn
    · exact hr
  have hup : ∀ r ∈ dropped, r.seq ≤ resolved.historyFloor := fun r hr ↦ (hspl.dropped r hr).2.2
  refine ⟨dropped, hspl.perm, fun r ↦ ?_, fun r hr ↦ (hspl.history r hr).2,
    fun r hr ↦ (hspl.dropped r hr).2.1, ⟨ha, ?_⟩, fun hp hne ↦ ⟨?_, ?_⟩⟩
  · rw [hspl.mem_kept_iff, not_or]
    refine and_congr_right fun _ ↦ and_congr_left' ?_
    simp only [Superseded, not_exists, not_and, not_lt]
  · rintro n (rfl | ⟨r, hr, rfl⟩)
    · exact ho
    · exact hup r hr
  · rcases ha with hz | ha
    · obtain ⟨r, hr⟩ := exists_mem_of_ne_nil dropped hne
      have hmem : r ∈ rows := hspl.perm.mem_iff.1 (mem_append_right _ hr)
      exact ⟨r, hr, le_antisymm (hup r hr) (hz ▸ hp r hmem)⟩
    · exact ha
  · rintro n ⟨r, hr, rfl⟩
    exact hup r hr

end Floor

theorem resolveVersions_exact_pair : ∃ dropped : List (ColdRow ℕ Unit),
    IsGreatest {n | n = 0 ∨ ∃ r ∈ dropped, r.seq = n}
      (resolveVersions [⟨⟨4, .insert, 1⟩, ()⟩, ⟨⟨7, .update, 1⟩, ()⟩] true 5).historyFloor := by
  have hnd : (([⟨⟨4, .insert, 1⟩, ()⟩, ⟨⟨7, .update, 1⟩, ()⟩] : List (ColdRow ℕ Unit)).map
      fun r ↦ r.seq).Nodup := by decide
  obtain ⟨dropped, -, -, -, -, hfl, -⟩ := resolveVersions_exact hnd true 5
  exact ⟨dropped, hfl⟩

theorem resolveVersions_negative :
    (([⟨⟨-2, .insert, 1⟩, ()⟩, ⟨⟨-1, .update, 1⟩, ()⟩] : List (ColdRow ℕ Unit)).map
      fun r ↦ r.seq).Nodup ∧
    ∀ dropped : List (ColdRow ℕ Unit),
      ((resolveVersions [⟨⟨-2, .insert, 1⟩, ()⟩, ⟨⟨-1, .update, 1⟩, ()⟩] true 0).kept ++
        (resolveVersions [⟨⟨-2, .insert, 1⟩, ()⟩, ⟨⟨-1, .update, 1⟩, ()⟩] true 0).history ++
          dropped).Perm [⟨⟨-2, .insert, 1⟩, ()⟩, ⟨⟨-1, .update, 1⟩, ()⟩] →
      dropped ≠ [] ∧ ¬ IsGreatest {n | ∃ r ∈ dropped, r.seq = n}
        (resolveVersions [⟨⟨-2, .insert, 1⟩, ()⟩, ⟨⟨-1, .update, 1⟩, ()⟩] true 0).historyFloor := by
  have he : resolveVersions [⟨⟨-2, .insert, 1⟩, ()⟩, ⟨⟨-1, .update, 1⟩, ()⟩] true 0 =
      (⟨[⟨⟨-1, .update, 1⟩, ()⟩], [], 0⟩ : ResolvedRows ℕ Unit) := by
    simp [resolveVersions, resolveRow, dropVersion, LogRow.deleted]
  rw [he]
  refine ⟨by decide, fun dropped hp ↦ ?_⟩
  have hdr : dropped = [⟨⟨-2, .insert, 1⟩, ()⟩] :=
    perm_singleton.1 ((perm_cons _).1 (hp.trans (.swap _ _ _)))
  subst hdr
  refine ⟨by simp, fun h ↦ ?_⟩
  obtain ⟨r, hr, hs⟩ := h.1
  rw [mem_singleton.1 hr] at hs
  exact absurd hs (by decide)

namespace ResolvedRows

variable {a b c : ResolvedRows K V} {retainFrom : ℤ} {row : ColdRow K V}

structure Same (a b : ResolvedRows K V) : Prop where
  kept : a.kept.Perm b.kept
  history : a.history.Perm b.history
  historyFloor : a.historyFloor = b.historyFloor

theorem Same.refl (a : ResolvedRows K V) : Same a a := ⟨.rfl, .rfl, rfl⟩

theorem Same.symm (h : Same a b) : Same b a := ⟨h.kept.symm, h.history.symm, h.historyFloor.symm⟩

theorem Same.trans (h : Same a b) (h' : Same b c) : Same a c :=
  ⟨h.kept.trans h'.kept, h.history.trans h'.history, h.historyFloor.trans h'.historyFloor⟩

def append (a b : ResolvedRows K V) : ResolvedRows K V :=
  ⟨a.kept ++ b.kept, a.history ++ b.history, max a.historyFloor b.historyFloor⟩

theorem same_append_comm (a b : ResolvedRows K V) : Same (a.append b) (b.append a) :=
  ⟨perm_append_comm, perm_append_comm, max_comm _ _⟩

theorem Same.append {a' b' : ResolvedRows K V} (h : Same a a') (h' : Same b b') :
    Same (a.append b) (a'.append b') :=
  ⟨h.kept.append h'.kept, h.history.append h'.history, congrArg₂ max h.historyFloor h'.historyFloor⟩

theorem append_assoc (a b c : ResolvedRows K V) :
    (a.append b).append c = a.append (b.append c) := by
  simp only [append, List.append_assoc, max_assoc]

theorem Same.with_kept (h : Same a b) {kept kept' : List (ColdRow K V)} (hkt : kept.Perm kept') :
    Same { a with kept := kept } { b with kept := kept' } :=
  ⟨hkt, h.history, h.historyFloor⟩

theorem Same.dropVersion (h : Same a b) (row : ColdRow K V) :
    Same (a.dropVersion retainFrom row) (b.dropVersion retainFrom row) := by
  rw [ResolvedRows.dropVersion, ResolvedRows.dropVersion]
  split
  next => exact ⟨h.kept, h.history.append_right _, h.historyFloor⟩
  next => exact ⟨h.kept, h.history, congrArg (max · row.seq) h.historyFloor⟩

theorem same_dropVersion_append (a b : ResolvedRows K V) (row : ColdRow K V) :
    Same ((a.append b).dropVersion retainFrom row) ((a.dropVersion retainFrom row).append b) := by
  rw [dropVersion, dropVersion]
  split
  next =>
    refine ⟨.rfl, ?_, rfl⟩
    show (a.history ++ b.history ++ [row]).Perm (a.history ++ [row] ++ b.history)
    rw [List.append_assoc, List.append_assoc]
    exact perm_append_comm.append_left _
  next => exact ⟨.rfl, .rfl, max_right_comm _ _ _⟩

theorem same_dropVersion_comm (a : ResolvedRows K V) (r r' : ColdRow K V) :
    Same ((a.dropVersion retainFrom r).dropVersion retainFrom r')
      ((a.dropVersion retainFrom r').dropVersion retainFrom r) := by
  simp only [dropVersion]
  split
  next =>
    split
    next =>
      refine ⟨.rfl, ?_, rfl⟩
      show (a.history ++ [r] ++ [r']).Perm (a.history ++ [r'] ++ [r])
      rw [List.append_assoc, List.append_assoc]
      exact perm_append_comm.append_left _
    next => exact .refl _
  next =>
    split
    next => exact .refl _
    next => exact ⟨.rfl, .rfl, max_right_comm _ _ _⟩

theorem Same.foldl_dropVersion (h : Same a b) {losers' : List (ColdRow K V)}
    (hp : losers.Perm losers') :
    Same (losers.foldl (ResolvedRows.dropVersion retainFrom) a)
      (losers'.foldl (ResolvedRows.dropVersion retainFrom) b) := by
  induction hp generalizing a b with
  | nil => exact h
  | cons row _ ih => exact ih (h.dropVersion row)
  | @swap r r' l =>
    have hsm : Same ((a.dropVersion retainFrom r').dropVersion retainFrom r)
        ((b.dropVersion retainFrom r).dropVersion retainFrom r') :=
      (same_dropVersion_comm a r' r).trans ((h.dropVersion r).dropVersion r')
    rw [foldl_cons, foldl_cons, foldl_cons, foldl_cons]
    generalize (a.dropVersion retainFrom r').dropVersion retainFrom r = x at hsm ⊢
    generalize (b.dropVersion retainFrom r).dropVersion retainFrom r' = y at hsm ⊢
    clear h
    induction l generalizing x y with
    | nil => exact hsm
    | cons row l ih => exact ih _ _ (hsm.dropVersion row)
  | trans _ _ ih ih' => exact (ih (.refl a)).trans (ih' h)

theorem same_foldl_dropVersion_append (losers : List (ColdRow K V)) (a b : ResolvedRows K V) :
    Same (losers.foldl (dropVersion retainFrom) (a.append b))
      ((losers.foldl (dropVersion retainFrom) a).append b) := by
  induction losers generalizing a with
  | nil => exact .refl _
  | cons row losers ih =>
    exact ((same_dropVersion_append a b row).foldl_dropVersion .rfl).trans (ih _)

def Keyed (a : ResolvedRows K V) : Prop := (a.kept.map fun r ↦ r.pk).Nodup

theorem Same.keyed (h : Same a b) (hkd : a.Keyed) : b.Keyed := (h.kept.map _).nodup_iff.1 hkd

variable [DecidableEq K]

variable {r : ColdRow K V}

theorem Keyed.find?_eq_some (h : a.Keyed) {k : K} :
    (a.kept.find? fun r ↦ decide (r.pk = k)) = some r ↔ r ∈ a.kept ∧ r.pk = k := by
  constructor
  · intro hfi
    exact ⟨mem_of_find?_eq_some hfi, by simpa using find?_some hfi⟩
  · rintro ⟨hr, rfl⟩
    cases hfi : a.kept.find? fun r' ↦ decide (r'.pk = r.pk) with
    | none => exact absurd (decide_eq_true rfl) (find?_eq_none.1 hfi r hr)
    | some r' =>
      have hpk : r'.pk = r.pk := by simpa using find?_some hfi
      rw [inj_on_of_nodup_map h (mem_of_find?_eq_some hfi) hr hpk]

theorem Same.find?_eq (h : Same a b) (hkd : a.Keyed) (k : K) :
    (a.kept.find? fun r ↦ decide (r.pk = k)) = b.kept.find? fun r ↦ decide (r.pk = k) := by
  refine Option.ext fun r ↦ ?_
  rw [hkd.find?_eq_some, (h.keyed hkd).find?_eq_some, h.kept.mem_iff]

theorem Same.resolveRow (h : Same a b) (hkd : a.Keyed) (row : ColdRow K V) :
    Same (resolveRow retainFrom a row) (resolveRow retainFrom b row) := by
  rw [Koldstore.Feed.resolveRow, Koldstore.Feed.resolveRow, h.find?_eq hkd]
  have ho := h.kept.filter fun r ↦ decide (r.pk ≠ row.pk)
  split
  next existing _ =>
    simp only
    split
    next => exact (h.with_kept (ho.cons existing)).dropVersion row
    next => exact (h.with_kept (ho.cons row)).dropVersion existing
  next => exact ⟨h.kept.cons _, h.history, h.historyFloor⟩

theorem same_resolveRow_append (hne : ∀ r ∈ b.kept, r.pk ≠ row.pk) :
    Same (resolveRow retainFrom (a.append b) row) ((resolveRow retainFrom a row).append b) := by
  have hfi : b.kept.find? (fun r ↦ decide (r.pk = row.pk)) = none :=
    find?_eq_none.2 fun r hr ↦ by simpa using hne r hr
  have hf : b.kept.filter (fun r ↦ decide (r.pk ≠ row.pk)) = b.kept :=
    filter_eq_self.2 fun r hr ↦ decide_eq_true (hne r hr)
  rw [Koldstore.Feed.resolveRow, Koldstore.Feed.resolveRow, append, find?_append,
    hfi, Option.or_none, filter_append, hf]
  split
  next existing _ =>
    simp only
    split
    next =>
      exact same_dropVersion_append { a with
        kept := existing :: a.kept.filter fun r ↦ decide (r.pk ≠ row.pk) } b row
    next =>
      exact same_dropVersion_append { a with
        kept := row :: a.kept.filter fun r ↦ decide (r.pk ≠ row.pk) } b existing
  next => exact .refl _

theorem kept_resolveRow_subset (hr : r ∈ (resolveRow retainFrom a row).kept) :
    r = row ∨ r ∈ a.kept := by
  rw [Koldstore.Feed.resolveRow] at hr
  split at hr
  next existing hfi =>
    have hex : existing ∈ a.kept := mem_of_find?_eq_some hfi
    simp only at hr
    split at hr <;> rw [kept_dropVersion, mem_cons] at hr
    · exact .inr (hr.elim (fun h ↦ h ▸ hex) mem_of_mem_filter)
    · exact hr.imp_right mem_of_mem_filter
  next => exact mem_cons.1 hr

theorem Keyed.resolveRow (h : a.Keyed) (row : ColdRow K V) :
    (resolveRow retainFrom a row).Keyed := by
  have hd : ∀ w : ColdRow K V, w.pk = row.pk →
      ((w :: a.kept.filter fun r ↦ decide (r.pk ≠ row.pk)).map fun r ↦ r.pk).Nodup := by
    intro w hw
    refine nodup_cons.2 ⟨fun hmem ↦ ?_, h.sublist (filter_sublist.map _)⟩
    obtain ⟨r, hr, heq⟩ := mem_map.1 hmem
    exact of_decide_eq_true (mem_filter.1 hr).2 (heq.trans hw)
  rw [Keyed, Koldstore.Feed.resolveRow]
  split
  next existing hfi =>
    simp only
    split <;> rw [kept_dropVersion]
    · exact hd existing (by simpa using find?_some hfi)
    · exact hd row rfl
  next hfi =>
    refine nodup_cons.2 ⟨fun hmem ↦ ?_, h⟩
    obtain ⟨r, hr, heq⟩ := mem_map.1 hmem
    exact absurd (decide_eq_true heq) (find?_eq_none.1 hfi r hr)

end ResolvedRows

section Local

open ResolvedRows

variable [DecidableEq K] {retainFrom : ℤ}

theorem same_foldl_filter (p : K → Bool) (rows : List (ColdRow K V)) {s a b : ResolvedRows K V}
    (hsm : Same s (a.append b)) (hkd : s.Keyed) (ha : ∀ r ∈ a.kept, p r.pk = true)
    (hb : ∀ r ∈ b.kept, p r.pk = false) :
    Same (rows.foldl (resolveRow retainFrom) s)
      (((rows.filter fun r ↦ p r.pk).foldl (resolveRow retainFrom) a).append
        ((rows.filter fun r ↦ !p r.pk).foldl (resolveRow retainFrom) b)) := by
  induction rows generalizing s a b with
  | nil => exact hsm
  | cons row rows ih =>
    rw [foldl_cons]
    cases hp : p row.pk with
    | true =>
      rw [filter_cons_of_pos (by simp [hp]), filter_cons_of_neg (by simp [hp]), foldl_cons]
      have hstep : Same (resolveRow retainFrom s row) (resolveRow retainFrom (a.append b) row) :=
        hsm.resolveRow hkd row
      have hne : ∀ r ∈ b.kept, r.pk ≠ row.pk := by
        intro r hr heq
        rw [← heq, hb r hr] at hp
        cases hp
      refine ih (hstep.trans (same_resolveRow_append hne)) (hkd.resolveRow row) ?_ hb
      intro r hr
      rcases kept_resolveRow_subset hr with rfl | hr
      · exact hp
      · exact ha r hr
    | false =>
      rw [filter_cons_of_neg (by simp [hp]), filter_cons_of_pos (by simp [hp]), foldl_cons]
      have hne : ∀ r ∈ a.kept, r.pk ≠ row.pk := by
        intro r hr heq
        rw [← heq, ha r hr] at hp
        cases hp
      have hs : Same (resolveRow retainFrom s row) (resolveRow retainFrom (b.append a) row) :=
        (hsm.trans (same_append_comm a b)).resolveRow hkd row
      refine ih ((hs.trans (same_resolveRow_append hne)).trans (same_append_comm _ _))
        (hkd.resolveRow row) ha ?_
      intro r hr
      rcases kept_resolveRow_subset hr with rfl | hr
      · exact hp
      · exact hb r hr

/-- **Resolution is local to keys.** -/
theorem same_resolveVersions_filter (p : K → Bool) (rows : List (ColdRow K V))
    (dropMarkers : Bool) :
    Same (resolveVersions rows dropMarkers retainFrom)
      ((resolveVersions (rows.filter fun r ↦ p r.pk) dropMarkers retainFrom).append
        (resolveVersions (rows.filter fun r ↦ !p r.pk) dropMarkers retainFrom)) := by
  have hin : Same (⟨[], [], 0⟩ : ResolvedRows K V) (append ⟨[], [], 0⟩ ⟨[], [], 0⟩) := .refl _
  have hfo : Same (rows.foldl (resolveRow retainFrom) ⟨[], [], 0⟩) _ :=
    same_foldl_filter p rows hin nodup_nil (nofun)
      nofun
  rw [resolveVersions, resolveVersions, resolveVersions]
  generalize rows.foldl _ _ = s at hfo ⊢
  generalize (rows.filter fun r ↦ p r.pk).foldl _ _ = a at hfo ⊢
  generalize (rows.filter fun r ↦ !p r.pk).foldl _ _ = b at hfo ⊢
  cases dropMarkers with
  | false => exact hfo
  | true =>
    simp only [if_true]
    have hkt : ∀ q : ColdRow K V → Bool,
        (s.kept.filter q).Perm (a.kept.filter q ++ b.kept.filter q) := by
      intro q
      rw [← filter_append]
      exact hfo.kept.filter q
    have hre : Same { s with kept := s.kept.filter fun r ↦ !r.deleted }
        (append { a with kept := a.kept.filter fun r ↦ !r.deleted }
          { b with kept := b.kept.filter fun r ↦ !r.deleted }) :=
      ⟨hkt _, hfo.history, hfo.historyFloor⟩
    refine (hre.foldl_dropVersion (hkt fun r ↦ r.deleted)).trans ?_
    rw [foldl_append]
    refine ((same_foldl_dropVersion_append _ _ _).foldl_dropVersion .rfl).trans ?_
    refine ((same_append_comm _ _).foldl_dropVersion .rfl).trans ?_
    exact (same_foldl_dropVersion_append _ _ _).trans (same_append_comm _ _)

/-! ### Nothing is lost -/

def Accounts (rows : List (ColdRow K V)) (resolved : ResolvedRows K V)
    (dropped : List (ColdRow K V)) : Prop :=
  (resolved.kept ++ resolved.history ++ dropped).Perm rows

variable {rows dropped : List (ColdRow K V)} {resolved : ResolvedRows K V}

omit [DecidableEq K] in
theorem Accounts.dropVersion (h : Accounts rows resolved dropped) (row : ColdRow K V) :
    ∃ dropped', Accounts (row :: rows) (resolved.dropVersion retainFrom row) dropped' := by
  rw [ResolvedRows.dropVersion]
  split
  next =>
    refine ⟨dropped, List.Perm.trans ?_ (h.cons row)⟩
    show (resolved.kept ++ (resolved.history ++ [row]) ++ dropped).Perm _
    rw [← List.append_assoc, List.append_assoc _ [row]]
    exact perm_middle
  next => exact ⟨row :: dropped, perm_middle.trans (h.cons row)⟩

omit [DecidableEq K] in
theorem Accounts.foldl_dropVersion (h : Accounts rows resolved dropped) : ∃ dropped',
      Accounts (losers ++ rows) (losers.foldl (ResolvedRows.dropVersion retainFrom) resolved)
        dropped' := by
  induction losers generalizing rows resolved dropped with
  | nil => exact ⟨dropped, h⟩
  | cons row losers ih =>
    obtain ⟨dropped', h'⟩ := h.dropVersion row
    obtain ⟨dropped'', h''⟩ := ih h'
    exact ⟨dropped'', h''.trans perm_middle⟩

theorem Accounts.resolveRow
    (h : Accounts rows resolved dropped) (hkd : resolved.Keyed) (row : ColdRow K V) :
    ∃ dropped', Accounts (row :: rows) (resolveRow retainFrom resolved row) dropped' := by
  rw [Koldstore.Feed.resolveRow]
  split
  next existing hfi =>
    obtain ⟨hex, hpk⟩ := hkd.find?_eq_some.1 hfi
    have hkt : resolved.kept.Perm
        (existing :: resolved.kept.filter fun r ↦ decide (r.pk ≠ row.pk)) :=
      hpk ▸ perm_cons_filter_pk_ne hkd hex
    have hold : Accounts rows { resolved with
        kept := existing :: resolved.kept.filter fun r ↦ decide (r.pk ≠ row.pk) } dropped :=
      ((hkt.symm.append_right _).append_right _).trans h
    simp only
    split
    next => exact hold.dropVersion row
    next =>
      -- the new row stands where the old one stood, and the old one is dropped
      have hn : Accounts (row :: ((resolved.kept.filter fun r ↦ decide (r.pk ≠ row.pk)) ++
          resolved.history ++ dropped)) { resolved with
            kept := row :: resolved.kept.filter fun r ↦ decide (r.pk ≠ row.pk) } dropped := .rfl
      obtain ⟨dropped', h'⟩ := hn.dropVersion existing
      exact ⟨dropped', h'.trans ((List.Perm.swap _ _ _).trans (hold.cons row))⟩
  next => exact ⟨dropped, h.cons row⟩

theorem exists_accounts_foldl (todo : List (ColdRow K V)) (h : Accounts rows resolved dropped)
    (hkd : resolved.Keyed) :
    ∃ dropped', Accounts (rows ++ todo) (todo.foldl (resolveRow retainFrom) resolved) dropped' := by
  induction todo generalizing rows dropped resolved with
  | nil => exact ⟨dropped, by rwa [append_nil]⟩
  | cons row todo ih =>
    obtain ⟨dropped', h'⟩ := h.resolveRow hkd row
    obtain ⟨dropped'', h''⟩ := ih h' (hkd.resolveRow row)
    exact ⟨dropped'', h''.trans perm_middle.symm⟩

/-- **Resolution loses and duplicates nothing**, whatever the ids. -/
theorem exists_accounts (rows : List (ColdRow K V)) (dropMarkers : Bool) (retainFrom : ℤ) :
    ∃ dropped, Accounts rows (resolveVersions rows dropMarkers retainFrom) dropped := by
  have hin : Accounts ([] : List (ColdRow K V)) ⟨[], [], 0⟩ [] := .rfl
  obtain ⟨dropped, h⟩ : ∃ dropped, Accounts ([] ++ rows)
      (rows.foldl (resolveRow retainFrom) ⟨[], [], 0⟩) dropped :=
    exists_accounts_foldl rows hin nodup_nil
  rw [nil_append] at h
  rw [resolveVersions]
  generalize rows.foldl _ _ = resolved at h ⊢
  cases dropMarkers with
  | false => exact ⟨dropped, h⟩
  | true =>
    have ho : Accounts ((resolved.kept.filter fun r ↦ !r.deleted) ++ resolved.history ++
        dropped) { resolved with kept := resolved.kept.filter fun r ↦ !r.deleted } dropped := .rfl
    obtain ⟨dropped', h'⟩ := ho.foldl_dropVersion
    refine ⟨dropped', h'.trans (List.Perm.trans ?_ h)⟩
    simp only [← List.append_assoc]
    exact ((filter_append_perm _ _).append_right _).append_right _

theorem historyFloor_nonneg (rows : List (ColdRow K V)) (dropMarkers : Bool) (retainFrom : ℤ) :
    0 ≤ (resolveVersions rows dropMarkers retainFrom).historyFloor := by
  have hdr : ∀ (a : ResolvedRows K V) (r : ColdRow K V), 0 ≤ a.historyFloor →
      0 ≤ (a.dropVersion retainFrom r).historyFloor := by
    intro a r h
    rw [dropVersion]
    split
    next => exact h
    next => exact h.trans (le_max_left _ _)
  have hr : ∀ (a : ResolvedRows K V) (r : ColdRow K V), 0 ≤ a.historyFloor →
      0 ≤ (resolveRow retainFrom a r).historyFloor := by
    intro a r h
    rw [resolveRow]
    split
    next =>
      simp only
      split
      next => exact hdr _ _ h
      next => exact hdr _ _ h
    next => exact h
  have hfo : ∀ {f : ResolvedRows K V → ColdRow K V → ResolvedRows K V},
      (∀ a r, 0 ≤ a.historyFloor → 0 ≤ (f a r).historyFloor) → ∀ (l : List (ColdRow K V)) a,
        0 ≤ a.historyFloor → 0 ≤ (l.foldl f a).historyFloor := by
    intro f hf l
    induction l with
    | nil => exact fun a h ↦ h
    | cons r l ih => exact fun a h ↦ ih _ (hf a r h)
  rw [resolveVersions]
  have hrs := hfo hr rows ⟨[], [], 0⟩ le_rfl
  cases dropMarkers with
  | false => exact hrs
  | true => exact hfo hdr _ _ hrs

end Local

end Koldstore.Feed
