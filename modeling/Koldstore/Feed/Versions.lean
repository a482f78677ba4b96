import Koldstore.Feed.ChangesSince

/-!
# Which versions compaction keeps

`resolve_versions` reads the rows of a group of segments.
-/

namespace Koldstore.Feed

open List

variable {K V B : Type*}

/-! ### Resolving versions -/

/-- A unit's rows after resolution; `historyFloor` is the highest id dropped for good. -/
structure ResolvedRows (K V : Type*) where
  kept : List (ColdRow K V)
  history : List (ColdRow K V)
  historyFloor : ℤ

open ResolvedRows

def ResolvedRows.dropVersion (retainFrom : ℤ) (resolved : ResolvedRows K V) (row : ColdRow K V) :
    ResolvedRows K V :=
  if retainFrom ≤ row.seq then { resolved with history := resolved.history ++ [row] }
  else { resolved with historyFloor := max resolved.historyFloor row.seq }

theorem ResolvedRows.kept_dropVersion {retainFrom : ℤ} {resolved : ResolvedRows K V}
    {row : ColdRow K V} : (resolved.dropVersion retainFrom row).kept = resolved.kept := by
  rw [dropVersion]
  split <;> rfl

section Resolve

variable [DecidableEq K]

def resolveRow (retainFrom : ℤ) (resolved : ResolvedRows K V) (row : ColdRow K V) :
    ResolvedRows K V :=
  match resolved.kept.find? fun r ↦ decide (r.pk = row.pk) with
  | some existing =>
    let others := resolved.kept.filter fun r ↦ decide (r.pk ≠ row.pk)
    if row.seq ≤ existing.seq then
      dropVersion retainFrom { resolved with kept := existing :: others } row
    else dropVersion retainFrom { resolved with kept := row :: others } existing
  | none => { resolved with kept := row :: resolved.kept }

/-- The newest version of each key wins; with `dropMarkers` a winning delete marker goes as well. -/
def resolveVersions (rows : List (ColdRow K V)) (dropMarkers : Bool) (retainFrom : ℤ) :
    ResolvedRows K V :=
  let resolved := rows.foldl (resolveRow retainFrom) ⟨[], [], 0⟩
  if dropMarkers then
    (resolved.kept.filter fun r ↦ r.deleted).foldl (dropVersion retainFrom)
      { resolved with kept := resolved.kept.filter fun r ↦ !r.deleted }
  else resolved

end Resolve

/-- How rows are split; the floor covers what is dropped. -/
structure Splits (retainFrom : ℤ) (Loses : ColdRow K V → Prop) (rows : List (ColdRow K V))
    (resolved : ResolvedRows K V) (dropped : List (ColdRow K V)) : Prop where
  perm : (resolved.kept ++ resolved.history ++ dropped).Perm rows
  kept : ∀ r ∈ resolved.kept, ¬Loses r
  history : ∀ r ∈ resolved.history, Loses r ∧ retainFrom ≤ r.seq
  dropped : ∀ r ∈ dropped, Loses r ∧ r.seq < retainFrom ∧ r.seq ≤ resolved.historyFloor

variable {r : ColdRow K V}

namespace Splits

variable {retainFrom : ℤ} {Loses Loses' : ColdRow K V → Prop} {rows rows' : List (ColdRow K V)}
  {resolved : ResolvedRows K V} {dropped : List (ColdRow K V)} {row : ColdRow K V}

variable (h : Splits retainFrom Loses rows resolved dropped)
include h

theorem of_perm (hp : rows.Perm rows') : Splits retainFrom Loses rows' resolved dropped :=
  { h with perm := h.perm.trans hp }

theorem with_kept
    (hm : ∀ r, Loses r → Loses' r) {kept : List (ColdRow K V)} (hkt : ∀ r ∈ kept, ¬Loses' r) :
    Splits retainFrom Loses' (kept ++ resolved.history ++ dropped) { resolved with kept := kept }
      dropped where
  perm := .rfl
  kept := hkt
  history r hr := ⟨hm r (h.history r hr).1, (h.history r hr).2⟩
  dropped r hr := ⟨hm r (h.dropped r hr).1, (h.dropped r hr).2⟩

theorem dropVersion (hrow : Loses row) :
    ∃ dropped', Splits retainFrom Loses (row :: rows) (resolved.dropVersion retainFrom row)
      dropped' := by
  by_cases he : retainFrom ≤ row.seq
  · rw [ResolvedRows.dropVersion, if_pos he]
    refine ⟨dropped, ⟨?_, h.kept, fun r hr ↦ ?_, h.dropped⟩⟩
    · show (resolved.kept ++ (resolved.history ++ [row]) ++ dropped).Perm (row :: rows)
      refine List.Perm.trans ?_ (h.perm.cons row)
      rw [← List.append_assoc, List.append_assoc _ [row]]
      exact perm_middle
    · rcases mem_append.1 hr with hr | hr
      · exact h.history r hr
      · rw [mem_singleton.1 hr]
        exact ⟨hrow, he⟩
  · rw [ResolvedRows.dropVersion, if_neg he]
    refine ⟨row :: dropped, ⟨?_, h.kept, h.history, fun r hr ↦ ?_⟩⟩
    · exact perm_middle.trans (h.perm.cons row)
    · rcases mem_cons.1 hr with rfl | hr
      · exact ⟨hrow, not_le.1 he, le_max_right _ _⟩
      · obtain ⟨hl, hlt, hle⟩ := h.dropped r hr
        exact ⟨hl, hlt, hle.trans (le_max_left _ _)⟩

theorem foldl_dropVersion {losers : List (ColdRow K V)} (hl : ∀ r ∈ losers, Loses r) :
    ∃ dropped', Splits retainFrom Loses (losers ++ rows)
      (losers.foldl (ResolvedRows.dropVersion retainFrom) resolved) dropped' := by
  induction losers generalizing rows resolved dropped with
  | nil => exact ⟨dropped, h⟩
  | cons row losers ih =>
    obtain ⟨dropped', h'⟩ := h.dropVersion (hl row mem_cons_self)
    obtain ⟨dropped'', h''⟩ := ih h' fun r hr ↦ hl r (mem_cons_of_mem _ hr)
    exact ⟨dropped'', h''.of_perm perm_middle⟩

theorem congr (hi : ∀ r ∈ rows, Loses r ↔ Loses' r) :
    Splits retainFrom Loses' rows resolved dropped := by
  have hmem : ∀ r, r ∈ resolved.kept ∨ r ∈ resolved.history ∨ r ∈ dropped → r ∈ rows := by
    intro r hr
    rw [← h.perm.mem_iff, mem_append, mem_append, or_assoc]
    exact hr
  refine ⟨h.perm, fun r hr ↦ ?_, fun r hr ↦ ?_, fun r hr ↦ ?_⟩
  · exact fun hl ↦ h.kept r hr ((hi r (hmem r (.inl hr))).2 hl)
  · exact ⟨(hi r (hmem r (.inr (.inl hr)))).1 (h.history r hr).1, (h.history r hr).2⟩
  · exact ⟨(hi r (hmem r (.inr (.inr hr)))).1 (h.dropped r hr).1, (h.dropped r hr).2⟩

theorem append {resolved' : ResolvedRows K V} {dropped' : List (ColdRow K V)}
    (h' : Splits retainFrom Loses rows' resolved' dropped') :
    Splits retainFrom Loses (rows ++ rows')
      ⟨resolved.kept ++ resolved'.kept, resolved.history ++ resolved'.history,
        max resolved.historyFloor resolved'.historyFloor⟩ (dropped ++ dropped') where
  perm := by
    refine List.Perm.trans ?_ (h.perm.append h'.perm)
    classical
    rw [perm_iff_count]
    intro r
    simp only [count_append]
    omega
  kept r hr := (mem_append.1 hr).elim (h.kept r) (h'.kept r)
  history r hr := (mem_append.1 hr).elim (h.history r) (h'.history r)
  dropped r hr := by
    rcases mem_append.1 hr with hr | hr
    · obtain ⟨hl, hlt, hle⟩ := h.dropped r hr
      exact ⟨hl, hlt, hle.trans (le_max_left _ _)⟩
    · obtain ⟨hl, hlt, hle⟩ := h'.dropped r hr
      exact ⟨hl, hlt, hle.trans (le_max_right _ _)⟩

theorem mem_iff :
    r ∈ resolved.kept ++ resolved.history ↔ r ∈ rows ∧ (retainFrom ≤ r.seq ∨ ¬Loses r) := by
  constructor
  · intro hr
    refine ⟨h.perm.mem_iff.1 (mem_append_left _ hr), ?_⟩
    rcases mem_append.1 hr with hr | hr
    · exact .inr (h.kept r hr)
    · exact .inl (h.history r hr).2
  · rintro ⟨hr, hs⟩
    rcases mem_append.1 (h.perm.mem_iff.2 hr) with hr | hr
    · exact hr
    · obtain ⟨hl, hlt, -⟩ := h.dropped r hr
      rcases hs with he | hn
      · exact absurd he (not_le.2 hlt)
      · exact absurd hl hn

theorem mem_kept_iff : r ∈ resolved.kept ↔ r ∈ rows ∧ ¬Loses r := by
  constructor
  · intro hr
    exact ⟨h.perm.mem_iff.1 (mem_append_left _ (mem_append_left _ hr)), h.kept r hr⟩
  · rintro ⟨hr, hn⟩
    rcases mem_append.1 (h.perm.mem_iff.2 hr) with hr | hr
    · rcases mem_append.1 hr with hr | hr
      · exact hr
      · exact absurd (h.history r hr).1 hn
    · exact absurd (h.dropped r hr).1 hn

omit h

end Splits

def Superseded (rows : List (ColdRow K V)) (r : ColdRow K V) : Prop :=
  ∃ r' ∈ rows, r'.pk = r.pk ∧ r.seq < r'.seq

theorem Superseded.mono {rows rows' : List (ColdRow K V)}
    (h : Superseded rows r) (hs : ∀ r' ∈ rows, r' ∈ rows') : Superseded rows' r := by
  obtain ⟨r', hr', hnw⟩ := h
  exact ⟨r', hs r' hr', hnw⟩

theorem superseded_append_singleton {rows : List (ColdRow K V)} {row : ColdRow K V} :
    Superseded (rows ++ [row]) r ↔ Superseded rows r ∨ row.pk = r.pk ∧ r.seq < row.seq := by
  constructor
  · rintro ⟨r', hr', hnw⟩
    rcases mem_append.1 hr' with hr' | hr'
    · exact .inl ⟨r', hr', hnw⟩
    · rw [mem_singleton.1 hr'] at hnw
      exact .inr hnw
  · rintro (h | hnw)
    · exact h.mono fun r' hr' ↦ mem_append_left _ hr'
    · exact ⟨row, mem_append_right _ mem_cons_self, hnw⟩

theorem perm_cons_filter_pk_ne [DecidableEq K] {l : List (ColdRow K V)} {a : ColdRow K V}
    (h : (l.map fun r ↦ r.pk).Nodup) (ha : a ∈ l) :
    l.Perm (a :: l.filter fun r ↦ decide (r.pk ≠ a.pk)) := by
  induction l with
  | nil => exact nomatch ha
  | cons b l ih =>
    rw [map_cons, nodup_cons] at h
    rcases mem_cons.1 ha with rfl | ha
    · have hkp : l.filter (fun r ↦ decide (r.pk ≠ a.pk)) = l :=
        filter_eq_self.2 fun r hr ↦ decide_eq_true fun heq ↦ h.1 (heq ▸ mem_map_of_mem hr)
      rw [filter_cons_of_neg (by simp), hkp]
    · have hne : b.pk ≠ a.pk := fun heq ↦ h.1 (heq ▸ mem_map_of_mem ha)
      rw [filter_cons_of_pos (by simpa using hne)]
      exact ((ih h.2 ha).cons b).trans (.swap a b _)

section Winners

variable [DecidableEq K] {retainFrom : ℤ}

structure Winners (retainFrom : ℤ) (seen : List (ColdRow K V)) (resolved : ResolvedRows K V) :
    Prop where
  splits : ∃ dropped, Splits retainFrom (Superseded seen) seen resolved dropped
  unique : (resolved.kept.map fun r ↦ r.pk).Nodup
  winner : ∀ r ∈ seen, ∃ w ∈ resolved.kept, w.pk = r.pk ∧ r.seq ≤ w.seq

variable {seen : List (ColdRow K V)} {resolved : ResolvedRows K V} {row : ColdRow K V}

omit [DecidableEq K] in
theorem Winners.eq_of_pk (h : Winners retainFrom seen resolved) {a b : ColdRow K V}
    (ha : a ∈ resolved.kept) (hb : b ∈ resolved.kept) (hpk : a.pk = b.pk) : a = b :=
  inj_on_of_nodup_map h.unique ha hb hpk

omit [DecidableEq K] in
theorem Winners.mem_seen (h : Winners retainFrom seen resolved) (hr : r ∈ resolved.kept) :
    r ∈ seen := by
  obtain ⟨dropped, hs⟩ := h.splits
  exact hs.perm.mem_iff.1 (mem_append_left _ (mem_append_left _ hr))

omit [DecidableEq K] in
theorem Winners.seq_le (h : Winners retainFrom seen resolved) {w : ColdRow K V} (hr : r ∈ seen)
    (hw : w ∈ resolved.kept) (hpk : r.pk = w.pk) : r.seq ≤ w.seq := by
  obtain ⟨w', hw', hpk', hle⟩ := h.winner r hr
  obtain rfl : w' = w := h.eq_of_pk hw' hw (hpk'.trans hpk)
  exact hle

omit [DecidableEq K] in
theorem Winners.not_superseded (h : Winners retainFrom seen resolved)
    (hr : r ∈ resolved.kept) (hpk : r.pk ≠ row.pk) : ¬Superseded (seen ++ [row]) r := by
  obtain ⟨dropped, hs⟩ := h.splits
  intro hu
  rcases superseded_append_singleton.1 hu with hu | hu
  · exact hs.kept r hr hu
  · exact hpk hu.1.symm

omit [DecidableEq K] in
theorem Winners.newKey (h : Winners retainFrom seen resolved)
    (hn : ∀ r ∈ resolved.kept, r.pk ≠ row.pk) :
    Winners retainFrom (seen ++ [row]) { resolved with kept := row :: resolved.kept } := by
  obtain ⟨dropped, hs⟩ := h.splits
  have hm : ∀ r, Superseded seen r → Superseded (seen ++ [row]) r :=
    fun r hr ↦ hr.mono fun _ ↦ mem_append_left _
  have hkt : ∀ r ∈ row :: resolved.kept, ¬Superseded (seen ++ [row]) r := by
    intro r hr
    rcases mem_cons.1 hr with rfl | hr
    · rintro ⟨r', hr', hpk, hlt⟩
      rcases mem_append.1 hr' with hr' | hr'
      · obtain ⟨w, hw, hp, -⟩ := h.winner r' hr'
        exact hn w hw (hp.trans hpk)
      · rw [mem_singleton.1 hr'] at hlt
        exact lt_irrefl _ hlt
    · exact h.not_superseded hr (hn r hr)
  refine ⟨⟨dropped, (hs.with_kept hm hkt).of_perm ?_⟩, ?_, ?_⟩
  · exact (hs.perm.cons row).trans (perm_append_singleton row seen).symm
  · refine nodup_cons.2 ⟨fun hmem ↦ ?_, h.unique⟩
    obtain ⟨r, hr, hpk⟩ := mem_map.1 hmem
    exact hn r hr hpk
  · intro r hr
    rcases mem_append.1 hr with hr | hr
    · obtain ⟨w, hw, hw'⟩ := h.winner r hr
      exact ⟨w, mem_cons_of_mem _ hw, hw'⟩
    · rw [mem_singleton.1 hr]
      exact ⟨row, mem_cons_self, rfl, le_rfl⟩

theorem perm_of_duel {α : Type*} {kept others rest seen : List α} {existing row w l : α}
    (hkt : kept.Perm (existing :: others)) (hpr : [l, w].Perm [existing, row])
    (hsn : (kept ++ rest).Perm seen) : (l :: (w :: others ++ rest)).Perm (seen ++ [row]) :=
  calc l :: (w :: others ++ rest)
    _ = [l, w] ++ (others ++ rest) := rfl
    List.Perm _ ([row, existing] ++ (others ++ rest)) := (hpr.trans (.swap _ _ _)).append_right _
    List.Perm _ (row :: (kept ++ rest)) := (hkt.symm.append_right _).cons row
    List.Perm _ (row :: seen) := hsn.cons row
    List.Perm _ (seen ++ [row]) := (perm_append_singleton row seen).symm

theorem Winners.duel {existing w l : ColdRow K V} (h : Winners retainFrom seen resolved)
    (hex : existing ∈ resolved.kept) (hpk : existing.pk = row.pk)
    (hpr : [l, w].Perm [existing, row]) (hlt : l.seq < w.seq) :
    Winners retainFrom (seen ++ [row]) (dropVersion retainFrom { resolved with
      kept := w :: resolved.kept.filter fun r ↦ decide (r.pk ≠ row.pk) } l) := by
  obtain ⟨dropped, hs⟩ := h.splits
  have hmono : ∀ r, Superseded seen r → Superseded (seen ++ [row]) r :=
    fun r hr ↦ hr.mono fun _ ↦ mem_append_left _
  have hmem : ∀ r ∈ [l, w], r ∈ seen ++ [row] ∧ r.pk = row.pk := by
    intro r hr
    rcases mem_cons.1 (hpr.mem_iff.1 hr) with rfl | hr
    · exact ⟨mem_append_left _ (h.mem_seen hex), hpk⟩
    · rw [mem_singleton.1 hr]
      exact ⟨mem_append_right _ mem_cons_self, rfl⟩
  obtain ⟨hwseen, hp⟩ := hmem w (by simp)
  have hm : ∀ r ∈ [existing, row], r.seq ≤ w.seq := by
    intro r hr
    rcases mem_cons.1 (hpr.mem_iff.2 hr) with rfl | hr
    · exact hlt.le
    · rw [mem_singleton.1 hr]
  have hi : ∀ r ∈ seen ++ [row], r.pk = row.pk → r.seq ≤ w.seq := by
    intro r hr heq
    rcases mem_append.1 hr with hr | hr
    · have hle : r.seq ≤ existing.seq := h.seq_le hr hex (heq.trans hpk.symm)
      exact hle.trans (hm _ mem_cons_self)
    · rw [mem_singleton.1 hr]
      exact hm _ (by simp)
  have hl : Superseded (seen ++ [row]) l := ⟨w, hwseen, hp.trans (hmem l mem_cons_self).2.symm, hlt⟩
  have hkt : ∀ r ∈ w :: resolved.kept.filter fun r ↦ decide (r.pk ≠ row.pk),
      ¬Superseded (seen ++ [row]) r := by
    intro r hr
    rcases mem_cons.1 hr with rfl | hr
    · rintro ⟨r', hr', heq, hnw⟩
      exact absurd hnw (not_lt.2 (hi r' hr' (heq.trans hp)))
    · obtain ⟨hr, ho⟩ := mem_filter.1 hr
      exact h.not_superseded hr (of_decide_eq_true ho)
  obtain ⟨dropped', hs'⟩ := (hs.with_kept hmono hkt).dropVersion hl
  refine ⟨⟨dropped', hs'.of_perm ?_⟩, ?_, ?_⟩
  · have ht : resolved.kept.Perm
        (existing :: resolved.kept.filter fun r ↦ decide (r.pk ≠ row.pk)) :=
      hpk ▸ perm_cons_filter_pk_ne h.unique hex
    show (l :: (w :: resolved.kept.filter (fun r ↦ decide (r.pk ≠ row.pk)) ++
      resolved.history ++ dropped)).Perm (seen ++ [row])
    rw [List.append_assoc]
    refine perm_of_duel ht hpr ?_
    rw [← List.append_assoc]
    exact hs.perm
  · rw [kept_dropVersion]
    refine nodup_cons.2 ⟨fun hw ↦ ?_, h.unique.sublist (filter_sublist.map _)⟩
    obtain ⟨r, hr, heq⟩ := mem_map.1 hw
    exact of_decide_eq_true (mem_filter.1 hr).2 (heq.trans hp)
  · rw [kept_dropVersion]
    intro r hr
    by_cases heq : r.pk = row.pk
    · exact ⟨w, mem_cons_self, hp.trans heq.symm, hi r hr heq⟩
    · rcases mem_append.1 hr with hr | hr
      · obtain ⟨w', hw', hpk', hle⟩ := h.winner r hr
        refine ⟨w', mem_cons_of_mem _ (mem_filter.2 ⟨hw', ?_⟩), hpk', hle⟩
        exact decide_eq_true fun hc ↦ heq (hpk'.symm.trans hc)
      · rw [mem_singleton.1 hr] at heq
        exact absurd rfl heq

theorem Winners.resolveRow (h : Winners retainFrom seen resolved)
    (hnd : ((seen ++ [row]).map fun r ↦ r.seq).Nodup) :
    Winners retainFrom (seen ++ [row]) (resolveRow retainFrom resolved row) := by
  rw [Koldstore.Feed.resolveRow]
  cases hfi : resolved.kept.find? fun r ↦ decide (r.pk = row.pk) with
  | none => exact h.newKey fun r hr ↦ by simpa using find?_eq_none.1 hfi r hr
  | some existing =>
    have hex : existing ∈ resolved.kept := mem_of_find?_eq_some hfi
    have hpk : existing.pk = row.pk := by simpa using find?_some hfi
    have hne : existing.seq ≠ row.seq := by
      rw [map_append, nodup_append] at hnd
      exact hnd.2.2 _ (mem_map_of_mem (h.mem_seen hex)) _ mem_cons_self
    show Winners retainFrom (seen ++ [row]) (if row.seq ≤ existing.seq then _ else _)
    rcases lt_or_gt_of_ne hne with hlt | hlt
    · rw [if_neg (not_le.2 hlt)]
      exact h.duel hex hpk .rfl hlt
    · rw [if_pos hlt.le]
      exact h.duel hex hpk (.swap _ _ _) hlt

theorem Winners.foldl {todo : List (ColdRow K V)} :
    ∀ {seen : List (ColdRow K V)} {resolved : ResolvedRows K V},
      Winners retainFrom seen resolved → ((seen ++ todo).map fun r ↦ r.seq).Nodup →
        Winners retainFrom (seen ++ todo)
          (todo.foldl (Koldstore.Feed.resolveRow retainFrom) resolved) := by
  induction todo with
  | nil =>
    intro seen resolved h _
    rwa [append_nil]
  | cons row todo ih =>
    intro seen resolved h hnd
    rw [append_cons] at hnd ⊢
    refine ih (h.resolveRow ?_) hnd
    rw [map_append] at hnd
    exact (nodup_append.1 hnd).1

theorem resolveVersions_splits {rows : List (ColdRow K V)} (hnd : (rows.map fun r ↦ r.seq).Nodup)
    (dropMarkers : Bool) (retainFrom : ℤ) :
    ∃ dropped, Splits retainFrom (fun r ↦ Superseded rows r ∨ dropMarkers ∧ r.deleted) rows
      (resolveVersions rows dropMarkers retainFrom) dropped := by
  have hnone : ∀ P : ColdRow K V → Prop, ∀ r ∈ ([] : List (ColdRow K V)), P r :=
    fun _ _ hr ↦ nomatch hr
  have hin : Winners (K := K) (V := V) retainFrom [] ⟨[], [], 0⟩ :=
    ⟨⟨[], ⟨.rfl, hnone _, hnone _, hnone _⟩⟩, nodup_nil, hnone _⟩
  obtain ⟨dropped, hs⟩ := (hin.foldl hnd).splits
  rw [nil_append] at hs
  cases dropMarkers with
  | false =>
    refine ⟨dropped, (hs.with_kept (fun r hr ↦ .inl hr) fun r hr hl ↦ ?_).of_perm
      hs.perm⟩
    rcases hl with hu | hm
    · exact hs.kept r hr hu
    · exact nomatch hm.1
  | true =>
    set resolved := rows.foldl (resolveRow retainFrom) ⟨[], [], 0⟩
    have ho : ∀ r ∈ resolved.kept.filter fun r ↦ !r.deleted,
        ¬(Superseded rows r ∨ true = true ∧ r.deleted = true) := by
      rintro r hr (hu | hm)
      · exact hs.kept r (mem_of_mem_filter hr) hu
      · simpa [hm.2] using (mem_filter.1 hr).2
    have ha : ∀ r ∈ resolved.kept.filter fun r ↦ r.deleted,
        Superseded rows r ∨ true = true ∧ r.deleted = true :=
      fun r hr ↦ .inr ⟨rfl, (mem_filter.1 hr).2⟩
    obtain ⟨dropped', hs'⟩ := (hs.with_kept (fun r hr ↦ .inl hr) ho).foldl_dropVersion ha
    refine ⟨dropped', hs'.of_perm ?_⟩
    refine List.Perm.trans ?_ hs.perm
    rw [← List.append_assoc, ← List.append_assoc]
    exact ((filter_append_perm _ _).append_right _).append_right _

end Winners

section Slices

variable [LinearOrder B]

/-- The rows of a key slice, `lo` inclusive and `hi` exclusive. -/
def slice (lead : K → B) (lo hi : Option B) (rows : List (ColdRow K V)) : List (ColdRow K V) :=
  rows.filter fun r ↦
    (lo.all fun b ↦ decide (b ≤ lead r.pk)) && hi.all fun b ↦ decide (lead r.pk < b)

def slices (lead : K → B) (rows : List (ColdRow K V)) :
    Option B → List B → List (List (ColdRow K V))
  | lo, [] => [slice lead lo none rows]
  | lo, hi :: boundaries => slice lead lo (some hi) rows :: slices lead rows (some hi) boundaries

variable {lead : K → B} {rows : List (ColdRow K V)}

theorem slice_below (lo : Option B) (hi : B) : slice lead lo (some hi) rows =
    (slice lead lo none rows).filter fun r ↦ decide (lead r.pk < hi) := by
  rw [slice, slice, filter_filter]
  refine filter_congr fun r _ ↦ ?_
  simp [Bool.and_comm]

variable {lo : Option B} {boundaries : List B}

theorem slice_above {hi : B} (hlo : ∀ b, lo = some b → b ≤ hi) : slice lead (some hi) none rows =
      (slice lead lo none rows).filter fun r ↦ !decide (lead r.pk < hi) := by
  rw [slice, slice, filter_filter]
  refine filter_congr fun r _ ↦ ?_
  simp only [Option.all_some, Option.all_none, Bool.and_true, ← decide_not, not_lt]
  cases lo with
  | none => simp only [Option.all_none, Bool.and_true]
  | some b =>
    rw [Option.all_some, ← Bool.decide_and, decide_eq_decide]
    exact ⟨fun h ↦ ⟨h, (hlo b rfl).trans h⟩, fun h ↦ h.1⟩

theorem slices_flatten_perm (hso : boundaries.Pairwise (· ≤ ·))
    (hlo : ∀ b, lo = some b → ∀ b' ∈ boundaries, b ≤ b') :
    (slices lead rows lo boundaries).flatten.Perm (slice lead lo none rows) := by
  induction boundaries generalizing lo with
  | nil => rw [slices, flatten_singleton]
  | cons hi boundaries ih =>
    obtain ⟨hhi, hso⟩ := pairwise_cons.1 hso
    have hre : (slices lead rows (some hi) boundaries).flatten.Perm _ :=
      ih hso fun b hb ↦ Option.some.inj hb ▸ hhi
    rw [slices, flatten_cons]
    refine (hre.append_left _).trans ?_
    rw [slice_below, slice_above fun b hb ↦ hlo b hb hi mem_cons_self]
    exact filter_append_perm _ _

theorem exists_slice_of_mem_slices {batch : List (ColdRow K V)}
    (h : batch ∈ slices lead rows lo boundaries) : ∃ lo hi, batch = slice lead lo hi rows := by
  induction boundaries generalizing lo with
  | nil => exact ⟨lo, none, mem_singleton.1 h⟩
  | cons hi boundaries ih =>
    rcases mem_cons.1 h with rfl | h
    · exact ⟨lo, some hi, rfl⟩
    · exact ih h

theorem le_lead_of_mem_slices {lo : B} {batch : List (ColdRow K V)}
    (hlo : ∀ b ∈ boundaries, lo ≤ b) (hso : boundaries.Pairwise (· ≤ ·))
    (hbt : batch ∈ slices lead rows (some lo) boundaries) (hr : r ∈ batch) : lo ≤ lead r.pk := by
  induction boundaries generalizing lo with
  | nil =>
    rw [mem_singleton.1 hbt] at hr
    simpa using (mem_filter.1 hr).2
  | cons hi boundaries ih =>
    obtain ⟨hhi, hso⟩ := pairwise_cons.1 hso
    rcases mem_cons.1 hbt with rfl | hbt
    · simpa using (Bool.and_eq_true_iff.1 (mem_filter.1 hr).2).1
    · exact (hlo hi mem_cons_self).trans (ih hhi hso hbt)

theorem pairwise_slices (hso : boundaries.Pairwise (· ≤ ·)) :
    (slices lead rows lo boundaries).Pairwise fun s t ↦
      ∀ a ∈ s, ∀ b ∈ t, lead a.pk < lead b.pk := by
  induction boundaries generalizing lo with
  | nil => exact pairwise_singleton _ _
  | cons hi boundaries ih =>
    obtain ⟨hhi, hso⟩ := pairwise_cons.1 hso
    refine pairwise_cons.2 ⟨fun batch hbt a ha b hb ↦ ?_, ih hso⟩
    have hlt : lead a.pk < hi := by simpa using (Bool.and_eq_true_iff.1 (mem_filter.1 ha).2).2
    exact hlt.trans_le (le_lead_of_mem_slices hhi hso hbt hb)

theorem superseded_slice_iff {hi : Option B} (hr : r ∈ slice lead lo hi rows) :
    Superseded (slice lead lo hi rows) r ↔ Superseded rows r := by
  constructor
  · exact fun h ↦ h.mono fun r' hr' ↦ mem_of_mem_filter hr'
  · rintro ⟨r', hr', hpk, hlt⟩
    refine ⟨r', mem_filter.2 ⟨hr', ?_⟩, hpk, hlt⟩
    rw [hpk]
    exact (mem_filter.1 hr).2

end Slices

end Koldstore.Feed
