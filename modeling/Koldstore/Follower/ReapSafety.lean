import Koldstore.Follower.Acks

/-!
# A reap leaves every live follower its segments

Without a gap no object is deleted that a follower with a young acknowledgement lists.
-/

namespace Koldstore.Follower

open Machine List Function
open Function (update_of_ne update_self)

namespace Fleet

variable {F I R : Type*}

/-! ### The invariant -/

def heldBy (w : Fleet F I R) (f : F) : ℕ := (w.followers f).catalog.generation

def ListsBefore (w : Fleet F I R) (catalog : Listing I) (id : I) : SegmentStatus → Prop
  | .unused => catalog.lists id = false
  | .compacted retiredGeneration _ =>
    catalog.lists id = true → catalog.generation < w.retiredAt retiredGeneration
  | _ => True

structure SegmentInv (w : Fleet F I R) : Prop where
  generation : w.generation ≤ maxGeneration
  exporting : ∀ g ∈ w.exporting, g ≤ w.generation
  exports : ∀ c ∈ w.exports, c.generation ≤ w.generation ∧ ∀ id, w.ListsBefore c id (w.status id)
  retired : ∀ id g createdAt, w.status id = .compacted (some g) createdAt → g ≤ w.generation

structure FollowerInv (w : Fleet F I R) : Prop where
  published : ∀ c, w.published = some c → c ∈ w.exports
  fetched : ∀ f c, (w.followers f).fetched = some c → c ∈ w.exports
  catalog : ∀ f, (w.followers f).catalog ∈ w.exports
  jobs : ∀ f, ∀ g ∈ (w.followers f).jobs, g ≤ w.heldBy f
  acks : ∀ f ack, w.acks.get f = some ack → ack.generation ≤ w.heldBy f ∧ ack.storedMs ≤ w.now

def SeenInv (w : Fleet F I R) : Prop :=
  ∀ f ack seen, w.acks.get f = some ack → w.now < ack.storedMs + w.maxAgeMs →
    w.seen f = some seen → seen.Matches w.me ack.generation ack.syncedMs →
    ack.storedMs ≤ seen.seenMs

def Counted (w : Fleet F I R) (pending : List F) (held : List ℕ) (f : F) : Prop :=
  f ∈ pending ∨ (∃ g ∈ held, g ≤ w.heldBy f) ∨ maxGeneration ≤ w.heldBy f

structure Due (w : Fleet F I R) (id : I) (generation : ℕ) : Prop where
  gone : (w.status id).gone = true
  listed : ∀ c ∈ w.exports, c.lists id = true → c.generation < generation
  reached : ∀ f ≠ w.me, w.Young f → generation ≤ w.heldBy f

def ReapInv (w : Fleet F I R) : Reap F I → Prop
  | .reading clock pending held => clock ≤ w.now ∧ ∀ f ≠ w.me, w.Young f → w.Counted pending held f
  | .reaping due _ => ∀ p ∈ due, w.Due p.1 p.2
  | _ => True

structure Inv (w : Fleet F I R) : Prop where
  segments : w.SegmentInv
  followers : w.FollowerInv
  seen : w.SeenInv
  reaps : ∀ r, w.ReapInv (w.reaps r)

theorem SegmentInv.frame {w w' : Fleet F I R} (h : w.SegmentInv)
    (hg : w'.generation = w.generation) (he : w'.exporting = w.exporting)
    (hx : w'.exports = w.exports) (hsa : w'.status = w.status) : w'.SegmentInv := by
  obtain ⟨hle, hrd, hls, hr⟩ := h
  constructor <;> simp only [hg, he, hx, hsa]
  · exact hle
  · exact hrd
  · intro c hc
    refine ⟨(hls c hc).1, fun id ↦ ?_⟩
    have hb := (hls c hc).2 id
    unfold ListsBefore retiredAt at hb ⊢
    rwa [hg]
  · exact hr

theorem FollowerInv.frame {w w' : Fleet F I R} (h : w.FollowerInv)
    (hu : w'.published = w.published) (he : w'.exports = w.exports)
    (hf : w'.followers = w.followers) (hacks : w'.acks = w.acks) (hn : w'.now = w.now) :
    w'.FollowerInv := by
  obtain ⟨hp, hfet, hc, hj, ha⟩ := h
  constructor <;> simpa only [hu, he, hf, hacks, hn, heldBy]

theorem inv_start (me : F) (maxAgeMs retentionMs : ℕ) :
    (start me maxAgeMs retentionMs : Fleet F I R).Inv where
  segments := {
    generation := Nat.zero_le _
    exporting := nofun
    exports := fun c hc ↦ by
      rw [mem_singleton.1 hc]
      exact ⟨Nat.le_refl 0, fun _ ↦ rfl⟩
    retired := nofun }
  followers := {
    published := nofun
    fetched := nofun
    catalog := fun f ↦ mem_singleton.2 rfl
    jobs := nofun
    acks := nofun }
  seen := nofun
  reaps := fun r ↦ trivial

structure Keeps (w w' : Fleet F I R) : Prop where
  me : w'.me = w.me
  now : w.now ≤ w'.now
  held : ∀ f, w.heldBy f ≤ w'.heldBy f
  young : ∀ f ≠ w.me, w'.Young f → w.Young f
  gone : ∀ id, (w.status id).gone = true → (w'.status id).gone = true
  exports : ∀ id, (w.status id).gone = true →
    ∀ c ∈ w'.exports, c.lists id = true → c ∈ w.exports

variable {id : I}

variable {held : List ℕ} {now : ℕ}

section Keep

variable {w w' : Fleet F I R} {f : F} {r : R} {phase : Reap F I}

theorem Keeps.frame (w : Fleet F I R) (backups exporting : List ℕ) (published : Option (Listing I))
    (seen : F → Option (Observation F)) (reaps : R → Reap F I) :
    w.Keeps { w with
      backups := backups, exporting := exporting, published := published, seen := seen,
      reaps := reaps } :=
  ⟨rfl, Nat.le_refl _, fun _ ↦ Nat.le_refl _, fun _ _ ↦ id, fun _ ↦ id, fun _ _ _ hc _ ↦ hc⟩

theorem Counted.mono {pending : List F} (hhe : w.heldBy f ≤ w'.heldBy f)
    (h : w.Counted pending held f) : w'.Counted pending held f := by
  rcases h with h | ⟨g, hg, hle⟩ | h
  · exact .inl h
  · exact .inr (.inl ⟨g, hg, Nat.le_trans hle hhe⟩)
  · exact .inr (.inr (Nat.le_trans h hhe))

variable {generation : ℕ}

theorem Due.keeps (hkp : w.Keeps w') (h : w.Due id generation) : w'.Due id generation where
  gone := hkp.gone id h.gone
  listed c hc hlists := h.listed c (hkp.exports id h.gone c hc hlists) hlists
  reached f hf hyoung := by
    rw [hkp.me] at hf
    exact Nat.le_trans (h.reached f hf (hkp.young f hf hyoung)) (hkp.held f)

theorem ReapInv.keeps (hkp : w.Keeps w') (h : w.ReapInv phase) : w'.ReapInv phase := by
  cases phase with
  | idle => trivial
  | purging due done => trivial
  | checking generation clock pending => trivial
  | reading clock pending held =>
    refine ⟨Nat.le_trans h.1 hkp.now, fun f hf hyg ↦ ?_⟩
    rw [hkp.me] at hf
    exact (h.2 f hf (hkp.young f hf hyg)).mono (hkp.held f)
  | reaping due done => exact fun p hp ↦ (h p hp).keeps hkp

theorem Inv.setReap [DecidableEq R] (h : w.Inv) (hph : w.ReapInv phase) :
    (w.setReap r phase).Inv := by
  refine ⟨h.segments.frame rfl rfl rfl rfl, h.followers.frame rfl rfl rfl rfl rfl, h.seen,
    fun r' ↦ ?_⟩
  refine .keeps (.frame w _ _ _ _ _) ?_
  revert r'
  show ∀ r', w.ReapInv (update w.reaps r phase r')
  exact (forall_update_iff w.reaps fun _ ↦ w.ReapInv).2
    ⟨hph, fun r' _ ↦ h.reaps r'⟩

theorem Inv.reapInv (h : w.Inv) (hr : w.reaps r = phase) : w.ReapInv phase := hr ▸ h.reaps r

theorem Inv.tick (h : w.Inv) (ms : ℕ) : Inv { w with now := w.now + ms } where
  segments := h.segments.frame rfl rfl rfl rfl
  followers := ⟨h.followers.1, h.followers.2, h.followers.3, h.followers.4, fun f ack ha ↦
    ⟨(h.followers.acks f ack ha).1,
      Nat.le_trans (h.followers.acks f ack ha).2 (Nat.le_add_right _ _)⟩⟩
  seen f ack seen ha hyoung :=
    h.seen f ack seen ha (Nat.lt_of_le_of_lt (Nat.le_add_right _ ms) hyoung)
  reaps r := .keeps (w := w)
    ⟨rfl, Nat.le_add_right _ _, fun _ ↦ Nat.le_refl _, fun _ _ ⟨ack, ha, hyoung⟩ ↦
        ⟨ack, ha, Nat.lt_of_le_of_lt (Nat.le_add_right _ ms) hyoung⟩,
      fun _ ↦ id, fun _ _ _ hc _ ↦ hc⟩
    (h.reaps r)

/-- What a step makes of a segment's status, from the generation `m` to `n`. -/
inductive Moves (m n : ℕ) : SegmentStatus → SegmentStatus → Prop
  | keep (status : SegmentStatus) : Moves m n status status
  | drop (status : SegmentStatus) : Moves m n status .dropped
  | create {status : SegmentStatus} (hg : status.gone = false) (hne : status ≠ .unused) :
    Moves m n .unused status
  | retire {g : Option ℕ} (createdAt : ℕ) (hg : g.getD n = n) (hlt : m < n) :
    Moves m n .active (.compacted g createdAt)

theorem Inv.setStatus {status : I → SegmentStatus} (h : w.Inv) (ids : List I)
    (hle : w.generation ≤ generation) (hmax : generation ≤ maxGeneration)
    (hm : ∀ id, Moves w.generation generation (w.status id) (status id)) :
    Inv { w with generation := generation, status := status, ids := ids } where
  segments := {
    generation := hmax
    exporting := fun g hg ↦ Nat.le_trans (h.segments.exporting g hg) hle
    exports := fun c hc ↦ by
      obtain ⟨hlc, hb⟩ := h.segments.exports c hc
      refine ⟨Nat.le_trans hlc hle, fun id ↦ ?_⟩
      have hid := hb id
      show ListsBefore _ c id (status id)
      have hs := hm id
      generalize w.status id = old, status id = new at hs hid
      cases hs with
      | keep =>
        cases old with
        | compacted g createdAt =>
          intro hls
          cases g with
          | none => exact Nat.lt_of_lt_of_le (hid hls) hle
          | some g => exact hid hls
        | _ => exact hid
      | drop => trivial
      | create ho hne =>
        cases new with
        | unused => exact absurd rfl hne
        | compacted g createdAt => cases ho
        | _ => trivial
      | retire createdAt hg hlt =>
        intro _
        show c.generation < Option.getD _ generation
        rw [hg]
        exact Nat.lt_of_le_of_lt hlc hlt
    retired := fun id g createdAt hid ↦ by
      replace hid : status id = .compacted (some g) createdAt := hid
      have hs := hm id
      rw [hid] at hs
      generalize hold : w.status id = old at hs
      cases hs with
      | keep => exact Nat.le_trans (h.segments.retired id g createdAt hold) hle
      | create ho => cases ho
      | retire createdAt hg => exact Nat.le_of_eq hg }
  followers := h.followers.frame rfl rfl rfl rfl rfl
  seen := h.seen
  reaps r := .keeps (w := w)
    { me := rfl
      now := Nat.le_refl _
      held := fun _ ↦ Nat.le_refl _
      young := fun _ _ ↦ id
      gone := fun id ho ↦ by
        have hs := hm id
        show (status id).gone = true
        generalize w.status id = old, status id = new at hs ho
        cases hs with
        | keep => exact ho
        | drop => rfl
        | create | retire => cases ho
      exports := fun _ _ _ hc _ ↦ hc }
    (h.reaps r)

variable {replaced : List I} {history : List (I × ℕ)}

theorem Inv.activate [DecidableEq I] (h : w.Inv) {new : List I} {recorded : Bool}
    (hcan : w.CanActivate replaced new history) :
    (w.activate now replaced recorded new history).Inv := by
  obtain ⟨hmax, hr, hn, hh⟩ := hcan
  refine h.setStatus _ (Nat.le_succ _) hmax fun id ↦ ?_
  by_cases hmem : id ∈ replaced
  · rw [if_pos hmem, hr id hmem]
    refine .retire now ?_ (Nat.lt_succ_self _)
    cases recorded <;> rfl
  · rw [if_neg hmem]
    by_cases hid : id ∈ new
    · rw [if_pos hid, hn id hid]
      exact .create rfl nofun
    · rw [if_neg hid]
      cases hlk : history.lookup id with
      | none => exact .keep _
      | some maxSeq =>
        obtain ⟨l₁, l₂, rfl, -⟩ := lookup_eq_some_iff.1 hlk
        rw [hh (id, maxSeq) (by simp)]
        exact .create rfl nofun

theorem Inv.dropRows [DecidableEq I] (h : w.Inv) (selected : SegmentStatus → Bool) (done : List I) :
    (w.dropRows selected done).Inv := by
  refine h.setStatus w.ids (Nat.le_refl _) h.segments.generation fun id ↦ ?_
  split
  · exact .drop _
  · exact .keep _

theorem Inv.exportSegments (h : w.Inv) (hg : generation ∈ w.exporting) :
    Inv { w with exports := ⟨generation, fun id ↦ (w.status id).listed⟩ :: w.exports } where
  segments := {
    generation := h.segments.generation
    exporting := h.segments.exporting
    exports := fun c hc ↦ by
      rcases mem_cons.1 hc with rfl | hc
      · refine ⟨h.segments.exporting generation hg, fun id ↦ ?_⟩
        show ListsBefore _ ⟨generation, fun id ↦ (w.status id).listed⟩ id (w.status id)
        cases hsa : w.status id with
        | unused =>
          show (w.status id).listed = false
          rw [hsa]
          rfl
        | compacted g createdAt =>
          intro (hl : (w.status id).listed = true)
          rw [hsa] at hl
          cases hl
        | active => trivial
        | history maxSeq => trivial
        | dropped => trivial
      · exact h.segments.exports c hc
    retired := h.segments.retired }
  followers := {
    published := fun c hc ↦ mem_cons_of_mem _ (h.followers.published c hc)
    fetched := fun f c hc ↦ mem_cons_of_mem _ (h.followers.fetched f c hc)
    catalog := fun f ↦ mem_cons_of_mem _ (h.followers.catalog f)
    jobs := h.followers.jobs
    acks := h.followers.acks }
  seen := h.seen
  reaps r := .keeps (w := w)
    { me := rfl
      now := Nat.le_refl _
      held := fun _ ↦ Nat.le_refl _
      young := fun _ _ ↦ id
      gone := fun _ ↦ id
      exports := fun id ho c hc hls ↦ by
        rcases mem_cons.1 hc with rfl | hc
        · have hl : (w.status id).listed = true := hls
          cases hsa : w.status id <;> rw [hsa] at ho hl <;> cases ho <;>
            cases hl
        · exact hc }
    (h.reaps r)

theorem heldBy_setFollower [DecidableEq F] (state : FollowerState I) (f' : F) :
    (w.setFollower f state).heldBy f' =
      if f' = f then state.catalog.generation else w.heldBy f' := by
  show (update w.followers f state f').catalog.generation = _
  rw [update_apply]
  split <;> rfl

theorem Inv.setFollower [DecidableEq F] (h : w.Inv) {state : FollowerState I}
    (he : ∀ c, state.fetched = some c → c ∈ w.exports) (hcat : state.catalog ∈ w.exports)
    (hj : ∀ g ∈ state.jobs, g ≤ state.catalog.generation)
    (hhe : w.heldBy f ≤ state.catalog.generation) : (w.setFollower f state).Inv := by
  have hle : ∀ f', w.heldBy f' ≤ (w.setFollower f state).heldBy f' := fun f' ↦ by
    rw [heldBy_setFollower]
    split
    next hf => exact hf ▸ hhe
    · exact Nat.le_refl _
  have ho : ∀ f', (∀ c, ((w.setFollower f state).followers f').fetched = some c →
      c ∈ w.exports) ∧ ((w.setFollower f state).followers f').catalog ∈ w.exports ∧
      ∀ g ∈ ((w.setFollower f state).followers f').jobs, g ≤ (w.setFollower f state).heldBy f' := by
    intro f'
    show (∀ c, (update w.followers f state f').fetched = some c → c ∈ w.exports) ∧
      (update w.followers f state f').catalog ∈ w.exports ∧
      ∀ g ∈ (update w.followers f state f').jobs,
        g ≤ (update w.followers f state f').catalog.generation
    by_cases hf : f' = f
    · rw [hf, update_self]
      exact ⟨he, hcat, hj⟩
    · rw [update_of_ne hf]
      exact ⟨h.followers.fetched f', h.followers.catalog f', h.followers.jobs f'⟩
  refine ⟨h.segments.frame rfl rfl rfl rfl,
    ⟨h.followers.published, fun f' ↦ (ho f').1, fun f' ↦ (ho f').2.1,
      fun f' ↦ (ho f').2.2, fun f' ack ha ↦ ?_⟩, h.seen, fun r ↦ ?_⟩
  · obtain ⟨hg, hs⟩ := h.followers.acks f' ack ha
    exact ⟨Nat.le_trans hg (hle f'), hs⟩
  · exact .keeps (w := w) ⟨rfl, Nat.le_refl _, hle, fun _ _ ↦ id, fun _ ↦ id,
      fun _ _ _ hc _ ↦ hc⟩ (h.reaps r)

theorem reapInv_of_not_underWay (hph : phase.underWay = false) : w.ReapInv phase := by
  cases phase with
  | idle => trivial
  | purging due done => trivial
  | checking generation clock pending => trivial
  | reading clock pending held | reaping due done => cases hph

theorem Inv.putAck [DecidableEq F] (h : w.Inv) {syncedMs : ℕ} (hg : generation ≤ w.heldBy f)
    (hfre : ∀ seen, w.seen f = some seen → ¬seen.Matches w.me generation syncedMs)
    (hyg : (∃ r, (w.reaps r).underWay = true) → w.Young f) :
    Inv { w with acks := w.acks.put f ⟨generation, syncedMs, w.now⟩ } := by
  have he : ∀ f' ack, (w.acks.put f ⟨generation, syncedMs, w.now⟩).get f' = some ack →
      f' = f ∧ ack = ⟨generation, syncedMs, w.now⟩ ∨ f' ≠ f ∧ w.acks.get f' = some ack := by
    intro f' ack ha
    replace ha : update w.acks.get f (some ⟨generation, syncedMs, w.now⟩) f' = some ack := ha
    by_cases hf : f' = f
    · rw [hf, update_self] at ha
      exact .inl ⟨hf, (Option.some.inj ha).symm⟩
    · rw [update_of_ne hf] at ha
      exact .inr ⟨hf, ha⟩
  refine ⟨h.segments.frame rfl rfl rfl rfl,
    ⟨h.followers.1, h.followers.2, h.followers.3, h.followers.4, fun f' ack ha ↦ ?_⟩,
    fun f' ack seen ha hage hsn hm ↦ ?_, fun r ↦ ?_⟩
  · rcases he f' ack ha with ⟨rfl, rfl⟩ | ⟨-, ha⟩
    · exact ⟨hg, Nat.le_refl _⟩
    · exact h.followers.acks f' ack ha
  · rcases he f' ack ha with ⟨rfl, rfl⟩ | ⟨-, ha⟩
    · exact absurd hm (hfre seen hsn)
    · exact h.seen f' ack seen ha hage hsn hm
  · cases hr : (w.reaps r).underWay with
    | false => exact reapInv_of_not_underWay hr
    | true =>
      refine .keeps (w := w) ⟨rfl, Nat.le_refl _, fun _ ↦ Nat.le_refl _, ?_, fun _ ↦ id,
        fun _ _ _ hc _ ↦ hc⟩ (h.reaps r)
      rintro f' - ⟨ack, ha, hage⟩
      rcases he f' ack ha with ⟨rfl, rfl⟩ | ⟨-, ha⟩
      · exact hyg ⟨r, hr⟩
      · exact ⟨ack, ha, hage⟩

theorem Inv.delete (h : w.Inv) {acks : AckStore F} {seen : F → Option (Observation F)}
    (hacks : ∀ f ack, acks.get f = some ack → w.acks.get f = some ack)
    (hsn : ∀ f s, seen f = some s → w.seen f = some s) :
    Inv { w with seen := seen, acks := acks } where
  segments := h.segments.frame rfl rfl rfl rfl
  followers := ⟨h.followers.1, h.followers.2, h.followers.3, h.followers.4,
    fun f ack ha ↦ h.followers.acks f ack (hacks f ack ha)⟩
  seen f ack s ha hg hs := h.seen f ack s (hacks f ack ha) hg (hsn f s hs)
  reaps r := .keeps (w := w)
    ⟨rfl, Nat.le_refl _, fun _ ↦ Nat.le_refl _,
      fun f _ ⟨ack, ha, hg⟩ ↦ ⟨ack, hacks f ack ha, hg⟩, fun _ ↦ id,
      fun _ _ _ hc _ ↦ hc⟩
    (h.reaps r)

theorem Inv.sweepObservations [DecidableEq F] (h : w.Inv) (swept : List F) :
    (w.sweepObservations swept).Inv := by
  refine h.delete (fun _ _ ↦ id) fun f s hs ↦ ?_
  split at hs
  · cases hs
  · exact hs

end Keep

variable {getOk seenGetOk seenPutOk : Bool}

section Read

variable {w : Fleet F I R} {f : F} {generation clock : ℕ}

theorem readAck_seen [DecidableEq F] {seen : Observation F}
    (h : (w.readAck generation clock f getOk seenGetOk seenPutOk).1 = some seen) :
    w.seen f = some seen ∨ seen.seenMs = clock := by
  unfold readAck at h
  split at h
  · exact .inl h
  · unfold readLaggard at h
    split at h
    · exact .inl h
    · split at h
      · exact .inl h
      · cases seenPutOk with
        | false => exact .inl h
        | true =>
          cases h
          exact .inr rfl

theorem Inv.readAck [DecidableEq F] (h : w.Inv) (hs : w.Young f → w.StoredBy f clock) :
    (w.setSeen f (w.readAck generation clock f getOk seenGetOk seenPutOk).1).Inv := by
  refine ⟨h.segments.frame rfl rfl rfl rfl, h.followers.frame rfl rfl rfl rfl rfl,
    fun f' ack seen ha hg hsn hm ↦ ?_, fun r ↦ ?_⟩
  · replace hsn : update w.seen f
      (w.readAck generation clock f getOk seenGetOk seenPutOk).1 f' = some seen := hsn
    by_cases hf : f' = f
    · subst hf
      rw [update_self] at hsn
      rcases readAck_seen hsn with hsn | hc
      · exact h.seen f' ack seen ha hg hsn hm
      · rw [hc]
        exact hs ⟨ack, ha, hg⟩ ack ha
    · rw [update_of_ne hf] at hsn
      exact h.seen f' ack seen ha hg hsn hm
  · exact .keeps (.frame w _ _ _ _ _) (h.reaps r)

theorem Inv.observedAgeMs_le [DecidableEq F] (h : w.Inv) {ack : Ack} (ha : w.acks.get f = some ack)
    (hg : w.now < ack.storedMs + w.maxAgeMs) (hc : clock ≤ w.now) {age : ℕ}
    (ho : observedAgeMs (if seenGetOk then w.seen f else none) w.me ack clock = some age) :
    age ≤ w.maxAgeMs := by
  cases seenGetOk with
  | false => cases ho
  | true =>
    rw [if_pos rfl] at ho
    cases hsn : w.seen f with
    | none =>
      rw [hsn] at ho
      cases ho
    | some seen =>
      rw [hsn] at ho
      simp only [observedAgeMs] at ho
      split at ho
      next hm =>
        cases ho
        have hseenMs := h.seen f ack seen ha hg hsn hm
        omega
      · cases ho

/-- **A young acknowledgement counts.** -/
theorem Inv.readAck_counts [DecidableEq F] (h : w.Inv) (hf : f ≠ w.me) (hyg : w.Young f)
    (hc : clock ≤ w.now) (seenGetOk seenPutOk : Bool) :
    (∃ g ∈ (w.readAck maxGeneration clock f true seenGetOk seenPutOk).2.toList, g ≤ w.heldBy f) ∨
      maxGeneration ≤ w.heldBy f := by
  obtain ⟨ack, ha, hg⟩ := hyg
  have hhe := (h.followers.acks f ack ha).1
  have hrd : w.readAck maxGeneration clock f true seenGetOk seenPutOk =
      w.readLaggard maxGeneration clock f ack seenGetOk seenPutOk := by
    simp only [Fleet.readAck, if_true, ha]
  rw [hrd]
  unfold readLaggard
  split
  next hsk => exact .inr (Nat.le_trans (hsk.resolve_left hf) hhe)
  · refine .inl ⟨ack.generation, ?_, hhe⟩
    split
    next age ho =>
      rw [if_pos (h.observedAgeMs_le ha hg hc ho)]
      exact mem_singleton.2 rfl
    · exact mem_singleton.2 rfl

theorem pastGrace_eq_some {graceMs : ℕ} {floor : Option ℕ} {p : I × ℕ}
    (h : w.pastGrace now graceMs floor id = some p) :
    ∃ retiredGeneration createdAt, w.status id = .compacted retiredGeneration createdAt ∧
      p = (id, w.retiredAt retiredGeneration) ∧
      ∀ g, floor = some g → w.retiredAt retiredGeneration ≤ g := by
  unfold pastGrace at h
  split at h
  next retiredGeneration createdAt hsa =>
    split at h
    next hd =>
      refine ⟨retiredGeneration, createdAt, hsa, (Option.some.inj h).symm, ?_⟩
      rintro g rfl
      exact of_decide_eq_true hd.2.2
    · cases h
  · cases h

theorem Inv.retiredAt_le (h : w.Inv) {retiredGeneration : Option ℕ} {createdAt : ℕ}
    (hsa : w.status id = .compacted retiredGeneration createdAt) :
    w.retiredAt retiredGeneration ≤ w.generation := by
  cases retiredGeneration with
  | none => exact Nat.le_refl _
  | some g => exact h.segments.retired id g createdAt hsa

/-- **The floor holds back.** -/
theorem Inv.due (h : w.Inv) {graceMs : ℕ} {p : I × ℕ}
    (hn : ∀ f ≠ w.me, w.Young f → w.Counted [] held f)
    (hp : w.pastGrace now graceMs held.min? id = some p) : w.Due p.1 p.2 := by
  obtain ⟨retiredGeneration, createdAt, hsa, rfl, hfl⟩ := pastGrace_eq_some hp
  refine ⟨?_, fun c hc hls ↦ ?_, fun f hf hyg ↦ ?_⟩
  · show (w.status id).gone = true
    rw [hsa]
    rfl
  · have hb := (h.segments.exports c hc).2 id
    rw [hsa] at hb
    exact hb hls
  · show w.retiredAt retiredGeneration ≤ w.heldBy f
    rcases hn f hf hyg with hpe | ⟨g, hg, hle⟩ | hm
    · cases hpe
    · cases hmin : held.min? with
      | none =>
        rw [min?_eq_none_iff.1 hmin] at hg
        cases hg
      | some m =>
        exact Nat.le_trans (hfl m hmin)
          (Nat.le_trans ((min?_eq_some_iff.1 hmin).2 g hg) hle)
    · exact Nat.le_trans (h.retiredAt_le hsa) (Nat.le_trans h.segments.generation hm)

end Read

section Step

variable [DecidableEq F] [DecidableEq I] [DecidableEq R] {w w' : Fleet F I R}

theorem Inv.step_listAcks (h : w.Inv) {r : R} {clock : ℕ} {swept : List F} (hc : clock ≤ w.now)
    (hstep : w.step (.listAcks r clock swept) = some w') : w'.Inv := by
  simp only [step] at hstep
  split at hstep
  next done hr =>
    have hdr := h.dropRows isHistory done
    split at hstep
    next hm =>
      cases hstep
      refine hdr.setReap ⟨hc, fun f _ ⟨ack, ha, hg⟩ ↦ ?_⟩
      have hs := (h.followers.acks f ack ha).2
      replace hm : w.maxAgeMs = 0 := hm
      replace hg : w.now < ack.storedMs + w.maxAgeMs := hg
      omega
    · cases hstep
      exact (hdr.sweepObservations swept).setReap
        ⟨hc, fun f _ ⟨_, ha, _⟩ ↦ .inl (AckStore.mem_list ha)⟩
  · cases hstep

theorem Inv.step_readAck (h : w.Inv) {r : R} (hmt : w.NoGap (.readAck r getOk seenGetOk seenPutOk))
    (hstep : w.step (.readAck r getOk seenGetOk seenPutOk) = some w') : w'.Inv := by
  simp only [step] at hstep
  simp only [NoGap] at hmt
  split at hstep
  next clock f pending held hr =>
    rw [hr] at hmt
    cases hstep
    obtain ⟨hl, hc⟩ := h.reapInv hr
    refine (h.readAck fun hyg ↦ (hmt hyg).2).setReap ⟨hl, fun f' hf' hyg ↦ ?_⟩
    show w.Counted pending _ f'
    -- The follower read now bounds the floor; the others do already, or are read later.
    rcases hc f' hf' hyg with hpe | ⟨g, hg, hle⟩ | hm
    · rcases mem_cons.1 hpe with rfl | hpe
      · obtain ⟨rfl, -⟩ := hmt hyg
        rcases h.readAck_counts hf' hyg hl seenGetOk seenPutOk with ⟨g, hg, hle⟩ | hm
        · exact .inr (.inl ⟨g, mem_append_left _ hg, hle⟩)
        · exact .inr (.inr hm)
      · exact .inl hpe
    · exact .inr (.inl ⟨g, mem_append_right _ hg, hle⟩)
    · exact .inr (.inr hm)
  next generation clock f pending hr =>
    rw [hr] at hmt
    cases hstep
    exact (h.readAck hmt).setReap trivial
  · cases hstep

variable {f : F} {r : R} {generation clock : ℕ} {swept : List F}

theorem Inv.step_putAck (h : w.Inv) {syncedMs : ℕ} {ok : Bool}
    (hmt : w.NoGap (.putAck f generation syncedMs ok))
    (hstep : w.step (.putAck f generation syncedMs ok) = some w') : w'.Inv := by
  simp only [step] at hstep
  split at hstep
  next hj =>
    have hdn : (w.setFollower f { w.followers f with
        jobs := (w.followers f).jobs.erase generation }).Inv := h.setFollower
      (h.followers.fetched f) (h.followers.catalog f)
      (fun g hg ↦ h.followers.jobs f g (mem_of_mem_erase hg)) (Nat.le_refl _)
    cases hstep
    cases ok with
    | false => exact hdn
    | true =>
      obtain ⟨hf, hyg⟩ := hmt rfl
      refine hdn.putAck ?_ hf hyg
      rw [heldBy_setFollower, if_pos rfl]
      exact h.followers.jobs f generation hj
  · cases hstep

theorem Inv.step_exportManifest (h : w.Inv)
    (hstep : w.step .exportManifest = some w') : w'.Inv := by
  cases hstep
  refine ⟨⟨h.segments.1, fun g hg ↦ ?_, h.segments.3, h.segments.4⟩,
    h.followers.frame rfl rfl rfl rfl rfl, h.seen,
    fun r ↦ .keeps (.frame w _ _ _ _ _) (h.reaps r)⟩
  rcases mem_cons.1 hg with rfl | hg
  · exact Nat.le_refl _
  · exact h.segments.exporting g hg

theorem Inv.step_publish (h : w.Inv) {n : ℕ} (hstep : w.step (.publish n) = some w') : w'.Inv := by
  obtain ⟨catalog, hn, rfl⟩ := Option.map_eq_some_iff.1 hstep
  refine ⟨h.segments.frame rfl rfl rfl rfl,
    ⟨fun c hc ↦ ?_, h.followers.2, h.followers.3, h.followers.4, h.followers.5⟩, h.seen,
    fun r ↦ .keeps (.frame w _ _ _ _ _) (h.reaps r)⟩
  cases hc
  exact mem_of_getElem? hn

theorem Inv.step_commit (h : w.Inv) {acknowledge : Bool} (hmt : w.NoGap (.commit f acknowledge))
    (hstep : w.step (.commit f acknowledge) = some w') : w'.Inv := by
  obtain ⟨catalog, he, rfl⟩ := Option.map_eq_some_iff.1 hstep
  simp only [NoGap, he] at hmt
  have hj : ∀ g ∈ (w.followers f).jobs, g ≤ catalog.generation := fun g hg ↦
    Nat.le_trans (h.followers.jobs f g hg) hmt
  refine h.setFollower (nofun) (h.followers.fetched f catalog he) ?_ hmt
  cases acknowledge with
  | false => exact hj
  | true => exact forall_mem_cons.2 ⟨Nat.le_refl _, hj⟩

theorem eq_some_of_update_none {α : Type*} {get : F → Option α} {f f' : F} {a : α}
    (h : update get f none f' = some a) : get f' = some a := by
  by_cases hf : f' = f
  · rw [hf, update_self] at h
    cases h
  · rwa [update_of_ne hf] at h

theorem Inv.step_forget (h : w.Inv) {seenOk ackOk : Bool}
    (hstep : w.step (.forget f seenOk ackOk) = some w') : w'.Inv := by
  cases hstep
  refine h.delete (fun f' ack ha ↦ ?_) fun f' s hs ↦ ?_
  · cases ackOk with
    | false => exact ha
    | true => exact eq_some_of_update_none ha
  · cases seenOk with
    | false => exact hs
    | true => exact eq_some_of_update_none hs

theorem Inv.step_check (h : w.Inv)
    (hstep : w.step (.check r generation clock swept) = some w') : w'.Inv := by
  simp only [step] at hstep
  split at hstep
  · split at hstep
    · cases hstep
      exact h
    · cases hstep
      exact (h.sweepObservations swept).setReap trivial
  · cases hstep

theorem Inv.step_computeDue (h : w.Inv) {now graceMs : ℕ}
    (hstep : w.step (.computeDue r now graceMs) = some w') : w'.Inv := by
  simp only [step] at hstep
  split at hstep
  next clock held hr =>
    cases hstep
    refine h.setReap fun p hp ↦ ?_
    obtain ⟨id, -, hid⟩ := mem_filterMap.1 hp
    exact h.due (h.reapInv hr).2 hid
  · cases hstep

/-- **One step** that hits no gap keeps the invariant. -/
theorem inv_step {e : Event F I R} (h : w.Inv) (hmt : w.NoGap e) (hstep : w.step e = some w') :
    w'.Inv := by
  cases e with
  | tick ms =>
    cases hstep
    exact h.tick ms
  | flush new | compact now replaced recorded new history =>
    simp only [step] at hstep
    split at hstep
    next hcan =>
      cases hstep
      exact h.activate hcan
    · cases hstep
  | backup takenAt =>
    cases hstep
    exact ⟨h.segments.frame rfl rfl rfl rfl, h.followers.frame rfl rfl rfl rfl rfl, h.seen,
      fun r ↦ .keeps (.frame w _ _ _ _ _) (h.reaps r)⟩
  | exportManifest => exact h.step_exportManifest hstep
  | exportSegments generation =>
    simp only [step] at hstep
    split at hstep
    next hgen =>
      cases hstep
      exact h.exportSegments hgen
    · cases hstep
  | publish _ => exact h.step_publish hstep
  | fetch f =>
    obtain ⟨catalog, hu, rfl⟩ := Option.map_eq_some_iff.1 hstep
    refine h.setFollower (fun c hc ↦ ?_) (h.followers.catalog f) (h.followers.jobs f)
      (Nat.le_refl _)
    cases hc
    exact h.followers.published catalog hu
  | commit _ _ => exact h.step_commit hmt hstep
  | join f =>
    cases hstep
    exact h.setFollower (h.followers.fetched f) (h.followers.catalog f)
      (forall_mem_cons.2 ⟨Nat.le_refl _, h.followers.jobs f⟩) (Nat.le_refl _)
  | putAck f generation syncedMs ok => exact h.step_putAck hmt hstep
  | forget _ _ _ => exact h.step_forget hstep
  | startReap r horizon | purge r ok =>
    simp only [step] at hstep
    split at hstep
    · cases hstep
      exact h.setReap trivial
    · cases hstep
  | listAcks r clock swept => exact h.step_listAcks hmt hstep
  | check _ _ _ _ => exact h.step_check hstep
  | readAck r getOk seenGetOk seenPutOk => exact h.step_readAck hmt hstep
  | computeDue _ _ _ => exact h.step_computeDue hstep
  | reap r ok =>
    simp only [step] at hstep
    split at hstep
    next hr =>
      cases hstep
      exact h.setReap fun p hp ↦ h.reapInv hr p (mem_cons_of_mem _ hp)
    · cases hstep
  | finishReap r =>
    simp only [step] at hstep
    split at hstep
    · cases hstep
      exact (h.dropRows isCompacted _).setReap trivial
    · cases hstep
  | abort r =>
    cases hstep
    exact h.setReap trivial

theorem inv_of_reaches {me : F} {maxAgeMs retentionMs : ℕ}
    (h : Reaches step NoGap (start me maxAgeMs retentionMs) w) : w.Inv :=
  h.inv (P := Inv) (inv_start me maxAgeMs retentionMs) fun _ _ _ ↦ inv_step

omit [DecidableEq F] [DecidableEq I] [DecidableEq R] in
theorem Inv.lists_eq_false (h : w.Inv) (hd : w.Due id generation)
    {f : F} (hf : f ≠ w.me) (hyg : w.Young f) : (w.followers f).catalog.lists id = false := by
  refine Bool.eq_false_iff.2 fun hls ↦ ?_
  have hlt : w.heldBy f < generation := hd.listed _ (h.followers.catalog f) hls
  exact Nat.lt_irrefl _ (Nat.lt_of_lt_of_le hlt (hd.reached f hf hyg))

/-- **No live follower loses a segment**: in a run that hits no gap, an object is deleted only if no
follower with a young acknowledgement lists it. -/
theorem safeDelete_of_reaches {me : F} {maxAgeMs retentionMs : ℕ}
    (h : Reaches step NoGap (start me maxAgeMs retentionMs) w) {e : Event F I R}
    (hmeets : w.NoGap e) : w.SafeDelete e := by
  have hi := inv_of_reaches h
  intro id hd f hf hyg
  unfold deletes at hd
  split at hd
  · exact absurd hyg (hmeets rfl f hf)
  · split at hd
    next hr =>
      cases hd
      exact hi.lists_eq_false (hi.reapInv hr _ mem_cons_self) hf hyg
    · cases hd
  · cases hd

end Step

end Fleet

namespace ReapExample

open Fleet

/-- A leader (`false`), a follower (`true`) and one reaper; acknowledgements live a second. -/
def fleet : Fleet Bool ℕ Unit := start false 1000 0

def followed : List (Event Bool ℕ Unit) :=
  [.flush [0], .compact 0 [0] true [1] [(2, 5)], .exportManifest, .exportSegments 2, .publish 0,
    .fetch true, .commit true true, .putAck true 2 100 true]

theorem safeDelete_of_reaches_followed :
    ∃ w : Fleet Bool ℕ Unit, w.deletes (.reap () true) = some 0 ∧ w.Young true ∧
      w.SafeDelete (.reap () true) := by
  obtain ⟨w, hw, hd, hyg⟩ : ∃ w, exec step fleet (followed ++
      [.startReap () 0, .listAcks () 0 [], .readAck () true true true, .computeDue () 0 0]) =
        some w ∧ w.deletes (.reap () true) = some 0 ∧ w.Young true :=
    ⟨_, rfl, rfl, _, rfl, by decide⟩
  refine ⟨w, hd, hyg, safeDelete_of_reaches (reaches_of_exec hw ?_) trivial⟩
  refine ⟨trivial, trivial, trivial, trivial, trivial, trivial, Nat.zero_le _, fun _ ↦ ⟨?_, ?_⟩,
    trivial, Nat.le_refl _, fun _ ↦ ⟨rfl, ?_⟩, trivial, trivial⟩
  · nofun
  · rintro ⟨r, hr⟩
    cases hr
  · intro ack ha
    cases ha
    exact Nat.le_refl _

theorem purges_listed_history :
    ∃ w, exec step fleet (followed ++ [.startReap () 10]) = some w ∧
      w.deletes (.purge () true) = some 2 ∧ ¬w.SafeDelete (.purge () true) := by
  refine ⟨_, rfl, rfl, fun hs ↦ ?_⟩
  have hls := hs 2 rfl true (by decide) ⟨_, rfl, by decide⟩
  cases hls

end ReapExample

end Koldstore.Follower
