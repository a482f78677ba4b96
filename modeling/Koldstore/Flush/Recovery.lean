import Koldstore.Basic.Except
import Koldstore.SortKey.Encode
import Koldstore.Storage.Publish

/-!
# Orphan recovery

Unreferenced objects below a table's prefix are deleted or moved to a quarantine key. A run may
end after any request, and the next one lists what it left.
-/

namespace Koldstore.Recovery

open List Storage Function

inductive RecoveryAction
  | deleteTemp
  | quarantineFinal
  deriving DecidableEq, Repr

structure OrphanObject where
  path : String
  manifestReferenced : Bool
  deriving DecidableEq, Repr

/-- `ObjectPath::parse`. -/
def parse (path : String) : Except String String :=
  let path := trim path.toList
  if path = [] ∨ path.head? = some '/' ∨
      (path.splitOn '/').any (fun component ↦ decide (component ∈ [[], ['.'], ['.', '.']])) then
    .error ("invalid object path: " ++ String.ofList path)
  else .ok (String.ofList path)

def classifyOrphanObject (path : String) (manifestReferenced : Bool) : Option RecoveryAction :=
  if manifestReferenced then none
  else if contains path "/.tmp/" || decide (".tmp".toList <:+ path.toList) then some .deleteTemp
  else some .quarantineFinal

def planRecoveryActions (objects : List OrphanObject) : List (String × RecoveryAction) :=
  objects.filterMap fun o ↦ (classifyOrphanObject o.path o.manifestReferenced).map (Prod.mk o.path)

def isQuarantine (key : String) : Bool := contains key ".quarantine."

def discoverOrphanObjects (referenced : List String) :
    List String → Except String (List OrphanObject)
  | [] => .ok []
  | key :: listing =>
    if isQuarantine key then discoverOrphanObjects referenced listing
    else (parse key).bind fun path ↦ (discoverOrphanObjects referenced listing).map
      (OrphanObject.mk path (decide (key ∈ referenced)) :: ·)

def quarantineKey (path uuid : String) : String := path ++ ".quarantine." ++ uuid

abbrev Store (B : Type*) := String → Option B

variable {B : Type*}

/-- The stores before and after each request of `apply_recovery_plan`, which ends early at a
quarantine key that is taken. -/
def applyRecoveryPlan : List (String × RecoveryAction) → (ℕ → String) → Store B → List (Store B)
  | [], _, store => [store]
  | (path, .deleteTemp) :: plan, uuids, store =>
    store :: applyRecoveryPlan plan uuids (update store path none)
  | (path, .quarantineFinal) :: plan, uuids, store =>
    store :: match store path, store (quarantineKey path (uuids 0)) with
      | none, _ => applyRecoveryPlan plan uuids store
      | some _, some _ => []
      | some bytes, none =>
        let copied := update store (quarantineKey path (uuids 0)) (some bytes)
        copied :: applyRecoveryPlan plan (fun n ↦ uuids (n + 1)) (update copied path none)

/-- The keys of the store below a prefix. -/
def Lists (below : String → Bool) (store : Store B) (listing : List String) : Prop :=
  ∀ key, key ∈ listing ↔ (store key).isSome ∧ below key

/-- A store at some moment of some number of runs, each of which may have ended at any request. -/
inductive Recovers (below : String → Bool) (referenced : List String) (store : Store B) :
    Store B → Prop
  | refl : Recovers below referenced store store
  | run {start later : Store B} {listing : List String} {objects : List OrphanObject}
      (uuids : ℕ → String) (hs : Recovers below referenced store start)
      (hls : Lists below start listing)
      (hobjs : discoverOrphanObjects referenced listing = .ok objects)
      (hmem : later ∈ applyRecoveryPlan (planRecoveryActions objects) uuids start) :
      Recovers below referenced store later

/-! ### Requests keep objects -/

abbrev IsFinal (key : String) : Prop := classifyOrphanObject key false = some .quarantineFinal

variable (referenced : List String)

structure Keeps (s t : Store B) : Prop where
  kept : ∀ key b, key ∈ referenced ∨ isQuarantine key → s key = some b → t key = some b
  moved : ∀ key b, IsFinal key → s key = some b →
    t key = some b ∨ ∃ uuid, t (quarantineKey key uuid) = some b
  old : ∀ key b, isQuarantine key = false → t key = some b → s key = some b

/-- What discovery says of an object. -/
def Marked (o : OrphanObject) : Prop :=
  isQuarantine o.path = false ∧ o.manifestReferenced = decide (o.path ∈ referenced)

/-- A step that recovery may take. -/
def Allowed (step : String × RecoveryAction) : Prop :=
  step.1 ∉ referenced ∧ isQuarantine step.1 = false ∧ (step.2 = .deleteTemp → ¬IsFinal step.1)

variable {referenced}

theorem isQuarantine_quarantineKey (path uuid : String) :
    isQuarantine (quarantineKey path uuid) := by
  refine decide_eq_true ⟨path.toList, uuid.toList, ?_⟩
  simp [quarantineKey]

theorem quarantineKey_ne {path : String} (hq : isQuarantine path = false) (uuid : String) :
    quarantineKey path uuid ≠ path := by
  intro heq
  have hqk := isQuarantine_quarantineKey path uuid
  rw [heq, hq] at hqk
  cases hqk

theorem Keeps.refl (s : Store B) : Keeps referenced s s :=
  ⟨fun _ _ _ h ↦ h, fun _ _ _ h ↦ .inl h, fun _ _ _ h ↦ h⟩

variable {s : Store B}

theorem Keeps.trans {t u : Store B} (hst : Keeps referenced s t) (htu : Keeps referenced t u) :
    Keeps referenced s u where
  kept key b hk h := htu.kept key b hk (hst.kept key b hk h)
  moved key b hk h := by
    rcases hst.moved key b hk h with he | ⟨uuid, hc⟩
    · exact htu.moved key b hk he
    · exact .inr ⟨uuid, htu.kept _ b (.inr (isQuarantine_quarantineKey key uuid)) hc⟩
  old key b hk h := hst.old key b hk (htu.old key b hk h)

variable {path : String}

/-- An unreferenced key may be deleted where a final object's bytes have been copied. -/
theorem keeps_delete (hr : path ∉ referenced) (hq : isQuarantine path = false)
    (hc : IsFinal path → ∀ b, s path = some b → ∃ uuid, s (quarantineKey path uuid) = some b) :
    Keeps referenced s (update s path none) := by
  have ho : ∀ key, key ≠ path → update s path none key = s key :=
    fun key hne ↦ update_of_ne hne ..
  refine ⟨fun key b hk h ↦ ?_, fun key b hk h ↦ ?_, fun key b _ h ↦ ?_⟩
  · rwa [ho key (by rintro rfl; simp_all)]
  · by_cases hne : key = path
    · subst hne
      obtain ⟨uuid, hcopy⟩ := hc hk b h
      exact .inr ⟨uuid, by rwa [ho _ (quarantineKey_ne hq uuid)]⟩
    · exact .inl (by rwa [ho key hne])
  · rwa [ho key (by rintro rfl; simp at h)] at h

theorem keeps_copy {uuid : String} {bytes : B} (hnone : s (quarantineKey path uuid) = none) :
    Keeps referenced s (update s (quarantineKey path uuid) (some bytes)) := by
  have ho : ∀ key b, s key = some b →
      update s (quarantineKey path uuid) (some bytes) key = some b := by
    intro key b h
    rwa [update_of_ne (by rintro rfl; simp [hnone] at h)]
  refine ⟨fun key b _ ↦ ho key b, fun key b _ h ↦ .inl (ho key b h), fun key b hk h ↦ ?_⟩
  rwa [update_of_ne (by rintro rfl; simp [isQuarantine_quarantineKey] at hk)] at h

/-- Every moment of a plan whose paths may be acted on keeps the objects. -/
theorem keeps_of_mem_applyRecoveryPlan {plan : List (String × RecoveryAction)}
    {uuids : ℕ → String} {t : Store B} (hp : ∀ step ∈ plan, Allowed referenced step)
    (ht : t ∈ applyRecoveryPlan plan uuids s) : Keeps referenced s t := by
  fun_induction applyRecoveryPlan plan uuids s with
  | case1 => exact mem_singleton.1 ht ▸ .refl _
  | case2 path plan uuids store ih =>
    obtain ⟨⟨hr, hq, he⟩, hre⟩ := forall_mem_cons.1 hp
    rcases mem_cons.1 ht with rfl | ht
    · exact .refl _
    · exact (keeps_delete hr hq fun h ↦ absurd h (he rfl)).trans (ih hre ht)
  | case3 path plan uuids store ih₁ ih₂ =>
    obtain ⟨⟨hr, hq, -⟩, hre⟩ := forall_mem_cons.1 hp
    rcases mem_cons.1 ht with rfl | ht
    · exact .refl _
    split at ht
    · exact ih₁ hre ht
    · cases ht
    next bytes hbs hnone =>
      rcases mem_cons.1 ht with rfl | ht
      · exact keeps_copy hnone
      refine ((keeps_copy hnone).trans (keeps_delete hr hq fun _ b hb ↦ ?_)).trans
        (ih₂ bytes hre ht)
      rw [update_of_ne (quarantineKey_ne hq _).symm, hbs] at hb
      exact ⟨uuids 0, by rw [update_self, hb]⟩

/-! ### Runs -/

variable {below : String → Bool}

theorem path_of_parse {key : String} (hpl : trim key.toList = key.toList)
    (h : parse key = .ok path) : path = key := by
  simp only [parse, hpl] at h
  split_ifs at h
  cases h
  exact String.ofList_toList

variable {listing : List String} {objects : List OrphanObject}

theorem discoverOrphanObjects_spec
    (hpl : ∀ key ∈ listing, isQuarantine key = false → trim key.toList = key.toList)
    (h : discoverOrphanObjects referenced listing = .ok objects) :
    ∀ o ∈ objects, Marked referenced o := by
  induction listing generalizing objects with
  | nil =>
    cases h
    simp
  | cons key listing ih =>
    obtain ⟨hk, hre⟩ := forall_mem_cons.1 hpl
    rw [discoverOrphanObjects] at h
    split_ifs at h with hq
    · exact ih hre h
    · rw [Bool.not_eq_true] at hq
      simp only [Except.bind_eq_ok_iff, Except.map_eq_ok_iff] at h
      obtain ⟨path, hp, tail, ht, rfl⟩ := h
      obtain rfl := path_of_parse (hk hq) hp
      exact forall_mem_cons.2 ⟨⟨hq, rfl⟩, ih hre ht⟩

theorem of_mem_planRecoveryActions (hb : ∀ o ∈ objects, Marked referenced o)
    {step : String × RecoveryAction} (hstep : step ∈ planRecoveryActions objects) :
    Allowed referenced step := by
  obtain ⟨o, ho, hm⟩ := mem_filterMap.1 hstep
  obtain ⟨action, ha, rfl⟩ := Option.map_eq_some_iff.1 hm
  obtain ⟨hq, hr⟩ := hb o ho
  have hfa : o.manifestReferenced = false := by
    by_contra htrue
    simp [classifyOrphanObject, htrue] at ha
  refine ⟨by simpa [hfa] using hr, hq, fun ht hf ↦ ?_⟩
  rw [hfa, show action = .deleteTemp from ht, hf] at ha
  cases ha

theorem plain_of_lists {store later : Store B}
    (hpl : ∀ key, (store key).isSome → below key → trim key.toList = key.toList)
    (hkp : Keeps referenced store later) (hls : Lists below later listing) :
    ∀ key ∈ listing, isQuarantine key = false → trim key.toList = key.toList := by
  intro key hk hq
  obtain ⟨hsome, he⟩ := (hls key).1 hk
  obtain ⟨b, hb⟩ := Option.isSome_iff_exists.1 hsome
  exact hpl key (Option.isSome_of_eq_some (hkp.old key b hq hb)) he

/-- **Recovery moves or deletes no referenced object, keeps the bytes of every final object at its
key or at a quarantine key, and never takes a quarantine copy for an orphan**, at every moment of
any number of runs. No stored key may begin or end in whitespace, which the path of an orphan
does not keep. -/
theorem recovery_keeps (referenced : List String) (below : String → Bool) {store later : Store B}
    (hpl : ∀ key, (store key).isSome → below key → trim key.toList = key.toList)
    (h : Recovers below referenced store later) :
    (∀ key ∈ referenced, ∀ b, store key = some b → later key = some b) ∧
    (∀ key b, IsFinal key → store key = some b →
      later key = some b ∨ ∃ uuid, later (quarantineKey key uuid) = some b) ∧
    ∀ listing objects, Lists below later listing →
      discoverOrphanObjects referenced listing = .ok objects →
      ∀ o ∈ objects, isQuarantine o.path = false := by
  have he : Keeps referenced store later := by
    induction h with
    | refl => exact .refl _
    | run uuids _ hls hb hmem ih =>
      have hspec := discoverOrphanObjects_spec (plain_of_lists hpl ih hls) hb
      exact ih.trans (keeps_of_mem_applyRecoveryPlan
        (fun _ ↦ of_mem_planRecoveryActions hspec) hmem)
  refine ⟨fun key hk b ↦ he.kept key b (.inl hk), he.moved, ?_⟩
  intro listing objects hls hb o ho
  exact (discoverOrphanObjects_spec (plain_of_lists hpl he hls) hb o ho).1

section Rerun

/-- A referenced object, a final object that nothing references, and a temporary one. -/
def leftovers : Store ℕ := fun key ↦
  if key = "t/a" then some 0 else if key = "t/b" then some 1 else if key = "t/c.tmp" then some 2
  else none

def leftoverPlan : List (String × RecoveryAction) :=
  [("t/b", .quarantineFinal), ("t/c.tmp", .deleteTemp)]

def copiedOnce : Store ℕ := update leftovers "t/b.quarantine.1" (some 1)

def recovered : Store ℕ :=
  update (update (update copiedOnce "t/b.quarantine.2" (some 1)) "t/b" none) "t/c.tmp" none

theorem trim_of_leftovers (key : String) (hsome : (leftovers key).isSome) :
    trim key.toList = key.toList := by
  have hk : key = "t/a" ∨ key = "t/b" ∨ key = "t/c.tmp" := by
    by_contra hne
    simp only [not_or] at hne
    simp [leftovers, hne] at hsome
  rcases hk with rfl | rfl | rfl <;> decide +kernel

theorem mem_listing_iff (key : String) :
    key ∈ ["t/a", "t/b", "t/c.tmp"] ↔ (leftovers key).isSome := by
  by_cases h₁ : key = "t/a" <;> by_cases h₂ : key = "t/b" <;> by_cases h₃ : key = "t/c.tmp" <;>
    simp [leftovers, h₁, h₂, h₃]

/-- The first run ends right after its copy, and a second one finishes the work. -/
theorem recovers_rerun : Recovers (fun _ ↦ true) ["t/a"] leftovers recovered := by
  have ho : discoverOrphanObjects ["t/a"] ["t/a", "t/b", "t/c.tmp"] =
      .ok [⟨"t/a", true⟩, ⟨"t/b", false⟩, ⟨"t/c.tmp", false⟩] := by decide +kernel
  have ho' : discoverOrphanObjects ["t/a"] ["t/b.quarantine.1", "t/a", "t/b", "t/c.tmp"] =
      .ok [⟨"t/a", true⟩, ⟨"t/b", false⟩, ⟨"t/c.tmp", false⟩] := by decide +kernel
  have hp : planRecoveryActions [⟨"t/a", true⟩, ⟨"t/b", false⟩, ⟨"t/c.tmp", false⟩] =
      leftoverPlan := by decide +kernel
  have hfree : copiedOnce (quarantineKey "t/b" "2") = none := by decide +kernel
  have hcrash : Recovers (fun _ ↦ true) ["t/a"] leftovers copiedOnce := by
    refine .run (fun _ ↦ "1") .refl (fun key ↦ ?_) ho ?_
    · rw [mem_listing_iff, and_iff_left rfl]
    · rw [hp]
      exact mem_cons_of_mem _ mem_cons_self
  refine .run (fun _ ↦ "2") hcrash (fun key ↦ ?_) ho' ?_
  · rw [mem_cons, mem_listing_iff, and_iff_left rfl, copiedOnce]
    by_cases h : key = "t/b.quarantine.1" <;> simp [h]
  · rw [hp, leftoverPlan, applyRecoveryPlan, hfree]
    simp [applyRecoveryPlan, recovered, copiedOnce, leftovers, quarantineKey]

theorem recovery_keeps_rerun : recovered "t/a" = some 0 ∧
    (recovered "t/b" = some 1 ∨ ∃ uuid, recovered (quarantineKey "t/b" uuid) = some 1) ∧
    recovered "t/b" = none ∧ recovered "t/c.tmp" = none := by
  obtain ⟨hr, hf, -⟩ := recovery_keeps ["t/a"] (fun _ ↦ true)
    (fun key h _ ↦ trim_of_leftovers key h) recovers_rerun
  exact ⟨hr "t/a" mem_cons_self 0 rfl, hf "t/b" 1 (by decide +kernel) rfl, by decide +kernel,
    by decide +kernel⟩

end Rerun

/-- A referenced object is moved when another key differs from its key in whitespace. -/
theorem recovery_moves_referenced : ∃ store later : Store ℕ,
    Recovers (fun _ ↦ true) ["t/a"] store later ∧ store "t/a" = some 0 ∧ later "t/a" = none := by
  have ho : discoverOrphanObjects ["t/a"] ["t/a", "t/a "] =
      .ok [⟨"t/a", true⟩, ⟨"t/a", false⟩] := by decide +kernel
  have hp : planRecoveryActions [⟨"t/a", true⟩, ⟨"t/a", false⟩] =
      [("t/a", .quarantineFinal)] := by decide +kernel
  let store : Store ℕ := fun key ↦
    if key = "t/a" then some 0 else if key = "t/a " then some 1 else none
  let copied := update store (quarantineKey "t/a" "") (some 0)
  refine ⟨store, update copied "t/a" none,
    .run (fun _ ↦ "") .refl (fun key ↦ ?_) ho ?_, if_pos rfl, update_self ..⟩
  · by_cases h₁ : key = "t/a" <;> by_cases h₂ : key = "t/a " <;> simp [store, h₁, h₂]
  · have hnone : store (quarantineKey "t/a" "") = none := by decide +kernel
    rw [hp]
    simp [applyRecoveryPlan, hnone, copied, show store "t/a" = some 0 from rfl]

end Koldstore.Recovery
