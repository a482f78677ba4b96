import Koldstore.Merge.PrimaryKey

/-!
# Keys of leases, candidacies and acknowledgements

Nodes coordinate through small objects on the storage they share.
-/

namespace Koldstore.TableKeys

open List

abbrev Key := List Char

abbrev Body := List UInt8

/-! ### Storage -/

abbrev Store := List (Key × Body)

namespace Store

variable (store : Store) (key : Key)

def get : Option Body := (store.find? fun o ↦ decide (o.1 = key)).map (·.2)

def put (body : Body) : Store := if store.any fun o ↦ decide (o.1 = key) then
    store.map fun o ↦ if o.1 = key then (key, body) else o
  else store ++ [(key, body)]

def create (body : Body) : Store :=
  if store.any fun o ↦ decide (o.1 = key) then store else store ++ [(key, body)]

def delete : Store := store.filter fun o ↦ decide (o.1 ≠ key)

def list (start : Key) : Store := store.filter fun o ↦ start.isPrefixOf o.1

end Store

/-! ### Keys -/

inductive Root
  | lease
  | candidates
  | acks
  | seen
  deriving DecidableEq, Repr

def Root.text : Root → Key
  | .lease => "_leader_lease/".toList
  | .candidates => "_leader_candidates/".toList
  | .acks => "_follower_acks/".toList
  | .seen => "_follower_seen/".toList

structure Table where
  nspname : Key
  relname : Key
  deriving DecidableEq, Repr

namespace Table

variable (t : Table)

def path : Key := t.nspname ++ '/' :: (t.relname ++ ['/'])

def start (root : Root) : Key := root.text ++ t.path

def leasePrefix : Key := t.start .lease

def candidatePrefix : Key := t.start .candidates

def ackPrefix : Key := t.start .acks

def seenPrefix : Key := t.start .seen

end Table

def jsonSuffix : Key := ".json".toList

def epochText : ℤ → Key
  | .ofNat n => (toString n).toList.leftpad 20 '0'
  | .negSucc n => '-' :: (toString (n + 1)).toList.leftpad 19 '0'

def epochKey (start : Key) (epoch : ℤ) : Key := start ++ (epochText epoch ++ jsonSuffix)

def nodeKey (start : Key) (node : ℕ) : Key := start ++ ((toString node).toList ++ jsonSuffix)

/-- `seen_key`, for the node that an acknowledgement names. -/
def seenKey (t : Table) (node : Key) : Key := t.seenPrefix ++ (node ++ jsonSuffix)

/-- A part that `Path::parse` takes. -/
def validSegment (segment : Key) : Bool :=
  decide (segment ≠ []) && decide (segment ≠ ".".toList) && decide (segment ≠ "..".toList) &&
    segment.all fun c ↦ decide (31 < c.toNat ∧ c.toNat ≠ 127)

def Table.storable (t : Table) : Bool :=
  ((t.nspname ++ '/' :: t.relname).splitOn '/').all validSegment

/-! ### Operations -/

inductive Op
  | claim (epoch : ℤ) (body : Body)
  | renew (epoch : ℤ) (body : Body)
  | publishCandidacy (node : ℕ) (body : Body)
  | withdrawCandidacy (node : ℕ)
  | recordAck (node : ℕ) (body : Body)
  | forgetAck (node : ℕ)
  | observe (node : Key) (body : Body)
  | forgetSeen (node : ℕ)
  | sweep (listed : Key)

inductive Change
  | put (body : Body)
  | create (body : Body)
  | delete

def Change.apply (change : Change) (key : Key) (store : Store) : Store :=
  match change with
  | .put body => store.put key body
  | .create body => store.create key body
  | .delete => store.delete key

namespace Table

def target (t : Table) : Op → Option (Key × Change)
  | .claim epoch body => some (epochKey t.leasePrefix epoch, .create body)
  | .renew epoch body => some (epochKey t.leasePrefix epoch, .put body)
  | .publishCandidacy node body => some (nodeKey t.candidatePrefix node, .put body)
  | .withdrawCandidacy node => some (nodeKey t.candidatePrefix node, .delete)
  | .recordAck node body => some (nodeKey t.ackPrefix node, .put body)
  | .forgetAck node => some (nodeKey t.ackPrefix node, .delete)
  | .observe node body => some (seenKey t node, .put body)
  | .forgetSeen node => some (nodeKey t.seenPrefix node, .delete)
  | .sweep listed =>
    if t.seenPrefix <+: listed ∧ jsonSuffix <:+ listed then some (listed, .delete) else none

def apply (t : Table) (op : Op) (store : Store) : Store := if t.storable then
    match t.target op with
    | some (key, change) => change.apply key store
    | none => store
  else store

/-! ### What nodes read -/

def epochOf (key : Key) : Option ℤ := do
  let last ← (key.splitOn '/').getLast?
  if jsonSuffix <:+ last then
    (PrimaryKey.parseInt (-2 ^ 63) (2 ^ 63 - 1)
      (String.ofList (last.take (last.length - 5)))).toOption
  else none

def later (a b : ℤ × Key) : ℤ × Key := if a.1 < b.1 ∨ (a.1 = b.1 ∧ ¬b.2 < a.2) then b else a

/-- `current`: the object of the highest epoch. The lease is what its bytes say. -/
def current (t : Table) (store : Store) : Option Body :=
  let epochs := (store.list t.leasePrefix).filterMap fun o ↦ (epochOf o.1).map (·, o.1)
  match epochs with
  | [] => none
  | first :: rest => store.get (rest.foldl later first).2

structure Reads where
  lease : Option Body
  candidates : Store
  acks : Store
  seen : Key → Option Body

def reads (t : Table) (store : Store) : Option Reads := if t.storable then
    some ⟨t.current store, store.list t.candidatePrefix, store.list t.ackPrefix,
      fun node ↦ store.get (seenKey t node)⟩
  else none

end Table

def exec (t t' : Table) (run : List (Bool × Op)) (store : Store) : Store :=
  run.foldl (fun store request ↦ (if request.1 then t else t').apply request.2 store) store

def Isolated (t t' : Table) : Prop := ∀ store run,
    t.reads (exec t t' run store) = t.reads (exec t t' (run.filter (·.1)) store) ∧
      t'.reads (exec t t' run store) = t'.reads (exec t t' (run.filter (!·.1)) store)

/-! ### Regions -/

def Store.restrict (p : Key → Bool) (store : Store) : Store := store.filter fun o ↦ p o.1

section Restrict

variable {p : Key → Bool} {key : Key} {store : Store}

theorem any_restrict (hp : p key = true) : (store.restrict p).any (fun o ↦ decide (o.1 = key)) =
      store.any fun o ↦ decide (o.1 = key) := by
  rw [Store.restrict, any_filter]
  congr 1
  funext o
  by_cases h : o.1 = key
  · rw [h, hp, Bool.true_and]
  · rw [decide_eq_false h, Bool.and_false]

def replaced (key : Key) (body : Body) (o : Key × Body) : Key × Body :=
  if o.1 = key then (key, body) else o

theorem replaced_fst (key : Key) (body : Body) (o : Key × Body) :
    (replaced key body o).1 = o.1 := by
  rw [replaced]
  split
  next h => exact h.symm
  next => rfl

theorem restrict_replaced (body : Body) : Store.restrict p (store.map (replaced key body)) =
      (store.restrict p).map (replaced key body) := by
  rw [Store.restrict, filter_map]
  refine congrArg (List.map _) (filter_congr fun o _ ↦ ?_)
  rw [Function.comp_apply, replaced_fst]

theorem restrict_apply_of_not (hp : p key = false) (change : Change) :
    (change.apply key store).restrict p = store.restrict p := by
  have hne {o : Key × Body} (ho : p o.1 = true) : o.1 ≠ key := by
    rintro h
    rw [h, hp] at ho
    cases ho
  have ha (body : Body) : Store.restrict p (store ++ [(key, body)]) = store.restrict p := by
    rw [Store.restrict, filter_append]
    simp [Store.restrict, hp]
  cases change with
  | put body =>
    rw [Change.apply, Store.put]
    split
    · refine (restrict_replaced body).trans ?_
      refine (map_congr_left fun o ho ↦ ?_).trans (map_id _)
      exact if_neg (hne (mem_filter.1 ho).2)
    · exact ha body
  | create body =>
    rw [Change.apply, Store.create]
    split
    · rfl
    · exact ha body
  | delete =>
    rw [Change.apply, Store.delete, Store.restrict, filter_filter]
    refine filter_congr fun o _ ↦ ?_
    by_cases ho : p o.1 = true
    · rw [ho, decide_eq_true (hne ho)]
      rfl
    · rw [Bool.eq_false_iff.2 ho]
      rfl

theorem restrict_apply (hp : p key = true) (change : Change) :
    (change.apply key store).restrict p = change.apply key (store.restrict p) := by
  have ha (body : Body) :
      Store.restrict p (store ++ [(key, body)]) = store.restrict p ++ [(key, body)] := by
    rw [Store.restrict, filter_append]
    simp [Store.restrict, hp]
  cases change with
  | put body =>
    rw [Change.apply, Change.apply, Store.put, Store.put, any_restrict hp]
    split
    · exact restrict_replaced body
    · exact ha body
  | create body =>
    rw [Change.apply, Change.apply, Store.create, Store.create, any_restrict hp]
    split
    · rfl
    · exact ha body
  | delete =>
    rw [Change.apply, Change.apply, Store.delete, Store.delete, Store.restrict, Store.restrict,
      filter_filter, filter_filter]
    exact filter_congr fun o _ ↦ Bool.and_comm _ _

theorem get_restrict (hp : p key = true) : (store.restrict p).get key = store.get key := by
  rw [Store.get, Store.get, Store.restrict, find?_filter]
  congr 2
  funext o
  by_cases h : o.1 = key
  · simp [h, hp]
  · simp [h]

theorem list_restrict {start : Key} (hp : ∀ key, start <+: key → p key = true) :
    (store.restrict p).list start = store.list start := by
  rw [Store.list, Store.list, Store.restrict, filter_filter]
  refine filter_congr fun o _ ↦ ?_
  by_cases h : start.isPrefixOf o.1 = true
  · have hk : start <+: o.1 := isPrefixOf_iff_prefix.1 h
    rw [h, hp o.1 hk]
    rfl
  · rw [Bool.eq_false_iff.2 h, Bool.false_and]

end Restrict

def Table.Owns (t : Table) (key : Key) : Prop := ∃ root, t.start root <+: key

instance (t : Table) (key : Key) : Decidable (t.Owns key) :=
  decidable_of_iff (t.start .lease <+: key ∨ t.start .candidates <+: key ∨ t.start .acks <+: key ∨
    t.start .seen <+: key) <| by
    constructor
    · rintro (h | h | h | h)
      exacts [⟨_, h⟩, ⟨_, h⟩, ⟨_, h⟩, ⟨_, h⟩]
    · rintro ⟨root, h⟩
      cases root
      exacts [.inl h, .inr (.inl h), .inr (.inr (.inl h)), .inr (.inr (.inr h))]

theorem Root.eq_of_text_prefix {root root' : Root} (h : root.text <+: root'.text) :
    root = root' := by
  revert h
  cases root <;> cases root' <;> decide

theorem Table.not_owns {t t' : Table} (hl : ¬t.path <+: t'.path) (hr : ¬t'.path <+: t.path)
    {key : Key} (h : t'.Owns key) : ¬t.Owns key := by
  rintro ⟨root, hrt⟩
  obtain ⟨root', hrt'⟩ := h
  have hsm : root = root' := by
    have htx := (prefix_append root.text t.path).trans hrt
    have htx' := (prefix_append root'.text t'.path).trans hrt'
    rcases prefix_or_prefix_of_prefix htx htx' with h | h
    · exact Root.eq_of_text_prefix h
    · exact (Root.eq_of_text_prefix h).symm
  subst hsm
  rcases prefix_or_prefix_of_prefix hrt hrt' with h | h
  · exact hl ((prefix_append_right_inj _).1 h)
  · exact hr ((prefix_append_right_inj _).1 h)

theorem Table.owns_target {t : Table} {op : Op} {key : Key} {change : Change}
    (h : t.target op = some (key, change)) : t.Owns key := by
  cases op with
  | sweep listed =>
    rw [Table.target] at h
    split at h <;> cases h
    next hl => exact ⟨.seen, hl.1⟩
  | claim epoch body | renew epoch body => cases h; exact ⟨.lease, prefix_append _ _⟩
  | publishCandidacy node body | withdrawCandidacy node =>
    cases h; exact ⟨.candidates, prefix_append _ _⟩
  | recordAck node body | forgetAck node => cases h; exact ⟨.acks, prefix_append _ _⟩
  | observe node body | forgetSeen node => cases h; exact ⟨.seen, prefix_append _ _⟩

/-! ### Isolation -/

def Table.part (t : Table) (store : Store) : Store := store.restrict fun key ↦ decide (t.Owns key)

namespace Table

variable {t t' : Table}

theorem part_apply_self (op : Op) (store : Store) :
    t.part (t.apply op store) = t.apply op (t.part store) := by
  rw [apply, apply]
  split
  · rcases ht : t.target op with _ | ⟨key, change⟩
    · rfl
    · exact restrict_apply (decide_eq_true (owns_target ht)) change
  · rfl

theorem part_apply_other (hn : t'.storable = true → ∀ key, t'.Owns key → ¬t.Owns key) (op : Op)
    (store : Store) : t.part (t'.apply op store) = t.part store := by
  rw [apply]
  split
  next hsr =>
    rcases ht : t'.target op with _ | ⟨key, change⟩
    · rfl
    · refine restrict_apply_of_not (decide_eq_false ?_) change
      exact hn hsr key (owns_target ht)
  next => rfl

theorem foldl_later_mem (first : ℤ × Key) (rest : List (ℤ × Key)) :
    rest.foldl later first ∈ first :: rest := by
  induction rest generalizing first with
  | nil => exact mem_cons_self
  | cons b rest ih =>
    rw [foldl_cons]
    rcases mem_cons.1 (ih (later first b)) with h | h
    · rw [h, later]
      split
      · exact mem_cons_of_mem _ mem_cons_self
      · exact mem_cons_self
    · exact mem_cons_of_mem _ (mem_cons_of_mem _ h)

theorem get_part {store : Store} {key : Key} (h : t.Owns key) :
    (t.part store).get key = store.get key := get_restrict (decide_eq_true h)

theorem list_part (store : Store) (root : Root) :
    (t.part store).list (t.start root) = store.list (t.start root) :=
  list_restrict fun _ h ↦ decide_eq_true ⟨root, h⟩

theorem current_part (store : Store) : t.current (t.part store) = t.current store := by
  simp only [current, leasePrefix, list_part]
  split
  next => rfl
  next first rest he =>
    refine get_part ⟨.lease, ?_⟩
    have hmem := foldl_later_mem first rest
    rw [← he] at hmem
    obtain ⟨o, ho, hk⟩ := mem_filterMap.1 hmem
    obtain ⟨epoch, -, hpr⟩ := Option.map_eq_some_iff.1 hk
    rw [← hpr]
    exact isPrefixOf_iff_prefix.1 (mem_filter.1 ho).2

theorem reads_part (store : Store) : t.reads (t.part store) = t.reads store := by
  have hsn (node : Key) : (t.part store).get (seenKey t node) = store.get (seenKey t node) :=
    get_part ⟨.seen, prefix_append _ _⟩
  simp only [reads, current_part, candidatePrefix, ackPrefix, list_part, hsn]

/-- **The frame rule.** -/
theorem reads_exec (tables : Bool → Table) (mine : Bool) (hm : tables mine = t)
    (hn : ∀ b, b ≠ mine → (tables b).storable = true → ∀ key, (tables b).Owns key → ¬t.Owns key)
    (run : List (Bool × Op)) (store : Store) :
    t.reads (run.foldl (fun store request ↦ (tables request.1).apply request.2 store) store) =
      t.reads ((run.filter fun request ↦ decide (request.1 = mine)).foldl
        (fun store request ↦ (tables request.1).apply request.2 store) store) := by
  -- both runs leave the same part behind
  have hp (run : List (Bool × Op)) (store : Store) :
      t.part (run.foldl (fun store request ↦ (tables request.1).apply request.2 store) store) =
        (run.filter fun request ↦ decide (request.1 = mine)).foldl
          (fun store request ↦ t.apply request.2 store) (t.part store) := by
    rw [foldl_filter]
    refine (foldl_hom t.part fun store request ↦ ?_).symm
    by_cases hs : request.1 = mine
    · rw [if_pos (decide_eq_true hs), hs, hm, part_apply_self]
    · rw [if_neg (by simpa using hs), part_apply_other (hn request.1 hs)]
  rw [← reads_part, hp, ← reads_part (List.foldl _ store (List.filter _ run)), hp, filter_filter]
  simp only [Bool.and_self]

end Table

def Apart (t t' : Table) : Prop :=
  ¬(t.storable = true ∧ t'.storable = true ∧ (t.path <+: t'.path ∨ t'.path <+: t.path))

instance (t t' : Table) : Decidable (Apart t t') := inferInstanceAs (Decidable (¬_))

section Iff

variable {t t' : Table}

theorem Apart.symm (h : Apart t t') : Apart t' t := fun hn ↦ h ⟨hn.2.1, hn.1, hn.2.2.symm⟩

theorem Apart.not_owns (h : Apart t t') (hsr : t.storable = true)
    (hsr' : t'.storable = true) {key : Key} (ho : t'.Owns key) : ¬t.Owns key :=
  Table.not_owns (fun hpt ↦ h ⟨hsr, hsr', .inl hpt⟩)
    (fun hpt ↦ h ⟨hsr, hsr', .inr hpt⟩) ho

theorem Apart.reads_exec (h : Apart t t') (tables : Bool → Table) (mine : Bool)
    (hm : tables mine = t) (ho : tables (!mine) = t') (run : List (Bool × Op)) (store : Store) :
    t.reads (run.foldl (fun store request ↦ (tables request.1).apply request.2 store) store) =
      t.reads ((run.filter fun request ↦ decide (request.1 = mine)).foldl
        (fun store request ↦ (tables request.1).apply request.2 store) store) := by
  by_cases hsr : t.storable = true
  · refine Table.reads_exec tables mine hm (fun b hb hsr' key hw ↦ ?_) run store
    rw [Bool.eq_not_of_ne hb, ho] at hsr' hw
    exact h.not_owns hsr hsr' hw
  · rw [Table.reads, Table.reads, if_neg hsr, if_neg hsr]

theorem isolated_of_apart (h : Apart t t') : Isolated t t' := by
  intro store run
  constructor
  · have hrd := h.reads_exec (fun b ↦ if b then t else t') true rfl rfl run store
    simpa only [exec, Bool.decide_eq_true] using hrd
  · have hrd := h.symm.reads_exec (fun b ↦ if b then t else t') false rfl rfl run store
    simpa only [exec, Bool.decide_eq_false] using hrd

def acknowledgement : Op := .recordAck 0 []

theorem reads_acknowledgement (hsr : t.storable = true) (hsr' : t'.storable = true)
    (hpt : t.path <+: t'.path) : t.reads (t'.apply acknowledgement []) ≠ t.reads [] := by
  intro h
  have hl : t.ackPrefix.isPrefixOf (nodeKey t'.ackPrefix 0) = true := by
    refine isPrefixOf_iff_prefix.2 (List.IsPrefix.trans ?_ (prefix_append _ _))
    exact (prefix_append_right_inj _).2 hpt
  have ha := congrArg (Option.map (·.acks)) h
  simp [Table.reads, hsr, Table.apply, hsr', acknowledgement, Table.target,
    Change.apply, Store.put, Store.list, hl] at ha

theorem apart_of_isolated (h : Isolated t t') : Apart t t' := by
  rintro ⟨hsr, hsr', hpt | hpt⟩
  · exact reads_acknowledgement hsr hsr' hpt (h [] [(false, acknowledgement)]).1
  · exact reads_acknowledgement hsr' hsr hpt (h [] [(true, acknowledgement)]).2

end Iff

/-- **Tables are isolated if and only if their paths are apart.** -/
theorem isolated_iff (t t' : Table) : Isolated t t' ↔ Apart t t' :=
  ⟨apart_of_isolated, isolated_of_apart⟩

def slashInName : Table := ⟨"a".toList, "b/c".toList⟩

def slashInSchema : Table := ⟨"a/b".toList, "c".toList⟩

/-- **One table's lease is read as another's.** The two have the same keys. -/
theorem slash_reads_foreign_lease : slashInName ≠ slashInSchema ∧
    slashInName.current (exec slashInName slashInSchema [(false, .claim 1 [7])] []) = some [7] ∧
      slashInName.current (exec slashInName slashInSchema [] []) = none ∧
      ¬Isolated slashInName slashInSchema := by
  refine ⟨by decide, by decide +kernel, by decide +kernel, fun h ↦ ?_⟩
  exact absurd (apart_of_isolated h) (by decide +kernel)

end Koldstore.TableKeys
