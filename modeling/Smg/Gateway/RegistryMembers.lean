import Smg.Gateway.RegistryIndexes

/-!
# What the registry says of its workers

The part of the registry that follows the workers whatever the counters do: the ids of the URLs, the
index by model with its aliases, and the ids by type and by connection mode.  Every call is one of
three changes or none (`Change`), so that an invariant of the registry is a statement about a worker
that enters, one that takes the place of another, and one that leaves.
-/

set_option autoImplicit false

namespace Smg.Gateway

variable {H : Type} {fleet : Fleet H} {placing : Placing}

/-! ## Ids by class -/

section Filed

variable {κ : Type} [DecidableEq κ] {t : Table κ (List Nat)} {workers : Table Nat H} {f : H → κ}

/-- How often an id belongs in the list of a class. -/
def placesOf (workers : Table Nat H) (f : H → κ) (k : κ) (id : Nat) : Nat :=
  match workers.lookup id with
  | some h => if f h = k then 1 else 0
  | none => 0

/-- Each id is once in the list of the class of its worker, and in no other. -/
def Filed (t : Table κ (List Nat)) (workers : Table Nat H) (f : H → κ) : Prop :=
  ∀ k id, (idsAt t k).count id = placesOf workers f k id

theorem count_pushId (k k' : κ) (id id' : Nat) :
    (idsAt (pushId t k id) k').count id' =
      (idsAt t k').count id' + if k' = k ∧ id' = id then 1 else 0 := by
  rw [idsAt, pushId]
  by_cases hk : k' = k
  · subst hk
    by_cases hid : id' = id
    · simp [hid]
    · have hne : ¬ id = id' := fun h => hid h.symm
      simp [hid, hne]
  · simp [hk, idsAt]

theorem count_retainOthers (k k' : κ) (id id' : Nat) :
    (idsAt (retainOthers t k id) k').count id' =
      if k' = k ∧ id' = id then 0 else (idsAt t k').count id' := by
  rw [retainOthers]
  split
  · rename_i ids hids
    rw [idsAt, Table.lookup_insert_if]
    by_cases hk : k' = k
    · subst hk
      by_cases hid : id' = id
      · subst hid
        simp only [if_true]
        exact List.count_eq_zero.mpr (by simp)
      · simp [hid, idsAt, hids]
    · simp [hk, idsAt]
  · rename_i hnone
    by_cases hk : k' = k
    · subst hk
      simp [idsAt, hnone]
    · simp [hk]

variable {id : Nat}

theorem Filed.enter (h : Filed t workers f) (hid : workers.lookup id = none) (w : H) :
    Filed (pushId t (f w) id) (workers.insert id w) f := by
  intro k id'
  rw [count_pushId, h k id', placesOf, placesOf]
  by_cases hid' : id' = id
  · subst hid'
    simp [hid, eq_comm]
  · simp [hid']

theorem Filed.leave (h : Filed t workers f) {w : H} (hid : workers.lookup id = some w) :
    Filed (retainOthers t (f w) id) (workers.erase id) f := by
  intro k id'
  rw [count_retainOthers, h k id', placesOf, placesOf, Table.lookup_erase_if]
  by_cases hid' : id' = id
  · subst hid'
    simp only [hid, and_true, if_true]
    split
    · rfl
    · rename_i hk
      rw [if_neg (Ne.symm hk)]
  · simp [hid']

theorem Filed.move (h : Filed t workers f) {old : H} (hid : workers.lookup id = some old)
    (new : H) : Filed (moveId t (f old) (f new) id) (workers.insert id new) f := by
  intro k id'
  rw [moveId]
  split
  · rename_i hf
    rw [h k id', placesOf, placesOf]
    by_cases hid' : id' = id
    · subst hid'
      simp [hid, hf]
    · simp [hid']
  · rename_i hf
    rw [count_pushId, count_retainOthers, h k id', placesOf, placesOf]
    by_cases hid' : id' = id
    · subst hid'
      by_cases hk : k = f old
      · subst hk
        simp [hf, Ne.symm hf]
      · simp [hid, eq_comm]
    · simp [hid']

end Filed

/-! ## Ids and URLs -/

/-- The worker object is registered under some id. -/
def RegisteredIn (workers : Table Nat H) (h : H) : Prop := ∃ id, workers.lookup id = some h

/-- Workers are found under their ids by their URLs, and nothing else is found. -/
structure Ids (fleet : Fleet H) (workers : Table Nat H) (urlToId : Table String Nat)
    (nextId : Nat) : Prop where
  id_of_worker : ∀ id h, workers.lookup id = some h →
    urlToId.lookup (fleet.worker h).url = some id
  worker_of_url : ∀ url id, urlToId.lookup url = some id →
    ∃ h, workers.lookup id = some h ∧ (fleet.worker h).url = url
  fresh : ∀ id h, workers.lookup id = some h → id < nextId

namespace Ids

variable {workers : Table Nat H} {urlToId : Table String Nat} {nextId id : Nat} {h : H} {i : Nat}

section

variable (hids : Ids fleet workers urlToId nextId)

include hids

/-- A worker object is registered under one id. -/
theorem id_unique {j : Nat} (hi : workers.lookup i = some h) (hj : workers.lookup j = some h) :
    i = j :=
  Option.some.inj ((hids.id_of_worker i h hi).symm.trans (hids.id_of_worker j h hj))

theorem byUrl : Indexes.ByUrl fleet (RegisteredIn workers) := by
  rintro x y ⟨i, hx⟩ ⟨j, hy⟩ hurl
  have hi := hids.id_of_worker i x hx
  rw [hurl, hids.id_of_worker j y hy] at hi
  rw [← Option.some.inj hi, hy] at hx
  exact (Option.some.inj hx).symm

theorem lookup_nextId : workers.lookup nextId = none := by
  rcases hl : workers.lookup nextId with _ | x
  · rfl
  · exact absurd (hids.fresh _ x hl) (lt_irrefl _)

theorem url_ne_of_new (hurl : urlToId.lookup (fleet.worker h).url = none) {x : H}
    (hx : RegisteredIn workers x) : (fleet.worker x).url ≠ (fleet.worker h).url := by
  obtain ⟨id, hid⟩ := hx
  intro heq
  have hfound := hids.id_of_worker id x hid
  rw [heq, hurl] at hfound
  cases hfound

theorem lookup_enter {x : H} : (workers.insert nextId h).lookup i = some x ↔
      workers.lookup i = some x ∨ i = nextId ∧ x = h := by
  rw [Table.lookup_insert_eq_some]
  refine or_congr_left (and_iff_right_of_imp ?_)
  rintro hx rfl
  rw [hids.lookup_nextId] at hx
  cases hx

theorem registeredIn_enter (x : H) :
    RegisteredIn (workers.insert nextId h) x ↔ RegisteredIn workers x ∨ x = h := by
  simp only [RegisteredIn, hids.lookup_enter, exists_or, exists_eq_left]

theorem enter (hurl : urlToId.lookup (fleet.worker h).url = none) :
    Ids fleet (workers.insert nextId h) (urlToId.insert (fleet.worker h).url nextId)
      (nextId + 1) := by
  refine ⟨fun id x hid => ?_, fun url id hid => ?_, fun id x hid => ?_⟩
  · rw [Table.lookup_insert_if]
    rcases hids.lookup_enter.mp hid with hold | ⟨rfl, rfl⟩
    · rw [if_neg (hids.url_ne_of_new hurl ⟨id, hold⟩)]
      exact hids.id_of_worker id x hold
    · rw [if_pos rfl]
  · rcases Table.lookup_insert_eq_some.mp hid with ⟨-, hid⟩ | ⟨rfl, rfl⟩
    · obtain ⟨x, hx, hxurl⟩ := hids.worker_of_url url id hid
      exact ⟨x, hids.lookup_enter.mpr (.inl hx), hxurl⟩
    · exact ⟨h, hids.lookup_enter.mpr (.inr ⟨rfl, rfl⟩), rfl⟩
  · rcases hids.lookup_enter.mp hid with hold | ⟨rfl, -⟩
    · exact Nat.lt_succ_of_lt (hids.fresh id x hold)
    · exact Nat.lt_succ_self _

end

theorem registeredIn_renew (hids : Ids fleet workers urlToId nextId)
    (hid : workers.lookup id = some h) (new x : H) :
    RegisteredIn (workers.insert id new) x ↔ RegisteredIn workers x ∧ x ≠ h ∨ x = new := by
  simp only [RegisteredIn, Table.lookup_insert_eq_some, exists_or, exists_eq_left,
    ← exists_and_right]
  refine or_congr_left (exists_congr fun i => and_comm.trans (and_congr_right fun hi => ?_))
  refine not_congr ⟨?_, ?_⟩
  · rintro rfl
    exact Option.some.inj (hi.symm.trans hid)
  · rintro rfl
    exact hids.id_unique hi hid

theorem renew (hids : Ids fleet workers urlToId nextId) (hid : workers.lookup id = some h)
    {new : H} (hsame : (fleet.worker h).url = (fleet.worker new).url) :
    Ids fleet (workers.insert id new) urlToId nextId := by
  refine ⟨fun i x hi => ?_, fun url i hi => ?_, fun i x hi => ?_⟩
  · rcases Table.lookup_insert_eq_some.mp hi with ⟨-, hx⟩ | ⟨rfl, rfl⟩
    · exact hids.id_of_worker i x hx
    · rw [← hsame]
      exact hids.id_of_worker i h hid
  · obtain ⟨x, hx, hxurl⟩ := hids.worker_of_url url i hi
    by_cases hne : i = id
    · subst hne
      obtain rfl := Option.some.inj (hx.symm.trans hid)
      exact ⟨new, Table.lookup_insert_eq_some.mpr (.inr ⟨rfl, rfl⟩), hsame ▸ hxurl⟩
    · exact ⟨x, Table.lookup_insert_eq_some.mpr (.inl ⟨hne, hx⟩), hxurl⟩
  · rcases Table.lookup_insert_eq_some.mp hi with ⟨-, hx⟩ | ⟨rfl, -⟩
    · exact hids.fresh i x hx
    · exact hids.fresh i h hid

theorem registeredIn_leave (hids : Ids fleet workers urlToId nextId)
    (hid : workers.lookup id = some h) (x : H) :
    RegisteredIn (workers.erase id) x ↔ RegisteredIn workers x ∧ x ≠ h := by
  simp only [RegisteredIn, Table.lookup_erase_eq_some]
  constructor
  · rintro ⟨i, hne, hi⟩
    refine ⟨⟨i, hi⟩, ?_⟩
    rintro rfl
    exact hne (hids.id_unique hi hid)
  · rintro ⟨⟨i, hi⟩, hne⟩
    refine ⟨i, ?_, hi⟩
    rintro rfl
    exact hne (Option.some.inj (hi.symm.trans hid))

theorem leave (hids : Ids fleet workers urlToId nextId) (hid : workers.lookup id = some h) :
    Ids fleet (workers.erase id) (urlToId.erase (fleet.worker h).url) nextId := by
  refine ⟨fun i x hi => ?_, fun url i hi => ?_, fun i x hi => ?_⟩
  · obtain ⟨hne, hx⟩ := Table.lookup_erase_eq_some.mp hi
    have hurl : (fleet.worker x).url ≠ (fleet.worker h).url := by
      intro heq
      obtain rfl := hids.byUrl x h ⟨i, hx⟩ ⟨id, hid⟩ heq
      exact hne (hids.id_unique hx hid)
    rw [Table.lookup_erase_if, if_neg hurl]
    exact hids.id_of_worker i x hx
  · obtain ⟨hurl, hi⟩ := Table.lookup_erase_eq_some.mp hi
    obtain ⟨x, hx, hxurl⟩ := hids.worker_of_url url i hi
    refine ⟨x, Table.lookup_erase_eq_some.mpr ⟨?_, hx⟩, hxurl⟩
    rintro rfl
    rw [← Option.some.inj (hx.symm.trans hid), hxurl] at hurl
    exact hurl rfl
  · exact hids.fresh i x (Table.lookup_erase_eq_some.mp hi).2

end Ids

namespace Registry

/-! ## The invariant -/

/-- The ids, the indexes and the lists are those of the registered workers. -/
structure Indexed (fleet : Fleet H) (s : Registry H) : Prop where
  ids : Ids fleet s.workers s.urlToId s.nextId
  agree : Indexes.Agree fleet s.indexes (RegisteredIn s.workers)
  types : Filed s.typeWorkers s.workers fun h => (fleet.worker h).workerType
  modes : Filed s.connectionWorkers s.workers fun h => (fleet.worker h).connectionMode

variable {s s' : Registry H}

theorem indexed_new : Indexed fleet (new fleet) where
  ids := ⟨nofun, nofun, nofun⟩
  agree := by
    refine ⟨⟨fun m => by simp [new], fun m => by simp [new, Indexes.listed], fun m h => ?_⟩,
      nofun⟩
    simp [new, Indexes.listed, RegisteredIn]
  types := fun k id => by simp [new, idsAt, placesOf]
  modes := fun k id => by simp [new, idsAt, placesOf]

section Changes

variable [DecidableEq H]

theorem Indexed.setWorkerOverloaded (hs : Indexed fleet s) (h : H) (b : Bool) :
    Indexed fleet (s.setWorkerOverloaded fleet h b) := by
  rw [Registry.setWorkerOverloaded]
  split_ifs
  · exact hs
  · exact hs
  · exact { hs with }

theorem workers_setWorkerOverloaded (s : Registry H) (h : H) (b : Bool) :
    (s.setWorkerOverloaded fleet h b).workers = s.workers := by
  rw [setWorkerOverloaded]
  split_ifs <;> rfl

/-- The registry with an id for a URL that has none. -/
def withNewId (s : Registry H) (url : String) : Registry H :=
  { s with urlToId := s.urlToId.insert url s.nextId, nextId := s.nextId + 1 }

/-- What a call may do to the workers. -/
inductive Change (fleet : Fleet H) (placing : Placing) (s : Registry H) :
    Call H → Registry H → Prop
  | keep (c : Call H) : Change fleet placing s c s
  /-- A worker with a new URL enters. -/
  | enter (c : Call H) (order : Shuffle String) (h : H) (origin : WorkerOrigin)
      (hurl : s.urlToId.lookup (fleet.worker h).url = none) :
      Change fleet placing s c
        ((s.withNewId (fleet.worker h).url).enter fleet placing order s.nextId h origin)
  /-- A worker takes the place of one with its URL. -/
  | renew (c : Call H) (order : Shuffle String) (id : Nat) (old new : H)
      (promote : Option WorkerOrigin) (hid : s.workers.lookup id = some old)
      (hsame : (fleet.worker old).url = (fleet.worker new).url) :
      Change fleet placing s c (s.renew fleet placing order id old new promote)
  | leave (order : Shuffle String) (id : Nat) (h : H) (hid : s.workers.lookup id = some h) :
      Change fleet placing s (.remove order id) (s.leave fleet placing order id h)

theorem Indexed.change (hs : Indexed fleet s) {c : Call H}
    (hchange : Change fleet placing s c s') : Indexed fleet s' := by
  rcases hchange with _ | ⟨_, order, h, origin, hurl⟩ |
    ⟨_, order, id, old, new, promote, hid, hsame⟩ | ⟨order, id, h, hid⟩
  · exact hs
  · exact
      { ids := hs.ids.enter hurl
        agree := (hs.agree.register order fun x hx => hs.ids.url_ne_of_new hurl hx).congr
          fun x => (hs.ids.registeredIn_enter x).symm
        types := hs.types.enter hs.ids.lookup_nextId h
        modes := hs.modes.enter hs.ids.lookup_nextId h }
  · rw [← workers_setWorkerOverloaded s old false] at hid
    replace hs := hs.setWorkerOverloaded old false
    exact
      { ids := hs.ids.renew hid hsame
        agree := (hs.agree.replace order hs.ids.byUrl ⟨id, hid⟩ hsame).congr
          fun x => (hs.ids.registeredIn_renew hid new x).symm
        types := hs.types.move hid new
        modes := hs.modes.move hid new }
  · rw [← workers_setWorkerOverloaded s h false] at hid
    replace hs := hs.setWorkerOverloaded h false
    exact
      { ids := hs.ids.leave hid
        agree := (hs.agree.remove order hs.ids.byUrl ⟨id, hid⟩).congr
          fun x => (hs.ids.registeredIn_leave hid x).symm
        types := hs.types.leave hid
        modes := hs.modes.leave hid }

/-! ## Calls -/

def Call.changes : Call H → Bool
  | .register _ _ => true
  | .registerOrReplace _ _ => true
  | .replace _ _ _ => true
  | .replaceClaimingLocal _ _ _ _ => true
  | .remove _ _ => true
  | .setWorkerOverloaded _ _ => false
  | .getRoutingWorkers _ => false

omit [DecidableEq H] in
/-- A registration enters a worker whose URL has no id, and does nothing otherwise. -/
theorem Indexed.registerInner_eq (hs : Indexed fleet s) (order : Shuffle String) (h : H)
    (origin : WorkerOrigin) :
    s.registerInner fleet placing order h origin =
      match s.urlToId.lookup (fleet.worker h).url with
      | some _ => (s, none)
      | none =>
        ((s.withNewId (fleet.worker h).url).enter fleet placing order s.nextId h origin,
          some s.nextId) := by
  rw [registerInner, resolveId]
  rcases hurl : s.urlToId.lookup (fleet.worker h).url with _ | id
  · simp [hs.ids.lookup_nextId, withNewId]
  · obtain ⟨x, hx, -⟩ := hs.ids.worker_of_url _ id hurl
    simp [hx]

theorem Indexed.change_registerInner (hs : Indexed fleet s) (c : Call H) (order : Shuffle String)
    (h : H) (origin : WorkerOrigin) :
    Change fleet placing s c (s.registerInner fleet placing order h origin).1 := by
  rw [hs.registerInner_eq]
  split
  · exact .keep c
  · rename_i hurl
    exact .enter c order h origin hurl

theorem change_replaceInner (s : Registry H) (c : Call H) (order : Shuffle String) (id : Nat)
    (new : H) (promote : Option WorkerOrigin) (expected : Option Nat) :
    Change fleet placing s c
      (s.replaceInner fleet placing order id new promote expected).1 := by
  rw [replaceInner]
  split
  · exact .keep c
  · rename_i old hold
    split_ifs with hrevision hurl
    · exact .keep c
    · exact .keep c
    · exact .renew c order id old new promote hold (not_not.mp hurl)

theorem change_removeInner (s : Registry H) (order : Shuffle String) (id : Nat)
    (expect : Option WorkerOrigin) :
    Change fleet placing s (.remove order id)
      (s.removeInner fleet placing order id expect).1 := by
  rw [removeInner]
  split_ifs
  · exact .keep _
  · split
    · exact .keep _
    · rename_i h hid
      exact .leave order id h hid

theorem Indexed.registerOrReplace_eq (hs : Indexed fleet s) (order : Shuffle String) (h : H) :
    (s.registerOrReplace fleet placing order h).1 =
      match s.urlToId.lookup (fleet.worker h).url with
      | some id => (s.replaceInner fleet placing order id h (some .localNode) none).1
      | none => (s.register fleet placing order h).1 := by
  rw [registerOrReplace, register, hs.registerInner_eq]
  split
  · rename_i hreg
    split at hreg
    · exact absurd (congrArg Prod.snd hreg) (by simp)
    · exact (congrArg Prod.fst hreg).symm
  · rename_i hreg
    split at hreg
    · rename_i id hid
      obtain rfl : s = _ := congrArg Prod.fst hreg
      simp [hid]
    · exact absurd (congrArg Prod.snd hreg) (by simp)

/-- **A call changes the workers in one of three ways, or not at all.** -/
theorem Indexed.exec_change (hs : Indexed fleet s) {c : Call H} (hc : c.changes) :
    Change fleet placing s c (s.exec fleet placing c) := by
  rcases c with ⟨order, h⟩ | ⟨order, h⟩ | ⟨order, id, h⟩ | ⟨order, id, h, expected⟩ | ⟨order, id⟩ |
    ⟨h, b⟩ | ⟨order⟩
  · exact hs.change_registerInner _ order h _
  · rw [exec, hs.registerOrReplace_eq]
    split
    · exact change_replaceInner s _ order _ h _ _
    · exact hs.change_registerInner _ order h _
  · exact change_replaceInner s _ order id h _ _
  · exact change_replaceInner s _ order id h _ _
  · exact change_removeInner s order id none
  · exact absurd hc (by simp [Call.changes])
  · exact absurd hc (by simp [Call.changes])

theorem Indexed.exec (hs : Indexed fleet s) (c : Call H) :
    Indexed fleet (s.exec fleet placing c) := by
  by_cases hc : c.changes
  · exact hs.change (hs.exec_change hc)
  · rcases c with _ | _ | _ | _ | _ | ⟨h, b⟩ | ⟨order⟩
    any_goals exact absurd rfl hc
    · exact hs.setWorkerOverloaded h b
    · rw [Registry.exec, currentGlobalRoutingSnapshot]
      split_ifs
      · exact hs
      · exact { hs with }

end Changes

end Registry

end Smg.Gateway
