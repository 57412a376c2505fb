import Smg.Gateway.RegistryCoherence
import Smg.Lib.Interleave

/-!
# Registry calls that run at the same time

A registration resolves its URL to an id, a new one where the URL has none, and only then looks up
the lock of that id and takes it; replacements and removals know the id.  The body of a call runs
under the lock, and a removal takes the URL and the lock's own entry away with the worker.

Between the resolution and the body another call can register the worker of the URL, and a third
remove it: the first then enters its worker under an id that no URL leads to
(`registered_without_url`).  Where a removal waits for the registrations that have resolved its id,
and `register_or_replace` clears a URL only while it has no id, every worker is found by its URL
(`found_by_url`).
-/

set_option autoImplicit false

namespace Smg.Gateway
namespace RegistryRace

open Interleave Registry

variable {H : Type} (fleet : Fleet H) (placing : Placing)

/-- What the calls share: the registry, and the lock of each id that has one. -/
structure Shared (H : Type) where
  registry : Registry H
  workerMutationLocks : Table Nat Nat
  nextLock : Nat

/-- What a call does under the lock. -/
inductive Body (H : Type)
  /-- `register_inner`; where the id has a worker, a call of `register_or_replace` goes on. -/
  | register (h : H) (orReplace : Bool)
  /-- `replace_inner`. -/
  | replace (h : H) (promoteOrigin : Option WorkerOrigin)
  /-- `remove_inner`. -/
  | remove
deriving DecidableEq

/-- Where a call is. -/
inductive Stage (H : Type)
  /-- About to resolve the URL of a registration. -/
  | resolve (h : H) (orReplace : Bool)
  /-- About to look up the lock of an id. -/
  | lookup (id : Nat) (body : Body H)
  | locked (lock id : Nat) (body : Body H)
  /-- `register_or_replace` found a worker and asks for the id of the URL. -/
  | existing (h : H)
  /-- It found none and is about to clear the URL. -/
  | clear (h : H)
  | done
deriving DecidableEq

inductive Call (H : Type)
  | register (h : H)
  | registerOrReplace (h : H)
  | replace (id : Nat) (h : H)
  | remove (id : Nat)

def Call.start : Call H → Stage H
  | .register h => .resolve h false
  | .registerOrReplace h => .resolve h true
  | .replace id h => .lookup id (.replace h none)
  | .remove id => .lookup id .remove

def runBody [DecidableEq H] (order : Shuffle String) (s : Shared H) (id : Nat) :
    Body H → Shared H × Stage H
  | .register h orReplace =>
    if (s.registry.workers.lookup id).isSome then (s, if orReplace then .existing h else .done)
    else
      ({ s with registry := s.registry.enter fleet placing order id h .localNode }, .done)
  | .replace h promote =>
    ({ s with
        registry := (s.registry.replaceInner fleet placing order id h promote none).1 },
      .done)
  | .remove =>
    match s.registry.removeInner fleet placing order id none with
    | (_, none) => (s, .done)
    | (registry, some _) =>
      ({ s with
          registry := registry
          workerMutationLocks := s.workerMutationLocks.erase id },
        .done)

def next [DecidableEq H] (s : Shared H) (p : Stage H) (order : Shuffle String) :
    Shared H × Stage H :=
  match p with
  | .resolve h orReplace =>
    let (registry, id) := s.registry.resolveId (fleet.worker h).url
    ({ s with registry := registry }, .lookup id (.register h orReplace))
  | .lookup id body =>
    match s.workerMutationLocks.lookup id with
    | some lock => (s, .locked lock id body)
    | none =>
      ({ s with
          workerMutationLocks := s.workerMutationLocks.insert id s.nextLock
          nextLock := s.nextLock + 1 },
        .locked s.nextLock id body)
  | .locked _ id body => runBody fleet placing order s id body
  | .existing h =>
    match s.registry.urlToId.lookup (fleet.worker h).url with
    | some id => (s, .lookup id (.replace h (some .localNode)))
    | none => (s, .clear h)
  | .clear h =>
    ({ s with
        registry := { s.registry with
          urlToId := s.registry.urlToId.erase (fleet.worker h).url } },
      .resolve h false)
  | .done => (s, .done)

def system [DecidableEq H] : Program (Shared H) (Stage H) (Shuffle String) (Call H) :=
  ⟨Call.start, next fleet placing⟩

def init : Net (Shared H) (Stage H) := ⟨⟨.new fleet, ∅, 0⟩, []⟩

/-- A registration that has resolved its URL to the id and not yet run. -/
def Stage.Awaits (id : Nat) : Stage H → Prop
  | .lookup i (.register _ _) | .locked _ i (.register _ _) => i = id
  | _ => False

instance (id : Nat) (p : Stage H) : Decidable (p.Awaits id) := by
  unfold Stage.Awaits
  split <;> infer_instance

/-- A removal that finds a worker runs while no registration awaits its id, and a URL is cleared
while it has no id. -/
def Orderly (n : Net (Shared H) (Stage H)) : Interleave.Act (Shuffle String) (Call H) → Prop
  | .call _ => True
  | .step i _ =>
    match n.procs[i]? with
    | some (.locked _ id .remove) =>
      n.shared.registry.workers.lookup id = none ∨ ∀ q ∈ n.procs, ¬ q.Awaits id
    | some (.clear h) => n.shared.registry.urlToId.lookup (fleet.worker h).url = none
    | _ => True

/-! ## What every step keeps -/

/-- What the tables keep. -/
structure Good (workers : Table Nat H) (urlToId : Table String Nat) (nextId : Nat) : Prop where
  found : ∀ id h, workers.lookup id = some h → urlToId.lookup (fleet.worker h).url = some id
  apart : ∀ u v id, urlToId.lookup u = some id → urlToId.lookup v = some id → u = v
  fresh : ∀ u id, urlToId.lookup u = some id → id < nextId

/-- What a registration knows: its URL has the id it resolved it to. -/
def Sound (urlToId : Table String Nat) : Stage H → Prop
  | .lookup id (.register h _) | .locked _ id (.register h _) =>
    urlToId.lookup (fleet.worker h).url = some id
  | _ => True

variable {fleet placing} {workers : Table Nat H} {urlToId urlToId' : Table String Nat}
  {nextId : Nat}

theorem Sound.of_lookup {p : Stage H} (hp : Sound fleet urlToId p)
    (h : ∀ u id, urlToId.lookup u = some id → p.Awaits id → urlToId'.lookup u = some id) :
    Sound fleet urlToId' p := by
  rcases p with _ | ⟨id, _ | _ | _⟩ | ⟨lock, id, _ | _ | _⟩ | _ | _ | _
  all_goals first | trivial | exact h _ _ hp rfl

/-- A new URL gets a new id. -/
theorem Good.insert (hg : Good fleet workers urlToId nextId) {url : String}
    (hurl : urlToId.lookup url = none) :
    Good fleet workers (urlToId.insert url nextId) (nextId + 1) := by
  have hold : ∀ u id, (urlToId.insert url nextId).lookup u = some id →
      urlToId.lookup u = some id ∨ u = url ∧ id = nextId :=
    fun u id h => (Table.lookup_insert_eq_some.mp h).imp_left And.right
  refine ⟨fun id h hid => ?_, fun u v id hu hv => ?_, fun u id hu => ?_⟩
  · have hfound := hg.found id h hid
    rw [Table.lookup_insert_if, if_neg]
    · exact hfound
    · rintro rfl
      simp [hurl] at hfound
  · rcases hold u id hu with hu' | ⟨rfl, rfl⟩ <;> rcases hold v _ hv with hv' | ⟨rfl, hid⟩
    · exact hg.apart u v id hu' hv'
    · exact absurd (hid ▸ hg.fresh u id hu') (lt_irrefl _)
    · exact absurd (hg.fresh v _ hv') (lt_irrefl _)
    · rfl
  · rcases hold u id hu with hu | ⟨-, rfl⟩
    · exact Nat.lt_succ_of_lt (hg.fresh u id hu)
    · exact Nat.lt_succ_self _

theorem Good.put (hg : Good fleet workers urlToId nextId) {id : Nat} {h : H}
    (hurl : urlToId.lookup (fleet.worker h).url = some id) :
    Good fleet (workers.insert id h) urlToId nextId := by
  refine ⟨fun i x hi => ?_, hg.apart, hg.fresh⟩
  rcases Table.lookup_insert_eq_some.mp hi with ⟨-, hx⟩ | ⟨rfl, rfl⟩
  · exact hg.found i x hx
  · exact hurl

theorem Good.leave (hg : Good fleet workers urlToId nextId) {id : Nat} {h : H}
    (hid : workers.lookup id = some h) :
    Good fleet (workers.erase id) (urlToId.erase (fleet.worker h).url) nextId := by
  have hold : ∀ u i, (urlToId.erase (fleet.worker h).url).lookup u = some i →
      urlToId.lookup u = some i :=
    fun u i hu => (Table.lookup_erase_eq_some.mp hu).2
  refine ⟨fun i x hi => ?_, fun u v i hu hv => hg.apart u v i (hold u i hu) (hold v i hv),
    fun u i hu => hg.fresh u i (hold u i hu)⟩
  obtain ⟨hne, hi⟩ := Table.lookup_erase_eq_some.mp hi
  have hfound := hg.found i x hi
  rw [Table.lookup_erase_if, if_neg]
  · exact hfound
  · intro hurl
    rw [hurl, hg.found id h hid] at hfound
    exact hne (Option.some.inj hfound).symm

theorem tables_setWorkerOverloaded [DecidableEq H] (s : Registry H) (h : H) (b : Bool) :
    (s.setWorkerOverloaded fleet h b).urlToId = s.urlToId ∧
      (s.setWorkerOverloaded fleet h b).nextId = s.nextId := by
  rw [setWorkerOverloaded]
  split_ifs <;> exact ⟨rfl, rfl⟩

theorem Good.next [DecidableEq H] {n : Net (Shared H) (Stage H)} {i : Nat} {p : Stage H}
    {order : Shuffle String} (hi : n.procs[i]? = some p) (hok : Orderly fleet n (.step i order))
    (hg : Good fleet n.shared.registry.workers n.shared.registry.urlToId n.shared.registry.nextId)
    (hps : ∀ q ∈ n.procs, Sound fleet n.shared.registry.urlToId q) :
    let s' := (next fleet placing n.shared p order).1
    Good fleet s'.registry.workers s'.registry.urlToId s'.registry.nextId ∧
      Sound fleet s'.registry.urlToId (next fleet placing n.shared p order).2 ∧
      ∀ q ∈ n.procs, Sound fleet s'.registry.urlToId q := by
  have hp := hps p (List.mem_of_getElem? hi)
  simp only [Orderly, hi] at hok
  rcases p with ⟨h, orReplace⟩ | ⟨id, body⟩ | ⟨lock, id, h | ⟨h, promote⟩ | _⟩ | h | h | _
  · simp only [RegistryRace.next, resolveId]
    cases hurl : n.shared.registry.urlToId.lookup (fleet.worker h).url with
    | some id => exact ⟨hg, hurl, hps⟩
    | none =>
      refine ⟨hg.insert hurl, AList.lookup_insert _, fun q hq => (hps q hq).of_lookup ?_⟩
      intro u id hu _
      rw [Table.lookup_insert_if, if_neg]
      · exact hu
      · rintro rfl
        simp [hurl] at hu
  · simp only [RegistryRace.next]
    split <;> exact ⟨hg, by cases body <;> exact hp, hps⟩
  · simp only [RegistryRace.next, runBody]
    split
    · exact ⟨hg, by split <;> trivial, hps⟩
    · exact ⟨hg.put hp, trivial, hps⟩
  · simp only [RegistryRace.next, runBody, replaceInner]
    cases hid : n.shared.registry.workers.lookup id with
    | none => exact ⟨hg, trivial, hps⟩
    | some old =>
      simp only [Option.any_none, Bool.false_eq_true, if_false]
      split
      · exact ⟨hg, trivial, hps⟩
      · rename_i hsame
        simp only [renew, workers_setWorkerOverloaded,
          tables_setWorkerOverloaded]
        exact ⟨hg.put (not_not.mp hsame ▸ hg.found id old hid), trivial, hps⟩
  · simp only [RegistryRace.next, runBody, removeInner]
    cases hid : n.shared.registry.workers.lookup id with
    | none => exact ⟨hg, trivial, hps⟩
    | some h =>
      simp only [Option.any_none, Bool.false_eq_true, if_false, Registry.leave,
        bumpGlobalRoutingEpoch, workers_setWorkerOverloaded, tables_setWorkerOverloaded]
      refine ⟨hg.leave hid, trivial, fun q hq => (hps q hq).of_lookup fun u i hu hawaits => ?_⟩
      -- a registration of this URL would have resolved it to this id
      rw [Table.lookup_erase_if, if_neg]
      · exact hu
      · rintro rfl
        rw [hg.found id h hid] at hu
        exact (hok.resolve_left (by simp [hid])) q hq (Option.some.inj hu ▸ hawaits)
  · simp only [RegistryRace.next]
    split <;> exact ⟨hg, trivial, hps⟩
  · have herase : n.shared.registry.urlToId.erase (fleet.worker h).url = _ :=
      AList.ext (List.kerase_of_notMem_keys (AList.lookup_eq_none.mp hok))
    simp only [RegistryRace.next, herase]
    exact ⟨hg, trivial, hps⟩
  · exact ⟨hg, trivial, hps⟩

/-- **Every worker is found by its URL** under its own id, and no two workers have one URL. -/
theorem found_by_url [DecidableEq H] {n : Net (Shared H) (Stage H)}
    (hn : Reaches (system fleet placing).exec (Orderly fleet) (init fleet) n) :
    (∀ id h, n.shared.registry.workers.lookup id = some h →
      n.shared.registry.urlToId.lookup (fleet.worker h).url = some id) ∧
    ∀ id id' h h', n.shared.registry.workers.lookup id = some h →
      n.shared.registry.workers.lookup id' = some h' →
        (fleet.worker h).url = (fleet.worker h').url → id = id' := by
  have hfound := (Program.invariant_each
    (G := fun s => Good fleet s.registry.workers s.registry.urlToId s.registry.nextId)
    (S := fun s => Sound fleet s.registry.urlToId)
    ⟨by simp [init, new], by simp [init, new], by simp [init, new]⟩ (by simp [init])
    (fun s c => by cases c <;> trivial) (fun n i p order hi hok => Good.next hi hok) hn).1.found
  refine ⟨hfound, fun id id' h h' hid hid' hurl => ?_⟩
  have := hfound id h hid
  rw [hurl, hfound id' h' hid'] at this
  exact (Option.some.inj this).symm

def oneWorker : Fleet Unit where
  worker _ := ⟨"http://w:1", [], unknownModelId, .regular, .http⟩
  runtime _ := 0
  runtime_url _ _ _ := rfl

/-- A worker registers twice at once while a removal finds nothing; it is removed and registers
again, and is found. -/
theorem found_by_url_again :
    ∃ n, Reaches (system oneWorker .byLength).exec (Orderly oneWorker) (init oneWorker) n ∧
      n.shared.registry.workers.lookup 1 = some () ∧
      n.shared.registry.urlToId.lookup "http://w:1" = some 1 := by
  have hn : Reaches (system oneWorker .byLength).exec (Orderly oneWorker) (init oneWorker)
      (List.foldl (system oneWorker .byLength).exec (init oneWorker)
        [.call (.register ()), .call (.registerOrReplace ()), .step 0 (.still _),
          .step 1 (.still _), .call (.remove 0), .step 2 (.still _), .step 2 (.still _),
          .step 0 (.still _), .step 1 (.still _), .step 1 (.still _), .step 0 (.still _),
          .call (.remove 0), .step 3 (.still _), .step 3 (.still _),
          .call (.register ()), .step 4 (.still _), .step 4 (.still _), .step 4 (.still _)]) :=
    reaches_foldl ⟨trivial, trivial, trivial, trivial, trivial, trivial, .inl (by decide +kernel),
      trivial, trivial, trivial, trivial, trivial, trivial, .inr (by decide +kernel), trivial,
      trivial, trivial, trivial, trivial⟩
  exact ⟨_, hn, by decide +kernel, (found_by_url hn).1 1 () (by decide +kernel)⟩

/-- **A worker that no URL leads to.**  A registration has resolved its URL when another call
registers the worker of that URL and a third removes it. -/
theorem registered_without_url :
    ∃ n, Reaches (system oneWorker .byLength).exec anyAction (init oneWorker) n ∧
      n.procs = [.done, .done, .done] ∧ n.shared.registry.workers.lookup 0 = some () ∧
      n.shared.registry.urlToId.lookup "http://w:1" = none :=
  ⟨_, reaches_foldl (allOk_anyAction _ _
    [.call (.register ()), .step 0 (.still _), .call (.register ()), .step 1 (.still _),
      .step 1 (.still _), .step 1 (.still _), .call (.remove 0), .step 2 (.still _),
      .step 2 (.still _), .step 0 (.still _), .step 0 (.still _)]),
    by decide +kernel, by decide +kernel, by decide +kernel⟩

end RegistryRace
end Smg.Gateway
