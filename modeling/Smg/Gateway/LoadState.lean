import Mathlib.Data.List.Induction
import Smg.Lib.Interleave

/-!
# The published worker loads

`LoadState` holds the snapshot of worker loads that routing reads: one entry per URL, with the
handle its report came from.  A poller publishes a group's reports in two parts: each passes a fence
that looks its URL up in the registry, and those that passed are written in one rebuild.  A removal
or a replacement changes the registry and then queues the old handle; `apply_pending_evictions`
takes the queue and drops the entries of its handles in one rebuild.

A handle that is removed, queued and evicted between the fence and the rebuild of its report has its
entry written after its eviction, and nothing drops it again (`evicted_load_returns`).  Where no
batch is applied over such a publication, and no handle is registered a second time, what was
evicted stays out of every later snapshot (`evicted_load_stays_out`).
-/

set_option autoImplicit false

namespace Smg.Gateway
namespace LoadState

open Interleave Function List

variable {H R : Type} [DecidableEq H]

/-- A published load. -/
structure LoadEntry (H R : Type) where
  load : R
  /-- When the engine's state behind it was sampled. -/
  sampledAt : Nat
  source : H

abbrev LoadSnapshot (H R : Type) := String → Option (LoadEntry H R)

/-- What the processes share. -/
structure Shared (H R : Type) where
  /-- The registry's `get_by_url`. -/
  registry : String → Option H
  snapshot : LoadSnapshot H R
  pendingEvictions : List H
  /-- The handles removed or replaced so far; nothing reads it. -/
  retired : List H
  /-- The handles of the batches applied so far; nothing reads it. -/
  applied : List H

inductive Call (H R : Type)
  | register (worker : H)
  /-- The worker of a URL is removed. -/
  | remove (url : String)
  /-- The worker of a handle's URL is replaced by the handle. -/
  | replace (worker : H)
  /-- `publish_group`, at an instant. -/
  | publishGroup (groupUrls : List String) (fresh : List (H × R)) (publishedAt : Nat)
  /-- `apply_pending_evictions`. -/
  | applyPendingEvictions

/-- Where a call is. -/
inductive Stage (H R : Type)
  | begin (call : Call H R)
  /-- The registry has dropped the handle. -/
  | enqueueEviction (old : H)
  /-- Reports still to be fenced, and what was admitted. -/
  | fencing (groupUrls : List String) (fresh : List (H × R)) (publishedAt : Nat)
    (admitted : List (String × LoadEntry H R))
  /-- A batch has been taken off the queue. -/
  | evicting (pending : List H)
  | done

variable (url : H → String) (sampledAt : R → Option Nat)

/-- The fence; `ready` is the status of each handle at this moment. -/
def isCurrentIncarnation (s : Shared H R) (ready : H → Bool) (worker : H) : Bool :=
  (s.registry (url worker)).any fun current => current = worker && ready current

theorem registry_of_isCurrentIncarnation {s : Shared H R} {ready : H → Bool} {worker : H}
    (h : isCurrentIncarnation url s ready worker) : s.registry (url worker) = some worker := by
  cases hr : s.registry (url worker) <;> simp_all [isCurrentIncarnation]

def publish (groupUrls : List String) (admitted : List (String × LoadEntry H R))
    (entries : LoadSnapshot H R) : LoadSnapshot H R :=
  admitted.foldl (fun es x => update es x.1 (some x.2))
    (groupUrls.foldl (fun es u => update es u none) entries)

/-- One handle of a batch: the entry goes if it is the handle's own or nothing owns it. -/
def evict (upgrade : H → Bool) (entries : LoadSnapshot H R) (worker : H) : LoadSnapshot H R :=
  if (entries (url worker)).any fun e => !upgrade e.source || e.source = worker then
    update entries (url worker) none
  else entries

/-- One step.  `sees` is what a step finds out about handles: at a fence which of them are Ready, in
an eviction which of them still live. -/
def next (s : Shared H R) (p : Stage H R) (sees : H → Bool) : Shared H R × Stage H R :=
  match p with
  | .begin (.register worker) =>
    match s.registry (url worker) with
    | some _ => (s, .done)
    | none => ({ s with registry := update s.registry (url worker) (some worker) }, .done)
  | .begin (.remove u) =>
    match s.registry u with
    | none => (s, .done)
    | some old =>
      ({ s with registry := update s.registry u none, retired := old :: s.retired },
        .enqueueEviction old)
  | .begin (.replace worker) =>
    match s.registry (url worker) with
    | none => (s, .done)
    | some old =>
      ({ s with
          registry := update s.registry (url worker) (some worker)
          retired := old :: s.retired },
        .enqueueEviction old)
  | .enqueueEviction old => ({ s with pendingEvictions := s.pendingEvictions ++ [old] }, .done)
  | .begin (.publishGroup urls fresh publishedAt) => (s, .fencing urls fresh publishedAt [])
  | .fencing urls ((worker, load) :: fresh) publishedAt admitted =>
    (s, .fencing urls fresh publishedAt <|
      if isCurrentIncarnation url s sees worker then
        admitted ++ [(url worker, ⟨load, (sampledAt load).getD publishedAt, worker⟩)]
      else admitted)
  | .fencing urls [] _ admitted => ({ s with snapshot := publish urls admitted s.snapshot }, .done)
  | .begin .applyPendingEvictions =>
    ({ s with pendingEvictions := [] }, .evicting s.pendingEvictions)
  | .evicting pending =>
    ({ s with
        snapshot := pending.foldl (evict url sees) s.snapshot
        applied := s.applied ++ pending },
      .done)
  | .done => (s, .done)

def system : Program (Shared H R) (Stage H R) (H → Bool) (Call H R) := ⟨.begin, next url sampledAt⟩

def idle : Net (Shared H R) (Stage H R) := ⟨⟨fun _ => none, fun _ => none, [], [], []⟩, []⟩

/-- The entries a publication has admitted and not yet written. -/
def Stage.admitted : Stage H R → List (String × LoadEntry H R)
  | .fencing _ _ _ admitted => admitted
  | _ => []

/-- When what was evicted stays out: a handle comes into the registry once, and a batch is applied
while no publication holds an admitted report of one of its handles. -/
def Fenced (n : Net (Shared H R) (Stage H R)) : Interleave.Act (H → Bool) (Call H R) → Prop
  | .call _ => True
  | .step i _ =>
    match n.procs[i]? with
    | some (.begin (.register worker)) | some (.begin (.replace worker)) =>
      worker ∉ n.shared.retired ∧ n.shared.registry (url worker) ≠ some worker
    | some (.evicting pending) => ∀ p ∈ n.procs, ∀ x ∈ p.admitted, x.2.source ∉ pending
    | _ => True

/-! ## What every step keeps -/

/-- An entry that may stand under a URL: its handle has that URL and no applied batch holds it. -/
def Fit (applied : List H) (u : String) (e : LoadEntry H R) : Prop :=
  url e.source = u ∧ e.source ∉ applied

def Sound (s : Shared H R) : Stage H R → Prop
  | .enqueueEviction old => old ∈ s.retired
  | .evicting pending => ∀ h ∈ pending, h ∈ s.retired
  | .fencing _ _ _ admitted => ∀ x ∈ admitted, Fit url s.applied x.1 x.2
  | _ => True

/-- What the shared state keeps. -/
structure Good (s : Shared H R) : Prop where
  /-- A registered handle is under its URL and was not retired. -/
  registry : ∀ u h, s.registry u = some h → url h = u ∧ h ∉ s.retired
  /-- Only retired handles are queued. -/
  pending : ∀ h ∈ s.pendingEvictions, h ∈ s.retired
  /-- Only retired handles are evicted. -/
  applied : ∀ h ∈ s.applied, h ∈ s.retired
  snapshot : ∀ u e, s.snapshot u = some e → Fit url s.applied u e

variable {url sampledAt} {s : Shared H R} {es : LoadSnapshot H R} {u : String}

omit [DecidableEq H] in
/-- A rebuild writes what was there and what was admitted. -/
theorem mem_publish {urls : List String} {admitted : List (String × LoadEntry H R)}
    {e : LoadEntry H R} (h : publish urls admitted es u = some e) :
    (u, e) ∈ admitted ∨ es u = some e := by
  induction admitted using reverseRecOn with
  | nil =>
    refine .inr ?_
    induction urls using reverseRecOn with
    | nil => exact h
    | append_singleton urls v ih =>
      simp only [publish, foldl_append, foldl_cons, foldl_nil, update_apply] at h ih
      split at h
      · cases h
      · exact ih h
  | append_singleton admitted x ih =>
    simp only [publish, foldl_append, foldl_cons, foldl_nil, update_apply] at h ih
    split at h
    · rename_i hu
      cases h
      exact .inl (mem_append_right _ (mem_singleton.mpr (Prod.ext hu rfl)))
    · exact (ih h).imp_left (mem_append_left _)

theorem mem_evict {upgrade : H → Bool} {pending : List H} {e : LoadEntry H R}
    (h : pending.foldl (evict url upgrade) es u = some e) :
    es u = some e ∧ (url e.source = u → e.source ∉ pending) := by
  induction pending generalizing es with
  | nil => exact ⟨h, fun _ => not_mem_nil⟩
  | cons worker pending ih =>
    obtain ⟨hes, hnot⟩ := ih h
    have hkept : es u = some e ∧ (url e.source = u → e.source ≠ worker) := by
      rw [evict] at hes
      split at hes
      · rw [update_apply] at hes
        split at hes
        · cases hes
        · rename_i hu
          exact ⟨hes, fun hurl he => hu (by rw [← hurl, he])⟩
      · rename_i hany
        exact ⟨hes, fun hurl he => hany (by simp [← he, hurl, hes])⟩
    exact ⟨hkept.1, fun hurl => by simp [hkept.2 hurl, hnot hurl]⟩

omit [DecidableEq H] in
theorem Good.write (h : Good url s) {o : Option H} (gone : List H)
    (hgone : ∀ k ∈ gone, s.registry u = some k)
    (ho : ∀ k, o = some k → url k = u ∧ k ∉ gone ++ s.retired) :
    Good url { s with registry := update s.registry u o, retired := gone ++ s.retired } where
  registry v k hk := by
    simp only [update_apply] at hk
    split at hk
    · rename_i hv
      exact hv ▸ ho k hk
    · rename_i hv
      obtain ⟨hurl, hr⟩ := h.registry v k hk
      refine ⟨hurl, fun hmem => ?_⟩
      rcases mem_append.mp hmem with hg | hr'
      · exact hv (hurl.symm.trans (h.registry u k (hgone k hg)).1)
      · exact hr hr'
  pending k hk := mem_append_right _ (h.pending k hk)
  applied k hk := mem_append_right _ (h.applied k hk)
  snapshot := h.snapshot

omit [DecidableEq H] in
theorem Sound.retire {p : Stage H R} (hp : Sound url s p) (f : String → Option H) (gone : List H) :
    Sound url { s with registry := f, retired := gone ++ s.retired } p := by
  cases p with
  | begin call => trivial
  | enqueueEviction old => exact mem_append_right _ hp
  | fencing urls fresh publishedAt admitted => exact hp
  | evicting pending => exact fun h hh => mem_append_right _ (hp h hh)
  | done => trivial

theorem Good.next {n : Net (Shared H R) (Stage H R)} {i : Nat} {p : Stage H R} {sees : H → Bool}
    (hi : n.procs[i]? = some p) (hok : Fenced url n (.step i sees)) (h : Good url n.shared)
    (hps : ∀ q ∈ n.procs, Sound url n.shared q) :
    Good url (next url sampledAt n.shared p sees).1 ∧
      Sound url (next url sampledAt n.shared p sees).1 (next url sampledAt n.shared p sees).2 ∧
      ∀ q ∈ n.procs, Sound url (next url sampledAt n.shared p sees).1 q := by
  have hp := hps p (mem_of_getElem? hi)
  simp only [Fenced, hi] at hok
  cases p with
  | begin call =>
    cases call with
    | register worker =>
      cases hr : n.shared.registry (url worker) with
      | some old => simp only [LoadState.next, hr]; exact ⟨h, trivial, hps⟩
      | none =>
        simp only [LoadState.next, hr]
        refine ⟨h.write [] (by simp) ?_, trivial, fun q hq => (hps q hq).retire _ []⟩
        rintro k ⟨⟩
        exact ⟨rfl, hok.1⟩
    | remove u =>
      cases hr : n.shared.registry u with
      | none => simp only [LoadState.next, hr]; exact ⟨h, trivial, hps⟩
      | some old =>
        simp only [LoadState.next, hr]
        exact ⟨h.write [old] (by simp [hr]) nofun, mem_cons_self,
          fun q hq => (hps q hq).retire _ [old]⟩
    | replace worker =>
      cases hr : n.shared.registry (url worker) with
      | none => simp only [LoadState.next, hr]; exact ⟨h, trivial, hps⟩
      | some old =>
        simp only [LoadState.next, hr]
        refine ⟨h.write [old] (by simp [hr]) ?_, mem_cons_self,
          fun q hq => (hps q hq).retire _ [old]⟩
        rintro k ⟨⟩
        obtain ⟨hnew, hne⟩ := hok
        exact ⟨rfl, by simpa [hnew, hr, eq_comm] using hne⟩
    | publishGroup urls fresh publishedAt => exact ⟨h, by simp [LoadState.next, Sound], hps⟩
    | applyPendingEvictions => exact ⟨⟨h.registry, nofun, h.applied, h.snapshot⟩, h.pending, hps⟩
  | enqueueEviction old =>
    exact ⟨⟨h.registry, forall_mem_append.mpr ⟨h.pending, forall_mem_singleton.mpr hp⟩, h.applied,
      h.snapshot⟩, trivial, hps⟩
  | fencing urls fresh publishedAt admitted =>
    cases fresh with
    | nil =>
      refine ⟨⟨h.registry, h.pending, h.applied, fun u e he => ?_⟩, trivial, hps⟩
      rcases mem_publish he with hm | hm
      · exact hp _ hm
      · exact h.snapshot u e hm
    | cons x fresh =>
      refine ⟨h, fun y hy => ?_, hps⟩
      split at hy
      · rename_i hcur
        rcases mem_append.mp hy with hy | hy
        · exact hp y hy
        · rw [mem_singleton.mp hy]
          have hr := registry_of_isCurrentIncarnation url hcur
          exact ⟨rfl, fun ha => (h.registry _ _ hr).2 (h.applied _ ha)⟩
      · exact hp y hy
  | evicting pending =>
    refine ⟨⟨h.registry, h.pending, forall_mem_append.mpr ⟨h.applied, hp⟩, fun u e he => ?_⟩,
      trivial, fun q hq => ?_⟩
    · obtain ⟨hes, hnot⟩ := mem_evict he
      obtain ⟨hurl, ha⟩ := h.snapshot u e hes
      exact ⟨hurl, fun hm => (mem_append.mp hm).elim ha (hnot hurl)⟩
    · have hq' := hps q hq
      cases q with
      | fencing urls fresh publishedAt admitted =>
        exact fun x hx => ⟨(hq' x hx).1, fun hm =>
          (mem_append.mp hm).elim (hq' x hx).2 (hok _ hq x hx)⟩
      | begin call => trivial
      | enqueueEviction old => exact hq'
      | evicting batch => exact hq'
      | done => trivial
  | done => exact ⟨h, trivial, hps⟩

/-- **What was evicted stays out.** -/
theorem evicted_load_stays_out {n : Net (Shared H R) (Stage H R)}
    (hn : Reaches (system url sampledAt).exec (Fenced url) idle n) (u : String)
    (e : LoadEntry H R) (he : n.shared.snapshot u = some e) : e.source ∉ n.shared.applied :=
  ((Program.invariant_each (P := system url sampledAt)
    ⟨by simp [idle], by simp [idle], by simp [idle], by simp [idle]⟩ (by simp [idle])
    (fun _ _ => trivial)
    (fun n i p sees hi hok => Good.next hi hok) hn).1.snapshot u e he).2

/-- In a run: a worker publishes its load, is replaced and evicted, and its successor publishes. -/
theorem evicted_load_stays_out_after_replacement :
    let live : Nat → Bool := fun _ => true
    let n := List.foldl (system (fun _ => "u") fun _ : Unit => none).exec idle
      [.call (.register 0), .step 0 live, .call (.publishGroup ["u"] [(0, ())] 5), .step 1 live,
        .step 1 live, .step 1 live, .call (.replace 1), .step 2 live, .step 2 live,
        .call .applyPendingEvictions, .step 3 live, .step 3 live,
        .call (.publishGroup ["u"] [(1, ())] 6), .step 4 live, .step 4 live, .step 4 live]
    n.shared.applied = [0] ∧ 1 ∉ n.shared.applied := by
  refine ⟨rfl, evicted_load_stays_out (reaches_foldl ?_) "u" ⟨(), 6, 1⟩ rfl⟩
  refine ⟨trivial, ⟨not_mem_nil, nofun⟩, trivial, trivial, trivial, trivial, trivial,
    ⟨not_mem_nil, ?_⟩, trivial, trivial, trivial, ?_, trivial, trivial, trivial, trivial,
    trivial⟩
  · decide +kernel
  · simp [system, Program.exec, next, idle, Fenced, Stage.admitted]

/-- **An evicted load returns**: the worker is removed, queued and evicted between the fence and the
rebuild of its publication. -/
theorem evicted_load_returns :
    ∃ (n : Net (Shared Nat Unit) (Stage Nat Unit)) (e : LoadEntry Nat Unit),
      Reaches (system (fun _ => "u") fun _ => none).exec anyAction idle n ∧
        n.shared.snapshot "u" = some e ∧ e.source ∈ n.shared.applied := by
  exact ⟨_, ⟨(), 5, 0⟩, reaches_foldl (allOk_anyAction _ _
    [.call (.register 0), .step 0 fun _ => true, .call (.publishGroup ["u"] [(0, ())] 5),
      .step 1 fun _ => true, .step 1 fun _ => true, .call (.remove "u"), .step 2 fun _ => true,
      .step 2 fun _ => true, .call .applyPendingEvictions, .step 3 fun _ => true,
      .step 3 fun _ => true, .step 1 fun _ => true]), rfl, by decide⟩

end LoadState
end Smg.Gateway
