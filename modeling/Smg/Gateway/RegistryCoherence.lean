import Smg.Gateway.RegistryMembers

/-!
# The registry agrees with its workers

Everything the registry keeps next to its workers is a function of the workers: after any calls, one
after another, it is what one would compute from them.  The snapshot of all workers carries the
epoch it was built at, a 64-bit counter of changes, and the marker that a change leaves carries the
largest epoch there is; so runs are of fewer than `2 ^ 64 - 1` changes, and the two never meet.
-/

set_option autoImplicit false

namespace Smg.Gateway

open List Indexes
open Shuffle (still)

variable {H : Type} {fleet : Fleet H} {placing : Placing}

/-! ## Counters -/

def stored (n : Nat) : Option Nat := if n = 0 then none else some n

def Counts (counts : Table String Nat) (n : String → Nat) : Prop :=
  ∀ m, counts.lookup m = stored (n m)

theorem Counts.countOf {counts : Table String Nat} {n : String → Nat} (h : Counts counts n)
    (m : String) : Registry.countOf counts m = n m := by
  rw [Registry.countOf, h m, stored]
  split
  · rename_i hz
    rw [hz]
    rfl
  · rfl

namespace Registry

variable {ms : List String}

/-- The counters after the adjustment, before those at zero are forgotten. -/
theorem lookup_adjustCounts (overloaded : Bool) (hms : ms.Nodup) (counts : Table String Nat)
    (m : String) : (adjustCounts counts overloaded ms).1.lookup m =
      if m ∈ ms then some (adjustedCount (countOf counts m) overloaded) else counts.lookup m := by
  induction ms generalizing counts with
  | nil => simp [adjustCounts]
  | cons m0 ms ih =>
    obtain ⟨hm0, hms⟩ := nodup_cons.mp hms
    rw [adjustCounts, ih hms]
    by_cases hm : m = m0
    · subst hm
      rw [if_neg hm0, if_pos mem_cons_self, Table.lookup_insert_if, if_pos rfl]
    · simp only [mem_cons, hm, false_or, countOf, Table.lookup_insert_if, if_false]

theorem adjustCounts_snd (overloaded : Bool) (hms : ms.Nodup) (counts : Table String Nat) :
    (adjustCounts counts overloaded ms).2 =
      ms.map fun m => (m, adjustedCount (countOf counts m) overloaded) := by
  induction ms generalizing counts with
  | nil => rfl
  | cons m0 ms ih =>
    obtain ⟨hm0, hms⟩ := nodup_cons.mp hms
    change (m0, adjustedCount (countOf counts m0) overloaded)
      :: (adjustCounts (counts.insert m0 _) overloaded ms).2 = _
    rw [ih hms]
    congr 1
    refine map_congr_left fun m hm => ?_
    have hne : m ≠ m0 := fun h => hm0 (h ▸ hm)
    rw [countOf, Table.lookup_insert_if, if_neg hne, countOf]

theorem lookup_foldl_collectCount (updates : List (String × Nat)) (counts : Table String Nat)
    (m : String) :
    (updates.foldl collectCount counts).lookup m =
      if (m, 0) ∈ updates ∧ counts.lookup m = some 0 then none else counts.lookup m := by
  induction updates generalizing counts with
  | nil => simp
  | cons u updates ih =>
    obtain ⟨m0, n⟩ := u
    rw [foldl_cons, ih, collectCount]
    by_cases hm : m = m0
    · subst hm
      by_cases hz : n = 0 ∧ counts.lookup m = some 0
      · simp [hz.1, hz.2]
      · rw [if_neg hz]
        by_cases hl : counts.lookup m = some 0
        · have hn : ¬ n = 0 := fun hn => hz ⟨hn, hl⟩
          simp [Ne.symm hn]
        · simp [hl]
    · split <;> simp [hm]

/-- **The counters of the models of a worker move by one**, and no counter is kept at zero. -/
theorem adjust_counts {counts : Table String Nat} {n : String → Nat} (h : Counts counts n)
    (overloaded : Bool) (hms : ms.Nodup) :
    Counts ((adjustCounts counts overloaded ms).2.foldl collectCount
        (adjustCounts counts overloaded ms).1)
      fun m => if m ∈ ms then adjustedCount (n m) overloaded else n m := by
  intro m
  rw [lookup_foldl_collectCount, lookup_adjustCounts overloaded hms, adjustCounts_snd _ hms]
  by_cases hm : m ∈ ms
  · simp only [hm, if_true, h.countOf, Option.some.injEq, stored]
    by_cases hz : adjustedCount (n m) overloaded = 0
    · rw [if_pos ⟨mem_map.mpr ⟨m, hm, by rw [hz]⟩, hz⟩, if_pos hz]
    · rw [if_neg fun hand => hz hand.2, if_neg hz]
  · have hne : stored (n m) ≠ some 0 := by
      rw [stored]
      split
      · simp
      · rename_i hz
        simpa using hz
    simp only [hm, if_false, h m, hne, and_false]

end Registry

theorem countP_succ {α : Type} {l : List α} {p p' : α → Bool} (hl : l.Nodup) {a : α} (ha : a ∈ l)
    (hp : p a = false) (hp' : p' a = true) (hsame : ∀ x ∈ l, x ≠ a → p x = p' x) :
    l.countP p' = l.countP p + 1 := by
  classical
  have hrest : (l.erase a).countP p' = (l.erase a).countP p := countP_congr fun x hx => by
    obtain ⟨hne, hx⟩ := hl.mem_erase_iff.mp hx
    rw [hsame x hx hne]
  rw [(perm_cons_erase ha).countP_eq, (perm_cons_erase ha).countP_eq p, countP_cons_of_pos hp',
    countP_cons_of_neg (by simp [hp]), hrest]

/-! ## Flags -/

/-- A flag is set only in the runtime of a live worker, and objects that share a runtime have one
URL. -/
structure Flags (fleet : Fleet H) (live : H → Prop) (r : Runtimes H) : Prop where
  flagged : ∀ c, r.overloaded c → ∃ h, live h ∧ r.cell h = c
  cells : ∀ h h', r.cell h = r.cell h' → (fleet.worker h).url = (fleet.worker h').url

namespace Flags

variable {live live' : H → Prop} {r : Runtimes H} {h x : H}

/-- The live workers may change where no flag is set. -/
theorem change (hf : Flags fleet live r) (hl : ∀ x, live x → r.isOverloaded x → live' x) :
    Flags fleet live' r := by
  refine ⟨fun c hc => ?_, hf.cells⟩
  obtain ⟨x, hx, rfl⟩ := hf.flagged c hc
  exact ⟨x, hl x hx hc, rfl⟩

theorem isOverloaded_of_new (hf : Flags fleet live r)
    (hnew : ∀ x, live x → (fleet.worker x).url ≠ (fleet.worker h).url) :
    r.isOverloaded h = false := by
  rcases hflag : r.isOverloaded h with _ | _
  · rfl
  · obtain ⟨x, hx, hcell⟩ := hf.flagged _ hflag
    exact absurd (hf.cells x h hcell) (hnew x hx)

theorem isOverloaded_setOverloaded_self (r : Runtimes H) (h : H) (b : Bool) :
    (r.setOverloaded h b).isOverloaded h = b :=
  Function.update_self _ _ _

theorem setOverloaded (hf : Flags fleet live r) (hh : live h) (b : Bool) :
    Flags fleet live (r.setOverloaded h b) := by
  refine ⟨fun c hc => ?_, hf.cells⟩
  by_cases hcell : c = r.cell h
  · exact ⟨h, hh, hcell.symm⟩
  · exact hf.flagged c ((Function.update_of_ne hcell _ _).symm.trans hc)

end Flags

section Inherit

variable [DecidableEq H] {r : Runtimes H} {live : H → Prop} {old new x : H}

theorem cell_inherit_self : (r.inherit new old).cell new = r.cell old :=
  Function.update_self _ _ _

theorem cell_inherit_of_ne (hx : x ≠ new) : (r.inherit new old).cell x = r.cell x :=
  Function.update_of_ne hx _ _

theorem isOverloaded_inherit_self :
    (r.inherit new old).isOverloaded new = r.isOverloaded old :=
  congrArg r.overloaded cell_inherit_self

theorem isOverloaded_inherit_of_ne (hx : x ≠ new) :
    (r.inherit new old).isOverloaded x = r.isOverloaded x :=
  congrArg r.overloaded (cell_inherit_of_ne hx)

theorem flagged_replace (hurl : Indexes.ByUrl fleet live) (hold : live old)
    (hsame : (fleet.worker old).url = (fleet.worker new).url)
    (hunflagged : r.isOverloaded old = false) (x : H) :
    (live x ∧ r.isOverloaded x) ↔
      ((live x ∧ x ≠ old ∨ x = new) ∧ (r.inherit new old).isOverloaded x) := by
  by_cases hx : x = new
  · subst hx
    rw [isOverloaded_inherit_self, hunflagged]
    simp only [Bool.false_eq_true, and_false, iff_false, not_and]
    intro hlive
    rw [hurl x old hlive hold hsame.symm, hunflagged]
    simp
  · rw [isOverloaded_inherit_of_ne hx]
    by_cases hxo : x = old
    · rw [hxo, hunflagged]
      simp
    · simp [hx, hxo]

theorem Flags.inherit (hf : Flags fleet live r) (hurl : Indexes.ByUrl fleet live) (hold : live old)
    (hsame : (fleet.worker old).url = (fleet.worker new).url)
    (hunflagged : r.isOverloaded old = false) :
    Flags fleet (fun x => live x ∧ x ≠ old ∨ x = new) (r.inherit new old) := by
  refine ⟨fun c hc => ?_, fun x y hxy => ?_⟩
  · obtain ⟨x, hx, rfl⟩ := hf.flagged c hc
    have hxo : x ≠ old := by
      rintro rfl
      exact absurd hc (by simpa [Runtimes.isOverloaded, Runtimes.inherit] using hunflagged)
    refine ⟨x, .inl ⟨hx, hxo⟩, cell_inherit_of_ne ?_⟩
    rintro rfl
    exact hxo (hurl x old hx hold hsame.symm)
  · by_cases hx : x = new <;> by_cases hy : y = new
    · rw [hx, hy]
    · rw [hx, cell_inherit_self, cell_inherit_of_ne hy] at hxy
      rw [hx, ← hsame]
      exact hf.cells old y hxy
    · rw [hy, cell_inherit_self, cell_inherit_of_ne hx] at hxy
      rw [hy, ← hsame]
      exact hf.cells x old hxy
    · rw [cell_inherit_of_ne hx, cell_inherit_of_ne hy] at hxy
      exact hf.cells x y hxy

end Inherit

def flaggedUnder (idx : Indexes H) (r : Runtimes H) (m : String) : Nat :=
  (Indexes.listed idx.modelIndex m).countP r.isOverloaded

/-- The counts stay when the flagged workers are the same. -/
theorem flaggedUnder_congr {idx idx' : Indexes H} {live live' : H → Prop} {r r' : Runtimes H}
    (hagree : Indexes.Agree fleet idx live) (hagree' : Indexes.Agree fleet idx' live')
    (hsame : ∀ x, (live x ∧ r.isOverloaded x) ↔ (live' x ∧ r'.isOverloaded x)) (m : String) :
    flaggedUnder idx r m = flaggedUnder idx' r' m := by
  rw [flaggedUnder, flaggedUnder, countP_eq_length_filter, countP_eq_length_filter]
  refine Perm.length_eq ((perm_ext_iff_of_nodup ((hagree.exact.nodup m).filter _)
    ((hagree'.exact.nodup m).filter _)).mpr fun x => ?_)
  rw [mem_filter, mem_filter, hagree.exact.mem_iff, hagree'.exact.mem_iff, and_right_comm,
    hsame x, and_right_comm]

/-! ## The invariant -/

namespace Registry

/-- The snapshot is the marker of a change, or the workers at the epoch there is. -/
def SnapshotValid (s : Registry H) : Prop :=
  s.globalRoutingSnapshot = ⟨usizeMax, []⟩ ∨
    s.globalRoutingSnapshot.epoch = s.globalEpoch ∧
      s.globalRoutingSnapshot.snapshot.Perm (s.workers.entries.map Sigma.snd)

/-- The registry agrees with its workers, after at most `n` changes. -/
structure Coherent (fleet : Fleet H) (n : Nat) (s : Registry H) : Prop where
  indexed : Indexed fleet s
  flags : Flags fleet (RegisteredIn s.workers) s.runtimes
  counts : Counts s.modelOverloaded (flaggedUnder s.indexes s.runtimes)
  snapshot : s.SnapshotValid
  epoch_le : s.globalEpoch ≤ n
  size_le : s.workers.entries.length ≤ n

variable {s s' : Registry H} {n : Nat}

variable {h : H}

theorem registeredIn_iff_mem {workers : Table Nat H} :
    RegisteredIn workers h ↔ h ∈ workers.entries.map Sigma.snd := by
  simp only [mem_map, Sigma.exists]
  constructor
  · rintro ⟨id, hl⟩
    exact ⟨id, h, AList.mem_lookup_iff.mp hl, rfl⟩
  · rintro ⟨id, x, hmem, rfl⟩
    exact ⟨id, AList.mem_lookup_iff.mpr hmem⟩

theorem length_entries_insert_le {κ ν : Type} [DecidableEq κ] (t : Table κ ν) (k : κ) (v : ν) :
    (t.insert k v).entries.length ≤ t.entries.length + 1 :=
  Nat.succ_le_succ (kerase_sublist k t.entries).length_le

theorem epoch_bump_le (s : Registry H) (hn : s.globalEpoch ≤ n) :
    s.bumpGlobalRoutingEpoch.globalEpoch ≤ n + 1 :=
  (Nat.mod_le _ _).trans (Nat.succ_le_succ hn)

theorem coherent_new : Coherent fleet 0 (new fleet) where
  indexed := indexed_new
  flags := ⟨nofun, fleet.runtime_url⟩
  counts := fun m => by simp [new, flaggedUnder, listed, stored]
  snapshot := .inr ⟨rfl, Perm.refl _⟩
  epoch_le := le_refl 0
  size_le := le_refl 0

section Calls

variable (hs : Coherent fleet n s)
include hs

theorem Coherent.mono {n' : Nat} (hn : n ≤ n') : Coherent fleet n' s :=
  { hs with
    epoch_le := hs.epoch_le.trans hn
    size_le := hs.size_le.trans hn }

/-- Under a model there are no more workers than there are. -/
theorem Coherent.length_listed_le (m : String) :
    (listed s.indexes.modelIndex m).length ≤ n := by
  have hsub : listed s.indexes.modelIndex m ⊆ s.workers.entries.map Sigma.snd := by
    intro h hh
    exact registeredIn_iff_mem.mp ((hs.indexed.agree.exact.mem_iff m h).mp hh).1
  have hle := (subperm_of_subset (hs.indexed.agree.exact.nodup m) hsub).length_le
  rw [length_map] at hle
  exact hle.trans hs.size_le

/-! ## The overload flag -/

theorem Coherent.flaggedUnder_setOverloaded (hn : n < 2 ^ 64) {b : Bool}
    (hreg : RegisteredIn s.workers h) (hturn : s.runtimes.isOverloaded h ≠ b) (m : String) :
    (if m ∈ (fleet.worker h).modelIds then adjustedCount (flaggedUnder s.indexes s.runtimes m) b
      else flaggedUnder s.indexes s.runtimes m) =
      flaggedUnder s.indexes (s.runtimes.setOverloaded h b) m := by
  have hothers : ∀ x ∈ listed s.indexes.modelIndex m, x ≠ h →
      s.runtimes.isOverloaded x = (s.runtimes.setOverloaded h b).isOverloaded x :=
    fun x hx hne => .symm <| Function.update_of_ne (fun heq => hne <| hs.indexed.ids.byUrl x h
      ((hs.indexed.agree.exact.mem_iff m x).mp hx).1 hreg (hs.flags.cells x h heq)) _ _
  split_ifs with hm
  · have hmem : h ∈ listed s.indexes.modelIndex m :=
      (hs.indexed.agree.exact.mem_iff m h).mpr ⟨hreg, hm⟩
    have hself := Flags.isOverloaded_setOverloaded_self s.runtimes h b
    rcases b with _ | _
    · have hcount := countP_succ (hs.indexed.agree.exact.nodup m) hmem hself (by simpa using hturn)
        fun x hx hne => (hothers x hx hne).symm
      rw [flaggedUnder, hcount]
      rfl
    · have hcount := countP_succ (hs.indexed.agree.exact.nodup m) hmem (by simpa using hturn)
        hself hothers
      have hle : (listed s.indexes.modelIndex m).countP
          (s.runtimes.setOverloaded h true).isOverloaded ≤ n :=
        countP_le_length.trans (hs.length_listed_le m)
      rw [adjustedCount, flaggedUnder, ← hcount, Nat.mod_eq_of_lt (by omega)]
      rfl
  · refine countP_congr fun x hx => ?_
    have hne : x ≠ h := fun heq => hm (heq ▸ ((hs.indexed.agree.exact.mem_iff m x).mp hx).2)
    rw [hothers x hx hne]

section Flag

variable [DecidableEq H]

theorem Coherent.isCurrentHandle_iff :
    s.isCurrentHandle fleet h ↔ RegisteredIn s.workers h := by
  rw [isCurrentHandle]
  constructor
  · intro hcur
    split at hcur
    · cases hcur
    · exact ⟨_, beq_iff_eq.mp hcur⟩
  · rintro ⟨id, hid⟩
    rw [hs.indexed.ids.id_of_worker id h hid]
    simpa using hid

theorem Coherent.isOverloaded_set (hreg : RegisteredIn s.workers h)
    (b : Bool) : (s.setWorkerOverloaded fleet h b).runtimes.isOverloaded h = b := by
  rw [setWorkerOverloaded]
  split_ifs with hsame hcur
  · exact hsame
  · rw [Bool.not_eq_true', ← Bool.not_eq_true, hs.isCurrentHandle_iff] at hcur
    exact absurd hreg hcur
  · exact Flags.isOverloaded_setOverloaded_self _ _ _

/-- **The counters follow the flags.** -/
theorem Coherent.setWorkerOverloaded (hn : n < 2 ^ 64) (h : H)
    (b : Bool) : Coherent fleet n (s.setWorkerOverloaded fleet h b) := by
  rw [Registry.setWorkerOverloaded]
  split_ifs with hsame hcur
  · exact hs
  · exact hs
  · rw [Bool.not_eq_true', ← Bool.not_eq_true, not_not, hs.isCurrentHandle_iff] at hcur
    refine { hs with
      indexed := { hs.indexed with }
      counts := fun m => ?_
      flags := hs.flags.setOverloaded hcur b }
    exact (adjust_counts hs.counts b (Worker.nodup_modelIds _) m).trans
      (congrArg stored (hs.flaggedUnder_setOverloaded hn hcur hsame m))

end Flag

/-! ## Changes -/

/-- **A change keeps the registry coherent.** -/
theorem Coherent.change [DecidableEq H] (hn : n < 2 ^ 64) {c : Call H}
    (hchange : Change fleet placing s c s') : Coherent fleet (n + 1) s' := by
  have hindexed := hs.indexed.change hchange
  rcases hchange with _ | ⟨_, order, h, origin, hurl⟩ |
    ⟨_, order, id, old, new, promote, hid, hsame⟩ | ⟨order, id, h, hid⟩
  · exact hs.mono (Nat.le_succ n)
  · have hunflagged : s.runtimes.isOverloaded h = false :=
      hs.flags.isOverloaded_of_new fun x hx => hs.indexed.ids.url_ne_of_new hurl hx
    have hflagged : ∀ x, (RegisteredIn s.workers x ∧ s.runtimes.isOverloaded x) ↔
        (RegisteredIn (s.workers.insert s.nextId h) x ∧ s.runtimes.isOverloaded x) := by
      intro x
      rw [hs.indexed.ids.registeredIn_enter]
      by_cases hx : x = h
      · simp [hx, hunflagged]
      · simp [hx]
    exact
      { indexed := hindexed
        flags := hs.flags.change fun x hx hflag => ((hflagged x).mp ⟨hx, hflag⟩).1
        counts := fun m => (hs.counts m).trans
          (congrArg stored (flaggedUnder_congr hs.indexed.agree hindexed.agree hflagged m))
        snapshot := .inl rfl
        epoch_le := epoch_bump_le _ hs.epoch_le
        size_le := (length_entries_insert_le _ _ _).trans (Nat.succ_le_succ hs.size_le) }
  · have hunflagged := hs.isOverloaded_set ⟨id, hid⟩ false
    rw [← workers_setWorkerOverloaded s old false] at hid
    replace hs := hs.setWorkerOverloaded hn old false
    have hregistered := fun x => (hs.indexed.ids.registeredIn_renew hid new x).symm
    have hflagged := fun x =>
      (flagged_replace hs.indexed.ids.byUrl ⟨id, hid⟩ hsame hunflagged x).trans
        (and_congr_left' (hregistered x))
    exact
      { indexed := hindexed
        flags := (hs.flags.inherit hs.indexed.ids.byUrl ⟨id, hid⟩ hsame hunflagged).change
          fun x hx _ => (hregistered x).mp hx
        counts := fun m => (hs.counts m).trans
          (congrArg stored (flaggedUnder_congr hs.indexed.agree hindexed.agree hflagged m))
        snapshot := .inl rfl
        epoch_le := epoch_bump_le _ hs.epoch_le
        size_le := (length_entries_insert_le _ _ _).trans (Nat.succ_le_succ hs.size_le) }
  · have hunflagged := hs.isOverloaded_set ⟨id, hid⟩ false
    rw [← workers_setWorkerOverloaded s h false] at hid
    replace hs := hs.setWorkerOverloaded hn h false
    have hflagged : ∀ x, (RegisteredIn (s.setWorkerOverloaded fleet h false).workers x ∧
          (s.setWorkerOverloaded fleet h false).runtimes.isOverloaded x) ↔
        (RegisteredIn ((s.setWorkerOverloaded fleet h false).workers.erase id) x ∧
          (s.setWorkerOverloaded fleet h false).runtimes.isOverloaded x) := by
      intro x
      rw [hs.indexed.ids.registeredIn_leave hid]
      by_cases hx : x = h
      · simp [hx, hunflagged]
      · simp [hx]
    exact
      { indexed := hindexed
        flags := hs.flags.change fun x hx hflag => ((hflagged x).mp ⟨hx, hflag⟩).1
        counts := fun m => (hs.counts m).trans
          (congrArg stored (flaggedUnder_congr hs.indexed.agree hindexed.agree hflagged m))
        snapshot := .inl rfl
        epoch_le := epoch_bump_le _ hs.epoch_le
        size_le := (kerase_sublist _ _).length_le.trans (hs.size_le.trans (Nat.le_succ n)) }

theorem Coherent.currentGlobalRoutingSnapshot (order : Shuffle H) :
    Coherent fleet n (s.currentGlobalRoutingSnapshot order).1 := by
  rw [Registry.currentGlobalRoutingSnapshot]
  split_ifs
  · exact hs
  · exact { hs with indexed := { hs.indexed with }, snapshot := .inr ⟨rfl, order.perm _⟩ }

/-- **Every call keeps the registry coherent.** -/
theorem Coherent.exec [DecidableEq H] (hn : n < 2 ^ 64) (c : Call H) :
    Coherent fleet (n + if c.changes then 1 else 0) (s.exec fleet placing c) := by
  by_cases hc : c.changes
  · rw [if_pos hc]
    exact hs.change hn (hs.indexed.exec_change hc)
  · rcases c with _ | _ | _ | _ | _ | ⟨h, b⟩ | ⟨order⟩
    any_goals exact absurd rfl hc
    · exact hs.setWorkerOverloaded hn h b
    · exact hs.currentGlobalRoutingSnapshot order

theorem Coherent.run [DecidableEq H] (calls : List (Call H))
    (hn : n + calls.countP Call.changes < 2 ^ 64) :
    Coherent fleet (n + calls.countP Call.changes)
      (calls.foldl (Registry.exec fleet placing) s) := by
  induction calls generalizing s n with
  | nil => exact hs
  | cons c calls ih =>
    rw [countP_cons] at hn ⊢
    have hstep : n + (calls.countP Call.changes + if c.changes then 1 else 0) =
        (n + if c.changes then 1 else 0) + calls.countP Call.changes := by omega
    rw [hstep] at hn ⊢
    exact ih (hs.exec (by omega) c) hn

end Calls

/-! ## What callers see -/

/-- The registry agrees with its workers, by what is stored and what its readers answer. -/
structure Agrees (fleet : Fleet H) (s : Registry H) : Prop where
  /-- A registered worker is found under its id by its URL. -/
  found : ∀ id h, s.workers.lookup id = some h →
    s.urlToId.lookup (fleet.worker h).url = some id
  /-- What is found by a URL is a registered worker with that URL. -/
  only_registered : ∀ url id, s.urlToId.lookup url = some id →
    ∃ h, s.workers.lookup id = some h ∧ (fleet.worker h).url = url
  /-- The list of a model is not empty and lists no worker twice. -/
  lists : ∀ m hs, s.indexes.modelIndex.lookup m = some hs → hs ≠ [] ∧ hs.Nodup
  /-- The list of a model has the current handles of the workers that serve it, and no others. -/
  listed : ∀ m h, h ∈ (s.indexes.modelIndex.lookup m).getD [] ↔
    (∃ id, s.workers.lookup id = some h) ∧ m ∈ (fleet.worker h).modelIds
  /-- An id is once in the list of its type, and in no other. -/
  types : ∀ t id, (idsAt s.typeWorkers t).count id =
    placesOf s.workers (fun h => (fleet.worker h).workerType) t id
  /-- An id is once in the list of its connection mode, and in no other. -/
  modes : ∀ t id, (idsAt s.connectionWorkers t).count id =
    placesOf s.workers (fun h => (fleet.worker h).connectionMode) t id
  /-- An alias is no registered model, and it maps to one that a worker declares it for. -/
  aliases : ∀ a m, s.indexes.modelAliasIndex.lookup a = some m →
    s.indexes.modelIndex.lookup a = none ∧
      ∃ h ∈ (s.indexes.modelIndex.lookup m).getD [], (fleet.worker h).declaresAlias m a
  /-- The overload count of a model is the number of its flagged workers. -/
  counts : ∀ m, s.overloadedWorkerCount m = (s.getByModel m).countP s.runtimes.isOverloaded
  /-- The snapshot that is served has the registered workers, each once. -/
  snapshot : ∀ order, (s.currentGlobalRoutingSnapshot order).2.Nodup ∧
    ∀ h, h ∈ (s.currentGlobalRoutingSnapshot order).2 ↔ ∃ id, s.workers.lookup id = some h

section Readers

variable (hs : Coherent fleet n s)
include hs

theorem Coherent.overloadedWorkerCount_eq (m : String) :
    s.overloadedWorkerCount m = (s.getByModel m).countP s.runtimes.isOverloaded := by
  have hempty : s.indexes.modelIndex.lookup m = none → s.modelOverloaded.lookup m = none := by
    intro hnone
    rw [hs.counts m, flaggedUnder, listed, hnone]
    rfl
  rw [overloadedWorkerCount, getByModel]
  rcases hm : s.indexes.modelIndex.lookup m with _ | ws
  · rw [hempty hm]
    rcases ha : s.indexes.modelAliasIndex.lookup m with _ | canonical
    · rfl
    · exact hs.counts.countOf canonical
  · have halias : s.indexes.modelAliasIndex.lookup m = none := by
      rcases ha : s.indexes.modelAliasIndex.lookup m with _ | canonical
      · rfl
      · have hnone := (hs.indexed.agree.declared m canonical ha).1
        rw [hm] at hnone
        cases hnone
    have hcount : countOf s.modelOverloaded m = ws.countP s.runtimes.isOverloaded := by
      rw [hs.counts.countOf, flaggedUnder, listed, hm]
      rfl
    rw [halias]
    simp only [← hcount, countOf]
    rcases s.modelOverloaded.lookup m with _ | count <;> rfl

theorem Coherent.perm_snapshot (hn : n < usizeMax) (order : Shuffle H) :
    (s.currentGlobalRoutingSnapshot order).2.Perm (s.workers.entries.map Sigma.snd) := by
  rw [Registry.currentGlobalRoutingSnapshot]
  split_ifs with hepoch
  · rcases hs.snapshot with hmarker | ⟨-, hperm⟩
    · have hle := hs.epoch_le
      rw [hmarker] at hepoch
      exact absurd hepoch.symm (by simp only; omega)
    · exact hperm
  · exact order.perm _

theorem Coherent.nodup_workers :
    (s.workers.entries.map Sigma.snd).Nodup := by
  refine (nodup_map_iff_inj_on s.workers.nodupKeys.nodup).mpr ?_
  rintro ⟨i, x⟩ hx ⟨j, y⟩ hy hxy
  subst hxy
  rw [hs.indexed.ids.id_unique (AList.mem_lookup_iff.mpr hx) (AList.mem_lookup_iff.mpr hy)]

theorem Coherent.agrees (hn : n < usizeMax) : Agrees fleet s where
  found := hs.indexed.ids.id_of_worker
  only_registered := hs.indexed.ids.worker_of_url
  lists := by
    intro m l hl
    refine ⟨fun hnil => hs.indexed.agree.exact.ne_nil m (hnil ▸ hl), ?_⟩
    have hnodup := hs.indexed.agree.exact.nodup m
    rwa [listed, hl] at hnodup
  listed := hs.indexed.agree.exact.mem_iff
  types := hs.indexed.types
  modes := hs.indexed.modes
  aliases := by
    intro a m hl
    obtain ⟨hnone, hor⟩ := hs.indexed.agree.declared a m hl
    exact ⟨hnone, hor.resolve_right (by simp)⟩
  counts := hs.overloadedWorkerCount_eq
  snapshot := by
    intro order
    have hperm := hs.perm_snapshot hn order
    exact ⟨hperm.nodup_iff.mpr hs.nodup_workers,
      fun h => hperm.mem_iff.trans registeredIn_iff_mem.symm⟩

end Readers

/-- **The registry agrees with its workers** after any calls, one after another, as long as fewer
than `2 ^ 64 - 1` of them may change the workers. -/
theorem registry_agrees [DecidableEq H] (fleet : Fleet H) (placing : Placing)
    (calls : List (Call H)) (hcalls : calls.countP Call.changes < usizeMax) :
    Agrees fleet (calls.foldl (exec fleet placing) (new fleet)) := by
  have hs := @Coherent.run H fleet placing (new fleet) 0 coherent_new _ calls
    (by rw [usizeMax] at hcalls; omega)
  rw [Nat.zero_add] at hs
  exact hs.agrees hcalls

/-- Two workers of one model, one of which knows it by an alias. -/
def pairFleet : Fleet Bool where
  worker b :=
    { url := if b then "http://a:1" else "http://b:1"
      models := [⟨"llama", if b then ["chat"] else []⟩]
      modelId := "llama"
      workerType := if b then .prefill else .decode
      connectionMode := .grpc }
  runtime b := if b then 0 else 1
  runtime_url b b' h := by
    rcases b with _ | _ <;> rcases b' with _ | _ <;> simp_all

/-- Both register, one is flagged, and the other leaves. -/
def pairCalls : List (Call Bool) :=
  [.register (still String) true, .register (still String) false,
    .setWorkerOverloaded false true, .remove (still String) 0]

theorem registry_agrees_pair :
    pairCalls.countP Call.changes < usizeMax ∧
      Agrees pairFleet (pairCalls.foldl (exec pairFleet .byLength) (new pairFleet)) :=
  ⟨by decide, registry_agrees pairFleet .byLength pairCalls (by decide)⟩

end Registry

end Smg.Gateway
