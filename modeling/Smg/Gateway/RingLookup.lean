import Smg.Gateway.HashRing

/-!
# Lookups on the hash ring

`find_healthy_url` walks the ring from the position of a key and returns the first URL that is
healthy.  The walk comes by the virtual nodes at or behind the position and then by the others, each
part in the order of the positions (`Ahead`), so the answer is the URL of the nearest virtual node
of a healthy URL (`Answers`).  Where the virtual nodes of different URLs have different positions,
this depends on the healthy URLs alone: not on how the ring came to be, and not on the other URLs.
-/

set_option autoImplicit false

namespace Smg.Gateway.HashRing

open List

variable (placing : Placing)

/-! ## The walk -/

/-- An entry with the URL of its number; every number of a ring has one. -/
def resolve (urls : List String) (entry : Nat × Nat) : Nat × String :=
  (entry.1, urls.getD entry.2 "")

/-- The URLs of the entries in turn, past those that were checked. -/
def walk (urls : List String) (isHealthy : String → Bool) :
    List (Nat × Nat) → (checked : List String) → Option String
  | [], _ => none
  | entry :: rest, checked =>
    let url := (resolve urls entry).2
    if url ∈ checked then walk urls isHealthy rest checked
    else if isHealthy url then some url
    else walk urls isHealthy rest (url :: checked)

/-- The entries from the first one that is not before a position, around the ring. -/
def clockwise (pos : Nat) (entries : List (Nat × Nat)) : List (Nat × Nat) :=
  entries.dropWhile (·.1 < pos) ++ entries.takeWhile (·.1 < pos)

def findHealthyUrl (ring : HashRing) (key : String) (isHealthy : String → Bool) : Option String :=
  walk ring.urls isHealthy (clockwise (placing.hashPosition key) ring.entries) []

theorem walk_eq (urls : List String) {isHealthy : String → Bool} (entries : List (Nat × Nat))
    {checked : List String} (hchecked : ∀ url ∈ checked, isHealthy url = false) :
    walk urls isHealthy entries checked =
      (entries.find? (isHealthy <| resolve urls · |>.2)).map (resolve urls · |>.2) := by
  induction entries generalizing checked with
  | nil => rfl
  | cons e es ih =>
    rw [walk, find?_cons]
    split
    next hmem => rw [ih hchecked, hchecked _ hmem]
    · split
      next hok => rw [hok]; rfl
      next hno =>
        rw [Bool.not_eq_true] at hno
        rw [ih (forall_mem_cons.mpr ⟨hno, hchecked⟩), hno]

theorem mem_clockwise {pos : Nat} {entries : List (Nat × Nat)} {e : Nat × Nat} :
    e ∈ clockwise pos entries ↔ e ∈ entries := by
  rw [clockwise, mem_append, or_comm, ← mem_append, takeWhile_append_dropWhile]

/-- A walk from `pos` comes by `a` no later than by `b`. -/
def Ahead (pos a b : Nat) : Prop := if a < pos then b < pos ∧ a ≤ b else b < pos ∨ a ≤ b

theorem Ahead.antisymm {pos a b : Nat} (hab : Ahead pos a b) (hba : Ahead pos b a) : a = b := by
  unfold Ahead at hab hba
  split_ifs at hab hba <;> omega

theorem ahead_clockwise {entries : List (Nat × Nat)} (pos : Nat)
    (h : entries.Pairwise fun a b => byPosition a b) :
    (clockwise pos entries).Pairwise fun a b => Ahead pos a.1 b.1 := by
  have hle : entries.Pairwise fun a b => a.1 ≤ b.1 := h.imp of_decide_eq_true
  have hdrop : ∀ a ∈ entries.dropWhile (·.1 < pos), pos ≤ a.1 := by
    clear h
    induction entries with
    | nil => simp
    | cons e es ih =>
      obtain ⟨he, hes⟩ := pairwise_cons.mp hle
      by_cases hlt : e.1 < pos
      · rw [dropWhile_cons_of_pos (by simpa using hlt)]
        exact ih hes
      · rw [dropWhile_cons_of_neg (by simpa using hlt)]
        exact forall_mem_cons.mpr ⟨by omega, fun a ha => by have := he a ha; omega⟩
  have htake : ∀ a ∈ entries.takeWhile (·.1 < pos), a.1 < pos := fun a ha =>
    of_decide_eq_true (all_eq_true.mp all_takeWhile a ha)
  refine pairwise_append.mpr ⟨?_, ?_, fun a ha b hb => ?_⟩
  · refine (hle.sublist (dropWhile_sublist _)).imp_of_mem fun {a b} ha _ hab => ?_
    rw [Ahead, if_neg (hdrop a ha).not_gt]
    exact .inr hab
  · refine (hle.sublist (takeWhile_sublist _)).imp_of_mem fun {a b} ha hb hab => ?_
    rw [Ahead, if_pos (htake a ha)]
    exact ⟨htake b hb, hab⟩
  · rw [Ahead, if_neg (hdrop a ha).not_gt]
    exact .inl (htake b hb)

/-! ## The answer -/

def IsNode (urls : Set String) (node : Nat × String) : Prop :=
  node.2 ∈ urls ∧ ∃ vnode < virtualNodesPerWorker,
    placing.hashPosition (node.2 ++ "#" ++ toString vnode) = node.1

/-- Virtual nodes at one position are of one URL. -/
def Distinct (urls : Set String) : Prop :=
  ∀ a b, IsNode placing urls a → IsNode placing urls b → a.1 = b.1 → a = b

/-- The URL of the virtual node that a walk from a position comes by first, if there is any. -/
inductive Answers (urls : Set String) (pos : Nat) : Option String → Prop
  | found (node : Nat × String) (isNode : IsNode placing urls node)
      (first : ∀ b, IsNode placing urls b → Ahead pos node.1 b.1) :
      Answers urls pos (some node.2)
  | none (empty : ∀ url, url ∉ urls) : Answers urls pos none

variable {placing}

theorem IsNode.subset {us vs : Set String} {node : Nat × String}
    (h : IsNode placing vs node) (hsub : vs ⊆ us) : IsNode placing us node :=
  h.imp_left (@hsub _)

section

variable {us : Set String} {pos : Nat} {x y : Option String} (hdistinct : Distinct placing us)

include hdistinct

theorem Distinct.subset {vs : Set String} (hsub : vs ⊆ us) : Distinct placing vs :=
  fun a b ha hb => hdistinct a b (ha.subset hsub) (hb.subset hsub)

theorem Answers.unique (hx : Answers placing us pos x) (hy : Answers placing us pos y) :
    x = y := by
  cases hx with
  | found a ha hfirst =>
    cases hy with
    | found b hb hfirst' =>
      rw [hdistinct a b ha hb ((hfirst b hb).antisymm (hfirst' a ha))]
    | none hempty => exact absurd ha.1 (hempty _)
  | none hempty =>
    cases hy with
    | found b hb => exact absurd hb.1 (hempty _)
    | none => rfl

/-- Fewer URLs change the answer only for the keys of a URL that is left out. -/
theorem Answers.subset {vs : Set String} (hsub : vs ⊆ us) (hx : Answers placing us pos x)
    (hy : Answers placing vs pos y) : y = x ∨ ∃ url, x = some url ∧ url ∉ vs := by
  cases hx with
  | found a ha hfirst =>
    by_cases hurl : a.2 ∈ vs
    · exact .inl (hy.unique (hdistinct.subset hsub)
        (.found a ⟨hurl, ha.2⟩ fun b hb => hfirst b (hb.subset hsub)))
    · exact .inr ⟨a.2, rfl, hurl⟩
  | none hempty =>
    exact .inl (hy.unique (hdistinct.subset hsub) (.none fun url hurl => hempty url (hsub hurl)))

end

/-! ## Rings -/

variable (placing) in
/-- A ring that was built or reconciled any number of times, the last time to some URLs.  Each list
has fewer distinct URLs than `u32` can number. -/
inductive Reconciled : HashRing → List String → Prop
  | new (urls : List String) (few : urls.eraseDups.length ≤ u32Max) :
      Reconciled (new placing urls) urls
  | updated {ring : HashRing} {before : List String} (urls : List String)
      (few : urls.eraseDups.length ≤ u32Max) (h : Reconciled ring before) :
      Reconciled (ring.updated placing urls) urls

variable {ring : HashRing} {urls : List String}

theorem Reconciled.placed (h : Reconciled placing ring urls) :
    ring.Placed placing ∧ ring.Holds urls ∧ ring.urls.length ≤ u32Max := by
  have hlen : ∀ {ring : HashRing} {urls : List String}, ring.Holds urls →
      urls.eraseDups.length ≤ u32Max → ring.urls.length ≤ u32Max := fun h few =>
    (subperm_of_subset h.nodup fun url hu =>
      mem_eraseDups.mpr ((h.mem_iff url).mp hu)).length_le.trans few
  induction h with
  | new urls few => exact ⟨placed_new _ _, holds_new _ _, few⟩
  | updated urls few h ih =>
    obtain ⟨hplaced, hholds, hold⟩ := ih
    have hnew := holds_updated placing hholds.nodup urls
    exact ⟨placed_updated placing hplaced hold (hlen hnew few), hnew, hlen hnew few⟩

/-- The entries are the virtual nodes of the URLs. -/
theorem Reconciled.isNode_iff (h : Reconciled placing ring urls) {node : Nat × String} :
    IsNode placing { url | url ∈ urls } node ↔
      ∃ e ∈ ring.entries, resolve ring.urls e = node := by
  obtain ⟨hplaced, hholds, hlen⟩ := h.placed
  have hresolve : ∀ {url : String} {i : Nat} (pos : Nat), ring.urls[i]? = some url →
      resolve ring.urls (pos, asU32 i) = (pos, url) := fun {url i} pos hi => by
    have hlt : i < ring.urls.length := (List.getElem?_eq_some_iff.mp hi).1
    have hnum : asU32 i = i := Nat.mod_eq_of_lt (by rw [u32Max] at hlen; omega)
    simp [resolve, hnum, hi]
  simp only [hplaced.perm.mem_iff, nodesOf, vnodesFor, mem_flatMap, mem_map, mem_range]
  constructor
  · rintro ⟨hurl, v, hv, hpos⟩
    obtain ⟨i, hi⟩ := mem_iff_getElem?.mp ((hholds.mem_iff _).mpr hurl)
    exact ⟨_, ⟨(node.2, i), mem_zipIdx_iff_getElem?.mpr hi, v, hv, rfl⟩,
      by rw [hresolve _ hi, hpos]⟩
  · rintro ⟨_, ⟨⟨url, i⟩, hi, v, hv, rfl⟩, rfl⟩
    have hi : ring.urls[i]? = some url := mem_zipIdx_iff_getElem?.mp hi
    rw [hresolve _ hi]
    exact ⟨(hholds.mem_iff url).mp (mem_of_getElem? hi), v, hv, rfl⟩

/-- **The answer of a ring** depends on its healthy URLs alone. -/
theorem Reconciled.answers (h : Reconciled placing ring urls) (key : String)
    (isHealthy : String → Bool) :
    Answers placing { url | url ∈ urls ∧ isHealthy url } (placing.hashPosition key)
      (ring.findHealthyUrl placing key isHealthy) := by
  have hahead := ahead_clockwise (placing.hashPosition key) h.placed.1.sorted
  have hmem : ∀ e, e ∈ clockwise (placing.hashPosition key) ring.entries ↔ e ∈ ring.entries :=
    fun _ =>
    mem_clockwise
  rw [findHealthyUrl, walk_eq _ _ (by simp)]
  cases hfind : (clockwise (placing.hashPosition key) ring.entries).find? _ with
  | none =>
    refine .none fun url ⟨hurl, hok⟩ => ?_
    have hnode : IsNode placing { url | url ∈ urls }
      (placing.hashPosition (url ++ "#" ++ toString 0), url) := ⟨hurl, 0, by decide, rfl⟩
    obtain ⟨e, he, hres⟩ := h.isNode_iff.mp hnode
    have hno := find?_eq_none.mp hfind e ((hmem e).mpr he)
    rw [hres] at hno
    exact hno hok
  | some e =>
    obtain ⟨hok, before, after, hsplit, hbefore⟩ := find?_eq_some_iff_append.mp hfind
    rw [hsplit] at hahead hmem
    obtain ⟨hurl, hv⟩ := h.isNode_iff.mpr ⟨e, (hmem e).mp (by simp), rfl⟩
    refine .found (resolve ring.urls e) ⟨⟨hurl, hok⟩, hv⟩ fun b hb => ?_
    obtain ⟨e', he', rfl⟩ := h.isNode_iff.mp (hb.subset fun _ hurl => hurl.1)
    rcases mem_append.mp ((hmem e').mpr he') with hin | hin
    · exact absurd hb.1.2 (by simpa using hbefore e' hin)
    · rcases mem_cons.mp hin with rfl | hin
      · unfold Ahead
        split <;> simp [*]
      · exact (pairwise_cons.mp (pairwise_append.mp hahead).2.1).1 e' hin

/-- **Rings are consistent.**  A ring answers as one that is built from its last URLs, and as one
that is built from the healthy ones alone.  A ring of fewer URLs, or of fewer healthy ones, gives
another answer only for keys of a URL it does not have or that is not healthy there. -/
theorem reconciled_ring_consistent (h : Reconciled placing ring urls)
    (hdistinct : Distinct placing { url | url ∈ urls }) (key : String)
    (isHealthy : String → Bool) :
    let answer := ring.findHealthyUrl placing key isHealthy
    answer = (new placing urls).findHealthyUrl placing key isHealthy ∧
    answer = (new placing (urls.filter isHealthy)).findHealthyUrl placing key
      (fun _ => true) ∧
    ∀ {ring' : HashRing} {urls' : List String} {isHealthy' : String → Bool},
      Reconciled placing ring' urls' → urls' ⊆ urls →
      (∀ url, isHealthy' url → isHealthy url) →
      ring'.findHealthyUrl placing key isHealthy' = answer ∨
        ∃ url, answer = some url ∧ ¬ (url ∈ urls' ∧ isHealthy' url) := by
  have hfew : ∀ p, (urls.filter p).eraseDups.length ≤ u32Max := fun p =>
    (subperm_of_subset (nodup_eraseDups _) fun url hu => by simp_all).length_le.trans
      (by cases h <;> assumption : urls.eraseDups.length ≤ u32Max)
  have hdistinct' : Distinct placing { url | url ∈ urls ∧ isHealthy url } :=
    hdistinct.subset fun _ hurl => hurl.1
  have hnew := fun p => @Reconciled.answers placing _ _ (.new _ (hfew p)) key
  refine ⟨(h.answers key isHealthy).unique hdistinct' ?_,
    (h.answers key isHealthy).unique hdistinct' ?_, fun h' hsub hless => ?_⟩
  · simpa using hnew (fun _ => true) isHealthy
  · simpa using hnew isHealthy fun _ => true
  · exact (h.answers key isHealthy).subset hdistinct' (fun url hu => ⟨hsub hu.1, hless url hu.2⟩)
      (h'.answers key _)

/-- Positions for the tests below: the code of the first letter. -/
@[irreducible]
def byLetter : Placing := ⟨fun s => (s.toList.headD ' ').toNat, .stable _⟩

theorem reconciled_ring_consistent_added :
    ((new byLetter ["a"]).updated byLetter ["b", "a"]).findHealthyUrl byLetter "x"
      (· == "a") = (new byLetter ["b", "a"]).findHealthyUrl byLetter "x" (· == "a") := by
  have hdistinct : Distinct byLetter { url | url ∈ ["b", "a"] } := by
    rintro a b ⟨ha, v, -, hva⟩ ⟨hb, w, -, hwb⟩ hij
    refine Prod.ext hij ?_
    rw [← hva, ← hwb] at hij
    rcases mem_pair.mp ha with ha | ha <;> rcases mem_pair.mp hb with hb | hb <;>
      simp [byLetter, ha, hb] at hij ⊢
  exact (reconciled_ring_consistent (.updated _ (by decide) (.new _ (by decide))) hdistinct _ _).1

/-- **A key is served as long as a URL is healthy**: a ring, however it was reconciled, answers with
a healthy one of its last URLs, and with nothing only where there is none. -/
theorem served_while_healthy (h : Reconciled placing ring urls) (key : String)
    (isHealthy : String → Bool) :
    match ring.findHealthyUrl placing key isHealthy with
    | some url => url ∈ urls ∧ isHealthy url
    | none => ∀ url ∈ urls, ¬ isHealthy url := by
  have hanswers := h.answers key isHealthy
  generalize ring.findHealthyUrl placing key isHealthy = answer at hanswers ⊢
  cases hanswers with
  | found node isNode => exact isNode.1
  | none hempty => exact fun url hurl hok => hempty url ⟨hurl, hok⟩

/-- The ring is reconciled from one URL to two others, of which only the second is healthy. -/
theorem served_while_healthy_updated :
    ((new byLetter ["a"]).updated byLetter ["b", "c"]).findHealthyUrl byLetter "x" (· == "c") =
      some "c" := by
  have hring : Reconciled byLetter ((new byLetter ["a"]).updated byLetter ["b", "c"]) ["b", "c"] :=
    .updated _ (by decide) (.new _ (by decide))
  have h := served_while_healthy hring "x" (· == "c")
  generalize ((new byLetter ["a"]).updated byLetter ["b", "c"]).findHealthyUrl byLetter "x"
    (· == "c") = answer at h ⊢
  cases answer with
  | some url => rw [beq_iff_eq.mp h.2]
  | none => exact absurd rfl (h "c" (by simp))

end Smg.Gateway.HashRing
