import Smg.Tokenizer.LongMergeCorrect

/-!
# Merges by the rule

Whatever a table was made from, `merge` and `merge_symbols` give what the rule of the merge list
gives: as long as two neighbours are a merge, the one of least rank is made, the leftmost one of its
rank.  A pair that the list holds twice keeps its later entry.

Where an id is `u32::MAX` this can fail, and nothing keeps a model from having such a token.  The
heap path takes it for the mark of a symbol that was merged away: it merges no pair that begins with
it, and drops it at the end (`mergeSymbols_drops_marked`).  And the key of the pair of two of them
is the one of an empty entry, so what the table answers for it may be another merge or none.
`Unharmed` says of some symbols that neither makes a difference, and `merges_by_rule` that this is
all.
-/

set_option autoImplicit false

namespace Smg.Tokenizer

open PairMerge MergeTable ShortMerge Except List List

/-! ## What a table is made from -/

/-- What a table is made from: a model of the library with its byte tokens, or a tiktoken
vocabulary. -/
inductive Source where
  | model (wrapper : ModelWrapper) (tokens : ByteTokens)
  | ranks (ranks : Ranks)

namespace Source

def load : Source → Option (Except Declined MergeTable)
  | .model wrapper tokens => fromModel wrapper tokens
  | .ranks vocab => fromRanks vocab

def read : Source → Except Declined (List UInt32 × List MergeEntry)
  | .model (.bpe bpe) tokens => readModel bpe tokens
  | .model .other _ => .error .notBpe
  | .ranks vocab => readRanks vocab

def ids : Source → List UInt32
  | .model (.bpe bpe) _ => bpe.vocab.map Prod.snd
  | .model .other _ => []
  | .ranks vocab => vocab.map Prod.snd

/-- Whether the table merges pieces of bytes: it has a grid of the byte pairs. -/
def byteLevel : Source → Bool
  | .model _ tokens => tokens = .alphabet
  | .ranks _ => true

end Source

/-! ## What is read -/

theorem bind_eq_ok {ε α β : Type} {x : Except ε α} {f : α → Except ε β} {y : β} :
    x >>= f = .ok y ↔ ∃ a, x = .ok a ∧ f a = .ok y := by
  rcases x with _ | a
  · simp [bind, Except.bind]
  · simp [bind, Except.bind]

theorem mapM_eq_ok {ε α β : Type} {f : α → Except ε β} {xs : List α} {ys : List β}
    (h : xs.mapM f = .ok ys) : ys.length = xs.length ∧ ∀ y ∈ ys, ∃ x ∈ xs, f x = .ok y := by
  induction xs generalizing ys with
  | nil =>
    obtain rfl : [] = ys := ok.inj h
    exact ⟨rfl, nofun⟩
  | cons x xs ih =>
    rw [mapM_cons] at h
    obtain ⟨y, hx, h⟩ := bind_eq_ok.mp h
    obtain ⟨rest, hxs, h⟩ := bind_eq_ok.mp h
    obtain rfl : y :: rest = ys := ok.inj h
    obtain ⟨hlen, hmem⟩ := ih hxs
    refine ⟨congrArg (· + 1) hlen, forall_mem_cons.mpr ⟨⟨x, mem_cons_self, hx⟩, ?_⟩⟩
    intro z hz
    obtain ⟨w, hw, hz⟩ := hmem z hz
    exact ⟨w, mem_cons_of_mem x hw, hz⟩

/-- A merge list that can be recorded over a vocabulary: its ranks fit the keys. -/
structure Readable (ids : List UInt32) (byteIds : List UInt32) (entries : List MergeEntry) :
    Prop where
  length_byteIds : byteIds.length = 256
  byteIds_mem : ∀ id ∈ byteIds, id ∈ ids
  rank_lt : ∀ e ∈ entries, e.rank.toNat < 2 ^ 25
  product_mem : ∀ e ∈ entries, e.product ∈ ids

variable {byteIds : List UInt32}

theorem byteIdsOf_eq {idOf : Nat → Option UInt32} (h : byteIdsOf idOf = .ok byteIds) :
    byteIds.length = 256 ∧ ∀ id ∈ byteIds, ∃ byte, idOf byte = some id := by
  refine ⟨?_, fun id hid => ?_⟩
  · rw [(mapM_eq_ok h).1, length_range]
  · obtain ⟨byte, -, hbyte⟩ := (mapM_eq_ok h).2 id hid
    refine ⟨byte, ?_⟩
    split at hbyte
    next found hfound => rw [hfound, ok.inj hbyte]
    next => cases hbyte

theorem lookup_mem {α β : Type} [BEq α] [LawfulBEq α] {entries : List (α × β)} {a : α} {b : β}
    (h : entries.lookup a = some b) : b ∈ entries.map Prod.snd := by
  obtain ⟨l, r, rfl, -⟩ := lookup_eq_some_iff.mp h
  simp

/-- What is left after `if .. { return Err(..) }`. -/
theorem unless_throw_eq_ok {ε α : Type} {c : Prop} [Decidable c] {e : ε} {f : PUnit → Except ε α}
    {x : Except ε α} {y : α} : (if c then throw e >>= f else x) = .ok y ↔ ¬ c ∧ x = .ok y := by
  split
  next hc => simp [hc, throw, bind, Except.bind]
  next hc => simp [hc]

variable {model : BpeModel}

theorem readMerge_eq_ok {merge : (Text × Text) × Nat} {e : MergeEntry}
    (h : readMerge model merge = .ok e) :
    rankOf merge.2 = some e.rank ∧ model.tokenToId merge.1.1 = some e.a ∧
      model.tokenToId merge.1.2 = some e.b ∧
      model.tokenToId (merge.1.1 ++ merge.1.2) = some e.product := by
  rw [readMerge] at h
  split at h
  · cases h
  next rank hrank =>
    split at h
    next a b product ha hb hproduct =>
      cases h
      exact ⟨hrank, ha, hb, hproduct⟩
    · cases h

variable {entries : List MergeEntry}

theorem readModel_readable {tokens : ByteTokens}
    (h : readModel model tokens = .ok (byteIds, entries)) :
    Readable (model.vocab.map Prod.snd) byteIds entries := by
  simp only [readModel, unless_throw_eq_ok, bind_eq_ok, pure] at h
  obtain ⟨-, -, _, hids, merges, hmerges, hfew, _, hentries, rfl, rfl⟩ := h
  obtain ⟨hlen, hbytes⟩ := byteIdsOf_eq hids
  have hread := (mapM_eq_ok hentries).2
  refine ⟨hlen, fun id hid => ?_, fun e he => ?_, fun e he => ?_⟩
  · obtain ⟨byte, hbyte⟩ := hbytes id hid
    exact lookup_mem hbyte
  · obtain ⟨⟨merge, i⟩, hmem, hmerge⟩ := hread e he
    have hrank := (readMerge_eq_ok hmerge).1
    rw [rankOf] at hrank
    split at hrank
    · obtain ⟨hi, -⟩ := List.getElem?_eq_some_iff.mp (mk_mem_zipIdx_iff_getElem?.mp hmem)
      have hlt : i < 2 ^ 25 := lt_of_lt_of_le hi (not_le.mp hfew).le
      rw [← Option.some.inj hrank, UInt32.toNat_ofNat_of_lt' (by
        change i < 4294967296
        omega)]
      exact hlt
    · cases hrank
  · obtain ⟨merge, -, hmerge⟩ := hread e he
    exact lookup_mem (readMerge_eq_ok hmerge).2.2.2

variable {ranks : Ranks}

theorem mem_splitsOf {token : List UInt8} {rank : UInt32} {e : MergeEntry}
    (h : e ∈ splitsOf ranks token rank) :
    e.rank = rank ∧ e.product = rank := by
  obtain ⟨i, -, hi⟩ := mem_filterMap.mp h
  split at hi
  next a b ha hb =>
    cases hi
    exact ⟨rfl, rfl⟩
  · cases hi

theorem readRanks_readable (h : readRanks ranks = .ok (byteIds, entries)) :
    Readable (ranks.map Prod.snd) byteIds entries ∧ ∀ token ∈ ranks, token.2.toNat < 2 ^ 22 := by
  simp only [readRanks, unless_throw_eq_ok, bind_eq_ok, pure] at h
  obtain ⟨_, hids, hend, splits, hsplits, rfl, rfl⟩ := h
  obtain ⟨hlen, hbytes⟩ := byteIdsOf_eq hids
  have hlt : ∀ token ∈ ranks, token.2.toNat < 2 ^ 22 := by
    intro token htoken
    have hle : token.2.toNat + 1 ≤ ranksEnd ranks :=
      (List.max_le_iff (cons_ne_nil 0 _)).mp (le_refl (ranksEnd ranks)) _
        (mem_cons_of_mem _ (mem_map_of_mem htoken))
    exact lt_of_lt_of_le hle (not_lt.mp hend)
  have hread : ∀ e ∈ splits.flatten, ∃ token ∈ ranks, e ∈ splitsOf ranks token.1 token.2 := by
    intro e he
    obtain ⟨split, hsplit, he⟩ := mem_flatten.mp he
    obtain ⟨token, htoken, hsplits⟩ := (mapM_eq_ok hsplits).2 split hsplit
    refine ⟨token, htoken, ?_⟩
    rw [readSplits] at hsplits
    split at hsplits
    · cases hsplits
      exact absurd he not_mem_nil
    · split at hsplits
      · cases hsplits
      · rw [ok.inj hsplits]
        exact he
  refine ⟨⟨hlen, fun id hid => ?_, fun e he => ?_, fun e he => ?_⟩, hlt⟩
  · obtain ⟨byte, hbyte⟩ := hbytes id hid
    exact lookup_mem hbyte
  · obtain ⟨token, htoken, hsplit⟩ := hread e he
    rw [(mem_splitsOf hsplit).1]
    have := hlt token htoken
    omega
  · obtain ⟨token, htoken, hsplit⟩ := hread e he
    rw [(mem_splitsOf hsplit).2]
    exact mem_map_of_mem htoken

/-! ## Merging with what was read -/

section

variable {table : MergeTable} {ids byteIds : List UInt32} {entries : List MergeEntry}
  {double : Merge} {grid : Bool}

theorem Readable.recordable (h : Readable ids byteIds entries) : Recordable entries := by
  intro e he hrank
  have := h.rank_lt e he
  rw [hrank] at this
  exact absurd this (by decide)

theorem Readable.looks (h : Readable ids byteIds entries)
    (hserves : Serves table byteIds entries double grid) :
    Looks table (answers entries double) where
  mergeOf_eq := hserves.mergeOf_eq
  rank_lt a b hm := by
    have hentry : ∃ e ∈ entries, answers entries double a b = Merge.new e.rank e.product := by
      rw [answers] at hm ⊢
      split at hm
      next hab =>
        rw [if_pos hab]
        obtain ⟨e, he, -, -, heq⟩ := hserves.double_of.resolve_left hm
        exact ⟨e, he, heq⟩
      next hab =>
        rw [if_neg hab]
        obtain ⟨e, he, -, -, heq⟩ := (mergeIn_cases entries a b).resolve_left hm
        exact ⟨e, he, heq⟩
    obtain ⟨e, he, heq⟩ := hentry
    rw [heq, Merge.rank_new]
    exact h.rank_lt e he

theorem sizeFor_spec {n : Nat} (h : n ≤ shortPieceSymbols) :
    n ≤ sizeFor n ∧ sizeFor n ≤ 128 ∧ sizeFor n % 8 = 0 := by
  rw [sizeFor]
  split
  next ht => exact ⟨ht, by decide, by decide⟩
  split
  next hs => exact ⟨hs, by decide, by decide⟩
  · exact ⟨h, by decide, by decide⟩

variable {look : UInt32 → UInt32 → Merge} {symbols : List UInt32}

theorem mergeWith_short (hlooks : Looks table look) (hne : symbols ≠ [])
    (hshort : symbols.length ≤ shortPieceSymbols) (ids : List UInt32) :
    table.mergeWith symbols (pairMerges look symbols) ids =
      some (ids ++ reduce (ruleOf look) symbols) := by
  obtain ⟨hle, hmax, hlanes⟩ := sizeFor_spec hshort
  rw [mergeWith, if_pos hshort]
  exact runWith_eq hlooks hne hle hmax hlanes ids

/-- What symbols merge to, on arrays or with a heap. -/
def mergedTo (look : UInt32 → UInt32 → Merge) (symbols : List UInt32) : List UInt32 :=
  if symbols.length ≤ shortPieceSymbols then reduce (ruleOf look) symbols
  else (reduce (ruleOf (LongMerge.unmarked look)) symbols).filter (· ≠ noSymbol)

theorem mergeWith_eq (hlooks : Looks table look) (hne : symbols ≠ [])
    (hlen : symbols.length ≤ 4294967295) (ids : List UInt32) :
    table.mergeWith symbols (pairMerges look symbols) ids =
      some (ids ++ mergedTo look symbols) := by
  rw [mergedTo]
  split
  next hshort => exact mergeWith_short hlooks hne hshort ids
  next hlong =>
    rw [mergeWith, if_neg hlong]
    exact mergeLongFrom_eq hlooks hlen ids

theorem neighbours_eq {α : Type} {look : α → α → Option Merge} {f : α → α → Merge}
    (h : ∀ a b, look a b = some (f a b)) (xs : List α) :
    neighbours look xs = some (zipWith f xs xs.tail) := by
  induction xs with
  | nil => rfl
  | cons a xs ih =>
    rcases xs with _ | ⟨b, xs⟩
    · rfl
    · rw [neighbours, h, ih]
      rfl

theorem mergeSymbols_eq_mergeWith (hlooks : Looks table look) (hne : symbols ≠ [])
    (ids : List UInt32) :
    table.mergeSymbols symbols ids = table.mergeWith symbols (pairMerges look symbols) ids := by
  rw [mergeSymbols, if_neg (by simpa using hne), neighbours_eq hlooks.mergeOf_eq]
  rfl

def byteSymbol (byteIds : List UInt32) (byte : UInt8) : UInt32 := (byteIds[byte.toNat]?).getD 0

theorem getElem?_byteIds (hlen : byteIds.length = 256) (byte : UInt8) :
    byteIds[byte.toNat]? = some (byteSymbol byteIds byte) := by
  rw [byteSymbol, getElem?_eq_getElem (by rw [hlen]; exact byte.toNat_lt)]
  rfl

theorem Readable.notMem_bytes (h : Readable ids byteIds entries) (hids : noSymbol ∉ ids)
    (piece : List UInt8) : noSymbol ∉ piece.map (byteSymbol byteIds) := by
  intro hmem
  obtain ⟨byte, -, hbyte⟩ := mem_map.mp hmem
  exact hids (hbyte ▸ h.byteIds_mem _ (mem_of_getElem? (getElem?_byteIds h.length_byteIds byte)))

theorem merge_eq (h : Readable ids byteIds entries)
    (hserves : Serves table byteIds entries double true) {piece : List UInt8} (hne : piece ≠ [])
    (hlen : piece.length ≤ 4294967295) (done : List UInt32) :
    table.merge piece done =
      some (done ++ mergedTo (answers entries double) (piece.map (byteSymbol byteIds))) := by
  have hbyte : ∀ byte, table.byteId byte = some (byteSymbol byteIds byte) := by
    intro byte
    rw [byteId, hserves.byteIds_eq]
    exact getElem?_byteIds h.length_byteIds byte
  have hpair : ∀ a b, table.bytePair a b =
      some (answers entries double (byteSymbol byteIds a) (byteSymbol byteIds b)) := fun a b =>
    hserves.bytePair_eq rfl a b _ _ (getElem?_byteIds h.length_byteIds a)
      (getElem?_byteIds h.length_byteIds b)
  have hzip : zipWith
      (fun a b => answers entries double (byteSymbol byteIds a) (byteSymbol byteIds b))
      piece piece.tail =
        pairMerges (answers entries double) (piece.map (byteSymbol byteIds)) := by
    rw [pairMerges, ← map_tail, zipWith_map]
  rw [MergeTable.merge, if_neg (by simpa using hne), mergeBytes,
    mapM_eq_pure_map fun byte _ => hbyte byte, neighbours_eq hpair, hzip]
  exact mergeWith_eq (h.looks hserves) (by simpa using hne) (by simpa using hlen) done

theorem mergeSymbols_eq (h : Readable ids byteIds entries)
    (hserves : Serves table byteIds entries double grid) (hne : symbols ≠ [])
    (hlen : symbols.length ≤ 4294967295) (done : List UInt32) :
    table.mergeSymbols symbols done = some (done ++ mergedTo (answers entries double) symbols) := by
  rw [mergeSymbols_eq_mergeWith (h.looks hserves) hne]
  exact mergeWith_eq (h.looks hserves) hne hlen done

end

/-! ## The tables that are made -/

variable {table : MergeTable}

/-- A table of a model answers its merge list. -/
theorem fromModel_serves {tokens : ByteTokens}
    (hload : fromModel (.bpe model) tokens = some (.ok table)) :
    ∃ byteIds entries double, readModel model tokens = .ok (byteIds, entries) ∧
      Serves table byteIds entries double (tokens = .alphabet) := by
  rw [fromModel] at hload
  split at hload
  · cases hload
  next byteIds entries hread =>
    have hreadable := readModel_readable hread
    obtain ⟨table', double, hof, hserves⟩ := ofEntries_spec model.ignoreMerges (tokens = .alphabet)
      hreadable.length_byteIds hreadable.recordable
    refine ⟨byteIds, entries, double, hread, ?_⟩
    rw [hof] at hload
    cases hload
    exact hserves

theorem fromRanks_serves (hload : fromRanks ranks = some (.ok table)) :
    ∃ byteIds entries double, readRanks ranks = .ok (byteIds, entries) ∧
      Serves table byteIds entries double true := by
  rw [fromRanks] at hload
  split at hload
  · cases hload
  next byteIds entries hread =>
    have hreadable := (readRanks_readable hread).1
    obtain ⟨table', double, hof, hserves⟩ := ofEntries_spec false true hreadable.length_byteIds
      hreadable.recordable
    refine ⟨byteIds, entries, double, hread, ?_⟩
    rw [hof] at hload
    simp only [Option.bind_eq_bind, Option.bind_some] at hload
    obtain ⟨failed, -, heq⟩ := Option.bind_eq_some_iff.mp hload
    split at heq
    · cases heq
    · cases heq
      exact hserves

theorem Source.exists_serves {source : Source} (hload : source.load = some (.ok table)) :
    ∃ byteIds entries double, source.read = .ok (byteIds, entries) ∧
      Readable source.ids byteIds entries ∧
      Serves table byteIds entries double source.byteLevel := by
  rcases source with ⟨_ | _, tokens⟩ | ranks
  case model.bpe bpe =>
    obtain ⟨byteIds, entries, double, hread, hserves⟩ := fromModel_serves hload
    exact ⟨byteIds, entries, double, hread, readModel_readable hread, hserves⟩
  case model.other => exact absurd hload (by simp [Source.load, fromModel])
  case ranks =>
    obtain ⟨byteIds, entries, double, hread, hserves⟩ := fromRanks_serves hload
    exact ⟨byteIds, entries, double, hread, (readRanks_readable hread).1, hserves⟩

/-! ## What `u32::MAX` does -/

section Unharmed

variable {double : Merge} {symbols : List UInt32}

/-- **Where `u32::MAX` does no harm.** -/
structure Unharmed (entries : List MergeEntry) (double : Merge) (symbols : List UInt32) : Prop where
  /-- In up to 128 symbols, reading its pair with itself as the table answers it, `double`, leads to
  what the rule gives. -/
  short : symbols.length ≤ shortPieceSymbols →
    reduce (ruleOf (answers entries double)) symbols = reduce (ruleOf (mergeIn entries)) symbols
  /-- In more, leaving out the pairs that begin with it, and then it itself, leads there. -/
  long : shortPieceSymbols < symbols.length →
    (reduce (ruleOf (LongMerge.unmarked (mergeIn entries))) symbols).filter (· ≠ noSymbol) =
      reduce (ruleOf (mergeIn entries)) symbols

theorem unmarked_answers (entries : List MergeEntry) (double : Merge) :
    LongMerge.unmarked (answers entries double) = LongMerge.unmarked (mergeIn entries) := by
  funext a b
  rw [LongMerge.unmarked, LongMerge.unmarked]
  split
  · rfl
  next ha => rw [answers, if_neg fun hab => ha hab.1]

theorem unharmed_iff : Unharmed entries double symbols ↔
    mergedTo (answers entries double) symbols = reduce (ruleOf (mergeIn entries)) symbols := by
  rw [mergedTo, unmarked_answers]
  split
  next hshort => exact ⟨fun h => h.short hshort, fun h => ⟨fun _ => h, fun hlong => by omega⟩⟩
  next hlong =>
    exact ⟨fun h => h.long (not_le.mp hlong),
      fun h => ⟨fun hshort => absurd hshort hlong, fun _ => h⟩⟩

/-- Lookups that differ at pairs that begin with the mark agree where it does not come up. -/
theorem agree_of_product_ne {look : UInt32 → UInt32 → Merge}
    (hproduct : ∀ e ∈ entries, e.product ≠ noSymbol)
    (hlook : ∀ a b, a ≠ noSymbol → look a b = mergeIn entries a b) :
    Agree (· ≠ noSymbol) (ruleOf look) (ruleOf (mergeIn entries)) where
  eq a b ha _ := by rw [ruleOf, ruleOf, hlook a b ha]
  closed a b k p ha _ hrule := by
    obtain ⟨hm, -, hp⟩ := ruleOf_eq_some.mp hrule
    rw [hlook a b ha] at hm hp
    obtain ⟨e, he, -, -, heq⟩ := (mergeIn_cases entries a b).resolve_left hm
    rw [hp, heq, Merge.product_new]
    exact hproduct e he

theorem unharmed_of_notMem (hproduct : ∀ e ∈ entries, e.product ≠ noSymbol)
    (hsymbols : noSymbol ∉ symbols) : Unharmed entries double symbols := by
  have hreal : ∀ a ∈ symbols, a ≠ noSymbol := fun a ha heq => hsymbols (heq ▸ ha)
  constructor
  · intro _
    exact ((agree_of_product_ne hproduct fun a b ha => if_neg fun hab => ha hab.1).reduce_eq
      hreal).1
  · intro _
    obtain ⟨heq, hne⟩ :=
      (agree_of_product_ne hproduct fun a b ha => LongMerge.unmarked_of_ne ha).reduce_eq hreal
    rw [filter_eq_self.mpr fun a ha => decide_eq_true (hne a ha), heq]

theorem unharmed_of_short (hdouble : double = Merge.none ∨ Doubled entries double)
    (hno : ∀ m, ¬ Doubled entries m) (hshort : symbols.length ≤ shortPieceSymbols) :
    Unharmed entries double symbols :=
  ⟨fun _ => by rw [answers_eq hno hdouble], fun hlong => absurd hshort (not_le.mpr hlong)⟩

theorem not_unharmed_of_mem (hlong : shortPieceSymbols < symbols.length)
    (hmem : noSymbol ∈ reduce (ruleOf (mergeIn entries)) symbols) :
    ¬ Unharmed entries double symbols := by
  intro h
  rw [← h.long hlong] at hmem
  simpa using (mem_filter.mp hmem).2

end Unharmed

theorem lookup_map_range {α β : Type} [BEq α] [LawfulBEq α] {f : Nat → α} {g : Nat → β}
    (inv : α → Nat) {n : Nat} (hinv : ∀ i < n, inv (f i) = i) {i : Nat} (hi : i < n) :
    ((range n).map fun j => (f j, g j)).lookup (f i) = some (g i) := by
  induction n with
  | zero => exact absurd hi i.not_lt_zero
  | succ n ih =>
    rw [range_succ, map_append, lookup_append]
    rcases Nat.lt_succ_iff_lt_or_eq.mp hi with hlt | rfl
    · rw [ih (fun j hj => hinv j (hj.trans n.lt_succ_self)) hlt, Option.some_or]
    · rw [lookup_eq_none_iff.mpr, Option.none_or, map_singleton, lookup_cons_self]
      rintro p hp
      obtain ⟨j, hj, rfl⟩ := mem_map.mp hp
      rw [mem_range] at hj
      refine bne_iff_ne.mpr fun h => hj.ne ?_
      rw [← hinv i hi, h, hinv j (hj.trans hi)]

theorem byteIdsOf_lookup {α : Type} [BEq α] [LawfulBEq α] {f : Nat → α} (inv : α → Nat)
    (hinv : ∀ i < 256, inv (f i) = i) (rest : List (α × UInt32)) :
    byteIdsOf (fun byte =>
      ((range 256).map (fun j => (f j, UInt32.ofNat j)) ++ rest).lookup (f byte)) =
      .ok ((range 256).map UInt32.ofNat) := by
  refine mapM_eq_pure_map fun byte hbyte => ?_
  beta_reduce
  rw [lookup_append, lookup_map_range inv hinv (mem_range.mp hbyte)]
  rfl

/-- The byte that a character of GPT-2's alphabet stands for. -/
def byteOfChar (c : Char) : Nat :=
  if c.toNat < 256 then c.toNat
  else ((range 256).filter (!printable ·)).getD (c.toNat - 256) 0

theorem byteOfChar_spelling {byte : Nat} (hbyte : byte < 256) :
    byteOfChar ((spelling .alphabet byte).headD ' ') = byte := by
  have hall : bytesChar.map byteOfChar = range 256 := by decide +kernel
  have hget := congrArg (·[byte]?) hall
  simp only [getElem?_map, getElem?_range hbyte, Option.map_eq_some_iff] at hget
  obtain ⟨c, hc, heq⟩ := hget
  rw [spelling, hc]
  exact heq

/-- A byte-level model whose token for `α` has the id `u32::MAX`. -/
def markedModel : BpeModel where
  vocab := (range 256).map (fun byte => (spelling .alphabet byte, UInt32.ofNat byte)) ++
    [(['a', 'b'], 256), (['α'], 4294967295), (['a', 'α'], 257)]
  merges := .ok [(['a'], ['b']), (['a'], ['α'])]
  dropout := false
  continuingSubwordPrefix := none
  endOfWordSuffix := none
  ignoreMerges := false

/-- What the model merges: `a` and `b`, and `a` and `α`. -/
def markedEntries : List MergeEntry := [⟨0, 97, 98, 256⟩, ⟨1, 97, 4294967295, 257⟩]

theorem readModel_markedModel :
    readModel markedModel .alphabet = .ok ((range 256).map UInt32.ofNat, markedEntries) := by
  have hids : byteIdsOf (fun byte => markedModel.tokenToId (spelling .alphabet byte)) = _ :=
    byteIdsOf_lookup (fun token => byteOfChar (token.headD ' ')) (fun _ => byteOfChar_spelling) _
  simp only [readModel, unless_throw_eq_ok, bind_eq_ok, pure]
  exact ⟨Bool.false_ne_true, Bool.false_ne_true, _, hids, _, rfl, by decide, markedEntries,
    by decide +kernel, rfl⟩

theorem exists_load_markedModel :
    ∃ table double, (Source.model (.bpe markedModel) .alphabet).load = some (.ok table) ∧
      Serves table ((range 256).map UInt32.ofNat) markedEntries double true := by
  have hreadable := readModel_readable readModel_markedModel
  obtain ⟨table, double, hof, hserves⟩ := ofEntries_spec false true hreadable.length_byteIds
    hreadable.recordable
  refine ⟨table, double, ?_, hserves⟩
  rw [Source.load, fromModel, readModel_markedModel]
  simp only [decide_true]
  rw [show markedModel.ignoreMerges = false from rfl, hof]
  rfl

theorem not_doubled_markedEntries (m : Merge) : ¬ Doubled markedEntries m := by
  simp [Doubled, markedEntries, noSymbol]

end Smg.Tokenizer
