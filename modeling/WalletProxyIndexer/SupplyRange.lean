import WalletProxyIndexer.SupplyAccounting

/-!
# Supplies out of range

`cis2_tokens.total_supply` holds 80 digits.  One amount fits, a sum of amounts need
not: contracts are free to mint without bound.  A total out of range fails the block
with a Postgres error, which `use_db` takes for a lost connection: it reconnects and
inserts the same block again, and again.

`attempts` are the tables before each such attempt.  `NeverWedged` says that a list of
blocks cannot get the indexer there; it holds exactly when every total the history of
mints and burns passes through is in range (`supplyInRange`).
-/

namespace WalletProxyIndexer

open Transaction

/-! ## Histories in range -/

/-- Every amount, and every total a key passes through, is below 10^80. -/
def supplyInRange (events : List SupplyEvent) : Prop :=
  ∀ k es e, es ++ [e] <+: ofKey k events →
    e.amount < 10 ^ 80 ∧ ∀ x, keyTotal (es ++ [e]) = some x → x.natAbs < 10 ^ 80

theorem numericFits_iff (x : Int) : numericFits x = true ↔ x.natAbs < 10 ^ 80 := by
  simp [numericFits]

theorem ofKey_concat_self (es : List SupplyEvent) (e : SupplyEvent) :
    ofKey e.key (es ++ [e]) = ofKey e.key es ++ [e] := by
  simp [ofKey]

theorem ofKey_concat_ne (es : List SupplyEvent) {e : SupplyEvent} {k : Cis2Key} (h : e.key ≠ k) :
    ofKey k (es ++ [e]) = ofKey k es := by
  simp [ofKey, h]

theorem keyTotal_concat (es : List SupplyEvent) (e : SupplyEvent) :
    keyTotal (es ++ [e]) = some (e.stored (keyTotal es)) := by
  cases es with
  | nil => simp [keyTotal, SupplyEvent.stored, net]
  | cons e' es =>
    simp only [List.cons_append, keyTotal, SupplyEvent.stored, Option.some.injEq]
    simp only [net, List.map_append, List.sum_append, List.map_singleton, List.sum_singleton]
    omega

theorem supplyInRange_concat (es : List SupplyEvent) (e : SupplyEvent) :
    supplyInRange (es ++ [e]) ↔ supplyInRange es ∧ e.amount < 10 ^ 80 ∧
      (e.stored (keyTotal (ofKey e.key es))).natAbs < 10 ^ 80 := by
  constructor
  · intro h
    refine ⟨fun k es' e' hp => h k es' e' (hp.trans ?_), ?_⟩
    · exact List.IsPrefix.filter _ (List.prefix_append es [e])
    · have hlast := h e.key (ofKey e.key es) e (by rw [ofKey_concat_self])
      rw [keyTotal_concat] at hlast
      exact ⟨hlast.1, hlast.2 _ rfl⟩
  · rintro ⟨h, hamount, hstored⟩ k es' e' hp
    by_cases hk : e.key = k
    · subst hk
      rw [ofKey_concat_self] at hp
      rcases List.prefix_concat_iff.mp hp with heq | hp
      · obtain ⟨rfl, he⟩ := List.append_inj' heq rfl
        obtain rfl : e' = e := by simpa using he
        rw [keyTotal_concat]
        exact ⟨hamount, fun x hx => by rw [← Option.some.inj hx]; exact hstored⟩
      · exact h e.key es' e' hp
    · rw [ofKey_concat_ne es hk] at hp
      exact h k es' e' hp

/-- The range checks of the upserts, as a condition on the history. -/
theorem supplyFits_iff (es : List SupplyEvent) : supplyFits [] es = true ↔ supplyInRange es := by
  induction es using List.reverseRecOn with
  | nil => exact ⟨fun _ k es' e' hp => by simp [ofKey] at hp, fun _ => rfl⟩
  | append_singleton es e ih =>
    rw [supplyFits_append, Bool.and_eq_true, ih, supplyInRange_concat]
    simp only [supplyFits, Bool.and_true, SupplyEvent.fits, Bool.and_eq_true, numericFits_iff,
      total_supplyRun_nil, Int.natAbs_natCast]

/-! ## Blocks -/

section
variable {J : Type} [SdkJson J]

def blocksEvents (blocks : List TransactionLogData) : List SupplyEvent :=
  blocks.flatMap TransactionLogData.supplyEvents

theorem Indexed.supplies {blocks : List TransactionLogData} {db : Tables J}
    (h : Indexed blocks db) : db.supplies = supplyRun [] (blocksEvents blocks) := by
  show db.contents.cis2Tokens = _
  rw [h.contents]
  exact Contents.cis2Tokens_records blocks .empty

/-- The tables before each attempt of `use_db` at a block; attempt `i` runs on a connection
that survives `ns i` statements. -/
def attempts (ns : Nat → Option Nat) (db : Tables J) (d : TransactionLogData) : Nat → Tables J
  | 0 => db
  | i + 1 => (insertIntoDb (ns i) (attempts ns db d i) d).2

/-- As long as no attempt commits, nothing changes. -/
theorem attempts_supplies (ns : Nat → Option Nat) (db : Tables J) (d : TransactionLogData) (i : Nat) :
    (∃ j < i, (insertIntoDb (ns j) (attempts ns db d j) d).1 = .ok ()) ∨
      (attempts ns db d i).supplies = db.supplies := by
  induction i with
  | zero => exact Or.inr rfl
  | succ i ih =>
    rcases ih with ⟨j, hj, hok⟩ | ih
    · exact Or.inl ⟨j, by omega, hok⟩
    · rcases h : insertIntoDb (ns i) (attempts ns db d i) d with ⟨_ | u, db'⟩
      · right
        show (insertIntoDb (ns i) (attempts ns db d i) d).2.supplies = _
        obtain ⟨⟨w, rfl⟩, -⟩ := insertIntoDb_failed h
        rw [h, ← ih]
        rfl
      · exact Or.inl ⟨i, Nat.lt_succ_self i, by rw [h]⟩

/-- Mints and burns of these blocks never stop the indexer. -/
structure NeverWedged (J : Type) [SdkJson J] (blocks : List TransactionLogData) : Prop where
  /-- what an upsert stores is representable -/
  stored : ∀ done e rest, blocksEvents blocks = done ++ e :: rest →
    numericFits (e.stored (total (supplyRun [] done) e.key)) = true
  /-- on a healthy connection no block is out of range -/
  healthy : ∀ done d rest (db db' : Tables J), blocks = done ++ d :: rest → Indexed done db →
    insertIntoDb none db d ≠ (.error (.postgresError .numericValueOutOfRange), db')
  /-- a block is not retried for ever: it has committed once an attempt met a healthy connection -/
  retry : ∀ done d rest (db : Tables J) ns i, blocks = done ++ d :: rest → Indexed done db →
    ns i = none → ∃ j ≤ i, (insertIntoDb (ns j) (attempts ns db d j) d).1 = .ok ()

variable {blocks : List TransactionLogData}

theorem neverWedged_of_fits (hknown : ∀ d ∈ blocks, d.known = true)
    (hfits : supplyFits [] (blocksEvents blocks) = true) : NeverWedged J blocks := by
  -- each block is in range where it is inserted
  have hblock : ∀ done d rest, blocks = done ++ d :: rest →
      d.known = true ∧ supplyFits (supplyRun [] (blocksEvents done)) d.supplyEvents = true := by
    intro done d rest hsplit
    refine ⟨hknown d (by rw [hsplit]; simp), ?_⟩
    rw [hsplit, blocksEvents, List.flatMap_append, List.flatMap_cons, supplyFits_append,
      supplyFits_append, Bool.and_eq_true, Bool.and_eq_true] at hfits
    exact hfits.2.1
  refine ⟨fun done e rest hsplit => ?_, fun done d rest db db' hsplit hdb h => ?_,
    fun done d rest db ns i hsplit hdb hi => ?_⟩
  · rw [hsplit, supplyFits_append, supplyFits, Bool.and_eq_true, Bool.and_eq_true,
      SupplyEvent.fits, Bool.and_eq_true] at hfits
    exact hfits.2.1.2
  · obtain ⟨hk, hf⟩ := hblock done d rest hsplit
    obtain ⟨db'', hok⟩ := insertIntoDb_healthy hk (by rw [hdb.supplies]; exact hf)
    rw [h] at hok
    cases hok
  · obtain ⟨hk, hf⟩ := hblock done d rest hsplit
    rcases attempts_supplies ns db d i with ⟨j, hj, hok⟩ | hsame
    · exact ⟨j, hj.le, hok⟩
    · have hfits : supplyFits (attempts ns db d i).supplies d.supplyEvents = true := by
        rw [hsame, hdb.supplies]; exact hf
      obtain ⟨db', hok⟩ := insertIntoDb_healthy hk hfits
      exact ⟨i, le_refl i, by rw [hi, hok]⟩

theorem fits_of_neverWedged (h : NeverWedged J blocks) :
    supplyFits [] (blocksEvents blocks) = true := by
  -- insert the blocks one by one, each on a healthy connection
  have go : ∀ rest done, blocks = done ++ rest → ∀ db : Tables J, Indexed done db →
      supplyFits [] (blocksEvents done) = true → supplyFits [] (blocksEvents blocks) = true := by
    intro rest
    induction rest with
    | nil =>
      intro done hsplit db _ hfits
      rw [hsplit, List.append_nil]
      exact hfits
    | cons d rest ih =>
      intro done hsplit db hdb hfits
      obtain ⟨j, hj, hok⟩ := h.retry done d rest db (fun _ => none) 0 hsplit hdb rfl
      obtain rfl : j = 0 := by omega
      rcases hins : insertIntoDb none db d with ⟨r, db'⟩
      obtain rfl : r = .ok () := by
        have : (insertIntoDb none db d).1 = .ok () := hok
        rwa [hins] at this
      refine ih (done ++ [d]) (by rw [hsplit]; simp) db' (.committed hdb hins) ?_
      obtain ⟨-, -, -, hf⟩ := insertIntoDb_committed hins
      rw [hdb.supplies] at hf
      rw [blocksEvents, List.flatMap_append, List.flatMap_singleton, supplyFits_append]
      rw [Bool.and_eq_true]
      exact ⟨hfits, hf⟩
  exact go blocks [] rfl .empty .nil rfl

/-- The blocks never wedge the indexer exactly when every total they pass through is in range. -/
theorem neverWedged_iff (hknown : ∀ d ∈ blocks, d.known = true) :
    NeverWedged J blocks ↔ supplyInRange (blocksEvents blocks) := by
  rw [← supplyFits_iff]
  exact ⟨fits_of_neverWedged, neverWedged_of_fits hknown⟩

/-- A block out of range is retried for ever, whatever the connections. -/
theorem attempts_out_of_range {db : Tables J} {d : TransactionLogData}
    (h : supplyFits db.supplies d.supplyEvents = false) (ns : Nat → Option Nat) (i : Nat) :
    (insertIntoDb (ns i) (attempts ns db d i) d).1 ≠ .ok () := by
  induction i using Nat.strong_induction_on with
  | _ i ih =>
    intro hok
    rcases attempts_supplies ns db d i with ⟨j, hj, hj'⟩ | hsame
    · exact ih j hj hj'
    · rcases hins : insertIntoDb (ns i) (attempts ns db d i) d with ⟨r, db'⟩
      rw [hins] at hok
      rw [show r = .ok () from hok] at hins
      obtain ⟨-, -, -, hf⟩ := insertIntoDb_committed hins
      rw [hsame, h] at hf
      cases hf

end

/-! ## A flood of mints -/

/-- A block of one update that mints the amounts, all of the same token. -/
def mintingBlock (amounts : List Nat) : TransactionLogData where
  blockInfo := ⟨⟨.replicate 32 0⟩, 0, 0, 1⟩
  itemSummaries := [⟨updateEmitting ⟨1, 0⟩ (amounts.map (.mint [])), []⟩]
  specialEvents := []
  bindings := .new

def mintEvent (amount : Nat) : SupplyEvent := ⟨tokenKey ⟨1, 0⟩ [], .mint, amount⟩

theorem mintingBlock_events (amounts : List Nat) :
    blocksEvents [mintingBlock amounts] = amounts.map mintEvent := by
  have hparse : segmentEvents ((amounts.map (Cis2.Event.mint [])).map fun ev => ⟨some ev⟩) =
      amounts.map (.mint []) := by
    unfold segmentEvents
    rw [if_pos (by simp [Cis2.Event.tryFrom]), List.filterMap_map]
    exact List.filterMap_some
  show ((updateEmitting ⟨1, 0⟩ (amounts.map (.mint []))).supplyEvents ++ []) ++ [] = _
  rw [List.append_nil, List.append_nil, supplyEvents_eq_extracted _ rfl]
  show ((segmentEvents _).map _ ++ []).filterMap supplyOf = _
  rw [hparse, List.append_nil, List.map_map, List.filterMap_map]
  exact congrFun (List.filterMap_eq_map (f := mintEvent)) amounts

theorem keyTotal_mints (amount : Nat) (amounts : List Nat) :
    keyTotal ((amount :: amounts).map mintEvent) = some ((amount :: amounts).sum : Int) := by
  have hnet : ∀ l : List Nat, net (l.map mintEvent) = l.sum := by
    intro l
    induction l with
    | nil => rfl
    | cons a l ih => rw [List.map_cons, net_cons, ih, List.sum_cons, Nat.cast_add]; rfl
  rw [List.map_cons, keyTotal, hnet, List.sum_cons, Nat.cast_add]
  rfl

theorem ofKey_mints (amounts : List Nat) :
    ofKey (tokenKey ⟨1, 0⟩ []) (amounts.map mintEvent) = amounts.map mintEvent :=
  List.filter_eq_self.mpr fun e he => by
    obtain ⟨a, -, rfl⟩ := List.mem_map.mp he
    simp [mintEvent]

theorem mints_not_in_range {amounts : List Nat} (h : 10 ^ 80 ≤ amounts.sum) :
    ¬ supplyInRange (amounts.map mintEvent) := by
  intro hr
  have hne : amounts ≠ [] := by rintro rfl; simp at h
  have hlast := hr (tokenKey ⟨1, 0⟩ []) (amounts.dropLast.map mintEvent)
    (mintEvent (amounts.getLast hne)) (by
      rw [ofKey_mints, ← List.map_singleton, ← List.map_append, List.dropLast_append_getLast])
  rw [← List.map_singleton, ← List.map_append, List.dropLast_append_getLast] at hlast
  obtain ⟨a, l, rfl⟩ := List.exists_cons_of_ne_nil hne
  have := hlast.2 _ (keyTotal_mints a l)
  rw [Int.natAbs_natCast] at this
  omega

theorem neverWedged_one_mint : NeverWedged PlainJson [mintingBlock [7]] :=
  (neverWedged_iff fun d hd => by rw [List.mem_singleton.mp hd]; rfl).mpr
    ((supplyFits_iff _).mp (by rw [mintingBlock_events]; rfl))

/-- 864 mints of 2^256 - 1 are one block the indexer never gets past. -/
theorem mint_flood_wedges :
    ¬ NeverWedged PlainJson [mintingBlock (.replicate 864 (2 ^ 256 - 1))] ∧
    ∀ ns i, (insertIntoDb (ns i) (attempts ns (.empty : Tables PlainJson)
      (mintingBlock (.replicate 864 (2 ^ 256 - 1))) i)
      (mintingBlock (.replicate 864 (2 ^ 256 - 1)))).1 ≠ .ok () := by
  have hrange : supplyFits [] (blocksEvents [mintingBlock (.replicate 864 (2 ^ 256 - 1))]) = false := by
    rw [Bool.eq_false_iff, Ne, supplyFits_iff, mintingBlock_events]
    refine mints_not_in_range ?_
    rw [List.sum_replicate]
    decide
  refine ⟨fun h => ?_, attempts_out_of_range ?_⟩
  · rw [fits_of_neverWedged h] at hrange
    cases hrange
  · rw [← hrange, blocksEvents, List.flatMap_singleton]
    rfl

end WalletProxyIndexer
