import WalletProxyIndexer.Indexer
import WalletProxyIndexer.M0002

/-!
# The key binding table

`account_public_key_bindings` is filled once by the migration, from the accounts as they
are at the last recorded height, and then updated block by block, account by account.
`Mirrors` says that it holds the keys of the accounts after a block, each once.

The migration starts at such a table (`Migrated.mirrors`); the key updates of the next
block, or of the same block again, lead to the table after that block
(`Mirrors.apply`).  Blocks that are inserted again further back have no rows, so no key
updates either, and the accounts after them are the same (`Mirrors.back`).
-/

namespace WalletProxyIndexer

open Transition

/-! ## Rows -/

theorem mem_accountBindings {s : AccountAccessStructure} {i : PublicKeyBindingInfo} :
    i ∈ accountBindings s ↔ ∃ credential ∈ s.keys, ∃ key ∈ credential.2.keys,
      i = ⟨key.2.serial, credential.1, key.1, s.numKeys == 1⟩ := by
  unfold accountBindings
  simp only [List.mem_flatMap, List.mem_map]
  constructor
  · rintro ⟨credential, hc, key, hk, rfl⟩
    exact ⟨credential, hc, key, hk, rfl⟩
  · rintro ⟨credential, hc, key, hk, rfl⟩
    exact ⟨credential, hc, key, hk, rfl⟩

/-- The migration writes the same rows as a key update. -/
theorem accountRows_eq (c : AccountAddress) (s : AccountAccessStructure) :
    M0002.accountRows c s = (accountBindings s).map (PublicKeyBindingInfo.columns c) := by
  unfold M0002.accountRows accountBindings
  simp only [List.map_flatMap, List.map_map]
  rfl

/-- What identifies a row: account, credential index and key index. -/
def AccountPublicKeyBindingsRow.place (r : AccountPublicKeyBindingsRow) : Bytea × Int × Int :=
  (r.address, r.credentialIndex, r.keyIndex)

/-- An access structure has each credential index and key index once. -/
theorem nodup_places (c : AccountAddress) (s : AccountAccessStructure) :
    (((accountBindings s).map (PublicKeyBindingInfo.columns c)).map
      AccountPublicKeyBindingsRow.place).Nodup := by
  unfold accountBindings
  simp only [List.map_flatMap, List.map_map]
  refine List.nodup_flatMap.mpr ⟨fun credential _ => ?_, ?_⟩
  · refine (List.Nodup.of_map _ credential.2.distinct).map_on fun k hk k' hk' heq => ?_
    have hindex : k.1 = k'.1 := by
      have h := congrArg (fun p => p.2.2) heq
      simp only [Function.comp_apply, AccountPublicKeyBindingsRow.place,
        PublicKeyBindingInfo.columns, Nat.cast_inj] at h
      exact UInt8.toNat_inj.mp h
    exact List.inj_on_of_nodup_map credential.2.distinct hk hk' hindex
  · refine (List.pairwise_map.mp s.distinct).imp fun {a b} hne => ?_
    intro p hp hp'
    obtain ⟨k, -, rfl⟩ := List.mem_map.mp hp
    obtain ⟨k', -, heq⟩ := List.mem_map.mp hp'
    have h := congrArg (fun p => p.2.1) heq
    simp only [Function.comp_apply, AccountPublicKeyBindingsRow.place,
      PublicKeyBindingInfo.columns, Nat.cast_inj] at h
    exact hne (UInt8.toNat_inj.mp h).symm

/-! ## Key updates -/

theorem mem_applyBinding {rows : List AccountPublicKeyBindingsRow}
    {e : AccountAddress × List PublicKeyBindingInfo} {r : AccountPublicKeyBindingsRow} :
    r ∈ applyBinding rows e ↔
      (r ∈ rows ∧ r.address ≠ e.1.toBytes) ∨ ∃ i ∈ e.2, r = i.columns e.1 := by
  unfold applyBinding
  simp only [List.mem_append, List.mem_filter, List.mem_map, Bool.not_eq_true', beq_eq_false_iff_ne,
    eq_comm (a := r)]

/-- The rows of the accounts named are replaced, all others stay. -/
theorem mem_applyBindings (b : AccountPublicKeyBindings) {rows : List AccountPublicKeyBindingsRow}
    {r : AccountPublicKeyBindingsRow} :
    r ∈ applyBindings rows b ↔ (r ∈ rows ∧ ∀ e ∈ b.entries, r.address ≠ e.1.toBytes) ∨
      ∃ e ∈ b.entries, ∃ i ∈ e.2, r = i.columns e.1 := by
  unfold applyBindings
  obtain ⟨entries, hdistinct⟩ := b
  dsimp only
  induction entries using List.reverseRecOn with
  | nil => simp
  | append_singleton entries e ih =>
    rw [List.map_append, List.nodup_append] at hdistinct
    obtain ⟨hrest, -, hne⟩ := hdistinct
    rw [List.foldl_append, List.foldl_cons, List.foldl_nil, mem_applyBinding, ih hrest]
    -- the rows of an earlier account are not deleted by this entry
    have hother : ∀ e' ∈ entries, ∀ i : PublicKeyBindingInfo,
        (i.columns e'.1).address ≠ e.1.toBytes := by
      intro e' he' i heq
      exact hne e'.1 (List.mem_map_of_mem he') e.1 (by simp) (AccountAddress.toBytes_inj.mp heq)
    simp only [List.mem_append, List.mem_singleton]
    constructor
    · rintro (⟨⟨hr, hall⟩ | ⟨e', he', i, hi, rfl⟩, haddr⟩ | ⟨i, hi, rfl⟩)
      · refine Or.inl ⟨hr, ?_⟩
        rintro e' (he' | rfl)
        · exact hall e' he'
        · exact haddr
      · exact Or.inr ⟨e', Or.inl he', i, hi, rfl⟩
      · exact Or.inr ⟨e, Or.inr rfl, i, hi, rfl⟩
    · rintro (⟨hr, hall⟩ | ⟨e', he' | rfl, i, hi, rfl⟩)
      · exact Or.inl ⟨Or.inl ⟨hr, fun e' he' => hall e' (Or.inl he')⟩, hall e (Or.inr rfl)⟩
      · exact Or.inl ⟨Or.inr ⟨e', he', i, hi, rfl⟩, hother e' he' i⟩
      · exact Or.inr ⟨i, hi, rfl⟩

/-- Updates that have each place once keep each place once. -/
theorem nodup_applyBindings {rows : List AccountPublicKeyBindingsRow} (b : AccountPublicKeyBindings)
    (hrows : (rows.map AccountPublicKeyBindingsRow.place).Nodup)
    (hnew : ∀ e ∈ b.entries, ((e.2.map (PublicKeyBindingInfo.columns e.1)).map
      AccountPublicKeyBindingsRow.place).Nodup) :
    ((applyBindings rows b).map AccountPublicKeyBindingsRow.place).Nodup := by
  unfold applyBindings
  generalize b.entries = entries at hnew ⊢
  induction entries generalizing rows with
  | nil => exact hrows
  | cons e entries ih =>
    refine ih ?_ fun e' he' => hnew e' (List.mem_cons_of_mem e he')
    unfold applyBinding
    rw [List.map_append, List.nodup_append]
    refine ⟨hrows.sublist (List.filter_sublist.map _), hnew e List.mem_cons_self, ?_⟩
    intro p hp p' hp' heq
    obtain ⟨r, hr, rfl⟩ := List.mem_map.mp hp
    obtain ⟨r', hr', rfl⟩ := List.mem_map.mp hp'
    obtain ⟨i, -, rfl⟩ := List.mem_map.mp hr'
    have haddr : r.address = e.1.toBytes := congrArg Prod.fst heq
    have hkept := (List.mem_filter.mp hr).2
    rw [haddr, beq_self_eq_true] at hkept
    cases hkept

/-! ## The mirror -/

namespace Chain

variable (chain : Chain)

/-- A key of an account as it is after block `n`, under the canonical address. -/
def KeyRow (n : Nat) (r : AccountPublicKeyBindingsRow) : Prop :=
  ∃ c ∈ chain.accounts n, ∃ s, chain.accessStructure n c = .known s ∧
    ∃ credential ∈ s.keys, ∃ key ∈ credential.2.keys, r = {
      address := c.toBytes
      publicKey := key.2.serial
      credentialIndex := credential.1.toNat
      keyIndex := key.1.toNat
      isSimpleAccount := s.numKeys == 1 }

/-- The rows are the keys of all accounts after block `n`, each once. -/
structure Mirrors (n : Nat) (rows : List AccountPublicKeyBindingsRow) : Prop where
  known : ∀ c ∈ chain.accounts n, ∃ s, chain.accessStructure n c = .known s
  mem : ∀ r, r ∈ rows ↔ chain.KeyRow n r
  once : (rows.map AccountPublicKeyBindingsRow.place).Nodup

/-- Accounts are created and change only by items that name them, by whichever address. -/
def ChangesByItems : Prop :=
  ∀ n, ∀ c ∈ chain.accounts (n + 1),
    (c ∈ chain.accounts n ∧ chain.accessStructure (n + 1) c = chain.accessStructure n c) ∨
    ∃ s ∈ chain.transactionEvents (n + 1), ∃ a, s.ChangesKeysOf a ∧ c.sameAccount a = true

variable {chain}

theorem keyRow_iff {n : Nat} {r : AccountPublicKeyBindingsRow} : chain.KeyRow n r ↔
    ∃ c ∈ chain.accounts n, ∃ s, chain.accessStructure n c = .known s ∧
      ∃ i ∈ accountBindings s, r = i.columns c := by
  constructor
  · rintro ⟨c, hc, s, hs, credential, hcred, key, hkey, rfl⟩
    exact ⟨c, hc, s, hs, _, mem_accountBindings.mpr ⟨credential, hcred, key, hkey, rfl⟩, rfl⟩
  · rintro ⟨c, hc, s, hs, i, hi, rfl⟩
    obtain ⟨credential, hcred, key, hkey, rfl⟩ := mem_accountBindings.mp hi
    exact ⟨c, hc, s, hs, credential, hcred, key, hkey, rfl⟩

/-- The key updates of block `n`, applied to a mirror of the accounts they started from. -/
theorem Mirrors.apply {m n : Nat} {rows : List AccountPublicKeyBindingsRow} {d : TransactionLogData}
    (h : chain.Mirrors m rows) (hdata : chain.BlockData n d)
    (hgrows : chain.accounts m ⊆ chain.accounts n)
    (hchange : ∀ c ∈ chain.accounts n,
      (c ∈ chain.accounts m ∧ chain.accessStructure n c = chain.accessStructure m c) ∨
      ∃ s ∈ chain.transactionEvents n, ∃ a, s.ChangesKeysOf a ∧ c.sameAccount a = true) :
    chain.Mirrors n (applyBindings rows d.bindings) := by
  have hb := hdata.bindings
  -- an account either has an entry, or is as it was
  have hentry : ∀ c ∈ chain.accounts n, (∃ e ∈ d.bindings.entries, e.1 = c) ∨
      (c ∈ chain.accounts m ∧ chain.accessStructure n c = chain.accessStructure m c) := by
    intro c hc
    rcases hchange c hc with hsame | ⟨s, hs, a, ha, hca⟩
    · exact Or.inr hsame
    · obtain ⟨e, he, hea⟩ := hb.all a (mem_keyUpdates.mpr ⟨s, hs, ha⟩)
      exact Or.inl ⟨e, he, chain.eq_of_sameAccount_at (hb.current e he).1 hc
        (AccountAddress.sameAccount_trans hea (AccountAddress.sameAccount_symm hca))⟩
  refine ⟨fun c hc => ?_, fun r => ?_, ?_⟩
  · rcases hentry c hc with ⟨e, he, rfl⟩ | ⟨hm, hsame⟩
    · obtain ⟨-, s, hs, -⟩ := hb.current e he
      exact ⟨s, hs⟩
    · rw [hsame]
      exact h.known c hm
  · rw [mem_applyBindings, h.mem, keyRow_iff, keyRow_iff]
    constructor
    · rintro (⟨⟨c, hc, s, hs, i, hi, rfl⟩, hother⟩ | ⟨e, he, i, hi, rfl⟩)
      · rcases hentry c (hgrows hc) with ⟨e, he, rfl⟩ | ⟨-, hsame⟩
        · exact absurd rfl (hother e he)
        · exact ⟨c, hgrows hc, s, by rw [hsame, hs], i, hi, rfl⟩
      · obtain ⟨hmem, s, hs, heq⟩ := hb.current e he
        exact ⟨e.1, hmem, s, hs, i, by rw [← heq]; exact hi, rfl⟩
    · rintro ⟨c, hc, s, hs, i, hi, rfl⟩
      by_cases hin : ∃ e ∈ d.bindings.entries, e.1 = c
      · obtain ⟨e, he, rfl⟩ := hin
        obtain ⟨-, s', hs', heq⟩ := hb.current e he
        obtain rfl : s' = s := Upward.known.inj (hs'.symm.trans hs)
        exact Or.inr ⟨e, he, i, by rw [heq]; exact hi, rfl⟩
      · obtain ⟨hm, hsame⟩ := (hentry c hc).resolve_left hin
        refine Or.inl ⟨⟨c, hm, s, by rw [← hsame, hs], i, hi, rfl⟩, fun e he haddr => hin ⟨e, he, ?_⟩⟩
        exact (AccountAddress.toBytes_inj.mp haddr).symm
  · refine nodup_applyBindings d.bindings h.once fun e he => ?_
    obtain ⟨-, s, -, heq⟩ := hb.current e he
    rw [heq]
    exact nodup_places e.1 s

theorem no_events_of_no_rows {n : Nat} (h : chain.hasRows n = false) :
    chain.transactionEvents n = [] := by
  unfold hasRows at h
  cases hl : chain.transactionEvents n with
  | nil => rfl
  | cons s l => rw [hl] at h; cases h

/-- A block without rows leaves the table as it is. -/
theorem applyBindings_of_no_rows {n : Nat} {d : TransactionLogData} (hdata : chain.BlockData n d)
    (h : chain.hasRows n = false) (rows : List AccountPublicKeyBindingsRow) :
    applyBindings rows d.bindings = rows := by
  have hempty : d.bindings.entries = [] := by
    refine List.eq_nil_iff_forall_not_mem.mpr fun e he => ?_
    obtain ⟨a, ha, -⟩ := hdata.bindings.only e he
    rw [no_events_of_no_rows h] at ha
    cases ha
  unfold applyBindings
  rw [hempty]
  rfl

/-- Over blocks without rows the accounts stay the same. -/
theorem Mirrors.back (hlaw : chain.ChangesByItems) {m n : Nat} (hmn : m ≤ n)
    (hrows : chain.NoRows (m + 1) (n + 1)) {rows : List AccountPublicKeyBindingsRow}
    (h : chain.Mirrors n rows) : chain.Mirrors m rows := by
  induction n, hmn using Nat.le_induction with
  | base => exact h
  | succ n hmn ih =>
    refine ih (fun i hi hin => hrows i hi (by omega)) ?_
    have hno := no_events_of_no_rows (hrows (n + 1) (by omega) (by omega))
    have hsame : ∀ c ∈ chain.accounts (n + 1), c ∈ chain.accounts n ∧
        chain.accessStructure (n + 1) c = chain.accessStructure n c := by
      intro c hc
      refine (hlaw n c hc).resolve_right ?_
      rintro ⟨s, hs, -⟩
      rw [hno] at hs
      cases hs
    refine ⟨fun c hc => ?_, fun r => ?_, h.once⟩
    · rw [← (hsame c (chain.grows n hc)).2]
      exact h.known c (chain.grows n hc)
    · rw [h.mem]
      constructor
      · rintro ⟨c, hc, s, hs, hrest⟩
        exact ⟨c, (hsame c hc).1, s, by rw [← (hsame c hc).2, hs], hrest⟩
      · rintro ⟨c, hc, s, hs, hrest⟩
        have hc' := chain.grows n hc
        exact ⟨c, hc', s, by rw [(hsame c hc').2, hs], hrest⟩

end Chain

/-! ## The migration -/

section
variable {J : Type} {chain : Chain}

/-- The height the migration queries the accounts at. -/
def migrationHeight (db : Tables J) : AbsoluteBlockHeight := (getLastBlockHeight db).getD 0

/-- The table holds what the migration inserted, from the accounts at the last recorded height
in whichever order the queries completed. -/
structure MigratedKeys (chain : Chain) (db : Tables J) : Prop where
  below : (migrationHeight db).toNat + 1 < 2 ^ 64
  rows : ∃ infos issued, infos.Perm ((chain.accounts (migrationHeight db).toNat).map fun c =>
      ⟨c, chain.accessStructure (migrationHeight db).toNat c⟩) ∧
    M0002.run infos = .ok issued ∧ db.keyBindings = issued.flatMap M0002.InsertStatement.rows

/-- What the migration inserts for an account with a known access structure. -/
theorem infoRows_known {c : AccountAddress} {u : Upward AccountAccessStructure}
    {s : AccountAccessStructure} (hs : u = .known s) :
    M0002.infoRows ⟨c, u⟩ = (accountBindings s).map (PublicKeyBindingInfo.columns c) := by
  rw [hs]
  exact accountRows_eq c s

/-- The rows of all accounts have each place once. -/
theorem nodup_infoRows {n : Nat}
    (hknown : ∀ c ∈ chain.accounts n, ∃ s, chain.accessStructure n c = .known s) :
    (((chain.accounts n).flatMap fun c => M0002.infoRows ⟨c, chain.accessStructure n c⟩).map
      AccountPublicKeyBindingsRow.place).Nodup := by
  rw [List.map_flatMap]
  refine List.nodup_flatMap.mpr ⟨fun c hc => ?_, ?_⟩
  · obtain ⟨s, hs⟩ := hknown c hc
    rw [infoRows_known hs]
    exact nodup_places c s
  · -- rows of different accounts have different addresses
    refine (chain.distinct n).imp_of_mem fun {a b} ha hb hne => ?_
    intro p hp hp'
    obtain ⟨s, hs⟩ := hknown a ha
    obtain ⟨s', hs'⟩ := hknown b hb
    dsimp only at hp hp'
    rw [infoRows_known hs, List.map_map] at hp
    rw [infoRows_known hs', List.map_map] at hp'
    obtain ⟨i, -, rfl⟩ := List.mem_map.mp hp
    obtain ⟨i', -, heq⟩ := List.mem_map.mp hp'
    obtain rfl : b = a := AccountAddress.toBytes_inj.mp (congrArg Prod.fst heq)
    rw [AccountAddress.sameAccount_self] at hne
    cases hne

theorem MigratedKeys.mirrors {db : Tables J} (h : MigratedKeys chain db) :
    chain.Mirrors (migrationHeight db).toNat db.keyBindings := by
  obtain ⟨infos, issued, hperm, hrun, hrows⟩ := h.rows
  generalize (migrationHeight db).toNat = n at hperm ⊢
  obtain ⟨hissued, hall⟩ := M0002.run_rows hrun
  rw [hrows, hissued]
  have hmem : ∀ info, info ∈ infos ↔ ∃ c ∈ chain.accounts n, info = ⟨c, chain.accessStructure n c⟩ := by
    intro info
    rw [hperm.mem_iff, List.mem_map]
    simp only [eq_comm]
  have hknown : ∀ c ∈ chain.accounts n, ∃ s, chain.accessStructure n c = .known s := by
    intro c hc
    have hk := hall _ ((hmem _).mpr ⟨c, hc, rfl⟩)
    cases hs : chain.accessStructure n c with
    | unknown => rw [hs] at hk; cases hk
    | known s => exact ⟨s, rfl⟩
  refine ⟨hknown, fun r => ?_, ?_⟩
  · rw [List.mem_flatMap, Chain.keyRow_iff]
    constructor
    · rintro ⟨info, hi, hr⟩
      obtain ⟨c, hc, rfl⟩ := (hmem info).mp hi
      obtain ⟨s, hs⟩ := hknown c hc
      rw [infoRows_known hs] at hr
      obtain ⟨i, hi, rfl⟩ := List.mem_map.mp hr
      exact ⟨c, hc, s, hs, i, hi, rfl⟩
    · rintro ⟨c, hc, s, hs, i, hi, rfl⟩
      exact ⟨_, (hmem _).mpr ⟨c, hc, rfl⟩, by rw [infoRows_known hs]; exact List.mem_map_of_mem hi⟩
  · have hplaces := (hperm.flatMap_right M0002.infoRows).map AccountPublicKeyBindingsRow.place
    rw [hplaces.nodup_iff, List.flatMap_map]
    exact nodup_infoRows hknown

/-! ## Runs -/

/-- At `h`, or above it with no rows up to block `h`. -/
def Chain.Near (chain : Chain) (m h : Nat) : Prop := m = h ∨ (m ≤ h + 1 ∧ chain.NoRows m (h + 1))

/-- The table mirrors the accounts after block `h`; the cursor and the next start are at blocks
whose updates lead there again, or to the next block. -/
structure Mirrored (chain : Chain) (h : Nat) (a : Feed (Tables J)) : Prop where
  mirrors : chain.Mirrors h a.db.keyBindings
  resume : chain.Near a.db.contents.startFrom.toNat h
  cursor : ∀ q, a.cursor = some q → chain.Near q h ∧
    (q = h + 1 → chain.NoRows a.db.contents.startFrom.toNat (h + 1))

theorem mirrored_init {a : Feed (Tables J)} (hdb : MigratedKeys chain a.db)
    (hcursor : a.cursor = none) : Mirrored chain (migrationHeight a.db).toNat a where
  mirrors := hdb.mirrors
  resume := by
    have hbelow := hdb.below
    unfold migrationHeight at hbelow ⊢
    unfold Contents.startFrom
    rw [getLastBlockHeight_eq] at hbelow ⊢
    cases hlast : a.db.contents.heights.getLast? with
    | none => exact Or.inl rfl
    | some h =>
      rw [hlast] at hbelow
      have hnext : h.next.toNat = h.toNat + 1 := toNat_next (k := 0) hbelow
      refine Or.inr ⟨Nat.le_of_eq hnext, fun i hi hlt => ?_⟩
      dsimp only [Option.getD_some] at hi hlt
      omega
  cursor q hq := by rw [hcursor] at hq; cases hq

/-- Once the table mirrors the accounts after block `n`, and a start resumes short of the next
block only by blocks without rows, so does the feed right after block `n`. -/
theorem mirrored_after {n : Nat} {db : Tables J} (answered : Bool)
    (hmirrors : chain.Mirrors n db.keyBindings) (hle : db.contents.startFrom.toNat ≤ n + 1)
    (hrows : chain.NoRows db.contents.startFrom.toNat (n + 1)) :
    Mirrored chain n ⟨db, some (if answered then n + 1 else n)⟩ where
  mirrors := hmirrors
  resume := Or.inr ⟨hle, hrows⟩
  cursor q hq := by
    cases hq
    refine ⟨?_, fun _ => hrows⟩
    split
    · exact Or.inr ⟨Nat.le_refl _, fun i hi hlt => by omega⟩
    · exact Or.inl rfl

end

section
variable {J : Type} [SdkJson J] {chain : Chain}

/-- The next start after block `n` commits, when it was short of it only by blocks without rows. -/
theorem startFrom_after {n : Nat} {db db' : Tables J} {k : Option Nat} {d : TransactionLogData}
    (hdata : chain.BlockData n d) (hn : n + 1 < 2 ^ 64) (hins : insertIntoDb k db d = (.ok (), db'))
    (hle : db.contents.startFrom.toNat ≤ n + 1) (hrows : chain.NoRows db.contents.startFrom.toNat n) :
    db'.contents.startFrom.toNat ≤ n + 1 ∧ chain.NoRows db'.contents.startFrom.toNat (n + 1) := by
  obtain ⟨-, -, hfull, hempty⟩ := commit_contents hdata hn hins
  cases hr : chain.hasRows n with
  | true =>
    rw [hfull hr]
    exact ⟨Nat.le_refl _, fun i hi hlt => by omega⟩
  | false =>
    rw [hempty hr]
    exact ⟨hle, hrows.succ hr⟩

/-- The block the table mirrors commits again. -/
theorem Mirrored.again {n : Nat} {db db' : Tables J} {k : Option Nat} {d : TransactionLogData}
    (hm : Mirrored chain n ⟨db, some n⟩) (answered : Bool) (hdata : chain.BlockData n d)
    (hn : n + 1 < 2 ^ 64) (hins : insertIntoDb k db d = (.ok (), db')) :
    Mirrored chain n ⟨db', some (if answered then n + 1 else n)⟩ := by
  have hnear : chain.Near db.contents.startFrom.toNat n := hm.resume
  have hresume : db.contents.startFrom.toNat ≤ n + 1 ∧ chain.NoRows db.contents.startFrom.toNat n := by
    rcases hnear with heq | ⟨hle, hrows⟩
    · rw [heq]
      exact ⟨Nat.le_succ n, fun i hi hlt => by omega⟩
    · exact ⟨hle, fun i hi hlt => hrows i hi (by omega)⟩
  obtain ⟨hle, hrows⟩ := startFrom_after hdata hn hins hresume.1 hresume.2
  refine mirrored_after answered ?_ hle hrows
  rw [(commit_contents hdata hn hins).2.1]
  exact hm.mirrors.apply hdata (List.Subset.refl _) fun c hc => Or.inl ⟨hc, rfl⟩

/-- The next block commits. -/
theorem Mirrored.next (hlaw : chain.ChangesByItems) {h : Nat} {db db' : Tables J} {k : Option Nat}
    {d : TransactionLogData} (hm : Mirrored chain h ⟨db, some (h + 1)⟩) (answered : Bool)
    (hdata : chain.BlockData (h + 1) d) (hn : h + 1 + 1 < 2 ^ 64)
    (hins : insertIntoDb k db d = (.ok (), db')) :
    Mirrored chain (h + 1) ⟨db', some (if answered then h + 1 + 1 else h + 1)⟩ := by
  have hnear : chain.Near db.contents.startFrom.toNat h := hm.resume
  have hstart : db.contents.startFrom.toNat ≤ h + 1 + 1 := by
    rcases hnear with heq | ⟨hle, -⟩ <;> omega
  obtain ⟨hle, hrows⟩ := startFrom_after hdata hn hins hstart ((hm.cursor _ rfl).2 rfl)
  refine mirrored_after answered ?_ hle hrows
  rw [(commit_contents hdata hn hins).2.1]
  exact hm.mirrors.apply hdata (chain.grows h) (hlaw h)

/-- A block further back commits again; it has no rows, and changes nothing. -/
theorem Mirrored.earlier {h n : Nat} {db db' : Tables J} {k : Option Nat} {d : TransactionLogData}
    (hm : Mirrored chain h ⟨db, some n⟩) (answered : Bool) (hdata : chain.BlockData n d)
    (hn : n + 1 < 2 ^ 64) (hins : insertIntoDb k db d = (.ok (), db')) (hlt : n < h)
    (hrows : chain.NoRows n (h + 1)) : db'.keyBindings = db.keyBindings ∧
      Mirrored chain h ⟨db', some (if answered then n + 1 else n)⟩ := by
  obtain ⟨-, hbind, -, hempty⟩ := commit_contents hdata hn hins
  have hnone := hrows n (Nat.le_refl n) (by omega)
  have hkeys : db'.keyBindings = db.keyBindings := by
    rw [hbind, Chain.applyBindings_of_no_rows hdata hnone]
  refine ⟨hkeys, ?_, ?_, fun q hq => ?_⟩
  · show chain.Mirrors h db'.keyBindings
    rw [hkeys]
    exact hm.mirrors
  · show chain.Near db'.contents.startFrom.toNat h
    rw [hempty hnone]
    exact hm.resume
  · have hle : n ≤ q ∧ q ≤ n + 1 := by
      cases hq
      split <;> omega
    exact ⟨Or.inr ⟨by omega, fun i hi hih => hrows i (by omega) hih⟩, fun heq => by omega⟩

/-- The block at the cursor commits: the table is then the one after that block. -/
theorem Mirrored.commit (hlaw : chain.ChangesByItems) {h n : Nat} {db db' : Tables J}
    {k : Option Nat} {d : TransactionLogData} (hm : Mirrored chain h ⟨db, some n⟩) (answered : Bool)
    (hdata : chain.BlockData n d) (hn : n + 1 < 2 ^ 64) (hins : insertIntoDb k db d = (.ok (), db')) :
    chain.Mirrors n db'.keyBindings ∧
      ∃ h', Mirrored chain h' ⟨db', some (if answered then n + 1 else n)⟩ := by
  rcases (hm.cursor n rfl).1 with rfl | ⟨hle, hrows⟩
  · have hagain := hm.again answered hdata hn hins
    exact ⟨hagain.mirrors, n, hagain⟩
  · by_cases htip : n = h + 1
    · subst htip
      have hnext := hm.next hlaw answered hdata hn hins
      exact ⟨hnext.mirrors, h + 1, hnext⟩
    · by_cases hsame : n = h
      · subst hsame
        have hagain := hm.again answered hdata hn hins
        exact ⟨hagain.mirrors, n, hagain⟩
      · obtain ⟨hkeys, hearlier⟩ := hm.earlier answered hdata hn hins (by omega) hrows
        refine ⟨?_, h, hearlier⟩
        rw [hkeys]
        exact hm.mirrors.back hlaw (by omega) fun i hi hih => hrows i (by omega) hih

theorem Mirrored.step (hlaw : chain.ChangesByItems) {h : Nat} {a a' : Feed (Tables J)}
    {m : FeedAction TransactionLogData} (hm : Mirrored chain h a)
    (hstep : FeedStep (databaseState J) chain.BlockData a m a') : ∃ h', Mirrored chain h' a' := by
  cases hstep with
  | @resume db cursor =>
    refine ⟨h, hm.mirrors, hm.resume, fun q hq => ?_⟩
    cases hq
    rw [startFrom_eq]
    refine ⟨hm.resume, fun heq i hi hlt => ?_⟩
    have hi : db.contents.startFrom.toNat ≤ i := hi
    omega
  | insert answered hdata hn hins => exact (hm.commit hlaw answered hdata hn hins).2
  | fail hdata hins =>
    obtain ⟨hcontents, hbindings⟩ := failed_contents hins
    refine ⟨h, ?_, ?_, ?_⟩
    · show chain.Mirrors h _
      rw [hbindings]
      exact hm.mirrors
    · show chain.Near (Contents.startFrom _).toNat h
      rw [hcontents]
      exact hm.resume
    · show ∀ q, _ → _ ∧ (_ → chain.NoRows (Contents.startFrom _).toNat (h + 1))
      rw [hcontents]
      exact hm.cursor

/-- In every run of the indexer over a migrated database, whatever fails and goes unanswered: the
table mirrors the accounts after some block at every moment; once block `n` is committed, be it
again, those after block `n`; and nothing but a commit changes it. -/
theorem key_table_mirrors (hlaw : chain.ChangesByItems) {args : SharedIndexerArgs}
    {s : Service TransactionLogData (Tables J) CanonicalAddressCache}
    (hreachable : Reachable (indexer chain args fun db : Tables J => MigratedKeys chain db).service s) :
    (∃ n, chain.Mirrors n s.db.keyBindings) ∧
    ∀ l s', ServiceStep (indexer chain args fun db : Tables J => MigratedKeys chain db) s l s' →
      (∀ d, l = .commit d ∨ l = .commitUnanswered d →
        ∃ n, chain.BlockData n d ∧ chain.Mirrors n s'.db.keyBindings) ∧
      ((∀ d, l ≠ .commit d ∧ l ≠ .commitUnanswered d) → s'.db.keyBindings = s.db.keyBindings) := by
  obtain ⟨a, ha, hr⟩ := (indexer_follows_feed chain args _).reachable hreachable
  have hinv : ∃ h, Mirrored chain h a := by
    refine ha.invariant (I := fun a => ∃ h, Mirrored chain h a) ?_ ?_
    · rintro a ⟨hdb, hcursor⟩
      exact ⟨_, mirrored_init hdb hcursor⟩
    · rintro a m a' ⟨h, hm⟩ hstep
      exact hm.step hlaw hstep
  obtain ⟨h, hm⟩ := hinv
  refine ⟨⟨h, by rw [← hr.1]; exact hm.mirrors⟩, fun l s' hstep => ⟨fun d hl => ?_, fun hl => (hstep.contents hl).2⟩⟩
  obtain ⟨n, k, hcur, hdata, hn, hins⟩ := hr.commit hstep hl
  have hm : Mirrored chain h ⟨s.db, some n⟩ := by
    rw [← hr.1, ← hcur]
    exact hm
  exact ⟨n, hdata, (hm.commit hlaw true hdata hn hins).1⟩

end

/-- One account, whose key changes with every block, by a transaction sent from an alias. -/
def changingKeyChain : Chain :=
  .ofEvents
    (fun _ => [{
      hash := []
      details := .known (.accountTransaction aliasAddress (.known .credentialKeysUpdated))
      affectedAddresses := .known [aliasAddress]
      affectedContracts := .known []
      contractUpdateLogs := none
      contractInit := none }])
    (fun _ => []) (fun n => ⟨[UInt8.ofNat n]⟩)

/-- A database migrated while empty, and block 0 committed. -/
theorem changing_key_mirrored : ∃ s s' d,
    Reachable (indexer (J := PlainJson) changingKeyChain oneNode fun db =>
      MigratedKeys changingKeyChain db).service s ∧
    ServiceStep (indexer (J := PlainJson) changingKeyChain oneNode fun db =>
      MigratedKeys changingKeyChain db) s (.commit d) s' ∧
    ∃ n, changingKeyChain.BlockData n d ∧ changingKeyChain.Mirrors n s'.db.keyBindings := by
  let chain := changingKeyChain
  let setup := indexer (J := PlainJson) chain oneNode fun db => MigratedKeys chain db
  let c : AccountAddress := ⟨.replicate 32 0⟩
  let db : Tables PlainJson := Tables.empty.insertKeyBindings ⟨c.toBytes, [0], 0, 0, true⟩
  have hinitial : setup.initial db := ⟨by decide, [⟨c, chain.accessStructure 0 c⟩], _, .refl _, rfl, rfl⟩
  obtain ⟨d, hd⟩ : ∃ d, (onFinalizedBlock (chain.node 0) db.contents.startFrom
      (onUseNode (chain.node 0) .empty).2).1 = .ok d := ⟨_, rfl⟩
  obtain ⟨cache, hmid⟩ := indexer_midChunk chain oneNode hinitial (by decide) (Nat.le_refl 2) hd
  have hlaw : chain.ChangesByItems := by
    intro n c' hc'
    obtain rfl := List.mem_singleton.mp hc'
    exact Or.inr ⟨_, List.mem_singleton_self _, _, Or.inr (Or.inl rfl), by decide⟩
  have hhealthy : ∃ db', insertIntoDb none db d = (.ok (), db') := by
    obtain rfl := Except.ok.inj hd
    exact insertIntoDb_healthy rfl rfl
  obtain ⟨db', hins⟩ := hhealthy
  have hins : setup.databaseHooks.insertIntoDb none db d = (.ok (), db') := hins
  have hstep := ServiceStep.database (.inserted (p := .midChunk db.contents.startFrom d cache) rfl hins)
  exact ⟨_, _, d, hmid, hstep, ((key_table_mirrors hlaw hmid).2 _ _ hstep).1 d (Or.inl rfl)⟩

end WalletProxyIndexer
