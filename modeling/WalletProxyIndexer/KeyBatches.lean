import WalletProxyIndexer.KeyMirror

/-!
# The two ways keys are written

The migration writes the keys of all accounts in batches (`M0002.run`), a block writes
those of the accounts it updates row by row (`updateKeyBindings`).

    migration_writes_live_rows     both write the same rows
    statements_accepted_iff        when the batches stay small enough for the database

The threshold of a batch is tested once an account is appended, so a batch holds what
was pending, fewer than `batchSize` rows, and all keys of one more account.  `leftover`
counts the pending rows from the numbers of keys alone.
-/

namespace WalletProxyIndexer

open Transaction

/-- The answer of a node that knows the access structure. -/
def AccountInfo.ofKnown (account : AccountAddress × AccountAccessStructure) : AccountInfo :=
  ⟨account.1, .known account.2⟩

namespace M0002

/-! ## Batches of known accounts -/

/-- The rows of one account are appended, and the batch is written out if it is full. -/
def Batches.push (b : Batches) (rows : List PendingPublicKeyBindingInsertionRow) : Batches :=
  let b := { b with pendingRows := b.pendingRows ++ rows }
  if b.pendingRows.length ≥ batchSize then b.flush else b

theorem pushAccount_known (b : Batches) (account : AccountAddress × AccountAccessStructure) :
    pushAccount b (.ofKnown account) = .ok (b.push (accountRows account.1 account.2)) :=
  (apply_ite Except.ok _ _ _).symm

/-- The loop variables after the accounts. -/
def batches (accounts : List (AccountAddress × AccountAccessStructure)) : Batches :=
  accounts.foldl (fun b account => b.push (accountRows account.1 account.2)) ⟨[], []⟩

theorem batches_concat (accounts : List (AccountAddress × AccountAccessStructure))
    (account : AccountAddress × AccountAccessStructure) : batches (accounts ++ [account]) =
      (batches accounts).push (accountRows account.1 account.2) := by
  unfold batches
  rw [List.foldl_append]
  rfl

theorem foldlM_pushAccount_known (accounts : List (AccountAddress × AccountAccessStructure)) :
    (accounts.map AccountInfo.ofKnown).foldlM pushAccount ⟨[], []⟩ = .ok (batches accounts) := by
  induction accounts using List.reverseRecOn with
  | nil => rfl
  | append_singleton accounts account ih =>
    rw [List.map_append, List.foldlM_append, ih, batches_concat]
    show ([AccountInfo.ofKnown account].foldlM pushAccount (batches accounts)) = _
    rw [List.foldlM_cons, pushAccount_known]
    rfl

/-- The final flush. -/
def Batches.finish (b : Batches) : List InsertStatement :=
  if !b.pendingRows.isEmpty then b.flush.issued else b.issued

theorem run_known (accounts : List (AccountAddress × AccountAccessStructure)) :
    run (accounts.map AccountInfo.ofKnown) = .ok (batches accounts).finish := by
  unfold run
  rw [foldlM_pushAccount_known]
  exact (apply_ite Except.ok _ _ _).symm

/-! ## The size of a statement -/

theorem accountRows_length (address : AccountAddress) (s : AccountAccessStructure) :
    (accountRows address s).length = s.numKeys := by
  unfold accountRows AccountAccessStructure.numKeys
  simp only [List.length_flatMap, List.length_map]

/-- A statement binds five parameters a row, and is never empty. -/
theorem bulkInsert_params {rows : List PendingPublicKeyBindingInsertionRow} {s : InsertStatement}
    (h : bulkInsertPendingRows rows = some s) : s.params.length = 5 * rows.length ∧ rows ≠ [] := by
  unfold bulkInsertPendingRows at h
  split at h
  · cases h
  · next hempty =>
    obtain rfl := Option.some.inj h
    refine ⟨?_, by simpa using hempty⟩
    simp only [List.length_flatMap, rowParams_length, List.map_const', List.sum_replicate,
      smul_eq_mul]
    omega

theorem Batches.mem_flush {b : Batches} {s : InsertStatement} : s ∈ b.flush.issued ↔
    s ∈ b.issued ∨ bulkInsertPendingRows b.pendingRows = some s := by
  unfold flush
  rw [List.mem_append, Option.mem_toList]

/-- What a batch that is written out adds to a condition on all statements. -/
theorem Batches.forall_flush {b : Batches} {P : InsertStatement → Prop} :
    (∀ s ∈ b.flush.issued, P s) ↔ (∀ s ∈ b.issued, P s) ∧
      ∀ s, bulkInsertPendingRows b.pendingRows = some s → P s := by
  simp only [mem_flush, or_imp, forall_and]

/-- Rows pending after the accounts, from the number of keys of each. -/
def leftover (keys : List Nat) : Nat :=
  keys.foldl (fun pending k => if pending + k ≥ batchSize then 0 else pending + k) 0

theorem leftover_concat (keys : List Nat) (k : Nat) : leftover (keys ++ [k]) =
    if leftover keys + k ≥ batchSize then 0 else leftover keys + k := by
  unfold leftover
  rw [List.foldl_append]
  rfl

theorem leftover_lt (keys : List Nat) : leftover keys < batchSize := by
  induction keys using List.reverseRecOn with
  | nil => decide
  | append_singleton keys k ih =>
    rw [leftover_concat]
    split
    · decide
    · omega

def keyCounts (accounts : List (AccountAddress × AccountAccessStructure)) : List Nat :=
  accounts.map fun account => account.2.numKeys

theorem Batches.length_push (b : Batches) (rows : List PendingPublicKeyBindingInsertionRow) :
    (b.push rows).pendingRows.length =
      if b.pendingRows.length + rows.length ≥ batchSize then 0
      else b.pendingRows.length + rows.length := by
  unfold push
  rw [← List.length_append]
  dsimp only
  split <;> rfl

theorem length_pendingRows (accounts : List (AccountAddress × AccountAccessStructure)) :
    (batches accounts).pendingRows.length = leftover (keyCounts accounts) := by
  induction accounts using List.reverseRecOn with
  | nil => rfl
  | append_singleton accounts account ih =>
    rw [batches_concat, Batches.length_push, ih, accountRows_length]
    unfold keyCounts
    rw [List.map_append, List.map_singleton, leftover_concat]

theorem bulkInsert_of_ne_nil {rows : List PendingPublicKeyBindingInsertionRow} (h : rows ≠ []) :
    ∃ s, bulkInsertPendingRows rows = some s := by
  unfold bulkInsertPendingRows
  rw [if_neg (by simpa using h)]
  exact ⟨_, rfl⟩

/-- The statement of a batch binds few enough parameters if the batch has few enough rows. -/
theorem bulkInsert_fits_iff (rows : List PendingPublicKeyBindingInsertionRow) :
    (∀ s, bulkInsertPendingRows rows = some s → s.params.length ≤ 65535) ↔
      5 * rows.length ≤ 65535 := by
  constructor
  · intro h
    by_cases hempty : rows = []
    · rw [hempty]
      decide
    · obtain ⟨s, hs⟩ := bulkInsert_of_ne_nil hempty
      rw [← (bulkInsert_params hs).1]
      exact h s hs
  · intro h s hs
    rw [(bulkInsert_params hs).1]
    exact h

theorem Batches.push_fits_iff (b : Batches) (rows : List PendingPublicKeyBindingInsertionRow) :
    (∀ s ∈ (b.push rows).issued, s.params.length ≤ 65535) ↔
      (∀ s ∈ b.issued, s.params.length ≤ 65535) ∧
        5 * (b.pendingRows.length + rows.length) ≤ 65535 := by
  unfold push
  rw [← List.length_append]
  dsimp only
  split
  · rw [forall_flush, bulkInsert_fits_iff]
  · next hsmall =>
    -- nothing is written out, and what is pending is far below the limit
    have hlt : (b.pendingRows ++ rows).length < 1000 := Nat.lt_of_not_le hsmall
    constructor
    · intro h
      exact ⟨h, by omega⟩
    · rintro ⟨h, -⟩
      exact h

theorem batches_fit_iff (accounts : List (AccountAddress × AccountAccessStructure)) :
    (∀ s ∈ (batches accounts).issued, s.params.length ≤ 65535) ↔
      ∀ done k, done ++ [k] <+: keyCounts accounts → 5 * (leftover done + k) ≤ 65535 := by
  induction accounts using List.reverseRecOn with
  | nil =>
    refine iff_of_true (fun s hs => by cases hs) fun done k h => ?_
    have := h.length_le
    simp [keyCounts] at this
  | append_singleton accounts account ih =>
    have hcounts : keyCounts (accounts ++ [account]) = keyCounts accounts ++ [account.2.numKeys] := by
      unfold keyCounts
      rw [List.map_append, List.map_singleton]
    rw [batches_concat, Batches.push_fits_iff, ih, length_pendingRows, accountRows_length, hcounts]
    constructor
    · rintro ⟨hearlier, hlast⟩ done k h
      rcases List.prefix_concat_iff.mp h with heq | h
      · obtain ⟨rfl, hk⟩ := List.append_inj' heq rfl
        rw [List.singleton_inj.mp hk]
        exact hlast
      · exact hearlier done k h
    · intro h
      refine ⟨fun done k hp => h done k (hp.trans (List.prefix_append _ _)), ?_⟩
      exact h _ _ (List.prefix_refl _)

theorem mem_finish {accounts : List (AccountAddress × AccountAccessStructure)} {s : InsertStatement} :
    s ∈ (batches accounts).finish ↔ s ∈ (batches accounts).issued ∨
      bulkInsertPendingRows (batches accounts).pendingRows = some s := by
  unfold Batches.finish
  split
  · exact Batches.mem_flush
  · next hempty =>
    have hempty : (batches accounts).pendingRows = [] := by simpa using hempty
    rw [hempty]
    exact ⟨Or.inl, fun h => h.resolve_right fun h => by cases h⟩

/-- No statement is empty. -/
theorem batches_rows {accounts : List (AccountAddress × AccountAccessStructure)} {s : InsertStatement}
    (h : s ∈ (batches accounts).issued) : s.rows ≠ [] := by
  induction accounts using List.reverseRecOn with
  | nil => cases h
  | append_singleton accounts account ih =>
    rw [batches_concat] at h
    unfold Batches.push at h
    dsimp only at h
    split at h
    · rcases Batches.mem_flush.mp h with h | h
      · exact ih h
      · rw [rows_bulkInsert h]
        exact (bulkInsert_params h).2
    · exact ih h

theorem finish_rows {accounts : List (AccountAddress × AccountAccessStructure)} {s : InsertStatement}
    (h : s ∈ (batches accounts).finish) : s.rows ≠ [] := by
  rcases mem_finish.mp h with h | h
  · exact batches_rows h
  · rw [rows_bulkInsert h]
    exact (bulkInsert_params h).2

/-- The last batch is small. -/
theorem finish_fits_iff (accounts : List (AccountAddress × AccountAccessStructure)) :
    (∀ s ∈ (batches accounts).finish, s.params.length ≤ 65535) ↔
      ∀ s ∈ (batches accounts).issued, s.params.length ≤ 65535 := by
  simp only [mem_finish, or_imp, forall_and]
  refine and_iff_left ?_
  have hlt : (batches accounts).pendingRows.length < 1000 := by
    rw [length_pendingRows]
    exact leftover_lt _
  exact (bulkInsert_fits_iff _).mpr (by omega)

/-- Each statement of the migration binds at most 65535 parameters exactly if the rows pending
before each account and its keys together do not need more. -/
theorem statements_accepted_iff (accounts : List (AccountAddress × AccountAccessStructure)) :
    ∃ issued, run (accounts.map AccountInfo.ofKnown) = .ok issued ∧
      ((∀ s ∈ issued, s.params.length ≤ 65535) ↔
        ∀ done k, done ++ [k] <+: keyCounts accounts → 5 * (leftover done + k) ≤ 65535) := by
  refine ⟨_, run_known accounts, ?_⟩
  rw [finish_fits_iff, batches_fit_iff]

theorem nodup_indices {n : Nat} (h : n ≤ 256) : ((List.range n).map UInt8.ofNat).Nodup := by
  refine List.Nodup.map_on (fun a ha b hb hab => ?_) List.nodup_range
  have ha := List.mem_range.mp ha
  have hb := List.mem_range.mp hb
  have hmod := congrArg UInt8.toNat hab
  rw [UInt8.toNat_ofNat_of_lt' (show a < 2 ^ 8 by omega),
    UInt8.toNat_ofNat_of_lt' (show b < 2 ^ 8 by omega)] at hmod
  exact hmod

/-- 52 credentials of 256 keys each. -/
def largeAccount : AccountAccessStructure where
  keys := (List.range 52).map fun i => (UInt8.ofNat i, {
    keys := (List.range 256).map fun j => (UInt8.ofNat j, ⟨[]⟩)
    distinct := by
      rw [List.map_map]
      exact nodup_indices (Nat.le_refl 256) })
  distinct := by
    rw [List.map_map]
    exact nodup_indices (by decide)

theorem numKeys_largeAccount : largeAccount.numKeys = 13312 := by
  unfold largeAccount AccountAccessStructure.numKeys
  simp only [List.map_map, Function.comp_def, List.length_map, List.length_range, List.map_const',
    List.sum_replicate, smul_eq_mul]

/-- One large account is enough. -/
theorem large_account_rejected : ∃ issued,
    run ([((⟨.replicate 32 0⟩ : AccountAddress), largeAccount)].map AccountInfo.ofKnown) = .ok issued ∧
      ∃ s ∈ issued, 65535 < s.params.length := by
  refine ⟨_, run_known _, ?_⟩
  by_contra h
  have hfit : ∀ s ∈ (batches [((⟨.replicate 32 0⟩ : AccountAddress), largeAccount)]).finish,
      s.params.length ≤ 65535 :=
    fun s hs => Nat.le_of_not_lt fun hlt => h ⟨s, hs, hlt⟩
  rw [finish_fits_iff, batches_fit_iff] at hfit
  have hlarge := hfit [] largeAccount.numKeys (List.prefix_refl _)
  rw [numKeys_largeAccount] at hlarge
  revert hlarge
  decide

end M0002

/-! ## The rows of both -/

/-- Updates of an empty table insert the rows of every entry. -/
theorem applyBindings_nil (b : AccountPublicKeyBindings) :
    applyBindings [] b = b.entries.flatMap fun e => e.2.map (PublicKeyBindingInfo.columns e.1) := by
  unfold applyBindings
  obtain ⟨entries, hdistinct⟩ := b
  dsimp only
  induction entries using List.reverseRecOn with
  | nil => rfl
  | append_singleton entries e ih =>
    rw [List.map_append, List.nodup_append] at hdistinct
    obtain ⟨hrest, -, hne⟩ := hdistinct
    rw [List.foldl_append, List.foldl_cons, List.foldl_nil, ih hrest, List.flatMap_append,
      List.flatMap_singleton]
    unfold applyBinding
    congr 1
    -- no earlier account has the address of this entry
    refine List.filter_eq_self.mpr fun r hr => ?_
    obtain ⟨e', he', hr⟩ := List.mem_flatMap.mp hr
    obtain ⟨i, -, rfl⟩ := List.mem_map.mp hr
    rw [Bool.not_eq_true', beq_eq_false_iff_ne]
    intro heq
    exact hne e'.1 (List.mem_map_of_mem he') e.1 (by simp) (AccountAddress.toBytes_inj.mp heq)

/-- Accounts with distinct addresses have an entry each. -/
theorem accountInfoToBindings_known {accounts : List (AccountAddress × AccountAccessStructure)}
    (hdistinct : (accounts.map Prod.fst).Nodup) :
    ∃ bindings, accountInfoToBindings (accounts.map AccountInfo.ofKnown) = .ok bindings ∧
      bindings.entries = accounts.map fun a => (a.1, accountBindings a.2) := by
  show ∃ bindings, (accounts.map AccountInfo.ofKnown).foldlM addAccountInfo .new = .ok bindings ∧ _
  induction accounts using List.reverseRecOn with
  | nil => exact ⟨_, rfl, rfl⟩
  | append_singleton accounts account ih =>
    rw [List.map_append, List.nodup_append] at hdistinct
    obtain ⟨hrest, -, hne⟩ := hdistinct
    obtain ⟨bindings, hok, hentries⟩ := ih hrest
    refine ⟨bindings.orInsert account.1 (accountBindings account.2), ?_, ?_⟩
    · rw [List.map_append, List.foldlM_append, hok]
      rfl
    · rw [orInsert_entries, if_neg, hentries, List.map_append, List.map_singleton]
      rw [hentries, List.map_map]
      intro hin
      obtain ⟨a, ha, heq⟩ := List.mem_map.mp hin
      exact hne a.1 (List.mem_map_of_mem ha) account.1 (by simp) heq

/-- For whichever order the account queries of either side complete in, and whichever order the
entries are walked in: the statements of the migration are not empty, and insert the rows of
every account, which are those the updates insert into an empty table. -/
theorem migration_writes_live_rows {J : Type}
    {accounts : List (AccountAddress × AccountAccessStructure)}
    (hdistinct : (accounts.map Prod.fst).Nodup)
    {migrated queried : List (AccountAddress × AccountAccessStructure)}
    (hmigrated : migrated.Perm accounts) (hqueried : queried.Perm accounts) :
    ∃ issued bindings, M0002.run (migrated.map AccountInfo.ofKnown) = .ok issued ∧
      accountInfoToBindings (queried.map AccountInfo.ofKnown) = .ok bindings ∧
      (∀ s ∈ issued, s.rows ≠ []) ∧
      (issued.flatMap M0002.InsertStatement.rows).Perm
        (accounts.flatMap fun a => M0002.accountRows a.1 a.2) ∧
      ∀ b : AccountPublicKeyBindings, b.entries.Perm bindings.entries →
        ∀ db : Tables J, db.keyBindings = [] →
          ∃ s, updateKeyBindings b ⟨db, none⟩ = (.ok (), s) ∧
            (issued.flatMap M0002.InsertStatement.rows).Perm s.work.keyBindings := by
  obtain ⟨bindings, hbindings, hentries⟩ := accountInfoToBindings_known
    ((hqueried.map Prod.fst).nodup_iff.mpr hdistinct)
  have hrows : ((M0002.batches migrated).finish.flatMap M0002.InsertStatement.rows) =
      migrated.flatMap fun a => M0002.accountRows a.1 a.2 := by
    rw [(M0002.run_rows (M0002.run_known migrated)).1, List.flatMap_map]
    rfl
  refine ⟨_, bindings, M0002.run_known migrated, hbindings, fun s hs => ?_, ?_, fun b hb db hdb => ?_⟩
  · exact M0002.finish_rows hs
  · rw [hrows]
    exact hmigrated.flatMap_right _
  · have hspec := updateKeyBindings_triple (J := J) (c := db.contents) (b := []) (E := fun _ => False) b
      ⟨db, none⟩ ⟨rfl, hdb⟩
    rcases hrun : updateKeyBindings b ⟨db, none⟩ with ⟨r, s⟩
    rw [hrun] at hspec
    cases r with
    | error e => exact absurd rfl (hspec.resolve_left id).2
    | ok u =>
      obtain ⟨⟨-, hkeys⟩, -⟩ := hspec
      refine ⟨s, rfl, ?_⟩
      rw [hkeys, applyBindings_nil, hrows]
      have hflat := hb.flatMap_right fun e : AccountAddress × List PublicKeyBindingInfo =>
        e.2.map (PublicKeyBindingInfo.columns e.1)
      rw [hentries, List.flatMap_map] at hflat
      simp only [accountRows_eq]
      exact (hmigrated.flatMap_right _).trans ((hqueried.symm.flatMap_right _).trans hflat.symm)

/-- An account with two keys, and one with a single key. -/
def twoAccounts : List (AccountAddress × AccountAccessStructure) :=
  [(⟨.replicate 32 0⟩, ⟨[(0, ⟨[(0, ⟨[1]⟩), (1, ⟨[2]⟩)], by decide⟩)], by decide⟩),
    (aliasAddress, ⟨[(0, ⟨[(0, ⟨[3]⟩)], by decide⟩)], by decide⟩)]

/-- The queries of the migration complete in the opposite order. -/
theorem two_accounts_migrated : ∃ issued bindings,
    M0002.run (twoAccounts.reverse.map AccountInfo.ofKnown) = .ok issued ∧
      accountInfoToBindings (twoAccounts.map AccountInfo.ofKnown) = .ok bindings ∧
      (∀ s ∈ issued, s.rows ≠ []) ∧
      (issued.flatMap M0002.InsertStatement.rows).Perm
        (twoAccounts.flatMap fun a => M0002.accountRows a.1 a.2) ∧
      ∀ b : AccountPublicKeyBindings, b.entries.Perm bindings.entries →
        ∀ db : Tables PlainJson, db.keyBindings = [] →
          ∃ s, updateKeyBindings b ⟨db, none⟩ = (.ok (), s) ∧
            (issued.flatMap M0002.InsertStatement.rows).Perm s.work.keyBindings :=
  migration_writes_live_rows (by decide) (List.reverse_perm _) (.refl _)

end WalletProxyIndexer
