import WalletProxyIndexer.Schema

/-!
# The key binding migration

The loop of `m0002_acoount_public_key_binding::run` over the account infos a node
returned: the rows of each account are appended to `pending_rows`, which are written
out in one multi-row `INSERT` as soon as there are `batchSize` of them, and once more
at the end.

The statement is text with numbered placeholders and one list of parameters
(`bulkInsertPendingRows`).  Reading `$k` as the `k`-th parameter gives the pending rows
back (`rows_bulkInsert`), and the statements issued together insert the rows of every
account, in order (`run_rows`).
-/

namespace WalletProxyIndexer

namespace M0002

abbrev PendingPublicKeyBindingInsertionRow := AccountPublicKeyBindingsRow

def batchSize : Nat := 1000

/-! ## One statement -/

inductive SqlParam where
  | bytea (b : Bytea)
  | int4 (i : Int)
  | bool (b : Bool)
deriving DecidableEq

/-- `INSERT INTO account_public_key_bindings (…) VALUES ($…, $…, $…, $…, $…), …` -/
structure InsertStatement where
  placeholders : List (Nat × Nat × Nat × Nat × Nat)
  params : List SqlParam
deriving DecidableEq

def rowParams (row : PendingPublicKeyBindingInsertionRow) : List SqlParam :=
  [.bytea row.address, .bytea row.publicKey, .int4 row.credentialIndex, .int4 row.keyIndex,
    .bool row.isSimpleAccount]

def rowPlaceholders (i : Nat) : Nat × Nat × Nat × Nat × Nat :=
  let base := i * 5
  (base + 1, base + 2, base + 3, base + 4, base + 5)

def bulkInsertPendingRows (rows : List PendingPublicKeyBindingInsertionRow) : Option InsertStatement :=
  if rows.isEmpty then none
  else some ⟨(List.range rows.length).map rowPlaceholders, rows.flatMap rowParams⟩

namespace InsertStatement

/-- `$k`; the first parameter is `$1`. -/
def param (s : InsertStatement) (k : Nat) : Option SqlParam :=
  if k = 0 then none else s.params[k - 1]?

def row (s : InsertStatement) (p : Nat × Nat × Nat × Nat × Nat) : Option AccountPublicKeyBindingsRow :=
  match s.param p.1, s.param p.2.1, s.param p.2.2.1, s.param p.2.2.2.1, s.param p.2.2.2.2 with
  | some (.bytea address), some (.bytea publicKey), some (.int4 credentialIndex),
      some (.int4 keyIndex), some (.bool isSimpleAccount) =>
    some ⟨address, publicKey, credentialIndex, keyIndex, isSimpleAccount⟩
  | _, _, _, _, _ => none

/-- The rows the statement inserts. -/
def rows (s : InsertStatement) : List AccountPublicKeyBindingsRow := s.placeholders.filterMap s.row

/-- A statement binds at most 65535 parameters. -/
def accepted (s : InsertStatement) : Bool := s.params.length ≤ 65535

end InsertStatement

theorem rowParams_length (row : PendingPublicKeyBindingInsertionRow) : (rowParams row).length = 5 :=
  rfl

theorem params_getElem? (rows : List PendingPublicKeyBindingInsertionRow) (i j : Nat) (hj : j < 5)
    {row : PendingPublicKeyBindingInsertionRow} (h : rows[i]? = some row) :
    (rows.flatMap rowParams)[i * 5 + j]? = (rowParams row)[j]? := by
  induction rows generalizing i with
  | nil => simp at h
  | cons r rows ih =>
    rw [List.flatMap_cons]
    cases i with
    | zero =>
      obtain rfl : r = row := by simpa using h
      rw [List.getElem?_append_left (by rw [rowParams_length]; omega), Nat.zero_mul, Nat.zero_add]
    | succ i =>
      rw [List.getElem?_append_right (by rw [rowParams_length]; omega), rowParams_length,
        show (i + 1) * 5 + j - 5 = i * 5 + j by omega]
      exact ih i (by simpa using h)

theorem row_rowPlaceholders {rows : List PendingPublicKeyBindingInsertionRow}
    {row : PendingPublicKeyBindingInsertionRow} {i : Nat} (h : rows[i]? = some row)
    (placeholders : List (Nat × Nat × Nat × Nat × Nat)) :
    InsertStatement.row ⟨placeholders, rows.flatMap rowParams⟩ (rowPlaceholders i) = some row := by
  have hparam : ∀ j, j < 5 → InsertStatement.param ⟨placeholders, rows.flatMap rowParams⟩
      (i * 5 + (j + 1)) = (rowParams row)[j]? := by
    intro j hj
    unfold InsertStatement.param
    rw [if_neg (by omega), show i * 5 + (j + 1) - 1 = i * 5 + j by omega]
    exact params_getElem? rows i j hj h
  unfold InsertStatement.row rowPlaceholders
  rw [hparam 0 (by omega), hparam 1 (by omega), hparam 2 (by omega), hparam 3 (by omega),
    hparam 4 (by omega)]
  rfl

theorem filterMap_range_getElem? {α : Type} (l : List α) :
    (List.range l.length).filterMap (fun i => l[i]?) = l := by
  induction l using List.reverseRecOn with
  | nil => rfl
  | append_singleton l x ih =>
    rw [List.length_append, List.length_singleton, List.range_succ, List.filterMap_append,
      List.filterMap_congr (g := fun i => l[i]?) fun i hi =>
        List.getElem?_append_left (List.mem_range.mp hi), ih]
    simp

/-- The placeholders of a row stand for its columns. -/
theorem rows_bulkInsert {rows : List PendingPublicKeyBindingInsertionRow} {s : InsertStatement}
    (h : bulkInsertPendingRows rows = some s) : s.rows = rows := by
  unfold bulkInsertPendingRows at h
  split at h
  · cases h
  · obtain rfl := Option.some.inj h
    unfold InsertStatement.rows
    rw [List.filterMap_map]
    refine Eq.trans (List.filterMap_congr fun i hi => ?_) (filterMap_range_getElem? rows)
    have hi : i < rows.length := List.mem_range.mp hi
    have hr : rows[i]? = some rows[i] := List.getElem?_eq_getElem hi
    rw [hr]
    exact row_rowPlaceholders hr _

/-! ## The loop -/

/-- The loop variables: rows not yet written, and the statements issued so far. -/
structure Batches where
  pendingRows : List PendingPublicKeyBindingInsertionRow
  issued : List InsertStatement
deriving DecidableEq

def Batches.flush (b : Batches) : Batches :=
  ⟨[], b.issued ++ (bulkInsertPendingRows b.pendingRows).toList⟩

def accountRows (address : AccountAddress) (accessStructure : AccountAccessStructure) :
    List PendingPublicKeyBindingInsertionRow :=
  let isSimpleAccount := accessStructure.numKeys == 1
  accessStructure.keys.flatMap fun (credIndex, credentialKeys) =>
    credentialKeys.keys.map fun (keyIndex, key) =>
      ⟨address.toBytes, key.serial, credIndex.toNat, keyIndex.toNat, isSimpleAccount⟩

def pushAccount (b : Batches) (accountInfo : AccountInfo) : Except AnyhowError Batches := do
  let accessStructure ←
    accountInfo.accessStructure.knownOrElse "Unknown account access structure"
  let b := { b with pendingRows := b.pendingRows ++ accountRows accountInfo.accountAddress accessStructure }
  if b.pendingRows.length ≥ batchSize then pure b.flush else pure b

/-- The statements `run` issues for the account infos. -/
def run (accountInfos : List AccountInfo) : Except AnyhowError (List InsertStatement) := do
  let b ← accountInfos.foldlM pushAccount ⟨[], []⟩
  if !b.pendingRows.isEmpty then pure b.flush.issued else pure b.issued

/-- The rows of an account, if its access structure is known. -/
def infoRows (info : AccountInfo) : List AccountPublicKeyBindingsRow :=
  match info.accessStructure with
  | .known accessStructure => accountRows info.accountAddress accessStructure
  | .unknown => []

/-- What is written and what is still pending. -/
def Batches.rows (b : Batches) : List AccountPublicKeyBindingsRow :=
  b.issued.flatMap InsertStatement.rows ++ b.pendingRows

theorem flush_rows (b : Batches) : b.flush.rows = b.rows := by
  unfold Batches.rows Batches.flush
  rw [List.flatMap_append, List.append_nil]
  congr 1
  cases h : bulkInsertPendingRows b.pendingRows with
  | none =>
    unfold bulkInsertPendingRows at h
    split at h
    · next hempty => simpa using hempty
    · cases h
  | some s => simp [rows_bulkInsert h]

theorem pushAccount_rows {b b' : Batches} {info : AccountInfo} (h : pushAccount b info = .ok b') :
    b'.rows = b.rows ++ infoRows info ∧ info.accessStructure.isKnown = true := by
  unfold pushAccount at h
  unfold infoRows
  cases hs : info.accessStructure with
  | unknown => rw [hs] at h; cases h
  | known accessStructure =>
    rw [hs] at h
    let pushed : Batches := { b with
      pendingRows := b.pendingRows ++ accountRows info.accountAddress accessStructure }
    have hpushed : pushed.rows = b.rows ++ accountRows info.accountAddress accessStructure := by
      simp [Batches.rows, pushed]
    have h : (if pushed.pendingRows.length ≥ batchSize then .ok pushed.flush else .ok pushed :
      Except AnyhowError Batches) = .ok b' := h
    refine ⟨?_, rfl⟩
    split at h
    · rw [← Except.ok.inj h, flush_rows, hpushed]
    · rw [← Except.ok.inj h, hpushed]

theorem foldlM_pushAccount_rows {b b' : Batches} {infos : List AccountInfo}
    (h : infos.foldlM pushAccount b = .ok b') :
    b'.rows = b.rows ++ infos.flatMap infoRows ∧
      ∀ info ∈ infos, info.accessStructure.isKnown = true := by
  induction infos generalizing b with
  | nil =>
    obtain rfl : b = b' := Except.ok.inj h
    simp
  | cons info infos ih =>
    rw [List.foldlM_cons] at h
    cases hp : pushAccount b info with
    | error e => rw [hp] at h; cases h
    | ok b₁ =>
      rw [hp] at h
      obtain ⟨hrows, hknown⟩ := pushAccount_rows hp
      obtain ⟨hrest, hknowns⟩ := ih h
      refine ⟨?_, ?_⟩
      · rw [hrest, hrows, List.flatMap_cons, List.append_assoc]
      · intro i hi
        rcases List.mem_cons.mp hi with rfl | hi
        · exact hknown
        · exact hknowns i hi

/-- The statements insert the rows of every account, each once, in order. -/
theorem run_rows {infos : List AccountInfo} {issued : List InsertStatement}
    (h : run infos = .ok issued) : issued.flatMap InsertStatement.rows = infos.flatMap infoRows ∧
      ∀ info ∈ infos, info.accessStructure.isKnown = true := by
  unfold run at h
  cases hb : infos.foldlM pushAccount ⟨[], []⟩ with
  | error e => rw [hb] at h; cases h
  | ok b =>
    rw [hb] at h
    obtain ⟨hrows, hknown⟩ := foldlM_pushAccount_rows hb
    rw [show Batches.rows ⟨[], []⟩ = [] from rfl, List.nil_append] at hrows
    refine ⟨?_, hknown⟩
    have h : (if !b.pendingRows.isEmpty then .ok b.flush.issued else .ok b.issued :
      Except AnyhowError (List InsertStatement)) = .ok issued := h
    rw [← hrows]
    split at h
    · rw [← Except.ok.inj h, ← flush_rows]
      exact (List.append_nil _).symm
    · next hempty =>
      have hempty : b.pendingRows = [] := by simpa using hempty
      rw [← Except.ok.inj h, Batches.rows, hempty, List.append_nil]

end M0002

end WalletProxyIndexer
