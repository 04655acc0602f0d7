import WalletProxyIndexer.Insert

/-!
# Token supplies

The supply table as an association list, and what a history of mints and burns makes
of it.  `supplyStep` is one upsert without the range check of the column
(`SupplyEvent.fits` is that check), `supplyRun` a history of them.

The first event of a key takes the insert branch, which stores its amount with a
positive sign whether it is a mint or a burn; every later one takes the conflict
branch.  So the total of a key with events `e :: es` is (`total_supplyRun_nil`)

    e.amount + Σ signed es = net (e :: es) + 2 * (e.amount if e is a burn)

and equals the net supply exactly when the first event is not a nonzero burn
(`total_eq_net_iff`).
-/

namespace WalletProxyIndexer

inductive SupplyChange where
  | mint
  | burn
deriving DecidableEq

structure SupplyEvent where
  key : Cis2Key
  change : SupplyChange
  amount : Nat
deriving DecidableEq

def tokenKey (ca : ContractAddress) (tokenId : Cis2.TokenId) : Cis2Key :=
  ⟨ca.index.toInt64, ca.subindex.toInt64, tokenId⟩

/-- The casts to `i64` confuse no two tokens. -/
theorem tokenKey_inj {ca ca' : ContractAddress} {id id' : Cis2.TokenId} :
    tokenKey ca id = tokenKey ca' id' ↔ ca = ca' ∧ id = id' := by
  constructor
  · intro h
    simp only [tokenKey, Cis2Key.mk.injEq] at h
    obtain ⟨h1, h2, rfl⟩ := h
    have h1 := congrArg Int64.toUInt64 h1
    have h2 := congrArg Int64.toUInt64 h2
    rw [UInt64.toUInt64_toInt64, UInt64.toUInt64_toInt64] at h1 h2
    cases ca; cases ca'
    simp_all
  · rintro ⟨rfl, rfl⟩; rfl

/-- What a CIS2 event of a contract does to the supplies, if anything. -/
def Cis2.Event.supply (ca : ContractAddress) : Cis2.Event → Option SupplyEvent
  | .mint tokenId amount => some ⟨tokenKey ca tokenId, .mint, amount⟩
  | .burn tokenId amount => some ⟨tokenKey ca tokenId, .burn, amount⟩
  | _ => none

namespace SupplyEvent

/-- The total after a conflict. -/
def onConflict (e : SupplyEvent) : Int → Int → Int :=
  match e.change with
  | .mint => (· + ·)
  | .burn => (· - ·)

def signed (e : SupplyEvent) : Int :=
  match e.change with
  | .mint => e.amount
  | .burn => -e.amount

theorem onConflict_eq (e : SupplyEvent) (x : Int) : e.onConflict x e.amount = x + e.signed := by
  unfold onConflict signed
  cases e.change <;> simp [Int.sub_eq_add_neg]

/-- The total stored by an upsert over the total already there. -/
def stored (e : SupplyEvent) : Option Int → Int
  | none => e.amount
  | some x => x + e.signed

end SupplyEvent

abbrev Supplies := List (Cis2Key × Int)

def total (l : Supplies) (k : Cis2Key) : Option Int := l.lookup k

def supplyStep (l : Supplies) (e : SupplyEvent) : Supplies :=
  match total l e.key with
  | none => l ++ [(e.key, (e.amount : Int))]
  | some x => l.map fun p => if p.1 = e.key then (p.1, x + e.signed) else p

def supplyRun (l : Supplies) (es : List SupplyEvent) : Supplies := es.foldl supplyStep l

/-- Both the proposed total and the updated one are in the range of the column. -/
def SupplyEvent.fits (l : Supplies) (e : SupplyEvent) : Bool :=
  numericFits e.amount && numericFits (e.stored (total l e.key))

/-- Every total a history tries to store is in range. -/
def supplyFits (l : Supplies) : List SupplyEvent → Bool
  | [] => true
  | e :: es => e.fits l && supplyFits (supplyStep l e) es

theorem supplyRun_append (l : Supplies) (es es' : List SupplyEvent) :
    supplyRun l (es ++ es') = supplyRun (supplyRun l es) es' := List.foldl_append

theorem supplyFits_append (l : Supplies) (es es' : List SupplyEvent) :
    supplyFits l (es ++ es') = (supplyFits l es && supplyFits (supplyRun l es) es') := by
  induction es generalizing l with
  | nil => rfl
  | cons e es ih =>
    rw [List.cons_append, supplyFits, supplyFits, ih, Bool.and_assoc]
    rfl

/-! ## Totals -/

theorem total_cons (p : Cis2Key × Int) (l : Supplies) (k : Cis2Key) :
    total (p :: l) k = if k = p.1 then some p.2 else total l k := by
  unfold total
  rw [List.lookup_cons]
  by_cases h : k = p.1
  · rw [if_pos h, h, beq_self_eq_true]
  · rw [if_neg h, beq_eq_false_iff_ne.mpr h]

theorem total_append (l : Supplies) (k k' : Cis2Key) (x : Int) :
    total (l ++ [(k, x)]) k' =
      match total l k' with
      | some y => some y
      | none => if k' = k then some x else none := by
  induction l with
  | nil => exact total_cons (k, x) [] k'
  | cons p l ih =>
    rw [List.cons_append, total_cons, total_cons, ih]
    by_cases h : k' = p.1
    · rw [if_pos h, if_pos h]
    · rw [if_neg h, if_neg h]

theorem total_map (l : Supplies) (k k' : Cis2Key) (x : Int) :
    total (l.map fun p => if p.1 = k then (p.1, x) else p) k' =
      if k' = k then (total l k').map fun _ => x else total l k' := by
  induction l with
  | nil => simp [total]
  | cons p l ih =>
    rw [List.map_cons, total_cons, total_cons, ih]
    by_cases hp : p.1 = k
    · subst hp
      by_cases hk : k' = p.1 <;> simp [hk]
    · by_cases hk : k' = p.1
      · subst hk; simp [hp]
      · simp [hp, hk]

/-- One event stores a total for its own key and touches no other. -/
theorem total_supplyStep (l : Supplies) (e : SupplyEvent) (k : Cis2Key) :
    total (supplyStep l e) k = if k = e.key then some (e.stored (total l k)) else total l k := by
  unfold supplyStep
  split
  · next h =>
    rw [total_append]
    by_cases hk : k = e.key
    · subst hk; simp [h, SupplyEvent.stored]
    · rw [if_neg hk]
      cases total l k <;> simp [hk]
  · next x h =>
    rw [total_map]
    by_cases hk : k = e.key
    · subst hk; simp [h, SupplyEvent.stored]
    · rw [if_neg hk, if_neg hk]

/-- The part of a history about one key. -/
def ofKey (k : Cis2Key) (es : List SupplyEvent) : List SupplyEvent :=
  es.filter fun e => e.key = k

theorem ofKey_cons_self (e : SupplyEvent) (es : List SupplyEvent) :
    ofKey e.key (e :: es) = e :: ofKey e.key es :=
  List.filter_cons_of_pos (by simp)

theorem ofKey_cons_ne {e : SupplyEvent} {k : Cis2Key} (es : List SupplyEvent) (h : e.key ≠ k) :
    ofKey k (e :: es) = ofKey k es :=
  List.filter_cons_of_neg (by simpa using h)

def net (es : List SupplyEvent) : Int := (es.map SupplyEvent.signed).sum

theorem net_cons (e : SupplyEvent) (es : List SupplyEvent) : net (e :: es) = e.signed + net es := by
  simp [net]

theorem total_supplyRun_some (l : Supplies) (es : List SupplyEvent) (k : Cis2Key) (x : Int)
    (h : total l k = some x) : total (supplyRun l es) k = some (x + net (ofKey k es)) := by
  induction es generalizing l x with
  | nil => simp [supplyRun, net, ofKey, h]
  | cons e es ih =>
    have hstep := total_supplyStep l e k
    show total (supplyRun (supplyStep l e) es) k = _
    by_cases hk : e.key = k
    · subst hk
      rw [if_pos rfl, h] at hstep
      rw [ih _ _ hstep, ofKey_cons_self, net_cons]
      simp only [SupplyEvent.stored, Option.some.injEq]
      omega
    · rw [if_neg (Ne.symm hk), h] at hstep
      rw [ih _ _ hstep, ofKey_cons_ne es hk]

theorem total_supplyRun_none (l : Supplies) (es : List SupplyEvent) (k : Cis2Key)
    (h : total l k = none) : total (supplyRun l es) k =
      match ofKey k es with
      | [] => none
      | e :: es' => some (e.amount + net es') := by
  induction es generalizing l with
  | nil => simp [supplyRun, ofKey, h]
  | cons e es ih =>
    have hstep := total_supplyStep l e k
    show total (supplyRun (supplyStep l e) es) k = _
    by_cases hk : e.key = k
    · subst hk
      rw [if_pos rfl, h] at hstep
      rw [total_supplyRun_some _ _ _ _ hstep, ofKey_cons_self]
      rfl
    · rw [if_neg (Ne.symm hk), h] at hstep
      rw [ih _ hstep, ofKey_cons_ne es hk]

/-- What a key's events leave in an empty table: the first one enters unsigned. -/
def keyTotal : List SupplyEvent → Option Int
  | [] => none
  | e :: es => some (e.amount + net es)

theorem total_supplyRun_nil (es : List SupplyEvent) (k : Cis2Key) :
    total (supplyRun [] es) k = keyTotal (ofKey k es) := by
  rw [total_supplyRun_none [] es k rfl]
  unfold keyTotal
  split <;> simp_all

/-- The first event is a burn of a nonzero amount. -/
def startsWithBurn : List SupplyEvent → Bool
  | [] => false
  | e :: _ => e.change == .burn && e.amount != 0

theorem total_eq_net_iff (es : List SupplyEvent) :
    keyTotal es = (if es = [] then none else some (net es)) ↔ startsWithBurn es = false := by
  cases es with
  | nil => simp [keyTotal, startsWithBurn]
  | cons e es =>
    simp only [keyTotal, startsWithBurn, net_cons, SupplyEvent.signed, reduceCtorEq, if_false,
      Option.some.injEq]
    cases hc : e.change with
    | mint => simp
    | burn => simp only [beq_self_eq_true, Bool.true_and, bne_eq_false_iff_eq]; omega

end WalletProxyIndexer
