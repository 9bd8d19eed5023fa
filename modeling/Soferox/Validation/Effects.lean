import Soferox.Coins.Value
import Soferox.Validation.UtxoMap

/-!
# What validation does to the coins of a view

* `connectTx_ok` — the checks of a transaction only read; then `UpdateCoins` runs;
* `spendInputs_ok`, `addOutputs_ok` — the two halves of `UpdateCoins`, on the coins shown and on the cache flags;
* `updateCoins_coherent` — in a coherent stack, `UpdateCoins` is `UtxoMap.applyTx`.
-/

namespace Soferox

open Lib CCoinsViewCache UtxoMap List ViewM Except Preserves CTransaction

variable {v v' : CCoinsViewCache} {u : Unit} {o : COutPoint} {α : Type} (os : List COutPoint) (tx : CTransaction)
  (nHeight : ℕ) (vtx : List CTransaction) (txid : Uint256)

lemma ViewM.addCoin_eq_ok {coin : Coin} {possible_overwrite : Bool} :
    addCoin o coin possible_overwrite v = .ok (u, v') ↔ v.addCoin o coin possible_overwrite = .ok v' := by
  unfold addCoin
  cases v.addCoin o coin possible_overwrite <;> simp

/-! ## Relations that every step keeps -/

/-- A relation that reading from the view keeps. -/
structure ReadStable (R : CCoinsViewCache → CCoinsViewCache → Prop) : Prop where
  refl : ∀ v, R v v
  trans : ∀ v w u, R v w → R w u → R v u
  fetch : ∀ v o, R v (v.fetchCoin o).2

/-- A relation that reading and writing coins keep. -/
structure WriteStable (R : CCoinsViewCache → CCoinsViewCache → Prop) : Prop extends ReadStable R where
  spend : ∀ v o, R v (v.spendCoin o).2
  add : ∀ v o coin possible_overwrite v', v.addCoin o coin possible_overwrite = .ok v' → R v v'

/-- A relation between the views below, which reading from them keeps. -/
theorem WriteStable.ofBase {R : CCoinsView → CCoinsView → Prop} (hrefl : ∀ v, R v v)
    (htrans : ∀ v w u, R v w → R w u → R v u) (hget : ∀ v o, R v (v.getCoin o).2) :
    WriteStable fun v v' => R v.base v'.base where
  refl v := hrefl v.base
  trans v w u := htrans v.base w.base u.base
  fetch v o := fetchCoin_base (hrefl v.base) (hget v.base o)
  spend v o := by
    rw [spendCoin_base_eq]
    exact fetchCoin_base (hrefl v.base) (hget v.base o)
  add v _ _ _ _ h := by
    rw [addCoin_base h]
    exact hrefl v.base

namespace ReadStable

variable {R : CCoinsViewCache → CCoinsViewCache → Prop} (hR : ReadStable R) (flags : ScriptFlags) (nSpendHeight : ℕ)
  (vin : List CTxIn)

include hR

lemma pure (a : α) : Preserves R (Pure.pure a : ViewM α) := Preserves.pure hR.refl a

lemma bind {α β : Type} {m : ViewM α} {k : α → ViewM β} (hm : Preserves R m) (hk : ∀ a, Preserves R (k a)) :
    Preserves R (m >>= k) := Preserves.bind hR.trans hm hk

lemma ensure (b : Bool) (e : BlockError) : Preserves R (ensure b e : ViewM Unit) := Preserves.ensure hR.refl b e
lemma liftM (x : Except BlockError α) : Preserves R (liftM x : ViewM α) := Preserves.liftM hR.refl x

lemma haveCoin (o : COutPoint) : Preserves R (haveCoin o) := by
  intro v b v' h
  have h : v.haveCoin o = (b, v') := ok.inj h
  have hv' : (v.haveCoin o).2 = (v.fetchCoin o).2 := (haveCoin_spec v o).2
  have hfetch := hR.fetch v o
  rwa [← hv', h] at hfetch

lemma accessCoin (o : COutPoint) : Preserves R (accessCoin o) := by
  intro v c v' h
  have h : v.accessCoin o = (c, v') := ok.inj h
  have hv' : (v.accessCoin o).2 = (v.fetchCoin o).2 := (accessCoin_spec v o).2
  have hfetch := hR.fetch v o
  rwa [← hv', h] at hfetch

lemma haveInputs : Preserves R (haveInputs os) := by
  induction os with
  | nil => exact hR.pure _
  | cons o os ih => exact hR.bind (hR.haveCoin o) fun b => .ite ih (hR.pure _)

lemma sumInputs (acc : CAmount) (os : List COutPoint) : Preserves R (sumInputs nSpendHeight acc os) := by
  induction os generalizing acc with
  | nil => exact hR.pure _
  | cons o os ih =>
    exact hR.bind (hR.accessCoin o) fun _ => hR.bind (hR.ensure _ _) fun _ => hR.bind (hR.ensure _ _) fun _ =>
      hR.bind (hR.ensure _ _) fun _ => ih _

lemma checkTxInputs : Preserves R (checkTxInputs tx nSpendHeight) :=
  hR.bind (hR.haveInputs _) fun _ => hR.bind (hR.ensure _ _) fun _ => hR.bind (hR.sumInputs _ _ _) fun _ =>
    hR.bind (hR.liftM _) fun _ => hR.bind (hR.ensure _ _) fun _ => hR.bind (hR.ensure _ _) fun _ => hR.pure _

lemma prevHeights : Preserves R (prevHeights os) := by
  induction os with
  | nil => exact hR.pure _
  | cons o os ih => exact hR.bind (hR.accessCoin o) fun _ => hR.bind ih fun _ => hR.pure _

lemma connectInputs (ctx : BlockContext) (tx : CTransaction) (nFees : CAmount) :
    Preserves R (connectInputs ctx tx nFees) :=
  .ite (hR.pure _) (hR.bind (hR.checkTxInputs _ _) fun _ => hR.bind (hR.ensure _ _) fun _ =>
    hR.bind (hR.prevHeights _) fun _ => hR.bind (hR.ensure _ _) fun _ => hR.pure _)

lemma p2shSigOpCount : Preserves R (p2shSigOpCount vin) := by
  induction vin with
  | nil => exact hR.pure _
  | cons txin vin ih =>
    exact hR.bind (hR.accessCoin _) fun _ => hR.bind (hR.ensure _ _) fun _ => hR.bind ih fun _ => hR.pure _

lemma witnessSigOpCost : Preserves R (witnessSigOpCost flags vin) := by
  induction vin with
  | nil => exact hR.pure _
  | cons txin vin ih =>
    exact hR.bind (hR.accessCoin _) fun _ => hR.bind (hR.ensure _ _) fun _ => hR.bind (hR.liftM _) fun _ =>
      hR.bind ih fun _ => hR.pure _

lemma getTransactionSigOpCost : Preserves R (getTransactionSigOpCost tx flags) :=
  .ite (hR.pure _) (hR.bind (.ite (hR.p2shSigOpCount _) (hR.pure _)) fun _ =>
    hR.bind (hR.witnessSigOpCost _ _) fun _ => hR.pure _)

lemma inputCoins : Preserves R (inputCoins os) := by
  induction os with
  | nil => exact hR.pure _
  | cons o os ih =>
    exact hR.bind (hR.accessCoin o) fun _ => hR.bind (hR.ensure _ _) fun _ => hR.bind ih fun _ => hR.pure _

lemma checkInputs (env : BlockEnv) (ctx : BlockContext) (tx : CTransaction) : Preserves R (checkInputs env ctx tx) :=
  .ite (hR.pure _) (hR.bind (hR.inputCoins _) fun _ => hR.ensure _ _)

lemma checkBIP30Outputs (i : ℕ) (vout : List CTxOut) : Preserves R (checkBIP30Outputs txid i vout) := by
  induction vout generalizing i with
  | nil => exact hR.pure _
  | cons out vout ih => exact hR.bind (hR.haveCoin _) fun _ => hR.bind (hR.ensure _ _) fun _ => ih _

lemma checkBIP30 : Preserves R (checkBIP30 vtx) := by
  induction vtx with
  | nil => exact hR.pure _
  | cons tx vtx ih => exact hR.bind (hR.checkBIP30Outputs _ _ _) fun _ => ih

end ReadStable

namespace WriteStable

variable {R : CCoinsViewCache → CCoinsViewCache → Prop} (hR : WriteStable R)

include hR

lemma spendCoin (o : COutPoint) : Preserves R (spendCoin o) := by
  intro v c v' h
  have h : v.spendCoin o = (c, v') := ok.inj h
  have hv' := hR.spend v o
  rwa [h] at hv'

lemma addCoin (o : COutPoint) (coin : Coin) (possible_overwrite : Bool) :
    Preserves R (addCoin o coin possible_overwrite) :=
  fun v _ v' h => hR.add v o coin possible_overwrite v' (addCoin_eq_ok.1 h)

lemma spendInputs : Preserves R (spendInputs os) := by
  induction os with
  | nil => exact hR.pure _
  | cons o os ih =>
    refine hR.bind (hR.spendCoin o) fun c => ?_
    cases c with
    | none => exact fun v _ _ h => by cases h
    | some coin => exact hR.bind ih fun _ => hR.pure _

lemma addOutputs (fCoinbase : Bool) (nHeight : ℕ) (check : Bool) (i : ℕ) (vout : List CTxOut) :
    Preserves R (addOutputs txid fCoinbase nHeight check i vout) := by
  induction vout generalizing i with
  | nil => exact hR.pure _
  | cons out vout ih =>
    exact hR.bind (.ite (hR.haveCoin _) (hR.pure _)) fun _ => hR.bind (hR.addCoin _ _ _) fun _ => ih _

lemma updateCoins : Preserves R (updateCoins tx nHeight) :=
  hR.bind (.ite (hR.pure _) (hR.spendInputs _)) fun _ => hR.bind (hR.addOutputs _ _ _ _ _ _) fun _ => hR.pure _

variable (env : BlockEnv) (ctx : BlockContext) (nFees : CAmount) (nSigOpsCost : ℕ)
include env ctx

lemma connectTx : Preserves R (connectTx env ctx tx nFees nSigOpsCost) :=
  hR.bind (hR.connectInputs _ _ _) fun _ => hR.bind (hR.getTransactionSigOpCost _ _) fun _ =>
    hR.bind (hR.ensure _ _) fun _ => hR.bind (hR.checkInputs _ _ _) fun _ => hR.bind (hR.updateCoins _ _) fun _ =>
      hR.pure _

lemma connectTxs : Preserves R (connectTxs env ctx nFees nSigOpsCost vtx) := by
  induction vtx generalizing nFees nSigOpsCost with
  | nil => exact hR.pure _
  | cons tx vtx ih => exact hR.bind (hR.connectTx _ _ _ _ _) fun _ => hR.bind (ih _ _) fun _ => hR.pure _

lemma connectTransactions (params : ConsensusParams) (block : CBlock) :
    Preserves R (connectTransactions env params ctx block) :=
  hR.bind (.ite (hR.checkBIP30 _) (hR.pure _)) fun _ => hR.bind (hR.connectTxs _ _ _ _ _) fun _ =>
    hR.bind (hR.liftM _) fun _ => hR.bind (hR.ensure _ _) fun _ => hR.pure _

end WriteStable

lemma sameCoins_readStable : ReadStable SameCoins := ⟨SameCoins.refl, fun _ _ _ => SameCoins.trans, fetchCoin_sameCoins⟩

/-- Clean entries stay true, and settled outpoints settled, whatever is done to the view. -/
theorem clean_writeStable : WriteStable fun v v' => v.Clean → v'.Clean ∧ ∀ o, v.Settled o → v'.Settled o where
  refl _ hv := ⟨hv, fun _ => id⟩
  trans _ _ _ h h' hv := ⟨(h' (h hv).1).1, fun o ho => (h' (h hv).1).2 o ((h hv).2 o ho)⟩
  fetch v o hv := ⟨(fetchCoin_sameCoins v o).clean hv, (fetchCoin_sameCoins v o).settled⟩
  spend _ o hv := ⟨spendCoin_clean hv o, fun _ ho => spendCoin_settled ho o⟩
  add _ _ _ _ _ h hv := ⟨addCoin_clean h hv, fun _ ho => addCoin_settled h hv ho⟩

/-! ## What is read -/

section

variable {os : List COutPoint} {acc : CAmount} {nSpendHeight : ℕ} {s : CAmount} {b : Bool}

lemma haveCoin_run (h : haveCoin o v = .ok (b, v')) : SameCoins v v' ∧ b = (v.unspent o).isSome := by
  have h : v.haveCoin o = (b, v') := ok.inj h
  have hsame := haveCoin_sameCoins v o
  have hfound := (haveCoin_spec v o).1
  rw [h] at hsame hfound
  exact ⟨hsame, hfound⟩

lemma haveInputs_true (h : haveInputs os v = .ok (true, v')) : ∀ o ∈ os, (v.unspent o).isSome := by
  induction os generalizing v with
  | nil => simp
  | cons o os ih =>
    obtain ⟨b, w, hb, h⟩ := run_bind_eq_ok.1 h
    obtain ⟨hsame, hfound⟩ := haveCoin_run hb
    cases b with
    | false =>
      obtain ⟨habs, -⟩ := run_pure_eq_ok.1 h
      cases habs
    | true =>
      rw [← hsame.unspent] at hfound ⊢
      exact forall_mem_cons.2 ⟨hfound.symm, ih h⟩

/-- The value of the coins at a list of outpoints. -/
def UtxoMap.valueOf (m : UtxoMap) (os : List COutPoint) : CAmount := (os.map fun o => coinValue (m o)).sum

lemma sumInputs_eq (h : sumInputs nSpendHeight acc os v = .ok (s, v')) : s = acc + valueOf v.unspent os := by
  induction os generalizing acc v with
  | nil =>
    obtain ⟨rfl, -⟩ := run_pure_eq_ok.1 h
    simp [valueOf]
  | cons o os ih =>
    obtain ⟨coin, w, hc, h⟩ := run_bind_eq_ok.1 h
    have hsame := sameCoins_readStable.accessCoin o v coin w hc
    have hc : v.accessCoin o = (coin, w) := ok.inj hc
    obtain ⟨hs, h⟩ := run_ensure_bind_eq_ok.1 h
    obtain ⟨-, h⟩ := run_ensure_bind_eq_ok.1 h
    obtain ⟨-, h⟩ := run_ensure_bind_eq_ok.1 h
    have hcoin := (accessCoin_spec v o).1
    rw [hc, Coin.unlessSpent_of_not_isSpent (by simpa using hs)] at hcoin
    rw [ih h, hsame.unspent, valueOf, valueOf, map_cons, sum_cons, ← hcoin, coinValue_some]
    ring

variable {vout : List CTxOut}

lemma getValueOutFrom_eq (h : getValueOutFrom acc vout = .ok s) : s = acc + (vout.map CTxOut.nValue).sum := by
  induction vout generalizing acc with
  | nil =>
    cases h
    simp
  | cons out vout ih =>
    rw [getValueOutFrom] at h
    split at h
    · cases h
    · rw [ih h, map_cons, sum_cons]
      ring

lemma checkOutputs_nonneg (h : checkOutputs acc vout = .ok u) : ∀ out ∈ vout, 0 ≤ out.nValue := by
  induction vout generalizing acc with
  | nil => simp
  | cons out vout ih =>
    rw [checkOutputs] at h
    split at h
    · cases h
    · rename_i hneg
      split at h
      · cases h
      · split at h
        · cases h
        · exact forall_mem_cons.2 ⟨not_lt.1 hneg, ih h⟩

variable {tx : CTransaction}

/-- What `CheckTransaction` guarantees of the outputs, and of the inputs if it looks for duplicates. -/
theorem checkTransaction_ok {fCheckDuplicateInputs : Bool} (h : checkTransaction tx fCheckDuplicateInputs = .ok u) :
    (∀ out ∈ tx.vout, 0 ≤ out.nValue) ∧ (fCheckDuplicateInputs → tx.prevouts.Nodup) := by
  unfold checkTransaction at h
  split at h
  · cases h
  split at h
  · cases h
  split at h
  · cases h
  split at h
  · cases h
  · rename_i houts
    refine ⟨checkOutputs_nonneg houts, fun hdup => ?_⟩
    split at h
    · cases h
    · rename_i hnodup
      by_contra hn
      exact hnodup ⟨hdup, hn⟩

/-- A transaction that passes `CheckTxInputs` spends coins that are there, and pays what is left of them as a fee. -/
theorem checkTxInputs_ok {fee : CAmount} (h : checkTxInputs tx nSpendHeight v = .ok (fee, v')) :
    (∀ o ∈ tx.prevouts, (v.unspent o).isSome) ∧
      fee = valueOf v.unspent tx.prevouts - (tx.vout.map CTxOut.nValue).sum := by
  obtain ⟨b, w, hb, h⟩ := run_bind_eq_ok.1 h
  have hsame := sameCoins_readStable.haveInputs _ v b w hb
  obtain ⟨hin, h⟩ := run_ensure_bind_eq_ok.1 h
  obtain ⟨nValueIn, w₁, h₁, h⟩ := run_bind_eq_ok.1 h
  obtain ⟨value_out, w₂, h₂, h⟩ := run_bind_eq_ok.1 h
  obtain ⟨hout, rfl⟩ := run_liftM_eq_ok.1 h₂
  obtain ⟨-, h⟩ := run_ensure_bind_eq_ok.1 h
  obtain ⟨-, h⟩ := run_ensure_bind_eq_ok.1 h
  obtain ⟨rfl, -⟩ := run_pure_eq_ok.1 h
  refine ⟨haveInputs_true (hin ▸ hb), ?_⟩
  rw [sumInputs_eq h₁, hsame.unspent, getValueOutFrom_eq hout]
  ring

variable {ctx : BlockContext} {env : BlockEnv} {vprevout : List Coin} {nFees : CAmount} {cost : ℕ} {nFees' : CAmount}
  {cost' : ℕ}

lemma connectTx_ok (h : connectTx env ctx tx nFees cost v = .ok ((nFees', cost', vprevout), v')) :
    ∃ w, SameCoins v w ∧ updateCoins tx ctx.nHeight w = .ok (vprevout, v') ∧
      (tx.isCoinBase = true → nFees' = nFees) ∧
      (tx.isCoinBase = false → (∀ o ∈ tx.prevouts, (v.unspent o).isSome) ∧
        nFees' = nFees + (valueOf v.unspent tx.prevouts - (tx.vout.map CTxOut.nValue).sum)) := by
  obtain ⟨fees, w₁, h₁, h⟩ := run_bind_eq_ok.1 h
  obtain ⟨c, w₂, h₂, h⟩ := run_bind_eq_ok.1 h
  obtain ⟨-, h⟩ := run_ensure_bind_eq_ok.1 h
  obtain ⟨_, w₃, h₃, h⟩ := run_bind_eq_ok.1 h
  obtain ⟨undo, w₄, h₄, h⟩ := run_bind_eq_ok.1 h
  obtain ⟨hres, rfl⟩ := run_pure_eq_ok.1 h
  cases hres
  have hR := sameCoins_readStable
  refine ⟨w₃, ((hR.connectInputs _ _ _ v _ _ h₁).trans (hR.getTransactionSigOpCost _ _ _ _ _ h₂)).trans
    (hR.checkInputs _ _ _ _ _ _ h₃), h₄, fun hcb => ?_, fun hcb => ?_⟩
  · rw [connectInputs, if_pos hcb] at h₁
    exact (run_pure_eq_ok.1 h₁).1.symm
  · rw [connectInputs, if_neg (by rw [hcb]; decide)] at h₁
    obtain ⟨txfee, w, hfee, h₁⟩ := run_bind_eq_ok.1 h₁
    obtain ⟨-, h₁⟩ := run_ensure_bind_eq_ok.1 h₁
    obtain ⟨_, w', h', h₁⟩ := run_bind_eq_ok.1 h₁
    obtain ⟨-, h₁⟩ := run_ensure_bind_eq_ok.1 h₁
    obtain ⟨hsum, -⟩ := run_pure_eq_ok.1 h₁
    obtain ⟨hin, rfl⟩ := checkTxInputs_ok hfee
    exact ⟨hin, hsum.symm⟩

/-! ## Spending the inputs -/

variable {coins : List Coin}

lemma spendInputs_nil : spendInputs [] v = .ok (coins, v') ↔ coins = [] ∧ v' = v := by
  rw [spendInputs, run_pure_eq_ok, eq_comm, eq_comm (a := v)]

lemma spendInputs_cons :
    spendInputs (o :: os) v = .ok (coins, v') ↔
      ∃ coin rest, (v.spendCoin o).1 = some coin ∧ spendInputs os (v.spendCoin o).2 = .ok (rest, v') ∧
        coins = coin :: rest := by
  rw [spendInputs, run_bind_eq_ok]
  constructor
  · rintro ⟨c, w, hc, h⟩
    have hc : v.spendCoin o = (c, w) := ok.inj hc
    rw [hc]
    cases c with
    | none => cases h
    | some coin =>
      obtain ⟨rest, w', hrest, h⟩ := run_bind_eq_ok.1 h
      obtain ⟨rfl, rfl⟩ := run_pure_eq_ok.1 h
      exact ⟨coin, rest, rfl, hrest, rfl⟩
  · rintro ⟨coin, rest, hc, hrest, rfl⟩
    refine ⟨some coin, (v.spendCoin o).2, congrArg ok (Prod.ext hc rfl), ?_⟩
    exact run_bind_eq_ok.2 ⟨rest, v', hrest, run_pure_eq_ok.2 ⟨rfl, rfl⟩⟩

/-- The coin moved out is the one shown; a spent one is moved where none is shown. -/
theorem unlessSpent_of_spendCoin {v : CCoinsViewCache} {coin : Coin}
    (h : (v.spendCoin o).1 = some coin) : coin.unlessSpent = v.unspent o := by
  have hfst := spendCoin_fst v o
  rwa [h] at hfst

lemma spendInputs_moved (hos : os.Nodup)
    (h : spendInputs os v = .ok (coins, v')) : coins.map Coin.unlessSpent = os.map v.unspent := by
  induction os generalizing v coins with
  | nil =>
    obtain ⟨rfl, -⟩ := spendInputs_nil.1 h
    rfl
  | cons o os ih =>
    obtain ⟨coin, rest, hc, htl, rfl⟩ := spendInputs_cons.1 h
    obtain ⟨ho, hos⟩ := nodup_cons.1 hos
    have htail : os.map (v.spendCoin o).2.unspent = os.map v.unspent :=
      map_congr_left fun o' ho' => spendCoin_unspent_ne v fun heq => ho (heq ▸ ho')
    rw [map_cons, map_cons, unlessSpent_of_spendCoin hc, ih hos htl, htail]

section

variable (hv : v.Coherent) (h : spendInputs os v = .ok (coins, v'))
include hv h

lemma spendInputs_coherent : v'.Coherent ∧ v'.unspent = UtxoMap.spend v.unspent os := by
  induction os generalizing v coins with
  | nil =>
    obtain ⟨-, rfl⟩ := spendInputs_nil.1 h
    exact ⟨hv, (spend_nil _).symm⟩
  | cons o os ih =>
    obtain ⟨coin, rest, -, h, -⟩ := spendInputs_cons.1 h
    obtain ⟨hc, hu⟩ := ih (spendCoin_coherent hv o) h
    exact ⟨hc, by rw [hu, spendCoin_unspent hv, spend_cons]⟩

/-- In a coherent stack, an input that is not there moves a spent coin. -/
theorem spendInputs_spent (ho : o ∈ os) (hnone : v.unspent o = none) : ∃ coin ∈ coins, coin.isSpent = true := by
  induction os generalizing v coins with
  | nil => cases ho
  | cons o' os ih =>
    obtain ⟨coin, rest, hc, htl, rfl⟩ := spendInputs_cons.1 h
    by_cases hoo : o = o'
    · subst hoo
      exact ⟨coin, mem_cons_self, Coin.unlessSpent_eq_none.1 ((unlessSpent_of_spendCoin hc).trans hnone)⟩
    · have ho : o ∈ os := (mem_cons.1 ho).resolve_left hoo
      obtain ⟨c, hmem, hs⟩ := ih (spendCoin_coherent hv o') htl ho ((spendCoin_unspent_ne v hoo).trans hnone)
      exact ⟨c, mem_cons_of_mem _ hmem, hs⟩

lemma nodup_of_spendInputs (hcoins : ∀ coin ∈ coins, coin.isSpent = false) : os.Nodup := by
  induction os generalizing v coins with
  | nil => exact nodup_nil
  | cons o os ih =>
    obtain ⟨coin, rest, -, htl, rfl⟩ := spendInputs_cons.1 h
    have hrest : ∀ coin ∈ rest, coin.isSpent = false := fun c hc => hcoins c (mem_cons_of_mem _ hc)
    refine nodup_cons.2 ⟨fun ho => ?_, ih (spendCoin_coherent hv o) htl hrest⟩
    have hnone : (v.spendCoin o).2.unspent o = none := by rw [spendCoin_unspent hv, Function.update_self]
    obtain ⟨c, hmem, hs⟩ := spendInputs_spent (spendCoin_coherent hv o) htl ho hnone
    rw [hrest c hmem] at hs
    cases hs

end

lemma spendInputs_undo (hos : os.Nodup)
    (hin : ∀ o ∈ os, (v.unspent o).isSome) (h : spendInputs os v = .ok (coins, v')) :
    os.map v.unspent = coins.map some ∧ ∀ coin ∈ coins, coin.isSpent = false := by
  have hmoved := spendInputs_moved hos h
  have hunspent : ∀ coin ∈ coins, coin.isSpent = false := by
    intro coin hcoin
    obtain ⟨o, ho, heq⟩ := mem_map.1 (hmoved ▸ mem_map_of_mem hcoin : coin.unlessSpent ∈ os.map v.unspent)
    have hsome := hin o ho
    rw [heq, Option.isSome_iff_ne_none, ne_eq, Coin.unlessSpent_eq_none] at hsome
    simpa using hsome
  refine ⟨?_, hunspent⟩
  rw [← hmoved]
  exact map_congr_left fun coin hcoin => Coin.unlessSpent_of_not_isSpent (hunspent coin hcoin)

/-! ## Adding the outputs -/

variable {txid : Uint256} {nHeight : ℕ} {fCoinbase : Bool} {i : ℕ}

lemma addOutputs_cons {out : CTxOut} :
    addOutputs txid fCoinbase nHeight false i (out :: vout) v = .ok (u, v') ↔
      ∃ w, v.addCoin ⟨txid, i⟩ ⟨out, fCoinbase, nHeight⟩ fCoinbase = .ok w ∧
        addOutputs txid fCoinbase nHeight false (i + 1) vout w = .ok (u, v') := by
  rw [addOutputs, if_neg (by decide), run_bind_eq_ok]
  constructor
  · rintro ⟨b, w₀, hb, h⟩
    obtain ⟨rfl, rfl⟩ := run_pure_eq_ok.1 hb
    obtain ⟨_, w, hadd, h⟩ := run_bind_eq_ok.1 h
    exact ⟨w, addCoin_eq_ok.1 hadd, h⟩
  · rintro ⟨w, hadd, h⟩
    exact ⟨fCoinbase, v, run_pure_eq_ok.2 ⟨rfl, rfl⟩, run_bind_eq_ok.2 ⟨(), w, addCoin_eq_ok.2 hadd, h⟩⟩

lemma addOutputs_coherent (hv : v.Coherent) (hs : ∀ j, i ≤ j → j < i + vout.length → v.Settled ⟨txid, j⟩)
    (h : addOutputs txid fCoinbase nHeight false i vout v = .ok (u, v')) :
    v'.Coherent ∧ v'.unspent = (fun o => (outputCoinFrom txid fCoinbase nHeight i vout o).or (v.unspent o)) ∧
      (fCoinbase = false → ∀ o, (outputCoinFrom txid fCoinbase nHeight i vout o).isSome → v.unspent o = none) := by
  induction vout generalizing i v with
  | nil =>
    obtain ⟨-, rfl⟩ := run_pure_eq_ok.1 h
    exact ⟨hv, funext fun o => by rw [outputCoinFrom_nil, Option.none_or],
      fun _ o ho => by rw [outputCoinFrom_nil] at ho; cases ho⟩
  | cons out vout ih =>
    obtain ⟨w, hadd, h⟩ := addOutputs_cons.1 h
    have hsi := hs i le_rfl (by simp)
    have hw := hsi.coherent hadd hv
    have hsettled : ∀ j, i + 1 ≤ j → j < i + 1 + vout.length → w.Settled ⟨txid, j⟩ := fun j hj hj' =>
      addCoin_settled hadd (coherent_iff.1 hv).1 (hs j (by omega) (by rw [length_cons]; omega))
    obtain ⟨hc, hun, hfresh⟩ := ih hw hsettled h
    have hne : ∀ o, o ≠ ⟨txid, i⟩ → w.unspent o = v.unspent o := fun o ho => addCoin_unspent_ne hadd ho
    refine ⟨hc, ?_, fun hcb o ho => ?_⟩
    · rw [hun, addCoin_unspent hadd, outputCoinFrom_or_update]
    · rw [outputCoinFrom_cons] at ho
      split at ho
      · rename_i hoi
        cases hu : out.scriptPubKey.isUnspendable with
        | true =>
          rw [hu, if_pos rfl] at ho
          cases ho
        | false =>
          subst hcb
          rw [hoi]
          exact hsi.unspent_none hu hadd
      · rename_i hoi
        rw [← hne o hoi]
        exact hfresh hcb o ho

/-! ## Transactions -/

lemma updateCoins_eq_ok :
    updateCoins tx nHeight v = .ok (vprevout, v') ↔
      ∃ w, spendInputs (UtxoMap.inputs tx) v = .ok (vprevout, w) ∧
        addOutputs tx.hash tx.isCoinBase nHeight false 0 tx.vout w = .ok ((), v') := by
  have hin : (if tx.isCoinBase then pure [] else spendInputs tx.prevouts : ViewM (List Coin)) =
      spendInputs (UtxoMap.inputs tx) := by
    unfold UtxoMap.inputs
    split <;> rfl
  rw [updateCoins, hin, run_bind_eq_ok]
  constructor
  · rintro ⟨coins, w, hspend, h⟩
    obtain ⟨_, w', hadd, h⟩ := run_bind_eq_ok.1 h
    obtain ⟨rfl, rfl⟩ := run_pure_eq_ok.1 h
    exact ⟨w, hspend, hadd⟩
  · rintro ⟨w, hspend, hadd⟩
    exact ⟨vprevout, w, hspend, run_bind_eq_ok.2 ⟨(), v', hadd, run_pure_eq_ok.2 ⟨rfl, rfl⟩⟩⟩

/-- A coin can be added at every output of the transaction without breaking the caches. -/
def CCoinsViewCache.SettledOutputs (v : CCoinsViewCache) (tx : CTransaction) : Prop :=
  ∀ j, j < tx.vout.length → v.Settled ⟨tx.hash, j⟩

lemma updateCoins_coherent (hv : v.Coherent) (hs : v.SettledOutputs tx)
    (h : updateCoins tx nHeight v = .ok (vprevout, v')) :
    v'.Coherent ∧ v'.unspent = applyTx nHeight v.unspent tx ∧
      (tx.isCoinBase = false → UtxoMap.FreshOutputs v.unspent tx nHeight) := by
  obtain ⟨w, hspend, hadd⟩ := updateCoins_eq_ok.1 h
  obtain ⟨hw, hwun⟩ := spendInputs_coherent hv hspend
  have hclean := clean_writeStable.spendInputs _ v _ w hspend (coherent_iff.1 hv).1
  obtain ⟨hv', hun, hfresh⟩ :=
    addOutputs_coherent hw (fun j _ hj => hclean.2 _ (hs j (by omega))) hadd
  rw [hwun] at hun hfresh
  exact ⟨hv', hun, hfresh⟩

lemma UtxoMap.inputs_nodup_iff : (inputs tx).Nodup ↔ tx.prevouts.Nodup := by
  unfold inputs
  split_ifs with hcb
  · unfold isCoinBase at hcb
    split at hcb
    · simp [prevouts, *]
    · cases hcb
  · rfl

lemma connectTx_coherent (hv : v.Coherent) (hs : v.SettledOutputs tx)
    (h : connectTx env ctx tx nFees cost v = .ok ((nFees', cost', vprevout), v')) :
    v'.Coherent ∧ v'.unspent = applyTx ctx.nHeight v.unspent tx ∧
      (tx.isCoinBase = false → UtxoMap.FreshOutputs v.unspent tx ctx.nHeight) ∧
      (tx.prevouts.Nodup ↔ ∀ coin ∈ vprevout, coin.isSpent = false) ∧
      (tx.prevouts.Nodup → (UtxoMap.inputs tx).map v.unspent = vprevout.map some) := by
  obtain ⟨w, hsame, hupd, -, hin⟩ := connectTx_ok h
  have hw := hsame.coherent hv
  obtain ⟨hv', hun, hfresh⟩ := updateCoins_coherent hw (fun j hj => hsame.settled _ (hs j hj)) hupd
  obtain ⟨w', hspend, -⟩ := updateCoins_eq_ok.1 hupd
  have hthere : ∀ o ∈ UtxoMap.inputs tx, (w.unspent o).isSome := by
    intro o ho
    rw [hsame.unspent]
    unfold UtxoMap.inputs at ho
    split at ho
    · cases ho
    · rename_i hcb
      exact (hin (by simpa using hcb)).1 o ho
  rw [hsame.unspent] at hun hfresh
  rw [← inputs_nodup_iff]
  refine ⟨hv', hun, hfresh, ⟨fun hnd => (spendInputs_undo hnd hthere hspend).2, nodup_of_spendInputs hw hspend⟩,
    fun hnd => ?_⟩
  rw [← hsame.unspent]
  exact (spendInputs_undo hnd hthere hspend).1

variable {vtxundo : List (List Coin)} {vtx : List CTransaction} {fees : CAmount}

lemma connectTxs_cons (h : connectTxs env ctx nFees cost (tx :: vtx) v = .ok ((fees, vtxundo), v')) :
    ∃ nFees' cost' vprevout rest w, connectTx env ctx tx nFees cost v = .ok ((nFees', cost', vprevout), w) ∧
      connectTxs env ctx nFees' cost' vtx w = .ok ((fees, rest), v') ∧ vtxundo = vprevout :: rest := by
  obtain ⟨⟨nFees', cost', vprevout⟩, w, htx, h⟩ := run_bind_eq_ok.1 h
  obtain ⟨⟨fees', rest⟩, w', hrest, h⟩ := run_bind_eq_ok.1 h
  obtain ⟨hres, rfl⟩ := run_pure_eq_ok.1 h
  cases hres
  exact ⟨nFees', cost', vprevout, rest, w, htx, hrest, rfl⟩

/-- The loop of `ConnectBlock` in a coherent stack; a duplicate input leaves a spent coin in the undo data. -/
theorem connectTxs_coherent (hv : v.Coherent) (hs : ∀ tx ∈ vtx, v.SettledOutputs tx)
    (h : connectTxs env ctx nFees cost vtx v = .ok ((fees, vtxundo), v')) :
    v'.Coherent ∧ v'.unspent = applyTxs ctx.nHeight v.unspent vtx ∧
      ((∀ tx ∈ vtx, tx.prevouts.Nodup) ↔ ∀ vprevout ∈ vtxundo, ∀ coin ∈ vprevout, coin.isSpent = false) := by
  induction vtx generalizing nFees cost v vtxundo with
  | nil =>
    obtain ⟨hres, rfl⟩ := run_pure_eq_ok.1 h
    cases hres
    exact ⟨hv, rfl, by simp⟩
  | cons tx vtx ih =>
    obtain ⟨nFees', cost', vprevout, rest, w, htx, hrest, rfl⟩ := connectTxs_cons h
    obtain ⟨hw, hun, -, hiff, -⟩ := connectTx_coherent hv (hs tx mem_cons_self) htx
    have hkeep := clean_writeStable.connectTx _ _ _ _ _ v _ w htx (coherent_iff.1 hv).1
    obtain ⟨hv', hun', hiff'⟩ :=
      ih hw (fun tx' htx' j hj => hkeep.2 _ (hs tx' (mem_cons_of_mem _ htx') j hj)) hrest
    refine ⟨hv', by rw [hun', hun]; rfl, ?_⟩
    rw [forall_mem_cons, forall_mem_cons, hiff, hiff']

/-! ## The BIP30 check -/

lemma checkBIP30Outputs_ok (h : checkBIP30Outputs txid i vout v = .ok (u, v')) :
    ∀ j, i ≤ j → j < i + vout.length → v.unspent ⟨txid, j⟩ = none := by
  induction vout generalizing i v with
  | nil =>
    intro j hj hj'
    rw [length_nil] at hj'
    omega
  | cons out vout ih =>
    obtain ⟨b, w, hb, h⟩ := run_bind_eq_ok.1 h
    obtain ⟨hnot, h⟩ := run_ensure_bind_eq_ok.1 h
    obtain ⟨hsame, hfound⟩ := haveCoin_run hb
    intro j hj hj'
    rcases hj.eq_or_lt with rfl | hlt
    · cases hu : v.unspent ⟨txid, i⟩ with
      | none => rfl
      | some coin =>
        rw [hu] at hfound
        cases hfound
        cases hnot
    · rw [← hsame.unspent]
      exact ih h j hlt (by rw [length_cons] at hj'; omega)

lemma checkBIP30_ok (h : checkBIP30 vtx v = .ok (u, v')) :
    ∀ tx ∈ vtx, ∀ j, j < tx.vout.length → v.unspent ⟨tx.hash, j⟩ = none := by
  induction vtx generalizing v with
  | nil => simp
  | cons tx vtx ih =>
    obtain ⟨_, w, hw, h⟩ := run_bind_eq_ok.1 h
    have hsame := sameCoins_readStable.checkBIP30Outputs _ _ _ v _ w hw
    refine forall_mem_cons.2 ⟨fun j hj => checkBIP30Outputs_ok hw j (Nat.zero_le j) (by omega), ?_⟩
    rw [← hsame.unspent]
    exact ih h

/-! ## Blocks -/

lemma rejectUnless_eq_ok {level : ℕ} {reason : String} : rejectUnless b level reason = .ok u ↔ b = true := by
  cases b <;> simp [rejectUnless]

lemma forM_eq_ok {f : α → Except BlockError Unit} {l : List α} (h : l.forM f = .ok u) : ∀ a ∈ l, f a = .ok () := by
  induction l with
  | nil => simp
  | cons a l ih =>
    obtain ⟨_, ha, hl⟩ := bind_eq_ok.1 h
    exact forall_mem_cons.2 ⟨ha, ih hl⟩

variable {block : CBlock}

lemma checkBlock_ok {fCheckPOW fCheckMerkleRoot : Bool}
    (h : checkBlock env block fCheckPOW fCheckMerkleRoot = .ok u) :
    ∃ cb vtx, block.vtx = cb :: vtx ∧ cb.isCoinBase = true ∧ (∀ tx ∈ vtx, tx.isCoinBase = false) ∧
      ∀ tx ∈ block.vtx, checkTransaction tx false = .ok () := by
  obtain ⟨_, -, h⟩ := bind_eq_ok.1 h
  obtain ⟨_, -, h⟩ := bind_eq_ok.1 h
  obtain ⟨_, -, h⟩ := bind_eq_ok.1 h
  obtain ⟨_, -, h⟩ := bind_eq_ok.1 h
  obtain ⟨_, hhead, h⟩ := bind_eq_ok.1 h
  obtain ⟨_, htail, h⟩ := bind_eq_ok.1 h
  obtain ⟨_, hall, -⟩ := bind_eq_ok.1 h
  rw [rejectUnless_eq_ok] at hhead htail
  cases hvtx : block.vtx with
  | nil =>
    rw [hvtx] at hhead
    cases hhead
  | cons cb vtx =>
    rw [hvtx] at hhead htail hall
    exact ⟨cb, vtx, rfl, by simpa using hhead, by simpa using htail, forM_eq_ok hall⟩

variable {params : ConsensusParams} {fJustCheck : Bool}

lemma connectTransactions_ok
    {undo : List (List Coin)}
    (h : connectTransactions env params ctx block v = .ok (undo, v')) :
    ∃ w fees vtxundo coinbaseValue, SameCoins v w ∧
      (enforceBIP30 params ctx = true → ∀ tx ∈ block.vtx, ∀ j, j < tx.vout.length → v.unspent ⟨tx.hash, j⟩ = none) ∧
      connectTxs env ctx 0 0 block.vtx w = .ok ((fees, vtxundo), v') ∧
      (block.vtx.head?.map getValueOut).getD (.error .assertFailed) = .ok coinbaseValue ∧
      coinbaseValue ≤ fees + getBlockSubsidy ctx.nHeight ∧ undo = vtxundo.tail := by
  obtain ⟨_, w, hw, h⟩ := run_bind_eq_ok.1 h
  obtain ⟨⟨fees, vtxundo⟩, w₁, htxs, h⟩ := run_bind_eq_ok.1 h
  obtain ⟨coinbaseValue, w₂, h₂, h⟩ := run_bind_eq_ok.1 h
  obtain ⟨hval, rfl⟩ := run_liftM_eq_ok.1 h₂
  obtain ⟨hle, h⟩ := run_ensure_bind_eq_ok.1 h
  obtain ⟨rfl, rfl⟩ := run_pure_eq_ok.1 h
  refine ⟨w, fees, vtxundo, coinbaseValue, ?_, fun hbip => ?_, htxs, hval, by simpa using hle, rfl⟩
  · exact ite (sameCoins_readStable.checkBIP30 _) (sameCoins_readStable.pure _) v _ w hw
  · rw [if_pos hbip] at hw
    exact checkBIP30_ok hw

/-- `ConnectBlock` past the genesis block, with BIP30 enforced: the caches stay coherent, and a duplicate input shows
in the undo data. -/
theorem connectTransactions_coherent
    {cb : CTransaction}
    (hv : v.Coherent) (hbip : enforceBIP30 params ctx = true) (hvtx : block.vtx = cb :: vtx)
    (hcb : cb.isCoinBase = true) (h : connectTransactions env params ctx block v = .ok (vtxundo, v')) :
    v'.Coherent ∧ v'.unspent = applyTxs ctx.nHeight v.unspent block.vtx ∧
      ((∀ tx ∈ block.vtx, tx.prevouts.Nodup) ↔ ∀ vprevout ∈ vtxundo, ∀ coin ∈ vprevout, coin.isSpent = false) := by
  obtain ⟨w, fees, vtxundo', -, hsame, hnone, htxs, -, -, rfl⟩ := connectTransactions_ok h
  have hw := hsame.coherent hv
  have hs : ∀ tx ∈ block.vtx, w.SettledOutputs tx := fun tx htx j hj =>
    settled_of_unspent_none hw (by rw [hsame.unspent]; exact hnone hbip tx htx j hj)
  obtain ⟨hv', hun, hiff⟩ := connectTxs_coherent hw hs htxs
  refine ⟨hv', by rw [hun, hsame.unspent], hiff.trans ?_⟩
  -- the undo record of the coinbase, which is not kept, is empty
  rw [hvtx] at htxs
  obtain ⟨_, _, vprevout, rest, _, htx, -, rfl⟩ := connectTxs_cons htxs
  obtain ⟨_, -, hupd, -⟩ := connectTx_ok htx
  obtain ⟨_, hspend, -⟩ := updateCoins_eq_ok.1 hupd
  rw [UtxoMap.inputs, if_pos hcb] at hspend
  obtain ⟨rfl, -⟩ := spendInputs_nil.1 hspend
  simp

lemma connectBlock_ok {undo : Option (List (List Coin))}
    (h : connectBlock env params ctx block fJustCheck v = .ok (undo, v')) :
    checkBlock env block (!fJustCheck) (!fJustCheck) = .ok () ∧ ctx.hashPrevBlock.getD 0 = v.getBestBlock.1 ∧
      ∃ w, v' = (if fJustCheck then w else w.setBestBlock block.hash) ∧
        ((block.hash = params.hashGenesisBlock ∧ undo = none ∧ w = v.getBestBlock.2) ∨
          (block.hash ≠ params.hashGenesisBlock ∧ ∃ vtxundo, undo = some vtxundo ∧
            connectTransactions env params ctx block v.getBestBlock.2 = .ok (vtxundo, w))) := by
  have hset : ∀ {w w' : CCoinsViewCache} {u : Unit},
      (if fJustCheck then pure () else setBestBlock block.hash : ViewM Unit) w = .ok (u, w') →
        w' = if fJustCheck then w else w.setBestBlock block.hash := by
    intro w w' u h
    cases fJustCheck with
    | true => exact (run_pure_eq_ok.1 h).2.symm
    | false => exact (congrArg Prod.snd (ok.inj h)).symm
  obtain ⟨-, h⟩ := run_ensure_bind_eq_ok.1 h
  obtain ⟨_, w₁, h₁, h⟩ := run_bind_eq_ok.1 h
  obtain ⟨hcheck, rfl⟩ := run_liftM_eq_ok.1 h₁
  obtain ⟨best, w₂, hbest, h⟩ := run_bind_eq_ok.1 h
  have hbest : v.getBestBlock = (best, w₂) := ok.inj hbest
  obtain ⟨hprev, h⟩ := run_ensure_bind_eq_ok.1 h
  rw [hbest]
  refine ⟨hcheck, by simpa using hprev, ?_⟩
  split at h
  · rename_i hgen
    obtain ⟨_, w, hw, h⟩ := run_bind_eq_ok.1 h
    obtain ⟨rfl, rfl⟩ := run_pure_eq_ok.1 h
    exact ⟨w₂, hset hw, .inl ⟨hgen, rfl, rfl⟩⟩
  · rename_i hgen
    obtain ⟨-, h⟩ := run_ensure_bind_eq_ok.1 h
    obtain ⟨vtxundo, w, htx, h⟩ := run_bind_eq_ok.1 h
    obtain ⟨-, h⟩ := run_ensure_bind_eq_ok.1 h
    obtain ⟨_, w', hw', h⟩ := run_bind_eq_ok.1 h
    obtain ⟨rfl, rfl⟩ := run_pure_eq_ok.1 h
    exact ⟨w, hset hw', .inr ⟨hgen, vtxundo, rfl, htx⟩⟩

/-- **`ConnectBlock` is `UtxoMap.applyTxs`** in a coherent stack, when BIP30 is enforced. -/
theorem connectBlock_coherent (hv : v.Coherent) (hbip : enforceBIP30 params ctx = true)
    (h : connectBlock env params ctx block fJustCheck v = .ok (some vtxundo, v')) :
    v'.Coherent ∧ v'.unspent = applyTxs ctx.nHeight v.unspent block.vtx := by
  obtain ⟨hcheck, -, w, hw, ⟨-, habs, -⟩ | ⟨-, vtxundo', hundo, hconn⟩⟩ := connectBlock_ok h
  · cases habs
  obtain ⟨cb, vtx, hvtx, hcb, -, -⟩ := checkBlock_ok hcheck
  have hbest := getBestBlock_sameCoins v
  have hsame : SameCoins w v' := by
    rw [hw]
    split
    · exact SameCoins.refl w
    · exact setBestBlock_sameCoins w block.hash
  obtain ⟨hwc, hun, -⟩ := connectTransactions_coherent (hbest.coherent hv) hbip hvtx hcb hconn
  exact ⟨hsame.coherent hwc, by rw [hsame.unspent, hun, hbest.unspent]⟩

end

/-! ## A small block -/

namespace Example

def coin (nHeight : ℕ) : Coin := ⟨⟨600 * COIN, [0x51]⟩, false, nHeight⟩

/-- A database with one coin. -/
def view (nHeight : ℕ) : CCoinsViewCache := ⟨⟨0, ∅, 0⟩, .db ⟨AList.singleton ⟨1, 0⟩ (coin nHeight), 7, []⟩⟩
def env : BlockEnv := ⟨fun _ => true, fun block => (block.hashMerkleRoot, false), fun _ _ => false, fun _ _ _ => true⟩
def params : ConsensusParams := ⟨0, 0⟩
def ctx : BlockContext := ⟨some 9, some 7, none, 0, true, ⟨false, 2, 1, fun _ => 0⟩⟩
def coinbase : CTransaction := ⟨2, 1, [⟨⟨0, 0xffffffff⟩, [0, 0], 0, []⟩], [⟨0, [0x51]⟩], 0⟩

/-- A transaction that spends the given outpoints. -/
def spender (prevouts : List COutPoint) (nValue : CAmount) : CTransaction :=
  ⟨3, 1, prevouts.map fun prevout => ⟨prevout, [], 0, []⟩, [⟨nValue, [0x51]⟩], 0⟩

def block (prevouts : List COutPoint) (nValue : CAmount) : CBlock := ⟨9, 8, [coinbase, spender prevouts nValue]⟩

/-- Connecting such a block to the view. -/
def connect (nHeight : ℕ) (prevouts : List COutPoint) (nValue : CAmount) :
    Except BlockError (Option (List (List Coin)) × CCoinsViewCache) :=
  connectBlock env params ctx (block prevouts nValue) false (view nHeight)

lemma view_unspent (o : COutPoint) : (view nHeight).unspent o = if o = ⟨1, 0⟩ then some (coin nHeight) else none := by
  by_cases ho : o = ⟨1, 0⟩
  · rw [ho]
    rfl
  · rw [if_neg ho]
    refine CCoinsView.unspent_of_not_mem_outpoints fun hmem => ho ?_
    simpa [view, CCoinsViewCache.view, CCoinsView.outpoints] using hmem

lemma view_coherent : (view nHeight).Coherent := coherent_empty _ _

end Example

end Soferox
