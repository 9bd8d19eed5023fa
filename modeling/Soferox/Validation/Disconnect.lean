import Soferox.Validation.Effects
import Soferox.Lib.Runs

/-!
# Disconnecting a block

`DisconnectBlock` in a coherent stack of caches, on any coins: it does not fail half way, and does what `UtxoMap.undoTxs`
says. From this, `DisconnectBlock` undoes `ConnectBlock`.

* `disconnectTx_coherent`, `disconnectTxs_coherent` — what `DisconnectBlock` does, and when it is clean;
* `connectTxs_undoable` — the undo data that `ConnectBlock` builds fits the coins it was connected to;
* `disconnectBlock_connectBlock` — the coins and the best block are those from before the block.
-/

namespace Soferox

open Lib CCoinsViewCache Example UtxoMap List Option Prod CCoinsView

/-! ## Outputs -/

variable {v : CCoinsViewCache} {o : COutPoint} {coin : Coin} {undo : Coin} (out : COutPoint)

lemma spendCoin_fst_eq (h : v.unspent o = some coin) : (v.spendCoin o).1 = some coin := by
  obtain ⟨coin', hc, hs⟩ := bind_eq_some_iff.1 ((spendCoin_fst v o).trans h)
  rw [hc, (Coin.unlessSpent_eq_some.1 hs).1]

lemma disconnectOutputs_coherent (txid : Uint256) (fCoinBase : Bool) (nHeight i : ℕ) (vout : List CTxOut)
    (hv : v.Coherent) :
    ∃ clean v', disconnectOutputs txid fCoinBase nHeight i vout v = .ok (clean, v') ∧ v'.Coherent ∧
      v'.unspent = destroyFrom v.unspent txid fCoinBase nHeight i vout ∧
      ((∀ o coin, outputCoinFrom txid fCoinBase nHeight i vout o = some coin → v.unspent o = some coin) →
        clean = true) := by
  induction vout generalizing i v with
  | nil =>
    refine ⟨true, v, rfl, hv, funext fun o => ?_, fun _ => rfl⟩
    rw [destroyFrom, outputCoinFrom_nil]
    rfl
  | cons out vout ih =>
    cases hu : out.scriptPubKey.isUnspendable with
    | true =>
      obtain ⟨clean, v', hrun, hv', hun, hclean⟩ := ih (i + 1) hv
      have hcoin : ∀ o, outputCoinFrom txid fCoinBase nHeight i (out :: vout) o =
          outputCoinFrom txid fCoinBase nHeight (i + 1) vout o := by
        intro o
        rw [outputCoinFrom_cons, hu, if_pos rfl]
        split_ifs with ho
        · rw [ho, outputCoinFrom_of_lt (Nat.lt_succ_self i)]
        · rfl
      refine ⟨clean, v', ?_, hv', ?_, fun h => hclean fun o coin ho => h o coin (by rw [hcoin]; exact ho)⟩
      · rw [disconnectOutputs, hu, if_pos rfl]
        refine run_bind_eq_ok.2 ⟨true, v, rfl, run_bind_eq_ok.2 ⟨clean, v', hrun, ?_⟩⟩
        rw [Bool.true_and]
        rfl
      · rw [hun]
        funext o
        rw [destroyFrom, destroyFrom, hcoin]
    | false =>
      obtain ⟨clean, v', hrun, hv', hun, hclean⟩ := ih (i + 1) (spendCoin_coherent hv ⟨txid, i⟩)
      have hcoin : ∀ o, outputCoinFrom txid fCoinBase nHeight i (out :: vout) o =
          if o = ⟨txid, i⟩ then some ⟨out, fCoinBase, nHeight⟩
          else outputCoinFrom txid fCoinBase nHeight (i + 1) vout o := by
        intro o
        simp [outputCoinFrom_cons, hu]
      refine ⟨(v.spendCoin ⟨txid, i⟩).1 == some ⟨out, fCoinBase, nHeight⟩ && clean, v', ?_, hv', ?_, fun h => ?_⟩
      · rw [disconnectOutputs, hu, if_neg (by decide)]
        refine run_bind_eq_ok.2 ⟨_, (v.spendCoin ⟨txid, i⟩).2, ?_, run_bind_eq_ok.2 ⟨clean, v', hrun, rfl⟩⟩
        exact run_bind_eq_ok.2 ⟨_, _, rfl, rfl⟩
      · rw [hun, spendCoin_unspent hv]
        funext o
        simp only [destroyFrom, hcoin]
        by_cases ho : o = ⟨txid, i⟩
        · simp [ho]
        · simp [ho]
      · have hself := h ⟨txid, i⟩ _ (by rw [hcoin, if_pos rfl])
        have hrest : clean = true := by
          refine hclean fun o coin ho => ?_
          have hne : o ≠ ⟨txid, i⟩ := by
            rintro rfl
            rw [outputCoinFrom_of_lt (Nat.lt_succ_self i)] at ho
            cases ho
          rw [spendCoin_unspent_ne v hne]
          exact h o coin (by rw [hcoin, if_neg hne]; exact ho)
        rw [spendCoin_fst_eq hself, hrest]
        simp

/-! ## Inputs -/

/-- A coin that `ApplyTxInUndo` can put back: unspent, with its height, and a script that `AddCoin` keeps. -/
def Coin.Restorable (coin : Coin) : Prop :=
  coin.isSpent = false ∧ coin.nHeight ≠ 0 ∧ coin.out.scriptPubKey.isUnspendable = false

lemma addCoin_haveCoin (hv : v.Coherent)
    (hs : coin.isSpent = false) : ∃ v', (v.haveCoin o).2.addCoin o coin (v.haveCoin o).1 = .ok v' ∧ v'.Coherent ∧
      v'.unspent = if coin.out.scriptPubKey.isUnspendable then v.unspent else Function.update v.unspent o (some coin) := by
  have hsame := haveCoin_sameCoins v o
  have hfound : (v.haveCoin o).1 = ((v.haveCoin o).2.unspent o).isSome := by
    rw [hsame.unspent]
    exact (haveCoin_spec v o).1
  cases hadd : (v.haveCoin o).2.addCoin o coin (v.haveCoin o).1 with
  | error e =>
    obtain ⟨-, hfalse, -, hsome⟩ := addCoin_error hs hadd
    rw [← hfound, hfalse] at hsome
    cases hsome
  | ok v' =>
    refine ⟨v', rfl, addCoin_coherent hadd (hsame.coherent hv) (fun hfalse => .inl ?_), ?_⟩
    · rw [hfound] at hfalse
      simpa using hfalse
    · rw [addCoin_unspent hadd, hsame.unspent]

lemma applyTxInUndo_coherent (hv : v.Coherent) (hundo : undo.Restorable) :
    ∃ v', applyTxInUndo undo out v = .ok (.ofClean (v.unspent out).isNone, v') ∧ v'.Coherent ∧
      v'.unspent = Function.update v.unspent out (some undo) := by
  obtain ⟨hs, hh, hu⟩ := hundo
  obtain ⟨v', hadd, hv', hun⟩ := addCoin_haveCoin (o := out) hv hs
  rw [hu, if_neg (by decide)] at hun
  refine ⟨v', ?_, hv', hun⟩
  have hclean : (v.unspent out).isNone = !(v.haveCoin out).1 := by
    rw [(haveCoin_spec v out).1, not_isSome]
  rw [hclean]
  refine run_bind_eq_ok.2 ⟨(v.haveCoin out).1, (v.haveCoin out).2, rfl, ?_⟩
  rw [if_neg hh]
  exact run_bind_eq_ok.2 ⟨(), v', ViewM.addCoin_eq_ok.2 hadd, rfl⟩

lemma UtxoMap.restore_append (m : UtxoMap) (l l' : List (COutPoint × Coin)) :
    m.restore (l ++ l') = restore (m.restore l') l := by
  induction l with
  | nil => rfl
  | cons p l ih => rw [cons_append, restore, restore, ih]

lemma restoreInputs_coherent {l : List (COutPoint × Coin)} (hv : v.Coherent)
    (hl : ∀ p ∈ l, p.2.Restorable) :
    ∃ clean v', restoreInputs l v = .ok (some clean, v') ∧ v'.Coherent ∧
      v'.unspent = UtxoMap.restore v.unspent l.reverse ∧
      ((l.map fst).Nodup → (∀ p ∈ l, v.unspent p.1 = none) → clean = true) := by
  induction l generalizing v with
  | nil => exact ⟨true, v, rfl, hv, rfl, fun _ _ => rfl⟩
  | cons p l ih =>
    obtain ⟨out, undo⟩ := p
    rw [forall_mem_cons] at hl
    obtain ⟨w, hrun, hw, hwun⟩ := applyTxInUndo_coherent out hv hl.1
    obtain ⟨clean, v', hrest, hv', hun, hclean⟩ := ih hw hl.2
    refine ⟨(v.unspent out).isNone && clean, v', ?_, hv', ?_, fun hnd hnone => ?_⟩
    · rw [restoreInputs]
      refine run_bind_eq_ok.2 ⟨_, w, hrun, ?_⟩
      rw [if_neg (by cases (v.unspent out).isNone <;> decide)]
      refine run_bind_eq_ok.2 ⟨some clean, v', hrest, ?_⟩
      cases (v.unspent out).isNone <;> rfl
    · rw [hun, hwun, reverse_cons, restore_append]
      rfl
    · rw [map_cons, nodup_cons] at hnd
      rw [forall_mem_cons] at hnone
      have hrestclean : clean = true := by
        refine hclean hnd.2 fun p hp => ?_
        have hne : p.1 ≠ out := by
          rintro rfl
          exact hnd.1 (List.mem_map.2 ⟨p, hp, rfl⟩)
        rw [hwun, Function.update_of_ne hne]
        exact hnone.2 p hp
      rw [hnone.1, hrestclean]
      rfl

/-! ## Transactions -/

/-- The undo record that `DisconnectBlock` reads for a transaction: none for the coinbase. -/
def undoRecord (p : CTransaction × List Coin) : CTransaction × Option (List Coin) :=
  (p.1, if p.1.isCoinBase then none else some p.2)

variable {tx : CTransaction} {vprevout : List Coin} (nHeight : ℕ)

lemma disconnectTx_coherent
    (hv : v.Coherent) (hlen : vprevout.length = (UtxoMap.inputs tx).length) (hundo : ∀ coin ∈ vprevout, coin.Restorable) :
    ∃ clean v', disconnectTx nHeight tx (undoRecord (tx, vprevout)).2 v = .ok (some clean, v') ∧ v'.Coherent ∧
      v'.unspent = undoTx nHeight v.unspent tx vprevout ∧
      ((∀ o coin, tx.outputCoin nHeight o = some coin → v.unspent o = some coin) → (UtxoMap.inputs tx).Nodup →
        (∀ o ∈ UtxoMap.inputs tx, destroy v.unspent tx nHeight o = none) → clean = true) := by
  obtain ⟨outputs, w, hout, hw, hwun, houtclean⟩ :=
    disconnectOutputs_coherent tx.hash tx.isCoinBase nHeight 0 tx.vout hv
  unfold undoRecord UtxoMap.inputs undoTx UtxoMap.inputs at *
  cases hcb : tx.isCoinBase with
  | true =>
    rw [hcb] at hout
    refine ⟨outputs, w, ?_, hw, ?_, fun h _ _ => houtclean h⟩
    · rw [disconnectTx, hcb]
      exact run_bind_eq_ok.2 ⟨outputs, w, hout, rfl⟩
    · rw [hwun, if_pos rfl]
      rfl
  | false =>
    rw [hcb, if_neg (by decide)] at hlen
    have hlist : ∀ p ∈ (tx.prevouts.zip vprevout).reverse, p.2.Restorable := fun p hp =>
      hundo p.2 (of_mem_zip (mem_reverse.1 hp)).2
    have hfst : (tx.prevouts.zip vprevout).map fst = tx.prevouts := map_fst_zip hlen.ge
    obtain ⟨inputs, v', hin, hv', hun, hinclean⟩ := restoreInputs_coherent hw hlist
    refine ⟨outputs && inputs, v', ?_, hv', ?_, fun houts hnd hnone => ?_⟩
    · rw [disconnectTx]
      refine run_bind_eq_ok.2 ⟨outputs, w, hout, ?_⟩
      rw [if_neg (by decide)]
      simp only
      rw [if_neg (by rw [not_not, hlen, CTransaction.prevouts, length_map])]
      exact run_bind_eq_ok.2 ⟨some inputs, v', hin, rfl⟩
    · rw [hun, hwun, reverse_reverse, if_neg (by decide)]
      rfl
    · rw [if_neg (by decide)] at hnd hnone
      have hrest : inputs = true := by
        refine hinclean ?_ fun p hp => ?_
        · rw [map_reverse, hfst, nodup_reverse]
          exact hnd
        · rw [hwun]
          exact hnone p.1 (of_mem_zip (mem_reverse.1 hp)).1
      rw [houtclean houts, hrest]
      rfl

/-- The undo record of a transaction has a coin for each input, and they can be put back. -/
def FitsUndo (p : CTransaction × List Coin) : Prop :=
  p.2.length = (UtxoMap.inputs p.1).length ∧ ∀ coin ∈ p.2, coin.Restorable

lemma disconnectTxs_coherent {l : List (CTransaction × List Coin)} (hv : v.Coherent) (hl : ∀ p ∈ l, FitsUndo p) :
    ∃ clean v', disconnectTxs nHeight (l.map undoRecord).reverse v = .ok (some clean, v') ∧ v'.Coherent ∧
      v'.unspent = undoTxs nHeight v.unspent l ∧
      ∀ m, UtxoMap.Undoable nHeight m l → v.unspent = applyTxs nHeight m (l.map fst) → clean = true := by
  -- the last transaction is undone first
  induction l using reverseRecOn generalizing v with
  | nil => exact ⟨true, v, rfl, hv, rfl, fun _ _ _ => rfl⟩
  | append_singleton l p ih =>
    obtain ⟨tx, vprevout⟩ := p
    obtain ⟨hlen, hcoins⟩ := hl (tx, vprevout) (by simp)
    obtain ⟨clean₁, w, hrun, hw, hwun, hclean₁⟩ := disconnectTx_coherent nHeight hv hlen hcoins
    obtain ⟨clean₂, v', hrest, hv', hun, hclean₂⟩ := ih hw fun p hp => hl p (mem_append_left _ hp)
    refine ⟨clean₁ && clean₂, v', ?_, hv', ?_, fun m hm hvun => ?_⟩
    · rw [map_append, reverse_append, map_singleton, reverse_singleton, singleton_append,
        disconnectTxs]
      refine run_bind_eq_ok.2 ⟨some clean₁, w, hrun, ?_⟩
      exact run_bind_eq_ok.2 ⟨some clean₂, v', hrest, rfl⟩
    · rw [hun, hwun, undoTxs, undoTxs, foldr_append]
      rfl
    · obtain ⟨hm₂, hm₁⟩ := undoable_append.1 hm
      have hvun : v.unspent = UtxoMap.applyTx nHeight (applyTxs nHeight m (l.map fst)) tx := by
        rw [hvun, map_append, applyTxs, foldl_append]
        rfl
      have htrue₁ : clean₁ = true := by
        refine hclean₁ (fun o coin ho => ?_) hm₁.nodup fun o ho => ?_
        · rw [hvun, UtxoMap.applyTx, UtxoMap.create, ho, some_or]
        · rw [hvun, destroy_applyTx hm₁.fresh]
          exact if_pos ho
      have htrue₂ : clean₂ = true := by
        refine hclean₂ m hm₂ ?_
        rw [hwun, hvun, undoTx_applyTx hm₁.nodup hm₁.spent hm₁.fresh]
      rw [htrue₁, htrue₂]
      rfl

/-! ## What `ConnectBlock` leaves for the undo -/

/-- The coins that the transactions can spend have a height, and scripts that `AddCoin` does not drop. -/
def UtxoMap.SpendsRestorable (m : UtxoMap) (vtx : List CTransaction) : Prop :=
  ∀ tx ∈ vtx, ∀ o ∈ tx.prevouts, ∀ coin, m o = some coin →
    coin.nHeight ≠ 0 ∧ coin.out.scriptPubKey.isUnspendable = false

variable {txid : Uint256} {fCoinBase : Bool} {vout : List CTxOut}

lemma outputCoinFrom_eq_some {nHeight i : ℕ} (h : outputCoinFrom txid fCoinBase nHeight i vout o = some coin) :
    coin.nHeight = nHeight ∧ coin.out.scriptPubKey.isUnspendable = false := by
  unfold outputCoinFrom at h
  split at h
  · obtain ⟨out, -, hcoin⟩ := bind_eq_some_iff.1 h
    split at hcoin
    · cases hcoin
    · rename_i hu
      cases hcoin
      exact ⟨rfl, by simpa using hu⟩
  · cases h

variable {nHeight : ℕ} {m : UtxoMap}

lemma UtxoMap.applyTx_eq_some
    (h : applyTx nHeight m tx o = some coin) : tx.outputCoin nHeight o = some coin ∨ m o = some coin := by
  rcases or_eq_some_iff.1 h with h | ⟨-, h⟩
  · exact .inl h
  · unfold spend at h
    split at h
    · cases h
    · exact .inr h

variable {vtx : List CTransaction}

lemma UtxoMap.SpendsRestorable.applyTx (hh : nHeight ≠ 0)
    (h : m.SpendsRestorable vtx) (tx : CTransaction) : SpendsRestorable (UtxoMap.applyTx nHeight m tx) vtx := by
  intro tx' htx' o ho coin hcoin
  rcases applyTx_eq_some hcoin with hout | hm
  · obtain ⟨rfl, hu⟩ := outputCoinFrom_eq_some hout
    exact ⟨hh, hu⟩
  · exact h tx' htx' o ho coin hm

variable {vtxundo : List (List Coin)}

section

variable {env : BlockEnv} {ctx : BlockContext} {v v' : CCoinsViewCache} {nFees : CAmount} {cost : ℕ}

lemma connectTx_undoable {nFees' : CAmount} {cost' : ℕ} (hv : v.Coherent)
    (hs : v.SettledOutputs tx) (hnd : tx.prevouts.Nodup) (hcoins : UtxoMap.SpendsRestorable v.unspent [tx])
    (hfresh : tx.isCoinBase = true → UtxoMap.FreshOutputs v.unspent tx ctx.nHeight)
    (h : connectTx env ctx tx nFees cost v = .ok ((nFees', cost', vprevout), v')) :
    v'.Coherent ∧ v'.unspent = UtxoMap.applyTx ctx.nHeight v.unspent tx ∧
      UtxoMap.UndoableTx ctx.nHeight v.unspent tx vprevout ∧ FitsUndo (tx, vprevout) := by
  obtain ⟨hv', hun, hfresh', hiff, hspent⟩ := connectTx_coherent hv hs h
  have hlen : vprevout.length = (UtxoMap.inputs tx).length := by simpa using (congrArg List.length (hspent hnd)).symm
  refine ⟨hv', hun, ⟨inputs_nodup_iff.2 hnd, hspent hnd, ?_⟩, hlen, fun coin hcoin => ⟨hiff.1 hnd coin hcoin, ?_⟩⟩
  · cases hcb : tx.isCoinBase with
    | true => exact hfresh hcb
    | false => exact hfresh' hcb
  · obtain ⟨o, ho, hmo⟩ : ∃ o ∈ UtxoMap.inputs tx, v.unspent o = some coin :=
      List.mem_map.1 (hspent hnd ▸ List.mem_map_of_mem hcoin)
    have ho : o ∈ tx.prevouts := by
      unfold UtxoMap.inputs at ho
      split at ho
      · cases ho
      · exact ho
    exact hcoins tx (mem_singleton_self tx) o ho coin hmo

lemma connectTxs_undoable {fees : CAmount}
    (hh : ctx.nHeight ≠ 0) (hv : v.Coherent) (hs : ∀ tx ∈ vtx, v.SettledOutputs tx)
    (hnd : ∀ tx ∈ vtx, tx.prevouts.Nodup) (hcoins : UtxoMap.SpendsRestorable v.unspent vtx)
    (hncb : ∀ tx ∈ vtx.tail, tx.isCoinBase = false)
    (hfresh : ∀ tx ∈ vtx.head?, tx.isCoinBase = true → UtxoMap.FreshOutputs v.unspent tx ctx.nHeight)
    (h : connectTxs env ctx nFees cost vtx v = .ok ((fees, vtxundo), v')) :
    vtxundo.length = vtx.length ∧ UtxoMap.Undoable ctx.nHeight v.unspent (vtx.zip vtxundo) ∧
      ∀ p ∈ vtx.zip vtxundo, FitsUndo p := by
  induction vtx generalizing nFees cost v vtxundo with
  | nil =>
    obtain ⟨hres, -⟩ := run_pure_eq_ok.1 h
    cases hres
    exact ⟨rfl, trivial, nofun⟩
  | cons tx vtx ih =>
    obtain ⟨nFees', cost', vprevout, rest, w, htx, hrest, rfl⟩ := connectTxs_cons h
    have hcoins₁ : UtxoMap.SpendsRestorable v.unspent [tx] := fun tx' htx' =>
      hcoins tx' (by rw [mem_singleton.1 htx']; exact mem_cons_self)
    have hcoins₂ : UtxoMap.SpendsRestorable v.unspent vtx := fun tx' htx' => hcoins tx' (mem_cons_of_mem _ htx')
    rw [forall_mem_cons] at hs hnd
    obtain ⟨hw, hun, hundo, hfits⟩ := connectTx_undoable hv hs.1 hnd.1 hcoins₁ (hfresh tx rfl) htx
    have hkeep := clean_writeStable.connectTx _ _ _ _ _ v _ w htx (coherent_iff.1 hv).1
    obtain ⟨hlen, hundo', hfits'⟩ := ih hw (fun tx' htx' j hj => hkeep.2 _ (hs.2 tx' htx' j hj)) hnd.2
      (by rw [hun]; exact hcoins₂.applyTx hh tx) (fun tx' htx' => hncb tx' (mem_of_mem_tail htx'))
      (fun tx' htx' hcb => by cases (hncb tx' (mem_of_mem_head? htx')).symm.trans hcb) hrest
    rw [hun] at hundo'
    exact ⟨by rw [length_cons, length_cons, hlen], ⟨hundo, hundo'⟩, forall_mem_cons.2 ⟨hfits, hfits'⟩⟩

end

/-! ## The best block -/

lemma getCoin_getBestBlock (v : CCoinsView) (o : COutPoint) : (v.getCoin o).2.getBestBlock.1 = v.getBestBlock.1 := by
  induction v with
  | db d => rfl
  | cache c base ih =>
    unfold getCoin
    cases hl : c.cacheCoins.lookup o with
    | some e => rfl
    | none =>
      rcases hg : base.getCoin o with ⟨_ | tmp, base'⟩
      · rw [hg] at ih
        simp only [CCoinsView.getBestBlock, ih]
        split <;> rfl
      · rw [hg] at ih
        simp only [CCoinsView.getBestBlock, CacheLayer.emplaceFetched, ih]
        split <;> rfl

lemma getBestBlock_getBestBlock (v : CCoinsView) : v.getBestBlock.2.getBestBlock.1 = v.getBestBlock.1 := by
  induction v with
  | db d => rfl
  | cache c base ih =>
    by_cases h : c.hashBlock = 0
    · have hg : (cache c base).getBestBlock =
          (base.getBestBlock.1, .cache { c with hashBlock := base.getBestBlock.1 } base.getBestBlock.2) := if_pos h
      rw [hg]
      show (if base.getBestBlock.1 = 0 then _ else _ : Uint256 × CCoinsView).1 = base.getBestBlock.1
      split
      · exact ih
      · rfl
    · have hg : (cache c base).getBestBlock = (c.hashBlock, .cache c base) := if_neg h
      rw [hg]
      exact congrArg fst hg

/-- Coins can be read and written without changing the best block below. -/
theorem bestBlock_writeStable : WriteStable fun v v' => v'.base.getBestBlock.1 = v.base.getBestBlock.1 :=
  .ofBase (R := fun v v' => v'.getBestBlock.1 = v.getBestBlock.1) (fun _ => rfl) (fun _ _ _ h h' => h'.trans h)
    getCoin_getBestBlock

namespace WriteStable

variable {R : CCoinsViewCache → CCoinsViewCache → Prop} (hR : WriteStable R)

include hR

lemma accessByTxidFrom (txid : Uint256) (fuel n : ℕ) : Preserves R (accessByTxidFrom txid fuel n) := by
  induction fuel generalizing n with
  | zero => exact hR.pure _
  | succ fuel ih => exact hR.bind (hR.accessCoin _) fun _ => .ite (hR.pure _) (ih _)

lemma applyTxInUndo (undo : Coin) (out : COutPoint) : Preserves R (applyTxInUndo undo out) :=
  hR.bind (hR.haveCoin _) fun _ => .ite
    (hR.bind (hR.accessByTxidFrom _ _ _) fun _ => .ite (hR.bind (hR.addCoin _ _ _) fun _ => hR.pure _) (hR.pure _))
    (hR.bind (hR.addCoin _ _ _) fun _ => hR.pure _)

lemma disconnectOutputs (txid : Uint256) (is_coinbase : Bool) (nHeight i : ℕ) (vout : List CTxOut) :
    Preserves R (disconnectOutputs txid is_coinbase nHeight i vout) := by
  induction vout generalizing i with
  | nil => exact hR.pure _
  | cons out vout ih =>
    exact hR.bind (.ite (hR.pure _) (hR.bind (hR.spendCoin _) fun _ => hR.pure _)) fun _ =>
      hR.bind (ih _) fun _ => hR.pure _

lemma restoreInputs (l : List (COutPoint × Coin)) : Preserves R (restoreInputs l) := by
  induction l with
  | nil => exact hR.pure _
  | cons p l ih =>
    exact hR.bind (hR.applyTxInUndo _ _) fun _ => .ite (hR.pure _) (hR.bind ih fun _ => hR.pure _)

variable (nHeight tx) in
lemma disconnectTx (txundo : Option (List Coin)) : Preserves R (disconnectTx nHeight tx txundo) := by
  refine hR.bind (hR.disconnectOutputs _ _ _ _ _) fun _ => ?_
  cases txundo with
  | none => exact hR.pure _
  | some vprevout => exact .ite (hR.pure _) (hR.bind (hR.restoreInputs _) fun _ => hR.pure _)

lemma disconnectTxs (nHeight : ℕ) (l : List (CTransaction × Option (List Coin))) :
    Preserves R (disconnectTxs nHeight l) := by
  induction l with
  | nil => exact hR.pure _
  | cons p l ih =>
    refine hR.bind (hR.disconnectTx _ _ _) fun clean => ?_
    cases clean with
    | none => exact hR.pure _
    | some clean => exact hR.bind ih fun _ => hR.pure _

end WriteStable

lemma getBestBlock_base (v : CCoinsViewCache) : v.getBestBlock.2.base.getBestBlock.1 = v.base.getBestBlock.1 := by
  unfold CCoinsViewCache.getBestBlock
  split
  · exact getBestBlock_getBestBlock v.base
  · rfl

lemma getBestBlock_setBestBlock {u v : CCoinsViewCache} (h : u.base.getBestBlock.1 = v.base.getBestBlock.1) :
    (u.setBestBlock v.getBestBlock.1).getBestBlock.1 = v.getBestBlock.1 := by
  by_cases hzero : v.getBestBlock.1 = 0
  · have hlayer : v.layer.hashBlock = 0 := by
      by_contra hne
      rw [CCoinsViewCache.getBestBlock, if_neg hne] at hzero
      exact hne hzero
    have hbase : v.getBestBlock.1 = v.base.getBestBlock.1 := by rw [CCoinsViewCache.getBestBlock, if_pos hlayer]
    have hset : (u.setBestBlock v.getBestBlock.1).getBestBlock.1 = u.base.getBestBlock.1 := by
      rw [CCoinsViewCache.getBestBlock, if_pos (by exact hzero)]
      rfl
    rw [hset, h, hbase]
  · rw [CCoinsViewCache.getBestBlock, if_neg (by exact hzero)]
    rfl

/-! ## Blocks -/

lemma outputCoinFrom_isSome (h : (outputCoinFrom txid fCoinBase nHeight 0 vout o).isSome) :
    o.hash = txid ∧ o.n < vout.length := by
  obtain ⟨coin, hcoin⟩ := isSome_iff_exists.1 h
  unfold outputCoinFrom at hcoin
  split at hcoin
  · rename_i ho
    obtain ⟨out, hout, -⟩ := bind_eq_some_iff.1 hcoin
    obtain ⟨hlt, -⟩ := List.getElem?_eq_some_iff.1 hout
    exact ⟨ho.1, hlt⟩
  · cases hcoin

variable {cb : CTransaction} {block : CBlock}

/-- The undo data fits if the block creates no coin that is there, which BIP30 makes sure of. -/
lemma connectTransactions_undoable {env : BlockEnv} {params : ConsensusParams} {ctx : BlockContext}
    {v v' : CCoinsViewCache} (hh : ctx.nHeight ≠ 0) (hv : v.Coherent)
    (hnone : ∀ tx ∈ block.vtx, ∀ j, j < tx.vout.length → v.unspent ⟨tx.hash, j⟩ = none) (hvtx : block.vtx = cb :: vtx)
    (hcb : cb.isCoinBase = true) (hncb : ∀ tx ∈ vtx, tx.isCoinBase = false)
    (hnd : ∀ tx ∈ block.vtx, tx.prevouts.Nodup) (hcoins : UtxoMap.SpendsRestorable v.unspent block.vtx)
    (h : connectTransactions env params ctx block v = .ok (vtxundo, v')) :
    v'.Coherent ∧ v'.unspent = applyTxs ctx.nHeight v.unspent block.vtx ∧ vtxundo.length = vtx.length ∧
      UtxoMap.Undoable ctx.nHeight v.unspent (block.vtx.zip ([] :: vtxundo)) ∧
      ∀ p ∈ block.vtx.zip ([] :: vtxundo), FitsUndo p := by
  obtain ⟨w, fees, vtxundo', -, hsame, -, htxs, -, -, rfl⟩ := connectTransactions_ok h
  have hw := hsame.coherent hv
  have hs : ∀ tx ∈ block.vtx, w.SettledOutputs tx := fun tx htx j hj =>
    settled_of_unspent_none hw (by rw [hsame.unspent]; exact hnone tx htx j hj)
  obtain ⟨hv', hun, -⟩ := connectTxs_coherent hw hs htxs
  rw [← hsame.unspent] at hcoins hnone ⊢
  rw [hvtx] at htxs hs hnd hcoins hnone
  have hfresh : ∀ tx ∈ (cb :: vtx).head?, tx.isCoinBase = true → UtxoMap.FreshOutputs w.unspent tx ctx.nHeight := by
    rintro _ ⟨⟩ _ o ho
    obtain ⟨hhash, hlt⟩ := outputCoinFrom_isSome ho
    have hnot := hnone cb mem_cons_self o.n hlt
    rw [← hhash] at hnot
    rw [UtxoMap.inputs, if_pos hcb]
    exact hnot
  obtain ⟨hlen, hundo, hfits⟩ := connectTxs_undoable hh hw hs hnd hcoins hncb hfresh htxs
  obtain ⟨_, _, vprevout, rest, _, -, -, rfl⟩ := connectTxs_cons htxs
  have hnil : vprevout = [] := by
    have hlen := (hfits (cb, vprevout) mem_cons_self).1
    rw [UtxoMap.inputs, if_pos hcb] at hlen
    exact length_eq_zero_iff.1 hlen
  rw [hnil] at hundo hfits
  rw [hvtx] at hun ⊢
  exact ⟨hv', hun, Nat.succ.inj hlen, hundo, hfits⟩

lemma zip_undoRecord (hcb : cb.isCoinBase = true) (hncb : ∀ tx ∈ vtx, tx.isCoinBase = false) :
    (cb :: vtx).zip (none :: vtxundo.map some) = ((cb :: vtx).zip ([] :: vtxundo)).map undoRecord := by
  have hrest : vtx.zip (vtxundo.map some) = (vtx.zip vtxundo).map undoRecord := by
    rw [zip_map_right]
    refine map_congr_left fun p hp => ?_
    unfold undoRecord
    rw [hncb p.1 (of_mem_zip hp).1]
    rfl
  rw [zip_cons_cons, zip_cons_cons, hrest, map_cons]
  unfold undoRecord
  rw [hcb]
  rfl

lemma map_fst_zip_undo (hvtx : block.vtx = cb :: vtx) (hlen : vtxundo.length = vtx.length) :
    (block.vtx.zip ([] :: vtxundo)).map fst = block.vtx :=
  map_fst_zip (by rw [hvtx, length_cons, length_cons, hlen])

lemma disconnectBlock_coherent (nHeight : ℕ) (hashPrevBlock : Uint256)
    (hvtx : block.vtx = cb :: vtx)
    (hcb : cb.isCoinBase = true) (hncb : ∀ tx ∈ vtx, tx.isCoinBase = false) (hlen : vtxundo.length = vtx.length)
    (hfits : ∀ p ∈ block.vtx.zip ([] :: vtxundo), FitsUndo p) (hv : v.Coherent) :
    ∃ clean u, disconnectTxs nHeight (block.vtx.zip (none :: vtxundo.map some)).reverse v = .ok (some clean, u) ∧
      disconnectBlock nHeight hashPrevBlock block vtxundo v = .ok (.ofClean clean, u.setBestBlock hashPrevBlock) ∧
      u.Coherent ∧ u.unspent = undoTxs nHeight v.unspent (block.vtx.zip ([] :: vtxundo)) ∧
      ∀ m, UtxoMap.Undoable nHeight m (block.vtx.zip ([] :: vtxundo)) →
        v.unspent = applyTxs nHeight m block.vtx → clean = true := by
  obtain ⟨clean, u, hrun, hu, hun, hclean⟩ := disconnectTxs_coherent nHeight hv hfits
  rw [map_fst_zip_undo hvtx hlen] at hclean
  rw [hvtx, ← zip_undoRecord hcb hncb, ← hvtx] at hrun
  refine ⟨clean, u, hrun, ?_, hu, hun, hclean⟩
  rw [disconnectBlock, if_neg (by rw [hvtx, hlen, length_cons, not_not])]
  exact run_bind_eq_ok.2 ⟨some clean, u, hrun, rfl⟩

/-- **`DisconnectBlock` undoes `ConnectBlock`** if BIP30 is enforced, no transaction lists an input twice, and the
coins that the block spends have a height and a script that `AddCoin` keeps. -/
theorem disconnectBlock_connectBlock {env : BlockEnv} {params : ConsensusParams} {ctx : BlockContext} {block : CBlock}
    {v v' : CCoinsViewCache} {vtxundo : List (List Coin)} (hv : v.Coherent) (hh : 1 ≤ ctx.nHeight)
    (hbip : enforceBIP30 params ctx = true) (hdup : ∀ tx ∈ block.vtx, checkTransaction tx true = .ok ())
    (hcoins : UtxoMap.SpendsRestorable v.unspent block.vtx)
    (h : connectBlock env params ctx block false v = .ok (some vtxundo, v')) :
    ∃ v'', disconnectBlock ctx.nHeight (ctx.hashPrevBlock.getD 0) block vtxundo v' = .ok (.OK, v'') ∧ v''.Coherent ∧
      v''.unspent = v.unspent ∧ v''.getBestBlock.1 = v.getBestBlock.1 := by
  obtain ⟨hcheck, hprev, w, hw, ⟨-, habs, -⟩ | ⟨-, vtxundo', hundo, hconn⟩⟩ := connectBlock_ok h
  · cases habs
  cases hundo
  obtain ⟨cb, vtx, hvtx, hcb, hncb, -⟩ := checkBlock_ok hcheck
  have hbest := getBestBlock_sameCoins v
  rw [← hbest.unspent] at hcoins ⊢
  have hnd : ∀ tx ∈ block.vtx, tx.prevouts.Nodup := fun tx htx => (checkTransaction_ok (hdup tx htx)).2 rfl
  obtain ⟨_, _, _, -, -, hnone, -⟩ := connectTransactions_ok hconn
  obtain ⟨hwc, hwun, hlen, hundoable, hfits⟩ :=
    connectTransactions_undoable (by omega) (hbest.coherent hv) (hnone hbip) hvtx hcb hncb hnd hcoins hconn
  have hset : SameCoins w v' := by
    rw [hw]
    exact setBestBlock_sameCoins w block.hash
  rw [← hset.unspent] at hwun
  obtain ⟨clean, u, hrun, hdisc, huc, huun, hclean⟩ :=
    disconnectBlock_coherent ctx.nHeight (ctx.hashPrevBlock.getD 0) hvtx hcb hncb hlen hfits (hset.coherent hwc)
  refine ⟨u.setBestBlock (ctx.hashPrevBlock.getD 0), ?_, (setBestBlock_sameCoins u _).coherent huc, ?_, ?_⟩
  · rw [hdisc, hclean _ hundoable hwun]
    rfl
  · have hback := undoTxs_applyTxs hundoable
    rw [map_fst_zip_undo hvtx hlen, ← hwun, ← huun] at hback
    exact hback
  · rw [hprev]
    refine getBestBlock_setBestBlock ?_
    calc u.base.getBestBlock.1
      _ = v'.base.getBestBlock.1 := bestBlock_writeStable.disconnectTxs _ _ v' _ u hrun
      _ = w.base.getBestBlock.1 := by rw [hw]; rfl
      _ = v.getBestBlock.2.base.getBestBlock.1 := bestBlock_writeStable.connectTransactions _ _ _ _ _ _ w hconn
      _ = v.base.getBestBlock.1 := getBestBlock_base v

theorem disconnectBlock_connectBlock_example : ∃ vtxundo v' v'',
    Example.connect 1 [⟨1, 0⟩] (600 * COIN) = .ok (some vtxundo, v') ∧
      disconnectBlock 2 7 (Example.block [⟨1, 0⟩] (600 * COIN)) vtxundo v' = .ok (.OK, v'') ∧
      v''.unspent = (Example.view 1).unspent := by
  obtain ⟨⟨_, v'⟩, h, vtxundo, ⟨⟩, -⟩ : ∃ r, connect 1 [⟨1, 0⟩] (600 * COIN) = .ok r ∧ ∃ vtxundo ∈ r.1, True := by decide +kernel
  have hcoins : UtxoMap.SpendsRestorable (view 1).unspent (Example.block [⟨1, 0⟩] (600 * COIN)).vtx := by
    intro tx _ o _ coin hcoin
    rw [view_unspent] at hcoin
    split at hcoin
    · cases hcoin
      decide
    · cases hcoin
  obtain ⟨v'', hrun, -, hun, -⟩ := disconnectBlock_connectBlock (view_coherent 1) (by decide) (by decide)
    (by decide) hcoins h
  exact ⟨vtxundo, v', v'', h, hrun, hun⟩

/-! ## Coins without a height -/

lemma accessByTxidFrom_spent (h : ∀ n, v.unspent ⟨txid, n⟩ = none)
    (fuel n : ℕ) : ∃ coin v', accessByTxidFrom txid fuel n v = .ok (coin, v') ∧ coin.isSpent = true := by
  induction fuel generalizing n v with
  | zero => exact ⟨Coin.empty, v, rfl, rfl⟩
  | succ fuel ih =>
    have hspent : (v.accessCoin ⟨txid, n⟩).1.isSpent = true :=
      Coin.unlessSpent_eq_none.1 ((accessCoin_spec v ⟨txid, n⟩).1.trans (h n))
    have hsame := accessCoin_sameCoins v ⟨txid, n⟩
    obtain ⟨coin, v', hrun, hcoin⟩ := ih (v := (v.accessCoin ⟨txid, n⟩).2) (by rw [hsame.unspent]; exact h) (n + 1)
    refine ⟨coin, v', ?_, hcoin⟩
    refine run_bind_eq_ok.2 ⟨(v.accessCoin ⟨txid, n⟩).1, (v.accessCoin ⟨txid, n⟩).2, rfl, ?_⟩
    rw [if_neg (by rw [hspent]; decide)]
    exact hrun

/-- A coin without a height is only put back if another output of its transaction is still there. -/
theorem applyTxInUndo_failed (hh : undo.nHeight = 0)
    (h : ∀ n, v.unspent ⟨out.hash, n⟩ = none) : ∃ v', applyTxInUndo undo out v = .ok (.FAILED, v') := by
  have hsame := haveCoin_sameCoins v out
  obtain ⟨coin, v', hrun, hcoin⟩ := accessByTxidFrom_spent (v := (v.haveCoin out).2)
    (by rw [hsame.unspent]; exact h) MAX_OUTPUTS_PER_BLOCK 0
  refine ⟨v', ?_⟩
  refine run_bind_eq_ok.2 ⟨(v.haveCoin out).1, (v.haveCoin out).2, rfl, ?_⟩
  rw [if_pos hh]
  refine run_bind_eq_ok.2 ⟨coin, v', hrun, ?_⟩
  rw [if_neg (by rw [hcoin]; decide)]
  rfl

/-- `DisconnectBlock` fails if the coin that the last input spent had no height, and no other output of its
transaction is there. -/
theorem disconnectBlock_failed {hashPrevBlock : Uint256} (hv : v.Coherent)
    (hlen : vtxundo.length + 1 = block.vtx.length) {rest : List (CTransaction × Option (List Coin))}
    (hlast : (block.vtx.zip (none :: vtxundo.map some)).reverse = (tx, some vprevout) :: rest)
    (hvin : vprevout.length = tx.vin.length) {rest' : List (COutPoint × Coin)}
    (hin : (tx.prevouts.zip vprevout).reverse = (o, coin) :: rest') (hh : coin.nHeight = 0)
    (hnone : ∀ n, destroy v.unspent tx nHeight ⟨o.hash, n⟩ = none) :
    ∃ v', disconnectBlock nHeight hashPrevBlock block vtxundo v = .ok (.FAILED, v') := by
  obtain ⟨clean, w, hout, -, hwun, -⟩ := disconnectOutputs_coherent tx.hash tx.isCoinBase nHeight 0 tx.vout hv
  obtain ⟨v', hfail⟩ := applyTxInUndo_failed o hh fun n => by rw [hwun]; exact hnone n
  have hinputs : restoreInputs (tx.prevouts.zip vprevout).reverse w = .ok (none, v') := by
    rw [hin]
    exact run_bind_eq_ok.2 ⟨_, v', hfail, rfl⟩
  refine ⟨v', ?_⟩
  rw [disconnectBlock, if_neg (not_not.2 hlen), hlast]
  refine run_bind_eq_ok.2 ⟨none, v', run_bind_eq_ok.2 ⟨none, v', ?_, rfl⟩, rfl⟩
  refine run_bind_eq_ok.2 ⟨clean, w, hout, ?_⟩
  simp only
  rw [if_neg (not_not.2 hvin)]
  exact run_bind_eq_ok.2 ⟨none, v', hinputs, rfl⟩

/-- A database with a coin that nobody can spend. -/
def Example.unspendable : CCoinsViewCache :=
  ⟨⟨0, ∅, 0⟩, .db ⟨AList.singleton ⟨1, 0⟩ ⟨⟨600 * COIN, [OP_RETURN]⟩, false, 1⟩, 7, []⟩⟩

/-- **What `DisconnectBlock` cannot undo.** A block that spends a coin of height 0 cannot be disconnected; where the
script of the coin is unspendable, it can, and the coin is not put back. -/
theorem disconnectBlock_not_restoring :
    (∃ vtxundo v' v'', Example.connect 0 [⟨1, 0⟩] (600 * COIN) = .ok (some vtxundo, v') ∧ (Example.view 0).Coherent ∧
      enforceBIP30 Example.params Example.ctx = true ∧
      (∀ tx ∈ (Example.block [⟨1, 0⟩] (600 * COIN)).vtx, checkTransaction tx true = .ok ()) ∧
      disconnectBlock 2 7 (Example.block [⟨1, 0⟩] (600 * COIN)) vtxundo v' = .ok (.FAILED, v'')) ∧
    Example.unspendable.Coherent ∧ ∃ r, connectBlock Example.env Example.params Example.ctx
        (Example.block [⟨1, 0⟩] (600 * COIN)) false Example.unspendable = .ok r ∧
      ∃ vtxundo ∈ r.1, ∃ r', disconnectBlock 2 7 (Example.block [⟨1, 0⟩] (600 * COIN)) vtxundo r.2 = .ok r' ∧
        r'.1 = .OK ∧ r'.2.unspent ⟨1, 0⟩ ≠ Example.unspendable.unspent ⟨1, 0⟩ := by
  refine ⟨?_, coherent_empty _ _, by decide +kernel⟩
  obtain ⟨⟨_, v'⟩, h, rfl⟩ : ∃ r, connect 0 [⟨1, 0⟩] (600 * COIN) = .ok r ∧ r.1 = some [[Example.coin 0]] := by
    decide +kernel
  obtain ⟨hv', hun⟩ := connectBlock_coherent (view_coherent 0) (by decide) h
  have hnone : ∀ n, v'.unspent ⟨1, n⟩ = none := by
    intro n
    rw [hun]
    by_cases hn : n = 0
    · rw [hn]
      decide
    · simp [applyTxs, Example.block, UtxoMap.applyTx, UtxoMap.create, CTransaction.outputCoin, outputCoinFrom,
        UtxoMap.spend, view_unspent, coinbase, spender, hn]
  obtain ⟨v'', hfail⟩ : ∃ v'', disconnectBlock 2 7 (Example.block [⟨1, 0⟩] (600 * COIN)) [[Example.coin 0]] v' =
      .ok (.FAILED, v'') := by
    have hin : ((spender [⟨1, 0⟩] (600 * COIN)).prevouts.zip [Example.coin 0]).reverse =
        [(⟨1, 0⟩, Example.coin 0)] := rfl
    refine disconnectBlock_failed hv' rfl rfl rfl hin rfl fun n => ?_
    unfold destroy destroyFrom
    rw [hnone]
    exact ite_self none
  exact ⟨_, v', v'', h, view_coherent 0, by decide, by decide, hfail⟩

end Soferox
