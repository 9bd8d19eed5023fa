import Soferox.Validation.Effects
import Soferox.Lib.Runs

/-!
# Value conservation

A block adds at most the subsidy to the total value of the unspent coins, as long as no transaction lists an input
twice. `CheckBlock` does not look for such transactions, and `SpendCoin` gives out a coin that is spent already where
its entry stays in the cache.

* `CCoinsViewCache.held` — the value shown and hidden at a set of outpoints;
* `connectTx_held`, `connectTxs_held` — fees and held value together never grow;
* `connectBlock_conservesValue_iff` — when a block that is accepted conserves value.
-/

namespace Soferox

open Lib CCoinsViewCache Example UtxoMap List Finset

variable {o : COutPoint}

lemma sum_eq_add_of_ne {f g : COutPoint → CAmount} {S : Finset COutPoint} (ho : o ∈ S)
    (h : ∀ o', o' ≠ o → f o' = g o') : ∑ o' ∈ S, f o' = ∑ o' ∈ S, g o' + (f o - g o) := by
  rw [← add_sum_erase S f ho, ← add_sum_erase S g ho, sum_congr rfl fun o' ho' => h o' (ne_of_mem_erase ho')]
  ring

/-- The value shown and hidden at a set of outpoints. -/
def CCoinsViewCache.held (v : CCoinsViewCache) (S : Finset COutPoint) : CAmount := ∑ o ∈ S, v.potential o

variable {vtx : List CTransaction} {vtxundo : List (List Coin)} {cb : CTransaction}

section

variable {S : Finset COutPoint} {v v' : CCoinsViewCache} {coin : Coin}

lemma CCoinsViewCache.SameCoins.held (h : SameCoins v v') : v'.held S = v.held S := by
  rw [CCoinsViewCache.held, CCoinsViewCache.held, h.potential]

lemma spendCoin_held (ho : o ∈ S) (h : (v.spendCoin o).1 = some coin) :
    (v.spendCoin o).2.held S = v.held S - coinValue (v.unspent o) := by
  rw [held, held, sum_eq_add_of_ne ho fun o' ho' => spendCoin_potential_ne v ho', spendCoin_potential_self h,
    unlessSpent_of_spendCoin h]
  ring

lemma addCoin_held (ho : o ∈ S) {possible_overwrite : Bool} (hv : v.Clean)
    (h : v.addCoin o coin possible_overwrite = .ok v') (hval : 0 ≤ coin.out.nValue)
    (hover : possible_overwrite = true → 0 ≤ coinValue (v.unspent o)) : v'.held S ≤ v.held S + coin.out.nValue := by
  have hself := addCoin_potential_self h hv hval hover
  rw [held, held, sum_eq_add_of_ne ho fun o' ho' => addCoin_potential_ne h ho']
  linarith

/-! ## Transactions -/

lemma spendInputs_held {os : List COutPoint} {coins : List Coin} (hS : ∀ o ∈ os, o ∈ S) (hos : os.Nodup)
    (h : spendInputs os v = .ok (coins, v')) : v'.held S = v.held S - valueOf v.unspent os := by
  induction os generalizing v coins with
  | nil =>
    obtain ⟨-, rfl⟩ := spendInputs_nil.1 h
    simp [valueOf]
  | cons o os ih =>
    obtain ⟨coin, rest, hc, htl, rfl⟩ := spendInputs_cons.1 h
    obtain ⟨ho, hos⟩ := nodup_cons.1 hos
    obtain ⟨hSo, hS⟩ := List.forall_mem_cons.1 hS
    have htail : os.map (fun o' => coinValue ((v.spendCoin o).2.unspent o')) = os.map fun o' => coinValue (v.unspent o') :=
      map_congr_left fun o' ho' => by rw [spendCoin_unspent_ne v (ne_of_mem_of_not_mem ho' ho)]
    rw [ih hS hos htl, spendCoin_held hSo hc, valueOf, valueOf, htail, List.map_cons, List.sum_cons]
    ring

lemma addOutputs_held {txid : Uint256} {fCoinbase : Bool} {nHeight i : ℕ} {vout : List CTxOut} {u : Unit}
    (hS : ∀ j, i ≤ j → j < i + vout.length → ⟨txid, j⟩ ∈ S) (hv : v.Clean) (hvals : ∀ out ∈ vout, 0 ≤ out.nValue)
    (hover : fCoinbase = true → ∀ j, i ≤ j → j < i + vout.length → 0 ≤ coinValue (v.unspent ⟨txid, j⟩))
    (h : addOutputs txid fCoinbase nHeight false i vout v = .ok (u, v')) :
    v'.held S ≤ v.held S + (vout.map CTxOut.nValue).sum := by
  induction vout generalizing i v with
  | nil =>
    obtain ⟨-, rfl⟩ := run_pure_eq_ok.1 h
    simp
  | cons out vout ih =>
    obtain ⟨w, hadd, htl⟩ := addOutputs_cons.1 h
    obtain ⟨hval, hvals⟩ := List.forall_mem_cons.1 hvals
    have hstep : w.held S ≤ v.held S + out.nValue :=
      addCoin_held (hS i le_rfl (by simp)) hv hadd hval fun hcb => hover hcb i le_rfl (by simp)
    have hover' : fCoinbase = true → ∀ j, i + 1 ≤ j → j < i + 1 + vout.length →
        0 ≤ coinValue (w.unspent ⟨txid, j⟩) := by
      intro hcb j hj hj'
      have hne : (⟨txid, j⟩ : COutPoint) ≠ ⟨txid, i⟩ := fun heq => by
        have := congrArg COutPoint.n heq
        simp only at this
        omega
      rw [addCoin_unspent_ne hadd hne]
      exact hover hcb j (by omega) (by rw [length_cons]; omega)
    have hrest := ih (fun j hj hj' => hS j (by omega) (by rw [length_cons]; omega)) (addCoin_clean hadd hv) hvals
      hover' htl
    rw [List.map_cons, List.sum_cons]
    linarith

/-- All outpoints that a transaction can touch. -/
def CTransaction.Within (tx : CTransaction) (S : Finset COutPoint) : Prop :=
  (∀ o ∈ tx.prevouts, o ∈ S) ∧ ∀ j, j < tx.vout.length → ⟨tx.hash, j⟩ ∈ S

variable {ctx : BlockContext} {tx : CTransaction} {env : BlockEnv}

/-- One round of `ConnectBlock`, without duplicate inputs: what is held grows by at most the outputs of the coinbase,
or shrinks by the fee. -/
theorem connectTx_held {nFees nFees' : CAmount}
    {cost cost' : ℕ} {vprevout : List Coin} (hS : tx.Within S) (hv : v.Clean) (hvals : ∀ out ∈ tx.vout, 0 ≤ out.nValue)
    (hnd : tx.prevouts.Nodup) (h : connectTx env ctx tx nFees cost v = .ok ((nFees', cost', vprevout), v')) :
    (tx.isCoinBase = true → (∀ j, j < tx.vout.length → 0 ≤ coinValue (v.unspent ⟨tx.hash, j⟩)) →
        nFees' = nFees ∧ v'.held S ≤ v.held S + (tx.vout.map CTxOut.nValue).sum) ∧
      (tx.isCoinBase = false → v'.held S + nFees' ≤ v.held S + nFees) ∧
      ∀ coin ∈ vprevout, coin.isSpent = false := by
  obtain ⟨w, hsame, hupd, hcb, hncb⟩ := connectTx_ok h
  obtain ⟨w', hspend, hadd⟩ := updateCoins_eq_ok.1 hupd
  have hw' := (clean_writeStable.spendInputs _ w _ w' hspend (hsame.clean hv)).1
  have hSout : ∀ j, 0 ≤ j → j < 0 + tx.vout.length → (⟨tx.hash, j⟩ : COutPoint) ∈ S := fun j _ hj => hS.2 j (by omega)
  unfold inputs at hspend
  cases htx : tx.isCoinBase with
  | true =>
    rw [if_pos htx] at hspend
    obtain ⟨rfl, rfl⟩ := spendInputs_nil.1 hspend
    refine ⟨fun _ hover => ⟨hcb htx, ?_⟩, nofun, nofun⟩
    rw [← hsame.held]
    exact addOutputs_held hSout hw' hvals (fun _ j _ hj => by rw [hsame.unspent]; exact hover j (by omega)) hadd
  | false =>
    rw [if_neg (by rw [htx]; decide)] at hspend
    obtain ⟨hin, hfee⟩ := hncb htx
    refine ⟨nofun, fun _ => ?_, (spendInputs_undo hnd (fun o ho => by rw [hsame.unspent]; exact hin o ho) hspend).2⟩
    have hspent := spendInputs_held hS.1 hnd hspend
    have hadded := addOutputs_held hSout hw' hvals (fun habs => by rw [htx] at habs; cases habs) hadd
    rw [hsame.unspent, hsame.held] at hspent
    linarith

lemma connectTxs_held {nFees fees : CAmount}
    {cost : ℕ} (hS : ∀ tx ∈ vtx, tx.Within S) (hv : v.Clean)
    (hvals : ∀ tx ∈ vtx, ∀ out ∈ tx.vout, 0 ≤ out.nValue) (hnd : ∀ tx ∈ vtx, tx.prevouts.Nodup)
    (hncb : ∀ tx ∈ vtx, tx.isCoinBase = false) (h : connectTxs env ctx nFees cost vtx v = .ok ((fees, vtxundo), v')) :
    v'.held S + fees ≤ v.held S + nFees ∧ ∀ vprevout ∈ vtxundo, ∀ coin ∈ vprevout, coin.isSpent = false := by
  induction vtx generalizing nFees cost v vtxundo with
  | nil =>
    obtain ⟨hres, rfl⟩ := run_pure_eq_ok.1 h
    cases hres
    simp
  | cons tx vtx ih =>
    obtain ⟨nFees', cost', vprevout, rest, w, htx, hrest, rfl⟩ := connectTxs_cons h
    rw [List.forall_mem_cons] at hS hvals hnd hncb
    obtain ⟨-, hheld, hundo⟩ := connectTx_held hS.1 hv hvals.1 hnd.1 htx
    have hw := (clean_writeStable.connectTx _ _ _ _ _ v _ w htx hv).1
    obtain ⟨hheld', hundo'⟩ := ih hS.2 hw hvals.2 hnd.2 hncb.2 hrest
    have := hheld hncb.1
    exact ⟨by linarith, List.forall_mem_cons.2 ⟨hundo, hundo'⟩⟩

/-! ## Totals -/

lemma CCoinsViewCache.SameCoins.totalValue (h : SameCoins v v') : v'.totalValue = v.totalValue := by
  have hout : ∀ o, o ∉ v.view.outpoints.toFinset → v'.unspent o = none := fun o ho => by
    rw [h.unspent]
    exact CCoinsView.unspent_of_not_mem_outpoints fun hm => ho (List.mem_toFinset.2 hm)
  rw [totalValue_eq hout, h.unspent]
  rfl

section

variable (hS : v.view.outpoints.toFinset ⊆ S)
include hS

lemma held_eq : v.held S = v.totalValue + ∑ o ∈ S, coinValue (v.shadow o) := by
  have hout : ∀ o, o ∉ S → v.unspent o = none := fun o ho =>
    CCoinsView.unspent_of_not_mem_outpoints fun hm => ho (hS (List.mem_toFinset.2 hm))
  rw [totalValue_eq hout, ← sum_add_distrib]
  rfl

lemma held_of_coherent (hv : v.Coherent) : v.held S = v.totalValue := by
  rw [held_eq hS, Finset.sum_eq_zero fun o _ => by rw [(coherent_iff.1 hv).2 o]; rfl, add_zero]

lemma totalValue_le_held (hshadow : ∀ o, 0 ≤ coinValue (v.shadow o)) : v.totalValue ≤ v.held S := by
  rw [held_eq hS]
  have := Finset.sum_nonneg fun o (_ : o ∈ S) => hshadow o
  linarith

end

/-- The outpoints that the transactions of a block can touch. -/
def touched (vtx : List CTransaction) : Finset COutPoint :=
  (vtx.flatMap fun tx => tx.prevouts ++ (List.range tx.vout.length).map (COutPoint.mk tx.hash)).toFinset

lemma within_touched (h : tx ∈ vtx) : tx.Within (touched vtx) := by
  constructor
  · intro o ho
    exact List.mem_toFinset.2 (mem_flatMap.2 ⟨tx, h, mem_append_left _ ho⟩)
  · intro j hj
    refine List.mem_toFinset.2 (mem_flatMap.2 ⟨tx, h, mem_append_right _ ?_⟩)
    exact List.mem_map.2 ⟨j, List.mem_range.2 hj, rfl⟩

lemma CTransaction.Within.mono {T : Finset COutPoint} (h : tx.Within S) (hST : S ⊆ T) :
    tx.Within T := ⟨fun o ho => hST (h.1 o ho), fun j hj => hST (h.2 j hj)⟩

/-- The loop of `ConnectBlock` without duplicate inputs: the total grows by at most the outputs of the coinbase, less
the fees, if nothing overwritten or hidden is of negative value. -/
theorem connectTxs_totalValue {fees : CAmount} (hv : v.Coherent) (hcb : cb.isCoinBase = true)
    (hncb : ∀ tx ∈ vtx, tx.isCoinBase = false) (hvals : ∀ tx ∈ cb :: vtx, ∀ out ∈ tx.vout, 0 ≤ out.nValue)
    (hnd : ∀ tx ∈ cb :: vtx, tx.prevouts.Nodup)
    (hover : ∀ j, j < cb.vout.length → 0 ≤ coinValue (v.unspent ⟨cb.hash, j⟩))
    (hshadow : ∀ o, 0 ≤ coinValue (v'.shadow o))
    (h : connectTxs env ctx 0 0 (cb :: vtx) v = .ok ((fees, vtxundo), v')) :
    v'.totalValue ≤ v.totalValue - fees + (cb.vout.map CTxOut.nValue).sum ∧
      ∀ vprevout ∈ vtxundo, ∀ coin ∈ vprevout, coin.isSpent = false := by
  let S := touched (cb :: vtx) ∪ (v.view.outpoints.toFinset ∪ v'.view.outpoints.toFinset)
  have hS : ∀ tx ∈ cb :: vtx, tx.Within S := fun tx htx => (within_touched htx).mono subset_union_left
  have hSv : v.view.outpoints.toFinset ⊆ S := subset_union_left.trans subset_union_right
  have hSv' : v'.view.outpoints.toFinset ⊆ S := subset_union_right.trans subset_union_right
  obtain ⟨nFees', cost', vprevout, rest, w, htx, hrest, rfl⟩ := connectTxs_cons h
  rw [List.forall_mem_cons] at hS hvals hnd
  have hclean := (coherent_iff.1 hv).1
  obtain ⟨hheld, -, hundo⟩ := connectTx_held hS.1 hclean hvals.1 hnd.1 htx
  obtain ⟨rfl, hle⟩ := hheld hcb hover
  have hw := (clean_writeStable.connectTx _ _ _ _ _ v _ w htx hclean).1
  obtain ⟨hle', hundo'⟩ := connectTxs_held hS.2 hw hvals.2 hnd.2 hncb hrest
  have htotal := held_of_coherent hSv hv
  have htotal' := totalValue_le_held hSv' hshadow
  exact ⟨by linarith, List.forall_mem_cons.2 ⟨hundo, hundo'⟩⟩

lemma base_writeStable : WriteStable fun v v' => v'.base.unspent = v.base.unspent :=
  .ofBase (R := fun v v' => v'.unspent = v.unspent) (fun _ => rfl) (fun _ _ _ h h' => h'.trans h) fun v o => (getCoin_spec v o).2

lemma shadow_nonneg (h : ∀ o, 0 ≤ coinValue (v.base.unspent o)) (o : COutPoint) : 0 ≤ coinValue (v.shadow o) := by
  unfold CCoinsViewCache.shadow
  split
  · exact h o
  · exact le_rfl

end

/-! ## Blocks -/

/-- Connecting a block conserved value: the unspent coins grew by at most the subsidy, and every coin that an input
contributed was unspent when it was taken. -/
def ConservesValue (v v' : CCoinsViewCache) (nHeight : ℕ) (undo : Option (List (List Coin))) : Prop :=
  v'.totalValue ≤ v.totalValue + getBlockSubsidy nHeight ∧
    ∀ vtxundo ∈ undo, ∀ vprevout ∈ vtxundo, ∀ coin ∈ vprevout, coin.isSpent = false

/-- The genesis block, or one without a transaction that lists an input twice. -/
def NoDuplicateInputs (params : ConsensusParams) (block : CBlock) : Prop :=
  block.hash = params.hashGenesisBlock ∨ ∀ tx ∈ block.vtx, tx.prevouts.Nodup

section

variable {env : BlockEnv} {params : ConsensusParams} {ctx : BlockContext} {block : CBlock} {v v' : CCoinsViewCache}

/-- For blocks that may overwrite coins: none that was there is of negative value. -/
def CCoinsViewCache.Nonneg (v : CCoinsViewCache) : Prop :=
  ∀ o, 0 ≤ coinValue (v.unspent o) ∧ 0 ≤ coinValue (v.base.unspent o)

lemma connectTransactions_totalValue (hv : v.Coherent) (hvtx : block.vtx = cb :: vtx) (hcb : cb.isCoinBase = true)
    (hncb : ∀ tx ∈ vtx, tx.isCoinBase = false) (hcheck : ∀ tx ∈ block.vtx, checkTransaction tx false = .ok ())
    (hnd : ∀ tx ∈ block.vtx, tx.prevouts.Nodup) (hor : enforceBIP30 params ctx = true ∨ v.Nonneg)
    (h : connectTransactions env params ctx block v = .ok (vtxundo, v')) :
    v'.totalValue ≤ v.totalValue + getBlockSubsidy ctx.nHeight ∧
      ∀ vprevout ∈ vtxundo, ∀ coin ∈ vprevout, coin.isSpent = false := by
  have hcoherent := fun hbip => (connectTransactions_coherent hv hbip hvtx hcb h).1
  obtain ⟨w, fees, vtxundo', coinbaseValue, hsame, hnone, htxs, hval, hle, rfl⟩ := connectTransactions_ok h
  have hvals : ∀ tx ∈ block.vtx, ∀ out ∈ tx.vout, 0 ≤ out.nValue := fun tx htx => (checkTransaction_ok (hcheck tx htx)).1
  have hover : ∀ j, j < cb.vout.length → 0 ≤ coinValue (w.unspent ⟨cb.hash, j⟩) := by
    intro j hj
    rw [hsame.unspent]
    rcases hor with hbip | hpos
    · rw [hnone hbip cb (by rw [hvtx]; exact List.mem_cons_self) j hj]
      exact le_rfl
    · exact (hpos _).1
  have hshadow : ∀ o, 0 ≤ coinValue (v'.shadow o) := by
    intro o
    rcases hor with hbip | hpos
    · rw [(coherent_iff.1 (hcoherent hbip)).2 o]
      exact le_rfl
    · refine shadow_nonneg (fun o => ?_) o
      rw [base_writeStable.connectTxs _ _ _ _ _ w _ v' htxs, hsame.base]
      exact (hpos o).2
  rw [hvtx] at htxs hvals hnd hval
  obtain ⟨htotal, hundo⟩ := connectTxs_totalValue (hsame.coherent hv) hcb hncb hvals hnd hover hshadow htxs
  have hcbval : coinbaseValue = (cb.vout.map CTxOut.nValue).sum := by
    rw [getValueOutFrom_eq hval, zero_add]
  rw [hsame.totalValue] at htotal
  exact ⟨by linarith, fun vprevout hmem => hundo vprevout (mem_of_mem_tail hmem)⟩

/-- **When connecting a block conserves value**: with BIP30 enforced, exactly if no transaction lists an input twice;
without it that is enough, if no coin that may be overwritten is of negative value. -/
theorem connectBlock_conservesValue_iff {fJustCheck : Bool} {undo : Option (List (List Coin))} (hv : v.Coherent)
    (h : connectBlock env params ctx block fJustCheck v = .ok (undo, v')) :
    (enforceBIP30 params ctx = true →
      (ConservesValue v v' ctx.nHeight undo ↔ NoDuplicateInputs params block)) ∧
    (v.Nonneg → NoDuplicateInputs params block → ConservesValue v v' ctx.nHeight undo) := by
  obtain ⟨hcheck, -, w, hw, hcases⟩ := connectBlock_ok h
  obtain ⟨cb, vtx, hvtx, hcb, hncb, htxs⟩ := checkBlock_ok hcheck
  have hbest := getBestBlock_sameCoins v
  have hsame : SameCoins w v' := by
    rw [hw]
    split
    · exact SameCoins.refl w
    · exact setBestBlock_sameCoins w block.hash
  rcases hcases with ⟨hgen, rfl, rfl⟩ | ⟨hgen, vtxundo, rfl, hconn⟩
  · -- the genesis block only sets the best block
    have hcons : ConservesValue v v' ctx.nHeight none := by
      refine ⟨?_, nofun⟩
      rw [hsame.totalValue, hbest.totalValue]
      exact le_add_of_nonneg_right (getBlockSubsidy_nonneg _)
    exact ⟨fun _ => ⟨fun _ => .inl hgen, fun _ => hcons⟩, fun _ _ => hcons⟩
  · have hv₀ := hbest.coherent hv
    have hsuff : (enforceBIP30 params ctx = true ∨ v.Nonneg) → NoDuplicateInputs params block →
        ConservesValue v v' ctx.nHeight (some vtxundo) := by
      intro hor hnd
      have hor' : enforceBIP30 params ctx = true ∨ v.getBestBlock.2.Nonneg :=
        hor.imp id fun hpos o => by rw [hbest.unspent, hbest.base]; exact hpos o
      obtain ⟨htotal, hundo⟩ := connectTransactions_totalValue hv₀ hvtx hcb hncb htxs (hnd.resolve_left hgen) hor' hconn
      refine ⟨by rw [hsame.totalValue, ← hbest.totalValue]; exact htotal, ?_⟩
      rintro _ ⟨⟩
      exact hundo
    refine ⟨fun hbip => ⟨fun hcons => .inr ?_, hsuff (.inl hbip)⟩, fun hpos => hsuff (.inr hpos)⟩
    exact (connectTransactions_coherent hv₀ hbip hvtx hcb hconn).2.2.2 (hcons.2 vtxundo rfl)

end

/-! ## A block with a duplicate input -/

theorem connectBlock_conservesValue_example : ∃ undo v', Example.connect 1 [⟨1, 0⟩] (600 * COIN) = .ok (undo, v') ∧
    ConservesValue (Example.view 1) v' Example.ctx.nHeight undo := by
  obtain ⟨⟨undo, v'⟩, h, -⟩ : ∃ r, connect 1 [⟨1, 0⟩] (600 * COIN) = .ok r ∧ True := by decide +kernel
  refine ⟨undo, v', h, ((connectBlock_conservesValue_iff (view_coherent 1) h).1 (by decide)).2 (.inr ?_)⟩
  decide

/-- The block lists the coin twice, and is accepted: 600 coins become 1200, at a subsidy of 512. -/
theorem connectBlock_duplicates_value : ∃ undo v', Example.connect 1 [⟨1, 0⟩, ⟨1, 0⟩] (1200 * COIN) = .ok (undo, v') ∧
    (Example.view 1).Coherent ∧ enforceBIP30 Example.params Example.ctx = true ∧
      (Example.view 1).totalValue + getBlockSubsidy Example.ctx.nHeight < v'.totalValue := by
  obtain ⟨⟨undo, v'⟩, h, hlt⟩ : ∃ r, connect 1 [⟨1, 0⟩, ⟨1, 0⟩] (1200 * COIN) = .ok r ∧
      (view 1).totalValue + getBlockSubsidy Example.ctx.nHeight < r.2.totalValue := by decide +kernel
  exact ⟨undo, v', h, view_coherent 1, by decide, hlt⟩

end Soferox
