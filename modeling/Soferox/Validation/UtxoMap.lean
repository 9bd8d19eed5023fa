import Soferox.Coins.Refinement
import Soferox.Lib.Overwrite
import Soferox.Validation.Block

/-!
# What a block does to a plain map of coins

The abstract model of connecting and undoing blocks, on maps from outpoints to unspent coins.

* `UtxoMap.spend`, `UtxoMap.create`, `UtxoMap.applyTx`, `UtxoMap.applyTxs` — connecting;
* `UtxoMap.destroy`, `UtxoMap.restore`, `UtxoMap.undoTx` — undoing;
* `UtxoMap.undoTx_applyTx`, `UtxoMap.undoTxs_applyTxs` — undoing transactions that spent what was there and created what
  was not gives the map back;
* `UtxoMap.isOverwrite_applyTxs`, `UtxoMap.isOverwrite_undoTxs` — both write places of the map without looking at it.
-/

namespace Soferox

open Lib Function List Option Prod

/-- The coin that the outputs `vout`, from `i` on, put at an outpoint; unspendable ones are left out. -/
def outputCoinFrom (txid : Uint256) (fCoinBase : Bool) (nHeight i : ℕ) (vout : List CTxOut) (o : COutPoint) :
    Option Coin :=
  if o.hash = txid ∧ i ≤ o.n then
    (vout[o.n - i]?).bind fun out => if out.scriptPubKey.isUnspendable then none else some ⟨out, fCoinBase, nHeight⟩
  else none

/-- The coin that a transaction of a block at height `nHeight` puts at an outpoint. -/
def CTransaction.outputCoin (tx : CTransaction) (nHeight : ℕ) (o : COutPoint) : Option Coin :=
  outputCoinFrom tx.hash tx.isCoinBase nHeight 0 tx.vout o

section

variable {txid : Uint256} {fCoinBase : Bool} {nHeight i : ℕ} {vout : List CTxOut} {o : COutPoint} {out : CTxOut}

lemma outputCoinFrom_nil : outputCoinFrom txid fCoinBase nHeight i [] o = none := by
  unfold outputCoinFrom
  split <;> rfl

lemma outputCoinFrom_of_lt (h : o.n < i) : outputCoinFrom txid fCoinBase nHeight i vout o = none :=
  if_neg fun h' => absurd h'.2 (by omega)

lemma outputCoinFrom_cons : outputCoinFrom txid fCoinBase nHeight i (out :: vout) o =
    if o = ⟨txid, i⟩ then (if out.scriptPubKey.isUnspendable then none else some ⟨out, fCoinBase, nHeight⟩)
    else outputCoinFrom txid fCoinBase nHeight (i + 1) vout o := by
  obtain ⟨hash, n⟩ := o
  simp only [outputCoinFrom, COutPoint.mk.injEq]
  by_cases hh : hash = txid
  · rcases lt_trichotomy n i with hn | rfl | hn
    · rw [if_neg (by omega), if_neg (by omega), if_neg (by omega)]
    · rw [if_pos ⟨hh, le_rfl⟩, if_pos ⟨hh, rfl⟩, Nat.sub_self]
      rfl
    · rw [if_pos ⟨hh, hn.le⟩, if_neg (by omega), if_pos ⟨hh, hn⟩, show n - i = n - (i + 1) + 1 by omega,
        getElem?_cons_succ]
  · rw [if_neg (fun h => hh h.1), if_neg (fun h => hh h.1), if_neg (fun h => hh h.1)]

lemma outputCoinFrom_or_update (m : UtxoMap) :
    (fun o => (outputCoinFrom txid fCoinBase nHeight (i + 1) vout o).or ((if out.scriptPubKey.isUnspendable then m
      else update m ⟨txid, i⟩ (some ⟨out, fCoinBase, nHeight⟩)) o)) =
      fun o => (outputCoinFrom txid fCoinBase nHeight i (out :: vout) o).or (m o) := by
  funext o
  rw [outputCoinFrom_cons]
  by_cases ho : o = ⟨txid, i⟩
  · rw [if_pos ho, outputCoinFrom_of_lt (by rw [ho]; exact Nat.lt_succ_self i), none_or, ho]
    split
    · rfl
    · exact update_self ..
  · rw [if_neg ho]
    split
    · rfl
    · rw [update_of_ne ho]

end

namespace UtxoMap

/-- The map without the given outpoints. -/
def spend (m : UtxoMap) (os : List COutPoint) : UtxoMap := fun o => if o ∈ os then none else m o

/-- The map with the outputs of a transaction. -/
def create (m : UtxoMap) (tx : CTransaction) (nHeight : ℕ) : UtxoMap := fun o => (tx.outputCoin nHeight o).or (m o)

/-- The inputs that a transaction spends; the coinbase spends none. -/
def inputs (tx : CTransaction) : List COutPoint := if tx.isCoinBase then [] else tx.prevouts

/-- The effect of a transaction. -/
def applyTx (nHeight : ℕ) (m : UtxoMap) (tx : CTransaction) : UtxoMap := (m.spend (inputs tx)).create tx nHeight

/-- The outputs that a transaction adds are not there. -/
def FreshOutputs (m : UtxoMap) (tx : CTransaction) (nHeight : ℕ) : Prop :=
  ∀ o, (tx.outputCoin nHeight o).isSome → m.spend (inputs tx) o = none

/-- The effect of the transactions of a block. -/
def applyTxs (nHeight : ℕ) (m : UtxoMap) (vtx : List CTransaction) : UtxoMap := vtx.foldl (applyTx nHeight) m

/-- The map without the outputs `vout`, numbered from `i` on. -/
def destroyFrom (m : UtxoMap) (txid : Uint256) (fCoinBase : Bool) (nHeight i : ℕ) (vout : List CTxOut) : UtxoMap :=
  fun o => if (outputCoinFrom txid fCoinBase nHeight i vout o).isSome then none else m o

/-- The map without the outputs of a transaction. -/
def destroy (m : UtxoMap) (tx : CTransaction) (nHeight : ℕ) : UtxoMap :=
  m.destroyFrom tx.hash tx.isCoinBase nHeight 0 tx.vout

/-- The map with coins put back; the first of the list wins. -/
def restore (m : UtxoMap) : List (COutPoint × Coin) → UtxoMap
  | [] => m
  | (o, coin) :: rest => Function.update (restore m rest) o (some coin)

/-- Undoing a transaction, with the coins it spent. -/
def undoTx (nHeight : ℕ) (m : UtxoMap) (tx : CTransaction) (vprevout : List Coin) : UtxoMap :=
  (m.destroy tx nHeight).restore ((inputs tx).zip vprevout)

@[simp] lemma spend_nil (m : UtxoMap) : m.spend [] = m := by
  funext o
  simp [spend]

lemma spend_cons (m : UtxoMap) (o : COutPoint) (os : List COutPoint) :
    m.spend (o :: os) = spend (update m o none) os := by
  funext o'
  by_cases ho : o' = o
  · subst ho
    simp [spend]
  · simp [spend, ho]

variable {m : UtxoMap} {l : List (COutPoint × Coin)} {o : COutPoint}

lemma restore_of_not_mem (h : o ∉ l.map fst) : m.restore l o = m o := by
  induction l with
  | nil => rfl
  | cons p l ih =>
    rw [map_cons, mem_cons, not_or] at h
    rw [restore, update_of_ne h.1]
    exact ih h.2

lemma restore_of_mem (hl : (l.map fst).Nodup) {coin : Coin} (h : (o, coin) ∈ l) : m.restore l o = some coin := by
  induction l with
  | nil => cases h
  | cons p l ih =>
    rw [map_cons, nodup_cons] at hl
    rcases mem_cons.1 h with rfl | h
    · exact update_self ..
    · have hne : o ≠ p.1 := fun ho => hl.1 (ho ▸ List.mem_map_of_mem h)
      rw [restore, update_of_ne hne]
      exact ih hl.2 h

variable {tx : CTransaction} {nHeight : ℕ} {vprevout : List Coin} {l : List (CTransaction × List Coin)}

lemma destroy_applyTx (hfresh : m.FreshOutputs tx nHeight) :
    (applyTx nHeight m tx).destroy tx nHeight = m.spend (inputs tx) := by
  funext o
  have ho := hfresh o
  unfold CTransaction.outputCoin at ho
  unfold destroy destroyFrom applyTx create CTransaction.outputCoin
  cases hcoin : outputCoinFrom tx.hash tx.isCoinBase nHeight 0 tx.vout o with
  | none => rfl
  | some coin =>
    rw [hcoin] at ho
    exact (ho rfl).symm

/-- **Undoing a transaction gives the map back**, when it spent distinct coins, its undo record has them, and its
outputs are new. -/
theorem undoTx_applyTx (hnodup : (inputs tx).Nodup) (hundo : (inputs tx).map m = vprevout.map some)
    (hfresh : m.FreshOutputs tx nHeight) : undoTx nHeight (applyTx nHeight m tx) tx vprevout = m := by
  have hlen : (inputs tx).length = vprevout.length := by simpa using congrArg List.length hundo
  have hfst : ((inputs tx).zip vprevout).map fst = inputs tx := map_fst_zip hlen.le
  unfold undoTx
  rw [destroy_applyTx hfresh]
  funext o
  by_cases ho : o ∈ inputs tx
  · obtain ⟨i, hi, rfl⟩ := getElem_of_mem ho
    have hi' : i < vprevout.length := hlen ▸ hi
    have hmem : ((inputs tx)[i], vprevout[i]) ∈ (inputs tx).zip vprevout := by
      rw [mem_iff_getElem]
      exact ⟨i, by simp [hi, hi'], by simp⟩
    rw [restore_of_mem (by rw [hfst]; exact hnodup) hmem]
    have hget := congrArg (·[i]?) hundo
    simp only [getElem?_map, getElem?_eq_getElem hi, getElem?_eq_getElem hi', map_some, some.injEq] at hget
    exact hget.symm
  · rw [restore_of_not_mem (by rw [hfst]; exact ho)]
    exact if_neg ho

/-- Undoing transactions with the coins they spent, last one first. -/
def undoTxs (nHeight : ℕ) (m : UtxoMap) (l : List (CTransaction × List Coin)) : UtxoMap :=
  l.foldr (fun p m => undoTx nHeight m p.1 p.2) m

/-- The undo record of a transaction fits the coins it is connected to. -/
structure UndoableTx (nHeight : ℕ) (m : UtxoMap) (tx : CTransaction) (vprevout : List Coin) : Prop where
  nodup : (inputs tx).Nodup
  spent : (inputs tx).map m = vprevout.map some
  fresh : m.FreshOutputs tx nHeight

/-- The undo records of transactions that are connected one after the other fit. -/
def Undoable (nHeight : ℕ) : UtxoMap → List (CTransaction × List Coin) → Prop
  | _, [] => True
  | m, (tx, vprevout) :: l => UndoableTx nHeight m tx vprevout ∧ Undoable nHeight (applyTx nHeight m tx) l

lemma undoable_append : Undoable nHeight m (l ++ [(tx, vprevout)]) ↔
      Undoable nHeight m l ∧ UndoableTx nHeight (applyTxs nHeight m (l.map fst)) tx vprevout := by
  induction l generalizing m with
  | nil => simp [Undoable, applyTxs]
  | cons p l ih =>
    obtain ⟨tx', vprevout'⟩ := p
    rw [cons_append, Undoable, Undoable, ih, and_assoc]
    rfl

/-- **Undoing the transactions of a block gives the map back.** -/
theorem undoTxs_applyTxs (h : Undoable nHeight m l) : undoTxs nHeight (applyTxs nHeight m (l.map fst)) l = m := by
  induction l generalizing m with
  | nil => rfl
  | cons p l ih =>
    obtain ⟨htx, hl⟩ := h
    rw [undoTxs, foldr_cons, ← undoTxs, map_cons, applyTxs, foldl_cons, ← applyTxs, ih hl]
    exact undoTx_applyTx htx.nodup htx.spent htx.fresh

/-! ## Overwrites -/

lemma isOverwrite_spend (os : List COutPoint) : IsOverwrite fun m : UtxoMap => m.spend os := by
  intro o
  by_cases ho : o ∈ os
  · exact .inl ⟨none, fun m => if_pos ho⟩
  · exact .inr fun m => if_neg ho

variable (tx nHeight) in
lemma isOverwrite_create : IsOverwrite fun m : UtxoMap => m.create tx nHeight := by
  intro o
  cases ho : tx.outputCoin nHeight o with
  | some coin => exact .inl ⟨some coin, fun m => by simp [create, ho]⟩
  | none => exact .inr fun m => by simp [create, ho]

variable (tx nHeight) in
lemma isOverwrite_destroy : IsOverwrite fun m : UtxoMap => m.destroy tx nHeight := by
  intro o
  by_cases ho : (tx.outputCoin nHeight o).isSome
  · exact .inl ⟨none, fun m => if_pos ho⟩
  · exact .inr fun m => if_neg ho

lemma isOverwrite_restore (l : List (COutPoint × Coin)) : IsOverwrite fun m : UtxoMap => m.restore l := by
  induction l with
  | nil => exact fun _ => .inr fun _ => rfl
  | cons p l ih =>
    obtain ⟨out, coin⟩ := p
    intro o
    by_cases ho : o = out
    · exact .inl ⟨some coin, fun m => by simp [restore, ho]⟩
    · rcases ih o with ⟨a, ha⟩ | hid
      · exact .inl ⟨a, fun m => by simpa [restore, update_of_ne ho] using ha m⟩
      · exact .inr fun m => by simpa [restore, update_of_ne ho] using hid m

lemma isOverwrite_applyTxs (nHeight : ℕ) (vtx : List CTransaction) :
    IsOverwrite fun m : UtxoMap => applyTxs nHeight m vtx :=
  IsOverwrite.foldl (fun tx => (isOverwrite_create tx nHeight).comp (isOverwrite_spend (inputs tx))) vtx

lemma isOverwrite_undoTxs (nHeight : ℕ) (l : List (CTransaction × List Coin)) :
    IsOverwrite fun m : UtxoMap => undoTxs nHeight m l := by
  induction l with
  | nil => exact fun _ => .inr fun _ => rfl
  | cons p l ih =>
    exact ((isOverwrite_restore ((inputs p.1).zip p.2)).comp (isOverwrite_destroy p.1 nHeight)).comp ih

end UtxoMap

end Soferox
