import Soferox.Mempool.Runs
import Soferox.Validation.Effects

/-!
# The pool after a block

* `connectBlock_keeps`, `connectBlock_creates` — the coins that a connected block leaves alone and those it creates;
* `Cleared` — what holds of the pool between two rounds of `removeForBlock`, and between two inputs of one round;
* `removeForBlock_connected` — the transactions that stay are funded by the view after the block, and the ones that
  left had to.

Block transactions leave the pool without their descendants and in the order of the block, so that the statistics may
count relatives that are no longer connected; the links and `mapNextTx` are exact all the time (`BookkeepingUpTo`).
-/

namespace Soferox

open Lib Relation CCoinsViewCache CTxMemPoolEntry List Option CTransaction

/-! ## Coins that a block keeps and creates -/

/-- A coin at `o` stays. -/
def KeepsCoin (o : COutPoint) (v v' : CCoinsViewCache) : Prop := (v.unspent o).isSome → (v'.unspent o).isSome

variable {v v' : CCoinsViewCache}

lemma CCoinsViewCache.SameCoins.keepsCoin (h : SameCoins v v') (o : COutPoint) : KeepsCoin o v v' := by
  intro ho
  rwa [h.unspent]

variable {tx : CTransaction} {vtxundo : List (List Coin)}

section

variable {v v' : CCoinsViewCache} {o : COutPoint} {fCoinbase : Bool} {nHeight : ℕ} {vout : List CTxOut} {txid : Uint256}
  {u : Unit}

lemma addCoin_keepsCoin {o' : COutPoint} {coin : Coin} {possible_overwrite : Bool}
    (h : v.addCoin o' coin possible_overwrite = .ok v') : KeepsCoin o v v' := by
  intro ho
  rw [addCoin_unspent h]
  split
  · exact ho
  · by_cases hoo : o = o'
    · simp [hoo]
    · rwa [Function.update_of_ne hoo]

lemma addOutputs_keepsCoin {i : ℕ}
    (h : addOutputs txid fCoinbase nHeight false i vout v = .ok (u, v')) : KeepsCoin o v v' := by
  induction vout generalizing i v with
  | nil =>
    obtain ⟨-, rfl⟩ := run_pure_eq_ok.1 h
    exact id
  | cons out vout ih =>
    obtain ⟨w, hadd, h⟩ := addOutputs_cons.1 h
    intro ho
    exact ih h (addCoin_keepsCoin hadd ho)

variable {out : CTxOut}

lemma addOutputs_creates {i j : ℕ}
    (h : addOutputs txid fCoinbase nHeight false i vout v = .ok (u, v')) (hj : vout[j]? = some out)
    (hout : out.scriptPubKey.isUnspendable = false) : (v'.unspent ⟨txid, i + j⟩).isSome := by
  induction vout generalizing i j v with
  | nil => simp at hj
  | cons out' vout ih =>
    obtain ⟨w, hadd, h⟩ := addOutputs_cons.1 h
    cases j with
    | zero =>
      obtain rfl : out' = out := by simpa using hj
      apply addOutputs_keepsCoin h
      simp [addCoin_unspent hadd, hout]
    | succ j =>
      have hsome := ih h (by simpa using hj)
      rwa [Nat.add_right_comm] at hsome

lemma spendInputs_keepsCoin {os : List COutPoint} {coins : List Coin} (h : spendInputs os v = .ok (coins, v'))
    (ho : o ∉ os) : KeepsCoin o v v' := by
  induction os generalizing v coins with
  | nil =>
    obtain ⟨-, rfl⟩ := spendInputs_nil.1 h
    exact id
  | cons o' os ih =>
    obtain ⟨coin, rest, -, h, -⟩ := spendInputs_cons.1 h
    rw [mem_cons, not_or] at ho
    intro hsome
    apply ih h ho.2
    rwa [spendCoin_unspent_ne v ho.1]

lemma UtxoMap.inputs_subset (tx : CTransaction) : inputs tx ⊆ tx.prevouts := by
  unfold inputs
  split <;> simp

variable {env : BlockEnv} {ctx : BlockContext} {nFees nFees' : CAmount} {cost cost' : ℕ} {vprevout : List Coin}
  {vtx : List CTransaction} {fees : CAmount}

section

variable (h : connectTx env ctx tx nFees cost v = .ok ((nFees', cost', vprevout), v'))
include h

lemma connectTx_keepsCoin (ho : o ∉ tx.prevouts) : KeepsCoin o v v' := by
  obtain ⟨w, hsame, hupd, -⟩ := connectTx_ok h
  obtain ⟨w', hspend, hadd⟩ := updateCoins_eq_ok.1 hupd
  intro hsome
  apply addOutputs_keepsCoin hadd
  apply spendInputs_keepsCoin hspend fun hin => ho (UtxoMap.inputs_subset tx hin)
  exact hsame.keepsCoin o hsome

lemma connectTx_creates {j : ℕ} (hj : tx.vout[j]? = some out)
    (hout : out.scriptPubKey.isUnspendable = false) : (v'.unspent ⟨tx.hash, j⟩).isSome := by
  obtain ⟨w, -, hupd, -⟩ := connectTx_ok h
  obtain ⟨w', -, hadd⟩ := updateCoins_eq_ok.1 hupd
  have hsome := addOutputs_creates hadd hj hout
  rwa [Nat.zero_add] at hsome

end

section

variable (h : connectTxs env ctx nFees cost vtx v = .ok ((fees, vtxundo), v')) (ho : ∀ tx ∈ vtx, o ∉ tx.prevouts)
include h ho

lemma connectTxs_keepsCoin : KeepsCoin o v v' := by
  induction vtx generalizing nFees cost v vtxundo with
  | nil =>
    obtain ⟨-, rfl⟩ := run_pure_eq_ok.1 h
    exact id
  | cons tx vtx ih =>
    obtain ⟨_, _, _, _, w, htx, hrest, -⟩ := connectTxs_cons h
    obtain ⟨hhead, htail⟩ := forall_mem_cons.1 ho
    intro hsome
    exact ih hrest htail (connectTx_keepsCoin htx hhead hsome)

lemma connectTxs_creates (htx : tx ∈ vtx) (hhash : tx.hash = o.hash) (hj : tx.vout[o.n]? = some out)
    (hout : out.scriptPubKey.isUnspendable = false) : (v'.unspent o).isSome := by
  induction vtx generalizing nFees cost v vtxundo with
  | nil => cases htx
  | cons tx' vtx ih =>
    obtain ⟨_, _, _, _, w, hconn, hrest, -⟩ := connectTxs_cons h
    obtain ⟨-, htail⟩ := forall_mem_cons.1 ho
    rcases mem_cons.1 htx with rfl | htx
    · -- the later transactions of the block leave the coin alone
      have hsome := connectTx_creates hconn hj hout
      rw [hhash] at hsome
      exact connectTxs_keepsCoin hrest htail hsome
    · exact ih hrest htail htx

end

variable {params : ConsensusParams} {block : CBlock} {vtxundo : List (List Coin)}

section

variable (h : connectBlock env params ctx block false v = .ok (some vtxundo, v'))
include h

/-- What the two results about `ConnectBlock` share: its loop, between views that show the same coins. -/
theorem connectBlock_connectTxs :
    ∃ w w' fees undo, SameCoins v w ∧ connectTxs env ctx 0 0 block.vtx w = .ok ((fees, undo), w') ∧ SameCoins w' v' := by
  obtain ⟨-, -, w', hw', ⟨-, habs, -⟩ | ⟨-, _, -, hconn⟩⟩ := connectBlock_ok h
  · cases habs
  obtain ⟨w, fees, undo, -, hsame, -, htxs, -⟩ := connectTransactions_ok hconn
  refine ⟨w, w', fees, undo, (getBestBlock_sameCoins v).trans hsame, htxs, ?_⟩
  rw [hw']
  exact setBestBlock_sameCoins w' block.hash

variable (ho : ∀ tx ∈ block.vtx, o ∉ tx.prevouts)
include ho

lemma connectBlock_keeps (hsome : (v.unspent o).isSome) : (v'.unspent o).isSome := by
  obtain ⟨w, w', _, _, hvw, htxs, hwv⟩ := connectBlock_connectTxs h
  exact hwv.keepsCoin o (connectTxs_keepsCoin htxs ho (hvw.keepsCoin o hsome))

lemma connectBlock_creates (htx : tx ∈ block.vtx)
    (hhash : tx.hash = o.hash) (hj : tx.vout[o.n]? = some out) (hout : out.scriptPubKey.isUnspendable = false) :
    (v'.unspent o).isSome := by
  obtain ⟨w, w', _, _, -, htxs, hwv⟩ := connectBlock_connectTxs h
  exact hwv.keepsCoin o (connectTxs_creates htxs ho htx hhash hj hout)

end

end

namespace CTxMemPool

/-! ## Funded pools -/

/-- Every input is an output of another transaction of the pool that `usable` accepts, or a coin. -/
def Funded (pool : CTxMemPool) (usable : CTxOut → Bool) (m : UtxoMap) : Prop :=
  ∀ k e, pool.mapTx.lookup k = some e → ∀ o ∈ e.tx.prevouts,
    (o.hash ≠ k ∧ ∃ e' ∈ pool.mapTx.lookup o.hash, (e'.tx.vout[o.n]?).any usable) ∨ (m o).isSome

instance {pool : CTxMemPool} {usable : CTxOut → Bool} {m : UtxoMap} : Decidable (pool.Funded usable m) :=
  decidable_of_iff (∀ k ∈ pool.keys, ∀ e ∈ pool.mapTx.lookup k, ∀ o ∈ e.tx.prevouts,
      (o.hash ≠ k ∧ ∃ e' ∈ pool.mapTx.lookup o.hash, (e'.tx.vout[o.n]?).any usable) ∨ (m o).isSome)
    ⟨fun h k e he => h k (mem_keys_of_lookup he) e he, fun h k _ e he => h k e he⟩

/-- The outputs that `AddCoin` turns into coins. -/
def spendable (out : CTxOut) : Bool := !out.scriptPubKey.isUnspendable

/-- The transaction `c` of the pool spends an outpoint that a different transaction of the list spends. -/
def Conflicting (pool : CTxMemPool) (vtx : List CTransaction) (c : Uint256) : Prop :=
  ∃ e, pool.mapTx.lookup c = some e ∧ ∃ tx ∈ vtx, tx.hash ≠ c ∧ ∃ o ∈ tx.prevouts, o ∈ e.tx.prevouts

lemma Conflicting.mono {pool : CTxMemPool} {vtx vtx' : List CTransaction} {c : Uint256} (hsub : vtx ⊆ vtx')
    (h : pool.Conflicting vtx c) : pool.Conflicting vtx' c := by
  obtain ⟨e, he, tx, htx, hrest⟩ := h
  exact ⟨e, he, tx, hsub htx, hrest⟩

/-! ## The loops of `removeForBlock` -/

variable {pool pool' p : CTxMemPool} {seen : List CTransaction} {spent : List COutPoint}

lemma Shrunk.spends_of_mem (h : Shrunk pool pool') {c q : Uint256} (hc : c ∈ pool'.keys) (hs : pool.Spends c q) :
    pool'.Spends c q := by
  obtain ⟨e', he'⟩ := mem_keys_iff_lookup.1 hc
  obtain ⟨e, _, _, he, rfl⟩ := h c e' he'
  obtain ⟨e₀, he₀, o, ho, rfl⟩ := hs
  obtain rfl : e = e₀ := some.inj (he.symm.trans he₀)
  exact ⟨_, he', o, ho, rfl⟩

lemma Shrunk.descendants_subset (h : Shrunk pool pool') (k : Uint256) : pool'.descendants k ⊆ pool.descendants k := by
  intro x hx
  obtain ⟨hmem, hpath⟩ := mem_reach.1 hx
  refine mem_reach.2 ⟨h.keys_subset hmem, ?_⟩
  exact ReflTransGen.mono (fun a b hab => ⟨h.keys_subset hab.1, h.keys_subset hab.2.1, h.spends hab.2.2⟩) _ _ hpath

/-- The transactions `seen` and all that spends an outpoint of `spent` are out of the pool `p`; the rest of `pool` is
there, with its parents. -/
structure Cleared (pool p : CTxMemPool) (seen : List CTransaction) (spent : List COutPoint) : Prop where
  books : ∃ X Y, p.BookkeepingUpTo X Y
  shrunk : Shrunk pool p
  absent : ∀ tx ∈ seen, tx.hash ∉ p.keys
  free : ∀ k e, p.mapTx.lookup k = some e → ∀ o ∈ e.tx.prevouts, o ∉ spent
  parents : ∀ k ∈ p.keys, ∀ q ∈ pool.keys, pool.Spends k q → q ∈ p.keys ∨ ∃ tx ∈ seen, tx.hash = q
  cause : ∀ k ∈ pool.keys, k ∉ p.keys →
    (∃ tx ∈ seen, tx.hash = k) ∨ ∃ c, pool.Conflicting seen c ∧ k ∈ pool.descendants c

lemma cleared_nil {X : Uint256 → DescendantState} {Y : Uint256 → AncestorState} (h : pool.BookkeepingUpTo X Y) :
    Cleared pool pool [] [] where
  books := ⟨X, Y, h⟩
  shrunk := .refl pool
  absent := by simp
  free := by simp
  parents := fun _ _ _ hq _ => .inl hq
  cause := fun _ hk hnot => absurd hk hnot

section

variable (h : Cleared pool p seen spent)
include h

/-- The round of a transaction starts with the transaction itself. -/
theorem Cleared.stage (tx : CTransaction) :
    ∃ p', (if tx.hash ∈ p.mapTx then p.removeStaged (OrdSet.insert ∅ tx.hash) true else pure p) = .ok p' ∧
      Cleared pool p' (seen ++ [tx]) spent := by
  obtain ⟨X, Y, hbooks⟩ := h.books
  obtain ⟨p', hok, ⟨X', Y', hbooks'⟩, hshrunk, hkeys⟩ : ∃ p',
      (if tx.hash ∈ p.mapTx then p.removeStaged (OrdSet.insert ∅ tx.hash) true else pure p) = .ok p' ∧
        (∃ X' Y', p'.BookkeepingUpTo X' Y') ∧ Shrunk p p' ∧ p'.keys = p.keys \ {tx.hash} := by
    by_cases hk : tx.hash ∈ p.mapTx
    · rw [if_pos hk]
      obtain ⟨p', X', Y', hok, hbooks', hrem⟩ := removeStaged_any hbooks (S := OrdSet.insert ∅ tx.hash) fun k hk' => by
        obtain rfl : k = tx.hash := by simpa using hk'
        exact mem_keys.2 hk
      refine ⟨p', hok, ⟨X', Y', hbooks'⟩, hrem.shrunk, ?_⟩
      rw [hrem.keys]
      congr 1
    · refine ⟨p, if_neg hk, ⟨X, Y, hbooks⟩, .refl p, ?_⟩
      rw [Finset.sdiff_singleton_eq_erase, Finset.erase_eq_of_notMem fun hin => hk (mem_keys.1 hin)]
  have hmem : ∀ k, k ∈ p'.keys ↔ k ∈ p.keys ∧ k ≠ tx.hash := fun k => by simp [hkeys]
  refine ⟨p', hok, ⟨X', Y', hbooks'⟩, h.shrunk.trans hshrunk, ?_, ?_, ?_, ?_⟩
  · intro tx' htx' hin
    rcases mem_append.1 htx' with htx' | htx'
    · exact h.absent tx' htx' ((hmem _).1 hin).1
    · obtain rfl : tx' = tx := by simpa using htx'
      exact ((hmem _).1 hin).2 rfl
  · intro k e he
    obtain ⟨e₀, _, _, he₀, rfl⟩ := hshrunk k e he
    exact h.free k e₀ he₀
  · intro k hk q hq hspends
    rcases h.parents k ((hmem k).1 hk).1 q hq hspends with hqp | ⟨tx', htx', hq'⟩
    · by_cases hqt : q = tx.hash
      · exact .inr ⟨tx, by simp, hqt.symm⟩
      · exact .inl ((hmem q).2 ⟨hqp, hqt⟩)
    · exact .inr ⟨tx', by simp [htx'], hq'⟩
  · intro k hk hnot
    by_cases hkt : k = tx.hash
    · exact .inl ⟨tx, by simp, hkt.symm⟩
    · rcases h.cause k hk fun hkp => hnot ((hmem k).2 ⟨hkp, hkt⟩) with ⟨tx', htx', hk'⟩ | ⟨c, hc, hkc⟩
      · exact .inl ⟨tx', by simp [htx'], hk'⟩
      · exact .inr ⟨c, hc.mono (by simp), hkc⟩

/-- Then the transactions go that spend an input of it, with their descendants. -/
theorem Cleared.removeConflict (htx : tx ∈ seen) {txin : CTxIn} (hin : txin ∈ tx.vin) :
    ∃ p', removeConflict tx p txin = .ok p' ∧ Cleared pool p' seen (spent ++ [txin.prevout]) := by
  obtain ⟨X, Y, hbooks⟩ := h.books
  have hnext : ∀ k e, p.mapTx.lookup k = some e → txin.prevout ∈ e.tx.prevouts →
      p.mapNextTx.lookup txin.prevout = some e.tx := by
    intro k e he ho
    rw [hbooks.nextTx, hbooks.hash_eq k e he]
    exact ⟨e, he, rfl, ho⟩
  unfold CTxMemPool.removeConflict
  cases hlook : p.mapNextTx.lookup txin.prevout with
  | none =>
    refine ⟨p, rfl, h.books, h.shrunk, h.absent, fun k e he o ho => ?_, h.parents, h.cause⟩
    rw [mem_append, mem_singleton, not_or]
    refine ⟨h.free k e he o ho, ?_⟩
    rintro rfl
    rw [hnext k e he ho] at hlook
    cases hlook
  | some txConflict =>
    obtain ⟨e, he, rfl, ho⟩ := (hbooks.nextTx _ _).1 hlook
    have hc : e.tx.hash ∈ p.keys := mem_keys_of_lookup he
    have hne : e.tx.hash ≠ tx.hash := fun heq => h.absent tx htx (heq ▸ hc)
    obtain ⟨p', S, hok, hbooks', hrem, hS⟩ := removeRecursive_books (hbooks.clearPrioritisation e.tx.hash) e.tx
    obtain rfl : S = p.descendants e.tx.hash := hS hc
    have hmem : ∀ k, k ∈ p'.keys ↔ k ∈ p.keys ∧ k ∉ p.descendants e.tx.hash := fun k => by
      rw [hrem.keys, Finset.mem_sdiff]
      rfl
    have hshrunk : Shrunk p p' := hrem.shrunk
    refine ⟨p', by simp only [if_pos hne]; exact hok, ⟨X, Y, hbooks'⟩, h.shrunk.trans hshrunk, ?_, ?_, ?_, ?_⟩
    · exact fun tx' htx' hk => h.absent tx' htx' ((hmem _).1 hk).1
    · intro k e' he' o ho'
      obtain ⟨e₀, _, _, he₀, rfl⟩ := hshrunk k e' he'
      rw [mem_append, mem_singleton, not_or]
      refine ⟨h.free k e₀ he₀ o ho', ?_⟩
      rintro rfl
      -- the conflict is the only one that spends the outpoint, and it is gone
      have heq : e₀.tx = e.tx := some.inj ((hnext k e₀ he₀ ho').symm.trans hlook)
      have hk : k = e.tx.hash := (hbooks.hash_eq k e₀ he₀).symm.trans (congrArg hash heq)
      exact ((hmem k).1 (mem_keys_of_lookup he')).2 (hk.symm ▸ self_mem_descendants hc)
    · intro k hk q hq hspends
      obtain ⟨hkp, hkd⟩ := (hmem k).1 hk
      refine (h.parents k hkp q hq hspends).imp_left fun hqp => (hmem q).2 ⟨hqp, fun hqd => hkd ?_⟩
      exact mem_reach_of_mem hqd (mem_reach_of_rel hqp hkp (h.shrunk.spends_of_mem hkp hspends))
    · intro k hk hnot
      by_cases hkp : k ∈ p.keys
      · have hkd : k ∈ p.descendants e.tx.hash := by
          by_contra hkd
          exact hnot ((hmem k).2 ⟨hkp, hkd⟩)
        obtain ⟨e₀, _, _, he₀, heq⟩ := h.shrunk _ e he
        refine .inr ⟨e.tx.hash, ⟨e₀, he₀, tx, htx, hne.symm, txin.prevout, List.mem_map_of_mem hin, ?_⟩,
          h.shrunk.descendants_subset _ hkd⟩
        rwa [heq] at ho
      · exact h.cause k hk hkp

lemma Cleared.removeConflicts (htx : tx ∈ seen) :
    ∃ p', p.removeConflicts tx = .ok p' ∧ Cleared pool p' seen (spent ++ tx.prevouts) := by
  suffices hloop : ∀ vin, vin ⊆ tx.vin → ∀ p spent, Cleared pool p seen spent →
      ∃ p', vin.foldlM (CTxMemPool.removeConflict tx) p = .ok p' ∧
        Cleared pool p' seen (spent ++ vin.map CTxIn.prevout) from hloop tx.vin (fun _ => id) p spent h
  intro vin
  induction vin with
  | nil =>
    intro _ p spent h
    exact ⟨p, rfl, by simpa using h⟩
  | cons txin vin ih =>
    intro hsub p spent h
    obtain ⟨hhead, htail⟩ := cons_subset.1 hsub
    obtain ⟨p₁, h₁, hc₁⟩ := h.removeConflict htx hhead
    obtain ⟨p', h', hc'⟩ := ih htail p₁ _ hc₁
    refine ⟨p', by rw [foldlM_cons, h₁]; exact h', ?_⟩
    rwa [append_assoc] at hc'

lemma Cleared.removeBlockTx (tx : CTransaction) :
    ∃ p', p.removeBlockTx tx = .ok p' ∧ Cleared pool p' (seen ++ [tx]) (spent ++ tx.prevouts) := by
  obtain ⟨p₁, h₁, hc₁⟩ := h.stage tx
  obtain ⟨p₂, h₂, hc₂⟩ := hc₁.removeConflicts (show tx ∈ seen ++ [tx] by simp)
  obtain ⟨X, Y, hbooks⟩ := hc₂.books
  refine ⟨p₂.clearPrioritisation tx.hash, ?_, ⟨X, Y, hbooks.clearPrioritisation _⟩, hc₂.shrunk, hc₂.absent, hc₂.free,
    hc₂.parents, hc₂.cause⟩
  rw [CTxMemPool.removeBlockTx, h₁]
  simp only [ok_bind, h₂]
  rfl

lemma Cleared.foldlM_removeBlockTx (vtx : List CTransaction) : ∃ p', vtx.foldlM CTxMemPool.removeBlockTx p = .ok p' ∧
    Cleared pool p' (seen ++ vtx) (spent ++ vtx.flatMap prevouts) := by
  induction vtx generalizing p seen spent with
  | nil => exact ⟨p, rfl, by simpa using h⟩
  | cons tx vtx ih =>
    obtain ⟨p₁, h₁, hc₁⟩ := h.removeBlockTx tx
    obtain ⟨p', h', hc'⟩ := ih hc₁
    refine ⟨p', by rw [foldlM_cons, h₁]; exact h', ?_⟩
    rwa [append_assoc, append_assoc, singleton_append, ← flatMap_cons] at hc'

end

lemma Cleared.funded {env : BlockEnv} {params : ConsensusParams} {ctx : BlockContext} {block : CBlock}
    (h : Cleared pool p block.vtx (block.vtx.flatMap prevouts)) (hfunded : pool.Funded spendable v.unspent)
    (hid : ∀ tx ∈ block.vtx, ∀ e, pool.mapTx.lookup tx.hash = some e → e.tx.vout = tx.vout)
    (hblock : connectBlock env params ctx block false v = .ok (some vtxundo, v')) : p.Funded spendable v'.unspent := by
  intro k e' he' o ho
  have hfree : ∀ tx ∈ block.vtx, o ∉ tx.prevouts := fun tx htx hin =>
    h.free k e' he' o ho (mem_flatMap.2 ⟨tx, htx, hin⟩)
  obtain ⟨e, _, _, he, rfl⟩ := h.shrunk k e' he'
  rcases hfunded k e he o ho with ⟨hne, e₀, he₀, hout⟩ | hcoin
  · rcases h.parents k (mem_keys_of_lookup he') o.hash (mem_keys_of_lookup he₀) ⟨e, he, o, ho, rfl⟩ with
      hin | ⟨tx, htx, hhash⟩
    · -- the parent stays
      obtain ⟨e₁', he₁'⟩ := mem_keys_iff_lookup.1 hin
      obtain ⟨e₁, _, _, he₁, rfl⟩ := h.shrunk _ e₁' he₁'
      obtain rfl : e₁ = e₀ := some.inj (he₁.symm.trans he₀)
      exact .inl ⟨hne, _, he₁', hout⟩
    · -- the parent is in the block
      obtain ⟨out, hj, hspend⟩ := (Option.any_eq_true _ _).1 hout
      rw [hid tx htx e₀ (hhash ▸ he₀)] at hj
      exact .inr (connectBlock_creates hblock hfree htx hhash hj (by simpa [spendable] using hspend))
  · exact .inr (connectBlock_keeps hblock hfree hcoin)

/-- **The pool after a block**, connected to a view that funds the pool: `removeForBlock` takes out the transactions
of the block, their conflicts and the descendants of these, and nothing else; the rest is funded by the new view. -/
theorem removeForBlock_connected {X : Uint256 → DescendantState} {Y : Uint256 → AncestorState} {env : BlockEnv}
    {params : ConsensusParams} {ctx : BlockContext} {block : CBlock} {v v' : CCoinsViewCache}
    {vtxundo : List (List Coin)} (hpool : pool.BookkeepingUpTo X Y) (hfunded : pool.Funded spendable v.unspent)
    (hid : ∀ tx ∈ block.vtx, ∀ e, pool.mapTx.lookup tx.hash = some e → e.tx.vout = tx.vout)
    (hblock : connectBlock env params ctx block false v = .ok (some vtxundo, v')) :
    ∃ pool', pool.removeForBlock block.vtx = .ok pool' ∧ (∃ X' Y', pool'.BookkeepingUpTo X' Y') ∧ Shrunk pool pool' ∧
      (∀ k e, pool'.mapTx.lookup k = some e → ∀ o ∈ e.tx.prevouts, ∀ tx ∈ block.vtx, o ∉ tx.prevouts) ∧
      (∀ tx ∈ block.vtx, tx.hash ∉ pool'.keys) ∧
      pool'.Funded spendable v'.unspent ∧
      ∀ k ∈ pool.keys, k ∉ pool'.keys →
        (∃ tx ∈ block.vtx, tx.hash = k) ∨ ∃ c, pool.Conflicting block.vtx c ∧ k ∈ pool.descendants c := by
  obtain ⟨pool', hok, hc⟩ := (cleared_nil hpool).foldlM_removeBlockTx block.vtx
  rw [nil_append, nil_append] at hc
  refine ⟨pool', hok, hc.books, hc.shrunk, fun k e he o ho tx htx hin => ?_, hc.absent,
    hc.funded hfunded hid hblock, hc.cause⟩
  exact hc.free k e he o ho (mem_flatMap.2 ⟨tx, htx, hin⟩)

/-! ## Blocks on a view with one coin -/

section

open Example

/-- The pool with the given transaction and one that spends its output. -/
def addPair (tx : CTransaction) : List MempoolOp := [.addUnchecked tx 10 0 4 20 .none, addSpender 4 tx.hash]

/-- A transaction and its child: the block has the first, and the second one stays. -/
theorem removeForBlock_connected_pair : ∃ pool vtxundo v' pool',
    (addPair (Example.spender [⟨1, 0⟩] 1)).foldlM MempoolOp.run empty = .ok pool ∧
      connect 0 [⟨1, 0⟩] 1 = .ok (some vtxundo, v') ∧
      pool.removeForBlock (block [⟨1, 0⟩] 1).vtx = .ok pool' ∧ 4 ∈ pool'.keys ∧ pool'.Funded spendable v'.unspent := by
  obtain ⟨pool, hrun, hc, hfunded, hid, pool', hok, h₄⟩ := exists_run (addPair (Example.spender [⟨1, 0⟩] 1))
    (fun pool => pool.Funded spendable (view 0).unspent ∧
      (∀ tx ∈ (block [⟨1, 0⟩] 1).vtx, ∀ e ∈ pool.mapTx.lookup tx.hash, e.tx.vout = tx.vout) ∧
      ∃ pool', pool.removeForBlock (block [⟨1, 0⟩] 1).vtx = .ok pool' ∧ 4 ∈ pool'.keys) (by decide +kernel) (by decide +kernel)
  obtain ⟨⟨_, v'⟩, hconn, vtxundo, ⟨⟩, -⟩ : ∃ r, connect 0 [⟨1, 0⟩] 1 = .ok r ∧ ∃ vtxundo ∈ r.1, True := by decide +kernel
  obtain ⟨_, hok', -, -, -, -, hfunded', -⟩ := removeForBlock_connected hc.books.upTo hfunded hid hconn
  cases hok.symm.trans hok'
  exact ⟨pool, vtxundo, v', pool', hrun, hconn, hok, h₄, hfunded'⟩

/-- A transaction whose output starts with `OP_RETURN`. -/
def burn : CTransaction := ⟨3, 1, [⟨⟨1, 0⟩, [], 0, []⟩], [⟨0, [0x6a]⟩], 0⟩

/-- Such an output never becomes a coin: a transaction that spends it stays without its input. -/
theorem removeForBlock_unspendable : ∃ (pool : CTxMemPool) (vtxundo : List (List Coin)) (v' : CCoinsViewCache)
    (pool' : CTxMemPool),
    pool.Bookkeeping ∧ pool.Funded (fun _ => true) (view 0).unspent ∧
      (∀ tx ∈ [coinbase, burn], ∀ e ∈ pool.mapTx.lookup tx.hash, e.tx = tx) ∧
      connectBlock env params ctx ⟨9, 8, [coinbase, burn]⟩ false (view 0) = .ok (some vtxundo, v') ∧
      pool.removeForBlock [coinbase, burn] = .ok pool' ∧ ¬ pool'.Funded (fun _ => true) v'.unspent := by
  obtain ⟨pool, hrun, hc, hfunded, hid, pool', hok, ⟨_, v'⟩, hconn, hlost, vtxundo, ⟨⟩, -⟩ := exists_run (addPair burn)
    (fun pool => pool.Funded (fun _ => true) (view 0).unspent ∧
      (∀ tx ∈ [coinbase, burn], ∀ e ∈ pool.mapTx.lookup tx.hash, e.tx = tx) ∧
      ∃ pool', pool.removeForBlock [coinbase, burn] = .ok pool' ∧
      ∃ r, connectBlock env params ctx ⟨9, 8, [coinbase, burn]⟩ false (view 0) = .ok r ∧
        ¬ pool'.Funded (fun _ => true) r.2.unspent ∧ ∃ vtxundo ∈ r.1, True) (by decide +kernel) (by decide +kernel)
  exact ⟨pool, vtxundo, v', pool', hc.books, hfunded, hid, hconn, hok, hlost⟩

end

end CTxMemPool

end Soferox
