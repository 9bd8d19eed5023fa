import Soferox.Mempool.LockPoints

/-!
# Lock points across reorganizations

Lock points that were computed at one tip are tested at another one, on any branch. A coin that is not above the block
they name has the same height at both tips: it would have to be spent first, by a block that takes the transaction out
of the pool, unless a block overwrites it; and the pool must not have the transaction that made it.

* `inputBelow_of_pool`, `inputBelow_congr` — an input that was in the pool, and one that was in a block;
* `BlockStore.utxo_of_common` — the coins of two tips up to a common block;
* `ChainHistory.Kept` — what the events keep: lock points come from a test that was passed, and no block that was
  connected since spends an input;
* `ChainHistory.run_lockPoints_sound` — all runs;
* `Testnet.run_lockPoints_unsound` — a coin that is overwritten, and one that the pool has once more.
-/

namespace Soferox

open Lib CTransaction UtxoMap ChainHistory List Option BlockStore Nat

/-! ## Locks of single inputs -/

variable {lockPair : ℤ × ℤ} {ctx : LockContext} {nHeight : ℕ} {o : COutPoint} {l : List ℕ} {α β : Type} {bs : List β}
  {a n : ℕ}

lemma evaluateSequenceLocks_iff :
    evaluateSequenceLocks ctx lockPair = true ↔ lockPair.1 < ctx.nHeight ∧ lockPair.2 < ctx.prevMedianTimePast := by
  simp [evaluateSequenceLocks]

/-- The lock of an input is below a height, or a time. -/
def InputBelow (ctx : LockContext) (p : CTxIn × ℕ) (height time : ℤ) : Prop :=
  if p.1.nSequence &&& SEQUENCE_LOCKTIME_DISABLE_FLAG ≠ 0 then True
  else if p.1.nSequence &&& SEQUENCE_LOCKTIME_TYPE_FLAG ≠ 0 then
    ctx.ancestorMedianTimePast (p.2 - 1) + ((p.1.nSequence &&& SEQUENCE_LOCKTIME_MASK) <<< SEQUENCE_LOCKTIME_GRANULARITY : ℕ) - 1 < time
  else (p.2 : ℤ) + (p.1.nSequence &&& SEQUENCE_LOCKTIME_MASK : ℕ) - 1 < height

lemma sequenceLockLoop_lt_iff {height time : ℤ} {l : List (CTxIn × ℕ)} :
    ((sequenceLockLoop ctx lockPair l).1 < height ∧ (sequenceLockLoop ctx lockPair l).2 < time) ↔
      (lockPair.1 < height ∧ lockPair.2 < time) ∧ ∀ p ∈ l, InputBelow ctx p height time := by
  induction l generalizing lockPair with
  | nil => simp [sequenceLockLoop]
  | cons p l ih =>
    obtain ⟨txin, nCoinHeight⟩ := p
    rw [forall_mem_cons, sequenceLockLoop, InputBelow]
    simp only
    split_ifs with hdisabled htype
    · rw [ih]
      tauto
    · rw [ih]
      simp only [max_lt_iff]
      tauto
    · rw [ih]
      simp only [max_lt_iff]
      tauto

lemma le_foldl_max (h : n ∈ l ∨ n ≤ a) : n ≤ l.foldl max a := by
  induction l generalizing a with
  | nil => simpa using h
  | cons x l ih =>
    apply ih
    rw [mem_cons] at h
    rcases h with (rfl | h) | h
    · exact .inr (le_max_right a n)
    · exact .inl h
    · exact .inr (h.trans (le_max_left a x))

lemma foldl_max_le (hl : ∀ x ∈ l, x ≤ n) (ha : a ≤ n) : l.foldl max a ≤ n := by
  induction l generalizing a with
  | nil => exact ha
  | cons x l ih =>
    obtain ⟨hx, hl⟩ := forall_mem_cons.1 hl
    exact ih hl (max_le ha hx)

lemma forall₂_of_mapM {f : α → Option β} {l : List α} (h : l.mapM f = some bs) :
    List.Forall₂ (fun a b => f a = some b) l bs := by
  induction l generalizing bs with
  | nil =>
    cases h
    exact .nil
  | cons a l ih =>
    rw [mapM_cons] at h
    obtain ⟨b, hb, h⟩ := bind_eq_some_iff.1 h
    obtain ⟨bs', hbs, h⟩ := bind_eq_some_iff.1 h
    cases h
    exact .cons hb (ih hbs)

lemma exists_mem_zip_of_mapM {f : α → Option β} {l : List α} (h : l.mapM f = some bs) {a : α}
    (ha : a ∈ l) : ∃ b, f a = some b ∧ (a, b) ∈ l.zip bs := by
  have hall := forall₂_of_mapM h
  rw [← map_fst_zip hall.length_eq.le] at ha
  obtain ⟨⟨a, b⟩, hmem, rfl⟩ := List.mem_map.1 ha
  exact ⟨b, forall₂_zip hall hmem, hmem⟩

/-! ## Coins and the blocks that made them -/

namespace UtxoMap

variable {m : UtxoMap} {vtx : List CTransaction} {coin : Coin} {tx : CTransaction}

/-- What a block leaves at an outpoint that it spends is its own. -/
lemma nHeight_of_spent (htx : tx ∈ vtx) (ho : o ∈ inputs tx) (h : applyTxs nHeight m vtx o = some coin) :
    coin.nHeight = nHeight := by
  obtain ⟨before, after, rfl⟩ := append_of_mem htx
  rw [applyTxs, foldl_append, foldl_cons] at h
  rcases applyTxs_eq_some h with ⟨tx', -, hout⟩ | hm
  · exact (outputCoin_eq_some hout).2.2
  · rw [applyTx, create, UtxoMap.spend, if_pos ho, or_none] at hm
    exact (outputCoin_eq_some hm).2.2

end UtxoMap

namespace BlockStore

variable {ι : Type} {S : BlockStore ι} {pindex : ι} {tip common : ι} {o : COutPoint} {coin : Coin} {pprev : ι}

lemma exists_of_utxo_eq_some (h : S.utxo (some tip) o = some coin) :
    ∃ pindex ∈ S.tree.path tip, S.tree.nHeight pindex = coin.nHeight ∧ ∃ tx ∈ (S.readBlock pindex).vtx, tx.hash = o.hash := by
  induction tip using S.tree.forest.induction with
  | step tip ih =>
    cases hpprev : S.tree.pprev tip with
    | none =>
      rw [utxo_of_root hpprev] at h
      cases h
    | some pprev =>
      rw [utxo_of_pprev hpprev] at h
      rcases UtxoMap.applyTxs_eq_some h with ⟨tx, htx, hout⟩ | hm
      · obtain ⟨hhash, -, hheight⟩ := outputCoin_eq_some hout
        exact ⟨tip, S.tree.forest.self_mem_path tip, hheight.symm, tx, htx, hhash⟩
      · obtain ⟨pindex, hmem, hrest⟩ := ih pprev hpprev hm
        exact ⟨pindex, S.tree.forest.mem_path_of_parent hpprev hmem, hrest⟩

lemma nHeight_le_of_utxo (h : S.utxo (some tip) o = some coin) : coin.nHeight ≤ S.tree.nHeight tip := by
  obtain ⟨pindex, hmem, hheight, -⟩ := exists_of_utxo_eq_some h
  exact hheight ▸ S.tree.forest.depth_le_of_mem_path hmem

lemma utxo_of_nHeight_le (hmem : common ∈ S.tree.path tip) (h : S.utxo (some tip) o = some coin)
    (hle : coin.nHeight ≤ S.tree.nHeight common) : S.utxo (some common) o = some coin := by
  induction tip using S.tree.forest.induction with
  | step tip ih =>
    rcases S.tree.forest.mem_path_iff.1 hmem with rfl | ⟨pprev, hpprev, hbelow⟩
    · exact h
    · have hheight : S.tree.nHeight tip = S.tree.nHeight pprev + 1 := S.tree.forest.depth_of_parent hpprev
      have hcommon : S.tree.nHeight common ≤ S.tree.nHeight pprev := S.tree.forest.depth_le_of_mem_path hbelow
      rw [utxo_of_pprev hpprev] at h
      rcases applyTxs_eq_some h with ⟨tx, -, hout⟩ | hm
      · have := (outputCoin_eq_some hout).2.2
        omega
      · exact ih pprev hpprev hbelow hm

/-- A coin stays where it is as long as no block spends or overwrites it. -/
lemma utxo_of_unspent (hfresh : ∀ pindex, S.tree.nHeight pindex ≠ 0 → S.Fresh pindex) (hmem : common ∈ S.tree.path tip)
    (h : S.utxo (some common) o = some coin)
    (hspent : ∀ pindex ∈ S.tree.path tip, S.tree.nHeight common < S.tree.nHeight pindex →
      ∀ tx ∈ (S.readBlock pindex).vtx, o ∉ inputs tx) : S.utxo (some tip) o = some coin := by
  induction tip using S.tree.forest.induction with
  | step tip ih =>
    rcases S.tree.forest.mem_path_iff.1 hmem with rfl | ⟨pprev, hpprev, hbelow⟩
    · exact h
    · have hheight : S.tree.nHeight tip = S.tree.nHeight pprev + 1 := S.tree.forest.depth_of_parent hpprev
      have hcommon : S.tree.nHeight common ≤ S.tree.nHeight pprev := S.tree.forest.depth_le_of_mem_path hbelow
      have hold := ih pprev hpprev hbelow fun pindex hp => hspent pindex (S.tree.forest.mem_path_of_parent hpprev hp)
      rw [utxo_of_pprev hpprev, ← hold]
      refine applyTxs_untouched fun tx htx =>
        ⟨hspent tip (S.tree.forest.self_mem_path tip) (by omega) tx htx, ?_⟩
      -- an output there would overwrite the coin
      by_contra hsome
      obtain ⟨coin', hout⟩ := ne_none_iff_exists'.1 hsome
      obtain ⟨hhash, hn, -⟩ := outputCoin_eq_some hout
      have hnone := hfresh tip (by omega) tx htx o.n hn
      have hpath : S.tree.path tip = tip :: S.tree.path pprev := S.tree.forest.path_of_parent hpprev
      rw [hpath, tail_cons, hhash] at hnone
      cases hold.symm.trans hnone

/-- **A coin that is not above a common block is the same at both tips**, if the second chain has no other block that
spends it. -/
theorem utxo_of_common (hfresh : ∀ pindex, S.tree.nHeight pindex ≠ 0 → S.Fresh pindex) {tip' : ι}
    (hmem : common ∈ S.tree.path tip) (hmem' : common ∈ S.tree.path tip') (h : S.utxo (some tip) o = some coin)
    (hle : coin.nHeight ≤ S.tree.nHeight common)
    (hspent : ∀ pindex ∈ S.tree.path tip', ∀ tx ∈ (S.readBlock pindex).vtx, o ∈ inputs tx → pindex ∈ S.tree.path tip) :
    S.utxo (some tip') o = some coin := by
  refine utxo_of_unspent hfresh hmem' (utxo_of_nHeight_le hmem h hle) fun pindex hpath hlt tx htx ho => ?_
  have hthere := hspent pindex hpath tx htx ho
  have hafter := utxo_of_nHeight_le hthere h (hle.trans hlt.le)
  obtain ⟨pprev, hpprev⟩ := S.tree.forest.exists_parent (show S.tree.forest.depth pindex ≠ 0 from (Nat.ne_zero_of_lt hlt))
  rw [utxo_of_pprev hpprev] at hafter
  exact absurd (nHeight_of_spent htx ho hafter) (by omega)

lemma exists_contextOf (S : BlockStore ι) (BIP34Height : ℕ) (pindex : ι) : ∃ ctx, S.ContextOf BIP34Height pindex ctx :=
  ⟨⟨_, none, _, 0, true, ⟨true, _, 0, fun _ => 0⟩⟩, rfl, rfl, rfl⟩

end BlockStore

/-! ## Two tips -/

namespace ChainHistory

variable {ι : Type} {H : ChainHistory ι} {fVerifySequence : Bool} {s s' : TipState ι} {o : COutPoint}
  {tx : CTransaction} {tip : ι} {height : ℕ} {common : ι} {r : LockPoints ι × Bool} {txin : CTxIn} {coin : Coin}
  {tip' : ι}

lemma getCoin_of_ne (h : ∀ e ∈ s.mapTx, e.tx.hash ≠ o.hash) : H.getCoin s o = H.store.utxo (some s.tip) o := by
  have hpool : s.mapTx.find? (fun e => e.tx.hash = o.hash) = none := by
    rw [find?_eq_none]
    intro e he hhash
    exact h e he (of_decide_eq_true hhash)
  rw [getCoin, hpool]

/-- The height of a coin of the pool is that of the next block; other coins are in the chain. -/
theorem prevHeight_cases (h : H.prevHeight s o = some height) :
    height = H.store.tree.nHeight s.tip + 1 ∨ ∃ coin, H.store.utxo (some s.tip) o = some coin ∧ coin.nHeight = height ∧
      height ≠ MEMPOOL_HEIGHT := by
  obtain ⟨coin, hcoin, rfl⟩ := map_eq_some_iff.1 h
  by_cases hheight : coin.nHeight = MEMPOOL_HEIGHT
  · exact .inl (if_pos hheight)
  · rw [if_neg hheight]
    rw [getCoin] at hcoin
    split at hcoin
    · obtain ⟨out, -, rfl⟩ := map_eq_some_iff.1 hcoin
      exact absurd rfl hheight
    · exact .inr ⟨coin, hcoin, rfl, hheight⟩

lemma prevHeight_le (h : H.prevHeight s o = some height) : height ≤ H.store.tree.nHeight s.tip + 1 := by
  rcases prevHeight_cases h with rfl | ⟨coin, hcoin, rfl, -⟩
  · exact le_rfl
  · exact (nHeight_le_of_utxo hcoin).trans (le_succ _)

lemma ancestorMedianTimePast_le (h : height ≤ H.store.tree.nHeight tip) :
    (H.nextContext tip fVerifySequence).ancestorMedianTimePast height ≤ H.timed.getMedianTimePast tip := by
  obtain ⟨a, hget⟩ := H.store.tree.exists_getAncestor h
  have hle := H.timed.getMedianTimePast_mono (H.store.tree.getAncestor_eq_some.1 hget).1
  simp only [nextContext, hget]
  exact_mod_cast hle

/-- An input in the pool has no lock, or one of zero, as a lock was passed at the next block. -/
theorem inputBelow_of_pool (h : InputBelow (H.nextContext tip fVerifySequence) (txin, H.store.tree.nHeight tip + 1)
      (H.store.tree.nHeight tip + 1 : ℕ) (H.timed.getMedianTimePast tip))
    (hle : height ≤ H.store.tree.nHeight tip' + 1) :
    InputBelow (H.nextContext tip' fVerifySequence) (txin, height) (H.store.tree.nHeight tip' + 1 : ℕ)
      (H.timed.getMedianTimePast tip') := by
  unfold InputBelow at h ⊢
  split_ifs at h ⊢ with hdisabled htype
  · have hself : H.store.tree.getAncestor tip (H.store.tree.nHeight tip) = some tip := H.store.tree.forest.ancestorAt_self tip
    simp only [nextContext, Nat.add_sub_cancel, hself, map_some, getD_some] at h
    have hbefore : (H.nextContext tip' fVerifySequence).ancestorMedianTimePast (height - 1) ≤ H.timed.getMedianTimePast tip' :=
      ancestorMedianTimePast_le (by omega)
    simp only at hbefore ⊢
    omega
  · simp only at h ⊢
    omega

lemma inputBelow_congr (hmem : common ∈ H.store.tree.path tip)
    (hmem' : common ∈ H.store.tree.path tip') {p : CTxIn × ℕ} (hle : p.2 ≤ H.store.tree.nHeight common) {height time : ℤ} :
    InputBelow (H.nextContext tip fVerifySequence) p height time ↔ InputBelow (H.nextContext tip' fVerifySequence) p height time := by
  have hancestor : ∀ t, common ∈ H.store.tree.path t →
      H.store.tree.getAncestor t (p.2 - 1) = H.store.tree.getAncestor common (p.2 - 1) := by
    intro t ht
    obtain ⟨a, ha⟩ := H.store.tree.exists_getAncestor (show p.2 - 1 ≤ H.store.tree.nHeight common by omega)
    rw [ha, H.store.tree.getAncestor_of_mem_path ht ha]
  simp only [InputBelow, nextContext, hancestor tip hmem, hancestor tip' hmem']

lemma calculateSequenceLocks_enforced (ctx : LockContext)
    (h : (decide (tx.nVersion % 2 ^ 32 ≥ 2) && ctx.csvActive) = true) (heights : List ℕ) :
    calculateSequenceLocks ctx tx heights = (sequenceLockLoop ctx (-1, -1) (tx.vin.zip heights),
      (tx.vin.zip heights).map fun p => if p.1.nSequence &&& SEQUENCE_LOCKTIME_DISABLE_FLAG ≠ 0 then 0 else p.2) :=
  if_pos h

/-- The block that the lock points name is not below a confirmed coin that an input with a lock spends. -/
theorem exists_maxInputBlock {vin : List CTxIn} {heights : List ℕ}
    (hheights : vin.mapM (fun txin => H.prevHeight s txin.prevout) = some heights)
    (hmem : (txin, coin.nHeight) ∈ vin.zip heights) (hdisabled : ¬ txin.nSequence &&& SEQUENCE_LOCKTIME_DISABLE_FLAG ≠ 0)
    (hcoin : H.store.utxo (some s.tip) txin.prevout = some coin) :
    ∃ common, H.store.tree.getAncestor s.tip (H.maxInputHeight s ((vin.zip heights).map fun p =>
        if p.1.nSequence &&& SEQUENCE_LOCKTIME_DISABLE_FLAG ≠ 0 then 0 else p.2)) = some common ∧
      coin.nHeight ≤ H.store.tree.nHeight common := by
  have hcoinle := nHeight_le_of_utxo hcoin
  have hmax : H.maxInputHeight s ((vin.zip heights).map fun p =>
      if p.1.nSequence &&& SEQUENCE_LOCKTIME_DISABLE_FLAG ≠ 0 then 0 else p.2) ≤ H.store.tree.nHeight s.tip := by
    apply foldl_max_le _ (zero_le _)
    intro height hheight
    obtain ⟨hheight, hne⟩ := mem_filter.1 hheight
    obtain ⟨p, hp, rfl⟩ := List.mem_map.1 hheight
    have hle := prevHeight_le (forall₂_zip (forall₂_of_mapM hheights) hp)
    have hne := of_decide_eq_true hne
    split_ifs at hne ⊢
    · exact zero_le _
    · omega
  obtain ⟨common, hcommon⟩ := H.store.tree.exists_getAncestor hmax
  obtain ⟨-, hheight⟩ := H.store.tree.getAncestor_eq_some.1 hcommon
  refine ⟨common, hcommon, le_trans ?_ hheight.ge⟩
  apply le_foldl_max
  refine .inl (mem_filter.2 ⟨List.mem_map.2 ⟨_, hmem, if_neg hdisabled⟩, ?_⟩)
  rw [decide_eq_true_iff]
  omega

/-- **Lock points are sound from one tip to another** that has the block they name. -/
theorem lockPoints_sound [DecidableEq ι] (hfresh : ∀ pindex, H.store.tree.nHeight pindex ≠ 0 → H.store.Fresh pindex)
    {lp : LockPoints ι} (hstored : H.checkSequenceLocks s fVerifySequence tx = some (lp, true))
    (hspent : ∀ pindex ∈ H.store.tree.path s'.tip, ∀ tx' ∈ (H.store.readBlock pindex).vtx, ∀ o ∈ inputs tx',
      o ∈ tx.prevouts → pindex ∈ H.store.tree.path s.tip)
    (hapart : ∀ o ∈ tx.prevouts, (H.store.utxo (some s'.tip) o).isSome → ∀ e ∈ s'.mapTx, e.tx.hash ≠ o.hash)
    (hvalid : H.testLockPointValidity s' lp = true) (hexisting : H.checkExisting s' fVerifySequence lp = true)
    (hagain : H.checkSequenceLocks s' fVerifySequence tx = some r) : r.2 = true := by
  obtain ⟨heights, hheights, hlp⟩ := map_eq_some_iff.1 hstored
  obtain ⟨heights', hheights', rfl⟩ := map_eq_some_iff.1 hagain
  obtain ⟨rfl, hpassed⟩ := Prod.mk.inj hlp
  by_cases henforce : (decide (tx.nVersion % 2 ^ 32 ≥ 2) && fVerifySequence) = true
  · have hlocks := calculateSequenceLocks_enforced (H.nextContext s.tip fVerifySequence) henforce heights
    have hlocks' := calculateSequenceLocks_enforced (H.nextContext s'.tip fVerifySequence) henforce heights'
    simp only [hlocks, hlocks', checkExisting, evaluateSequenceLocks_iff, sequenceLockLoop_lt_iff] at hpassed hexisting hvalid ⊢
    refine ⟨hexisting.1, fun p hp => ?_⟩
    obtain ⟨txin, height'⟩ := p
    have hheight' : H.prevHeight s' txin.prevout = some height' := forall₂_zip (forall₂_of_mapM hheights') hp
    obtain ⟨height, hheight, hmem⟩ := exists_mem_zip_of_mapM hheights (of_mem_zip hp).1
    by_cases hdisabled : txin.nSequence &&& SEQUENCE_LOCKTIME_DISABLE_FLAG ≠ 0
    · rw [InputBelow, if_pos hdisabled]
      trivial
    rcases prevHeight_cases hheight with rfl | ⟨coin, hcoin, rfl, hconfirmed⟩
    · exact inputBelow_of_pool (hpassed.2 _ hmem) (prevHeight_le hheight')
    · -- the block of the lock points is not below the coin
      obtain ⟨common, hcommon, hle⟩ := exists_maxInputBlock hheights hmem hdisabled hcoin
      rw [hcommon] at hvalid
      obtain ⟨hpath, -⟩ := H.store.tree.getAncestor_eq_some.1 hcommon
      obtain ⟨hpath', -⟩ := H.store.tree.getAncestor_eq_some.1 (of_decide_eq_true hvalid)
      have hprevout : txin.prevout ∈ tx.prevouts := List.mem_map_of_mem (of_mem_zip hp).1
      have hcoin' := utxo_of_common hfresh hpath hpath' hcoin hle fun pindex hmem' tx' htx' ho =>
        hspent pindex hmem' tx' htx' _ ho hprevout
      rw [prevHeight, getCoin_of_ne (hapart _ hprevout (isSome_of_eq_some hcoin')), hcoin', map_some,
        if_neg hconfirmed] at hheight'
      cases hheight'
      exact (inputBelow_congr hpath hpath' hle).1 (hexisting.2 _ hmem)
  · have hlocks' : calculateSequenceLocks (H.nextContext s'.tip fVerifySequence) tx heights' = ((-1, -1), heights') :=
      if_neg henforce
    simp only [hlocks', evaluateSequenceLocks_iff]
    simp only [nextContext]
    omega

/-! ## Runs -/

/-- What the events keep: lock points come from a call that returned true, and no block that was connected since spends
an input of their transaction. -/
def Kept (H : ChainHistory ι) (fVerifySequence : Bool) (s : TipState ι) : Prop :=
  ∀ e ∈ s.mapTx, ∃ s₀, H.checkSequenceLocks s₀ fVerifySequence e.tx = some (e.lockPoints, true) ∧
    ∀ pindex ∈ H.store.tree.path s.tip, ∀ tx ∈ (H.store.readBlock pindex).vtx, ∀ o ∈ inputs tx,
      o ∈ e.tx.prevouts → pindex ∈ H.store.tree.path s₀.tip

section Steps

variable [DecidableEq ι]

lemma Kept.reorgEntry (h : H.Kept fVerifySequence s) {e e' : LockedTx ι} (he : e ∈ s.mapTx)
    (hentry : H.reorgEntry fVerifySequence s e = some e') :
    ∃ s₀, H.checkSequenceLocks s₀ fVerifySequence e'.tx = some (e'.lockPoints, true) ∧
      ∀ pindex ∈ H.store.tree.path s.tip, ∀ tx ∈ (H.store.readBlock pindex).vtx, ∀ o ∈ inputs tx,
        o ∈ e'.tx.prevouts → pindex ∈ H.store.tree.path s₀.tip := by
  rw [ChainHistory.reorgEntry] at hentry
  split_ifs at hentry
  · cases hentry
    exact h e he
  · split at hentry
    · rename_i lp hcheck
      cases hentry
      exact ⟨s, hcheck, fun pindex hpath _ _ _ _ _ => hpath⟩
    · cases hentry

lemma Kept.step (h : H.Kept fVerifySequence s) {event : PoolEvent ι}
    (hstep : H.step fVerifySequence s event = some s') : H.Kept fVerifySequence s' := by
  cases event with
  | accept tx keep =>
    rw [ChainHistory.step] at hstep
    split_ifs at hstep
    split at hstep
    · rename_i lp hcheck
      cases hstep
      exact forall_mem_cons.2 ⟨⟨s, hcheck, fun pindex hpath _ _ _ _ _ => hpath⟩, fun e he => h e (mem_of_mem_filter he)⟩
    · cases hstep
  | remove keep =>
    cases hstep
    exact fun e he => h e (mem_of_mem_filter he)
  | connect pindex keep =>
    rw [ChainHistory.step] at hstep
    split_ifs at hstep with hpprev
    cases hstep
    intro e he
    obtain ⟨hin, hkept⟩ := mem_filter.1 he
    obtain ⟨s₀, hcheck, hspent⟩ := h e hin
    refine ⟨s₀, hcheck, fun pindex' hpath tx htx o ho hprevout => ?_⟩
    rcases H.store.tree.forest.mem_path_iff.1 hpath with rfl | ⟨p, hp, hbelow⟩
    · -- a transaction with that input is a conflict, and removed
      have hsurvives := List.all_eq_true.1 (Bool.and_eq_true_iff.1 hkept).1 tx htx
      have hmem : o ∈ tx.prevouts := by
        rw [inputs] at ho
        split_ifs at ho
        · cases ho
        · exact ho
      have hnot := List.all_eq_true.1 (Bool.and_eq_true_iff.1 hsurvives).2 o hmem
      simp [hprevout] at hnot
    · have heq : p = s.tip := Option.some.inj (hp.symm.trans hpprev)
      exact hspent pindex' (heq ▸ hbelow) tx htx o ho hprevout
  | disconnect =>
    obtain ⟨pprev, hpprev, rfl⟩ := map_eq_some_iff.1 hstep
    intro e he
    obtain ⟨s₀, hcheck, hspent⟩ := h e he
    exact ⟨s₀, hcheck, fun pindex hpath => hspent pindex (H.store.tree.forest.mem_path_of_parent hpprev hpath)⟩
  | removeForReorg keep =>
    cases hstep
    intro e' he'
    obtain ⟨e, he, hentry⟩ := mem_filterMap.1 (mem_of_mem_filter he')
    exact h.reorgEntry he hentry

lemma Kept.run (h : H.Kept fVerifySequence s) {events : List (PoolEvent ι)}
    (hrun : H.run fVerifySequence s events = some s') : H.Kept fVerifySequence s' := by
  induction events generalizing s with
  | nil =>
    cases hrun
    exact h
  | cons event events ih =>
    obtain ⟨s₁, hstep, hrest⟩ := bind_eq_some_iff.1 hrun
    exact ih (h.step hstep) hrest

/-- **Lock points stay sound**: at every tip of a run, a transaction whose lock points are valid and passed would pass
them if they were computed again, provided that its inputs are available, that the pool has no transaction of which the
chain has the coin an input spends, and that blocks outside BIP30 do not overwrite coins either. -/
theorem run_lockPoints_sound (H : ChainHistory ι) (fVerifySequence : Bool) (tip : ι) (events : List (PoolEvent ι))
    (s : TipState ι)
    (hover : ∀ pindex ctx, H.store.ContextOf H.BIP34Height pindex ctx → enforceBIP30 H.params ctx = false →
      H.store.Fresh pindex)
    (hrun : H.run fVerifySequence ⟨tip, []⟩ events = some s) :
    ∀ e ∈ s.mapTx,
      (∀ o ∈ e.tx.prevouts, (H.store.utxo (some s.tip) o).isSome → ∀ e' ∈ s.mapTx, e'.tx.hash ≠ o.hash) →
      H.testLockPointValidity s e.lockPoints = true → H.checkExisting s fVerifySequence e.lockPoints = true →
      ∀ r, H.checkSequenceLocks s fVerifySequence e.tx = some r → r.2 = true := by
  have hfresh : ∀ pindex, H.store.tree.nHeight pindex ≠ 0 → H.store.Fresh pindex := by
    intro pindex hheight
    obtain ⟨ctx, hctx⟩ := H.store.exists_contextOf H.BIP34Height pindex
    cases henforce : enforceBIP30 H.params ctx with
    | true => exact H.bip30 pindex ctx hheight hctx henforce
    | false => exact hover pindex ctx hctx henforce
  have hkept : H.Kept fVerifySequence s := Kept.run (fun e he => (not_mem_nil he).elim) hrun
  intro e he hapart hvalid hexisting r hagain
  obtain ⟨s₀, hstored, hspent⟩ := hkept e he
  exact lockPoints_sound hfresh hstored hspent hapart hvalid hexisting hagain

end Steps

end ChainHistory

/-! ## The start of a test chain -/

namespace Testnet

lemma checkBlock_block : ∀ n < 288, checkBlock env ⟨hash n, 0, vtx n⟩ true true = .ok () := by decide +kernel

lemma contextualCheckBlock_block {n : ℕ} (hn : n < 287) (t : ℤ) :
    contextualCheckBlock ⟨fun _ => 0, fun _ => 0⟩ ⟨some (n, t), .defined, .active, (n + 1 : ℕ), 286⟩
      ⟨hash (n + 1), 0, vtx (n + 1)⟩ = .ok () := by
  have hall : ∀ n < 287, contextualCheckBlock ⟨fun _ => 0, fun _ => 0⟩ ⟨some (n, 0), .defined, .active, (n + 1 : ℕ), 286⟩
    ⟨hash (n + 1), 0, vtx (n + 1)⟩ = .ok () := by decide +kernel
  exact hall n hn

section

variable {n : ℕ} (hn : n < 288)

lemma getMedianTimePast_lt {i : Fin (n + 1)} {m : ℕ} (h : i.val < m) :
    (tree n).getMedianTimePast (fun i => i.val) i < m := by
  by_contra hle
  have hrank := (le_ranked_iff ((tree n).ranked_medianWindow (fun i => i.val) i)).1 (Nat.le_of_not_lt hle)
  have hall : ((tree n).medianWindow (fun i => i.val) i).countP (· < m) =
      ((tree n).medianWindow (fun i => i.val) i).length := by
    rw [countP_eq_length]
    intro t ht
    obtain ⟨j, hj, rfl⟩ := List.mem_map.1 ht
    have hji : j.val ≤ i.val := (tree n).forest.depth_le_of_mem_path (mem_of_mem_take hj)
    rw [decide_eq_true_iff]
    exact lt_of_le_of_lt hji h
  have hpos := (tree n).medianWindow_pos (fun i => i.val) i
  omega

/-- The first blocks of the test network, up to height `n`. -/
def history : ChainHistory (Fin (n + 1)) where
  store := store n hn
  nTime i := i.val
  params := ⟨0, BIP34Hash⟩
  BIP34Height := 286
  env := env
  hashers := ⟨fun _ => 0, fun _ => 0⟩
  deployments _ := (.defined, .active)
  not_too_old i p hp := getMedianTimePast_lt (by rw [val_of_pprev hp]; exact lt_add_one _)
  checkBlock i _ := checkBlock_block i (val_lt hn i)
  contextualCheckBlock i p hp := by
    have hval := val_of_pprev hp
    have hcheck := contextualCheckBlock_block (n := p.val) (by omega) ((tree n).getMedianTimePast (fun i => i.val) p)
    rw [← hval] at hcheck
    exact hcheck
  available i hi before tx after hvtx o ho := by
    have htx : tx ∈ vtx i := by
      rw [show vtx i = before ++ tx :: after from hvtx]
      exact List.mem_append_right _ List.mem_cons_self
    rcases mem_vtx.1 htx with rfl | ⟨h26, rfl⟩
    · cases ho
    · obtain rfl : o = ⟨2, 0⟩ := mem_singleton.1 ho
      obtain ⟨p, hp⟩ := (tree n).forest.exists_parent hi
      have hval := val_of_pprev hp
      have hbefore : before = [coinbase (source 26)] := by
        have hvtx : vtx i = before ++ parent :: after := hvtx
        rw [h26] at hvtx
        have hvtx : [coinbase (source 26), parent] = before ++ parent :: after := hvtx
        rcases before with _ | ⟨a, _ | ⟨b, before⟩⟩
        · exact absurd (List.cons.inj hvtx).1 (by decide)
        · rw [(List.cons.inj hvtx).1]
        · simp at hvtx
      have hcoin : (applyTxs 26 (coinsOf vtx 25) [coinbase (source 26)] ⟨2, 0⟩).isSome = true := by decide +kernel
      show (applyTxs i.val ((store n hn).utxoOf ((tree n).path i).tail) before ⟨2, 0⟩).isSome = true
      rw [store, utxoOf_tail hn hp, hbefore, h26, show p.val = 25 by omega]
      exact hcoin
  bip30 i ctx hi hctx henforce := by
    refine fresh hn hi fun hlast => ?_
    -- block 286 switches the check off
    obtain ⟨p, hp⟩ := (tree n).forest.exists_parent hi
    have hval := val_of_pprev hp
    have hself : (tree n).getAncestor p 286 = some p := (tree n).getAncestor_eq_some.2
      ⟨(tree n).forest.self_mem_path p, show p.val = 286 by omega⟩
    have hhash : ctx.hashBIP34height = some BIP34Hash := by
      have hp : (store n hn).tree.pprev i = some p := hp
      rw [hctx.hashBIP34height, hp, bind_some]
      show ((tree n).getAncestor p 286).map _ = _
      rw [hself, map_some]
      show some (hash p.val) = _
      rw [show p.val = 286 by omega]
      rfl
    rw [enforceBIP30, hhash] at henforce
    simp at henforce

end

/-- A lock of ten blocks on the coin of `parent`, with a block that is connected, disconnected and connected again. -/
theorem run_lockPoints_sound_reconnect :
    let H := history (n := 52) (by decide)
    let e : LockedTx (Fin 53) := ⟨spend 1001 1000 10, ⟨35, -1, some 26⟩⟩
    H.run true ⟨50, []⟩ [.accept e.tx fun _ => true, .connect 51 fun _ => true, .disconnect,
        .removeForReorg fun _ => true, .connect 51 fun _ => true, .connect 52 fun _ => true] = some ⟨52, [e]⟩ ∧
      ∃ r, H.checkSequenceLocks ⟨52, [e]⟩ true e.tx = some r ∧ r.2 = true := by
  intro H e
  have hrun : H.run true ⟨50, []⟩ [.accept e.tx fun _ => true, .connect 51 fun _ => true, .disconnect,
      .removeForReorg fun _ => true, .connect 51 fun _ => true, .connect 52 fun _ => true] = some ⟨52, [e]⟩ := by
    decide +kernel
  have hover : ∀ pindex ctx, H.store.ContextOf H.BIP34Height pindex ctx → enforceBIP30 H.params ctx = false →
      H.store.Fresh pindex := by
    intro pindex ctx hctx henforce
    have hnone : ctx.hashBIP34height = none := by
      rw [hctx.hashBIP34height, Option.map_eq_none_iff]
      cases H.store.tree.pprev pindex with
      | none => rfl
      | some p => exact if_neg (show ¬ 286 ≤ p.val by omega)
    have hheight : ctx.nHeight = pindex.val := hctx.nHeight
    have hearly : (ctx.nHeight == 91842) = false ∧ (ctx.nHeight == 91880) = false := by
      rw [beq_eq_false_iff_ne, beq_eq_false_iff_ne]
      omega
    rw [enforceBIP30, hnone, hearly.1, hearly.2] at henforce
    simp at henforce
  refine ⟨hrun, _, rfl, H.run_lockPoints_sound true 50 _ ⟨52, [e]⟩ hover hrun e (mem_singleton.2 rfl) ?_ ?_ ?_ _ rfl⟩
  · decide +kernel
  · decide +kernel
  · decide +kernel

/-- **Lock points are not sound where a coin is overwritten, nor where the pool has its transaction once more.** Block
287 has the coinbase of block 2 again, which a transaction of the pool spends with a lock of 100 blocks. Block 27 has the
spent coinbase of block 1 again, so that the pool accepts `parent` again, whose coin a transaction of the pool spends. -/
theorem run_lockPoints_unsound :
    (∃ s e lp, (history (n := 287) (by decide)).run true ⟨286, []⟩
        [.accept (spend 1001 3 100) fun _ => true, .connect 287 fun _ => true] = some s ∧ e ∈ s.mapTx ∧
      (history (n := 287) (by decide)).testLockPointValidity s e.lockPoints = true ∧
      (history (n := 287) (by decide)).checkExisting s true e.lockPoints = true ∧
      (history (n := 287) (by decide)).checkSequenceLocks s true e.tx = some (lp, false)) ∧
    (∃ s e lp, (history (n := 51) (by decide)).run true ⟨50, []⟩
        [.accept (spend 1001 1000 10) fun _ => true, .connect 51 fun _ => true, .accept parent fun _ => true] = some s ∧
      e ∈ s.mapTx ∧ (history (n := 51) (by decide)).testLockPointValidity s e.lockPoints = true ∧
      (history (n := 51) (by decide)).checkExisting s true e.lockPoints = true ∧
      (history (n := 51) (by decide)).checkSequenceLocks s true e.tx = some (lp, false)) := by
  refine ⟨⟨⟨287, [⟨spend 1001 3 100, ⟨101, -1, some 2⟩⟩]⟩, ⟨spend 1001 3 100, ⟨101, -1, some 2⟩⟩,
    ⟨386, -1, some 287⟩, ?_⟩, ⟨⟨51, [⟨parent, ⟨-1, -1, some 0⟩⟩, ⟨spend 1001 1000 10, ⟨35, -1, some 26⟩⟩]⟩,
    ⟨spend 1001 1000 10, ⟨35, -1, some 26⟩⟩, ⟨61, -1, some 0⟩, ?_⟩⟩
  · refine ⟨?_, mem_singleton.2 rfl, ?_, ?_, ?_⟩
    · decide +kernel
    · decide +kernel
    · decide +kernel
    · decide +kernel
  · refine ⟨?_, by simp, ?_, ?_, ?_⟩
    · decide +kernel
    · decide +kernel
    · decide +kernel
    · decide +kernel

end Testnet

end Soferox
