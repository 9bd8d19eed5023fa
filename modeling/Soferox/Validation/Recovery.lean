import Soferox.Validation.Replay

/-!
# Recovery after a crash

* `ReplayPlan` — the blocks that the two loops of `ReplayBlocks` visit; `ReplayPlan.replayBlocks` — what it leaves;
* `replayBlocks_recovers` — from every state that a crash can leave, `ReplayBlocks` gets to the new tip, if the blocks
  that it takes back overwrite no coin and list no input twice (`Reversible`);
* `Testnet.replayBlocks_fails` — what happens otherwise, and before the first batch, at the start of a test chain.
-/

namespace Soferox

open Lib CCoinsViewCache CCoinsViewDB UtxoMap List Option BlockStore

section

variable {ι : Type} {S : BlockStore ι} {d : CCoinsViewDB} {l : List ι} [DecidableEq ι] {new : ι} {old : Option ι}

/-- The blocks that a flush from `old` to `new` is about: one tree, with the blocks on the two branches connected. -/
structure Branches (S : BlockStore ι) (old : Option ι) (new : ι) : Prop where
  sameTree : ∀ tip ∈ old, ∃ root, root ∈ S.tree.path tip ∧ root ∈ S.tree.path new
  connectedOld : ∀ tip ∈ old, ∀ pindex ∈ S.tree.path tip, pindex ∉ S.tree.path new → S.Connected pindex
  connectedNew : ∀ pindex ∈ S.tree.path new, S.tree.nHeight pindex ≠ 0 → (∀ tip ∈ old, pindex ∉ S.tree.path tip) →
    S.Connected pindex

/-- The database holds the coins of the old tip, and the cache to be flushed shows those of the new one. -/
structure Flushing (S : BlockStore ι) (old : Option ι) (new : ι) (layer : CacheLayer) (d₀ : CCoinsViewDB) : Prop where
  branches : Branches S old new
  holds : HoldsTip S old d₀
  coherent : layer.Coherent (.db d₀)
  coins : (CCoinsView.cache layer (.db d₀)).unspent = S.utxo (some new)

/-- The blocks to take back overwrite no coin, and no transaction there lists an input twice. -/
def Reversible (S : BlockStore ι) (old : Option ι) (new : ι) : Prop :=
  ∀ tip ∈ old, ∀ pindex ∈ S.tree.path tip, pindex ∉ S.tree.path new →
    S.Fresh pindex ∧ ∀ tx ∈ (S.readBlock pindex).vtx, tx.prevouts.Nodup

/-- The blocks that the two loops of `ReplayBlocks` visit. -/
structure ReplayPlan (S : BlockStore ι) (old : Option ι) (new : ι) where
  fork : Option ι
  back : List ι
  forth : List ι
  rest : List ι
  fork_eq : replayFork S new (S.tipHash old) = .ok (old, fork)
  old_eq : old.elim [] S.tree.path = back ++ rest
  stop : ∀ w, rollbackBlocks S fork rest w = .ok ((), w)
  rollable : ∀ pindex ∈ back, S.Rollable pindex ∧ some pindex ≠ fork
  heights : (List.range' (fork.elim 0 S.tree.nHeight + 1) (S.tree.nHeight new - fork.elim 0 S.tree.nHeight)).map
    (S.tree.getAncestor new) = forth.reverse.map some
  nonneg : ∀ pindex ∈ forth, ∀ tx ∈ (S.readBlock pindex).vtx, ∀ out ∈ tx.vout, 0 ≤ out.nValue

omit [DecidableEq ι] in
/-- The blocks of a path above one of its blocks are not at height 0. -/
theorem BlockTree.above_path (T : BlockTree ι) {tip c pindex : ι} (hl : l ++ T.path c = T.path tip) (hp : pindex ∈ l) :
    pindex ∉ T.path c ∧ T.nHeight pindex ≠ 0 := by
  have hnd : (l ++ T.path c).Nodup := by
    rw [hl]
    exact T.forest.path_nodup tip
  have hnot : pindex ∉ T.path c := disjoint_of_nodup_append hnd hp
  have hin : pindex ∈ T.path tip := hl ▸ mem_append_left _ hp
  have hcin : c ∈ T.path tip := hl ▸ mem_append_right _ (T.forest.self_mem_path c)
  refine ⟨hnot, fun h0 => hnot ?_⟩
  exact T.forest.mem_path_of_depth_le hcin hin (le_of_eq_of_le h0 (Nat.zero_le _))

/-- The plan for two branches that part at `c`. -/
def ReplayPlan.ofFork {old c : ι} {back forth : List ι} (hlca : S.tree.lastCommonAncestor old new = some c)
    (hback : back ++ S.tree.path c = S.tree.path old) (hforth : forth ++ S.tree.path c = S.tree.path new)
    (hroll : ∀ pindex ∈ back, S.Rollable pindex)
    (hnonneg : ∀ pindex ∈ forth, ∀ tx ∈ (S.readBlock pindex).vtx, ∀ out ∈ tx.vout, 0 ≤ out.nValue) :
    ReplayPlan S (some old) new where
  fork := some c
  back := back
  forth := forth
  rest := S.tree.path c
  fork_eq := replayFork_eq hlca
  old_eq := hback.symm
  stop w := by
    obtain ⟨rest, hrest⟩ : ∃ rest, S.tree.path c = c :: rest := by
      cases hp : S.tree.forest.parent c with
      | none => exact ⟨[], S.tree.forest.path_of_root hp⟩
      | some p => exact ⟨_, S.tree.forest.path_of_parent hp⟩
    rw [hrest, rollbackBlocks, if_pos rfl]
    rfl
  rollable pindex hp := by
    refine ⟨hroll pindex hp, fun heq => (S.tree.above_path hback hp).1 ?_⟩
    rw [some.inj heq]
    exact S.tree.forest.self_mem_path c
  heights := S.tree.forest.map_ancestorAt hforth.symm
  nonneg := hnonneg

/-- **The cache of `ReplayBlocks`** has the old branch rolled back and the new one rolled forward, on any coins. -/
theorem ReplayPlan.replayCache (P : ReplayPlan S old new) (hheads : d.headBlocks = [S.hash new, S.tipHash old]) :
    ∃ cache, replayCache S d = .ok (some cache) ∧ cache.Coherent ∧ cache.base = .db d ∧
      cache.layer.hashBlock = S.hash new ∧
      cache.unspent = S.rollforward P.forth.reverse (S.rollback P.back (CCoinsView.db d).unspent) := by
  obtain ⟨w, hback, hw, hwd, hwun⟩ := rollbackBlocks_coherent (coherent_empty 0 d) rfl P.rollable P.stop
  obtain ⟨u, hforth, hu, hud, huun⟩ := rollforwardBlocks_coherent hw hwd P.heights fun pindex hp =>
    P.nonneg pindex (mem_reverse.1 hp)
  refine ⟨u.setBestBlock (S.hash new), ?_, (setBestBlock_sameCoins u _).coherent hu, hud, rfl, ?_⟩
  · have hsteps : replaySteps S new old P.fork ⟨⟨0, ∅, 0⟩, .db d⟩ = .ok ((), u.setBestBlock (S.hash new)) := by
      rw [replaySteps, P.old_eq]
      exact run_bind_eq_ok.2 ⟨(), w, hback, run_bind_eq_ok.2 ⟨(), u, hforth, rfl⟩⟩
    rw [Soferox.replayCache, hheads]
    simp only [S.mapBlockIndex_hash, P.fork_eq, hsteps]
  · show u.unspent = _
    rw [huun, hwun]
    rfl

/-- What `ReplayBlocks` leaves. -/
theorem ReplayPlan.replayBlocks (P : ReplayPlan S old new) (hheads : d.headBlocks = [S.hash new, S.tipHash old]) :
    ∃ d', replayBlocks S d = .ok (.db d') ∧ d'.bestBlock = S.hash new ∧ d'.headBlocks = [] ∧
      (CCoinsView.db d').unspent = S.rollforward P.forth.reverse (S.rollback P.back (CCoinsView.db d).unspent) := by
  obtain ⟨cache, hrun, hc, hbase, hhash, hun⟩ := P.replayCache hheads
  have hw : d.writable (S.hash new) = true := by
    rw [writable, hheads]
    simpa using S.hash_ne_zero new
  have hlayer : cache.layer.Coherent (.db d) := hbase ▸ hc.1
  obtain ⟨d', hwrite, hun', hbest, hheads'⟩ := batchWrite_db hlayer hw
  have hflush : cache.flush = .ok ⟨{ cache.layer with cacheCoins := ∅, cachedCoinsUsage := 0 }, .db d'⟩ := by
    simp only [CCoinsViewCache.flush, hbase, hhash, hwrite]
    rfl
  refine ⟨d', ?_, hbest, hheads', ?_⟩
  · rw [Soferox.replayBlocks, hrun]
    simp [hflush]
  · rw [hun', ← hun, ← hbase]
    rfl

omit [DecidableEq ι] in
lemma Branches.rollforward (h : Branches S old new) {c : ι} {forth : List ι}
    (hforth : forth ++ S.tree.path c = S.tree.path new)
    (hold : ∀ pindex ∈ forth, ∀ tip ∈ old, pindex ∉ S.tree.path tip) :
    (∀ pindex ∈ forth, ∀ tx ∈ (S.readBlock pindex).vtx, ∀ out ∈ tx.vout, 0 ≤ out.nValue) ∧
      S.rollforward forth.reverse (S.utxoOf (S.tree.path c)) = S.utxo (some new) := by
  have hne : ∀ pindex ∈ forth, S.tree.nHeight pindex ≠ 0 := fun pindex hp => (S.tree.above_path hforth hp).2
  refine ⟨fun pindex hp => ?_, ?_⟩
  · exact (h.connectedNew pindex (hforth ▸ mem_append_left _ hp) (hne pindex hp) (hold pindex hp)).nonneg
  · rw [rollforward_utxoOf hne, hforth]
    rfl

lemma Branches.exists_plan_none (h : Branches S none new) : ∃ P : ReplayPlan S none new,
    ∃ m, S.rollback P.back (S.utxo none) = m ∧ S.rollforward P.forth.reverse m = S.utxo (some new) := by
  obtain ⟨root, hroot⟩ := S.tree.forest.exists_ancestorAt (Nat.zero_le (S.tree.forest.depth new))
  obtain ⟨hmem, hzero⟩ := S.tree.forest.ancestorAt_eq_some.1 hroot
  have hpath : S.tree.path root = [root] := S.tree.forest.path_of_root (S.tree.forest.parent_of_depth_zero hzero)
  obtain ⟨forth, hforth⟩ : ∃ l, l ++ S.tree.path root = S.tree.path new := S.tree.forest.path_suffix hmem
  have hheights := S.tree.forest.map_ancestorAt hforth.symm
  rw [hzero] at hheights
  obtain ⟨hnonneg, hrollforward⟩ := h.rollforward hforth nofun
  refine ⟨⟨none, [], forth, [], if_pos rfl, rfl, fun _ => rfl, nofun, hheights, hnonneg⟩, _, ?_, hrollforward⟩
  rw [hpath, utxoOf, if_pos (show S.tree.nHeight root = 0 from hzero)]
  rfl

lemma Branches.exists_plan_some {old : ι} (h : Branches S (some old) new) (hrev : Reversible S (some old) new) :
    ∃ P : ReplayPlan S (some old) new, ∃ m, S.rollback P.back (S.utxo (some old)) = m ∧
      S.rollforward P.forth.reverse m = S.utxo (some new) := by
  obtain ⟨root, hro, hrn⟩ := h.sameTree old rfl
  obtain ⟨c, hlca, hco, hcn, hmax⟩ := S.tree.lastCommonAncestor_spec hro hrn
  obtain ⟨back, hback⟩ : ∃ l, l ++ S.tree.path c = S.tree.path old := S.tree.forest.path_suffix hco
  obtain ⟨forth, hforth⟩ : ∃ l, l ++ S.tree.path c = S.tree.path new := S.tree.forest.path_suffix hcn
  have hroll : ∀ pindex ∈ back, S.Rollable pindex ∧ S.UndoneBy pindex := by
    intro pindex hp
    obtain ⟨hnot, hne⟩ := S.tree.above_path hback hp
    have hin : pindex ∈ S.tree.path old := hback ▸ mem_append_left _ hp
    have hnew : pindex ∉ S.tree.path new := fun hn => hnot (hmax pindex hin hn)
    obtain ⟨hfresh, hnd⟩ := hrev old rfl pindex hin hnew
    exact (h.connectedOld old rfl pindex hin hnew).rollable hne hfresh hnd
  obtain ⟨hnonneg, hrollforward⟩ := h.rollforward hforth fun pindex hp tip htip hin => by
    cases htip
    exact (S.tree.above_path hforth hp).1 (hmax pindex hin (hforth ▸ mem_append_left _ hp))
  refine ⟨.ofFork hlca hback hforth (fun pindex hp => (hroll pindex hp).1) hnonneg, _, ?_, hrollforward⟩
  show S.rollback back (S.utxoOf (S.tree.path old)) = _
  rw [← hback]
  exact rollback_utxoOf ⟨[], hback⟩ hroll

/-- **One replay.** On a database in transition, there is a plan that leads to the coins of the new tip. -/
theorem InTransition.exists_plan (h : InTransition S old new d) (hbranches : Branches S old new)
    (hrev : Reversible S old new) : ∃ P : ReplayPlan S old new,
      S.rollforward P.forth.reverse (S.rollback P.back (CCoinsView.db d).unspent) = S.utxo (some new) := by
  obtain ⟨P, m, hrollback, hrollforward⟩ : ∃ P : ReplayPlan S old new, ∃ m, S.rollback P.back (S.utxo old) = m ∧
      S.rollforward P.forth.reverse m = S.utxo (some new) := by
    cases old with
    | none => exact hbranches.exists_plan_none
    | some tip => exact hbranches.exists_plan_some hrev
  exact ⟨P, (isOverwrite_rollback P.back).recover (isOverwrite_rollforward P.forth.reverse) hrollback hrollforward h.coins⟩

lemma CrashState.cases {layer : CacheLayer} {d₀ : CCoinsViewDB} (hf : Flushing S old new layer d₀)
    (hrev : Reversible S old new) (h : CrashState S layer.cacheCoins (S.hash new) d₀ d) :
    InTransition S old new d ∨ HoldsTip S (some new) d := by
  induction h with
  | flush hflush =>
    refine hflush.cases ?_ (fun o => .inl (congrFun hf.holds.coins o)) hf.coherent hf.coins
    exact hf.holds.oldTip
  | @replay d d' cache _ hrun hflush ih =>
    rcases ih with htrans | htip
    · obtain ⟨P, hplan⟩ := htrans.exists_plan hf.branches hrev
      obtain ⟨cache', hrun', hc, hbase, hhash, hun⟩ := P.replayCache htrans.headBlocks
      rw [hrun] at hrun'
      cases hrun'
      rw [hhash] at hflush
      refine hflush.cases ?_ htrans.coins (hbase ▸ hc.1) ?_
      · rw [oldTip, if_pos ⟨htrans.bestBlock, by rw [htrans.headBlocks]; rfl⟩, htrans.headBlocks]
        rfl
      · rw [← hplan, ← hun, CCoinsViewCache.unspent, CCoinsViewCache.view, hbase]
    · -- nothing is left to replay
      rw [Soferox.replayCache, htip.headBlocks] at hrun
      cases hrun

/-- **Crash recovery.** After a flush that stopped after its first batch or later, and any number of replays that
stopped so, `ReplayBlocks` succeeds, and the database then holds the UTXO set of the new tip. -/
theorem replayBlocks_recovers {old : Option ι} {new : ι} {layer : CacheLayer} {d₀ d : CCoinsViewDB}
    (hf : Flushing S old new layer d₀) (hrev : Reversible S old new)
    (hcrash : CrashState S layer.cacheCoins (S.hash new) d₀ d) :
    ∃ d', replayBlocks S d = .ok (.db d') ∧ HoldsTip S (some new) d' := by
  rcases hcrash.cases hf hrev with htrans | htip
  · obtain ⟨P, hplan⟩ := htrans.exists_plan hf.branches hrev
    obtain ⟨d', hrun, hbest, hheads, hun⟩ := P.replayBlocks htrans.headBlocks
    exact ⟨d', hrun, hbest, hheads, hun.trans hplan⟩
  · refine ⟨d, ?_, htip⟩
    rw [replayBlocks, replayCache, htip.headBlocks]

/-- The first batch may have no entry. -/
lemma Flushing.crashState_first {layer : CacheLayer} {d₀ : CCoinsViewDB} (h : Flushing S old new layer d₀) :
    CrashState S layer.cacheCoins (S.hash new) d₀ (d₀.beginBatch (S.hash new)) :=
  .flush (.inl ⟨writable_of_headBlocks h.holds.headBlocks (S.hash_ne_zero new), [], nil_subperm, rfl⟩)

omit [DecidableEq ι] in
/-- A block and its parent. -/
theorem Branches.ofParent {pindex pprev : ι} (hp : S.tree.pprev pindex = some pprev) (h : S.Connected pindex) :
    Branches S (some pindex) pprev where
  sameTree := by
    rintro _ ⟨⟩
    exact ⟨pprev, S.tree.forest.mem_path_of_parent hp (S.tree.forest.self_mem_path _), S.tree.forest.self_mem_path _⟩
  connectedOld := by
    rintro _ ⟨⟩ b hb hnot
    rcases S.tree.forest.mem_path_iff.1 hb with rfl | ⟨p, hp', hbelow⟩
    · exact h
    · cases hp.symm.trans hp'
      exact absurd hbelow hnot
  connectedNew := fun b hb _ hnot => absurd (S.tree.forest.mem_path_of_parent hp hb) (hnot _ rfl)

end

/-! ## The start of a test chain -/

lemma CTransaction.outputCoin_eq_some {tx : CTransaction} {nHeight : ℕ} {o : COutPoint} {coin : Coin}
    (h : tx.outputCoin nHeight o = some coin) : tx.hash = o.hash ∧ o.n < tx.vout.length ∧ coin.nHeight = nHeight := by
  obtain ⟨hhash, hn⟩ := outputCoinFrom_isSome (isSome_of_eq_some h)
  exact ⟨hhash.symm, hn, (outputCoinFrom_eq_some h).1⟩

lemma UtxoMap.applyTxs_untouched {m : UtxoMap} {vtx : List CTransaction} {nHeight : ℕ} {o : COutPoint}
    (h : ∀ tx ∈ vtx, o ∉ inputs tx ∧ tx.outputCoin nHeight o = none) : applyTxs nHeight m vtx o = m o := by
  induction vtx generalizing m with
  | nil => rfl
  | cons tx vtx ih =>
    obtain ⟨⟨hspend, hcreate⟩, hrest⟩ := forall_mem_cons.1 h
    rw [applyTxs, foldl_cons]
    refine (ih hrest).trans ?_
    rw [applyTx, create, hcreate, none_or, UtxoMap.spend, if_neg hspend]

namespace BlockStore

variable {ι : Type} {S : BlockStore ι} {pindex pprev : ι}

lemma utxo_of_pprev (h : S.tree.pprev pindex = some pprev) :
    S.utxo (some pindex) = UtxoMap.applyTxs (S.tree.nHeight pindex) (S.utxo (some pprev)) (S.readBlock pindex).vtx := by
  have hpath : S.tree.path pindex = pindex :: S.tree.path pprev := S.tree.forest.path_of_parent h
  have hheight : S.tree.nHeight pindex = S.tree.nHeight pprev + 1 := S.tree.forest.depth_of_parent h
  rw [utxo, elim_some, hpath, utxoOf, if_neg (by omega)]
  rfl

lemma utxo_of_root (h : S.tree.pprev pindex = none) (o : COutPoint) : S.utxo (some pindex) o = none := by
  have hpath : S.tree.path pindex = [pindex] := S.tree.forest.path_of_root h
  have hheight : S.tree.nHeight pindex = 0 := S.tree.forest.depth_of_root h
  rw [utxo, elim_some, hpath, utxoOf, if_pos hheight]
  rfl

end BlockStore

namespace Testnet

/-- `consensus.BIP34Hash` of the test network, the hash of its block 286. -/
def BIP34Hash : Uint256 := 0x0000004b7778ba253a75b716c55b2c6609b5fb97691b3260978f9ce4a633106d

def hash (n : ℕ) : Uint256 := if n = 286 then BIP34Hash else BitVec.ofNat 256 (n + 1)

/-- The coinbase of height 27 is that of height 1, and the one of height 287 that of height 2. -/
def source (n : ℕ) : ℕ := if n = 27 then 1 else if n = 287 then 2 else n

def coinbase (n : ℕ) : CTransaction :=
  ⟨BitVec.ofNat 256 (n + 1), 1, [⟨⟨0, 0xffffffff⟩, CScript.pushInt64 (if n = 2 then 287 else n) ++ [0], 0xffffffff, []⟩],
    [⟨5 * COIN, [0x51]⟩], 0⟩

/-- A transaction that spends the first output of another one. -/
def spend (txid prevout : Uint256) (nSequence : ℕ) : CTransaction :=
  ⟨txid, 2, [⟨⟨prevout, 0⟩, [], nSequence, []⟩], [⟨COIN, [0x51]⟩], 0⟩

/-- It spends the coinbase of height 1, which is mature at height 26. -/
def parent : CTransaction := spend 1000 2 0xffffffff

def vtx (n : ℕ) : List CTransaction := coinbase (source n) :: if n = 26 then [parent] else []

/-- A transaction that lists the same input twice takes the place of `parent`. -/
def vtxTwice (n : ℕ) : List CTransaction :=
  if n = 26 then [coinbase 26, { parent with vin := parent.vin ++ parent.vin }] else vtx n

/-- The undo data of block 26, in which the coinbase of height 1 and other coins are spent. -/
def undo (others : List Coin) (n : ℕ) : List (List Coin) :=
  if n = 26 then [⟨⟨5 * COIN, [0x51]⟩, true, 1⟩ :: others] else []

def env : BlockEnv := ⟨fun _ => true, fun block => (block.hashMerkleRoot, false), fun _ _ => false, fun _ _ _ => true⟩

/-- What `ConnectBlock` takes from the index. -/
def ctx (n : ℕ) : BlockContext :=
  ⟨some (hash n), some (hash (n - 1)), if 286 < n then some BIP34Hash else none, 0, true, ⟨false, n, n, fun _ => 0⟩⟩

/-- The coins after blocks with the given transactions. -/
def coinsOf (txs : ℕ → List CTransaction) : ℕ → UtxoMap
  | 0 => fun _ => none
  | n + 1 => applyTxs (n + 1) (coinsOf txs n) (txs (n + 1))

/-- The database when the coins after each block are flushed. -/
def dbAt (txs : ℕ → List CTransaction) : ℕ → CCoinsViewDB
  | 0 => ⟨∅, hash 0, []⟩
  | n + 1 =>
    match rollforwardTxs (n + 1) (txs (n + 1)) ⟨⟨hash (n + 1), ∅, 0⟩, .db (dbAt txs n)⟩ with
    | .ok (_, v) =>
      (v.layer.cacheCoins.entries.foldl writeEntry ((dbAt txs n).beginBatch (hash (n + 1)))).endBatch (hash (n + 1))
    | .error _ => dbAt txs n

/-- A cache with the coins `m` at some outpoints. -/
def backLayer (hashBlock : Uint256) (os : List COutPoint) (m : UtxoMap) : CacheLayer :=
  ⟨hashBlock, os.foldr (fun o coins => coins.insert o ⟨(m o).getD Coin.empty, true, false⟩) ∅, 0⟩

lemma backLayer_lookup (hashBlock : Uint256) (os : List COutPoint) (m : UtxoMap) (o : COutPoint) :
    (backLayer hashBlock os m).cacheCoins.lookup o =
      if o ∈ os then some ⟨(m o).getD Coin.empty, true, false⟩ else none := by
  induction os with
  | nil => rfl
  | cons a os ih =>
    by_cases ho : o = a
    · rw [if_pos (ho ▸ mem_cons_self), ho]
      exact AList.lookup_insert _
    · rw [backLayer, foldr_cons, AList.lookup_insert_ne ho]
      refine ih.trans ?_
      simp only [mem_cons, ho, false_or]

lemma ofNat_eq_iff {a b : ℕ} (ha : a < 2 ^ 256) (hb : b < 2 ^ 256) : BitVec.ofNat 256 a = BitVec.ofNat 256 b ↔ a = b := by
  rw [← BitVec.toNat_inj, BitVec.toNat_ofNat, BitVec.toNat_ofNat, Nat.mod_eq_of_lt ha, Nat.mod_eq_of_lt hb]

lemma ofNat_ne_BIP34Hash {c : ℕ} (h : c < 1000) : BitVec.ofNat 256 c ≠ BIP34Hash := fun heq => by
  have hbig := (ofNat_eq_iff (by omega) (by decide)).1 (heq.trans (BitVec.ofNat_toNat 256 BIP34Hash).symm)
  have hlow : 1000 ≤ BIP34Hash.toNat := by decide
  omega

lemma hash_ne_zero {k : ℕ} (hk : k < 288) : hash k ≠ 0 := by
  rw [hash]
  split_ifs
  · decide
  · intro h
    have := (ofNat_eq_iff (b := 0) (by omega) (by decide)).1 h
    omega

lemma hash_injOn {a b : ℕ} (ha : a < 288) (hb : b < 288) (h : hash a = hash b) : a = b := by
  rw [hash, hash] at h
  split_ifs at h with h₁ h₂ h₂
  · omega
  · exact absurd h.symm (ofNat_ne_BIP34Hash (by omega))
  · exact absurd h (ofNat_ne_BIP34Hash (by omega))
  · have := (ofNat_eq_iff (by omega) (by omega)).1 h
    omega

section

variable (txs : ℕ → List CTransaction) (undo : ℕ → List (List Coin)) (n : ℕ) (hn : n < 288)

lemma val_lt {n : ℕ} (hn : n < 288) (i : Fin (n + 1)) : i.val < 288 := by omega

def tree : BlockTree (Fin (n + 1)) where
  pprev i := Fin.cases none (fun j => some j.castSucc) i
  nHeight i := i.val
  nHeight_eq i := by
    cases i using Fin.cases with
    | zero => rfl
    | succ j => rfl

/-- A chain of blocks with the given transactions and undo data. -/
def chain : BlockStore (Fin (n + 1)) where
  tree := tree n
  hash i := hash i
  mapBlockIndex h := (List.finRange (n + 1)).find? fun i => hash i = h
  readBlock i := ⟨hash i, 0, txs i⟩
  readUndo i := undo i
  hash_ne_zero i := hash_ne_zero (val_lt hn i)
  mapBlockIndex_hash i := by
    have hfound : ((List.finRange (n + 1)).find? fun j : Fin (n + 1) => hash j = hash i).isSome :=
      List.find?_isSome.2 ⟨i, List.mem_finRange i, decide_eq_true rfl⟩
    obtain ⟨j, hj⟩ := Option.isSome_iff_exists.1 hfound
    have hhash : hash j = hash i := by simpa using List.find?_some hj
    rw [hj, Fin.ext (hash_injOn (val_lt hn j) (val_lt hn i) hhash)]

def store : BlockStore (Fin (n + 1)) := chain vtx (Testnet.undo []) n hn

variable {txs undo n}

lemma val_of_pprev {i p : Fin (n + 1)} (h : (tree n).pprev i = some p) : i.val = p.val + 1 :=
  (tree n).forest.depth_of_parent h

lemma utxo_chain (i : Fin (n + 1)) : (chain txs undo n hn).utxo (some i) = coinsOf txs i := by
  induction i using (tree n).forest.induction with
  | step i ih =>
    cases hp : (tree n).pprev i with
    | none =>
      have hzero : i.val = 0 := (tree n).forest.depth_of_root hp
      rw [hzero]
      exact funext (utxo_of_root hp)
    | some p =>
      have hi := val_of_pprev hp
      rw [utxo_of_pprev (S := chain txs undo n hn) hp, ih p hp]
      show applyTxs i.val (coinsOf txs p.val) (txs i.val) = coinsOf txs i.val
      rw [hi]
      rfl

lemma utxoOf_tail {i p : Fin (n + 1)} (hp : (tree n).pprev i = some p) :
    (chain txs undo n hn).utxoOf ((tree n).path i).tail = coinsOf txs p := by
  have hpath : (tree n).path i = i :: (tree n).path p := (tree n).forest.path_of_parent hp
  rw [hpath]
  exact utxo_chain hn p

/-- A coin has the txid of a transaction of a block. -/
lemma exists_of_coins {k : ℕ} {o : COutPoint} {coin : Coin} (h : coinsOf txs k o = some coin) :
    ∃ j, 0 < j ∧ j ≤ k ∧ ∃ tx ∈ txs j, tx.hash = o.hash ∧ o.n < tx.vout.length := by
  induction k with
  | zero => cases h
  | succ k ih =>
    rcases applyTxs_eq_some h with ⟨tx, htx, hout⟩ | hm
    · obtain ⟨hhash, hlt, -⟩ := CTransaction.outputCoin_eq_some hout
      exact ⟨k + 1, by omega, le_rfl, tx, htx, hhash, hlt⟩
    · obtain ⟨j, hpos, hj, hrest⟩ := ih hm
      exact ⟨j, hpos, by omega, hrest⟩

section

variable (hvals : ∀ k, ∀ tx ∈ txs k, ∀ out ∈ tx.vout, 0 ≤ out.nValue)
include hvals

lemma dbAt_spec {k : ℕ} (hk : k < 288) : (CCoinsView.db (dbAt txs k)).unspent = coinsOf txs k ∧
    (dbAt txs k).bestBlock = hash k ∧ (dbAt txs k).headBlocks = [] := by
  induction k with
  | zero => exact ⟨rfl, rfl, rfl⟩
  | succ k ih =>
    obtain ⟨ihun, -, ihheads⟩ := ih (by omega)
    obtain ⟨v, hrun, hv, hun⟩ := rollforwardTxs_coherent (k + 1) (coherent_empty (hash (k + 1)) (dbAt txs k)) (hvals (k + 1))
    have hbase : v.base = .db (dbAt txs k) := db_writeStable.rollforwardTxs _ _ _ _ v hrun _ rfl
    have hw : (dbAt txs k).writable (hash (k + 1)) = true := writable_of_headBlocks ihheads (hash_ne_zero hk)
    obtain ⟨d', hwrite, hun', hbest, hheads⟩ := batchWrite_db (hbase ▸ hv.1) hw
    have hd : dbAt txs (k + 1) = d' := by
      rw [CCoinsView.batchWrite, if_pos hw] at hwrite
      simp only [dbAt, hrun]
      cases hwrite
      rfl
    rw [hd]
    refine ⟨?_, hbest, hheads⟩
    rw [hun', ← hbase]
    show v.unspent = _
    rw [hun]
    show applyTxs (k + 1) (CCoinsView.db (dbAt txs k)).unspent _ = _
    rw [ihun]
    rfl

lemma holdsTip_dbAt (i : Fin (n + 1)) : HoldsTip (chain txs undo n hn) (some i) (dbAt txs i) := by
  obtain ⟨hun, hbest, hheads⟩ := dbAt_spec hvals (k := i) (by omega)
  exact ⟨hbest, hheads, hun.trans (utxo_chain hn i).symm⟩

lemma connected_chain {i p : Fin (n + 1)} (hp : (tree n).pprev i = some p)
    (h : ∃ r, connectBlock env ⟨0, BIP34Hash⟩ (ctx i) ⟨hash i, 0, txs i⟩ false ⟨⟨hash p, ∅, 0⟩, .db (dbAt txs p)⟩ = .ok r ∧
      ∃ vtxundo ∈ r.1, undo i = vtxundo.map (·.map Coin.reread)) : (chain txs undo n hn).Connected i := by
  obtain ⟨⟨_, v'⟩, hrun, vtxundo, ⟨⟩, hundo⟩ := h
  refine ⟨env, _, ctx i, _, v', vtxundo, coherent_empty _ _, ?_, rfl, hrun, hundo⟩
  exact (dbAt_spec hvals (k := p) (by omega)).1.trans (utxoOf_tail hn hp).symm

/-- The chain is taken back by a block, in a cache that has every coin the block touches. -/
lemma flushing {i p : Fin (n + 1)} (hp : (tree n).pprev i = some p) (hconn : (chain txs undo n hn).Connected i)
    {os : List COutPoint}
    (hos : ∀ tx ∈ txs i, (∀ o ∈ inputs tx, o ∈ os) ∧ ∀ j < tx.vout.length, (⟨tx.hash, j⟩ : COutPoint) ∈ os) :
    Flushing (chain txs undo n hn) (some i) p (backLayer (hash p) os (coinsOf txs p)) (dbAt txs i) where
  branches := .ofParent hp hconn
  holds := holdsTip_dbAt hn hvals i
  coherent := fun o e he => by
    rw [backLayer_lookup] at he
    split_ifs at he
    cases he
    exact ⟨fun h => Bool.noConfusion h, fun h => Bool.noConfusion h⟩
  coins := by
    rw [utxo_chain]
    funext o
    by_cases ho : o ∈ os
    · rw [unspent_of_lookup_some ((backLayer_lookup ..).trans (if_pos ho))]
      cases hcoin : coinsOf txs p o with
      | none => rfl
      | some coin =>
        rw [← (dbAt_spec hvals (k := p) (by omega)).1] at hcoin
        obtain ⟨coin', -, hunspent⟩ := bind_eq_some_iff.1 hcoin
        obtain ⟨rfl, hs⟩ := Coin.unlessSpent_eq_some.1 hunspent
        exact Coin.unlessSpent_of_not_isSpent hs
    · rw [unspent_of_lookup_none ((backLayer_lookup ..).trans (if_neg ho)), (dbAt_spec hvals (k := i) (by omega)).1]
      have hi := val_of_pprev hp
      rw [hi] at hos ⊢
      refine applyTxs_untouched fun tx htx => ⟨fun h => ho ((hos tx htx).1 o h), ?_⟩
      by_contra hsome
      obtain ⟨hhash, hlt⟩ := outputCoinFrom_isSome (isSome_iff_ne_none.2 hsome)
      have hmem := (hos tx htx).2 o.n hlt
      rw [← hhash] at hmem
      exact ho hmem

end

end

lemma mem_vtx {k : ℕ} {tx : CTransaction} : tx ∈ vtx k ↔ tx = coinbase (source k) ∨ k = 26 ∧ tx = parent := by
  rw [vtx, mem_cons]
  split_ifs with h <;> simp [h]

lemma vtx_nonneg : ∀ k, ∀ tx ∈ vtx k, ∀ out ∈ tx.vout, 0 ≤ out.nValue := by
  intro k tx htx
  rcases mem_vtx.1 htx with rfl | ⟨-, rfl⟩
  · simp [coinbase, COIN]
  · simp [parent, spend, COIN]

section

variable {n : ℕ} (hn : n < 288)

/-- A txid comes again at heights 27 and 287 only. -/
lemma txid_inj {j k : ℕ} (hjk : j < k) (hk : k < 288) {tx tx' : CTransaction} (htx : tx ∈ vtx j) (htx' : tx' ∈ vtx k)
    (h : tx.hash = tx'.hash) : k = 27 ∧ tx'.hash = 2 ∨ k = 287 := by
  have hsource : ∀ m < 288, source m < 288 := by
    intro m hm
    rw [source]
    split_ifs <;> omega
  have hparent : ∀ m < 288, (coinbase (source m)).hash ≠ parent.hash := by
    intro m hm hash
    have := (ofNat_eq_iff (b := 1000) (by have := hsource m hm; omega) (by decide)).1 hash
    have := hsource m hm
    omega
  rcases mem_vtx.1 htx with rfl | ⟨rfl, rfl⟩ <;> rcases mem_vtx.1 htx' with rfl | ⟨rfl, rfl⟩
  · have heq := (ofNat_eq_iff (by have := hsource j (by omega); omega) (by have := hsource k hk; omega)).1 h
    by_cases hk' : k = 27
    · exact .inl ⟨hk', by rw [hk']; rfl⟩
    · refine .inr ?_
      rw [source, source] at heq
      split_ifs at heq <;> omega
  · exact absurd h (hparent j (by omega))
  · exact absurd h.symm (hparent k hk)
  · omega

lemma fresh {i : Fin (n + 1)} (hi : i.val ≠ 0) (hlast : i.val ≠ 287) : (store n hn).Fresh i := by
  obtain ⟨p, hp⟩ := (tree n).forest.exists_parent hi
  have hval := val_of_pprev hp
  intro tx htx j hj
  show (store n hn).utxoOf ((tree n).path i).tail _ = none
  rw [store, utxoOf_tail hn hp]
  by_contra hsome
  obtain ⟨coin, hcoin⟩ := ne_none_iff_exists'.1 hsome
  obtain ⟨k, -, hk, tx', htx', hhash, -⟩ := exists_of_coins hcoin
  rcases txid_inj (by omega) (by omega) htx' htx hhash with ⟨h27, htxid⟩ | h287
  · -- the coinbase of height 1 has been spent
    have hspent : coinsOf vtx 26 ⟨2, 0⟩ = none := by decide +kernel
    rcases mem_vtx.1 htx with rfl | ⟨h26, -⟩
    · rw [htxid, show p.val = 26 by omega, Nat.lt_one_iff.1 hj, hspent] at hcoin
      cases hcoin
    · omega
  · exact hlast h287

end

lemma vtxTwice_nonneg : ∀ k, ∀ tx ∈ vtxTwice k, ∀ out ∈ tx.vout, 0 ≤ out.nValue := by
  intro k tx htx
  rw [vtxTwice] at htx
  split_ifs at htx
  · revert tx
    decide
  · exact vtx_nonneg k tx htx

/-- The chain up to height 26, and up to height 287. -/
def low : BlockStore (Fin 27) := store 26 (by decide)
def high : BlockStore (Fin 288) := store 287 (by decide)

/-- The block at height 26 is taken back, and with it `parent`. -/
lemma flushing_parent : Flushing low (some 26) 25
    (backLayer (hash 25) [⟨2, 0⟩, ⟨27, 0⟩, ⟨1000, 0⟩] (coinsOf vtx 25)) (dbAt vtx 26) :=
  flushing (by decide) vtx_nonneg rfl (connected_chain (by decide) vtx_nonneg rfl (by decide +kernel)) (by decide +kernel)

lemma reversible_parent : Reversible low (some 26) 25 := by
  rintro _ ⟨⟩ pindex hp hnot
  rw [BlockTree.path, low.tree.forest.path_of_parent (show low.tree.forest.parent 26 = some 25 from rfl)] at hp
  obtain rfl := (mem_cons.1 hp).resolve_right hnot
  exact ⟨fresh _ (by decide) (by decide), by decide⟩

/-- The chain with an input listed twice. -/
def twice : BlockStore (Fin 27) := chain vtxTwice (undo [Coin.empty.reread]) 26 (by decide)

lemma flushing_twice : Flushing twice (some 26) 25
    (backLayer (hash 25) [⟨2, 0⟩, ⟨27, 0⟩, ⟨1000, 0⟩] (coinsOf vtxTwice 25)) (dbAt vtxTwice 26) :=
  flushing _ vtxTwice_nonneg rfl (connected_chain _ vtxTwice_nonneg rfl (by decide +kernel)) (by decide +kernel)

lemma flushing_overwritten : Flushing high (some 287) 286
    (backLayer (hash 286) [⟨3, 0⟩] (coinsOf vtx 286)) (dbAt vtx 287) :=
  flushing (by decide) vtx_nonneg rfl (connected_chain (by decide) vtx_nonneg rfl (by decide +kernel)) (by decide +kernel)

/-- A flush from height 26 to height 25 stops when it has written the coin that `parent` spent, and nothing else: the
output of `parent` and the last coinbase are still there. -/
theorem replayBlocks_recovers_parent : ∃ d d',
    CrashState low (backLayer (hash 25) [⟨2, 0⟩, ⟨27, 0⟩, ⟨1000, 0⟩] (coinsOf vtx 25)).cacheCoins
      (hash 25) (dbAt vtx 26) d ∧
    ((CCoinsView.db d).unspent ⟨2, 0⟩).isSome ∧ ((CCoinsView.db d).unspent ⟨27, 0⟩).isSome ∧
    ((CCoinsView.db d).unspent ⟨1000, 0⟩).isSome ∧
    replayBlocks low d = .ok (.db d') ∧ HoldsTip low (some 25) d' := by
  have hcrash : CrashState low
      (backLayer (hash 25) [⟨2, 0⟩, ⟨27, 0⟩, ⟨1000, 0⟩] (coinsOf vtx 25)).cacheCoins (hash 25) (dbAt vtx 26) _ :=
    .flush (.inl ⟨by decide +kernel, _, (take_sublist 1 _).subperm, rfl⟩)
  obtain ⟨d', hrun, htip⟩ := replayBlocks_recovers flushing_parent reversible_parent hcrash
  exact ⟨_, d', hcrash, by decide +kernel, by decide +kernel, by decide +kernel, hrun, htip⟩

lemma replayBlocks_overwritten : ∃ d', replayBlocks high ((dbAt vtx 287).beginBatch (hash 286)) =
    .ok (.db d') ∧ ¬ HoldsTip high (some 286) d' := by
  have hroll : ∀ i ∈ [(287 : Fin 288)], high.Rollable i := by
    intro i hi
    obtain rfl := mem_singleton.1 hi
    refine ⟨by decide, ⟨coinbase 2, [], rfl, rfl, fun _ h => absurd h not_mem_nil, rfl⟩, fun p hp => ?_⟩
    obtain rfl : p = (coinbase 2, []) := mem_singleton.1 hp
    exact ⟨rfl, fun _ h => absurd h not_mem_nil⟩
  have hlca : high.tree.lastCommonAncestor 287 286 = some 286 := by decide +kernel
  have hback : [287] ++ high.tree.path 286 = high.tree.path 287 := rfl
  have hforth : [] ++ high.tree.path 286 = high.tree.path 286 := rfl
  let P : ReplayPlan high (some 287) 286 := .ofFork hlca hback hforth hroll fun _ h => absurd h not_mem_nil
  obtain ⟨d', hrun, -, -, hun⟩ := P.replayBlocks (d := (dbAt vtx 287).beginBatch (hash 286))
    (congrArg (fun h => [hash 286, h]) flushing_overwritten.holds.oldTip)
  refine ⟨d', hrun, fun h => ?_⟩
  have hgone : (CCoinsView.db d').unspent ⟨3, 0⟩ = none := by
    rw [hun]
    rfl
  have hthere : (coinsOf vtx 286 ⟨3, 0⟩).isSome = true := by decide +kernel
  rw [h.coins, high, store, utxo_chain] at hgone
  exact absurd (hgone ▸ hthere) (by decide)

lemma unspent_beginBatch (d : CCoinsViewDB) (hashBlock : Uint256) :
    CCoinsViewCache.unspent ⟨⟨0, ∅, 0⟩, .db (d.beginBatch hashBlock)⟩ = (CCoinsView.db d).unspent := rfl

lemma replayBlocks_twice : replayBlocks twice ((dbAt vtxTwice 26).beginBatch (hash 25)) =
    .error (.disconnectFailed 26 (hash 26)) := by
  have hheads : ((dbAt vtxTwice 26).beginBatch (hash 25)).headBlocks = [twice.hash 25, twice.hash 26] :=
    congrArg (fun h => [hash 25, h]) flushing_twice.holds.oldTip
  have hnone : ∀ n, coinsOf vtxTwice 26 ⟨2, n⟩ = none := by
    intro n
    by_cases hn : n = 0
    · rw [hn]
      decide +kernel
    · by_contra hsome
      obtain ⟨coin, hcoin⟩ := ne_none_iff_exists'.1 hsome
      obtain ⟨j, -, hj, tx, htx, -, hlt⟩ := exists_of_coins hcoin
      have hone : ∀ j < 27, ∀ tx ∈ vtxTwice j, tx.vout.length = 1 := by decide +kernel
      rw [hone j (by omega) tx htx] at hlt
      exact hn (Nat.lt_one_iff.1 hlt)
  obtain ⟨v', hfail⟩ : ∃ v', disconnectBlock 26 (hash 25) (twice.readBlock 26) (twice.readUndo 26)
      ⟨⟨0, ∅, 0⟩, .db ((dbAt vtxTwice 26).beginBatch (hash 25))⟩ = .ok (.FAILED, v') := by
    refine disconnectBlock_failed (coherent_empty ..) rfl rfl rfl rfl rfl fun n => ?_
    rw [unspent_beginBatch, (dbAt_spec vtxTwice_nonneg (by decide)).1, destroy, destroyFrom, hnone]
    exact ite_self none
  have hback : rollbackBlocks twice (some 25) (26 :: twice.tree.path 25)
      ⟨⟨0, ∅, 0⟩, .db ((dbAt vtxTwice 26).beginBatch (hash 25))⟩ = .error (.disconnectFailed 26 (hash 26)) :=
    rollbackBlocks_failed (by decide) (by decide) hfail
  exact replayBlocks_failed hheads (by decide +kernel) hback

/-- **Recovery fails** before the first batch, when the database is still at the old tip; where a block that is taken
back overwrote a coin: block 287, without BIP30, has the coinbase of block 2 again, and taking it back leaves none; and
where it lists an input twice: the undo data has a coin without a height. -/
theorem replayBlocks_fails :
    (∃ layer d₀, Flushing low (some 26) 25 layer d₀ ∧ Reversible low (some 26) 25 ∧
      replayBlocks low d₀ = .ok (.db d₀) ∧ ¬ HoldsTip low (some 25) d₀) ∧
    (∃ layer d₀ d d', Flushing high (some 287) 286 layer d₀ ∧
      (∀ tx ∈ vtx 287, tx.prevouts.Nodup) ∧
      CrashState high layer.cacheCoins (hash 286) d₀ d ∧
      replayBlocks high d = .ok (.db d') ∧ ¬ HoldsTip high (some 286) d') ∧
    ∃ layer d₀ d, Flushing twice (some 26) 25 layer d₀ ∧ twice.Fresh 26 ∧
      CrashState twice layer.cacheCoins (hash 25) d₀ d ∧ replayBlocks twice d = .error (.disconnectFailed 26 (hash 26)) := by
  refine ⟨⟨_, _, flushing_parent, reversible_parent, ?_, fun h => ?_⟩, ?_, _, _, _, flushing_twice, ?_,
    flushing_twice.crashState_first, replayBlocks_twice⟩
  · rw [replayBlocks, replayCache, flushing_parent.holds.headBlocks]
  · exact absurd (flushing_parent.holds.bestBlock.symm.trans h.bestBlock) (by decide)
  · obtain ⟨d', hrun, hnot⟩ := replayBlocks_overwritten
    exact ⟨_, _, _, d', flushing_overwritten, by decide, flushing_overwritten.crashState_first, hrun, hnot⟩
  · rw [Fresh]
    show ∀ tx ∈ vtxTwice 26, ∀ j < tx.vout.length, twice.utxoOf ((tree 26).path 26).tail ⟨tx.hash, j⟩ = none
    rw [twice, utxoOf_tail _ (i := 26) (p := 25) rfl]
    decide +kernel

end Testnet

end Soferox
