import Mathlib.Data.List.AList
import Soferox.Primitives.Transaction

/-!
# Coin views

`coins.h`, `coins.cpp` and the coin part of `txdb.cpp`: the coin database and the stack of caches over it.

* `CCoinsView` — a database, or a cache over another view;
* `CCoinsView.getCoin`, `CCoinsViewCache.fetchCoin`, `haveCoin`, `accessCoin` — reading, which fills the caches below;
* `CCoinsViewCache.addCoin`, `spendCoin`, `uncache`, `CCoinsView.batchWrite`, `CCoinsViewCache.flush` — writing;
* `CCoinsView.unspent` — what a view is for: the unspent coin it shows at an outpoint.

A `CCoinsMap` is an association list in any order with distinct keys; the order stands for the iteration order of the
hash map.
-/

namespace Soferox

/-! ## Coins and cache entries -/

structure Coin where
  out : CTxOut
  fCoinBase : Bool
  nHeight : ℕ
  deriving DecidableEq, Repr

namespace Coin

/-- `Coin::Clear`, also the default constructor. -/
def empty : Coin := ⟨CTxOut.null, false, 0⟩
def isSpent (coin : Coin) : Bool := coin.out.isNull

/-- `Coin::DynamicMemoryUsage`: a script of more than 28 bytes is on the heap (`memusage::MallocUsage`). -/
def dynamicMemoryUsage (coin : Coin) : ℕ :=
  if coin.out.scriptPubKey.length ≤ 28 then 0 else (coin.out.scriptPubKey.length + 31) / 16 * 16

def unlessSpent (coin : Coin) : Option Coin := if coin.isSpent then none else some coin

end Coin

/-- `CCoinsCacheEntry`, with the bits of `flags` as two fields. -/
structure CCoinsCacheEntry where
  coin : Coin
  dirty : Bool
  fresh : Bool
  deriving DecidableEq, Repr

abbrev CCoinsMap := AList fun _ : COutPoint => CCoinsCacheEntry

/-- The members of a `CCoinsViewCache` other than its base. -/
structure CacheLayer where
  hashBlock : Uint256
  cacheCoins : CCoinsMap
  cachedCoinsUsage : ℤ

/-- The content of `CCoinsViewDB`: coins, `DB_BEST_BLOCK` (null when it is not there), `DB_HEAD_BLOCKS`. -/
structure CCoinsViewDB where
  coins : AList fun _ : COutPoint => Coin
  bestBlock : Uint256
  headBlocks : List Uint256

/-- `CCoinsView`: the database, or a cache over a view. -/
inductive CCoinsView where
  | db (d : CCoinsViewDB)
  | cache (layer : CacheLayer) (base : CCoinsView)

structure CCoinsViewCache where
  layer : CacheLayer
  base : CCoinsView

def CCoinsViewCache.view (v : CCoinsViewCache) : CCoinsView := .cache v.layer v.base

/-- What stops an operation on the caches. -/
inductive CoinsError where
  /-- `Adding new coin that replaces non-pruned entry` -/
  | addOverwrite
  /-- `FRESH flag misapplied to cache entry for base transaction with spendable outputs` -/
  | freshMisapplied
  /-- a failed `assert` -/
  | assertFailed
  deriving DecidableEq, Repr

/-! ## Reading -/

/-- `FetchCoin` puts a coin of the base into the cache; if the base only has an empty entry, ours is fresh. -/
def CacheLayer.emplaceFetched (c : CacheLayer) (outpoint : COutPoint) (tmp : Coin) : CacheLayer :=
  { c with
    cacheCoins := c.cacheCoins.insert outpoint ⟨tmp, false, tmp.isSpent⟩
    cachedCoinsUsage := c.cachedCoinsUsage + tmp.dynamicMemoryUsage }

/-- `GetCoin`: the coin when it returns true, and the view with its caches filled. (For a cache, `FetchCoin` is
written out; see `getCoin_cache`.) -/
def CCoinsView.getCoin : CCoinsView → COutPoint → Option Coin × CCoinsView
  | .db d, outpoint => (d.coins.lookup outpoint, .db d)
  | .cache c base, outpoint =>
    match c.cacheCoins.lookup outpoint with
    | some e => (e.coin.unlessSpent, .cache c base)
    | none =>
      match base.getCoin outpoint with
      | (none, base) => (none, .cache c base)
      | (some tmp, base) => (tmp.unlessSpent, .cache (c.emplaceFetched outpoint tmp) base)

/-- `GetBestBlock`; a cache keeps the answer of its base. -/
def CCoinsView.getBestBlock : CCoinsView → Uint256 × CCoinsView
  | .db d => (d.bestBlock, .db d)
  | .cache c base =>
    if c.hashBlock = 0 then
      (base.getBestBlock.1, .cache { c with hashBlock := base.getBestBlock.1 } base.getBestBlock.2)
    else (c.hashBlock, .cache c base)

namespace CCoinsViewCache

def getBestBlock (v : CCoinsViewCache) : Uint256 × CCoinsViewCache :=
  if v.layer.hashBlock = 0 then
    (v.base.getBestBlock.1, ⟨{ v.layer with hashBlock := v.base.getBestBlock.1 }, v.base.getBestBlock.2⟩)
  else (v.layer.hashBlock, v)

/-- `CCoinsViewCache::FetchCoin`; `none` is `cacheCoins.end()`. -/
def fetchCoin (v : CCoinsViewCache) (outpoint : COutPoint) : Option CCoinsCacheEntry × CCoinsViewCache :=
  match v.layer.cacheCoins.lookup outpoint with
  | some e => (some e, v)
  | none =>
    match v.base.getCoin outpoint with
    | (none, base) => (none, ⟨v.layer, base⟩)
    | (some tmp, base) => (some ⟨tmp, false, tmp.isSpent⟩, ⟨v.layer.emplaceFetched outpoint tmp, base⟩)

def accessCoin (v : CCoinsViewCache) (outpoint : COutPoint) : Coin × CCoinsViewCache :=
  match v.fetchCoin outpoint with
  | (none, v) => (Coin.empty, v)
  | (some e, v) => (e.coin, v)

def haveCoin (v : CCoinsViewCache) (outpoint : COutPoint) : Bool × CCoinsViewCache :=
  match v.fetchCoin outpoint with
  | (none, v) => (false, v)
  | (some e, v) => (!e.coin.isSpent, v)

/-! ## Writing -/

def addCoin (v : CCoinsViewCache) (outpoint : COutPoint) (coin : Coin) (possible_overwrite : Bool) :
    Except CoinsError CCoinsViewCache :=
  if coin.isSpent then .error .assertFailed
  else if coin.out.scriptPubKey.isUnspendable then .ok v
  else
    let c := v.layer
    -- the entry that `emplace` finds or makes
    let e := (c.cacheCoins.lookup outpoint).getD ⟨Coin.empty, false, false⟩
    if !possible_overwrite ∧ !e.coin.isSpent then .error .addOverwrite
    else
      let fresh := !possible_overwrite && !e.dirty
      .ok ⟨{ c with
        cacheCoins := c.cacheCoins.insert outpoint ⟨coin, true, e.fresh || fresh⟩
        cachedCoinsUsage := c.cachedCoinsUsage - e.coin.dynamicMemoryUsage + coin.dynamicMemoryUsage }, v.base⟩

/-- What `SpendCoin` does with the entry it fetched. -/
def spendEntry (v : CCoinsViewCache) (outpoint : COutPoint) (e : CCoinsCacheEntry) : CCoinsViewCache :=
  ⟨{ v.layer with
    cacheCoins :=
      if e.fresh then v.layer.cacheCoins.erase outpoint
      else v.layer.cacheCoins.insert outpoint { e with coin := Coin.empty, dirty := true }
    cachedCoinsUsage := v.layer.cachedCoinsUsage - e.coin.dynamicMemoryUsage }, v.base⟩

/-- `CCoinsViewCache::SpendCoin`: the coin it moves out when it returns true. -/
def spendCoin (v : CCoinsViewCache) (outpoint : COutPoint) : Option Coin × CCoinsViewCache :=
  match v.fetchCoin outpoint with
  | (none, v) => (none, v)
  | (some e, v) => (some e.coin, v.spendEntry outpoint e)

def uncache (v : CCoinsViewCache) (outpoint : COutPoint) : CCoinsViewCache :=
  match v.layer.cacheCoins.lookup outpoint with
  | none => v
  | some e =>
    if !e.dirty ∧ !e.fresh then
      ⟨{ v.layer with
        cacheCoins := v.layer.cacheCoins.erase outpoint
        cachedCoinsUsage := v.layer.cachedCoinsUsage - e.coin.dynamicMemoryUsage }, v.base⟩
    else v

def setBestBlock (v : CCoinsViewCache) (hashBlockIn : Uint256) : CCoinsViewCache :=
  ⟨{ v.layer with hashBlock := hashBlockIn }, v.base⟩

end CCoinsViewCache

/-- One round of the loop of `CCoinsViewCache::BatchWrite`, for the child's entry `it`. -/
def CacheLayer.writeEntry (c : CacheLayer) (it : Sigma fun _ : COutPoint => CCoinsCacheEntry) :
    Except CoinsError CacheLayer :=
  if !it.2.dirty then .ok c
  else
    match c.cacheCoins.lookup it.1 with
    | none =>
      -- a coin created and spent in the child need not be known here
      if it.2.fresh ∧ it.2.coin.isSpent then .ok c
      else .ok { c with
        cacheCoins := c.cacheCoins.insert it.1 ⟨it.2.coin, true, it.2.fresh⟩
        cachedCoinsUsage := c.cachedCoinsUsage + it.2.coin.dynamicMemoryUsage }
    | some itUs =>
      if it.2.fresh ∧ !itUs.coin.isSpent then .error .freshMisapplied
      else if itUs.fresh ∧ it.2.coin.isSpent then
        -- the grandparent has no entry, and the child prunes ours
        .ok { c with
          cacheCoins := c.cacheCoins.erase it.1
          cachedCoinsUsage := c.cachedCoinsUsage - itUs.coin.dynamicMemoryUsage }
      else .ok { c with
        cacheCoins := c.cacheCoins.insert it.1 { itUs with coin := it.2.coin, dirty := true }
        cachedCoinsUsage :=
          c.cachedCoinsUsage - itUs.coin.dynamicMemoryUsage + it.2.coin.dynamicMemoryUsage }

/-- One round of the loop of `CCoinsViewDB::BatchWrite`. -/
def CCoinsViewDB.writeEntry (d : CCoinsViewDB) (it : Sigma fun _ : COutPoint => CCoinsCacheEntry) : CCoinsViewDB :=
  if !it.2.dirty then d
  else if it.2.coin.isSpent then { d with coins := d.coins.erase it.1 }
  else { d with coins := d.coins.insert it.1 it.2.coin }

/-- The two assertions of `CCoinsViewDB::BatchWrite`: the new tip is a block, and a replay that was interrupted goes
on to the same tip. -/
def CCoinsViewDB.writable (d : CCoinsViewDB) (hashBlock : Uint256) : Bool :=
  hashBlock != 0 && !(d.bestBlock == 0 && d.headBlocks.length == 2 && d.headBlocks.getD 0 0 != hashBlock)

/-- `old_tip` in `CCoinsViewDB::BatchWrite`. -/
def CCoinsViewDB.oldTip (d : CCoinsViewDB) : Uint256 :=
  if d.bestBlock = 0 ∧ d.headBlocks.length = 2 then d.headBlocks.getD 1 0 else d.bestBlock

/-- The head of the first batch: the database is in transition from `old_tip` to `hashBlock`. -/
def CCoinsViewDB.beginBatch (d : CCoinsViewDB) (hashBlock : Uint256) : CCoinsViewDB :=
  { d with bestBlock := 0, headBlocks := [hashBlock, d.oldTip] }

/-- The tail of the last batch: the database is consistent with `hashBlock` again. -/
def CCoinsViewDB.endBatch (d : CCoinsViewDB) (hashBlock : Uint256) : CCoinsViewDB :=
  { d with bestBlock := hashBlock, headBlocks := [] }

/-- `BatchWrite` of a child's `mapCoins` into a view, when it is not interrupted. -/
def CCoinsView.batchWrite (mapCoins : CCoinsMap) (hashBlock : Uint256) : CCoinsView → Except CoinsError CCoinsView
  | .db d =>
    if d.writable hashBlock then
      .ok (.db ((mapCoins.entries.foldl CCoinsViewDB.writeEntry (d.beginBatch hashBlock)).endBatch hashBlock))
    else .error .assertFailed
  | .cache c base => do
    let c ← mapCoins.entries.foldlM CacheLayer.writeEntry c
    .ok (.cache { c with hashBlock := hashBlock } base)

def CCoinsViewCache.flush (v : CCoinsViewCache) : Except CoinsError CCoinsViewCache := do
  let base ← v.base.batchWrite v.layer.cacheCoins v.layer.hashBlock
  .ok ⟨{ v.layer with cacheCoins := ∅, cachedCoinsUsage := 0 }, base⟩

/-! ## The coins a view shows -/

/-- The unspent coin that a view shows at an outpoint. -/
def CCoinsView.unspent : CCoinsView → COutPoint → Option Coin
  | .db d, outpoint => (d.coins.lookup outpoint).bind Coin.unlessSpent
  | .cache c base, outpoint =>
    match c.cacheCoins.lookup outpoint with
    | some e => e.coin.unlessSpent
    | none => base.unspent outpoint

/-- The unspent coin that a cache shows at an outpoint. -/
def CCoinsViewCache.unspent (v : CCoinsViewCache) : COutPoint → Option Coin := v.view.unspent

end Soferox
