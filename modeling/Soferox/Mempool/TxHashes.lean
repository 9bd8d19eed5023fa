import Soferox.Lib.Positions
import Soferox.Lib.Restrict
import Soferox.Mempool.Runs
import Soferox.Primitives.Serialize

/-!
# The list of witness hashes

`vTxHashes` lists the witness hash of every entry with an iterator to it, and each entry knows its place in the list
(`vTxHashesIdx`); block reconstruction follows these iterators. `HashedPool` is the pool with the list.

* `Mirrors` — every entry has its pair, from a place `stale` on;
* `Lifts` — an operation on the pool with the list does what it does to the pool alone, and keeps `Mirrors`;
* `vTxHashes_mirrors_iff` — no operation fails because of the list, and the list mirrors the pool after those runs that
  call `clear` on empty pools only, as `_clear` forgets to clear it.
-/

namespace Soferox

open Lib Function CTxMemPoolEntry List Option AList Prod

/-- `CTxMemPool` with `vTxHashes` and, by transaction id, the field `vTxHashesIdx` of its entries. -/
structure HashedPool where
  pool : CTxMemPool
  vTxHashes : List (Uint256 × Uint256)
  vTxHashesIdx : AList fun _ : Uint256 => ℕ

/-- `_clear`, which leaves `mapDeltas`, and `vTxHashes`. -/
def CTxMemPool.clear (pool : CTxMemPool) : CTxMemPool :=
  { pool with mapLinks := ∅, mapTx := ∅, mapNextTx := ∅, totalTxSize := 0 }

namespace HashedPool

/-! ## The operations -/

def empty : HashedPool := ⟨.empty, [], ∅⟩

/-- What does not touch the list. -/
def onPool (f : CTxMemPool → Except PoolError CTxMemPool) (h : HashedPool) : Except PoolError HashedPool := do
  let pool ← f h.pool
  pure { h with pool := pool }

def addUnchecked (hash : List UInt8 → Uint256) (txid : Uint256) (entry : CTxMemPoolEntry) (setAncestors : SetEntries)
    (h : HashedPool) : Except PoolError HashedPool := do
  let pool ← h.pool.addUnchecked txid entry setAncestors
  let newit := entry.tx.hash
  let tx := (← pool.deref newit).tx
  pure ⟨pool, h.vTxHashes ++ [(tx.getWitnessHash hash, newit)], h.vTxHashesIdx.insert newit h.vTxHashes.length⟩

/-- The part of `removeUnchecked` that takes the pair of an entry off the list. -/
def removeTxHash (h : HashedPool) (it : Uint256) : Except PoolError HashedPool :=
  if h.vTxHashes.length > 1 then
    match h.vTxHashesIdx.lookup it, h.vTxHashes.getLast? with
    | some idx, some back =>
      if idx < h.vTxHashes.length ∧ back.2 ∈ h.pool.mapTx then
        .ok ⟨h.pool, (h.vTxHashes.set idx back).dropLast, h.vTxHashesIdx.insert back.2 idx⟩
      else .error .assertion
    | _, _ => .error .assertion
  else .ok { h with vTxHashes := [] }

def removeUnchecked (h : HashedPool) (it : Uint256) : Except PoolError HashedPool := do
  let h ← h.removeTxHash it
  let pool ← h.pool.removeUnchecked it
  pure ⟨pool, h.vTxHashes, h.vTxHashesIdx.erase it⟩

def removeStaged (stage : SetEntries) (updateDescendants : Bool) (h : HashedPool) : Except PoolError HashedPool := do
  let h ← h.onPool (·.updateForRemoveFromMempool stage updateDescendants)
  stage.toList.foldlM removeUnchecked h

def removeRecursive (origTx : CTransaction) (h : HashedPool) : Except PoolError HashedPool := do
  let txToRemove ← (
    if origTx.hash ∈ h.pool.mapTx then .ok (OrdSet.insert ∅ origTx.hash)
    else h.pool.findSpenders origTx.hash 0 origTx.vout ∅)
  let setAllRemoves ← h.pool.calculateAllDescendants txToRemove.toList
  h.removeStaged setAllRemoves false

def clearPrioritisation (h : HashedPool) (txid : Uint256) : HashedPool :=
  { h with pool := h.pool.clearPrioritisation txid }

/-- One round of `removeConflicts`. -/
def removeConflict (tx : CTransaction) (h : HashedPool) (txin : CTxIn) : Except PoolError HashedPool :=
  match h.pool.mapNextTx.lookup txin.prevout with
  | none => .ok h
  | some txConflict =>
    if txConflict.hash ≠ tx.hash then (h.clearPrioritisation txConflict.hash).removeRecursive txConflict
    else .ok h

def removeConflicts (tx : CTransaction) (h : HashedPool) : Except PoolError HashedPool :=
  tx.vin.foldlM (removeConflict tx) h

/-- One round of `removeForBlock`. -/
def removeBlockTx (h : HashedPool) (tx : CTransaction) : Except PoolError HashedPool := do
  let h ← (
    if tx.hash ∈ h.pool.mapTx then h.removeStaged (OrdSet.insert ∅ tx.hash) true
    else pure h)
  let h ← h.removeConflicts tx
  pure (h.clearPrioritisation tx.hash)

def removeForBlock (vtx : List CTransaction) (h : HashedPool) : Except PoolError HashedPool :=
  vtx.foldlM removeBlockTx h

def expire (time : ℤ) (h : HashedPool) : Except PoolError HashedPool := do
  let byTime := (h.pool.mapTx.entries.map Sigma.snd).insertionSort fun a b => a.nTime ≤ b.nTime
  let toremove := (byTime.takeWhile fun e => e.nTime < time).map fun e => e.tx.hash
  let stage ← h.pool.calculateAllDescendants ((∅ : SetEntries).insertAll toremove).toList
  h.removeStaged stage false

def trimLoop (dynamicMemoryUsage : CTxMemPool → ℕ) (descendantScore : CTxMemPoolEntry → CTxMemPoolEntry → Bool)
    (sizelimit : ℕ) : ℕ → HashedPool → Except PoolError HashedPool
  | fuel, h =>
    match CTxMemPool.lowestScore descendantScore (h.pool.mapTx.entries.map Sigma.snd) with
    | none => .ok h
    | some it =>
      if dynamicMemoryUsage h.pool > sizelimit then
        match fuel with
        | 0 => .error .endless
        | fuel + 1 => do
          let stage ← h.pool.calculateDescendants it.tx.hash ∅
          let h ← h.removeStaged stage false
          trimLoop dynamicMemoryUsage descendantScore sizelimit fuel h
      else .ok h

/-- `clear`: the entries go, and with them their places. -/
def clear (h : HashedPool) : HashedPool := { h with pool := h.pool.clear, vTxHashesIdx := ∅ }

def run (hash : List UInt8 → Uint256) (h : HashedPool) : CTxMemPool.MempoolOp → Except PoolError HashedPool
  | .addUnchecked tx nFee nTime sigOpCost nBytesPerSigOp limits =>
    let entry := CTxMemPoolEntry.new tx nFee nTime sigOpCost nBytesPerSigOp
    match h.pool.calculateMemPoolAncestors entry limits true with
    | .ok setAncestors => h.addUnchecked hash tx.hash entry setAncestors
    | .error (.limit _) => .ok h
    | .error e => .error e
  | .removeStaged stage updateDescendants => h.removeStaged stage updateDescendants
  | .removeForBlock vtx => h.removeForBlock vtx
  | .removeConflicts tx => h.removeConflicts tx
  | .removeRecursive origTx => h.removeRecursive origTx
  | .expire time => h.expire time
  | .trimToSize dynamicMemoryUsage descendantScore sizelimit =>
    trimLoop dynamicMemoryUsage descendantScore sizelimit h.pool.mapTx.entries.length h
  | .prioritiseTransaction txid nFeeDelta => h.onPool (·.prioritiseTransaction txid nFeeDelta)

end HashedPool

/-! ## The transactions of a pool -/

namespace CTxMemPool

/-- Both pools hold the same transactions. -/
def SameTxs (pool pool' : CTxMemPool) : Prop :=
  ∀ k, (pool'.mapTx.lookup k).map CTxMemPoolEntry.tx = (pool.mapTx.lookup k).map CTxMemPoolEntry.tx

/-- A function that leaves the transactions alone. -/
def KeepsTxs (f : CTxMemPool → Except PoolError CTxMemPool) : Prop := ∀ ⦃pool pool'⦄, f pool = .ok pool' → SameTxs pool pool'

section

variable {pool pool' pool'' : CTxMemPool} {e e' : CTxMemPoolEntry} {modifyFee : CAmount} {α : Type} (it : Uint256)

lemma SameTxs.refl (pool : CTxMemPool) : SameTxs pool pool := fun _ => rfl

lemma SameTxs.trans (h : SameTxs pool pool') (h' : SameTxs pool' pool'') : SameTxs pool pool'' := fun k =>
  (h' k).trans (h k)

lemma SameTxs.mem_iff (h : SameTxs pool pool') (k : Uint256) : k ∈ pool'.mapTx ↔ k ∈ pool.mapTx := by
  have hk := congrArg isSome (h k)
  rw [isSome_map, isSome_map] at hk
  rw [← AList.lookup_isSome, ← AList.lookup_isSome, hk]

lemma SameTxs.foldl {f : CTxMemPool → α → CTxMemPool} (hf : ∀ pool a, SameTxs pool (f pool a)) (l : List α)
    (pool : CTxMemPool) : SameTxs pool (l.foldl f pool) := by
  induction l generalizing pool with
  | nil => exact .refl pool
  | cons a l ih => exact (hf pool a).trans (ih (f pool a))

lemma KeepsTxs.foldlM {f : CTxMemPool → α → Except PoolError CTxMemPool}
    (hf : ∀ a, KeepsTxs fun pool => f pool a) (l : List α) : KeepsTxs fun pool => l.foldlM f pool := by
  induction l with
  | nil =>
    intro pool pool' h
    cases h
    exact .refl pool
  | cons a l ih =>
    intro pool pool' h
    obtain ⟨pool₁, h₁, h₂⟩ := bind_eq_ok.1 h
    exact (hf a h₁).trans (ih h₂)

lemma keepsTxs_modify {f : CTxMemPoolEntry → Except PoolError CTxMemPoolEntry}
    (hf : ∀ e e', f e = .ok e' → e'.tx = e.tx) : KeepsTxs fun pool => pool.modify it f := by
  intro pool pool' h
  obtain ⟨e, he, hrest⟩ := bind_eq_ok.1 h
  obtain ⟨e', he', hpool⟩ := bind_eq_ok.1 hrest
  cases hpool
  intro k
  rw [lookup_insert_eq_ite]
  split_ifs with hk
  · rw [hk, deref_eq_ok.1 he, map_some, map_some, hf e e' he']
  · rfl

lemma updateDescendantState_tx {modifySize modifyCount : ℤ}
    (h : e.updateDescendantState modifySize modifyFee modifyCount = .ok e') : e'.tx = e.tx := by
  unfold updateDescendantState at h
  dsimp only at h
  split_ifs at h
  cases h
  rfl

lemma updateAncestorState_tx {modifySize modifyCount modifySigOps : ℤ}
    (h : e.updateAncestorState modifySize modifyFee modifyCount modifySigOps = .ok e') : e'.tx = e.tx := by
  unfold updateAncestorState at h
  dsimp only at h
  split_ifs at h
  cases h
  rfl

lemma keepsTxs_updateAncestorsOf (add : Bool) (it : Uint256) (setAncestors : SetEntries) :
    KeepsTxs fun pool => pool.updateAncestorsOf add it setAncestors := by
  intro pool pool' h
  obtain ⟨parentIters, -, hrest⟩ := bind_eq_ok.1 h
  obtain ⟨entry, -, hfold⟩ := bind_eq_ok.1 hrest
  have hlinks : SameTxs pool (parentIters.toList.foldl (fun pool piter => pool.updateChild piter it add) pool) :=
    SameTxs.foldl (f := fun pool piter => pool.updateChild piter it add) (fun _ _ _ => rfl) _ pool
  exact hlinks.trans (KeepsTxs.foldlM (fun k => keepsTxs_modify k fun _ _ => updateDescendantState_tx) _ hfold)

lemma keepsTxs_updateEntryForAncestors (setAncestors : SetEntries) :
    KeepsTxs fun pool => pool.updateEntryForAncestors it setAncestors := by
  intro pool pool' h
  obtain ⟨ancestors, -, hmod⟩ := bind_eq_ok.1 h
  exact keepsTxs_modify it (fun _ _ => updateAncestorState_tx) hmod

lemma keepsTxs_updateForRemoveFromMempool (entriesToRemove : SetEntries) (updateDescendants : Bool) :
    KeepsTxs fun pool => pool.updateForRemoveFromMempool entriesToRemove updateDescendants := by
  have hdesc : ∀ it, KeepsTxs fun pool => pool.updateDescendantsForRemoval it := by
    intro it pool pool' h
    obtain ⟨S, -, hrest⟩ := bind_eq_ok.1 h
    obtain ⟨entry, -, hfold⟩ := bind_eq_ok.1 hrest
    exact KeepsTxs.foldlM (fun k => keepsTxs_modify k fun _ _ => updateAncestorState_tx) _ hfold
  have hanc : ∀ it, KeepsTxs fun pool => pool.updateAncestorsForRemoval it := by
    intro it pool pool' h
    obtain ⟨entry, -, hrest⟩ := bind_eq_ok.1 h
    obtain ⟨S, -, hupdate⟩ := bind_eq_ok.1 hrest
    exact keepsTxs_updateAncestorsOf false it S hupdate
  have hchildren : ∀ it, KeepsTxs fun pool => pool.updateChildrenForRemoval it := by
    intro it pool pool' h
    obtain ⟨S, -, hpool⟩ := bind_eq_ok.1 h
    cases hpool
    exact SameTxs.foldl (f := fun pool updateIt => pool.updateParent updateIt it false) (fun _ _ _ => rfl) _ pool
  intro pool pool' h
  obtain ⟨pool₁, h₁, hrest⟩ := bind_eq_ok.1 h
  obtain ⟨pool₂, h₂, h₃⟩ := bind_eq_ok.1 hrest
  have hfirst : SameTxs pool pool₁ := by
    split_ifs at h₁
    · exact KeepsTxs.foldlM hdesc _ h₁
    · cases h₁
      exact .refl pool
  exact (hfirst.trans (KeepsTxs.foldlM hanc _ h₂)).trans (KeepsTxs.foldlM hchildren _ h₃)

lemma keepsTxs_prioritiseTransaction (hash : Uint256) (nFeeDelta : CAmount) :
    KeepsTxs fun pool => pool.prioritiseTransaction hash nFeeDelta := by
  intro pool pool' h
  unfold prioritiseTransaction at h
  dsimp only at h
  split_ifs at h with hk
  · obtain ⟨pool₁, h₁, hrest⟩ := bind_eq_ok.1 h
    obtain ⟨e, -, hrest⟩ := bind_eq_ok.1 hrest
    obtain ⟨setAncestors, -, hrest⟩ := bind_eq_ok.1 hrest
    obtain ⟨pool₂, h₂, hrest⟩ := bind_eq_ok.1 hrest
    obtain ⟨setDescendants, -, h₃⟩ := bind_eq_ok.1 hrest
    have hfee := keepsTxs_modify hash (fun e e' he => by cases he; rfl) h₁
    have hanc := KeepsTxs.foldlM (fun k => keepsTxs_modify k fun _ _ => updateDescendantState_tx) _ h₂
    have hdesc := KeepsTxs.foldlM (fun k => keepsTxs_modify k fun _ _ => updateAncestorState_tx) _ h₃
    exact fun k => ((hfee.trans hanc).trans hdesc) k
  · cases h
    exact .refl pool

variable {setAncestors : SetEntries}

variable {entry : CTxMemPoolEntry}

lemma addUnchecked_txs {hash : Uint256}
    (hnew : entry.tx.hash ∉ pool.mapTx) (h : pool.addUnchecked hash entry setAncestors = .ok pool') (k : Uint256) :
    (pool'.mapTx.lookup k).map CTxMemPoolEntry.tx =
      if k = entry.tx.hash then some entry.tx else (pool.mapTx.lookup k).map CTxMemPoolEntry.tx := by
  obtain ⟨pool₁, h₁, hrest⟩ := bind_eq_ok.1 h
  obtain ⟨e, -, hrest⟩ := bind_eq_ok.1 hrest
  obtain ⟨pool₃, h₃, hrest⟩ := bind_eq_ok.1 hrest
  obtain ⟨pool₄, h₄, hpool⟩ := bind_eq_ok.1 hrest
  cases hpool
  have hlink : SameTxs pool₁ (pool₁.linkInputs entry.tx.hash e.tx) := by
    refine SameTxs.foldl (fun pool phash => ?_) _ _
    split_ifs <;> exact .refl pool
  have hupdate := (hlink.trans (keepsTxs_updateAncestorsOf _ _ _ h₃)).trans (keepsTxs_updateEntryForAncestors _ _ h₄)
  refine (hupdate k).trans ?_
  -- the entry itself, and the fee delta it may get
  have hinsert : SameTxs { pool with mapTx := pool.mapTx.insert entry.tx.hash entry } pool₁ := by
    unfold insertEntry at h₁
    simp only [if_neg hnew] at h₁
    split at h₁
    · split_ifs at h₁ <;> first
        | cases h₁; exact fun _ => rfl
        | exact fun k => (keepsTxs_modify _ (fun e e' he => by cases he; rfl) h₁ k).trans rfl
    · split_ifs at h₁ <;> cases h₁ <;> exact fun _ => rfl
  rw [hinsert k, lookup_insert_eq_ite]
  split_ifs <;> rfl

end

end CTxMemPool

namespace HashedPool

/-! ## The list mirrors the pool -/

section

variable (hash : List UInt8 → Uint256)

/-- From place `stale` on, the list has a pair for every entry, with its witness hash, whose place it knows. -/
structure Mirrors (stale : ℕ) (h : HashedPool) : Prop where
  bound : stale ≤ h.vTxHashes.length
  entries : ∀ k, k ∈ h.vTxHashesIdx ↔ k ∈ h.pool.mapTx
  positions : PositionsFrom stale (h.vTxHashes.map Prod.snd) fun k => h.vTxHashesIdx.lookup k
  witness : ∀ i w k, stale ≤ i → h.vTxHashes[i]? = some (w, k) →
    ((h.pool.mapTx.lookup k).map CTxMemPoolEntry.tx).map (CTransaction.getWitnessHash hash) = some w

/-- An operation on the pool with the list succeeds when it does on the pool, has the same effect, and keeps the list
in step. -/
def Lifts (f : HashedPool → Except PoolError HashedPool) (g : CTxMemPool → Except PoolError CTxMemPool) : Prop :=
  ∀ ⦃stale h pool'⦄, Mirrors hash stale h → g h.pool = .ok pool' →
    ∃ h', f h = .ok h' ∧ h'.pool = pool' ∧ Mirrors hash stale h'

variable {hash} {stale : ℕ} {h : HashedPool} {pool' : CTxMemPool} {f f' : HashedPool → Except PoolError HashedPool}
  {g g' : CTxMemPool → Except PoolError CTxMemPool} {α : Type}

lemma mirrors_empty : Mirrors hash 0 empty where
  bound := le_rfl
  entries := fun k => Iff.rfl
  positions := positionsFrom_length []
  witness := fun i w k _ hi => by simp [empty] at hi

section

variable (hm : Mirrors hash stale h)
include hm

lemma Mirrors.lookup_isSome {k : Uint256} (hk : k ∈ h.pool.mapTx) :
    ∃ i w, h.vTxHashesIdx.lookup k = some i ∧ stale ≤ i ∧ h.vTxHashes[i]? = some (w, k) := by
  obtain ⟨i, hi⟩ := isSome_iff_exists.1 (AList.lookup_isSome.2 ((hm.entries k).2 hk))
  obtain ⟨hs, hget⟩ := (hm.positions k i).1 hi
  rw [getElem?_map, map_eq_some_iff] at hget
  obtain ⟨⟨w, k'⟩, hget, rfl⟩ := hget
  exact ⟨i, w, hi, hs, hget⟩

lemma Mirrors.mem_pool {i : ℕ} {w k : Uint256} (hi : stale ≤ i)
    (hget : h.vTxHashes[i]? = some (w, k)) : k ∈ h.pool.mapTx := by
  obtain ⟨tx, htx, -⟩ := map_eq_some_iff.1 (hm.witness i w k hi hget)
  obtain ⟨e, he, -⟩ := map_eq_some_iff.1 htx
  exact AList.lookup_isSome.1 (he ▸ rfl)

lemma Mirrors.of_sameTxs (hs : CTxMemPool.SameTxs h.pool pool') : Mirrors hash stale { h with pool := pool' } where
  bound := hm.bound
  entries := fun k => (hm.entries k).trans (hs.mem_iff k).symm
  positions := hm.positions
  witness := fun i w k hi hget => by
    rw [hs k]
    exact hm.witness i w k hi hget

end

/-! ### Lifting -/

lemma Lifts.onPool {g : CTxMemPool → Except PoolError CTxMemPool} (hg : CTxMemPool.KeepsTxs g) :
    Lifts hash (HashedPool.onPool g) g := by
  intro stale h pool' hm hok
  refine ⟨{ h with pool := pool' }, ?_, rfl, hm.of_sameTxs (hg hok)⟩
  rw [HashedPool.onPool, hok]
  rfl

lemma Lifts.pure : Lifts hash .ok .ok := by
  intro stale h pool' hm hok
  cases hok
  exact ⟨h, rfl, rfl, hm⟩

lemma Lifts.bind
    (hf : Lifts hash f g) (hf' : Lifts hash f' g') : Lifts hash (fun h => f h >>= f') fun pool => g pool >>= g' := by
  intro stale h pool' hm hok
  obtain ⟨pool₁, h₁, h₂⟩ := bind_eq_ok.1 hok
  obtain ⟨hp₁, hf₁, rfl, hm₁⟩ := hf hm h₁
  obtain ⟨hp', hf₂, hpool, hm'⟩ := hf' hm₁ h₂
  exact ⟨hp', bind_eq_ok.2 ⟨hp₁, hf₁, hf₂⟩, hpool, hm'⟩

lemma Lifts.compute {c : CTxMemPool → Except PoolError α} {f : α → HashedPool → Except PoolError HashedPool}
    {g : α → CTxMemPool → Except PoolError CTxMemPool} (hf : ∀ a, Lifts hash (f a) (g a)) :
    Lifts hash (fun h => c h.pool >>= fun a => f a h) fun pool => c pool >>= fun a => g a pool := by
  intro stale h pool' hm hok
  obtain ⟨a, ha, hg⟩ := bind_eq_ok.1 hok
  obtain ⟨h', hf', hpool, hm'⟩ := hf a hm hg
  exact ⟨h', bind_eq_ok.2 ⟨a, ha, hf'⟩, hpool, hm'⟩

lemma Lifts.foldlM {f : HashedPool → α → Except PoolError HashedPool}
    {g : CTxMemPool → α → Except PoolError CTxMemPool} (hf : ∀ a, Lifts hash (fun h => f h a) fun pool => g pool a)
    (l : List α) : Lifts hash (l.foldlM f) fun pool => l.foldlM g pool := by
  induction l with
  | nil => exact Lifts.pure
  | cons a l ih =>
    exact (hf a).bind ih

lemma Lifts.ite {c : CTxMemPool → Prop} [DecidablePred c] (hf : Lifts hash f g) (hf' : Lifts hash f' g') :
    Lifts hash (fun h => if c h.pool then f h else f' h) fun pool => if c pool then g pool else g' pool := by
  intro stale h pool' hm hok
  by_cases hc : c h.pool
  · simp only [if_pos hc] at hok ⊢
    exact hf hm hok
  · simp only [if_neg hc] at hok ⊢
    exact hf' hm hok

/-! ### One entry added or removed -/

lemma Mirrors.addUnchecked (hm : Mirrors hash stale h) {txid : Uint256}
    (hnew : entry.tx.hash ∉ h.pool.mapTx) (hok : h.pool.addUnchecked txid entry setAncestors = .ok pool') :
    ∃ h', h.addUnchecked hash txid entry setAncestors = .ok h' ∧ h'.pool = pool' ∧ Mirrors hash stale h' := by
  have htxs := CTxMemPool.addUnchecked_txs hnew hok
  obtain ⟨e, he, htx⟩ := map_eq_some_iff.1 ((htxs entry.tx.hash).trans (if_pos rfl))
  have hnone : h.vTxHashesIdx.lookup entry.tx.hash = none :=
    lookup_eq_none.2 fun hk => hnew ((hm.entries _).1 hk)
  have hmem : ∀ k, k ∈ pool'.mapTx ↔ k = entry.tx.hash ∨ k ∈ h.pool.mapTx := by
    intro k
    have hk := congrArg isSome (htxs k)
    rw [← AList.lookup_isSome, ← AList.lookup_isSome, ← isSome_map, hk]
    split_ifs with hkn <;> simp [hkn]
  refine ⟨⟨pool', h.vTxHashes ++ [(entry.tx.getWitnessHash hash, entry.tx.hash)],
    h.vTxHashesIdx.insert entry.tx.hash h.vTxHashes.length⟩, ?_, rfl, ?_, fun k => ?_, ?_, fun i w k hi hget => ?_⟩
  · rw [HashedPool.addUnchecked, hok]
    simp only [ok_bind, CTxMemPool.deref_eq_ok.2 he, htx]
    rfl
  · have hb := hm.bound
    simp only [length_append]
    omega
  · rw [AList.mem_insert, hmem, hm.entries]
  · have hpush := hm.positions.push (by simpa using hm.bound) hnone
    rw [length_map] at hpush
    rw [map_append]
    exact hpush.congr fun k => by rw [lookup_insert_eq_ite, update_apply]
  · rw [htxs]
    rcases getElem?_concat_eq_some.1 hget with hget | ⟨-, heq⟩
    · have hk : k ≠ entry.tx.hash := fun hk => hnew (hk ▸ hm.mem_pool hi hget)
      rw [if_neg hk]
      exact hm.witness i w k hi hget
    · cases heq
      rw [if_pos rfl, map_some]

lemma Mirrors.removeTxHash (hm : Mirrors hash stale h) {it : Uint256} (hit : it ∈ h.pool.mapTx) :
    ∃ idx back vTxHashesIdx, h.removeTxHash it = .ok ⟨h.pool, (h.vTxHashes.set idx back).dropLast, vTxHashesIdx⟩ ∧
      stale ≤ idx ∧ (h.vTxHashes.map snd)[idx]? = some it ∧ h.vTxHashes.getLast? = some back ∧
      ∀ k ≠ it, vTxHashesIdx.lookup k = update (h.vTxHashesIdx.lookup) back.2 (some idx) k := by
  obtain ⟨idx, w, hidx, hs, hget⟩ := hm.lookup_isSome hit
  have hlt : idx < h.vTxHashes.length := (List.getElem?_eq_some_iff.1 hget).1
  have hit' : (h.vTxHashes.map snd)[idx]? = some it := by simp [hget]
  obtain ⟨back, hback⟩ : ∃ back, h.vTxHashes.getLast? = some back :=
    ⟨_, getLast?_eq_some_getLast (ne_nil_of_length_pos (by omega))⟩
  have hbackmem : back.2 ∈ h.pool.mapTx :=
    hm.mem_pool (i := h.vTxHashes.length - 1) (w := back.1) (by omega) (by rw [← getLast?_eq_getElem?, hback])
  by_cases hlong : h.vTxHashes.length > 1
  · refine ⟨idx, back, h.vTxHashesIdx.insert back.2 idx, ?_, hs, hit', hback, fun k _ => ?_⟩
    · rw [HashedPool.removeTxHash, if_pos hlong, hidx, hback]
      exact if_pos ⟨hlt, hbackmem⟩
    · rw [lookup_insert_eq_ite, update_apply]
  · -- the pair of `it` is the only one
    obtain ⟨p, hone⟩ := length_eq_one_iff.1 (show h.vTxHashes.length = 1 by omega)
    obtain rfl : idx = 0 := by omega
    have hpair : back = (w, it) := by simp_all
    refine ⟨0, back, h.vTxHashesIdx, ?_, hs, hit', hback, fun k hk => ?_⟩
    · rw [HashedPool.removeTxHash, if_neg hlong]
      simp [hone]
    · rw [hpair, update_of_ne hk]

lemma lifts_removeUnchecked (it : Uint256) :
    Lifts hash (fun h => h.removeUnchecked it) fun pool => pool.removeUnchecked it := by
  intro stale h pool' hm hok
  obtain ⟨entry, he, hpool⟩ := bind_eq_ok.1 hok
  have hit : it ∈ h.pool.mapTx := AList.lookup_isSome.1 (CTxMemPool.deref_eq_ok.1 he ▸ rfl)
  obtain ⟨idx, back, places, hrem, hs, hget, hback, hplaces⟩ := hm.removeTxHash hit
  have hlt : idx < h.vTxHashes.length := by simpa using (List.getElem?_eq_some_iff.1 hget).1
  have hlast : h.vTxHashes[h.vTxHashes.length - 1]? = some back := by rw [← getLast?_eq_getElem?, hback]
  have hrun : h.removeUnchecked it = .ok ⟨pool', (h.vTxHashes.set idx back).dropLast, places.erase it⟩ := by
    refine bind_eq_ok.2 ⟨_, hrem, bind_eq_ok.2 ⟨pool', hok, rfl⟩⟩
  cases hpool
  have hlook : ∀ k, (places.erase it).lookup k =
      update (update (h.vTxHashesIdx.lookup) back.2 (some idx)) it none k := by
    intro k
    rw [lookup_erase_eq_ite, update_apply]
    split_ifs with hk
    · rfl
    · exact hplaces k hk
  have hpos : PositionsFrom stale ((h.vTxHashes.set idx back).dropLast.map snd)
      fun k => (places.erase it).lookup k := by
    rw [map_dropLast, map_set]
    exact (hm.positions.swapRemove hs hget (by rw [getLast?_map, hback]; rfl)).congr hlook
  refine ⟨_, hrun, rfl, ?_, fun k => ?_, hpos, fun i w k hi hpair => ?_⟩
  · simp only [length_dropLast, length_set]
    omega
  · have hbackmem : back.2 ∈ h.pool.mapTx := hm.mem_pool (by omega) hlast
    rw [AList.mem_erase, AList.mem_erase, ← hm.entries]
    by_cases hk : k = it
    · simp [hk]
    · rw [← AList.lookup_isSome, hplaces k hk]
      by_cases hkb : k = back.2
      · simp [hkb, hbackmem, hm.entries]
      · simp [hkb, AList.lookup_isSome]
  · have hk : k ≠ it := by
      rintro rfl
      have hplace : (places.erase k).lookup k = some i :=
        (hpos k i).2 ⟨hi, by rw [getElem?_map, hpair]; rfl⟩
      rw [lookup_erase] at hplace
      cases hplace
    -- the pair stood in the list before
    obtain ⟨j, hj, hold⟩ : ∃ j, stale ≤ j ∧ h.vTxHashes[j]? = some (w, k) := by
      rw [getElem?_dropLast] at hpair
      split_ifs at hpair with hi'
      rw [getElem?_set] at hpair
      split_ifs at hpair with hidx
      · exact ⟨h.vTxHashes.length - 1, by omega, hlast.trans hpair⟩
      · exact ⟨i, hi, hpair⟩
    have hw := hm.witness j w k hj hold
    rwa [← lookup_erase_ne hk] at hw

/-! ### The bulk operations -/

lemma lifts_removeStaged (stage : SetEntries) (updateDescendants : Bool) :
    Lifts hash (removeStaged stage updateDescendants) fun pool => pool.removeStaged stage updateDescendants :=
  (Lifts.onPool (CTxMemPool.keepsTxs_updateForRemoveFromMempool stage updateDescendants)).bind
    (Lifts.foldlM lifts_removeUnchecked stage.toList)

lemma lifts_removeRecursive (origTx : CTransaction) :
    Lifts hash (removeRecursive origTx) fun pool => pool.removeRecursive origTx :=
  Lifts.compute (c := fun pool => if origTx.hash ∈ pool.mapTx then .ok (OrdSet.insert ∅ origTx.hash)
      else pool.findSpenders origTx.hash 0 origTx.vout ∅) fun txToRemove =>
    Lifts.compute (c := fun pool => pool.calculateAllDescendants txToRemove.toList) fun setAllRemoves =>
      lifts_removeStaged setAllRemoves false

lemma lifts_clearPrioritisation (txid : Uint256) {f : HashedPool → Except PoolError HashedPool}
    {g : CTxMemPool → Except PoolError CTxMemPool} (hf : Lifts hash f g) :
    Lifts hash (fun h => f (h.clearPrioritisation txid)) fun pool => g (pool.clearPrioritisation txid) := by
  intro stale h pool' hm hok
  have hm' : Mirrors hash stale (h.clearPrioritisation txid) := hm.of_sameTxs fun _ => rfl
  exact hf hm' hok

lemma lifts_removeConflicts (tx : CTransaction) :
    Lifts hash (removeConflicts tx) fun pool => pool.removeConflicts tx := by
  refine Lifts.foldlM (fun txin => ?_) tx.vin
  intro stale h pool' hm hok
  unfold CTxMemPool.removeConflict at hok
  unfold removeConflict
  cases hnext : h.pool.mapNextTx.lookup txin.prevout with
  | none =>
    simp only [hnext] at hok ⊢
    exact Lifts.pure hm hok
  | some txConflict =>
    simp only [hnext] at hok ⊢
    by_cases hne : txConflict.hash ≠ tx.hash
    · rw [if_pos hne] at hok ⊢
      exact lifts_clearPrioritisation _ (lifts_removeRecursive txConflict) hm hok
    · rw [if_neg hne] at hok ⊢
      exact Lifts.pure hm hok

lemma lifts_removeForBlock (vtx : List CTransaction) :
    Lifts hash (removeForBlock vtx) fun pool => pool.removeForBlock vtx := by
  refine Lifts.foldlM (fun tx => ?_) vtx
  refine Lifts.bind (Lifts.ite (c := fun pool => tx.hash ∈ pool.mapTx)
    (lifts_removeStaged (OrdSet.insert ∅ tx.hash) true) Lifts.pure) ?_
  exact (lifts_removeConflicts tx).bind (lifts_clearPrioritisation tx.hash Lifts.pure)

lemma lifts_expire (time : ℤ) : Lifts hash (expire time) fun pool => pool.expire time :=
  Lifts.compute (c := fun pool => pool.calculateAllDescendants ((∅ : SetEntries).insertAll
      ((((pool.mapTx.entries.map Sigma.snd).insertionSort fun a b => a.nTime ≤ b.nTime).takeWhile
        fun e => e.nTime < time).map fun e => e.tx.hash)).toList) fun stage => lifts_removeStaged stage false

lemma trimLoop_lifts (usage : CTxMemPool → ℕ) (score : CTxMemPoolEntry → CTxMemPoolEntry → Bool) (sizelimit fuel : ℕ)
    {pool : CTxMemPool} {vNoSpends v : List COutPoint} (hm : Mirrors hash stale h) (hpool : h.pool = pool)
    (hok : CTxMemPool.trimLoop usage score sizelimit fuel pool vNoSpends = .ok (pool', v)) :
    ∃ h', trimLoop usage score sizelimit fuel h = .ok h' ∧ h'.pool = pool' ∧ Mirrors hash stale h' := by
  fun_induction CTxMemPool.trimLoop usage score sizelimit fuel pool vNoSpends generalizing h
  all_goals subst hpool; unfold trimLoop
  case case1 hlow =>
    cases hok
    exact ⟨h, by simp [hlow], rfl, hm⟩
  case case2 => cases hok
  case case3 it fuel ih hlow husage =>
    obtain ⟨stage, hstage, hrest⟩ := bind_eq_ok.1 hok
    obtain ⟨txn, -, hrest⟩ := bind_eq_ok.1 hrest
    obtain ⟨pool₁, hremove, hrest⟩ := bind_eq_ok.1 hrest
    obtain ⟨h₁, hlift, hp₁, hm₁⟩ := lifts_removeStaged stage false hm hremove
    obtain ⟨h', hloop, hp', hm'⟩ := ih _ _ hm₁ hp₁ hrest
    refine ⟨h', ?_, hp', hm'⟩
    simp only [hlow, if_pos husage]
    exact bind_eq_ok.2 ⟨stage, hstage, bind_eq_ok.2 ⟨h₁, hlift, hloop⟩⟩
  case case4 it hlow husage =>
    cases hok
    exact ⟨h, by simp [hlow, if_neg husage], rfl, hm⟩

lemma run_lifts {op : CTxMemPool.MempoolOp} (hm : Mirrors hash stale h)
    (hnew : ∀ tx nFee nTime sigOpCost nBytesPerSigOp limits,
      op = .addUnchecked tx nFee nTime sigOpCost nBytesPerSigOp limits → tx.hash ∉ h.pool.mapTx)
    (hok : op.run h.pool = .ok pool') : ∃ h', h.run hash op = .ok h' ∧ h'.pool = pool' ∧ Mirrors hash stale h' := by
  cases op with
  | addUnchecked tx nFee nTime sigOpCost nBytesPerSigOp limits =>
    simp only [CTxMemPool.MempoolOp.run, run] at hok ⊢
    split at hok <;> rename_i hanc <;> try simp only [hanc]
    · exact hm.addUnchecked (hnew _ _ _ _ _ _ rfl) hok
    · exact Lifts.pure hm hok
    · cases hok
  | removeStaged stage updateDescendants => exact lifts_removeStaged stage updateDescendants hm hok
  | removeForBlock vtx => exact lifts_removeForBlock vtx hm hok
  | removeConflicts tx => exact lifts_removeConflicts tx hm hok
  | removeRecursive origTx => exact lifts_removeRecursive origTx hm hok
  | expire time => exact lifts_expire time hm hok
  | trimToSize usage score sizelimit =>
    simp only [CTxMemPool.MempoolOp.run] at hok
    cases htrim : h.pool.trimToSize usage score sizelimit with
    | error e => rw [htrim] at hok; cases hok
    | ok r =>
      rw [htrim] at hok
      cases hok
      exact trimLoop_lifts usage score sizelimit _ hm rfl htrim
  | prioritiseTransaction txid nFeeDelta =>
    exact Lifts.onPool (CTxMemPool.keepsTxs_prioritiseTransaction txid nFeeDelta) hm hok

end

/-! ## Runs -/

/-- The operations of the pool, `addUnchecked` with any set of ancestors, and `clear`. -/
inductive Op where
  | addUnchecked (txid : Uint256) (entry : CTxMemPoolEntry) (setAncestors : SetEntries)
  | mempool (op : CTxMemPool.MempoolOp)
  | clear

/-- One operation on the pool alone. -/
def Op.run (pool : CTxMemPool) : Op → Except PoolError CTxMemPool
  | .addUnchecked txid entry setAncestors => pool.addUnchecked txid entry setAncestors
  | .mempool op => op.run pool
  | .clear => .ok pool.clear

def step (hash : List UInt8 → Uint256) (h : HashedPool) : Op → Except PoolError HashedPool
  | .addUnchecked txid entry setAncestors => h.addUnchecked hash txid entry setAncestors
  | .mempool op => h.run hash op
  | .clear => .ok h.clear

/-- A transaction that is added is not in the pool yet. -/
def Op.AddsNew (pool : CTxMemPool) : Op → Prop
  | .addUnchecked _ entry _ => entry.tx.hash ∉ pool.mapTx
  | .mempool (.addUnchecked tx ..) => tx.hash ∉ pool.mapTx
  | _ => True

def Op.ClearsEmpty (pool : CTxMemPool) : Op → Prop
  | .clear => pool.keys = ∅
  | _ => True

instance {pool : CTxMemPool} : ∀ op : Op, Decidable (op.AddsNew pool)
  | .addUnchecked _ entry _ => inferInstanceAs (Decidable (entry.tx.hash ∉ pool.mapTx))
  | .mempool (.addUnchecked tx ..) => inferInstanceAs (Decidable (tx.hash ∉ pool.mapTx))
  | .mempool (.removeStaged ..) | .mempool (.removeForBlock _) | .mempool (.removeConflicts _)
  | .mempool (.removeRecursive _) | .mempool (.expire _) | .mempool (.trimToSize ..)
  | .mempool (.prioritiseTransaction ..) | .clear => .isTrue trivial

instance {pool : CTxMemPool} : ∀ op : Op, Decidable (op.ClearsEmpty pool)
  | .clear => inferInstanceAs (Decidable (pool.keys = ∅))
  | .addUnchecked .. | .mempool _ => .isTrue trivial

/-- The list has exactly one pair per entry, with its witness hash and an iterator to it, and the entry knows the
place. -/
structure MirrorsPool (hash : List UInt8 → Uint256) (h : HashedPool) : Prop where
  valid : ∀ p ∈ h.vTxHashes, p.2 ∈ h.pool.mapTx
  nodup : (h.vTxHashes.map Prod.snd).Nodup
  entry : ∀ k e, h.pool.mapTx.lookup k = some e →
    ∃ i, h.vTxHashesIdx.lookup k = some i ∧ h.vTxHashes[i]? = some (e.tx.getWitnessHash hash, k)

section

variable {hash : List UInt8 → Uint256} {stale : ℕ} {h : HashedPool} {pool' : CTxMemPool}

section

variable (hm : Mirrors hash stale h)
include hm

/-- A stale pair at the front either points nowhere or is the second pair of an entry. -/
theorem Mirrors.mirrorsPool_iff : MirrorsPool hash h ↔ stale = 0 := by
  constructor
  · intro hp
    by_contra hstale
    have hbound := hm.bound
    have hlt : 0 < h.vTxHashes.length := by omega
    obtain ⟨i, w, -, hi, hget⟩ := hm.lookup_isSome (hp.valid _ (getElem_mem hlt))
    have hsame : (h.vTxHashes.map snd)[0]? = (h.vTxHashes.map snd)[i]? := by
      rw [getElem?_map, getElem?_map, hget, getElem?_eq_getElem hlt, map_some, map_some]
    have hzero : 0 = i := (getElem?_inj (by simpa using hlt) hp.nodup).1 hsame
    omega
  · rintro rfl
    refine ⟨fun p hp => ?_, ?_, fun k e he => ?_⟩
    · obtain ⟨i, hi⟩ := mem_iff_getElem?.1 hp
      exact hm.mem_pool (Nat.zero_le i) hi
    · exact hm.positions.nodup
    · obtain ⟨i, w, hi, hs, hget⟩ := hm.lookup_isSome (AList.lookup_isSome.1 (isSome_of_eq_some he))
      have hw := hm.witness i w k hs hget
      rw [he, map_some, map_some, some_inj] at hw
      exact ⟨i, hi, hw ▸ hget⟩

/-- **One operation.** Only a pool with entries that is cleared leaves stale pairs. -/
theorem step_lifts {op : Op} (hnew : op.AddsNew h.pool) (hok : op.run h.pool = .ok pool') :
    ∃ h' stale', h.step hash op = .ok h' ∧ h'.pool = pool' ∧ Mirrors hash stale' h' ∧ stale ≤ stale' ∧
      (stale' = stale ↔ op.ClearsEmpty h.pool) := by
  cases op with
  | addUnchecked txid entry setAncestors =>
    obtain ⟨h', hstep, hpool, hm'⟩ := hm.addUnchecked hnew hok
    exact ⟨h', stale, hstep, hpool, hm', le_rfl, iff_of_true rfl trivial⟩
  | mempool op =>
    have hnew' : ∀ tx nFee nTime sigOpCost nBytesPerSigOp limits,
        op = .addUnchecked tx nFee nTime sigOpCost nBytesPerSigOp limits → tx.hash ∉ h.pool.mapTx := by
      rintro tx nFee nTime sigOpCost nBytesPerSigOp limits rfl
      exact hnew
    obtain ⟨h', hstep, hpool, hm'⟩ := run_lifts hm hnew' hok
    exact ⟨h', stale, hstep, hpool, hm', le_rfl, iff_of_true rfl trivial⟩
  | clear =>
    cases hok
    refine ⟨h.clear, h.vTxHashes.length, rfl, rfl, ?_, hm.bound, ?_⟩
    · refine ⟨le_rfl, fun k => Iff.rfl, ?_, fun i w k hi hget => ?_⟩
      · have hlen := positionsFrom_length (h.vTxHashes.map snd)
        rwa [length_map] at hlen
      · have hlt := (List.getElem?_eq_some_iff.1 hget).1
        simp only [clear] at hlt
        omega
    · constructor
      · intro hlen
        refine Finset.eq_empty_of_forall_notMem fun k hk => ?_
        obtain ⟨i, w, -, hi, hget⟩ := hm.lookup_isSome (CTxMemPool.mem_keys.1 hk)
        have hlt := (List.getElem?_eq_some_iff.1 hget).1
        omega
      · intro hempty
        by_contra hne
        have hbound := hm.bound
        have hlast : h.vTxHashes[stale]? = some (h.vTxHashes.get ⟨stale, by omega⟩) := getElem?_eq_getElem _
        have hmem := CTxMemPool.mem_keys.2 (hm.mem_pool le_rfl hlast)
        rw [show h.pool.keys = ∅ from hempty] at hmem
        exact Finset.notMem_empty _ hmem

lemma foldlM_step_lifts {ops : List Op}
    (hnew : Meets Op.run (fun pool op => op.AddsNew pool) h.pool ops) (hok : ops.foldlM Op.run h.pool = .ok pool') :
    ∃ h' stale', ops.foldlM (step hash) h = .ok h' ∧ h'.pool = pool' ∧ Mirrors hash stale' h' ∧ stale ≤ stale' ∧
      (stale' = stale ↔ Meets Op.run (fun pool op => op.ClearsEmpty pool) h.pool ops) := by
  induction ops generalizing h stale with
  | nil =>
    cases hok
    exact ⟨h, stale, rfl, rfl, hm, le_rfl, iff_of_true rfl trivial⟩
  | cons op ops ih =>
    rw [foldlM_cons] at hok
    obtain ⟨pool₁, h₁, hrest⟩ := bind_eq_ok.1 hok
    obtain ⟨hnow, hlater⟩ := hnew
    rw [h₁] at hlater
    obtain ⟨hp₁, s₁, hstep, rfl, hm₁, hle₁, hiff₁⟩ := step_lifts hm hnow h₁
    obtain ⟨h', s', hfold, hpool, hm', hle', hiff'⟩ := ih hm₁ hlater hrest
    refine ⟨h', s', ?_, hpool, hm', by omega, ?_⟩
    · rw [foldlM_cons, hstep]
      exact hfold
    · rw [Meets, h₁, ← hiff₁]
      change s' = stale ↔ s₁ = stale ∧ Meets Op.run (fun pool op => op.ClearsEmpty pool) hp₁.pool ops
      rw [← hiff']
      omega

end

/-- **The list mirrors the pool** after a run if and only if `clear` was called on empty pools only; and no operation
fails because of the list. -/
theorem vTxHashes_mirrors_iff (hash : List UInt8 → Uint256) {ops : List Op} {pool : CTxMemPool}
    (hnew : Meets Op.run (fun pool op => op.AddsNew pool) .empty ops) (hok : ops.foldlM Op.run .empty = .ok pool) :
    ∃ h, ops.foldlM (step hash) empty = .ok h ∧ h.pool = pool ∧
      (MirrorsPool hash h ↔ Meets Op.run (fun pool op => op.ClearsEmpty pool) .empty ops) := by
  obtain ⟨h, stale, hfold, hpool, hm, -, hiff⟩ := foldlM_step_lifts (h := empty) mirrors_empty hnew hok
  exact ⟨h, hfold, hpool, hm.mirrorsPool_iff.trans hiff⟩

end

section

open CTxMemPool (addSpender spender)

/-- A chain of three transactions: a block takes the first, the others are removed, the pool is cleared. -/
theorem vTxHashes_mirrors_iff_chain : ∃ h,
    [.mempool (addSpender 1 0), .mempool (addSpender 2 1), .mempool (addSpender 3 2),
      .mempool (.removeForBlock [spender 1 0]), .mempool (.removeRecursive (spender 2 1)), .clear].foldlM
        (step fun _ => 0) empty = .ok h ∧ MirrorsPool (fun _ => 0) h := by
  obtain ⟨pool, hrun, -⟩ : ∃ pool, [Op.mempool (addSpender 1 0), .mempool (addSpender 2 1), .mempool (addSpender 3 2),
    .mempool (.removeForBlock [spender 1 0]), .mempool (.removeRecursive (spender 2 1)), .clear].foldlM Op.run .empty =
      .ok pool ∧ True := by decide +kernel
  obtain ⟨h, hfold, -, hiff⟩ := vTxHashes_mirrors_iff (fun _ => 0) (by decide +kernel) hrun
  exact ⟨h, hfold, hiff.2 (by decide +kernel)⟩

/-- A pool with one entry is cleared: its pair is still in the list. -/
theorem vTxHashes_stale : ∃ h, [.mempool (addSpender 1 0), .clear].foldlM (step fun _ => 0) empty = .ok h ∧
    ¬ MirrorsPool (fun _ => 0) h := by
  obtain ⟨h, hrun, hpair, hgone⟩ : ∃ h, [.mempool (addSpender 1 0), .clear].foldlM (step fun _ => 0) empty = .ok h ∧
      (1, 1) ∈ h.vTxHashes ∧ 1 ∉ h.pool.mapTx := by decide +kernel
  exact ⟨h, hrun, fun hm => hgone (hm.valid _ hpair)⟩

end

end HashedPool

end Soferox
