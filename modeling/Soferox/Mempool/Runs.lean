import Soferox.Mempool.Operations

/-!
# Runs of the memory pool

`Accurate` is what `CTxMemPool::check` wants to see: links, statistics, spenders and total size are those of the
transactions in the pool. `runs_accurate`: it holds after every sequence of operations on the empty pool, none of
which fails an assertion, as long as (`MempoolOp.Allowed`)

* no transaction is added that conflicts with the pool,
* a transaction that leaves with a block leaves no two others behind that are related through it only, and
* the sums over the whole pool (`Representable`) and the fee deltas fit the types of the source. The model counts in `ℤ`;
  what is stored then fits its type at every moment, and the conversions to `int` and `int64_t` change nothing (`Fits`).

None of the conditions can be dropped (`runs_inaccurate`).
-/

namespace Soferox

open Lib CTxMemPoolEntry Prod Finset

namespace CTxMemPool

/-- `GetTxSize` of an entry, by id. -/
def sizeOf (pool : CTxMemPool) (k : Uint256) : ℤ := (pool.mapTx.lookup k).elim 0 getTxSize

/-- `GetModifiedFee` of an entry, by id. -/
def feeOf (pool : CTxMemPool) (k : Uint256) : CAmount := (pool.mapTx.lookup k).elim 0 getModifiedFee

/-- `GetSigOpCost` of an entry, by id. -/
def sigOpCostOf (pool : CTxMemPool) (k : Uint256) : ℤ := (pool.mapTx.lookup k).elim 0 fun e => e.sigOpCost

/-- The links, and what the entries count of their relatives, are those of the transactions in the pool. -/
structure Exact (pool : CTxMemPool) : Prop where
  links : ∀ k, k ∈ pool.mapLinks ↔ k ∈ pool.keys
  parents : ∀ k ∈ pool.keys, ∀ p, p ∈ (pool.linksOf k).parents ↔ p ∈ pool.keys ∧ pool.Spends k p
  children : ∀ k ∈ pool.keys, ∀ c, c ∈ (pool.linksOf k).children ↔ c ∈ pool.keys ∧ pool.Spends c k
  withDescendants : ∀ k e, pool.mapTx.lookup k = some e →
    e.nCountWithDescendants = (pool.descendants k).card ∧
    e.nSizeWithDescendants = ∑ d ∈ pool.descendants k, pool.sizeOf d ∧
    e.nModFeesWithDescendants = ∑ d ∈ pool.descendants k, pool.feeOf d
  withAncestors : ∀ k e, pool.mapTx.lookup k = some e →
    e.nCountWithAncestors = (pool.ancestors k).card ∧
    e.nSizeWithAncestors = ∑ a ∈ pool.ancestors k, pool.sizeOf a ∧
    e.nModFeesWithAncestors = ∑ a ∈ pool.ancestors k, pool.feeOf a ∧
    e.nSigOpCostWithAncestors = ∑ a ∈ pool.ancestors k, pool.sigOpCostOf a

/-- What the pool keeps is what its transactions say. -/
structure Accurate (pool : CTxMemPool) : Prop extends Exact pool where
  nextTx : ∀ o tx, pool.mapNextTx.lookup o = some tx ↔
    ∃ k e, pool.mapTx.lookup k = some e ∧ e.tx = tx ∧ o ∈ tx.prevouts
  total : pool.totalTxSize = ∑ k ∈ pool.keys, pool.sizeOf k

/-- The sums over the transactions of the pool fit the types of the source: those of sizes and fees an `int64_t`, that
of sigop costs an `int`. -/
def Representable (pool : CTxMemPool) : Prop :=
  ∑ k ∈ pool.keys, pool.sizeOf k < 2 ^ 63 ∧ ∑ k ∈ pool.keys, |pool.feeOf k| < 2 ^ 63 ∧
    ∑ k ∈ pool.keys, pool.sigOpCostOf k < 2 ^ 31

instance {pool : CTxMemPool} : Decidable pool.Representable := inferInstanceAs (Decidable (_ ∧ _))

/-- What the entries count fits the types of the source and passes its assertions. -/
structure Fits (pool : CTxMemPool) : Prop where
  withDescendants : ∀ k e, pool.mapTx.lookup k = some e → 0 < e.nCountWithDescendants ∧
    e.nCountWithDescendants ≤ e.nSizeWithDescendants ∧ e.nSizeWithDescendants < 2 ^ 63 ∧
    |e.nModFeesWithDescendants| < 2 ^ 63
  withAncestors : ∀ k e, pool.mapTx.lookup k = some e → 0 < e.nCountWithAncestors ∧
    e.nCountWithAncestors ≤ e.nSizeWithAncestors ∧ e.nSizeWithAncestors < 2 ^ 63 ∧ |e.nModFeesWithAncestors| < 2 ^ 63 ∧
    0 ≤ e.nSigOpCostWithAncestors ∧ e.nSigOpCostWithAncestors < 2 ^ 31

variable {pool : CTxMemPool} {s : Finset Uint256}

lemma sum_descWeight (hs : s ⊆ pool.keys) :
    ∑ d ∈ s, pool.descWeight d = (∑ d ∈ s, pool.sizeOf d, ∑ d ∈ s, pool.feeOf d, (s.card : ℤ)) := by
  have hw : ∀ d ∈ s, pool.descWeight d = (pool.sizeOf d, pool.feeOf d, 1) := fun d hd => by
    obtain ⟨e, he⟩ := mem_keys_iff_lookup.1 (hs hd)
    simp [descWeight, sizeOf, feeOf, he, CTxMemPoolEntry.descWeight]
  rw [sum_congr rfl hw]
  refine Prod.ext ?_ (Prod.ext ?_ ?_)
  · rw [fst_sum]
  · rw [snd_sum, fst_sum]
  · rw [snd_sum, snd_sum, sum_const, nsmul_one]

lemma sum_ancWeight_eq (hs : s ⊆ pool.keys) : ∑ a ∈ s, pool.ancWeight a =
    (∑ a ∈ s, pool.sizeOf a, ∑ a ∈ s, pool.feeOf a, (s.card : ℤ), ∑ a ∈ s, pool.sigOpCostOf a) := by
  have hw : ∀ a ∈ s, pool.ancWeight a = (pool.sizeOf a, pool.feeOf a, 1, pool.sigOpCostOf a) := fun a ha => by
    obtain ⟨e, he⟩ := mem_keys_iff_lookup.1 (hs ha)
    simp [ancWeight, sizeOf, feeOf, sigOpCostOf, he, CTxMemPoolEntry.ancWeight]
  rw [sum_congr rfl hw]
  refine Prod.ext ?_ (Prod.ext ?_ (Prod.ext ?_ ?_))
  · rw [fst_sum]
  · rw [snd_sum, fst_sum]
  · rw [snd_sum, snd_sum, fst_sum, sum_const, nsmul_one]
  · rw [snd_sum, snd_sum, snd_sum]

lemma exact_of_sums (hlinks : ∀ k, k ∈ pool.mapLinks ↔ k ∈ pool.keys)
    (hparents : ∀ k p, p ∈ (pool.linksOf k).parents ↔ Within pool.Spends pool.keys k p)
    (hchildren : ∀ k c, c ∈ (pool.linksOf k).children ↔ Within pool.Spends pool.keys c k)
    (hdesc : ∀ k e, pool.mapTx.lookup k = some e → e.withDescendants = ∑ d ∈ pool.descendants k, pool.descWeight d)
    (hanc : ∀ k e, pool.mapTx.lookup k = some e → e.withAncestors = ∑ a ∈ pool.ancestors k, pool.ancWeight a) :
    pool.Exact where
  links := hlinks
  parents := fun k hk p => (hparents k p).trans ⟨And.right, fun hp => ⟨hk, hp⟩⟩
  children := fun k hk c => (hchildren k c).trans ⟨fun hc => ⟨hc.1, hc.2.2⟩, fun hc => ⟨hc.1, hk, hc.2⟩⟩
  withDescendants := fun k e he => by
    have hd := hdesc k e he
    rw [sum_descWeight descendants_subset] at hd
    simp only [CTxMemPoolEntry.withDescendants, Prod.mk.injEq] at hd
    exact ⟨hd.2.2, hd.1, hd.2.1⟩
  withAncestors := fun k e he => by
    have ha := hanc k e he
    rw [sum_ancWeight_eq ancestors_subset] at ha
    simp only [CTxMemPoolEntry.withAncestors, Prod.mk.injEq] at ha
    exact ⟨ha.2.2.1, ha.1, ha.2.1, ha.2.2.2⟩

lemma Bookkeeping.accurate (h : pool.Bookkeeping) : pool.Accurate where
  toExact := exact_of_sums h.links h.parents h.children h.desc h.anc
  nextTx := fun o tx => by
    rw [h.nextTx]
    constructor
    · rintro ⟨e, he, htx, ho⟩
      exact ⟨_, e, he, htx, ho⟩
    · rintro ⟨k, e, he, rfl, ho⟩
      exact ⟨e, h.hash_eq k e he ▸ he, rfl, ho⟩
  total := by
    rw [h.total, ← fst_sum, sum_descWeight (Finset.Subset.refl _)]

section

variable (hr : pool.Representable) (hs : s ⊆ pool.keys)
include hr hs

/-- What is summed over some transactions of the pool fits because the sum over all of them does. -/
lemma Representable.sums_lt : (s.card : ℤ) ≤ ∑ k ∈ s, pool.sizeOf k ∧ ∑ k ∈ s, pool.sizeOf k < 2 ^ 63 ∧
    |∑ k ∈ s, pool.feeOf k| < 2 ^ 63 ∧ 0 ≤ ∑ k ∈ s, pool.sigOpCostOf k ∧ ∑ k ∈ s, pool.sigOpCostOf k < 2 ^ 31 := by
  have hpos : ∀ k ∈ pool.keys, 1 ≤ pool.sizeOf k ∧ 0 ≤ pool.sigOpCostOf k := fun k hk => by
    obtain ⟨e, he⟩ := mem_keys_iff_lookup.1 hk
    rw [sizeOf, sigOpCostOf, he]
    exact ⟨e.getTxSize_pos, Int.natCast_nonneg _⟩
  refine ⟨?_, lt_of_le_of_lt ?_ hr.1, lt_of_le_of_lt ?_ hr.2.1, ?_, lt_of_le_of_lt ?_ hr.2.2⟩
  · rw [card_eq_sum_ones, Nat.cast_sum]
    exact sum_le_sum fun k hk => (hpos k (hs hk)).1
  · exact sum_le_sum_of_subset_of_nonneg hs fun k hk _ => zero_le_one.trans (hpos k hk).1
  · exact (abs_sum_le_sum_abs _ _).trans (sum_le_sum_of_subset_of_nonneg hs fun _ _ _ => abs_nonneg _)
  · exact sum_nonneg fun k hk => (hpos k (hs hk)).2
  · exact sum_le_sum_of_subset_of_nonneg hs fun k hk _ => (hpos k hk).2

end

/-- **Exact books of a pool with representable sums fit.** -/
theorem Exact.fits (h : pool.Exact) (hr : pool.Representable) : pool.Fits where
  withDescendants := fun k e he => by
    obtain ⟨hcard, hsize, hfee, -⟩ := hr.sums_lt (descendants_subset (k := k))
    obtain ⟨h₁, h₂, h₃⟩ := h.withDescendants k e he
    rw [h₁, h₂, h₃]
    exact ⟨Int.natCast_pos.2 (card_pos.2 ⟨k, self_mem_descendants (mem_keys_of_lookup he)⟩), hcard, hsize, hfee⟩
  withAncestors := fun k e he => by
    obtain ⟨hcard, hsize, hfee, hsig⟩ := hr.sums_lt (ancestors_subset (k := k))
    obtain ⟨h₁, h₂, h₃, h₄⟩ := h.withAncestors k e he
    rw [h₁, h₂, h₃, h₄]
    exact ⟨Int.natCast_pos.2 (card_pos.2 ⟨k, self_mem_ancestors (mem_keys_of_lookup he)⟩), hcard, hsize, hfee, hsig⟩

/-! ## Operations -/

inductive MempoolOp where
  /-- `CalculateMemPoolAncestors` with limits and, when it returns `true`, `addUnchecked` -/
  | addUnchecked (tx : CTransaction) (nFee : CAmount) (nTime : ℤ) (sigOpCost nBytesPerSigOp : ℕ) (limits : PackageLimits)
  | removeStaged (stage : SetEntries) (updateDescendants : Bool)
  | removeForBlock (vtx : List CTransaction)
  | removeConflicts (tx : CTransaction)
  | removeRecursive (origTx : CTransaction)
  | expire (time : ℤ)
  | trimToSize (dynamicMemoryUsage : CTxMemPool → ℕ) (descendantScore : CTxMemPoolEntry → CTxMemPoolEntry → Bool)
      (sizelimit : ℕ)
  | prioritiseTransaction (hash : Uint256) (nFeeDelta : CAmount)

def MempoolOp.run (pool : CTxMemPool) : MempoolOp → Except PoolError CTxMemPool
  | .addUnchecked tx nFee nTime sigOpCost nBytesPerSigOp limits =>
    let entry := CTxMemPoolEntry.new tx nFee nTime sigOpCost nBytesPerSigOp
    match pool.calculateMemPoolAncestors entry limits true with
    | .ok setAncestors => pool.addUnchecked tx.hash entry setAncestors
    | .error (.limit _) => .ok pool
    | .error e => .error e
  | .removeStaged stage updateDescendants => pool.removeStaged stage updateDescendants
  | .removeForBlock vtx => pool.removeForBlock vtx
  | .removeConflicts tx => pool.removeConflicts tx
  | .removeRecursive origTx => pool.removeRecursive origTx
  | .expire time => pool.expire time
  | .trimToSize dynamicMemoryUsage descendantScore sizelimit =>
    (pool.trimToSize dynamicMemoryUsage descendantScore sizelimit).map Prod.fst
  | .prioritiseTransaction hash nFeeDelta => pool.prioritiseTransaction hash nFeeDelta

/-- A transaction that `addUnchecked` may be given: it is new and nobody in the larger pool spends it. -/
def Addable (pool : CTxMemPool) (tx : CTransaction) : Prop :=
  tx.hash ∉ pool.keys ∧ (∀ k ∈ pool.keys, ¬ pool.Spends k tx.hash) ∧ ∀ o ∈ tx.prevouts, o.hash ≠ tx.hash

/-- The set has all descendants of its elements. -/
def ClosedStage (pool : CTxMemPool) (stage : SetEntries) : Prop :=
  (∀ k ∈ stage, k ∈ pool.keys) ∧ ∀ k ∈ stage, ∀ c ∈ pool.keys, pool.Spends c k → c ∈ stage

instance {pool : CTxMemPool} {tx : CTransaction} : Decidable (pool.Addable tx) :=
  inferInstanceAs (Decidable (tx.hash ∉ pool.keys ∧ (∀ k ∈ pool.keys, ¬ pool.Spends k tx.hash) ∧
    ∀ o ∈ tx.prevouts, o.hash ≠ tx.hash))

/-- What each operation asks for by itself. -/
def MempoolOp.Applicable (pool : CTxMemPool) : MempoolOp → Prop
  | .addUnchecked tx .. => pool.Addable tx
  | .removeStaged stage _ => pool.ClosedStage stage
  | _ => True

/-- What the callers make sure of: `AcceptToMemoryPool` removes conflicts before it adds, and a block has parents before
children. `around` is asked of the transactions of a block in turn. -/
def MempoolOp.AllowedWith (around : CTxMemPool → CTransaction → Prop) (pool : CTxMemPool) (op : MempoolOp) : Prop :=
  (match op with
    | .addUnchecked tx .. => pool.Addable tx ∧ ∀ o ∈ tx.prevouts, pool.mapNextTx.lookup o = none
    | .removeStaged stage _ => pool.ClosedStage stage
    | .removeForBlock vtx => Meets removeBlockTx around pool vtx
    | _ => True) ∧
  ∀ pool', op.run pool = .ok pool' →
    pool'.Representable ∧ ∀ delta ∈ pool'.mapDeltas.entries, |delta.2| < 2 ^ 63

/-- The three conditions on an operation. -/
def MempoolOp.Allowed (pool : CTxMemPool) (op : MempoolOp) : Prop := op.AllowedWith Skippable pool

/-- The transaction has no parent in the pool, as when those in the block before it are gone. -/
def ParentsGone (pool : CTxMemPool) (tx : CTransaction) : Prop := ∀ p ∈ pool.keys, ¬ pool.Spends tx.hash p

instance {pool : CTxMemPool} {stage : SetEntries} : Decidable (pool.ClosedStage stage) :=
  @instDecidableAnd _ _ (List.decidableBAll _ stage.toList) (List.decidableBAll _ stage.toList)

instance {pool : CTxMemPool} : ∀ op : MempoolOp, Decidable (op.Applicable pool)
  | .addUnchecked tx .. => inferInstanceAs (Decidable (pool.Addable tx))
  | .removeStaged stage _ => inferInstanceAs (Decidable (pool.ClosedStage stage))
  | .removeForBlock _ | .removeConflicts _ | .removeRecursive _ | .expire _ | .trimToSize ..
  | .prioritiseTransaction .. => .isTrue trivial

instance {pool : CTxMemPool} {tx : CTransaction} : Decidable (pool.ParentsGone tx) :=
  inferInstanceAs (Decidable (∀ p ∈ pool.keys, ¬ pool.Spends tx.hash p))

instance {pool : CTxMemPool} : ∀ op : MempoolOp, Decidable (op.AllowedWith ParentsGone pool)
  | .addUnchecked .. | .removeStaged .. | .removeForBlock _ | .removeConflicts _ | .removeRecursive _ | .expire _
  | .trimToSize .. | .prioritiseTransaction .. => inferInstanceAs (Decidable (_ ∧ _))

lemma ParentsGone.skippable {tx : CTransaction} (h : pool.ParentsGone tx) : pool.Skippable tx := fun _ =>
  bypassed_of_closed (.inl (closedIn_singleton_of_no_successor h))

lemma MempoolOp.AllowedWith.allowed {op : MempoolOp} (h : op.AllowedWith ParentsGone pool) : op.Allowed pool := by
  refine ⟨?_, h.2⟩
  cases op with
  | removeForBlock vtx => exact h.1.imp fun _ _ => ParentsGone.skippable
  | _ => exact h.1

lemma MempoolOp.run_consistent (h : pool.Consistent) {op : MempoolOp} (hop : op.Allowed pool) :
    ∃ pool', op.run pool = .ok pool' ∧ pool'.Consistent := by
  replace hop := hop.1
  cases op with
  | addUnchecked tx nFee nTime sigOpCost nBytesPerSigOp limits =>
    obtain ⟨⟨hnew, hchild, hself⟩, hconf⟩ := hop
    simp only [MempoolOp.run]
    rcases calculateMemPoolAncestors_cases h.books.upTo.parentsLinked
      (CTxMemPoolEntry.new tx nFee nTime sigOpCost nBytesPerSigOp) limits with ⟨S, hS, -⟩ | ⟨l, hl⟩
    · rw [hS]
      exact addUnchecked_ok h (new_fresh ..) hnew hself hchild hconf hS
    · rw [hl]
      exact ⟨pool, rfl, h⟩
  | removeStaged stage updateDescendants =>
    exact removeStaged_consistent h updateDescendants hop.1 hop.2
  | removeForBlock vtx => exact removeForBlock_ok h hop
  | removeConflicts tx =>
    obtain ⟨pool', hok, hc, -⟩ := removeConflicts_ok h tx
    exact ⟨pool', hok, hc⟩
  | removeRecursive origTx => exact removeRecursive_ok h origTx
  | expire time => exact expire_ok h time
  | trimToSize usage score sizelimit =>
    obtain ⟨pool', v, hok, hc, -⟩ := trimToSize_ok h usage score sizelimit
    exact ⟨pool', by simp only [MempoolOp.run, hok]; rfl, hc⟩
  | prioritiseTransaction hash nFeeDelta => exact prioritiseTransaction_ok h hash nFeeDelta

lemma foldlM_run_ok {ops : List MempoolOp} (hops : Meets MempoolOp.run MempoolOp.Allowed empty ops) :
    ∃ pool, ops.foldlM MempoolOp.run empty = .ok pool ∧ pool.Consistent ∧ pool.Representable := by
  refine hops.exists_foldlM (I := fun pool => pool.Consistent ∧ pool.Representable) (fun pool op _ h hop => ?_)
    ⟨consistent_empty, by decide⟩
  obtain ⟨pool', hrun, hc⟩ := MempoolOp.run_consistent h.1 hop
  exact ⟨pool', hrun, hc, (hop.2 pool' hrun).1⟩

/-- An allowed run, and what is decided about the pool it leaves. -/
lemma exists_run (ops : List MempoolOp) (p : CTxMemPool → Prop)
    (hops : Meets MempoolOp.run (MempoolOp.AllowedWith ParentsGone) empty ops)
    (hp : ∃ pool, ops.foldlM MempoolOp.run empty = .ok pool ∧ p pool) :
    ∃ pool, ops.foldlM MempoolOp.run empty = .ok pool ∧ pool.Consistent ∧ p pool := by
  obtain ⟨pool, hrun, hp⟩ := hp
  obtain ⟨pool', hrun', hc, -⟩ := foldlM_run_ok (hops.imp fun _ _ => MempoolOp.AllowedWith.allowed)
  obtain rfl : pool = pool' := Except.ok.inj (hrun.symm.trans hrun')
  exact ⟨pool, hrun, hc, hp⟩

/-- **The books of the memory pool.** Every sequence of allowed operations on the empty pool runs to its end, the
pool it leaves is accurate, and what it stores fits its types. -/
theorem runs_accurate (ops : List MempoolOp) (hops : Meets MempoolOp.run MempoolOp.Allowed empty ops) :
    ∃ pool, ops.foldlM MempoolOp.run empty = .ok pool ∧ pool.Accurate ∧ pool.Fits := by
  obtain ⟨pool, hok, hc, hr⟩ := foldlM_run_ok hops
  exact ⟨pool, hok, hc.books.accurate, hc.books.accurate.fits hr⟩

/-! ## Runs with and without the conditions -/

/-- A transaction that spends output 0 of another one. -/
def spender (hash prev : Uint256) : CTransaction := ⟨hash, 1, [⟨⟨prev, 0⟩, [], 0, []⟩], [⟨1, []⟩], 0⟩

/-- Adding such a transaction without package limits. -/
def addSpender (hash prev : Uint256) : MempoolOp := .addUnchecked (spender hash prev) 10 0 4 20 .none

/-- A chain of three transactions, the first two of which are confirmed. -/
theorem runs_accurate_example : ∃ pool, [addSpender 1 0, addSpender 2 1, addSpender 3 2, .prioritiseTransaction 2 500,
    .removeForBlock [spender 1 0, spender 2 1]].foldlM MempoolOp.run empty = .ok pool ∧ pool.Accurate ∧ pool.Fits := by
  have hops : Meets MempoolOp.run (MempoolOp.AllowedWith ParentsGone) empty [addSpender 1 0, addSpender 2 1,
      addSpender 3 2, .prioritiseTransaction 2 500, .removeForBlock [spender 1 0, spender 2 1]] := by
    decide +kernel
  exact runs_accurate _ (hops.imp fun _ _ => MempoolOp.AllowedWith.allowed)

/-- Operations that break a book: two transactions that spend the same output (`mapNextTx` knows the first only); a
block with the middle one of a chain of three (the first one still counts the last as its descendant); a transaction and
its child prioritised by the same large amount (the fees of the two do not fit an `int64_t`); and two transactions whose
sigop costs together do not fit an `int`, so that the assertion on the cost with ancestors fails. -/
theorem runs_inaccurate :
    (∃ pool, Meets MempoolOp.run MempoolOp.Applicable empty [addSpender 1 0, addSpender 2 0] ∧
      [addSpender 1 0, addSpender 2 0].foldlM MempoolOp.run empty = .ok pool ∧ ¬ pool.Accurate) ∧
    (∃ pool, Meets MempoolOp.run MempoolOp.Applicable empty
        [addSpender 1 0, addSpender 2 1, addSpender 3 2, .removeForBlock [spender 2 1]] ∧
      [addSpender 1 0, addSpender 2 1, addSpender 3 2, .removeForBlock [spender 2 1]].foldlM MempoolOp.run empty =
        .ok pool ∧ ¬ pool.Accurate) ∧
    (∃ pool, Meets MempoolOp.run MempoolOp.Applicable empty [addSpender 1 0, addSpender 2 1,
        .prioritiseTransaction 1 6917529027641081856, .prioritiseTransaction 2 6917529027641081856] ∧
      [addSpender 1 0, addSpender 2 1, .prioritiseTransaction 1 6917529027641081856,
        .prioritiseTransaction 2 6917529027641081856].foldlM MempoolOp.run empty = .ok pool ∧ ¬ pool.Fits) ∧
    ∃ pool, Meets MempoolOp.run MempoolOp.Applicable empty
        [.addUnchecked (spender 1 0) 10 0 (2 ^ 30) 20 .none, .addUnchecked (spender 2 1) 10 0 (2 ^ 30) 20 .none] ∧
      [.addUnchecked (spender 1 0) 10 0 (2 ^ 30) 20 .none, .addUnchecked (spender 2 1) 10 0 (2 ^ 30) 20 .none].foldlM
        MempoolOp.run empty = .ok pool ∧ ¬ pool.Fits := by
  refine ⟨?_, ?_, ?_, ?_⟩
  · obtain ⟨pool, hrun, hfirst, e, he, htx⟩ : ∃ pool,
        [addSpender 1 0, addSpender 2 0].foldlM MempoolOp.run empty = .ok pool ∧
        pool.mapNextTx.lookup ⟨0, 0⟩ = some (spender 1 0) ∧ ∃ e ∈ pool.mapTx.lookup 2, e.tx = spender 2 0 := by
      decide +kernel
    refine ⟨pool, by decide +kernel, hrun, fun hacc => ?_⟩
    have hnext := (hacc.nextTx ⟨0, 0⟩ (spender 2 0)).2 ⟨2, e, he, htx, by decide⟩
    rw [hfirst] at hnext
    exact absurd hnext (by decide)
  · obtain ⟨pool, hrun, hnone, e, he, hcount⟩ : ∃ pool, [addSpender 1 0, addSpender 2 1, addSpender 3 2,
        .removeForBlock [spender 2 1]].foldlM MempoolOp.run empty = .ok pool ∧ (∀ c ∈ pool.keys, ¬ pool.Spends c 1) ∧
        ∃ e ∈ pool.mapTx.lookup 1, e.nCountWithDescendants = 2 := by
      decide +kernel
    refine ⟨pool, by decide +kernel, hrun, fun hacc => ?_⟩
    have hdesc := (hacc.withDescendants 1 e he).1
    rw [descendants, reach_eq_singleton (mem_keys_of_lookup he) hnone, hcount] at hdesc
    exact absurd hdesc (by decide)
  · obtain ⟨pool, hrun, e, he, hfees⟩ : ∃ pool, [addSpender 1 0, addSpender 2 1,
        .prioritiseTransaction 1 6917529027641081856, .prioritiseTransaction 2 6917529027641081856].foldlM
          MempoolOp.run empty = .ok pool ∧
        ∃ e ∈ pool.mapTx.lookup 1, ¬ |e.nModFeesWithDescendants| < 2 ^ 63 := by
      decide +kernel
    exact ⟨pool, by decide +kernel, hrun, fun hfits => hfees (hfits.withDescendants 1 e he).2.2.2⟩
  · obtain ⟨pool, hrun, e, he, hcost⟩ : ∃ pool, [.addUnchecked (spender 1 0) 10 0 (2 ^ 30) 20 .none,
        .addUnchecked (spender 2 1) 10 0 (2 ^ 30) 20 .none].foldlM MempoolOp.run empty = .ok pool ∧
        ∃ e ∈ pool.mapTx.lookup 2, ¬ e.nSigOpCostWithAncestors < 2 ^ 31 := by
      decide +kernel
    exact ⟨pool, by decide +kernel, hrun, fun hfits => hcost (hfits.withAncestors 2 e he).2.2.2.2.2⟩

end CTxMemPool

end Soferox
