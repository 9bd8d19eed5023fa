import Soferox.Lib.Keyed
import Soferox.Mempool.Walk

/-!
# Entries and links under updates

The loops of `txmempool.cpp` add one amount to the statistics of a set of entries, or take one entry out of the links
of a set of entries. `HasStats` says that a pool holds the entries of another one with given statistics;
`foldlM_updateDescendantState` and `foldlM_updateAncestorState` are the loops over the statistics, `foldl_alterLinks`
the one over the links.
-/

namespace Soferox

open Lib Function OrdSet List

namespace CTxMemPoolEntry

/-- Size, modified fee and number of a set of descendants. -/
abbrev DescendantState := ℤ × CAmount × ℤ

/-- Size, modified fee, number and sigop cost of a set of ancestors. -/
abbrev AncestorState := ℤ × CAmount × ℤ × ℤ

/-- What an entry counts for in its ancestors. -/
def descWeight (e : CTxMemPoolEntry) : DescendantState := (e.getTxSize, e.getModifiedFee, 1)

/-- What an entry counts for in its descendants. -/
def ancWeight (e : CTxMemPoolEntry) : AncestorState := (e.getTxSize, e.getModifiedFee, 1, e.sigOpCost)

def withDescendants (e : CTxMemPoolEntry) : DescendantState :=
  (e.nSizeWithDescendants, e.nModFeesWithDescendants, e.nCountWithDescendants)

def withAncestors (e : CTxMemPoolEntry) : AncestorState :=
  (e.nSizeWithAncestors, e.nModFeesWithAncestors, e.nCountWithAncestors, e.nSigOpCostWithAncestors)

/-- The entry with other statistics. -/
def setStats (d : DescendantState) (a : AncestorState) (e : CTxMemPoolEntry) : CTxMemPoolEntry :=
  { e with
    nSizeWithDescendants := d.1
    nModFeesWithDescendants := d.2.1
    nCountWithDescendants := d.2.2
    nSizeWithAncestors := a.1
    nModFeesWithAncestors := a.2.1
    nCountWithAncestors := a.2.2.1
    nSigOpCostWithAncestors := a.2.2.2 }

section setStats

variable (d d' : DescendantState) (a a' : AncestorState) (e : CTxMemPoolEntry)

@[simp] lemma setStats_tx : (e.setStats d a).tx = e.tx := rfl
@[simp] lemma setStats_feeDelta : (e.setStats d a).feeDelta = e.feeDelta := rfl
@[simp] lemma setStats_descWeight : (e.setStats d a).descWeight = e.descWeight := rfl
@[simp] lemma setStats_ancWeight : (e.setStats d a).ancWeight = e.ancWeight := rfl
@[simp] lemma setStats_withDescendants : (e.setStats d a).withDescendants = d := rfl
@[simp] lemma setStats_withAncestors : (e.setStats d a).withAncestors = a := rfl
@[simp] lemma setStats_setStats : (e.setStats d a).setStats d' a' = e.setStats d' a' := rfl
@[simp] lemma setStats_self : e.setStats e.withDescendants e.withAncestors = e := rfl

end setStats

/-- What the assertions of `UpdateDescendantState` ask for. -/
def DescendantState.Positive (d : DescendantState) : Prop := 0 < d.1 ∧ 0 < d.2.2

/-- What the assertions of `UpdateAncestorState` ask for. -/
def AncestorState.Positive (a : AncestorState) : Prop := 0 < a.1 ∧ 0 < a.2.2.1 ∧ 0 ≤ a.2.2.2

variable {a : AncestorState}

lemma updateDescendantState_ok {d δ : DescendantState} (h : DescendantState.Positive (d + δ))
    (e : CTxMemPoolEntry) : (e.setStats d a).updateDescendantState δ.1 δ.2.1 δ.2.2 = .ok (e.setStats (d + δ) a) :=
  if_pos h

variable {d : DescendantState}

lemma updateAncestorState_ok {a δ : AncestorState} (h : AncestorState.Positive (a + δ)) (e : CTxMemPoolEntry) :
    (e.setStats d a).updateAncestorState δ.1 δ.2.1 δ.2.2.1 δ.2.2.2 = .ok (e.setStats d (a + δ)) :=
  if_pos h

lemma getTxSize_pos (e : CTxMemPoolEntry) : 0 < e.getTxSize := by
  have hw : 10 ≤ e.nTxWeight := by
    rw [e.nTxWeight_eq, getTransactionWeight, CTransaction.strippedSize]
    simp only [WITNESS_SCALE_FACTOR, compactSizeSize]
    split_ifs <;> omega
  have hm : e.nTxWeight ≤ max e.nTxWeight (e.sigOpCost * e.nBytesPerSigOp) := le_max_left ..
  unfold getTxSize getVirtualTransactionSize WITNESS_SCALE_FACTOR
  omega

end CTxMemPoolEntry

namespace CTxMemPool

open CTxMemPoolEntry

/-! ## Statistics -/

/-- `pool` holds the entries of `pool₀`, with descendant statistics `D` and ancestor statistics `A`. -/
def HasStats (pool₀ pool : CTxMemPool) (D : Uint256 → DescendantState) (A : Uint256 → AncestorState) : Prop :=
  ∀ k, pool.mapTx.lookup k = (pool₀.mapTx.lookup k).map (setStats (D k) (A k))

section HasStats

variable {pool₀ pool : CTxMemPool} {D : Uint256 → DescendantState} {A : Uint256 → AncestorState}

lemma HasStats.self (pool : CTxMemPool) : HasStats pool pool
    (fun k => (pool.mapTx.lookup k).elim 0 CTxMemPoolEntry.withDescendants)
    (fun k => (pool.mapTx.lookup k).elim 0 CTxMemPoolEntry.withAncestors) := fun k => by
  cases hk : pool.mapTx.lookup k with
  | none => rfl
  | some e => simp [hk]

section

variable (h : HasStats pool₀ pool D A) {e : CTxMemPoolEntry} {k : Uint256}
include h

lemma HasStats.keys_eq : pool.keys = pool₀.keys := by
  ext k
  rw [mem_keys_iff_lookup, mem_keys_iff_lookup, h k]
  simp

variable (he : pool₀.mapTx.lookup k = some e)
include he

lemma HasStats.lookup : pool.mapTx.lookup k = some (e.setStats (D k) (A k)) := by
  rw [h k, he, Option.map_some]

lemma HasStats.modify {f : CTxMemPoolEntry → Except PoolError CTxMemPoolEntry}
    (hf : f (e.setStats (D k) (A k)) = .ok (e.setStats d a)) : ∃ m, pool.modify k f = .ok { pool with mapTx := m } ∧
      HasStats pool₀ { pool with mapTx := m } (update D k d) (update A k a) := by
  refine ⟨pool.mapTx.insert k (e.setStats d a), ?_, fun i => ?_⟩
  · rw [CTxMemPool.modify, deref_eq_ok.2 (h.lookup he)]
    simp only [bind, Except.bind, hf]
    rfl
  · by_cases hi : i = k
    · subst hi
      rw [update_self, update_self, he]
      exact AList.lookup_insert _
    · rw [update_of_ne hi, update_of_ne hi, ← h i]
      exact AList.lookup_insert_ne hi

end

lemma foldlM_setStats {l : List Uint256} (hl : l.Nodup) (h : HasStats pool₀ pool D A) (hin : ∀ k ∈ l, k ∈ pool₀.keys)
    {f : CTxMemPoolEntry → Except PoolError CTxMemPoolEntry} {D' : Uint256 → DescendantState}
    {A' : Uint256 → AncestorState}
    (hf : ∀ k ∈ l, ∀ e : CTxMemPoolEntry, f (e.setStats (D k) (A k)) = .ok (e.setStats (D' k) (A' k))) :
    ∃ m, l.foldlM (fun pool k => pool.modify k f) pool = .ok { pool with mapTx := m } ∧
      HasStats pool₀ { pool with mapTx := m } (fun k => if k ∈ l then D' k else D k)
        (fun k => if k ∈ l then A' k else A k) := by
  induction l generalizing pool D A with
  | nil => exact ⟨pool.mapTx, rfl, by simpa using h⟩
  | cons i l ih =>
    obtain ⟨hil, hl⟩ := nodup_cons.1 hl
    obtain ⟨e, he⟩ := mem_keys_iff_lookup.1 (hin i mem_cons_self)
    obtain ⟨m₁, hm₁, h₁⟩ := h.modify he (hf i mem_cons_self e)
    have hf₁ : ∀ k ∈ l, ∀ e : CTxMemPoolEntry, f (e.setStats (update D i (D' i) k) (update A i (A' i) k)) =
        .ok (e.setStats (D' k) (A' k)) := fun k hk e => by
      have hki : k ≠ i := fun hki => hil (hki ▸ hk)
      rw [update_of_ne hki, update_of_ne hki]
      exact hf k (mem_cons_of_mem _ hk) e
    obtain ⟨m, hm, hs⟩ := ih hl h₁ (fun k hk => hin k (mem_cons_of_mem _ hk)) hf₁
    refine ⟨m, by rw [foldlM_cons, hm₁]; exact hm, fun k => (hs k).trans ?_⟩
    by_cases hki : k = i
    · subst hki
      simp [hil]
    · simp [hki]

lemma foldlM_updateDescendantState (h : HasStats pool₀ pool D A) (s : SetEntries) (δ : DescendantState)
    (hin : ∀ k ∈ s, k ∈ pool₀.keys) (hpos : ∀ k ∈ s, DescendantState.Positive (D k + δ)) :
    ∃ m, s.toList.foldlM (fun pool k => pool.modify k (·.updateDescendantState δ.1 δ.2.1 δ.2.2)) pool =
        .ok { pool with mapTx := m } ∧
      HasStats pool₀ { pool with mapTx := m } (fun k => if k ∈ s then D k + δ else D k) A := by
  obtain ⟨m, hm, hs⟩ := foldlM_setStats s.nodup h hin fun k hk => updateDescendantState_ok (hpos k hk)
  exact ⟨m, hm, by simpa only [ite_self, mem_toList] using hs⟩

lemma foldlM_updateAncestorState (h : HasStats pool₀ pool D A) (s : SetEntries) (δ : AncestorState)
    (hin : ∀ k ∈ s, k ∈ pool₀.keys) (hpos : ∀ k ∈ s, AncestorState.Positive (A k + δ)) :
    ∃ m, s.toList.foldlM (fun pool k => pool.modify k (·.updateAncestorState δ.1 δ.2.1 δ.2.2.1 δ.2.2.2)) pool =
        .ok { pool with mapTx := m } ∧
      HasStats pool₀ { pool with mapTx := m } D (fun k => if k ∈ s then A k + δ else A k) := by
  obtain ⟨m, hm, hs⟩ := foldlM_setStats s.nodup h hin fun k hk => updateAncestorState_ok (hpos k hk)
  exact ⟨m, hm, by simpa only [ite_self, mem_toList] using hs⟩

end HasStats

/-! ## Links -/

section links

variable (pool : CTxMemPool)

/-- Both `UpdateChild` and `UpdateParent` replace the links of one entry. -/
def alterLinks (k : Uint256) (f : TxLinks → TxLinks) : CTxMemPool :=
  { pool with mapLinks := pool.mapLinks.insert k (f (pool.linksOf k)) }

lemma updateChild_eq (k child : Uint256) (add : Bool) : pool.updateChild k child add = pool.alterLinks k fun links =>
    { links with children := if add then links.children.insert child else links.children.erase child } := rfl

lemma updateParent_eq (k parent : Uint256) (add : Bool) : pool.updateParent k parent add = pool.alterLinks k fun links =>
    { links with parents := if add then links.parents.insert parent else links.parents.erase parent } := rfl

lemma alterLinks_linksOf (k i : Uint256) (f : TxLinks → TxLinks) :
    (pool.alterLinks k f).linksOf i = if i = k then f (pool.linksOf i) else pool.linksOf i := by
  unfold alterLinks linksOf
  rw [lookup_insert_eq_ite]
  split_ifs with hi
  · rw [hi, Option.getD_some]
  · rfl

lemma updateChild_parents (k child i : Uint256) (add : Bool) :
    ((pool.updateChild k child add).linksOf i).parents = (pool.linksOf i).parents := by
  rw [updateChild_eq, alterLinks_linksOf]
  split_ifs <;> rfl

lemma updateParent_children (k parent i : Uint256) (add : Bool) :
    ((pool.updateParent k parent add).linksOf i).children = (pool.linksOf i).children := by
  rw [updateParent_eq, alterLinks_linksOf]
  split_ifs <;> rfl

lemma mem_updateChild_children {k child i x : Uint256} : x ∈ ((pool.updateChild k child true).linksOf i).children ↔
    x ∈ (pool.linksOf i).children ∨ (i = k ∧ x = child) := by
  rw [updateChild_eq, alterLinks_linksOf]
  by_cases hi : i = k
  · rw [if_pos hi, if_pos rfl, mem_insert, and_iff_right hi, or_comm]
  · rw [if_neg hi, or_iff_left fun h => hi h.1]

lemma mem_updateParent_parents {k parent i x : Uint256} : x ∈ ((pool.updateParent k parent true).linksOf i).parents ↔
    x ∈ (pool.linksOf i).parents ∨ (i = k ∧ x = parent) := by
  rw [updateParent_eq, alterLinks_linksOf]
  by_cases hi : i = k
  · rw [if_pos hi, if_pos rfl, mem_insert, and_iff_right hi, or_comm]
  · rw [if_neg hi, or_iff_left fun h => hi h.1]

lemma foldl_alterLinks {l : List Uint256} (hl : l.Nodup) (f : TxLinks → TxLinks) :
    ∃ L, l.foldl (fun pool k => pool.alterLinks k f) pool = { pool with mapLinks := L } ∧
      (∀ i, ({ pool with mapLinks := L } : CTxMemPool).linksOf i =
        if i ∈ l then f (pool.linksOf i) else pool.linksOf i) ∧
      ∀ i, i ∈ L ↔ i ∈ pool.mapLinks ∨ i ∈ l := by
  induction l generalizing pool with
  | nil => exact ⟨pool.mapLinks, rfl, fun i => by simp, fun i => by simp⟩
  | cons k l ih =>
    obtain ⟨hkl, hl⟩ := nodup_cons.1 hl
    obtain ⟨L, hL, hlinks, hkeys⟩ := ih (pool.alterLinks k f) hl
    refine ⟨L, hL, fun i => (hlinks i).trans ?_, fun i => (hkeys i).trans ?_⟩
    · rw [alterLinks_linksOf]
      by_cases hik : i = k
      · subst hik
        simp [hkl]
      · simp [hik]
    · rw [alterLinks, AList.mem_insert, mem_cons]
      tauto

end links

/-! ## `UpdateAncestorsOf` -/

/-- `pool'` is `pool` after `UpdateAncestorsOf`: the parents of `it` gain or lose a child, and `δ` is added to the
descendant statistics of `S`. -/
structure AncestorsUpdated (pool₀ pool pool' : CTxMemPool) (D : Uint256 → DescendantState) (A : Uint256 → AncestorState)
    (add : Bool) (it : Uint256) (S : SetEntries) (δ : DescendantState) : Prop where
  stats : HasStats pool₀ pool' (fun k => if k ∈ S then D k + δ else D k) A
  links : ∀ k, k ∈ pool'.mapLinks ↔ k ∈ pool.mapLinks
  parents : ∀ k, (pool'.linksOf k).parents = (pool.linksOf k).parents
  children : ∀ k, (pool'.linksOf k).children = if k ∈ (pool.linksOf it).parents then
    (if add then (pool.linksOf k).children.insert it else (pool.linksOf k).children.erase it)
    else (pool.linksOf k).children
  nextTx : pool'.mapNextTx = pool.mapNextTx
  deltas : pool'.mapDeltas = pool.mapDeltas
  total : pool'.totalTxSize = pool.totalTxSize

lemma updateAncestorsOf_ok {pool₀ pool : CTxMemPool} {D : Uint256 → DescendantState} {A : Uint256 → AncestorState}
    (h : HasStats pool₀ pool D A) (hl : pool.ParentsLinked) (add : Bool) {it : Uint256} {e : CTxMemPoolEntry}
    (he : pool₀.mapTx.lookup it = some e) {S : SetEntries} (hin : ∀ k ∈ S, k ∈ pool₀.keys)
    (hpos : ∀ k ∈ S, DescendantState.Positive (D k + if add then e.descWeight else -e.descWeight)) :
    ∃ pool', pool.updateAncestorsOf add it S = .ok pool' ∧
      AncestorsUpdated pool₀ pool pool' D A add it S (if add then e.descWeight else -e.descWeight) := by
  have hit : it ∈ pool.keys := h.keys_eq ▸ mem_keys_of_lookup he
  obtain ⟨L, hL, hlinks, hkeys⟩ := foldl_alterLinks pool (pool.linksOf it).parents.nodup fun links =>
    { links with children := if add then links.children.insert it else links.children.erase it }
  have hstats : HasStats pool₀ { pool with mapLinks := L } D A := h
  obtain ⟨m, hm, hs⟩ := foldlM_updateDescendantState hstats S _ hin hpos
  have hderef : deref { pool with mapLinks := L } it = .ok (e.setStats (D it) (A it)) := deref_eq_ok.2 (h.lookup he)
  refine ⟨{ pool with mapLinks := L, mapTx := m }, ?_, hs, fun k => ?_, fun k => ?_, fun k => ?_, rfl, rfl, rfl⟩
  · rw [updateAncestorsOf, getMemPoolParents_ok hit (hl it hit).1]
    simp only [bind, Except.bind, updateChild_eq, hL, hderef]
    cases add with
    | true =>
      simp only [if_pos, one_mul]
      exact hm
    | false =>
      simp only [if_neg Bool.false_ne_true, neg_one_mul]
      exact hm
  · refine (hkeys k).trans (or_iff_left_of_imp fun hk => ?_)
    exact (hl k ((hl it hit).2 k hk)).1
  · refine (congrArg TxLinks.parents (hlinks k)).trans ?_
    split_ifs <;> rfl
  · refine (congrArg TxLinks.children (hlinks k)).trans ?_
    simp only [mem_toList]
    split_ifs <;> rfl

end CTxMemPool

end Soferox
