import Soferox.Mempool.Addition
import Soferox.Lib.Runs

/-!
# The operations of the pool

Each operation, started in a pool that keeps its books and its fee deltas (`Consistent`), ends without a failed
assertion in such a pool: `addUnchecked_ok`, `removeStaged_consistent`, `removeRecursive_ok`, `removeConflicts_ok`,
`removeForBlock_ok`, `expire_ok`, `trimToSize_ok` and `prioritiseTransaction_ok`.
-/

namespace Soferox

open Lib Relation CTxMemPoolEntry OrdSet List Finset Option Except

namespace CTxMemPool

/-- The books are right, and the fee deltas of the entries are the ones that were asked for. -/
structure Consistent (pool : CTxMemPool) : Prop where
  books : pool.Bookkeeping
  deltas : ∀ k e, pool.mapTx.lookup k = some e → e.feeDelta = pool.deltaOf k

lemma consistent_empty : empty.Consistent := by
  have hno : ∀ k, k ∉ empty.keys := fun k hk => by simp [keys, empty] at hk
  refine ⟨⟨⟨?_, ?_, ?_, ?_, ?_, ?_, rfl⟩, ?_, ?_⟩, ?_⟩
  · exact fun k e he => by cases he
  · exact fun k => iff_of_false (AList.notMem_empty k) (hno k)
  · exact fun k p => iff_of_false (not_mem_empty p) fun h => hno k h.1
  · exact fun k c => iff_of_false (not_mem_empty c) fun h => hno c h.1
  · intro k hk
    obtain ⟨c, hkc, -⟩ := TransGen.head'_iff.1 hk
    exact hno k hkc.1
  · exact fun o tx => iff_of_false (fun h => by cases h) fun h => by cases h.choose_spec.1
  all_goals exact fun k e he => by cases he

variable {pool pool' : CTxMemPool} {X : Uint256 → DescendantState} {Y : Uint256 → AncestorState} {e : CTxMemPoolEntry}
  {k : Uint256} {score : CTxMemPoolEntry → CTxMemPoolEntry → Bool} {l : List CTxMemPoolEntry} {S : Finset Uint256}
  {hash : Uint256}

/-- The entries of `pool'` are entries of `pool`, up to statistics. -/
def Shrunk (pool pool' : CTxMemPool) : Prop :=
  ∀ k e', pool'.mapTx.lookup k = some e' → ∃ e d a, pool.mapTx.lookup k = some e ∧ e' = e.setStats d a

lemma Shrunk.refl (pool : CTxMemPool) : Shrunk pool pool := fun _ e he => ⟨e, _, _, he, e.setStats_self.symm⟩

lemma Shrunk.trans {pool'' : CTxMemPool} (h : Shrunk pool pool') (h' : Shrunk pool' pool'') : Shrunk pool pool'' := by
  intro k e'' he''
  obtain ⟨e', d, a, he', rfl⟩ := h' k e'' he''
  obtain ⟨e, _, _, he, rfl⟩ := h k e' he'
  exact ⟨e, d, a, he, setStats_setStats ..⟩

lemma Shrunk.keys_subset (h : Shrunk pool pool') : pool'.keys ⊆ pool.keys := fun k hk => by
  obtain ⟨e', he'⟩ := mem_keys_iff_lookup.1 hk
  obtain ⟨e, _, _, he, -⟩ := h k e' he'
  exact mem_keys_of_lookup he

lemma Shrunk.spends (h : Shrunk pool pool') {c p : Uint256} (hs : pool'.Spends c p) : pool.Spends c p := by
  obtain ⟨e', he', o, ho, rfl⟩ := hs
  obtain ⟨e, _, _, he, rfl⟩ := h c e' he'
  exact ⟨e, he, o, ho, rfl⟩

lemma Removed.shrunk (h : Removed pool pool' S) : Shrunk pool pool' := h.entry

lemma Removed.deltas_eq (h : Removed pool pool' S)
    (hd : ∀ k ∉ S, ∀ e, pool.mapTx.lookup k = some e → e.feeDelta = pool.deltaOf k) :
    ∀ k e, pool'.mapTx.lookup k = some e → e.feeDelta = pool'.deltaOf k := by
  intro k e' he'
  have hk : k ∉ S := (mem_sdiff.1 (h.keys ▸ mem_keys_of_lookup he')).2
  obtain ⟨e, _, _, he, rfl⟩ := h.entry k e' he'
  rw [setStats_feeDelta, hd k hk e he, deltaOf, deltaOf, h.deltas]

section

variable (h : pool.BookkeepingUpTo X Y) {x : Uint256}
include h

lemma BookkeepingUpTo.parentsLinked : pool.ParentsLinked := fun k hk =>
  ⟨(h.links k).2 hk, fun p hp => ((h.parents k p).1 hp).2.1⟩

lemma BookkeepingUpTo.childrenLinked : pool.ChildrenLinked := fun k hk =>
  ⟨(h.links k).2 hk, fun c hc => ((h.children k c).1 hc).1⟩

lemma BookkeepingUpTo.reach_linkedParent (hk : k ∈ pool.keys) :
    ReflTransGen pool.LinkedParent k x ↔ x ∈ pool.ancestors k := by
  rw [h.linkedParent, ancestors, mem_reach]
  exact ⟨fun hx => ⟨mem_of_reflTransGen_within hx hk, hx⟩, And.right⟩

lemma BookkeepingUpTo.reach_linkedChild (hk : k ∈ pool.keys) :
    ReflTransGen pool.LinkedChild k x ↔ x ∈ pool.descendants k := by
  rw [h.linkedChild, descendants, mem_reach]
  exact ⟨fun hx => ⟨mem_of_reflTransGen_within hx hk, hx⟩, And.right⟩

end

/-! ## Adding -/

lemma addUnchecked_ok (h : pool.Consistent) {entry : CTxMemPoolEntry} (hfresh : entry.Fresh)
    (hnew : entry.tx.hash ∉ pool.keys) (hself : ∀ o ∈ entry.tx.prevouts, o.hash ≠ entry.tx.hash)
    (hchild : ∀ k ∈ pool.keys, ¬ pool.Spends k entry.tx.hash)
    (hconf : ∀ o ∈ entry.tx.prevouts, pool.mapNextTx.lookup o = none) {limits : PackageLimits} {S : SetEntries}
    (hS : pool.calculateMemPoolAncestors entry limits true = .ok S) :
    ∃ pool', pool.addUnchecked entry.tx.hash entry S = .ok pool' ∧ pool'.Consistent := by
  have hmem : ∀ x, x ∈ S ↔ ∃ p ∈ pool.keys, (∃ o ∈ entry.tx.prevouts, o.hash = p) ∧ x ∈ pool.ancestors p := fun x => by
    rcases calculateMemPoolAncestors_cases h.books.upTo.parentsLinked entry limits with ⟨S', hS', hmem⟩ | ⟨l, hl⟩
    · obtain rfl : S' = S := ok.inj (hS'.symm.trans hS)
      refine (hmem x).trans (exists_congr fun p => and_congr_right fun hp => and_congr_right fun _ => ?_)
      exact h.books.upTo.reach_linkedParent hp
    · rw [hl] at hS
      cases hS
  obtain ⟨pool', hok, ha⟩ := addUnchecked_spec h.books.linkable hfresh hnew hself fun k hk => by
    obtain ⟨p, -, -, hkp⟩ := (hmem k).1 hk
    exact ancestors_subset hkp
  have hb : ComesBack pool ∅ pool.keys entry.tx := ⟨hnew, hself, hchild⟩
  refine ⟨pool', hok, ha.bookkeeping h.books hb hconf hmem, fun k e' he' => ?_⟩
  rw [deltaOf, ha.deltas]
  rcases ha.lookup_cases he' with ⟨rfl, rfl⟩ | ⟨-, e₀, he₀, rfl⟩
  · rfl
  · exact h.deltas k e₀ he₀

/-! ## Removing -/

lemma removeStaged_consistent (h : pool.Consistent) {S : SetEntries} (b : Bool) (hS : ∀ k ∈ S, k ∈ pool.keys)
    (hcl : ∀ k ∈ S, ∀ c ∈ pool.keys, pool.Spends c k → c ∈ S) :
    ∃ pool', pool.removeStaged S b = .ok pool' ∧ pool'.Consistent := by
  obtain ⟨pool', hok, hb, hr⟩ := removeStaged_ok h.books hS (.inl hcl)
  exact ⟨pool', hok, hb, hr.deltas_eq fun k _ e he => h.deltas k e he⟩

section

variable (h : pool.BookkeepingUpTo X Y)
include h

lemma removeAllDescendants_ok {l : List Uint256} (hin : ∀ k ∈ l, k ∈ pool.keys) :
    ∃ S pool', pool.calculateAllDescendants l = .ok S ∧ pool.removeStaged S false = .ok pool' ∧
      pool'.BookkeepingUpTo X Y ∧ Removed pool pool' S.toFinset ∧ ∀ x, x ∈ S ↔ ∃ r ∈ l, x ∈ pool.descendants r := by
  obtain ⟨S, hS, hmem⟩ := calculateAllDescendants_ok h.childrenLinked hin
  have hmem' : ∀ x, x ∈ S ↔ ∃ r ∈ l, x ∈ pool.descendants r := fun x =>
    (hmem x).trans (exists_congr fun r => and_congr_right fun hr => h.reach_linkedChild (hin r hr))
  have hkeys : ∀ k ∈ S, k ∈ pool.keys := fun k hk => by
    obtain ⟨r, -, hkr⟩ := (hmem' k).1 hk
    exact reach_subset hkr
  obtain ⟨pool', hok, hb, hr⟩ := removeStaged_upTo h (b := false) hkeys (.inl fun k hk c hc hck => by
    obtain ⟨r, hr, hkr⟩ := (hmem' k).1 hk
    exact (hmem' c).2 ⟨r, hr, mem_reach_of_mem hkr (mem_reach_of_rel (reach_subset hkr) hc hck)⟩)
  exact ⟨S, pool', hS, hok, hb, hr, hmem'⟩

lemma findSpenders_ok (hash : Uint256) (vout : List CTxOut) (i : ℕ) {T : SetEntries} (hT : ∀ k ∈ T, k ∈ pool.keys) :
    ∃ T', pool.findSpenders hash i vout T = .ok T' ∧ ∀ k ∈ T', k ∈ pool.keys := by
  induction vout generalizing i T with
  | nil => exact ⟨T, rfl, hT⟩
  | cons txout vout ih =>
    rw [findSpenders]
    cases hnext : pool.mapNextTx.lookup ⟨hash, i⟩ with
    | none => exact ih (i + 1) hT
    | some tx =>
      obtain ⟨e, he, -, -⟩ := (h.nextTx _ _).1 hnext
      have hk := mem_keys_of_lookup he
      simp only [if_pos (mem_keys.1 hk)]
      refine ih (i + 1) fun k hk' => ?_
      rcases mem_insert.1 hk' with rfl | hk'
      · exact hk
      · exact hT k hk'

lemma removeRecursive_books (origTx : CTransaction) :
    ∃ pool' S, pool.removeRecursive origTx = .ok pool' ∧ pool'.BookkeepingUpTo X Y ∧ Removed pool pool' S ∧
      (origTx.hash ∈ pool.keys → S = pool.descendants origTx.hash) := by
  obtain ⟨T, hT, hin, horig⟩ : ∃ T : SetEntries, (if origTx.hash ∈ pool.mapTx then .ok (insert ∅ origTx.hash)
      else pool.findSpenders origTx.hash 0 origTx.vout ∅) = .ok T ∧ (∀ k ∈ T, k ∈ pool.keys) ∧
      (origTx.hash ∈ pool.keys → ∀ k, k ∈ T.toList ↔ k = origTx.hash) := by
    by_cases hk : origTx.hash ∈ pool.mapTx
    · refine ⟨_, if_pos hk, fun k hk' => ?_, fun _ k => by simp [OrdSet.mem_toList]⟩
      obtain rfl : k = origTx.hash := by simpa using hk'
      exact mem_keys.2 hk
    · rw [if_neg hk]
      obtain ⟨T, hT, hin⟩ := findSpenders_ok h origTx.hash origTx.vout 0 (T := ∅) (by simp)
      exact ⟨T, hT, hin, fun hk' => absurd (mem_keys.1 hk') hk⟩
  obtain ⟨S, pool', hS, hok, hb, hr, hmem⟩ := removeAllDescendants_ok h (l := T.toList) hin
  refine ⟨pool', S.toFinset, ?_, hb, hr, fun hk => ?_⟩
  · rw [removeRecursive, hT]
    simp only [bind, Except.bind, hS]
    exact hok
  · ext x
    simp [hmem, horig hk]

end

lemma removeRecursive_ok (h : pool.Consistent) (origTx : CTransaction) :
    ∃ pool', pool.removeRecursive origTx = .ok pool' ∧ pool'.Consistent := by
  obtain ⟨pool', S, hok, hb, hr, -⟩ := removeRecursive_books h.books.upTo origTx
  exact ⟨pool', hok, bookkeepingUpTo_zero.1 hb, hr.deltas_eq fun k _ e he => h.deltas k e he⟩

/-! ## Conflicts and blocks -/

lemma BookkeepingUpTo.clearPrioritisation (h : pool.BookkeepingUpTo X Y) (hash : Uint256) :
    (pool.clearPrioritisation hash).BookkeepingUpTo X Y :=
  { h with }

lemma Bookkeeping.clearPrioritisation (h : pool.Bookkeeping) (hash : Uint256) :
    (pool.clearPrioritisation hash).Bookkeeping :=
  bookkeepingUpTo_zero.1 (h.upTo.clearPrioritisation hash)

lemma deltaOf_clearPrioritisation (hk : k ≠ hash) : (pool.clearPrioritisation hash).deltaOf k = pool.deltaOf k := by
  rw [deltaOf, CTxMemPool.clearPrioritisation, AList.lookup_erase_ne hk, deltaOf]

section

variable (h : pool.Consistent)
include h

variable (tx : CTransaction) {vtx : List CTransaction}

lemma removeConflict_ok (txin : CTxIn) :
    ∃ pool', removeConflict tx pool txin = .ok pool' ∧ pool'.Consistent ∧ Shrunk pool pool' := by
  unfold removeConflict
  cases hnext : pool.mapNextTx.lookup txin.prevout with
  | none => exact ⟨pool, rfl, h, .refl pool⟩
  | some txConflict =>
    by_cases hne : txConflict.hash ≠ tx.hash
    · -- the fee delta is forgotten just before its entry goes
      obtain ⟨e, he, -, -⟩ := (h.books.nextTx _ _).1 hnext
      obtain ⟨pool', S, hok, hb, hr, hin⟩ :=
        removeRecursive_books (h.books.upTo.clearPrioritisation txConflict.hash) txConflict
      have hself : txConflict.hash ∈ S := by
        rw [hin (mem_keys_of_lookup he)]
        exact self_mem_descendants (mem_keys_of_lookup he)
      refine ⟨pool', by simp only [if_pos hne]; exact hok,
        ⟨bookkeepingUpTo_zero.1 hb, hr.deltas_eq fun k hk e he' => ?_⟩, hr.shrunk⟩
      have hkne : k ≠ txConflict.hash := fun hkc => hk (hkc ▸ hself)
      rw [deltaOf_clearPrioritisation hkne]
      exact h.deltas k e he'
    · exact ⟨pool, by simp [if_neg hne], h, .refl pool⟩

lemma removeConflicts_ok : ∃ pool', pool.removeConflicts tx = .ok pool' ∧ pool'.Consistent ∧ Shrunk pool pool' := by
  unfold removeConflicts
  induction tx.vin generalizing pool with
  | nil => exact ⟨pool, rfl, h, .refl pool⟩
  | cons txin vin ih =>
    obtain ⟨pool₁, h₁, hc₁, hs₁⟩ := removeConflict_ok h tx txin
    obtain ⟨pool', h', hc', hs'⟩ := ih hc₁
    exact ⟨pool', by rw [foldlM_cons, h₁]; exact h', hc', hs₁.trans hs'⟩

/-- What is connected through a transaction of the pool is connected without it too. -/
def Skippable (pool : CTxMemPool) (tx : CTransaction) : Prop :=
  tx.hash ∈ pool.keys → Bypassed pool.Spends pool.keys {tx.hash}

lemma removeBlockTx_ok (hp : pool.Skippable tx) : ∃ pool', pool.removeBlockTx tx = .ok pool' ∧ pool'.Consistent := by
  obtain ⟨pool₁, h₁, hc₁, hnot⟩ : ∃ pool₁, (if tx.hash ∈ pool.mapTx then
      pool.removeStaged (insert ∅ tx.hash) true else pure pool) = .ok pool₁ ∧ pool₁.Consistent ∧
      tx.hash ∉ pool₁.keys := by
    by_cases hk : tx.hash ∈ pool.mapTx
    · have hmem : ∀ k, k ∈ (insert ∅ tx.hash : SetEntries) ↔ k = tx.hash := fun k => by simp
      have hset : (insert ∅ tx.hash : SetEntries).toFinset = {tx.hash} := by
        ext k
        rw [OrdSet.mem_toFinset, hmem, Finset.mem_singleton]
      obtain ⟨pool₁, hok, hb, hr⟩ := removeStaged_ok h.books (fun k hk' => (hmem k).1 hk' ▸ mem_keys.2 hk)
        (.inr ⟨rfl, hset ▸ hp (mem_keys.2 hk)⟩)
      refine ⟨pool₁, by rw [if_pos hk]; exact hok, ⟨hb, hr.deltas_eq fun k _ e he => h.deltas k e he⟩, fun hin => ?_⟩
      rw [hr.keys, mem_sdiff] at hin
      exact hin.2 ((hmem _).2 rfl)
    · exact ⟨pool, if_neg hk, h, fun hin => hk (mem_keys.1 hin)⟩
  obtain ⟨pool₂, h₂, hc₂, hs₂⟩ := removeConflicts_ok hc₁ tx
  refine ⟨pool₂.clearPrioritisation tx.hash, ?_, hc₂.books.clearPrioritisation _, fun k e he => ?_⟩
  · rw [removeBlockTx, h₁]
    simp only [bind, Except.bind, h₂]
    rfl
  · have hkt : k ≠ tx.hash := fun hkt => hnot (hs₂.keys_subset (hkt ▸ mem_keys_of_lookup he))
    rw [deltaOf_clearPrioritisation hkt]
    exact hc₂.deltas k e he

lemma removeForBlock_ok (hp : Meets removeBlockTx Skippable pool vtx) :
    ∃ pool', pool.removeForBlock vtx = .ok pool' ∧ pool'.Consistent :=
  hp.exists_foldlM (fun _ tx _ h hp => removeBlockTx_ok h tx hp) h

/-! ## Expiry and eviction -/

omit h in
lemma Bookkeeping.hash_mem_keys (h : pool.Bookkeeping)
    (he : e ∈ pool.mapTx.entries.map Sigma.snd) : e.tx.hash ∈ pool.keys := by
  obtain ⟨⟨k, e⟩, hmem, rfl⟩ := mem_map.1 he
  have hlook : pool.mapTx.lookup k = some e := AList.mem_lookup_iff.2 hmem
  rw [h.hash_eq k e hlook]
  exact mem_keys_of_lookup hlook

lemma expire_ok (time : ℤ) : ∃ pool', pool.expire time = .ok pool' ∧ pool'.Consistent := by
  simp only [expire]
  generalize hl : (((pool.mapTx.entries.map Sigma.snd).insertionSort fun a b => a.nTime ≤ b.nTime).takeWhile
    fun e => e.nTime < time).map (fun e => e.tx.hash) = toremove
  have hin : ∀ k ∈ ((∅ : SetEntries).insertAll toremove).toList, k ∈ pool.keys := fun k hk => by
    have hk' : k ∈ toremove := by simpa using OrdSet.mem_insertAll.1 hk
    rw [← hl] at hk'
    obtain ⟨e, he, rfl⟩ := mem_map.1 hk'
    have hmem := (takeWhile_sublist _).subset he
    exact h.books.hash_mem_keys ((perm_insertionSort _ _).mem_iff.1 hmem)
  obtain ⟨S, pool', hS, hok, hb, hr, -⟩ := removeAllDescendants_ok h.books.upTo hin
  exact ⟨pool', by rw [hS]; exact hok, bookkeepingUpTo_zero.1 hb, hr.deltas_eq fun k _ e he => h.deltas k e he⟩

end

lemma lowestScore_mem (h : lowestScore score l = some e) : e ∈ l := by
  induction l generalizing e with
  | nil => cases h
  | cons a l ih =>
    rw [lowestScore] at h
    cases hb : lowestScore score l with
    | none =>
      simp only [hb, some.injEq] at h
      exact h ▸ mem_cons_self
    | some b =>
      simp only [hb] at h
      split at h
      · exact mem_cons_of_mem _ (ih (hb.trans h))
      · exact some.inj h ▸ mem_cons_self

lemma lowestScore_eq_none : lowestScore score l = none ↔ l = [] := by
  cases l with
  | nil => simp [lowestScore]
  | cons a l =>
    rw [lowestScore]
    cases lowestScore score l with
    | none => simp
    | some b => by_cases hb : score b a = true <;> simp [hb]

lemma trimLoop_ok (usage : CTxMemPool → ℕ) (score : CTxMemPoolEntry → CTxMemPoolEntry → Bool) (sizelimit : ℕ)
    {fuel : ℕ} (h : pool.Consistent) (hfuel : pool.keys.card ≤ fuel) (vNoSpends : List COutPoint) :
    ∃ pool' v, trimLoop usage score sizelimit fuel pool vNoSpends = .ok (pool', v) ∧ pool'.Consistent ∧
      (usage pool' ≤ sizelimit ∨ pool'.keys = ∅) := by
  induction fuel generalizing pool vNoSpends with
  | zero =>
    have hkeys : pool.keys = ∅ := card_eq_zero.1 (Nat.le_zero.1 hfuel)
    have hnone : lowestScore score (pool.mapTx.entries.map Sigma.snd) = none := by
      rw [lowestScore_eq_none, map_eq_nil_iff, ← length_eq_zero_iff, ← card_keys, hkeys, card_empty]
    refine ⟨pool, vNoSpends, ?_, h, .inr hkeys⟩
    rw [trimLoop, hnone]
  | succ fuel ih =>
    rw [trimLoop]
    cases hlow : lowestScore score (pool.mapTx.entries.map Sigma.snd) with
    | none =>
      refine ⟨pool, vNoSpends, rfl, h, .inr ?_⟩
      rw [lowestScore_eq_none, map_eq_nil_iff] at hlow
      rw [← card_eq_zero, card_keys, hlow, length_nil]
    | some it =>
      have hit := h.books.hash_mem_keys (lowestScore_mem hlow)
      by_cases huse : usage pool > sizelimit
      · obtain ⟨S, pool₁, hS, hok, hb, hr, hmem⟩ :=
          removeAllDescendants_ok h.books.upTo (l := [it.tx.hash]) (by simpa using hit)
        have hmem' : ∀ x, x ∈ S ↔ x ∈ pool.descendants it.tx.hash := fun x => by simp [hmem]
        have hin : ∀ k ∈ S, k ∈ pool.keys := fun k hk => descendants_subset ((hmem' k).1 hk)
        simp only [calculateAllDescendants, foldlM_cons, foldlM_nil, bind_pure] at hS
        obtain ⟨es, hes, -⟩ := mapM_deref hin
        have hcard : pool₁.keys.card < pool.keys.card := by
          rw [hr.keys]
          exact card_lt_card (sdiff_ssubset hin ⟨it.tx.hash, (hmem' _).2 (self_mem_descendants hit)⟩)
        obtain ⟨pool', v, h', hc', hend⟩ := ih ⟨bookkeepingUpTo_zero.1 hb, hr.deltas_eq fun k _ e he => h.deltas k e he⟩
          (by omega) (vNoSpends ++ pool₁.noSpendsRemaining (es.map CTxMemPoolEntry.tx))
        refine ⟨pool', v, ?_, hc', hend⟩
        simp only [if_pos huse, bind, Except.bind, hS, hes, hok]
        exact h'
      · exact ⟨pool, vNoSpends, by simp [if_neg huse], h, .inl (not_lt.1 huse)⟩

lemma trimToSize_ok (h : pool.Consistent) (usage : CTxMemPool → ℕ)
    (score : CTxMemPoolEntry → CTxMemPoolEntry → Bool) (sizelimit : ℕ) :
    ∃ pool' v, pool.trimToSize usage score sizelimit = .ok (pool', v) ∧ pool'.Consistent ∧
      (usage pool' ≤ sizelimit ∨ pool'.keys = ∅) :=
  trimLoop_ok usage score sizelimit h pool.card_keys.le []

/-! ## Prioritising -/

/-- `pool'` is `pool` with `nFeeDelta` added to the fee of the entry `hash`, in the statistics too. -/
structure Reprioritised (pool pool' : CTxMemPool) (hash : Uint256) (nFeeDelta : CAmount) : Prop where
  lookup : ∀ k, pool'.mapTx.lookup k = (pool.mapTx.lookup k).map fun e =>
    (if k = hash then e.updateFeeDelta (e.feeDelta + nFeeDelta) else e).setStats
      (e.withDescendants + if hash ∈ pool.descendants k then (0, nFeeDelta, 0) else 0)
      (e.withAncestors + if hash ∈ pool.ancestors k then (0, nFeeDelta, 0, 0) else 0)
  links : pool'.mapLinks = pool.mapLinks
  nextTx : pool'.mapNextTx = pool.mapNextTx
  total : pool'.totalTxSize = pool.totalTxSize

section

variable {hash : Uint256} {nFeeDelta : CAmount}

section

variable (hr : Reprioritised pool pool' hash nFeeDelta)
include hr

lemma Reprioritised.lookup_tx (k : Uint256) :
    (pool'.mapTx.lookup k).map CTxMemPoolEntry.tx = (pool.mapTx.lookup k).map CTxMemPoolEntry.tx := by
  rw [hr.lookup, Option.map_map]
  refine congrArg (Option.map · _) (funext fun e => ?_)
  by_cases hk : k = hash <;> simp [hk, updateFeeDelta]

lemma Reprioritised.exists_tx (k : Uint256) (q : CTransaction → Prop) :
    (∃ e, pool'.mapTx.lookup k = some e ∧ q e.tx) ↔ ∃ e, pool.mapTx.lookup k = some e ∧ q e.tx := by
  have hq : ∀ o : Option CTxMemPoolEntry, (∃ e, o = some e ∧ q e.tx) ↔ ∃ tx, o.map CTxMemPoolEntry.tx = some tx ∧ q tx :=
    fun o => by cases o <;> simp
  rw [hq, hq, hr.lookup_tx]

lemma Reprioritised.spends_eq : pool'.Spends = pool.Spends := by
  funext c p
  exact propext (hr.exists_tx c fun tx => ∃ o ∈ tx.prevouts, o.hash = p)

lemma Reprioritised.keys_eq : pool'.keys = pool.keys := by
  ext k
  rw [mem_keys_iff_lookup, mem_keys_iff_lookup, hr.lookup]
  simp

lemma Reprioritised.weight_eq (hk : k ∈ pool.keys) :
    pool'.descWeight k = pool.descWeight k + (if k = hash then (0, nFeeDelta, 0) else 0) ∧
      pool'.ancWeight k = pool.ancWeight k + if k = hash then (0, nFeeDelta, 0, 0) else 0 := by
  obtain ⟨e, he⟩ := mem_keys_iff_lookup.1 hk
  simp only [descWeight, ancWeight, hr.lookup, he, map_some, elim_some, setStats_descWeight,
    setStats_ancWeight]
  by_cases hkh : k = hash
  · simp [if_pos hkh, CTxMemPoolEntry.descWeight, CTxMemPoolEntry.ancWeight, getModifiedFee, updateFeeDelta,
      getTxSize, add_assoc]
  · simp [if_neg hkh]

end

lemma Reprioritised.bookkeeping (h : pool.Bookkeeping) (hr : Reprioritised pool pool' hash nFeeDelta) :
    pool'.Bookkeeping := by
  have hanc : ∀ k, pool'.ancestors k = pool.ancestors k := fun k => by rw [ancestors, hr.spends_eq, hr.keys_eq, ancestors]
  have hdesc : ∀ k, pool'.descendants k = pool.descendants k := fun k => by
    rw [descendants, hr.spends_eq, hr.keys_eq, descendants]
  have hlinks : ∀ k, pool'.linksOf k = pool.linksOf k := fun k => by rw [linksOf, hr.links, linksOf]
  have hlook : ∀ k e', pool'.mapTx.lookup k = some e' → ∃ e, pool.mapTx.lookup k = some e ∧ e'.tx = e.tx ∧
      e'.withDescendants = e.withDescendants + (if hash ∈ pool.descendants k then (0, nFeeDelta, 0) else 0) ∧
      e'.withAncestors = e.withAncestors + if hash ∈ pool.ancestors k then (0, nFeeDelta, 0, 0) else 0 := by
    intro k e' he'
    have htx := hr.lookup_tx k
    rw [hr.lookup] at he'
    obtain ⟨e, he, rfl⟩ := map_eq_some_iff.1 he'
    refine ⟨e, he, ?_, rfl, rfl⟩
    rw [hr.lookup, he] at htx
    exact some.inj htx
  refine ⟨⟨?hash_eq, ?links, ?parents, ?children, ?acyclic, ?nextTx, ?total⟩, ?desc, ?anc⟩
  case hash_eq =>
    intro k e' he'
    obtain ⟨e, he, htx, -⟩ := hlook k e' he'
    rw [htx]
    exact h.hash_eq k e he
  case links =>
    intro k
    rw [hr.links, hr.keys_eq, h.links]
  case parents =>
    intro k p
    rw [hlinks, hr.spends_eq, hr.keys_eq, h.parents]
  case children =>
    intro k c
    rw [hlinks, hr.spends_eq, hr.keys_eq, h.children]
  case acyclic =>
    rw [hr.spends_eq, hr.keys_eq]
    exact h.acyclic
  case desc =>
    intro k e' he'
    obtain ⟨e, he, -, hd, -⟩ := hlook k e' he'
    rw [hd, hdesc, sum_congr rfl fun d hd => (hr.weight_eq (descendants_subset hd)).1, sum_add_distrib,
      sum_ite_eq', h.desc k e he]
  case anc =>
    intro k e' he'
    obtain ⟨e, he, -, -, ha⟩ := hlook k e' he'
    rw [ha, hanc, sum_congr rfl fun a ha => (hr.weight_eq (ancestors_subset ha)).2, sum_add_distrib,
      sum_ite_eq', h.anc k e he]
  case nextTx =>
    intro o tx
    rw [hr.nextTx, h.nextTx]
    exact (hr.exists_tx tx.hash fun tx' => tx' = tx ∧ o ∈ tx.prevouts).symm
  case total =>
    rw [hr.total, h.total, hr.keys_eq]
    refine sum_congr rfl fun k hk => ?_
    rw [(hr.weight_eq hk).1]
    split_ifs <;> simp

end

lemma updateFeeDelta_stats (e : CTxMemPoolEntry) (nFeeDelta : CAmount) :
    (e.updateFeeDelta (e.feeDelta + nFeeDelta)).withDescendants = e.withDescendants + (0, nFeeDelta, 0) ∧
      (e.updateFeeDelta (e.feeDelta + nFeeDelta)).withAncestors = e.withAncestors + (0, nFeeDelta, 0, 0) := by
  simp [updateFeeDelta, withDescendants, withAncestors]

/-- The entry itself, its ancestors and its descendants learn of the new fee. -/
theorem prioritiseTransaction_spec (h : pool.Bookkeeping)
    (he : pool.mapTx.lookup hash = some e) (hdelta : e.feeDelta = pool.deltaOf hash) (nFeeDelta : CAmount) :
    ∃ pool', pool.prioritiseTransaction hash nFeeDelta = .ok pool' ∧ Reprioritised pool pool' hash nFeeDelta ∧
      pool'.mapDeltas = pool.mapDeltas.insert hash (e.feeDelta + nFeeDelta) := by
  have hk := mem_keys_of_lookup he
  set e' := e.updateFeeDelta (e.feeDelta + nFeeDelta) with hdef
  set pool₁ : CTxMemPool := { pool with
    mapTx := pool.mapTx.insert hash e', mapDeltas := pool.mapDeltas.insert hash (e.feeDelta + nFeeDelta) } with hpool₁
  have hlook₁ : pool₁.mapTx.lookup hash = some e' := AList.lookup_insert _
  have hlook₁' : ∀ k ≠ hash, pool₁.mapTx.lookup k = pool.mapTx.lookup k := fun k hk => AList.lookup_insert_ne hk
  have hkeys₁ : pool₁.keys = pool.keys := by
    ext k
    by_cases hkh : k = hash
    · exact iff_of_true (hkh ▸ mem_keys_of_lookup hlook₁) (hkh ▸ hk)
    · rw [mem_keys_iff_lookup, hlook₁' k hkh, mem_keys_iff_lookup]
  have hhash : e'.tx.hash = hash := h.hash_eq hash e he
  -- the ancestors
  have hpl : pool₁.ParentsLinked := fun k hk' => by
    rw [hkeys₁] at hk' ⊢
    exact h.upTo.parentsLinked k hk'
  obtain ⟨S, hS, hmemS⟩ := calculateMemPoolAncestors_ok hpl (hhash.symm ▸ hkeys₁.symm ▸ hk)
  have hmemS' : ∀ x, x ∈ S ↔ x ∈ pool.ancestors hash ∧ x ≠ hash := fun x => by
    rw [hmemS, hhash, ← h.upTo.transGen_iff hk, ← h.upTo.linkedParent]
    rfl
  have hinS : ∀ x ∈ S, x ∈ pool.keys := fun x hx => ancestors_subset ((hmemS' x).1 hx).1
  obtain ⟨m, hm, hs⟩ := foldlM_updateDescendantState (HasStats.self pool₁) S (0, nFeeDelta, 0)
    (fun k hk' => hkeys₁.symm ▸ hinS k hk') fun k hk' => by
      obtain ⟨e₀, he₀⟩ := mem_keys_iff_lookup.1 (hinS k hk')
      have hpos := positive_sum_descWeight (hinS k hk') (self_mem_descendants (hinS k hk'))
      rw [hlook₁' k ((hmemS' k).1 hk').2, he₀, elim_some, h.desc k e₀ he₀]
      exact ⟨by simpa using hpos.1, by simpa using hpos.2⟩
  -- the descendants
  have hcl : ChildrenLinked { pool₁ with mapTx := m } := fun k hk' => by
    rw [hs.keys_eq, hkeys₁] at hk' ⊢
    exact h.upTo.childrenLinked k hk'
  obtain ⟨T, hT, hmemT⟩ := calculateDescendants_empty hcl (by rw [hs.keys_eq, hkeys₁]; exact hk)
  have hmemT' : ∀ x, x ∈ T.erase hash ↔ x ∈ pool.descendants hash ∧ x ≠ hash := fun x => by
    rw [OrdSet.mem_erase, hmemT, ← h.upTo.reach_linkedChild hk, and_comm]
    rfl
  have hinT : ∀ x ∈ T.erase hash, x ∈ pool.keys := fun x hx => descendants_subset ((hmemT' x).1 hx).1
  obtain ⟨m', hm', hs'⟩ := foldlM_updateAncestorState hs (T.erase hash) (0, nFeeDelta, 0, 0)
    (fun k hk' => hkeys₁.symm ▸ hinT k hk') fun k hk' => by
      obtain ⟨e₀, he₀⟩ := mem_keys_iff_lookup.1 (hinT k hk')
      have hpos := positive_sum_ancWeight (hinT k hk') (self_mem_ancestors (hinT k hk'))
      rw [hlook₁' k ((hmemT' k).1 hk').2, he₀, elim_some, h.anc k e₀ he₀]
      exact ⟨by simpa using hpos.1, by simpa using hpos.2.1, by simpa using hpos.2.2⟩
  refine ⟨{ pool₁ with mapTx := m' }, ?_, ⟨fun k => (hs' k).trans ?_, rfl, rfl, rfl⟩, rfl⟩
  · have hderef₀ : deref { pool with mapDeltas := pool.mapDeltas.insert hash (e.feeDelta + nFeeDelta) } hash = .ok e :=
      deref_eq_ok.2 he
    have hmod : CTxMemPool.modify { pool with mapDeltas := pool.mapDeltas.insert hash (e.feeDelta + nFeeDelta) } hash
        (fun e₀ => .ok (e₀.updateFeeDelta (e.feeDelta + nFeeDelta))) = .ok pool₁ := by
      rw [modify, hderef₀]
      rfl
    have hderef : pool₁.deref hash = .ok e' := deref_eq_ok.2 hlook₁
    have hget : (pool.mapDeltas.lookup hash).getD 0 = e.feeDelta := hdelta.symm
    simp only [prioritiseTransaction, hget, if_pos (mem_keys.1 hk), hmod, bind, Except.bind, hderef, hS, hm, hT]
    exact hm'
  · by_cases hkh : k = hash
    · subst hkh
      have hnS : k ∉ S := fun hmem => ((hmemS' k).1 hmem).2 rfl
      have hnT : k ∉ T.erase k := fun hmem => ((hmemT' k).1 hmem).2 rfl
      obtain ⟨hd, ha⟩ := updateFeeDelta_stats e nFeeDelta
      simp only [hlook₁, he, map_some, if_neg hnS, if_neg hnT, elim_some, if_true,
        if_pos (self_mem_descendants hk), if_pos (self_mem_ancestors hk)]
      rw [← hd, ← ha]
    · simp only [hlook₁' k hkh, if_neg hkh]
      cases he₀ : pool.mapTx.lookup k with
      | none => rfl
      | some e₀ =>
        have hkk := mem_keys_of_lookup he₀
        have hiffS : k ∈ S ↔ hash ∈ pool.descendants k := by
          rw [hmemS', and_iff_left hkh, mem_ancestors_iff hk hkk]
        have hiffT : k ∈ T.erase hash ↔ hash ∈ pool.ancestors k := by
          rw [hmemT', and_iff_left hkh, mem_ancestors_iff hkk hk]
        simp only [hiffS, hiffT]
        split_ifs <;> simp

lemma prioritiseTransaction_ok (h : pool.Consistent) (hash : Uint256) (nFeeDelta : CAmount) :
    ∃ pool', pool.prioritiseTransaction hash nFeeDelta = .ok pool' ∧ pool'.Consistent := by
  have hother : ∀ k ≠ hash, ∀ delta : CAmount, ((pool.mapDeltas.insert hash delta).lookup k).getD 0 = pool.deltaOf k :=
    fun k hk delta => by rw [AList.lookup_insert_ne hk, deltaOf]
  by_cases hk : hash ∈ pool.mapTx
  · obtain ⟨e, he⟩ := mem_keys_iff_lookup.1 (mem_keys.2 hk)
    obtain ⟨pool', hok, hr, hd⟩ := prioritiseTransaction_spec h.books he (h.deltas hash e he) nFeeDelta
    refine ⟨pool', hok, hr.bookkeeping h.books, fun k e' he' => ?_⟩
    rw [hr.lookup] at he'
    obtain ⟨e₀, he₀, rfl⟩ := map_eq_some_iff.1 he'
    rw [deltaOf, hd]
    by_cases hkh : k = hash
    · subst hkh
      obtain rfl : e₀ = e := some.inj (he₀.symm.trans he)
      rw [if_pos rfl, AList.lookup_insert]
      rfl
    · rw [if_neg hkh, hother k hkh]
      exact h.deltas k e₀ he₀
  · refine ⟨{ pool with mapDeltas := pool.mapDeltas.insert hash (pool.deltaOf hash + nFeeDelta) }, ?_, ?_, ?_⟩
    · simp only [prioritiseTransaction, if_neg hk]
      rfl
    · exact { h.books with }
    · intro k e he
      have hkh : k ≠ hash := fun hkh => hk (mem_keys.1 (hkh ▸ mem_keys_of_lookup he))
      rw [deltaOf, hother k hkh]
      exact h.deltas k e he

end CTxMemPool

end Soferox
