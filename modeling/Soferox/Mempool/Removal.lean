import Soferox.Mempool.Stats

/-!
# Bookkeeping and the removal of transactions

`Bookkeeping` is what the pool keeps about its entries: the links are the spends between entries, the statistics are
sums over the descendants and the ancestors of an entry, `mapNextTx` knows the spender of each input.
`removeStaged_ok` removes a set of entries from such a pool and keeps it; the set has to be closed under descendants,
or one that no connection between other entries depends on, with `updateDescendants`.
-/

namespace Soferox

open Lib Relation CTxMemPoolEntry OrdSet List Prod Function

namespace CTxMemPool

/-! ## The relations between the transactions of a pool -/

/-- The transaction `c` of the pool spends an output of the transaction `p`. -/
def Spends (pool : CTxMemPool) (c p : Uint256) : Prop :=
  ∃ e, pool.mapTx.lookup c = some e ∧ ∃ o ∈ e.tx.prevouts, o.hash = p

instance {pool : CTxMemPool} {c p : Uint256} : Decidable (pool.Spends c p) :=
  decidable_of_iff (∃ e ∈ pool.mapTx.lookup c, ∃ o ∈ e.tx.prevouts, o.hash = p) Iff.rfl

/-- A transaction with its ancestors in the pool. -/
noncomputable def ancestors (pool : CTxMemPool) (k : Uint256) : Finset Uint256 := reach pool.Spends pool.keys k

/-- A transaction with its descendants in the pool. -/
noncomputable def descendants (pool : CTxMemPool) (k : Uint256) : Finset Uint256 :=
  reach (Function.swap pool.Spends) pool.keys k

variable {k : Uint256} {pool : CTxMemPool} {b : Bool} {s : Finset Uint256}

lemma ancestors_subset : pool.ancestors k ⊆ pool.keys := reach_subset
lemma descendants_subset : pool.descendants k ⊆ pool.keys := reach_subset

/-- What a transaction counts for in its ancestors. -/
def descWeight (pool : CTxMemPool) (k : Uint256) : DescendantState :=
  (pool.mapTx.lookup k).elim 0 CTxMemPoolEntry.descWeight

/-- What a transaction counts for in its descendants. -/
def ancWeight (pool : CTxMemPool) (k : Uint256) : AncestorState :=
  (pool.mapTx.lookup k).elim 0 CTxMemPoolEntry.ancWeight

/-- The links, spenders and total size that the pool keeps are those of its transactions. -/
structure WellLinked (pool : CTxMemPool) : Prop where
  hash_eq : ∀ k e, pool.mapTx.lookup k = some e → e.tx.hash = k
  links : ∀ k, k ∈ pool.mapLinks ↔ k ∈ pool.keys
  parents : ∀ k p, p ∈ (pool.linksOf k).parents ↔ Within pool.Spends pool.keys k p
  children : ∀ k c, c ∈ (pool.linksOf k).children ↔ Within pool.Spends pool.keys c k
  acyclic : ∀ k, ¬ TransGen (Within pool.Spends pool.keys) k k
  nextTx : ∀ o tx, pool.mapNextTx.lookup o = some tx ↔
    ∃ e, pool.mapTx.lookup tx.hash = some e ∧ e.tx = tx ∧ o ∈ tx.prevouts
  total : pool.totalTxSize = ∑ k ∈ pool.keys, (pool.descWeight k).1

/-- So are the statistics. -/
structure Bookkeeping (pool : CTxMemPool) : Prop extends pool.WellLinked where
  desc : ∀ k e, pool.mapTx.lookup k = some e → e.withDescendants = ∑ d ∈ pool.descendants k, pool.descWeight d
  anc : ∀ k e, pool.mapTx.lookup k = some e → e.withAncestors = ∑ a ∈ pool.ancestors k, pool.ancWeight a

/-- As `Bookkeeping`, with statistics that are `X` and `Y` above the sums over the relatives. -/
structure BookkeepingUpTo (pool : CTxMemPool) (X : Uint256 → DescendantState) (Y : Uint256 → AncestorState) : Prop
    extends pool.WellLinked where
  desc : ∀ k e, pool.mapTx.lookup k = some e → e.withDescendants = ∑ d ∈ pool.descendants k, pool.descWeight d + X k
  anc : ∀ k e, pool.mapTx.lookup k = some e → e.withAncestors = ∑ a ∈ pool.ancestors k, pool.ancWeight a + Y k
  desc_nonneg : ∀ k, 0 ≤ (X k).1 ∧ 0 ≤ (X k).2.2
  anc_nonneg : ∀ k, 0 ≤ (Y k).1 ∧ 0 ≤ (Y k).2.2.1 ∧ 0 ≤ (Y k).2.2.2

lemma bookkeepingUpTo_zero : pool.BookkeepingUpTo 0 0 ↔ pool.Bookkeeping := by
  constructor
  · intro h
    exact ⟨h.1, fun k e he => (h.desc k e he).trans (add_zero _), fun k e he => (h.anc k e he).trans (add_zero _)⟩
  · intro h
    exact ⟨h.1, fun k e he => (h.desc k e he).trans (add_zero _).symm,
      fun k e he => (h.anc k e he).trans (add_zero _).symm, by simp, by simp⟩

lemma Bookkeeping.upTo (h : pool.Bookkeeping) : pool.BookkeepingUpTo 0 0 :=
  bookkeepingUpTo_zero.2 h

section

variable (pool k)

lemma lookup_cases : (pool.mapTx.lookup k = none ∧ pool.descWeight k = 0 ∧ pool.ancWeight k = 0) ∨
    ∃ e, pool.mapTx.lookup k = some e ∧ pool.descWeight k = e.descWeight ∧ pool.ancWeight k = e.ancWeight := by
  unfold descWeight ancWeight
  cases pool.mapTx.lookup k with
  | none => exact .inl ⟨rfl, rfl, rfl⟩
  | some e => exact .inr ⟨e, rfl, rfl, rfl⟩

lemma descWeight_nonneg : 0 ≤ (pool.descWeight k).1 ∧ 0 ≤ (pool.descWeight k).2.2 := by
  rcases pool.lookup_cases k with ⟨-, h, -⟩ | ⟨e, -, h, -⟩
  · simp [h]
  · rw [h]
    exact ⟨e.getTxSize_pos.le, zero_le_one⟩

lemma ancWeight_nonneg : 0 ≤ (pool.ancWeight k).1 ∧ 0 ≤ (pool.ancWeight k).2.2.1 ∧ 0 ≤ (pool.ancWeight k).2.2.2 := by
  rcases pool.lookup_cases k with ⟨-, -, h⟩ | ⟨e, -, -, h⟩
  · simp [h]
  · rw [h]
    exact ⟨e.getTxSize_pos.le, zero_le_one, Int.natCast_nonneg _⟩

end

lemma positive_sum_descWeight (hk : k ∈ pool.keys)
    (hs : k ∈ s) : DescendantState.Positive (∑ d ∈ s, pool.descWeight d) := by
  obtain ⟨e, he⟩ := mem_keys_iff_lookup.1 hk
  have hnn := pool.descWeight_nonneg
  have hself : pool.descWeight k = e.descWeight := by rw [descWeight, he, Option.elim_some]
  constructor
  · rw [fst_sum]
    exact Finset.sum_pos' (fun d _ => (hnn d).1) ⟨k, hs, hself ▸ e.getTxSize_pos⟩
  · rw [snd_sum, snd_sum]
    exact Finset.sum_pos' (fun d _ => (hnn d).2) ⟨k, hs, hself ▸ one_pos⟩

lemma positive_sum_ancWeight (hk : k ∈ pool.keys)
    (hs : k ∈ s) : AncestorState.Positive (∑ a ∈ s, pool.ancWeight a) := by
  obtain ⟨e, he⟩ := mem_keys_iff_lookup.1 hk
  have hnn := pool.ancWeight_nonneg
  have hself : pool.ancWeight k = e.ancWeight := by rw [ancWeight, he, Option.elim_some]
  refine ⟨?_, ?_, ?_⟩
  · rw [fst_sum]
    exact Finset.sum_pos' (fun d _ => (hnn d).1) ⟨k, hs, hself ▸ e.getTxSize_pos⟩
  · rw [snd_sum, snd_sum, fst_sum]
    exact Finset.sum_pos' (fun d _ => (hnn d).2.1) ⟨k, hs, hself ▸ one_pos⟩
  · rw [snd_sum, snd_sum, snd_sum]
    exact Finset.sum_nonneg fun d _ => (hnn d).2.2

lemma positive_add_desc {d x : DescendantState} (h : DescendantState.Positive d)
    (hx : 0 ≤ x.1 ∧ 0 ≤ x.2.2) : DescendantState.Positive (d + x) :=
  ⟨add_pos_of_pos_of_nonneg h.1 hx.1, add_pos_of_pos_of_nonneg h.2 hx.2⟩

lemma positive_add_anc {a y : AncestorState} (h : AncestorState.Positive a)
    (hy : 0 ≤ y.1 ∧ 0 ≤ y.2.2.1 ∧ 0 ≤ y.2.2.2) : AncestorState.Positive (a + y) :=
  ⟨add_pos_of_pos_of_nonneg h.1 hy.1, add_pos_of_pos_of_nonneg h.2.1 hy.2.1, Int.add_nonneg h.2.2 hy.2.2⟩

section

variable {pool : CTxMemPool} {X : Uint256 → DescendantState} {Y : Uint256 → AncestorState}

section

variable (h : pool.BookkeepingUpTo X Y)
include h

lemma BookkeepingUpTo.linkedParent : pool.LinkedParent = Within pool.Spends pool.keys := by
  funext a b
  exact propext (h.parents a b)

lemma BookkeepingUpTo.linkedChild : pool.LinkedChild = Within (swap pool.Spends) pool.keys := by
  funext a b
  refine propext ((h.children a b).trans ⟨Within.swap, Within.swap⟩)

lemma BookkeepingUpTo.transGen_iff {k x : Uint256} (hk : k ∈ pool.keys) :
    TransGen (Within pool.Spends pool.keys) k x ↔ x ∈ pool.ancestors k ∧ x ≠ k := by
  rw [ancestors, mem_reach]
  constructor
  · intro hx
    refine ⟨⟨mem_of_reflTransGen_within hx.to_reflTransGen hk, hx.to_reflTransGen⟩, ?_⟩
    rintro rfl
    exact h.acyclic x hx
  · rintro ⟨⟨-, hx⟩, hne⟩
    exact (reflTransGen_iff_eq_or_transGen.1 hx).resolve_left hne

end

lemma mem_ancestors_iff {k x : Uint256} (hk : k ∈ pool.keys) (hx : x ∈ pool.keys) :
    x ∈ pool.ancestors k ↔ k ∈ pool.descendants x :=
  (mem_reach_swap_iff (R := pool.Spends) hk hx).symm

lemma BookkeepingUpTo.hasStats (h : pool.BookkeepingUpTo X Y) : HasStats pool pool
    (fun k => ∑ d ∈ pool.descendants k, pool.descWeight d + X k)
    (fun k => ∑ a ∈ pool.ancestors k, pool.ancWeight a + Y k) := by
  intro k
  cases he : pool.mapTx.lookup k with
  | none => rfl
  | some e => simp [← h.desc k e he, ← h.anc k e he]

lemma HasStats.congr {pool₀ pool : CTxMemPool} {D D' : Uint256 → DescendantState} {A A' : Uint256 → AncestorState}
    (h : HasStats pool₀ pool D A) (hD : ∀ k ∈ pool₀.keys, D k = D' k) (hA : ∀ k ∈ pool₀.keys, A k = A' k) :
    HasStats pool₀ pool D' A' := by
  intro k
  rw [h k]
  cases he : pool₀.mapTx.lookup k with
  | none => rfl
  | some e => rw [hD k (mem_keys_of_lookup he), hA k (mem_keys_of_lookup he)]

/-! ## The statistics lose the removed entries -/

/-- The descendant statistics without the entries of `done`. -/
noncomputable def descLeft (pool : CTxMemPool) (done : List Uint256) (k : Uint256) : DescendantState :=
  ∑ d ∈ left (pool.descendants k) k done, pool.descWeight d

/-- The ancestor statistics without the entries of `done`. -/
noncomputable def ancLeft (pool : CTxMemPool) (done : List Uint256) (k : Uint256) : AncestorState :=
  ∑ a ∈ left (pool.ancestors k) k done, pool.ancWeight a

lemma self_mem_descendants (hk : k ∈ pool.keys) : k ∈ pool.descendants k := self_mem_reach hk
lemma self_mem_ancestors (hk : k ∈ pool.keys) : k ∈ pool.ancestors k := self_mem_reach hk

variable {pool' : CTxMemPool} {D : Uint256 → DescendantState} {A : Uint256 → AncestorState} {done : List Uint256}
  {r : Uint256}

lemma HasStats.childrenLinked (h : pool.BookkeepingUpTo X Y) (hs : HasStats pool pool' D A)
    (hlinks : pool'.mapLinks = pool.mapLinks) : pool'.ChildrenLinked ∧ pool'.LinkedChild = pool.LinkedChild := by
  have heq : ∀ k, pool'.linksOf k = pool.linksOf k := fun k => by rw [linksOf, hlinks, linksOf]
  refine ⟨fun k hk => ?_, by funext a b; rw [LinkedChild, heq, LinkedChild]⟩
  rw [hs.keys_eq] at hk ⊢
  rw [hlinks, heq]
  exact ⟨(h.links k).2 hk, fun c hc => ((h.children k c).1 hc).1⟩

lemma updateDescendantsForRemoval_ok (h : pool.BookkeepingUpTo X Y) (hs : HasStats pool pool' D (pool.ancLeft done + Y))
    (hlinks : pool'.mapLinks = pool.mapLinks) (hr : r ∈ pool.keys) (hdone : r ∉ done) :
    ∃ m, pool'.updateDescendantsForRemoval r = .ok { pool' with mapTx := m } ∧
      HasStats pool { pool' with mapTx := m } D (pool.ancLeft (r :: done) + Y) := by
  obtain ⟨hcl, hrel⟩ := hs.childrenLinked h hlinks
  obtain ⟨S, hS, hmem⟩ := calculateDescendants_empty hcl (hs.keys_eq ▸ hr)
  obtain ⟨e, he⟩ := mem_keys_iff_lookup.1 hr
  have hmemS : ∀ x, x ∈ S.erase r ↔ x ∈ pool.descendants r ∧ x ≠ r := fun x => by
    rw [mem_erase, hmem, hrel, h.linkedChild, descendants, mem_reach, and_comm]
    exact and_congr_left fun _ => ⟨fun hx => ⟨mem_of_reflTransGen_within hx hr, hx⟩, And.right⟩
  have hin : ∀ x ∈ S.erase r, x ∈ pool.keys := fun x hx => descendants_subset ((hmemS x).1 hx).1
  have hw : pool.ancWeight r = e.ancWeight := by rw [ancWeight, he, Option.elim_some]
  have hstep : ∀ k ∈ pool.keys, pool.ancLeft (r :: done) k =
      pool.ancLeft done k + if k ∈ S.erase r then -e.ancWeight else 0 := fun k hk => by
    rw [ancLeft, sum_left_cons _ hdone, ← hw, ancLeft]
    congr 1
    refine if_congr ?_ rfl rfl
    rw [hmemS, mem_ancestors_iff hk hr, ne_comm]
  obtain ⟨m, hm, hs'⟩ := foldlM_updateAncestorState hs (S.erase r) (-e.ancWeight) hin fun k hk => by
    have hself : k ∈ left (pool.ancestors k) k (r :: done) := self_mem_left (self_mem_ancestors (hin k hk))
    have hpos := positive_add_anc (positive_sum_ancWeight (hin k hk) hself) (h.anc_nonneg k)
    rwa [← ancLeft, hstep k (hin k hk), if_pos hk, add_right_comm] at hpos
  refine ⟨m, ?_, hs'.congr (fun _ _ => rfl) fun k hk => ?_⟩
  · rw [updateDescendantsForRemoval, hS]
    simp only [bind, Except.bind, deref_eq_ok.2 (hs.lookup he)]
    exact hm
  · rw [Pi.add_apply, Pi.add_apply, hstep k hk]
    split_ifs
    · rw [add_right_comm]
    · rw [add_zero]

variable {l : List Uint256}

lemma foldlM_updateDescendantsForRemoval (h : pool.BookkeepingUpTo X Y)
    (hs : HasStats pool pool' D (pool.ancLeft done + Y)) (hlinks : pool'.mapLinks = pool.mapLinks)
    (hin : ∀ k ∈ l, k ∈ pool.keys) (hnd : (l.reverse ++ done).Nodup) :
    ∃ m, l.foldlM updateDescendantsForRemoval pool' = .ok { pool' with mapTx := m } ∧
      HasStats pool { pool' with mapTx := m } D (pool.ancLeft (l.reverse ++ done) + Y) := by
  induction l generalizing pool' done with
  | nil => exact ⟨pool'.mapTx, rfl, hs⟩
  | cons r l ih =>
    rw [reverse_cons, append_assoc, singleton_append] at hnd ⊢
    have hdone : r ∉ done := (nodup_cons.1 (nodup_append.1 hnd).2.1).1
    obtain ⟨m, hm, hs'⟩ := updateDescendantsForRemoval_ok h hs hlinks (hin r mem_cons_self) hdone
    obtain ⟨m', hm', hs''⟩ := ih hs' hlinks (fun k hk => hin k (mem_cons_of_mem _ hk)) hnd
    exact ⟨m', by rw [foldlM_cons, hm]; exact hm', hs''⟩

/-- `pool'` is `pool` after the ancestors of the entries of `done` have lost them. -/
structure Severed (pool pool' : CTxMemPool) (X : Uint256 → DescendantState) (A : Uint256 → AncestorState)
    (done : List Uint256) : Prop where
  stats : HasStats pool pool' (pool.descLeft done + X) A
  links : ∀ k, k ∈ pool'.mapLinks ↔ k ∈ pool.mapLinks
  parents : ∀ k, (pool'.linksOf k).parents = (pool.linksOf k).parents
  children : ∀ k c, c ∈ (pool'.linksOf k).children ↔ c ∈ (pool.linksOf k).children ∧ c ∉ done
  nextTx : pool'.mapNextTx = pool.mapNextTx
  deltas : pool'.mapDeltas = pool.mapDeltas
  total : pool'.totalTxSize = pool.totalTxSize

section

variable (h : pool.BookkeepingUpTo X Y)
include h

section

variable (hs : Severed pool pool' X A done)
include hs

lemma Severed.parentsLinked : pool'.ParentsLinked ∧ pool'.LinkedParent = pool.LinkedParent := by
  refine ⟨fun k hk => ?_, by funext a b; rw [LinkedParent, hs.parents, LinkedParent]⟩
  rw [hs.stats.keys_eq] at hk ⊢
  rw [hs.links, hs.parents]
  exact ⟨(h.links k).2 hk, fun p hp => ((h.parents k p).1 hp).2.1⟩

lemma updateAncestorsForRemoval_ok (hr : r ∈ pool.keys) (hdone : r ∉ done) :
    ∃ pool'', pool'.updateAncestorsForRemoval r = .ok pool'' ∧ Severed pool pool'' X A (r :: done) := by
  obtain ⟨hpl, hrel⟩ := hs.parentsLinked h
  obtain ⟨e, he⟩ := mem_keys_iff_lookup.1 hr
  have he' := hs.stats.lookup he
  set e' := e.setStats ((pool.descLeft done + X) r) (A r) with hdef
  have hhash : e'.tx.hash = r := h.hash_eq r e he
  have hr' : r ∈ pool'.keys := hs.stats.keys_eq ▸ hr
  obtain ⟨S, hS, hmem⟩ := calculateMemPoolAncestors_ok hpl (hhash.symm ▸ hr')
  have hmemS : ∀ x, x ∈ S ↔ x ∈ pool.ancestors r ∧ x ≠ r := fun x => by
    rw [hmem, hhash, hrel, h.linkedParent, h.transGen_iff hr]
  have hin : ∀ x ∈ S, x ∈ pool.keys := fun x hx => ancestors_subset ((hmemS x).1 hx).1
  have hw : pool.descWeight r = e.descWeight := by rw [descWeight, he, Option.elim_some]
  have hstep : ∀ k ∈ pool.keys, pool.descLeft (r :: done) k =
      pool.descLeft done k + if k ∈ S then -e.descWeight else 0 := fun k hk => by
    rw [descLeft, sum_left_cons _ hdone, ← hw, descLeft]
    congr 1
    refine if_congr ?_ rfl rfl
    rw [hmemS, mem_ancestors_iff hr hk, ne_comm]
  obtain ⟨pool'', hok, hu⟩ := updateAncestorsOf_ok hs.stats hpl false he hin fun k hk => by
    have hself : k ∈ left (pool.descendants k) k (r :: done) := self_mem_left (self_mem_descendants (hin k hk))
    have hpos := positive_add_desc (positive_sum_descWeight (hin k hk) hself) (h.desc_nonneg k)
    rwa [← descLeft, hstep k (hin k hk), if_pos hk, add_right_comm] at hpos
  refine ⟨pool'', ?_, hu.stats.congr (fun k hk => ?_) fun _ _ => rfl, fun k => (hu.links k).trans (hs.links k),
    fun k => (hu.parents k).trans (hs.parents k), fun k c => ?_, hu.nextTx.trans hs.nextTx, hu.deltas.trans hs.deltas,
    hu.total.trans hs.total⟩
  · rw [updateAncestorsForRemoval, deref_eq_ok.2 he']
    simp only [bind, Except.bind, hS]
    exact hok
  · rw [Pi.add_apply, Pi.add_apply, hstep k hk, if_neg Bool.false_ne_true]
    by_cases hkS : k ∈ S
    · rw [if_pos hkS, if_pos hkS, add_right_comm]
    · rw [if_neg hkS, if_neg hkS, add_zero]
  · -- `k` loses the child `r` when it is one of the parents of `r`
    have hiff : k ∈ (pool'.linksOf r).parents ↔ r ∈ (pool.linksOf k).children := by
      rw [hs.parents, h.parents, h.children]
    rw [hu.children, mem_cons, not_or]
    by_cases hk : k ∈ (pool'.linksOf r).parents
    · rw [if_pos hk, if_neg Bool.false_ne_true, mem_erase, hs.children]
      tauto
    · rw [if_neg hk, hs.children]
      have hrk : c ∈ (pool.linksOf k).children → c ≠ r := fun hc hcr => hk (hiff.2 (hcr ▸ hc))
      tauto

lemma foldlM_updateAncestorsForRemoval (hin : ∀ k ∈ l, k ∈ pool.keys) (hnd : (l.reverse ++ done).Nodup) :
    ∃ pool'', l.foldlM updateAncestorsForRemoval pool' = .ok pool'' ∧ Severed pool pool'' X A (l.reverse ++ done) := by
  induction l generalizing pool' done with
  | nil => exact ⟨pool', rfl, hs⟩
  | cons r l ih =>
    rw [reverse_cons, append_assoc] at hnd ⊢
    have hdone : r ∉ done := (nodup_cons.1 (nodup_append.1 hnd).2.1).1
    obtain ⟨p, hp, hs'⟩ := updateAncestorsForRemoval_ok h hs (hin r mem_cons_self) hdone
    obtain ⟨p', hp', hs''⟩ := ih hs' (fun k hk => hin k (mem_cons_of_mem _ hk)) hnd
    exact ⟨p', by rw [foldlM_cons, hp]; exact hp', hs''⟩

end

end

/-! ## The children of the removed entries lose their parent -/

lemma updateChildrenForRemoval_ok (hr : r ∈ pool.keys) (hl : pool.ChildrenLinked) :
    ∃ L, pool.updateChildrenForRemoval r = .ok { pool with mapLinks := L } ∧ (∀ k, k ∈ L ↔ k ∈ pool.mapLinks) ∧
      (∀ k, (linksOf { pool with mapLinks := L } k).children = (pool.linksOf k).children) ∧
      ∀ k p, p ∈ (linksOf { pool with mapLinks := L } k).parents ↔
        p ∈ (pool.linksOf k).parents ∧ ¬ (p = r ∧ k ∈ (pool.linksOf r).children) := by
  obtain ⟨L, hL, hlinks, hkeys⟩ := foldl_alterLinks pool (pool.linksOf r).children.nodup fun links =>
    { links with parents := if false then links.parents.insert r else links.parents.erase r }
  refine ⟨L, ?_, fun k => ?_, fun k => ?_, fun k p => ?_⟩
  · rw [updateChildrenForRemoval, getMemPoolChildren_ok hr (hl r hr).1]
    simp only [bind, Except.bind, updateParent_eq, hL]
    rfl
  · refine (hkeys k).trans (or_iff_left_of_imp fun hk => ?_)
    exact (hl k ((hl r hr).2 k hk)).1
  · rw [hlinks]
    split_ifs <;> rfl
  · rw [hlinks, ← mem_toList (s := (pool.linksOf r).children)]
    by_cases hk : k ∈ (pool.linksOf r).children.toList
    · rw [if_pos hk, if_neg Bool.false_ne_true, mem_erase]
      tauto
    · rw [if_neg hk]
      tauto

lemma foldlM_updateChildrenForRemoval (hin : ∀ k ∈ l, k ∈ pool.keys) (hl : pool.ChildrenLinked) :
    ∃ L, l.foldlM updateChildrenForRemoval pool = .ok { pool with mapLinks := L } ∧ (∀ k, k ∈ L ↔ k ∈ pool.mapLinks) ∧
      (∀ k, (linksOf { pool with mapLinks := L } k).children = (pool.linksOf k).children) ∧
      ∀ k p, p ∈ (linksOf { pool with mapLinks := L } k).parents ↔
        p ∈ (pool.linksOf k).parents ∧ ¬ (p ∈ l ∧ k ∈ (pool.linksOf p).children) := by
  induction l generalizing pool with
  | nil => exact ⟨pool.mapLinks, rfl, fun _ => Iff.rfl, fun _ => rfl, fun k p => by simp⟩
  | cons r l ih =>
    obtain ⟨L, hL, hkeys, hchildren, hparents⟩ := updateChildrenForRemoval_ok (hin r mem_cons_self) hl
    have hl' : ChildrenLinked { pool with mapLinks := L } := fun k hk => by
      rw [hchildren]
      exact ⟨(hkeys k).2 (hl k hk).1, (hl k hk).2⟩
    have hin' : ∀ k ∈ l, k ∈ keys { pool with mapLinks := L } := fun k hk => hin k (mem_cons_of_mem _ hk)
    obtain ⟨L', hL', hkeys', hchildren', hparents'⟩ := ih hin' hl'
    refine ⟨L', by rw [foldlM_cons, hL]; exact hL', fun k => (hkeys' k).trans (hkeys k),
      fun k => (hchildren' k).trans (hchildren k), fun k p => (hparents' k p).trans ?_⟩
    rw [hparents, hchildren, mem_cons]
    constructor
    · rintro ⟨⟨hp, hr⟩, hnl⟩
      refine ⟨hp, ?_⟩
      rintro ⟨rfl | hpl, hk⟩
      · exact hr ⟨rfl, hk⟩
      · exact hnl ⟨hpl, hk⟩
    · rintro ⟨hp, hno⟩
      refine ⟨⟨hp, ?_⟩, fun ⟨hpl, hk⟩ => hno ⟨.inr hpl, hk⟩⟩
      rintro ⟨rfl, hk⟩
      exact hno ⟨.inl rfl, hk⟩

/-- What `UpdateForRemoveFromMempool` leaves: the entries outside `S` no longer know of those in `S`. -/
structure Detached (pool pool' : CTxMemPool) (X : Uint256 → DescendantState) (Y : Uint256 → AncestorState)
    (S : SetEntries) : Prop where
  stats : ∀ k ∉ S, ∀ e, pool.mapTx.lookup k = some e → pool'.mapTx.lookup k = some (e.setStats
    (∑ d ∈ pool.descendants k \ S.toFinset, pool.descWeight d + X k)
    (∑ a ∈ pool.ancestors k \ S.toFinset, pool.ancWeight a + Y k))
  entry : ∀ k e', pool'.mapTx.lookup k = some e' → ∃ e d a, pool.mapTx.lookup k = some e ∧ e' = e.setStats d a
  keys : pool'.keys = pool.keys
  links : ∀ k, k ∈ pool'.mapLinks ↔ k ∈ pool.keys
  children : ∀ k ∉ S, ∀ c, c ∈ (pool'.linksOf k).children ↔ c ∈ (pool.linksOf k).children ∧ c ∉ S
  parents : ∀ k ∉ S, ∀ p, p ∈ (pool'.linksOf k).parents ↔ p ∈ (pool.linksOf k).parents ∧ p ∉ S
  nextTx : pool'.mapNextTx = pool.mapNextTx
  deltas : pool'.mapDeltas = pool.mapDeltas
  total : pool'.totalTxSize = pool.totalTxSize

variable {S : SetEntries}

lemma updateForRemoveFromMempool_ok (h : pool.BookkeepingUpTo X Y) (hS : ∀ k ∈ S, k ∈ pool.keys) (b : Bool)
    (hanc : b = false → ∀ k ∈ pool.keys, k ∉ S → Disjoint (pool.ancestors k) S.toFinset) :
    ∃ pool', pool.updateForRemoveFromMempool S b = .ok pool' ∧ Detached pool pool' X Y S := by
  have hnd : (S.toList.reverse ++ []).Nodup := by simpa using S.nodup
  have hmemrev : ∀ k, k ∈ S.toList.reverse ++ [] ↔ k ∈ S := fun k => by simp [mem_toList]
  have hrev : (S.toList.reverse ++ []).toFinset = S.toFinset := by
    ext k
    rw [List.mem_toFinset, hmemrev, mem_toFinset]
  have hstart : HasStats pool pool (pool.descLeft [] + X) (pool.ancLeft [] + Y) :=
    h.hasStats.congr (fun k _ => by rw [Pi.add_apply, descLeft, left_nil]) fun k _ => by
      rw [Pi.add_apply, ancLeft, left_nil]
  -- the first loop runs only with `updateDescendants`
  obtain ⟨m, A, hm, hA, hAk⟩ : ∃ m A, (if b = true then S.toList.foldlM updateDescendantsForRemoval pool else pure pool) =
      .ok { pool with mapTx := m } ∧ HasStats pool { pool with mapTx := m } (pool.descLeft [] + X) A ∧
      ∀ k ∈ pool.keys, k ∉ S → A k = ∑ a ∈ pool.ancestors k \ S.toFinset, pool.ancWeight a + Y k := by
    cases b with
    | true =>
      obtain ⟨m, hm, hs⟩ := foldlM_updateDescendantsForRemoval h hstart rfl hS hnd
      refine ⟨m, _, by rw [if_pos rfl]; exact hm, hs, fun k _ hk => ?_⟩
      rw [Pi.add_apply, ancLeft, left_eq_sdiff (fun hk' => hk ((hmemrev k).1 hk')), hrev]
    | false =>
      refine ⟨pool.mapTx, _, rfl, hstart, fun k hkk hk => ?_⟩
      rw [Pi.add_apply, ancLeft, left_nil, Finset.sdiff_eq_self_of_disjoint (hanc rfl k hkk hk)]
  have hsev : Severed pool { pool with mapTx := m } X A [] :=
    ⟨hA, fun _ => Iff.rfl, fun _ => rfl, fun k c => by simp [linksOf], rfl, rfl, rfl⟩
  obtain ⟨pool₂, h₂, hs₂⟩ := foldlM_updateAncestorsForRemoval h hsev hS hnd
  have hchild₂ : ∀ k c, c ∈ (pool₂.linksOf k).children ↔ c ∈ (pool.linksOf k).children ∧ c ∉ S := fun k c => by
    rw [hs₂.children, hmemrev]
  have hkeys₂ : pool₂.keys = pool.keys := hs₂.stats.keys_eq
  have hcl₂ : pool₂.ChildrenLinked := fun k hk => by
    rw [hkeys₂] at hk ⊢
    rw [hs₂.links, h.links]
    exact ⟨hk, fun c hc => ((h.children k c).1 ((hchild₂ k c).1 hc).1).1⟩
  obtain ⟨L, hL, hkeys, hchildren, hparents⟩ :=
    foldlM_updateChildrenForRemoval (fun k hk => hkeys₂ ▸ hS k hk) hcl₂
  refine ⟨{ pool₂ with mapLinks := L }, ?_, fun k hk e he => ?_, fun k e' he' => ?_, hkeys₂, fun k => ?_,
    fun k _ c => ?_, fun k hk p => ?_, hs₂.nextTx, hs₂.deltas, hs₂.total⟩
  · rw [updateForRemoveFromMempool, hm]
    simp only [bind, Except.bind, h₂]
    exact hL
  · have hlook := hs₂.stats.lookup he
    rw [Pi.add_apply, descLeft, left_eq_sdiff (fun hk' => hk ((hmemrev k).1 hk')), hrev,
      hAk k (mem_keys_of_lookup he) hk] at hlook
    exact hlook
  · obtain ⟨e, he, rfl⟩ := Option.map_eq_some_iff.1 ((hs₂.stats k).symm.trans he')
    exact ⟨e, _, _, he, rfl⟩
  · exact (hkeys k).trans ((hs₂.links k).trans (h.links k))
  · rw [hchildren, hchild₂]
  · rw [hparents, hs₂.parents, hchild₂]
    refine and_congr_right fun hp => ⟨fun hno hpS => hno ⟨hpS, ?_, hk⟩, fun hpS hno => hpS hno.1⟩
    exact (h.children p k).2 ((h.parents k p).1 hp)

/-! ## Erasing the entries -/

/-- `pool'` is `pool` with the entries of `l` erased. -/
structure Erased (pool pool' : CTxMemPool) (l : List Uint256) : Prop where
  lookup : ∀ k, pool'.mapTx.lookup k = if k ∈ l then none else pool.mapTx.lookup k
  links : ∀ k, pool'.mapLinks.lookup k = if k ∈ l then none else pool.mapLinks.lookup k
  nextTx : ∀ o tx, pool'.mapNextTx.lookup o = some tx ↔ pool.mapNextTx.lookup o = some tx ∧
    ∀ k ∈ l, ∀ e, pool.mapTx.lookup k = some e → o ∉ e.tx.prevouts
  deltas : pool'.mapDeltas = pool.mapDeltas
  total : pool'.totalTxSize = pool.totalTxSize - (l.map fun k => (pool.descWeight k).1).sum

lemma foldlM_removeUnchecked (hl : l.Nodup) (hin : ∀ k ∈ l, k ∈ pool.keys) :
    ∃ pool', l.foldlM removeUnchecked pool = .ok pool' ∧ Erased pool pool' l := by
  induction l generalizing pool with
  | nil => exact ⟨pool, rfl, fun _ => by simp, fun _ => by simp, fun _ _ => by simp, rfl, by simp⟩
  | cons r l ih =>
    obtain ⟨hrl, hl⟩ := nodup_cons.1 hl
    obtain ⟨e, he⟩ := mem_keys_iff_lookup.1 (hin r mem_cons_self)
    set pool₁ : CTxMemPool := { pool with
      mapNextTx := e.tx.prevouts.foldl (fun m o => m.erase o) pool.mapNextTx
      totalTxSize := pool.totalTxSize - e.getTxSize
      mapLinks := pool.mapLinks.erase r
      mapTx := pool.mapTx.erase r } with hdef
    have hstep : pool.removeUnchecked r = .ok pool₁ := by
      rw [removeUnchecked, deref_eq_ok.2 he]
      rfl
    have hlook : ∀ k ∈ l, pool₁.mapTx.lookup k = pool.mapTx.lookup k := fun k hk =>
      AList.lookup_erase_ne fun hkr => hrl (hkr ▸ hk)
    obtain ⟨pool', hok, h⟩ := ih hl fun k hk => by
      rw [mem_keys_iff_lookup, hlook k hk, ← mem_keys_iff_lookup]
      exact hin k (mem_cons_of_mem _ hk)
    refine ⟨pool', by rw [foldlM_cons, hstep]; exact hok, fun k => ?_, fun k => ?_, fun o tx => ?_, h.deltas, ?_⟩
    · exact (h.lookup k).trans (ite_lookup_erase ..)
    · exact (h.links k).trans (ite_lookup_erase ..)
    · have hfirst : pool₁.mapNextTx.lookup o = some tx ↔
          pool.mapNextTx.lookup o = some tx ∧ o ∉ e.tx.prevouts := by
        rw [hdef, lookup_foldl_erase, List.map_id']
        by_cases ho : o ∈ e.tx.prevouts <;> simp [ho]
      rw [h.nextTx, hfirst, and_assoc]
      refine and_congr_right fun _ => ⟨fun ⟨ho, hrest⟩ k hk e' he' => ?_, fun hall => ⟨?_, fun k hk e' he' => ?_⟩⟩
      · rcases mem_cons.1 hk with rfl | hk
        · exact Option.some.inj (he.symm.trans he') ▸ ho
        · exact hrest k hk e' ((hlook k hk).trans he')
      · exact hall r mem_cons_self e he
      · exact hall k (mem_cons_of_mem _ hk) e' ((hlook k hk).symm.trans he')
    · have hw : l.map (fun k => (pool₁.descWeight k).1) = l.map fun k => (pool.descWeight k).1 :=
        map_congr_left fun k hk => by rw [descWeight, hlook k hk, descWeight]
      have hwr : (pool.descWeight r).1 = e.getTxSize := by rw [descWeight, he]; rfl
      rw [h.total, hw, map_cons, hwr]
      exact sub_sub ..

/-! ## `RemoveStaged` -/

/-- `pool'` is `pool` without the transactions of `S`, up to statistics. -/
structure Removed (pool pool' : CTxMemPool) (S : Finset Uint256) : Prop where
  keys : pool'.keys = pool.keys \ S
  entry : ∀ k e', pool'.mapTx.lookup k = some e' → ∃ e d a, pool.mapTx.lookup k = some e ∧ e' = e.setStats d a
  deltas : pool'.mapDeltas = pool.mapDeltas

section

variable {S : Finset Uint256}

section

variable (h : Removed pool pool' S)
include h

lemma Removed.spends_iff {c : Uint256} (hc : c ∈ pool'.keys) (p : Uint256) : pool'.Spends c p ↔ pool.Spends c p := by
  obtain ⟨e', he'⟩ := mem_keys_iff_lookup.1 hc
  obtain ⟨e, _, _, he, rfl⟩ := h.entry c e' he'
  simp only [Spends, he, he', Option.some.injEq, exists_eq_left', setStats_tx]

lemma Removed.weight_eq (hk : k ∈ pool'.keys) :
    pool'.descWeight k = pool.descWeight k ∧ pool'.ancWeight k = pool.ancWeight k := by
  obtain ⟨e', he'⟩ := mem_keys_iff_lookup.1 hk
  obtain ⟨e, _, _, he, rfl⟩ := h.entry k e' he'
  simp [descWeight, ancWeight, he, he']

lemma Removed.within : Within pool'.Spends pool'.keys = Within pool.Spends pool'.keys :=
  within_congr fun _ ha b _ => h.spends_iff ha b

lemma Removed.reach_eq (hS : Bypassed pool.Spends pool.keys S) (hk : k ∈ pool.keys) (hkS : k ∉ S) :
    pool'.ancestors k = pool.ancestors k \ S ∧ pool'.descendants k = pool.descendants k \ S := by
  constructor
  · rw [ancestors, reach_congr (fun _ ha b _ => h.spends_iff ha b), h.keys, reach_sdiff hS hk hkS, ancestors]
  · rw [descendants, reach_congr (fun a _ b hb => h.spends_iff hb a), h.keys, reach_sdiff hS.swap hk hkS, descendants]

end

end

section

variable {pool₁ : CTxMemPool} {S : SetEntries} (hd : Detached pool pool₁ X Y S) (he : Erased pool₁ pool' S.toList)
include hd he

lemma Detached.lookup_erased {e' : CTxMemPoolEntry} (h : pool'.mapTx.lookup k = some e') : k ∉ S ∧ ∃ e, pool.mapTx.lookup k = some e ∧
      e' = e.setStats (∑ d ∈ pool.descendants k \ S.toFinset, pool.descWeight d + X k)
        (∑ a ∈ pool.ancestors k \ S.toFinset, pool.ancWeight a + Y k) := by
  rw [he.lookup] at h
  by_cases hk : k ∈ S
  · rw [if_pos (mem_toList.2 hk)] at h
    cases h
  · rw [if_neg (fun h => hk (mem_toList.1 h))] at h
    obtain ⟨e, d, a, hlook, rfl⟩ := hd.entry k e' h
    exact ⟨hk, e, hlook, Option.some.inj (h.symm.trans (hd.stats k hk e hlook))⟩

lemma Detached.removed : Removed pool pool' S.toFinset where
  keys := by
    ext k
    rw [Finset.mem_sdiff, ← hd.keys, mem_keys_iff_lookup, mem_keys_iff_lookup, he.lookup]
    simp only [mem_toList]
    by_cases hk : k ∈ S <;> simp [hk]
  entry := by
    intro k e' h
    obtain ⟨-, e, hlook, rfl⟩ := hd.lookup_erased he h
    exact ⟨e, _, _, hlook, rfl⟩
  deltas := he.deltas.trans hd.deltas

omit hd in
lemma Detached.linksOf_erased (k : Uint256) : pool'.linksOf k = if k ∈ S then .empty else pool₁.linksOf k := by
  rw [linksOf, he.links]
  simp only [mem_toList]
  split_ifs <;> rfl

lemma Detached.nextTx_erased (h : pool.BookkeepingUpTo X Y) (o : COutPoint) (tx : CTransaction) : pool'.mapNextTx.lookup o = some tx ↔
      ∃ e, pool'.mapTx.lookup tx.hash = some e ∧ e.tx = tx ∧ o ∈ tx.prevouts := by
  rw [he.nextTx, hd.nextTx, h.nextTx]
  constructor
  · rintro ⟨⟨e, hlook, rfl, ho⟩, hno⟩
    have hS : e.tx.hash ∉ S.toList := fun hmem => by
      obtain ⟨e₁, he₁⟩ := mem_keys_iff_lookup.1 (hd.keys ▸ mem_keys_of_lookup hlook)
      obtain ⟨e₀, d, a, he₀, rfl⟩ := hd.entry _ e₁ he₁
      exact hno _ hmem _ he₁ (Option.some.inj (he₀.symm.trans hlook) ▸ ho)
    exact ⟨_, by rw [he.lookup, if_neg hS]; exact hd.stats _ hS e hlook, setStats_tx .., ho⟩
  · rintro ⟨e', he', rfl, ho⟩
    obtain ⟨hS, e, hlook, heq⟩ := hd.lookup_erased he he'
    rw [show e'.tx = e.tx from heq ▸ rfl] at hlook hS ho ⊢
    refine ⟨⟨e, hlook, rfl, ho⟩, fun k hk e₁ he₁ ho₁ => ?_⟩
    -- an erased entry that spends the same outpoint would be the same entry
    obtain ⟨e₀, d, a, he₀, rfl⟩ := hd.entry k e₁ he₁
    have hk₀ := h.hash_eq k e₀ he₀
    have hspent := (h.nextTx o e₀.tx).2 ⟨e₀, hk₀.symm ▸ he₀, rfl, ho₁⟩
    have hspent' := (h.nextTx o e.tx).2 ⟨e, hlook, rfl, ho⟩
    have hkeq : k = e.tx.hash := hk₀.symm.trans (congrArg CTransaction.hash (Option.some.inj (hspent.symm.trans hspent')))
    exact hS (hkeq ▸ hk)

lemma Detached.total_erased (h : pool.BookkeepingUpTo X Y) (hS : ∀ k ∈ S, k ∈ pool.keys) :
    pool'.totalTxSize = ∑ k ∈ pool'.keys, (pool'.descWeight k).1 := by
  have hrem := hd.removed he
  have hw : ∀ k ∈ pool.keys, pool₁.descWeight k = pool.descWeight k := fun k hk => by
    obtain ⟨e₁, he₁⟩ := mem_keys_iff_lookup.1 (hd.keys.symm ▸ hk)
    obtain ⟨e, d, a, hlook, rfl⟩ := hd.entry k e₁ he₁
    simp [descWeight, hlook, he₁]
  have hsum : (S.toList.map fun k => (pool₁.descWeight k).1).sum = ∑ k ∈ S.toFinset, (pool.descWeight k).1 := by
    show ∑ k ∈ S.toFinset, (pool₁.descWeight k).1 = _
    exact Finset.sum_congr rfl fun k hk => by rw [hw k (hS k hk)]
  rw [he.total, hd.total, h.total, hsum, ← Finset.sum_sdiff_eq_sub fun k hk => hS k hk, ← hrem.keys]
  exact Finset.sum_congr rfl fun k hk => by rw [(hrem.weight_eq hk).1]

end

section

variable (h : pool.BookkeepingUpTo X Y)
include h

variable (hS : ∀ k ∈ S, k ∈ pool.keys)
include hS

/-- The books of what is left, with statistics `X'` and `Y'` above the sums over the relatives left. -/
theorem Detached.bookkeepingUpTo {pool₁ : CTxMemPool} {X' : Uint256 → DescendantState} {Y' : Uint256 → AncestorState}
    (hd : Detached pool pool₁ X Y S) (her : Erased pool₁ pool' S.toList)
    (hdesc : ∀ k ∈ pool.keys, k ∉ S → ∑ d ∈ pool.descendants k \ S.toFinset, pool.descWeight d + X k =
      ∑ d ∈ pool'.descendants k, pool.descWeight d + X' k)
    (hanc : ∀ k ∈ pool.keys, k ∉ S → ∑ a ∈ pool.ancestors k \ S.toFinset, pool.ancWeight a + Y k =
      ∑ a ∈ pool'.ancestors k, pool.ancWeight a + Y' k) (hX : ∀ k, 0 ≤ (X' k).1 ∧ 0 ≤ (X' k).2.2)
    (hY : ∀ k, 0 ≤ (Y' k).1 ∧ 0 ≤ (Y' k).2.2.1 ∧ 0 ≤ (Y' k).2.2.2) :
    pool'.BookkeepingUpTo X' Y' := by
  have hrem := hd.removed her
  have hmem : ∀ k, k ∈ pool'.keys ↔ k ∈ pool.keys ∧ k ∉ S := fun k => by
    rw [hrem.keys, Finset.mem_sdiff, mem_toFinset]
  refine ⟨⟨?hash_eq, ?links, ?parents, ?children, ?acyclic, hd.nextTx_erased her h, hd.total_erased her h hS⟩, ?desc, ?anc,
    hX, hY⟩
  case hash_eq =>
    intro k e' he'
    obtain ⟨-, e, he, rfl⟩ := hd.lookup_erased her he'
    exact h.hash_eq k e he
  case links =>
    intro k
    rw [← AList.lookup_isSome, her.links, hmem]
    simp only [mem_toList]
    by_cases hk : k ∈ S
    · simp [hk]
    · rw [if_neg hk, AList.lookup_isSome, hd.links, and_iff_left hk]
  case parents =>
    intro k p
    rw [Detached.linksOf_erased her]
    by_cases hk : k ∈ S
    · rw [if_pos hk]
      exact iff_of_false (not_mem_empty p) fun hw => ((hmem k).1 hw.1).2 hk
    · rw [if_neg hk, hd.parents k hk, h.parents, hrem.within]
      simp only [Within, hmem]
      tauto
  case children =>
    intro k c
    rw [Detached.linksOf_erased her]
    by_cases hk : k ∈ S
    · rw [if_pos hk]
      exact iff_of_false (not_mem_empty c) fun hw => ((hmem k).1 hw.2.1).2 hk
    · rw [if_neg hk, hd.children k hk, h.children, hrem.within]
      simp only [Within, hmem]
      tauto
  case acyclic =>
    intro k hk
    rw [hrem.within] at hk
    have hsub : pool'.keys ⊆ pool.keys := hrem.keys ▸ Finset.sdiff_subset
    exact h.acyclic k (TransGen.mono (fun _ _ hw => Within.mono hsub hw) _ _ hk)
  case desc =>
    intro k e' he'
    obtain ⟨hk, e, he, rfl⟩ := hd.lookup_erased her he'
    rw [hdesc k (mem_keys_of_lookup he) hk]
    exact congrArg (· + X' k) (Finset.sum_congr rfl fun d hd => (hrem.weight_eq (descendants_subset hd)).1.symm)
  case anc =>
    intro k e' he'
    obtain ⟨hk, e, he, rfl⟩ := hd.lookup_erased her he'
    rw [hanc k (mem_keys_of_lookup he) hk]
    exact congrArg (· + Y' k) (Finset.sum_congr rfl fun a ha => (hrem.weight_eq (ancestors_subset ha)).2.symm)

lemma removeStaged_parts (hanc : b = false → ∀ k ∈ pool.keys, k ∉ S → Disjoint (pool.ancestors k) S.toFinset) :
    ∃ pool₁ pool', pool.removeStaged S b = .ok pool' ∧ Detached pool pool₁ X Y S ∧ Erased pool₁ pool' S.toList := by
  obtain ⟨pool₁, h₁, hd⟩ := updateForRemoveFromMempool_ok h hS b hanc
  obtain ⟨pool₂, h₂, her⟩ := foldlM_removeUnchecked S.nodup fun k hk => hd.keys ▸ hS k hk
  exact ⟨pool₁, pool₂, by rw [removeStaged, h₁]; exact h₂, hd, her⟩

/-- **`RemoveStaged`** keeps the books, for a set that is closed under descendants, or, when these are updated too,
one that every connection can go around. -/
theorem removeStaged_upTo
    (hcl : ClosedIn (swap pool.Spends) pool.keys S.toFinset ∨
      b = true ∧ Bypassed pool.Spends pool.keys S.toFinset) :
    ∃ pool', pool.removeStaged S b = .ok pool' ∧ pool'.BookkeepingUpTo X Y ∧ Removed pool pool' S.toFinset := by
  obtain ⟨pool₁, pool', hok, hd, her⟩ := removeStaged_parts h hS (b := b) fun hb k hk hkS => by
    rcases hcl with hcl | ⟨hbt, -⟩
    · exact disjoint_reach_of_closed_swap hcl hkS hk
    · exact absurd hbt (hb ▸ Bool.false_ne_true)
  have hrem := hd.removed her
  have hby : Bypassed pool.Spends pool.keys S.toFinset := hcl.elim (fun hcl => bypassed_of_closed (.inr hcl)) And.right
  refine ⟨pool', hok, hd.bookkeepingUpTo h hS her (fun k hk hkS => ?_) (fun k hk hkS => ?_) h.desc_nonneg h.anc_nonneg,
    hrem⟩
  · rw [(hrem.reach_eq hby hk hkS).2]
  · rw [(hrem.reach_eq hby hk hkS).1]

end

lemma removeStaged_ok (h : pool.Bookkeeping) (hS : ∀ k ∈ S, k ∈ pool.keys)
    (hcl : ClosedIn (swap pool.Spends) pool.keys S.toFinset ∨
      b = true ∧ Bypassed pool.Spends pool.keys S.toFinset) :
    ∃ pool', pool.removeStaged S b = .ok pool' ∧ pool'.Bookkeeping ∧ Removed pool pool' S.toFinset := by
  obtain ⟨pool', hok, hb, hr⟩ := removeStaged_upTo h.upTo hS hcl
  exact ⟨pool', hok, bookkeepingUpTo_zero.1 hb, hr⟩

lemma Removed.relatives_subset {S : Finset Uint256} (h : Removed pool pool' S) (k : Uint256) :
    pool'.descendants k ⊆ pool.descendants k \ S ∧ pool'.ancestors k ⊆ pool.ancestors k \ S := by
  have hsub : pool'.keys ⊆ pool.keys := h.keys ▸ Finset.sdiff_subset
  have hnot : ∀ x ∈ pool'.keys, x ∉ S := fun x hx => (Finset.mem_sdiff.1 (h.keys ▸ hx)).2
  have hreach : ∀ {r r' : Uint256 → Uint256 → Prop}, (∀ a b, Within r' pool'.keys a b → r a b) →
      reach r' pool'.keys k ⊆ reach r pool.keys k \ S := by
    intro r r' hr x hx
    obtain ⟨hmem, hpath⟩ := mem_reach.1 hx
    refine Finset.mem_sdiff.2 ⟨mem_reach.2 ⟨hsub hmem, ?_⟩, hnot x hmem⟩
    exact ReflTransGen.mono (fun a b hab => ⟨hsub hab.1, hsub hab.2.1, hr a b hab⟩) _ _ hpath
  exact ⟨hreach fun a b hab => (h.spends_iff hab.2.1 a).1 hab.2.2, hreach fun a b hab => (h.spends_iff hab.1 b).1 hab.2.2⟩

lemma sum_descWeight_nonneg (pool : CTxMemPool) (s : Finset Uint256) :
    0 ≤ (∑ d ∈ s, pool.descWeight d).1 ∧ 0 ≤ (∑ d ∈ s, pool.descWeight d).2.2 := by
  rw [fst_sum, snd_sum, snd_sum]
  exact ⟨Finset.sum_nonneg fun d _ => (pool.descWeight_nonneg d).1,
    Finset.sum_nonneg fun d _ => (pool.descWeight_nonneg d).2⟩

lemma sum_ancWeight_nonneg (pool : CTxMemPool) (s : Finset Uint256) : 0 ≤ (∑ a ∈ s, pool.ancWeight a).1 ∧
    0 ≤ (∑ a ∈ s, pool.ancWeight a).2.2.1 ∧ 0 ≤ (∑ a ∈ s, pool.ancWeight a).2.2.2 := by
  rw [fst_sum, snd_sum, snd_sum, fst_sum, snd_sum]
  exact ⟨Finset.sum_nonneg fun a _ => (pool.ancWeight_nonneg a).1,
    Finset.sum_nonneg fun a _ => (pool.ancWeight_nonneg a).2.1,
    Finset.sum_nonneg fun a _ => (pool.ancWeight_nonneg a).2.2⟩

/-- `RemoveStaged` of any set, with the descendants updated: relatives that were connected through the set only stay
counted. -/
theorem removeStaged_any (h : pool.BookkeepingUpTo X Y) (hS : ∀ k ∈ S, k ∈ pool.keys) :
    ∃ pool' X' Y', pool.removeStaged S true = .ok pool' ∧ pool'.BookkeepingUpTo X' Y' ∧
      Removed pool pool' S.toFinset := by
  obtain ⟨pool₁, pool', hok, hd, her⟩ := removeStaged_parts h hS (b := true) fun hb => absurd hb (by decide)
  have hrem := hd.removed her
  refine ⟨pool', fun k => ∑ d ∈ (pool.descendants k \ S.toFinset) \ pool'.descendants k, pool.descWeight d + X k,
    fun k => ∑ a ∈ (pool.ancestors k \ S.toFinset) \ pool'.ancestors k, pool.ancWeight a + Y k, hok, ?_, hrem⟩
  refine hd.bookkeepingUpTo h hS her (fun k _ _ => ?_) (fun k _ _ => ?_) (fun k => ?_) fun k => ?_
  · rw [← add_assoc, add_comm (∑ d ∈ pool'.descendants k, pool.descWeight d),
      Finset.sum_sdiff (hrem.relatives_subset k).1]
  · rw [← add_assoc, add_comm (∑ a ∈ pool'.ancestors k, pool.ancWeight a),
      Finset.sum_sdiff (hrem.relatives_subset k).2]
  · have hsum := pool.sum_descWeight_nonneg ((pool.descendants k \ S.toFinset) \ pool'.descendants k)
    have hX := h.desc_nonneg k
    exact ⟨Int.add_nonneg hsum.1 hX.1, Int.add_nonneg hsum.2 hX.2⟩
  · have hsum := pool.sum_ancWeight_nonneg ((pool.ancestors k \ S.toFinset) \ pool'.ancestors k)
    have hY := h.anc_nonneg k
    exact ⟨Int.add_nonneg hsum.1 hY.1, Int.add_nonneg hsum.2.1 hY.2.1, Int.add_nonneg hsum.2.2 hY.2.2⟩

end

end CTxMemPool

end Soferox
