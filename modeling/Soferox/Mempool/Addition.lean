import Soferox.Mempool.Removal

/-!
# Adding a transaction

`addUnchecked_spec`: what `addUnchecked` does with a new transaction, whose ancestors it is given.

When transactions come back from a disconnected block, `addUnchecked` does not link them with the children they have in
the pool, and the books are those of the spends that have links (`Reentered`). `Added.reentered`: one more transaction
comes back. Its ancestors gain its weight, it starts with theirs, and nothing else changes. Where no link is left out
these are the books of the pool (`Added.bookkeeping`).
-/

namespace Soferox

open Lib Relation CTxMemPoolEntry Function OrdSet List Prod

/-- An entry as the constructor makes it. -/
structure CTxMemPoolEntry.Fresh (e : CTxMemPoolEntry) : Prop where
  feeDelta : e.feeDelta = 0
  desc : e.withDescendants = e.descWeight
  anc : e.withAncestors = e.ancWeight

variable (tx : CTransaction)

lemma CTxMemPoolEntry.new_fresh (nFee : CAmount) (nTime : ℤ) (sigOpCost nBytesPerSigOp : ℕ) :
    (CTxMemPoolEntry.new tx nFee nTime sigOpCost nBytesPerSigOp).Fresh := by
  constructor <;> simp [new, withDescendants, descWeight, withAncestors, ancWeight, getModifiedFee, getTxSize]

variable {e : CTxMemPoolEntry}

lemma CTxMemPoolEntry.Fresh.updateFeeDelta (h : e.Fresh) (delta : CAmount) :
    (e.updateFeeDelta delta).withDescendants = (e.updateFeeDelta delta).descWeight ∧
      (e.updateFeeDelta delta).withAncestors = (e.updateFeeDelta delta).ancWeight := by
  have hd := h.desc
  have ha := h.anc
  simp only [withDescendants, descWeight, withAncestors, ancWeight, getModifiedFee, Prod.mk.injEq, h.feeDelta] at hd ha
  constructor
  · simp [withDescendants, descWeight, CTxMemPoolEntry.updateFeeDelta, getModifiedFee, getTxSize] at *
    refine ⟨hd.1, ?_, hd.2.2⟩
    rw [hd.2.1, h.feeDelta, sub_zero]
  · simp [withAncestors, ancWeight, CTxMemPoolEntry.updateFeeDelta, getModifiedFee, getTxSize] at *
    refine ⟨ha.1, ?_, ha.2.2⟩
    rw [ha.2.1, h.feeDelta, sub_zero]

lemma CTxMemPoolEntry.Fresh.updateFeeDelta_zero (h : e.Fresh) : e.updateFeeDelta 0 = e := by
  simp only [CTxMemPoolEntry.updateFeeDelta, h.feeDelta, sub_zero, add_zero]
  rw [← h.feeDelta]

namespace CTxMemPool

/-- The fee delta that `PrioritiseTransaction` has recorded for a transaction. -/
def deltaOf (pool : CTxMemPool) (k : Uint256) : CAmount := (pool.mapDeltas.lookup k).getD 0

section

variable {pool : CTxMemPool} {entry : CTxMemPoolEntry}

lemma insertEntry_ok (hfresh : entry.Fresh) (hk : entry.tx.hash ∉ pool.mapTx) (hl : entry.tx.hash ∉ pool.mapLinks) :
    ∃ M, pool.insertEntry entry.tx.hash entry =
        .ok { pool with mapTx := M, mapLinks := pool.mapLinks.insert entry.tx.hash .empty } ∧
      ∀ k, M.lookup k = if k = entry.tx.hash then some (entry.updateFeeDelta (pool.deltaOf entry.tx.hash))
        else pool.mapTx.lookup k := by
  set t := entry.tx.hash with ht
  simp only [insertEntry, ← ht, if_neg hk, if_neg hl, deltaOf]
  cases hdelta : pool.mapDeltas.lookup t with
  | none =>
    refine ⟨pool.mapTx.insert t entry, rfl, fun k => ?_⟩
    rw [lookup_insert_eq_ite, Option.getD_none, hfresh.updateFeeDelta_zero]
  | some delta =>
    by_cases h0 : delta = 0
    · refine ⟨pool.mapTx.insert t entry, by simp [h0], fun k => ?_⟩
      rw [lookup_insert_eq_ite, Option.getD_some, h0, hfresh.updateFeeDelta_zero]
    · refine ⟨(pool.mapTx.insert t entry).insert t (entry.updateFeeDelta delta), ?_, fun k => ?_⟩
      · simp only [ne_eq, h0, not_false_eq_true, if_true, modify, deref, AList.lookup_insert]
        rfl
      · rw [AList.insert_insert, lookup_insert_eq_ite, Option.getD_some]

lemma lookup_foldl_insertNew (l : List COutPoint) (m : AList fun _ : COutPoint => CTransaction)
    (o : COutPoint) : (l.foldl (fun m o => if o ∈ m then m else m.insert o tx) m).lookup o =
      if o ∈ l ∧ m.lookup o = none then some tx else m.lookup o := by
  induction l generalizing m with
  | nil => simp
  | cons i l ih =>
    rw [foldl_cons, ih]
    by_cases hi : i ∈ m
    · rw [if_pos hi]
      refine if_congr ?_ rfl rfl
      refine ⟨fun h => ⟨mem_cons_of_mem _ h.1, h.2⟩, fun h => ⟨?_, h.2⟩⟩
      refine (mem_cons.1 h.1).resolve_left fun hoi => ?_
      exact AList.lookup_eq_none.1 h.2 (hoi ▸ hi)
    · rw [if_neg hi]
      by_cases hoi : o = i
      · subst hoi
        simp [AList.lookup_eq_none.2 hi]
      · simp [hoi]

lemma foldl_updateParent (pool : CTxMemPool) (t : Uint256) (ht : t ∈ pool.mapLinks) (l : List Uint256) :
    ∃ L, l.foldl (fun pool phash => if phash ∈ pool.mapTx then pool.updateParent t phash true else pool) pool =
        { pool with mapLinks := L } ∧ (∀ k, k ∈ L ↔ k ∈ pool.mapLinks) ∧
      (∀ k, (linksOf { pool with mapLinks := L } k).children = (pool.linksOf k).children) ∧
      ∀ k p, p ∈ (linksOf { pool with mapLinks := L } k).parents ↔
        p ∈ (pool.linksOf k).parents ∨ (k = t ∧ p ∈ l ∧ p ∈ pool.mapTx) := by
  induction l generalizing pool with
  | nil => exact ⟨pool.mapLinks, rfl, fun _ => Iff.rfl, fun _ => rfl, fun _ _ => by simp⟩
  | cons i l ih =>
    rw [foldl_cons]
    by_cases hi : i ∈ pool.mapTx
    · rw [if_pos hi, updateParent_eq]
      have hmem : ∀ k f, k ∈ (pool.alterLinks t f).mapLinks ↔ k ∈ pool.mapLinks := fun k f => by
        rw [alterLinks, AList.mem_insert]
        exact or_iff_right_of_imp fun h => h ▸ ht
      obtain ⟨L, hL, hkeys, hchildren, hparents⟩ := ih (pool.alterLinks t _) ((hmem t _).2 ht)
      refine ⟨L, hL, fun k => (hkeys k).trans (hmem k _), fun k => (hchildren k).trans ?_, fun k p =>
        (hparents k p).trans ?_⟩
      · rw [alterLinks_linksOf]
        split_ifs <;> rfl
      · rw [alterLinks_linksOf]
        by_cases hk : k = t
        · rw [if_pos hk, if_pos rfl, mem_insert, mem_cons]
          simp only [hk, true_and]
          exact collect_iff fun hp => hp ▸ hi
        · rw [if_neg hk]
          simp [hk]
    · rw [if_neg hi]
      obtain ⟨L, hL, hkeys, hchildren, hparents⟩ := ih pool ht
      refine ⟨L, hL, hkeys, hchildren, fun k p => (hparents k p).trans (or_congr_right ?_)⟩
      refine and_congr_right fun _ => ⟨fun h => ⟨mem_cons_of_mem _ h.1, h.2⟩, fun h => ⟨?_, h.2⟩⟩
      exact (mem_cons.1 h.1).resolve_left fun hpi => hi (hpi ▸ h.2)

lemma mapM_deref {l : List Uint256} (hin : ∀ k ∈ l, k ∈ pool.keys) :
    ∃ es, l.mapM pool.deref = .ok es ∧ es.map CTxMemPoolEntry.ancWeight = l.map pool.ancWeight := by
  induction l with
  | nil => exact ⟨[], rfl, rfl⟩
  | cons k l ih =>
    obtain ⟨e, he⟩ := mem_keys_iff_lookup.1 (hin k mem_cons_self)
    obtain ⟨es, hes, hmap⟩ := ih fun k hk => hin k (mem_cons_of_mem _ hk)
    refine ⟨e :: es, ?_, ?_⟩
    · rw [mapM_cons, deref_eq_ok.2 he, hes]
      rfl
    · rw [map_cons, map_cons, hmap, ancWeight, he, Option.elim_some]

lemma sum_ancWeight (es : List CTxMemPoolEntry) : (es.map CTxMemPoolEntry.ancWeight).sum =
    ((es.map CTxMemPoolEntry.getTxSize).sum, (es.map CTxMemPoolEntry.getModifiedFee).sum, (es.length : ℤ),
      (es.map fun e => (e.sigOpCost : ℤ)).sum) := by
  induction es with
  | nil => rfl
  | cons e es ih =>
    rw [map_cons, sum_cons, ih]
    simp [CTxMemPoolEntry.ancWeight, add_comm (1 : ℤ)]

variable {S : SetEntries}

lemma updateEntryForAncestors_ok {it : Uint256} (he : pool.mapTx.lookup it = some e)
    (hin : ∀ k ∈ S, k ∈ pool.keys)
    (hpos : AncestorState.Positive (e.withAncestors + ∑ a ∈ S.toFinset, pool.ancWeight a)) :
    pool.updateEntryForAncestors it S = .ok { pool with
      mapTx := pool.mapTx.insert it (e.setStats e.withDescendants
        (e.withAncestors + ∑ a ∈ S.toFinset, pool.ancWeight a)) } := by
  obtain ⟨es, hes, hmap⟩ := mapM_deref (l := S.toList) hin
  have hsum : ∑ a ∈ S.toFinset, pool.ancWeight a = (es.map CTxMemPoolEntry.ancWeight).sum := by
    rw [hmap]
    rfl
  have hlen : (S.size : ℤ) = es.length := by
    have := congrArg List.length hmap
    rw [length_map, length_map] at this
    rw [this, size]
  rw [hsum, sum_ancWeight] at hpos ⊢
  have hstep := updateAncestorState_ok (d := e.withDescendants) hpos e
  rw [setStats_self] at hstep
  rw [updateEntryForAncestors, hes]
  simp only [bind, Except.bind, modify, deref_eq_ok.2 he, hlen, hstep]
  rfl

lemma linkInputs_spec (pool : CTxMemPool) {t : Uint256} (ht : t ∈ pool.mapLinks) (tx : CTransaction) :
    ∃ N L, pool.linkInputs t tx = { pool with mapNextTx := N, mapLinks := L } ∧
      (∀ o, N.lookup o = if o ∈ tx.prevouts ∧ pool.mapNextTx.lookup o = none then some tx else pool.mapNextTx.lookup o) ∧
      (∀ k, k ∈ L ↔ k ∈ pool.mapLinks) ∧
      (∀ k, (linksOf { pool with mapNextTx := N, mapLinks := L } k).children = (pool.linksOf k).children) ∧
      ∀ k p, p ∈ (linksOf { pool with mapNextTx := N, mapLinks := L } k).parents ↔
        p ∈ (pool.linksOf k).parents ∨ (k = t ∧ (∃ o ∈ tx.prevouts, o.hash = p) ∧ p ∈ pool.keys) := by
  obtain ⟨L, hL, hkeys, hchildren, hparents⟩ := foldl_updateParent
    { pool with mapNextTx := tx.prevouts.foldl (fun m o => if o ∈ m then m else m.insert o tx) pool.mapNextTx } t ht
    ((∅ : OrdSet Uint256).insertAll (tx.prevouts.map COutPoint.hash)).toList
  refine ⟨_, L, hL, fun o => lookup_foldl_insertNew tx tx.prevouts pool.mapNextTx o, hkeys, hchildren, fun k p => ?_⟩
  refine (hparents k p).trans (or_congr_right (and_congr_right fun _ => and_congr ?_ mem_keys.symm))
  rw [mem_toList, OrdSet.mem_insertAll, mem_map]
  simp

/-! ## What `addUnchecked` does -/

/-- What `addUnchecked` needs: links between entries, and statistics that pass the assertions. -/
structure Linkable (pool : CTxMemPool) : Prop where
  links : ∀ k, k ∈ pool.mapLinks ↔ k ∈ pool.keys
  parents_mem : ∀ k, ∀ p ∈ (pool.linksOf k).parents, k ∈ pool.keys ∧ p ∈ pool.keys
  positive : ∀ k e, pool.mapTx.lookup k = some e → DescendantState.Positive e.withDescendants

lemma Bookkeeping.linkable (h : pool.Bookkeeping) : pool.Linkable where
  links := h.links
  parents_mem := fun k p hp => ⟨((h.parents k p).1 hp).1, ((h.parents k p).1 hp).2.1⟩
  positive := fun k e he => by
    rw [h.desc k e he]
    exact positive_sum_descWeight (mem_keys_of_lookup he) (self_mem_descendants (mem_keys_of_lookup he))

/-- `pool'` is `pool` with the entry `e` added under its id, where `S` are the ancestors it was given. -/
structure Added (pool pool' : CTxMemPool) (e : CTxMemPoolEntry) (S : SetEntries) : Prop where
  lookup_new : pool'.mapTx.lookup e.tx.hash =
    some (e.setStats e.descWeight (e.ancWeight + ∑ a ∈ S.toFinset, pool.ancWeight a))
  lookup_old : ∀ k ≠ e.tx.hash, pool'.mapTx.lookup k = (pool.mapTx.lookup k).map fun e' =>
    e'.setStats (e'.withDescendants + if k ∈ S then e.descWeight else 0) e'.withAncestors
  links : ∀ k, k ∈ pool'.mapLinks ↔ k = e.tx.hash ∨ k ∈ pool.mapLinks
  parents : ∀ k p, p ∈ (pool'.linksOf k).parents ↔
    p ∈ (pool.linksOf k).parents ∨ (k = e.tx.hash ∧ p ∈ pool.keys ∧ ∃ o ∈ e.tx.prevouts, o.hash = p)
  children : ∀ k c, c ∈ (pool'.linksOf k).children ↔
    c ∈ (pool.linksOf k).children ∨ (c = e.tx.hash ∧ k ∈ pool.keys ∧ ∃ o ∈ e.tx.prevouts, o.hash = k)
  nextTx : ∀ o, pool'.mapNextTx.lookup o =
    if o ∈ e.tx.prevouts ∧ pool.mapNextTx.lookup o = none then some e.tx else pool.mapNextTx.lookup o
  deltas : pool'.mapDeltas = pool.mapDeltas
  total : pool'.totalTxSize = pool.totalTxSize + e.getTxSize

/-- `pool'` is `pool` with the entry `e` in place, before the statistics are updated. -/
structure Inserted (pool pool' : CTxMemPool) (e : CTxMemPoolEntry) : Prop where
  lookup : ∀ k, pool'.mapTx.lookup k = if k = e.tx.hash then some e else pool.mapTx.lookup k
  links : ∀ k, k ∈ pool'.mapLinks ↔ k = e.tx.hash ∨ k ∈ pool.mapLinks
  parents : ∀ k p, p ∈ (pool'.linksOf k).parents ↔
    p ∈ (pool.linksOf k).parents ∨ (k = e.tx.hash ∧ p ∈ pool.keys ∧ ∃ o ∈ e.tx.prevouts, o.hash = p)
  children : ∀ k, (pool'.linksOf k).children = (pool.linksOf k).children
  nextTx : ∀ o, pool'.mapNextTx.lookup o =
    if o ∈ e.tx.prevouts ∧ pool.mapNextTx.lookup o = none then some e.tx else pool.mapNextTx.lookup o
  deltas : pool'.mapDeltas = pool.mapDeltas
  total : pool'.totalTxSize = pool.totalTxSize

lemma Inserted.keys {pool' : CTxMemPool} (hi : Inserted pool pool' e) : pool'.keys = insert e.tx.hash pool.keys := by
  ext k
  rw [Finset.mem_insert, mem_keys_iff_lookup, mem_keys_iff_lookup, hi.lookup]
  by_cases hk : k = e.tx.hash <;> simp [hk]

lemma insertEntry_linkInputs (h : pool.Linkable) (hfresh : entry.Fresh) (hnew : entry.tx.hash ∉ pool.keys)
    (hself : ∀ o ∈ entry.tx.prevouts, o.hash ≠ entry.tx.hash) :
    ∃ pool₁, pool.insertEntry entry.tx.hash entry = .ok pool₁ ∧
      pool₁.deref entry.tx.hash = .ok (entry.updateFeeDelta (pool.deltaOf entry.tx.hash)) ∧
      Inserted pool (pool₁.linkInputs entry.tx.hash entry.tx) (entry.updateFeeDelta (pool.deltaOf entry.tx.hash)) := by
  have hlinks : entry.tx.hash ∉ pool.mapLinks := fun hl => hnew ((h.links _).1 hl)
  obtain ⟨M, hM, hlook⟩ := insertEntry_ok hfresh (fun hk => hnew (mem_keys.2 hk)) hlinks
  refine ⟨_, hM, deref_eq_ok.2 (by rw [hlook, if_pos rfl]), ?_⟩
  obtain ⟨N, L, hlink, hN, hL, hchildren, hparents⟩ := linkInputs_spec
    { pool with mapTx := M, mapLinks := pool.mapLinks.insert entry.tx.hash .empty } (t := entry.tx.hash)
    ((AList.mem_insert _).2 (.inl rfl)) entry.tx
  rw [hlink]
  -- the empty links of the new entry are what `linksOf` gives for an id without links
  have hlinksOf : ∀ k, linksOf { pool with mapTx := M, mapLinks := pool.mapLinks.insert entry.tx.hash .empty } k =
      pool.linksOf k := fun k => by
    rw [linksOf, linksOf, lookup_insert_eq_ite]
    split_ifs with hk
    · rw [hk, AList.lookup_eq_none.2 hlinks]
      rfl
    · rfl
  have hkeys : ∀ k, k ∈ keys { pool with mapTx := M, mapLinks := pool.mapLinks.insert entry.tx.hash .empty } ↔
      k = entry.tx.hash ∨ k ∈ pool.keys := fun k => by
    rw [mem_keys_iff_lookup, mem_keys_iff_lookup, hlook]
    by_cases hk : k = entry.tx.hash <;> simp [hk]
  refine ⟨hlook, fun k => (hL k).trans (AList.mem_insert _), fun k p => (hparents k p).trans ?_, fun k =>
    (hchildren k).trans (congrArg _ (hlinksOf k)), hN, rfl, rfl⟩
  rw [hlinksOf, hkeys]
  refine or_congr_right (and_congr_right fun _ => ?_)
  constructor
  · rintro ⟨⟨o, ho, rfl⟩, hp⟩
    exact ⟨hp.resolve_left (hself o ho), o, ho, rfl⟩
  · exact fun h => ⟨h.2, .inr h.1⟩

variable (pool e) in
lemma positive_ancWeight_add (s : Finset Uint256) :
    AncestorState.Positive (e.ancWeight + ∑ a ∈ s, pool.ancWeight a) := by
  refine ⟨add_pos_of_pos_of_nonneg e.getTxSize_pos ?_, add_pos_of_pos_of_nonneg one_pos ?_,
    add_nonneg (Int.natCast_nonneg _) ?_⟩
  · rw [fst_sum]
    exact Finset.sum_nonneg fun a _ => (pool.ancWeight_nonneg a).1
  · rw [snd_sum, snd_sum, fst_sum]
    exact Finset.sum_nonneg fun a _ => (pool.ancWeight_nonneg a).2.1
  · rw [snd_sum, snd_sum, snd_sum]
    exact Finset.sum_nonneg fun a _ => (pool.ancWeight_nonneg a).2.2

lemma updateStats_ok {pool₂ : CTxMemPool} (h : pool.Linkable) (hi : Inserted pool pool₂ e)
    (hdesc : e.withDescendants = e.descWeight) (hanc : e.withAncestors = e.ancWeight) (hnew : e.tx.hash ∉ pool.keys)
    (hS : ∀ k ∈ S, k ∈ pool.keys) :
    ∃ pool₃ pool₄, pool₂.updateAncestorsOf true e.tx.hash S = .ok pool₃ ∧
      pool₃.updateEntryForAncestors e.tx.hash S = .ok pool₄ ∧
      Added pool { pool₄ with totalTxSize := pool₄.totalTxSize + e.getTxSize } e S := by
  have hne : ∀ k ∈ S, k ≠ e.tx.hash := fun k hk hke => hnew (hke ▸ hS k hk)
  have hlook : pool₂.mapTx.lookup e.tx.hash = some e := by rw [hi.lookup, if_pos rfl]
  have hpl : pool₂.ParentsLinked := fun k hk => by
    rw [hi.keys, Finset.mem_insert] at hk
    refine ⟨(hi.links k).2 (hk.imp_right (h.links k).2), fun p hp => ?_⟩
    rw [hi.keys]
    refine Finset.mem_insert_of_mem ?_
    rcases (hi.parents k p).1 hp with hp | hp
    · exact (h.parents_mem k p hp).2
    · exact hp.2.1
  obtain ⟨pool₃, h₃, hu⟩ := updateAncestorsOf_ok (HasStats.self pool₂) hpl true hlook
    (fun k hk => hi.keys ▸ Finset.mem_insert_of_mem (hS k hk)) fun k hk => by
      obtain ⟨e', he'⟩ := mem_keys_iff_lookup.1 (hS k hk)
      have hpos := h.positive k e' he'
      rw [hi.lookup, if_neg (hne k hk), he', Option.elim_some, if_pos rfl]
      exact ⟨add_pos hpos.1 e.getTxSize_pos, add_pos hpos.2 one_pos⟩
  -- the new entry is not among its ancestors, so it still has the statistics it came with
  have hlook₃ : pool₃.mapTx.lookup e.tx.hash = some e := by
    rw [hu.stats.lookup hlook, if_neg fun hmem => hne _ hmem rfl, hlook]
    rfl
  have hanc₃ : ∀ k ≠ e.tx.hash, pool₃.ancWeight k = pool.ancWeight k := fun k hk => by
    rw [ancWeight, hu.stats k, hi.lookup, if_neg hk, ancWeight]
    cases pool.mapTx.lookup k <;> rfl
  have hsum : ∑ a ∈ S.toFinset, pool₃.ancWeight a = ∑ a ∈ S.toFinset, pool.ancWeight a :=
    Finset.sum_congr rfl fun k hk => hanc₃ k (hne k hk)
  have h₄ := updateEntryForAncestors_ok hlook₃
    (fun k hk => by rw [hu.stats.keys_eq, hi.keys]; exact Finset.mem_insert_of_mem (hS k hk))
    (by rw [hanc]; exact positive_ancWeight_add ..)
  rw [hdesc, hanc, hsum] at h₄
  refine ⟨pool₃, _, h₃, h₄, AList.lookup_insert _, fun k hk => ?_, fun k => (hu.links k).trans (hi.links k),
    fun k p => ?_, fun k c => ?_, fun o => ?_, hu.deltas.trans hi.deltas, ?_⟩
  · refine (AList.lookup_insert_ne hk).trans ?_
    simp only [hu.stats k, hi.lookup, if_neg hk]
    cases pool.mapTx.lookup k with
    | none => rfl
    | some e' => by_cases hkS : k ∈ S <;> simp [hkS]
  · refine Iff.trans ?_ (hi.parents k p)
    exact (hu.parents k).symm ▸ Iff.rfl
  · have hch : (linksOf pool₃ k).children = _ := hu.children k
    refine Iff.trans (b := c ∈ (pool₃.linksOf k).children) Iff.rfl ?_
    rw [hch, if_pos rfl, hi.children]
    have hiff : k ∈ (pool₂.linksOf e.tx.hash).parents ↔ k ∈ pool.keys ∧ ∃ o ∈ e.tx.prevouts, o.hash = k := by
      rw [hi.parents]
      exact ⟨fun hk => (hk.resolve_left fun hw => hnew (h.parents_mem _ _ hw).1).2, fun hk => .inr ⟨rfl, hk⟩⟩
    by_cases hk : k ∈ (pool₂.linksOf e.tx.hash).parents
    · rw [if_pos hk, mem_insert, or_comm, and_iff_left (hiff.1 hk)]
    · rw [if_neg hk, or_iff_left fun hc => hk (hiff.2 hc.2)]
  · rw [show AList.lookup o pool₃.mapNextTx = _ from congrArg _ hu.nextTx]
    exact hi.nextTx o
  · rw [show pool₃.totalTxSize = pool.totalTxSize from hu.total.trans hi.total]

lemma addUnchecked_spec (h : pool.Linkable) (hfresh : entry.Fresh) (hnew : entry.tx.hash ∉ pool.keys)
    (hself : ∀ o ∈ entry.tx.prevouts, o.hash ≠ entry.tx.hash) (hS : ∀ k ∈ S, k ∈ pool.keys) :
    ∃ pool', pool.addUnchecked entry.tx.hash entry S = .ok pool' ∧
      Added pool pool' (entry.updateFeeDelta (pool.deltaOf entry.tx.hash)) S := by
  obtain ⟨pool₁, h₁, hderef, hi⟩ := insertEntry_linkInputs h hfresh hnew hself
  obtain ⟨hdesc, hanc⟩ := hfresh.updateFeeDelta (pool.deltaOf entry.tx.hash)
  obtain ⟨pool₃, pool₄, h₃, h₄, ha⟩ := updateStats_ok h hi hdesc hanc hnew hS
  refine ⟨_, ?_, ha⟩
  simp only [addUnchecked, h₁, hderef, bind, Except.bind]
  rw [show (entry.updateFeeDelta (pool.deltaOf entry.tx.hash)).tx = entry.tx from rfl] at h₃ h₄ ⊢
  simp only [h₃, h₄]
  rfl

variable {pool' : CTxMemPool} {e : CTxMemPoolEntry} {S : SetEntries}

lemma Added.spends_iff (ha : Added pool pool' e S) (p : Uint256) :
    pool'.Spends e.tx.hash p ↔ ∃ o ∈ e.tx.prevouts, o.hash = p := by
  simp only [Spends, ha.lookup_new, Option.some.injEq, exists_eq_left', setStats_tx]

lemma Added.lookup_cases (ha : Added pool pool' e S) {k : Uint256} {e' : CTxMemPoolEntry}
    (he' : pool'.mapTx.lookup k = some e') :
    (k = e.tx.hash ∧ e' = e.setStats e.descWeight (e.ancWeight + ∑ a ∈ S.toFinset, pool.ancWeight a)) ∨
    k ≠ e.tx.hash ∧ ∃ e₀, pool.mapTx.lookup k = some e₀ ∧
      e' = e₀.setStats (e₀.withDescendants + if k ∈ S then e.descWeight else 0) e₀.withAncestors := by
  by_cases hk : k = e.tx.hash
  · subst hk
    rw [ha.lookup_new, Option.some.injEq] at he'
    exact .inl ⟨rfl, he'.symm⟩
  · rw [ha.lookup_old k hk] at he'
    obtain ⟨e₀, he₀, rfl⟩ := Option.map_eq_some_iff.1 he'
    exact .inr ⟨hk, e₀, he₀, rfl⟩

end

/-! ## Links that are left out -/

/-- The spends that links follow while transactions come back to a pool with those of `K`: `addUnchecked` links the
transactions of `K` with their parents in `K` only. -/
def Linking (pool : CTxMemPool) (K : Finset Uint256) (c p : Uint256) : Prop := pool.Spends c p ∧ (c ∈ K → p ∈ K)

/-- The transactions of `D` have come back to a pool with those of `K`. The books are those of the spends that have
links; `mapNextTx` knows the inputs of all. -/
structure Reentered (pool : CTxMemPool) (K D : Finset Uint256) : Prop where
  hash_eq : ∀ k e, pool.mapTx.lookup k = some e → e.tx.hash = k
  keys : pool.keys = K ∪ D
  disjoint : Disjoint K D
  links : ∀ k, k ∈ pool.mapLinks ↔ k ∈ pool.keys
  parents : ∀ k p, p ∈ (pool.linksOf k).parents ↔ Within (pool.Linking K) pool.keys k p
  children : ∀ k c, c ∈ (pool.linksOf k).children ↔ Within (pool.Linking K) pool.keys c k
  desc : ∀ k e, pool.mapTx.lookup k = some e →
    e.withDescendants = ∑ d ∈ reach (swap (pool.Linking K)) pool.keys k, pool.descWeight d
  anc : ∀ k e, pool.mapTx.lookup k = some e →
    e.withAncestors = ∑ a ∈ reach (pool.Linking K) pool.keys k, pool.ancWeight a
  nextTx_mem : ∀ o tx, pool.mapNextTx.lookup o = some tx →
    ∃ e, pool.mapTx.lookup tx.hash = some e ∧ e.tx = tx ∧ o ∈ tx.prevouts
  nextTx_isSome : ∀ k e, pool.mapTx.lookup k = some e → ∀ o ∈ e.tx.prevouts, ∃ tx, pool.mapNextTx.lookup o = some tx
  nextTx_eq : ∀ k ∈ K, ∀ e, pool.mapTx.lookup k = some e → ∀ o ∈ e.tx.prevouts, pool.mapNextTx.lookup o = some e.tx
  total : pool.totalTxSize = ∑ k ∈ pool.keys, (pool.descWeight k).1

lemma linking_empty (pool : CTxMemPool) : pool.Linking ∅ = pool.Spends := by
  funext c p
  simp [Linking]

/-- While nothing has come back, no link is left out. -/
theorem Bookkeeping.reentered {pool : CTxMemPool} {K D : Finset Uint256} (h : pool.Bookkeeping)
    (hkeys : pool.keys = K ∪ D) (hone : K = ∅ ∨ D = ∅) : Reentered pool K D := by
  have hlink : ∀ c ∈ pool.keys, ∀ p ∈ pool.keys, pool.Spends c p ↔ pool.Linking K c p := by
    intro c _ p hp
    refine (and_iff_left fun hc => ?_).symm
    rcases hone with rfl | rfl
    · exact absurd hc (Finset.notMem_empty c)
    · rwa [hkeys, Finset.union_empty] at hp
  constructor
  case hash_eq => exact h.hash_eq
  case keys => exact hkeys
  case disjoint => rcases hone with rfl | rfl <;> simp
  case links => exact h.links
  case parents => exact fun k p => within_congr hlink ▸ h.parents k p
  case children => exact fun k c => within_congr hlink ▸ h.children k c
  case desc =>
    intro k e he
    rw [h.desc k e he, descendants, reach_congr fun a ha b hb => hlink b hb a ha]
  case anc =>
    intro k e he
    rw [h.anc k e he, ancestors, reach_congr hlink]
  case nextTx_mem => exact fun o tx ho => (h.nextTx o tx).1 ho
  case nextTx_isSome =>
    intro k e he o ho
    exact ⟨e.tx, (h.nextTx o e.tx).2 ⟨e, (h.hash_eq k e he).symm ▸ he, rfl, ho⟩⟩
  case nextTx_eq =>
    intro k _ e he o ho
    exact (h.nextTx o e.tx).2 ⟨e, (h.hash_eq k e he).symm ▸ he, rfl, ho⟩
  case total => exact h.total

/-! ## One more transaction -/

section

variable {pool pool' : CTxMemPool} {K D : Finset Uint256} {e : CTxMemPoolEntry} {S : SetEntries} {k : Uint256}

section

variable (ha : Added pool pool' e S)
include ha

lemma Added.spends_old (hk : k ≠ e.tx.hash) (p : Uint256) : pool'.Spends k p ↔ pool.Spends k p := by
  rw [Spends, Spends, ha.lookup_old k hk]
  cases pool.mapTx.lookup k with
  | none => simp
  | some e₀ => simp

lemma Added.weight_old (hk : k ≠ e.tx.hash) :
    pool'.descWeight k = pool.descWeight k ∧ pool'.ancWeight k = pool.ancWeight k := by
  rw [descWeight, descWeight, ancWeight, ancWeight, ha.lookup_old k hk]
  cases pool.mapTx.lookup k <;> exact ⟨rfl, rfl⟩

lemma Added.weight_new : pool'.descWeight e.tx.hash = e.descWeight ∧ pool'.ancWeight e.tx.hash = e.ancWeight := by
  simp [descWeight, ancWeight, ha.lookup_new]

lemma Added.keys : pool'.keys = insert e.tx.hash pool.keys := by
  ext k
  rw [Finset.mem_insert, mem_keys_iff_lookup, mem_keys_iff_lookup]
  by_cases hk : k = e.tx.hash
  · exact iff_of_true ⟨_, hk ▸ ha.lookup_new⟩ (.inl hk)
  · simp [hk, ha.lookup_old k hk]

lemma Added.nextTx_some {o : COutPoint} {tx : CTransaction}
    (ho : pool.mapNextTx.lookup o = some tx) : pool'.mapNextTx.lookup o = some tx := by
  rw [ha.nextTx, if_neg, ho]
  rintro ⟨-, hnone⟩
  rw [ho] at hnone
  cases hnone

end

/-- What `addUnchecked` has to be told about a transaction that comes back. -/
structure ComesBack (pool : CTxMemPool) (K D : Finset Uint256) (tx : CTransaction) : Prop where
  new : tx.hash ∉ pool.keys
  self : ∀ o ∈ tx.prevouts, o.hash ≠ tx.hash
  parents_first : ∀ d ∈ D, ¬ pool.Spends d tx.hash

section comesBack

variable (h : Reentered pool K D) (ha : Added pool pool' e S) (hb : ComesBack pool K D e.tx) (c p : Uint256)

include h hb

lemma ComesBack.ne_of_mem (hk : k ∈ K ∨ k ∈ D) : k ≠ e.tx.hash := by
  rintro rfl
  exact hb.new (h.keys ▸ Finset.mem_union.2 hk)

include ha

lemma Added.no_child : ∀ c ∈ insert e.tx.hash pool.keys, ¬ pool'.Linking K c e.tx.hash := by
  rintro c hc ⟨hct, hK⟩
  rcases Finset.mem_insert.1 hc with rfl | hc
  · obtain ⟨o, ho, hot⟩ := (ha.spends_iff _).1 hct
    exact hb.self o ho hot
  · rcases Finset.mem_union.1 (h.keys ▸ hc) with hcK | hcD
    · exact hb.ne_of_mem h (.inl (hK hcK)) rfl
    · exact hb.parents_first c hcD ((ha.spends_old (hb.ne_of_mem h (.inr hcD)) _).1 hct)

omit h in
lemma Added.linking_old (c : Uint256) (hc : c ∈ pool.keys) (p : Uint256) (_ : p ∈ pool.keys) :
    pool'.Linking K c p ↔ pool.Linking K c p :=
  and_congr_left' (ha.spends_old (ne_of_mem_of_not_mem hc hb.new) p)

lemma Added.within : Within (pool'.Linking K) pool'.keys c p ↔
    Within (pool.Linking K) pool.keys c p ∨ (c = e.tx.hash ∧ p ∈ pool.keys ∧ ∃ o ∈ e.tx.prevouts, o.hash = p) := by
  rw [ha.keys]
  constructor
  · rintro ⟨hc, hp, hcp⟩
    have hp : p ∈ pool.keys := (Finset.mem_insert.1 hp).resolve_left fun hpt => ha.no_child h hb c hc (hpt ▸ hcp)
    rcases Finset.mem_insert.1 hc with rfl | hc
    · exact .inr ⟨rfl, hp, (ha.spends_iff p).1 hcp.1⟩
    · exact .inl ⟨hc, hp, (ha.linking_old hb c hc p hp).1 hcp⟩
  · rintro (⟨hc, hp, hcp⟩ | ⟨rfl, hp, ho⟩)
    · exact ⟨Finset.mem_insert_of_mem hc, Finset.mem_insert_of_mem hp, (ha.linking_old hb c hc p hp).2 hcp⟩
    · refine ⟨Finset.mem_insert_self .., Finset.mem_insert_of_mem hp, (ha.spends_iff p).2 ho, fun hK => ?_⟩
      exact absurd rfl (hb.ne_of_mem h (.inl hK))

lemma Added.ancestors_old (hk : k ∈ pool.keys) :
    reach (pool'.Linking K) pool'.keys k = reach (pool.Linking K) pool.keys k := by
  rw [ha.keys, ← reach_congr (ha.linking_old hb)]
  exact reach_swap_insert hb.new (ha.no_child h hb) hk

section

variable (hS : ∀ x, x ∈ S ↔
  ∃ p ∈ pool.keys, (∃ o ∈ e.tx.prevouts, o.hash = p) ∧ x ∈ reach (pool.Linking K) pool.keys p)
include hS

lemma Added.ancestors_new : reach (pool'.Linking K) pool'.keys e.tx.hash = insert e.tx.hash S.toFinset := by
  have hlink : ∀ p, pool'.Linking K e.tx.hash p ↔ ∃ o ∈ e.tx.prevouts, o.hash = p := fun p =>
    (and_iff_left fun hK => absurd rfl (hb.ne_of_mem h (.inl hK))).trans (ha.spends_iff p)
  ext x
  rw [Finset.mem_insert, mem_toFinset, hS, ha.keys]
  refine (mem_reach_swap_insert_self hb.new (ha.no_child h hb)).trans (or_congr_right ?_)
  refine exists_congr fun p => and_congr_right fun _ => and_congr (hlink p) ?_
  rw [← reach_congr (ha.linking_old hb)]

lemma Added.descendants_old (hk : k ∈ pool.keys) : reach (swap (pool'.Linking K)) pool'.keys k =
    if k ∈ S then insert e.tx.hash (reach (swap (pool.Linking K)) pool.keys k)
    else reach (swap (pool.Linking K)) pool.keys k := by
  have hself := ha.ancestors_new h hb hS
  rw [ha.keys] at hself ⊢
  rw [reach_insert (R := swap (pool'.Linking K)) hb.new (ha.no_child h hb) hk,
    reach_congr (Q := swap (pool.Linking K)) (fun a ha' b hb' => ha.linking_old hb b hb' a ha') k]
  refine if_congr ?_ rfl rfl
  rw [show reach (swap (swap (pool'.Linking K))) (insert e.tx.hash pool.keys) e.tx.hash = _ from hself,
    Finset.mem_insert, mem_toFinset, or_iff_right (ne_of_mem_of_not_mem hk hb.new)]

lemma Added.reentered : Reentered pool' K (insert e.tx.hash D) := by
  have hnot : ∀ {R : Uint256 → Uint256 → Prop} {k}, e.tx.hash ∉ reach R pool.keys k := fun hmem =>
    hb.new (reach_subset hmem)
  have hnotS : e.tx.hash ∉ S.toFinset := fun hmem => by
    obtain ⟨p, -, -, hx⟩ := (hS _).1 hmem
    exact hnot hx
  have hsum : ∀ s, e.tx.hash ∉ s → ∑ d ∈ s, pool'.descWeight d = ∑ d ∈ s, pool.descWeight d ∧
      ∑ d ∈ s, pool'.ancWeight d = ∑ d ∈ s, pool.ancWeight d := fun s hs =>
    ⟨Finset.sum_congr rfl fun k hk => (ha.weight_old (ne_of_mem_of_not_mem hk hs)).1,
      Finset.sum_congr rfl fun k hk => (ha.weight_old (ne_of_mem_of_not_mem hk hs)).2⟩
  have hself : e.tx.hash ∈ pool'.keys := ha.keys ▸ Finset.mem_insert_self ..
  constructor
  case hash_eq =>
    intro k e' he'
    rcases ha.lookup_cases he' with ⟨rfl, rfl⟩ | ⟨-, e₀, he₀, rfl⟩
    · rfl
    · exact h.hash_eq k e₀ he₀
  case keys => rw [ha.keys, h.keys, Finset.union_insert]
  case disjoint => exact Finset.disjoint_insert_right.2 ⟨fun hK => hb.ne_of_mem h (.inl hK) rfl, h.disjoint⟩
  case links =>
    intro k
    rw [ha.links, h.links, ha.keys, Finset.mem_insert]
  case parents =>
    intro k p
    rw [ha.parents, h.parents, ha.within h hb k p]
  case children =>
    intro k c
    rw [ha.children, h.children, ha.within h hb c k]
  case desc =>
    intro k e' he'
    rcases ha.lookup_cases he' with ⟨rfl, rfl⟩ | ⟨-, e₀, he₀, rfl⟩
    · rw [setStats_withDescendants, reach_eq_singleton hself fun c hc => ha.no_child h hb c (ha.keys ▸ hc),
        Finset.sum_singleton, ha.weight_new.1]
    rw [setStats_withDescendants, h.desc k e₀ he₀, ha.descendants_old h hb hS (mem_keys_of_lookup he₀)]
    split_ifs with hkS
    · rw [Finset.sum_insert hnot, ha.weight_new.1, (hsum _ hnot).1, add_comm]
    · rw [add_zero, (hsum _ hnot).1]
  case anc =>
    intro k e' he'
    rcases ha.lookup_cases he' with ⟨rfl, rfl⟩ | ⟨-, e₀, he₀, rfl⟩
    · rw [setStats_withAncestors, ha.ancestors_new h hb hS, Finset.sum_insert hnotS, ha.weight_new.2, (hsum _ hnotS).2]
    · rw [setStats_withAncestors, h.anc k e₀ he₀, ha.ancestors_old h hb (mem_keys_of_lookup he₀), (hsum _ hnot).2]
  case nextTx_mem =>
    intro o tx ho
    rw [ha.nextTx] at ho
    split_ifs at ho with hfree
    · cases ho
      exact ⟨_, ha.lookup_new, rfl, hfree.1⟩
    · obtain ⟨e₀, he₀, htx, hmem⟩ := h.nextTx_mem o tx ho
      have hold : tx.hash ≠ e.tx.hash := ne_of_mem_of_not_mem (mem_keys_of_lookup he₀) hb.new
      exact ⟨_, (ha.lookup_old _ hold).trans (congrArg _ he₀), htx, hmem⟩
  case nextTx_isSome =>
    intro k e' he' o ho
    rcases hlook : pool.mapNextTx.lookup o with _ | tx
    · rcases ha.lookup_cases he' with ⟨rfl, rfl⟩ | ⟨hk, e₀, he₀, rfl⟩
      · exact ⟨e.tx, by rw [ha.nextTx, if_pos ⟨ho, hlook⟩]⟩
      · obtain ⟨tx, htx⟩ := h.nextTx_isSome k e₀ he₀ o ho
        exact ⟨tx, ha.nextTx_some htx⟩
    · exact ⟨tx, ha.nextTx_some hlook⟩
  case nextTx_eq =>
    intro k hK e' he' o ho
    rcases ha.lookup_cases he' with ⟨rfl, rfl⟩ | ⟨hk, e₀, he₀, rfl⟩
    · exact absurd rfl (hb.ne_of_mem h (.inl hK))
    · exact ha.nextTx_some (h.nextTx_eq k hK e₀ he₀ o ho)
  case total =>
    have hsize : ∑ k ∈ pool.keys, (pool'.descWeight k).1 = ∑ k ∈ pool.keys, (pool.descWeight k).1 :=
      Finset.sum_congr rfl fun k hk => by rw [(ha.weight_old (ne_of_mem_of_not_mem hk hb.new)).1]
    rw [ha.total, h.total, ha.keys, Finset.sum_insert hb.new, ha.weight_new.1, hsize, add_comm]
    rfl

end

end comesBack

variable (h : pool.Bookkeeping) (ha : Added pool pool' e S) (hb : ComesBack pool ∅ pool.keys e.tx)
include h ha hb

/-- Nobody spends the new transaction, so a cycle would be one of the old transactions. -/
theorem Added.acyclic (x : Uint256) : ¬ TransGen (Within pool'.Spends pool'.keys) x x := by
  have hr := h.reentered (Finset.empty_union _).symm (.inl rfl)
  have hback : ∀ a b, Within pool'.Spends pool'.keys a b →
      b ≠ e.tx.hash ∧ (a ≠ e.tx.hash → Within pool.Spends pool.keys a b) := by
    intro a b hab
    rw [← pool'.linking_empty, ha.within hr hb, pool.linking_empty] at hab
    refine ⟨?_, fun hne => hab.resolve_right fun hnew => hne hnew.1⟩
    rcases hab with ⟨-, hb', -⟩ | ⟨-, hb', -⟩ <;> exact ne_of_mem_of_not_mem hb' hb.new
  have hpath : ∀ b, x ≠ e.tx.hash → TransGen (Within pool'.Spends pool'.keys) x b →
      b ≠ e.tx.hash ∧ TransGen (Within pool.Spends pool.keys) x b := by
    intro b hx hxb
    induction hxb with
    | single hstep => exact ⟨(hback _ _ hstep).1, .single ((hback _ _ hstep).2 hx)⟩
    | tail _ hstep ih => exact ⟨(hback _ _ hstep).1, ih.2.tail ((hback _ _ hstep).2 ih.1)⟩
  intro hx
  obtain ⟨c, -, hstep⟩ := TransGen.tail'_iff.1 hx
  exact h.acyclic x (hpath x (hback c x hstep).1 hx).2

/-- A transaction that enters the pool by itself comes back to a pool in which all links are there. -/
theorem Added.bookkeeping
    (hconf : ∀ o ∈ e.tx.prevouts, pool.mapNextTx.lookup o = none)
    (hS : ∀ x, x ∈ S ↔ ∃ p ∈ pool.keys, (∃ o ∈ e.tx.prevouts, o.hash = p) ∧ x ∈ pool.ancestors p) :
    pool'.Bookkeeping := by
  have hr : Reentered pool' ∅ (insert e.tx.hash pool.keys) :=
    ha.reentered (h.reentered (Finset.empty_union _).symm (.inl rfl)) hb (by rwa [pool.linking_empty])
  have hlink := pool'.linking_empty
  refine ⟨⟨hr.hash_eq, hr.links, hlink ▸ hr.parents, hlink ▸ hr.children, ha.acyclic h hb,
    fun o tx => ⟨hr.nextTx_mem o tx, ?_⟩, hr.total⟩, fun k e' he' => ?_, fun k e' he' => ?_⟩
  rotate_left
  · rw [descendants, ← hlink]
    exact hr.desc k e' he'
  · rw [ancestors, ← hlink]
    exact hr.anc k e' he'
  · rintro ⟨e', he', htx, ho⟩
    rcases ha.lookup_cases he' with ⟨-, rfl⟩ | ⟨-, e₀, he₀, rfl⟩
    · rw [setStats_tx] at htx
      subst htx
      rw [ha.nextTx, if_pos ⟨ho, hconf o ho⟩]
    · exact ha.nextTx_some ((h.nextTx o tx).2 ⟨e₀, he₀, htx, ho⟩)

end

end CTxMemPool

end Soferox
