import Soferox.Lib.Restrict
import Soferox.Mempool.Runs

/-!
# Transactions that come back from a block

`UpdateMempoolForReorg` adds the transactions of disconnected blocks with `addUnchecked`, which does not look for
children, and repairs the pool with `UpdateTransactionsFromBlock`.

* `ReenteredInOrder` — the pool in between: the transactions that were there are not linked with the parents that came
  back;
* `Joined` — what the repair relies on: two relatives, other than one that came back and a descendant of it that was
  there, are related by spends that have links;
* `Repaired` — the pool while the loop of `UpdateTransactionsFromBlock` runs: the entries done so far have their links
  and their weight in the other part;
* `updateTransactionsFromBlock_restores` — at the end the books are right.
-/

namespace Soferox

open Lib Relation CTxMemPoolEntry Function OrdSet List CTxMemPool

namespace CTxMemPool

section

variable {pool pool' : CTxMemPool} {K D : Finset Uint256} {k x : Uint256}

lemma Reentered.reach_linkedParent (h : Reentered pool K D) (hk : k ∈ pool.keys) :
    ReflTransGen pool.LinkedParent k x ↔ x ∈ reach (pool.Linking K) pool.keys k := by
  have hrel : pool.LinkedParent = Within (pool.Linking K) pool.keys := by
    funext c p
    exact propext (h.parents c p)
  rw [hrel, mem_reach]
  exact ⟨fun hx => ⟨mem_of_reflTransGen_within hx hk, hx⟩, And.right⟩

lemma Reentered.linkable (h : Reentered pool K D) : pool.Linkable where
  links := h.links
  parents_mem := fun k p hp => ⟨((h.parents k p).1 hp).1, ((h.parents k p).1 hp).2.1⟩
  positive := by
    intro k e he
    have hk := mem_keys_of_lookup he
    rw [h.desc k e he]
    exact positive_sum_descWeight hk (self_mem_reach hk)

end

/-! ## One more transaction comes back -/

section

variable {pool : CTxMemPool} {K D : Finset Uint256}

variable {entry : CTxMemPoolEntry}

lemma addUncheckedNoLimit_ok (h : Reentered pool K D) (hfresh : entry.Fresh)
    (hb : ComesBack pool K D entry.tx) : ∃ pool' S, pool.addUncheckedNoLimit entry = .ok pool' ∧
      Reentered pool' K (insert entry.tx.hash D) ∧
      Added pool pool' (entry.updateFeeDelta (pool.deltaOf entry.tx.hash)) S := by
  have hpl : pool.ParentsLinked := fun k hk => ⟨(h.links k).2 hk, fun p hp => (h.linkable.parents_mem k p hp).2⟩
  obtain ⟨S, hS, hmem⟩ := calculateMemPoolAncestors_new hpl entry
  have hmem' : ∀ x, x ∈ S ↔
      ∃ p ∈ pool.keys, (∃ o ∈ entry.tx.prevouts, o.hash = p) ∧ x ∈ reach (pool.Linking K) pool.keys p := fun x =>
    (hmem x).trans (exists_congr fun p => and_congr_right fun hp => and_congr_right fun _ => h.reach_linkedParent hp)
  obtain ⟨pool', hadd, ha⟩ := addUnchecked_spec h.linkable hfresh hb.new hb.self fun k hk => by
    obtain ⟨p, -, -, hkp⟩ := (hmem' k).1 hk
    exact reach_subset hkp
  refine ⟨pool', S, ?_, Added.reentered (e := entry.updateFeeDelta _) h ha hb hmem', ha⟩
  rw [addUncheckedNoLimit, hS]
  exact hadd

end

/-- The entries come back in turn: they are new, and come after what they spend. -/
structure ComeBack (pool : CTxMemPool) (entries : List CTxMemPoolEntry) : Prop where
  fresh : ∀ e ∈ entries, e.Fresh
  new : ∀ e ∈ entries, e.tx.hash ∉ pool.keys
  nodup : (entries.map fun e => e.tx.hash).Nodup
  self : ∀ e ∈ entries, ∀ o ∈ e.tx.prevouts, o.hash ≠ e.tx.hash
  parents_first : entries.Pairwise fun e e' => ∀ o ∈ e.tx.prevouts, o.hash ≠ e'.tx.hash

/-- The transactions `vHashes` have come back, in this order. -/
structure ReenteredInOrder (pool : CTxMemPool) (K : Finset Uint256) (vHashes : List Uint256) : Prop where
  reentered : Reentered pool K vHashes.toFinset
  nodup : vHashes.Nodup
  order : vHashes.Pairwise fun a b => ¬ pool.Spends a b

section

variable {pool pool' : CTxMemPool} {K : Finset Uint256} {vHashes : List Uint256} {e : CTxMemPoolEntry} {S : SetEntries}
  {entries : List CTxMemPoolEntry}

lemma Added.inOrder (h : ReenteredInOrder pool K vHashes) (ha : Added pool pool' e S)
    (hb : ComesBack pool K vHashes.toFinset e.tx) (hr : Reentered pool' K (insert e.tx.hash vHashes.toFinset)) :
    ReenteredInOrder pool' K (vHashes ++ [e.tx.hash]) := by
  have hne : ∀ a ∈ vHashes, a ≠ e.tx.hash := fun a ha' => hb.ne_of_mem h.reentered (.inr (List.mem_toFinset.2 ha'))
  refine ⟨?_, ?_, ?_⟩
  · rw [toFinset_append, Finset.union_comm]
    exact hr
  · refine nodup_append.2 ⟨h.nodup, nodup_singleton _, fun a ha' b hb' => ?_⟩
    rw [mem_singleton.1 hb']
    exact hne a ha'
  · refine pairwise_append.2 ⟨?_, pairwise_singleton _ _, fun a ha' b hb' => ?_⟩
    · refine h.order.imp_of_mem fun {a b} ha' _ hab => ?_
      rwa [ha.spends_old (hne a ha')]
    · rw [mem_singleton.1 hb', ha.spends_old (hne a ha')]
      exact hb.parents_first a (List.mem_toFinset.2 ha')

lemma Added.comeBack (ha : Added pool pool' e S)
    (htx : e.tx = entry.tx) (hb : pool.ComeBack (entry :: entries)) : pool'.ComeBack entries where
  fresh := fun e' he' => hb.fresh e' (mem_cons_of_mem _ he')
  new := by
    intro e' he' hmem
    have hne : e'.tx.hash ≠ entry.tx.hash := fun heq => (nodup_cons.1 hb.nodup).1 (mem_map.2 ⟨e', he', heq⟩)
    rw [ha.keys, htx, Finset.mem_insert, or_iff_right hne] at hmem
    exact hb.new e' (mem_cons_of_mem _ he') hmem
  nodup := (nodup_cons.1 hb.nodup).2
  self := fun e' he' => hb.self e' (mem_cons_of_mem _ he')
  parents_first := (pairwise_cons.1 hb.parents_first).2

lemma foldlM_addUncheckedNoLimit (h : ReenteredInOrder pool K vHashes)
    (hb : pool.ComeBack entries) (hlater : ∀ d ∈ vHashes, ∀ e ∈ entries, ¬ pool.Spends d e.tx.hash) :
    ∃ pool', entries.foldlM addUncheckedNoLimit pool = .ok pool' ∧
      ReenteredInOrder pool' K (vHashes ++ entries.map fun e => e.tx.hash) := by
  induction entries generalizing pool vHashes with
  | nil => exact ⟨pool, rfl, by rwa [map_nil, append_nil]⟩
  | cons entry entries ih =>
    have hmem : entry ∈ entry :: entries := mem_cons_self
    have hcomes : ComesBack pool K vHashes.toFinset entry.tx := ⟨hb.new entry hmem, hb.self entry hmem,
      fun d hd => hlater d (List.mem_toFinset.1 hd) entry hmem⟩
    obtain ⟨pool₁, S, hadd, hr, ha⟩ := addUncheckedNoLimit_ok h.reentered (hb.fresh entry hmem) hcomes
    have h₁ : ReenteredInOrder pool₁ K (vHashes ++ [entry.tx.hash]) :=
      Added.inOrder (e := entry.updateFeeDelta _) h ha hcomes hr
    have hlater₁ : ∀ d ∈ vHashes ++ [entry.tx.hash], ∀ e ∈ entries, ¬ pool₁.Spends d e.tx.hash := by
      intro d hd e he hspends
      rcases mem_append.1 hd with hd | hd
      · have hne : d ≠ entry.tx.hash := hcomes.ne_of_mem h.reentered (.inr (List.mem_toFinset.2 hd))
        exact hlater d hd e (mem_cons_of_mem _ he) ((Added.spends_old ha hne _).1 hspends)
      · rw [mem_singleton.1 hd] at hspends
        obtain ⟨o, ho, hot⟩ := (ha.spends_iff e.tx.hash).1 hspends
        exact (pairwise_cons.1 hb.parents_first).1 e he o ho hot
    have htx : (entry.updateFeeDelta (pool.deltaOf entry.tx.hash)).tx = entry.tx := rfl
    obtain ⟨pool', hfold, h'⟩ := ih h₁ (ha.comeBack htx hb) hlater₁
    refine ⟨pool', by rw [foldlM_cons, hadd]; exact hfold, ?_⟩
    rwa [append_assoc] at h'

end

/-! ## Relatives with links and without -/

/-- Two relatives, other than one outside `K` and a descendant of it in `K`, are related by spends that have links. -/
def Joined (base : CTxMemPool) (K : Finset Uint256) : Prop :=
  ∀ a ∈ base.keys, ∀ b ∈ base.descendants a,
    (a ∉ K ∧ b ∈ K) ∨ b ∈ reach (swap (base.Linking K)) base.keys a

section

variable {base : CTxMemPool} {K D : Finset Uint256} {k d x : Uint256}

section

variable (h : Reentered base K D)
include h

lemma Reentered.not_mem_D (hk : k ∈ K) : k ∉ D := Finset.disjoint_left.1 h.disjoint hk
lemma Reentered.not_mem_K (hd : d ∈ D) : d ∉ K := fun hK => h.not_mem_D hK hd

lemma Reentered.mem_keys (hk : k ∈ K ∨ k ∈ D) : k ∈ base.keys :=
  h.keys ▸ Finset.mem_union.2 hk

variable (hj : Joined base K)
include hj

/-- What has links to `k`: all its ancestors, except those outside `K` of a `k` in `K`. -/
theorem Reentered.mem_reach_linking (hk : k ∈ base.keys) :
    x ∈ reach (base.Linking K) base.keys k ↔ x ∈ base.ancestors k ∧ (k ∈ K → x ∉ D) := by
  have hclosed : ClosedIn (base.Linking K) base.keys K := fun a ha b _ hab => hab.2 ha
  constructor
  · intro hx
    refine ⟨mem_reach.2 ⟨reach_subset hx, ?_⟩, fun hkK => h.not_mem_D (hclosed.reach_subset hkK hx)⟩
    exact ReflTransGen.mono (fun a b hab => ⟨hab.1, hab.2.1, hab.2.2.1⟩) _ _ (mem_reach.1 hx).2
  · rintro ⟨hx, hxD⟩
    have hxk : x ∈ base.keys := reach_subset hx
    rcases hj x hxk k (mem_reach_swap hk hx) with ⟨hxK, hkK⟩ | hlink
    · exact absurd ((Finset.mem_union.1 (h.keys ▸ hxk)).resolve_left hxK) (hxD hkK)
    · exact (mem_reach_swap_iff hk hxk).1 hlink

lemma Reentered.mem_reach_swap_linking (hk : k ∈ base.keys) :
    x ∈ reach (swap (base.Linking K)) base.keys k ↔ x ∈ base.descendants k ∧ (x ∈ K → k ∉ D) := by
  by_cases hx : x ∈ base.keys
  · rw [mem_reach_swap_iff hx hk, h.mem_reach_linking hj hx, descendants, mem_reach_swap_iff hx hk, ancestors]
  · exact iff_of_false (fun h => hx (reach_subset h)) fun h => hx (reach_subset h.1)

end

end

/-! ## The pool during the repair -/

/-- The descendant statistics when the transactions `done` of `D` count their descendants in `K`. -/
noncomputable def descRepaired (base : CTxMemPool) (K D : Finset Uint256) (done : List Uint256) (k : Uint256) :
    DescendantState :=
  if k ∈ D ∧ k ∉ done then ∑ d ∈ base.descendants k \ K, base.descWeight d
  else ∑ d ∈ base.descendants k, base.descWeight d

/-- The ancestor statistics when the transactions of `K` count their ancestors in `done`. -/
noncomputable def ancRepaired (base : CTxMemPool) (K D : Finset Uint256) (done : List Uint256) (k : Uint256) :
    AncestorState :=
  if k ∈ K then ∑ a ∈ base.ancestors k \ (D \ done.toFinset), base.ancWeight a
  else ∑ a ∈ base.ancestors k, base.ancWeight a

/-- `pool` is `base` after the transactions `linked` of `D` were linked to their children in `K`, and those of `done`
were counted. -/
structure Repaired (base pool : CTxMemPool) (K D : Finset Uint256) (linked done : List Uint256) (cache : CacheMap) :
    Prop where
  stats : HasStats base pool (descRepaired base K D done) (ancRepaired base K D done)
  links : ∀ k, k ∈ pool.mapLinks ↔ k ∈ base.keys
  parents : ∀ k p, p ∈ (pool.linksOf k).parents ↔ Within base.Spends base.keys k p ∧ (k ∈ K → p ∈ D → p ∈ linked)
  children : ∀ k c, c ∈ (pool.linksOf k).children ↔ Within base.Spends base.keys c k ∧ (c ∈ K → k ∈ D → k ∈ linked)
  nextTx : pool.mapNextTx = base.mapNextTx
  total : pool.totalTxSize = base.totalTxSize
  cached : ∀ d S, cache.lookup d = some S → d ∈ done ∧ ∀ x, x ∈ S ↔ x ∈ K ∧ x ∈ base.descendants d

section

variable {base pool : CTxMemPool} {K D : Finset Uint256} {k d x : Uint256}

lemma Reentered.within_iff (h : Reentered base K D) (c p : Uint256) : Within (base.Linking K) base.keys c p ↔
    Within base.Spends base.keys c p ∧ (c ∈ K → p ∈ D → p ∈ ([] : List Uint256)) := by
  constructor
  · rintro ⟨hc, hp, hcp, hK⟩
    exact ⟨⟨hc, hp, hcp⟩, fun hcK hpD => absurd hpD (h.not_mem_D (hK hcK))⟩
  · rintro ⟨⟨hc, hp, hcp⟩, hlink⟩
    refine ⟨hc, hp, hcp, fun hcK => ?_⟩
    exact (Finset.mem_union.1 (h.keys ▸ hp)).resolve_right fun hD => not_mem_nil (hlink hcK hD)

lemma Reentered.repaired (h : Reentered base K D) (hj : Joined base K) : Repaired base base K D [] [] ∅ where
  stats := by
    intro k
    cases he : base.mapTx.lookup k with
    | none => rfl
    | some e =>
      have hk := mem_keys_of_lookup he
      have hdesc : e.withDescendants = descRepaired base K D [] k := by
        rw [h.desc k e he, descRepaired, ← apply_ite fun s => ∑ d ∈ s, base.descWeight d]
        congr 1
        ext x
        rw [h.mem_reach_swap_linking hj hk]
        by_cases hD : k ∈ D <;> simp [hD]
      have hanc : e.withAncestors = ancRepaired base K D [] k := by
        rw [h.anc k e he, ancRepaired, ← apply_ite fun s => ∑ a ∈ s, base.ancWeight a]
        congr 1
        ext x
        rw [h.mem_reach_linking hj hk]
        by_cases hK : k ∈ K <;> simp [hK]
      rw [Option.map_some, ← hdesc, ← hanc, setStats_self]
  links := h.links
  parents := fun k p => (h.parents k p).trans (h.within_iff k p)
  children := fun k c => (h.children k c).trans (h.within_iff c k)
  nextTx := rfl
  total := rfl
  cached := fun d S hS => by cases hS

end

/-! ## Linking the children -/

/-- `pool'` is `pool` with the entries `l` as children of `it`. -/
structure LinkedTo (pool pool' : CTxMemPool) (it : Uint256) (l : Set Uint256) : Prop where
  eq : ∃ L, pool' = { pool with mapLinks := L }
  links : ∀ k, k ∈ pool'.mapLinks ↔ k ∈ pool.mapLinks
  parents : ∀ k p, p ∈ (pool'.linksOf k).parents ↔ p ∈ (pool.linksOf k).parents ∨ (p = it ∧ k ∈ l)
  children : ∀ k c, c ∈ (pool'.linksOf k).children ↔ c ∈ (pool.linksOf k).children ∨ (k = it ∧ c ∈ l)

section

variable {pool pool' : CTxMemPool} {it c : Uint256} {l l' : Set Uint256}

lemma alterLinks_mapLinks {k : Uint256} (hk : k ∈ pool.mapLinks) (f : TxLinks → TxLinks) (i : Uint256) :
    i ∈ (pool.alterLinks k f).mapLinks ↔ i ∈ pool.mapLinks := by
  rw [alterLinks, AList.mem_insert]
  exact or_iff_right_of_imp fun hi => hi ▸ hk

lemma linkedTo_singleton (hit : it ∈ pool.mapLinks) (hc : c ∈ pool.mapLinks) :
    LinkedTo pool ((pool.updateChild it c true).updateParent c it true) it {c} where
  eq := ⟨_, rfl⟩
  links := by
    intro k
    rw [updateParent_eq, alterLinks_mapLinks, updateChild_eq, alterLinks_mapLinks hit]
    rwa [updateChild_eq, alterLinks_mapLinks hit]
  parents := by
    intro k p
    rw [mem_updateParent_parents, updateChild_parents, and_comm]
    rfl
  children := by
    intro k x
    rw [updateParent_children, mem_updateChild_children]
    rfl

lemma LinkedTo.trans {pool'' : CTxMemPool} (h : LinkedTo pool pool' it l)
    (h' : LinkedTo pool' pool'' it l') : LinkedTo pool pool'' it (l ∪ l') where
  eq := by
    obtain ⟨L, rfl⟩ := h.eq
    exact h'.eq
  links := fun k => (h'.links k).trans (h.links k)
  parents := by
    intro k p
    rw [h'.parents, h.parents, or_assoc, ← and_or_left]
    rfl
  children := by
    intro k x
    rw [h'.children, h.children, or_assoc, ← and_or_left]
    rfl

/-- The children of one transaction, except those in `X` and those that have been `seen` before. -/
theorem linkChildren_ok {X : SetEntries} {l : List CTransaction} (seen : SetEntries) (hit : it ∈ pool.mapLinks)
    (hin : ∀ tx ∈ l, tx.hash ∈ pool.mapTx ∧ tx.hash ∈ pool.mapLinks) :
    ∃ pool', linkChildren it X l seen pool = .ok pool' ∧
      LinkedTo pool pool' it {k | k ∉ seen ∧ k ∉ X ∧ ∃ tx ∈ l, tx.hash = k} := by
  induction l generalizing pool seen with
  | nil => refine ⟨pool, rfl, ⟨_, rfl⟩, fun _ => Iff.rfl, fun k p => ?_, fun k x => ?_⟩ <;> simp
  | cons tx l ih =>
    obtain ⟨hmem, hlinks⟩ := hin tx mem_cons_self
    have hrest : ∀ tx' ∈ l, tx'.hash ∈ pool.mapTx ∧ tx'.hash ∈ pool.mapLinks := fun tx' htx' =>
      hin tx' (mem_cons_of_mem _ htx')
    rw [linkChildren, if_pos hmem]
    split_ifs with hnew
    · have hone := linkedTo_singleton hit hlinks
      obtain ⟨pool', hok, hl⟩ := ih (seen.insert tx.hash) ((hone.links it).2 hit) fun tx' htx' =>
        ⟨(hrest tx' htx').1, (hone.links _).2 (hrest tx' htx').2⟩
      refine ⟨pool', hok, ?_⟩
      convert hone.trans hl using 1
      ext k
      by_cases hk : k = tx.hash
      · simp [hk, hnew]
      · simp [hk, Ne.symm hk]
    · obtain ⟨pool', hok, hl⟩ := ih (seen.insert tx.hash) hit hrest
      refine ⟨pool', hok, ?_⟩
      convert hl using 1
      ext k
      by_cases hk : k = tx.hash
      · simpa [hk] using fun hseen => not_not.1 fun hX => hnew ⟨hseen, hX⟩
      · simp [hk, Ne.symm hk]

end

/-! ## The walk with the cache -/

section

variable {pool : CTxMemPool} {cache : CacheMap} {K roots : Set Uint256} {visited : Set Uint256}

/-- What the inner loop makes of the children `l` of an entry. -/
structure Scheduled (cache : CacheMap) (l : List Uint256) (found stage found' stage' : SetEntries) : Prop where
  found_iff : ∀ x, x ∈ found' ↔ x ∈ found ∨ ∃ y ∈ l, ∃ S, cache.lookup y = some S ∧ x ∈ S
  stage_mono : ∀ x ∈ stage, x ∈ stage'
  stage_cases : ∀ x ∈ stage', x ∈ stage ∨ (x ∈ l ∧ x ∉ found)
  uncached : ∀ y ∈ l, cache.lookup y = none → y ∈ found' ∨ y ∈ stage'

variable {l : List Uint256}

lemma scheduleChildren_spec (cache : CacheMap) (l : List Uint256) (found stage : SetEntries) :
    Scheduled cache l found stage (scheduleChildren cache l found stage).1 (scheduleChildren cache l found stage).2 := by
  induction l generalizing found stage with
  | nil => exact ⟨fun x => by simp [scheduleChildren], fun _ h => h, fun _ h => .inl h, fun _ hy => absurd hy not_mem_nil⟩
  | cons c l ih =>
    rw [scheduleChildren]
    cases hc : cache.lookup c with
    | some S =>
      have h := ih (found.insertAll S.toList) stage
      refine ⟨fun x => ?_, h.stage_mono, fun x hx => ?_, fun y hy hnone => ?_⟩
      · rw [h.found_iff, OrdSet.mem_insertAll, or_assoc]
        simp [hc, OrdSet.mem_toList]
      · refine (h.stage_cases x hx).imp_right fun hx => ⟨mem_cons_of_mem _ hx.1, fun hxf => hx.2 ?_⟩
        exact OrdSet.mem_insertAll.2 (.inl hxf)
      · rcases mem_cons.1 hy with rfl | hy
        · rw [hc] at hnone
          cases hnone
        · exact h.uncached y hy hnone
    | none =>
      have hiff : ∀ x found stage, x ∈ (scheduleChildren cache l found stage).1 ↔
          x ∈ found ∨ ∃ y ∈ c :: l, ∃ S, cache.lookup y = some S ∧ x ∈ S := fun x found stage =>
        ((ih found stage).found_iff x).trans (by simp [hc])
      split_ifs with hfound
      · have h := ih found stage
        refine ⟨fun x => hiff x found stage, h.stage_mono, fun x hx => ?_, fun y hy hnone => ?_⟩
        · exact (h.stage_cases x hx).imp_right fun hx => ⟨mem_cons_of_mem _ hx.1, hx.2⟩
        · rcases mem_cons.1 hy with rfl | hy
          · exact .inl ((h.found_iff y).2 (.inl hfound))
          · exact h.uncached y hy hnone
      · have h := ih found (stage.insert c)
        refine ⟨fun x => hiff x found _, fun x hx => h.stage_mono x (mem_insert.2 (.inr hx)), fun x hx => ?_,
          fun y hy hnone => ?_⟩
        · rcases h.stage_cases x hx with hx | hx
          · rcases mem_insert.1 hx with rfl | hx
            · exact .inr ⟨mem_cons_self, hfound⟩
            · exact .inl hx
          · exact .inr ⟨mem_cons_of_mem _ hx.1, hx.2⟩
        · rcases mem_cons.1 hy with rfl | hy
          · exact .inr (h.stage_mono y (mem_insert.2 (.inl rfl)))
          · exact h.uncached y hy hnone

/-- The cache holds, for some entries, their descendants in `K`. -/
def CacheExact (pool : CTxMemPool) (K : Set Uint256) (cache : CacheMap) : Prop :=
  ∀ y S, cache.lookup y = some S → ∀ x, x ∈ S ↔ x ∈ K ∧ ReflTransGen pool.LinkedChild y x

lemma Scheduled.visit (hcache : CacheExact pool K cache) {it : Uint256} {stage found found' stage' : SetEntries}
    (hF : CachedFrontier pool.LinkedChild K roots visited {x | x ∈ found} {x | x ∈ stage}) (hit : it ∈ stage)
    (h : Scheduled cache (pool.linksOf it).children.toList (found.insert it) (stage.erase it) found' stage') :
    CachedFrontier pool.LinkedChild K roots (insert it visited) {x | x ∈ found'} {x | x ∈ stage'} := by
  have hcovered : ∀ y S, pool.LinkedChild it y → cache.lookup y = some S → ∀ x, ReflTransGen pool.LinkedChild y x →
      Covered pool.LinkedChild K {x | x ∈ found'} x := fun y S hy hS x hyx z hz hxz =>
    (h.found_iff z).2 (.inr ⟨y, hy, S, hS, (hcache y S hS z).2 ⟨hz, hyx.trans hxz⟩⟩)
  refine hF.visit hit ?_ ?_ ?_ ?_ ?_ ?_
  · exact fun x hx => (h.found_iff x).2 (.inl (mem_insert.2 (.inr hx)))
  · exact (h.found_iff it).2 (.inl (mem_insert.2 (.inl rfl)))
  · intro x hx
    rcases (h.found_iff x).1 hx with hx | ⟨y, hy, S, hS, hxS⟩
    · exact (mem_insert.1 hx).imp_right .inl
    · have hyx := ((hcache y S hS x).1 hxS).2
      exact .inr (.inr ⟨y, hy, hyx, hcovered y S hy hS x hyx⟩)
  · exact fun x hx hne => h.stage_mono x (mem_erase.2 ⟨hne, hx⟩)
  · intro x hx
    rcases h.stage_cases x hx with hx | ⟨hx, hxf⟩
    · exact .inl ⟨(mem_erase.1 hx).2, (mem_erase.1 hx).1⟩
    · rw [mem_insert, not_or] at hxf
      exact .inr ⟨hx, hxf⟩
  · intro y hy
    cases hS : cache.lookup y with
    | none => exact (h.uncached y hy hS).imp_right .inl
    | some S => exact .inr (.inr (hcovered y S hy hS y .refl))

lemma walkCached_ok (hl : pool.ChildrenLinked) (hcache : CacheExact pool K cache) {fuel : ℕ} {stage found : SetEntries}
    (hF : CachedFrontier pool.LinkedChild K roots visited {x | x ∈ found} {x | x ∈ stage})
    (hst : ∀ x ∈ stage, x ∈ pool.keys) (hfuel : unseen pool.keys visited ≤ fuel) :
    ∃ S, pool.walkCached cache fuel stage found = .ok S ∧
      (∀ x ∈ S, ∃ r ∈ roots, ReflTransGen pool.LinkedChild r x) ∧
      ∀ x ∈ K, x ∈ S ↔ ∃ r ∈ roots, ReflTransGen pool.LinkedChild r x := by
  induction fuel generalizing stage found visited <;> cases hlist : stage.toList
  case zero.nil | succ.nil =>
    have hnone := toList_eq_nil_iff.1 hlist
    exact ⟨found, walkCached.eq_1 _ _ _ _ _ hlist, fun x hx => hF.sound x (.inl hx), fun x hx => hF.mem_iff hnone hx⟩
  case zero.cons it rest =>
    have hit : it ∈ stage := mem_toList.1 (hlist ▸ mem_cons_self)
    exact absurd hfuel (not_le.2 (unseen_pos (hst it hit) (hF.fresh it hit)))
  case succ.cons fuel ih it rest =>
    have hit : it ∈ stage := mem_toList.1 (hlist ▸ mem_cons_self)
    obtain ⟨hlinks, hchildren⟩ := hl it (hst it hit)
    have hsched := scheduleChildren_spec cache (pool.linksOf it).children.toList (found.insert it) (stage.erase it)
    have hlt : unseen pool.keys (insert it visited) < unseen pool.keys visited :=
      unseen_lt (hst it hit) (hF.fresh it hit) fun x => Iff.rfl
    have hst' : ∀ x ∈ (scheduleChildren cache (pool.linksOf it).children.toList (found.insert it)
        (stage.erase it)).2, x ∈ pool.keys := by
      intro x hx
      rcases hsched.stage_cases x hx with hx | hx
      · exact hst x (mem_erase.1 hx).2
      · exact hchildren x hx.1
    rw [walkCached.eq_3 _ _ _ _ _ _ _ hlist, getMemPoolChildren_ok (hst it hit) hlinks]
    exact ih (hsched.visit hcache hF hit) hst' (by omega)

end

/-! ## Counting the descendants -/

section

variable {base pool : CTxMemPool} {D : Uint256 → DescendantState} {A : Uint256 → AncestorState}
  {entry : CTxMemPoolEntry} {X : SetEntries}

/-- The loop over the descendants `l`: those outside the block gain the weight, and theirs is added up. -/
theorem updateDescendants_ok (updateIt : Uint256) (hhash : ∀ k e, base.mapTx.lookup k = some e → e.tx.hash = k)
    (h : HasStats base pool D A) (hl : l.Nodup) (hin : ∀ k ∈ l, k ∈ base.keys)
    (hpos : ∀ k ∈ l, k ∉ X → AncestorState.Positive (A k + entry.ancWeight)) (δ : DescendantState) (cache : CacheMap) :
    ∃ m cache', updateDescendants updateIt entry X l δ pool cache =
        .ok (δ + ((l.filter (· ∉ X)).map base.descWeight).sum, { pool with mapTx := m }, cache') ∧
      HasStats base { pool with mapTx := m } D (fun k => if k ∈ l ∧ k ∉ X then A k + entry.ancWeight else A k) ∧
      (∀ y ≠ updateIt, cache'.lookup y = cache.lookup y) ∧
      ∀ x, x ∈ (cache'.lookup updateIt).getD ∅ ↔ x ∈ (cache.lookup updateIt).getD ∅ ∨ (x ∈ l ∧ x ∉ X) := by
  induction l generalizing pool A δ cache with
  | nil => exact ⟨pool.mapTx, cache, by simp [updateDescendants], by simpa using h, fun _ _ => rfl, by simp⟩
  | cons k l ih =>
    obtain ⟨hkl, hl⟩ := nodup_cons.1 hl
    obtain ⟨e, he⟩ := mem_keys_iff_lookup.1 (hin k mem_cons_self)
    have hrest : ∀ k ∈ l, k ∈ base.keys := fun i hi => hin i (mem_cons_of_mem _ hi)
    have hne : ∀ i ∈ l, i ≠ k := fun i hi hik => hkl (hik ▸ hi)
    have hk : (e.setStats (D k) (A k)).tx.hash = k := hhash k e he
    have hw : base.descWeight k = e.descWeight := by rw [descWeight, he, Option.elim_some]
    obtain ⟨modifySize, modifyFee, modifyCount⟩ := δ
    rw [updateDescendants, deref_eq_ok.2 (h.lookup he)]
    simp only [ok_bind, hk]
    by_cases hkX : k ∈ X
    · -- already counted
      obtain ⟨m, cache', hok, hs, hother, hcache⟩ :=
        ih h hl hrest (fun i hi => hpos i (mem_cons_of_mem _ hi)) (modifySize, modifyFee, modifyCount) cache
      refine ⟨m, cache', ?_, hs.congr (fun _ _ => rfl) fun i _ => ?_, hother, fun x => (hcache x).trans ?_⟩
      · rw [if_pos hkX, hok, filter_cons_of_neg (by simpa using hkX)]
      · by_cases hik : i = k
        · subst hik
          simp [hkX]
        · simp [hik]
      · by_cases hxk : x = k
        · subst hxk
          simp [hkX]
        · simp [hxk]
    · have hstep : updateAncestorState entry.getTxSize entry.getModifiedFee 1 entry.sigOpCost (e.setStats (D k) (A k)) =
          .ok (e.setStats (D k) (A k + entry.ancWeight)) :=
        updateAncestorState_ok (hpos k mem_cons_self hkX) e
      obtain ⟨m₁, hm₁, hs₁⟩ := h.modify he hstep
      rw [update_eq_self] at hs₁
      have hpos₁ : ∀ i ∈ l, i ∉ X →
          AncestorState.Positive (update A k (A k + entry.ancWeight) i + entry.ancWeight) := by
        intro i hi hiX
        rw [update_of_ne (hne i hi)]
        exact hpos i (mem_cons_of_mem _ hi) hiX
      obtain ⟨m, cache', hok, hs, hother, hcache⟩ := ih hs₁ hl hrest hpos₁
        (modifySize + e.getTxSize, modifyFee + e.getModifiedFee, modifyCount + 1)
        (cache.insert updateIt (((cache.lookup updateIt).getD ∅).insert k))
      refine ⟨m, cache', ?_, hs.congr (fun _ _ => rfl) fun i _ => ?_, fun y hy => ?_, fun x => (hcache x).trans ?_⟩
      · rw [if_neg hkX, hm₁, filter_cons_of_pos (by simpa using hkX), map_cons, sum_cons, hw, ← add_assoc]
        exact hok
      · by_cases hik : i = k
        · subst hik
          simp [hkl, hkX]
        · simp [hik]
      · rw [hother y hy, AList.lookup_insert_ne hy]
      · rw [AList.lookup_insert, Option.getD_some, mem_insert]
        by_cases hxk : x = k
        · subst hxk
          simp [hkX]
        · simp [hxk]

end

/-! ## One round -/

section

variable {base pool : CTxMemPool} {K D : Finset Uint256} {linked done : List Uint256} {cache : CacheMap} {d k x : Uint256}
  {X : SetEntries}

lemma mem_spendersOf {hash : Uint256} {tx : CTransaction} :
    tx ∈ pool.spendersOf hash ↔ ∃ o, o.hash = hash ∧ pool.mapNextTx.lookup o = some tx := by
  rw [spendersOf, mem_map]
  constructor
  · rintro ⟨⟨o, tx'⟩, hmem, rfl⟩
    rw [mem_insertionSort, mem_filter, decide_eq_true_eq] at hmem
    exact ⟨o, hmem.2, AList.mem_lookup_iff.2 hmem.1⟩
  · rintro ⟨o, ho, hlook⟩
    refine ⟨⟨o, tx⟩, ?_, rfl⟩
    rw [mem_insertionSort, mem_filter, decide_eq_true_eq]
    exact ⟨AList.mem_lookup_iff.1 hlook, ho⟩

lemma Repaired.keys_eq (h : Repaired base pool K D linked done cache) : pool.keys = base.keys := h.stats.keys_eq

section

variable (hr : Reentered base K D)
include hr

lemma Reentered.mem_spendersOf (hd : d ∈ D) :
    (k ∉ D ∧ ∃ tx ∈ base.spendersOf d, tx.hash = k) ↔ k ∈ K ∧ Within base.Spends base.keys k d := by
  constructor
  · rintro ⟨hkD, tx, htx, rfl⟩
    obtain ⟨o, ho, hlook⟩ := mem_spendersOf.1 htx
    obtain ⟨e, he, htx, hmem⟩ := hr.nextTx_mem o tx hlook
    have hkeys := mem_keys_of_lookup he
    refine ⟨(Finset.mem_union.1 (hr.keys ▸ hkeys)).resolve_right hkD, hkeys, hr.mem_keys (.inr hd), e, he, o, ?_, ho⟩
    rwa [htx]
  · rintro ⟨hkK, -, -, e, he, o, ho, hod⟩
    refine ⟨hr.not_mem_D hkK, e.tx, CTxMemPool.mem_spendersOf.2 ⟨o, hod, hr.nextTx_eq k hkK e he o ho⟩, ?_⟩
    exact hr.hash_eq k e he

/-- **The first half of a round**: the children outside the block are linked. -/
theorem Repaired.linkChildren_ok (h : Repaired base pool K D done done cache) (hX : ∀ x, x ∈ X ↔ x ∈ D) (hd : d ∈ D) :
    ∃ pool₁, linkChildren d X (pool.spendersOf d) ∅ pool = .ok pool₁ ∧
      Repaired base pool₁ K D (d :: done) done cache := by
  have hspenders : pool.spendersOf d = base.spendersOf d := by rw [spendersOf, spendersOf, h.nextTx]
  have hkeys : ∀ k, k ∈ pool.mapTx ↔ k ∈ base.keys := fun k => by rw [← h.keys_eq, mem_keys]
  have hin : ∀ tx ∈ pool.spendersOf d, tx.hash ∈ pool.mapTx ∧ tx.hash ∈ pool.mapLinks := fun tx htx => by
    rw [hspenders] at htx
    obtain ⟨o, -, hlook⟩ := mem_spendersOf.1 htx
    obtain ⟨e, he, -⟩ := hr.nextTx_mem o tx hlook
    exact ⟨(hkeys _).2 (mem_keys_of_lookup he), (h.links _).2 (mem_keys_of_lookup he)⟩
  obtain ⟨pool₁, hok, hl⟩ := CTxMemPool.linkChildren_ok (X := X) ∅ ((h.links d).2 (hr.mem_keys (.inr hd))) hin
  rw [hspenders] at hl
  have hmem : ∀ k, k ∈ {k | k ∉ (∅ : SetEntries) ∧ k ∉ X ∧ ∃ tx ∈ base.spendersOf d, tx.hash = k} ↔
      k ∈ K ∧ Within base.Spends base.keys k d := fun k => by
    rw [Set.mem_ofPred_eq, and_iff_right (not_mem_empty k), hX]
    exact hr.mem_spendersOf hd
  -- a link exists, or is the one from a child outside the block to `d`
  have hiff : ∀ c p, (Within base.Spends base.keys c p ∧ (c ∈ K → p ∈ D → p ∈ done)) ∨
      (p = d ∧ c ∈ K ∧ Within base.Spends base.keys c d) ↔
      Within base.Spends base.keys c p ∧ (c ∈ K → p ∈ D → p ∈ d :: done) := by
    intro c p
    constructor
    · rintro (⟨hw, hdone⟩ | ⟨rfl, -, hw⟩)
      · exact ⟨hw, fun hc hp => mem_cons_of_mem _ (hdone hc hp)⟩
      · exact ⟨hw, fun _ _ => mem_cons_self⟩
    · rintro ⟨hw, hdone⟩
      by_cases hnew : c ∈ K ∧ p = d
      · exact .inr ⟨hnew.2, hnew.1, hnew.2 ▸ hw⟩
      · refine .inl ⟨hw, fun hc hp => ?_⟩
        exact (mem_cons.1 (hdone hc hp)).resolve_left fun hpd => hnew ⟨hc, hpd⟩
  refine ⟨pool₁, hok, ?_⟩
  obtain ⟨L, rfl⟩ := hl.eq
  refine ⟨h.stats, fun k => (hl.links k).trans (h.links k), fun k p => ?_, fun k c => ?_, h.nextTx, h.total, h.cached⟩
  · rw [hl.parents, h.parents, hmem, ← hiff]
  · rw [hl.children, h.children, hmem, ← hiff]

/-- The entries outside the block below `d` count one ancestor more. -/
theorem Reentered.ancRepaired_cons (hd : d ∈ D) (hdone : d ∉ done) (hk : k ∈ base.keys) :
    ancRepaired base K D (d :: done) k =
      if k ∈ K ∧ k ∈ base.descendants d then ancRepaired base K D done k + base.ancWeight d
      else ancRepaired base K D done k := by
  have hmem : k ∈ base.descendants d ↔ d ∈ base.ancestors k := (mem_ancestors_iff hk (hr.mem_keys (.inr hd))).symm
  by_cases hkK : k ∈ K
  · have hsplit : base.ancestors k \ (D \ (d :: done).toFinset) =
        if d ∈ base.ancestors k then insert d (base.ancestors k \ (D \ done.toFinset))
        else base.ancestors k \ (D \ done.toFinset) := by
      ext x
      by_cases hxd : x = d
      · subst hxd
        split_ifs with hx <;> simp [hx]
      · split_ifs <;> simp [hxd]
    have hnot : d ∉ base.ancestors k \ (D \ done.toFinset) := fun h =>
      (Finset.mem_sdiff.1 h).2 (Finset.mem_sdiff.2 ⟨hd, fun h => hdone (List.mem_toFinset.1 h)⟩)
    rw [ancRepaired, ancRepaired, if_pos hkK, if_pos hkK, hsplit]
    by_cases hkd : d ∈ base.ancestors k
    · rw [if_pos hkd, if_pos ⟨hkK, hmem.2 hkd⟩, Finset.sum_insert hnot, add_comm]
    · rw [if_neg hkd, if_neg fun h => hkd (hmem.1 h.2)]
  · rw [ancRepaired, ancRepaired, if_neg hkK, if_neg hkK, if_neg fun h => hkK h.1]

variable (base K) in
omit hr in
lemma descRepaired_cons (hd : d ∈ D) (hdone : d ∉ done) :
    descRepaired base K D (d :: done) = update (descRepaired base K D done) d
      (descRepaired base K D done d + ∑ x ∈ base.descendants d with x ∈ K, base.descWeight x) := by
  funext k
  by_cases hk : k = d
  · subst hk
    rw [update_self, descRepaired, if_neg fun h => h.2 mem_cons_self, descRepaired,
      if_pos ⟨hd, hdone⟩, ← Finset.filter_notMem_eq_sdiff, add_comm, Finset.sum_filter_add_sum_filter_not]
  · rw [update_of_ne hk]
    exact if_congr (by rw [mem_cons, or_iff_right hk]) rfl rfl

/-- Nothing between an entry of `linked` and its descendants is left to link. -/
structure LinkedBelow (base : CTxMemPool) (D : Finset Uint256) (linked : List Uint256) : Prop where
  subset : ∀ y ∈ linked, y ∈ D
  closed : ∀ y ∈ linked, ∀ c ∈ D, base.Spends c y → c ∈ linked

variable (hj : Joined base K)
include hj

/-- The descendants in `D` of an entry that has been linked have been linked. -/
theorem LinkedBelow.mem_of_descendant (hb : LinkedBelow base D linked) (hk : k ∈ linked) (hx : x ∈ base.descendants k)
    (hxD : x ∈ D) : x ∈ linked := by
  have hkeys := hr.mem_keys (.inr (hb.subset k hk))
  rcases hj k hkeys x hx with ⟨-, hxK⟩ | hlink
  · exact absurd hxD (hr.not_mem_D hxK)
  · have hpath := (mem_reach.1 hlink).2
    clear hxD hx hlink
    -- a link from an entry that came back leads to another one that came back
    induction hpath with
    | refl => exact hk
    | tail _ hstep ih =>
      obtain ⟨-, hc, hcy, hK⟩ := hstep
      have hyK := hr.not_mem_K (hb.subset _ ih)
      have hcD := (Finset.mem_union.1 (hr.keys ▸ hc)).resolve_left fun hcK => hyK (hK hcK)
      exact hb.closed _ ih _ hcD hcy

/-- Below an entry that has been linked, the links are those of the pool. -/
theorem Repaired.reach_linkedChild (h : Repaired base pool K D linked done cache) (hb : LinkedBelow base D linked)
    (hk : k ∈ linked) : ReflTransGen pool.LinkedChild k x ↔ x ∈ base.descendants k := by
  have hkeys := hr.mem_keys (.inr (hb.subset k hk))
  rw [descendants, mem_reach]
  constructor
  · intro hx
    have hpath : ReflTransGen (Within (swap base.Spends) base.keys) k x :=
      ReflTransGen.mono (fun y c hstep => ((h.children y c).1 hstep).1.swap) _ _ hx
    exact ⟨mem_of_reflTransGen_within hpath hkeys, hpath⟩
  · rintro ⟨-, hx⟩
    induction hx with
    | refl => exact .refl
    | tail hpath hstep ih =>
      refine ih.tail ((h.children _ _).2 ⟨hstep.swap, fun _ hD => ?_⟩)
      exact hb.mem_of_descendant hr hj hk (mem_reach.2 ⟨hstep.1, hpath⟩) hD

omit hr hj in
lemma Repaired.childrenLinked (h : Repaired base pool K D linked done cache) : pool.ChildrenLinked := fun k hk => by
  rw [h.keys_eq] at hk ⊢
  exact ⟨(h.links k).2 hk, fun c hc => ((h.children k c).1 hc).1.1⟩

/-- **The walk finds the descendants outside the block**, with the help of the descendants found in earlier rounds. -/
theorem Repaired.walkCached_ok (h : Repaired base pool K D (d :: done) done cache)
    (hb : LinkedBelow base D (d :: done)) (hX : ∀ x, x ∈ X ↔ x ∈ D) :
    ∃ S, pool.walkCached cache pool.mapTx.entries.length (pool.linksOf d).children ∅ = .ok S ∧
      (∀ x ∈ S, x ∈ base.keys) ∧ ∀ x, x ∈ S ∧ x ∉ X ↔ x ∈ K ∧ x ∈ base.descendants d := by
  have hd : d ∈ D := hb.subset d mem_cons_self
  have hkeys : d ∈ pool.keys := h.keys_eq ▸ hr.mem_keys (.inr hd)
  have hdown : ∀ x, ReflTransGen pool.LinkedChild d x ↔ x ∈ base.descendants d := fun x =>
    h.reach_linkedChild hr hj hb mem_cons_self
  have hcache : CacheExact pool {x | x ∈ K} cache := fun y S hS x => by
    obtain ⟨hy, hS⟩ := h.cached y S hS
    rw [hS, h.reach_linkedChild hr hj hb (mem_cons_of_mem _ hy), Set.mem_ofPred_eq]
  have hempty : {x : Uint256 | x ∈ (∅ : SetEntries)} = ∅ := Set.eq_empty_of_forall_notMem not_mem_empty
  have hstart : CachedFrontier pool.LinkedChild {x | x ∈ K} {x | x ∈ (pool.linksOf d).children} ∅
      {x | x ∈ (∅ : SetEntries)} {x | x ∈ (pool.linksOf d).children} := by
    rw [hempty]
    exact CachedFrontier.start _ _
  obtain ⟨S, hok, hsound, hfound⟩ := CTxMemPool.walkCached_ok h.childrenLinked hcache hstart
    (h.childrenLinked d hkeys).2 (pool.card_keys ▸ unseen_le_card)
  have hbelow : ∀ x ∈ S, x ∈ base.descendants d := fun x hx => by
    obtain ⟨r, hr, hrx⟩ := hsound x hx
    exact (hdown x).1 (.head hr hrx)
  refine ⟨S, hok, fun x hx => (mem_reach.1 (hbelow x hx)).1, fun x => ⟨?_, ?_⟩⟩
  · rintro ⟨hxS, hxX⟩
    refine ⟨?_, hbelow x hxS⟩
    have hx := (mem_reach.1 (hbelow x hxS)).1
    exact (Finset.mem_union.1 (hr.keys ▸ hx)).resolve_right fun hxD => hxX ((hX x).2 hxD)
  · rintro ⟨hxK, hx⟩
    refine ⟨(hfound x hxK).2 ?_, fun hxX => hr.not_mem_D hxK ((hX x).1 hxX)⟩
    -- the path from `d` to `x` is not empty
    rcases ((hdown x).2 hx).cases_head with rfl | ⟨r, hdr, hrx⟩
    · exact absurd hd (hr.not_mem_D hxK)
    · exact ⟨r, hdr, hrx⟩

variable (hb : LinkedBelow base D (d :: done)) (hX : ∀ x, x ∈ X ↔ x ∈ D) (hdone : d ∉ done)
include hb hX hdone

/-- **The second half of a round**: `d` and its descendants outside the block are counted. -/
theorem Repaired.updateForDescendants_ok (h : Repaired base pool K D (d :: done) done cache) :
    ∃ pool' cache', pool.updateForDescendants d cache X = .ok (pool', cache') ∧
      Repaired base pool' K D (d :: done) (d :: done) cache' := by
  have hd : d ∈ D := hb.subset d mem_cons_self
  have hkeys : d ∈ base.keys := hr.mem_keys (.inr hd)
  obtain ⟨e, he⟩ := mem_keys_iff_lookup.1 hkeys
  have hweight : base.ancWeight d = e.ancWeight := by rw [ancWeight, he, Option.elim_some]
  obtain ⟨S, hwalk, hin, hS⟩ := h.walkCached_ok hr hj hb hX
  have hpos : ∀ k ∈ S.toList, k ∉ X → AncestorState.Positive (ancRepaired base K D done k +
      (e.setStats (descRepaired base K D done d) (ancRepaired base K D done d)).ancWeight) := by
    intro k hk hkX
    have hkS : k ∈ S := mem_toList.1 hk
    have hkd := (hS k).1 ⟨hkS, hkX⟩
    have hstep := hr.ancRepaired_cons hd hdone (hin k hkS)
    rw [if_pos hkd, ancRepaired, if_pos hkd.1] at hstep
    rw [setStats_ancWeight, ← hweight, ← hstep]
    refine positive_sum_ancWeight (hin k hkS) (Finset.mem_sdiff.2 ⟨self_mem_ancestors (hin k hkS), fun hk' => ?_⟩)
    exact hr.not_mem_D hkd.1 (Finset.mem_sdiff.1 hk').1
  obtain ⟨m, cache', hok, hs, hother, hnew⟩ := updateDescendants_ok d hr.hash_eq h.stats S.nodup
    (fun k hk => hin k (mem_toList.1 hk)) hpos 0 cache
  have hsum : ((S.toList.filter (· ∉ X)).map base.descWeight).sum =
      ∑ x ∈ base.descendants d with x ∈ K, base.descWeight x := by
    rw [← sum_toFinset _ (S.nodup.filter _)]
    refine Finset.sum_congr (Finset.ext fun x => ?_) fun _ _ => rfl
    rw [List.mem_toFinset, mem_filter, decide_eq_true_eq, mem_toList, hS, Finset.mem_filter, and_comm]
  rw [hsum, zero_add] at hok
  have hdesc := descRepaired_cons base K hd hdone
  have hposd : DescendantState.Positive (descRepaired base K D done d +
      ∑ x ∈ base.descendants d with x ∈ K, base.descWeight x) := by
    have hself := congrFun hdesc d
    rw [update_self, descRepaired, if_neg fun h => h.2 mem_cons_self] at hself
    rw [← hself]
    exact positive_sum_descWeight hkeys (self_mem_descendants hkeys)
  obtain ⟨m', hm', hs'⟩ := hs.modify he (updateDescendantState_ok hposd e)
  refine ⟨_, cache', ?_, ⟨hs'.congr (fun k _ => by rw [hdesc]) fun k hk => ?_, h.links, h.parents, h.children, h.nextTx,
    h.total, fun y T hT => ?_⟩⟩
  · rw [updateForDescendants, getMemPoolChildren_ok (h.keys_eq ▸ hkeys) ((h.links d).2 hkeys)]
    simp only [bind, Except.bind, hwalk, deref_eq_ok.2 (h.stats.lookup he)]
    rw [show ((0, 0, 0) : ℤ × CAmount × ℤ) = 0 from rfl, hok]
    simp only [hm']
    rfl
  · rw [update_eq_self, hr.ancRepaired_cons hd hdone hk, hweight]
    exact if_congr (by rw [← hS k, mem_toList]) rfl rfl
  · by_cases hy : y = d
    · subst hy
      have hnone : cache.lookup y = none := by
        rw [Option.eq_none_iff_forall_ne_some]
        exact fun T hT => hdone (h.cached y T hT).1
      refine ⟨mem_cons_self, fun x => ?_⟩
      have hx := hnew x
      rwa [hT, hnone, Option.getD_some, Option.getD_none, mem_toList, hS, or_iff_right (not_mem_empty x)] at hx
    · obtain ⟨hmem, hT⟩ := h.cached y T (hother y hy ▸ hT)
      exact ⟨mem_cons_of_mem _ hmem, hT⟩

lemma Repaired.round (h : Repaired base pool K D done done cache) :
    ∃ state, updateTransactionFromBlock X (pool, cache) d = .ok state ∧
      Repaired base state.1 K D (d :: done) (d :: done) state.2 := by
  have hd : d ∈ D := hb.subset d mem_cons_self
  obtain ⟨pool₁, hlink, h₁⟩ := h.linkChildren_ok hr hX hd
  obtain ⟨pool', cache', hcount, h'⟩ := h₁.updateForDescendants_ok hr hj hb hX hdone
  have hmem : d ∈ pool.mapTx := mem_keys.1 (h.keys_eq ▸ hr.mem_keys (.inr hd))
  refine ⟨(pool', cache'), ?_, h'⟩
  rw [updateTransactionFromBlock]
  simp [if_pos hmem, ok_bind, hlink, hcount]

end

end

/-! ## The whole repair -/

section

variable {base pool : CTxMemPool} {K : Finset Uint256} {vHashes done : List Uint256} {cache : CacheMap} {X : SetEntries}

section

variable (h : ReenteredInOrder base K vHashes) {before : List Uint256}
include h

lemma ReenteredInOrder.linkedBelow (hsplit : vHashes = before ++ done) : LinkedBelow base vHashes.toFinset done where
  subset := fun y hy => List.mem_toFinset.2 (hsplit ▸ mem_append_right _ hy)
  closed := fun y hy c hc hcy => by
    have horder := h.order
    rw [List.mem_toFinset, hsplit] at hc
    rw [hsplit] at horder
    refine (mem_append.1 hc).resolve_left fun hc => ?_
    exact (pairwise_append.1 horder).2.2 c hc y hy hcy

variable (hj : Joined base K)
include hj

lemma foldlM_updateTransactionFromBlock (hX : ∀ x, x ∈ X ↔ x ∈ vHashes.toFinset)
    (hsplit : vHashes = before ++ done) (hrep : Repaired base pool K vHashes.toFinset done done cache) :
    ∃ state, before.reverse.foldlM (updateTransactionFromBlock X) (pool, cache) = .ok state ∧
      Repaired base state.1 K vHashes.toFinset vHashes vHashes state.2 := by
  induction before using reverseRecOn generalizing pool cache done with
  | nil => exact ⟨(pool, cache), rfl, by rwa [show vHashes = done from hsplit] at hrep ⊢⟩
  | append_singleton before d ih =>
    rw [append_assoc, singleton_append] at hsplit
    have hdone : d ∉ done := (nodup_cons.1 (nodup_append.1 (hsplit ▸ h.nodup)).2.1).1
    obtain ⟨state, hround, hrep₁⟩ := hrep.round h.reentered hj (h.linkedBelow hsplit) hX hdone
    obtain ⟨state', hfold, hrep'⟩ := ih hsplit hrep₁
    refine ⟨state', ?_, hrep'⟩
    rw [reverse_append, reverse_singleton, singleton_append, foldlM_cons, hround]
    exact hfold

lemma ReenteredInOrder.updateTransactionsFromBlock_ok :
    ∃ pool cache, base.updateTransactionsFromBlock vHashes = .ok pool ∧
      Repaired base pool K vHashes.toFinset vHashes vHashes cache := by
  have hX : ∀ x, x ∈ (∅ : SetEntries).insertAll vHashes ↔ x ∈ vHashes.toFinset := fun x => by
    rw [OrdSet.mem_insertAll, List.mem_toFinset, or_iff_right (not_mem_empty x)]
  obtain ⟨state, hfold, hrep⟩ :=
    foldlM_updateTransactionFromBlock h hj hX (append_nil _).symm (h.reentered.repaired hj)
  refine ⟨state.1, state.2, ?_, hrep⟩
  rw [updateTransactionsFromBlock, hfold]
  rfl

end

end

section

variable {base pool : CTxMemPool} {K D : Finset Uint256} {linked done : List Uint256} {cache : CacheMap}
  {A : Uint256 → AncestorState}

lemma HasStats.spends_eq {D : Uint256 → DescendantState} (h : HasStats base pool D A) : pool.Spends = base.Spends := by
  funext c p
  simp only [Spends, h c, Option.map_eq_some_iff, eq_iff_iff]
  constructor
  · rintro ⟨e, ⟨e₀, he₀, rfl⟩, hspends⟩
    exact ⟨e₀, he₀, hspends⟩
  · rintro ⟨e₀, he₀, hspends⟩
    exact ⟨_, ⟨e₀, he₀, rfl⟩, hspends⟩

lemma HasStats.elim_eq {D : Uint256 → DescendantState} {M : Type} (h : HasStats base pool D A) (k : Uint256) (z : M)
    {f : CTxMemPoolEntry → M} (hf : ∀ e d a, f (e.setStats d a) = f e) :
    (pool.mapTx.lookup k).elim z f = (base.mapTx.lookup k).elim z f := by
  rw [h k]
  cases base.mapTx.lookup k with
  | none => rfl
  | some e => exact hf e _ _

lemma HasStats.weight_eq {D : Uint256 → DescendantState} (h : HasStats base pool D A) :
    pool.descWeight = base.descWeight ∧ pool.ancWeight = base.ancWeight :=
  ⟨funext fun k => h.elim_eq k 0 fun _ _ _ => rfl, funext fun k => h.elim_eq k 0 fun _ _ _ => rfl⟩

lemma HasStats.representable {D : Uint256 → DescendantState} (h : HasStats base pool D A) (hr : base.Representable) :
    pool.Representable := by
  have hsize : pool.sizeOf = base.sizeOf := funext fun k => h.elim_eq k 0 fun _ _ _ => rfl
  have hfee : pool.feeOf = base.feeOf := funext fun k => h.elim_eq k 0 fun _ _ _ => rfl
  have hcost : pool.sigOpCostOf = base.sigOpCostOf := funext fun k => h.elim_eq k 0 fun _ _ _ => rfl
  rwa [Representable, h.keys_eq, hsize, hfee, hcost]

/-- **A pool repaired from end to end is exact.** -/
theorem Repaired.exact (h : Repaired base pool K D linked done cache) (hlinked : ∀ d ∈ D, d ∈ linked)
    (hdone : ∀ d ∈ D, d ∈ done) : pool.Exact := by
  have hdesc : pool.descendants = base.descendants := by
    funext k
    rw [descendants, descendants, h.keys_eq, h.stats.spends_eq]
  have hanc : pool.ancestors = base.ancestors := by
    funext k
    rw [ancestors, ancestors, h.keys_eq, h.stats.spends_eq]
  have hwithin : Within pool.Spends pool.keys = Within base.Spends base.keys := by rw [h.keys_eq, h.stats.spends_eq]
  refine exact_of_sums (fun k => by rw [h.links, h.keys_eq]) (fun k p => ?_) (fun k c => ?_) (fun k e he => ?_)
    fun k e he => ?_
  · rw [h.parents, and_iff_left fun _ hp => hlinked p hp, hwithin]
  · rw [h.children, and_iff_left fun _ hk => hlinked k hk, hwithin]
  · rw [h.stats k] at he
    obtain ⟨e₀, -, rfl⟩ := Option.map_eq_some_iff.1 he
    rw [hdesc, h.stats.weight_eq.1]
    exact if_neg fun hk => hk.2 (hdone k hk.1)
  · rw [h.stats k] at he
    obtain ⟨e₀, -, rfl⟩ := Option.map_eq_some_iff.1 he
    have hnone : D \ done.toFinset = ∅ :=
      Finset.sdiff_eq_empty_iff_subset.2 fun d hd => List.mem_toFinset.2 (hdone d hd)
    rw [setStats_withAncestors, ancRepaired, hnone, Finset.sdiff_empty, ite_self, hanc, h.stats.weight_eq.2]

end

lemma Bookkeeping.reenteredInOrder {pool : CTxMemPool} (h : pool.Bookkeeping) : ReenteredInOrder pool pool.keys [] where
  reentered := h.reentered (Finset.union_empty _).symm (.inr rfl)
  nodup := nodup_nil
  order := .nil

/-- **Reorganisations keep the books.** Transactions come back from disconnected blocks, parents first, to a pool in
which they may have children. If in the pool with all of them two relatives are related by spends that have links, or
are one that came back and a descendant that was there, and the sums over the pool fit their types, then after
`UpdateTransactionsFromBlock` links and statistics are exact. -/
theorem updateTransactionsFromBlock_restores {pool : CTxMemPool} (hpool : pool.Bookkeeping)
    {entries : List CTxMemPoolEntry} (hb : pool.ComeBack entries)
    (hadded : ∀ pool₁, entries.foldlM addUncheckedNoLimit pool = .ok pool₁ →
      pool₁.Joined pool.keys ∧ pool₁.Representable) :
    ∃ pool₁ pool₂, entries.foldlM addUncheckedNoLimit pool = .ok pool₁ ∧
      pool₁.updateTransactionsFromBlock (entries.map fun e => e.tx.hash) = .ok pool₂ ∧ pool₂.Exact ∧ pool₂.Fits := by
  obtain ⟨pool₁, hadd, h₁⟩ := foldlM_addUncheckedNoLimit hpool.reenteredInOrder hb fun d hd => absurd hd not_mem_nil
  obtain ⟨hj, hfits⟩ := hadded pool₁ hadd
  obtain ⟨pool₂, cache, hupdate, hrep⟩ := h₁.updateTransactionsFromBlock_ok hj
  have hexact := hrep.exact (fun d => List.mem_toFinset.1) fun d => List.mem_toFinset.1
  exact ⟨pool₁, pool₂, hadd, hupdate, hexact, hexact.fits (hrep.stats.representable hfits)⟩

/-- A transaction that spends the given outputs. -/
def spenderOf (hash : Uint256) (prevouts : List COutPoint) : CTransaction :=
  ⟨hash, 1, prevouts.map fun o => ⟨o, [], 0, []⟩, [⟨1, []⟩], 0⟩

/-- An entry for such a transaction. -/
def spenderEntry (hash : Uint256) (prevouts : List COutPoint) : CTxMemPoolEntry :=
  .new (spenderOf hash prevouts) 10 0 4 20

/-- Transactions 2 and 3 come back between 1 and 4. Both spend outputs of 1, as 4 does, and 4 spends 3. -/
theorem updateTransactionsFromBlock_restores_diamond : ∃ pool pool₁ pool₂,
    [addSpender 1 0, .addUnchecked (spenderOf 4 [⟨1, 2⟩, ⟨3, 0⟩]) 10 0 4 20 .none].foldlM MempoolOp.run empty = .ok pool ∧
      [spenderEntry 2 [⟨1, 0⟩], spenderEntry 3 [⟨1, 1⟩, ⟨2, 0⟩]].foldlM addUncheckedNoLimit pool = .ok pool₁ ∧
      pool₁.updateTransactionsFromBlock [2, 3] = .ok pool₂ ∧ pool₂.Exact ∧ pool₂.Fits := by
  obtain ⟨pool, hrun, hc, hkeys, pool₁, hadd, hle, hlink, hfits⟩ := exists_run
    [addSpender 1 0, .addUnchecked (spenderOf 4 [⟨1, 2⟩, ⟨3, 0⟩]) 10 0 4 20 .none]
    (fun pool => pool.keys = {1, 4} ∧ ∃ pool₁,
      [spenderEntry 2 [⟨1, 0⟩], spenderEntry 3 [⟨1, 1⟩, ⟨2, 0⟩]].foldlM addUncheckedNoLimit pool = .ok pool₁ ∧
      (∀ a ∈ pool₁.keys, ∀ b ∈ pool₁.keys, pool₁.Spends b a → a ≤ b) ∧
      (∀ a ∈ pool₁.keys, ∀ b ∈ pool₁.keys, a ≤ b → a = b ∨ (a ∉ pool.keys ∧ b ∈ pool.keys) ∨
        pool₁.Spends b a ∧ (b ∈ pool.keys → a ∈ pool.keys)) ∧ pool₁.Representable)
    (by decide +kernel) (by decide +kernel)
  have hb : pool.ComeBack [spenderEntry 2 [⟨1, 0⟩], spenderEntry 3 [⟨1, 1⟩, ⟨2, 0⟩]] := by
    refine ⟨fun e he => ?_, ?_, by decide, by decide, by decide⟩
    · fin_cases he <;> exact CTxMemPoolEntry.new_fresh ..
    · rw [hkeys]
      decide
  have hjoined : pool₁.Joined pool.keys := by
    intro a ha b hab
    have hbk : b ∈ pool₁.keys := reach_subset hab
    have hclosed : ClosedIn (swap pool₁.Spends) pool₁.keys (pool₁.keys.filter (a ≤ ·)) := fun x hx y hy hxy =>
      Finset.mem_filter.2 ⟨hy, BitVec.le_trans (Finset.mem_filter.1 hx).2 (hle x (Finset.mem_filter.1 hx).1 y hy hxy)⟩
    have hmem := hclosed.reach_subset (Finset.mem_filter.2 ⟨ha, BitVec.le_refl a⟩) hab
    rcases hlink a ha b hbk (Finset.mem_filter.1 hmem).2 with rfl | hnew | hspends
    · exact .inr (self_mem_reach ha)
    · exact .inl hnew
    · exact .inr (mem_reach_of_rel ha hbk hspends)
  obtain ⟨_, pool₂, hadd', hupdate, hexact⟩ := updateTransactionsFromBlock_restores hc.books hb fun pool' hadd' => by
    rw [hadd] at hadd'
    cases hadd'
    exact ⟨hjoined, hfits⟩
  rw [hadd] at hadd'
  cases hadd'
  exact ⟨pool, pool₁, pool₂, hrun, hadd, hupdate, hexact⟩

/-- The middle transaction of a chain comes back to the other two: the first does not count the last as its
descendant. A transaction and its child, both prioritised by the same large amount, come back: their fees together do not
fit an `int64_t`. -/
theorem updateTransactionsFromBlock_inexact :
    (∃ pool pool₁ pool₂, [addSpender 1 0, addSpender 3 2].foldlM MempoolOp.run empty = .ok pool ∧ pool.Bookkeeping ∧
      addUncheckedNoLimit pool (spenderEntry 2 [⟨1, 0⟩]) = .ok pool₁ ∧
      pool₁.updateTransactionsFromBlock [2] = .ok pool₂ ∧ ¬ pool₂.Exact) ∧
    ∃ pool pool₁ pool₂, [.prioritiseTransaction 1 6917529027641081856,
        .prioritiseTransaction 2 6917529027641081856].foldlM MempoolOp.run empty = .ok pool ∧ pool.Bookkeeping ∧
      [spenderEntry 1 [⟨0, 0⟩], spenderEntry 2 [⟨1, 0⟩]].foldlM addUncheckedNoLimit pool = .ok pool₁ ∧
      pool₁.updateTransactionsFromBlock [1, 2] = .ok pool₂ ∧ ¬ pool₂.Fits := by
  constructor
  · obtain ⟨pool, hrun, hc, pool₁, hadd, pool₂, hupdate, ⟨h₁₂, h₂₃⟩, e, he, hcount⟩ := exists_run
      [addSpender 1 0, addSpender 3 2] (fun pool => ∃ pool₁,
        addUncheckedNoLimit pool (spenderEntry 2 [⟨1, 0⟩]) = .ok pool₁ ∧ ∃ pool₂,
        pool₁.updateTransactionsFromBlock [2] = .ok pool₂ ∧ ((1 ∈ pool₂.keys ∧ 2 ∈ pool₂.keys ∧ pool₂.Spends 2 1) ∧
          2 ∈ pool₂.keys ∧ 3 ∈ pool₂.keys ∧ pool₂.Spends 3 2) ∧
        ∃ e ∈ pool₂.mapTx.lookup 1, e.nCountWithDescendants = 2) (by decide +kernel) (by decide +kernel)
    refine ⟨pool, pool₁, pool₂, hrun, hc.books, hadd, hupdate, fun hexact => ?_⟩
    replace h₁₂ : Within (swap pool₂.Spends) pool₂.keys 1 2 := h₁₂
    replace h₂₃ : Within (swap pool₂.Spends) pool₂.keys 2 3 := h₂₃
    have hsub : ({1, 2, 3} : Finset Uint256) ⊆ pool₂.descendants 1 := by
      simp only [Finset.insert_subset_iff, Finset.singleton_subset_iff, descendants, mem_reach]
      exact ⟨⟨h₁₂.1, .refl⟩, ⟨h₁₂.2.1, .single h₁₂⟩, h₂₃.2.1, .tail (.single h₁₂) h₂₃⟩
    have hcard : 3 ≤ (pool₂.descendants 1).card := Finset.card_le_card hsub
    have hdesc := (hexact.withDescendants 1 e he).1
    omega
  · obtain ⟨pool, hrun, hc, pool₁, hadd, pool₂, hupdate, e, he, hfees⟩ := exists_run
      [.prioritiseTransaction 1 6917529027641081856, .prioritiseTransaction 2 6917529027641081856] (fun pool => ∃ pool₁,
        [spenderEntry 1 [⟨0, 0⟩], spenderEntry 2 [⟨1, 0⟩]].foldlM addUncheckedNoLimit pool = .ok pool₁ ∧ ∃ pool₂,
        pool₁.updateTransactionsFromBlock [1, 2] = .ok pool₂ ∧
        ∃ e ∈ pool₂.mapTx.lookup 1, ¬ |e.nModFeesWithDescendants| < 2 ^ 63) (by decide +kernel) (by decide +kernel)
    exact ⟨pool, pool₁, pool₂, hrun, hc.books, hadd, hupdate, fun hfits => hfees (hfits.withDescendants 1 e he).2.2.2⟩

end CTxMemPool

end Soferox
