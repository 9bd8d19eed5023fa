import Soferox.Lib.Reach
import Soferox.Mempool.Pool

/-!
# What the walks over the links collect

`CalculateDescendants` and `CalculateMemPoolAncestors` follow `mapLinks` with a worklist. When the links of every entry
lead to entries, both end within one round per entry (`calculateDescendants_ok`, `calculateMemPoolAncestors_ok`) and
collect exactly what can be reached; with package limits the second one may stop earlier, with an error
(`calculateMemPoolAncestors_cases`).
-/

namespace Soferox

open Lib Relation OrdSet List

namespace CTxMemPool

/-- The ids of the transactions in the pool. -/
def keys (pool : CTxMemPool) : Finset Uint256 := pool.mapTx.keys.toFinset

/-- A test of all entries; the instance found without this one tests all bit vectors. -/
instance {pool : CTxMemPool} {p : Uint256 → Prop} [DecidablePred p] : Decidable (∀ k ∈ pool.keys, p k) :=
  Finset.decidableDforallFinset

variable {pool : CTxMemPool} {k : Uint256} {e : CTxMemPoolEntry}

lemma mem_keys : k ∈ pool.keys ↔ k ∈ pool.mapTx := by
  rw [keys, List.mem_toFinset, AList.mem_keys]

lemma mem_keys_iff_lookup : k ∈ pool.keys ↔ ∃ e, pool.mapTx.lookup k = some e := by
  rw [mem_keys, ← AList.lookup_isSome, Option.isSome_iff_exists]

lemma mem_keys_of_lookup (h : pool.mapTx.lookup k = some e) : k ∈ pool.keys := mem_keys_iff_lookup.2 ⟨e, h⟩

lemma card_keys (pool : CTxMemPool) : pool.keys.card = pool.mapTx.entries.length := by
  rw [keys, toFinset_card_of_nodup pool.mapTx.keys_nodup, AList.keys, List.keys, length_map]

variable {it : Uint256} {seen stage : SetEntries}

lemma deref_eq_ok : pool.deref it = .ok e ↔ pool.mapTx.lookup it = some e := by
  unfold deref
  cases pool.mapTx.lookup it with
  | none => simp
  | some e' => simp

/-- Every entry has links, and its parents are entries. -/
def ParentsLinked (pool : CTxMemPool) : Prop :=
  ∀ k ∈ pool.keys, k ∈ pool.mapLinks ∧ ∀ p ∈ (pool.linksOf k).parents, p ∈ pool.keys

/-- Every entry has links, and its children are entries. -/
def ChildrenLinked (pool : CTxMemPool) : Prop :=
  ∀ k ∈ pool.keys, k ∈ pool.mapLinks ∧ ∀ c ∈ (pool.linksOf k).children, c ∈ pool.keys

lemma getMemPoolParents_ok (hk : k ∈ pool.keys) (hl : k ∈ pool.mapLinks) :
    pool.getMemPoolParents k = .ok (pool.linksOf k).parents := by
  obtain ⟨e, he⟩ := mem_keys_iff_lookup.1 hk
  obtain ⟨l, hl⟩ := Option.isSome_iff_exists.1 (AList.lookup_isSome.2 hl)
  rw [getMemPoolParents, linksOf, he, hl, Option.getD_some]

lemma getMemPoolChildren_ok (hk : k ∈ pool.keys) (hl : k ∈ pool.mapLinks) :
    pool.getMemPoolChildren k = .ok (pool.linksOf k).children := by
  obtain ⟨e, he⟩ := mem_keys_iff_lookup.1 hk
  obtain ⟨l, hl⟩ := Option.isSome_iff_exists.1 (AList.lookup_isSome.2 hl)
  rw [getMemPoolChildren, linksOf, he, hl, Option.getD_some]

/-! ## Descendants -/

def LinkedChild (pool : CTxMemPool) (a b : Uint256) : Prop := b ∈ (pool.linksOf a).children
def LinkedParent (pool : CTxMemPool) (a b : Uint256) : Prop := b ∈ (pool.linksOf a).parents

section

variable {pool : CTxMemPool} {roots : Set Uint256} {fuel : ℕ}

section

variable (hl : pool.ChildrenLinked)
include hl

lemma walkDescendants_ok (hF : Frontier pool.LinkedChild roots {x | x ∈ seen} {x | x ∈ stage})
    (hst : ∀ x ∈ stage, x ∈ pool.keys) (hfuel : unseen pool.keys {x | x ∈ seen} ≤ fuel) :
    ∃ S, pool.walkDescendants fuel stage seen = .ok S ∧ ∀ x, x ∈ S ↔ ∃ r ∈ roots, ReflTransGen pool.LinkedChild r x := by
  induction fuel generalizing stage seen <;> cases hlist : stage.toList
  case zero.nil | succ.nil =>
    exact ⟨seen, walkDescendants.eq_1 _ _ _ _ hlist, fun x => hF.mem_iff (toList_eq_nil_iff.1 hlist)⟩
  case zero.cons it rest =>
    have hit : it ∈ stage := mem_toList.1 (hlist ▸ mem_cons_self)
    exact absurd hfuel (not_le.2 (unseen_pos (hst it hit) (hF.fresh it hit)))
  case succ.cons fuel ih it rest =>
    have hit : it ∈ stage := mem_toList.1 (hlist ▸ mem_cons_self)
    have hk := hst it hit
    obtain ⟨hlinks, hchildren⟩ := hl it hk
    rw [walkDescendants.eq_3 _ _ _ _ _ _ hlist, getMemPoolChildren_ok hk hlinks]
    have hseen : ∀ x, x ∈ {x | x ∈ seen.insert it} ↔ x = it ∨ x ∈ {x | x ∈ seen} := fun x => mem_insert
    refine ih (hF.visit hit hseen fun x => ?_) (fun x hx => ?_) ?_
    · simp [mem_toList, LinkedChild]
    · rw [OrdSet.mem_insertAll, mem_erase, mem_filter] at hx
      rcases hx with hx | hx
      · exact hst x hx.2
      · exact hchildren x hx.1
    · have := unseen_lt hk (hF.fresh it hit) hseen
      omega

lemma calculateDescendants_ok (hit : it ∈ pool.keys)
    (hseen : ∀ x, x ∈ seen ↔ ∃ r ∈ roots, ReflTransGen pool.LinkedChild r x) :
    ∃ S, pool.calculateDescendants it seen = .ok S ∧
      ∀ x, x ∈ S ↔ ∃ r ∈ insert it roots, ReflTransGen pool.LinkedChild r x := by
  have hclosed : ∀ x ∈ seen, ∀ y, pool.LinkedChild x y → y ∈ seen := by
    intro x hx y hxy
    obtain ⟨r, hr, hrx⟩ := (hseen x).1 hx
    exact (hseen y).2 ⟨r, hr, hrx.tail hxy⟩
  have hfuel : unseen pool.keys {x | x ∈ seen} ≤ pool.mapTx.entries.length := pool.card_keys ▸ unseen_le_card
  set stage : SetEntries := if it ∈ seen then ∅ else OrdSet.insert ∅ it with hdef
  have hstage : ∀ x, x ∈ stage ↔ x = it ∧ it ∉ seen := by
    rw [hdef]
    by_cases hmem : it ∈ seen <;> simp [hmem]
  refine walkDescendants_ok hl ⟨?_, ?_, subset_rfl, fun x hx hxs => absurd hx hxs,
    fun x hx y hxy => .inl (hclosed x hx y hxy), ?_⟩ ?_ hfuel
  · rintro x (hx | hx)
    · obtain ⟨r, hr, hrx⟩ := (hseen x).1 hx
      exact ⟨r, Set.mem_insert_of_mem _ hr, hrx⟩
    · exact ⟨it, Set.mem_insert .., ((hstage x).1 hx).1 ▸ .refl⟩
  · rintro r (rfl | hr)
    · by_cases hmem : r ∈ seen
      · exact .inl hmem
      · exact .inr ((hstage r).2 ⟨rfl, hmem⟩)
    · exact .inl ((hseen r).2 ⟨r, hr, .refl⟩)
  · intro x hx
    obtain ⟨rfl, hmem⟩ := (hstage x).1 hx
    exact hmem
  · intro x hx
    exact ((hstage x).1 hx).1 ▸ hit

lemma calculateDescendants_empty (hit : it ∈ pool.keys) :
    ∃ S, pool.calculateDescendants it ∅ = .ok S ∧ ∀ x, x ∈ S ↔ ReflTransGen pool.LinkedChild it x := by
  have hseen : ∀ x, x ∈ (∅ : SetEntries) ↔ ∃ r ∈ (∅ : Set Uint256), ReflTransGen pool.LinkedChild r x := by simp
  obtain ⟨S, hS, hmem⟩ := calculateDescendants_ok hl hit hseen
  refine ⟨S, hS, fun x => ?_⟩
  rw [hmem]
  simp

lemma calculateAllDescendants_ok {l : List Uint256} (hin : ∀ k ∈ l, k ∈ pool.keys) :
    ∃ S, pool.calculateAllDescendants l = .ok S ∧ ∀ x, x ∈ S ↔ ∃ r ∈ l, ReflTransGen pool.LinkedChild r x := by
  have hloop : ∀ (l : List Uint256) (roots : Set Uint256) (seen : SetEntries), (∀ k ∈ l, k ∈ pool.keys) →
      (∀ x, x ∈ seen ↔ ∃ r ∈ roots, ReflTransGen pool.LinkedChild r x) →
      ∃ S, l.foldlM (fun setAllRemoves it => pool.calculateDescendants it setAllRemoves) seen = .ok S ∧
        ∀ x, x ∈ S ↔ ∃ r ∈ {r | r ∈ l} ∪ roots, ReflTransGen pool.LinkedChild r x := by
    intro l
    induction l with
    | nil =>
      intro roots seen _ hseen
      refine ⟨seen, rfl, fun x => ?_⟩
      simpa using hseen x
    | cons it l ih =>
      intro roots seen hin hseen
      obtain ⟨S, hS, hmem⟩ := calculateDescendants_ok hl (hin it mem_cons_self) hseen
      obtain ⟨T, hT, hmemT⟩ := ih (insert it roots) S (fun k hk => hin k (mem_cons_of_mem _ hk)) hmem
      refine ⟨T, by rw [foldlM_cons, hS]; exact hT, fun x => (hmemT x).trans ?_⟩
      refine exists_congr fun r => and_congr_left fun _ => ?_
      simp only [Set.mem_union, Set.mem_ofPred_eq, Set.mem_insert_iff, mem_cons]
      tauto
  obtain ⟨S, hS, hmem⟩ := hloop l ∅ ∅ hin fun x => by simp
  exact ⟨S, hS, fun x => by simpa using hmem x⟩

end

/-! ## Ancestors -/

variable (n : ℤ) (limits : PackageLimits) (entry : CTxMemPoolEntry)

lemma checkAncestor_cases (stage : CTxMemPoolEntry) (it : Uint256) (total : ℤ) :
    checkAncestor limits entry it stage total = .ok () ∨ ∃ l, checkAncestor limits entry it stage total = .error (.limit l) := by
  unfold checkAncestor
  split_ifs <;> simp

lemma scheduleParents_cases (seen : SetEntries) (l : List Uint256) (stage : SetEntries) :
    (∃ T, scheduleParents limits seen l stage = .ok T ∧ ∀ x, x ∈ T ↔ x ∈ stage ∨ (x ∈ l ∧ x ∉ seen)) ∨
      ∃ e, scheduleParents limits seen l stage = .error (.limit e) := by
  induction l generalizing stage with
  | nil => exact .inl ⟨stage, rfl, fun x => by simp⟩
  | cons p l ih =>
    simp only [scheduleParents]
    set stage' := if p ∈ seen then stage else stage.insert p with hdef
    by_cases hlim : uint64 (stage'.size + seen.size + 1) > limits.limitAncestorCount
    · exact .inr ⟨_, if_pos hlim⟩
    rw [if_neg hlim]
    rcases ih stage' with ⟨T, hT, hmem⟩ | h
    · refine .inl ⟨T, hT, fun x => (hmem x).trans ?_⟩
      rw [hdef]
      by_cases hp : p ∈ seen
      · rw [if_pos hp, mem_cons]
        exact skip_iff fun hx => not_not.2 (hx ▸ hp)
      · rw [if_neg hp, mem_insert, mem_cons]
        exact collect_iff fun hx => hx ▸ hp
    · exact .inr h

lemma walkAncestors_cases (hl : pool.ParentsLinked) (limits : PackageLimits) (entry : CTxMemPoolEntry)
    (hF : Frontier pool.LinkedParent roots {x | x ∈ seen} {x | x ∈ stage}) (hst : ∀ x ∈ stage, x ∈ pool.keys)
    (hfuel : unseen pool.keys {x | x ∈ seen} ≤ fuel) (total : ℤ) :
    (∃ S, pool.walkAncestors limits entry fuel stage seen total = .ok S ∧
      ∀ x, x ∈ S ↔ ∃ r ∈ roots, ReflTransGen pool.LinkedParent r x) ∨
    ∃ l, pool.walkAncestors limits entry fuel stage seen total = .error (.limit l) := by
  induction fuel generalizing stage seen total <;> cases hlist : stage.toList
  case zero.nil | succ.nil =>
    exact .inl ⟨seen, walkAncestors.eq_1 _ _ _ _ _ _ _ hlist, fun x => hF.mem_iff (toList_eq_nil_iff.1 hlist)⟩
  case zero.cons it rest =>
    have hit : it ∈ stage := mem_toList.1 (hlist ▸ mem_cons_self)
    exact absurd hfuel (not_le.2 (unseen_pos (hst it hit) (hF.fresh it hit)))
  case succ.cons fuel ih it rest =>
    have hit : it ∈ stage := mem_toList.1 (hlist ▸ mem_cons_self)
    have hk := hst it hit
    obtain ⟨hlinks, hparents⟩ := hl it hk
    obtain ⟨e, he⟩ := mem_keys_iff_lookup.1 hk
    rw [walkAncestors.eq_3 _ _ _ _ _ _ _ _ _ hlist, deref_eq_ok.2 he, getMemPoolParents_ok hk hlinks]
    have hseen : ∀ x, x ∈ {x | x ∈ seen.insert it} ↔ x = it ∨ x ∈ {x | x ∈ seen} := fun x => mem_insert
    rcases checkAncestor_cases limits entry e it (uint64 (total + e.getTxSize)) with hc | ⟨l, hc⟩
    swap
    · exact .inr ⟨l, by simp [bind, Except.bind, hc]⟩
    rcases scheduleParents_cases limits (seen.insert it) (pool.linksOf it).parents.toList (stage.erase it) with
      ⟨T, hT, hmem⟩ | ⟨l, hT⟩
    swap
    · exact .inr ⟨l, by simp [bind, Except.bind, hc, hT]⟩
    simp only [bind, Except.bind, hc, hT]
    refine ih (hF.visit hit hseen fun x => ?_) (fun x hx => ?_) ?_ _
    · simp [hmem, mem_toList, LinkedParent]
    · rcases (hmem x).1 hx with hx | hx
      · exact hst x (mem_erase.1 hx).2
      · exact hparents x hx.1
    · have := unseen_lt hk (hF.fresh it hit) hseen
      omega

lemma walkAncestors_start (hl : pool.ParentsLinked) (limits : PackageLimits) (entry : CTxMemPoolEntry)
    (hst : ∀ x ∈ stage, x ∈ pool.keys) (total : ℤ) :
    (∃ S, pool.walkAncestors limits entry pool.mapTx.entries.length stage ∅ total = .ok S ∧
      ∀ x, x ∈ S ↔ ∃ r ∈ stage, ReflTransGen pool.LinkedParent r x) ∨
    ∃ l, pool.walkAncestors limits entry pool.mapTx.entries.length stage ∅ total = .error (.limit l) := by
  have hempty : {x | x ∈ (∅ : SetEntries)} = (∅ : Set Uint256) := Set.eq_empty_of_forall_notMem not_mem_empty
  refine walkAncestors_cases hl limits entry ?_ hst (pool.card_keys ▸ unseen_le_card) total
  rw [hempty]
  exact CachedFrontier.start {x | x ∈ stage} Set.univ

lemma searchParents_cases (pool : CTxMemPool) (limits : PackageLimits) (vin : List CTxIn) (stage : SetEntries) :
    (∃ T, pool.searchParents limits vin stage = .ok T ∧
      ∀ x, x ∈ T ↔ x ∈ stage ∨ (x ∈ pool.keys ∧ ∃ txin ∈ vin, txin.prevout.hash = x)) ∨
    ∃ l, pool.searchParents limits vin stage = .error (.limit l) := by
  induction vin generalizing stage with
  | nil => exact .inl ⟨stage, rfl, fun x => by simp⟩
  | cons txin vin ih =>
    simp only [searchParents]
    by_cases hin : txin.prevout.hash ∈ pool.mapTx
    · rw [if_pos hin]
      split
      · exact .inr ⟨_, rfl⟩
      refine (ih _).imp_left (Exists.imp fun T hT => ⟨hT.1, fun x => (hT.2 x).trans ?_⟩)
      simp only [mem_insert, mem_cons, exists_eq_or_imp, eq_comm (a := x), and_comm (a := x ∈ pool.keys)]
      exact collect_iff fun hx => hx ▸ mem_keys.2 hin
    · rw [if_neg hin]
      refine (ih stage).imp_left (Exists.imp fun T hT => ⟨hT.1, fun x => (hT.2 x).trans ?_⟩)
      simp only [mem_cons, exists_eq_or_imp, and_comm (a := x ∈ pool.keys)]
      exact skip_iff fun hx hk => hin (mem_keys.1 (hx ▸ hk))

/-- **`CalculateMemPoolAncestors`** for a transaction about to be added: the entries it spends from and all their
ancestors, or a limit is exceeded. -/
theorem calculateMemPoolAncestors_cases (hl : pool.ParentsLinked) (entry : CTxMemPoolEntry) (limits : PackageLimits) :
    (∃ S, pool.calculateMemPoolAncestors entry limits true = .ok S ∧
      ∀ x, x ∈ S ↔ ∃ p ∈ pool.keys, (∃ o ∈ entry.tx.prevouts, o.hash = p) ∧ ReflTransGen pool.LinkedParent p x) ∨
    ∃ l, pool.calculateMemPoolAncestors entry limits true = .error (.limit l) := by
  unfold calculateMemPoolAncestors
  rcases searchParents_cases pool limits entry.tx.vin ∅ with ⟨T, hT, hmem⟩ | ⟨l, hT⟩
  swap
  · exact .inr ⟨l, by rw [hT]; rfl⟩
  have hin : ∀ x, x ∈ T ↔ x ∈ pool.keys ∧ ∃ o ∈ entry.tx.prevouts, o.hash = x := fun x => by
    simp [hmem, CTransaction.prevouts]
  rcases walkAncestors_start hl limits entry (fun x hx => ((hin x).1 hx).1) entry.getTxSize with
    ⟨S, hS, hS'⟩ | ⟨l, hS⟩
  · refine .inl ⟨S, by rw [hT]; exact hS, fun x => (hS' x).trans (exists_congr fun p => ?_)⟩
    rw [hin, and_assoc]
  · exact .inr ⟨l, by rw [hT]; exact hS⟩

lemma uint64_le : uint64 n ≤ 2 ^ 64 - 1 := by
  unfold uint64
  omega

lemma not_uint64_gt : ¬ uint64 n > ((2 ^ 64 - 1 : ℕ) : ℤ) := by
  have := uint64_le n
  omega

lemma searchParents_ne_limit (vin : List CTxIn) (stage : SetEntries) (l : ChainLimit) :
    pool.searchParents .none vin stage ≠ .error (.limit l) := by
  induction vin generalizing stage with
  | nil => simp [searchParents]
  | cons txin vin ih =>
    rw [searchParents]
    split_ifs with hin
    · exact (if_neg (not_uint64_gt _)).trans_ne (ih _)
    · exact ih _

lemma walkAncestors_ne_limit (fuel : ℕ) (stage seen : SetEntries) (total : ℤ) (l : ChainLimit) :
    pool.walkAncestors .none entry fuel stage seen total ≠ .error (.limit l) := by
  have hcheck : ∀ it e n, checkAncestor .none entry it e (uint64 n) = .ok () := fun it e n => by
    exact (if_neg (not_uint64_gt _)).trans ((if_neg (not_uint64_gt _)).trans (if_neg (not_uint64_gt _)))
  have hsched : ∀ (seen : SetEntries) l stage, ∃ T, scheduleParents .none seen l stage = .ok T := fun seen l => by
    induction l with
    | nil => exact fun stage => ⟨stage, rfl⟩
    | cons p l ih =>
      intro stage
      obtain ⟨T, hT⟩ := ih (if p ∈ seen then stage else stage.insert p)
      exact ⟨T, (if_neg (not_uint64_gt _)).trans hT⟩
  induction fuel generalizing stage seen total with
  | zero =>
    cases hlist : stage.toList with
    | nil => simp [walkAncestors.eq_1 _ _ _ _ _ _ _ hlist]
    | cons it rest => simp [walkAncestors.eq_2 _ _ _ _ _ _ _ _ hlist]
  | succ fuel ih =>
    cases hlist : stage.toList with
    | nil => simp [walkAncestors.eq_1 _ _ _ _ _ _ _ hlist]
    | cons it rest =>
      rw [walkAncestors.eq_3 _ _ _ _ _ _ _ _ _ hlist]
      unfold deref getMemPoolParents
      cases he : pool.mapTx.lookup it with
      | none => simp [bind, Except.bind]
      | some e =>
        cases hli : pool.mapLinks.lookup it with
        | none => simp [bind, Except.bind, hcheck]
        | some links =>
          obtain ⟨T, hT⟩ := hsched (seen.insert it) links.parents.toList (stage.erase it)
          simp only [bind, Except.bind, hcheck, hT]
          exact ih _ _ _

lemma calculateMemPoolAncestors_ok (hl : pool.ParentsLinked) {entry : CTxMemPoolEntry} (hk : entry.tx.hash ∈ pool.keys) :
    ∃ S, pool.calculateMemPoolAncestors entry .none false = .ok S ∧
      ∀ x, x ∈ S ↔ TransGen pool.LinkedParent entry.tx.hash x := by
  unfold calculateMemPoolAncestors
  rw [if_neg Bool.false_ne_true, getMemPoolParents_ok hk (hl _ hk).1]
  rcases walkAncestors_start hl .none entry (hl _ hk).2 entry.getTxSize with ⟨S, hS, hmem⟩ | ⟨l, hS⟩
  · exact ⟨S, hS, fun x => (hmem x).trans (TransGen.head'_iff (r := pool.LinkedParent)).symm⟩
  · exact absurd hS (walkAncestors_ne_limit _ _ _ _ _ _)

lemma calculateMemPoolAncestors_new (hl : pool.ParentsLinked) (entry : CTxMemPoolEntry) :
    ∃ S, pool.calculateMemPoolAncestors entry .none true = .ok S ∧
      ∀ x, x ∈ S ↔ ∃ p ∈ pool.keys, (∃ o ∈ entry.tx.prevouts, o.hash = p) ∧ ReflTransGen pool.LinkedParent p x := by
  refine (calculateMemPoolAncestors_cases hl entry .none).resolve_right ?_
  rintro ⟨l, hlim⟩
  rw [calculateMemPoolAncestors, if_pos rfl] at hlim
  cases hsearch : pool.searchParents .none entry.tx.vin ∅ with
  | error err =>
    rw [hsearch] at hlim
    cases hlim
    exact searchParents_ne_limit _ _ _ hsearch
  | ok T =>
    rw [hsearch] at hlim
    exact walkAncestors_ne_limit _ _ _ _ _ _ hlim

end

end CTxMemPool

end Soferox
