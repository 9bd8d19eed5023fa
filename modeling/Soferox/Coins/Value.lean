import Soferox.Coins.Coherent

/-!
# The value in a view

A fresh entry over a coin of the base hides it for as long as the entry is there. A block that overwrites
transactions makes such entries, so coherence can be lost; what cannot be lost is the value of the coins that are
shown and hidden together.

* `CCoinsViewCache.shadow` — the coin of the base that a fresh entry hides;
* `CCoinsViewCache.Clean` — the part of coherence that no operation can break;
* `CCoinsViewCache.Settled` — adding a coin at this outpoint keeps the stack coherent;
* `CCoinsViewCache.potential` — the value shown and hidden at an outpoint, with one lemma per operation;
* `CCoinsViewCache.totalValue` — the value of all coins shown.
-/

namespace Soferox

open AList CCoinsView Coin

variable {e : CCoinsCacheEntry}

namespace CCoinsViewCache

def shadow (v : CCoinsViewCache) (o : COutPoint) : Option Coin :=
  if (v.layer.cacheCoins.lookup o).any CCoinsCacheEntry.fresh then v.base.unspent o else none

def Clean (v : CCoinsViewCache) : Prop :=
  v.base.Coherent ∧
    ∀ o e, v.layer.cacheCoins.lookup o = some e → e.dirty = false → e.coin.unlessSpent = v.base.unspent o

def Settled (v : CCoinsViewCache) (o : COutPoint) : Prop :=
  v.base.unspent o = none ∨ ∃ e, v.layer.cacheCoins.lookup o = some e ∧ e.fresh = false

variable {v v' : CCoinsViewCache} {o : COutPoint}

lemma shadow_of_none (h : v.layer.cacheCoins.lookup o = none) : v.shadow o = none := by
  rw [shadow, h]
  rfl

lemma shadow_of_some (h : v.layer.cacheCoins.lookup o = some e) :
    v.shadow o = if e.fresh then v.base.unspent o else none := by
  rw [shadow, h]
  rfl

lemma coherent_iff : v.Coherent ↔ v.Clean ∧ ∀ o, v.shadow o = none := by
  constructor
  · intro h
    refine ⟨⟨h.2, fun o e he => (h.1 o e he).clean⟩, fun o => ?_⟩
    rcases hl : v.layer.cacheCoins.lookup o with _ | e
    · exact shadow_of_none hl
    · rw [shadow_of_some hl]
      split
      · exact (h.1 o e hl).fresh ‹_›
      · rfl
  · rintro ⟨⟨hb, hclean⟩, hshadow⟩
    refine ⟨fun o e he => ⟨fun hf => ?_, hclean o e he⟩, hb⟩
    have h := hshadow o
    rwa [shadow_of_some he, if_pos hf] at h

lemma shadow_congr (hl : v'.layer.cacheCoins.lookup o = v.layer.cacheCoins.lookup o)
    (hb : v'.base.unspent o = v.base.unspent o) : v'.shadow o = v.shadow o := by
  rw [shadow, shadow, hl, hb]

/-! ## Reading -/

/-- Two views that show, hide and promise the same; reading leads from one to the other. -/
structure SameCoins (v v' : CCoinsViewCache) : Prop where
  unspent : v'.unspent = v.unspent
  base : v'.base.unspent = v.base.unspent
  shadow : v'.shadow = v.shadow
  clean : v.Clean → v'.Clean
  settled : ∀ o, v.Settled o → v'.Settled o

namespace SameCoins

lemma refl (v : CCoinsViewCache) : SameCoins v v := ⟨rfl, rfl, rfl, id, fun _ => id⟩

lemma trans {v w u : CCoinsViewCache} (h : SameCoins v w) (h' : SameCoins w u) : SameCoins v u :=
  ⟨h'.unspent.trans h.unspent, h'.base.trans h.base, h'.shadow.trans h.shadow, fun hc => h'.clean (h.clean hc),
    fun o ho => h'.settled o (h.settled o ho)⟩

lemma coherent (h : SameCoins v v') (hv : v.Coherent) : v'.Coherent := by
  obtain ⟨hc, hs⟩ := coherent_iff.1 hv
  exact coherent_iff.2 ⟨h.clean hc, fun o => by rw [h.shadow]; exact hs o⟩

end SameCoins

/-- An entry that `FetchCoin` puts into the cache is clean, and fresh only where the base shows nothing. -/
theorem fetchCoin_new (hl : v.layer.cacheCoins.lookup o = none) (h : (v.fetchCoin o).1 = some e) :
    e.dirty = false ∧ e.coin.unlessSpent = v.base.unspent o ∧ (e.fresh = true → v.base.unspent o = none) := by
  have hg := (getCoin_spec v.base o).1
  unfold fetchCoin at h
  rw [hl] at h
  rcases hget : v.base.getCoin o with ⟨_ | tmp, base'⟩
  · rw [hget] at h
    cases h
  · rw [hget] at h hg
    cases h
    exact ⟨rfl, hg, fun hf => hg.symm.trans (unlessSpent_of_isSpent hf)⟩

lemma fetchCoin_of_some (hl : v.layer.cacheCoins.lookup o = some e) : v.fetchCoin o = (some e, v) := by
  unfold fetchCoin
  rw [hl]

section

variable (v o)

lemma fetchCoin_sameCoins : SameCoins v (v.fetchCoin o).2 := by
  obtain ⟨hun, hb⟩ := fetchCoin_unspent v o
  rcases hl : v.layer.cacheCoins.lookup o with _ | e
  · -- the only new entry is the one at `o`
    have hnew := fetchCoin_lookup v o
    refine ⟨hun, hb, ?_, fun hc => ⟨fetchCoin_base hc.1 (getCoin_coherent hc.1 o), ?_⟩, fun o' ho' => ?_⟩
    · funext o'
      by_cases ho : o' = o
      · subst ho
        rw [shadow_of_none hl]
        cases hf : (v.fetchCoin o').1 with
        | none => exact shadow_of_none (hnew.trans hf)
        | some e =>
          rw [shadow_of_some (hnew.trans hf), hb]
          split
          · exact (fetchCoin_new hl hf).2.2 ‹_›
          · rfl
      · exact shadow_congr (fetchCoin_lookup_ne v ho) (congrFun hb o')
    · intro o' e he hd
      rw [hb]
      by_cases ho : o' = o
      · subst ho
        exact (fetchCoin_new hl (hnew.symm.trans he)).2.1
      · exact hc.2 o' e ((fetchCoin_lookup_ne v ho).symm.trans he) hd
    · rcases ho' with h | ⟨e, he, hf⟩
      · exact .inl (by rw [hb]; exact h)
      · refine .inr ⟨e, ?_, hf⟩
        have ho : o' ≠ o := fun ho => by rw [ho, hl] at he; cases he
        rw [fetchCoin_lookup_ne v ho, he]
  · rw [fetchCoin_of_some hl]
    exact SameCoins.refl v

lemma haveCoin_sameCoins : SameCoins v (v.haveCoin o).2 := by
  rw [(haveCoin_spec v o).2]
  exact fetchCoin_sameCoins v o

lemma accessCoin_sameCoins : SameCoins v (v.accessCoin o).2 := by
  rw [(accessCoin_spec v o).2]
  exact fetchCoin_sameCoins v o

end

end CCoinsViewCache

lemma getBestBlock_coins (v : CCoinsView) :
    v.getBestBlock.2.unspent = v.unspent ∧ (v.Coherent → v.getBestBlock.2.Coherent) := by
  induction v with
  | db d => exact ⟨rfl, id⟩
  | cache c base ih =>
    unfold getBestBlock
    split
    · refine ⟨funext fun o => unspent_congr rfl (congrFun ih.1 o), fun h => ⟨?_, ih.2 h.2⟩⟩
      exact CacheLayer.Coherent.congr h.1 ih.1
    · exact ⟨rfl, id⟩

variable {possible_overwrite : Bool} {coin : Coin} {o' : COutPoint}

namespace CCoinsViewCache

variable {v v' : CCoinsViewCache} {o : COutPoint}

lemma getBestBlock_sameCoins (v : CCoinsViewCache) : SameCoins v v.getBestBlock.2 := by
  obtain ⟨hb, hc⟩ := getBestBlock_coins v.base
  unfold getBestBlock
  split
  · refine ⟨funext fun o => unspent_congr rfl (congrFun hb o), hb, funext fun o => shadow_congr rfl (congrFun hb o),
      fun h => ⟨hc h.1, fun o e he hd => ?_⟩, fun o ho => ?_⟩
    · rw [hb]
      exact h.2 o e he hd
    · rcases ho with h | h
      · exact .inl (by rw [hb]; exact h)
      · exact .inr h
  · exact SameCoins.refl v

lemma setBestBlock_sameCoins (v : CCoinsViewCache) (hashBlock : Uint256) : SameCoins v (v.setBestBlock hashBlock) :=
  ⟨rfl, rfl, rfl, id, fun _ => id⟩

/-! ## Writing -/

lemma spendCoin_clean (hv : v.Clean) (o : COutPoint) : (v.spendCoin o).2.Clean := by
  cases hf : (v.fetchCoin o).1 with
  | none =>
    rw [spendCoin_eq, hf]
    exact (fetchCoin_sameCoins v o).clean hv
  | some e =>
    refine ⟨?_, fun o' e' he' hd => ?_⟩
    · rw [spendCoin_base_eq]
      exact fetchCoin_base hv.1 (getCoin_coherent hv.1 o)
    · rw [spendCoin_base]
      by_cases ho : o' = o
      · subst ho
        rw [spendCoin_lookup_self hf] at he'
        split at he'
        · cases he'
        · cases he'
          cases hd
      · rw [spendCoin_lookup_ne v ho] at he'
        exact hv.2 o' e' he' hd

lemma spendCoin_settled (h : v.Settled o') (o : COutPoint) : (v.spendCoin o).2.Settled o' := by
  rcases h with h | ⟨e, he, hf⟩
  · exact .inl (by rw [spendCoin_base]; exact h)
  · by_cases ho : o' = o
    · subst ho
      refine .inr ⟨{ e with coin := empty, dirty := true }, ?_, hf⟩
      rw [spendCoin_lookup_self (by rw [fetchCoin_of_some he]), if_neg (by rw [hf]; decide)]
    · exact .inr ⟨e, (spendCoin_lookup_ne v ho).trans he, hf⟩

/-- Where `AddCoin` finds a clean spent entry the base shows nothing. -/
theorem base_of_clean_spent (hv : v.Clean) (hl : v.layer.cacheCoins.lookup o = some e)
    (hd : e.dirty = false) (hs : e.coin.isSpent = true) : v.base.unspent o = none :=
  (hv.2 o e hl hd).symm.trans (unlessSpent_of_isSpent hs)

lemma addEntry_of_some (hl : v.layer.cacheCoins.lookup o = some e) : v.addEntry o = e := by
  rw [addEntry, hl]
  rfl

lemma addEntry_of_none (hl : v.layer.cacheCoins.lookup o = none) : v.addEntry o = ⟨empty, false, false⟩ := by
  rw [addEntry, hl]
  rfl

section

variable (h : v.addCoin o coin possible_overwrite = .ok v')
include h

/-- `AddCoin` makes a fresh entry of one, or of a clean entry or none where it may not overwrite. -/
theorem addCoin_shadow_self (hu : coin.out.scriptPubKey.isUnspendable = false) : v'.shadow o =
    if (v.addEntry o).fresh || (!possible_overwrite && !(v.addEntry o).dirty) then v.base.unspent o else none := by
  obtain ⟨-, -, hb, hm⟩ := addCoin_ok h hu
  rw [shadow, hm, lookup_insert, hb]
  rfl

lemma addCoin_lookup_ne (ho : o' ≠ o) : v'.layer.cacheCoins.lookup o' = v.layer.cacheCoins.lookup o' := by
  cases hu : coin.out.scriptPubKey.isUnspendable with
  | true => rw [addCoin_unspendable h hu]
  | false => rw [(addCoin_ok h hu).2.2.2, lookup_insert_ne ho]

lemma addCoin_unspent_ne (ho : o' ≠ o) : v'.unspent o' = v.unspent o' :=
  unspent_congr (addCoin_lookup_ne h ho) (by rw [addCoin_base h])

lemma addCoin_clean (hv : v.Clean) : v'.Clean := by
  refine ⟨by rw [addCoin_base h]; exact hv.1, fun o' e he hd => ?_⟩
  rw [addCoin_base h]
  by_cases ho : o' = o
  · subst ho
    cases hu : coin.out.scriptPubKey.isUnspendable with
    | true =>
      rw [addCoin_unspendable h hu] at he
      exact hv.2 o' e he hd
    | false =>
      rw [(addCoin_ok h hu).2.2.2, lookup_insert] at he
      cases he
      cases hd
  · exact hv.2 o' e ((addCoin_lookup_ne h ho).symm.trans he) hd

lemma addCoin_settled (hv : v.Clean) (hs : v.Settled o') : v'.Settled o' := by
  rcases hs with hs | ⟨e, he, hf⟩
  · exact .inl (by rw [addCoin_base h]; exact hs)
  · by_cases ho : o' = o
    · subst ho
      cases hu : coin.out.scriptPubKey.isUnspendable with
      | true =>
        rw [addCoin_unspendable h hu]
        exact .inr ⟨e, he, hf⟩
      | false =>
        obtain ⟨-, hspent, hb, hm⟩ := addCoin_ok h hu
        rw [addEntry_of_some he] at hspent hm
        cases hfr : e.fresh || (!possible_overwrite && !e.dirty) with
        | false => exact .inr ⟨_, by rw [hm, lookup_insert], hfr⟩
        | true =>
          simp only [hf, Bool.false_or, Bool.and_eq_true, Bool.not_eq_true'] at hfr
          exact .inl (by rw [hb]; exact base_of_clean_spent hv he hfr.2 (hspent hfr.1))
    · exact .inr ⟨e, (addCoin_lookup_ne h ho).trans he, hf⟩

lemma Settled.addAllowed (hs : v.Settled o) (hu : coin.out.scriptPubKey.isUnspendable = false) :
    v.AddAllowed o possible_overwrite := by
  intro hp
  rcases hs with hs | ⟨e, he, -⟩
  · exact .inr hs
  · have hspent := (addCoin_ok h hu).2.1 hp
    rw [addEntry_of_some he] at hspent
    exact .inl (by rw [unspent, view, unspent_of_lookup_some he, unlessSpent_of_isSpent hspent])

lemma Settled.coherent (hs : v.Settled o) (hv : v.Coherent) : v'.Coherent := by
  cases hu : coin.out.scriptPubKey.isUnspendable with
  | true => rwa [addCoin_unspendable h hu]
  | false => exact addCoin_coherent h hv (hs.addAllowed h hu)

end

lemma Settled.unspent_none (hs : v.Settled o) (hu : coin.out.scriptPubKey.isUnspendable = false)
    (h : v.addCoin o coin false = .ok v') : v.unspent o = none :=
  addCoin_isSome (hs.addAllowed h hu) hu h

lemma settled_of_unspent_none (hv : v.Coherent) (h : v.unspent o = none) : v.Settled o := by
  rcases hl : v.layer.cacheCoins.lookup o with _ | e
  · rw [unspent, view, unspent_of_lookup_none hl] at h
    exact .inl h
  · cases hf : e.fresh with
    | true => exact .inl ((hv.1 o e hl).fresh hf)
    | false => exact .inr ⟨e, hl, hf⟩

/-! ## Value -/

end CCoinsViewCache

/-- The value of a coin that may not be there. -/
def coinValue : Option Coin → CAmount
  | none => 0
  | some coin => coin.out.nValue

@[simp] lemma coinValue_none : coinValue none = 0 := rfl
@[simp] lemma coinValue_some (coin : Coin) : coinValue (some coin) = coin.out.nValue := rfl

namespace CCoinsViewCache

variable {v v' : CCoinsViewCache} {o : COutPoint}

/-- The value shown and hidden at an outpoint. -/
def potential (v : CCoinsViewCache) (o : COutPoint) : CAmount := coinValue (v.unspent o) + coinValue (v.shadow o)

lemma SameCoins.potential (h : SameCoins v v') : v'.potential = v.potential := by
  funext o
  rw [CCoinsViewCache.potential, CCoinsViewCache.potential, h.unspent, h.shadow]

lemma spendCoin_potential_self (h : (v.spendCoin o).1 = some coin) :
    (v.spendCoin o).2.potential o = v.potential o - coinValue coin.unlessSpent := by
  obtain ⟨e, he, rfl⟩ := Option.map_eq_some_iff.1 ((congrArg Prod.fst (spendCoin_eq v o)).symm.trans h)
  have hun : v.unspent o = e.coin.unlessSpent := by
    rw [← fetchCoin_coin, he]
    rfl
  have hsh : v.shadow o = if e.fresh then v.base.unspent o else none := by
    rw [← (fetchCoin_sameCoins v o).shadow, shadow_of_some ((fetchCoin_lookup v o).trans he), (fetchCoin_unspent v o).2]
  have hlook := spendCoin_lookup_self he
  rw [potential, potential, spendCoin_unspent_self, he, Option.any_some, hun, hsh]
  cases hf : e.fresh with
  | true =>
    rw [hf] at hlook
    rw [shadow_of_none hlook]
    simp only [coinValue_none]
    linarith
  | false =>
    rw [hf] at hlook
    rw [shadow_of_some hlook]
    simp only [Bool.false_eq_true, if_false, coinValue_none]
    linarith

lemma spendCoin_potential_ne (v : CCoinsViewCache) {o o' : COutPoint} (h : o' ≠ o) :
    (v.spendCoin o).2.potential o' = v.potential o' := by
  rw [potential, potential, spendCoin_unspent_ne v h,
    shadow_congr (spendCoin_lookup_ne v h) (congrFun (spendCoin_base v o) o')]

variable (h : v.addCoin o coin possible_overwrite = .ok v')
include h

lemma addCoin_potential_ne (ho : o' ≠ o) : v'.potential o' = v.potential o' := by
  rw [potential, potential, addCoin_unspent_ne h ho, shadow_congr (addCoin_lookup_ne h ho) (by rw [addCoin_base h])]

/-- `AddCoin` adds at most the value of its coin, if what it may overwrite has no negative value. -/
theorem addCoin_potential_self (hv : v.Clean)
    (hval : 0 ≤ coin.out.nValue)
    (hover : possible_overwrite = true → 0 ≤ coinValue (v.unspent o)) :
    v'.potential o ≤ v.potential o + coin.out.nValue := by
  cases hu : coin.out.scriptPubKey.isUnspendable with
  | true =>
    rw [addCoin_unspendable h hu]
    linarith
  | false =>
    have hun : v'.unspent o = some coin := by
      rw [addCoin_unspent h, hu, if_neg (by decide), Function.update_self]
    have hspent := (addCoin_ok h hu).2.1
    rw [potential, potential, hun, addCoin_shadow_self h hu]
    rcases hl : v.layer.cacheCoins.lookup o with _ | e
    · have hshown : v.unspent o = v.base.unspent o := unspent_of_lookup_none hl
      rw [addEntry_of_none hl, shadow_of_none hl]
      cases possible_overwrite with
      | false => simp only [hshown, coinValue_none, coinValue_some, Bool.not_false, Bool.and_self, Bool.or_true, if_true]; linarith
      | true =>
        have := hover rfl
        simp only [coinValue_some, Bool.not_true, Bool.false_and, Bool.or_self, Bool.false_eq_true, if_false]
        linarith
    · rw [addEntry_of_some hl, shadow_of_some hl]
      rw [addEntry_of_some hl] at hspent
      cases possible_overwrite with
      | true =>
        have := hover rfl
        simp only [coinValue_some, Bool.not_true, Bool.false_and, Bool.or_false]
        linarith
      | false =>
        have hshown : v.unspent o = none :=
          (unspent_of_lookup_some hl).trans (unlessSpent_of_isSpent (hspent rfl))
        rw [hshown]
        cases hf : e.fresh with
        | true => simp only [coinValue_none, coinValue_some, Bool.true_or]; linarith
        | false =>
          cases hd : e.dirty with
          | true => simp
          | false =>
            rw [base_of_clean_spent hv hl hd (hspent rfl)]
            simp

end CCoinsViewCache

/-! ## Totals -/

/-- The outpoints that some layer of a view has an entry for. -/
def CCoinsView.outpoints : CCoinsView → List COutPoint
  | .db d => d.coins.keys
  | .cache c base => c.cacheCoins.keys ++ base.outpoints

lemma CCoinsView.unspent_of_not_mem_outpoints {v : CCoinsView} {o : COutPoint} (h : o ∉ v.outpoints) :
    v.unspent o = none := by
  induction v with
  | db d =>
    have hl : d.coins.lookup o = none := lookup_eq_none.2 h
    simp [unspent, hl]
  | cache c base ih =>
    rw [outpoints, List.mem_append, not_or] at h
    rw [unspent_of_lookup_none (lookup_eq_none.2 h.1)]
    exact ih h.2

namespace CCoinsViewCache

/-- The value of all unspent coins that a view shows. -/
def totalValue (v : CCoinsViewCache) : CAmount :=
  ∑ o ∈ v.view.outpoints.toFinset, coinValue (v.unspent o)

lemma totalValue_eq {v : CCoinsViewCache} {S : Finset COutPoint} (h : ∀ o, o ∉ S → v.unspent o = none) :
    v.totalValue = ∑ o ∈ S, coinValue (v.unspent o) := by
  have hzero : ∀ o, v.unspent o = none → coinValue (v.unspent o) = 0 := fun o ho => by rw [ho]; rfl
  have hout : ∀ o, o ∉ v.view.outpoints.toFinset → v.unspent o = none := fun o ho =>
    unspent_of_not_mem_outpoints fun hm => ho (List.mem_toFinset.2 hm)
  have hunion : ∀ T : Finset COutPoint, (∀ o, o ∉ T → v.unspent o = none) →
      ∑ o ∈ T, coinValue (v.unspent o) = ∑ o ∈ T ∪ (v.view.outpoints.toFinset ∪ S), coinValue (v.unspent o) := by
    intro T hT
    exact Finset.sum_subset Finset.subset_union_left fun o _ ho => hzero o (hT o ho)
  rw [totalValue, hunion _ hout, hunion S h]
  congr 1
  ext o
  simp only [Finset.mem_union]
  tauto

end CCoinsViewCache

end Soferox
