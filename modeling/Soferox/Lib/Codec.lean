import Soferox.Lib.StateExcept

/-!
# Readers and writers

A reader takes a value off the front of a list of symbols, or fails. `Codes get put Dom` says that `get` reads exactly
what `put` writes for the values in `Dom`: whatever it accepts was written by `put`, and what `put` writes it reads
back, whatever comes after it. Round trips, unique encodings and prefix-freeness are three readings of this.

* `Codes.get_put`, `Codes.of_get` — the two directions;
* `Codes.map` — a change of representation;
* `codes_readN`, `codes_readTake` — a number of values, and a number of symbols;
* `Reads.bind`, `reads_readN` — what a reader takes off, whatever follows, part by part;
* `Recovers.bind`, `recovers_readN` — the same for a reader that has limits which the writer does not have;
* `not_ok_of_prefix` — nothing is read from a part of what a reader reads to the end.
-/

namespace Lib

open List

variable {σ ε α β : Type}

/-- Take a value off the front of a list of symbols, or fail. -/
abbrev Reader (σ ε α : Type) := StateT (List σ) (Except ε) α

/-- `get` reads exactly what `put` writes for the values in `Dom`. -/
def Codes (get : Reader σ ε α) (put : α → List σ) (Dom : α → Prop) : Prop :=
  ∀ b a t, get b = .ok (a, t) ↔ Dom a ∧ b = put a ++ t

variable {a : α} (e : ε)

namespace Codes

variable {get : Reader σ ε α} {put : α → List σ} {Dom : α → Prop}

variable (h : Codes get put Dom)
include h

lemma get_put (ha : Dom a) (t : List σ) : get (put a ++ t) = .ok (a, t) :=
  (h _ a t).2 ⟨ha, rfl⟩

lemma of_get {b t : List σ} (hget : get b = .ok (a, t)) : Dom a ∧ b = put a ++ t :=
  (h b a t).1 hget

/-- A change of representation: `f` after reading, `g` before writing. -/
theorem map {f : α → β} {g : β → α} (hgf : ∀ a, Dom a → g (f a) = a) {Dom' : β → Prop}
    (hDom : ∀ b, Dom' b ↔ Dom (g b) ∧ f (g b) = b) : Codes (f <$> get) (fun b => put (g b)) Dom' := by
  intro s b t
  rw [map_eq_pure_bind, run_bind_eq_ok]
  constructor
  · rintro ⟨a, s', hget, hpure⟩
    obtain ⟨rfl, rfl⟩ := run_pure_eq_ok.1 hpure
    obtain ⟨ha, rfl⟩ := h.of_get hget
    have hback := hgf a ha
    refine ⟨(hDom (f a)).2 ⟨hback.symm ▸ ha, congrArg f hback⟩, ?_⟩
    show put a ++ s' = put (g (f a)) ++ s'
    rw [hback]
  · rintro ⟨hb, rfl⟩
    obtain ⟨hg, hfg⟩ := (hDom b).1 hb
    exact ⟨g b, t, h.get_put hg t, run_pure_eq_ok.2 ⟨hfg, rfl⟩⟩

lemma guard {P : α → Prop} [DecidablePred P] :
    Codes (do let a ← get; ensure (P a) e; return a) put (fun a => P a ∧ Dom a) := by
  intro b a t
  simp only [run_bind_eq_ok, run_ensure_eq_ok, run_pure_eq_ok, decide_eq_true_iff]
  constructor
  · rintro ⟨a, b₁, hget, u, b₂, ⟨ha, rfl⟩, rfl, rfl⟩
    obtain ⟨hDom, rfl⟩ := h.of_get hget
    exact ⟨⟨ha, hDom⟩, rfl⟩
  · rintro ⟨⟨ha, hDom⟩, rfl⟩
    exact ⟨a, t, h.get_put hDom t, (), t, ⟨ha, rfl⟩, rfl, rfl⟩

end Codes

/-! ## Many values -/

/-- `n` values, one after the other. -/
def readN (get : Reader σ ε α) : ℕ → Reader σ ε (List α)
  | 0 => pure []
  | n + 1 => do
    let a ← get
    let as ← readN get n
    return a :: as

variable {get : Reader σ ε α} {put : α → List σ} {Dom : α → Prop}

lemma codes_readN (h : Codes get put Dom) (n : ℕ) :
    Codes (readN get n) (fun as => as.flatMap put) (fun as => as.length = n ∧ ∀ a ∈ as, Dom a) := by
  induction n with
  | zero =>
    intro b as t
    rw [readN, run_pure_eq_ok]
    constructor
    · rintro ⟨rfl, rfl⟩
      exact ⟨⟨rfl, by simp⟩, rfl⟩
    · rintro ⟨⟨hlen, -⟩, rfl⟩
      obtain rfl := length_eq_zero_iff.1 hlen
      exact ⟨rfl, rfl⟩
  | succ n ih =>
    intro b as t
    simp only [readN, run_bind_eq_ok, run_pure_eq_ok]
    constructor
    · rintro ⟨a, b₁, hget, as', b₂, hrest, rfl, rfl⟩
      obtain ⟨ha, rfl⟩ := h.of_get hget
      obtain ⟨⟨rfl, has⟩, rfl⟩ := ih.of_get hrest
      exact ⟨⟨rfl, forall_mem_cons.2 ⟨ha, has⟩⟩, by rw [flatMap_cons, append_assoc]⟩
    · rintro ⟨⟨hlen, hall⟩, rfl⟩
      cases as with
      | nil => cases hlen
      | cons a as =>
        obtain ⟨ha, has⟩ := forall_mem_cons.1 hall
        rw [flatMap_cons, append_assoc]
        exact ⟨a, _, h.get_put ha _, as, _, ih.get_put ⟨Nat.succ.inj hlen, has⟩ t, rfl, rfl⟩

/-- `n` symbols as they are; `e` when there are fewer. -/
def readTake (e : ε) (n : ℕ) : Reader σ ε (List σ) := fun b =>
  if n ≤ b.length then .ok (b.take n, b.drop n) else .error e

lemma codes_readTake (n : ℕ) : Codes (readTake e n : Reader σ ε (List σ)) (fun w => w) (fun w => w.length = n) := by
  intro b w t
  rw [readTake]
  constructor
  · intro h
    split at h
    · rename_i hle
      obtain ⟨rfl, rfl⟩ := h
      exact ⟨length_take_of_le hle, (take_append_drop n b).symm⟩
    · cases h
  · rintro ⟨rfl, rfl⟩
    rw [if_pos (by simp), take_left, drop_left]

/-! ## Parts -/

/-- `get` takes `a` off `w`, whatever follows. -/
def Reads (get : Reader σ ε α) (w : List σ) (a : α) : Prop := ∀ t, get (w ++ t) = .ok (a, t)

lemma Codes.reads (h : Codes get put Dom) (ha : Dom a) : Reads get (put a) a := h.get_put ha

lemma Reads.pure (a : α) : Reads (pure a : Reader σ ε α) [] a := fun _ => rfl

lemma Reads.bind {k : α → Reader σ ε β} {w w' : List σ} {b : β} (h : Reads get w a)
    (h' : Reads (k a) w' b) : Reads (get >>= k) (w ++ w') b := by
  intro t
  rw [append_assoc, run_bind_eq_ok]
  exact ⟨a, w' ++ t, h _, h' t⟩

variable {w : List σ} {k : Unit → Reader σ ε α} {f : β → α} {bs : List β} {b : Bool} {e : ε}

lemma Reads.ensure (hb : b = true) (h : Reads (k ()) w a) : Reads (ensure b e >>= k) w a := by
  intro t
  rw [run_bind_eq_ok]
  exact ⟨(), w ++ t, run_ensure_eq_ok.2 ⟨hb, rfl⟩, h t⟩

lemma Reads.map (h : Reads get w a) (f : α → β) : Reads (f <$> get) w (f a) := by
  intro t
  rw [map_eq_pure_bind, run_bind_eq_ok]
  exact ⟨a, t, h t, rfl⟩

lemma reads_readN {put : β → List σ}
    (h : ∀ b ∈ bs, Reads get (put b) (f b)) : Reads (readN get bs.length) (bs.flatMap put) (bs.map f) := by
  induction bs with
  | nil => exact Reads.pure []
  | cons b bs ih =>
    refine (h b mem_cons_self).bind ?_
    exact (ih fun b' hb' => h b' (mem_cons_of_mem b hb')).map (f b :: ·)

/-! ## What may not be readable -/

/-- Whatever `get` takes off `w` is `a`: it may fail, when `w` is beyond its limits. -/
def Recovers (get : Reader σ ε α) (w : List σ) (a : α) : Prop := ∀ t b u, get (w ++ t) = .ok (b, u) → b = a ∧ u = t

lemma Reads.recovers (h : Reads get w a) : Recovers get w a := by
  intro t b u hget
  rw [h t] at hget
  cases hget
  exact ⟨rfl, rfl⟩

lemma Recovers.bind {k : α → Reader σ ε β} {w w' : List σ} {b : β} (h : Recovers get w a)
    (h' : Recovers (k a) w' b) : Recovers (get >>= k) (w ++ w') b := by
  intro t c u hget
  rw [append_assoc] at hget
  obtain ⟨a', v, hfirst, hrest⟩ := run_bind_eq_ok.1 hget
  obtain ⟨rfl, rfl⟩ := h _ _ _ hfirst
  exact h' _ _ _ hrest

lemma Recovers.ensure (h : Recovers (k ()) w a) : Recovers (ensure b e >>= k) w a := by
  intro t c u hget
  obtain ⟨_, v, hfirst, hrest⟩ := run_bind_eq_ok.1 hget
  obtain ⟨-, rfl⟩ := run_ensure_eq_ok.1 hfirst
  exact h _ _ _ hrest

lemma Recovers.map (h : Recovers get w a) (f : α → β) : Recovers (f <$> get) w (f a) := by
  intro t b u hget
  rw [map_eq_pure_bind] at hget
  obtain ⟨a', v, hfirst, hpure⟩ := run_bind_eq_ok.1 hget
  obtain ⟨rfl, rfl⟩ := h _ _ _ hfirst
  obtain ⟨rfl, rfl⟩ := run_pure_eq_ok.1 hpure
  exact ⟨rfl, rfl⟩

lemma recovers_readN {put : β → List σ}
    (h : ∀ b ∈ bs, Recovers get (put b) (f b)) : Recovers (readN get bs.length) (bs.flatMap put) (bs.map f) := by
  induction bs with
  | nil => exact (Reads.pure []).recovers
  | cons b bs ih =>
    refine (h b mem_cons_self).bind ?_
    exact (ih fun b' hb' => h b' (mem_cons_of_mem b hb')).map (f b :: ·)

/-! ## Prefixes -/

/-- A reader that reads on whatever comes after what it has read. -/
def Extends (get : Reader σ ε α) : Prop := ∀ b a t u, get b = .ok (a, t) → get (b ++ u) = .ok (a, t ++ u)

/-- Nothing is read from a part of what a reader reads to the end. -/
theorem not_ok_of_prefix (h : Extends get) {w p : List σ} (hget : get w = .ok (a, []))
    (hpre : p <+: w) (hne : p ≠ w) (r : α × List σ) : get p ≠ .ok r := by
  obtain ⟨u, rfl⟩ := hpre
  intro hp
  have hext := h p r.1 r.2 u hp
  rw [hget, Except.ok.injEq, Prod.mk.injEq] at hext
  obtain ⟨-, rfl⟩ := append_eq_nil_iff.1 hext.2.symm
  exact hne (append_nil p).symm

end Lib
