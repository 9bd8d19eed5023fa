import Soferox.Chain.VersionBits
import Soferox.Consensus.Merkle
import Soferox.Primitives.Serialize
import Soferox.Validation.Block
import Soferox.Validation.TimeLocks

/-!
# Contextual block checks and witness commitments

`validation.cpp`: `ContextualCheckBlock`, `GetWitnessCommitmentIndex`, `UpdateUncommittedBlockStructures` and
`GenerateCoinbaseCommitment`, with `BlockWitnessMerkleRoot`. The hash functions are parameters.

* `generateCoinbaseCommitment_eq` — what is generated for a block without a commitment;
* `checkWitness_of_commitsTo` — the witness checks on a block with a commitment;
* `witnessLeaves_eq_of_root_eq` — the root determines the witness hashes, where the hash has no collision;
* `generateCoinbaseCommitment_binds` — so what is generated passes the checks, and a changed witness is noticed;
* `contextualCheckBlock_defined_iff` — for which blocks and deployments a null `pindexPrev` is not followed;
* `coinbase_ne_of_height_ne` — blocks at different heights have different coinbases.
-/

namespace Soferox

open Lib List Option

/-! ## The source -/

/-- `SerializeHash`, and `CHash256` on all that is written to it. -/
structure Hashers where
  serializeHash : List UInt8 → Uint256
  hash256 : List UInt8 → Uint256

/-- Why a check does not return `true`. -/
inductive ContextualError
  /-- `state.DoS(level, .., reason)` -/
  | reject (level : ℕ) (reason : String)
  /-- a null pointer is followed, or a vector is read outside its bounds -/
  | undefined
  deriving DecidableEq, Repr

/-- Follow a pointer, or read an element of a vector. -/
def deref {α : Type} : Option α → Except ContextualError α
  | some a => .ok a
  | none => .error .undefined

/-- `if (!b) return state.DoS(level, .., reason)`. -/
def checkOr (b : Bool) (level : ℕ) (reason : String) : Except ContextualError Unit :=
  if b then .ok () else .error (.reject level reason)

/-- What `ContextualCheckBlock` reads of the chain and of the header. -/
structure ContextualContext where
  /-- `pindexPrev->nHeight` and `pindexPrev->GetMedianTimePast()` -/
  pindexPrev : Option (ℕ × ℤ)
  /-- the state of `DEPLOYMENT_CSV` -/
  csv : ThresholdState
  /-- the state of `DEPLOYMENT_SEGWIT` -/
  segwit : ThresholdState
  nBlockTime : ℤ
  BIP34Height : ℤ

def getBlockWeight (block : CBlock) : ℕ :=
  block.strippedSize * (WITNESS_SCALE_FACTOR - 1) +
    (80 + compactSizeSize block.vtx.length + (block.vtx.map CTransaction.totalSize).sum)

namespace Hashers

variable (hs : Hashers)

def makeTransactionRef (tx : CMutableTransaction) : CTransaction :=
  ⟨hs.serializeHash (serializeTransaction false tx), tx.nVersion, tx.vin, tx.vout, tx.nLockTime⟩

/-- The hash of an inner node of a merkle tree. -/
def combine (a b : Uint256) : Uint256 := hs.hash256 (writeUint256 a ++ writeUint256 b)

/-- The leaves of the witness tree: the witness hash of the coinbase is 0. -/
def witnessLeaves (vtx : List CTransaction) : List Uint256 :=
  0 :: vtx.tail.map (CTransaction.getWitnessHash hs.serializeHash)

/-- `BlockWitnessMerkleRoot`, of a block that has transactions. -/
def blockWitnessMerkleRoot (vtx : List CTransaction) : Uint256 × Bool :=
  computeMerkleRoot hs.combine (hs.witnessLeaves vtx)

/-- The coinbase with one more output. -/
def pushOutput (coinbase : CTransaction) (out : CTxOut) : CTransaction :=
  hs.makeTransactionRef { coinbase.toMutable with vout := coinbase.vout ++ [out] }

/-- `nonce` in `UpdateUncommittedBlockStructures`, and `ret` in `GenerateCoinbaseCommitment`. -/
def zeroNonce : Valtype := List.replicate 32 0

/-- The coinbase with the nonce as the witness of its first input `txin`. -/
def setNonce (coinbase : CTransaction) (txin : CTxIn) (vin : List CTxIn) : CTransaction :=
  hs.makeTransactionRef { coinbase.toMutable with vin := { txin with scriptWitness := [zeroNonce] } :: vin }

end Hashers

/-- The first bytes of a commitment. -/
def commitmentHeader : CScript := [OP_RETURN, 0x24, 0xaa, 0x21, 0xa9, 0xed]

def isWitnessCommitment (out : CTxOut) : Bool :=
  out.scriptPubKey.length ≥ 38 && out.scriptPubKey.take 6 == commitmentHeader

/-- The loop of `GetWitnessCommitmentIndex`, from output `o` on. -/
def commitmentIndexFrom : ℕ → Option ℕ → List CTxOut → Option ℕ
  | _, commitpos, [] => commitpos
  | o, commitpos, out :: vout =>
    commitmentIndexFrom (o + 1) (if isWitnessCommitment out then some o else commitpos) vout

/-- `GetWitnessCommitmentIndex`; `none` for `-1`. -/
def getWitnessCommitmentIndex (block : CBlock) : Option ℕ :=
  match block.vtx with
  | [] => none
  | coinbase :: _ => commitmentIndexFrom 0 none coinbase.vout

section Source

open Hashers

variable (hs : Hashers)

def updateUncommittedBlockStructures (segwit : ThresholdState) (block : CBlock) : Except ContextualError CBlock :=
  let commitpos := getWitnessCommitmentIndex block
  match block.vtx with
  | [] => .ok block
  | coinbase :: vtx =>
    if commitpos.isSome && segwit == .active && !coinbase.hasWitness then
      match coinbase.vin with
      | [] => .error .undefined
      | txin :: vin => .ok { block with vtx := hs.setNonce coinbase txin vin :: vtx }
    else .ok block

/-- `GenerateCoinbaseCommitment`, with `nTimeout` of `DEPLOYMENT_SEGWIT`. -/
def generateCoinbaseCommitment (nTimeout : ℤ) (segwit : ThresholdState) (block : CBlock) :
    Except ContextualError (CBlock × Valtype) :=
  if nTimeout ≠ 0 ∧ getWitnessCommitmentIndex block = none then
    match block.vtx with
    | [] => .error .undefined
    | coinbase :: vtx => do
      let witnessroot := (hs.blockWitnessMerkleRoot block.vtx).1
      let witnessroot := hs.hash256 (writeUint256 witnessroot ++ zeroNonce)
      let out : CTxOut := ⟨0, commitmentHeader ++ writeUint256 witnessroot⟩
      let block ← updateUncommittedBlockStructures hs segwit { block with vtx := hs.pushOutput coinbase out :: vtx }
      return (block, out.scriptPubKey)
  else do
    let block ← updateUncommittedBlockStructures hs segwit block
    return (block, [])

/-- The part of `ContextualCheckBlock` that checks a commitment; whether there is one. -/
def checkWitnessCommitment (segwit : ThresholdState) (block : CBlock) : Except ContextualError Bool :=
  if segwit = .active then
    match getWitnessCommitmentIndex block with
    | none => .ok false
    | some commitpos => do
      let hashWitness := (hs.blockWitnessMerkleRoot block.vtx).1
      let coinbase ← deref block.vtx.head?
      let txin ← deref coinbase.vin.head?
      checkOr (txin.scriptWitness.length == 1 && txin.scriptWitness.head?.any fun nonce => nonce.length == 32) 100
        "bad-witness-nonce-size"
      let nonce ← deref txin.scriptWitness.head?
      let hashWitness := hs.hash256 (writeUint256 hashWitness ++ nonce)
      let out ← deref coinbase.vout[commitpos]?
      checkOr (writeUint256 hashWitness == (out.scriptPubKey.drop 6).take 32) 100 "bad-witness-merkle-match"
      return true
  else .ok false

/-- The witness checks of `ContextualCheckBlock`. -/
def checkWitness (segwit : ThresholdState) (block : CBlock) : Except ContextualError Unit := do
  let fHaveWitness ← checkWitnessCommitment hs segwit block
  checkOr (fHaveWitness || block.vtx.all fun tx => !tx.hasWitness) 100 "unexpected-witness"

def ContextualContext.nHeight (ctx : ContextualContext) : ℕ := ctx.pindexPrev.elim 0 (·.1 + 1)

def ContextualContext.nLockTimeCutoff (ctx : ContextualContext) : Except ContextualError ℤ :=
  if ctx.csv = .active then Prod.snd <$> deref ctx.pindexPrev else .ok ctx.nBlockTime

/-- The coinbase starts with the serialized block height. -/
def checkCoinbaseHeight (nHeight : ℕ) (block : CBlock) : Except ContextualError Unit := do
  let coinbase ← deref block.vtx.head?
  let txin ← deref coinbase.vin.head?
  checkOr ((CScript.pushInt64 nHeight).isPrefixOf txin.scriptSig) 100 "bad-cb-height"

/-- The checks of `ContextualCheckBlock` before those of the witness: lock times, and the height in the coinbase. -/
def checkFinalAndHeight (ctx : ContextualContext) (block : CBlock) : Except ContextualError Unit := do
  let nLockTimeCutoff ← ctx.nLockTimeCutoff
  checkOr (block.vtx.all fun tx => isFinalTx tx ctx.nHeight nLockTimeCutoff) 10 "bad-txns-nonfinal"
  if ctx.nHeight ≥ ctx.BIP34Height then checkCoinbaseHeight ctx.nHeight block else pure ()

def contextualCheckBlock (ctx : ContextualContext) (block : CBlock) : Except ContextualError Unit := do
  checkFinalAndHeight ctx block
  checkWitness hs ctx.segwit block
  checkOr (getBlockWeight block ≤ MAX_BLOCK_WEIGHT) 100 "bad-blk-weight"

end Source

/-! ## The commitment -/

open Hashers

lemma length_writeUint256 (hash : Uint256) : (writeUint256 hash).length = 32 := length_leBytes 32 _

lemma writeUint256_inj {a b : Uint256} (h : writeUint256 a = writeUint256 b) : a = b := by
  have ha := codes_uint256.get_put (a := a) trivial []
  have hb := codes_uint256.get_put (a := b) trivial []
  rw [h, hb] at ha
  simpa using ha.symm

variable {vout : List CTxOut}

lemma commitmentIndexFrom_of_none (h : ∀ out ∈ vout, isWitnessCommitment out = false) (o : ℕ)
    (commitpos : Option ℕ) : commitmentIndexFrom o commitpos vout = commitpos := by
  induction vout generalizing o with
  | nil => rfl
  | cons out vout ih =>
    rw [commitmentIndexFrom, h out mem_cons_self]
    exact ih (fun out' hout' => h out' (mem_cons_of_mem _ hout')) (o + 1)

lemma commitmentIndexFrom_concat {out : CTxOut} (h : isWitnessCommitment out = true) (o : ℕ)
    (commitpos : Option ℕ) : commitmentIndexFrom o commitpos (vout ++ [out]) = some (o + vout.length) := by
  induction vout generalizing o commitpos with
  | nil => simp [commitmentIndexFrom, h]
  | cons out' vout ih =>
    rw [cons_append, commitmentIndexFrom, ih, length_cons]
    congr 1
    omega

def commitmentOut (commitment : Uint256) : CTxOut := ⟨0, commitmentHeader ++ writeUint256 commitment⟩

lemma isWitnessCommitment_out (commitment : Uint256) : isWitnessCommitment (commitmentOut commitment) = true := by
  simp [isWitnessCommitment, commitmentOut, length_writeUint256, commitmentHeader]

/-- The last output of the coinbase commits to `commitment`, with a nonce of zeros. -/
structure CTransaction.CommitsTo (coinbase : CTransaction) (commitment : Uint256) : Prop where
  out : ∃ vout, coinbase.vout = vout ++ [commitmentOut commitment]
  nonce : ∃ txin vin, coinbase.vin = txin :: vin ∧ txin.scriptWitness = [zeroNonce]

variable {hs : Hashers} {block : CBlock} {coinbase : CTransaction} {vtx : List CTransaction} {commitment : Uint256}
  {vin : List CTxIn} {α β : Type} {txin : CTxIn} {k : α → Except ContextualError β}

lemma checkWitness_of_commitsTo (hs : Hashers) (hvtx : block.vtx = coinbase :: vtx) (h : coinbase.CommitsTo commitment) :
    checkWitness hs .active block =
      if hs.hash256 (writeUint256 (hs.blockWitnessMerkleRoot block.vtx).1 ++ zeroNonce) = commitment then .ok ()
      else .error (.reject 100 "bad-witness-merkle-match") := by
  obtain ⟨vout, hvout⟩ := h.out
  obtain ⟨txin, vin, hvin, hnonce⟩ := h.nonce
  have hindex : getWitnessCommitmentIndex block = some vout.length := by
    rw [getWitnessCommitmentIndex, hvtx]
    simp only [hvout]
    rw [commitmentIndexFrom_concat (isWitnessCommitment_out commitment), Nat.zero_add]
  have hout : coinbase.vout[vout.length]? = some (commitmentOut commitment) := by simp [hvout]
  have hscript : ((commitmentOut commitment).scriptPubKey.drop 6).take 32 = writeUint256 commitment := by
    rw [commitmentOut, drop_left' (by decide), take_of_length_le (length_writeUint256 _).le]
  have hhead : block.vtx.head? = some coinbase := by rw [hvtx, head?_cons]
  have hin : coinbase.vin.head? = some txin := by rw [hvin, head?_cons]
  unfold checkWitness checkWitnessCommitment
  rw [hindex]
  simp only [hhead, hin, hnonce, hout, hscript, deref, head?_cons, bind, Except.bind]
  have hsize : checkOr ([zeroNonce].length == 1 && (some zeroNonce).any fun nonce => nonce.length == 32) 100
      "bad-witness-nonce-size" = .ok () := by decide
  rw [hsize]
  by_cases heq : hs.hash256 (writeUint256 (hs.blockWitnessMerkleRoot block.vtx).1 ++ zeroNonce) = commitment
  · simp [heq, checkOr, pure, Except.pure]
  · have hne : ¬writeUint256 (hs.hash256 (writeUint256 (hs.blockWitnessMerkleRoot block.vtx).1 ++ zeroNonce)) =
        writeUint256 commitment := fun hw => heq (writeUint256_inj hw)
    simp [heq, hne, checkOr]

lemma exists_vin_of_isCoinBase (hcoinbase : coinbase.isCoinBase = true) : ∃ txin, coinbase.vin = [txin] := by
  unfold CTransaction.isCoinBase at hcoinbase
  split at hcoinbase
  · exact ⟨_, by assumption⟩
  · contradiction

/-- **What is generated** for a block without a commitment, when segwit is active: only the coinbase changes, and
commits to the witnesses. -/
theorem generateCoinbaseCommitment_eq (hs : Hashers) {nTimeout : ℤ} (hTimeout : nTimeout ≠ 0) (hvtx : block.vtx = coinbase :: vtx)
    (hcoinbase : coinbase.isCoinBase = true) (hwitness : coinbase.hasWitness = false)
    (hnone : ∀ out ∈ coinbase.vout, isWitnessCommitment out = false) :
    ∃ coinbase', ∃ out, generateCoinbaseCommitment hs nTimeout .active block =
        .ok ({ block with vtx := coinbase' :: vtx }, out) ∧
      coinbase'.CommitsTo (hs.hash256 (writeUint256 (hs.blockWitnessMerkleRoot block.vtx).1 ++ zeroNonce)) := by
  obtain ⟨txin, hvin⟩ := exists_vin_of_isCoinBase hcoinbase
  have hindex : getWitnessCommitmentIndex block = none := by
    rw [getWitnessCommitmentIndex, hvtx]
    exact commitmentIndexFrom_of_none hnone 0 none
  set commitment := hs.hash256 (writeUint256 (hs.blockWitnessMerkleRoot block.vtx).1 ++ zeroNonce) with hcommitment
  set tx := hs.pushOutput coinbase (commitmentOut commitment) with htx
  have hindex' : (getWitnessCommitmentIndex { block with vtx := tx :: vtx }).isSome = true := by
    show (commitmentIndexFrom 0 none (coinbase.vout ++ [commitmentOut commitment])).isSome = true
    rw [commitmentIndexFrom_concat (isWitnessCommitment_out commitment)]
    rfl
  have hwitness' : tx.hasWitness = false := hwitness
  have hvin' : tx.vin = [txin] := hvin
  have hupdate : updateUncommittedBlockStructures hs .active { block with vtx := tx :: vtx } =
      .ok { block with vtx := hs.setNonce tx txin [] :: vtx } := by
    simp [updateUncommittedBlockStructures, hindex', hwitness', hvin']
  refine ⟨hs.setNonce tx txin [], commitmentHeader ++ writeUint256 commitment, ?_, ⟨coinbase.vout, rfl⟩, ⟨_, _, rfl, rfl⟩⟩
  rw [generateCoinbaseCommitment, if_pos ⟨hTimeout, hindex⟩]
  split
  · rename_i hnil
    rw [hvtx] at hnil
    contradiction
  · rename_i coinbase₁ vtx₁ hcons
    obtain ⟨rfl, rfl⟩ := List.cons.inj (hvtx.symm.trans hcons)
    exact congrArg (fun r => r >>= fun b => pure (b, commitmentHeader ++ writeUint256 commitment)) hupdate

/-! ## What the commitment binds -/

lemma append_writeUint256_inj {a b c d : Uint256} (h : writeUint256 a ++ writeUint256 b = writeUint256 c ++ writeUint256 d) :
    a = c ∧ b = d := by
  obtain ⟨hl, hr⟩ := append_inj h (by rw [length_writeUint256, length_writeUint256])
  exact ⟨writeUint256_inj hl, writeUint256_inj hr⟩

/-- What is hashed to commit to the witnesses: the nodes of the tree, and its root with the nonce. -/
def Hashers.committedBytes (hs : Hashers) (vtx : List CTransaction) : List (List UInt8) :=
  (writeUint256 (hs.blockWitnessMerkleRoot vtx).1 ++ zeroNonce) ::
    (merklePairs hs.combine (hs.witnessLeaves vtx)).map fun p => writeUint256 p.1 ++ writeUint256 p.2

/-- **The witness root determines the witness hashes**, where the hash has no collision. -/
theorem witnessLeaves_eq_of_root_eq {vtx vtx' : List CTransaction} (hlen : vtx.length = vtx'.length)
    (hinj : Set.InjOn hs.hash256 {x | x ∈ hs.committedBytes vtx ∨ x ∈ hs.committedBytes vtx'})
    (hroot : (hs.blockWitnessMerkleRoot vtx).1 = (hs.blockWitnessMerkleRoot vtx').1) :
    hs.witnessLeaves vtx = hs.witnessLeaves vtx' := by
  have hsome (l : List CTransaction) :
      some (hs.blockWitnessMerkleRoot l).1 = merkleRoot hs.combine (hs.witnessLeaves l) :=
    computeMerkleRoot_root (cons_ne_nil _ _)
  refine merkleRoot_inj ?_ ?_ ((hsome vtx).symm.trans ((congrArg some hroot).trans (hsome vtx')))
  · simp [Hashers.witnessLeaves, hlen]
  · intro p hp q hq hpq
    have hmem {p : Uint256 × Uint256} (hp : p ∈ merklePairs hs.combine (hs.witnessLeaves vtx) ∨
        p ∈ merklePairs hs.combine (hs.witnessLeaves vtx')) :
        writeUint256 p.1 ++ writeUint256 p.2 ∈ {x | x ∈ hs.committedBytes vtx ∨ x ∈ hs.committedBytes vtx'} :=
      hp.imp (fun h => mem_cons_of_mem _ (List.mem_map_of_mem h)) fun h => mem_cons_of_mem _ (List.mem_map_of_mem h)
    obtain ⟨h1, h2⟩ := append_writeUint256_inj (hinj (hmem hp) (hmem hq) hpq)
    exact Prod.ext h1 h2

/-- Nothing undefined happens. -/
def Defined {α : Type} (r : Except ContextualError α) : Prop := r ≠ .error .undefined

lemma Defined.bind {r : Except ContextualError α} (hr : Defined r) (hk : ∀ a, Defined (k a)) : Defined (r >>= k) := by
  cases r with
  | error e => exact fun h => hr (congrArg Except.error (Except.error.inj h))
  | ok a => exact hk a

lemma defined_ok {α : Type} (a : α) : Defined (.ok a) := by simp [Defined]

lemma defined_checkOr (b : Bool) (level : ℕ) (reason : String) : Defined (checkOr b level reason) := by
  cases b <;> simp [Defined, checkOr]

lemma defined_checkFinalAndHeight (ctx : ContextualContext) (block : CBlock) (hprev : ctx.csv = .active → ctx.pindexPrev.isSome)
    (hvtx : block.vtx = coinbase :: vtx) (hvin : coinbase.vin = txin :: vin) :
    Defined (checkFinalAndHeight ctx block) := by
  have hcutoff : Defined ctx.nLockTimeCutoff := by
    unfold ContextualContext.nLockTimeCutoff
    split_ifs with hcsv
    · obtain ⟨prev, hprev⟩ := isSome_iff_exists.1 (hprev hcsv)
      rw [hprev]
      exact defined_ok prev.2
    · exact defined_ok _
  have hheight : Defined (checkCoinbaseHeight ctx.nHeight block) := by
    unfold checkCoinbaseHeight
    rw [hvtx]
    show Defined (deref coinbase.vin.head? >>= _)
    rw [hvin]
    exact defined_checkOr _ _ _
  refine hcutoff.bind fun cutoff => (defined_checkOr _ _ _).bind fun _ => ?_
  split
  · exact hheight
  · exact defined_ok ()

def CTransaction.witnesses (tx : CTransaction) : List (List Valtype) := tx.vin.map CTxIn.scriptWitness

/-- **Generated commitments validate, and bind the witnesses.** -/
theorem generateCoinbaseCommitment_binds (hs : Hashers) {nTimeout : ℤ} (hTimeout : nTimeout ≠ 0) {block : CBlock}
    {coinbase : CTransaction} {vtx : List CTransaction} (hvtx : block.vtx = coinbase :: vtx)
    (hcoinbase : coinbase.isCoinBase = true) (hwitness : coinbase.hasWitness = false)
    (hnone : ∀ out ∈ coinbase.vout, isWitnessCommitment out = false) :
    ∃ block' out, generateCoinbaseCommitment hs nTimeout .active block = .ok (block', out) ∧ block'.vtx.tail = vtx ∧
      checkWitness hs .active block' = .ok () ∧
      (∀ ctx, ctx.segwit = .active → contextualCheckBlock hs ctx block' = do
        checkFinalAndHeight ctx block'
        checkOr (getBlockWeight block' ≤ MAX_BLOCK_WEIGHT) 100 "bad-blk-weight") ∧
      ∀ (i : ℕ) (tx tx' : CTransaction), vtx[i]? = some tx → tx'.witnesses ≠ tx.witnesses →
        (tx'.getWitnessHash hs.serializeHash = tx.getWitnessHash hs.serializeHash → tx'.witnesses = tx.witnesses) →
        Set.InjOn hs.hash256 {x | x ∈ hs.committedBytes block'.vtx ∨ x ∈ hs.committedBytes (block'.vtx.set (i + 1) tx')} →
        checkWitness hs .active { block' with vtx := block'.vtx.set (i + 1) tx' } =
            .error (.reject 100 "bad-witness-merkle-match") ∧
          ∀ ctx, ctx.segwit = .active → ctx.pindexPrev.isSome → ∃ level reason,
            contextualCheckBlock hs ctx { block' with vtx := block'.vtx.set (i + 1) tx' } = .error (.reject level reason) := by
  obtain ⟨coinbase', out, hgen, hcommits⟩ := generateCoinbaseCommitment_eq hs hTimeout hvtx hcoinbase hwitness hnone
  have hsame : hs.witnessLeaves (coinbase' :: vtx) = hs.witnessLeaves block.vtx := by
    simp [Hashers.witnessLeaves, hvtx]
  have hroot : hs.blockWitnessMerkleRoot (coinbase' :: vtx) = hs.blockWitnessMerkleRoot block.vtx :=
    congrArg (computeMerkleRoot hs.combine) hsame
  rw [← hroot] at hcommits
  have hcheck : checkWitness hs .active { block with vtx := coinbase' :: vtx } = .ok () :=
    (checkWitness_of_commitsTo hs rfl hcommits).trans (if_pos rfl)
  refine ⟨_, out, hgen, rfl, hcheck, ?_, ?_⟩
  · intro ctx hctx
    rw [contextualCheckBlock, hctx, hcheck]
    rfl
  · intro i tx tx' hi hne hdet hinj
    have hreject : checkWitness hs .active { block with vtx := (coinbase' :: vtx).set (i + 1) tx' } =
        .error (.reject 100 "bad-witness-merkle-match") := by
      refine (checkWitness_of_commitsTo hs (set_cons_succ ..) hcommits).trans (if_neg ?_)
      intro heq
      have hbytes := hinj (.inr mem_cons_self) (.inl mem_cons_self) heq
      have hroots := writeUint256_inj (append_cancel_right hbytes)
      have hleaves := witnessLeaves_eq_of_root_eq (by simp) (hinj.mono fun x hx => hx.symm) hroots
      -- so the changed transaction has the same witness hash
      have hget := congrArg (fun leaves : List Uint256 => leaves[i + 1]?) hleaves
      have hlt : i < vtx.length := (List.getElem?_eq_some_iff.1 hi).1
      simp only [Hashers.witnessLeaves, set_cons_succ, tail_cons, getElem?_cons_succ, getElem?_map,
        getElem?_set_self hlt, hi, map_some, some.injEq] at hget
      exact hne (hdet hget)
    refine ⟨hreject, fun ctx hctx hprev => ?_⟩
    obtain ⟨txin, vin, hvin, -⟩ := hcommits.nonce
    rw [contextualCheckBlock, hctx, hreject]
    have hdefined := defined_checkFinalAndHeight ctx { block with vtx := (coinbase' :: vtx).set (i + 1) tx' } (fun _ => hprev) rfl
      hvin
    rcases hfirst : checkFinalAndHeight ctx { block with vtx := (coinbase' :: vtx).set (i + 1) tx' } with
      ⟨level, reason⟩ | _ | _
    · exact ⟨level, reason, rfl⟩
    · exact absurd hfirst hdefined
    · exact ⟨_, _, rfl⟩

/-- A coinbase without witness and without commitment. -/
def plainCoinbase : CTransaction :=
  ⟨1, 1, [⟨⟨0, 2 ^ 32 - 1⟩, [0x51], SEQUENCE_FINAL, []⟩], [⟨50, [0x51]⟩], 0⟩

def witnessTx (w : UInt8) : CTransaction := ⟨2, 1, [⟨⟨7, 0⟩, [], SEQUENCE_FINAL, [[w]]⟩], [⟨50, [0x51]⟩], 0⟩
def witnessBlock : CBlock := ⟨3, 4, [plainCoinbase, witnessTx 1]⟩

/-- A hash function to evaluate. -/
def sumHashers : Hashers :=
  ⟨fun b => BitVec.ofNat 256 (b.foldl (fun n x => 3 * n + x.toNat) 1),
    fun b => BitVec.ofNat 256 (b.foldl (fun n x => 5 * n + x.toNat) 1)⟩

/-- A deployment always active with the timeout 0: no commitment is generated, and the block is rejected. -/
theorem generateCoinbaseCommitment_timeout :
    ((AbstractThresholdConditionChecker.everyBlock alwaysActive 0).getStateFor
        AbstractThresholdConditionChecker.oneBlock (some ()) fun _ => none).map Prod.fst = some .active ∧
    generateCoinbaseCommitment sumHashers (AbstractThresholdConditionChecker.everyBlock alwaysActive 0).endTime .active
      witnessBlock = .ok (witnessBlock, []) ∧
    checkWitness sumHashers .active witnessBlock = .error (.reject 100 "unexpected-witness") := by
  decide +kernel

lemma sumHashers_injOn (coinbase : CTransaction) :
    Set.InjOn sumHashers.hash256 {x | x ∈ sumHashers.committedBytes (coinbase :: [witnessTx 1]) ∨
      x ∈ sumHashers.committedBytes (coinbase :: [witnessTx 2])} := by
  show Set.InjOn _ {x | x ∈ sumHashers.committedBytes [plainCoinbase, witnessTx 1] ∨
    x ∈ sumHashers.committedBytes [plainCoinbase, witnessTx 2]}
  exact injOn_of_list (fun _ => mem_append.2) (by decide +kernel)

theorem generateCoinbaseCommitment_binds_witnessTx :
    ∃ block' out, generateCoinbaseCommitment sumHashers 1 .active witnessBlock = .ok (block', out) ∧
      checkWitness sumHashers .active block' = .ok () ∧
      checkWitness sumHashers .active { block' with vtx := block'.vtx.set 1 (witnessTx 2) } =
        .error (.reject 100 "bad-witness-merkle-match") := by
  obtain ⟨block', out, hgen, htail, hok, -, hbinds⟩ := generateCoinbaseCommitment_binds sumHashers
    (show (1 : ℤ) ≠ 0 by decide) (show witnessBlock.vtx = plainCoinbase :: [witnessTx 1] from rfl) (by decide) (by decide)
    (by decide)
  refine ⟨block', out, hgen, hok, (hbinds 0 (witnessTx 1) (witnessTx 2) rfl (by decide) ?_ ?_).1⟩
  · intro h
    exact absurd h (by decide +kernel)
  · match hvtx : block'.vtx, htail with
    | coinbase :: _, rfl => exact sumHashers_injOn coinbase

/-! ## The parent of a block -/

lemma commitmentIndexFrom_lt {o i : ℕ} {commitpos : Option ℕ}
    (h : commitmentIndexFrom o commitpos vout = some i) : commitpos = some i ∨ o ≤ i ∧ i < o + vout.length := by
  induction vout generalizing o commitpos with
  | nil => exact .inl h
  | cons out vout ih =>
    rw [length_cons]
    rcases ih h with hpos | hrange
    · split at hpos
      · cases hpos
        exact .inr (by omega)
      · exact .inl hpos
    · exact .inr (by omega)

lemma Defined.deref {o : Option α} {a : α} (h : o = some a) (hk : Defined (k a)) : Defined (Soferox.deref o >>= k) := by
  rw [h]
  exact hk

lemma defined_checkWitness (hs : Hashers) (segwit : ThresholdState)
    (hvtx : block.vtx = coinbase :: vtx) (hvin : coinbase.vin = txin :: vin) : Defined (checkWitness hs segwit block) := by
  refine Defined.bind ?_ fun _ => defined_checkOr _ _ _
  unfold checkWitnessCommitment
  split
  · split
    · exact defined_ok _
    · rename_i commitpos hindex
      have hlt : commitpos < coinbase.vout.length := by
        rw [getWitnessCommitmentIndex, hvtx] at hindex
        simpa using commitmentIndexFrom_lt hindex
      refine .deref (congrArg head? hvtx) (.deref (congrArg head? hvin) ?_)
      rcases hnonce : txin.scriptWitness with _ | ⟨nonce, rest⟩
      · simp [Defined, checkOr, bind, Except.bind]
      · refine (defined_checkOr _ _ _).bind fun _ => .deref rfl (.deref (getElem?_eq_getElem hlt) ?_)
        exact (defined_checkOr _ _ _).bind fun _ => defined_ok true
  · exact defined_ok _

section Parent

variable {ι : Type} [DecidableEq ι]

/-- What `ContextualCheckBlock` reads for a block on `pindexPrev`, null for the genesis block; `none` where
`VersionBitsState` follows a null pointer. -/
def ContextualContext.of (T : TimedTree ι) (csv segwit : AbstractThresholdConditionChecker ι)
    (csvCache segwitCache : ThresholdConditionCache ι) (pindexPrev : Option ι) (nBlockTime BIP34Height : ℤ) :
    Option ContextualContext := do
  let (csv, _) ← csv.getStateFor T pindexPrev csvCache
  let (segwit, _) ← segwit.getStateFor T pindexPrev segwitCache
  return ⟨pindexPrev.map fun p => (T.nHeight p, T.getMedianTimePast p), csv, segwit, nBlockTime, BIP34Height⟩

/-- **A null `pindexPrev` is not followed** exactly when there is a parent, or CSV is not always active. -/
theorem contextualCheckBlock_defined_iff (hs : Hashers) {T : TimedTree ι} {csv segwit : AbstractThresholdConditionChecker ι}
    (hcsv : csv.beginTime ≤ csv.endTime) (hsegwit : segwit.beginTime ≤ segwit.endTime)
    {csvCache segwitCache : ThresholdConditionCache ι} (hcsvCache : csv.CacheOk T csvCache)
    (hsegwitCache : segwit.CacheOk T segwitCache) (pindexPrev : Option ι) (nBlockTime BIP34Height : ℤ) {block : CBlock}
    {coinbase : CTransaction} {vtx : List CTransaction} (hvtx : block.vtx = coinbase :: vtx)
    (hcoinbase : coinbase.isCoinBase = true) :
    (∃ ctx, ContextualContext.of T csv segwit csvCache segwitCache pindexPrev nBlockTime BIP34Height = some ctx ∧
        Defined (contextualCheckBlock hs ctx block)) ↔
      pindexPrev.isSome ∨ csv.beginTime ≠ alwaysActive := by
  obtain ⟨cache₁, hstate₁, -⟩ := csv.getStateFor_ok hcsv hcsvCache pindexPrev
  obtain ⟨cache₂, hstate₂, -⟩ := segwit.getStateFor_ok hsegwit hsegwitCache pindexPrev
  obtain ⟨txin, hvin⟩ := exists_vin_of_isCoinBase hcoinbase
  simp only [ContextualContext.of, hstate₁, hstate₂, bind_eq_bind, bind_some, Option.pure_def, some.injEq,
    exists_eq_left']
  constructor
  · intro hdef
    by_contra hno
    push Not at hno
    obtain ⟨hnone, halways⟩ := hno
    obtain rfl : pindexPrev = none := by simpa using hnone
    refine hdef ?_
    rw [AbstractThresholdConditionChecker.deploymentState, if_pos halways]
    rfl
  · intro hsafe
    refine (defined_checkFinalAndHeight _ block (fun hactive => ?_) hvtx hvin).bind fun _ =>
      (defined_checkWitness hs _ hvtx hvin).bind fun _ => defined_checkOr _ _ _
    rcases hsafe with hsome | halways
    · simpa using hsome
    · cases pindexPrev with
      | some p => rfl
      | none =>
        dsimp only at hactive
        rw [AbstractThresholdConditionChecker.deploymentState, if_neg halways] at hactive
        cases hactive

end Parent

open AbstractThresholdConditionChecker in
/-- With CSV always active, the genesis block has its median time past read from a null parent. -/
theorem contextualCheckBlock_genesis :
    (ContextualContext.of oneBlock (everyBlock alwaysActive 20) (everyBlock alwaysActive 20) (fun _ => none) (fun _ => none)
      none 0 0).map (fun ctx => contextualCheckBlock sumHashers ctx witnessBlock) = some (.error .undefined) := by
  decide +kernel

open AbstractThresholdConditionChecker in
/-- With CSV by signals, it has not. -/
theorem contextualCheckBlock_defined_genesis :
    ∃ ctx, ContextualContext.of oneBlock (everyBlock 10 20) (everyBlock alwaysActive 20) (fun _ => none) (fun _ => none) none 0 0 =
      some ctx ∧ Defined (contextualCheckBlock sumHashers ctx witnessBlock) :=
  (contextualCheckBlock_defined_iff sumHashers (by decide) (by decide) (by rintro p state ⟨⟩) (by rintro p state ⟨⟩) none 0 0
    (show witnessBlock.vtx = plainCoinbase :: [witnessTx 1] from rfl) (by decide)).2 (.inr (by decide))

/-! ## The height in the coinbase -/

lemma eq_some_of_deref {α : Type} {o : Option α} {a : α} (h : deref o = .ok a) : o = some a := by
  cases o <;> cases h
  rfl

lemma coinbase_height {hs : Hashers} {ctx : ContextualContext} (h : contextualCheckBlock hs ctx block = .ok ())
    (hheight : ctx.BIP34Height ≤ ctx.nHeight) : ∃ coinbase txin, block.vtx.head? = some coinbase ∧
      coinbase.vin.head? = some txin ∧ CScript.pushInt64 ctx.nHeight <+: txin.scriptSig := by
  obtain ⟨_, hfinal, -⟩ := bind_eq_ok.1 h
  obtain ⟨_, -, hfinal⟩ := bind_eq_ok.1 hfinal
  obtain ⟨_, -, hfinal⟩ := bind_eq_ok.1 hfinal
  rw [if_pos hheight] at hfinal
  obtain ⟨coinbase, hvtx, hfinal⟩ := bind_eq_ok.1 hfinal
  obtain ⟨txin, hvin, hfinal⟩ := bind_eq_ok.1 hfinal
  refine ⟨coinbase, txin, eq_some_of_deref hvtx, eq_some_of_deref hvin, isPrefixOf_iff_prefix.1 ?_⟩
  simpa [checkOr] using hfinal

/-- **The coinbases of blocks at different heights differ**, and so do their ids, unless transactions collide. -/
theorem coinbase_ne_of_height_ne (hs : Hashers) {ctx ctx' : ContextualContext} {block block' : CBlock}
    (h : contextualCheckBlock hs ctx block = .ok ()) (h' : contextualCheckBlock hs ctx' block' = .ok ())
    (hbip : ctx.BIP34Height = 17) (hbip' : ctx'.BIP34Height = 17) (hrange : ctx.nHeight ∈ Set.Ico 17 (2 ^ 31))
    (hrange' : ctx'.nHeight ∈ Set.Ico 17 (2 ^ 31)) (hne : ctx.nHeight ≠ ctx'.nHeight) :
    ∃ coinbase txin coinbase' txin', block.vtx.head? = some coinbase ∧ coinbase.vin.head? = some txin ∧
      block'.vtx.head? = some coinbase' ∧ coinbase'.vin.head? = some txin' ∧ txin.scriptSig ≠ txin'.scriptSig ∧
      ∀ S : Set CMutableTransaction, S.InjOn (fun tx => (hs.makeTransactionRef tx).hash) →
        coinbase.toMutable ∈ S → coinbase'.toMutable ∈ S →
        (hs.makeTransactionRef coinbase.toMutable).hash ≠ (hs.makeTransactionRef coinbase'.toMutable).hash := by
  obtain ⟨coinbase, txin, hvtx, hvin, hpre⟩ := coinbase_height h (by simpa [hbip] using hrange.1)
  obtain ⟨coinbase', txin', hvtx', hvin', hpre'⟩ := coinbase_height h' (by simpa [hbip'] using hrange'.1)
  have hsig : txin.scriptSig ≠ txin'.scriptSig := by
    intro heq
    rw [heq] at hpre
    exact hne (CScript.pushInt64_unique hrange hrange' hpre hpre')
  refine ⟨coinbase, txin, coinbase', txin', hvtx, hvin, hvtx', hvin', hsig, fun S hS hmem hmem' heq => hsig ?_⟩
  have hin : coinbase.vin = coinbase'.vin := congrArg CMutableTransaction.vin (hS hmem hmem' heq)
  rw [hin, hvin'] at hvin
  rw [some.inj hvin]

/-- A block of a coinbase only, whose script starts with a height of one byte. -/
def heightBlock (height : UInt8) : CBlock :=
  ⟨0, 0, [⟨0, 1, [⟨⟨0, 0xffffffff⟩, [1, height], SEQUENCE_FINAL, []⟩], [], 0⟩]⟩

theorem coinbase_ne_of_height_ne_18 :
    ∃ coinbase, (heightBlock 17).vtx.head? = some coinbase ∧ (heightBlock 18).vtx.head? ≠ some coinbase := by
  obtain ⟨coinbase, _, _, _, hvtx, hvin, hvtx', hvin', hne, -⟩ := coinbase_ne_of_height_ne sumHashers
    (show contextualCheckBlock sumHashers ⟨some (16, 0), .defined, .defined, 0, 17⟩ (heightBlock 17) = .ok () by
      decide +kernel)
    (show contextualCheckBlock sumHashers ⟨some (17, 0), .defined, .defined, 0, 17⟩ (heightBlock 18) = .ok () by
      decide +kernel) rfl rfl ⟨by decide, by decide⟩ ⟨by decide, by decide⟩ (by decide)
  refine ⟨coinbase, hvtx, fun heq => hne ?_⟩
  cases hvtx'.symm.trans heq
  cases hvin.symm.trans hvin'
  rfl

end Soferox
