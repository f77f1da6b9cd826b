import Aecmio.Chain.BlockHeader
import Aecmio.Chain.TransactionCodec

/-!
# The memos of a transaction

A transaction keeps its sender and the hash of its signed encoding once they
are computed.  `sign` and `setNonce` change what they are computed from and
leave them; and a cleared signature is a zero signature, not a missing one.
-/

namespace Aecmio

/-- `dev::sign`, zero when there is no signature. -/
class TransactionSigning where
  sign : H256 → H256 → SignatureStruct

structure TransactionSkeleton where
  creation : Bool := false
  sender : Address := TransactionBase.zeroAddress
  receiver : Address := TransactionBase.zeroAddress
  value : U256 := 0
  data : Bytes := []
  nonce : U256 := -1
  gas : U256 := -1
  gasPrice : U256 := -1

/-- A transaction with `m_hashWith`, all zeros as long as it is not known. -/
structure TransactionMemos where
  fields : TransactionBase := {}
  hashWith : H256 := zeroHash 32
deriving DecidableEq

abbrev MemosM := EStateM TransactionError TransactionMemos

namespace TransactionMemos

section

variable [Hashing] [Recovering] [TransactionSigning]

def sha3 (includeSignature : IncludeSignature) : MemosM H256 := do
  let memos ← get
  if includeSignature = .withSignature ∧ memos.hashWith ≠ zeroHash 32 then
    return memos.hashWith
  match memos.fields.hash includeSignature with
  | .error error => throw error
  | .ok hash =>
      if includeSignature = .withSignature then
        set { memos with hashWith := hash }
      return hash

def sender : MemosM Address := do
  let memos ← get
  if memos.fields.sender = TransactionBase.zeroAddress then
    match memos.fields.recoverSender with
    | .error error => throw error
    | .ok sender => set { memos with fields.sender := sender }
  return (← get).fields.sender

def sign (priv : H256) : MemosM Unit := do
  let memos ← get
  match memos.fields.hash .withoutSignature with
  | .error error => throw error
  | .ok hash =>
      let signature := TransactionSigning.sign priv hash
      if signature.isValid then
        set { memos with fields.vrs := some signature }

/-- `clearSignature`. -/
def clearSignature : MemosM Unit :=
  modify fun memos => { memos with fields.vrs := some {} }

def setNonce (nonce : U256) : MemosM Unit := do
  clearSignature
  modify fun memos => { memos with fields.nonce := nonce }

/-- The constructors with their arguments. -/
inductive Construction where
  | null
  | skeleton (given : TransactionSkeleton) (secret : H256)
  | signedCall (value gasPrice gas : U256) (dest : Address) (data : Bytes)
      (nonce : U256) (secret : H256)
  | signedCreation (value gasPrice gas : U256) (data : Bytes) (nonce : U256)
      (secret : H256)
  | call (value gasPrice gas : U256) (dest : Address) (data : Bytes)
      (nonce : U256)
  | creation (value gasPrice gas : U256) (data : Bytes) (nonce : U256)
  | rlp (rlpData : Bytes) (checkSig : CheckTransaction)

/-- The object that a statement leaves, if it does not throw. -/
def leaves (memos : TransactionMemos) (method : MemosM Unit) :
    Except TransactionError TransactionMemos :=
  match method.run memos with
  | .ok _ memos => .ok memos
  | .error error _ => .error error

/-- The members that the skeleton gives. -/
def ofSkeleton (skeleton : TransactionSkeleton) : TransactionBase where
  type := if skeleton.creation then .contractCreation else .messageCall
  nonce := skeleton.nonce
  value := skeleton.value
  receiveAddress := skeleton.receiver
  gasPrice := skeleton.gasPrice
  gas := skeleton.gas
  data := skeleton.data
  sender := skeleton.sender

def ofCall (value gasPrice gas : U256) (dest : Address) (data : Bytes)
    (nonce : U256) : TransactionBase where
  type := .messageCall
  nonce
  value
  receiveAddress := dest
  gasPrice
  gas
  data

def ofCreation (value gasPrice gas : U256) (data : Bytes) (nonce : U256) :
    TransactionBase where
  type := .contractCreation
  nonce
  value
  gasPrice
  gas
  data

def Construction.build :
    Construction → Except TransactionError TransactionMemos
  | .null => .ok {}
  | .skeleton given secret =>
      if secret = zeroHash 32 then .ok { fields := ofSkeleton given }
      else leaves { fields := ofSkeleton given } (sign secret)
  | .signedCall value gasPrice gas dest data nonce secret =>
      leaves { fields := ofCall value gasPrice gas dest data nonce }
        (sign secret)
  | .signedCreation value gasPrice gas data nonce secret =>
      leaves { fields := ofCreation value gasPrice gas data nonce }
        (sign secret)
  | .call value gasPrice gas dest data nonce =>
      .ok { fields := ofCall value gasPrice gas dest data nonce }
  | .creation value gasPrice gas data nonce =>
      .ok { fields := ofCreation value gasPrice gas data nonce }
  | .rlp rlpData checkSig =>
      (TransactionBase.ofRlp rlpData checkSig).map fun fields => { fields }

inductive Call where
  | sign (priv : H256)
  | setNonce (nonce : U256)
  | sha3 (includeSignature : IncludeSignature)
  | sender

/-- What a method leaves, whether it returns or throws. -/
def final {α : Type} (method : MemosM α) (memos : TransactionMemos) :
    TransactionMemos :=
  match method.run memos with
  | .ok _ memos => memos
  | .error _ memos => memos

/-- The state after a call. -/
def step (memos : TransactionMemos) : Call → TransactionMemos
  | .sign priv => final (sign priv) memos
  | .setNonce nonce => final (setNonce nonce) memos
  | .sha3 includeSignature => final (sha3 includeSignature) memos
  | .sender => final sender memos

def run (memos : TransactionMemos) (calls : List Call) : TransactionMemos :=
  calls.foldl step memos

/-! ## What the memos have to be -/

/-- The address that the signature over the unsigned hash gives. -/
def SentBy (fields : TransactionBase) (address : Address) : Prop :=
  ∃ signature, fields.vrs = some signature ∧
    if TransactionBase.isZeroSignature signature.r signature.s then
      address = TransactionBase.maxAddress
    else ∃ hash, fields.hash .withoutSignature = .ok hash ∧
      Recovering.recover signature hash = some address

/-- The hash is the one of the signed encoding. -/
def HashedTo (fields : TransactionBase) (hash : H256) : Prop :=
  ∃ bytes, fields.rlp .withSignature = .ok bytes ∧ hash = Aecmio.sha3 bytes

/-- What `sha3(WithSignature)` and `sender()` return is right. -/
structure Right (memos : TransactionMemos) : Prop where
  hash : ∀ hash memos', (sha3 .withSignature).run memos = .ok hash memos' →
    HashedTo memos.fields hash
  sender : ∀ address memos', sender.run memos = .ok address memos' →
    SentBy memos.fields address

/-- `sender()` and `rlp(WithSignature)` throw. -/
structure Unsigned (memos : TransactionMemos) : Prop where
  sender : ∃ memos', sender.run memos = .error .transactionIsUnsigned memos'
  rlp : memos.fields.rlp .withSignature = .error .transactionIsUnsigned

/-- Wherever a sequence of calls has come, hash and sender are right, and the
transaction is unsigned behind `setNonce`. -/
def Coherent (memos : TransactionMemos) (calls : List Call) : Prop :=
  ∀ front back, calls = front ++ back →
    (memos.run front).Right ∧
      ∀ earlier nonce, front = earlier ++ [.setNonce nonce] →
        (memos.run front).Unsigned

/-- A signature may be stored when it leaves the encoding as it is, or its
hash is not known, and when it gives the sender, or that is not known. -/
def MayStore (memos : TransactionMemos) (signature : SignatureStruct) :
    Prop :=
  (memos.hashWith = zeroHash 32 ∨
    ({ memos.fields with vrs := some signature } : TransactionBase).rlp
      .withSignature = memos.fields.rlp .withSignature) ∧
  (memos.fields.sender = TransactionBase.zeroAddress ∨ ∃ hash,
    memos.fields.hash .withoutSignature = .ok hash ∧
      Recovering.recover signature hash = some memos.fields.sender)

/-- A call that keeps the memos right. -/
def Harmless (memos : TransactionMemos) : Call → Prop
  | .sign priv => ∀ hash, memos.fields.hash .withoutSignature = .ok hash →
      (TransactionSigning.sign priv hash).isValid →
        memos.MayStore (TransactionSigning.sign priv hash)
  | .setNonce _ => False
  | .sha3 _ => True
  | .sender => True

/-- The sender of a skeleton, if there is one, is the one that signs. -/
def Construction.Apt : Construction → Prop
  | .skeleton given secret =>
      given.sender = TransactionBase.zeroAddress ∨
      (secret ≠ zeroHash 32 ∧ ∃ hash,
        (ofSkeleton given).hash .withoutSignature = .ok hash ∧
        (TransactionSigning.sign secret hash).isValid ∧
        Recovering.recover (TransactionSigning.sign secret hash) hash =
          some given.sender)
  | _ => True

variable {memos : TransactionMemos} {call : Call} {calls : List Call}

omit [Recovering] [TransactionSigning] in
theorem hash_ok_iff {fields : TransactionBase} {hash : H256} :
    fields.hash .withSignature = .ok hash ↔ HashedTo fields hash := by
  have unfolded : fields.hash .withSignature =
      (fields.rlp .withSignature).map Aecmio.sha3 := by
    simp [TransactionBase.hash, bind, Except.bind, pure, Except.pure,
      Except.map]
  rw [unfolded]
  unfold HashedTo
  cases fields.rlp .withSignature with
  | error error => simp [Except.map]
  | ok bytes => simp [Except.map, eq_comm]

omit [TransactionSigning] in
theorem recoverSender_ok_iff {fields : TransactionBase} {address : Address} :
    fields.recoverSender = .ok address ↔ SentBy fields address := by
  unfold TransactionBase.recoverSender TransactionBase.hasZeroSignature SentBy
  cases fields.vrs with
  | none => simp [bind, Except.bind, throw, throwThe, MonadExceptOf.throw]
  | some signature =>
      cases zero : TransactionBase.isZeroSignature signature.r signature.s with
      | true =>
          simp only [zero, if_true, pure, Except.pure, Except.ok.injEq,
            Option.some.injEq, exists_eq_left']
          exact eq_comm
      | false =>
          cases fields.hash .withoutSignature with
          | error error => simp [zero, bind, Except.bind]
          | ok hash =>
              simp only [zero, bind, Except.bind, pure, Except.pure, throw,
                throwThe, MonadExceptOf.throw]
              cases recovered : Recovering.recover signature hash <;>
                simp [zero, recovered]

omit [Recovering] [TransactionSigning] in
/-- A hash that is kept is returned. -/
theorem sha3_of_kept (kept : memos.hashWith ≠ zeroHash 32) :
    (sha3 .withSignature).run memos = .ok memos.hashWith memos := by
  simp [sha3, kept]

omit [Recovering] [TransactionSigning] in
/-- Otherwise it is computed. -/
theorem sha3_of_error {error : TransactionError}
    {includeSignature : IncludeSignature}
    (open_ : includeSignature = .withSignature → memos.hashWith = zeroHash 32)
    (failed : memos.fields.hash includeSignature = .error error) :
    (sha3 includeSignature).run memos = .error error memos := by
  have none : ¬(includeSignature = .withSignature ∧
      memos.hashWith ≠ zeroHash 32) := fun both => both.2 (open_ both.1)
  simp only [sha3, EStateM.run_bind, EStateM.run_get, if_neg none, failed]
  rfl

omit [Recovering] [TransactionSigning] in
theorem sha3_of_ok {hash : H256} {includeSignature : IncludeSignature}
    (open_ : includeSignature = .withSignature → memos.hashWith = zeroHash 32)
    (computed : memos.fields.hash includeSignature = .ok hash) :
    (sha3 includeSignature).run memos = .ok hash
      (if includeSignature = .withSignature then { memos with hashWith := hash }
        else memos) := by
  have none : ¬(includeSignature = .withSignature ∧
      memos.hashWith ≠ zeroHash 32) := fun both => both.2 (open_ both.1)
  simp only [sha3, EStateM.run_bind, EStateM.run_get, if_neg none, computed]
  cases includeSignature <;> rfl

omit [TransactionSigning] in
theorem sender_of_kept
    (kept : memos.fields.sender ≠ TransactionBase.zeroAddress) :
    sender.run memos = .ok memos.fields.sender memos := by
  simp [sender, kept]

omit [TransactionSigning] in
theorem sender_of_error {error : TransactionError}
    (open_ : memos.fields.sender = TransactionBase.zeroAddress)
    (failed : memos.fields.recoverSender = .error error) :
    sender.run memos = .error error memos := by
  simp only [sender, EStateM.run_bind, EStateM.run_get, if_pos open_, failed,
    EStateM.run_throw]

omit [TransactionSigning] in
theorem sender_of_ok {address : Address}
    (open_ : memos.fields.sender = TransactionBase.zeroAddress)
    (recovered : memos.fields.recoverSender = .ok address) :
    sender.run memos = .ok address { memos with fields.sender := address } := by
  simp only [sender, EStateM.run_bind, EStateM.run_get, if_pos open_,
    recovered, EStateM.run_set, EStateM.run_pure]

omit [TransactionSigning] in
/-- The methods are right exactly if what is kept is. -/
theorem right_iff : memos.Right ↔
    (memos.hashWith ≠ zeroHash 32 → HashedTo memos.fields memos.hashWith) ∧
    (memos.fields.sender ≠ TransactionBase.zeroAddress →
      SentBy memos.fields memos.fields.sender) := by
  constructor
  · intro right
    exact ⟨fun kept => right.hash _ _ (sha3_of_kept kept),
      fun kept => right.sender _ _ (sender_of_kept kept)⟩
  · rintro ⟨hashed, sent⟩
    constructor
    · intro hash memos' ran
      by_cases kept : memos.hashWith = zeroHash 32
      · cases computed : memos.fields.hash .withSignature with
        | error error =>
            rw [sha3_of_error (fun _ => kept) computed] at ran
            cases ran
        | ok hash' =>
            rw [sha3_of_ok (fun _ => kept) computed] at ran
            cases ran
            exact hash_ok_iff.1 computed
      · rw [sha3_of_kept kept] at ran
        cases ran
        exact hashed kept
    · intro address memos' ran
      by_cases kept : memos.fields.sender = TransactionBase.zeroAddress
      · cases recovered : memos.fields.recoverSender with
        | error error =>
            rw [sender_of_error kept recovered] at ran
            cases ran
        | ok address' =>
            rw [sender_of_ok kept recovered] at ran
            cases ran
            exact recoverSender_ok_iff.1 recovered
      · rw [sender_of_kept kept] at ran
        cases ran
        exact sent kept

/-! ## One call -/

omit [TransactionSigning] in
theorem right_sha3 (right : memos.Right)
    (includeSignature : IncludeSignature) :
    (final (sha3 includeSignature) memos).Right := by
  obtain ⟨hashed, sent⟩ := right_iff.1 right
  unfold final
  by_cases kept : includeSignature = .withSignature ∧
      memos.hashWith ≠ zeroHash 32
  · rw [kept.1, sha3_of_kept kept.2]
    exact right
  · have open_ : includeSignature = .withSignature →
        memos.hashWith = zeroHash 32 := by
      intro signed
      by_contra some
      exact kept ⟨signed, some⟩
    cases computed : memos.fields.hash includeSignature with
    | error error =>
        rw [sha3_of_error open_ computed]
        exact right
    | ok hash =>
        rw [sha3_of_ok open_ computed]
        cases includeSignature with
        | withoutSignature => exact right
        | withSignature =>
            exact right_iff.2 ⟨fun _ => hash_ok_iff.1 computed, sent⟩

omit [TransactionSigning] in
theorem right_sender (right : memos.Right) :
    (final sender memos).Right := by
  obtain ⟨hashed, sent⟩ := right_iff.1 right
  unfold final
  by_cases kept : memos.fields.sender = TransactionBase.zeroAddress
  · cases recovered : memos.fields.recoverSender with
    | error error =>
        rw [sender_of_error kept recovered]
        exact right
    | ok address =>
        rw [sender_of_ok kept recovered]
        exact right_iff.2
          ⟨hashed, fun _ => recoverSender_ok_iff.1 recovered⟩
  · rw [sender_of_kept kept]
    exact right

omit [Recovering] in
theorem run_sign_of_error {priv : H256} {error : TransactionError}
    (failed : memos.fields.hash .withoutSignature = .error error) :
    (sign priv).run memos = .error error memos := by
  simp only [sign, EStateM.run_bind, EStateM.run_get, failed]
  rfl

omit [Recovering] in
theorem run_sign {priv hash : H256}
    (computed : memos.fields.hash .withoutSignature = .ok hash) :
    (sign priv).run memos = .ok ()
      (if (TransactionSigning.sign priv hash).isValid then
        { memos with fields.vrs := some (TransactionSigning.sign priv hash) }
      else memos) := by
  simp only [sign, EStateM.run_bind, EStateM.run_get, computed]
  split <;> rfl

omit [Hashing] [Recovering] [TransactionSigning] in
/-- A valid signature is not a zero signature. -/
theorem not_isZeroSignature {signature : SignatureStruct}
    (valid : signature.isValid = true) :
    TransactionBase.isZeroSignature signature.r signature.s = false := by
  simp only [SignatureStruct.isValid, decide_eq_true_eq] at valid
  simp only [TransactionBase.isZeroSignature, decide_eq_false_iff_not]
  rintro ⟨zero, -⟩
  rw [zero] at valid
  exact absurd valid.2.1 (by decide)

omit [Recovering] [TransactionSigning] in
/-- The unsigned hash does not look at the signature. -/
theorem hash_withoutSignature (fields : TransactionBase)
    (vrs : Option SignatureStruct) :
    ({ fields with vrs } : TransactionBase).hash .withoutSignature =
      fields.hash .withoutSignature := by
  simp [TransactionBase.hash, TransactionBase.rlp, TransactionBase.streamRLP]

omit [TransactionSigning] in
theorem sentBy_stored {fields : TransactionBase} {signature : SignatureStruct}
    (valid : signature.isValid = true) {address : Address} :
    SentBy { fields with vrs := some signature } address ↔ ∃ hash,
      fields.hash .withoutSignature = .ok hash ∧
        Recovering.recover signature hash = some address := by
  unfold SentBy
  rw [hash_withoutSignature]
  simp only [Option.some.injEq, exists_eq_left', not_isZeroSignature valid]
  rfl

omit [TransactionSigning] in
/-- The memos stay right with a new signature if they may. -/
theorem right_store (right : memos.Right) {signature : SignatureStruct}
    (valid : signature.isValid = true) (may : memos.MayStore signature) :
    Right { memos with fields.vrs := some signature } := by
  obtain ⟨hashed, sent⟩ := right_iff.1 right
  refine right_iff.2 ⟨?_, ?_⟩
  · intro kept
    obtain ⟨bytes, encoded, same⟩ := hashed kept
    exact ⟨bytes, (may.1.resolve_left kept).trans encoded, same⟩
  · intro kept
    exact (sentBy_stored valid).mpr (may.2.resolve_left kept)

omit [TransactionSigning] in
/-- Otherwise they do not, unless hashes of encodings collide. -/
theorem mayStore_of_right (right : memos.Right) {signature : SignatureStruct}
    (valid : signature.isValid = true)
    (right' : Right { memos with fields.vrs := some signature })
    (injective : ∀ bytes bytes', memos.fields.rlp .withSignature = .ok bytes →
      ({ memos.fields with vrs := some signature } : TransactionBase).rlp
        .withSignature = .ok bytes' →
      Aecmio.sha3 bytes = Aecmio.sha3 bytes' → bytes = bytes') :
    memos.MayStore signature := by
  obtain ⟨hashed, sent⟩ := right_iff.1 right
  obtain ⟨hashed', sent'⟩ := right_iff.1 right'
  refine ⟨?_, ?_⟩
  · by_cases kept : memos.hashWith = zeroHash 32
    · exact .inl kept
    · obtain ⟨bytes, encoded, same⟩ := hashed kept
      obtain ⟨bytes', encoded', same'⟩ := hashed' kept
      refine .inr ?_
      rw [encoded', encoded,
        injective bytes bytes' encoded encoded' (same.symm.trans same')]
  · by_cases kept : memos.fields.sender = TransactionBase.zeroAddress
    · exact .inl kept
    · exact .inr ((sentBy_stored valid).mp (sent' kept))

omit [TransactionSigning] in
/-- With a cleared signature `sender()` returns. -/
theorem sender_of_cleared (cleared : memos.fields.vrs = some {}) :
    ∃ address memos', sender.run memos = .ok address memos' := by
  by_cases kept : memos.fields.sender = TransactionBase.zeroAddress
  · have recovered : memos.fields.recoverSender =
        .ok TransactionBase.maxAddress := by
      rw [recoverSender_ok_iff]
      exact ⟨{}, cleared, rfl⟩
    exact ⟨_, _, sender_of_ok kept recovered⟩
  · exact ⟨_, _, sender_of_kept kept⟩

omit [TransactionSigning] in
theorem not_unsigned_setNonce (nonce : U256) :
    ¬(final (setNonce nonce) memos).Unsigned := by
  rintro ⟨⟨memos', failed⟩, -⟩
  have cleared : (final (setNonce nonce) memos).fields.vrs = some {} := rfl
  obtain ⟨address, returned, ran⟩ := sender_of_cleared cleared
  rw [ran] at failed
  cases failed

/-- A harmless call keeps the memos right. -/
theorem right_step (right : memos.Right) (harmless : memos.Harmless call) :
    (memos.step call).Right := by
  cases call with
  | sign priv =>
      cases computed : memos.fields.hash .withoutSignature with
      | error error =>
          rw [step, final, run_sign_of_error computed]
          exact right
      | ok hash =>
          rw [step, final, run_sign computed]
          by_cases valid : (TransactionSigning.sign priv hash).isValid = true
          · simp only [valid, if_true]
            exact right_store right valid (harmless hash computed valid)
          · simp only [valid]
            exact right
  | setNonce nonce => exact harmless.elim
  | sha3 includeSignature => exact right_sha3 right includeSignature
  | sender => exact right_sender right

/-- A call before and after which the memos are right is harmless, `setNonce`
apart. -/
theorem harmless_of_right (right : memos.Right)
    (right' : (memos.step call).Right)
    (signed : ∀ nonce, call ≠ .setNonce nonce)
    (injective : ∀ bytes bytes', memos.fields.rlp .withSignature = .ok bytes →
      (memos.step call).fields.rlp .withSignature = .ok bytes' →
      Aecmio.sha3 bytes = Aecmio.sha3 bytes' → bytes = bytes') :
    memos.Harmless call := by
  cases call with
  | sign priv =>
      intro hash computed valid
      have stored : memos.step (.sign priv) =
          { memos with
            fields.vrs := some (TransactionSigning.sign priv hash) } := by
        rw [step, final, run_sign computed, if_pos valid]
      rw [stored] at right' injective
      exact mayStore_of_right right valid right' injective
  | setNonce nonce => exact absurd rfl (signed nonce)
  | sha3 includeSignature => trivial
  | sender => trivial

/-! ## Construction -/

omit [TransactionSigning] in
/-- Without a sender and a hash there is nothing to be wrong. -/
theorem right_of_open {fields : TransactionBase}
    (open_ : fields.sender = TransactionBase.zeroAddress) :
    Right { fields } :=
  right_iff.2 ⟨fun kept => absurd rfl kept, fun kept => absurd open_ kept⟩

omit [Recovering] in
theorem leaves_sign {fields : TransactionBase} {priv : H256}
    {start : TransactionMemos}
    (left : leaves { fields } (sign priv) = .ok start) : ∃ hash,
    fields.hash .withoutSignature = .ok hash ∧
      start = if (TransactionSigning.sign priv hash).isValid then
        { fields := { fields with
          vrs := some (TransactionSigning.sign priv hash) } }
      else { fields } := by
  unfold leaves at left
  cases computed : fields.hash .withoutSignature with
  | error error =>
      have ran : (sign priv).run { fields } = .error error { fields } :=
        run_sign_of_error computed
      rw [ran] at left
      cases left
  | ok hash =>
      have ran : (sign priv).run { fields } = .ok () _ := run_sign computed
      rw [ran] at left
      exact ⟨hash, rfl, (Except.ok.inj left).symm⟩

theorem right_of_leaves {fields : TransactionBase} {priv : H256}
    {start : TransactionMemos}
    (open_ : fields.sender = TransactionBase.zeroAddress)
    (left : leaves { fields } (sign priv) = .ok start) : start.Right := by
  obtain ⟨hash, _, rfl⟩ := leaves_sign left
  split
  · exact right_of_open open_
  · exact right_of_open open_

omit [TransactionSigning] in
/-- A sender that the skeleton gives has to be the one that has signed. -/
theorem right_of_given {fields : TransactionBase} : Right { fields } ↔
    fields.sender = TransactionBase.zeroAddress ∨
      SentBy fields fields.sender := by
  rw [right_iff]
  constructor
  · rintro ⟨-, sent⟩
    by_cases kept : fields.sender = TransactionBase.zeroAddress
    · exact .inl kept
    · exact .inr (sent kept)
  · intro sent
    exact ⟨fun kept => absurd rfl kept, fun kept => sent.resolve_left kept⟩

omit [TransactionSigning] in
theorem not_sentBy_none {fields : TransactionBase}
    {address : Address} (none : fields.vrs = .none) :
    ¬SentBy fields address := by
  rintro ⟨signature, stored, -⟩
  rw [none] at stored
  cases stored

/-- The memos of a new transaction are right, but for a skeleton with another
sender. -/
theorem Construction.right_iff_apt {construction : Construction}
    {start : TransactionMemos} (built : construction.build = .ok start) :
    start.Right ↔ construction.Apt := by
  cases construction with
  | null =>
      cases built
      exact iff_of_true (right_of_open rfl) trivial
  | skeleton given secret =>
      simp only [Construction.build] at built
      simp only [Construction.Apt]
      by_cases zero : secret = zeroHash 32
      · rw [if_pos zero] at built
        cases built
        have unsent : ¬SentBy (ofSkeleton given) given.sender :=
          not_sentBy_none rfl
        have unsigned : ¬(secret ≠ zeroHash 32 ∧ ∃ hash,
            (ofSkeleton given).hash .withoutSignature = .ok hash ∧
            (TransactionSigning.sign secret hash).isValid ∧
            Recovering.recover (TransactionSigning.sign secret hash) hash =
              some given.sender) := fun both => both.1 zero
        rw [right_of_given, or_iff_left unsigned]
        exact or_iff_left unsent
      · rw [if_neg zero] at built
        obtain ⟨hash, computed, rfl⟩ := leaves_sign built
        simp only [computed, Except.ok.injEq, exists_eq_left', ne_eq, zero,
          not_false_eq_true, true_and]
        by_cases valid : (TransactionSigning.sign secret hash).isValid = true
        · rw [if_pos valid, right_of_given, sentBy_stored valid]
          simp only [computed, Except.ok.injEq, exists_eq_left', valid,
            true_and]
          rfl
        · rw [if_neg valid, right_of_given]
          have unsent : ¬SentBy (ofSkeleton given) given.sender :=
            not_sentBy_none rfl
          have invalid :
              ¬((TransactionSigning.sign secret hash).isValid = true ∧
                Recovering.recover (TransactionSigning.sign secret hash) hash =
                  some given.sender) := fun both => valid both.1
          rw [or_iff_left invalid]
          exact or_iff_left unsent
  | signedCall value gasPrice gas dest data nonce secret =>
      exact iff_of_true (right_of_leaves rfl built) trivial
  | signedCreation value gasPrice gas data nonce secret =>
      exact iff_of_true (right_of_leaves rfl built) trivial
  | call value gasPrice gas dest data nonce =>
      cases built
      exact iff_of_true (right_of_open rfl) trivial
  | creation value gasPrice gas data nonce =>
      cases built
      exact iff_of_true (right_of_open rfl) trivial
  | rlp rlpData checkSig =>
      simp only [Construction.build] at built
      cases read : TransactionBase.ofRlp rlpData checkSig with
      | error error =>
          rw [read] at built
          cases built
      | ok fields =>
          rw [read] at built
          cases built
          refine iff_of_true (right_of_given.mpr ?_) trivial
          obtain ⟨signature, parts, -, readFrom⟩ :=
            TransactionBase.ofRlp_ok read
          have sent := readFrom.readAs.sender
          unfold TransactionBase.senderOf at sent
          split at sent
          · exact .inr (recoverSender_ok_iff.1 sent)
          · exact .inl (Except.ok.inj sent).symm

/-! ## Sequences of calls -/

/-- The signed encodings of the states on the way. -/
def encodings (memos : TransactionMemos) (calls : List Call) : Set Bytes :=
  { bytes | ∃ front back, calls = front ++ back ∧
    (memos.run front).fields.rlp .withSignature = .ok bytes }

theorem run_concat (front : List Call) :
    memos.run (front ++ [call]) = (memos.run front).step call :=
  List.foldl_concat ..

theorem right_run (right : memos.Right)
    (harmless : ∀ front call back, calls = front ++ call :: back →
      (memos.run front).Harmless call) (front back : List Call)
    (split : calls = front ++ back) : (memos.run front).Right := by
  induction front using List.reverseRecOn generalizing back with
  | nil => exact right
  | append_singleton front call induction =>
      rw [List.append_assoc] at split
      rw [run_concat]
      exact right_step (induction _ split) (harmless front call back split)

/-- In a sequence of calls on a new transaction everything is right if and
only if the skeleton's sender is the one that signs, `setNonce` is not called,
and no signature is stored over a known hash or sender that differs. -/
theorem coherent_iff {construction : Construction} {start : TransactionMemos}
    (built : construction.build = .ok start) {calls : List Call}
    (injective : Set.InjOn Aecmio.sha3 (start.encodings calls)) :
    start.Coherent calls ↔
      construction.Apt ∧ ∀ front call back, calls = front ++ call :: back →
        (start.run front).Harmless call := by
  constructor
  · intro coherent
    refine ⟨(Construction.right_iff_apt built).mp (coherent [] calls rfl).1, ?_⟩
    intro front call back split
    have split' : calls = (front ++ [call]) ++ back := by
      rw [List.append_assoc]
      exact split
    have next := coherent (front ++ [call]) back split'
    rw [run_concat] at next
    refine harmless_of_right (coherent front (call :: back) split).1 next.1
      ?_ ?_
    · rintro nonce rfl
      exact not_unsigned_setNonce nonce (next.2 front nonce rfl)
    · intro bytes bytes' encoded encoded' same
      refine injective ⟨front, call :: back, split, encoded⟩
        ⟨front ++ [call], back, split', ?_⟩ same
      rw [run_concat]
      exact encoded'
  · rintro ⟨apt, harmless⟩ front back split
    have right := (Construction.right_iff_apt built).mpr apt
    refine ⟨right_run right harmless front back split, ?_⟩
    rintro earlier nonce rfl
    rw [List.append_assoc] at split
    exact (harmless earlier (.setNonce nonce) back split).elim

end

section Sample

/-- A contract creation of zeros, and its signature with the secret 1. -/
def creationSample : Construction := .creation 0 0 0 [] 0

def signatureSample : SignatureStruct where
  r := 0x60ac8da6fc016ee487d06e93fec9768941a182638546857f6242cd86581d0174
  s := 0x2bea91a940d7647518956970f9ecd63847ed9aaa3a451ef7e20c89823f847082
  v := 0

/-- The signature with the secret 2. -/
def otherSignatureSample : SignatureStruct where
  r := 0x95f66693186f701a722465ca7f9cacfbd9275f677f48ac6a44906534efd2dcdd
  s := 0x6accc7c33667826eba9dba2b5cf6cbacb5ab46e7c34e6e40c0fa29971429b70e
  v := 1

def signedSample : Bytes :=
  [0xf8, 73] ++ List.replicate 6 0x80 ++ [27, 0xa0] ++
    (hashOfNat signatureSample.r.toNat).val ++ [0xa0] ++
    (hashOfNat signatureSample.s.toNat).val

/-- Keccak-256 of the unsigned and of the signed encoding. -/
def memosSampleHashing : Hashing where
  sha3 content :=
    if content = signedSample then hashOfNat
      0xf87d6f1451d636cae0537a1258d501b69eacbc530c54a02a29df81990f12f521
    else hashOfNat
      0x5460be86ce1e4ca0564b5761c6e7070d9f054b671f5404268335000806423d75
  trieRoot _ := zeroHash 32

theorem length_senderSample : ([0x7e, 0x5f, 0x45, 0x52, 0x09, 0x1a, 0x69, 0x12,
    0x5d, 0x5d, 0xfc, 0xb7, 0xb8, 0xc2, 0x65, 0x90, 0x29, 0x39, 0x5b, 0xdf] :
      Bytes).length = 20 := rfl

theorem length_otherSenderSample : ([0x2b, 0x5a, 0xd5, 0xc4, 0x79, 0x5c, 0x02,
    0x65, 0x14, 0xf8, 0x31, 0x7c, 0x7a, 0x21, 0x5e, 0x21, 0x8d, 0xcc, 0xd6,
    0xcf] : Bytes).length = 20 := rfl

/-- The addresses of the two secrets. -/
def memosSampleRecovering : Recovering where
  recover signature _ :=
    if signature = signatureSample then some ⟨_, length_senderSample⟩
    else if signature = otherSignatureSample then
      some ⟨_, length_otherSenderSample⟩
    else none

def memosSampleSigning : TransactionSigning where
  sign priv _ :=
    if priv = hashOfNat 1 then signatureSample
    else if priv = hashOfNat 2 then otherSignatureSample else {}

attribute [local instance] memosSampleHashing memosSampleRecovering
  memosSampleSigning

def startSample : TransactionMemos := { fields := ofCreation 0 0 0 [] 0 }

def callsSample : List Call :=
  [.sign (hashOfNat 1), .sender, .sha3 .withSignature]

theorem encodings_sample :
    startSample.encodings callsSample ⊆ {signedSample} := by
  rintro bytes ⟨front, back, split, encoded⟩
  have each : ∀ length < 4,
      (startSample.run (callsSample.take length)).fields.rlp .withSignature =
        .error .transactionIsUnsigned ∨
      (startSample.run (callsSample.take length)).fields.rlp .withSignature =
        .ok signedSample := by
    decide +kernel
  have length : front.length < 4 := by
    have whole := congrArg List.length split
    rw [List.length_append] at whole
    have three : callsSample.length = 3 := rfl
    omega
  have taken : callsSample.take front.length = front := by
    rw [split, List.take_left]
  have either := each front.length length
  rw [taken, encoded] at either
  rcases either with unsigned | signed
  · cases unsigned
  · exact Except.ok.inj signed

theorem coherent_iff_sample : startSample.Coherent callsSample := by
  have injective : Set.InjOn Aecmio.sha3
      (startSample.encodings callsSample) :=
    (Set.subsingleton_singleton.anti encodings_sample).injOn _
  have built : creationSample.build = .ok startSample := rfl
  refine (coherent_iff built injective).mpr ⟨trivial, ?_⟩
  intro front call back split
  cases front with
  | nil =>
      cases split
      intro hash _ _
      exact ⟨.inl rfl, .inl rfl⟩
  | cons first front =>
      cases front with
      | nil =>
          cases split
          trivial
      | cons second front =>
          cases front with
          | nil =>
              cases split
              trivial
          | cons third front => cases front <;> cases split

/-- A sender that is known stays when another secret signs, and behind
`setNonce` a sender is returned. -/
theorem incoherent_sample :
    ¬startSample.Coherent
        [.sign (hashOfNat 1), .sender, .sign (hashOfNat 2)] ∧
      ¬startSample.Coherent [.setNonce 1] := by
  constructor
  · intro coherent
    have kept : (startSample.run [.sign (hashOfNat 1), .sender,
        .sign (hashOfNat 2)]).fields.sender ≠ TransactionBase.zeroAddress := by
      decide +kernel
    have right := (coherent _ [] (List.append_nil _).symm).1.sender _ _
      (sender_of_kept kept)
    rw [← recoverSender_ok_iff] at right
    exact absurd right (by decide +kernel)
  · intro coherent
    obtain ⟨memos', unsigned⟩ :=
      ((coherent _ [] (List.append_nil _).symm).2 [] 1 rfl).sender
    have cleared : (startSample.run [.setNonce 1]).fields.vrs = some {} := rfl
    obtain ⟨address, returned, ran⟩ := sender_of_cleared cleared
    rw [ran] at unsigned
    cases unsigned

end Sample

end TransactionMemos

end Aecmio
