import Aecmio.Chain.BlockVerification

/-!
# What the hash of a block fixes

The hash of the header fixes the header, its roots fix the uncles and the
transactions.  Nothing looks behind the third item of a block, and the
`unsigned` number of transactions is reduced modulo `2 ^ 32`, so these bytes
are free.
-/

namespace Aecmio

open Item RLP

/-! ## The bytes that are not committed to -/

/-- What is left of a payload behind some items. -/
def behind : Nat → Bytes → Except RLPError Bytes
  | 0, content => .ok content
  | items + 1, content => do
      behind items (content.drop (← sizeAsEncoded content))

/-- The transactions from a number on, as they stand in the block. -/
def transactionsFrom (first count : Nat) (block : Bytes) :
    Except RLPError (List Bytes) := do
  let txList ← RLP.at_ block 1
  (List.range' first (count - first)).mapM (RLP.at_ txList)

/-- The number of transactions. -/
def transactionCount (block : Bytes) : Except RLPError Nat := do
  RLP.itemCount (← RLP.at_ block 1)

/-- The transactions that are not under the root, and the bytes behind the
uncles. -/
def uncommitted (block : Bytes) : Except RLPError (List Bytes × Bytes) := do
  let count ← transactionCount block
  let transactions ← transactionsFrom (count % 2 ^ 32) count block
  return (transactions, ← behind 3 (← RLP.payload block))

/-- The transactions that are under the root. -/
def committed (block : Bytes) : Except RLPError (List Bytes) := do
  let count ← transactionCount block
  return (← transactionsFrom 0 count block).take (count % 2 ^ 32)

/-- The strings that are hashed when a block is verified: its header, its
uncles and the nodes over its transactions. -/
def hashedIn [Hashing] (block : Bytes) : Set Bytes :=
  { text | RLP.at_ block 0 = .ok text ∨ RLP.at_ block 2 = .ok text ∨
    ∃ items, committed block = .ok items ∧
      text ∈ hashedFor sha3 (indexed items) }

/-! ## The parts of a block -/

/-- A block that is made of three items and some bytes. -/
structure LaidOut (block header : Bytes) (transactions : List Bytes)
    (uncles rest : Bytes) : Prop where
  same : block = encodeList (header ++ encodeList transactions.flatten ++
    uncles ++ rest)
  partHeader : Part header
  partUncles : Part uncles
  partItems : ∀ item ∈ transactions, Part item
  small : (header ++ encodeList transactions.flatten ++ uncles ++
    rest).length < readLimit

namespace LaidOut

variable {block header uncles rest : Bytes} {transactions : List Bytes}

theorem small_transactions
    (laidOut : LaidOut block header transactions uncles rest) :
    transactions.flatten.length < readLimit := by
  have whole := laidOut.small
  have shorter : transactions.flatten.length ≤
      (encodeList transactions.flatten).length := by
    rw [encodeList, List.length_append]
    omega
  simp only [List.length_append] at whole
  omega

theorem areParts (laidOut : LaidOut block header transactions uncles rest) :
    ∀ part ∈ [header, encodeList transactions.flatten, uncles], Part part := by
  intro part member
  simp only [List.mem_cons, List.not_mem_nil, or_false] at member
  rcases member with rfl | rfl | rfl
  · exact laidOut.partHeader
  · exact .list laidOut.small_transactions
  · exact laidOut.partUncles

theorem content_eq (header uncles rest : Bytes) (transactions : List Bytes) :
    header ++ encodeList transactions.flatten ++ uncles ++ rest =
      [header, encodeList transactions.flatten, uncles].flatten ++ rest := by
  simp [List.append_assoc]

theorem at_eq (laidOut : LaidOut block header transactions uncles rest)
    {position : Nat} (inRange : position < 3) :
    RLP.at_ block position =
      .ok ([header, encodeList transactions.flatten, uncles].get
        ⟨position, inRange⟩) := by
  have limit := readLimit_lt
  have bound : position < sizeTRange - 1 := by
    rw [sizeTRange_eq]
    omega
  rw [laidOut.same, at_encodeList laidOut.small bound, content_eq,
    nthPart_parts laidOut.areParts rest inRange]
  rfl

theorem count (laidOut : LaidOut block header transactions uncles rest) :
    transactionCount block = .ok transactions.length := by
  have counted := itemCount_parts laidOut.partItems
    laidOut.small_transactions
  rw [transactionCount, laidOut.at_eq (show 1 < 3 by decide)]
  exact counted

theorem transactionsFrom_eq
    (laidOut : LaidOut block header transactions uncles rest) (first : Nat) :
    transactionsFrom first transactions.length block =
      .ok (transactions.drop first) := by
  rw [transactionsFrom, laidOut.at_eq (show 1 < 3 by decide)]
  exact mapM_at_parts laidOut.partItems laidOut.small_transactions first

theorem committed_eq
    (laidOut : LaidOut block header transactions uncles rest) :
    committed block =
      .ok (transactions.take (transactions.length % 2 ^ 32)) := by
  have listed := laidOut.transactionsFrom_eq 0
  rw [List.drop_zero] at listed
  simp only [committed, laidOut.count, bind, Except.bind, listed, pure,
    Except.pure]

theorem behind_parts {parts : List Bytes} (arePart : ∀ part ∈ parts, Part part)
    (rest : Bytes) : behind parts.length (parts.flatten ++ rest) = .ok rest := by
  induction parts with
  | nil => rfl
  | cons part others induction =>
      have size := (arePart part List.mem_cons_self).sizeAsEncoded
        (others.flatten ++ rest)
      have below := induction fun other member =>
        arePart other (List.mem_cons_of_mem _ member)
      rw [List.flatten_cons, List.append_assoc, List.length_cons, behind, size]
      change behind others.length
        ((part ++ (others.flatten ++ rest)).drop part.length) = _
      rw [List.drop_left, below]

theorem uncommitted_eq
    (laidOut : LaidOut block header transactions uncles rest) :
    uncommitted block =
      .ok (transactions.drop (transactions.length % 2 ^ 32), rest) := by
  have payload : RLP.payload block = .ok (header ++
      encodeList transactions.flatten ++ uncles ++ rest) := by
    rw [laidOut.same]
    exact payload_encodeList laidOut.small
  have left : behind 3 (header ++ encodeList transactions.flatten ++ uncles ++
      rest) = .ok rest := by
    rw [content_eq]
    exact behind_parts laidOut.areParts rest
  simp only [uncommitted, laidOut.count, bind, Except.bind,
    laidOut.transactionsFrom_eq, payload]
  change (behind 3 _).bind _ = _
  rw [left]
  rfl

theorem construct_eq
    (laidOut : LaidOut block header transactions uncles rest) :
    RLP.construct block .veryStrict = .ok block := by
  rw [laidOut.same]
  exact (Part.list laidOut.small).construct_veryStrict

theorem hash_eq [Hashing]
    (laidOut : LaidOut block header transactions uncles rest) :
    headerHashFromBlock block = .ok (sha3 header) := by
  rw [headerHashFromBlock, laidOut.construct_eq]
  change (RLP.at_ block 0).bind _ = _
  rw [laidOut.at_eq (show 0 < 3 by decide)]
  rfl

end LaidOut

/-! ## Accepted blocks -/

theorem ok_of_unless {error : VerificationError} {holds : Bool} {value : Unit}
    (returned : error.unless holds = .ok value) : holds = true := by
  cases holds with
  | false => cases returned
  | true => rfl

section Accepted

variable [Hashing] {block : Bytes}

/-- What `extractHeader` has looked at. -/
theorem ofBlock_ok {header : BlockHeader}
    (accepted : BlockHeader.ofBlock block = .ok header) :
    ∃ item content uncles rest, block = encodeList (item ++
        encodeList content ++ uncles ++ rest) ∧
      (item ++ encodeList content ++ uncles ++ rest).length < readLimit ∧
      Part item ∧ Part (encodeList content) ∧ Part uncles ∧
      RLP.construct block .veryStrict = .ok block ∧
      RLP.at_ block 0 = .ok item ∧
      RLP.at_ block 1 = .ok (encodeList content) ∧
      RLP.at_ block 2 = .ok uncles ∧
      BlockHeader.populate item (sha3 item) = .ok header := by
  obtain ⟨root, constructed, accepted⟩ := exists_of_bind_ok accepted
  have constructed := mapError_ok constructed
  have same := (construct_veryStrict_ok constructed).1
  rw [same] at accepted constructed
  obtain ⟨list, accepted⟩ := guard_ok accepted
  obtain ⟨item, foundItem, accepted⟩ := exists_of_bind_ok accepted
  obtain ⟨listItem, accepted⟩ := guard_ok accepted
  obtain ⟨items, foundItems, accepted⟩ := exists_of_bind_ok accepted
  obtain ⟨listItems, accepted⟩ := guard_ok accepted
  obtain ⟨uncles, foundUncles, accepted⟩ := exists_of_bind_ok accepted
  obtain ⟨listUncles, accepted⟩ := guard_ok accepted
  simp only [Bool.not_eq_true', Bool.not_eq_false] at list listItem
  simp only [Bool.not_eq_true', Bool.not_eq_false] at listItems listUncles
  have foundItem := mapError_ok foundItem
  have foundItems := mapError_ok foundItems
  have foundUncles := mapError_ok foundUncles
  have populated := mapError_ok accepted
  have nonempty : block ≠ [] := by
    intro empty
    rw [empty] at list
    cases list
  obtain ⟨whole, small, rfl⟩ : ∃ whole, whole.length < readLimit ∧
      block = encodeList whole := by
    obtain ⟨whole, same, small⟩ :=
      payload_of_list (part_of_construct nonempty constructed) list
    exact ⟨whole, small, same⟩
  have limit := sizeTRange_eq
  have parts : ∀ {position : Nat} {part : Bytes}, position < 3 →
      RLP.at_ (encodeList whole) position = .ok part →
      nthPart position whole = .ok part := by
    intro position part inRange found
    rwa [at_encodeList small (by omega)] at found
  have partItem := parts (show 0 < 3 by decide) foundItem
  have partItems := parts (show 1 < 3 by decide) foundItems
  have partUncles := parts (show 2 < 3 by decide) foundUncles
  have isItem := part_of_list (nthPart_shape partItem) listItem
  have isItems := part_of_list (nthPart_shape partItems) listItems
  have isUncles := part_of_list (nthPart_shape partUncles) listUncles
  obtain ⟨rest, split, -⟩ := @nthPart_split [item, items, uncles] whole
    (by
      intro part member
      simp only [List.mem_cons, List.not_mem_nil, or_false] at member
      rcases member with rfl | rfl | rfl
      · exact isItem
      · exact isItems
      · exact isUncles)
    (by
      intro position inRange
      match position with
      | 0 => exact partItem
      | 1 => exact partItems
      | 2 => exact partUncles)
  obtain ⟨content, rfl, -⟩ := payload_of_list isItems listItems
  have joined : whole = item ++ encodeList content ++ uncles ++ rest := by
    simp [split, List.append_assoc]
  subst joined
  exact ⟨item, content, uncles, rest, rfl, small, isItem, isItems, isUncles,
    constructed, foundItem, foundItems, foundUncles, populated⟩

variable [Recovering] {engine : SealEngine} {headerData : H256 → Bytes}
  {requirements : ImportRequirements}

omit [Recovering] in
theorem verifyBody_ok {header : BlockHeader}
    (accepted : header.verifyBody block = .ok ()) :
    ∃ root txList count uncles,
      RLP.construct block .veryStrict = .ok root ∧
      RLP.at_ root 1 = .ok txList ∧ RLP.itemCount txList = .ok count ∧
      trieRootOver sha3 count indexKey (RLP.at_ txList) =
        .ok header.transactionsRoot ∧
      RLP.at_ root 2 = .ok uncles ∧ header.sha3Uncles = sha3 uncles := by
  obtain ⟨root, constructed, accepted⟩ := exists_of_bind_ok accepted
  obtain ⟨txList, found, accepted⟩ := exists_of_bind_ok accepted
  obtain ⟨count, counted, accepted⟩ := exists_of_bind_ok accepted
  obtain ⟨expectedRoot, expected, accepted⟩ := exists_of_bind_ok accepted
  obtain ⟨_, same, accepted⟩ := exists_of_bind_ok accepted
  obtain ⟨uncles, foundUncles, accepted⟩ := exists_of_bind_ok accepted
  have sameRoot := of_decide_eq_true (ok_of_unless same)
  have sameUncles := of_decide_eq_true (ok_of_unless accepted)
  rw [sameRoot]
  exact ⟨root, txList, count, uncles, mapError_ok constructed,
    mapError_ok found, mapError_ok counted, mapError_ok expected,
    mapError_ok foundUncles, sameUncles⟩

/-- What is known of a block that was verified: its parts, and what its
header says of them. -/
theorem verifyBlock_ok {result : VerifiedBlockRef TransactionBase}
    (accepted : BlockChain.verifyBlock engine headerData requirements block =
      .ok result) :
    ∃ header transactions uncles rest,
      LaidOut block header transactions uncles rest ∧
      BlockHeader.populate header (sha3 header) = .ok result.info ∧
      hash256 sha3 (indexed
        (transactions.take (transactions.length % 2 ^ 32))) =
          .ok result.info.transactionsRoot ∧
      result.info.sha3Uncles = sha3 uncles := by
  obtain ⟨info, verified, accepted⟩ := exists_of_bind_ok accepted
  obtain ⟨_, _, accepted⟩ := exists_of_bind_ok accepted
  obtain ⟨_, _, accepted⟩ := exists_of_bind_ok accepted
  obtain ⟨_, _, accepted⟩ := exists_of_bind_ok accepted
  obtain ⟨transactions, _, accepted⟩ := exists_of_bind_ok accepted
  rw [← Except.ok.inj accepted]
  obtain ⟨header, extracted, verified⟩ := exists_of_bind_ok verified
  obtain ⟨_, _, verified⟩ := exists_of_bind_ok verified
  obtain ⟨parent, _, verified⟩ := exists_of_bind_ok verified
  obtain ⟨_, checked, verified⟩ := exists_of_bind_ok verified
  rw [← Except.ok.inj verified]
  obtain ⟨_, checked, _⟩ := exists_of_bind_ok checked
  obtain ⟨_, _, checked⟩ := exists_of_bind_ok checked
  obtain ⟨_, _, checked⟩ := exists_of_bind_ok checked
  obtain ⟨_, _, checked⟩ := exists_of_bind_ok checked
  obtain ⟨item, content, uncles, rest, same, small, isItem, isItems, isUncles,
    constructed, -, foundItems, foundUncles, populated⟩ :=
      ofBlock_ok (mapError_ok extracted)
  have nonempty : block ≠ [] := by
    rw [same]
    exact List.ne_nil_of_length_pos (encodeList_pos _)
  rw [if_neg nonempty] at checked
  obtain ⟨root, txList, count, uncles', constructed', found, counted, rooted,
    found', hashed⟩ := verifyBody_ok checked
  rw [constructed] at constructed'
  cases constructed'
  rw [foundItems] at found
  cases found
  rw [foundUncles] at found'
  cases found'
  have smallContent : content.length < readLimit := by
    have shorter : content.length ≤ (encodeList content).length := by
      rw [encodeList, List.length_append]
      omega
    simp only [List.length_append] at small
    omega
  obtain ⟨items, areParts, rfl, rfl⟩ := itemCount_ok smallContent counted
  have length : (items.take (items.length % 2 ^ 32)).length =
      items.length % 2 ^ 32 := by
    rw [List.length_take]
    exact min_eq_left (Nat.mod_le _ _)
  rw [trieRootOver_eq length] at rooted
  · exact ⟨item, items, uncles, rest, ⟨same, isItem, isUncles, areParts, small⟩,
      populated, rooted, hashed⟩
  · intro index inRange
    have inside : index < items.length :=
      Nat.lt_of_lt_of_le inRange (List.length_take_le' _ _)
    rw [at_parts areParts smallContent inside, List.getElem_take]

omit [Hashing] [Recovering] in
theorem list_sized {transactions : List Bytes} {header uncles rest : Bytes}
    (laidOut : LaidOut block header transactions uncles rest)
    (small : block.length < 2 ^ 56) :
    ∀ item ∈ transactions, item ≠ [] ∧ item.length < 2 ^ 56 := by
  intro item member
  refine ⟨(laidOut.partItems item member).ne_nil, ?_⟩
  have inside := (List.sublist_flatten_of_mem member).length_le
  have whole := laidOut.same
  rw [whole] at small
  simp only [encodeList, List.length_append] at small
  omega

/-- Two blocks that pass the checks under one hash are the same when the
bytes that nothing commits to are the same. -/
theorem hash_fixes_block_iff {first second : Bytes} {hash : H256}
    {result result' : VerifiedBlockRef TransactionBase}
    (small : first.length < 2 ^ 56) (small' : second.length < 2 ^ 56)
    (accepted : BlockChain.verifyBlock engine headerData
      .outOfOrderChecks first = .ok result)
    (accepted' : BlockChain.verifyBlock engine headerData
      .outOfOrderChecks second = .ok result')
    (hashed : headerHashFromBlock first = .ok hash)
    (hashed' : headerHashFromBlock second = .ok hash)
    (injective : Set.InjOn sha3 (hashedIn first ∪ hashedIn second)) :
    first = second ↔ uncommitted first = uncommitted second := by
  obtain ⟨header, transactions, uncles, rest, laidOut, populated, rooted,
    unclesHash⟩ := verifyBlock_ok accepted
  obtain ⟨header', transactions', uncles', rest', laidOut', populated',
    rooted', unclesHash'⟩ := verifyBlock_ok accepted'
  constructor
  · intro same
    rw [same]
  intro uncommittedSame
  have zero : 0 < 3 := by decide
  have two : 2 < 3 := by decide
  have headers : header = header' := by
    have first := laidOut.hash_eq.symm.trans hashed
    have second := laidOut'.hash_eq.symm.trans hashed'
    exact injective (.inl (.inl (laidOut.at_eq zero)))
      (.inr (.inl (laidOut'.at_eq zero)))
      (Except.ok.inj (first.trans second.symm))
  have infos : result.info = result'.info := by
    rw [← headers, populated] at populated'
    exact Except.ok.inj populated'
  have sameUncles : uncles = uncles' := by
    rw [infos, unclesHash'] at unclesHash
    exact injective (.inl (.inr (.inl (laidOut.at_eq two))))
      (.inr (.inr (.inl (laidOut'.at_eq two)))) unclesHash.symm
  have sameCommitted : transactions.take (transactions.length % 2 ^ 32) =
      transactions'.take (transactions'.length % 2 ^ 32) := by
    have few : ∀ list : List Bytes,
        (list.take (list.length % 2 ^ 32)).length ≤ 2 ^ 32 := by
      intro list
      have modulus := Nat.mod_lt list.length (show 0 < 2 ^ 32 by decide)
      exact (List.length_take_le _ _).trans modulus.le
    rw [← infos] at rooted'
    refine indexed_injective (few _) (few _) ?_ ?_ (injective.mono ?_)
      rooted rooted'
    · intro item member
      exact list_sized laidOut small item (List.mem_of_mem_take member)
    · intro item member
      exact list_sized laidOut' small' item (List.mem_of_mem_take member)
    · exact Set.union_subset_union
        (fun _ inside => .inr (.inr ⟨_, laidOut.committed_eq, inside⟩))
        (fun _ inside => .inr (.inr ⟨_, laidOut'.committed_eq, inside⟩))
  rw [laidOut.uncommitted_eq, laidOut'.uncommitted_eq] at uncommittedSame
  obtain ⟨sameDropped, sameRest⟩ :=
    Prod.mk.inj (Except.ok.inj uncommittedSame)
  have sameTransactions : transactions = transactions' := by
    rw [← List.take_append_drop (transactions.length % 2 ^ 32) transactions,
      sameCommitted, sameDropped, List.take_append_drop]
  rw [laidOut.same, laidOut'.same, headers, sameUncles, sameTransactions,
    sameRest]

/-- Bytes behind the uncles change nothing. -/
theorem verifyBlock_behind {other header uncles rest rest' : Bytes}
    {transactions : List Bytes}
    (laidOut : LaidOut block header transactions uncles rest)
    (laidOut' : LaidOut other header transactions uncles rest') :
    BlockChain.verifyBlock engine headerData requirements other =
      (BlockChain.verifyBlock engine headerData requirements block).map
        fun result => { result with block := other } := by
  have nonempty : block ≠ [] := by
    rw [laidOut.same]
    exact List.ne_nil_of_length_pos (encodeList_pos _)
  have nonempty' : other ≠ [] := by
    rw [laidOut'.same]
    exact List.ne_nil_of_length_pos (encodeList_pos _)
  have list : RLP.isList block = true := by
    rw [laidOut.same]
    simpa using isList_encodeList [] laidOut.small
  have list' : RLP.isList other = true := by
    rw [laidOut'.same]
    simpa using isList_encodeList [] laidOut'.small
  have items : ∀ {position : Nat}, position < 3 →
      RLP.at_ other position = RLP.at_ block position := by
    intro position inRange
    rw [laidOut.at_eq inRange, laidOut'.at_eq inRange]
  have zero := items (show 0 < 3 by decide)
  have one := items (show 1 < 3 by decide)
  have two := items (show 2 < 3 by decide)
  have header : BlockHeader.ofBlock other = BlockHeader.ofBlock block := by
    simp only [BlockHeader.ofBlock, laidOut.construct_eq,
      laidOut'.construct_eq, Except.mapError, bind, Except.bind, list, list',
      zero, one, two]
  have body : ∀ header : BlockHeader,
      header.verifyBody other = header.verifyBody block := by
    intro header
    simp only [BlockHeader.verifyBody, laidOut.construct_eq,
      laidOut'.construct_eq, Except.mapError, bind, Except.bind, one, two]
  have checked : BlockChain.verifyHeader engine headerData requirements other =
      BlockChain.verifyHeader engine headerData requirements block := by
    simp only [BlockChain.verifyHeader, header, SealEngine.check,
      BlockHeader.verifyWith, if_neg nonempty, if_neg nonempty', body]
  have listed : ∀ wanted, ∀ {position : Nat}, position < 3 →
      BlockChain.itemsOf wanted other position =
        BlockChain.itemsOf wanted block position := by
    intro wanted position inRange
    simp only [BlockChain.itemsOf, laidOut.construct_eq,
      laidOut'.construct_eq, bind, Except.bind, items inRange]
  change _ = (fun result : VerifiedBlockRef TransactionBase =>
    { result with block := other }) <$> _
  simp only [BlockChain.verifyBlock, map_bind, map_pure, checked,
    listed _ (show 1 < 3 by decide), listed _ (show 2 < 3 by decide)]

end Accepted

/-! ## A block with a byte too many -/

theorem hashedFor_nil {sha3 : Bytes → H256} {text : Bytes}
    (inside : text ∈ hashedFor sha3 (indexed [])) : text = [0x80] := by
  obtain ⟨node, canonical, agrees, hashed⟩ := inside
  have null : node = .null := by
    by_contra nonempty
    obtain ⟨path, value, found⟩ := canonical.exists_get nonempty
    obtain ⟨key, -, held⟩ := agrees.exists_key found
    cases held
  subst null
  rcases hashed with same | below
  · exact same
  · cases below

section Sample

/-- Keccak-256 of the strings that are hashed below. -/
def identitySampleHashing : Hashing where
  sha3 bytes := if bytes = [0x80] then hashOfNat
      0x56e81f171bcc55a6ff8345e692c0f86e5b48e01b996cadc001622fb5e363b421
    else if bytes = [0xc0] then hashOfNat
      0x1dcc4de8dec75d7aab85b567b6ccd41ad312451b948a7413f0a142fd40d49347
    else hashOfNat
      0x2a8884a3d2d2d0ec0dc7ef007c24e1c15a95b0bbf5101ad25a6658f57a824ecd
  trieRoot _ := zeroHash 32

/-- There are no signatures in the block below. -/
def identitySampleRecovering : Recovering where
  recover _ _ := none

attribute [local instance] identitySampleHashing identitySampleRecovering

/-- The engine that only checks what every engine checks. -/
def noProof : SealEngine where
  verify _ _ _ := .ok ()
  verifyTransaction _ _ _ _ := .ok ()

/-- A header over no transactions and no uncles. -/
def emptySample : BlockHeader where
  sha3Uncles := sha3 [0xc0]
  transactionsRoot := sha3 [0x80]
  number := 5
  timestamp := 7
  seals := [[0x80]]

def emptySampleBytes : Bytes := emptySample.listed emptySample.seals

/-- The block of the header, and the same with a fourth item. -/
def exactBlock : Bytes := encodeList (emptySampleBytes ++ [0xc0, 0xc0])

def longerBlock : Bytes := encodeList (emptySampleBytes ++ [0xc0, 0xc0, 0x80])

theorem exactBlock_laidOut :
    LaidOut exactBlock emptySampleBytes [] [0xc0] [] :=
  ⟨by decide +kernel, .list (by decide +kernel),
    @Part.list [] (by decide +kernel),
    (fun _ member => absurd member List.not_mem_nil), by decide +kernel⟩

theorem longerBlock_laidOut :
    LaidOut longerBlock emptySampleBytes [] [0xc0] [0x80] :=
  ⟨by decide +kernel, .list (by decide +kernel),
    @Part.list [] (by decide +kernel),
    (fun _ member => absurd member List.not_mem_nil), by decide +kernel⟩

/-- What is known of either block. -/
def verifiedSample (block : Bytes) : VerifiedBlockRef TransactionBase :=
  ⟨block, { emptySample with memo := sha3 emptySampleBytes }, []⟩

theorem exactBlock_verified :
    BlockChain.verifyBlock noProof (fun _ => []) .outOfOrderChecks exactBlock =
      .ok (verifiedSample exactBlock) := by
  decide +kernel

theorem longerBlock_verified :
    BlockChain.verifyBlock noProof (fun _ => []) .outOfOrderChecks longerBlock =
      .ok (verifiedSample longerBlock) := by
  rw [verifyBlock_behind exactBlock_laidOut longerBlock_laidOut,
    exactBlock_verified]
  rfl

theorem hashedIn_sample {block rest : Bytes}
    (laidOut : LaidOut block emptySampleBytes [] [0xc0] rest) {text : Bytes}
    (inside : text ∈ hashedIn block) :
    text = emptySampleBytes ∨ text = [0xc0] ∨ text = [0x80] := by
  rcases inside with header | uncles | ⟨items, listed, hashed⟩
  · rw [laidOut.at_eq (show 0 < 3 by decide)] at header
    exact .inl (Except.ok.inj header).symm
  · rw [laidOut.at_eq (show 2 < 3 by decide)] at uncles
    exact .inr (.inl (Except.ok.inj uncles).symm)
  · rw [laidOut.committed_eq] at listed
    cases listed
    exact .inr (.inr (hashedFor_nil hashed))

theorem injOn_sample :
    Set.InjOn sha3 (hashedIn exactBlock ∪ hashedIn longerBlock) := by
  have shape : ∀ text ∈ hashedIn exactBlock ∪ hashedIn longerBlock,
      text = emptySampleBytes ∨ text = [0xc0] ∨ text = [0x80] := by
    intro text inside
    rcases inside with first | second
    · exact hashedIn_sample exactBlock_laidOut first
    · exact hashedIn_sample longerBlock_laidOut second
  have pairs : ∀ text ∈ [emptySampleBytes, [0xc0], [0x80]],
      ∀ other ∈ [emptySampleBytes, [0xc0], [0x80]],
        sha3 text = sha3 other → text = other := by
    decide +kernel
  intro text inside other inside' same
  refine pairs text ?_ other ?_ same
  · simpa using shape text inside
  · simpa using shape other inside'

theorem hash_fixes_block_iff_sample :
    exactBlock = longerBlock ↔
      uncommitted exactBlock = uncommitted longerBlock :=
  hash_fixes_block_iff (by decide +kernel) (by decide +kernel)
    exactBlock_verified longerBlock_verified exactBlock_laidOut.hash_eq
    longerBlock_laidOut.hash_eq injOn_sample

/-- A fourth item passes the checks and leaves the hash as it is. -/
theorem fourth_item_accepted :
    ¬∀ (engine : SealEngine) (headerData : H256 → Bytes)
      (first second : Bytes) (hash : H256)
      (result result' : VerifiedBlockRef TransactionBase),
      BlockChain.verifyBlock engine headerData .outOfOrderChecks first =
        .ok result →
      BlockChain.verifyBlock engine headerData .outOfOrderChecks second =
        .ok result' →
      headerHashFromBlock first = .ok hash →
      headerHashFromBlock second = .ok hash →
      Set.InjOn sha3 (hashedIn first ∪ hashedIn second) → first = second := by
  intro all
  have same := all noProof (fun _ => []) exactBlock longerBlock _ _ _
    exactBlock_verified longerBlock_verified exactBlock_laidOut.hash_eq
    longerBlock_laidOut.hash_eq injOn_sample
  revert same
  decide +kernel

end Sample

end Aecmio
