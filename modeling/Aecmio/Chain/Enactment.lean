import Aecmio.Chain.Block
import Aecmio.Logic.Framed

/-!
# What an enacted block commits to

The receipts, the bloom filter and the gas of a header are compared with the
execution.  The state root is compared only when it differs from that of the
parent.
-/

namespace Aecmio

open Framed

section

variable [Hashing] {Transaction ε : Type}

namespace Block

variable {block block' : Block Transaction} {chain : BlockChain}

/-- Only the state differs. -/
structure OnlyState (block block' : Block Transaction) : Prop where
  receipts : block'.receipts = block.receipts
  currentBlock : block'.currentBlock = block.currentBlock
  previousBlock : block'.previousBlock = block.previousBlock

omit [Hashing] in
theorem OnlyState.refl (block : Block Transaction) : OnlyState block block :=
  ⟨rfl, rfl, rfl⟩

instance : Std.Refl (@OnlyState Transaction) :=
  ⟨OnlyState.refl⟩

instance : IsTrans (Block Transaction) OnlyState where
  trans _ _ _ first second :=
    ⟨second.receipts.trans first.receipts,
      second.currentBlock.trans first.currentBlock,
      second.previousBlock.trans first.previousBlock⟩

omit [Hashing] in
theorem frames_ofRlp {α : Type} (result : Except RLPError α) :
    Frames OnlyState (ofRlp result : BlockM Transaction ε α) :=
  frames_lift _

omit [Hashing] in
theorem ofRlp_ok {α : Type} {result : Except RLPError α} {value : α}
    (ran : (ofRlp result : BlockM Transaction ε α).run block =
      .ok (value, block')) : block = block' ∧ result = .ok value := by
  cases result with
  | error error => cases ran
  | ok found =>
      cases ran
      exact ⟨rfl, rfl⟩

omit [Hashing] in
theorem frames_ofHeader {α : Type} (result : Except HeaderError α) :
    Frames OnlyState (ofHeader result : BlockM Transaction ε α) :=
  frames_lift _

omit [Hashing] in
theorem frames_onState {α ε' : Type} (wrap : ε' → BlockError ε)
    (method : EStateM ε' State α) :
    Frames OnlyState (onState wrap method : BlockM Transaction ε α) := by
  intro block value block' ran
  obtain ⟨_, _, read, ran⟩ := run_bind_eq_ok.mp ran
  cases read
  cases result : method.run block.state with
  | error error state =>
      rw [result] at ran
      cases ran
  | ok value state =>
      rw [result] at ran
      cases ran
      exact ⟨rfl, rfl, rfl⟩

theorem frames_checkUncle (excluded : List H256) (uncleData : Bytes) :
    Frames OnlyState
      (checkUncle chain excluded uncleData : BlockM Transaction ε _) := by
  refine frames_bind frames_get fun block => ?_
  refine frames_ite (frames_throw _) ?_
  refine frames_bind (frames_ofRlp _) fun uncle => ?_
  refine frames_ite (frames_throw _) ?_
  refine frames_bind (frames_ofHeader _) fun uncleParent => ?_
  refine frames_ite (frames_throw _) ?_
  refine frames_ite (frames_throw _) ?_
  refine frames_bind (frames_ofRlp _) fun hash => ?_
  refine frames_ite (frames_throw _) ?_
  exact frames_bind (frames_ofHeader _) fun _ => frames_pure _

theorem frames_checkUncles (uncles : List Bytes) (index : Nat)
    (excluded : List H256) :
    Frames OnlyState
      (checkUncles chain index excluded uncles : BlockM Transaction ε _) := by
  induction uncles generalizing index excluded with
  | nil => exact frames_pure []
  | cons uncle uncles induction =>
      refine frames_bind (frames_tryCatch (frames_checkUncle _ _)
        fun error => frames_throw _) fun checked => ?_
      exact frames_bind (induction _ _) fun _ => frames_pure _

theorem frames_applyRewards (uncles : List BlockHeader) (reward : U256) :
    Frames OnlyState
      (applyRewards uncles reward : BlockM Transaction ε Unit) := by
  refine frames_bind frames_get fun block => ?_
  refine frames_bind (frames_foldlM ?_ uncles reward) fun _ =>
    frames_onState _ _
  intro before uncle
  exact frames_bind (frames_onState _ _) fun _ => frames_pure _

theorem frames_rewardUncles (rlp : Bytes) :
    Frames OnlyState
      (rewardUncles chain rlp : BlockM Transaction ε Unit) := by
  refine frames_bind (frames_ofRlp _) fun uncles => ?_
  refine frames_bind (frames_ofRlp _) fun count => ?_
  refine frames_ite (frames_throw _) ?_
  refine frames_bind frames_get fun block => ?_
  refine frames_bind (frames_ofRlp _) fun hash => ?_
  refine frames_bind (frames_ofRlp _) fun parts => ?_
  exact frames_bind (frames_checkUncles _ _ _) fun _ => frames_applyRewards _ _

theorem frames_commitState :
    Frames OnlyState (commitState chain : BlockM Transaction ε Unit) :=
  frames_bind frames_get fun _ => frames_onState _ _

variable {execution : Execution Transaction ε} {lastHashes : H256 → List H256}

/-! ## The receipts -/

/-- A transaction adds one receipt. -/
structure AddsReceipt (block block' : Block Transaction) : Prop where
  receipts : ∃ receipt, block'.receipts = block.receipts ++ [receipt]
  currentBlock : block'.currentBlock = block.currentBlock
  previousBlock : block'.previousBlock = block.previousBlock

omit [Hashing] in
theorem onlyState_uncommitToSeal (block : Block Transaction) :
    OnlyState block block.uncommitToSeal := by
  unfold uncommitToSeal
  split
  · exact ⟨rfl, rfl, rfl⟩
  · exact .refl block

omit [Hashing] in
theorem addsReceipt_execute (transaction : Transaction) :
    Frames AddsReceipt (execute execution lastHashes transaction) := by
  intro block value block' ran
  obtain ⟨_, _, read, ran⟩ := run_bind_eq_ok.mp ran
  cases read
  split at ran
  · cases ran
  · obtain ⟨_, _, changed, ran⟩ := run_bind_eq_ok.mp ran
    cases changed
    obtain ⟨_, _, read, ran⟩ := run_bind_eq_ok.mp ran
    cases read
    obtain ⟨receipt, executed, stateRun, ran⟩ := run_bind_eq_ok.mp ran
    cases ran
    have uncommitted := onlyState_uncommitToSeal block
    have onState := frames_onState _ _ _ _ _ stateRun
    constructor
    · refine ⟨receipt, ?_⟩
      show executed.receipts ++ [receipt] = _
      rw [onState.receipts, uncommitted.receipts]
    · exact onState.currentBlock.trans uncommitted.currentBlock
    · exact onState.previousBlock.trans uncommitted.previousBlock

omit [Hashing] in
theorem lastReceipt_ok {receipts : List TransactionReceipt}
    {receipt : TransactionReceipt} {text : Bytes}
    (last : block.receipts = receipts ++ [receipt])
    (ran : (lastReceipt : BlockM Transaction ε Bytes).run block =
      .ok (text, block')) : block = block' ∧ receipt.rlp = .ok text := by
  obtain ⟨_, _, read, ran⟩ := run_bind_eq_ok.mp ran
  cases read
  rw [last, List.getLast?_concat] at ran
  change (ofRlp receipt.rlp : BlockM Transaction ε Bytes).run block = _ at ran
  exact ofRlp_ok ran

/-- The loop adds receipts, whose RLP it returns. -/
structure Produces (block block' : Block Transaction) (texts : List Bytes) :
    Prop where
  receipts : ∃ receipts, block'.receipts = block.receipts ++ receipts ∧
    receipts.mapM TransactionReceipt.rlp = .ok texts
  currentBlock : block'.currentBlock = block.currentBlock
  previousBlock : block'.previousBlock = block.previousBlock

omit [Hashing] in
theorem produces_playBack {transactions : List Transaction} {index : Nat}
    {texts : List Bytes}
    (ran : (playBack execution lastHashes index transactions).run block =
      .ok (texts, block')) : Produces block block' texts := by
  induction transactions generalizing index block texts with
  | nil =>
      cases ran
      exact ⟨⟨[], by simp, rfl⟩, rfl, rfl⟩
  | cons transaction transactions induction =>
      obtain ⟨_, executed, ranFirst, ran⟩ := run_bind_eq_ok.mp ran
      obtain ⟨text, read, ranText, ran⟩ := run_bind_eq_ok.mp ran
      obtain ⟨rest, last, ranRest, ran⟩ := run_bind_eq_ok.mp ran
      cases ran
      have first := frames_tryCatch (addsReceipt_execute transaction)
        (fun error => frames_throw _) _ _ _ ranFirst
      obtain ⟨receipt, added⟩ := first.receipts
      obtain ⟨rfl, written⟩ := lastReceipt_ok added ranText
      have later := induction ranRest
      obtain ⟨receipts, appended, mapped⟩ := later.receipts
      constructor
      · refine ⟨receipt :: receipts, ?_, ?_⟩
        · rw [appended, added, List.append_assoc]
          rfl
        · rw [List.mapM_cons, written, mapped]
          rfl
      · exact later.currentBlock.trans first.currentBlock
      · exact later.previousBlock.trans first.previousBlock

/-! ## The checks -/

theorem checkReceipts_ok {texts : List Bytes} {value : Unit}
    (ran : (checkReceipts texts : BlockM Transaction ε Unit).run block =
      .ok (value, block')) :
    block = block' ∧
      orderedTrieRoot texts = .ok block.currentBlock.receiptsRoot ∧
      block.currentBlock.logBloom = block.logBloom := by
  obtain ⟨_, _, read, ran⟩ := run_bind_eq_ok.mp ran
  cases read
  obtain ⟨root, _, ranRoot, ran⟩ := run_bind_eq_ok.mp ran
  obtain ⟨rfl, computed⟩ := ofRlp_ok ranRoot
  by_cases same : root = block.currentBlock.receiptsRoot
  · by_cases sameBloom : block.currentBlock.logBloom = block.logBloom
    · simp only [same, sameBloom, ne_eq, not_true, if_false] at ran
      cases ran
      exact ⟨rfl, same ▸ computed, sameBloom⟩
    · simp only [same, sameBloom, ne_eq, not_true, not_false_eq_true,
        if_false, if_true] at ran
      cases ran
  · simp only [same, ne_eq, not_false_eq_true, if_true] at ran
    cases ran

theorem checkResult_ok {value : Unit}
    (ran : (checkResult : BlockM Transaction ε Unit).run block =
      .ok (value, block')) :
    block = block' ∧ block.currentBlock.gasUsed = block.gasUsed ∧
      (block.currentBlock.stateRoot ≠ block.previousBlock.stateRoot →
        block.currentBlock.stateRoot = block.state.rootHash) := by
  obtain ⟨_, _, read, ran⟩ := run_bind_eq_ok.mp ran
  cases read
  simp only at ran
  split at ran
  · cases ran
  · rename_i accepted
    split at ran
    · cases ran
    · rename_i sameGas
      cases ran
      refine ⟨rfl, not_not.mp sameGas, ?_⟩
      intro different
      by_contra wrong
      exact accepted ⟨different, wrong⟩

/-! ## What is accepted -/

/-- The ordered trie root of the receipts of a block. -/
def receiptsRoot (block : Block Transaction) : Except RLPError H256 := do
  let texts ← block.receipts.mapM TransactionReceipt.rlp
  orderedTrieRoot texts

/-- The header commits to what the block holds. -/
structure CommitsTo (header : BlockHeader) (block : Block Transaction) :
    Prop where
  stateRoot : header.stateRoot = block.state.rootHash
  receiptsRoot : block.receiptsRoot = .ok header.receiptsRoot
  logBloom : header.logBloom = block.logBloom
  gasUsed : header.gasUsed = block.gasUsed

/-- The outcome of executing the transactions and applying the rewards. -/
def outcome (execution : Execution Transaction ε) (chain : BlockChain)
    (verified : VerifiedBlockRef Transaction) : BlockM Transaction ε Unit := do
  modify fun block => { block with currentBlock := verified.info }
  let rlp ← ofRlp (RLP.construct verified.block .veryStrict)
  let _ ← playBack execution chain.lastBlockHashes 0 verified.transactions
  rewardUncles chain rlp
  commitState chain

/-- The state root of the outcome. -/
def outcomeRoot (execution : Execution Transaction ε) (chain : BlockChain)
    (verified : VerifiedBlockRef Transaction) (block : Block Transaction) :
    Except (BlockError ε) H256 := do
  let (_, block) ← (outcome execution chain verified).run block
  return block.state.rootHash

variable {verified : VerifiedBlockRef Transaction} {tdIncrease : U256}

/-- What `enact` has checked when it returns. -/
theorem enact_ok (reset : block.receipts = [])
    (accepted : (enact execution chain verified).run block =
      .ok (tdIncrease, block')) :
    outcomeRoot execution chain verified block = .ok block'.state.rootHash ∧
      (verified.info.stateRoot ≠ block.previousBlock.stateRoot →
        verified.info.stateRoot = block'.state.rootHash) ∧
      block'.receiptsRoot = .ok verified.info.receiptsRoot ∧
      verified.info.logBloom = block'.logBloom ∧
      verified.info.gasUsed = block'.gasUsed := by
  obtain ⟨_, _, read, ran⟩ := run_bind_eq_ok.mp accepted
  cases read
  obtain ⟨hash, _, hashed, ran⟩ := run_bind_eq_ok.mp ran
  obtain ⟨rfl, _⟩ := ofRlp_ok hashed
  split at ran
  · cases ran
  · obtain ⟨_, _, changed, ran⟩ := run_bind_eq_ok.mp ran
    cases changed
    obtain ⟨rlp, _, constructed, ran⟩ := run_bind_eq_ok.mp ran
    obtain ⟨texts, played, playedBack, ran⟩ := run_bind_eq_ok.mp ran
    obtain ⟨_, _, receiptsChecked, ran⟩ := run_bind_eq_ok.mp ran
    obtain ⟨_, rewarded, uncles, ran⟩ := run_bind_eq_ok.mp ran
    obtain ⟨_, committed, commit, ran⟩ := run_bind_eq_ok.mp ran
    obtain ⟨_, _, resultChecked, ran⟩ := run_bind_eq_ok.mp ran
    cases ran
    obtain ⟨rfl, receiptsRoot, bloom⟩ := checkReceipts_ok receiptsChecked
    obtain ⟨rfl, gas, root⟩ := checkResult_ok resultChecked
    have produced := produces_playBack playedBack
    have framed := IsTrans.trans _ _ _ (frames_rewardUncles _ _ _ _ uncles)
      (frames_commitState _ _ _ commit)
    obtain ⟨rfl, _⟩ := ofRlp_ok constructed
    have header : played.currentBlock = verified.info := produced.currentBlock
    have parent : played.previousBlock = block.previousBlock :=
      produced.previousBlock
    rw [framed.currentBlock, header, framed.previousBlock, parent] at root
    rw [framed.currentBlock, header] at gas
    rw [header] at receiptsRoot bloom
    have outcome : (outcome execution chain verified).run block =
        .ok ((), committed) := by
      refine run_bind_eq_ok.mpr ⟨_, _, rfl, ?_⟩
      refine run_bind_eq_ok.mpr ⟨_, _, constructed, ?_⟩
      refine run_bind_eq_ok.mpr ⟨_, _, playedBack, ?_⟩
      exact run_bind_eq_ok.mpr ⟨_, _, uncles, commit⟩
    refine ⟨by rw [outcomeRoot, outcome]; rfl, root, ?_, ?_, gas⟩
    · obtain ⟨receipts, appended, mapped⟩ := produced.receipts
      rw [reset, List.nil_append] at appended
      rw [Block.receiptsRoot, framed.receipts, appended, mapped]
      exact receiptsRoot
    · rw [bloom, logBloom, logBloom, framed.receipts]

/-- An accepted block commits to its execution exactly when the comparison of
the state root is not skipped, or skipping it does no harm. -/
theorem commitsTo_enact_iff (reset : block.receipts = [])
    (accepted : (enact execution chain verified).run block =
      .ok (tdIncrease, block')) :
    CommitsTo verified.info block' ↔
      (verified.info.stateRoot = block.previousBlock.stateRoot →
        outcomeRoot execution chain verified block =
          .ok block.previousBlock.stateRoot) := by
  obtain ⟨outcome, root, receipts, bloom, gas⟩ := enact_ok reset accepted
  constructor
  · intro commits same
    rw [outcome, ← commits.stateRoot, same]
  · intro harmless
    refine ⟨?_, receipts, bloom, gas⟩
    by_cases same : verified.info.stateRoot = block.previousBlock.stateRoot
    · have unchanged := harmless same
      rw [outcome] at unchanged
      rw [same, Except.ok.inj unchanged]
    · exact root same

end Block

end

/-! ## A sample

A block without transactions and uncles on an empty genesis state: the only
change is the reward of its author. -/

def blockSampleEmptyRoot : H256 := hashOfNat
  0x56e81f171bcc55a6ff8345e692c0f86e5b48e01b996cadc001622fb5e363b421

/-- The state root once the reward is paid. -/
def blockSampleRoot : H256 := hashOfNat
  0xde326ad0f60fa09c1b4d6027594aa886b19904b3f8846781fec171310d5c5d0c

def blockSampleEmptyHash : H256 := hashOfNat
  0xc5d2460186f7233c927e7db2dcc703c0e500b653ca82273b7bfad8045d85a470

theorem length_blockSampleAuthor :
    (List.replicate 19 (0 : UInt8) ++ [1]).length = 20 := rfl

def blockSampleAuthor : Address :=
  ⟨List.replicate 19 0 ++ [1], length_blockSampleAuthor⟩

/-- The hashes of the texts and of the tries of the sample. -/
@[reducible]
def blockSampleHashing : Hashing where
  sha3 text := if text = [] then blockSampleEmptyHash
    else if text = [0x80] then blockSampleEmptyRoot
    else hashOfNat 0
  trieRoot contents :=
    if contents = ∅ then blockSampleEmptyRoot
    else if contents = Finmap.singleton blockSampleAuthor.val
        (AccountFields.encoding ⟨0, 0x4563918244F40000, blockSampleEmptyRoot,
          blockSampleEmptyHash⟩) then blockSampleRoot
    else hashOfNat 0

def blockSampleParent : BlockHeader where
  sha3Uncles := hashOfNat
    0x1dcc4de8dec75d7aab85b567b6ccd41ad312451b948a7413f0a142fd40d49347
  stateRoot := blockSampleEmptyRoot
  transactionsRoot := blockSampleEmptyRoot
  receiptsRoot := blockSampleEmptyRoot
  difficulty := 131072
  gasLimit := 3141592
  timestamp := 0
  memo := hashOfNat
    0x704c48ae6078d5231b15022b13e70a37cfba6c03c53058b3d859447021f20b52

/-- The header of the block with a given state root. -/
def blockSampleHeader (stateRoot memo : H256) : BlockHeader :=
  { blockSampleParent with
    parentHash := blockSampleParent.memo
    author := blockSampleAuthor
    stateRoot
    number := 1
    timestamp := 1
    memo }

/-- The block in RLP. -/
def blockSampleText (header : BlockHeader) : Bytes :=
  Item.encode (.list [
    .list [.data header.parentHash.val, .data header.sha3Uncles.val,
      .data header.author.val, .data header.stateRoot.val,
      .data header.transactionsRoot.val, .data header.receiptsRoot.val,
      .data header.logBloom.val,
      .data (RLPStream.intContent header.difficulty.toNat),
      .data (RLPStream.intContent header.number.toNat),
      .data (RLPStream.intContent header.gasLimit.toNat),
      .data (RLPStream.intContent header.gasUsed.toNat),
      .data (RLPStream.intContent header.timestamp.toNat),
      .data header.extraData],
    .list [], .list []])

def blockSampleVerified (stateRoot memo : H256) : VerifiedBlockRef Unit where
  block := blockSampleText (blockSampleHeader stateRoot memo)
  info := blockSampleHeader stateRoot memo
  transactions := []

def blockSampleChain : BlockChain where
  lastBlockHashes hash := [hash]
  allKinFrom hash _ := [hash]
  isKnown hash := hash = blockSampleParent.memo
  block _ := blockSampleText blockSampleParent
  parent _ := zeroHash 32
  blockReward _ := 0x4563918244F40000
  eip158ForkBlock := 0

def blockSampleState : State where
  db := {}
  trie := ∅
  accountStartNonce := 0
  randomness _ := 0

/-- The parent's state, before any block of the chain is enacted on it. -/
def blockSample : Block Unit where
  state := blockSampleState
  precommit := blockSampleState
  previousBlock := blockSampleParent
  currentBlock := { blockSampleParent with
    parentHash := blockSampleParent.memo, number := 1 }

/-- There is no transaction to execute. -/
def blockSampleExecution : Block.Execution Unit Empty :=
  fun _ _ => return ⟨.statusCode 1, 21000, zeroHash 256, []⟩

section Sample

attribute [local instance] blockSampleHashing

/-- What `enact` gives on the sample block with a given state root. -/
def blockSampleEnacted (stateRoot memo : H256) :
    Except (BlockError Empty) (U256 × Block Unit) :=
  (Block.enact blockSampleExecution blockSampleChain
    (blockSampleVerified stateRoot memo)).run blockSample

/-- The state root after the block, when it is accepted. -/
def blockSampleAccepted (stateRoot memo : H256) : Option H256 :=
  match blockSampleEnacted stateRoot memo with
  | .ok (_, block) => some block.state.rootHash
  | .error _ => none

theorem blockSampleAccepted_spec {stateRoot memo root : H256}
    (accepted : blockSampleAccepted stateRoot memo = some root) :
    ∃ tdIncrease block, blockSampleEnacted stateRoot memo =
      .ok (tdIncrease, block) ∧ block.state.rootHash = root := by
  unfold blockSampleAccepted at accepted
  split at accepted
  · rename_i tdIncrease block enacted
    exact ⟨tdIncrease, block, enacted, Option.some.inj accepted⟩
  · cases accepted

/-- A header with the state root that the execution gives. -/
theorem commitsTo_enact_iff_sample :
    ∃ tdIncrease block,
      blockSampleEnacted blockSampleRoot (hashOfNat
        0x1bd2c0bc5aa6f96bc94a4ddc07ba4f0e746a4a6ac124686c5f558080e1a7ca62) =
          .ok (tdIncrease, block) ∧
      Block.CommitsTo (blockSampleHeader blockSampleRoot (hashOfNat
        0x1bd2c0bc5aa6f96bc94a4ddc07ba4f0e746a4a6ac124686c5f558080e1a7ca62))
        block := by
  have accepted : blockSampleAccepted blockSampleRoot (hashOfNat
      0x1bd2c0bc5aa6f96bc94a4ddc07ba4f0e746a4a6ac124686c5f558080e1a7ca62) =
        some blockSampleRoot := by
    decide +kernel
  obtain ⟨tdIncrease, block, enacted, _⟩ := blockSampleAccepted_spec accepted
  refine ⟨tdIncrease, block, enacted, ?_⟩
  refine (Block.commitsTo_enact_iff rfl enacted).mpr ?_
  intro same
  exact absurd same (by decide +kernel)

/-- A header that repeats the state root of the parent is accepted although
the reward has changed the state. -/
theorem enact_accepts_parent_root_sample :
    ∃ tdIncrease block,
      blockSampleEnacted blockSampleEmptyRoot (hashOfNat
        0x11deaf7403c8120710b81ad2b2c14473078616b66066890a4eee32145b28b7e6) =
          .ok (tdIncrease, block) ∧
      ¬ Block.CommitsTo (blockSampleHeader blockSampleEmptyRoot (hashOfNat
        0x11deaf7403c8120710b81ad2b2c14473078616b66066890a4eee32145b28b7e6))
        block := by
  have accepted : blockSampleAccepted blockSampleEmptyRoot (hashOfNat
      0x11deaf7403c8120710b81ad2b2c14473078616b66066890a4eee32145b28b7e6) =
        some blockSampleRoot := by
    decide +kernel
  obtain ⟨tdIncrease, block, enacted, root⟩ :=
    blockSampleAccepted_spec accepted
  refine ⟨tdIncrease, block, enacted, ?_⟩
  intro commits
  have same : blockSampleEmptyRoot = blockSampleRoot :=
    commits.stateRoot.trans root
  exact absurd same (by decide +kernel)

end Sample

end Aecmio
