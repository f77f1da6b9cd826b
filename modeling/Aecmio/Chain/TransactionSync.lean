import Aecmio.Chain.Receipt
import Aecmio.Queue.TransactionQueue

/-!
# Taking transactions from the queue

`Block::sync` executes what the queue has for the next block, in passes over
one list of transactions, until every one of them is executed in a pass or
the deadline is over.  What the execution of a transaction and the gas pricer
say is a parameter, and so is the clock.
-/

namespace Aecmio

open TransactionQueue (Transaction)

/-- The number of transactions of a sender. -/
def TransactionQueue.waiting (queue : TransactionQueue) (sender : Address) :
    Nat :=
  ((queue.currentByAddressAndNonce.get sender).transactions.length +
    (queue.future.get sender).transactions.length) % 2 ^ 32

/-- The exceptions that `sync` tells apart. -/
inductive SyncException where
  | invalidNonce (required got : Int)
  | blockGasLimitReached (got : Int)
  | other
deriving DecidableEq

/-- A block that takes transactions; `σ` is its state and what else an
execution changes. -/
structure WorkingBlock (σ : Type) where
  rest : σ
  gasLimit : U256
  parentHash : H256
  isSealed : Bool := false
  transactions : List Transaction := []
  receipts : List TransactionReceipt := []
  transactionSet : Finset H256 := ∅

/-- `State::execute` after `uncommitToSeal`, also when it throws, and
`GasPricer::ask`. -/
structure SyncEnvironment (σ : Type) where
  execution : WorkingBlock σ → Transaction →
    Except SyncException TransactionReceipt × σ
  ask : WorkingBlock σ → U256

namespace WorkingBlock

variable {σ : Type} (environment : SyncEnvironment σ)

/-- `execute` with `Permanence::Committed`. -/
def execute (block : WorkingBlock σ) (transaction : Transaction) :
    Except SyncException TransactionReceipt × WorkingBlock σ :=
  match environment.execution block transaction with
  | (.error error, rest) => (.error error, { block with rest })
  | (.ok receipt, rest) =>
      (.ok receipt, { block with
        rest
        transactions := block.transactions ++ [transaction]
        receipts := block.receipts ++ [receipt]
        transactionSet := Insert.insert transaction.hash block.transactionSet })

/-- What becomes of a transaction in a pass. -/
inductive Verdict where
  | skipped
  | executed
  | dropped
  | future
  | leftForPrice
  | leftForGas
deriving DecidableEq

/-- The block and the queue, and the receipts to return. -/
structure Syncing (σ : Type) where
  block : WorkingBlock σ
  queue : TransactionQueue
  receipts : List TransactionReceipt := []

namespace Syncing

def drop (syncing : Syncing σ) (transaction : Transaction) :
    Option (Verdict × Syncing σ) := do
  return (.dropped, { syncing with
    queue := ← syncing.queue.drop transaction.hash })

/-- The handlers of the exceptions. -/
def handle (syncing : Syncing σ) (transaction : Transaction) :
    SyncException → Option (Verdict × Syncing σ)
  | .invalidNonce required got =>
      if required > got then syncing.drop transaction
      else if got > required + syncing.queue.waiting transaction.sender then
        syncing.drop transaction
      else some (.future, { syncing with
        queue := syncing.queue.setFuture transaction.hash })
  | .blockGasLimitReached got =>
      if got > syncing.block.gasLimit.toNat then syncing.drop transaction
      else some (.leftForGas, syncing)
  | .other => syncing.drop transaction

/-- The body of the inner loop. -/
def attempt (syncing : Syncing σ) (transaction : Transaction) :
    Option (Verdict × Syncing σ) :=
  if transaction.hash ∈ syncing.block.transactionSet then
    some (.skipped, syncing)
  else if environment.ask syncing.block ≤ transaction.gasPrice then
    match syncing.block.execute environment transaction with
    | (.ok receipt, block) =>
        some (.executed, { syncing with
          block, receipts := syncing.receipts ++ [receipt] })
    | (.error error, block) =>
        { syncing with block }.handle transaction error
  else if transaction.gasPrice < environment.ask syncing.block * 9 / 10 then
    syncing.drop transaction
  else some (.leftForPrice, syncing)

/-- One pass, with the verdict on each transaction. -/
def pass (syncing : Syncing σ) :
    List Transaction → Option (List Verdict × Syncing σ)
  | [] => some ([], syncing)
  | transaction :: rest => do
      let (verdict, syncing) ← syncing.attempt environment transaction
      let (verdicts, syncing) ← syncing.pass rest
      return (verdict :: verdicts, syncing)

/-- What the passes lead to, with the verdicts of each. -/
structure Passed (σ : Type) where
  syncing : Syncing σ
  log : List (List Verdict) := []
  crossedDeadline : Bool := false

/-- The loop over the passes, at most `fuel` of them; `clock` tells whether
the deadline is over after each. -/
def passLoop (clock : Nat → Bool) (ts : List Transaction)
    (fuel passes goodTxs : Nat) (syncing : Syncing σ) : Option (Passed σ) :=
  if goodTxs < ts.length then
    match fuel with
    | 0 => none
    | fuel + 1 => do
        let (verdicts, syncing) ← syncing.pass environment ts
        if clock passes then
          return { syncing, log := [verdicts], crossedDeadline := true }
        let passed ← passLoop clock ts fuel (passes + 1)
          (verdicts.count .executed) syncing
        return { passed with log := verdicts :: passed.log }
  else some { syncing }

end Syncing

def c_maxSyncTransactions : Nat := 1024

/-- What the queue hands out for a block. -/
def handedOut (block : WorkingBlock σ) (queue : TransactionQueue) :
    List Transaction :=
  queue.topTransactions c_maxSyncTransactions block.transactionSet

/-- The pass loop of `sync`, which first assumes all but one as good. -/
def passes (clock : Nat → Bool) (fuel : Nat) (block : WorkingBlock σ)
    (queue : TransactionQueue) : Option (Syncing.Passed σ) :=
  Syncing.passLoop environment clock (handedOut block queue) fuel 0
    ((handedOut block queue).length - 1) { block, queue }

/-- `sync(BlockChain, TransactionQueue, GasPricer)` for a chain with this
head: the receipts, whether there is more, the block and the queue. -/
def sync (clock : Nat → Bool) (fuel : Nat) (currentHash : H256)
    (block : WorkingBlock σ) (queue : TransactionQueue) :
    Option (List TransactionReceipt × Bool × WorkingBlock σ ×
      TransactionQueue) :=
  if block.isSealed ∨ currentHash ≠ block.parentHash then none
  else do
    let passed ← passes environment clock fuel block queue
    return (passed.syncing.receipts,
      passed.crossedDeadline ||
        (handedOut block queue).length == c_maxSyncTransactions,
      passed.syncing.block, passed.syncing.queue)

/-! ## One transaction -/

variable {environment} {before : WorkingBlock σ} {syncing after : Syncing σ}
  {ts added : List Transaction} {transaction : Transaction}
  {verdict : Verdict} {verdicts : List Verdict}

theorem execute_error {block after : WorkingBlock σ} {error : SyncException}
    (failed : block.execute environment transaction = (.error error, after)) :
    ∃ rest, after = { block with rest } := by
  unfold execute at failed
  split at failed
  · cases failed
    exact ⟨_, rfl⟩
  · cases failed

theorem execute_ok {block after : WorkingBlock σ}
    {receipt : TransactionReceipt}
    (done : block.execute environment transaction = (.ok receipt, after)) :
    after.transactions = block.transactions ++ [transaction] ∧
      after.receipts = block.receipts ++ [receipt] ∧
      after.transactionSet =
        Insert.insert transaction.hash block.transactionSet := by
  unfold execute at done
  split at done
  · cases done
  · cases done
    exact ⟨rfl, rfl, rfl⟩

/-- The verdicts on a transaction that is not executed. -/
def Verdict.leaves : Verdict → Bool
  | .dropped | .future | .leftForPrice | .leftForGas => true
  | .skipped | .executed => false

namespace Syncing

/-- What only an execution changes is the same. -/
structure Unexecuted (syncing after : Syncing σ) : Prop where
  transactions : after.block.transactions = syncing.block.transactions
  blockReceipts : after.block.receipts = syncing.block.receipts
  transactionSet : after.block.transactionSet = syncing.block.transactionSet
  receipts : after.receipts = syncing.receipts

theorem drop_cases (done : syncing.drop transaction = some (verdict, after)) :
    verdict.leaves = true ∧ Unexecuted syncing after := by
  obtain ⟨queue, -, same⟩ := Option.map_eq_some_iff.mp
    ((Option.map_eq_bind).trans done)
  cases same
  exact ⟨rfl, rfl, rfl, rfl, rfl⟩

theorem handle_cases {error : SyncException}
    (done : syncing.handle transaction error = some (verdict, after)) :
    verdict.leaves = true ∧ Unexecuted syncing after := by
  cases error with
  | invalidNonce required got =>
      rw [handle] at done
      split at done
      · exact drop_cases done
      split at done
      · exact drop_cases done
      · cases done
        exact ⟨rfl, rfl, rfl, rfl, rfl⟩
  | blockGasLimitReached got =>
      rw [handle] at done
      split at done
      · exact drop_cases done
      · cases done
        exact ⟨rfl, rfl, rfl, rfl, rfl⟩
  | other => exact drop_cases done

/-- A transaction is skipped, executed or left. -/
theorem attempt_cases
    (done : syncing.attempt environment transaction = some (verdict, after)) :
    (verdict = .skipped ∧ after = syncing ∧
      transaction.hash ∈ syncing.block.transactionSet) ∨
    (verdict = .executed ∧
      transaction.hash ∉ syncing.block.transactionSet ∧
      environment.ask syncing.block ≤ transaction.gasPrice ∧
      ∃ receipt block,
        syncing.block.execute environment transaction = (.ok receipt, block) ∧
        after = { syncing with
          block, receipts := syncing.receipts ++ [receipt] }) ∨
    (verdict.leaves = true ∧
      transaction.hash ∉ syncing.block.transactionSet ∧
      Unexecuted syncing after) := by
  unfold attempt at done
  split at done
  · next member =>
      cases done
      exact .inl ⟨rfl, rfl, member⟩
  next new =>
  split at done
  · next paid =>
      split at done
      · next receipt block executed =>
          cases done
          exact .inr (.inl ⟨rfl, new, paid, receipt, block, executed, rfl⟩)
      · next error block failed =>
          obtain ⟨rest, same⟩ := execute_error failed
          obtain ⟨leaves, unexecuted⟩ := handle_cases done
          rw [same] at unexecuted
          exact .inr (.inr ⟨leaves, new, unexecuted.transactions,
            unexecuted.blockReceipts, unexecuted.transactionSet,
            unexecuted.receipts⟩)
  split at done
  · obtain ⟨leaves, unexecuted⟩ := drop_cases done
    exact .inr (.inr ⟨leaves, new, unexecuted⟩)
  · cases done
    exact .inr (.inr ⟨rfl, new, rfl, rfl, rfl, rfl⟩)

/-! ## The transactions added so far -/

/-- What was added to the block since `before`, with the receipts. -/
structure Adds (before : WorkingBlock σ) (syncing : Syncing σ)
    (added : List Transaction) : Prop where
  transactions : syncing.block.transactions = before.transactions ++ added
  receipts : syncing.block.receipts = before.receipts ++ syncing.receipts
  counted : syncing.receipts.length = added.length
  distinct : (added.map Transaction.hash).Nodup
  known : ∀ hash, hash ∈ syncing.block.transactionSet ↔
    hash ∈ before.transactionSet ∨ hash ∈ added.map Transaction.hash
  fresh : ∀ other ∈ added, other.hash ∉ before.transactionSet

theorem Adds.nil (queue : TransactionQueue) :
    Adds before { block := before, queue } [] :=
  ⟨by simp, by simp, rfl, .nil, by simp, by simp⟩

theorem Adds.unexecuted (adds : Adds before syncing added)
    (unexecuted : Unexecuted syncing after) : Adds before after added := by
  refine ⟨?_, ?_, ?_, adds.distinct, ?_, adds.fresh⟩
  · rw [unexecuted.transactions, adds.transactions]
  · rw [unexecuted.blockReceipts, unexecuted.receipts, adds.receipts]
  · rw [unexecuted.receipts, adds.counted]
  · rw [unexecuted.transactionSet]
    exact adds.known

theorem Adds.executed (adds : Adds before syncing added)
    {receipt : TransactionReceipt} {block : WorkingBlock σ}
    (new : transaction.hash ∉ syncing.block.transactionSet)
    (done : syncing.block.execute environment transaction =
      (.ok receipt, block)) :
    Adds before { syncing with
      block, receipts := syncing.receipts ++ [receipt] }
      (added ++ [transaction]) := by
  obtain ⟨transactions, receipts, set_⟩ := execute_ok done
  rw [adds.known, not_or] at new
  refine ⟨?_, ?_, ?_, ?_, ?_, ?_⟩
  · rw [transactions, adds.transactions, List.append_assoc]
  · rw [receipts, adds.receipts, List.append_assoc]
  · simp [adds.counted]
  · rw [List.map_append, List.nodup_append]
    refine ⟨adds.distinct, List.nodup_singleton _, ?_⟩
    intro first member second same
    rw [List.map_singleton, List.mem_singleton] at same
    rw [same]
    intro equal
    rw [equal] at member
    exact new.2 member
  · intro hash
    rw [set_, Finset.mem_insert, adds.known, List.map_append, List.mem_append,
      List.map_singleton, List.mem_singleton]
    tauto
  · intro other member
    rcases List.mem_append.mp member with early | last
    · exact adds.fresh other early
    · rw [List.mem_singleton.mp last]
      exact new.1

/-- What one step says of a transaction, and what it keeps. -/
structure Attempted (transaction : Transaction) (syncing after : Syncing σ)
    (verdict : Verdict) : Prop where
  judged : verdict.leaves = true ∨
    transaction.hash ∈ after.block.transactionSet
  new : verdict = .executed →
    transaction.hash ∉ syncing.block.transactionSet
  done : verdict = .executed →
    transaction.hash ∈ after.block.transactionSet
  grows : syncing.block.transactionSet ⊆ after.block.transactionSet

theorem attempted
    (done : syncing.attempt environment transaction = some (verdict, after)) :
    Attempted transaction syncing after verdict := by
  rcases attempt_cases done with ⟨verdict, same, member⟩ |
      ⟨verdict, new, -, receipt, block, executed, same⟩ |
      ⟨leaves, -, unexecuted⟩
  · rw [verdict, same]
    exact ⟨.inr member, by simp, by simp, subset_rfl⟩
  · obtain ⟨-, -, set_⟩ := execute_ok executed
    have member : transaction.hash ∈ after.block.transactionSet := by
      rw [same]
      simp only [set_]
      exact Finset.mem_insert_self _ _
    refine ⟨.inr member, fun _ => new, fun _ => member, ?_⟩
    rw [same]
    simp only [set_]
    exact Finset.subset_insert _ _
  · have other : verdict ≠ .executed := by
      intro executed
      rw [executed] at leaves
      cases leaves
    refine ⟨.inl leaves, fun executed => absurd executed other,
      fun executed => absurd executed other, ?_⟩
    rw [unexecuted.transactionSet]

theorem Adds.attempt (adds : Adds before syncing added)
    (done : syncing.attempt environment transaction = some (verdict, after)) :
    ∃ more, Adds before after (added ++ more) := by
  rcases attempt_cases done with ⟨-, same, -⟩ |
      ⟨-, new, -, receipt, block, executed, same⟩ | ⟨-, -, unexecuted⟩
  · rw [same]
    exact ⟨[], by rwa [List.append_nil]⟩
  · rw [same]
    exact ⟨[transaction], adds.executed new executed⟩
  · refine ⟨[], ?_⟩
    rw [List.append_nil]
    exact adds.unexecuted unexecuted

/-! ## One pass -/

theorem pass_cons {rest : List Transaction}
    (done : syncing.pass environment (transaction :: rest) =
      some (verdicts, after)) :
    ∃ verdict middle others,
      syncing.attempt environment transaction = some (verdict, middle) ∧
      middle.pass environment rest = some (others, after) ∧
      verdicts = verdict :: others := by
  obtain ⟨⟨verdict, middle⟩, first, done⟩ := Option.bind_eq_some_iff.mp done
  obtain ⟨⟨others, final⟩, second, done⟩ := Option.bind_eq_some_iff.mp done
  cases done
  exact ⟨verdict, middle, others, first, second, rfl⟩

/-- What a pass says of its transactions, and what it keeps. -/
structure PassedOver (ts : List Transaction) (syncing after : Syncing σ)
    (verdicts : List Verdict) : Prop where
  length : verdicts.length = ts.length
  judged : ∀ judged ∈ ts.zip verdicts, judged.2.leaves = true ∨
    judged.1.hash ∈ after.block.transactionSet
  grows : syncing.block.transactionSet ⊆ after.block.transactionSet
  executes : .executed ∈ verdicts →
    ∃ other ∈ ts, other.hash ∈ after.block.transactionSet
  skips : ∀ other ∈ ts, other.hash ∈ syncing.block.transactionSet →
    verdicts.count .executed < ts.length

theorem passedOver
    (done : syncing.pass environment ts = some (verdicts, after)) :
    PassedOver ts syncing after verdicts := by
  induction ts generalizing syncing verdicts with
  | nil =>
      cases done
      exact ⟨rfl, by simp, subset_rfl, by simp, by simp⟩
  | cons transaction rest induction =>
      obtain ⟨verdict, middle, others, first, second, rfl⟩ := pass_cons done
      have step := attempted first
      have over_ := induction second
      have counted := List.count_le_length (a := Verdict.executed) (l := others)
      refine ⟨by simp [over_.length], ?_, step.grows.trans over_.grows, ?_, ?_⟩
      · intro judged member
        rw [List.zip_cons_cons] at member
        rcases List.mem_cons.mp member with same | member
        · rw [same]
          exact step.judged.imp_right fun here => over_.grows here
        · exact over_.judged judged member
      · intro member
        rcases List.mem_cons.mp member with same | member
        · exact ⟨transaction, List.mem_cons_self,
            over_.grows (step.done same.symm)⟩
        · obtain ⟨other, among, here⟩ := over_.executes member
          exact ⟨other, List.mem_cons_of_mem _ among, here⟩
      · intro other member here
        rw [over_.length] at counted
        rw [List.length_cons]
        rcases List.mem_cons.mp member with same | member
        · have skipped : verdict ≠ .executed := by
            intro executed
            rw [same] at here
            exact step.new executed here
          rw [List.count_cons_of_ne skipped]
          omega
        · have fewer := over_.skips other member (step.grows here)
          rw [List.count_cons]
          split <;> omega

theorem Adds.pass (adds : Adds before syncing added)
    (done : syncing.pass environment ts = some (verdicts, after)) :
    ∃ more, Adds before after (added ++ more) := by
  induction ts generalizing syncing verdicts added with
  | nil =>
      cases done
      exact ⟨[], by rwa [List.append_nil]⟩
  | cons transaction rest induction =>
      obtain ⟨verdict, middle, others, first, second, -⟩ := pass_cons done
      obtain ⟨some_, step⟩ := adds.attempt first
      obtain ⟨more, whole⟩ := induction step second
      exact ⟨some_ ++ more, by rwa [← List.append_assoc]⟩

/-- All the transactions meet the price and are executed, one after the
other. -/
def executesAll (environment : SyncEnvironment σ) (block : WorkingBlock σ) :
    List Transaction → Bool
  | [] => true
  | transaction :: rest =>
      if transaction.hash ∉ block.transactionSet ∧
          environment.ask block ≤ transaction.gasPrice then
        match block.execute environment transaction with
        | (.ok _, block) => executesAll environment block rest
        | (.error _, _) => false
      else false

theorem executesAll_of_pass
    (done : syncing.pass environment ts = some (verdicts, after))
    (all : verdicts.count .executed = ts.length) :
    executesAll environment syncing.block ts = true := by
  induction ts generalizing syncing verdicts with
  | nil => rfl
  | cons transaction rest induction =>
      obtain ⟨verdict, middle, others, first, second, rfl⟩ := pass_cons done
      have length := (passedOver second).length
      have counted := List.count_le_length (a := Verdict.executed) (l := others)
      rw [List.count_cons, List.length_cons] at all
      have here : verdict = .executed := by
        by_contra other
        rw [if_neg (by simpa using other)] at all
        omega
      rw [if_pos (by simp [here])] at all
      rcases attempt_cases first with ⟨other, -⟩ |
          ⟨-, new, paid, receipt, block, executed, same⟩ | ⟨leaves, -⟩
      · rw [here] at other
        cases other
      · have below := induction second (by omega)
        rw [same] at below
        rw [executesAll, if_pos ⟨new, paid⟩, executed]
        exact below
      · rw [here] at leaves
        cases leaves

theorem pass_of_executesAll
    (all : executesAll environment syncing.block ts = true) :
    ∃ after, syncing.pass environment ts =
      some (List.replicate ts.length .executed, after) := by
  induction ts generalizing syncing with
  | nil => exact ⟨syncing, rfl⟩
  | cons transaction rest induction =>
      rw [executesAll] at all
      split at all
      · next ready =>
          split at all
          · next receipt block executed =>
              have step : syncing.attempt environment transaction =
                  some (.executed, { syncing with
                    block, receipts := syncing.receipts ++ [receipt] }) := by
                rw [attempt, if_neg ready.1, if_pos ready.2, executed]
              obtain ⟨after, below⟩ := @induction { syncing with
                block, receipts := syncing.receipts ++ [receipt] } all
              refine ⟨after, ?_⟩
              rw [pass, step]
              simp only [bind, Option.bind, below]
              rfl
          · cases all
      · cases all

/-! ## All the passes -/

variable {clock : Nat → Bool} {fuel passes goodTxs : Nat} {passed : Passed σ}

theorem passLoop_done (enough : ts.length ≤ goodTxs) :
    passLoop environment clock ts fuel passes goodTxs syncing =
      some { syncing } := by
  rw [passLoop.eq_def, if_neg (not_lt.mpr enough)]

/-- The loop is over, or it makes another pass. -/
theorem passLoop_cases
    (returned : passLoop environment clock ts fuel passes goodTxs syncing =
      some passed) :
    (ts.length ≤ goodTxs ∧ passed = { syncing }) ∨
    (goodTxs < ts.length ∧ ∃ less verdicts middle, fuel = less + 1 ∧
      syncing.pass environment ts = some (verdicts, middle) ∧
      ((clock passes = true ∧
          passed = ⟨middle, [verdicts], true⟩) ∨
        (clock passes = false ∧ ∃ onward,
          passLoop environment clock ts less (passes + 1)
            (verdicts.count .executed) middle = some onward ∧
          passed = { onward with log := verdicts :: onward.log }))) := by
  by_cases more : goodTxs < ts.length
  · refine .inr ⟨more, ?_⟩
    rw [passLoop.eq_def, if_pos more] at returned
    cases fuel with
    | zero => cases returned
    | succ less =>
        obtain ⟨⟨verdicts, middle⟩, done, returned⟩ :=
          Option.bind_eq_some_iff.mp returned
        refine ⟨less, verdicts, middle, rfl, done, ?_⟩
        cases crossed : clock passes with
        | true =>
            simp only [crossed, if_true] at returned
            cases returned
            exact .inl ⟨rfl, rfl⟩
        | false =>
            simp only [crossed, Bool.false_eq_true, if_false] at returned
            obtain ⟨onward, below, returned⟩ :=
              Option.bind_eq_some_iff.mp returned
            cases returned
            exact .inr ⟨rfl, onward, below, rfl⟩
  · rw [passLoop_done (not_lt.mp more)] at returned
    cases returned
    exact .inl ⟨not_lt.mp more, rfl⟩

theorem Adds.passLoop (adds : Adds before syncing added)
    (returned : passLoop environment clock ts fuel passes goodTxs syncing =
      some passed) : ∃ more, Adds before passed.syncing (added ++ more) := by
  induction fuel generalizing syncing passes goodTxs passed added with
  | zero =>
      rcases passLoop_cases returned with ⟨-, rfl⟩ | ⟨-, less, _, _, none, -⟩
      · exact ⟨[], by rwa [List.append_nil]⟩
      · cases none
  | succ fuel induction =>
      rcases passLoop_cases returned with ⟨-, rfl⟩ |
          ⟨-, less, verdicts, middle, same, done, last⟩
      · exact ⟨[], by rwa [List.append_nil]⟩
      cases same
      obtain ⟨some_, step⟩ := adds.pass done
      rcases last with ⟨-, rfl⟩ | ⟨-, onward, below, rfl⟩
      · exact ⟨some_, step⟩
      · obtain ⟨more, whole⟩ := induction step below
        exact ⟨some_ ++ more, by rwa [← List.append_assoc]⟩

/-- The last pass has judged every transaction. -/
theorem passLoop_judged
    (returned : passLoop environment clock ts fuel passes goodTxs syncing =
      some passed) :
    (passed.log = [] ∧ ts.length ≤ goodTxs) ∨
    ∃ verdicts, passed.log.getLast? = some verdicts ∧
      verdicts.length = ts.length ∧
      ∀ judged ∈ ts.zip verdicts, judged.2.leaves = true ∨
        judged.1.hash ∈ passed.syncing.block.transactionSet := by
  induction fuel generalizing syncing passes goodTxs passed with
  | zero =>
      rcases passLoop_cases returned with ⟨enough, rfl⟩ |
          ⟨-, less, _, _, none, -⟩
      · exact .inl ⟨rfl, enough⟩
      · cases none
  | succ fuel induction =>
      rcases passLoop_cases returned with ⟨enough, rfl⟩ |
          ⟨-, less, verdicts, middle, same, done, last⟩
      · exact .inl ⟨rfl, enough⟩
      cases same
      have over_ := passedOver done
      rcases last with ⟨-, rfl⟩ | ⟨-, onward, below, rfl⟩
      · exact .inr ⟨verdicts, rfl, over_.length, over_.judged⟩
      · right
        rcases induction below with ⟨empty, enough⟩ |
            ⟨final, found, length, judged⟩
        · rcases passLoop_cases below with ⟨-, rfl⟩ |
              ⟨more, _, _, _, -, -, -⟩
          · exact ⟨verdicts, rfl, over_.length, over_.judged⟩
          · omega
        · refine ⟨final, ?_, length, judged⟩
          rw [List.getLast?_cons, found]
          rfl

/-- Without a deadline the loop does not end once one of the transactions was
executed before. -/
theorem passLoop_stuck (more : goodTxs < ts.length)
    {other : Transaction} (among : other ∈ ts)
    (executed : other.hash ∈ syncing.block.transactionSet) :
    passLoop environment (fun _ => false) ts fuel passes goodTxs syncing =
      none := by
  induction fuel generalizing syncing passes goodTxs with
  | zero => rw [passLoop.eq_def, if_pos more]
  | succ fuel induction =>
      cases returned : passLoop environment (fun _ => false) ts (fuel + 1)
          passes goodTxs syncing with
      | none => rfl
      | some passed =>
          rcases passLoop_cases returned with ⟨enough, -⟩ |
              ⟨-, less, verdicts, middle, same, done, last⟩
          · omega
          cases same
          have over_ := passedOver done
          rcases last with ⟨crossed, -⟩ | ⟨-, onward, below, -⟩
          · cases crossed
          · rw [induction (over_.skips other among executed)
              (over_.grows executed)] at below
            cases below

end Syncing

/-! ## The end of the loop -/

open Syncing

def ExecutedOnce (before after : WorkingBlock σ) (transaction : Transaction) :
    Prop :=
  transaction.hash ∉ before.transactionSet ∧
    ((after.transactions.drop before.transactions.length).map
      Transaction.hash).count transaction.hash = 1

/-- Executed by the call, or left by its last pass. -/
def Settled (before : WorkingBlock σ) (ts : List Transaction)
    (passed : Passed σ) (transaction : Transaction) : Prop :=
  ExecutedOnce before passed.syncing.block transaction ∨
    ∃ verdicts, passed.log.getLast? = some verdicts ∧
      ∃ verdict, verdict.leaves = true ∧
        (transaction, verdict) ∈ ts.zip verdicts

/-- For every clock the loop returns, at the latest after the first pass
without an execution, and has settled everything. -/
def EndsInTime (environment : SyncEnvironment σ) (block : WorkingBlock σ)
    (queue : TransactionQueue) : Prop :=
  ∀ clock, ∃ fuel passed,
    passes environment clock fuel block queue = some passed ∧
    (∀ verdicts ∈ passed.log.dropLast, .executed ∈ verdicts) ∧
    ∀ transaction ∈ handedOut block queue,
      Settled block (handedOut block queue) passed transaction

variable {block : WorkingBlock σ} {queue : TransactionQueue}
  {clock : Nat → Bool} {fuel : Nat} {passed : Passed σ}

theorem not_mem_of_handedOut (member : transaction ∈ handedOut block queue) :
    transaction.hash ∉ block.transactionSet := by
  have kept := List.mem_filter.mp (List.mem_of_mem_take member)
  exact of_decide_eq_true kept.2

theorem mem_zip_of_mem {transactions : List Transaction}
    (length : verdicts.length = transactions.length)
    (member : transaction ∈ transactions) :
    ∃ verdict, (transaction, verdict) ∈ transactions.zip verdicts := by
  obtain ⟨position, inRange, same⟩ := List.getElem_of_mem member
  have inside : position < (transactions.zip verdicts).length := by
    rw [List.length_zip]
    omega
  refine ⟨verdicts[position], ?_⟩
  have here := List.getElem_mem inside
  rw [List.getElem_zip, same] at here
  exact here

theorem returned_settled
    (returned : passes environment clock fuel block queue = some passed)
    (member : transaction ∈ handedOut block queue) :
    Settled block (handedOut block queue) passed transaction := by
  have some_ := List.length_pos_of_mem member
  rcases passLoop_judged returned with ⟨-, enough⟩ |
      ⟨verdicts, found, length, judged⟩
  · omega
  obtain ⟨verdict, paired⟩ := mem_zip_of_mem length member
  rcases judged _ paired with leaves | executed
  · exact .inr ⟨verdicts, found, verdict, leaves, paired⟩
  · obtain ⟨added, adds⟩ := (Adds.nil queue).passLoop returned
    rw [List.nil_append] at adds
    have new := not_mem_of_handedOut member
    refine .inl ⟨new, ?_⟩
    rw [adds.transactions, List.drop_left]
    exact List.count_eq_one_of_mem adds.distinct
      (((adds.known _).mp executed).resolve_left new)

theorem ends_of_executesAll
    (all : executesAll environment block (handedOut block queue) = true) :
    EndsInTime environment block queue := by
  intro clock
  obtain ⟨after, done⟩ := @pass_of_executesAll _ _
    { block, queue } (handedOut block queue) all
  have ended : ∃ passed, passes environment clock 1 block queue =
      some passed ∧ passed.log.length ≤ 1 := by
    by_cases empty : handedOut block queue = []
    · refine ⟨{ syncing := { block, queue } }, ?_, Nat.zero_le 1⟩
      exact passLoop_done (by simp [empty])
    · have some_ := List.length_pos_iff.mpr empty
      have enough := @passLoop_done _ environment after
        (handedOut block queue) clock 0 1 _ (le_refl _)
      unfold passes
      rw [passLoop.eq_def, if_pos (by omega)]
      simp only [done, bind, Option.bind, List.count_replicate_self, enough]
      split
      · exact ⟨_, rfl, le_refl _⟩
      · exact ⟨_, rfl, le_refl _⟩
  obtain ⟨passed, returned, short⟩ := ended
  refine ⟨1, passed, returned, ?_, fun transaction member =>
    returned_settled returned member⟩
  have none : passed.log.dropLast = [] := by
    apply List.eq_nil_of_length_eq_zero
    rw [List.length_dropLast]
    omega
  simp [none]

theorem executesAll_of_ends (ends : EndsInTime environment block queue) :
    executesAll environment block (handedOut block queue) = true := by
  obtain ⟨fuel, passed, returned, executes, -⟩ := ends fun _ => false
  rcases passLoop_cases returned with ⟨enough, -⟩ |
      ⟨-, less, verdicts, middle, rfl, done, last⟩
  · have empty : handedOut block queue = [] :=
      List.eq_nil_of_length_eq_zero (by omega)
    rw [empty]
    rfl
  have over_ := passedOver done
  rcases last with ⟨crossed, -⟩ | ⟨-, onward, below, rfl⟩
  · cases crossed
  rcases passLoop_cases below with ⟨enough, rfl⟩ |
      ⟨more, again, later, final, rfl, -, further⟩
  · have atMost := List.count_le_length (a := Verdict.executed)
      (l := verdicts)
    rw [over_.length] at atMost
    exact executesAll_of_pass done (by omega)
  · have logged : onward.log ≠ [] := by
      rcases further with ⟨-, rfl⟩ | ⟨-, _, -, rfl⟩ <;> simp
    have first : verdicts ∈ (verdicts :: onward.log).dropLast := by
      rw [List.dropLast_cons_of_ne_nil logged]
      exact List.mem_cons_self
    obtain ⟨other, among, executed⟩ := over_.executes (executes _ first)
    rw [passLoop_stuck more among executed] at below
    cases below

/-- Whatever the clock does, the loop ends in time if and only if everything
handed out is executed in the first pass; and whenever it returns, everything
is settled. -/
theorem sync_ends_iff (environment : SyncEnvironment σ)
    (block : WorkingBlock σ) (queue : TransactionQueue) :
    (EndsInTime environment block queue ↔
      executesAll environment block (handedOut block queue) = true) ∧
    ∀ clock fuel passed,
      passes environment clock fuel block queue = some passed →
      ∀ transaction ∈ handedOut block queue,
        Settled block (handedOut block queue) passed transaction :=
  ⟨⟨executesAll_of_ends, ends_of_executesAll⟩,
    fun _ _ _ returned _ member => returned_settled returned member⟩

/-- Every execution finds that the nonce is too low. -/
def staleEnvironment : SyncEnvironment Unit where
  execution _ _ := (.error (.invalidNonce 5 3), ())
  ask _ := 0

def emptyBlock : WorkingBlock Unit where
  rest := ()
  gasLimit := 3141592
  parentHash := zeroHash 32

def staleQueue : TransactionQueue where
  current := [TransactionQueue.transactionSample 1 1 3 1]

theorem sync_stale_diverges :
    ¬ EndsInTime staleEnvironment emptyBlock staleQueue := by
  intro ends
  have all := executesAll_of_ends ends
  exact absurd all (by decide)

theorem sync_ends_iff_sample :
    EndsInTime staleEnvironment emptyBlock {} ∧
    ∃ passed, passes staleEnvironment (fun _ => true) 1 emptyBlock staleQueue =
        some passed ∧
      Settled emptyBlock (handedOut emptyBlock staleQueue) passed
        (TransactionQueue.transactionSample 1 1 3 1) :=
  ⟨(sync_ends_iff staleEnvironment emptyBlock {}).1.mpr rfl, _, rfl,
    (sync_ends_iff staleEnvironment emptyBlock staleQueue).2 (fun _ => true) 1
      _ rfl _ (by decide)⟩

end WorkingBlock

end Aecmio
