import Mathlib.Data.List.AList
import Mathlib.Data.Finset.Basic
import Aecmio.Logic.SearchTree
import Aecmio.State.Database

/-!
# The transaction queue

Transactions that can be executed next are current, the others of their
senders wait in the future.  The current ones are kept in a multiset, with an
index by hash and one by sender and nonce.  The comparison of the multiset
reads the lowest nonce of each sender from the second index, so it changes as
transactions come and go.

The standard leaves the shape of the search tree of a multiset and the order
of an unordered map open: a `Layout` fixes both for one call.  `none` stands
for undefined behaviour or a loop without end.
-/

namespace Aecmio

/-- Result of an import into a queue. -/
inductive ImportResult where
  | success
  | unknownParent
  | futureTimeKnown
  | futureTimeUnknown
  | alreadyInChain
  | alreadyKnown
  | malformed
  | overbidGasPrice
  | badChain
  | zeroSignature
deriving DecidableEq

/-- What to do with a transaction that was dropped before. -/
inductive IfDropped where
  | ignore
  | retry
deriving DecidableEq

namespace TransactionQueue

/-- What the queue reads of a transaction; the sender is recovered. -/
structure Transaction where
  /-- `sha3(WithSignature)`. -/
  hash : H256
  sender : Address
  nonce : U256
  gasPrice : U256
  hasZeroSignature : Bool := false
deriving DecidableEq

/-! ## The transactions of one sender -/

/-- A `std::map` from nonces, by the transactions in it. -/
structure NonceMap where
  transactions : List Transaction
  ordered : transactions.Pairwise fun first second =>
    first.nonce < second.nonce
deriving DecidableEq

namespace NonceMap

def empty : NonceMap := ⟨[], .nil⟩

def isEmpty (nonces : NonceMap) : Bool := nonces.transactions.isEmpty

def find (nonces : NonceMap) (nonce : U256) : Option Transaction :=
  nonces.transactions.find? fun transaction => transaction.nonce = nonce

/-- The part of a map that a test selects. -/
def filter (nonces : NonceMap) (test : Transaction → Bool) : NonceMap :=
  ⟨nonces.transactions.filter test, nonces.ordered.filter test⟩

/-- `erase(nonce)`. -/
def erase (nonces : NonceMap) (nonce : U256) : NonceMap :=
  nonces.filter fun transaction => transaction.nonce ≠ nonce

/-- `map[nonce] = transaction`. -/
def assign (nonces : NonceMap) (transaction : Transaction) : NonceMap where
  transactions :=
    (nonces.transactions.filter fun other => other.nonce < transaction.nonce) ++
      transaction ::
        nonces.transactions.filter fun other =>
          transaction.nonce < other.nonce
  ordered := by
    refine List.pairwise_append.mpr ⟨nonces.ordered.filter _, ?_, ?_⟩
    · refine List.pairwise_cons.mpr ⟨?_, nonces.ordered.filter _⟩
      intro other member
      exact of_decide_eq_true (List.mem_filter.mp member).2
    · intro lower below upper above
      have lowerLt := of_decide_eq_true (List.mem_filter.mp below).2
      rcases List.mem_cons.mp above with rfl | above
      · exact lowerLt
      · exact BitVec.lt_trans lowerLt
          (of_decide_eq_true (List.mem_filter.mp above).2)

/-- `emplace(nonce, transaction)` leaves an entry that is there. -/
def emplace (nonces : NonceMap) (transaction : Transaction) : NonceMap :=
  if (nonces.find transaction.nonce).isSome then nonces
  else nonces.assign transaction

/-- The transactions with consecutive nonces at the start of a list. -/
def consecutive (nonce : U256) : List Transaction → List Transaction
  | [] => []
  | transaction :: rest =>
      if transaction.nonce = nonce then
        transaction :: consecutive (nonce + 1) rest
      else []

/-- Those that follow in a map from a nonce that is in it. -/
def chain (nonces : NonceMap) (nonce : U256) : List Transaction :=
  consecutive nonce
    (nonces.transactions.dropWhile fun other => other.nonce ≠ nonce)

end NonceMap

/-- `unordered_map<Address, map<u256, ...>>`. -/
abbrev BySender := AList fun _ : Address => NonceMap

namespace BySender

/-- `index[sender]`, without the entry that it makes. -/
def get (index : BySender) (sender : Address) : NonceMap :=
  (index.lookup sender).getD .empty

/-- `index[sender] = nonces`, or no entry when nothing is left. -/
def put (index : BySender) (sender : Address) (nonces : NonceMap) : BySender :=
  if nonces.isEmpty then index.erase sender else index.insert sender nonces

/-- The number of transactions of all senders. -/
def count (index : BySender) : Nat :=
  (index.entries.map fun entry => entry.2.transactions.length).sum

end BySender

/-- What the standard leaves open about the containers in a call. -/
structure Layout where
  /-- The search tree that holds the elements of a multiset. -/
  shape : List Transaction → BinaryTree Transaction
  inorder_shape : ∀ list, SearchTrees.inorder (shape list) = list
  /-- The entry that `begin()` of an unordered map stands at. -/
  first : BySender → Address
  first_mem : ∀ index : BySender, index.entries ≠ [] → first index ∈ index

end TransactionQueue

open TransactionQueue (Transaction NonceMap BySender Layout)

/-- The members of `TransactionQueue`; an iterator is given by the transaction
that it stands at. -/
structure TransactionQueue where
  known : Finset H256 := ∅
  dropped : Finset H256 := ∅
  /-- The elements of the multiset in the order of an iteration. -/
  current : List Transaction := []
  currentByHash : AList fun _ : H256 => Transaction := ∅
  currentByAddressAndNonce : BySender := ∅
  future : BySender := ∅
  limit : UInt32 := 1024
  futureLimit : UInt32 := 1024
  futureSize : UInt32 := 0

namespace TransactionQueue

/-! ## The multiset -/

/-- The distance to the lowest nonce of the sender. -/
def height (queue : TransactionQueue) (transaction : Transaction) :
    Option U256 := do
  let nonces ← queue.currentByAddressAndNonce.lookup transaction.sender
  let lowest ← nonces.transactions.head?
  return transaction.nonce - lowest.nonce

/-- `PriorityCompare`. -/
def less (queue : TransactionQueue) (first second : Transaction) :
    Option Bool := do
  let height1 ← queue.height first
  let height2 ← queue.height second
  return decide (height1 < height2 ∨
    height1 = height2 ∧ second.gasPrice < first.gasPrice)

/-- `m_current.emplace`. -/
def emplace (layout : Layout) (queue : TransactionQueue)
    (transaction : Transaction) : Option (List Transaction) := do
  let tree ← SearchTrees.insert queue.less transaction
    (layout.shape queue.current)
  return SearchTrees.inorder tree

/-- The nonce is entered before the multiset compares. -/
def enterNonce (queue : TransactionQueue) (transaction : Transaction) :
    TransactionQueue :=
  { queue with
    currentByAddressAndNonce := queue.currentByAddressAndNonce.insert
      transaction.sender
      ((queue.currentByAddressAndNonce.get transaction.sender).assign
        transaction) }

/-- A transaction goes into the multiset and both indices. -/
def enter (layout : Layout) (queue : TransactionQueue)
    (transaction : Transaction) : Option TransactionQueue := do
  let queue := queue.enterNonce transaction
  let current ← queue.emplace layout transaction
  return { queue with
    current
    currentByHash := queue.currentByHash.insert transaction.hash transaction }

/-! ## Between current and future -/

/-- `remove_WITH_LOCK`. -/
def remove (queue : TransactionQueue) (txHash : H256) :
    Option TransactionQueue :=
  match queue.currentByHash.lookup txHash with
  | none => some queue
  | some transaction => do
      let nonces ← queue.currentByAddressAndNonce.lookup transaction.sender
      return { queue with
        current := queue.current.erase transaction
        currentByHash := queue.currentByHash.erase txHash
        currentByAddressAndNonce := queue.currentByAddressAndNonce.put
          transaction.sender (nonces.erase transaction.nonce)
        known := queue.known.erase txHash }

/-- The consecutive nonces after a transaction become current. -/
def promote (layout : Layout) (queue : TransactionQueue)
    (transaction : Transaction) : Option TransactionQueue :=
  match queue.future.lookup transaction.sender with
  | none => some queue
  | some nonces =>
      let chain := nonces.chain (transaction.nonce + 1)
      if chain.isEmpty then some queue
      else do
        let queue ← chain.foldlM (enter layout) queue
        return { queue with
          future := queue.future.put transaction.sender
            (nonces.filter fun other => other ∉ chain)
          futureSize := queue.futureSize - UInt32.ofNat chain.length }

/-- The end of the first chain of future transactions is dropped. -/
def dropFutureEnd (layout : Layout) (queue : TransactionQueue) :
    Option TransactionQueue := do
  let sender := layout.first queue.future
  let nonces ← queue.future.lookup sender
  let last ← nonces.transactions.getLast?
  return { queue with
    future := queue.future.put sender (nonces.erase last.nonce)
    futureSize := queue.futureSize - 1 }

/-- The loop over `m_futureLimit`. -/
def trimFuture (layout : Layout) : Nat → TransactionQueue →
    Option TransactionQueue
  | 0, queue => if queue.futureLimit < queue.futureSize then none
      else some queue
  | fuel + 1, queue =>
      if queue.futureLimit < queue.futureSize then do
        trimFuture layout fuel (← queue.dropFutureEnd layout)
      else some queue

/-- `makeCurrent_WITH_LOCK`. -/
def makeCurrent (layout : Layout) (queue : TransactionQueue)
    (transaction : Transaction) : Option TransactionQueue := do
  let queue ← queue.promote layout transaction
  queue.trimFuture layout queue.futureSize.toNat

/-- `insertCurrent_WITH_LOCK`. -/
def insertCurrent (layout : Layout) (queue : TransactionQueue)
    (transaction : Transaction) : Option TransactionQueue :=
  if (queue.currentByHash.lookup transaction.hash).isSome then some queue
  else do
    let queue ← queue.enter layout transaction
    let queue ← queue.makeCurrent layout transaction
    return { queue with known := insert transaction.hash queue.known }

/-- The loop over `m_limit`. -/
def trimCurrent : Nat → TransactionQueue → Option TransactionQueue
  | 0, queue => if queue.limit.toNat < queue.current.length then none
      else some queue
  | fuel + 1, queue =>
      if queue.limit.toNat < queue.current.length then do
        let last ← queue.current.getLast?
        trimCurrent fuel (← queue.remove last.hash)
      else some queue

/-! ## The interface -/

/-- `check_WITH_LOCK`. -/
def check (queue : TransactionQueue) (txHash : H256) (ik : IfDropped) :
    ImportResult :=
  if txHash ∈ queue.known then .alreadyKnown
  else if txHash ∈ queue.dropped ∧ ik = .ignore then .alreadyInChain
  else .success

/-- The current transaction of the same sender and nonce. -/
def sameCurrent (queue : TransactionQueue) (transaction : Transaction) :
    Option Transaction := do
  let nonces ← queue.currentByAddressAndNonce.lookup transaction.sender
  nonces.find transaction.nonce

/-- The future transaction of the same sender and nonce. -/
def sameFuture (queue : TransactionQueue) (transaction : Transaction) :
    Option Transaction := do
  let nonces ← queue.future.lookup transaction.sender
  nonces.find transaction.nonce

/-- A future transaction is replaced. -/
def eraseFuture (queue : TransactionQueue) (transaction : Transaction) :
    TransactionQueue :=
  { queue with
    future := queue.future.put transaction.sender
      ((queue.future.get transaction.sender).erase transaction.nonce)
    futureSize := queue.futureSize - 1 }

/-- The part of `manageImport_WITH_LOCK` that looks at current
transactions; `none` inside stands for a higher bid that is there. -/
def replaceCurrent (queue : TransactionQueue) (transaction : Transaction) :
    Option (Option TransactionQueue) :=
  match queue.sameCurrent transaction with
  | none => some (some queue)
  | some other =>
      if transaction.gasPrice < other.gasPrice then some none
      else do return some (← queue.remove other.hash)

/-- The part that looks at future transactions. -/
def replaceFuture (queue : TransactionQueue) (transaction : Transaction) :
    Option TransactionQueue :=
  match queue.sameFuture transaction with
  | none => some queue
  | some other =>
      if transaction.gasPrice < other.gasPrice then none
      else some (queue.eraseFuture transaction)

/-- `manageImport_WITH_LOCK`. -/
def manageImport (layout : Layout) (queue : TransactionQueue)
    (transaction : Transaction) :
    Option (ImportResult × TransactionQueue) := do
  match ← queue.replaceCurrent transaction with
  | none => return (.overbidGasPrice, queue)
  | some replaced =>
      match replaced.replaceFuture transaction with
      | none => return (.overbidGasPrice, replaced)
      | some cleared =>
          let entered ← cleared.insertCurrent layout transaction
          return (.success, ← trimCurrent entered.current.length entered)

/-- `import`. -/
def import_ (layout : Layout) (queue : TransactionQueue)
    (transaction : Transaction) (ik : IfDropped) :
    Option (ImportResult × TransactionQueue) :=
  if transaction.hasZeroSignature then some (.zeroSignature, queue)
  else match queue.check transaction.hash ik with
    | .success => queue.manageImport layout transaction
    | result => some (result, queue)

def topTransactions (queue : TransactionQueue) (limit : Nat)
    (avoid : Finset H256) : List Transaction :=
  (queue.current.filter fun transaction => transaction.hash ∉ avoid).take limit

def knownTransactions (queue : TransactionQueue) : Finset H256 := queue.known

/-- The transactions at and after a nonce go back to the future. -/
def setFuture (queue : TransactionQueue) (txHash : H256) : TransactionQueue :=
  match queue.currentByHash.lookup txHash with
  | none => queue
  | some transaction =>
      let nonces := queue.currentByAddressAndNonce.get transaction.sender
      let moved := (nonces.filter fun other =>
        transaction.nonce ≤ other.nonce).transactions
      { queue with
        current := moved.foldl List.erase queue.current
        currentByHash := moved.foldl (fun index other =>
          index.erase other.hash) queue.currentByHash
        currentByAddressAndNonce := queue.currentByAddressAndNonce.put
          transaction.sender
          (nonces.filter fun other => other.nonce < transaction.nonce)
        future := queue.future.insert transaction.sender
          (moved.foldl NonceMap.emplace
            (queue.future.get transaction.sender))
        futureSize := queue.futureSize + UInt32.ofNat moved.length }

def drop (queue : TransactionQueue) (txHash : H256) :
    Option TransactionQueue :=
  if txHash ∉ queue.known then some queue
  else { queue with dropped := insert txHash queue.dropped }.remove txHash

def dropGood (layout : Layout) (queue : TransactionQueue)
    (transaction : Transaction) : Option TransactionQueue := do
  let queue ← queue.makeCurrent layout transaction
  if transaction.hash ∉ queue.known then return queue
  else queue.remove transaction.hash

def clear (queue : TransactionQueue) : TransactionQueue :=
  { limit := queue.limit, futureLimit := queue.futureLimit }

/-- A call of the interface that changes the queue. -/
inductive Request where
  | import_ (transaction : Transaction) (ik : IfDropped)
  | drop (txHash : H256)
  | dropGood (transaction : Transaction)
  | setFuture (txHash : H256)
  | clear
deriving DecidableEq

def serve (layout : Layout) (queue : TransactionQueue) :
    Request → Option TransactionQueue
  | .import_ transaction ik =>
      (queue.import_ layout transaction ik).map Prod.snd
  | .drop txHash => queue.drop txHash
  | .dropGood transaction => queue.dropGood layout transaction
  | .setFuture txHash => some (queue.setFuture txHash)
  | .clear => some queue.clear

/-- A run of calls, each with its own layout of the containers. -/
def run (queue : TransactionQueue) (requests : List (Layout × Request)) :
    Option TransactionQueue :=
  requests.foldlM (fun queue request => queue.serve request.1 request.2) queue

/-! ## A sample -/

/-- Trees with their middle element as the root, and maps in the order of
their entries. -/
def layoutSample : Layout where
  shape list := SearchTrees.halve list.length list
  inorder_shape list := SearchTrees.inorder_halve _ list
  first index := (index.keys.head?).getD
    ⟨List.replicate 20 0, length_zeroes_address⟩
  first_mem index some_ := by
    obtain ⟨entries, nodupKeys⟩ := index
    cases entries with
    | nil => exact absurd rfl some_
    | cons entry rest => exact List.mem_cons_self

def transactionSample (hash sender nonce gasPrice : Nat) : Transaction where
  hash := hashOfNat hash
  sender := ⟨toBigEndian sender 20, length_toBigEndian _ _⟩
  nonce := BitVec.ofNat 256 nonce
  gasPrice := BitVec.ofNat 256 gasPrice

end TransactionQueue

end Aecmio
