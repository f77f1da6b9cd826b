import Aecmio.Chain.ForkChoice
import Aecmio.Chain.Syncing
import Aecmio.Rlp.Fields

/-!
# Answering a request for headers

A peer asks for a number of headers from a block on, each `skip` blocks apart
from the one before.  The host finds the highest block of the answer and goes
down from there: by parents near the head, where the index of numbers may
change, and by numbers below.  The first block is named by its hash or by its
number.
-/

namespace Aecmio

open BlockChain Item

/-- Maximum size of a packet to send. -/
def c_maxPayload : Nat := 262144

def c_blockNumberUsageLimit : Nat := 1000

inductive HeadersError where
  | rlp (error : RLPError)
  | underflow
  | assertion
deriving DecidableEq

/-- A subtraction of unsigned integers. -/
def minus (left right : Nat) : Except HeadersError Nat :=
  if right ≤ left then .ok (left - right) else .error .underflow

/-- `assert`. -/
def asserted (condition : Prop) [Decidable condition] :
    Except HeadersError Unit :=
  if condition then .ok () else .error .assertion

/-- `aecmioHostData`, with `headerData` of its chain. -/
structure AecmioHostData where
  chain : Store
  headerData : H256 → Bytes

namespace AecmioHostData

/-- `numberHash`, whose argument is an `unsigned`. -/
def numberHash (data : AecmioHostData) (number : Nat) : H256 :=
  (data.chain.numberHash (number % 2 ^ 32)).1

/-- Where to start and how many headers to send when the block is given by its
hash. -/
def startByHash (data : AecmioHostData) (blockHash : H256)
    (numHeadersToSend step : Nat) (reverse : Bool) :
    Except HeadersError (H256 × Nat) :=
  if !data.chain.isKnown blockHash true then
    .ok (zeroHash 32, numHeadersToSend)
  else if reverse then .ok (blockHash, numHeadersToSend)
  else
    let n := data.chain.number blockHash
    if numHeadersToSend = 0 then .ok (zeroHash 32, numHeadersToSend)
    else if n ≠ 0 ∨ blockHash = data.chain.genesis.hash then do
      let top ← minus ((n + step * numHeadersToSend) % 2 ^ 64) 1
      let lastBlock := data.chain.lastBlockNumber
      let (numHeadersToSend, top) ←
        if lastBlock < top then do
          let numHeadersToSend := ((← minus lastBlock n) / step + 1) % 2 ^ 32
          let further ← minus numHeadersToSend 1
          pure (numHeadersToSend, (n + step * further) % 2 ^ 32)
        else pure (numHeadersToSend, top)
      asserted (top ≤ lastBlock)
      return (data.numberHash top, numHeadersToSend)
    else .ok (zeroHash 32, numHeadersToSend)

/-- The same when the block is given by its number. -/
def startByNumber (data : AecmioHostData) (n numHeadersToSend step : Nat)
    (reverse : Bool) : Except HeadersError (H256 × Nat) :=
  if !reverse then
    let lastBlock := data.chain.lastBlockNumber
    if lastBlock < n ∨ numHeadersToSend = 0 then
      .ok (zeroHash 32, numHeadersToSend)
    else do
      let top := n + step * (← minus numHeadersToSend 1) % 2 ^ 64
      let (numHeadersToSend, top) ←
        if lastBlock < top then do
          let numHeadersToSend :=
            ((← minus lastBlock (n % 2 ^ 32)) / step + 1) % 2 ^ 32
          let further ← minus numHeadersToSend 1
          pure (numHeadersToSend, n + step * further % 2 ^ 32)
        else pure (numHeadersToSend, top)
      asserted (top ≤ lastBlock)
      return (data.numberHash top, numHeadersToSend)
  else if n ≤ 2 ^ 32 - 1 then .ok (data.numberHash n, numHeadersToSend)
  else .ok (zeroHash 32, numHeadersToSend)

/-- The number of the block below which no changes are expected. -/
def limitBlock (data : AecmioHostData) : Nat :=
  let lastBlock := data.chain.lastBlockNumber
  if c_blockNumberUsageLimit < lastBlock then
    lastBlock - c_blockNumberUsageLimit
  else 0

/-- The loop of `nextHash`: the block that it ends at and the steps that are
left. -/
def traverse (data : AecmioHostData) : Nat → H256 → H256 × Nat
  | 0, hash => (hash, 0)
  | step + 1, hash =>
      if data.chain.number hash < data.limitBlock then (hash, step + 1)
      else data.traverse step (data.chain.parent hash)

/-- The end of `nextHash`, which goes the steps that are left. -/
def descend (data : AecmioHostData) (hash : H256) (step : Nat) : H256 :=
  if step ≠ 0 then
    let n := data.chain.number hash
    if step ≤ n then data.numberHash (n - step) else zeroHash 32
  else hash

def nextHash (data : AecmioHostData) (hash : H256) (step : Nat) : H256 :=
  let (hash, left) := data.traverse step hash
  data.descend hash left

/-- The hashes that are collected in at most `numHeadersToSend` rounds. -/
def collect (data : AecmioHostData) (step : Nat) : Nat → H256 → List H256
  | 0, _ => []
  | rounds + 1, blockHash =>
      if blockHash = zeroHash 32 ∨ !data.chain.isKnown blockHash true then []
      else blockHash :: data.collect step rounds (data.nextHash blockHash step)

/-- The headers that fit. -/
def serialize (data : AecmioHostData) : List H256 → Bytes → Bytes
  | [], rlp => rlp
  | hash :: hashes, rlp =>
      if rlp.length < c_maxPayload then
        data.serialize hashes (rlp ++ data.headerData hash)
      else rlp

def blockHeaders (data : AecmioHostData) (blockId : Bytes) (maxHeaders : Nat)
    (skip : Nat) (reverse : Bool) : Except HeadersError (Bytes × Nat) := do
  let step := (skip % 2 ^ 32 + 1) % 2 ^ 32
  asserted (0 < step)
  let (blockHash, numHeadersToSend) ←
    if (← (RLP.size blockId).mapError .rlp) = 32 then do
      let blockHash ← (RLP.toHash 32 blockId).mapError .rlp
      data.startByHash blockHash maxHeaders step reverse
    else do
      let n ← (RLP.toInt .bigint blockId).mapError .rlp
      data.startByNumber n maxHeaders step reverse
  let hashes := data.collect step numHeadersToSend blockHash
  return (data.serialize (if reverse then hashes else hashes.reverse) [],
    hashes.length)

end AecmioHostData

/-! ## Consistent chains -/

/-- The index of numbers and the parents agree on the line of the head, and
the index has nothing above the head. -/
structure BlockChain.Consistent (store : Store) : Prop where
  rooted : BlockChain.Rooted store
  root : store.parent store.genesis.hash = zeroHash 32
  numberHash : ∀ number ≤ store.lastBlockNumber,
    (store.numberHash number).1 = store.ancestorAt number
  above : ∀ number, store.lastBlockNumber < number →
    (store.numberHash number).1 = zeroHash 32

/-- A store whose index was never ahead of its head. -/
theorem BlockChain.Canonical.consistent {store : Store}
    (canonical : Canonical store)
    (root : store.parent store.genesis.hash = zeroHash 32)
    (nothing : ∀ number, store.lastBlockNumber < number →
      store.blockHashes.stored number = none) : Consistent store := by
  refine ⟨canonical.rooted, root, ?_, ?_⟩
  · intro number atMost
    exact canonical.indexed.numberHash_eq canonical.rooted atMost
  · intro number higher
    have absent := canonical.indexed.above number higher
    have positive : number ≠ 0 := by omega
    rw [Store.numberHash, if_neg positive]
    simp only [Extras.query_fst, Extras.read, absent, nothing number higher]
    rfl

namespace BlockChain.Consistent

variable {store : Store} (consistent : Consistent store) {number : Nat}

include consistent

theorem ancestor_spec (atMost : number ≤ store.lastBlockNumber) :
    Known store (store.ancestorAt number) ∧
      store.number (store.ancestorAt number) = number := by
  have rooted := consistent.rooted
  have enough : store.lastBlockNumber - number ≤
      store.number store.lastBlockHash := by
    rw [rooted.number_head]
    exact Nat.sub_le _ _
  have found := rooted.tree.iterate_spec rooted.head_known enough
  rw [rooted.number_head] at found
  have height : store.number (store.ancestorAt number) +
      (store.lastBlockNumber - number) = store.lastBlockNumber := found.2
  exact ⟨found.1, by omega⟩

theorem number_ancestorAt (atMost : number ≤ store.lastBlockNumber) :
    store.number (store.ancestorAt number) = number :=
  (consistent.ancestor_spec atMost).2

theorem ancestorAt_ne_zero (atMost : number ≤ store.lastBlockNumber) :
    store.ancestorAt number ≠ zeroHash 32 :=
  consistent.rooted.ne_zero (consistent.ancestor_spec atMost).1

theorem last_lt : store.lastBlockNumber < 2 ^ 32 - 1 := by
  have small := consistent.rooted.number_lt_invalid
    consistent.rooted.head_known
  rw [consistent.rooted.number_head] at small
  exact small

theorem isKnown_ancestorAt (atMost : number ≤ store.lastBlockNumber) :
    store.isKnown (store.ancestorAt number) true = true := by
  obtain ⟨known, height⟩ := consistent.ancestor_spec atMost
  by_cases same : store.ancestorAt number = store.genesis.hash
  · simp [Store.isKnown, same]
  · obtain ⟨details, found⟩ := Option.isSome_iff_exists.mp known
    obtain ⟨header, stored, -⟩ :=
      (consistent.rooted.linked _ details found same).block
    simp [Store.isKnown, stored, found, height, atMost]

omit consistent in
theorem parent_ancestorAt (atMost : number + 1 ≤ store.lastBlockNumber) :
    store.parent (store.ancestorAt (number + 1)) =
      store.ancestorAt number := by
  have steps : store.lastBlockNumber - number =
      store.lastBlockNumber - (number + 1) + 1 := by omega
  rw [Store.ancestorAt, Store.ancestorAt, steps,
    Function.iterate_succ_apply']

theorem parent_ancestorAt_zero :
    store.parent (store.ancestorAt 0) = zeroHash 32 := by
  rw [consistent.rooted.ancestorAt_zero]
  exact consistent.root

theorem details_zero : store.details (zeroHash 32) = none := by
  cases found : store.details (zeroHash 32) with
  | none => rfl
  | some details =>
      exact absurd rfl (consistent.rooted.nonzero _ _ found)

theorem parent_zero : store.parent (zeroHash 32) = zeroHash 32 := by
  simp [Store.parent, Store.detailsOf, consistent.details_zero]

theorem number_zero : store.number (zeroHash 32) = c_invalidNumber := by
  simp [Store.number, Store.detailsOf, consistent.details_zero]

end BlockChain.Consistent

/-! ## The walk down -/

namespace AecmioHostData

section

variable {data : AecmioHostData} (consistent : Consistent data.chain)
  {number step : Nat}

include consistent

theorem numberHash_eq (atMost : number ≤ data.chain.lastBlockNumber) :
    data.numberHash number = data.chain.ancestorAt number := by
  have small := consistent.last_lt
  rw [numberHash, Nat.mod_eq_of_lt (by omega)]
  exact consistent.numberHash number atMost

omit consistent in
theorem traverse_zeroHash (parent : data.chain.parent (zeroHash 32) = zeroHash 32)
    (high : data.limitBlock ≤ data.chain.number (zeroHash 32)) (step : Nat) :
    data.traverse step (zeroHash 32) = (zeroHash 32, 0) := by
  induction step with
  | zero => rfl
  | succ step induction =>
      rw [traverse, if_neg (Nat.not_lt.mpr high), parent, induction]

/-- By parents or by numbers, the walk comes to the block that is `step`
below. -/
theorem nextHash_ancestorAt (atMost : number ≤ data.chain.lastBlockNumber) :
    data.nextHash (data.chain.ancestorAt number) step =
      if step ≤ number then data.chain.ancestorAt (number - step)
      else zeroHash 32 := by
  -- the steps by parents, until they are done or the limit is passed
  induction step generalizing number with
  | zero => simp [nextHash, traverse, descend]
  | succ step induction =>
      have height := consistent.number_ancestorAt atMost
      by_cases low : number < data.limitBlock
      · rw [nextHash, traverse, height, if_pos low]
        simp only [descend, height]
        rw [if_pos (Nat.succ_ne_zero step)]
        by_cases enough : step + 1 ≤ number
        · rw [if_pos enough, if_pos enough]
          exact numberHash_eq consistent (by omega)
        · rw [if_neg enough, if_neg enough]
      · rw [nextHash, traverse, height, if_neg low]
        cases number with
        | zero =>
            have high : data.limitBlock ≤ data.chain.number (zeroHash 32) := by
              rw [consistent.number_zero]
              omega
            rw [consistent.parent_ancestorAt_zero,
              traverse_zeroHash consistent.parent_zero high, if_neg (by omega)]
            rfl
        | succ number =>
            rw [Consistent.parent_ancestorAt atMost]
            have rest := @induction number (by omega)
            rw [nextHash] at rest
            rw [rest]
            by_cases enough : step ≤ number
            · rw [if_pos enough, if_pos (by omega), Nat.succ_sub_succ]
            · rw [if_neg enough, if_neg (by omega)]

omit consistent in
theorem collect_zeroHash (step rounds : Nat) :
    data.collect step rounds (zeroHash 32) = [] := by
  cases rounds with
  | zero => rfl
  | succ rounds => simp [collect]

theorem collect_ancestorAt (positive : 0 < step) (rounds : Nat)
    (atMost : number ≤ data.chain.lastBlockNumber) :
    data.collect step rounds (data.chain.ancestorAt number) =
      ((List.range rounds).filter (step * · ≤ number)).map fun index =>
        data.chain.ancestorAt (number - step * index) := by
  induction rounds generalizing number with
  | zero => rfl
  | succ rounds induction =>
      have known := consistent.isKnown_ancestorAt atMost
      have nonzero := consistent.ancestorAt_ne_zero atMost
      have head : ¬ (data.chain.ancestorAt number = zeroHash 32 ∨
          (!data.chain.isKnown (data.chain.ancestorAt number) true) = true) := by
        simp [known, nonzero]
      rw [collect, if_neg head, nextHash_ancestorAt consistent atMost,
        List.range_succ_eq_map]
      by_cases enough : step ≤ number
      · have below : number - step ≤ data.chain.lastBlockNumber := by omega
        rw [if_pos enough, induction below]
        simp only [Nat.mul_zero, Nat.zero_le, decide_true, List.filter_cons_of_pos,
          List.filter_map, List.map_cons, Nat.sub_zero, List.map_map]
        apply congrArg
        have same : ∀ index, step * (index + 1) ≤ number ↔
            step * index ≤ number - step := by
          intro index
          rw [Nat.mul_succ]
          omega
        have kept : (List.range rounds).filter (step * · ≤ number - step) =
            (List.range rounds).filter
              ((fun index => decide (step * index ≤ number)) ∘ Nat.succ) := by
          apply List.filter_congr
          intro index _
          simp [same]
        rw [kept]
        apply List.map_congr_left
        intro index _
        have split : number - step * (index + 1) =
            number - step - step * index := by
          rw [Nat.mul_succ]
          omega
        exact congrArg _ split.symm
      · rw [if_neg enough, collect_zeroHash]
        have none : ∀ index, ¬ step * (index + 1) ≤ number := by
          intro index
          rw [Nat.mul_succ]
          omega
        simp [List.filter_map, Function.comp_def, none]

/-- The walk down from the highest of some blocks that are `step` apart finds
all of them. -/
theorem collect_reverse (positive : 0 < step) {base rounds : Nat}
    (atMost : base + step * rounds ≤ data.chain.lastBlockNumber) :
    (data.collect step (rounds + 1)
        (data.chain.ancestorAt (base + step * rounds))).reverse =
      (List.range (rounds + 1)).map fun index =>
        data.chain.ancestorAt (base + step * index) := by
  have all : (List.range (rounds + 1)).filter
      (step * · ≤ base + step * rounds) = List.range (rounds + 1) := by
    apply List.filter_eq_self.mpr
    intro index member
    have le : index ≤ rounds := by
      have lt := List.mem_range.mp member
      omega
    have product := Nat.mul_le_mul_left step le
    exact decide_eq_true (by omega)
  rw [collect_ancestorAt consistent positive _ atMost, all]
  apply List.ext_getElem
  · simp
  · intro index _ inside
    have le : index ≤ rounds := by
      simp at inside
      omega
    have split : step * rounds = step * index + step * (rounds - index) := by
      rw [← Nat.mul_add]
      congr 1
      omega
    simp only [List.getElem_reverse, List.getElem_map, List.getElem_range,
      List.length_map, List.length_range]
    congr 1
    have place : rounds + 1 - 1 - index = rounds - index := by omega
    rw [place]
    omega

/-! ## Where the walk starts -/

omit consistent in
theorem minus_eq {left right : Nat} (le : right ≤ left) :
    minus left right = .ok (left - right) :=
  if_pos le

/-- The number of headers that can be sent. -/
def sendable (lastBlock step numHeadersToSend n : Nat) : Nat :=
  min numHeadersToSend ((lastBlock - n) / step + 1)

omit consistent in
theorem product_lt {left right : Nat} (leftSmall : left < 2 ^ 32)
    (rightSmall : right < 2 ^ 32) :
    left * right ≤ (2 ^ 32 - 1) * (2 ^ 32 - 1) :=
  Nat.mul_le_mul (by omega) (by omega)

omit consistent in
/-- The correction of the number of headers when the top is too high. -/
theorem shortened {lastBlock n : Nat} (atMost : n ≤ lastBlock) (small : lastBlock < 2 ^ 32 - 1) :
    ((lastBlock - n) / step + 1) % 2 ^ 32 = (lastBlock - n) / step + 1 ∧
      n + step * ((lastBlock - n) / step) ≤ lastBlock := by
  have quotient : (lastBlock - n) / step ≤ lastBlock - n := Nat.div_le_self _ _
  have product : step * ((lastBlock - n) / step) ≤ lastBlock - n :=
    Nat.mul_div_le _ _
  exact ⟨Nat.mod_eq_of_lt (by omega), by omega⟩

omit consistent in
theorem startByNumber_eq (small : data.chain.lastBlockNumber < 2 ^ 32 - 1)
    (positive : 0 < step) (stepSmall : step < 2 ^ 32)
    {n numHeadersToSend : Nat} (atMost : n ≤ data.chain.lastBlockNumber)
    (some_ : 0 < numHeadersToSend) (bound : numHeadersToSend < 2 ^ 32) :
    ∃ further, further + 1 =
        sendable data.chain.lastBlockNumber step numHeadersToSend n ∧
      n + step * further ≤ data.chain.lastBlockNumber ∧
      data.startByNumber n numHeadersToSend step false =
        .ok (data.numberHash (n + step * further), further + 1) := by
  have inside : ¬ (data.chain.lastBlockNumber < n ∨ numHeadersToSend = 0) := by
    omega
  have whole : step * (numHeadersToSend - 1) % 2 ^ 64 =
      step * (numHeadersToSend - 1) := by
    have product := product_lt stepSmall
      (show numHeadersToSend - 1 < 2 ^ 32 by omega)
    exact Nat.mod_eq_of_lt (by omega)
  obtain ⟨narrow, below⟩ := @shortened step _ _ atMost small
  simp only [startByNumber, Bool.not_false, if_true, if_neg inside,
    minus_eq (show 1 ≤ numHeadersToSend from some_), bind, Except.bind, whole]
  by_cases high : data.chain.lastBlockNumber < n + step * (numHeadersToSend - 1)
  · have fewer : (data.chain.lastBlockNumber - n) / step <
        numHeadersToSend - 1 := by
      rw [Nat.div_lt_iff_lt_mul positive, Nat.mul_comm]
      omega
    refine ⟨(data.chain.lastBlockNumber - n) / step, ?_, below, ?_⟩
    · rw [sendable]
      omega
    · have unsigned : n % 2 ^ 32 = n := Nat.mod_eq_of_lt (by omega)
      have product : step * ((data.chain.lastBlockNumber - n) / step) %
          2 ^ 32 = step * ((data.chain.lastBlockNumber - n) / step) :=
        Nat.mod_eq_of_lt (by omega)
      rw [if_pos high]
      simp only [unsigned, minus_eq atMost, narrow, minus_eq (Nat.le_add_left 1 _),
        Nat.add_sub_cancel, product, asserted, below, if_true, pure, Except.pure]
  · have low : n + step * (numHeadersToSend - 1) ≤
        data.chain.lastBlockNumber := by omega
    have enough : numHeadersToSend - 1 ≤
        (data.chain.lastBlockNumber - n) / step := by
      rw [Nat.le_div_iff_mul_le positive, Nat.mul_comm]
      omega
    refine ⟨numHeadersToSend - 1, ?_, low, ?_⟩
    · rw [sendable]
      omega
    · have count : numHeadersToSend - 1 + 1 = numHeadersToSend := by omega
      rw [if_neg high]
      simp only [asserted, low, if_true, pure, Except.pure, count]

section

variable {blockHash : H256} (known : data.chain.isKnown blockHash true = true)
  {n : Nat} (height : data.chain.number blockHash = n)
  (onChain : n ≠ 0 ∨ blockHash = data.chain.genesis.hash)
  (small : data.chain.lastBlockNumber < 2 ^ 32 - 1)
  (atMost : n ≤ data.chain.lastBlockNumber)
  {numHeadersToSend : Nat} (stepSmall : step < 2 ^ 32)
  (some_ : 0 < numHeadersToSend) (bound : numHeadersToSend < 2 ^ 32)
  (positive : 0 < step)

omit consistent

include known height onChain small atMost stepSmall some_ bound positive

/-- If one step more than needed stays on the chain, the walk starts at the
block before that. -/
theorem startByHash_low
    (low : n + step * numHeadersToSend - 1 ≤ data.chain.lastBlockNumber) :
    data.startByHash blockHash numHeadersToSend step false =
      .ok (data.numberHash (n + step * numHeadersToSend - 1),
        numHeadersToSend) := by
  have product := product_lt stepSmall bound
  have one := Nat.mul_pos positive some_
  have whole : (n + step * numHeadersToSend) % 2 ^ 64 =
      n + step * numHeadersToSend := Nat.mod_eq_of_lt (by omega)
  have notHigh : ¬ data.chain.lastBlockNumber <
      n + step * numHeadersToSend - 1 := by omega
  simp only [startByHash, known, Bool.not_true, Bool.false_eq_true, if_false,
    height, if_neg (show numHeadersToSend ≠ 0 by omega), if_pos onChain, whole,
    minus_eq (show 1 ≤ n + step * numHeadersToSend by omega), bind,
    Except.bind, if_neg notHigh, pure, Except.pure, asserted, low, if_true]

/-- Otherwise it starts where the walk from the number starts. -/
theorem startByHash_high
    (high : data.chain.lastBlockNumber < n + step * numHeadersToSend - 1) :
    data.startByHash blockHash numHeadersToSend step false =
      data.startByNumber n numHeadersToSend step false := by
  obtain ⟨further, sent, below, started⟩ :=
    startByNumber_eq small positive stepSmall atMost some_ bound
  have product := product_lt stepSmall bound
  have one := Nat.mul_pos positive some_
  have whole : (n + step * numHeadersToSend) % 2 ^ 64 =
      n + step * numHeadersToSend := Nat.mod_eq_of_lt (by omega)
  obtain ⟨narrow, -⟩ := @shortened step _ _ atMost small
  have quotient : (data.chain.lastBlockNumber - n) / step = further := by
    have fewer : (data.chain.lastBlockNumber - n) / step <
        numHeadersToSend := by
      rw [Nat.div_lt_iff_lt_mul positive, Nat.mul_comm]
      omega
    rw [sendable] at sent
    omega
  have unsigned : (n + step * further) % 2 ^ 32 = n + step * further :=
    Nat.mod_eq_of_lt (by omega)
  rw [quotient] at narrow
  rw [started]
  simp only [startByHash, known, Bool.not_true, Bool.false_eq_true, if_false,
    height, if_neg (show numHeadersToSend ≠ 0 by omega), if_pos onChain, whole,
    minus_eq (show 1 ≤ n + step * numHeadersToSend by omega), bind,
    Except.bind, if_pos high, minus_eq atMost, quotient, narrow,
    minus_eq (Nat.le_add_left 1 _), Nat.add_sub_cancel, unsigned, pure,
    Except.pure, asserted, below, if_true]

end

end

/-! ## A chain of two blocks -/

def headersSampleChain : Store where
  genesis := chainSampleHeader 100 0 0
  tieBreakingGas := false
  blocks := Function.update (fun _ => none) (hashOfNat 101)
    (some (chainSampleHeader 101 100 1))
  details := Function.update (Function.update (fun _ => none) (hashOfNat 100)
    (some ⟨0, 1, zeroHash 32⟩)) (hashOfNat 101) (some ⟨1, 2, hashOfNat 100⟩)
  blockHashes :=
    { stored := Function.update (fun _ => none) 1 (some (hashOfNat 101)) }
  lastBlockHash := hashOfNat 101
  lastBlockNumber := 1

def headersSample : AecmioHostData where
  chain := headersSampleChain
  headerData hash := encodeList hash.val

theorem headersSample_details {hash : H256} {details : BlockDetails}
    (found : headersSample.chain.details hash = some details) :
    (hash = hashOfNat 101 ∧ details = ⟨1, 2, hashOfNat 100⟩) ∨
      (hash = hashOfNat 100 ∧ details = ⟨0, 1, zeroHash 32⟩) := by
  simp only [headersSample, headersSampleChain, Function.update_apply] at found
  split at found
  · rename_i same
    exact .inl ⟨same, (Option.some.inj found).symm⟩
  · split at found
    · rename_i same
      exact .inr ⟨same, (Option.some.inj found).symm⟩
    · cases found

theorem headersSample_consistent : Consistent headersSample.chain := by
  refine ⟨⟨?_, ?_, ?_, ?_, ?_⟩, ?_, ?_, ?_⟩
  · exact ⟨⟨0, 1, zeroHash 32⟩, by decide +kernel, rfl⟩
  · intro hash details found
    rcases headersSample_details found with ⟨rfl, -⟩ | ⟨rfl, -⟩
    · decide +kernel
    · decide +kernel
  · intro hash details found
    rcases headersSample_details found with ⟨-, rfl⟩ | ⟨-, rfl⟩
    · decide +kernel
    · decide +kernel
  · intro hash details found notGenesis
    rcases headersSample_details found with ⟨rfl, rfl⟩ | ⟨rfl, rfl⟩
    · refine ⟨⟨⟨0, 1, zeroHash 32⟩, by decide +kernel, rfl⟩,
        chainSampleHeader 101 100 1, ?_⟩
      decide +kernel
    · exact absurd rfl notGenesis
  · exact ⟨⟨1, 2, hashOfNat 100⟩, by decide +kernel, rfl⟩
  · decide +kernel
  · intro number atMost
    have cases_ : number = 0 ∨ number = 1 := by
      change number ≤ 1 at atMost
      omega
    rcases cases_ with rfl | rfl
    · decide +kernel
    · decide +kernel
  · intro number higher
    change 1 < number at higher
    have nonzero : number ≠ 0 := by omega
    have notOne : number ≠ 1 := by omega
    simp [Store.numberHash, nonzero, headersSample, headersSampleChain,
      Extras.query, notOne]

/-! ## The answer -/

variable {data : AecmioHostData}

/-- The headers of the canonical blocks with the given numbers. -/
def payload (data : AecmioHostData) (numbers : List Nat) : Bytes :=
  (numbers.map fun number =>
    data.headerData (data.chain.ancestorAt number)).flatten

/-- The headers of some canonical blocks, up to the first with which they are
long enough. -/
def Carries (data : AecmioHostData) (numbers : List Nat) (rlp : Bytes) :
    Prop :=
  ∃ sent ≤ numbers.length, rlp = data.payload (numbers.take sent) ∧
    (∀ fewer < sent,
      (data.payload (numbers.take fewer)).length < c_maxPayload) ∧
    (sent = numbers.length ∨ c_maxPayload ≤ rlp.length)

theorem serialize_spec (hashes : List H256) (rlp : Bytes) :
    ∃ sent ≤ hashes.length,
      data.serialize hashes rlp =
        rlp ++ ((hashes.take sent).map data.headerData).flatten ∧
      (∀ fewer < sent, (rlp ++
        ((hashes.take fewer).map data.headerData).flatten).length <
          c_maxPayload) ∧
      (sent = hashes.length ∨
        c_maxPayload ≤ (data.serialize hashes rlp).length) := by
  induction hashes generalizing rlp with
  | nil => exact ⟨0, Nat.le_refl _, by simp [serialize], by simp, .inl rfl⟩
  | cons hash hashes induction =>
      by_cases room : rlp.length < c_maxPayload
      · obtain ⟨sent, atMost, eq, full, complete⟩ :=
          induction (rlp ++ data.headerData hash)
        rw [serialize, if_pos room]
        refine ⟨sent + 1, by simpa using atMost, ?_, ?_, ?_⟩
        · rw [eq]
          simp
        · intro fewer less
          cases fewer with
          | zero => simpa using room
          | succ fewer =>
              have shorter := full fewer (by omega)
              simpa using shorter
        · rcases complete with all | long
          · exact .inl (by simp [all])
          · exact .inr long
      · rw [serialize, if_neg room]
        refine ⟨0, Nat.zero_le _, by simp, by simp, ?_⟩
        exact .inr (Nat.le_of_not_lt room)

theorem carries_serialize (numbers : List Nat) :
    data.Carries numbers
      (data.serialize (numbers.map data.chain.ancestorAt) []) := by
  obtain ⟨sent, atMost, eq, full, complete⟩ :=
    @serialize_spec data (numbers.map data.chain.ancestorAt) []
  have listed : ∀ count,
      (((numbers.map data.chain.ancestorAt).take count).map
        data.headerData).flatten = data.payload (numbers.take count) := by
    intro count
    rw [← List.map_take, List.map_map]
    rfl
  simp only [listed, List.nil_append] at eq full
  refine ⟨sent, by simpa using atMost, eq, full, ?_⟩
  simpa using complete

/-- The numbers that are asked for: up to `maxHeaders` from `n` on, `step`
apart, that are not above the head or not below zero. -/
def requested (lastBlock step maxHeaders n : Nat) (reverse : Bool) :
    List Nat :=
  if lastBlock < n then []
  else if reverse then
    ((List.range maxHeaders).filter (step * · ≤ n)).map (n - step * ·)
  else
    ((List.range maxHeaders).filter (n + step * · ≤ lastBlock)).map
      (n + step * ·)

theorem filter_range (rounds bound : Nat) :
    (List.range rounds).filter (· < bound) = List.range (min rounds bound) := by
  induction rounds with
  | zero => simp
  | succ rounds induction =>
      rw [List.range_succ, List.filter_append, induction]
      by_cases less : rounds < bound
      · have larger : min (rounds + 1) bound = min rounds bound + 1 := by omega
        have same : min rounds bound = rounds := by omega
        rw [larger, List.range_succ, same]
        simp [less]
      · have same : min (rounds + 1) bound = min rounds bound := by omega
        rw [same]
        simp [less]

theorem requested_up {lastBlock step maxHeaders n : Nat} (positive : 0 < step)
    (atMost : n ≤ lastBlock) :
    requested lastBlock step maxHeaders n false =
      (List.range (sendable lastBlock step maxHeaders n)).map
        (n + step * ·) := by
  have same : (List.range maxHeaders).filter (n + step * · ≤ lastBlock) =
      (List.range maxHeaders).filter (· < (lastBlock - n) / step + 1) := by
    apply List.filter_congr
    intro index _
    have exchange : n + step * index ≤ lastBlock ↔
        index < (lastBlock - n) / step + 1 := by
      rw [Nat.lt_succ_iff, Nat.le_div_iff_mul_le positive, Nat.mul_comm]
      omega
    simp only [exchange]
  rw [requested, if_neg (Nat.not_lt.mpr atMost), if_neg Bool.false_ne_true,
    same, filter_range, sendable]

/-- What the walk from a start makes of it. -/
def answer (data : AecmioHostData) (step : Nat) (reverse : Bool)
    (start : H256 × Nat) : Bytes × Nat :=
  let hashes := data.collect step start.2 start.1
  (data.serialize (if reverse then hashes else hashes.reverse) [],
    hashes.length)

section

variable {maxHeaders skip : Nat} (small : skip < 2 ^ 32 - 1) (reverse : Bool)

include small

theorem blockHeaders_number {n : Nat} (start : n < 2 ^ 248) :
    data.blockHeaders (encodeData (RLPStream.intContent n)) maxHeaders skip
        reverse =
      (data.startByNumber n maxHeaders (skip + 1) reverse).map
        (data.answer (skip + 1) reverse) := by
  have digits : (RLPStream.intContent n).length ≤ 31 := by
    have fits : bytesRequired n ≤ 31 := by
      rw [bytesRequired_le_iff]
      exact start
    simpa [RLPStream.intContent] using fits
  have limit : (RLPStream.intContent n).length < RLP.readLimit := by
    rw [RLP.readLimit_eq]
    omega
  have size : RLP.size (encodeData (RLPStream.intContent n)) =
      .ok (RLPStream.intContent n).length := by
    have isData := RLP.isData_encodeData [] limit
    rw [List.append_nil] at isData
    rw [RLP.size, isData, if_pos rfl, RLP.length_encodeData limit]
  have notHash : ¬ (RLPStream.intContent n).length = 32 := by omega
  have holds : n < 256 ^ RLP.IntType.maxSize .bigint := by
    apply Nat.lt_of_lt_of_le start
    have wide : 31 ≤ RLP.IntType.maxSize .bigint := by decide
    generalize RLP.IntType.maxSize .bigint = width at wide
    exact Nat.pow_le_pow_right (show 0 < 256 by decide) wide
  have step : (skip % 2 ^ 32 + 1) % 2 ^ 32 = skip + 1 := by omega
  rw [blockHeaders, step, size, RLP.toInt_intContent holds]
  simp only [asserted, Nat.succ_pos, if_true, Except.mapError, if_neg notHash,
    bind, Except.bind]
  cases data.startByNumber n maxHeaders (skip + 1) reverse with
  | error error => rfl
  | ok start => rfl

theorem blockHeaders_hash (hash : H256) :
    data.blockHeaders (encodeData hash.val) maxHeaders skip reverse =
      (data.startByHash hash maxHeaders (skip + 1) reverse).map
        (data.answer (skip + 1) reverse) := by
  have limit : hash.val.length < RLP.readLimit := by
    rw [RLP.readLimit_eq, hash.property]
    decide
  have size : RLP.size (encodeData hash.val) = .ok 32 := by
    have isData := RLP.isData_encodeData [] limit
    rw [List.append_nil] at isData
    rw [RLP.size, isData, if_pos rfl, RLP.length_encodeData limit,
      hash.property]
  have step : (skip % 2 ^ 32 + 1) % 2 ^ 32 = skip + 1 := by omega
  rw [blockHeaders, step, size, RLP.toHash_encodeData_hash hash (hash.property ▸ limit)]
  simp only [asserted, Nat.succ_pos, if_true, Except.mapError, bind,
    Except.bind]
  cases data.startByHash hash maxHeaders (skip + 1) reverse with
  | error error => rfl
  | ok start => rfl

end

section

variable (consistent : Consistent data.chain)

include consistent

theorem answer_reverse {n maxHeaders step : Nat} (positive : 0 < step)
    (atMost : n ≤ data.chain.lastBlockNumber) :
    ∃ rlp, data.answer step true (data.chain.ancestorAt n, maxHeaders) =
        (rlp, (requested data.chain.lastBlockNumber step maxHeaders n
          true).length) ∧
      data.Carries (requested data.chain.lastBlockNumber step maxHeaders n
        true) rlp := by
  have listed : data.collect step maxHeaders (data.chain.ancestorAt n) =
      (requested data.chain.lastBlockNumber step maxHeaders n true).map
        data.chain.ancestorAt := by
    rw [collect_ancestorAt consistent positive maxHeaders atMost, requested,
      if_neg (Nat.not_lt.mpr atMost), if_pos rfl, List.map_map]
    rfl
  refine ⟨_, ?_, carries_serialize _⟩
  rw [answer, listed]
  simp

theorem answer_up {base further step : Nat} (positive : 0 < step)
    (atMost : base + step * further ≤ data.chain.lastBlockNumber) :
    data.answer step false
        (data.chain.ancestorAt (base + step * further), further + 1) =
      (data.serialize (((List.range (further + 1)).map
        (base + step * ·)).map data.chain.ancestorAt) [], further + 1) := by
  have listed := collect_reverse consistent positive atMost
  have length := congrArg List.length listed
  simp only [List.length_reverse, List.length_map, List.length_range] at length
  rw [List.map_map, answer]
  simp only [Bool.false_eq_true, if_false, listed, length]
  rfl

/-- The answer to a request by number. -/
theorem blockHeaders_by_number {n maxHeaders skip : Nat}
    (start : n < 2 ^ 248) (bound : maxHeaders < 2 ^ 32)
    (small : skip < 2 ^ 32 - 1) (reverse : Bool) :
    ∃ rlp, data.blockHeaders (encodeData (RLPStream.intContent n)) maxHeaders
        skip reverse =
      .ok (rlp, (requested data.chain.lastBlockNumber (skip + 1) maxHeaders n
        reverse).length) ∧
      data.Carries (requested data.chain.lastBlockNumber (skip + 1) maxHeaders
        n reverse) rlp := by
  have nothing : ∀ numHeadersToSend, data.answer (skip + 1) reverse
      (zeroHash 32, numHeadersToSend) = ([], 0) := by
    intro numHeadersToSend
    simp [answer, collect_zeroHash, serialize]
  have empty : data.Carries [] [] :=
    ⟨0, Nat.le_refl _, rfl, by simp, .inl rfl⟩
  rw [blockHeaders_number small reverse start]
  have last := consistent.last_lt
  by_cases high : data.chain.lastBlockNumber < n
  · -- the number is above the head
    have none : requested data.chain.lastBlockNumber (skip + 1) maxHeaders n
        reverse = [] := if_pos high
    rw [none]
    refine ⟨[], ?_, empty⟩
    have started : data.startByNumber n maxHeaders (skip + 1) reverse =
        .ok (zeroHash 32, maxHeaders) := by
      cases reverse with
      | false => simp [startByNumber, high]
      | true =>
          by_cases unsigned : n ≤ 2 ^ 32 - 1
          · have narrow : n % 2 ^ 32 = n := Nat.mod_eq_of_lt (by omega)
            simp only [startByNumber, Bool.not_true, Bool.false_eq_true,
              if_false, if_pos unsigned, numberHash, narrow,
              consistent.above n high]
          · simp only [startByNumber, Bool.not_true, Bool.false_eq_true,
              if_false, if_neg unsigned]
    rw [started]
    exact congrArg Except.ok (nothing maxHeaders)
  · have atMost : n ≤ data.chain.lastBlockNumber := Nat.le_of_not_lt high
    cases reverse with
    | true =>
        have started : data.startByNumber n maxHeaders (skip + 1) true =
            .ok (data.chain.ancestorAt n, maxHeaders) := by
          have unsigned : n ≤ 2 ^ 32 - 1 := by omega
          simp only [startByNumber, Bool.not_true, Bool.false_eq_true,
            if_false, if_pos unsigned, numberHash_eq consistent atMost]
        obtain ⟨rlp, answered, carries⟩ :=
          @answer_reverse data consistent n maxHeaders (skip + 1)
            (Nat.succ_pos skip) atMost
        refine ⟨rlp, ?_, carries⟩
        rw [started]
        exact congrArg Except.ok answered
    | false =>
        rw [requested_up (Nat.succ_pos skip) atMost]
        by_cases zero : maxHeaders = 0
        · have none : sendable data.chain.lastBlockNumber (skip + 1)
              maxHeaders n = 0 := by
            simp [sendable, zero]
          rw [none]
          refine ⟨[], ?_, empty⟩
          have started : data.startByNumber n maxHeaders (skip + 1) false =
              .ok (zeroHash 32, maxHeaders) := by
            simp [startByNumber, zero]
          rw [started]
          exact congrArg Except.ok (nothing maxHeaders)
        · obtain ⟨further, sent, below, started⟩ :=
            startByNumber_eq last (Nat.succ_pos skip)
              (show skip + 1 < 2 ^ 32 by omega) atMost
              (Nat.pos_of_ne_zero zero) bound
          rw [← sent, started, numberHash_eq consistent below]
          refine ⟨_, ?_, carries_serialize _⟩
          rw [List.length_map, List.length_range]
          exact congrArg Except.ok
            (answer_up consistent (Nat.succ_pos skip) below)

end

theorem blockHeaders_by_number_sample :
    ∃ rlp, headersSample.blockHeaders (encodeData (RLPStream.intContent 0)) 3
        0 false = .ok (rlp, (requested 1 1 3 0 false).length) ∧
      headersSample.Carries (requested 1 1 3 0 false) rlp :=
  blockHeaders_by_number headersSample_consistent (by decide) (by decide)
    (by decide) false

/-! ## By hash and by number -/

/-- A consistent chain whose canonical headers are told apart. -/
structure Serves (data : AecmioHostData) : Prop where
  consistent : Consistent data.chain
  header : ∀ number ≤ data.chain.lastBlockNumber,
    RLP.Part (data.headerData (data.chain.ancestorAt number))
  distinct : ∀ number ≤ data.chain.lastBlockNumber,
    ∀ other ≤ data.chain.lastBlockNumber,
      data.headerData (data.chain.ancestorAt number) =
        data.headerData (data.chain.ancestorAt other) → number = other

theorem headersSample_serves : Serves headersSample := by
  refine ⟨headersSample_consistent, ?_, ?_⟩
  · intro number _
    apply RLP.Part.list
    rw [(headersSample.chain.ancestorAt number).property, RLP.readLimit_eq]
    decide
  · intro number atMost other otherAtMost same
    have hashes := Subtype.ext (RLP.encodeList_injective same)
    have heights := congrArg headersSample.chain.number hashes
    rw [headersSample_consistent.number_ancestorAt atMost,
      headersSample_consistent.number_ancestorAt otherAtMost] at heights
    exact heights

/-- The first header is always sent. -/
theorem serialize_head (hash : H256) (hashes : List H256) :
    ∃ rest, data.serialize (hash :: hashes) [] =
      data.headerData hash ++ rest := by
  obtain ⟨sent, -, eq, -⟩ :=
    @serialize_spec data hashes (data.headerData hash)
  have room : ([] : Bytes).length < c_maxPayload := by decide
  rw [serialize, if_pos room, List.nil_append, eq]
  exact ⟨_, rfl⟩

/-- Two answers that are the same begin with the same header. -/
theorem Serves.first_eq (serves : Serves data) {number other : Nat}
    (atMost : number ≤ data.chain.lastBlockNumber)
    (otherAtMost : other ≤ data.chain.lastBlockNumber)
    {hashes hashes' : List H256}
    (same : data.serialize (data.chain.ancestorAt number :: hashes) [] =
      data.serialize (data.chain.ancestorAt other :: hashes') []) :
    number = other := by
  obtain ⟨rest, eq⟩ :=
    @serialize_head data (data.chain.ancestorAt number) hashes
  obtain ⟨rest', eq'⟩ :=
    @serialize_head data (data.chain.ancestorAt other) hashes'
  rw [eq, eq'] at same
  have size := (serves.header number atMost).sizeAsEncoded rest
  rw [same, (serves.header other otherAtMost).sizeAsEncoded rest'] at size
  have length := Except.ok.inj size
  apply serves.distinct number atMost other otherAtMost
  exact (List.append_inj same length.symm).1

theorem range_cons (base step count : Nat) :
    ∃ numbers, (((List.range (count + 1)).map (base + step * ·)).map
      data.chain.ancestorAt) = data.chain.ancestorAt base :: numbers := by
  rw [List.range_succ_eq_map]
  exact ⟨_, rfl⟩

section

variable (consistent : Consistent data.chain) {n maxHeaders : Nat}
  (atMost : n ≤ data.chain.lastBlockNumber) (some_ : 0 < maxHeaders)
  (bound : maxHeaders < 2 ^ 32) {step : Nat} (positive : 0 < step)
  (stepSmall : step < 2 ^ 32)

include consistent atMost

omit atMost in
theorem onChain :
    n ≠ 0 ∨ data.chain.ancestorAt n = data.chain.genesis.hash := by
  by_cases zero : n = 0
  · right
    rw [zero]
    exact consistent.rooted.ancestorAt_zero
  · exact .inl zero

theorem startBy_reverse (maxHeaders step : Nat) :
    data.startByHash (data.chain.ancestorAt n) maxHeaders step true =
      data.startByNumber n maxHeaders step true := by
  have known := consistent.isKnown_ancestorAt atMost
  have last := consistent.last_lt
  have unsigned : n ≤ 2 ^ 32 - 1 := by omega
  simp only [startByHash, known, startByNumber, Bool.not_true,
    Bool.false_eq_true, if_false, if_true, if_pos unsigned,
    numberHash_eq consistent atMost]

include some_ bound positive stepSmall

theorem startBy_high
    (high : data.chain.lastBlockNumber < n + step * maxHeaders - 1) :
    data.startByHash (data.chain.ancestorAt n) maxHeaders step false =
      data.startByNumber n maxHeaders step false :=
  startByHash_high (consistent.isKnown_ancestorAt atMost)
    (consistent.number_ancestorAt atMost) (onChain consistent)
    consistent.last_lt atMost stepSmall some_ bound positive high

theorem startBy_low
    (low : n + step * maxHeaders - 1 ≤ data.chain.lastBlockNumber) :
    data.startByHash (data.chain.ancestorAt n) maxHeaders step false =
      .ok (data.chain.ancestorAt (n + step * maxHeaders - 1), maxHeaders) := by
  rw [startByHash_low (consistent.isKnown_ancestorAt atMost)
    (consistent.number_ancestorAt atMost) (onChain consistent)
    consistent.last_lt atMost stepSmall some_ bound positive low,
    numberHash_eq consistent low]

end

/-- The answers to requests by hash and by number are the same unless headers
are skipped and the block in front of the one behind the last is on the
chain. -/
theorem blockHeaders_hash_eq_number_iff (serves : Serves data)
    {n maxHeaders skip : Nat} (atMost : n ≤ data.chain.lastBlockNumber)
    (some_ : 0 < maxHeaders) (bound : maxHeaders < 2 ^ 32)
    (small : skip < 2 ^ 32 - 1) (reverse : Bool) :
    data.blockHeaders (encodeData (data.chain.ancestorAt n).val) maxHeaders
        skip reverse =
      data.blockHeaders (encodeData (RLPStream.intContent n)) maxHeaders skip
        reverse ↔
    reverse = true ∨ skip = 0 ∨
      data.chain.lastBlockNumber < n + (skip + 1) * maxHeaders - 1 := by
  have consistent := serves.consistent
  have last := consistent.last_lt
  have positive := Nat.succ_pos skip
  have stepSmall : skip + 1 < 2 ^ 32 := by omega
  have start : n < 2 ^ 248 := by omega
  rw [blockHeaders_hash small reverse, blockHeaders_number small reverse start]
  cases reverse with
  | true =>
      rw [startBy_reverse consistent atMost]
      simp
  | false =>
      by_cases high :
          data.chain.lastBlockNumber < n + (skip + 1) * maxHeaders - 1
      · rw [startBy_high consistent atMost some_ bound positive stepSmall high]
        simp [high]
      · have low := Nat.le_of_not_lt high
        obtain ⟨further, sent, below, started⟩ := startByNumber_eq last
          positive stepSmall atMost some_ bound
        rw [startBy_low consistent atMost some_ bound positive stepSmall low,
          started, numberHash_eq consistent below]
        simp only [Except.map]
        have rounds : maxHeaders = maxHeaders - 1 + 1 := by omega
        have base : n + (skip + 1) * maxHeaders - 1 =
            n + skip + (skip + 1) * (maxHeaders - 1) := by
          have product : (skip + 1) * maxHeaders =
              (skip + 1) * (maxHeaders - 1) + (skip + 1) := by
            rw [← Nat.mul_succ]
            congr 1
          omega
        have lowest := base ▸ low
        have left := answer_up consistent positive lowest
        rw [← base, ← rounds] at left
        have right := answer_up consistent positive below
        constructor
        · intro same
          rw [left, right] at same
          have bytes := congrArg Prod.fst (Except.ok.inj same)
          rw [rounds] at bytes
          obtain ⟨hashes, first⟩ := @range_cons data (n + skip) (skip + 1)
            (maxHeaders - 1)
          obtain ⟨hashes', first'⟩ := @range_cons data n (skip + 1) further
          simp only [Nat.add_sub_cancel, first, first'] at bytes
          have shifted := serves.first_eq (by omega) atMost bytes
          right
          left
          omega
        · intro conditions
          rcases conditions with impossible | zero | above
          · cases impossible
          · subst zero
            have count : further + 1 = maxHeaders := by
              simp only [sendable, Nat.zero_add, Nat.succ_eq_add_one, Nat.div_one,
                Nat.one_mul] at sent low
              omega
            rw [left, right, count]
            rfl
          · exact absurd above high

theorem blockHeaders_hash_eq_number_iff_sample :
    headersSample.blockHeaders (encodeData
        (headersSample.chain.ancestorAt 0).val) 2 0 false =
      headersSample.blockHeaders (encodeData (RLPStream.intContent 0)) 2 0
        false ↔
    false = true ∨ 0 = 0 ∨ 1 < 0 + (0 + 1) * 2 - 1 :=
  blockHeaders_hash_eq_number_iff headersSample_serves (Nat.zero_le _)
    (by decide) (by decide) (by decide) false

/-- One header from the genesis block on, skipping one: asked for by its hash,
the header of the next block is sent. -/
theorem skipped_header_sent :
    (headersSample.blockHeaders (encodeData (hashOfNat 100).val) 1 1 false =
        .ok (encodeList (hashOfNat 101).val, 1) ∧
      headersSample.blockHeaders (encodeData (RLPStream.intContent 0)) 1 1
        false = .ok (encodeList (hashOfNat 100).val, 1)) ∧
    ¬ ∀ data : AecmioHostData, Serves data →
        ∀ n maxHeaders skip : Nat, n ≤ data.chain.lastBlockNumber →
          0 < maxHeaders → maxHeaders < 2 ^ 32 → skip < 2 ^ 32 - 1 →
          ∀ reverse, data.blockHeaders
              (encodeData (data.chain.ancestorAt n).val) maxHeaders skip
              reverse =
            data.blockHeaders (encodeData (RLPStream.intContent n)) maxHeaders
              skip reverse := by
  have byHash : headersSample.blockHeaders (encodeData (hashOfNat 100).val) 1
      1 false = .ok (encodeList (hashOfNat 101).val, 1) := by decide +kernel
  have byNumber : headersSample.blockHeaders
      (encodeData (RLPStream.intContent 0)) 1 1 false =
        .ok (encodeList (hashOfNat 100).val, 1) := by decide +kernel
  have genesis : headersSample.chain.ancestorAt 0 = hashOfNat 100 := by
    decide +kernel
  refine ⟨⟨byHash, byNumber⟩, ?_⟩
  intro claimed
  have same := claimed headersSample headersSample_serves 0 1 1
    (Nat.zero_le _) (by decide) (by decide) (by decide) false
  rw [genesis, byHash, byNumber] at same
  exact absurd same (by decide +kernel)

/-! ## Never more than asked for -/

section

variable (rooted : BlockChain.Rooted data.chain) {maxHeaders step : Nat}
  (bound : maxHeaders < 2 ^ 32) (positive : 0 < step)
  (stepSmall : step < 2 ^ 32) (reverse : Bool)

include rooted

theorem last_lt : data.chain.lastBlockNumber < 2 ^ 32 - 1 := by
  have small := rooted.number_lt_invalid rooted.head_known
  rw [rooted.number_head] at small
  exact small

theorem number_le_of_isKnown {hash : H256}
    (known : data.chain.isKnown hash true = true) :
    data.chain.number hash ≤ data.chain.lastBlockNumber := by
  by_cases same : hash = data.chain.genesis.hash
  · rw [same, rooted.tree.height_root]
    exact Nat.zero_le _
  · simp only [Store.isKnown, same, false_or, decide_eq_true_eq,
      Bool.true_eq_false] at known
    exact known.2.2

include bound positive stepSmall

theorem startByNumber_bounded (n : Nat) :
    ∃ hash count, data.startByNumber n maxHeaders step reverse =
      .ok (hash, count) ∧ count ≤ maxHeaders := by
  cases reverse with
  | true =>
      by_cases unsigned : n ≤ 2 ^ 32 - 1
      · exact ⟨data.numberHash n, _, by simp only [startByNumber, Bool.not_true,
          Bool.false_eq_true, if_false, if_pos unsigned], Nat.le_refl _⟩
      · exact ⟨zeroHash 32, _, by simp only [startByNumber, Bool.not_true,
          Bool.false_eq_true, if_false, if_neg unsigned], Nat.le_refl _⟩
  | false =>
      by_cases outside : data.chain.lastBlockNumber < n ∨ maxHeaders = 0
      · exact ⟨zeroHash 32, _, by simp only [startByNumber, Bool.not_false, if_true,
          if_pos outside], Nat.le_refl _⟩
      · obtain ⟨further, sent, -, started⟩ := startByNumber_eq
          (last_lt rooted) positive stepSmall
          (show n ≤ data.chain.lastBlockNumber by omega)
          (show 0 < maxHeaders by omega) bound
        refine ⟨_, _, started, ?_⟩
        rw [sent]
        exact Nat.min_le_left _ _

theorem startByHash_bounded (blockHash : H256) :
    ∃ hash count, data.startByHash blockHash maxHeaders step reverse =
      .ok (hash, count) ∧ count ≤ maxHeaders := by
  cases known : data.chain.isKnown blockHash true with
  | false =>
      exact ⟨zeroHash 32, _, by simp only [startByHash, known, Bool.not_false, if_true],
        Nat.le_refl _⟩
  | true =>
      cases reverse with
      | true =>
          exact ⟨blockHash, _, by simp only [startByHash, known, Bool.not_true,
            Bool.false_eq_true, if_false, if_true], Nat.le_refl _⟩
      | false =>
          by_cases zero : maxHeaders = 0
          · exact ⟨zeroHash 32, _, by simp only [startByHash, known, Bool.not_true,
              Bool.false_eq_true, if_false, if_pos zero], Nat.le_refl _⟩
          · by_cases onChain : data.chain.number blockHash ≠ 0 ∨
                blockHash = data.chain.genesis.hash
            · -- the block is not above the head, even on a side chain
              have atMost := number_le_of_isKnown rooted known
              have some_ := Nat.pos_of_ne_zero zero
              by_cases high : data.chain.lastBlockNumber <
                  data.chain.number blockHash + step * maxHeaders - 1
              · rw [startByHash_high known rfl onChain (last_lt rooted) atMost
                  stepSmall some_ bound positive high]
                exact startByNumber_bounded rooted bound positive stepSmall
                  false _
              · exact ⟨_, _, startByHash_low known rfl onChain (last_lt rooted)
                  atMost stepSmall some_ bound positive (Nat.le_of_not_lt high),
                  Nat.le_refl _⟩
            · exact ⟨zeroHash 32, _, by simp only [startByHash, known, Bool.not_true,
                Bool.false_eq_true, if_false, if_neg zero, if_neg onChain],
                Nat.le_refl _⟩

end

theorem length_collect (step rounds : Nat) (hash : H256) :
    (data.collect step rounds hash).length ≤ rounds := by
  induction rounds generalizing hash with
  | zero => exact Nat.le_refl _
  | succ rounds induction =>
      rw [collect]
      split
      · exact Nat.zero_le _
      · exact Nat.succ_le_succ (induction _)

/-- No request makes a subtraction or an assertion fail or gets more headers
than it asks for; it can only be no RLP. -/
theorem blockHeaders_bounded (rooted : BlockChain.Rooted data.chain) (blockId : Bytes)
    {maxHeaders skip : Nat} (bound : maxHeaders < 2 ^ 32)
    (small : skip < 2 ^ 32 - 1) (reverse : Bool) :
    (∃ error, data.blockHeaders blockId maxHeaders skip reverse =
      .error (.rlp error)) ∨
    ∃ rlp count, data.blockHeaders blockId maxHeaders skip reverse =
      .ok (rlp, count) ∧ count ≤ maxHeaders := by
  have step : (skip % 2 ^ 32 + 1) % 2 ^ 32 = skip + 1 := by omega
  have positive := Nat.succ_pos skip
  have stepSmall : skip + 1 < 2 ^ 32 := by omega
  simp only [blockHeaders, step, asserted, positive, if_true, bind,
    Except.bind]
  cases RLP.size blockId with
  | error error => exact .inl ⟨error, rfl⟩
  | ok size =>
      simp only [Except.mapError]
      by_cases isHash : size = 32
      · rw [if_pos isHash]
        cases RLP.toHash 32 blockId with
        | error error => exact .inl ⟨error, rfl⟩
        | ok blockHash =>
            obtain ⟨hash, count, started, fewer⟩ := startByHash_bounded rooted
              bound positive stepSmall reverse blockHash
            simp only [started]
            refine .inr ⟨_, _, rfl, ?_⟩
            exact (length_collect _ _ _).trans fewer
      · rw [if_neg isHash]
        cases RLP.toInt .bigint blockId with
        | error error => exact .inl ⟨error, rfl⟩
        | ok n =>
            obtain ⟨hash, count, started, fewer⟩ := startByNumber_bounded
              rooted bound positive stepSmall reverse n
            simp only [started]
            refine .inr ⟨_, _, rfl, ?_⟩
            exact (length_collect _ _ _).trans fewer

theorem blockHeaders_bounded_sample :
    (∃ error, headersSample.blockHeaders (encodeData (hashOfNat 101).val) 7 3
      false = .error (.rlp error)) ∨
    ∃ rlp count, headersSample.blockHeaders (encodeData (hashOfNat 101).val) 7
      3 false = .ok (rlp, count) ∧ count ≤ 7 :=
  blockHeaders_bounded headersSample_consistent.rooted _ (by decide)
    (by decide) false

end AecmioHostData

end Aecmio
