import Aecmio.Chain.BlockTree
import Aecmio.Logic.Framed

/-!
# The uncles of a sealed block

A chosen uncle is a child of an ancestor of the head, some generations up.
Its number says the same number of generations, and its parent is that
ancestor, since numbers and parents in the details are those of the headers.
So the checks of `enact` accept what `commitToSeal` has chosen.
-/

namespace Aecmio

open Item RLP Framed

namespace BlockTree

/-! ## What an imported block has passed -/

section Accepted

variable [Hashing] {block : Bytes}

theorem ofBlock_eq (block : Bytes) :
    BlockHeader.ofBlock block = (extractHeader block).bind fun item =>
      (BlockHeader.populate item (sha3 item)).mapError .rlp := by
  unfold BlockHeader.ofBlock extractHeader
  simp only [bind, Except.bind, pure, Except.pure, throw, throwThe,
    MonadExceptOf.throw]
  repeat' split
  all_goals first
    | rfl
    | simp_all

variable [Recovering] {engine : SealEngine} {headerData : H256 → Bytes}
  {requirements : ImportRequirements}

theorem verifyBlock_header {result : VerifiedBlockRef TransactionBase}
    (accepted : BlockChain.verifyBlock engine headerData requirements block =
      .ok result) :
    ∃ parent, BlockHeader.ofBlock block = .ok result.info ∧
      BlockChain.parentHeader headerData requirements.parent
        result.info.parentHash .invalidParentHash = .ok parent ∧
      result.info.number ≤ 2 ^ 32 - 1 ∧
      result.info.verify parent = .ok () ∧
      (requirements.uncleBasic || requirements.uncleParent ||
        requirements.uncleSeals → ∃ items, uncleItems block = .ok items) := by
  obtain ⟨info, verified, accepted⟩ := exists_of_bind_ok accepted
  obtain ⟨uncles, listed, accepted⟩ := exists_of_bind_ok accepted
  obtain ⟨_, _, accepted⟩ := exists_of_bind_ok accepted
  obtain ⟨_, _, accepted⟩ := exists_of_bind_ok accepted
  obtain ⟨transactions, _, accepted⟩ := exists_of_bind_ok accepted
  rw [← Except.ok.inj accepted]
  obtain ⟨header, extracted, verified⟩ := exists_of_bind_ok verified
  obtain ⟨_, _, verified⟩ := exists_of_bind_ok verified
  obtain ⟨parent, found, verified⟩ := exists_of_bind_ok verified
  obtain ⟨_, checked, verified⟩ := exists_of_bind_ok verified
  rw [← Except.ok.inj verified]
  obtain ⟨_, checked, _⟩ := exists_of_bind_ok checked
  obtain ⟨_, small, checked⟩ := exists_of_bind_ok checked
  obtain ⟨_, _, checked⟩ := exists_of_bind_ok checked
  obtain ⟨_, follows, checked⟩ := exists_of_bind_ok checked
  refine ⟨parent, mapError_ok extracted, found,
    of_decide_eq_true (ok_of_unless small), mapError_ok follows, ?_⟩
  intro wanted
  rw [BlockChain.itemsOf, if_pos wanted] at listed
  exact ⟨uncles, mapError_ok listed⟩

end Accepted

/-! ## Rooted blocks -/

variable (tree : BlockTree) (headers : Set Bytes)

/-- A block that is kept under the hash of its header. -/
structure Filed [Hashing] (hash : H256) (header : BlockHeader) : Prop where
  known : hash = tree.genesisHash ∨ (tree.blocks hash).isSome
  inside : tree.headerData hash ∈ headers
  extracted : extractHeader (tree.block hash) = .ok (tree.headerData hash)
  hashed : sha3 (tree.headerData hash) = hash
  populated : BlockHeader.populate (tree.headerData hash) hash = .ok header
  uncles : hash ≠ tree.genesisHash →
    ∃ items, uncleItems (tree.block hash) = .ok items

/-- A block whose ancestors are kept, down to the genesis block. -/
inductive Rooted [Hashing] : H256 → BlockHeader → Prop
  | genesis {header : BlockHeader}
      (filed : Filed tree headers tree.genesisHash header)
      (first : header.number = 0) : Rooted tree.genesisHash header
  | child {hash : H256} {header parent : BlockHeader}
      (other : hash ≠ tree.genesisHash)
      (filed : Filed tree headers hash header)
      (follows : header.verify parent = .ok ())
      (above : Rooted header.parentHash parent) : Rooted hash header

/-- Details that agree with the headers. -/
structure Sound [Hashing] (hash : H256) (details : Details) : Prop where
  header : ∃ header, Rooted tree headers hash header ∧
    details.number = header.number ∧
    (hash ≠ tree.genesisHash → details.parent = header.parentHash)
  children : ∀ child ∈ details.children, ∃ below,
    Rooted tree headers child below ∧ child ≠ tree.genesisHash ∧
      below.parentHash = hash

/-- What holds of every tree. -/
structure WellFormed [Hashing] : Prop where
  genesis : ∃ header, Rooted tree headers tree.genesisHash header
  head : ∃ header, Rooted tree headers tree.lastBlockHash header ∧
    tree.lastBlockNumber = header.number
  blocks : ∀ hash, (tree.blocks hash).isSome →
    ∃ header, Rooted tree headers hash header
  stored : ∀ hash, hash = tree.genesisHash ∨ (tree.blocks hash).isSome →
    (tree.details.stored hash).isSome
  sound : ∀ hash details, tree.details.stored hash = some details ∨
    tree.details.cached hash = some details → Sound tree headers hash details

section Rooted

variable [Hashing] {tree headers} {hash : H256} {header other : BlockHeader}

namespace Filed

theorem populate_hashed (filed : Filed tree headers hash header) :
    BlockHeader.populate (tree.headerData hash)
      (sha3 (tree.headerData hash)) = .ok header := by
  rw [filed.hashed]
  exact filed.populated

theorem info_eq (filed : Filed tree headers hash header) :
    tree.info hash = .ok header := filed.populate_hashed

theorem ofBlock_eq (filed : Filed tree headers hash header) :
    BlockHeader.ofBlock (tree.block hash) = .ok header := by
  rw [BlockTree.ofBlock_eq, filed.extracted]
  change (BlockHeader.populate _ _).mapError _ = _
  rw [filed.populate_hashed]
  rfl

theorem unique (filed : Filed tree headers hash header)
    (filed' : Filed tree headers hash other) : header = other := by
  have same := filed'.populated
  rw [filed.populated] at same
  exact Except.ok.inj same

theorem positive (filed : Filed tree headers hash header) :
    header.Positive := by
  obtain ⟨-, content, -, -, readFrom⟩ := BlockHeader.populate_ok filed.populated
  exact readFrom.positive

theorem hash_eq (filed : Filed tree headers hash header)
    (nonzero : hash ≠ zeroHash 32) : header.hash = .ok hash := by
  have memo := (BlockHeader.populate_ok filed.populated).1
  rw [BlockHeader.hash, memo, if_neg nonzero]
  rfl

end Filed

theorem verify_ok {parent : BlockHeader} (positive : parent.Positive)
    (follows : header.verify parent = .ok ()) :
    header.number = parent.number + 1 := by
  have set : parent.isSet = true := by
    have after := positive.timestamp
    rw [BlockHeader.isSet, decide_eq_true_eq]
    omega
  unfold BlockHeader.verify at follows
  obtain ⟨_, follows⟩ := guard_ok follows
  rw [if_pos set] at follows
  obtain ⟨_, _, follows⟩ := exists_of_bind_ok follows
  obtain ⟨_, follows⟩ := guard_ok follows
  obtain ⟨_, follows⟩ := guard_ok follows
  by_contra different
  rw [if_pos different] at follows
  cases follows

namespace Rooted

theorem filed (rooted : Rooted tree headers hash header) :
    Filed tree headers hash header := by
  cases rooted with
  | genesis filed first => exact filed
  | child other filed follows above => exact filed

theorem unique (rooted : Rooted tree headers hash header)
    (rooted' : Rooted tree headers hash other) : header = other :=
  rooted.filed.unique rooted'.filed

/-- The parent of a block other than the genesis block. -/
theorem parent (rooted : Rooted tree headers hash header)
    (notGenesis : hash ≠ tree.genesisHash) :
    ∃ parent, Rooted tree headers header.parentHash parent ∧
      header.verify parent = .ok () ∧ header.number = parent.number + 1 := by
  cases rooted with
  | genesis filed first => exact absurd rfl notGenesis
  | @child hash header parent other filed follows above =>
      exact ⟨parent, above, follows, verify_ok above.filed.positive follows⟩

theorem first (rooted : Rooted tree headers tree.genesisHash header) :
    header.number = 0 := by
  generalize same : tree.genesisHash = hash at rooted
  cases rooted with
  | genesis filed first => exact first
  | child other filed follows above => exact absurd same.symm other

end Rooted

end Rooted

/-! ## Imports keep the tree in order -/

section Import

variable [Hashing] {tree tree' : BlockTree} {headers : Set Bytes}
  {hash : H256} {header : BlockHeader}

/-- Nothing that was kept is lost. -/
structure Extends (tree : BlockTree) (headers : Set Bytes)
    (tree' : BlockTree) : Prop where
  genesis : tree'.genesisHash = tree.genesisHash
  filed : ∀ hash header, Filed tree headers hash header →
    Filed tree' headers hash header

theorem Rooted.mono (longer : Extends tree headers tree')
    (rooted : Rooted tree headers hash header) :
    Rooted tree' headers hash header := by
  induction rooted with
  | genesis filed first =>
      rw [← longer.genesis]
      apply Rooted.genesis
      · rw [longer.genesis]
        exact longer.filed _ _ filed
      · exact first
  | child other filed follows above induction =>
      apply Rooted.child
      · rw [longer.genesis]
        exact other
      · exact longer.filed _ _ filed
      · exact follows
      · exact induction

theorem Sound.mono (longer : Extends tree headers tree')
    {details : Details} (sound : Sound tree headers hash details) :
    Sound tree' headers hash details := by
  constructor
  · obtain ⟨header, rooted, number, parent⟩ := sound.header
    rw [longer.genesis]
    exact ⟨header, rooted.mono longer, number, parent⟩
  · intro child member
    obtain ⟨below, rooted, other, above⟩ := sound.children child member
    rw [longer.genesis]
    exact ⟨below, rooted.mono longer, other, above⟩

/-- Details that are read are sound. -/
theorem WellFormed.read (wellFormed : WellFormed tree headers)
    {details : Details} (found : tree.details.read hash = some details) :
    Sound tree headers hash details := by
  apply wellFormed.sound
  unfold BlockChain.Extras.read at found
  cases cached : tree.details.cached hash with
  | none =>
      rw [cached, Option.none_or] at found
      exact .inl found
  | some inside =>
      rw [cached, Option.some_or] at found
      exact .inr found

theorem WellFormed.detailsOf (wellFormed : WellFormed tree headers)
    (rooted : Rooted tree headers hash header) :
    tree.details.read hash = some (tree.detailsOf hash) ∧
      Sound tree headers hash (tree.detailsOf hash) := by
  obtain ⟨details, stored⟩ := Option.isSome_iff_exists.mp
    (wellFormed.stored hash rooted.filed.known)
  have found : ∃ details, tree.details.read hash = some details := by
    unfold BlockChain.Extras.read
    cases cached : tree.details.cached hash with
    | none => exact ⟨details, stored⟩
    | some inside => exact ⟨inside, rfl⟩
  obtain ⟨details, found⟩ := found
  have read : tree.detailsOf hash = details := by
    rw [BlockTree.detailsOf, found]
    rfl
  rw [read]
  exact ⟨found, wellFormed.read found⟩

/-- A block whose parent is there. -/
structure Arrives (tree : BlockTree) (headers : Set Bytes) (block : Bytes)
    (hash : H256) (header : BlockHeader) : Prop where
  item : ∃ item ∈ headers, extractHeader block = .ok item ∧
    sha3 item = hash ∧ BlockHeader.populate item hash = .ok header
  uncles : ∃ items, uncleItems block = .ok items
  above : ∃ parent, Rooted tree headers header.parentHash parent ∧
    header.verify parent = .ok ()
  small : header.number ≤ 2 ^ 32 - 1

variable [Recovering] {engine : SealEngine} {mustBeNew once best : Bool}
  {block : Bytes}

omit [Recovering] in
theorem parentHeader_eq {parent : BlockHeader} {missing : VerificationError}
    (rooted : Rooted tree headers hash header)
    (found : BlockChain.parentHeader tree.headerData true hash missing =
      .ok parent) : parent = header := by
  have filed := rooted.filed
  have hashWith : (if hash = zeroHash 32 then sha3 (tree.headerData hash)
      else hash) = hash := by
    rw [filed.hashed, ite_self]
  have wanted : ¬(!true) = true := by decide
  unfold BlockChain.parentHeader at found
  rw [if_neg wanted] at found
  obtain ⟨_, found⟩ := guard_ok found
  rw [hashWith, filed.populated] at found
  exact (Except.ok.inj found).symm

omit [Hashing] [Recovering] in
theorem ok_of_toOption {ε α : Type} {result : Except ε α} {value : α}
    (returned : result.toOption = some value) : result = .ok value := by
  cases result with
  | error error => cases returned
  | ok inside => rw [Option.some.inj returned]

omit [Hashing] [Recovering] in
theorem of_guard {condition : Prop} [Decidable condition] {value : Unit}
    (passed : (if condition then pure () else failure) = some value) :
    condition := by
  by_contra fails
  rw [if_neg fails] at passed
  cases passed

theorem WellFormed.arrives (wellFormed : WellFormed tree headers)
    (inside : ∀ item, extractHeader block = .ok item →
      item ∈ headers ∧ sha3 item ≠ zeroHash 32)
    (imported : tree.import_ engine mustBeNew once best block = some tree') :
    ∃ hash header, Arrives tree headers block hash header ∧
      tree' = tree.insertBlock once best hash header block := by
  unfold BlockTree.import_ at imported
  simp only [Option.bind_eq_bind, Option.bind_eq_some_iff, guard] at imported
  obtain ⟨verified, accepted, hash, hashed, _, _, _, known, again, checked,
    rest⟩ := imported
  have known := of_guard known
  obtain ⟨parent, extracted, found, small, follows, uncles⟩ :=
    verifyBlock_header (ok_of_toOption checked)
  obtain ⟨_, extracted', _, _, _, _⟩ :=
    verifyBlock_header (ok_of_toOption accepted)
  rw [extracted] at extracted'
  have same : again.info = verified.info := Except.ok.inj extracted'
  rw [same] at extracted found small follows
  rw [ofBlock_eq] at extracted
  obtain ⟨item, itemFound, populated⟩ := exists_of_bind_ok extracted
  have populated := mapError_ok populated
  obtain ⟨member, nonzero⟩ := inside item itemFound
  have memo := (BlockHeader.populate_ok populated).1
  have hash_eq : hash = sha3 item := by
    have hashed := ok_of_toOption hashed
    rw [BlockHeader.hash, memo, if_neg nonzero] at hashed
    exact (Except.ok.inj hashed).symm
  have above : ∃ parent,
      Rooted tree headers verified.info.parentHash parent := by
    rw [isKnown, decide_eq_true_eq] at known
    rcases known with genesis | ⟨there, -⟩
    · rw [genesis]
      exact wellFormed.genesis
    · exact wellFormed.blocks _ there
  obtain ⟨parent', rooted⟩ := above
  rw [parentHeader_eq rooted found] at follows
  refine ⟨hash, verified.info, ⟨?_, uncles rfl, ⟨parent', rooted, follows⟩,
    small⟩, (Option.some.inj rest).symm⟩
  rw [hash_eq]
  exact ⟨item, member, itemFound, rfl, populated⟩

section Insert

omit [Recovering]

omit [Hashing] in
theorem block_insert (notGenesis : hash ≠ tree.genesisHash) :
    (tree.insertBlock once best hash header block).block hash = block := by
  simp [BlockTree.block, insertBlock, notGenesis]

omit [Hashing] in
theorem block_insert_of_ne {other : H256} (different : other ≠ hash) :
    (tree.insertBlock once best hash header block).block other =
      tree.block other := by
  simp [BlockTree.block, insertBlock, different]

variable (wellFormed : WellFormed tree headers)
  (arrives : Arrives tree headers block hash header)
  (injective : Set.InjOn sha3 headers)

namespace Arrives

include arrives injective

/-- A block that is there has the same header. -/
theorem again {other : BlockHeader} (filed : Filed tree headers hash other) :
    header = other ∧ extractHeader block = .ok (tree.headerData hash) := by
  obtain ⟨item, inside, extracted, hashed, populated⟩ := arrives.item
  have same : item = tree.headerData hash :=
    injective inside filed.inside (hashed.trans filed.hashed.symm)
  rw [same] at extracted populated
  rw [filed.populated] at populated
  exact ⟨(Except.ok.inj populated).symm, extracted⟩

include wellFormed

theorem notGenesis : hash ≠ tree.genesisHash := by
  intro same
  subst same
  obtain ⟨genesis, rooted⟩ := wellFormed.genesis
  obtain ⟨parent, above, follows⟩ := arrives.above
  have number := verify_ok above.filed.positive follows
  have nonnegative := above.filed.positive.number.1
  have first := rooted.first
  rw [← (arrives.again injective rooted.filed).1] at first
  omega

theorem extend :
    Extends tree headers (tree.insertBlock once best hash header block) := by
  refine ⟨rfl, ?_⟩
  intro other header' filed
  have notGenesis := arrives.notGenesis wellFormed injective
  by_cases same : other = hash
  · subst same
    have block_eq := @block_insert tree other header once best block notGenesis
    have extracted := (arrives.again injective filed).2
    have data : (tree.insertBlock once best other header block).headerData
        other = tree.headerData other := by
      rw [headerData, block_eq, extracted]
    constructor
    · right
      simp [insertBlock]
    · rw [data]
      exact filed.inside
    · rw [data, block_eq]
      exact extracted
    · rw [data]
      exact filed.hashed
    · rw [data]
      exact filed.populated
    · intro _
      rw [block_eq]
      exact arrives.uncles
  · have block_eq := @block_insert_of_ne tree hash header once best block other
      same
    have data : (tree.insertBlock once best hash header block).headerData
        other = tree.headerData other := by
      rw [headerData, block_eq, headerData]
    constructor
    · refine filed.known.imp id fun there => ?_
      simpa [insertBlock, same] using there
    · rw [data]
      exact filed.inside
    · rw [data, block_eq]
      exact filed.extracted
    · rw [data]
      exact filed.hashed
    · rw [data]
      exact filed.populated
    · intro notGenesis
      rw [block_eq]
      exact filed.uncles notGenesis

theorem rooted : Rooted (tree.insertBlock once best hash header block) headers
    hash header := by
  have notGenesis := arrives.notGenesis wellFormed injective
  have block_eq := @block_insert tree hash header once best block notGenesis
  obtain ⟨item, inside, extracted, hashed, populated⟩ := arrives.item
  obtain ⟨parent, above, follows⟩ := arrives.above
  have data : (tree.insertBlock once best hash header block).headerData hash =
      item := by
    rw [headerData, block_eq, extracted]
  have aboveThere : Rooted (tree.insertBlock once best hash header block)
      headers header.parentHash parent :=
    above.mono (arrives.extend wellFormed injective)
  refine .child notGenesis ?_ follows aboveThere
  constructor
  · right
    simp [insertBlock]
  · rw [data]
    exact inside
  · rw [data, block_eq]
    exact extracted
  · rw [data]
    exact hashed
  · rw [data]
    exact populated
  · intro _
    rw [block_eq]
    exact arrives.uncles

end Arrives

include wellFormed arrives injective

theorem sound_child :
    Sound (tree.insertBlock once best hash header block) headers
      header.parentHash (addChild once hash
        (tree.detailsOf header.parentHash)) := by
  obtain ⟨parent, above, -⟩ := arrives.above
  have longer := @Arrives.extend _ _ _ _ _ once best _ wellFormed arrives
    injective
  have sound := (wellFormed.detailsOf above).2.mono longer
  have child := @Arrives.rooted _ _ _ _ _ once best _ wellFormed arrives
    injective
  have notGenesis := arrives.notGenesis wellFormed injective
  unfold addChild
  split
  · exact sound
  · refine ⟨sound.header, ?_⟩
    intro below member
    rcases List.mem_append.mp member with before | last
    · exact sound.children below before
    · rw [List.mem_singleton.mp last]
      exact ⟨header, child, notGenesis, rfl⟩

theorem WellFormed.insert :
    WellFormed (tree.insertBlock once best hash header block) headers := by
  have notGenesis := arrives.notGenesis wellFormed injective
  have longer := @Arrives.extend _ _ _ _ _ once best _ wellFormed arrives
    injective
  have child : Rooted (tree.insertBlock once best hash header block) headers
      hash header := arrives.rooted wellFormed injective
  have positive := child.filed.positive
  have small := arrives.small
  have number : ((header.number.toNat % 2 ^ 32 : Nat) : Int) =
      header.number := by
    have nonnegative := positive.number.1
    omega
  obtain ⟨parent, above, -⟩ := arrives.above
  have cached : (tree.details.query header.parentHash).2.cached
      header.parentHash = some (tree.detailsOf header.parentHash) := by
    rw [BlockChain.Extras.query_cached, if_pos rfl,
      (wellFormed.detailsOf above).1]
  have soundChild := @sound_child _ _ _ _ _ once best _ wellFormed arrives
    injective
  constructor
  · obtain ⟨genesis, rooted⟩ := wellFormed.genesis
    exact ⟨genesis, rooted.mono longer⟩
  · cases best with
    | true => exact ⟨header, child, number⟩
    | false =>
        obtain ⟨last, rooted, same⟩ := wellFormed.head
        exact ⟨last, rooted.mono longer, same⟩
  · intro other there
    by_cases same : other = hash
    · rw [same]
      exact ⟨header, child⟩
    · have before : (tree.blocks other).isSome := by
        simpa [insertBlock, same] using there
      obtain ⟨header', rooted⟩ := wellFormed.blocks other before
      exact ⟨header', rooted.mono longer⟩
  · intro other there
    simp only [insertBlock, BlockChain.Extras.store, BlockChain.Extras.cache,
      BlockChain.Extras.query_stored]
    by_cases same : other = hash
    · rw [same, Function.update_self]
      rfl
    · rw [Function.update_of_ne same]
      by_cases parents : other = header.parentHash
      · rw [parents, Function.update_self]
        rfl
      · rw [Function.update_of_ne parents]
        apply wellFormed.stored
        refine there.imp id fun before => ?_
        simpa [insertBlock, same] using before
  · intro other details found
    simp only [insertBlock, BlockChain.Extras.store, BlockChain.Extras.cache,
      BlockChain.Extras.query_stored, cached, Option.getD_some] at found
    rcases found with stored | cached'
    · by_cases same : other = hash
      · rw [same, Function.update_self] at stored
        rw [same, ← Option.some.inj stored]
        exact ⟨⟨header, child, number, fun _ => rfl⟩,
          fun below member => absurd member List.not_mem_nil⟩
      · rw [Function.update_of_ne same] at stored
        by_cases parents : other = header.parentHash
        · rw [parents, Function.update_self] at stored
          rw [parents, ← Option.some.inj stored]
          exact soundChild
        · rw [Function.update_of_ne parents] at stored
          exact (wellFormed.sound _ _ (.inl stored)).mono longer
    · by_cases parents : other = header.parentHash
      · rw [parents, Function.update_self] at cached'
        rw [parents, ← Option.some.inj cached']
        exact soundChild
      · rw [Function.update_of_ne parents, BlockChain.Extras.query_cached,
          if_neg parents] at cached'
        exact (wellFormed.sound _ _ (.inr cached')).mono longer

end Insert

end Import

/-! ## Trees that can be reached -/

section Runs

variable [Hashing] {tree : BlockTree} {headers : Set Bytes} {hash : H256}

/-- What is read into the cache or leaves it. -/
theorem WellFormed.cached (wellFormed : WellFormed tree headers)
    {details : BlockChain.Extras H256 Details}
    (stored : details.stored = tree.details.stored)
    (cached : ∀ hash inside, details.cached hash = some inside →
      tree.details.read hash = some inside) :
    WellFormed { tree with details } headers := by
  have longer : Extends tree headers { tree with details } :=
    ⟨rfl, fun _ _ filed => ⟨filed.known, filed.inside, filed.extracted,
      filed.hashed, filed.populated, filed.uncles⟩⟩
  constructor
  · obtain ⟨genesis, rooted⟩ := wellFormed.genesis
    exact ⟨genesis, rooted.mono longer⟩
  · obtain ⟨last, rooted, same⟩ := wellFormed.head
    exact ⟨last, rooted.mono longer, same⟩
  · intro hash there
    obtain ⟨header, rooted⟩ := wellFormed.blocks hash there
    exact ⟨header, rooted.mono longer⟩
  · intro hash there
    rw [stored]
    exact wellFormed.stored hash there
  · intro hash inside found
    rcases found with below | above
    · rw [stored] at below
      exact (wellFormed.sound _ _ (.inl below)).mono longer
    · exact (wellFormed.read (cached _ _ above)).mono longer

theorem WellFormed.query (wellFormed : WellFormed tree headers) :
    WellFormed { tree with details := (tree.details.query hash).2 }
      headers := by
  apply wellFormed.cached (BlockChain.Extras.query_stored hash tree.details)
  intro other inside found
  rw [BlockChain.Extras.query_cached] at found
  by_cases same : other = hash
  · rw [if_pos same] at found
    rw [same]
    exact found
  · rw [if_neg same] at found
    rw [BlockChain.Extras.read, found]
    rfl

theorem WellFormed.forget (wellFormed : WellFormed tree headers)
    (hashes : List H256) :
    WellFormed { tree with details := tree.details.forget hashes }
      headers := by
  refine @WellFormed.cached _ _ _ wellFormed _ rfl ?_
  intro other inside found
  unfold BlockChain.Extras.forget at found
  by_cases lost : other ∈ hashes
  · simp only [if_pos lost] at found
    cases found
  · simp only [if_neg lost] at found
    rw [BlockChain.Extras.read, found]
    rfl

theorem WellFormed.toHead (wellFormed : WellFormed tree headers)
    {details : Details} (found : tree.details.read hash = some details) :
    WellFormed { tree with
      lastBlockHash := hash
      lastBlockNumber := details.number } headers := by
  have longer : Extends tree headers { tree with
      lastBlockHash := hash
      lastBlockNumber := details.number } :=
    ⟨rfl, fun _ _ filed => ⟨filed.known, filed.inside, filed.extracted,
      filed.hashed, filed.populated, filed.uncles⟩⟩
  constructor
  · obtain ⟨genesis, rooted⟩ := wellFormed.genesis
    exact ⟨genesis, rooted.mono longer⟩
  · obtain ⟨header, rooted, number, -⟩ := (wellFormed.read found).header
    exact ⟨header, rooted.mono longer, number⟩
  · intro other there
    obtain ⟨header, rooted⟩ := wellFormed.blocks other there
    exact ⟨header, rooted.mono longer⟩
  · exact wellFormed.stored
  · intro other inside kept
    exact (wellFormed.sound _ _ kept).mono longer

theorem start_wellFormed {genesisBlock : Bytes} {genesis : BlockHeader}
    (decoded : BlockHeader.ofBlock genesisBlock = .ok genesis)
    (first : genesis.number = 0)
    (inside : ∀ item, extractHeader genesisBlock = .ok item →
      item ∈ headers) :
    WellFormed (start genesisBlock) headers := by
  rw [ofBlock_eq] at decoded
  obtain ⟨item, extracted, populated⟩ := exists_of_bind_ok decoded
  have populated := mapError_ok populated
  have genesisHash : (start genesisBlock).genesisHash = sha3 item := by
    rw [start, extracted]
  have block : (start genesisBlock).block (start genesisBlock).genesisHash =
      genesisBlock := if_pos rfl
  have data : (start genesisBlock).headerData
      (start genesisBlock).genesisHash = item := by
    rw [headerData, block, extracted]
  have rooted : Rooted (start genesisBlock) headers
      (start genesisBlock).genesisHash genesis := by
    apply Rooted.genesis _ first
    constructor
    · exact .inl rfl
    · rw [data]
      exact inside item extracted
    · rw [data, block]
      exact extracted
    · rw [data, genesisHash]
    · rw [data, genesisHash]
      exact populated
    · intro other
      exact absurd rfl other
  have sound : Sound (start genesisBlock) headers
      (start genesisBlock).genesisHash ⟨0, zeroHash 32, []⟩ :=
    ⟨⟨genesis, rooted, by simp [first], fun other => absurd rfl other⟩,
      fun below member => absurd member List.not_mem_nil⟩
  have kept : ∀ hash details, Function.update (fun _ => none)
      (start genesisBlock).genesisHash (some (⟨0, zeroHash 32, []⟩ : Details))
        hash = some details → Sound (start genesisBlock) headers hash
          details := by
    intro hash details found
    by_cases same : hash = (start genesisBlock).genesisHash
    · rw [same, Function.update_self] at found
      rw [same, ← Option.some.inj found]
      exact sound
    · rw [Function.update_of_ne same] at found
      cases found
  constructor
  · exact ⟨genesis, rooted⟩
  · exact ⟨genesis, rooted, by simp [start, first]⟩
  · intro hash there
    cases there
  · intro hash there
    rcases there with same | there
    · rw [same]
      simp [start]
    · cases there
  · intro hash details found
    exact found.elim (kept hash details) (kept hash details)

variable [Recovering] {engine : SealEngine}

theorem step_wellFormed (injective : Set.InjOn sha3 headers)
    (nonzero : ∀ item ∈ headers, sha3 item ≠ zeroHash 32)
    (wellFormed : WellFormed tree headers) (step : Step)
    (inside : ∀ mustBeNew once best block item,
      step = .import_ mustBeNew once best block →
      extractHeader block = .ok item → item ∈ headers) :
    WellFormed (tree.step engine step) headers := by
  cases step with
  | import_ mustBeNew once best block =>
      rw [BlockTree.step]
      cases imported : tree.import_ engine mustBeNew once best block with
      | none => exact wellFormed
      | some tree' =>
          have inside : ∀ item, extractHeader block = .ok item →
              item ∈ headers ∧ sha3 item ≠ zeroHash 32 := by
            intro item extracted
            have member := inside _ _ _ _ item rfl extracted
            exact ⟨member, nonzero item member⟩
          obtain ⟨hash, header, arrives, rfl⟩ :=
            wellFormed.arrives inside imported
          exact wellFormed.insert arrives injective
  | head hash =>
      rw [BlockTree.step]
      cases found : tree.details.read hash with
      | none => exact wellFormed
      | some details => exact wellFormed.toHead found
  | query hash => exact wellFormed.query
  | forget hashes => exact wellFormed.forget hashes

/-- The headers of the genesis block and of the blocks to be imported. -/
def headersOf (genesisBlock : Bytes) (steps : List Step) : Set Bytes :=
  { item | extractHeader genesisBlock = .ok item ∨
    ∃ mustBeNew once best block,
      Step.import_ mustBeNew once best block ∈ steps ∧
        extractHeader block = .ok item }

theorem run_wellFormed (injective : Set.InjOn sha3 headers)
    (nonzero : ∀ item ∈ headers, sha3 item ≠ zeroHash 32)
    (steps : List Step)
    (inside : ∀ step ∈ steps, ∀ mustBeNew once best block item,
      step = .import_ mustBeNew once best block →
      extractHeader block = .ok item → item ∈ headers)
    (wellFormed : WellFormed tree headers) :
    WellFormed (tree.run engine steps) headers := by
  induction steps generalizing tree with
  | nil => exact wellFormed
  | cons step steps induction =>
      apply induction
      · intro other member
        exact inside other (List.mem_cons_of_mem _ member)
      · exact step_wellFormed injective nonzero wellFormed step
          (inside step List.mem_cons_self)

end Runs

/-! ## The choice of the uncles -/

/-- What is known of the uncles that are chosen. -/
structure Apt (kin : List H256) (Fit : H256 → Prop) (chosen : Chosen) :
    Prop where
  atMost : chosen.uncles.length ≤ 2
  kept : ∀ hash ∈ kin, hash ∈ chosen.excluded
  apart : ∀ uncle ∈ chosen.uncles, uncle ∉ kin
  excluded : chosen.uncles.length < 2 →
    ∀ uncle ∈ chosen.uncles, uncle ∈ chosen.excluded
  nodup : chosen.uncles.Nodup
  fit : ∀ uncle ∈ chosen.uncles, Fit uncle

theorem nodup_concat {uncles : List H256} {child : H256}
    (nodup : uncles.Nodup) (fresh : child ∉ uncles) :
    (uncles ++ [child]).Nodup := by
  rw [List.nodup_append]
  refine ⟨nodup, List.nodup_singleton _, ?_⟩
  intro uncle member last same equal
  rw [List.mem_singleton.mp same] at equal
  exact fresh (equal ▸ member)

theorem chooseAmong_apt {kin : List H256} {Fit : H256 → Prop}
    {children : List H256} {chosen : Chosen} (apt : Apt kin Fit chosen)
    (below : chosen.uncles.length < 2) (fit : ∀ child ∈ children, Fit child) :
    Apt kin Fit (chooseAmong children chosen) := by
  induction children generalizing chosen with
  | nil => exact apt
  | cons child children induction =>
      have fitRest := fun other member =>
        fit other (List.mem_cons_of_mem _ member)
      rw [chooseAmong]
      by_cases known : child ∈ chosen.excluded
      · rw [if_pos known]
        exact induction apt below fitRest
      · rw [if_neg known]
        have fresh : child ∉ chosen.uncles :=
          fun member => known (apt.excluded below child member)
        have apart : ∀ uncle ∈ chosen.uncles ++ [child], uncle ∉ kin := by
          intro uncle member inside
          rcases List.mem_append.mp member with before | last
          · exact apt.apart uncle before inside
          · rw [List.mem_singleton.mp last] at inside
            exact known (apt.kept child inside)
        have fits : ∀ uncle ∈ chosen.uncles ++ [child], Fit uncle := by
          intro uncle member
          rcases List.mem_append.mp member with before | last
          · exact apt.fit uncle before
          · rw [List.mem_singleton.mp last]
            exact fit child List.mem_cons_self
        have nodup := nodup_concat apt.nodup fresh
        by_cases second : chosen.uncles.length + 1 = 2
        · rw [if_pos second]
          refine ⟨?_, apt.kept, apart, ?_, nodup, fits⟩
          · rw [List.length_append, List.length_singleton]
            omega
          · intro few
            rw [List.length_append, List.length_singleton] at few
            omega
        · rw [if_neg second]
          refine induction ⟨?_, ?_, apart, ?_, nodup, fits⟩ ?_ fitRest
          · rw [List.length_append, List.length_singleton]
            omega
          · intro hash inside
            exact List.mem_cons_of_mem _ (apt.kept hash inside)
          · intro _ uncle member
            rcases List.mem_append.mp member with before | last
            · exact List.mem_cons_of_mem _ (apt.excluded below uncle before)
            · rw [List.mem_singleton.mp last]
              exact List.mem_cons_self
          · rw [List.length_append, List.length_singleton]
            omega

section Choice

variable [Hashing] {tree : BlockTree} {headers : Set Bytes}
  {head hash : H256} {previous header : BlockHeader}

/-- The ancestors of a block in the details. -/
def ancestor (tree : BlockTree) (head : H256) : Nat → H256
  | 0 => head
  | generation + 1 => (tree.detailsOf (tree.ancestor head generation)).parent

/-- A child of an ancestor. -/
def Cousin (tree : BlockTree) (headers : Set Bytes) (head : H256) (number : Int)
    (uncle : H256) : Prop :=
  ∃ generation header, 1 ≤ generation ∧ generation ≤ 6 ∧
    Rooted tree headers uncle header ∧ uncle ≠ tree.genesisHash ∧
      header.parentHash = tree.ancestor head generation ∧
      header.number + generation = number + 1

theorem WellFormed.parent (wellFormed : WellFormed tree headers)
    (rooted : Rooted tree headers hash header)
    (notGenesis : hash ≠ tree.genesisHash) :
    ∃ parent, Rooted tree headers (tree.detailsOf hash).parent parent ∧
      header.number = parent.number + 1 := by
  obtain ⟨parent, above, -, number⟩ := rooted.parent notGenesis
  obtain ⟨header', rooted', -, same⟩ := (wellFormed.detailsOf rooted).2.header
  rw [rooted'.unique rooted] at same
  rw [same notGenesis]
  exact ⟨parent, above, number⟩

theorem chooseFrom_apt (wellFormed : WellFormed tree headers)
    {kin : List H256} {number : Int} (rounds generation : Nat)
    (bounded : 1 ≤ generation ∧ generation + rounds ≤ 7)
    (rooted : Rooted tree headers (tree.ancestor head generation) header)
    (above : header.number + generation = number) {chosen : Chosen}
    (apt : Apt kin (Cousin tree headers head number) chosen) :
    Apt kin (Cousin tree headers head number)
      (tree.chooseFrom rounds (tree.ancestor head generation) chosen) := by
  induction rounds generalizing generation header chosen with
  | zero => exact apt
  | succ rounds induction =>
      rw [chooseFrom]
      split
      · rename_i goesOn
        obtain ⟨notGenesis, few⟩ := goesOn
        obtain ⟨parent, rooted', number'⟩ :=
          wellFormed.parent rooted notGenesis
        refine @induction parent (generation + 1) ?_ rooted' ?_ _ ?_
        · omega
        · rw [Nat.cast_add, Nat.cast_one]
          omega
        · apply chooseAmong_apt apt few
          intro child member
          obtain ⟨below, child', other, same⟩ :=
            (wellFormed.detailsOf rooted).2.children child member
          obtain ⟨parent', parents, -, next⟩ := child'.parent other
          rw [same] at parents
          rw [parents.unique rooted] at next
          refine ⟨generation, below, bounded.1, ?_, child', other, same, ?_⟩
          · omega
          · omega
      · exact apt

theorem kinLoop_ok (wellFormed : WellFormed tree headers)
    (generations : Nat) (rooted : Rooted tree headers hash header)
    (ret : List H256) : ∃ kin, tree.kinLoop generations hash ret = .ok kin := by
  induction generations generalizing hash header ret with
  | zero => exact ⟨ret, rfl⟩
  | succ generations induction =>
      rw [kinLoop]
      by_cases genesis : hash = tree.genesisHash
      · rw [if_pos genesis]
        exact ⟨ret, rfl⟩
      · rw [if_neg genesis]
        obtain ⟨items, listed⟩ := rooted.filed.uncles genesis
        obtain ⟨parent, rooted', -⟩ := wellFormed.parent rooted genesis
        rw [listed]
        exact induction rooted' _

theorem WellFormed.unclesFor_apt (wellFormed : WellFormed tree headers)
    (rooted : Rooted tree headers head previous) {current : BlockHeader}
    (parent : current.parentHash = head) :
    ∃ uncles kin, tree.unclesFor previous current = .ok uncles ∧
      tree.allKinFrom head 6 = .ok kin ∧ uncles.length ≤ 2 ∧ uncles.Nodup ∧
      ∀ uncle ∈ uncles, uncle ∉ kin ∧
        Cousin tree headers head previous.number uncle := by
  obtain ⟨kin, kins⟩ := kinLoop_ok wellFormed 6 rooted [head]
  by_cases first : previous.number = 0
  · refine ⟨[], kin, ?_, kins, Nat.zero_le _, List.nodup_nil, ?_⟩
    · rw [unclesFor, if_pos first]
    · intro uncle member
      exact absurd member List.not_mem_nil
  · have notGenesis : head ≠ tree.genesisHash := by
      intro same
      rw [same] at rooted
      exact first rooted.first
    obtain ⟨grandparent, above, number⟩ := wellFormed.parent rooted notGenesis
    have same : previous.parentHash = tree.ancestor head 1 := by
      obtain ⟨header, rooted', -, same⟩ :=
        (wellFormed.detailsOf rooted).2.header
      rw [rooted'.unique rooted] at same
      exact (same notGenesis).symm
    have start : Apt kin (Cousin tree headers head previous.number)
        { excluded := kin } :=
      ⟨Nat.zero_le _, fun _ => id,
        fun _ member => absurd member List.not_mem_nil,
        fun _ _ member => absurd member List.not_mem_nil, List.nodup_nil,
        fun _ member => absurd member List.not_mem_nil⟩
    have apt := chooseFrom_apt wellFormed 6 1 ⟨le_refl _, le_refl _⟩ above
      number.symm start
    refine ⟨_, kin, ?_, kins, apt.atMost, apt.nodup, fun uncle member =>
      ⟨apt.apart uncle member, apt.fit uncle member⟩⟩
    rw [unclesFor, if_neg first, parent, allKinFrom, kins, same]
    rfl

theorem expectedUncleParent_eq {lastBlockHashes : H256 → List H256}
    {blockReward : Int → U256} {eip158ForkBlock : Nat} (rounds : Nat) :
    Block.expectedUncleParent
      (tree.chain lastBlockHashes blockReward eip158ForkBlock) head rounds =
        tree.ancestor head (rounds + 1) := by
  induction rounds with
  | zero => rfl
  | succ rounds induction =>
      rw [Block.expectedUncleParent, induction]
      rfl

end Choice

/-! ## The checks of the uncles -/

section Checks

variable [Hashing] {Transaction ε : Type} {tree : BlockTree}
  {headers : Set Bytes} {current : BlockHeader}
  {lastBlockHashes : H256 → List H256} {blockReward : Int → U256}
  {eip158ForkBlock : Nat}

/-- An uncle that is accepted when it is not excluded. -/
def Passes (chain : BlockChain) (Transaction ε : Type) (current : BlockHeader)
    (data : Bytes) (uncle : BlockHeader) : Prop :=
  ∀ excluded, sha3 data ∉ excluded →
    ∀ block : Block Transaction, block.currentBlock = current →
      (Block.checkUncle chain excluded data : BlockM Transaction ε _).run
        block = .ok ((uncle, sha3 data), block)

theorem passes_of {chain : BlockChain} {data : Bytes}
    {uncle uncleParent : BlockHeader} {generation : Nat}
    (populated : BlockHeader.populate data (sha3 data) = .ok uncle)
    (known : chain.isKnown uncle.parentHash = true)
    (parent : BlockHeader.ofBlock (chain.block uncle.parentHash) =
      .ok uncleParent)
    (depth : current.number - uncle.number = generation)
    (lower : 1 ≤ generation) (upper : generation ≤ 6)
    (expected : Block.expectedUncleParent chain current.parentHash
      (generation - 1) = uncle.parentHash)
    (hashed : uncleParent.hash = .ok uncle.parentHash)
    (follows : uncle.verify uncleParent = .ok ()) :
    Passes chain Transaction ε current data uncle := by
  intro excluded fresh block same
  refine run_bind_eq_ok.mpr ⟨block, block, rfl, ?_⟩
  rw [if_neg fresh]
  refine run_bind_eq_ok.mpr ⟨uncle, block, by rw [populated]; rfl, ?_⟩
  rw [if_neg (by simp [known])]
  refine run_bind_eq_ok.mpr ⟨uncleParent, block, by rw [parent]; rfl, ?_⟩
  simp only [same, depth]
  rw [if_neg (by omega), if_neg (by omega), Int.toNat_natCast, expected]
  refine run_bind_eq_ok.mpr
    ⟨uncle.parentHash, block, by rw [hashed]; rfl, ?_⟩
  rw [if_neg (by simp)]
  exact run_bind_eq_ok.mpr ⟨(), block, by rw [follows]; rfl, rfl⟩

theorem checkUncles_ok {chain : BlockChain} {index : Nat}
    {excluded : List H256} {uncles : List H256} {data : H256 → Bytes}
    {header : H256 → BlockHeader}
    (passes : ∀ uncle ∈ uncles, sha3 (data uncle) = uncle ∧
      Passes chain Transaction ε current (data uncle) (header uncle))
    (nodup : uncles.Nodup) (fresh : ∀ uncle ∈ uncles, uncle ∉ excluded)
    (block : Block Transaction) (same : block.currentBlock = current) :
    (Block.checkUncles chain index excluded (uncles.map data) :
      BlockM Transaction ε _).run block = .ok (uncles.map header, block) := by
  induction uncles generalizing index excluded with
  | nil => rfl
  | cons uncle uncles induction =>
      obtain ⟨hashed, accepted⟩ := passes uncle List.mem_cons_self
      obtain ⟨notAgain, nodupRest⟩ := List.nodup_cons.mp nodup
      have freshRest : ∀ other ∈ uncles, other ∉ uncle :: excluded := by
        intro other member inside
        rcases List.mem_cons.mp inside with again | before
        · exact notAgain (again ▸ member)
        · exact fresh other (List.mem_cons_of_mem _ member) before
      have first : (Block.checkUncle chain excluded (data uncle) :
          BlockM Transaction ε _).run block =
            .ok ((header uncle, uncle), block) := by
        have checked := accepted excluded
          (by rw [hashed]; exact fresh uncle List.mem_cons_self) block same
        rw [hashed] at checked
        exact checked
      have rest := @induction (index + 1) (uncle :: excluded)
        (fun other member => passes other (List.mem_cons_of_mem _ member))
        nodupRest freshRest
      refine run_bind_eq_ok.mpr ⟨(header uncle, uncle), block, ?_, ?_⟩
      · exact run_tryCatch_ok first
      · exact run_bind_eq_ok.mpr ⟨uncles.map header, block, rest, rfl⟩

omit [Hashing] in
theorem mapM_map_ok {α β error : Type} {list : List α}
    {step : α → Except error β} {value : α → β}
    (each : ∀ item ∈ list, step item = .ok (value item)) :
    list.mapM step = .ok (list.map value) := by
  induction list with
  | nil => rfl
  | cons item list induction =>
      have rest := induction fun other member =>
        each other (List.mem_cons_of_mem _ member)
      rw [List.mapM_cons, each item List.mem_cons_self]
      change (list.mapM step).bind _ = _
      rw [rest]
      rfl

theorem cousin_passes {number : Int}
    (wellFormed : WellFormed tree headers)
    (nonzero : ∀ item ∈ headers, sha3 item ≠ zeroHash 32)
    (known : number = tree.lastBlockNumber)
    (next : current.number = number + 1) {uncle : H256}
    (cousin : Cousin tree headers current.parentHash number uncle) :
    ∃ header, Rooted tree headers uncle header ∧
      header.number < current.number ∧
      Passes (tree.chain lastBlockHashes blockReward eip158ForkBlock)
        Transaction ε current (tree.headerData uncle) header := by
  obtain ⟨generation, header, lower, upper, rooted, other, same, above⟩ :=
    cousin
  obtain ⟨parent, parents, follows, number'⟩ := rooted.parent other
  have filed := parents.filed
  have hashed : parent.hash = .ok header.parentHash := by
    apply filed.hash_eq
    rw [← filed.hashed]
    exact nonzero _ filed.inside
  obtain ⟨found, sound⟩ := wellFormed.detailsOf parents
  have known : tree.isKnown header.parentHash = true := by
    obtain ⟨parent', parents', details, -⟩ := sound.header
    rw [parents'.unique parents] at details
    rw [isKnown, decide_eq_true_eq]
    refine filed.known.imp id fun there => ⟨there, by rw [found]; rfl, .inr ?_⟩
    omega
  have expected : Block.expectedUncleParent
      (tree.chain lastBlockHashes blockReward eip158ForkBlock)
        current.parentHash (generation - 1) = header.parentHash := by
    rw [expectedUncleParent_eq, Nat.sub_add_cancel lower, same]
  refine ⟨header, rooted, by omega, ?_⟩
  exact passes_of rooted.filed.populate_hashed known filed.ofBlock_eq
    (by omega) lower upper expected hashed follows

variable [Recovering] {engine : SealEngine}

/-- The uncles that are put into a block pass the checks of `enact`, which
rewards the same uncles. -/
theorem chosen_uncles_pass {genesisBlock headerBytes : Bytes}
    {genesis previous : BlockHeader} {steps : List Step}
    (decoded : BlockHeader.ofBlock genesisBlock = .ok genesis)
    (first : genesis.number = 0)
    (injective : Set.InjOn sha3
      (headersOf genesisBlock steps ∪ {headerBytes}))
    (nonzero : ∀ item ∈ headersOf genesisBlock steps ∪ {headerBytes},
      sha3 item ≠ zeroHash 32)
    (reached : tree = (start genesisBlock).run engine steps)
    (head : tree.info tree.lastBlockHash = .ok previous)
    (populated : BlockHeader.populate headerBytes (sha3 headerBytes) =
      .ok current)
    (parent : current.parentHash = tree.lastBlockHash)
    (number : current.number = previous.number + 1) :
    ∃ uncles rewarded, tree.unclesFor previous current = .ok uncles ∧
      uncles.length ≤ 2 ∧ uncles.mapM tree.info = .ok rewarded ∧
      ∀ hash, current.hash = .ok hash →
      ∀ block : Block Transaction, block.currentBlock = current →
        (Block.checkUncles
          (tree.chain lastBlockHashes blockReward eip158ForkBlock) 0
          (hash ::
            (tree.chain lastBlockHashes blockReward
              eip158ForkBlock).allKinFrom current.parentHash 6)
          (uncles.map tree.headerData) : BlockM Transaction ε _).run block =
            .ok (rewarded, block) := by
  have genesisInside : ∀ item, extractHeader genesisBlock = .ok item →
      item ∈ headersOf genesisBlock steps ∪ {headerBytes} :=
    fun item extracted => .inl (.inl extracted)
  have importsInside : ∀ step ∈ steps, ∀ mustBeNew once best block item,
      step = .import_ mustBeNew once best block →
      extractHeader block = .ok item →
      item ∈ headersOf genesisBlock steps ∪ {headerBytes} := by
    intro step member mustBeNew once best block item same extracted
    rw [same] at member
    exact .inl (.inr ⟨_, _, _, _, member, extracted⟩)
  have wellFormed : WellFormed tree
      (headersOf genesisBlock steps ∪ {headerBytes}) := by
    rw [reached]
    exact run_wellFormed injective nonzero steps importsInside
      (start_wellFormed decoded first genesisInside)
  obtain ⟨previous', rooted, known⟩ := wellFormed.head
  rw [rooted.filed.info_eq] at head
  cases head
  obtain ⟨uncles, kin, chosen, kins, few, nodup, cousins⟩ :=
    wellFormed.unclesFor_apt rooted parent
  have checked : ∀ uncle ∈ uncles, ∃ header,
      Rooted tree (headersOf genesisBlock steps ∪ {headerBytes}) uncle header ∧
      header.number < current.number ∧
      Passes (tree.chain lastBlockHashes blockReward eip158ForkBlock)
        Transaction ε current (tree.headerData uncle) header := by
    intro uncle member
    have cousin := (cousins uncle member).2
    rw [← parent] at cousin
    exact cousin_passes wellFormed nonzero known.symm number cousin
  have : Inhabited BlockHeader := ⟨{}⟩
  choose! header uncleRooted lower passes using checked
  refine ⟨uncles, uncles.map header, chosen, few, ?_, ?_⟩
  · exact mapM_map_ok fun uncle member =>
      (uncleRooted uncle member).filed.info_eq
  · intro hash hashed block same
    have memo := (BlockHeader.populate_ok populated).1
    rw [BlockHeader.hash, memo, if_neg (nonzero headerBytes (.inr rfl))]
      at hashed
    have allKin : (tree.chain lastBlockHashes blockReward
        eip158ForkBlock).allKinFrom current.parentHash 6 = kin := by
      simp only [BlockTree.chain, parent, kins]
    rw [allKin, ← Except.ok.inj hashed]
    refine checkUncles_ok (fun uncle member => ⟨?_, passes uncle member⟩)
      nodup ?_ block same
    · exact (uncleRooted uncle member).filed.hashed
    · intro uncle member excluded
      have filed := (uncleRooted uncle member).filed
      rcases List.mem_cons.mp excluded with itself | inside
      · have data : tree.headerData uncle = headerBytes :=
          injective filed.inside (.inr rfl) (filed.hashed.trans itself)
        have decoded := filed.populate_hashed
        rw [data, populated] at decoded
        have below := lower uncle member
        rw [← Except.ok.inj decoded] at below
        exact lt_irrefl _ below
      · exact (cousins uncle member).1 inside

end Checks

section Sample

/-- Nobody signs in the blocks below. -/
def treeSampleRecovering : Recovering where
  recover _ _ := none

/-- A header over no transactions and no uncles. -/
def treeSample (parentHash : H256) (number timestamp : Int) :
    BlockHeader where
  parentHash
  sha3Uncles := hashOfNat
    0x1dcc4de8dec75d7aab85b567b6ccd41ad312451b948a7413f0a142fd40d49347
  transactionsRoot := hashOfNat
    0x56e81f171bcc55a6ff8345e692c0f86e5b48e01b996cadc001622fb5e363b421
  number
  timestamp
  seals := [[0x80]]

def treeSampleBytes (parentHash : H256) (number timestamp : Int) : Bytes :=
  (treeSample parentHash number timestamp).listed [[0x80]]

def genesisSample : Bytes := treeSampleBytes (zeroHash 32) 0 0

def genesisSampleHash : H256 := hashOfNat
  0xc1355e08a21ece985c03af861e0fc250c04566364f8e63f50fef15e7b3f30586

def firstSample : Bytes := treeSampleBytes genesisSampleHash 1 1

def firstSampleHash : H256 := hashOfNat
  0xbd85cf089ead647108e1d2f0561255e1d36bb08a82eac4f330f243160bd9a50b

def secondSample : Bytes := treeSampleBytes firstSampleHash 2 2

def secondSampleHash : H256 := hashOfNat
  0x5b6e5431b239adf8ae58f3f41e5a60306705de85ab617de574062a0e2f868434

/-- Another child of the first block. -/
def uncleSample : Bytes := treeSampleBytes firstSampleHash 2 3

def uncleSampleHash : H256 := hashOfNat
  0xba0479393c6e96cfb1eef4979a55ea31fe5f1eb475d9ffe633840f465343bf14

def thirdSample : Bytes := treeSampleBytes secondSampleHash 3 4

def thirdSampleHash : H256 := hashOfNat
  0xfcf293072ddcd1903bc67f7c08bcca248e91ab0114dba67c62cc90fff199f41f

def sealedSample : Bytes := treeSampleBytes thirdSampleHash 4 5

def sealedSampleHash : H256 := hashOfNat
  0xef157089e4f8895b82d8fa78a3c1145d0a1cc9251067aef9a97bbf836e861303

/-- Keccak-256 of the strings that are hashed. -/
def treeSampleHashes : List (Bytes × H256) :=
  [([0x80], (treeSample (zeroHash 32) 0 0).transactionsRoot),
    ([0xc0], (treeSample (zeroHash 32) 0 0).sha3Uncles),
    (genesisSample, genesisSampleHash), (firstSample, firstSampleHash),
    (secondSample, secondSampleHash), (uncleSample, uncleSampleHash),
    (thirdSample, thirdSampleHash), (sealedSample, sealedSampleHash)]

def treeSampleHashing : Hashing where
  sha3 bytes := ((treeSampleHashes.find? fun entry =>
    entry.1 = bytes).map Prod.snd).getD (zeroHash 32)
  trieRoot _ := zeroHash 32

attribute [local instance] treeSampleHashing treeSampleRecovering

/-- A block without transactions and uncles. -/
def blockOf (header : Bytes) : Bytes := encodeList (header ++ [0xc0, 0xc0])

def stepsSample : List Step :=
  [.import_ true false true (blockOf firstSample),
    .import_ true false true (blockOf secondSample),
    .import_ true false false (blockOf uncleSample),
    .import_ true false true (blockOf thirdSample)]

def runSample : BlockTree :=
  (start (blockOf genesisSample)).run noProof stepsSample

theorem headersOf_sample {item : Bytes}
    (inside : item ∈ headersOf (blockOf genesisSample) stepsSample ∪
      {sealedSample}) :
    item ∈ [genesisSample, firstSample, secondSample, uncleSample, thirdSample,
      sealedSample] := by
  have extracted : ∀ header ∈ [genesisSample, firstSample, secondSample,
      uncleSample, thirdSample],
      extractHeader (blockOf header) = .ok header := by
    decide +kernel
  have unpack : ∀ header ∈ [genesisSample, firstSample, secondSample,
      uncleSample, thirdSample],
      extractHeader (blockOf header) = .ok item → item = header := by
    intro header member found
    rw [extracted header member] at found
    exact (Except.ok.inj found).symm
  rcases inside with (first | ⟨mustBeNew, once, best, block, step, found⟩) |
    last
  · rw [unpack genesisSample (by simp) first]
    simp
  · simp only [stepsSample, List.mem_cons, List.not_mem_nil, or_false,
      Step.import_.injEq] at step
    rcases step with ⟨-, -, -, same⟩ | ⟨-, -, -, same⟩ | ⟨-, -, -, same⟩ |
      ⟨-, -, -, same⟩
    · rw [same] at found
      rw [unpack firstSample (by simp) found]
      simp
    · rw [same] at found
      rw [unpack secondSample (by simp) found]
      simp
    · rw [same] at found
      rw [unpack uncleSample (by simp) found]
      simp
    · rw [same] at found
      rw [unpack thirdSample (by simp) found]
      simp
  · rw [Set.mem_singleton_iff.mp last]
    simp

theorem injOn_headersOf_sample : Set.InjOn sha3
    (headersOf (blockOf genesisSample) stepsSample ∪ {sealedSample}) := by
  have pairs : ∀ item ∈ [genesisSample, firstSample, secondSample, uncleSample,
      thirdSample, sealedSample],
      ∀ other ∈ [genesisSample, firstSample, secondSample, uncleSample,
        thirdSample, sealedSample], sha3 item = sha3 other → item = other := by
    decide +kernel
  intro item inside other inside' same
  exact pairs item (headersOf_sample inside) other (headersOf_sample inside')
    same

theorem nonzero_headersOf_sample : ∀ item ∈
    headersOf (blockOf genesisSample) stepsSample ∪ {sealedSample},
      sha3 item ≠ zeroHash 32 := by
  have each : ∀ item ∈ [genesisSample, firstSample, secondSample, uncleSample,
      thirdSample, sealedSample], sha3 item ≠ zeroHash 32 := by
    decide +kernel
  exact fun item inside => each item (headersOf_sample inside)

/-- The head, and the header of the block to be sealed. -/
def previousSample : BlockHeader :=
  { treeSample secondSampleHash 3 4 with memo := thirdSampleHash }

def currentSample : BlockHeader :=
  { treeSample thirdSampleHash 4 5 with memo := sealedSampleHash }

theorem genesisSample_decoded :
    BlockHeader.ofBlock (blockOf genesisSample) =
      .ok { treeSample (zeroHash 32) 0 0 with memo := genesisSampleHash } := by
  decide +kernel

/-- The third block is the head, and the other child of the first block is
chosen. -/
theorem runSample_head : runSample.lastBlockHash = thirdSampleHash ∧
    runSample.info thirdSampleHash = .ok previousSample ∧
    runSample.unclesFor previousSample currentSample =
      .ok [uncleSampleHash] := by
  decide +kernel

theorem sealedSample_populated :
    BlockHeader.populate sealedSample (sha3 sealedSample) =
      .ok currentSample := by
  decide +kernel

theorem chosen_uncles_pass_sample :
    ∃ uncles rewarded,
      runSample.unclesFor previousSample currentSample = .ok uncles ∧
      uncles.length ≤ 2 ∧ uncles.mapM runSample.info = .ok rewarded ∧
      ∀ hash, currentSample.hash = .ok hash →
      ∀ block : Block Unit, block.currentBlock = currentSample →
        (Block.checkUncles (runSample.chain (fun _ => []) (fun _ => 0) 0) 0
          (hash :: (runSample.chain (fun _ => []) (fun _ => 0) 0).allKinFrom
            currentSample.parentHash 6)
          (uncles.map runSample.headerData) : BlockM Unit Unit _).run block =
            .ok (rewarded, block) :=
  chosen_uncles_pass genesisSample_decoded rfl injOn_headersOf_sample
    nonzero_headersOf_sample rfl
    (runSample_head.1 ▸ runSample_head.2.1) sealedSample_populated
    runSample_head.1.symm (by decide)

end Sample

end BlockTree

end Aecmio
