import Aecmio.Chain.Receipt
import Aecmio.Evm.Schedule
import Aecmio.Logic.Dialogue

/-!
# The environment of an interpreter

An interpreter runs with the data of its frame and puts questions to an
`ExtVMFace`: reads of the state, changes of it, and calls and creations,
which hand back gas.
-/

namespace Aecmio

open Dialogues

/-- Status of a call or creation, `evmc_status_code`. -/
inductive StatusCode where
  | success
  | failure
  | revert
  | outOfGas
  | undefinedInstruction
  | stackOverflow
  | stackUnderflow
  | badJumpDestination
deriving DecidableEq

structure CallParameters where
  senderAddress : Address
  codeAddress : Address
  receiveAddress : Address
  valueTransfer : U256
  apparentValue : U256
  gas : U256
  data : Bytes
  staticCall : Bool
deriving DecidableEq

/-- The result of a call, with the gas that is left of the parameters. -/
structure CallResult where
  status : StatusCode
  output : Bytes
  gas : U256
deriving DecidableEq

/-- The result of a creation, with the gas that is left. -/
structure CreateResult where
  status : StatusCode
  output : Bytes
  address : Address
  gas : U256
deriving DecidableEq

/-- The instruction that a creation comes from. -/
inductive CreateKind where
  | create
  | create2
deriving DecidableEq

/-- The data members of `ExtVMFace` that an interpreter reads. -/
structure ExtVMFace where
  envInfo : EnvInfo
  myAddress : Address
  caller : Address
  origin : Address
  value : U256
  gasPrice : U256
  data : Bytes
  code : Bytes
  depth : Nat
  isCreate : Bool
  staticCall : Bool
  evmSchedule : EVMSchedule

namespace ExtVMFace

/-- The methods of `ExtVMFace`; `addRefund` is an update of `sub.refunds`. -/
inductive Question where
  | store (key : U256)
  | setStore (key value : U256)
  | addRefund (amount : Nat)
  | balance (addr : Address)
  | codeAt (addr : Address)
  | codeSizeAt (addr : Address)
  | exists_ (addr : Address)
  | suicide (beneficiary : Address)
  | create (endowment gas : U256) (init : Bytes) (op : CreateKind)
      (salt : U256)
  | call (params : CallParameters)
  | log (topics : List H256) (data : Bytes)
  | blockHash (number : U256)
deriving DecidableEq

@[reducible]
def Answer : Question → Type
  | .store _ | .balance _ => U256
  | .codeAt _ => Bytes
  | .codeSizeAt _ => Nat
  | .exists_ _ => Bool
  | .create .. => CreateResult
  | .call _ => CallResult
  | .blockHash _ => H256
  | .setStore _ _ | .addRefund _ | .suicide _ | .log _ _ => Unit

/-- What an interpreter may ask. -/
abbrev interface : Interface := ⟨Question, Answer⟩

end ExtVMFace

/-- `VMException` and `RevertInstruction`. -/
inductive VMException where
  | outOfGas
  | badInstruction
  | badJumpDestination
  | outOfStack (required got : Int)
  | stackUnderflow (required got : Int)
  | disallowedStateChange
  | bufferOverrun (endOfAccess size : Nat)
  | revertInstruction (output : Bytes)
deriving DecidableEq

/-! ## Words -/

/-- `asAddress`: the last 20 bytes. -/
def asAddress (word : U256) : Address :=
  ⟨toBigEndian word.toNat 20, length_toBigEndian _ _⟩

/-- `fromAddress`. -/
def fromAddress (addr : Address) : U256 :=
  BitVec.ofNat 256 (fromBigEndian addr.val)

/-- The `h256` of a word. -/
def h256OfWord (word : U256) : H256 :=
  ⟨toBigEndian word.toNat 32, length_toBigEndian _ _⟩

/-- `(u256)hash`. -/
def wordOfBytes (bytes : Bytes) : U256 :=
  BitVec.ofNat 256 (fromBigEndian bytes)

/-- `(uint64_t)word` and `static_cast<size_t>(word)`. -/
def toUInt64 (word : U256) : Nat := word.toNat % 2 ^ 64

end Aecmio
