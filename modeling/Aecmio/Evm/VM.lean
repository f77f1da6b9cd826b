import Aecmio.Evm.LegacyVM

/-!
# `VM`

The interpreter behind EVMC.  It takes its prices from `VMSchedule` and a
revision, and reaches the `ExtVMFace` through the functions of its host,
which are here together with the cases that use them.  The gas of a message
is an `int64_t`; `EVMC::exec` asserts that it fits.
-/

namespace Aecmio

open Dialogues Interpreter

namespace VM

/-! ## The host -/

/-- `evmc_call_kind`. -/
inductive MessageKind where
  | call
  | delegatecall
  | callcode
  | create
deriving DecidableEq

/-- What the interpreter fills in of an `evmc_message`. -/
structure Message where
  kind : MessageKind
  isStatic : Bool
  gas : Nat
  destination : Address
  sender : Address
  input : Bytes
  value : U256

/-- `evmc_result`. -/
structure Result where
  status : StatusCode
  gasLeft : Nat
  output : Bytes
  createAddress : Address

/-- `copyCode`: what is copied to a buffer of `bufferSize` bytes. -/
def copyCode (code : Bytes) (codeOffset bufferSize : Nat) : Bytes :=
  if code.length ≤ codeOffset then []
  else
    let maxToCopy := code.length - codeOffset
    let numToCopy := min maxToCopy bufferSize
    (code.drop codeOffset).take numToCopy

/-- `setStorage`, which counts a refund for a slot that is deleted. -/
def setStorage (ext : ExtVMFace) (key value : U256) : VMProcess Unit := do
  if value = 0 then
    let current ← ask (.store key)
    if current ≠ 0 then
      ask (.addRefund ext.evmSchedule.sstoreRefundGas)
  ask (.setStore key value)

/-- `create`; a creation that succeeds has no output. -/
def hostCreate (msg : Message) : VMProcess Result := do
  let result ← ask (.create msg.value (BitVec.ofNat 256 msg.gas) msg.input
    .create 0)
  return {
    status := result.status
    gasLeft := toUInt64 result.gas
    output := if result.status = .success then [] else result.output
    createAddress := result.address }

/-- The parameters that `call` makes of a message. -/
def hostParameters (ext : ExtVMFace) (msg : Message) : CallParameters where
  senderAddress := msg.sender
  codeAddress := msg.destination
  receiveAddress :=
    if msg.kind = .call then msg.destination else ext.myAddress
  valueTransfer := if msg.kind = .delegatecall then 0 else msg.value
  apparentValue := msg.value
  gas := BitVec.ofNat 256 msg.gas
  data := msg.input
  staticCall := msg.isStatic

/-- `call`. -/
def hostCall (ext : ExtVMFace) (msg : Message) : VMProcess Result := do
  if msg.kind = .create then hostCreate msg
  else
    let result ← ask (.call (hostParameters ext msg))
    return {
      status := result.status
      gasLeft := toUInt64 result.gas
      output := result.output
      createAddress := asAddress 0 }

/-! ## Cases -/

def rules (rev : Revision) : Rules where
  haveDelegateCall := rev.atLeast .homestead
  haveBitwiseShifting := rev.atLeast .constantinople
  haveRevert := rev.atLeast .byzantium
  haveReturnData := rev.atLeast .byzantium
  haveStaticCall := rev.atLeast .byzantium
  stepGas tier := ([0, 2, 3, 5, 8, 10, 20, 0, 0] : List Nat).getD tier.index 0
  expGas := 10
  expByteGas := if rev.atLeast .spuriousDragon then 50 else 10
  sha3Gas := 30
  sha3WordGas := 6
  sloadGas := if rev.atLeast .tangerineWhistle then 200 else 50
  jumpdestGas := 1
  logGas := 375
  logDataGas := 8
  logTopicGas := 375
  memoryGas := 3
  quadCoeffDiv := 512
  copyGas := 3
  extcodesizeGas := if rev.atLeast .tangerineWhistle then 700 else 20
  extcodecopyGas := if rev.atLeast .tangerineWhistle then 700 else 20
  balanceGas := if rev.atLeast .tangerineWhistle then 400 else 20

section

variable (ext : ExtVMFace) (rev : Revision)

/-- `updateSSGas`. -/
def updateSSGas : VMProcess Unit := do
  let machine ← get
  let value ← ask (.store (machine.sp 0))
  setRunGas (if value = 0 ∧ machine.sp 1 ≠ 0 then 20000 else 5000)

def caseSstore : VMProcess Flow := do
  if ext.staticCall then throw .disallowedStateChange
  else
    updateSSGas
    updateIOGas
    let machine ← get
    setStorage ext (machine.sp 0) (machine.sp 1)
    next 2 []

def caseExtcodecopy : VMProcess Flow := do
  let machine ← get
  setRunGas (rules rev).extcodecopyGas
  setCopyMemSize (machine.sp 3)
  updateMem (rules rev) (← memNeed (machine.sp 1) (machine.sp 3))
  updateIOGas
  let memoryOffset := toUInt64 (machine.sp 1)
  let codeOffsetMax := sizeTRange - 1
  let codeOffset :=
    if codeOffsetMax < (machine.sp 2).toNat then codeOffsetMax
    else toUInt64 (machine.sp 2)
  let size := (← get).copyMemSize
  let code ← ask (.codeAt (asAddress (machine.sp 0)))
  let copied := copyCode code codeOffset size
  modify fun machine => machine.writeMem memoryOffset
    (copied ++ List.replicate (size - copied.length) 0)
  next 4 []

def caseBlockhash : VMProcess Flow := do
  setRunGas 20
  updateIOGas
  let blockNumber := ext.envInfo.header.number
  let number : Int := ((← get).sp 0).toNat
  if number < blockNumber ∧ max 256 blockNumber - 256 ≤ number then
    let hash ← ask (.blockHash (BitVec.ofInt 256 number))
    next 1 [wordOfBytes hash.val]
  else next 1 [0]

def caseSuicide : VMProcess Flow := do
  if ext.staticCall then throw .disallowedStateChange
  else
    setRunGas (if rev.atLeast .tangerineWhistle then 5000 else 0)
    let destination := asAddress ((← get).sp 0)
    let balance ← ask (.balance ext.myAddress)
    if 0 < balance ∨ !rev.atLeast .spuriousDragon then
      let present ← ask (.exists_ destination)
      if rev.atLeast .tangerineWhistle ∧ !present then addRunGas 25000
    updateIOGas
    ask (.suicide destination)
    return .halt []

/-- The gas that a creation is given. -/
def createGas (gas : Nat) : Nat :=
  if rev.atLeast .tangerineWhistle then gas - gas / 64 else gas

/-- `caseCreate`, which only `CREATE` gets to. -/
def caseCreate : VMProcess Flow := do
  let start ← get
  let initOff := start.sp 1
  let initSize := start.sp 2
  setRunGas 32000
  updateMem (rules rev) (← memNeed initOff initSize)
  updateIOGas
  modify fun machine => { machine with returnData := [] }
  let balance ← ask (.balance ext.myAddress)
  if start.sp 0 ≤ balance ∧ ext.depth < 1024 then
    let machine ← get
    let msg : Message := {
      kind := .create
      isStatic := false
      gas := createGas rev machine.gas
      destination := asAddress 0
      sender := ext.myAddress
      input := machine.slice (toUInt64 initOff) (toUInt64 initSize)
      value := start.sp 0 }
    let result ← hostCall ext msg
    modify fun machine =>
      { LegacyVM.takeCreateGas machine (BitVec.ofNat 256 msg.gas)
          (BitVec.ofNat 256 result.gasLeft) with
        returnData := result.output }
    next 3 [if result.status = .success then fromAddress result.createAddress
      else 0]
  else next 3 [0]

def messageKind : CallKind → MessageKind
  | .call | .staticcall => .call
  | .callcode => .callcode
  | .delegatecall => .delegatecall

/-- What is charged before the memory and the gas of the call. -/
def chargeCall (kind : CallKind) : VMProcess Unit := do
  let machine ← get
  setRunGas (if rev.atLeast .tangerineWhistle then 700 else 40)
  let present ← ask (.exists_ (asAddress (machine.sp 1)))
  if kind = .call ∧ !present ∧
      (0 < machine.sp 2 ∨ !rev.atLeast .spuriousDragon) then
    addRunGas 25000
  if LegacyVM.haveValueArg kind ∧ 0 < machine.sp 2 then addRunGas 9000

/-- The gas asked for, or all but one 64th of what is left. -/
def callGas (machine : Machine) : U256 :=
  if rev.atLeast .tangerineWhistle then
    let left := BitVec.ofNat 256 (machine.gas - machine.gas / 64)
    if machine.sp 0 ≤ left then machine.sp 0 else left
  else machine.sp 0

/-- The message of a call that has been paid for. -/
def callMessage (kind : CallKind) (machine : Machine) (gas : Nat) : Message :=
  let place := LegacyVM.callMemory kind machine
  let value := if LegacyVM.haveValueArg kind then machine.sp 2 else 0
  { kind := messageKind kind
    isStatic := decide (kind = .staticcall) || ext.staticCall
    gas := if 0 < value then gas + 2300 else gas
    destination := asAddress (machine.sp 1)
    sender := if kind = .delegatecall then ext.caller else ext.myAddress
    input := machine.slice (toUInt64 place.inputOffset)
      (toUInt64 place.inputSize)
    value := if kind = .delegatecall then ext.value else value }

/-- Whether the value can be moved; a call without one is not looked up. -/
def balanceOk (kind : CallKind) (value : U256) : VMProcess Bool := do
  if LegacyVM.haveValueArg kind ∧ 0 < value then
    let balance ← ask (.balance ext.myAddress)
    return decide (value ≤ balance)
  else return true

def caseCallSetup (kind : CallKind) : VMProcess (Message × Bool) := do
  let start ← get
  chargeCall rev kind
  let place := LegacyVM.callMemory kind start
  let inputMemNeed ← memNeed place.inputOffset place.inputSize
  let outputMemNeed ← memNeed place.outputOffset place.outputSize
  updateMem (rules rev) (max inputMemNeed outputMemNeed)
  updateIOGas
  let gas ← toInt63 (callGas rev (← get)).toNat
  setRunGas gas
  updateIOGas
  let msg := callMessage ext kind (← get) gas
  let enough ← balanceOk ext kind (start.sp 2)
  return (msg, enough && decide (ext.depth < 1024))

def caseCall (kind : CallKind) : VMProcess Flow := do
  let place := LegacyVM.callMemory kind (← get)
  modify fun machine => { machine with returnData := [] }
  let (msg, possible) ← caseCallSetup ext rev kind
  if possible then
    let result ← hostCall ext msg
    modify fun machine =>
      { machine.writeMem (toUInt64 place.outputOffset)
          (result.output.take (toUInt64 place.outputSize)) with
        returnData := result.output }
    modify fun machine => machine.addGas result.gasLeft
    next (LegacyVM.callArity kind) [flag (result.status = .success)]
  else
    modify fun machine => machine.addGas msg.gas
    next (LegacyVM.callArity kind) [0]

/-- The checks of the case label, before the call is set up. -/
def checkCall (kind : CallKind) : VMProcess Flow := do
  let machine ← get
  if kind = .delegatecall ∧ !rev.atLeast .homestead then
    throw .badInstruction
  else if kind = .staticcall ∧ !rev.atLeast .byzantium then
    throw .badInstruction
  else if kind = .call ∧ ext.staticCall ∧ machine.sp 2 ≠ 0 then
    throw .disallowedStateChange
  else caseCall ext rev kind

/-- The interpreter in a frame; `CREATE2` is not brought back yet. -/
def variant (optimized : Bool) : Variant where
  rules := rules rev
  ext
  optimized
  sstore := caseSstore ext
  extcodecopy := caseExtcodecopy rev
  blockhash := caseBlockhash ext
  suicide := caseSuicide ext rev
  create := if ext.staticCall then throw .disallowedStateChange
    else caseCreate ext rev
  create2 := throw .badInstruction
  call := checkCall ext rev

end

end VM

/-- The interpreters that are built in, as `VMFactory` names them. -/
inductive VMKind where
  | interpreter
  | legacy
deriving DecidableEq

/-- The interpreter of a kind in a frame; the one behind EVMC is given the
revision of the schedule. -/
def VMKind.variant (kind : VMKind) (ext : ExtVMFace) (optimized : Bool) :
    Variant :=
  match kind with
  | interpreter => VM.variant ext (toRevision ext.evmSchedule) optimized
  | legacy => LegacyVM.variant ext optimized

end Aecmio
