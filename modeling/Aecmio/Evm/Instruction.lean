import Aecmio.State.Database

/-!
# Instructions and their metrics

The instruction set of `Instruction.h` with the table of stack arguments,
results and price tiers of `Instruction.cpp`.  Instructions that only compute
one word are grouped as operations.
-/

namespace Aecmio

/-- Price tiers, as in `c_instructionInfo`. -/
inductive Tier where
  | zero
  | base
  | veryLow
  | low
  | mid
  | high
  | ext
  | special
  | invalid
deriving DecidableEq

structure InstructionMetric where
  args : Nat
  ret : Nat
  gasPriceTier : Tier
deriving DecidableEq

/-- Instructions that push one word computed from their arguments, the call
data and the machine. -/
inductive WordOperation where
  | add | mul | sub | div | sdiv | mod | smod | addmod | mulmod | signextend
  | lt | gt | slt | sgt | eq | iszero | and | or | xor | not | byte | shl
  | shr | sar | address | origin | caller | callvalue | calldataload
  | calldatasize | codesize | gasprice | returndatasize | coinbase
  | timestamp | number | difficulty | gaslimit | pc | msize | gas
deriving DecidableEq

inductive CallKind where
  | call
  | callcode
  | delegatecall
  | staticcall
deriving DecidableEq

inductive Instruction where
  | stop
  | operation (op : WordOperation)
  | exp
  | sha3
  | balance
  | extcodesize
  | extcodecopy
  | calldatacopy
  | codecopy
  | returndatacopy
  | blockhash
  | pop
  | mload
  | mstore
  | mstore8
  | sload
  | sstore
  | jump
  | jumpi
  | jumpdest
  /-- `PUSH1` to `PUSH32`, by the number of bytes less one. -/
  | push (size : Fin 32)
  /-- `DUP1` to `DUP16`. -/
  | dup (depth : Fin 16)
  /-- `SWAP1` to `SWAP16`. -/
  | swap (depth : Fin 16)
  /-- `LOG0` to `LOG4`. -/
  | log (topics : Fin 5)
  | pushc
  | jumpc
  | jumpci
  | create
  | create2
  | call (kind : CallKind)
  | return_
  | revert
  | suicide
  /-- A byte whose case throws: `INVALID`, undefined, or of an extension that
  is switched off. -/
  | unsupported (byte : UInt8)
deriving DecidableEq

namespace Instruction

/-- The instructions that are not in one of the four numbered families. -/
def table : List (Nat × Instruction) :=
  [(0x00, .stop), (0x01, .operation .add), (0x02, .operation .mul),
    (0x03, .operation .sub), (0x04, .operation .div),
    (0x05, .operation .sdiv), (0x06, .operation .mod),
    (0x07, .operation .smod), (0x08, .operation .addmod),
    (0x09, .operation .mulmod), (0x0a, .exp), (0x0b, .operation .signextend),
    (0x10, .operation .lt), (0x11, .operation .gt), (0x12, .operation .slt),
    (0x13, .operation .sgt), (0x14, .operation .eq),
    (0x15, .operation .iszero), (0x16, .operation .and),
    (0x17, .operation .or), (0x18, .operation .xor), (0x19, .operation .not),
    (0x1a, .operation .byte), (0x1b, .operation .shl),
    (0x1c, .operation .shr), (0x1d, .operation .sar), (0x20, .sha3),
    (0x30, .operation .address), (0x31, .balance),
    (0x32, .operation .origin), (0x33, .operation .caller),
    (0x34, .operation .callvalue), (0x35, .operation .calldataload),
    (0x36, .operation .calldatasize), (0x37, .calldatacopy),
    (0x38, .operation .codesize), (0x39, .codecopy),
    (0x3a, .operation .gasprice), (0x3b, .extcodesize), (0x3c, .extcodecopy),
    (0x3d, .operation .returndatasize), (0x3e, .returndatacopy),
    (0x40, .blockhash), (0x41, .operation .coinbase),
    (0x42, .operation .timestamp), (0x43, .operation .number),
    (0x44, .operation .difficulty), (0x45, .operation .gaslimit),
    (0x50, .pop), (0x51, .mload), (0x52, .mstore), (0x53, .mstore8),
    (0x54, .sload), (0x55, .sstore), (0x56, .jump), (0x57, .jumpi),
    (0x58, .operation .pc), (0x59, .operation .msize),
    (0x5a, .operation .gas), (0x5b, .jumpdest), (0xac, .pushc),
    (0xad, .jumpc), (0xae, .jumpci), (0xf0, .create), (0xf1, .call .call),
    (0xf2, .call .callcode), (0xf3, .return_), (0xf4, .call .delegatecall),
    (0xfa, .call .staticcall), (0xfb, .create2), (0xfd, .revert),
    (0xff, .suicide)]

/-- `Instruction(byte)`. -/
def ofByte (byte : UInt8) : Instruction :=
  let code := byte.toNat
  if push : 0x60 ≤ code ∧ code < 0x80 then .push ⟨code - 0x60, by omega⟩
  else if dup : 0x80 ≤ code ∧ code < 0x90 then .dup ⟨code - 0x80, by omega⟩
  else if swap : 0x90 ≤ code ∧ code < 0xa0 then .swap ⟨code - 0x90, by omega⟩
  else if log : 0xa0 ≤ code ∧ code < 0xa5 then .log ⟨code - 0xa0, by omega⟩
  else (table.lookup code).getD (.unsupported byte)

end Instruction

/-- The bytes without a case of their own that have an entry in the table.
The entry of `XOOR` is filed under `XOR` and lost. -/
def unsupportedMetrics : List (Nat × InstructionMetric) :=
  [(0xb0, ⟨1, 0, .veryLow⟩), (0xb1, ⟨2, 0, .low⟩), (0xb2, ⟨1, 0, .low⟩),
    (0xb3, ⟨1, 0, .mid⟩), (0xb4, ⟨1, 0, .mid⟩), (0xb5, ⟨0, 0, .special⟩),
    (0xb6, ⟨0, 0, .special⟩), (0xb7, ⟨1, 0, .mid⟩), (0xb8, ⟨1, 0, .veryLow⟩),
    (0xb9, ⟨0, 1, .veryLow⟩), (0xc1, ⟨0, 0, .special⟩),
    (0xc2, ⟨2, 1, .special⟩), (0xc3, ⟨2, 1, .special⟩),
    (0xc4, ⟨2, 1, .special⟩), (0xc5, ⟨2, 1, .special⟩),
    (0xc6, ⟨2, 1, .special⟩), (0xc7, ⟨2, 1, .special⟩),
    (0xd0, ⟨2, 1, .special⟩), (0xd1, ⟨2, 1, .special⟩),
    (0xd2, ⟨2, 1, .special⟩), (0xd3, ⟨2, 1, .special⟩),
    (0xd4, ⟨2, 1, .special⟩), (0xd5, ⟨2, 1, .special⟩),
    (0xd6, ⟨1, 1, .special⟩), (0xd8, ⟨2, 1, .special⟩),
    (0xd9, ⟨2, 1, .special⟩), (0xdb, ⟨2, 1, .special⟩),
    (0xdc, ⟨2, 1, .special⟩), (0xdd, ⟨2, 1, .special⟩),
    (0xde, ⟨2, 1, .special⟩), (0xdf, ⟨2, 1, .special⟩),
    (0xe0, ⟨1, 1, .veryLow⟩), (0xe1, ⟨1, 1, .veryLow⟩),
    (0xe2, ⟨2, 0, .veryLow⟩), (0xe4, ⟨1, 1, .special⟩),
    (0xe5, ⟨2, 0, .special⟩), (0xe6, ⟨1, 1, .veryLow⟩),
    (0xe7, ⟨1, 1, .veryLow⟩), (0xe8, ⟨2, 1, .special⟩),
    (0xe9, ⟨3, 1, .special⟩), (0xea, ⟨2, 1, .special⟩),
    (0xeb, ⟨3, 1, .special⟩), (0xfe, ⟨0, 0, .zero⟩)]

/-- The entry of an operation in `c_instructionInfo`. -/
def WordOperation.metric : WordOperation → InstructionMetric
  | .add | .sub | .lt | .gt | .slt | .sgt | .eq | .and | .or | .xor
  | .byte | .shl | .shr | .sar => ⟨2, 1, .veryLow⟩
  | .mul | .div | .sdiv | .mod | .smod | .signextend => ⟨2, 1, .low⟩
  | .addmod | .mulmod => ⟨3, 1, .mid⟩
  | .iszero | .not | .calldataload => ⟨1, 1, .veryLow⟩
  | .address | .origin | .caller | .callvalue | .calldatasize | .codesize
  | .gasprice | .returndatasize | .coinbase | .timestamp | .number
  | .difficulty | .gaslimit | .pc | .msize | .gas => ⟨0, 1, .base⟩

/-- `instructionInfo`, without the name. -/
def Instruction.metric : Instruction → InstructionMetric
  | .operation op => op.metric
  | .stop => ⟨0, 0, .zero⟩
  | .exp => ⟨2, 1, .special⟩
  | .sha3 => ⟨2, 1, .special⟩
  | .balance => ⟨1, 1, .special⟩
  | .extcodesize => ⟨1, 1, .special⟩
  | .extcodecopy => ⟨4, 0, .special⟩
  | .calldatacopy => ⟨3, 0, .veryLow⟩
  | .codecopy => ⟨3, 0, .veryLow⟩
  | .returndatacopy => ⟨3, 0, .veryLow⟩
  | .blockhash => ⟨1, 1, .special⟩
  | .pop => ⟨1, 0, .base⟩
  | .mload => ⟨1, 1, .veryLow⟩
  | .mstore => ⟨2, 0, .veryLow⟩
  | .mstore8 => ⟨2, 0, .veryLow⟩
  | .sload => ⟨1, 1, .special⟩
  | .sstore => ⟨2, 0, .special⟩
  | .jump => ⟨1, 0, .mid⟩
  | .jumpi => ⟨2, 0, .high⟩
  | .jumpdest => ⟨0, 0, .special⟩
  | .pushc => ⟨0, 1, .veryLow⟩
  | .jumpc => ⟨1, 0, .mid⟩
  | .jumpci => ⟨2, 0, .high⟩
  | .create => ⟨3, 1, .special⟩
  | .create2 => ⟨4, 1, .special⟩
  | .return_ => ⟨2, 0, .zero⟩
  | .revert => ⟨2, 0, .special⟩
  | .suicide => ⟨1, 0, .special⟩
  | .push _ => ⟨0, 1, .veryLow⟩
  | .dup depth => ⟨depth + 1, depth + 2, .veryLow⟩
  | .swap depth => ⟨depth + 2, depth + 2, .veryLow⟩
  | .log topics => ⟨topics + 2, 0, .special⟩
  | .call .call | .call .callcode => ⟨7, 1, .special⟩
  | .call .delegatecall | .call .staticcall => ⟨6, 1, .special⟩
  | .unsupported byte =>
      (unsupportedMetrics.lookup byte.toNat).getD ⟨0, 0, .invalid⟩

end Aecmio
