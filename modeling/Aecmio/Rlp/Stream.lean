import Aecmio.Rlp.Reader

/-!
# The RLP writer

`RLPStream` appends encoded items to a byte string.  A list announced by
`appendList(count)` stays open on the list stack; `noteAppended` closes it,
and with it possibly the lists around it, by moving its bytes and inserting
the length prefix in front of them.
-/

namespace Aecmio

/-- The output and the stack of open lists, innermost first: how many items
are still missing and where the list starts in the output. -/
structure RLPStream where
  out : Bytes := []
  listStack : List (Nat × Nat) := []
deriving DecidableEq

namespace RLPStream

/-- The prefix written in front of a list that `noteAppended` closes. -/
def closingPrefix (size : Nat) : Except RLPError Bytes :=
  if size < rlpListImmLenCount then .ok [UInt8.ofNat (rlpListStart + size)]
  else if rlpListIndLenZero + bytesRequired size ≤ 0xff then
    .ok (UInt8.ofNat (rlpListIndLenZero + bytesRequired size) ::
      toBigEndian size (bytesRequired size))
  else .error (.rlpException "itemCount too large for RLP")

/-- The loop of `noteAppended` over the list stack. -/
def noteAppendedLoop (out : Bytes) : List (Nat × Nat) → Nat →
    Except RLPError (Bytes × List (Nat × Nat))
  | [], _ => .ok (out, [])
  | (missing, start) :: stack, itemCount =>
      if missing < itemCount then
        .error (.rlpException "itemCount too large")
      else if missing - itemCount ≠ 0 then
        .ok (out, (missing - itemCount, start) :: stack)
      else do
        let header ← closingPrefix (out.length - start)
        noteAppendedLoop (out.take start ++ header ++ out.drop start) stack 1

def noteAppended (itemCount : Nat) (stream : RLPStream) :
    Except RLPError RLPStream :=
  if itemCount = 0 then .ok stream
  else do
    let (out, listStack) ←
      noteAppendedLoop stream.out stream.listStack itemCount
    return { out, listStack }

/-- Appends raw bytes that hold `itemCount` items. -/
def appendRaw (content : Bytes) (itemCount : Nat) (stream : RLPStream) :
    Except RLPError RLPStream :=
  noteAppended itemCount { stream with out := stream.out ++ content }

/-- The node-type byte along with a count that does not fit into it. -/
def pushCount (count base : Nat) (stream : RLPStream) :
    Except RLPError RLPStream :=
  let digits := bytesRequired count
  if 0xff < digits + base then
    .error (.rlpException "Count too large for RLP")
  else
    .ok { stream with out :=
      stream.out ++ [UInt8.ofNat (digits + base)] ++ toBigEndian count digits }

/-- `appendList(bytesConstRef)`: a list given by its encoded payload. -/
def appendListPayload (content : Bytes) (stream : RLPStream) :
    Except RLPError RLPStream := do
  let headed ←
    if content.length < rlpListImmLenCount then
      pure { stream with out :=
        stream.out ++ [UInt8.ofNat (content.length + rlpListStart)] }
    else pushCount content.length rlpListIndLenZero stream
  appendRaw content 1 headed

/-- `appendList(size_t)`: announces a list of `itemCount` items. -/
def appendList (itemCount : Nat) (stream : RLPStream) :
    Except RLPError RLPStream :=
  if itemCount ≠ 0 then
    .ok { stream with listStack :=
      (itemCount, stream.out.length) :: stream.listStack }
  else appendListPayload [] stream

/-- `append(bytesConstRef, bool)`. -/
def append (content : Bytes) (stream : RLPStream) (compact : Bool := false) :
    Except RLPError RLPStream := do
  let content := if compact then content.dropWhile (· == 0) else content
  let written ←
    if Item.standsForItself content then
      pure { stream with out := stream.out ++ content }
    else do
      let headed ←
        if content.length < rlpDataImmLenCount then
          pure { stream with out :=
            stream.out ++ [UInt8.ofNat (content.length + rlpDataImmLenStart)] }
        else pushCount content.length rlpDataIndLenZero stream
      appendRaw content 0 headed
  noteAppended 1 written

/-- `append(bigint)`.  A value below `0x80`, negative ones included, is
converted to a single byte. -/
def appendInt (value : Int) (stream : RLPStream) :
    Except RLPError RLPStream := do
  let written ←
    if value = 0 then
      pure { stream with out := stream.out ++ [UInt8.ofNat rlpDataImmLenStart] }
    else if value < rlpDataImmLenStart then
      pure { stream with out :=
        stream.out ++ [UInt8.ofNat (value % 256).toNat] }
    else do
      let digits := bytesRequired value.toNat % 2 ^ 32
      let headed ←
        if digits < rlpDataImmLenCount then
          pure { stream with out :=
            stream.out ++ [UInt8.ofNat (digits + rlpDataImmLenStart)] }
        else if 0xff < rlpDataIndLenZero + bytesRequired digits then
          throw (.rlpException "Number too large for RLP")
        else
          let header :=
            UInt8.ofNat (rlpDataIndLenZero + bytesRequired digits) ::
              toBigEndian digits (bytesRequired digits)
          pure { stream with out := stream.out ++ header }
      let output := headed.out ++ toBigEndian value.toNat digits
      pure { headed with out := output }
  noteAppended 1 written

/-- `out()`. -/
def result (stream : RLPStream) : Except RLPError Bytes :=
  if stream.listStack.isEmpty then .ok stream.out
  else .error (.rlpException "listStack is not empty")

/-- `RLPStream(size_t)`. -/
def ofCount (itemCount : Nat) : Except RLPError RLPStream :=
  appendList itemCount {}

end RLPStream

end Aecmio
