import Aecmio.Rlp.Item

/-!
# The RLP reader

`dev::RLP` is a view of a byte string.  Its methods depend only on the bytes
viewed, so an `RLP` value is modelled by these bytes; the iterator, which
compares pointers, keeps positions in the buffer it walks.  `size_t`
arithmetic is reduced modulo `sizeTRange` where the source adds lengths.
-/

namespace Aecmio

/-- The exceptions of the RLP classes.  `outOfBounds` marks a read outside
the viewed memory and `diverges` a loop that does not end. -/
inductive RLPError where
  | badRLP
  | badCast
  | oversizeRLP
  | undersizeRLP
  | rlpException (comment : String)
  | outOfBounds
  | diverges
deriving DecidableEq, Repr

/-- The conversion flags of `RLP`. -/
structure Strictness where
  allowNonCanon : Bool := false
  throwOnFail : Bool := false
  failIfTooBig : Bool := false
  failIfTooSmall : Bool := false
deriving DecidableEq, Repr

namespace Strictness

def strict : Strictness := { throwOnFail := true, failIfTooBig := true }

def veryStrict : Strictness :=
  { throwOnFail := true, failIfTooBig := true, failIfTooSmall := true }

def laissezFaire : Strictness := { allowNonCanon := true }

/-- `ThrowOnFail | FailIfTooSmall`, used while walking the items of a list. -/
def throwIfTooSmall : Strictness :=
  { throwOnFail := true, failIfTooSmall := true }

end Strictness

/-- `vector_ref<byte const>`: a position in a buffer, `none` for the null
pointer, and a number of bytes. -/
structure VectorRef where
  data : Option Nat
  count : Nat
deriving DecidableEq, Repr

namespace VectorRef

def whole (memory : Bytes) : VectorRef := ⟨some 0, memory.length⟩

def null : VectorRef := ⟨none, 0⟩

def contents (memory : Bytes) (view : VectorRef) : Bytes :=
  match view.data with
  | none => []
  | some start => (memory.drop start).take view.count

def next (view : VectorRef) : VectorRef :=
  match view.data with
  | none => view
  | some start => ⟨some (start + view.count), view.count⟩

def cropped (view : VectorRef) (start count : Nat) : VectorRef :=
  match view.data with
  | none => null
  | some position =>
      if start ≤ view.count ∧ count ≤ view.count ∧
          (start + count) % sizeTRange ≤ view.count then
        ⟨some (position + start),
          if count = sizeTRange - 1 then view.count - start else count⟩
      else null

def croppedFrom (view : VectorRef) (start : Nat) : VectorRef :=
  match view.data with
  | none => null
  | some position =>
      if start ≤ view.count then ⟨some (position + start), view.count - start⟩
      else null

end VectorRef

namespace RLP

/-- `cropped` on the viewed bytes. -/
def cropped (view : Bytes) (start count : Nat) : Bytes :=
  ((VectorRef.whole view).cropped start count).contents view

def croppedFrom (view : Bytes) (start : Nat) : Bytes :=
  ((VectorRef.whole view).croppedFrom start).contents view

def isNull (view : Bytes) : Bool := view.isEmpty

def isEmpty : Bytes → Bool
  | [] => false
  | first :: _ =>
      first.toNat == rlpDataImmLenStart || first.toNat == rlpListStart

def isData : Bytes → Bool
  | [] => false
  | first :: _ => first.toNat < rlpListStart

def isList : Bytes → Bool
  | [] => false
  | first :: _ => rlpListStart ≤ first.toNat

def isSingleByte : Bytes → Bool
  | [] => false
  | first :: _ => first.toNat < rlpDataImmLenStart

/-- Rejects a single byte wrapped in a two-byte encoding. -/
def requireGood : Bytes → Except RLPError Unit
  | [] => .error .badRLP
  | first :: rest =>
      if first.toNat ≠ rlpDataImmLenStart + 1 then .ok ()
      else
        match rest with
        | [] => .error .badRLP
        | second :: _ =>
            if second.toNat < rlpDataImmLenStart then .error .badRLP
            else .ok ()

/-- The two long branches of `length`: read `lengthSize` bytes after the
first one, without a leading zero and not below `minimum`. -/
def longLength (view : Bytes) (lengthSize minimum : Nat) :
    Except RLPError Nat :=
  if view.length ≤ lengthSize then .error .badRLP
  else if (view.drop 1).head? = some 0 then .error .badRLP
  else if rlpMaxLengthBytes < lengthSize then .error .undersizeRLP
  else
    let result := ((view.drop 1).take lengthSize).foldl
      (fun result byte => (result * 256 + byte.toNat) % sizeTRange) 0
    if result < minimum then .error .badRLP
    else if sizeTRange - 1 - 0x100 ≤ result then .error .undersizeRLP
    else .ok result

/-- The payload size as given by the length prefix. -/
def length : Bytes → Except RLPError Nat
  | [] => .ok 0
  | first :: rest => do
      requireGood (first :: rest)
      if first.toNat < rlpDataImmLenStart then .ok 1
      else if first.toNat ≤ rlpDataIndLenZero then
        .ok (first.toNat - rlpDataImmLenStart)
      else if first.toNat < rlpListStart then
        longLength (first :: rest) (first.toNat - rlpDataIndLenZero)
          (rlpListStart - rlpDataImmLenStart - rlpMaxLengthBytes)
      else if first.toNat ≤ rlpListIndLenZero then
        .ok (first.toNat - rlpListStart)
      else
        longLength (first :: rest) (first.toNat - rlpListIndLenZero)
          (0x100 - rlpListStart - rlpMaxLengthBytes)

def lengthSize : Bytes → Nat
  | [] => 0
  | first :: _ =>
      if first.toNat < rlpListStart then first.toNat - rlpDataIndLenZero
      else first.toNat - rlpListIndLenZero

def payloadOffset (view : Bytes) : Nat :=
  if isSingleByte view then 0 else 1 + lengthSize view

/-- The size of the whole item as given by its prefix. -/
def actualSize (view : Bytes) : Except RLPError Nat := do
  if isNull view then return 0
  if isSingleByte view then return 1
  let size ← length view
  return (payloadOffset view + size) % sizeTRange

/-- `size()`: the length of a string, zero for a list. -/
def size (view : Bytes) : Except RLPError Nat :=
  if isData view then length view else .ok 0

/-- The constructor `RLP(_d, _s)`: the bytes viewed afterwards. -/
def construct (view : Bytes) (flags : Strictness) : Except RLPError Bytes := do
  let mut current := view
  if flags.failIfTooBig then
    if (← actualSize current) < view.length then
      if flags.throwOnFail then throw .oversizeRLP
      current := []
  if flags.failIfTooSmall then
    if view.length < (← actualSize current) then
      if flags.throwOnFail then throw .undersizeRLP
      current := []
  return current

def sizeAsEncoded (view : Bytes) : Except RLPError Nat := do
  actualSize (← construct view .throwIfTooSmall)

def payloadRef (view : Bytes) : Except RLPError VectorRef := do
  let size ← length view
  if view.length < size then throw .badRLP
  return (VectorRef.whole view).cropped (payloadOffset view) size

def payload (view : Bytes) : Except RLPError Bytes := do
  return (← payloadRef view).contents view

/-! ## Lists -/

/-- The loop of `items`; every round consumes at least one byte. -/
def itemsLoop : Nat → Bytes → Except RLPError Nat
  | _, [] => .ok 0
  | 0, _ => .error .diverges
  | fuel + 1, view => do
      let size ← sizeAsEncoded view
      return (← itemsLoop fuel (croppedFrom view size)) + 1

def items (view : Bytes) : Except RLPError Nat :=
  if isList view then do
    let content ← payload view
    itemsLoop content.length content
  else .ok 0

def itemCount (view : Bytes) : Except RLPError Nat :=
  if isList view then items view else .ok 0

/-- The list-indexing cache of an `RLP` object. -/
structure IndexCache where
  lastIndex : Nat := sizeTRange - 1
  lastEnd : Nat := 0
  lastItem : Bytes := []

/-- A method of an `RLP` object that may throw and updates the cache. -/
abbrev Indexing := EStateM RLPError IndexCache

def lift {α : Type} (result : Except RLPError α) : Indexing α :=
  match result with
  | .ok value => pure value
  | .error error => throw error

/-- The loop of `operator[]`, which moves the cache `rounds` items on. -/
def advance (view : Bytes) : Nat → Indexing Unit
  | 0 => pure ()
  | rounds + 1 => do
      if (← get).lastItem.isEmpty then return
      let content ← lift (payload view)
      modify fun cache =>
        { cache with lastItem := croppedFrom content cache.lastEnd }
      let size ← lift (sizeAsEncoded (← get).lastItem)
      modify fun cache =>
        { cache with lastItem := cropped cache.lastItem 0 size }
      modify fun cache =>
        { cache with lastEnd := cache.lastEnd + cache.lastItem.length }
      modify fun cache => { cache with lastIndex := cache.lastIndex + 1 }
      advance view rounds

/-- `operator[]`. -/
def index (view : Bytes) (position : Nat) : Indexing Bytes := do
  if position < (← get).lastIndex then
    let content ← lift (payload view)
    let size ← lift (sizeAsEncoded content)
    modify fun cache => { cache with lastEnd := size }
    modify fun cache => { cache with lastItem := cropped content 0 size }
    modify fun cache => { cache with lastIndex := 0 }
  advance view (position - (← get).lastIndex)
  lift (construct (← get).lastItem .throwIfTooSmall)

/-- `operator[]` on an object that has not been indexed before. -/
def at_ (view : Bytes) (position : Nat) : Except RLPError Bytes :=
  match (index view position).run {} with
  | .ok item _ => .ok item
  | .error error _ => .error error

/-- `RLP::iterator` over the object that views the whole of a buffer. -/
structure Iterator where
  remaining : Nat
  currentItem : VectorRef
deriving DecidableEq

def end_ (view : Bytes) : Iterator :=
  ⟨0, (VectorRef.whole view).croppedFrom view.length⟩

def begin_ (view : Bytes) : Except RLPError Iterator :=
  if isList view then do
    let content ← payloadRef view
    let size ← sizeAsEncoded (content.contents view)
    let currentItem := content.cropped 0 size
    return ⟨content.count - currentItem.count, currentItem⟩
  else return end_ view

namespace Iterator

/-- `operator++`. -/
def increment (view : Bytes) (position : Iterator) :
    Except RLPError Iterator := do
  let following := position.currentItem.next.data
  if position.remaining ≠ 0 then
    let rest : VectorRef := ⟨following, position.remaining⟩
    let size ← sizeAsEncoded (rest.contents view)
    let currentItem := rest.cropped 0 size
    return ⟨position.remaining - min position.remaining currentItem.count,
      currentItem⟩
  else return ⟨position.remaining, ⟨following, 0⟩⟩

/-- `operator*`. -/
def dereference (view : Bytes) (position : Iterator) :
    Except RLPError Bytes :=
  construct (position.currentItem.contents view) .veryStrict

end Iterator

/-- The range loop over a list, from `position` to `end()`. -/
def iterateFrom (view : Bytes) : Nat → Iterator →
    Except RLPError (List Bytes)
  | 0, _ => .error .diverges
  | fuel + 1, position =>
      if position.currentItem = (end_ view).currentItem then .ok []
      else do
        let item ← position.dereference view
        let following ← position.increment view
        return item :: (← iterateFrom view fuel following)

/-- The items visited by `for (auto i: rlp)`. -/
def iterate (view : Bytes) : Except RLPError (List Bytes) := do
  iterateFrom view (view.length + 1) (← begin_ view)

/-! ## Conversions -/

def toBytes (view : Bytes) (flags : Strictness := .laissezFaire) :
    Except RLPError Bytes :=
  if isData view then do
    let content ← payload view
    let size ← length view
    -- a payload that does not lie inside the data is a null reference
    if content.length < size then throw .outOfBounds
    return content.take size
  else if flags.throwOnFail then .error .badCast
  else .ok []

def toString (view : Bytes) (flags : Strictness := .laissezFaire) :
    Except RLPError Bytes :=
  if isData view then do
    let content ← payload view
    return cropped content 0 (← length view)
  else if flags.throwOnFail then .error .badCast
  else .ok []

def isInt : Bytes → Except RLPError Bool
  | [] => .ok false
  | first :: rest => do
      requireGood (first :: rest)
      if first.toNat < rlpDataImmLenStart then return first != 0
      else if first.toNat = rlpDataImmLenStart then return true
      else if first.toNat ≤ rlpDataIndLenZero then
        match rest with
        | [] => throw .badRLP
        | second :: _ => return second != 0
      else if first.toNat < rlpListStart then
        let skipped := first.toNat - rlpDataIndLenZero
        if rest.length + 1 ≤ 1 + skipped then throw .badRLP
        return rest.getD skipped 0 != 0
      else return false

/-- The unsigned types that `toInt` is instantiated with. -/
inductive IntType where
  | uint8
  | uint16
  | uint32
  | uint64
  | u160
  | u256
  | bigint
deriving DecidableEq, Repr

namespace IntType

/-- `intTraits<_T>::maxSize`. -/
def maxSize : IntType → Nat
  | .uint8 => 1
  | .uint16 => 2
  | .uint32 => 4
  | .uint64 => 8
  | .u160 => 20
  | .u256 => 32
  | .bigint => 2 ^ 32 - 1

/-- Conversion to the type; only `bigint` has no modulus. -/
def reduce (type : IntType) (value : Nat) : Nat :=
  match type with
  | .bigint => value
  | type => value % 256 ^ type.maxSize

end IntType

/-- `fromBigEndian<_T>`, which converts after every byte. -/
def fromBigEndianAs (type : IntType) (content : Bytes) : Nat :=
  content.foldl
    (fun result byte => type.reduce (result * 256 + byte.toNat)) 0

def toInt (type : IntType) (view : Bytes) (flags : Strictness := .strict) :
    Except RLPError Nat := do
  requireGood view
  let accepted ← if flags.allowNonCanon then pure true else isInt view
  if !accepted || isList view || isNull view then
    if flags.throwOnFail then throw .badCast
    return 0
  let content ← payload view
  if type.maxSize < content.length && flags.failIfTooBig then
    if flags.throwOnFail then throw .badCast
    return 0
  return fromBigEndianAs type content

/-- `toHash<FixedHash<size>>`: right-aligned, padded with zeros. -/
def toHash (size : Nat) (view : Bytes) (flags : Strictness := .strict) :
    Except RLPError (FixedHash size) := do
  requireGood view
  let content ← payload view
  if !isData view || (decide (size < content.length) && flags.failIfTooBig) ||
      (decide (content.length < size) && flags.failIfTooSmall) then
    if flags.throwOnFail then throw .badCast
    return ⟨List.replicate size 0, length_zeroes size⟩
  let copied := content.take size
  return ⟨List.replicate (size - copied.length) 0 ++ copied, by
    have bound : copied.length ≤ size := by simp [copied]
    simp [copied] at bound ⊢⟩

/-! ## Reading a whole item -/

/-- Construct the RLP of `view`, iterate every list recursively and read
every string.  The null view of no bytes has no item in it. -/
def readItem : Nat → Bytes → Except RLPError (Option Item)
  | 0, _ => .error .diverges
  | fuel + 1, bytes => do
      let view ← construct bytes .veryStrict
      if isList view then
        let parts ← iterate view
        let items ← parts.mapM (readItem fuel)
        return some (.list (items.filterMap id))
      else if isData view then return some (.data (← toBytes view))
      else return none

/-- The complete walk of a byte string; nesting is below its length. -/
def read (bytes : Bytes) : Except RLPError (Option Item) :=
  readItem (bytes.length + 1) bytes

end RLP

end Aecmio
