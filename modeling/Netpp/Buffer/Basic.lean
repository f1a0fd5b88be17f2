import Netpp.Lib.Endian
import Netpp.Piece.Pool

/-! # `Buffer`

The operations of `buffer.h` and `buffer.cpp` on a chain of pieces.  A `Buffer`
is a queue of pieces with a byte count; the pieces themselves are in memory, so
every operation runs in `Exec` and returns the new `Buffer`.

Overloads of the source get their own names: `read` fills a `char*`,
`readString` a `std::string`, `readBuffer` moves bytes to another `Buffer`.
A loop along a chain is given as many rounds as there are cells: a chain that
ends never needs more.
-/

namespace Netpp

structure Buffer extends Queue where
  length : Nat := 0
  deriving DecidableEq

/-- The rounds a loop along a chain is given. -/
def chainBound : Exec Nat := fun _ m => .ok (m.brk + 1, m)

/-- The bytes `htonl` and `memcpy` make of an `int32_t`, `int16_t` or `int8_t`. -/
def intBytes (width : Nat) (x : Int) : Bytes := bigEndian width (unsignedWord (8 * width) x)

/-- The integer `memcpy` and `ntohl` make of its bytes. -/
def bytesInt (d : Bytes) : Int := signedWord (8 * d.length) (ofBigEndian d)

/-- `off += n; len -= n` -/
def Piece.dropFront (c : Piece) (n : Nat) : Piece :=
  { c with off := u16 (c.off + n), len := u16Sub c.len n }

namespace Buffer

/-! ## The protected interface inherited from `Queue` -/

def push (b : Buffer) (item : PiecePtr) : Exec Buffer := do
  let q ← b.toQueue.push item
  pure { b with toQueue := q }

def pop (b : Buffer) : Exec (PiecePtr × Buffer) := do
  let r ← b.toQueue.pop
  pure (r.1, { b with toQueue := r.2 })

/-! ## Prepending -/

def reservedPrepend (b : Buffer) (len : Nat) : Exec Buffer := do
  assert (b.length == 0)
  assert b.head.isNone
  let item ← newPiece
  assert (len < kPieceCapacity)
  let c ← load (some item)
  store (some item) { c with off := u16 len, len := 0 }
  b.push (some item)

def prepend (b : Buffer) (d : Bytes) : Exec Buffer := do
  assert b.head.isSome
  let first ← load b.head
  assert (d.length ≤ first.off)
  let off := u16Sub first.off d.length
  let c ← first.copyIn off d
  store b.head { c with off := off, len := u16 (first.len + d.length) }
  pure { b with length := b.length + d.length }

def prependInt32 (b : Buffer) (x : Int) : Exec Buffer := b.prepend (intBytes 4 x)
def prependInt16 (b : Buffer) (x : Int) : Exec Buffer := b.prepend (intBytes 2 x)
def prependInt8 (b : Buffer) (x : Int) : Exec Buffer := b.prepend (intBytes 1 x)

/-! ## Peeking -/

/-- `memcpy(&t + sizeof(T) - left, src, n)` in `Buffer::peek<T>`: the offset
    is added to a `T*`, so it counts elements of `width` bytes. -/
def peekCopy (width : Nat) (t : Bytes) (left : Nat) (src : Bytes) : Exec Bytes :=
  let pos := (width - left) * width
  if src.length = 0 then pure t
  else if pos + src.length ≤ width then pure (t.take pos ++ src ++ t.drop (pos + src.length))
  else throw .overrun

def peekLoop (width : Nat) : Nat → PiecePtr → Nat → Bytes → Exec Bytes
  | 0, _, _, _ => throw .outOfFuel
  | fuel + 1, cur, left, t => do
    let c ← load cur
    if left ≤ c.len then
      let d ← c.copyOut c.off left
      peekCopy width t left d
    else
      let d ← c.copyOut c.off c.len
      let t ← peekCopy width t left d
      peekLoop width fuel c.next (left - c.len) t

/-- `Buffer::peek<T>` for a `T` of `width` bytes.  `t` is the uninitialised
    result variable. -/
def peek (b : Buffer) (width : Nat) (t : Bytes) : Exec Bytes := do
  assert (width ≤ b.length)
  let cur ← load b.head
  if width ≤ cur.len then
    cur.copyOut cur.off width
  else
    let d ← cur.copyOut cur.off cur.len
    let n ← chainBound
    peekLoop width n cur.next (width - cur.len) (d ++ t.drop d.length)

/-- `peekInt32`, `peekInt16` and `peekInt8` differ in the width only. -/
def peekInt (width : Nat) (b : Buffer) : Exec Int := do
  assert (width ≤ b.length)
  let v ← b.peek width (List.replicate width 0)
  pure (bytesInt v)

def peekInt32 (b : Buffer) : Exec Int := peekInt 4 b
def peekInt16 (b : Buffer) : Exec Int := peekInt 2 b
def peekInt8 (b : Buffer) : Exec Int := peekInt 1 b

/-! ## Reading -/

def readLoop : Nat → Buffer → Nat → Bytes → Exec (Bytes × Buffer)
  | 0, _, _, _ => throw .outOfFuel
  | fuel + 1, b, left, d => do
    let first ← load b.head
    if left ≤ first.len then
      let copied ← first.copyOut first.off left
      if left < first.len then
        store b.head (first.dropFront left)
        pure (d ++ copied, b)
      else
        let r ← b.pop
        deletePiece r.1
        pure (d ++ copied, r.2)
    else
      let copied ← first.copyOut first.off first.len
      let r ← b.pop
      deletePiece r.1
      readLoop fuel r.2 (left - first.len) (d ++ copied)

def read (b : Buffer) (len : Nat) : Exec (Bytes × Buffer) := do
  assert (0 < len)
  assert (len ≤ b.length)
  let n ← chainBound
  let r ← readLoop n b len []
  pure (r.1, { r.2 with length := sizeSub r.2.length len })

def readString (b : Buffer) (len : Nat) : Exec (Bytes × Buffer) := do
  assert (len ≤ b.length)
  b.read len

def readAll (b : Buffer) : Exec (Bytes × Buffer) := b.readString b.length

def readInt (width : Nat) (b : Buffer) : Exec (Int × Buffer) := do
  let r ← b.read width
  pure (bytesInt r.1, r.2)

def readInt32 (b : Buffer) : Exec (Int × Buffer) := readInt 4 b
def readInt16 (b : Buffer) : Exec (Int × Buffer) := readInt 2 b
def readInt8 (b : Buffer) : Exec (Int × Buffer) := readInt 1 b

def readBufferLoop : Nat → Buffer → Buffer → Nat → Exec (Buffer × Buffer)
  | 0, _, _, _ => throw .outOfFuel
  | fuel + 1, b, buf, left => do
    let first ← load b.head
    if left ≤ first.len then
      if left < first.len then
        let item ← newPiece
        let copied ← first.copyOut first.off left
        let bufLast ← load (some item)
        let filled ← bufLast.copyIn 0 copied
        store (some item) { filled with len := u16 left }
        let buf ← buf.push (some item)
        let first ← load b.head
        store b.head (first.dropFront left)
        pure (b, buf)
      else
        let r ← b.pop
        let buf ← buf.push r.1
        pure (r.2, buf)
    else
      let r ← b.pop
      let buf ← buf.push r.1
      -- `left` stays as it is
      readBufferLoop fuel r.2 buf left

/-- `read(size_t, Buffer*)`; the two buffers are different objects. -/
def readBuffer (b : Buffer) (len : Nat) (buf : Buffer) : Exec (Buffer × Buffer) := do
  assert (0 < len)
  assert (len ≤ b.length)
  let n ← chainBound
  let r ← readBufferLoop n b buf len
  pure ({ r.1 with length := sizeSub r.1.length len }, { r.2 with length := r.2.length + len })

/-! ## Writing -/

def writeLoop : Nat → Buffer → Bytes → Exec Buffer
  | 0, _, _ => throw .outOfFuel
  | fuel + 1, b, d => do
    let last ← load b.tail
    let unwrite := sizeSub (sizeSub kPieceCapacity last.off) last.len
    if d.length ≤ unwrite then
      let c ← last.copyIn (last.off + last.len) d
      store b.tail { c with len := u16 (last.len + d.length) }
      pure b
    else
      let c ← last.copyIn (last.off + last.len) (d.take unwrite)
      store b.tail { c with len := u16 (last.len + unwrite) }
      let item ← newPiece
      let b ← b.push (some item)
      writeLoop fuel b (d.drop unwrite)

/-- `!last || last->off + last->len == sizeof(last->data)` -/
def lastFull (b : Buffer) : Exec Bool :=
  match b.tail with
  | none => pure true
  | some t => do
    let last ← load (some t)
    pure (last.off + last.len == kPieceCapacity)

/-- `if (!last || full) push(newPiece());` -/
def ensureRoom (b : Buffer) : Exec Buffer := do
  let full ← b.lastFull
  if full then
    let item ← newPiece
    b.push (some item)
  else pure b

def write (b : Buffer) (d : Bytes) : Exec Buffer := do
  let b ← b.ensureRoom
  let b ← writeLoop (d.length + 1) b d
  pure { b with length := b.length + d.length }

def writeInt32 (b : Buffer) (x : Int) : Exec Buffer := b.write (intBytes 4 x)
def writeInt16 (b : Buffer) (x : Int) : Exec Buffer := b.write (intBytes 2 x)
def writeInt8 (b : Buffer) (x : Int) : Exec Buffer := b.write (intBytes 1 x)

/-! ## Skipping, detaching and clearing -/

def skipLoop : Nat → Buffer → Nat → Exec Buffer
  | 0, _, _ => throw .outOfFuel
  | fuel + 1, b, left => do
    let first ← load b.head
    if left ≤ first.len then
      if left < first.len then
        store b.head (first.dropFront left)
        pure b
      else
        let r ← b.pop
        deletePiece r.1
        pure r.2
    else
      let r ← b.pop
      deletePiece r.1
      skipLoop fuel r.2 (left - first.len)

def skip (b : Buffer) (len : Nat) : Exec Buffer := do
  assert (len ≤ b.length)
  let n ← chainBound
  let b ← skipLoop n b len
  pure { b with length := sizeSub b.length len }

/-- The head of the chain, and the emptied `Buffer`. -/
def moveToQueueHead (b : Buffer) : PiecePtr × Buffer := (b.head, {})

def clearLoop : Nat → Buffer → Exec Buffer
  | 0, _ => throw .outOfFuel
  | fuel + 1, b =>
    if b.isEmpty then pure b
    else do
      let r ← b.pop
      -- a bare `delete`: the pool is not told
      deleteCell r.1
      clearLoop fuel r.2

def clear (b : Buffer) : Exec Buffer := do
  let n ← chainBound
  let b ← clearLoop n b
  pure { b with length := 0 }

end Buffer

end Netpp
