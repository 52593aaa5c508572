import ConfidentialTx.Bytes

namespace ConfidentialTx.Blake2b

abbrev Chain := Vector UInt64 8

abbrev Work := Vector UInt64 16

def initialVector : Chain :=
  #v[0x6a09e667f3bcc908, 0xbb67ae8584caa73b, 0x3c6ef372fe94f82b, 0xa54ff53a5f1d36f1,
    0x510e527fade682d1, 0x9b05688c2b3e6c1f, 0x1f83d9abfb41bd6b, 0x5be0cd19137e2179]

def blockSize : Nat := 128

/-- The order in which each round takes the words of the block. -/
def permutations : List (Vector (Fin 16) 16) :=
  [#v[0, 1, 2, 3, 4, 5, 6, 7, 8, 9, 10, 11, 12, 13, 14, 15],
    #v[14, 10, 4, 8, 9, 15, 13, 6, 1, 12, 0, 2, 11, 7, 5, 3],
    #v[11, 8, 12, 0, 5, 2, 15, 13, 10, 14, 3, 6, 7, 1, 9, 4],
    #v[7, 9, 3, 1, 13, 12, 11, 14, 2, 6, 5, 10, 4, 0, 15, 8],
    #v[9, 0, 5, 7, 2, 4, 10, 15, 14, 1, 11, 12, 6, 8, 3, 13],
    #v[2, 12, 6, 10, 0, 11, 8, 3, 4, 13, 7, 5, 15, 14, 1, 9],
    #v[12, 5, 1, 15, 14, 13, 4, 10, 0, 7, 6, 3, 9, 2, 8, 11],
    #v[13, 11, 7, 14, 12, 1, 3, 9, 5, 0, 15, 4, 8, 6, 2, 10],
    #v[6, 15, 14, 9, 11, 3, 0, 8, 12, 2, 13, 7, 1, 4, 10, 5],
    #v[10, 2, 8, 4, 7, 6, 1, 5, 15, 11, 9, 14, 3, 12, 13, 0],
    #v[0, 1, 2, 3, 4, 5, 6, 7, 8, 9, 10, 11, 12, 13, 14, 15],
    #v[14, 10, 4, 8, 9, 15, 13, 6, 1, 12, 0, 2, 11, 7, 5, 3]]

/-- The places of the working vector that the eight mixings of a round touch: the columns, then
the diagonals. -/
def lanes : Vector (Fin 16 × Fin 16 × Fin 16 × Fin 16) 8 :=
  #v[(0, 4, 8, 12), (1, 5, 9, 13), (2, 6, 10, 14), (3, 7, 11, 15),
    (0, 5, 10, 15), (1, 6, 11, 12), (2, 7, 8, 13), (3, 4, 9, 14)]

def rotateRight (x : UInt64) (n : UInt64) : UInt64 :=
  (x >>> n) ||| (x <<< (64 - n))

def mix (v : Work) (lane : Fin 16 × Fin 16 × Fin 16 × Fin 16) (x y : UInt64) : Work :=
  let (ia, ib, ic, id) := lane
  let a := v[ia] + v[ib] + x
  let d := rotateRight (v[id] ^^^ a) 32
  let c := v[ic] + d
  let b := rotateRight (v[ib] ^^^ c) 24
  let a := a + b + y
  let d := rotateRight (d ^^^ a) 16
  let c := c + d
  let b := rotateRight (b ^^^ c) 63
  v |>.set ia.val a ia.isLt |>.set ib.val b ib.isLt |>.set ic.val c ic.isLt |>.set id.val d id.isLt

def round (words : Work) (v : Work) (order : Vector (Fin 16) 16) : Work :=
  (List.finRange 8).foldl
    (fun v i ↦ mix v lanes[i] words[order[2 * i.val]] words[order[2 * i.val + 1]]) v

def littleEndian (bs : Bytes) : UInt64 :=
  bs.foldr (fun b w ↦ (w <<< 8) ||| b.toUInt64) 0

def wordBytes (w : UInt64) : Bytes :=
  [w.toUInt8, (w >>> 8).toUInt8, (w >>> 16).toUInt8, (w >>> 24).toUInt8,
    (w >>> 32).toUInt8, (w >>> 40).toUInt8, (w >>> 48).toUInt8, (w >>> 56).toUInt8]

def blockWords (block : Array UInt8) : Work :=
  Vector.ofFn fun i ↦ littleEndian (block.extract (8 * i.val) (8 * i.val + 8)).toList

/-- Folds one block of 128 bytes into the chain; `count` is the number of message bytes up to its
end. -/
def compress (chain : Chain) (count : Nat) (last : Bool) (block : Array UInt8) : Chain :=
  let start : Work := (chain ++ initialVector).cast rfl
  let start := start.set 12 (start[12] ^^^ UInt64.ofNat count)
  let start := start.set 13 (start[13] ^^^ UInt64.ofNat (count / UInt64.size))
  let start := if last then start.set 14 (~~~start[14]) else start
  let v := permutations.foldl (round (blockWords block)) start
  Vector.ofFn fun i ↦ chain[i] ^^^ v[i.val] ^^^ v[i.val + 8]

/-- The bytes pushed so far: `counted` of them are in the chain, the others, at most a block, are
`pending`. -/
structure Hasher where
  chain : Chain
  counted : Nat
  pending : Array UInt8

namespace Hasher

def init (size keySize : Nat) : Hasher where
  chain := initialVector.set 0
    (initialVector[0] ^^^ 0x01010000 ^^^ UInt64.ofNat (256 * keySize) ^^^ UInt64.ofNat size)
  counted := 0
  pending := #[]

def push (h : Hasher) (b : UInt8) : Hasher :=
  if h.pending.size = blockSize then
    { chain := compress h.chain (h.counted + blockSize) false h.pending
      counted := h.counted + blockSize
      pending := #[b] }
  else { h with pending := h.pending.push b }

def update (h : Hasher) (bs : Bytes) : Hasher :=
  bs.foldl push h

/-- The first `size` bytes of the chain after the last block, which zeros fill up. -/
def finish (size : Nat) (h : Hasher) : FixedBytes size :=
  let block := h.pending ++ Array.replicate (blockSize - h.pending.size) 0
  let chain := compress h.chain (h.counted + h.pending.size) true block
  FixedBytes.fit (chain.toList.flatMap wordBytes)

@[simp] theorem update_nil (h : Hasher) : h.update [] = h := rfl

theorem update_append (h : Hasher) (a b : Bytes) : h.update (a ++ b) = (h.update a).update b := by
  simp [update]

theorem foldl_update (h : Hasher) (parts : List Bytes) :
    parts.foldl update h = h.update parts.flatten := by
  induction parts generalizing h with
  | nil => rfl
  | cons p parts ih => simp [ih, update_append]

end Hasher

structure Key where
  bytes : Bytes
  length_le : bytes.length ≤ 64

namespace Key

def ofBytes? (bs : Bytes) : Option Key :=
  if h : bs.length ≤ 64 then some ⟨bs, h⟩ else none

def ofFixed (b : FixedBytes 32) : Key :=
  ⟨b.toList, by rw [b.length_toList]; decide⟩

def tooLongMessage : String :=
  "Blake2b key longer than 64 bytes: InvalidLength"

end Key

/-- The keyed hash of the concatenated parts. The key fills a block of its own in front of them, an
empty key too. -/
def keyedHash (size : Nat) (key : Key) (parts : List Bytes) : FixedBytes size :=
  let start := (Hasher.init size key.bytes.length).update (Bytes.padTake blockSize key.bytes)
  (parts.foldl Hasher.update start).finish size

def hash (size : Nat) (parts : List Bytes) : FixedBytes size :=
  (parts.foldl Hasher.update (Hasher.init size 0)).finish size

end ConfidentialTx.Blake2b
