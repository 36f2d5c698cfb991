import Pequin.Framework.HeapTree
import Pequin.Model.Types

/-!
# Batched signatures

`lib/batched_sigs.cc` and `lib/batched_sigs.h`. A batch of messages is hashed into a tree, and the root is signed. The
signature of a message holds the root signature, the size of the batch, the index of the message, and the hashes of the
blocks of siblings on the path to the root.

The hash function and the root signatures are parameters. Positions are `int`s: a value computed in 64 bits is cut down
by `toInt`. Where the source throws, divides by zero, asks for a negative number of bytes, reads memory that was not
written or writes behind what it has allocated (`numNodes`, `maxSize`), the result is `none`, as it is where a signature
is rejected. What is read behind the end of a string is a parameter (`beyond`).
-/

namespace Pequin

open HeapTree

/-- `BLAKE3_OUT_LEN`. -/
def hashSize : Nat := 32

structure HashFn where
  hash : Bytes → Bytes
  length_hash : ∀ x, (hash x).length = hashSize

/-- A private key: `crypto::Sign` and `crypto::SigSize`. -/
structure Signer where
  sigSize : Nat
  sign : Bytes → Bytes
  length_sign : ∀ x, (sign x).length = sigSize

/-- Conversion to `int`. -/
def toInt (x : Int) : Int := Int.bmod x (2 ^ 32)

def packInt (i : Nat) : Bytes :=
  [UInt8.ofNat (i / 2 ^ 24), UInt8.ofNat (i / 2 ^ 16), UInt8.ofNat (i / 2 ^ 8), UInt8.ofNat i]

def unpackInt (b : Bytes) : Nat := b.foldl (fun tmp x => tmp * 2 ^ 8 + x.toNat) 0

/-- `min_leaf`, the position of the first leaf: `(n - 1 + (m - 2)) / (m - 1)`, where `n` is an
`unsigned int` and `m` has 64 bits. -/
def minLeaf (n m : Nat) : Option Nat :=
  if m = 1 then none
  else some (((n + (2 ^ 32 - 1)) % 2 ^ 32 + (m + (2 ^ 64 - 2)) % 2 ^ 64) % 2 ^ 64 / ((m + (2 ^ 64 - 1)) % 2 ^ 64))

def maxLeaf (base n : Nat) : Int := toInt (base + n - 1)

/-- `num_nodes`: the nodes that memory is allocated for. -/
def numNodes (n m : Nat) : Nat :=
  (m * ((n + (2 ^ 32 - 1)) % 2 ^ 32) + (m + (2 ^ 64 - 2)) % 2 ^ 64) % 2 ^ 64 / ((m + (2 ^ 64 - 1)) % 2 ^ 64) + 1

/-- The loop of `getTreeHeight`. -/
def treeHeight (m : Nat) : Nat → Nat → Nat
  | 0, _ => 0
  | fuel + 1, k => if k = 0 then 0 else treeHeight m fuel (k / m) + 1

/-- `getTreeHeight`. The heights that are kept are those for the same `m`. -/
def getTreeHeight (n m : Nat) : Nat := treeHeight m n n

/-- `max_size`: the bytes that are allocated for a signature. -/
def maxSize (sigSize n m : Nat) : Nat := (sigSize + 4 + 4 + (m * getTreeHeight n m + 1) * hashSize) % 2 ^ 64

/-- The number of hashes from `leftmost_sib` to `rightmost_sib`. -/
def siblingCount (m : Nat) (maxLeaf : Int) (j : Nat) : Int :=
  let rightmost := toInt (first m j + m - 1)
  (if maxLeaf < rightmost then maxLeaf else rightmost) - first m j + 1

section Signing

variable (H : HashFn) (signer : Signer)

/-- The hashes of the messages, at the leaves. -/
def placeLeaves (base : Nat) (messages : List Bytes) : Nat → Option Bytes := fun v =>
  if v < base then none else messages[v - base]?.map H.hash

/-- The tree of `generateBatchedSignatures`, with the blocks that were hashed. -/
def batchTree (m : UInt64) (messages : List Bytes) : Option ((Nat → Option Bytes) × List (List Bytes)) :=
  let n := messages.length % 2 ^ 32
  match minLeaf n m.toNat with
  | none => none
  | some base =>
    -- `getTreeHeight` divides by `m`, an empty batch fails the assertion, and an empty message has no byte at 0
    if m = 0 ∨ n = 0 ∨ [] ∈ messages.take n ∨ numNodes n m.toNat < base + n then none
    else build (fun hashes => H.hash hashes.flatten) m.toNat (maxLeaf base n).toNat
      (maxLeaf base n).toNat (placeLeaves H base (messages.take n)) []

def rootHash (m : UInt64) (messages : List Bytes) : Option Bytes :=
  (batchTree H m messages).bind fun t => t.1 0

/-- The hashes that are copied into a signature, from node `j` up. -/
def siblingHashes (m : Nat) (maxLeaf : Int) (tree : Nat → Option Bytes) : Nat → Nat → Option Bytes
  | 0, _ => some []
  | fuel + 1, j =>
    if j = 0 then some []
    else if m = 0 ∨ siblingCount m maxLeaf j < 0 then none
    else
      match block tree (first m j) (siblingCount m maxLeaf j).toNat,
          siblingHashes m maxLeaf tree fuel (parent m j) with
      | some hashes, some rest => some (hashes.flatten ++ rest)
      | _, _ => none

def signatureOf (m n base : Nat) (tree : Nat → Option Bytes) (root : Bytes) (i : Nat) : Option Bytes :=
  let j := (toInt (base + i)).toNat
  ((siblingHashes m (maxLeaf base n) tree j j).map fun hashes =>
    signer.sign root ++ packInt n ++ packInt i ++ hashes).filter fun sig => sig.length ≤ maxSize signer.sigSize n m

def generateBatchedSignatures (m : UInt64) (messages : List Bytes) : Option (List Bytes) :=
  let n := messages.length % 2 ^ 32
  match minLeaf n m.toNat, batchTree H m messages, rootHash H m messages with
  | some base, some (tree, _), some root =>
    block (signatureOf signer m.toNat n base tree root) 0 n
  | _, _, _ => none

end Signing

/-- The bytes of a string from a position on, and what is in memory behind it. -/
def bytesFrom (beyond : Nat → UInt8) (s : Bytes) (pos len : Nat) : Bytes :=
  (List.range' pos len).map fun k => s[k]?.getD (beyond k)

section Verification

variable (H : HashFn) (beyond : Nat → UInt8)

/-- The loop of `computeBatchedSignatureHash`: `hash` is that of node `j`, which the signature has to hold among its
siblings, and `h` blocks have been used. -/
def climb (m : Nat) (maxLeaf : Int) (signature : Bytes) (start : Nat) : Nat → Nat → Nat → Bytes → Option Bytes
  | 0, _, _, hash => some hash
  | fuel + 1, j, h, hash =>
    if j = 0 then some hash
    else if m = 0 then none
    else
      let own := start + (h + (j - first m j)) * hashSize
      let block := start + h * hashSize
      let count := siblingCount m maxLeaf j
      -- only the first byte that is read is checked to be in the string
      if signature.length ≤ own ∨ bytesFrom beyond signature own hashSize ≠ hash then none
      else if signature.length ≤ block ∨ count < 0 then none
      else climb m maxLeaf signature start fuel (parent m j) (h + count.toNat)
        (H.hash (bytesFrom beyond signature block (count.toNat * hashSize)))

/-- The root hash and the root signature. -/
def computeBatchedSignatureHash (sigSize : Nat) (m : UInt64) (signature message : Bytes) : Option (Bytes × Bytes) :=
  let n := unpackInt (bytesFrom beyond signature sigSize 4)
  let i := unpackInt (bytesFrom beyond signature (sigSize + 4) 4)
  if signature.length ≤ sigSize + 4 ∨ message = [] then none
  else
    match minLeaf n m.toNat with
    | none => none
    | some base =>
      let j := (toInt (base + i)).toNat
      (climb H beyond m.toNat (maxLeaf base n) signature (sigSize + 8) j j 0 (H.hash message)).map
        fun hash => (hash, bytesFrom beyond signature 0 sigSize)

end Verification

end Pequin
