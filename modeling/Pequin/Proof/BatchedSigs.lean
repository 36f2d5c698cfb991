import Pequin.Model.BatchedSigs

/-!
# Batched signatures

`climb_path` is the verification of one path of the tree; `signatures_fit` is about the memory for tree and signatures.
-/

namespace Pequin

open HeapTree List Option

variable {x hashes : Bytes} {i k base fuel : Nat} {last : Int} {b messages : List Bytes}

theorem toInt_cases (x : Int) : toInt x = x % 4294967296 ∧ x % 4294967296 < 2147483648 ∨
    toInt x = x % 4294967296 - 4294967296 ∧ 2147483648 ≤ x % 4294967296 := by
  have hbmod : toInt x = if x % 4294967296 < 2147483648 then x % 4294967296
      else x % 4294967296 - 4294967296 := Int.bmod_def x _
  split at hbmod <;> omega

theorem toInt_of_lt {x : Int} (h0 : 0 ≤ x) (h : x < 2 ^ 31) : toInt x = x := by
  have := toInt_cases x
  omega

theorem unpackInt_packInt (h : i < 2 ^ 32) : unpackInt (packInt i) = i := by
  simp only [packInt, unpackInt, foldl_cons, foldl_nil, UInt8.toNat_ofNat']
  omega

def innerNodes (n m : Nat) : Nat := (n - 1 + (m - 2)) / (m - 1)

section Unsigned

variable {n m : Nat} (hm : 2 ≤ m) (h64 : m < 2 ^ 64) (hn : 1 ≤ n) (h32 : n < 2 ^ 32)
include hm h64 hn h32

theorem sub_unsigned : (n + (2 ^ 32 - 1)) % 2 ^ 32 = n - 1 ∧ (m + (2 ^ 64 - 2)) % 2 ^ 64 = m - 2 ∧
    (m + (2 ^ 64 - 1)) % 2 ^ 64 = m - 1 := by
  omega

theorem minLeaf_of_nodes (hnodes : m * (n - 1) + (m - 2) < 2 ^ 64) : minLeaf n m = some (innerNodes n m) := by
  obtain ⟨h1, h2, h3⟩ := sub_unsigned hm h64 hn h32
  have hle : n - 1 ≤ m * (n - 1) := Nat.le_mul_of_pos_left _ (by omega)
  rw [minLeaf, if_neg (by omega), h1, h2, h3, Nat.mod_eq_of_lt (by omega), innerNodes]

/-- There is memory for the nodes of the tree if their number is computed without overflow. -/
theorem le_numNodes (hnodes : m * (n - 1) + (m - 2) < 2 ^ 64) : innerNodes n m + n ≤ numNodes n m := by
  obtain ⟨h1, h2, h3⟩ := sub_unsigned hm h64 hn h32
  have hsplit : m * (n - 1) + (m - 2) = n - 1 + (m - 2) + (m - 1) * (n - 1) := by
    obtain ⟨k, rfl⟩ : ∃ k, m = k + 1 := ⟨m - 1, by omega⟩
    rw [Nat.add_one_mul, Nat.add_sub_cancel]
    omega
  rw [numNodes, h1, h2, h3, Nat.mod_eq_of_lt hnodes, hsplit, Nat.add_mul_div_left _ _ (by omega), innerNodes]
  omega

end Unsigned

theorem maxLeaf_eq {n : Nat} (hn : 1 ≤ n) (h : base + n ≤ 2 ^ 31) : maxLeaf base n = (base + n - 1 : Nat) := by
  rw [maxLeaf, toInt_of_lt] <;> omega

/-- The positions fit into an `int`, and the end of the last block, as an `int`, is not before the last node. -/
def Fits (m M : Nat) : Prop := M < 2 ^ 31 ∧ (M : Int) ≤ toInt (first m M + m - 1)

section Positions

variable {m M j n : Nat}

theorem one_le_first : 1 ≤ first m j := by
  rw [first]
  omega

theorem first_mono (h : j ≤ k) : first m j ≤ first m k := by
  have := Nat.mul_le_mul_right m (Nat.div_le_div_right (c := m) (Nat.sub_le_sub_right h 1))
  rw [first, first]
  omega

theorem parent_of_le (hj : j ≤ m) (hm : 0 < m) : parent m j = 0 := by
  exact Nat.div_eq_of_lt (by omega)

theorem first_of_le (hj : j ≤ m) (hm : 0 < m) : first m j = 1 := by
  rw [first_eq, parent_of_le hj hm, Nat.zero_mul]

theorem siblingCount_eq (hm : 0 < m) (hf : Fits m M) (hj : 1 ≤ j) (hM : j ≤ M) :
    siblingCount m M j = siblings m M j := by
  obtain ⟨hlt, hend⟩ := hf
  have hmono := first_mono (m := m) hM
  have hlast := first_le (m := m) (j := M) (by omega)
  rw [siblingCount, siblings]
  by_cases hbig : m < 2 ^ 31
  · have hfit : first m M + m - 1 < 2 ^ 31 := by
      have := toInt_cases (first m M + m - 1)
      omega
    rw [toInt_of_lt (by omega) (by omega)]
    split <;> omega
  · rw [first_of_le (by omega) hm] at hend ⊢
    split <;> omega

theorem innerNodes_bounds (hm : 2 ≤ m) (hn : 2 ≤ n) :
    n - 1 ≤ innerNodes n m * (m - 1) ∧ innerNodes n m * (m - 1) ≤ n - 1 + (m - 2) := by
  have hlt := Nat.lt_div_mul_add (a := n - 1 + (m - 2)) (b := m - 1) (by omega)
  have hle := Nat.div_mul_le_self (n - 1 + (m - 2)) (m - 1)
  rw [innerNodes]
  omega

theorem innerNodes_pos (hm : 2 ≤ m) (hn : 2 ≤ n) : 1 ≤ innerNodes n m :=
  (Nat.one_le_div_iff (by omega)).mpr (by omega)

theorem innerNodes_shape (hm : 2 ≤ m) (hn : 2 ≤ n) : Shape m (innerNodes n m + n - 1) (innerNodes n m) := by
  obtain ⟨hlo, hhi⟩ := innerNodes_bounds hm hn
  obtain ⟨k, rfl⟩ : ∃ k, m = k + 1 := ⟨m - 1, by omega⟩
  rw [Nat.add_sub_cancel] at hlo hhi
  refine ⟨hm, fun j hj hM => ?_, fun v hv => ?_⟩
  · rw [parent, Nat.div_lt_iff_lt_mul (by omega), Nat.mul_add_one]
    omega
  · have hv' := Nat.mul_le_mul_right k (Nat.le_sub_one_of_lt hv)
    have hsub : (innerNodes n (k + 1) - 1) * k = innerNodes n (k + 1) * k - k := Nat.sub_one_mul _ _
    rw [Nat.add_one_mul, Nat.mul_comm k v]
    omega

end Positions

section Strings

variable {beyond : Nat → UInt8}

theorem bytesFrom_append (pre mid post : Bytes) {pos len : Nat} (hpos : pos = pre.length)
    (hlen : len = mid.length) : bytesFrom beyond (pre ++ mid ++ post) pos len = mid := by
  subst hpos hlen
  refine ext_getElem (by simp [bytesFrom]) fun k hk hk' => ?_
  simp only [bytesFrom, getElem_map, getElem_range', Nat.one_mul]
  rw [append_assoc, List.getElem?_append_right (by omega), Nat.add_sub_cancel_left,
    List.getElem?_append_left hk', List.getElem?_eq_getElem hk', getD_some]

theorem length_bytesFrom (s : Bytes) (pos len : Nat) : (bytesFrom beyond s pos len).length = len := by
  simp [bytesFrom]

theorem take_drop_bytesFrom (s : Bytes) {pos len size : Nat} (h : k + size ≤ len) :
    ((bytesFrom beyond s pos len).drop k).take size = bytesFrom beyond s (pos + k) size := by
  refine ext_getElem (by simp [bytesFrom]; omega) fun i hi hi' => ?_
  simp [bytesFrom, Nat.add_assoc]

theorem length_flatten_of (h : ∀ x ∈ b, x.length = hashSize) : b.flatten.length = b.length * hashSize := by
  induction b with
  | nil => simp
  | cons x b ih =>
    rw [flatten_cons, length_append, h x mem_cons_self,
      ih fun y hy => h y (mem_cons_of_mem _ hy), length_cons, Nat.add_one_mul, Nat.add_comm]

theorem length_of_mem_block {t : Nat → Option Bytes} {l k : Nat}
    (hlen : ∀ v x, t v = some x → x.length = hashSize) (hb : block t l k = some b) : ∀ y ∈ b, y.length = hashSize := by
  intro y hy
  obtain ⟨i, hi, rfl⟩ := mem_iff_getElem.mp hy
  have hget := getElem?_block hb (length_block hb ▸ hi)
  rw [List.getElem?_eq_getElem hi] at hget
  exact hlen _ _ hget.symm

theorem flatten_split (h : ∀ y ∈ b, y.length = hashSize) (hk : b[k]? = some x) :
    ∃ pre post, b.flatten = pre ++ x ++ post ∧ pre.length = k * hashSize := by
  obtain ⟨hlt, rfl⟩ := List.getElem?_eq_some_iff.mp hk
  refine ⟨(b.take k).flatten, (b.drop (k + 1)).flatten, ?_, ?_⟩
  · calc b.flatten = (b.take k ++ b.drop k).flatten := by rw [take_append_drop]
      _ = (b.take k).flatten ++ (b[k] :: b.drop (k + 1)).flatten := by
        rw [flatten_append, drop_eq_getElem_cons hlt]
      _ = (b.take k).flatten ++ b[k] ++ (b.drop (k + 1)).flatten := by
        rw [flatten_cons, append_assoc]
  · rw [length_flatten_of fun y hy => h y (mem_of_mem_take hy), length_take, Nat.min_eq_left hlt.le]

end Strings

section Buffers

variable {m n sigSize : Nat}

theorem lt_pow_treeHeight (hm : 2 ≤ m) (hk : k ≤ fuel) : k < m ^ treeHeight m fuel k := by
  induction fuel generalizing k with
  | zero =>
    rw [treeHeight, Nat.pow_zero]
    omega
  | succ fuel ih =>
    rw [treeHeight]
    split
    · rw [Nat.pow_zero]
      omega
    have hdiv : k / m < k := Nat.div_lt_self (by omega) (by omega)
    rw [Nat.pow_succ, ← Nat.div_lt_iff_lt_mul (by omega)]
    exact ih (by omega)

theorem le_lastAt (hm : 2 ≤ m) (hn : 1 ≤ n) : innerNodes n m + n - 1 ≤ lastAt m (getTreeHeight n m) := by
  obtain ⟨k, rfl⟩ : ∃ k, m = k + 1 := ⟨m - 1, by omega⟩
  have hheight : n < (k + 1) ^ getTreeHeight n (k + 1) := lt_pow_treeHeight hm (Nat.le_refl n)
  have hlast := lastAt_mul k (getTreeHeight n (k + 1))
  rw [Nat.pow_succ] at hlast
  have hinner : innerNodes n (k + 1) * k ≤ n - 1 + (k - 1) := Nat.div_mul_le_self ..
  have hmul := Nat.mul_le_mul_right (k + 1) hheight
  refine Nat.le_of_mul_le_mul_right (c := k) ?_ (by omega)
  have hsum : (innerNodes n (k + 1) + n - 1) * k = innerNodes n (k + 1) * k + (n - 1) * k := by
    rw [← Nat.add_mul]
    congr 1
    omega
  have hn' : (n - 1) * k + (n - 1) + (k + 1) = n * (k + 1) := by
    obtain ⟨l, rfl⟩ : ∃ l, n = l + 1 := ⟨n - 1, by omega⟩
    grind
  rw [Nat.succ_mul] at hmul
  omega

theorem two_pow_treeHeight (hm : 2 ≤ m) (hk : 1 ≤ k) : 2 ^ treeHeight m fuel k ≤ 2 * k := by
  induction fuel generalizing k with
  | zero =>
    rw [treeHeight, Nat.pow_zero]
    omega
  | succ fuel ih =>
    rw [treeHeight, if_neg (by omega), Nat.pow_succ]
    have hle : 2 * (k / m) ≤ k := (Nat.mul_le_mul_right _ hm).trans (Nat.mul_div_le k m)
    by_cases hdiv : 1 ≤ k / m
    · have := ih hdiv
      omega
    · rw [show k / m = 0 by omega]
      cases fuel <;> simp [treeHeight] <;> omega

/-- The siblings on a path fit into a signature. -/
theorem siblings_fit (hm : 2 ≤ m) (hn : 2 ≤ n) (h32 : n < 2 ^ 32) (hf : Fits m (innerNodes n m + n - 1)) :
    min m (innerNodes n m + n - 1) * getTreeHeight n m * hashSize ≤
      (m * getTreeHeight n m + 1) * hashSize % 2 ^ 64 := by
  have hle : n ≤ innerNodes n m + n - 1 := by
    have := innerNodes_pos hm hn
    omega
  obtain ⟨hlt, hend⟩ := hf
  generalize innerNodes n m + n - 1 = M at *
  by_cases hbig : m < 2 ^ 31
  · -- the tree is too flat for the product to overflow
    have hheight : getTreeHeight n m ≤ 32 := by
      refine Nat.lt_succ_iff.mp ((Nat.pow_lt_pow_iff_right (a := 2) (by decide)).mp ?_)
      have : 2 ^ getTreeHeight n m ≤ 2 * n := two_pow_treeHeight hm (by omega)
      omega
    have hprod : m * getTreeHeight n m ≤ 2 ^ 31 * 32 := Nat.mul_le_mul hbig.le hheight
    have hmin := Nat.mul_le_mul_right (getTreeHeight n m) (Nat.min_le_left m M)
    rw [hashSize, Nat.mod_eq_of_lt (by omega)]
    omega
  · -- there is one block, and it ends before the factor is cut off
    have hone : getTreeHeight n m = 1 := by
      obtain ⟨k, rfl⟩ : ∃ k, n = k + 1 := ⟨n - 1, by omega⟩
      rw [getTreeHeight, treeHeight, if_neg (by omega), Nat.div_eq_of_lt (by omega)]
      cases k <;> rfl
    rw [first_of_le (by omega) (by omega)] at hend
    have := toInt_cases ((1 : Nat) + m - 1)
    have := Nat.min_le_right m M
    rw [hone, hashSize]
    omega

theorem add_le_maxSize (h : sigSize + 8 ≤ maxSize sigSize n m)
    (hk : k ≤ (m * getTreeHeight n m + 1) * hashSize % 2 ^ 64) : sigSize + 4 + 4 + k ≤ maxSize sigSize n m := by
  rw [maxSize] at h ⊢
  omega

end Buffers

section RoundTrip

variable (H : HashFn) (signer : Signer) (beyond : Nat → UInt8) {tree : Nat → Option Bytes} {root message : Bytes}
  {m : UInt64}

/-- The signatures of a batch are accepted for its messages, with its root hash and root signature. -/
def RoundTrips (m : UInt64) (messages : List Bytes) : Prop :=
  ∃ root sigs, rootHash H m messages = some root ∧ generateBatchedSignatures H signer m messages = some sigs ∧
    ∀ (i : Nat) message, messages[i]? = some message → ∃ signature, sigs[i]? = some signature ∧
      computeBatchedSignatureHash H beyond signer.sigSize m signature message = some (root, signer.sign root)

/-- No message is empty, no number or size overflows and, with more than one message, positions fit into an `int`. -/
structure Signable (sigSize m : Nat) (messages : List Bytes) : Prop where
  nonempty : [] ∉ messages
  size : messages.length < 2 ^ 32
  nodes : m * (messages.length - 1) + (m - 2) < 2 ^ 64
  buffer : sigSize + 8 ≤ maxSize sigSize messages.length m
  fits : messages.length = 1 ∨ Fits m (innerNodes messages.length m + messages.length - 1)

/-- What is known of the tree of a batch that can be signed. -/
structure Built (m : Nat) (messages : List Bytes) (base M : Nat) (tree : Nat → Option Bytes) (root : Bytes) : Prop where
  last : M = base + messages.length - 1
  small : base + messages.length ≤ 2 ^ 31
  leaf : ∀ (i : Nat) message, messages[i]? = some message → tree (base + i) = some (H.hash message)
  root : tree 0 = some root
  done : Done (fun hashes => H.hash hashes.flatten) m M tree 0
  length : ∀ v x, tree v = some x → x.length = hashSize
  count : ∀ j, 1 ≤ j → j ≤ M → siblingCount m M j = siblings m M j

variable {H signer beyond}

/-- Every path can be signed, and the verification of a signature follows it to the root. -/
theorem climb_path (beyond : Nat → UInt8) {m M j : Nat}
    (hb : Built H m messages base M tree root) (hm : 0 < m) (hf : j ≤ fuel) (hj : j ≤ M) (hx : tree j = some x) :
    ∃ hashes, siblingHashes m M tree fuel j = some hashes ∧
      ∀ pre start h, pre.length = start + h * hashSize →
        climb H beyond m M (pre ++ hashes) start fuel j h x = some root := by
  induction fuel generalizing j x with
  | zero =>
    obtain rfl : j = 0 := by omega
    refine ⟨[], rfl, fun pre start h _ => ?_⟩
    rw [climb, ← hb.root, hx]
  | succ fuel ih =>
    by_cases h0 : j = 0
    · subst h0
      refine ⟨[], rfl, fun pre start h _ => ?_⟩
      rw [climb, if_pos rfl, ← hb.root, hx]
    obtain ⟨b, hblock, hparent⟩ := hb.done j (by omega) hj
    have hcount := hb.count j (by omega) hj
    have hle := first_le (m := m) (j := j) (by omega)
    have hin := lt_first_add (j := j) hm
    have hown : j - first m j < siblings m M j := by
      rw [siblings]
      omega
    have hup := parent_lt (m := m) (j := j) (by omega)
    obtain ⟨rest, hrest, hclimb⟩ := ih (j := parent m j) (by omega) (by omega) hparent
    refine ⟨b.flatten ++ rest, ?_, fun pre start h hpre => ?_⟩
    · rw [siblingHashes, if_neg h0, hcount, if_neg (not_or.mpr ⟨hm.ne', Int.not_lt.mpr (Int.natCast_nonneg _)⟩),
        Int.toNat_natCast, hblock, hrest]
    have hlen := length_of_mem_block hb.length hblock
    have hsize := length_flatten_of hlen
    rw [length_block hblock] at hsize
    -- the hash of the node itself is in the block
    obtain ⟨before, after, hsplit, hbefore⟩ := flatten_split (x := x) hlen (by
      rw [getElem?_block hblock hown, Nat.add_sub_cancel' hle, hx])
    have hxlen := hb.length _ _ hx
    have hread : bytesFrom beyond (pre ++ (b.flatten ++ rest))
        (start + (h + (j - first m j)) * hashSize) hashSize = x := by
      have hassoc : pre ++ (before ++ x ++ after ++ rest) = pre ++ before ++ x ++ (after ++ rest) := by
        simp only [append_assoc]
      rw [hsplit, hassoc]
      refine bytesFrom_append _ _ _ ?_ hxlen.symm
      rw [length_append, hpre, hbefore, Nat.add_mul, Nat.add_assoc]
    have hmid : bytesFrom beyond (pre ++ (b.flatten ++ rest)) (start + h * hashSize)
        (siblings m M j * hashSize) = b.flatten := by
      rw [← append_assoc]
      exact bytesFrom_append _ _ _ hpre.symm hsize.symm
    have htotal : (pre ++ (b.flatten ++ rest)).length = start + h * hashSize +
        (siblings m M j * hashSize + rest.length) := by
      rw [length_append, length_append, hpre, hsize]
    have hnext := hclimb (pre ++ b.flatten) start (h + siblings m M j) (by
      rw [length_append, hpre, hsize, Nat.add_mul, Nat.add_assoc])
    rw [append_assoc] at hnext
    have hmul := Nat.mul_lt_mul_of_pos_right hown (k := hashSize) (by decide)
    rw [climb, if_neg h0, if_neg (by omega)]
    dsimp only
    rw [hcount, Int.toNat_natCast, hread, hmid, htotal, Nat.add_mul,
      if_neg (not_or.mpr ⟨by omega, fun hne => hne rfl⟩), if_neg (by omega), hnext]

section

variable {log : List (List Bytes)} (h : batchTree H m messages = some (tree, log))
include h

theorem logged_batchTree :
    HeapTree.Logged (fun hashes => H.hash hashes.flatten) (fun x => ∃ message ∈ messages, x = H.hash message)
      tree log := by
  rw [batchTree] at h
  split at h
  · cases h
  split at h
  · cases h
  refine build_log ⟨fun v x hx => ?_, fun b hb => (by cases hb)⟩ h
  rw [placeLeaves] at hx
  split at hx
  · cases hx
  · obtain ⟨message, hget, rfl⟩ := map_eq_some_iff.mp hx
    exact .inl ⟨message, mem_of_mem_take (mem_of_getElem? hget), rfl⟩

theorem length_of_batchTree {v : Nat} (hx : tree v = some x) : x.length = hashSize := by
  rcases (logged_batchTree h).nodes v x hx with ⟨message, -, rfl⟩ | ⟨b, -, rfl⟩ <;> exact H.length_hash _

end

theorem placeLeaves_leaf
    (h : messages[i]? = some message) : placeLeaves H base messages (base + i) = some (H.hash message) := by
  rw [placeLeaves, if_neg (by omega), Nat.add_sub_cancel_left, h, map_some]

theorem batchTree_eq (hm : 2 ≤ m.toNat) (hn : 1 ≤ messages.length)
    (hne : [] ∉ messages) (hmin : minLeaf messages.length m.toNat = some base)
    (hsmall : base + messages.length ≤ 2 ^ 31) (hnodes : base + messages.length ≤ numNodes messages.length m.toNat) :
    batchTree H m messages = build (fun hashes => H.hash hashes.flatten) m.toNat (base + messages.length - 1)
      (base + messages.length - 1) (placeLeaves H base messages) [] := by
  have hmod : messages.length % 2 ^ 32 = messages.length := Nat.mod_eq_of_lt (by omega)
  rw [batchTree, hmod, hmin]
  dsimp only
  have hm0 : m ≠ 0 := by
    rintro rfl
    exact absurd hm (by decide)
  have hguard : ¬(m = 0 ∨ messages.length = 0 ∨ [] ∈ messages ∨
      numNodes messages.length m.toNat < base + messages.length) := by
    simp only [hm0, hne, false_or]
    omega
  rw [take_of_length_le (Nat.le_refl _), if_neg hguard, maxLeaf_eq hn hsmall, Int.toNat_natCast]

/-- A path takes no more hashes than a tree of its height has in blocks. -/
theorem Built.length_siblingHashes {m M j d : Nat} (hb : Built H m messages base M tree root) (hm : 0 < m) (hj : j ≤ M)
    (hd : j ≤ lastAt m d)
    (h : siblingHashes m M tree fuel j = some hashes) :
    hashes.length ≤ min m M * d * hashSize := by
  induction fuel generalizing j d hashes with
  | zero =>
    cases h
    simp
  | succ fuel ih =>
    rw [siblingHashes] at h
    split at h
    · cases h
      simp
    split at h
    · cases h
    split at h
    · rename_i b rest hblock hrest
      cases h
      cases d with
      | zero => simp [lastAt] at hd; omega
      | succ d =>
        have hup := parent_lt (m := m) (j := j) (by omega)
        have ih := ih (by omega) (parent_le_lastAt hm hd) hrest
        rw [hb.count j (by omega) hj, Int.toNat_natCast] at hblock
        rw [length_append, length_flatten_of (length_of_mem_block hb.length hblock), length_block hblock]
        have hfirst := one_le_first (m := m) (j := j)
        have hle : siblings m M j ≤ min m M := by
          rw [siblings]
          omega
        have := Nat.mul_le_mul_right hashSize hle
        rw [Nat.mul_add_one, Nat.add_mul]
        omega
    · cases h

section

variable {sigSize : Nat} (hm : 2 ≤ m.toNat)
include hm

theorem innerNodes_single : innerNodes 1 m.toNat = 0 := Nat.div_eq_of_lt (by omega)

theorem exists_built_single (hs : Signable sigSize m.toNat [message]) : ∃ tree log root M,
    batchTree H m [message] = some (tree, log) ∧
      Built H m.toNat [message] (innerNodes [message].length m.toNat) M tree root := by
  have hzero : innerNodes [message].length m.toNat = 0 := innerNodes_single hm
  have hn : 1 ≤ [message].length := Nat.le_refl 1
  have hmin := minLeaf_of_nodes hm m.toNat_lt hn hs.size hs.nodes
  have hroom := le_numNodes hm m.toNat_lt hn hs.size hs.nodes
  rw [hzero] at hmin hroom ⊢
  have htree : batchTree H m [message] = some (placeLeaves H 0 [message], []) := by
    rw [batchTree_eq hm hn hs.nonempty hmin (by simp) hroom]
    rfl
  exact ⟨placeLeaves H 0 [message], [], H.hash message, 0, htree, rfl, by simp, fun i x hi => placeLeaves_leaf hi,
    rfl, fun j hj hjM => by omega, fun v x => length_of_batchTree htree, fun j hj hjM => by omega⟩

theorem exists_built (hn : 1 ≤ messages.length) (hs : Signable sigSize m.toNat messages) : ∃ tree log root M,
    batchTree H m messages = some (tree, log) ∧
      Built H m.toNat messages (innerNodes messages.length m.toNat) M tree root := by
  by_cases hone : messages.length = 1
  · obtain ⟨message, rfl⟩ := length_eq_one_iff.mp hone
    exact exists_built_single hm hs
  have hfit := hs.fits.resolve_left hone
  have htwo : 2 ≤ messages.length := by omega
  have hshape := innerNodes_shape hm htwo
  have hpos := innerNodes_pos hm htwo
  have hmin := minLeaf_of_nodes hm m.toNat_lt hn hs.size hs.nodes
  have hroom := le_numNodes hm m.toNat_lt hn hs.size hs.nodes
  generalize innerNodes messages.length m.toNat = base at *
  have hsmall : base + messages.length ≤ 2 ^ 31 := by
    have := hfit.1
    omega
  have hsome : ∀ v, base ≤ v → v ≤ base + messages.length - 1 →
      (placeLeaves H base messages v).isSome = true := fun v hv hvM => by
    have hget := List.getElem?_eq_getElem (l := messages) (i := v - base) (by omega)
    have hleaf : placeLeaves H base messages (base + (v - base)) = _ := placeLeaves_leaf hget
    rw [Nat.add_sub_cancel' hv] at hleaf
    rw [hleaf, isSome_some]
  have hnone : Done (fun hashes => H.hash hashes.flatten) m.toNat (base + messages.length - 1)
      (placeLeaves H base messages) (base + messages.length - 1) := fun j hj hjM => by omega
  obtain ⟨tree, log, hbuild, hdone, hkeep⟩ := build_spec hshape (Nat.le_refl _) (.inl rfl) (Nat.le_refl _) (by omega)
    hsome hnone []
  have htree : batchTree H m messages = some (tree, log) := by
    rw [batchTree_eq hm hn hs.nonempty hmin hsmall hroom, hbuild]
  obtain ⟨b, -, hroot⟩ := hdone 1 (by omega) (by omega)
  rw [parent_of_le (by omega) (by omega)] at hroot
  refine ⟨tree, log, H.hash b.flatten, _, htree, rfl, hsmall, fun i message hi => ?_, hroot, hdone,
    fun v x => length_of_batchTree htree, fun j hj hjM => siblingCount_eq (by omega) hfit hj hjM⟩
  rw [hkeep _ (by omega), placeLeaves_leaf hi]

theorem signature_fits (hn : 1 ≤ messages.length) (hs : Signable sigSize m.toNat messages)
    {M : Nat} (hb : Built H m.toNat messages (innerNodes messages.length m.toNat) M tree root) {j : Nat} (hj : j ≤ M)
    (h : siblingHashes m.toNat M tree j j = some hashes) :
    sigSize + 4 + 4 + hashes.length ≤ maxSize sigSize messages.length m.toNat := by
  have hlast := hb.last
  subst hlast
  have hsize := hb.length_siblingHashes (by omega) hj (hj.trans (le_lastAt hm hn)) h
  refine add_le_maxSize hs.buffer (hsize.trans ?_)
  by_cases hone : messages.length = 1
  · rw [hone, innerNodes_single hm]
    simp
  · exact siblings_fit hm (by omega) hs.size (hs.fits.resolve_left hone)

end

theorem compute_signed {n : Nat} (hn : n < 2 ^ 32)
    (hi : i < 2 ^ 32) (hne : message ≠ []) (hbase : minLeaf n m.toNat = some base) :
    computeBatchedSignatureHash H beyond signer.sigSize m
        (signer.sign root ++ packInt n ++ packInt i ++ hashes) message =
      (climb H beyond m.toNat (maxLeaf base n) (signer.sign root ++ packInt n ++ packInt i ++ hashes)
        (signer.sigSize + 8) (toInt (base + i)).toNat (toInt (base + i)).toNat 0 (H.hash message)).map
          fun hash => (hash, signer.sign root) := by
  have hsign := signer.length_sign root
  have hroot : bytesFrom beyond (signer.sign root ++ packInt n ++ packInt i ++ hashes) 0 signer.sigSize =
      signer.sign root := by
    have hread : bytesFrom beyond ([] ++ signer.sign root ++ (packInt n ++ packInt i ++ hashes)) 0 signer.sigSize =
        signer.sign root := bytesFrom_append _ _ _ rfl hsign.symm
    simpa only [nil_append, append_assoc] using hread
  have hcount : bytesFrom beyond (signer.sign root ++ packInt n ++ packInt i ++ hashes) signer.sigSize 4 =
      packInt n := by
    rw [append_assoc (_ ++ _)]
    exact bytesFrom_append _ _ _ hsign.symm rfl
  have hindex : bytesFrom beyond (signer.sign root ++ packInt n ++ packInt i ++ hashes) (signer.sigSize + 4) 4 =
      packInt i :=
    bytesFrom_append _ _ _ (by rw [length_append, hsign]; rfl) rfl
  have hlen : ¬((signer.sign root ++ packInt n ++ packInt i ++ hashes).length ≤ signer.sigSize + 4) := by
    simp only [length_append, hsign, packInt, length_cons, length_nil]
    omega
  rw [computeBatchedSignatureHash]
  simp only [hroot, hcount, hindex, unpackInt_packInt hn, unpackInt_packInt hi, hbase, hlen, hne, false_or, if_false]

theorem length_signature (n : Nat) : (signer.sign root ++ packInt n ++ packInt i ++ hashes).length =
    signer.sigSize + 4 + 4 + hashes.length := by
  rw [length_append, length_append, length_append, signer.length_sign]
  rfl

/-- The signatures of a batch: they fit into their buffers, and are accepted for the messages. -/
theorem exists_signatures (beyond : Nat → UInt8) (hm : 2 ≤ m.toNat) (hn : 1 ≤ messages.length)
    (hs : Signable signer.sigSize m.toNat messages) : ∃ tree log root M sigs,
      batchTree H m messages = some (tree, log) ∧
      Built H m.toNat messages (innerNodes messages.length m.toNat) M tree root ∧
      generateBatchedSignatures H signer m messages = some sigs ∧ sigs.length = messages.length ∧
      ∀ (i : Nat) message, messages[i]? = some message → ∃ signature, sigs[i]? = some signature ∧
        signature.length ≤ maxSize signer.sigSize messages.length m.toNat ∧
        computeBatchedSignatureHash H beyond signer.sigSize m signature message = some (root, signer.sign root) := by
  obtain ⟨tree, log, root, M, htree, hb⟩ := exists_built (H := H) hm hn hs
  have hmin := minLeaf_of_nodes hm m.toNat_lt hn hs.size hs.nodes
  have hfits (j : Nat) (hashes : Bytes) (hj : j ≤ M) (h : siblingHashes m.toNat M tree j j = some hashes) :=
    signature_fits hm hn hs hb hj h
  have hsmall := hb.small
  have hlast := hb.last
  have hroot : rootHash H m messages = some root := by
    rw [rootHash, htree, bind_some]
    exact hb.root
  refine ⟨tree, log, root, M, ?_⟩
  generalize innerNodes messages.length m.toNat = base at *
  have hmod : messages.length % 2 ^ 32 = messages.length := Nat.mod_eq_of_lt hs.size
  have hmax : maxLeaf base messages.length = M := by rw [maxLeaf_eq hn hsmall, hlast]
  -- the path of one message
  have hpath : ∀ (i : Nat) message, messages[i]? = some message → ∃ signature,
      signatureOf signer m.toNat messages.length base tree root i = some signature ∧
        signature.length ≤ maxSize signer.sigSize messages.length m.toNat ∧
        computeBatchedSignatureHash H beyond signer.sigSize m signature message = some (root, signer.sign root) := by
    intro i message hi
    have hlt : i < messages.length := (List.getElem?_eq_some_iff.mp hi).1
    have hj : (toInt (base + i)).toNat = base + i := by
      rw [toInt_of_lt] <;> omega
    have hne : message ≠ [] := fun h => hs.nonempty (h ▸ mem_of_getElem? hi)
    obtain ⟨hashes, hhashes, hclimb⟩ := climb_path beyond hb (by omega) (Nat.le_refl _) (by omega)
      (hb.leaf i message hi)
    have hfit : (signer.sign root ++ packInt messages.length ++ packInt i ++ hashes).length ≤
        maxSize signer.sigSize messages.length m.toNat := by
      rw [length_signature]
      exact hfits _ _ (by omega) hhashes
    refine ⟨_, ?_, hfit, ?_⟩
    · rw [signatureOf, hj, hmax, hhashes, map_some, Option.filter_some, if_pos (decide_eq_true hfit)]
    · rw [compute_signed hs.size (by have := hs.size; omega) hne hmin, hj, hmax, hclimb, map_some]
      rw [length_append, length_append, signer.length_sign, packInt, packInt]
      rfl
  obtain ⟨sigs, hsigs⟩ := exists_block (t := signatureOf signer m.toNat messages.length base tree root) (l := 0)
    (k := messages.length) fun i _ hi => by
      obtain ⟨signature, hsig, -⟩ := hpath i _ (List.getElem?_eq_getElem (by omega))
      rw [hsig, isSome_some]
  refine ⟨sigs, htree, hb, ?_, length_block hsigs, fun i message hi => ?_⟩
  · rw [generateBatchedSignatures, hmod, hmin, htree, hroot]
    exact hsigs
  · obtain ⟨signature, hsig, h⟩ := hpath i message hi
    refine ⟨signature, ?_, h⟩
    rw [getElem?_block hsigs (List.getElem?_eq_some_iff.mp hi).1, Nat.zero_add, hsig]

/-- A hash function that numbers the strings of a list. -/
def tableHash (table : List Bytes) : HashFn where
  hash x := UInt8.ofNat (table.idxOf x) :: List.replicate 31 0
  length_hash _ := rfl

/-- The hash of string number `k`. -/
def numbered (k : UInt8) : Bytes := k :: List.replicate 31 0

def headSigner : Signer where
  sigSize := 1
  sign x := [x.headD 0]
  length_sign _ := rfl

end RoundTrip

section Binding

variable (H : HashFn) (beyond : Nat → UInt8)

/-- A piece of a string that is at a multiple of the size of a hash. -/
def HasPiece (s piece : Bytes) : Prop :=
  ∃ k, (k + 1) * hashSize ≤ s.length ∧ (s.drop (k * hashSize)).take hashSize = piece

/-- The value is the hash of the message, or of a string with a piece that the message is hashed into. -/
inductive HashedInto (message : Bytes) : Bytes → Prop
  | leaf : HashedInto message (H.hash message)
  | node {s piece : Bytes} (h : HasPiece s piece) (hp : HashedInto message piece) : HashedInto message (H.hash s)

/-- The signature names a message of the batch it claims to be for, and the positions of that fit. -/
def InBatch (sigSize m : Nat) (signature : Bytes) : Prop :=
  let n := unpackInt (bytesFrom beyond signature sigSize 4)
  let i := unpackInt (bytesFrom beyond signature (sigSize + 4) 4)
  ∃ base, minLeaf n m = some base ∧ i < n ∧ Fits m (base + n - 1)

variable {H beyond}

theorem mem_of_hasPiece {piece : Bytes} (hlen : ∀ x ∈ b, x.length = hashSize)
    (h : HasPiece b.flatten piece) : piece ∈ b := by
  obtain ⟨k, hk, rfl⟩ := h
  rw [length_flatten_of hlen] at hk
  have hlt : k < b.length := Nat.le_of_mul_le_mul_right hk (by decide)
  have hget := List.getElem?_eq_getElem hlt
  obtain ⟨before, after, hsplit, hbefore⟩ := flatten_split hlen hget
  have hsize := hlen _ (getElem_mem hlt)
  rw [hsplit, append_assoc, drop_left' hbefore, take_left' hsize]
  exact getElem_mem hlt

def hashedBlocks (H : HashFn) (m : UInt64) (batch : List Bytes) : List Bytes :=
  match batchTree H m batch with
  | some (_, blocks) => blocks.map List.flatten
  | none => []

/-- Nothing else has the hash of one of these strings. -/
def Unforged (H : HashFn) (strings : List Bytes) : Prop :=
  ∀ y ∈ strings, ∀ x, H.hash x = H.hash y → x = y

section Batch

variable {batch : List Bytes} {tree : Nat → Option Bytes} {blocks : List (List Bytes)} {message root signature : Bytes}

/-- A value that leads to a hash of the tree is one itself, unless a message holds what is taken for a block of hashes.
-/
theorem climb_bound {m M start j h : Nat} {hash : Bytes}
    (hlog : HeapTree.Logged (fun hashes => H.hash hashes.flatten) (fun x => ∃ b ∈ batch, x = H.hash b) tree blocks)
    (hinj : Unforged H (batch ++ blocks.map List.flatten)) (hroot : tree 0 = some root) (hf : Fits m M) (hj : j ≤ M)
    (hclimb : climb H beyond m M signature start fuel j h hash = some root) (hmsg : HashedInto H message hash)
    (hfuel : j ≤ fuel) :
    FromLog (fun hashes => H.hash hashes.flatten) (fun x => ∃ b ∈ batch, x = H.hash b) blocks hash ∨
      ∃ b ∈ batch, ∃ piece, HasPiece b piece ∧ HashedInto H message piece := by
  induction fuel generalizing j h hash with
  | zero =>
    cases hclimb
    exact .inl (hlog.nodes 0 _ hroot)
  | succ fuel ih =>
    rw [climb] at hclimb
    split at hclimb
    · cases hclimb
      exact .inl (hlog.nodes 0 _ hroot)
    split at hclimb
    · cases hclimb
    dsimp only at hclimb
    split at hclimb
    · cases hclimb
    split at hclimb
    · cases hclimb
    rename_i hread _
    have hown := Classical.not_not.mp (not_or.mp hread).2
    have hle := first_le (m := m) (j := j) (by omega)
    have hin := lt_first_add (m := m) (j := j) (by omega)
    have hup := parent_lt (m := m) (j := j) (by omega)
    rw [siblingCount_eq (by omega) hf (by omega) hj, Int.toNat_natCast] at hclimb
    have hlt : j - first m j < siblings m M j := by
      rw [siblings]
      omega
    -- the hash is in the block that is hashed next
    have hpiece : HasPiece (bytesFrom beyond signature (start + h * hashSize) (siblings m M j * hashSize)) hash := by
      have hmul := Nat.mul_le_mul_right hashSize hlt
      refine ⟨j - first m j, by rw [length_bytesFrom]; exact hmul, ?_⟩
      rw [take_drop_bytesFrom _ (by rw [← Nat.add_one_mul]; exact hmul), Nat.add_assoc, ← Nat.add_mul, hown]
    rcases ih (by omega) hclimb (.node hpiece hmsg) (by omega) with (⟨b, hb, heq⟩ | ⟨b, hb, heq⟩) | hheld
    · -- the block is a message of the batch
      have hsame := hinj b (mem_append_left _ hb) _ heq
      exact .inr ⟨b, hb, hash, hsame ▸ hpiece, hmsg⟩
    · -- the block is one of the tree
      have hsame := hinj b.flatten (mem_append_right _ (mem_map_of_mem hb)) _ heq
      refine .inl (hlog.blocks b hb hash (mem_of_hasPiece (fun x hx => ?_) (hsame ▸ hpiece)))
      rcases hlog.blocks b hb x hx with ⟨y, -, rfl⟩ | ⟨y, -, rfl⟩ <;> exact H.length_hash _
    · exact .inr hheld

/-- A message accepted with the root hash of a batch is one of the batch, the string of hashes of an inner node, or
hashed into a piece of a message. -/
theorem message_bound {m : UInt64} {sigSize : Nat} {rootSig : Bytes} (hroot : rootHash H m batch = some root)
    (hinj : Unforged H (batch ++ hashedBlocks H m batch)) (hin : InBatch beyond sigSize m.toNat signature)
    (hacc : computeBatchedSignatureHash H beyond sigSize m signature message = some (root, rootSig)) :
    message ∈ batch ∨ message ∈ hashedBlocks H m batch ∨
      ∃ b ∈ batch, ∃ piece, HasPiece b piece ∧ HashedInto H message piece := by
  obtain ⟨⟨tree, blocks⟩, htree, htop⟩ := bind_eq_some_iff.mp hroot
  simp only [hashedBlocks, htree] at hinj ⊢
  obtain ⟨base, hmin, hlt, hf⟩ := hin
  rw [computeBatchedSignatureHash] at hacc
  split at hacc
  · cases hacc
  rw [hmin] at hacc
  obtain ⟨hash, hclimb, heq⟩ := map_eq_some_iff.mp hacc
  cases heq
  generalize unpackInt (bytesFrom beyond signature sigSize 4) = n at *
  generalize unpackInt (bytesFrom beyond signature (sigSize + 4) 4) = i at *
  have hfit := hf.1
  have hj : (toInt (base + i)).toNat = base + i := by
    rw [toInt_of_lt] <;> omega
  rw [maxLeaf_eq (by omega) (by omega), hj] at hclimb
  rcases climb_bound (logged_batchTree htree) hinj htop hf (by omega) hclimb .leaf (Nat.le_refl _) with
    (⟨b, hb, heq⟩ | ⟨b, hb, heq⟩) | hheld
  · exact .inl (hinj b (mem_append_left _ hb) _ heq ▸ hb)
  · have hmem := mem_map_of_mem (f := List.flatten) hb
    exact .inr (.inl (hinj b.flatten (mem_append_right _ hmem) _ heq ▸ hmem))
  · exact .inr (.inr hheld)

end Batch

theorem unforged_tableHash {table : List Bytes} (hlen : table.length < 256) : Unforged (tableHash table) table := by
  intro y hy x heq
  have hhead : UInt8.ofNat (table.idxOf x) = UInt8.ofNat (table.idxOf y) := (List.cons.inj heq).1
  have hx := idxOf_le_length (l := table) (a := x)
  have hy' := idxOf_le_length (l := table) (a := y)
  have hidx : table.idxOf y = table.idxOf x := by
    have := congrArg UInt8.toNat hhead
    rw [UInt8.toNat_ofNat', UInt8.toNat_ofNat'] at this
    omega
  exact ((idxOf_inj hy).mp hidx).symm

def twoMessages : HashFn := tableHash [[1], [2], numbered 0 ++ numbered 1, [9]]

def hashesInMessage : HashFn := tableHash [[7], [8], numbered 0 ++ numbered 1]

/-- Accepted without being in the batch: the string of hashes at the root; a message whose hash a message of the batch
begins with; any message, with an index behind the end, as its hash is compared behind the block. -/
theorem accepted_outside_batch : (Unforged twoMessages ([[1], [2]] ++ hashedBlocks twoMessages 2 [[1], [2]]) ∧
      rootHash twoMessages 2 [[1], [2]] = some (numbered 2) ∧
      computeBatchedSignatureHash twoMessages (fun _ => 0) 1 2 ([2] ++ packInt 1 ++ packInt 0)
        (numbered 0 ++ numbered 1) = some (numbered 2, headSigner.sign (numbered 2)) ∧
      numbered 0 ++ numbered 1 ∉ ([[1], [2]] : List Bytes)) ∧
    (Unforged hashesInMessage
        ([numbered 0 ++ numbered 1] ++ hashedBlocks hashesInMessage 2 [numbered 0 ++ numbered 1]) ∧
      rootHash hashesInMessage 2 [numbered 0 ++ numbered 1] = some (numbered 2) ∧
      computeBatchedSignatureHash hashesInMessage (fun _ => 0) 1 2
        ([2] ++ packInt 2 ++ packInt 0 ++ numbered 0 ++ numbered 1) [7] =
          some (numbered 2, headSigner.sign (numbered 2)) ∧ [7] ∉ [numbered 0 ++ numbered 1]) ∧
    (Unforged twoMessages ([[1], [2]] ++ hashedBlocks twoMessages 3 [[1], [2]]) ∧
      rootHash twoMessages 3 [[1], [2]] = some (numbered 2) ∧ computeBatchedSignatureHash twoMessages (fun _ => 0) 1 3
        ([2] ++ packInt 2 ++ packInt 2 ++ numbered 0 ++ numbered 1 ++ numbered 3) [9] =
          some (numbered 2, headSigner.sign (numbered 2)) ∧ [9] ∉ ([[1], [2]] : List Bytes)) := by
  have hsub : ∀ {table strings : List Bytes}, table.length < 256 → strings ⊆ table →
      Unforged (tableHash table) strings :=
    fun hlen hsub y hy => unforged_tableHash hlen y (hsub hy)
  refine ⟨⟨hsub (by decide) ?_, ?_⟩, ⟨hsub (by decide) ?_, ?_⟩, hsub (by decide) ?_, ?_⟩ <;> decide +kernel

theorem message_bound_twoMessages : [1] ∈ ([[1], [2]] : List Bytes) ∨ [1] ∈ hashedBlocks twoMessages 2 [[1], [2]] ∨
    ∃ b ∈ ([[1], [2]] : List Bytes), ∃ piece, HasPiece b piece ∧ HashedInto twoMessages [1] piece := by
  have hsub : [[1], [2]] ++ hashedBlocks twoMessages 2 [[1], [2]] ⊆ [[1], [2], numbered 0 ++ numbered 1, [9]] := by
    decide +kernel
  have hin : InBatch (fun _ => 0) 1 2 ([2] ++ packInt 2 ++ packInt 0 ++ numbered 0 ++ numbered 1) :=
    ⟨1, by decide +kernel, by decide +kernel, by decide +kernel, by decide +kernel⟩
  have hacc : computeBatchedSignatureHash twoMessages (fun _ => 0) 1 2
      ([2] ++ packInt 2 ++ packInt 0 ++ numbered 0 ++ numbered 1) [1] = some (numbered 2, [2]) := by
    decide +kernel
  exact message_bound (by decide +kernel) (fun y hy => unforged_tableHash (by decide) y (hsub hy)) hin hacc

end Binding

end Pequin
