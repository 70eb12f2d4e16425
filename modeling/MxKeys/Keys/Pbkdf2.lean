/-
# MxKeys.Keys.Pbkdf2 — the key derivation of the key file.

`pbkdf2SHA256` computes each block in two buffers that it keeps from block to block: `u` holds the
exclusive or so far and `prev` the last output of the PRF.  RFC 2898 has no buffers: a block is the
exclusive or of a sequence, and the derived key is the beginning of all blocks in a row.
`pbkdf2_eq` says that the code computes just that, for every PRF with outputs of 32 bytes;
HMAC-SHA256 is one.  What a buffer held before a block does not matter, since `copy` overwrites all
of it.
-/
import MxKeys.Lib.Digest

namespace MxKeys.Pbkdf2

open MxKeys.Lib
open List

/-- `sha256.Size`. -/
def hashLen : Nat := 32

/-- A keyed hash with outputs of `hashLen` bytes, in the place of HMAC-SHA256. -/
structure Prf where
  sum : (key message : Bytes) → Bytes
  length_sum : ∀ key message, (sum key message).length = hashLen

/-! ## The code -/

/-- `copy(dst, src)`. -/
def copy (dst src : Bytes) : Bytes := src.take dst.length ++ dst.drop src.length

/-- The buffers `u` and `prev`. -/
structure Buffers where
  u : Bytes
  prev : Bytes

/-- `u[k] ^= sum[k]` for every `k`. -/
def xorInto (u sum : Bytes) : Bytes :=
  (range hashLen).foldl (fun u k => u.modify k (· ^^^ sum.getD k 0)) u

/-- The loop body over `j`. -/
def iterate (prf : Prf) (password : Bytes) (b : Buffers) : Buffers :=
  let sum := prf.sum password b.prev
  ⟨xorInto b.u sum, copy b.prev sum⟩

/-- The loop body over `i`, without the `append`. -/
def block (prf : Prf) (password salt : Bytes) (iter : Nat) (b : Buffers) (i : Nat) : Buffers :=
  let sum := prf.sum password (salt ++ Digest.be32 (UInt32.ofNat i))
  (List.range' 2 (iter - 1)).foldl (fun b _ => iterate prf password b)
    ⟨copy b.u sum, copy b.prev sum⟩

/-- The loop body over `i`: the block is appended to `out`. -/
def appendBlock (prf : Prf) (password salt : Bytes) (iter : Nat) (s : Bytes × Buffers)
    (i : Nat) : Bytes × Buffers :=
  let b := block prf password salt iter s.2 i
  (s.1 ++ b.u, b)

/-- `pbkdf2.Key` with SHA-256. -/
def pbkdf2SHA256 (prf : Prf) (password salt : Bytes) (iter keyLen : Nat) : Bytes :=
  let iter := if iter < 1 then 1 else iter
  let blocks := (keyLen + hashLen - 1) / hashLen
  let zeros := replicate hashLen 0
  let out := (List.range' 1 blocks).foldl (appendBlock prf password salt iter) ([], ⟨zeros, zeros⟩)
  out.1.take keyLen

/-! ## The definition -/

/-- `INT(i)`: four bytes, most significant first. -/
def int32 (i : Nat) : Bytes :=
  [UInt8.ofNat (i / 16777216), UInt8.ofNat (i / 65536), UInt8.ofNat (i / 256), UInt8.ofNat i]

/-- `U_1, U_2, ...` of block `i`; the last argument counts from zero. -/
def U (prf : Prf) (password salt : Bytes) (i : Nat) : Nat → Bytes
  | 0 => prf.sum password (salt ++ int32 i)
  | j + 1 => prf.sum password (U prf password salt i j)

/-- `T_i`, the exclusive or of `U_1`, ..., `U_c`. -/
def T (prf : Prf) (password salt : Bytes) (c i : Nat) : Bytes :=
  (range c).foldl (fun t j => zipWith (· ^^^ ·) t (U prf password salt i j))
    (replicate hashLen 0)

/-! ## The buffers -/

/-- All of a buffer is overwritten. -/
theorem copy_eq {dst src : Bytes} (h : dst.length = src.length) : copy dst src = src := by
  rw [copy, take_of_length_le (Nat.le_of_eq h.symm), drop_of_length_le (Nat.le_of_eq h),
    append_nil]

theorem xorInto_eq {u sum : Bytes} (hu : u.length = hashLen) (hs : sum.length = hashLen) :
    xorInto u sum = zipWith (· ^^^ ·) u sum := by
  -- after `n` rounds the first `n` bytes are done
  have hloop : ∀ n k : Nat, ((range n).foldl
      (fun u k => u.modify k (· ^^^ sum.getD k 0)) u)[k]? =
        if k < n then u[k]?.map (· ^^^ sum.getD k 0) else u[k]? := by
    intro n k
    induction n with
    | zero => rfl
    | succ n ih =>
      rw [range_succ, foldl_append, foldl_cons, foldl_nil, getElem?_modify,
        ih]
      by_cases hk : n = k
      · subst hk
        simp
      · have hlt : k < n + 1 ↔ k < n := by omega
        simp [hk, hlt]
  refine ext_getElem? fun k => ?_
  rw [xorInto, hloop, getElem?_zipWith]
  by_cases hk : k < hashLen
  · simp [hk, hu, hs]
  · simp [hk, hu]

variable {prf : Prf} {password salt : Bytes}

theorem length_U (i j : Nat) : (U prf password salt i j).length = hashLen := by
  cases j <;> exact prf.length_sum ..

theorem T_succ (c i : Nat) : T prf password salt (c + 1) i =
    zipWith (· ^^^ ·) (T prf password salt c i) (U prf password salt i c) := by
  rw [T, range_succ, foldl_append]
  rfl

theorem length_T (c i : Nat) : (T prf password salt c i).length = hashLen := by
  induction c with
  | zero => rfl
  | succ c ih => rw [T_succ, length_zipWith, ih, length_U, Nat.min_self]

theorem T_one (i : Nat) : T prf password salt 1 i = U prf password salt i 0 := by
  rw [T_succ]
  refine ext_getElem (by rw [length_zipWith, length_T, length_U, Nat.min_self]) ?_
  intro k _ _
  simp [T]

theorem be32_ofNat (i : Nat) : Digest.be32 (UInt32.ofNat i) = int32 i := by
  simp only [Digest.be32, int32, cons.injEq, and_true, ← UInt8.toNat_inj]
  simp [Nat.shiftRight_eq_div_pow]
  omega

/-- **The inner loop**: after `j` rounds `u` is the exclusive or of `j + 1` outputs, and `prev` is
the last of them. -/
theorem iterate_eq (l : List Nat) (i j : Nat) :
    l.foldl (fun b _ => iterate prf password b)
      ⟨T prf password salt (j + 1) i, U prf password salt i j⟩ =
      ⟨T prf password salt (j + l.length + 1) i, U prf password salt i (j + l.length)⟩ := by
  induction l generalizing j with
  | nil => rfl
  | cons _ l ih =>
    have hstep : iterate prf password ⟨T prf password salt (j + 1) i, U prf password salt i j⟩ =
        ⟨T prf password salt (j + 1 + 1) i, U prf password salt i (j + 1)⟩ := by
      have hsum : prf.sum password (U prf password salt i j) = U prf password salt i (j + 1) := rfl
      rw [iterate, hsum, xorInto_eq (length_T ..) (length_U ..), ← T_succ,
        copy_eq ((length_U ..).trans (length_U ..).symm)]
    rw [foldl_cons, hstep, ih, length_cons, Nat.add_right_comm j 1, Nat.add_assoc j]

/-- The buffers have the length of a hash. -/
def Buffers.Sized (b : Buffers) : Prop := b.u.length = hashLen ∧ b.prev.length = hashLen

theorem block_eq {c : Nat} (hc : 1 ≤ c) {b : Buffers} (hb : b.Sized) (i : Nat) :
    block prf password salt c b i =
      ⟨T prf password salt c i, U prf password salt i (c - 1)⟩ := by
  have hsum : prf.sum password (salt ++ Digest.be32 (UInt32.ofNat i)) =
      U prf password salt i 0 := by
    rw [be32_ofNat]
    rfl
  rw [block, hsum, copy_eq (hb.1.trans (length_U ..).symm), copy_eq (hb.2.trans (length_U ..).symm)]
  have hloop : (List.range' 2 (c - 1)).foldl (fun b _ => iterate prf password b)
      ⟨T prf password salt 1 i, U prf password salt i 0⟩ = _ := iterate_eq _ i 0
  rw [T_one, length_range', Nat.zero_add, Nat.sub_add_cancel hc] at hloop
  exact hloop

/-- **The outer loop** appends one block after the other. -/
theorem appendBlock_eq {c : Nat} (hc : 1 ≤ c) (l : List Nat) (out : Bytes) {b : Buffers}
    (hb : b.Sized) : (l.foldl (appendBlock prf password salt c) (out, b)).1 =
      out ++ l.flatMap (T prf password salt c) := by
  induction l generalizing out b with
  | nil => rw [flatMap_nil, append_nil]; rfl
  | cons i l ih =>
    rw [foldl_cons, appendBlock, block_eq hc hb]
    refine (ih _ ⟨length_T .., length_U ..⟩).trans ?_
    rw [flatMap_cons, append_assoc]

theorem length_blocks (c s n : Nat) :
    ((List.range' s n).flatMap (T prf password salt c)).length = n * hashLen := by
  rw [length_flatMap]
  simp [length_T]

/-- **PBKDF2 as defined**: the derived key is the beginning of `T_1 || T_2 || ...`, however many
blocks beyond the last one it reaches are written down. -/
theorem pbkdf2_eq {c : Nat} (hc : 1 ≤ c) {keyLen n : Nat} (hn : keyLen ≤ n * hashLen) :
    pbkdf2SHA256 prf password salt c keyLen =
      ((List.range' 1 n).flatMap (T prf password salt c)).take keyLen := by
  have hblocks : (keyLen + hashLen - 1) / hashLen ≤ n ∧
      keyLen ≤ (keyLen + hashLen - 1) / hashLen * hashLen := by
    unfold hashLen at *
    omega
  obtain ⟨k, rfl⟩ := Nat.exists_eq_add_of_le hblocks.1
  have hzeros : (⟨replicate hashLen 0, replicate hashLen 0⟩ : Buffers).Sized :=
    ⟨length_replicate, length_replicate⟩
  rw [pbkdf2SHA256, if_neg (Nat.not_lt.2 hc), appendBlock_eq hc _ _ hzeros, nil_append,
    ← range'_append_1, flatMap_append, take_append_of_le_length]
  rw [length_blocks]
  exact hblocks.2

/-- HMAC-SHA256. -/
def hmac : Prf := ⟨Digest.hmacSHA256, Digest.length_hmacSHA256⟩

theorem pbkdf2_eq_hmac : 1 ≤ 10000 ∧ 40 ≤ 2 * hashLen ∧
    pbkdf2SHA256 hmac [1, 2] [3] 10000 40 =
      ((List.range' 1 2).flatMap (T hmac [1, 2] [3] 10000)).take 40 :=
  ⟨by decide, by decide, pbkdf2_eq (by decide) (by decide)⟩

end MxKeys.Pbkdf2
