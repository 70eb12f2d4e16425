/-
# MxKeys.Lib.Utf8Order — bytes and characters sort alike.

Go compares strings byte by byte.  UTF-8 is made so that this is the order of the code points: the
first byte of a longer encoding is larger, and inside one length the bytes are the digits of the
code point, the most significant first.
-/
import MxKeys.Lib.Utf8
import Mathlib.Data.List.Lex
import Mathlib.Data.Char
import Mathlib.Data.List.Sort

namespace MxKeys.Lib.Utf8

open List

/-- Two encodings whose first bytes are the given numbers. -/
theorem ofNat_cons_lt {m n : Nat} (hm : m < 256) (hn : n < 256) {xs ys : Bytes} (hle : m ≤ n)
    (h : m = n → xs < ys) : UInt8.ofNat m :: xs < UInt8.ofNat n :: ys := by
  rw [cons_lt_cons_iff, UInt8.lt_iff_toNat_lt, UInt8.toNat_ofNat', UInt8.toNat_ofNat',
    Nat.mod_eq_of_lt hm, Nat.mod_eq_of_lt hn]
  exact hle.lt_or_eq.imp_right fun heq => ⟨congrArg _ heq, h heq⟩

theorem toNat_lt (c : Char) : c.val.toNat < 1114112 := by
  rcases c.valid with h | h <;> omega

/-- The encoding of a smaller character is smaller, whatever follows. -/
theorem encodeChar_lt {c d : Char} (h : c < d) (xs ys : Bytes) :
    String.utf8EncodeChar c ++ xs < String.utf8EncodeChar d ++ ys := by
  have hcd : c.val.toNat < d.val.toNat := h
  have hd := toNat_lt d
  unfold String.utf8EncodeChar
  generalize c.val.toNat = v at *
  generalize d.val.toNat = w at *
  dsimp only
  split_ifs <;> simp only [cons_append, nil_append]
  -- byte by byte: a pair of bytes decides unless the two are equal
  iterate 4
    all_goals first
      | omega
      | refine ofNat_cons_lt (by omega) (by omega) (by omega) fun _ => ?_
  all_goals omega

theorem encode_lt_of_lt : ∀ {a b : Text}, a < b → encode a < encode b
  | [], [], h => absurd h (lt_irrefl _)
  | [], d :: b, _ => by
    obtain ⟨x, xs, hx⟩ := exists_cons_of_ne_nil (encode_ne_nil (cons_ne_nil d b))
    rw [hx]
    exact nil_lt_cons x xs
  | _ :: _, [], h => absurd h (not_lt_nil _)
  | c :: a, d :: b, h => by
    rw [encode_cons, encode_cons]
    rcases cons_lt_cons_iff.1 h with hlt | ⟨rfl, hlt⟩
    · exact encodeChar_lt hlt _ _
    · exact append_left_lt (encode_lt_of_lt hlt)

/-- **Byte order is code point order.** -/
theorem encode_lt_iff {a b : Text} : encode a < encode b ↔ a < b := by
  refine ⟨fun h => ?_, encode_lt_of_lt⟩
  rcases lt_trichotomy a b with hlt | rfl | hgt
  · exact hlt
  · exact absurd h (List.lt_irrefl _)
  · exact absurd h (List.lt_asymm (encode_lt_of_lt hgt))

/-! ## Sorting -/

/-- `sort.Strings`: by bytes. -/
def sortStrings (names : List Text) : List Text :=
  names.insertionSort fun a b => ¬encode b < encode a

/-- Names that come in any order are sorted into the order of their code points. -/
theorem sortStrings_of_perm {names sorted : List Text} (hperm : names.Perm sorted)
    (hsorted : sorted.Pairwise (· < ·)) : sortStrings names = sorted := by
  have hle : ∀ a b : Text, ¬encode b < encode a ↔ a ≤ b :=
    fun a b => by rw [encode_lt_iff, not_lt]
  have : Std.Total fun a b : Text => ¬encode b < encode a :=
    ⟨fun a b => by rw [hle, hle]; exact le_total a b⟩
  have : IsTrans Text fun a b => ¬encode b < encode a :=
    ⟨fun a b c hab hbc => (hle a c).2 (le_trans ((hle a b).1 hab) ((hle b c).1 hbc))⟩
  refine Perm.eq_of_pairwise (fun a b _ _ hab hba => ?_) (pairwise_insertionSort _ names)
    (hsorted.imp fun h => (hle _ _).2 (le_of_lt h)) ((perm_insertionSort _ names).trans hperm)
  exact le_antisymm ((hle a b).1 hab) ((hle b a).1 hba)

end MxKeys.Lib.Utf8
