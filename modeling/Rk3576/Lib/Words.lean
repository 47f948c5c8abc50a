import Mathlib.Algebra.Group.Nat.Defs
import Rk3576.Lib.Bytes

/-! 64-bit little-endian words in a memory of bytes. -/
namespace Rk3576.Words
open Rk3576.Bytes

def leVal : List (BitVec 8) → Nat
  | [] => 0
  | b :: bs => b.toNat + 256 * leVal bs

def leBytes (v : Nat) : Nat → List (BitVec 8)
  | 0 => []
  | w + 1 => BitVec.ofNat 8 v :: leBytes (v / 256) w

def word (m : Nat → BitVec 8) (a : Nat) : Nat := leVal (slice m a 8)

def setWord (m : Nat → BitVec 8) (a v : Nat) : Nat → BitVec 8 := blit m a (leBytes v 8)

@[simp] theorem leBytes_length (v w : Nat) : (leBytes v w).length = w := by
  induction w generalizing v with
  | zero => rfl
  | succ w ih => simp [leBytes, ih]

theorem leVal_leBytes (v w : Nat) (h : v < 256 ^ w) : leVal (leBytes v w) = v := by
  induction w generalizing v with
  | zero =>
    have hv : v = 0 := by simpa using h
    simp [leVal, leBytes, hv]
  | succ w ih =>
    have hdiv : v / 256 < 256 ^ w := by
      apply Nat.div_lt_of_lt_mul
      rwa [Nat.mul_comm, ← Nat.pow_succ]
    rw [leBytes, leVal, ih _ hdiv, BitVec.toNat_ofNat]
    exact Nat.mod_add_div v 256

theorem word_setWord {m : Nat → BitVec 8} {a v : Nat} (h : v < 2 ^ 64) :
    word (setWord m a v) a = v := by
  have hs : slice (blit m a (leBytes v 8)) a 8 = leBytes v 8 := by
    simpa using slice_blit (m := m) (o := a) (leBytes v 8)
  rw [word, setWord, hs, leVal_leBytes v 8 h]

theorem word_congr {m m' : Nat → BitVec 8} {a : Nat} (h : ∀ x, a ≤ x → x < a + 8 → m x = m' x) :
    word m a = word m' a := by
  rw [word, word, slice_congr h]

theorem setWord_apply {m : Nat → BitVec 8} {a v x : Nat} (h : x < a ∨ a + 8 ≤ x) :
    setWord m a v x = m x :=
  blit_of_not_mem (by simpa using h)

theorem word_setWord_of_disjoint {m : Nat → BitVec 8} {a b v : Nat} (h : a + 8 ≤ b ∨ b + 8 ≤ a) :
    word (setWord m b v) a = word m a := by
  apply word_congr
  intro x hx hx'
  exact setWord_apply (by omega)

end Rk3576.Words
