import Mathlib.Logic.Function.Basic
import Mathlib.Tactic

/-! Little-endian words in a memory of bytes. A load sees the last store to the same place, and
stores elsewhere are not seen; words that overlap in part are mixed byte by byte. -/
namespace AbcMalloc.Foundation
open Function

abbrev Bytes := ℕ → BitVec 8

namespace Bytes

def load (m : Bytes) (a : ℕ) : ℕ → ℕ
  | 0 => 0
  | n + 1 => (m a).toNat + 256 * load m (a + 1) n

def store (m : Bytes) (a : ℕ) : ℕ → ℕ → Bytes
  | 0, _ => m
  | n + 1, v => store (update m a (BitVec.ofNat 8 v)) (a + 1) n (v / 256)

variable {m m' : Bytes} {a b n k x v : ℕ}

theorem load_congr (h : ∀ x, b ≤ x → x < b + k → m x = m' x) : load m b k = load m' b k := by
  induction k generalizing b with
  | zero => rfl
  | succ k ih =>
    rw [load, load, h b le_rfl (by omega), ih fun x hlo hhi => h x (by omega) (by omega)]

theorem store_of_outside (hx : x < a ∨ a + n ≤ x) : store m a n v x = m x := by
  induction n generalizing m a v with
  | zero => rfl
  | succ n ih =>
    rw [store, ih (by omega), update_of_ne (by omega)]

theorem load_store_of_apart (h : a + n ≤ b ∨ b + k ≤ a) :
    load (store m a n v) b k = load m b k :=
  load_congr fun _ hlo hhi => store_of_outside (by omega)

theorem load_store (m : Bytes) (a n v : ℕ) : load (store m a n v) a n = v % 256 ^ n := by
  induction n generalizing m a v with
  | zero => rw [load, pow_zero, Nat.mod_one]
  | succ n ih =>
    rw [load, store, ih, store_of_outside (by omega), update_self, BitVec.toNat_ofNat]
    change v % 256 + 256 * (v / 256 % 256 ^ n) = v % 256 ^ (n + 1)
    rw [Nat.pow_succ, Nat.mul_comm (256 ^ n) 256, Nat.mod_mul]

end Bytes
end AbcMalloc.Foundation
