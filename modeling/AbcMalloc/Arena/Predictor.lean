import Mathlib.Algebra.BigOperators.Group.Finset.Basic
import Mathlib.Algebra.BigOperators.Intervals
import Mathlib.Algebra.Order.BigOperators.Group.Finset
import Mathlib.Tactic

/-! `alloc_predictor` of `prediction.hpp`: the mean of the last 32 expansion sizes, kept as a
running sum and a running count of the sizes that are not zero. `__max_cached` is 32 and
`__system_pagesize` is 4096; `u64` and `usize` arithmetic is taken modulo `2^64`. -/
namespace AbcMalloc.Arena
open Function Finset

structure Predictor where
  allocs : ℕ → ℕ
  runningSum : ℕ
  runningDiv : ℕ
  index : ℕ

namespace Predictor

def init : Predictor := ⟨fun _ => 0, 0, 0, 0⟩

/-- `operator+=`. -/
def add (p : Predictor) (n : ℕ) : Predictor :=
  let old := p.allocs p.index
  { allocs := update p.allocs p.index n
    runningSum := (p.runningSum + (2 ^ 64 - old) + n) % 2 ^ 64
    runningDiv :=
      (p.runningDiv + (2 ^ 64 - if old ≠ 0 then 1 else 0) + if n ≠ 0 then 1 else 0) % 2 ^ 64
    index := (p.index + 1) &&& 31 }

/-- The running values are those of the window. -/
structure Good (p : Predictor) : Prop where
  index : p.index < 32
  usize : ∀ i, p.allocs i < 2 ^ 64
  sum : p.runningSum = (∑ i ∈ range 32, p.allocs i) % 2 ^ 64
  div : p.runningDiv = ∑ i ∈ range 32, if p.allocs i ≠ 0 then 1 else 0

theorem sum_update_add {f : ℕ → ℕ} {k i : ℕ} (hi : i < k) (n : ℕ) :
    ∑ j ∈ range k, update f i n j + f i = ∑ j ∈ range k, f j + n := by
  have hmem : i ∈ range k := mem_range.2 hi
  rw [sum_update_of_mem hmem, sdiff_singleton_eq_erase, ← add_sum_erase _ f hmem]
  omega

theorem count_le (f : ℕ → ℕ) (k : ℕ) : (∑ i ∈ range k, if f i ≠ 0 then 1 else 0) ≤ k := by
  calc (∑ i ∈ range k, if f i ≠ 0 then 1 else 0) ≤ ∑ _i ∈ range k, 1 :=
        sum_le_sum fun i _ => by split_ifs <;> omega
    _ = k := by simp

theorem Good.add {p : Predictor} (hp : p.Good) {n : ℕ} (hn : n < 2 ^ 64) : (p.add n).Good := by
  refine ⟨?_, fun i => ?_, ?_, ?_⟩
  · exact Nat.and_lt_two_pow _ (by decide : 31 < 2 ^ 5)
  · simp only [Predictor.add, update_apply]
    split_ifs
    · exact hn
    · exact hp.usize i
  · have hsum := sum_update_add (f := p.allocs) hp.index n
    have hold := hp.usize p.index
    simp only [Predictor.add, hp.sum]
    omega
  · have hpush : (fun j => if update p.allocs p.index n j ≠ 0 then 1 else 0) =
        update (fun i => if p.allocs i ≠ 0 then 1 else 0) p.index (if n ≠ 0 then 1 else 0) := by
      funext j
      simp only [update_apply]
      split_ifs <;> rfl
    have hsum : (∑ j ∈ range 32, if update p.allocs p.index n j ≠ 0 then 1 else 0) +
        (if p.allocs p.index ≠ 0 then 1 else 0) =
        (∑ i ∈ range 32, if p.allocs i ≠ 0 then 1 else 0) + if n ≠ 0 then 1 else 0 := by
      rw [hpush]
      exact sum_update_add hp.index _
    have hle := count_le p.allocs 32
    have hle' := count_le (update p.allocs p.index n) 32
    have hold : (if p.allocs p.index ≠ 0 then 1 else 0) ≤ 1 := by split_ifs <;> omega
    simp only [Predictor.add, hp.div]
    omega

end Predictor
end AbcMalloc.Arena
