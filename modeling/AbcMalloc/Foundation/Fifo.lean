import Mathlib.Tactic

/-! Bounded first-in first-out queues, and their refinement by a circular buffer: the pending
elements carry consecutive numbers, and number `i` lives in cell `i % N`. -/
namespace AbcMalloc.Foundation

structure Fifo (α : Type*) (N : ℕ) where
  items : List α
  bounded : items.length ≤ N

namespace Fifo
variable {α : Type*} {N : ℕ}

def empty (α : Type*) (N : ℕ) : Fifo α N := ⟨[], Nat.zero_le N⟩

def push (f : Fifo α N) (a : α) : Fifo α N :=
  if h : f.items.length < N then ⟨f.items ++ [a], by rw [List.length_append]; exact h⟩ else f

def pop (f : Fifo α N) : Fifo α N := ⟨f.items.tail, by
  rw [List.length_tail]
  exact le_trans (Nat.sub_le _ _) f.bounded⟩

theorem push_items {f : Fifo α N} (h : f.items.length < N) (a : α) :
    (f.push a).items = f.items ++ [a] := by
  rw [push, dif_pos h]

theorem push_of_full {f : Fifo α N} (h : f.items.length = N) (a : α) : f.push a = f := by
  rw [push, dif_neg (by omega)]

end Fifo

/-! ## Circular buffers -/

section Window
variable {α : Type*} {N h i j : ℕ}

/-- Numbers of one window have different cells. -/
theorem mod_ne_of_window (hi : h ≤ i) (hi' : i < h + N) (hj : h ≤ j) (hj' : j < h + N)
    (hne : i ≠ j) : i % N ≠ j % N := by
  intro he
  rcases lt_or_gt_of_ne hne with hlt | hlt
  · have := Nat.le_of_dvd (by omega) ((Nat.modEq_iff_dvd' hlt.le).1 he)
    omega
  · have := Nat.le_of_dvd (by omega) ((Nat.modEq_iff_dvd' hlt.le).1 he.symm)
    omega

/-- The elements of `l`, numbered from `h`, are in their cells. -/
def Stored (cells : ℕ → α) (N h : ℕ) (l : List α) : Prop :=
  ∀ j (hj : j < l.length), cells ((h + j) % N) = l[j]

variable {cells : ℕ → α} {l : List α} {a : α}

open Function in
theorem Stored.append (hs : Stored cells N h l) (hroom : l.length < N) :
    Stored (update cells ((h + l.length) % N) a) N h (l ++ [a]) := by
  intro j hj
  rw [List.length_append, List.length_singleton] at hj
  by_cases hlast : j = l.length
  · subst hlast
    rw [update_self, List.getElem_concat_length rfl]
  · have hlt : j < l.length := by omega
    rw [update_of_ne, hs j hlt, List.getElem_append_left hlt]
    exact mod_ne_of_window (h := h) (by omega) (by omega) (by omega) (by omega) (by omega)

theorem Stored.tail (hs : Stored cells N h (a :: l)) : Stored cells N (h + 1) l := by
  intro j hj
  have := hs (j + 1) (by rw [List.length_cons]; omega)
  rwa [show h + (j + 1) = h + 1 + j by omega, List.getElem_cons_succ] at this

theorem Stored.head (hs : Stored cells N h (a :: l)) : cells (h % N) = a :=
  hs 0 (by rw [List.length_cons]; omega)

end Window
end AbcMalloc.Foundation
