import Mathlib.Algebra.BigOperators.Group.Finset.Basic
import Mathlib.Algebra.BigOperators.Intervals
import Mathlib.Data.List.GetD
import Mathlib.Tactic

/-! Conservation of intervals by counting. `hits off len x` is 1 when `x` lies in the interval
of `len` points from `off`; a family of intervals is a partition of `[0, N)` exactly when its
hits at every point add up to 1 below `N` and to 0 from there on. Cutting an interval, moving
it between lists and reordering a list leave the sums alone. -/
namespace AbcMalloc.Foundation
open Function

def hits (off len x : ℕ) : ℕ := if off ≤ x ∧ x < off + len then 1 else 0

theorem hits_eq_one {off len x : ℕ} (h₁ : off ≤ x) (h₂ : x < off + len) : hits off len x = 1 :=
  if_pos ⟨h₁, h₂⟩

theorem hits_eq_zero {off len x : ℕ} : hits off len x = 0 ↔ ¬(off ≤ x ∧ x < off + len) := by
  unfold hits
  split_ifs with h <;> simp [h]

theorem hits_add (off a b x : ℕ) : hits off (a + b) x = hits off a x + hits (off + a) b x := by
  unfold hits
  split_ifs <;> omega

/-- The points of an interval inside `[0, N)` are its length. -/
theorem sum_hits {off len N : ℕ} (h : off + len ≤ N) :
    ∑ x ∈ Finset.range N, hits off len x = len := by
  have hf : (Finset.range N).filter (fun x => off ≤ x ∧ x < off + len) =
    Finset.Ico off (off + len) := by
    ext x
    simp only [Finset.mem_filter, Finset.mem_range, Finset.mem_Ico]
    omega
  unfold hits
  rw [← Finset.sum_filter, hf, Finset.sum_const, Nat.card_Ico, Nat.add_sub_cancel_left, smul_eq_mul,
    Nat.mul_one]

/-- Intervals that lie apart below `N` have at most `N` points together. -/
theorem sum_le_of_apart {ι : Type*} [DecidableEq ι] (off len : ι → ℕ) {N : ℕ} {S : Finset ι}
    (hN : ∀ i ∈ S, off i + len i ≤ N)
    (hapart : ∀ i ∈ S, ∀ j ∈ S, i ≠ j → off i + len i ≤ off j ∨ off j + len j ≤ off i) :
    ∑ i ∈ S, len i ≤ N := by
  have hdisjoint : (S : Set ι).PairwiseDisjoint fun i => Finset.Ico (off i) (off i + len i) := by
    intro i hi j hj hne
    refine Finset.disjoint_left.2 fun x hxi hxj => ?_
    rw [Finset.mem_Ico] at hxi hxj
    rcases hapart i hi j hj hne with h | h <;> omega
  have hsub : (S.biUnion fun i => Finset.Ico (off i) (off i + len i)) ⊆ Finset.range N := by
    intro x hx
    obtain ⟨i, hi, hx⟩ := Finset.mem_biUnion.1 hx
    rw [Finset.mem_Ico] at hx
    have := hN i hi
    exact Finset.mem_range.2 (by omega)
  have hcard := Finset.card_le_card hsub
  rw [Finset.card_biUnion hdisjoint, Finset.card_range] at hcard
  simpa only [Nat.card_Ico, Nat.add_sub_cancel_left] using hcard

section Lists
variable {α : Type*}

/-- Intervals that hit no point twice are disjoint. -/
theorem pairwise_of_hits_le (off len : α → ℕ) {l : List α} (hpos : ∀ a ∈ l, 0 < len a)
    (h : ∀ x, (l.map fun a => hits (off a) (len a) x).sum ≤ 1) :
    l.Pairwise fun a b => off a + len a ≤ off b ∨ off b + len b ≤ off a := by
  induction l with
  | nil => exact List.Pairwise.nil
  | cons a l ih =>
    rw [List.pairwise_cons]
    refine ⟨fun b hb => ?_, ih (fun b hb => hpos b (List.mem_cons_of_mem _ hb)) fun x => ?_⟩
    · by_contra hc
      have ha := hpos a List.mem_cons_self
      have hb' := hpos b (List.mem_cons_of_mem _ hb)
      -- The larger of the two starts lies in both intervals.
      have hx := h (max (off a) (off b))
      rw [List.map_cons, List.sum_cons, hits_eq_one (by omega) (by omega)] at hx
      have hle := List.le_sum_of_mem (List.mem_map_of_mem
        (f := fun a' => hits (off a') (len a') (max (off a) (off b))) hb)
      rw [hits_eq_one (by omega) (by omega)] at hle
      omega
    · have := h x
      rw [List.map_cons, List.sum_cons] at this
      omega

/-- Intervals inside `[0, N)` add up to their total length. -/
theorem sum_hits_list (off len : α → ℕ) {l : List α} {N : ℕ} (h : ∀ a ∈ l, off a + len a ≤ N) :
    ∑ x ∈ Finset.range N, (l.map fun a => hits (off a) (len a) x).sum = (l.map len).sum := by
  induction l with
  | nil => simp
  | cons a l ih =>
    simp only [List.map_cons, List.sum_cons, Finset.sum_add_distrib]
    rw [sum_hits (h a List.mem_cons_self), ih fun b hb => h b (List.mem_cons_of_mem _ hb)]

theorem sum_map_set (w : α → ℕ) (d b : α) {l : List α} {i : ℕ} (hi : i < l.length) :
    ((l.set i b).map w).sum + w (l.getD i d) = (l.map w).sum + w b := by
  induction l generalizing i with
  | nil => simp at hi
  | cons a l ih =>
    cases i with
    | zero =>
      simp only [List.set_cons_zero, List.map_cons, List.sum_cons, List.getD_cons_zero]
      omega
    | succ i =>
      have := ih (i := i) (by simpa using hi)
      simp only [List.set_cons_succ, List.map_cons, List.sum_cons, List.getD_cons_succ]
      omega

/-- Overwriting an entry by the last one and dropping that removes the entry. -/
theorem sum_map_swapRemove (w : α → ℕ) (d e : α) {l : List α} {i : ℕ} (hi : i < l.length) :
    (((l.set i (l.getLastD e)).dropLast).map w).sum + w (l.getD i d) = (l.map w).sum := by
  obtain ⟨l₀, a, rfl⟩ : ∃ l₀ a, l = l₀ ++ [a] := by
    rcases List.eq_nil_or_concat l with rfl | ⟨l₀, a, rfl⟩
    · simp at hi
    · exact ⟨l₀, a, by simp⟩
  have hlast : (l₀ ++ [a]).getLastD e = a := by simp
  rw [hlast]
  by_cases h : i < l₀.length
  · rw [List.set_append_left _ _ h, List.dropLast_concat, List.getD_append _ _ _ _ h,
      List.map_append,
      List.sum_append]
    have := sum_map_set w d a h
    simpa using this
  · have hi' : i = l₀.length := by
      rw [List.length_append, List.length_singleton] at hi
      omega
    subst hi'
    rw [List.set_append_right _ _ le_rfl, Nat.sub_self, List.set_cons_zero, List.dropLast_concat,
      List.getD_append_right _ _ _ _ le_rfl, Nat.sub_self, List.map_append, List.sum_append]
    simp

theorem mem_swapRemove {e a : α} {l : List α} {i : ℕ}
    (h : a ∈ (l.set i (l.getLastD e)).dropLast) : a ∈ l ∨ l = [] := by
  rcases List.eq_nil_or_concat l with rfl | ⟨l₀, b, rfl⟩
  · exact Or.inr rfl
  · left
    have hlast : (l₀.concat b).getLastD e = b := by simp
    rw [hlast] at h
    rcases List.mem_or_eq_of_mem_set (List.mem_of_mem_dropLast h) with h | rfl
    · exact h
    · simp

theorem sum_map_eraseIdx (w : α → ℕ) (d : α) {l : List α} {i : ℕ} (hi : i < l.length) :
    ((l.eraseIdx i).map w).sum + w (l.getD i d) = (l.map w).sum := by
  induction l generalizing i with
  | nil => simp at hi
  | cons a l ih =>
    cases i with
    | zero =>
      simp only [List.eraseIdx_cons_zero, List.map_cons, List.sum_cons, List.getD_cons_zero]
      omega
    | succ i =>
      have := ih (i := i) (by simpa using hi)
      simp only [List.eraseIdx_cons_succ, List.map_cons, List.sum_cons, List.getD_cons_succ]
      omega

end Lists

theorem sum_update_add {T β M : Type*} [Fintype T] [DecidableEq T] [AddCommMonoid M] (f : β → M)
    (g : T → β) (t : T) (b : β) : ∑ i, f (update g t b i) + f (g t) = ∑ i, f (g i) + f b := by
  have hfun : (fun i => f (update g t b i)) = update (fun i => f (g i)) t (f b) := by
    funext i
    by_cases hi : i = t
    · subst hi
      simp
    · simp [update_of_ne hi]
  rw [hfun, Finset.sum_update_of_mem (Finset.mem_univ t),
    ← Finset.add_sum_erase Finset.univ (fun i => f (g i)) (Finset.mem_univ t),
    Finset.sdiff_singleton_eq_erase]
  abel

end AbcMalloc.Foundation
