import Mathlib.Data.List.GetD
import Mathlib.Data.List.Perm.Basic
import Mathlib.Tactic

/-! Binary search in a table of disjoint intervals in ascending order, and removal from an
unordered table by moving its last entry. -/
namespace AbcMalloc.Foundation

/-- Search the entries `a, …, b - 1` for the interval `[lo i, hi i)` that holds `x`. Every round
drops at least one entry, so that `b - a` rounds are enough. -/
def searchInterval (lo hi : ℕ → ℕ) (x : ℕ) : ℕ → ℕ → ℕ → Option ℕ
  | 0, _, _ => none
  | fuel + 1, a, b =>
    if b ≤ a then none
    else
      let mid := a + (b - 1 - a) / 2
      if x < lo mid then searchInterval lo hi x fuel a mid
      else if hi mid ≤ x then searchInterval lo hi x fuel (mid + 1) b
      else some mid

variable {lo hi : ℕ → ℕ} {x n : ℕ}

/-- An interval that is found holds the value, whatever the table. -/
theorem holds_of_searchInterval {i : ℕ} : ∀ {fuel a b : ℕ},
    searchInterval lo hi x fuel a b = some i → a ≤ i ∧ i < b ∧ lo i ≤ x ∧ x < hi i := by
  intro fuel
  induction fuel with
  | zero => simp [searchInterval]
  | succ fuel ih =>
    intro a b h
    simp only [searchInterval] at h
    split_ifs at h with hab hlo hhi
    · obtain ⟨h₁, h₂, h₃⟩ := ih h
      exact ⟨h₁, by omega, h₃⟩
    · obtain ⟨h₁, h₂, h₃⟩ := ih h
      exact ⟨by omega, h₂, h₃⟩
    · obtain rfl := Option.some.inj h
      exact ⟨by omega, by omega, by omega, by omega⟩

/-- In a table of disjoint intervals in ascending order the interval of a value is found. -/
theorem searchInterval_of_holds (hpos : ∀ i < n, lo i < hi i)
    (hord : ∀ i j, i < j → j < n → hi i ≤ lo j) {i : ℕ} (h₁ : lo i ≤ x) (h₂ : x < hi i) :
    ∀ {fuel a b : ℕ}, b ≤ n → a ≤ i → i < b → b - a ≤ fuel →
      searchInterval lo hi x fuel a b = some i := by
  intro fuel
  induction fuel with
  | zero =>
    intro a b _ _ _ _
    omega
  | succ fuel ih =>
    intro a b hb ha hi' hfuel
    simp only [searchInterval]
    rw [if_neg (by omega)]
    have hmid : a ≤ a + (b - 1 - a) / 2 ∧ a + (b - 1 - a) / 2 < b := by omega
    generalize a + (b - 1 - a) / 2 = mid at hmid ⊢
    have hm := hpos mid (by omega)
    rcases lt_trichotomy i mid with hlt | rfl | hgt
    · have := hord i mid hlt (by omega)
      rw [if_pos (by omega)]
      exact ih (by omega) ha hlt (by omega)
    · rw [if_neg (by omega), if_neg (by omega)]
    · have := hord mid i hgt (by omega)
      rw [if_neg (by omega), if_pos (by omega)]
      exact ih hb (by omega) hi' (by omega)

theorem searchInterval_eq_some (hpos : ∀ i < n, lo i < hi i)
    (hord : ∀ i j, i < j → j < n → hi i ≤ lo j) {i : ℕ} :
    searchInterval lo hi x n 0 n = some i ↔ i < n ∧ lo i ≤ x ∧ x < hi i := by
  constructor
  · intro h
    exact (holds_of_searchInterval h).2
  · intro h
    exact searchInterval_of_holds hpos hord h.2.1 h.2.2 le_rfl (Nat.zero_le i) h.1 (by omega)

theorem searchInterval_congr {lo' hi' : ℕ → ℕ} (hlo : ∀ i < n, lo i = lo' i)
    (hhi : ∀ i < n, hi i = hi' i) : ∀ {fuel a b : ℕ}, b ≤ n →
      searchInterval lo hi x fuel a b = searchInterval lo' hi' x fuel a b := by
  intro fuel
  induction fuel with
  | zero =>
    intro a b _
    rfl
  | succ fuel ih =>
    intro a b hb
    simp only [searchInterval]
    by_cases hab : b ≤ a
    · rw [if_pos hab, if_pos hab]
    · have hmid : a + (b - 1 - a) / 2 < n := by omega
      rw [if_neg hab, if_neg hab, hlo _ hmid, hhi _ hmid, ih hmid.le, ih hb]

/-- Overwriting an entry by the last one and dropping that leaves the other entries. -/
theorem swapRemove_perm {α : Type*} {l : List α} {i : ℕ} (d e : α) (hi : i < l.length) :
    (l.getD i d :: (l.set i (l.getLastD e)).dropLast).Perm l := by
  obtain ⟨l₀, a, rfl⟩ : ∃ l₀ a, l = l₀ ++ [a] := by
    rcases List.eq_nil_or_concat l with rfl | ⟨l₀, a, rfl⟩
    · simp at hi
    · exact ⟨l₀, a, by simp⟩
  have hlast : (l₀ ++ [a]).getLastD e = a := by simp
  rw [hlast]
  by_cases h : i < l₀.length
  · rw [List.set_append_left _ _ h, List.dropLast_concat, List.getD_append _ _ _ _ h,
      List.getD_eq_getElem _ _ h]
    refine List.Perm.trans ?_ (List.perm_append_singleton a l₀).symm
    refine List.Perm.trans (List.Perm.cons _ (List.set_perm_cons_eraseIdx h a)) ?_
    refine List.Perm.trans (List.Perm.swap _ _ _) ?_
    exact List.Perm.cons _ (List.getElem_cons_eraseIdx_perm h)
  · have he : i = l₀.length := by
      have := hi
      simp only [List.length_append, List.length_singleton] at this
      omega
    subst he
    simp only [List.getD_eq_getElem?_getD, List.length_append, List.length_singleton,
      lt_add_iff_pos_right, Nat.lt_one_iff, List.getElem?_eq_getElem, List.getElem_append_right,
      le_refl, Nat.sub_self, List.getElem_singleton, Option.getD_some, List.set_append_right,
      List.set_cons_zero, List.dropLast_concat]
    exact (List.perm_append_singleton a l₀).symm

end AbcMalloc.Foundation
