import AbcMalloc.Foundation.Tiling

/-! Maximal gaps. Where no two free blocks of a tiling are neighbours, the free blocks are the
maximal intervals that no other block covers. -/
namespace AbcMalloc.Foundation

/-- `[x, y)` is a maximal part of `[lo, hi)` on which `C` fails. -/
structure Gap (C : ℕ → Prop) (lo hi x y : ℕ) : Prop where
  lower : lo ≤ x
  lt : x < y
  upper : y ≤ hi
  clear : ∀ z, x ≤ z → z < y → ¬C z
  left : x = lo ∨ C (x - 1)
  right : y = hi ∨ C y

theorem Gap.eq_of_mem {C : ℕ → Prop} {lo hi x y x' y' z : ℕ} (h : Gap C lo hi x y)
    (h' : Gap C lo hi x' y') (h₁ : x ≤ z) (h₂ : z < y) (h₃ : x' ≤ z) (h₄ : z < y') :
    x = x' ∧ y = y' := by
  have hside : ∀ {a b a' b' : ℕ}, Gap C lo hi a b → Gap C lo hi a' b' → a ≤ z → z < b → a' ≤ z →
      z < b' → a' ≤ a ∧ b ≤ b' := by
    intro a b a' b' g g' g₁ g₂ g₃ g₄
    constructor
    · by_contra hlt
      rcases g'.left with heq | hc
      · have := g.lower
        omega
      · exact g.clear _ (by omega) (by omega) hc
    · by_contra hlt
      rcases g'.right with heq | hc
      · have := g.upper
        omega
      · exact g.clear _ (by omega) (by omega) hc
  obtain ⟨hl, hu⟩ := hside h h' h₁ h₂ h₃ h₄
  obtain ⟨hl', hu'⟩ := hside h' h h₃ h₄ h₁ h₂
  omega

namespace Tiles
variable {κ : Type*} {lo hi x y : ℕ} {A : BlockMap κ} {free : κ → Prop}

/-- Some block that is not free covers the address. -/
def Covers (A : BlockMap κ) (free : κ → Prop) (z : ℕ) : Prop :=
  ∃ a n k, A a = some (n, k) ∧ ¬free k ∧ a ≤ z ∧ z < a + n

/-- A free block is a gap. -/
theorem gap_of_free (h : Tiles lo hi A) {n : ℕ} {k : κ}
    (hco : ∀ {a n n' k k'}, A a = some (n, k) → A (a + n) = some (n', k') → free k → ¬free k')
    (hx : A x = some (n, k)) (hk : free k) : Gap (Covers A free) lo hi x (x + n) where
  lower := h.lower hx
  lt := by
    have := h.pos hx
    omega
  upper := h.upper hx
  clear := by
    rintro z h₁ h₂ ⟨a, m, l, ha, hl, h₃, h₄⟩
    have heq : a = x := by
      by_contra hne
      have := h.disjoint ha hx hne
      omega
    subst heq
    rw [hx] at ha
    simp only [Option.some.injEq, Prod.mk.injEq] at ha
    exact hl (ha.2 ▸ hk)
  left := by
    by_cases heq : x = lo
    · exact Or.inl heq
    · right
      obtain ⟨a, m, l, ha, rfl⟩ := h.pred hx heq
      have hpos := h.pos ha
      exact ⟨a, m, l, ha, fun hl => hco ha hx hl hk, by omega, by omega⟩
  right := by
    rcases h.next hx with heq | ⟨m, l, ha⟩
    · exact Or.inl heq
    · right
      have hpos := h.pos ha
      exact ⟨_, m, l, ha, hco hx ha hk, le_rfl, by omega⟩

/-- The gaps are the free blocks. -/
theorem gap_iff (h : Tiles lo hi A)
    (hco : ∀ {a n n' k k'}, A a = some (n, k) → A (a + n) = some (n', k') → free k → ¬free k') :
    Gap (Covers A free) lo hi x y ↔ ∃ n k, A x = some (n, k) ∧ free k ∧ y = x + n := by
  constructor
  · intro hg
    have hup := hg.upper
    have hlt := hg.lt
    obtain ⟨a, n, k, ha, h₁, h₂⟩ := h.cover x hg.lower (by omega)
    have hk : free k := by
      by_contra hk
      exact hg.clear x le_rfl hlt ⟨a, n, k, ha, hk, h₁, h₂⟩
    obtain ⟨rfl, rfl⟩ := hg.eq_of_mem (h.gap_of_free hco ha hk) le_rfl hlt h₁ h₂
    exact ⟨n, k, ha, hk, rfl⟩
  · rintro ⟨n, k, hx, hk, rfl⟩
    exact h.gap_of_free hco hx hk

end Tiles
end AbcMalloc.Foundation
