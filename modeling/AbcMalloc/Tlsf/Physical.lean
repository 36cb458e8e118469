import AbcMalloc.Tlsf.Lists

/-! The physical chain of blocks between the two sentinels of a pool: the headers tile the
data region, carry their sizes and flags, and point back to their predecessors. Splitting a
block and joining two neighbours keep the chain. -/
namespace AbcMalloc.Tlsf
open Function Foundation

/-- Headers between the start sentinel at `base` and the end sentinel at `es` describe the
blocks of `A`. The back link at `d` may be stale. -/
structure Phys (base es : ℕ) (m : Mem) (A : Blocks) (d : ℕ) : Prop where
  tiles : Tiles (base + 32) es A
  size_ge : ∀ {a n k}, A a = some (n, k) → 64 ≤ n
  size_mod : ∀ {a n k}, A a = some (n, k) → n % 32 = 0
  lo : ∀ {a n k}, A a = some (n, k) → m.lo a = n
  hi : ∀ {a n f}, A a = some (n, some f) → m.hi a = f
  back : ∀ {a n k}, A a = some (n, k) → a + n ≠ d → m.w1 (a + n) = a
  first : m.w1 (base + 32) = base
  start_flags : m.hi base = blockAlloc
  end_flags : m.hi es = blockAlloc

def AgreeOff (S : ℕ → Prop) (m m' : Mem) : Prop :=
  ∀ x, ¬ S x → m'.lo x = m.lo x ∧ m'.hi x = m.hi x ∧ m'.w1 x = m.w1 x ∧ m'.w2 x = m.w2 x ∧
    m'.w3 x = m.w3 x

namespace AgreeOff
variable {S S' : ℕ → Prop} {m m' m'' : Mem}

theorem refl (S : ℕ → Prop) (m : Mem) : AgreeOff S m m := fun _ _ => ⟨rfl, rfl, rfl, rfl, rfl⟩

theorem trans (h : AgreeOff S m m') (h' : AgreeOff S m' m'') : AgreeOff S m m'' := by
  intro x hx
  obtain ⟨h₁, h₂, h₃, h₄, h₅⟩ := h x hx
  obtain ⟨h₁', h₂', h₃', h₄', h₅'⟩ := h' x hx
  exact ⟨h₁'.trans h₁, h₂'.trans h₂, h₃'.trans h₃, h₄'.trans h₄, h₅'.trans h₅⟩

theorem mono (h : AgreeOff S m m') (hS : ∀ x, S x → S' x) : AgreeOff S' m m' :=
  fun x hx => h x fun hs => hx (hS x hs)

end AgreeOff

namespace Phys
variable {base es d b n n' q : ℕ} {m m' : Mem} {A : Blocks} {k k' : Option ℕ}

/-- Headers, flags and back links determine the chain. -/
theorem congr (h : Phys base es m A d) (hlo : m'.lo = m.lo) (hhi : m'.hi = m.hi)
    (hw1 : m'.w1 = m.w1) : Phys base es m' A d where
  tiles := h.tiles
  size_ge := h.size_ge
  size_mod := h.size_mod
  lo hx := by rw [hlo]; exact h.lo hx
  hi hx := by rw [hhi]; exact h.hi hx
  back hx hd := by rw [hw1]; exact h.back hx hd
  first := by rw [hw1]; exact h.first
  start_flags := by rw [hhi]; exact h.start_flags
  end_flags := by rw [hhi]; exact h.end_flags

theorem base_lt (h : Phys base es m A d) (hA : A b = some (n, k)) : base + 32 ≤ b ∧ b + n ≤ es :=
  ⟨h.tiles.lower hA, h.tiles.upper hA⟩

theorem setFlags (h : Phys base es m A d) (hA : A b = some (n, k)) (f : ℕ) :
    Phys base es (m.setHi b f) (update A b (some (n, some f))) d := by
  obtain ⟨hb, hb'⟩ := h.base_lt hA
  have hn := h.size_ge hA
  have hold : ∀ {x j l}, update A b (some (n, some f)) x = some (j, l) →
    ∃ l', A x = some (j, l') := by
    intro x j l hx
    grind [update_apply]
  refine ⟨h.tiles.relabel hA _, fun hx => ?_, fun hx => ?_, fun hx => ?_, fun {x j l} hx => ?_,
    fun hx => ?_, h.first, ?_, ?_⟩
  · obtain ⟨l', hl'⟩ := hold hx
    exact h.size_ge hl'
  · obtain ⟨l', hl'⟩ := hold hx
    exact h.size_mod hl'
  · obtain ⟨l', hl'⟩ := hold hx
    exact h.lo hl'
  · by_cases hxb : x = b
    · subst hxb
      simp only [update_self, Option.some.injEq, Prod.mk.injEq] at hx
      simp [hx.2]
    · rw [update_of_ne hxb] at hx
      simpa [update_of_ne hxb] using h.hi hx
  · obtain ⟨l', hl'⟩ := hold hx
    exact h.back hl'
  · simpa [update_of_ne (show base ≠ b by omega)] using h.start_flags
  · simpa [update_of_ne (show es ≠ b by omega)] using h.end_flags

theorem detach (h : Phys base es m A d) (hA : A b = some (n, k)) :
    Phys base es m (update A b (some (n, none))) d := by
  have hold : ∀ {x j l}, update A b (some (n, none)) x = some (j, l) →
    ∃ l', A x = some (j, l') := by
    intro x j l hx
    grind [update_apply]
  refine ⟨h.tiles.relabel hA _, fun hx => ?_, fun hx => ?_, fun hx => ?_, fun {x j l} hx => ?_,
    fun hx => ?_, h.first, h.start_flags, h.end_flags⟩
  · obtain ⟨l', hl'⟩ := hold hx
    exact h.size_ge hl'
  · obtain ⟨l', hl'⟩ := hold hx
    exact h.size_mod hl'
  · obtain ⟨l', hl'⟩ := hold hx
    exact h.lo hl'
  · have hxb : x ≠ b := by
      rintro rfl
      simp at hx
    rw [update_of_ne hxb] at hx
    exact h.hi hx
  · obtain ⟨l', hl'⟩ := hold hx
    exact h.back hl'

theorem repair (h : Phys base es m A d) (hA : A b = some (n, k)) (hd : b + n = d) :
    Phys base es (m.setW1 d b) A 0 := by
  obtain ⟨hb, hb'⟩ := h.base_lt hA
  have hn := h.size_ge hA
  refine ⟨h.tiles, h.size_ge, h.size_mod, h.lo, h.hi, fun {x j l} hx _ => ?_, ?_, h.start_flags,
    h.end_flags⟩
  · by_cases hxb : x = b
    · subst hxb
      rw [hA] at hx
      simp only [Option.some.injEq, Prod.mk.injEq] at hx
      rw [← hx.1, hd]
      simp
    · have hne : x + j ≠ d := by
        have := h.tiles.disjoint hA hx (Ne.symm hxb)
        have := h.tiles.pos hx
        omega
      simpa [update_of_ne hne] using h.back hx hne
  · simpa [update_of_ne (show base + 32 ≠ d by omega)] using h.first

/-- Cutting a detached block in two: the header of the remainder is new, and the block
behind it points back to the remainder. -/
theorem split (h : Phys base es m A 0) (hA : A b = some (n, none)) (hq : 64 ≤ q)
    (hqm : q % 32 = 0) (hrem : q + 64 ≤ n) :
    Phys base es ((((m.setLo b q).setLo (b + q) (n - q)).setW1 (b + q) b).setW1 (b + n) (b + q))
      (update (update A b (some (q, none))) (b + q) (some (n - q, none))) 0 := by
  obtain ⟨hb, hb'⟩ := h.base_lt hA
  have hmod := h.size_mod hA
  refine ⟨h.tiles.split hA (by omega) (by omega) _ _, fun hx => ?_, fun hx => ?_,
    fun {x j l} hx => ?_,
    fun {x j l} hx => ?_, fun {x j l} hx _ => ?_, ?_, h.start_flags, h.end_flags⟩
  · rcases Tiles.split_entry hx with ⟨-, rfl, -⟩ | ⟨-, -, rfl, -⟩ | ⟨-, -, hx⟩
    · omega
    · exact hq
    · exact h.size_ge hx
  · rcases Tiles.split_entry hx with ⟨-, rfl, -⟩ | ⟨-, -, rfl, -⟩ | ⟨-, -, hx⟩
    · omega
    · exact hqm
    · exact h.size_mod hx
  · rcases Tiles.split_entry hx with ⟨rfl, rfl, -⟩ | ⟨rfl, hne, rfl, -⟩ | ⟨hne, hne', hx⟩
    · simp
    · simp [update_of_ne hne]
    · simpa [update_of_ne hne, update_of_ne hne'] using h.lo hx
  · rcases Tiles.split_entry hx with ⟨-, -, hk⟩ | ⟨-, -, -, hk⟩ | ⟨-, -, hx⟩
    · cases hk
    · cases hk
    · exact h.hi hx
  · rcases Tiles.split_entry hx with ⟨rfl, rfl, -⟩ | ⟨rfl, -, rfl, -⟩ | ⟨hne, hne', hx⟩
    · simp [show b + q + (n - q) = b + n by omega]
    · simp [update_of_ne (show x + j ≠ x + n by omega)]
    · have hd := h.tiles.disjoint hA hx (Ne.symm hne)
      have hp := h.tiles.pos hx
      simpa [update_of_ne (show x + j ≠ b + n by omega), update_of_ne (show x + j ≠ b + q by omega)]
        using h.back hx (by omega)
  · simpa [update_of_ne (show base + 32 ≠ b + n by omega),
      update_of_ne (show base + 32 ≠ b + q by omega)]
      using h.first

/-- Joining two detached neighbours leaves the back link behind them stale. -/
theorem merge (h : Phys base es m A d) (hA : A b = some (n, none))
    (hB : A (b + n) = some (n', none))
    (hd : d = 0 ∨ d = b + n + n') :
    Phys base es (m.setLo b (n + n')) (update (update A (b + n) none) b (some (n + n', none)))
      (b + n + n') := by
  refine ⟨h.tiles.merge hA hB _, fun hx => ?_, fun hx => ?_, fun {x j l} hx => ?_,
    fun {x j l} hx => ?_, fun {x j l} hx hne => ?_, h.first, h.start_flags, h.end_flags⟩
  · rcases Tiles.merge_entry hx with ⟨-, rfl, -⟩ | ⟨-, -, hx⟩
    · have := h.size_ge hA
      omega
    · exact h.size_ge hx
  · rcases Tiles.merge_entry hx with ⟨-, rfl, -⟩ | ⟨-, -, hx⟩
    · have := h.size_mod hA
      have := h.size_mod hB
      omega
    · exact h.size_mod hx
  · rcases Tiles.merge_entry hx with ⟨rfl, rfl, -⟩ | ⟨hne, -, hx⟩
    · simp
    · simpa [update_of_ne hne] using h.lo hx
  · rcases Tiles.merge_entry hx with ⟨-, -, hk⟩ | ⟨-, -, hx⟩
    · cases hk
    · exact h.hi hx
  · rcases Tiles.merge_entry hx with ⟨rfl, rfl, -⟩ | ⟨-, -, hx⟩
    · omega
    · have := h.tiles.pos hx
      exact h.back hx (by omega)

end Phys
end AbcMalloc.Tlsf
