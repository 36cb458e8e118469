import AbcMalloc.Foundation.Links
import Mathlib.Algebra.BigOperators.Group.Finset.Basic
import Mathlib.Algebra.Order.BigOperators.Group.Finset
import Mathlib.Order.Interval.Finset.Nat
import Mathlib.Tactic.Linarith

/-! Block maps. A block map assigns a size and a label to the first address of each
block of an interval; `Tiles` says that the blocks follow each other without gaps or
overlap. Splitting, merging and relabelling keep the tiling, and a weighted sum over
the blocks changes by the weight of the entry that is rewritten. -/
namespace AbcMalloc.Foundation
open Function

/-- Size and label of the block that starts at an address. -/
abbrev BlockMap (κ : Type*) := ℕ → Option (ℕ × κ)

structure Tiles {κ : Type*} (lo hi : ℕ) (A : BlockMap κ) : Prop where
  start : lo < hi → ∃ n k, A lo = some (n, k)
  pos : ∀ {a n k}, A a = some (n, k) → 0 < n
  lower : ∀ {a n k}, A a = some (n, k) → lo ≤ a
  upper : ∀ {a n k}, A a = some (n, k) → a + n ≤ hi
  next : ∀ {a n k}, A a = some (n, k) → a + n = hi ∨ ∃ n' k', A (a + n) = some (n', k')
  gap : ∀ {a n k x}, A a = some (n, k) → a < x → x < a + n → A x = none

namespace Tiles
variable {κ : Type*} {lo hi a b n n' : ℕ} {k k' : κ} {A : BlockMap κ}

/-- Two different blocks do not share an address. -/
theorem disjoint (h : Tiles lo hi A) (ha : A a = some (n, k)) (hb : A b = some (n', k'))
    (hne : a ≠ b) : a + n ≤ b ∨ b + n' ≤ a := by
  rcases lt_or_gt_of_ne hne with hlt | hlt
  · left
    by_contra hc
    have := h.gap ha hlt (by omega)
    simp [hb] at this
  · right
    by_contra hc
    have := h.gap hb hlt (by omega)
    simp [ha] at this

theorem eq_of_within (h : Tiles lo hi A) (ha : A a = some (n, k)) (hb : A b = some (n', k'))
    (h₁ : a ≤ b) (h₂ : b < a + n) : a = b := by
  by_contra hne
  have := h.gap ha (by omega) h₂
  simp [hb] at this

/-- Every address of the interval lies in a block. -/
theorem cover (h : Tiles lo hi A) (x : ℕ) (hx : lo ≤ x) (hx' : x < hi) :
    ∃ a n k, A a = some (n, k) ∧ a ≤ x ∧ x < a + n := by
  -- Induction on the distance from `lo`: the block of `x - 1` either reaches `x` or is
  -- followed by a block that starts at `x`.
  induction x, hx using Nat.le_induction with
  | base =>
    obtain ⟨n, k, hA⟩ := h.start hx'
    exact ⟨lo, n, k, hA, le_rfl, by have := h.pos hA; omega⟩
  | succ x _ ih =>
    obtain ⟨a, n, k, hA, h₁, h₂⟩ := ih (by omega)
    by_cases hin : x + 1 < a + n
    · exact ⟨a, n, k, hA, by omega, hin⟩
    · have hend : a + n = x + 1 := by omega
      rcases h.next hA with heq | ⟨n', k', hA'⟩
      · omega
      · rw [hend] at hA'
        exact ⟨x + 1, n', k', hA', le_rfl, by have := h.pos hA'; omega⟩

theorem start_le (h : Tiles lo hi A) (ha : a = hi ∨ ∃ n k, A a = some (n, k)) : a ≤ hi := by
  rcases ha with rfl | ⟨n, k, ha⟩
  · exact le_rfl
  · have := h.upper ha
    omega

/-- The block right before a block that is not the first. -/
theorem pred (h : Tiles lo hi A) (hb : A b = some (n, k)) (hne : b ≠ lo) :
    ∃ a n' k', A a = some (n', k') ∧ a + n' = b := by
  have hlow := h.lower hb
  have hup := h.upper hb
  have hpos := h.pos hb
  obtain ⟨a, n', k', ha, h₁, h₂⟩ := h.cover (b - 1) (by omega) (by omega)
  have := h.disjoint ha hb (by omega)
  exact ⟨a, n', k', ha, by omega⟩

theorem relabel (h : Tiles lo hi A) (ha : A a = some (n, k)) (k' : κ) :
    Tiles lo hi (update A a (some (n, k'))) := by
  -- The two maps have the same starts and sizes, only one label differs.
  have hsome : ∀ {x m l}, update A a (some (n, k')) x = some (m, l) → ∃ l', A x = some (m, l') := by
    intro x m l hx
    grind [update_apply]
  have hback : ∀ {x m l}, A x = some (m, l) → ∃ l', update A a (some (n, k')) x = some (m, l') := by
    intro x m l hx
    grind [update_apply]
  refine ⟨fun hlt => ?_, fun hx => ?_, fun hx => ?_, fun hx => ?_, fun hx => ?_,
    fun {x m l y} hx h₁ h₂ => ?_⟩
  · obtain ⟨m, l, hm⟩ := h.start hlt
    obtain ⟨l', hl'⟩ := hback hm
    exact ⟨m, l', hl'⟩
  · obtain ⟨l', hl'⟩ := hsome hx
    exact h.pos hl'
  · obtain ⟨l', hl'⟩ := hsome hx
    exact h.lower hl'
  · obtain ⟨l', hl'⟩ := hsome hx
    exact h.upper hl'
  · obtain ⟨l', hl'⟩ := hsome hx
    rcases h.next hl' with heq | ⟨m, l, hm⟩
    · exact Or.inl heq
    · obtain ⟨l'', hl''⟩ := hback hm
      exact Or.inr ⟨m, l'', hl''⟩
  · obtain ⟨l', hl'⟩ := hsome hx
    have hnone := h.gap hl' h₁ h₂
    grind [update_apply]

theorem map {κ' : Type*} (h : Tiles lo hi A) {B : BlockMap κ'}
    (hA : ∀ {a n k}, A a = some (n, k) → ∃ k', B a = some (n, k'))
    (hB : ∀ {a n k'}, B a = some (n, k') → ∃ k, A a = some (n, k)) : Tiles lo hi B := by
  refine ⟨fun hl => ?_, fun ha => ?_, fun ha => ?_, fun ha => ?_, fun ha => ?_,
    fun {a n k x} ha h₁ h₂ => ?_⟩
  · obtain ⟨n, k, ha⟩ := h.start hl
    exact ⟨n, hA ha⟩
  · exact h.pos (hB ha).choose_spec
  · exact h.lower (hB ha).choose_spec
  · exact h.upper (hB ha).choose_spec
  · refine (h.next (hB ha).choose_spec).imp id fun ⟨n', k', hn⟩ => ⟨n', hA hn⟩
  · cases hx : B x with
    | none => rfl
    | some v =>
      obtain ⟨k', hk⟩ := hB (show B x = some (v.1, v.2) from hx)
      have := h.gap (hB ha).choose_spec h₁ h₂
      rw [hk] at this
      exact absurd this (by simp)

/-- The entries of a block map after one block was cut in two. -/
theorem split_entry {x m : ℕ} {l k₁ k₂ : κ}
    (hx : update (update A a (some (n', k₁))) (a + n') (some (n - n', k₂)) x = some (m, l)) :
    (x = a + n' ∧ m = n - n' ∧ l = k₂) ∨ (x = a ∧ x ≠ a + n' ∧ m = n' ∧ l = k₁) ∨
      (x ≠ a ∧ x ≠ a + n' ∧ A x = some (m, l)) := by
  grind [update_apply]

theorem split (h : Tiles lo hi A) (ha : A a = some (n, k)) (hn : 0 < n') (hlt : n' < n)
    (k₁ k₂ : κ) :
    Tiles lo hi (update (update A a (some (n', k₁))) (a + n') (some (n - n', k₂))) := by
  have hup := h.upper ha
  have hlow := h.lower ha
  refine ⟨fun hl => ?_, fun hx => ?_, fun hx => ?_, fun hx => ?_, fun {x m l} hx => ?_,
    fun {x m l y} hx h₁ h₂ => ?_⟩
  · have := h.start hl
    grind [update_apply]
  · rcases split_entry hx with ⟨-, rfl, -⟩ | ⟨-, -, rfl, -⟩ | ⟨-, -, hA⟩
    · omega
    · exact hn
    · exact h.pos hA
  · rcases split_entry hx with ⟨rfl, -, -⟩ | ⟨rfl, -, -, -⟩ | ⟨-, -, hA⟩
    · omega
    · exact hlow
    · exact h.lower hA
  · rcases split_entry hx with ⟨rfl, rfl, -⟩ | ⟨rfl, -, rfl, -⟩ | ⟨-, -, hA⟩
    · omega
    · omega
    · exact h.upper hA
  · rcases split_entry hx with ⟨rfl, rfl, -⟩ | ⟨rfl, -, rfl, -⟩ | ⟨-, -, hA⟩
    · have hnext := h.next ha
      rw [show a + n' + (n - n') = a + n by omega]
      grind [update_apply]
    · exact Or.inr ⟨_, _, update_self ..⟩
    · have hnext := h.next hA
      grind [update_apply]
  · have hgap := @h.gap a n k y ha
    rcases split_entry hx with ⟨rfl, rfl, -⟩ | ⟨rfl, -, rfl, -⟩ | ⟨hxa, -, hA⟩
    · rw [update_of_ne (by omega), update_of_ne (by omega)]
      exact hgap (by omega) (by omega)
    · rw [update_of_ne (by omega), update_of_ne (by omega)]
      exact hgap (by omega) (by omega)
    · have hd := h.disjoint ha hA (Ne.symm hxa)
      rw [update_of_ne (by omega), update_of_ne (by omega)]
      exact h.gap hA h₁ h₂

theorem merge_entry {x m : ℕ} {l k'' : κ}
    (hx : update (update A (a + n) none) a (some (n + n', k'')) x = some (m, l)) :
    (x = a ∧ m = n + n' ∧ l = k'') ∨ (x ≠ a ∧ x ≠ a + n ∧ A x = some (m, l)) := by
  grind [update_apply]

/-- Joining a block with the block right behind it keeps the tiling. -/
theorem merge (h : Tiles lo hi A) (ha : A a = some (n, k)) (hb : A (a + n) = some (n', k'))
    (k'' : κ) :
    Tiles lo hi (update (update A (a + n) none) a (some (n + n', k''))) := by
  have hpa := h.pos ha
  have hpb := h.pos hb
  have hup := h.upper hb
  have hlow := h.lower ha
  refine ⟨fun hl => ?_, fun hx => ?_, fun hx => ?_, fun hx => ?_, fun {x m l} hx => ?_,
    fun {x m l y} hx h₁ h₂ => ?_⟩
  · have := h.start hl
    grind [update_apply]
  · rcases merge_entry hx with ⟨-, rfl, -⟩ | ⟨-, -, hA⟩
    · omega
    · exact h.pos hA
  · rcases merge_entry hx with ⟨rfl, -, -⟩ | ⟨-, -, hA⟩
    · exact hlow
    · exact h.lower hA
  · rcases merge_entry hx with ⟨rfl, rfl, -⟩ | ⟨-, -, hA⟩
    · omega
    · exact h.upper hA
  · rcases merge_entry hx with ⟨rfl, rfl, -⟩ | ⟨hxa, hxb, hA⟩
    · have hnext := h.next hb
      rw [← Nat.add_assoc]
      grind [update_apply]
    · have hnext := h.next hA
      have hd := h.disjoint ha hA (Ne.symm hxa)
      have hd' := h.disjoint hb hA (Ne.symm hxb)
      grind [update_apply]
  · rcases merge_entry hx with ⟨rfl, rfl, -⟩ | ⟨hxa, hxb, hA⟩
    · have hga := @h.gap x n k y ha h₁
      have hgb := @h.gap (x + n) n' k' y hb
      grind [update_apply]
    · have hd := h.disjoint ha hA (Ne.symm hxa)
      have hgx := h.gap hA h₁ h₂
      have hpx := h.pos hA
      grind [update_apply]

end Tiles

/-! ## Sums over the blocks -/

section Mass
variable {κ : Type*} {lo hi a : ℕ}

/-- Sum of a weight over the entries of a block map that start in `[lo, hi)`. -/
def mass (f : ℕ × κ → ℕ) (lo hi : ℕ) (A : BlockMap κ) : ℕ :=
  ∑ a ∈ Finset.Ico lo hi, (A a).elim 0 f

theorem mass_update (f : ℕ × κ → ℕ) (A : BlockMap κ) (v : Option (ℕ × κ))
    (h₁ : lo ≤ a) (h₂ : a < hi) :
    mass f lo hi (update A a v) + (A a).elim 0 f = mass f lo hi A + v.elim 0 f := by
  have hmem : a ∈ Finset.Ico lo hi := Finset.mem_Ico.2 ⟨h₁, h₂⟩
  unfold mass
  rw [← Finset.add_sum_erase _ _ hmem, ← Finset.add_sum_erase (Finset.Ico lo hi) _ hmem,
    update_self]
  have hrest : ∀ x ∈ (Finset.Ico lo hi).erase a,
      (update A a v x).elim 0 f = (A x).elim 0 f := by
    intro x hx
    rw [update_of_ne (Finset.ne_of_mem_erase hx)]
  rw [Finset.sum_congr rfl hrest]
  omega

theorem le_mass (f : ℕ × κ → ℕ) (A : BlockMap κ) (h₁ : lo ≤ a) (h₂ : a < hi) :
    (A a).elim 0 f ≤ mass f lo hi A :=
  Finset.single_le_sum (f := fun a => (A a).elim 0 f) (fun _ _ => Nat.zero_le _)
    (Finset.mem_Ico.2 ⟨h₁, h₂⟩)

/-- Disjoint blocks inside an interval are together no larger than the interval. -/
theorem mass_size_le {A : BlockMap κ} (hin : ∀ {a n k}, A a = some (n, k) → lo ≤ a ∧ a + n ≤ hi)
    (hdisj : ∀ {a n k b n' k'}, A a = some (n, k) → A b = some (n', k') → a ≠ b →
      a + n ≤ b ∨ b + n' ≤ a) : mass Prod.fst lo hi A ≤ hi - lo := by
  set g : ℕ → Finset ℕ := fun a => Finset.Ico a (a + (A a).elim 0 Prod.fst) with hg
  have hmem : ∀ {a x}, x ∈ g a → ∃ n k, A a = some (n, k) ∧ a ≤ x ∧ x < a + n := by
    intro a x hx
    simp only [hg, Finset.mem_Ico] at hx
    cases hA : A a with
    | none =>
      rw [hA] at hx
      simp only [Option.elim_none] at hx
      omega
    | some v =>
      rw [hA] at hx
      exact ⟨v.1, v.2, rfl, hx.1, hx.2⟩
  calc mass Prod.fst lo hi A = ∑ a ∈ Finset.Ico lo hi, (g a).card := by
        refine Finset.sum_congr rfl fun a _ => ?_
        simp [hg]
    _ = ((Finset.Ico lo hi).biUnion g).card := by
        refine (Finset.card_biUnion fun a _ b _ hab => ?_).symm
        refine Finset.disjoint_left.2 fun x hxa hxb => ?_
        obtain ⟨n, k, hA, h₁, h₂⟩ := hmem hxa
        obtain ⟨n', k', hB, h₃, h₄⟩ := hmem hxb
        have := hdisj hA hB hab
        omega
    _ ≤ (Finset.Ico lo hi).card := by
        refine Finset.card_le_card (Finset.biUnion_subset.2 fun a _ x hx => ?_)
        obtain ⟨n, k, hA, h₁, h₂⟩ := hmem hx
        have := hin hA
        rw [Finset.mem_Ico]
        omega
    _ = hi - lo := Nat.card_Ico lo hi

theorem mass_add (f g : ℕ × κ → ℕ) (lo hi : ℕ) (A : BlockMap κ) :
    mass f lo hi A + mass g lo hi A = mass (fun v => f v + g v) lo hi A := by
  unfold mass
  rw [← Finset.sum_add_distrib]
  refine Finset.sum_congr rfl fun a _ => ?_
  cases A a <;> rfl

end Mass

/-! ## Walking the blocks -/

section Walk
variable {κ : Type*} {lo hi a : ℕ} {A : BlockMap κ}

/-- The starts met by following sizes from `a` until `hi`, at most `fuel` of them. -/
def walk (size : ℕ → ℕ) (hi : ℕ) : ℕ → ℕ → List ℕ
  | 0, _ => []
  | fuel + 1, a => if a < hi then a :: walk size hi fuel (a + size a) else []

/-- Following the sizes of a tiling from one of its blocks visits the blocks from there
to the end, each once. -/
theorem walk_spec {size : ℕ → ℕ} (h : Tiles lo hi A)
    (hs : ∀ {a n k}, A a = some (n, k) → size a = n) (fuel : ℕ) :
    ∀ a, (a = hi ∨ ∃ n k, A a = some (n, k)) → hi ≤ a + fuel →
      (∀ x, x ∈ walk size hi fuel a ↔ a ≤ x ∧ x < hi ∧ ∃ n k, A x = some (n, k)) ∧
        (walk size hi fuel a).Pairwise (· < ·) := by
  induction fuel with
  | zero =>
    intro a _ hf
    exact ⟨fun x => by simp [walk]; omega, List.Pairwise.nil⟩
  | succ fuel ih =>
    intro a ha hf
    simp only [walk]
    split_ifs with hlt
    · obtain ⟨n, k, hA⟩ : ∃ n k, A a = some (n, k) := by
        rcases ha with rfl | ha
        · omega
        · exact ha
      have hpos := h.pos hA
      rw [hs hA]
      obtain ⟨hmem, hsort⟩ := ih (a + n) (h.next hA) (by omega)
      refine ⟨fun x => ?_, List.pairwise_cons.2 ⟨fun x hx => ?_, hsort⟩⟩
      · rw [List.mem_cons, hmem x]
        constructor
        · rintro (rfl | ⟨h₁, h₂, h₃⟩)
          · exact ⟨le_rfl, hlt, n, k, hA⟩
          · exact ⟨by omega, h₂, h₃⟩
        · rintro ⟨h₁, h₂, m, l, hx⟩
          rcases h₁.eq_or_lt with rfl | h₁
          · exact Or.inl rfl
          · have hd := h.disjoint hA hx (by omega)
            have hp := h.pos hx
            exact Or.inr ⟨by omega, h₂, m, l, hx⟩
      · have := (hmem x).1 hx
        omega
    · exact ⟨fun x => by simp; omega, List.Pairwise.nil⟩

theorem walk_seg {size prev : ℕ → ℕ} (h : Tiles lo hi A)
    (hs : ∀ {a n k}, A a = some (n, k) → size a = n)
    (hp : ∀ {a n k}, A a = some (n, k) → prev (a + n) = a) (fuel : ℕ) :
    ∀ a p, (a = hi ∨ ∃ n k, A a = some (n, k)) → hi ≤ a + fuel → prev a = p →
      Seg (fun x => x + size x) prev p (walk size hi fuel a) hi ∧
        prev hi = (walk size hi fuel a).getLastD p ∧ (walk size hi fuel a).headD hi = a := by
  induction fuel with
  | zero =>
    intro a p ha hf hpa
    have hle := h.start_le ha
    have : a = hi := by omega
    exact ⟨trivial, by rw [← this, hpa]; rfl, this.symm⟩
  | succ fuel ih =>
    intro a p ha hf hpa
    simp only [walk]
    split_ifs with hlt
    · obtain ⟨n, k, hA⟩ : ∃ n k, A a = some (n, k) := by
        rcases ha with rfl | ha
        · omega
        · exact ha
      have hpos := h.pos hA
      rw [hs hA]
      obtain ⟨hseg, hlast, hhead⟩ := ih (a + n) a (h.next hA) (by omega) (hp hA)
      refine ⟨⟨hpa, ?_, hseg⟩, ?_, rfl⟩
      · rw [hhead]
        show a + size a = a + n
        rw [hs hA]
      · rw [hlast, List.getLastD_cons]
    · have hle := h.start_le ha
      have : a = hi := by omega
      exact ⟨trivial, by rw [← this, hpa]; rfl, this.symm⟩

theorem walk_isChain {size : ℕ → ℕ} (R : ℕ → ℕ → Prop) (h : Tiles lo hi A)
    (hs : ∀ {a n k}, A a = some (n, k) → size a = n)
    (hR : ∀ {a n k n' k'}, A a = some (n, k) → A (a + n) = some (n', k') → R a (a + n))
    (fuel : ℕ) : ∀ a, (a = hi ∨ ∃ n k, A a = some (n, k)) → (walk size hi fuel a).IsChain R := by
  induction fuel with
  | zero => exact fun _ _ => List.IsChain.nil
  | succ fuel ih =>
    intro a ha
    simp only [walk]
    split_ifs with hlt
    · obtain ⟨n, k, hA⟩ : ∃ n k, A a = some (n, k) := by
        rcases ha with rfl | ha
        · omega
        · exact ha
      rw [hs hA]
      have hrest := ih (a + n) (h.next hA)
      cases fuel with
      | zero => exact List.IsChain.singleton a
      | succ fuel =>
        simp only [walk] at hrest ⊢
        split_ifs at hrest ⊢ with hlt'
        · rcases h.next hA with heq | ⟨n', k', hA'⟩
          · omega
          · exact List.IsChain.cons_cons (hR hA hA') hrest
        · exact List.IsChain.singleton a
    · exact List.IsChain.nil

/-- A sum over a walk through a whole tiling is the sum over its block map. -/
theorem sum_walk {size : ℕ → ℕ} (h : Tiles lo hi A)
    (hs : ∀ {a n k}, A a = some (n, k) → size a = n) (hle : lo ≤ hi) {fuel : ℕ}
    (hf : hi ≤ lo + fuel) (g : ℕ → ℕ) (f : ℕ × κ → ℕ)
    (hg : ∀ {a n k}, A a = some (n, k) → g a = f (n, k)) :
    ((walk size hi fuel lo).map g).sum = mass f lo hi A := by
  have hlo : lo = hi ∨ ∃ n k, A lo = some (n, k) := by
    rcases hle.eq_or_lt with heq | hlt
    · exact Or.inl heq
    · exact Or.inr (h.start hlt)
  obtain ⟨hmem, hsort⟩ := walk_spec h hs fuel lo hlo hf
  have hnodup : (walk size hi fuel lo).Nodup := hsort.imp (fun h => Nat.ne_of_lt h)
  rw [← List.sum_toFinset _ hnodup]
  unfold mass
  have hsub : (walk size hi fuel lo).toFinset ⊆ Finset.Ico lo hi := by
    intro x hx
    have := (hmem x).1 (List.mem_toFinset.1 hx)
    exact Finset.mem_Ico.2 ⟨this.1, this.2.1⟩
  calc ∑ x ∈ (walk size hi fuel lo).toFinset, g x
      = ∑ x ∈ (walk size hi fuel lo).toFinset, (A x).elim 0 f := by
        refine Finset.sum_congr rfl fun x hx => ?_
        obtain ⟨-, -, n, k, hA⟩ := (hmem x).1 (List.mem_toFinset.1 hx)
        rw [hA, hg hA]
        rfl
    _ = ∑ x ∈ Finset.Ico lo hi, (A x).elim 0 f := by
        refine Finset.sum_subset hsub fun x hx hnot => ?_
        rw [Finset.mem_Ico] at hx
        rw [List.mem_toFinset, hmem x] at hnot
        cases hA : A x with
        | none => rfl
        | some v => exact absurd ⟨hx.1, hx.2, v.1, v.2, hA⟩ hnot

end Walk
end AbcMalloc.Foundation
