import AbcMalloc.Doctor.Model
import AbcMalloc.Foundation.Probing

/-! Tables of records: probing finds the slot of a key, and writing a record keeps the chains. -/
namespace AbcMalloc.Doctor
open Function Foundation

/-! ## Counting slots -/

def count (p : Rec → Bool) (t : ℕ → Rec) (n : ℕ) : ℕ :=
    ∑ i ∈ Finset.range n, if p (t i) then 1 else 0

section Count
variable {p q : Rec → Bool} {t : ℕ → Rec} {n i : ℕ} {r : Rec}

theorem count_succ : count p t (n + 1) = count p t n + if p (t n) then 1 else 0 :=
  Finset.sum_range_succ _ n

theorem count_update (hi : i < n) :
    count p (update t i r) n + (if p (t i) then 1 else 0) =
      count p t n + if p r then 1 else 0 := by
  have hfun : (fun j => if p (update t i r j) then 1 else 0) =
      update (fun j => if p (t j) then 1 else 0) i (if p r then 1 else 0) := by
    funext j
    by_cases hj : j = i
    · subst hj
      simp
    · simp [update_of_ne hj]
  unfold count
  rw [hfun, Finset.sum_update_of_mem (Finset.mem_range.2 hi),
    ← Finset.add_sum_erase (Finset.range n) _ (Finset.mem_range.2 hi),
    Finset.sdiff_singleton_eq_erase]
  omega

theorem count_congr (h : ∀ i < n, p (t i) = q (t i)) : count p t n = count q t n :=
  Finset.sum_congr rfl fun i hi => by rw [h i (Finset.mem_range.1 hi)]

theorem count_le (h : ∀ r, p r = true → q r = true) : count p t n ≤ count q t n := by
  refine Finset.sum_le_sum fun i _ => ?_
  by_cases hp : p (t i) = true
  · rw [if_pos hp, if_pos (h _ hp)]
  · rw [if_neg hp]
    exact Nat.zero_le _

theorem count_zero (h : p .zero = false) : count p (fun _ => .zero) n = 0 := by
  unfold count
  simp [h]

/-- Fewer matches than slots leave a slot that does not match. -/
theorem exists_of_count_lt (h : count p t n < n) : ∃ i < n, p (t i) = false := by
  by_contra hall
  push Not at hall
  have hfull : count p t n = n := by
    unfold count
    rw [Finset.sum_congr rfl fun i hi => if_pos (by simpa using hall i (Finset.mem_range.1 hi))]
    simp
  omega

end Count

def Rec.isUsed (r : Rec) : Bool := r.state ≠ .empty

def Rec.isLive (r : Rec) : Bool := r.state = .live

theorem Rec.isUsed_of_isLive {r : Rec} (h : r.isLive = true) : r.isUsed = true := by
  simp only [isLive, decide_eq_true_eq] at h
  simp [isUsed, h]

/-! ## Probing -/

def occupant (t : ℕ → Rec) (i : ℕ) : Option ℕ := if (t i).isUsed then some (t i).key else none

section Probe
variable {t : ℕ → Rec} {cap e i j k n : ℕ} {r r' : Rec}

theorem stops_iff : Stops (occupant t) k i ↔ (t i).state = .empty ∨ (t i).key = k := by
  unfold Stops occupant Rec.isUsed
  by_cases h : (t i).state = .empty <;> simp [h]

theorem slotFrom_eq (he : cap = 2 ^ e) : ∀ {n i : ℕ},
    slotFrom t (cap - 1) k n i = probe (occupant t) cap k n i := by
  intro n
  induction n with
  | zero => exact rfl
  | succ n ih =>
    intro i
    rw [slotFrom, probe, ih, he, Nat.and_two_pow_sub_one_eq_mod]
    simp only [stops_iff]

/-- `__find` is `__slot_for` without the slots for new records. -/
theorem findFrom_eq (mask : ℕ) : ∀ {n i : ℕ}, findFrom t mask k n i =
    (slotFrom t mask k n i).bind fun i => if (t i).isUsed then some i else none := by
  intro n
  induction n with
  | zero => exact rfl
  | succ n ih =>
    intro i
    rw [findFrom, slotFrom]
    by_cases hempty : (t i).state = .empty
    · simp [hempty, Rec.isUsed]
    · by_cases hkey : (t i).key = k
      · simp [hempty, hkey, Rec.isUsed]
      · simp [hempty, hkey, ih]

structure Table (t : ℕ → Rec) (cap : ℕ) : Prop where
  pow : ∃ e, cap = 2 ^ e
  chained : Chained (occupant t) cap fun k => hash k % cap
  keys : ∀ i < cap, (t i).isUsed = true → (t i).key ≠ 0

def Holds (t : ℕ → Rec) (cap : ℕ) (r : Rec) : Prop := r.isUsed = true ∧ ∃ i < cap, t i = r

theorem occupant_eq_some : occupant t i = some k ↔ (t i).isUsed = true ∧ (t i).key = k := by
  unfold occupant
  split_ifs with h <;> simp [h]

theorem occupant_eq_none : occupant t i = none ↔ (t i).isUsed = false := by
  unfold occupant
  split_ifs with h <;> simp [h]

theorem table_zero (he : cap = 2 ^ e) : Table (fun _ => .zero) cap where
  pow := ⟨e, he⟩
  chained := Chained.empty fun k => Nat.mod_lt _ (he ▸ Nat.two_pow_pos e)
  keys i _ hu := absurd hu (by simp [Rec.isUsed, Rec.zero])

namespace Table

theorem cap_pos (hT : Table t cap) : 0 < cap := by
  obtain ⟨e, rfl⟩ := hT.pow
  exact Nat.two_pow_pos e

theorem slotFrom_ends (hT : Table t cap)
    (hj : Ends (occupant t) cap k (hash k % cap) j) :
    slotFrom t (cap - 1) k (cap + 1) (hash k &&& (cap - 1)) = some ((hash k % cap + j) % cap) := by
  obtain ⟨e, he⟩ := hT.pow
  have hstart : hash k &&& (cap - 1) = hash k % cap := by
    rw [he, Nat.and_two_pow_sub_one_eq_mod]
  rw [hstart, slotFrom_eq he]
  exact hj.probe (Nat.mod_lt _ hT.cap_pos) (by have := hj.lt; omega)

/-- While there is room, every probe ends, after at most one slot more than are in use. -/
theorem exists_ends (hT : Table t cap) (hroom : count Rec.isUsed t cap < cap) (k : ℕ) :
    ∃ j, Ends (occupant t) cap k (hash k % cap) j ∧ j ≤ count Rec.isUsed t cap := by
  obtain ⟨i, hi, hfree⟩ := exists_of_count_lt hroom
  have hstart := Nat.mod_lt (hash k) hT.cap_pos
  obtain ⟨j, hj⟩ := Foundation.exists_ends hstart hi (Or.inl (occupant_eq_none.2 hfree))
  refine ⟨j, hj, (hj.le_card hstart).trans (le_of_eq ?_)⟩
  rw [Finset.card_filter]
  refine Finset.sum_congr rfl fun i _ => ?_
  by_cases hu : (t i).isUsed = true <;> simp [occupant, hu]

theorem slotFrom_of_holds (hT : Table t cap) (hr : Holds t cap r) :
    ∃ i < cap, t i = r ∧
      slotFrom t (cap - 1) r.key (cap + 1) (hash r.key &&& (cap - 1)) = some i := by
  obtain ⟨hu, i, hi, rfl⟩ := hr
  obtain ⟨j, hj, hround⟩ := hT.chained.reach hi (occupant_eq_some.2 ⟨hu, rfl⟩)
  exact ⟨i, hi, rfl, by rw [hT.slotFrom_ends hj, hround]⟩

/-- Writing the record of a new key to its slot. -/
theorem put (hT : Table t cap) (hroom : count Rec.isUsed t cap < cap) (hu : r.isUsed = true)
    (hkey : r.key ≠ 0) (habs : ∀ r', Holds t cap r' → r'.key ≠ r.key) :
    ∃ i < cap, slotFrom t (cap - 1) r.key (cap + 1) (hash r.key &&& (cap - 1)) = some i ∧
      (t i).isUsed = false ∧ Table (update t i r) cap ∧
      ∀ r', Holds (update t i r) cap r' ↔ r' = r ∨ Holds t cap r' := by
  have habs' : ∀ i < cap, occupant t i ≠ some r.key := by
    intro i hi ho
    obtain ⟨hu', hk⟩ := occupant_eq_some.1 ho
    exact habs _ ⟨hu', i, hi, rfl⟩ hk
  obtain ⟨j, hj, -⟩ := hT.exists_ends hroom r.key
  have hstart := Nat.mod_lt (hash r.key) hT.cap_pos
  have hlt : (hash r.key % cap + j) % cap < cap := Nat.mod_lt _ hT.cap_pos
  have hfree := occupant_eq_none.1 (Chained.free_of_absent habs' hstart hj)
  have hocc : occupant (update t ((hash r.key % cap + j) % cap) r) =
      update (occupant t) ((hash r.key % cap + j) % cap) (some r.key) := by
    funext i
    by_cases hi : i = (hash r.key % cap + j) % cap
    · subst hi
      rw [update_self, occupant_eq_some, update_self]
      exact ⟨hu, rfl⟩
    · rw [update_of_ne hi, occupant, update_of_ne hi]
      rfl
  refine ⟨_, hlt, hT.slotFrom_ends hj, hfree, ⟨hT.pow, ?_, fun i hi hu' => ?_⟩, fun r' => ?_⟩
  · rw [hocc]
    exact hT.chained.insert habs' hj
  · rw [update_apply] at hu' ⊢
    split_ifs at hu' ⊢
    · exact hkey
    · exact hT.keys i hi hu'
  · constructor
    · rintro ⟨hu', i, hi, rfl⟩
      rw [update_apply] at hu' ⊢
      split_ifs at hu' ⊢
      · exact Or.inl rfl
      · exact Or.inr ⟨hu', i, hi, rfl⟩
    · rintro (rfl | ⟨hu', i, hi, rfl⟩)
      · exact ⟨hu, _, hlt, update_self _ _ _⟩
      · refine ⟨hu', i, hi, update_of_ne ?_ _ _⟩
        rintro rfl
        rw [hfree] at hu'
        exact absurd hu' (by decide)

theorem overwrite (hT : Table t cap) (hi : i < cap) (hold : (t i).isUsed = true)
    (hu : r.isUsed = true) (hkey : r.key = (t i).key) :
    Table (update t i r) cap ∧
      ∀ r', Holds (update t i r) cap r' ↔ r' = r ∨ (Holds t cap r' ∧ r'.key ≠ r.key) := by
  have hocc : occupant (update t i r) = occupant t := by
    funext x
    by_cases hx : x = i
    · subst hx
      rw [occupant, update_self, if_pos hu, occupant, if_pos hold, hkey]
    · rw [occupant, update_of_ne hx]
      rfl
  refine ⟨⟨hT.pow, by rw [hocc]; exact hT.chained, fun x hx hu' => ?_⟩, fun r' => ?_⟩
  · rw [update_apply] at hu' ⊢
    split_ifs at hu' ⊢
    · rw [hkey]
      exact hT.keys i hi hold
    · exact hT.keys x hx hu'
  · constructor
    · rintro ⟨hu', x, hx, rfl⟩
      rw [update_apply] at hu' ⊢
      split_ifs at hu' ⊢ with hxi
      · exact Or.inl rfl
      · refine Or.inr ⟨⟨hu', x, hx, rfl⟩, fun hk => hxi ?_⟩
        exact hT.chained.unique hx hi (occupant_eq_some.2 ⟨hu', rfl⟩)
          (occupant_eq_some.2 ⟨hold, hkey.symm.trans hk.symm⟩)
    · rintro (rfl | ⟨⟨hu', x, hx, rfl⟩, hne⟩)
      · exact ⟨hu, i, hi, update_self _ _ _⟩
      · refine ⟨hu', x, hx, update_of_ne ?_ _ _⟩
        rintro rfl
        exact hne hkey.symm

end Table
end Probe
end AbcMalloc.Doctor
