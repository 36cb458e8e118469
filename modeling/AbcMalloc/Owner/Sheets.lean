import AbcMalloc.Book
import AbcMalloc.Owner.Oor
import AbcMalloc.Owner.Table

/-! `__sheet_register`, `__sheet_unregister` and `__owner_of` (`sheet_header.hpp`) as one caller
sees them: a sheet in the reservation is named granule by granule in the owner table, any other
in the list of `Oor`. -/
namespace AbcMalloc.Owner
open Function Va

/-- `__va_base`, `__block_owner_table` and the sheets outside of the reservation. -/
structure Owners (α : Type*) where
  base : ℕ
  table : ℕ → Option α
  oor : Oor α

/-- The stores of `n` granules from the granule `first` on. -/
def fill {α : Type*} (first : ℕ) (v : Option α) (table : ℕ → Option α) : ℕ → ℕ → Option α
  | 0 => table
  | n + 1 => update (fill first v table n) (first + n) v

namespace Owners
variable {α : Type*} (c : VaConfig)

def empty : Owners α := ⟨0, fun _ => none, ⟨[], 0⟩⟩

def vaContains (s : Owners α) (p : ℕ) : Bool :=
  s.base ≠ 0 && (s.base ≤ p && p < s.base + c.reservation)

def blockIndex (s : Owners α) (p : ℕ) : ℕ := Table.blockIndex c (p - s.base)

def sheetRegister (s : Owners α) (arena : α) (mem : Chunk) : Owners α :=
  if s.vaContains c mem.ptr then
    { s with
      table := fill (s.blockIndex c mem.ptr) (some arena) s.table (Table.blocks c mem.len) }
  else { s with oor := oorInsert s.oor arena mem.ptr mem.len }

def sheetUnregister (s : Owners α) (mem : Chunk) : Owners α :=
  if s.vaContains c mem.ptr then
    { s with table := fill (s.blockIndex c mem.ptr) none s.table (Table.blocks c mem.len) }
  else { s with oor := oorRetire s.oor mem.ptr mem.len }

def ownerOf (s : Owners α) (p : ℕ) : Option α :=
  if s.vaContains c p then s.table (s.blockIndex c p) else oorOwnerOf s.oor p

end Owners

/-! ## Granules -/

section Granules
variable {α : Type*} {c : VaConfig} {s : Owners α} {x y : α} {m d : Chunk} {p : ℕ}

theorem fill_apply {first : ℕ} {v : Option α} {table : ℕ → Option α} {n g : ℕ} :
    fill first v table n g = if first ≤ g ∧ g < first + n then v else table g := by
  induction n with
  | zero =>
    rw [fill, if_neg (by omega)]
  | succ n ih =>
    rw [fill]
    by_cases hg : g = first + n
    · rw [hg, update_self, if_pos (by omega)]
    · rw [update_of_ne hg, ih]
      exact if_congr (by omega) rfl rfl

structure Within (c : VaConfig) (s : Owners α) (m : Chunk) : Prop where
  base : s.base ≠ 0
  ptr : s.base ≤ m.ptr
  top : m.ptr + m.len ≤ s.base + c.reservation
  first : c.sheetAlign ∣ m.ptr - s.base
  whole : c.sheetAlign ∣ m.len

instance (c : VaConfig) (s : Owners α) (m : Chunk) : Decidable (Within c s m) :=
  decidable_of_iff (s.base ≠ 0 ∧ s.base ≤ m.ptr ∧ m.ptr + m.len ≤ s.base + c.reservation ∧
    c.sheetAlign ∣ m.ptr - s.base ∧ c.sheetAlign ∣ m.len)
    ⟨fun ⟨h₁, h₂, h₃, h₄, h₅⟩ => ⟨h₁, h₂, h₃, h₄, h₅⟩,
      fun ⟨h₁, h₂, h₃, h₄, h₅⟩ => ⟨h₁, h₂, h₃, h₄, h₅⟩⟩

def Beyond (c : VaConfig) (s : Owners α) (m : Chunk) : Prop :=
  s.base = 0 ∨ m.ptr + m.len ≤ s.base ∨ s.base + c.reservation ≤ m.ptr

instance (c : VaConfig) (s : Owners α) (m : Chunk) : Decidable (Beyond c s m) :=
  inferInstanceAs (Decidable (_ ∨ _))

/-- Where a kernel chunk can lie: it is carved from the reservation or mapped elsewhere. -/
def Placed (c : VaConfig) (s : Owners α) (m : Chunk) : Prop := Within c s m ∨ Beyond c s m

instance (c : VaConfig) (s : Owners α) (m : Chunk) : Decidable (Placed c s m) :=
  inferInstanceAs (Decidable (_ ∨ _))

/-- The granules of a carved sheet name its arena. -/
def Owners.Names (c : VaConfig) (s : Owners α) (x : α) (m : Chunk) : Prop :=
  Within c s m → ∀ p, m.ptr ≤ p → p < m.ptr + m.len → s.table (s.blockIndex c p) = some x

theorem vaContains_iff : s.vaContains c p = true ↔
    s.base ≠ 0 ∧ s.base ≤ p ∧ p < s.base + c.reservation := by
  simp [Owners.vaContains]

theorem Beyond.not_contains (h : Beyond c s m) (hp : m.ptr ≤ p) (hlt : p < m.ptr + m.len) :
    s.vaContains c p = false := by
  rw [← Bool.not_eq_true, vaContains_iff]
  unfold Beyond at h
  omega

theorem Within.contains (h : Within c s m) (hp : m.ptr ≤ p) (hlt : p < m.ptr + m.len) :
    s.vaContains c p = true := by
  rw [vaContains_iff]
  exact ⟨h.base, h.ptr.trans hp, hlt.trans_le h.top⟩

theorem Placed.within (h : Placed c s m) (hpos : 0 < m.len)
    (hin : s.vaContains c m.ptr = true) : Within c s m := by
  rcases h with h | h
  · exact h
  · rw [h.not_contains le_rfl (by omega)] at hin
    exact absurd hin (by decide)

/-- The granules that the loops write are those of the addresses of the chunk. -/
theorem Within.granule_iff (h : Within c s m) (hp : s.base ≤ p) :
    (s.blockIndex c m.ptr ≤ s.blockIndex c p ∧
        s.blockIndex c p < s.blockIndex c m.ptr + Table.blocks c m.len) ↔
      m.ptr ≤ p ∧ p < m.ptr + m.len := by
  have hG := c.sheetAlign_pos
  have hptr := h.ptr
  have htop := h.top
  obtain ⟨k, hk⟩ := h.first
  obtain ⟨n, hn⟩ := h.whole
  have hlen : m.len ≤ c.reservation := by omega
  rw [Table.blocks_eq hlen h.whole]
  unfold Owners.blockIndex Table.blockIndex
  rw [hk, hn, Nat.mul_div_cancel_left _ hG, Nat.mul_div_cancel_left _ hG, Nat.le_div_iff_mul_le hG,
    Nat.div_lt_iff_lt_mul hG, Nat.mul_comm k, Nat.add_mul, Nat.mul_comm k, Nat.mul_comm n,
    ← hk, ← hn]
  omega

theorem Within.congr {s' : Owners α} (hbase : s'.base = s.base) :
    Within c s' m ↔ Within c s m := by
  constructor
  · rintro ⟨h₁, h₂, h₃, h₄, h₅⟩
    rw [hbase] at h₁ h₂ h₃ h₄
    exact ⟨h₁, h₂, h₃, h₄, h₅⟩
  · rintro ⟨h₁, h₂, h₃, h₄, h₅⟩
    rw [← hbase] at h₁ h₂ h₃ h₄
    exact ⟨h₁, h₂, h₃, h₄, h₅⟩

@[simp] theorem sheetRegister_base (c : VaConfig) (s : Owners α) (x : α) (m : Chunk) :
    (s.sheetRegister c x m).base = s.base := by
  unfold Owners.sheetRegister
  split_ifs <;> rfl

@[simp] theorem sheetUnregister_base (c : VaConfig) (s : Owners α) (m : Chunk) :
    (s.sheetUnregister c m).base = s.base := by
  unfold Owners.sheetUnregister
  split_ifs <;> rfl

theorem Within.ptr_contains (h : Within c s m) (hpos : 0 < m.len) : s.vaContains c m.ptr = true :=
  h.contains le_rfl (Nat.lt_add_of_pos_right hpos)

theorem Within.fill_other (h : Within c s m) (v : Option α) (hp : s.base ≤ p)
    (hout : ¬(m.ptr ≤ p ∧ p < m.ptr + m.len)) :
    fill (s.blockIndex c m.ptr) v s.table (Table.blocks c m.len) (s.blockIndex c p) =
      s.table (s.blockIndex c p) := by
  rw [fill_apply, if_neg fun hg => hout ((h.granule_iff hp).1 hg)]

theorem Owners.Names.register_self (hpos : 0 < m.len) : (s.sheetRegister c x m).Names c x m := by
  intro hw p hp hlt
  have hold : Within c s m := (Within.congr (sheetRegister_base c s x m)).1 hw
  unfold Owners.sheetRegister
  rw [if_pos (hold.ptr_contains hpos)]
  show fill (s.blockIndex c m.ptr) (some x) s.table (Table.blocks c m.len) (s.blockIndex c p) = _
  rw [fill_apply, if_pos ((hold.granule_iff (hold.ptr.trans hp)).2 ⟨hp, hlt⟩)]

variable (hm : Placed c s m) (hpos : 0 < m.len)
  (hapart : m.ptr + m.len ≤ d.ptr ∨ d.ptr + d.len ≤ m.ptr)
include hm hpos hapart

theorem Owners.Names.register (h : s.Names c y d) : (s.sheetRegister c x m).Names c y d := by
  intro hw p hp hlt
  have hold : Within c s d := (Within.congr (sheetRegister_base c s x m)).1 hw
  unfold Owners.sheetRegister
  split_ifs with hin
  · show fill (s.blockIndex c m.ptr) (some x) s.table (Table.blocks c m.len) (s.blockIndex c p) = _
    rw [(hm.within hpos hin).fill_other _ (hold.ptr.trans hp) (by omega)]
    exact h hold p hp hlt
  · exact h hold p hp hlt

theorem Owners.Names.unregister (h : s.Names c y d) : (s.sheetUnregister c m).Names c y d := by
  intro hw p hp hlt
  have hold : Within c s d := (Within.congr (sheetUnregister_base c s m)).1 hw
  unfold Owners.sheetUnregister
  split_ifs with hin
  · show fill (s.blockIndex c m.ptr) none s.table (Table.blocks c m.len) (s.blockIndex c p) = _
    rw [(hm.within hpos hin).fill_other _ (hold.ptr.trans hp) (by omega)]
    exact h hold p hp hlt
  · exact h hold p hp hlt

end Granules
end AbcMalloc.Owner
