import AbcMalloc.Foundation.Run
import Mathlib.Data.List.GetD
import Mathlib.Tactic

/-! The virtual address allocator of `va_reserve.hpp`: one reservation, a bump cursor and a
list of released runs. The functions here are those of a single caller; `micron::mmap` is a
parameter. Addresses and sizes are natural numbers with explicit wrap-around, `0` is the
null pointer, and `__va_bump_fail` is `none`. -/
namespace AbcMalloc.Va
open Foundation

/-- Build-time parameters: the width of `usize` and `MICRON_ABC_VA_RESERVE_SIZE`, with the two
static assertions of the source. The last field says that the reservation is an object of
the target and that its number of granules fits in `__va_free_run::granules`. -/
structure VaConfig where
  is64 : Bool
  reservation : ℕ
  whole : (if is64 then 2 ^ 21 else 2 ^ 16) ∣ reservation
  nonempty : (if is64 then 2 ^ 21 else 2 ^ 16) ≤ reservation
  bounded : reservation < if is64 then 2 ^ 53 else 2 ^ 32

namespace VaConfig
variable (c : VaConfig)

def width : ℕ := if c.is64 then 64 else 32

/-- `__sheet_align`, the granule. -/
def sheetAlign : ℕ := if c.is64 then 2 ^ 21 else 2 ^ 16

def freeGranules : ℕ := c.reservation / c.sheetAlign

def freeCap : ℕ := if c.is64 then c.freeGranules else min 1024 c.freeGranules

/-- `(bytes + __sheet_align_mask) & ~__sheet_align_mask` on `usize`. -/
def roundUp (bytes : ℕ) : ℕ :=
  (bytes + (c.sheetAlign - 1)) % 2 ^ c.width / c.sheetAlign * c.sheetAlign

/-- `static_cast<u32>(rounded >> __sheet_align_log2)`. -/
def granules (rounded : ℕ) : ℕ := rounded / c.sheetAlign % 2 ^ 32

end VaConfig

/-- The two default configurations. -/
def va64 : VaConfig := ⟨true, 256 * 2 ^ 30, by decide, by decide, by decide⟩
def va32 : VaConfig := ⟨false, 1024 * 2 ^ 20, by decide, by decide, by decide⟩

structure FreeRun where
  off : ℕ
  granules : ℕ
  deriving DecidableEq, Repr

/-- `__va_base`, `__va_offset` and the first `__va_free_count` entries of `__va_free_runs`. -/
structure VaState where
  base : ℕ
  offset : ℕ
  runs : List FreeRun
  deriving DecidableEq

def VaState.init : VaState := ⟨0, 0, []⟩

/-- The results of `micron::mmap` that a call meets: the address of the reservation (`0` when
it failed) and whether a fixed mapping of a range succeeds. -/
structure Kernel where
  reserve : ℕ
  commit : ℕ → ℕ → Bool

/-! ## The free-run list -/

/-- The search of `__va_reuse`, from index `i - 1` down. -/
def findBest (runs : List FreeRun) (want : ℕ) : ℕ → Option ℕ → Option ℕ
  | 0, best => best
  | i + 1, best =>
    let g := (runs.getD i ⟨0, 0⟩).granules
    if g < want then findBest runs want i best
    else
      let best := match best with
        | none => i
        | some j => if g < (runs.getD j ⟨0, 0⟩).granules then i else j
      if g = want then some best else findBest runs want i (some best)

/-- `__va_reuse`: the offset handed out and the list afterwards. -/
def reuse (c : VaConfig) (runs : List FreeRun) (want : ℕ) : Option (ℕ × List FreeRun) :=
  (findBest runs want runs.length none).map fun best =>
    let r := runs.getD best ⟨0, 0⟩
    (r.off,
      if want < r.granules then
        runs.set best ⟨(r.off + want * c.sheetAlign) % 2 ^ 64, r.granules - want⟩
      else (runs.set best (runs.getLastD r)).dropLast)

/-- The insertion at the end of `__va_release`. -/
def pushRun (c : VaConfig) (runs : List FreeRun) (r : FreeRun) : List FreeRun :=
  if runs.length < c.freeCap then runs ++ [r] else runs

/-! ## Carving and releasing -/

def reserveOnce (k : Kernel) (v : VaState) : VaState :=
  if v.base = 0 then { v with base := k.reserve } else v

/-- `__va_bump` without a competing thread. -/
def bump (c : VaConfig) (v : VaState) (rounded : ℕ) : Option (ℕ × VaState) :=
  if c.reservation < (v.offset + rounded) % 2 ^ 64 then none
  else some (v.offset, { v with offset := (v.offset + rounded) % 2 ^ 64 })

/-- The end of `__va_carve`: bump the cursor and commit. -/
def carveFresh (c : VaConfig) (k : Kernel) (v : VaState) (rounded : ℕ) : ℕ × VaState :=
  match bump c v rounded with
  | none => (0, v)
  | some (off, v) => (if k.commit (v.base + off) rounded then v.base + off else 0, v)

def carve (c : VaConfig) (k : Kernel) (v : VaState) (bytes : ℕ) : ℕ × VaState :=
  let v := reserveOnce k v
  if v.base = 0 then (0, v)
  else
    let rounded := c.roundUp bytes
    match reuse c v.runs (c.granules rounded) with
    | some (off, runs) =>
      let v := { v with runs := runs }
      if k.commit (v.base + off) rounded then (v.base + off, v) else carveFresh c k v rounded
    | none => carveFresh c k v rounded

def carveReserved (c : VaConfig) (k : Kernel) (v : VaState) (bytes : ℕ) : ℕ × VaState :=
  let v := reserveOnce k v
  if v.base = 0 then (0, v)
  else
    let rounded := c.roundUp bytes
    match reuse c v.runs (c.granules rounded) with
    | some (off, runs) => (v.base + off, { v with runs := runs })
    | none =>
      match bump c v rounded with
      | none => (0, v)
      | some (off, v) => (v.base + off, v)

def release (c : VaConfig) (v : VaState) (slot bytes : ℕ) : VaState :=
  if slot = 0 ∨ v.base = 0 ∨ slot < v.base ∨ v.base + c.reservation ≤ slot then v
  else { v with runs := pushRun c v.runs ⟨slot - v.base, c.granules (c.roundUp bytes)⟩ }

/-! ## Calls in sequence -/

inductive Call
  | carve (k : Kernel) (bytes : ℕ)
  | carveReserved (k : Kernel) (bytes : ℕ)
  | release (slot bytes : ℕ)

def call (c : VaConfig) (v : VaState) : Call → Option VaState
  | .carve k bytes => some (carve c k v bytes).2
  | .carveReserved k bytes => some (carveReserved c k v bytes).2
  | .release slot bytes => some (release c v slot bytes)

/-! ## Arithmetic of granules -/

namespace VaConfig
variable (c : VaConfig)

theorem sheetAlign_pos : 0 < c.sheetAlign := by
  unfold sheetAlign
  split_ifs <;> decide

theorem sheetAlign_dvd : c.sheetAlign ∣ c.reservation := c.whole

theorem reservation_lt : c.reservation < 2 ^ 53 := by
  have := c.bounded
  split_ifs at this <;> omega

theorem reservation_add_le : c.reservation + c.sheetAlign ≤ 2 ^ c.width := by
  have h := c.bounded
  have hd := c.whole
  unfold sheetAlign width
  split_ifs at h hd ⊢ <;> omega

theorem dvd_roundUp (bytes : ℕ) : c.sheetAlign ∣ c.roundUp bytes := Nat.dvd_mul_left _ _

/-- A request of at most the reservation rounds exactly. -/
theorem roundUp_spec {bytes : ℕ} (h : bytes ≤ c.reservation) :
    bytes ≤ c.roundUp bytes ∧ c.roundUp bytes < bytes + c.sheetAlign ∧
      c.roundUp bytes ≤ c.reservation := by
  have hG := c.sheetAlign_pos
  have hw := c.reservation_add_le
  have hlt : bytes + (c.sheetAlign - 1) < 2 ^ c.width := by omega
  have h₁ := Nat.div_mul_le_self (bytes + (c.sheetAlign - 1)) c.sheetAlign
  have h₂ := Nat.lt_div_mul_add (a := bytes + (c.sheetAlign - 1)) hG
  unfold roundUp
  rw [Nat.mod_eq_of_lt hlt]
  refine ⟨by omega, by omega, ?_⟩
  refine Nat.le_of_lt_add_of_dvd (n := c.sheetAlign) ?_ (Nat.dvd_mul_left _ _) c.sheetAlign_dvd
  omega

/-- The granule count of a rounded request is not truncated. -/
theorem granules_mul {rounded : ℕ} (h : rounded ≤ c.reservation) (hd : c.sheetAlign ∣ rounded) :
    c.granules rounded * c.sheetAlign = rounded := by
  have hG := c.sheetAlign_pos
  have hlt : rounded / c.sheetAlign < 2 ^ 32 := by
    rw [Nat.div_lt_iff_lt_mul hG]
    have hb := c.bounded
    unfold sheetAlign
    split_ifs at hb ⊢ <;> omega
  rw [granules, Nat.mod_eq_of_lt hlt, Nat.div_mul_cancel hd]

end VaConfig

/-! ## The search -/

theorem findBest_some {runs : List FreeRun} {want : ℕ} (n : ℕ) : ∀ {best : Option ℕ} {j : ℕ},
    n ≤ runs.length →
    (∀ i, best = some i → i < runs.length ∧ want ≤ (runs.getD i ⟨0, 0⟩).granules) →
    findBest runs want n best = some j →
      j < runs.length ∧ want ≤ (runs.getD j ⟨0, 0⟩).granules := by
  induction n with
  | zero =>
    intro best j _ hbest hj
    exact hbest j hj
  | succ n ih =>
    intro best j hn hbest hj
    simp only [findBest] at hj
    split_ifs at hj with h₁ h₂
    · exact ih (by omega) hbest hj
    · cases best with
      | none => grind
      | some i => grind
    · refine ih (by omega) (fun i hi => ?_) hj
      cases best with
      | none => grind
      | some i => grind

theorem findBest_eq_none {runs : List FreeRun} {want : ℕ} (n : ℕ) : ∀ {best : Option ℕ},
    findBest runs want n best = none ↔
      best = none ∧ ∀ i < n, (runs.getD i ⟨0, 0⟩).granules < want := by
  induction n with
  | zero => simp [findBest]
  | succ n ih =>
    intro best
    simp only [findBest]
    split_ifs with h₁ h₂
    · rw [ih]
      refine and_congr_right fun _ => ⟨fun h i hi => ?_, fun h i hi => h i (by omega)⟩
      rcases Nat.lt_succ_iff_lt_or_eq.1 hi with hi | rfl
      · exact h i hi
      · exact h₁
    · simp only [false_iff, not_and]
      exact fun _ h => h₁ (h n (by omega))
    · rw [ih]
      simp only [reduceCtorEq, false_and, false_iff, not_and]
      exact fun _ h => h₁ (h n (by omega))

/-- Nothing is reused exactly when every run is too short. -/
theorem reuse_eq_none {c : VaConfig} {runs : List FreeRun} {want : ℕ} :
    reuse c runs want = none ↔ ∀ r ∈ runs, r.granules < want := by
  rw [reuse, Option.map_eq_none_iff, findBest_eq_none]
  simp only [true_and, List.mem_iff_getElem, forall_exists_index]
  constructor
  · rintro h r i hi rfl
    have := h i hi
    rwa [List.getD_eq_getElem _ _ hi] at this
  · intro h i hi
    rw [List.getD_eq_getElem _ _ hi]
    exact h _ i hi rfl

end AbcMalloc.Va
