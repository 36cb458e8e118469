import AbcMalloc.Foundation.Bits
import Mathlib.Data.List.Sort

/-! Arrays and multi-word bitmaps in which an entry is inserted or dropped by moving the ones
behind it, entry by entry and word by word, as lists. -/
namespace AbcMalloc.Foundation
open Function

/-! ## Arrays -/

section Arrays
variable {α β : Type*} {a : ℕ → α} {n pos i : ℕ} {x : α}

/-- `for (i = n; i > pos; --i) a[i] = a[i - 1]` -/
def shiftRight (a : ℕ → α) (pos : ℕ) : ℕ → ℕ → α
  | 0 => a
  | i + 1 => if pos < i + 1 then shiftRight (update a (i + 1) (a i)) pos i else a

/-- `for (i = pos; i + 1 < n; ++i) a[i] = a[i + 1]` -/
def shiftLeft (a : ℕ → α) (n pos : ℕ) : ℕ → α :=
  if pos + 1 < n then shiftLeft (update a pos (a (pos + 1))) n (pos + 1) else a
termination_by n - pos

theorem shiftRight_apply :
    shiftRight a pos n i = if pos < i ∧ i ≤ n then a (i - 1) else a i := by
  induction n generalizing a with
  | zero =>
    rw [shiftRight, if_neg (by omega)]
  | succ n ih =>
    rw [shiftRight]
    by_cases h : pos < n + 1
    · rw [if_pos h, ih]
      rcases eq_or_ne i (n + 1) with rfl | hne
      · rw [if_neg (by omega), if_pos ⟨h, le_rfl⟩, update_self, Nat.add_sub_cancel]
      · have hiff : (pos < i ∧ i ≤ n) ↔ (pos < i ∧ i ≤ n + 1) := by omega
        rw [update_of_ne hne]
        simp only [hiff]
        split_ifs with hi
        · rw [update_of_ne (by omega)]
        · rfl
    · rw [if_neg h, if_neg (by omega)]

theorem shiftLeft_apply :
    shiftLeft a n pos i = if pos ≤ i ∧ i + 1 < n then a (i + 1) else a i := by
  fun_induction shiftLeft a n pos with
  | case1 a pos h ih =>
    rw [ih]
    rcases eq_or_ne i pos with rfl | hne
    · rw [if_neg (by omega), if_pos ⟨le_rfl, h⟩, update_self]
    · rw [update_of_ne hne]
      by_cases hi : pos < i
      · rw [update_of_ne (show i + 1 ≠ pos by omega)]
        have hiff : (pos + 1 ≤ i ∧ i + 1 < n) ↔ (pos ≤ i ∧ i + 1 < n) := by omega
        simp only [hiff]
      · rw [if_neg (by omega), if_neg (by omega)]
  | case2 a pos h => rw [if_neg (by omega)]

def toList (a : ℕ → α) (n : ℕ) : List α := (List.range n).map a

@[simp] theorem length_toList : (toList a n).length = n := by simp [toList]

@[simp] theorem getElem_toList (h : i < (toList a n).length) : (toList a n)[i] = a i := by
  simp [toList]

theorem getElem?_toList (h : i < n) : (toList a n)[i]? = some (a i) := by
  simp [toList, h]

/-- Entries that move up by one and make room at `pos` insert into the list. -/
theorem toList_insert {a' : ℕ → α} (hpos : pos ≤ n) (hlt : ∀ i < pos, a' i = a i)
    (hself : a' pos = x) (hge : ∀ i, pos ≤ i → i < n → a' (i + 1) = a i) :
    toList a' (n + 1) = (toList a n).insertIdx pos x := by
  apply List.ext_getElem
  · rw [List.length_insertIdx, length_toList, length_toList, if_pos hpos]
  · intro i h₁ h₂
    rw [length_toList] at h₁
    rw [getElem_toList, List.getElem_insertIdx]
    split_ifs with hi he
    · rw [getElem_toList, hlt i hi]
    · rw [he, hself]
    · obtain ⟨j, rfl⟩ : ∃ j, i = j + 1 := ⟨i - 1, by omega⟩
      rw [getElem_toList, hge j (by omega) (by omega), Nat.add_sub_cancel]

/-- Entries that move down by one onto `pos` drop it from the list. -/
theorem toList_erase {a' : ℕ → α} (hpos : pos < n) (hlt : ∀ i < pos, a' i = a i)
    (hge : ∀ i, pos ≤ i → i + 1 < n → a' i = a (i + 1)) :
    toList a' (n - 1) = (toList a n).eraseIdx pos := by
  apply List.ext_getElem
  · rw [List.length_eraseIdx, length_toList, length_toList, if_pos hpos]
  · intro i h₁ h₂
    rw [length_toList] at h₁
    rw [getElem_toList, List.getElem_eraseIdx]
    split_ifs with hi
    · rw [getElem_toList, hlt i hi]
    · rw [getElem_toList, hge i (by omega) (by omega)]

theorem toList_modify {a' : ℕ → α} {f : α → α} (hself : a' pos = f (a pos))
    (hne : ∀ i < n, i ≠ pos → a' i = a i) : toList a' n = (toList a n).modify pos f := by
  apply List.ext_getElem
  · rw [List.length_modify, length_toList, length_toList]
  · intro i h₁ h₂
    rw [length_toList] at h₁
    rw [getElem_toList, List.getElem_modify]
    split_ifs with hi
    · subst hi
      rw [hself, getElem_toList]
    · rw [getElem_toList, hne i h₁ fun h => hi h.symm]

theorem length_takeWhile_eq {p : α → Bool} {l : List α} {pos : ℕ} (hpos : pos ≤ l.length)
    (hlt : ∀ (i : ℕ) (hi : i < l.length), i < pos → p l[i] = true)
    (hge : ∀ hp : pos < l.length, p l[pos] = false) : (l.takeWhile p).length = pos := by
  induction l generalizing pos with
  | nil =>
    obtain rfl : pos = 0 := by simpa using hpos
    rfl
  | cons y l ih =>
    cases pos with
    | zero =>
      have hfail : p y = false := hge (by simp)
      simp [hfail]
    | succ pos =>
      have hpass : p y = true := hlt 0 (by simp) (by omega)
      rw [List.takeWhile_cons_of_pos hpass, List.length_cons, ih]
      · simpa using hpos
      · intro i hi hip
        exact hlt (i + 1) (by simpa using hi) (by omega)
      · intro hp
        exact hge (by simpa using hp)

/-- Insertion by order, at the position where the order says so. -/
theorem orderedInsert_eq_insertIdx {rel : α → α → Prop} [DecidableRel rel] {l : List α} {pos : ℕ}
    (hpos : pos ≤ l.length) (hlt : ∀ (i : ℕ) (hi : i < l.length), i < pos → ¬rel x l[i])
    (hge : ∀ hp : pos < l.length, rel x l[pos]) :
    l.orderedInsert rel x = l.insertIdx pos x := by
  induction l generalizing pos with
  | nil =>
    obtain rfl : pos = 0 := by simpa using hpos
    rfl
  | cons y l ih =>
    cases pos with
    | zero =>
      have hle : rel x y := hge (by simp)
      rw [List.orderedInsert_cons_of_le _ _ hle, List.insertIdx_zero]
    | succ pos =>
      have hpos' : pos ≤ l.length := by simpa using hpos
      have hnot : ¬rel x y := hlt 0 (by simp) (by omega)
      rw [List.orderedInsert_of_not_le _ _ hnot, List.insertIdx_succ_cons, ih hpos']
      · intro i hi hip
        exact hlt (i + 1) (by simpa using hi) (by omega)
      · intro hp
        exact hge (by simpa using hp)

end Arrays

/-! ## Bitmaps -/

section Bitmaps
variable {m : ℕ → BitVec 64} {c : BitVec 64} {words w j : ℕ}

def bit (m : ℕ → BitVec 64) (i : ℕ) : Bool := (m (i / 64)).getLsbD (i % 64)

/-- The words from `w` on move up by one bit, `c` coming in from below. -/
def carryUp (words : ℕ) (m : ℕ → BitVec 64) (c : BitVec 64) (w : ℕ) : ℕ → BitVec 64 :=
  if w < words then
    carryUp words (update m w ((m w <<< 1) ||| c)) ((m w >>> 63) &&& 1#64) (w + 1)
  else m
termination_by words - w

/-- The words from `w` on move down by one bit. -/
def carryDown (words : ℕ) (m : ℕ → BitVec 64) (w : ℕ) : ℕ → BitVec 64 :=
  if w < words then
    let next := if w + 1 < words then m (w + 1) &&& 1#64 else 0
    carryDown words (update m w ((m w >>> 1) ||| (next <<< 63))) (w + 1)
  else m
termination_by words - w

theorem carryUp_apply : carryUp words m c w j =
    if w ≤ j ∧ j < words then
      (m j <<< 1) ||| (if j = w then c else (m (j - 1) >>> 63) &&& 1#64)
    else m j := by
  fun_induction carryUp words m c w with
  | case1 m c w h ih =>
    rw [ih]
    rcases lt_trichotomy j w with hlt | rfl | hgt
    · rw [if_neg (by omega), if_neg (by omega), update_of_ne (by omega)]
    · rw [if_neg (by omega), if_pos (show j ≤ j ∧ j < words from ⟨le_rfl, h⟩), if_pos rfl,
        update_self]
    · by_cases hj : j < words
      · rw [if_pos ⟨hgt, hj⟩, if_pos (show w ≤ j ∧ j < words from ⟨hgt.le, hj⟩),
          if_neg (show j ≠ w by omega), update_of_ne (by omega)]
        by_cases hnext : j = w + 1
        · rw [if_pos hnext, hnext, Nat.add_sub_cancel]
        · rw [if_neg hnext, update_of_ne (show j - 1 ≠ w by omega)]
      · rw [if_neg (by omega), if_neg (by omega), update_of_ne (by omega)]
  | case2 m c w h => rw [if_neg (by omega)]

theorem carryDown_apply : carryDown words m w j =
    if w ≤ j ∧ j < words then
      (m j >>> 1) ||| ((if j + 1 < words then m (j + 1) &&& 1#64 else 0) <<< 63)
    else m j := by
  fun_induction carryDown words m w with
  | case1 m w h next ih =>
    rw [ih]
    rcases lt_trichotomy j w with hlt | rfl | hgt
    · rw [if_neg (by omega), if_neg (by omega), update_of_ne (by omega)]
    · rw [if_neg (by omega), if_pos (show j ≤ j ∧ j < words from ⟨le_rfl, h⟩), update_self]
      simp [next]
    · have hiff : (w + 1 ≤ j ∧ j < words) ↔ (w ≤ j ∧ j < words) := by omega
      simp only [hiff]
      rw [update_of_ne (show j ≠ w by omega), update_of_ne (show j + 1 ≠ w by omega)]
  | case2 m w h => rw [if_neg (by omega)]

end Bitmaps
end AbcMalloc.Foundation
