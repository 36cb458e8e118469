import Mathlib.Data.List.Basic
import Mathlib.Logic.Function.Basic

/-! Linked lists over an arbitrary store of nodes. `Path next l n` says that following
`next` through `l` ends at `n`; `Seg next prev p l n` adds the back links, the first
node pointing back to `p`. The edits below are the ones intrusive free lists make:
linking a node in front, unlinking a node, and writing to nodes of other lists; the last
section has the stores that unlink a node in a list that ends in a null. -/
namespace AbcMalloc.Foundation
open Function

variable {α : Type*} {next prev next' prev' : α → α}

/-- Each node of `l` points to the following one, the last node to `n`. -/
def Path (next : α → α) : List α → α → Prop
  | [], _ => True
  | x :: xs, n => next x = xs.headD n ∧ Path next xs n

/-- A doubly linked segment between the nodes `p` and `n`. -/
def Seg (next prev : α → α) : α → List α → α → Prop
  | _, [], _ => True
  | p, x :: xs, n => prev x = p ∧ next x = xs.headD n ∧ Seg next prev x xs n

@[simp] theorem path_nil (n : α) : Path next [] n := trivial

@[simp] theorem path_cons (x : α) (xs : List α) (n : α) :
    Path next (x :: xs) n ↔ next x = xs.headD n ∧ Path next xs n := Iff.rfl

@[simp] theorem seg_nil (p n : α) : Seg next prev p [] n := trivial

@[simp] theorem seg_cons (p x : α) (xs : List α) (n : α) :
    Seg next prev p (x :: xs) n ↔
      prev x = p ∧ next x = xs.headD n ∧ Seg next prev x xs n := Iff.rfl

theorem Path.congr {l : List α} {n : α} (h : Path next l n) (hn : ∀ x ∈ l, next' x = next x) :
    Path next' l n := by
  induction l with
  | nil => trivial
  | cons x xs ih =>
    exact ⟨(hn x List.mem_cons_self).trans h.1,
      ih h.2 fun y hy => hn y (List.mem_cons_of_mem x hy)⟩

theorem Seg.congr {l : List α} {p n : α} (h : Seg next prev p l n)
    (hn : ∀ x ∈ l, next' x = next x) (hp : ∀ x ∈ l, prev' x = prev x) :
    Seg next' prev' p l n := by
  induction l generalizing p with
  | nil => trivial
  | cons x xs ih =>
    obtain ⟨h₁, h₂, h₃⟩ := h
    exact ⟨(hp x List.mem_cons_self).trans h₁, (hn x List.mem_cons_self).trans h₂,
      ih h₃ (fun y hy => hn y (List.mem_cons_of_mem x hy))
        (fun y hy => hp y (List.mem_cons_of_mem x hy))⟩

theorem seg_append {l₁ l₂ : List α} {p n : α} :
    Seg next prev p (l₁ ++ l₂) n ↔
      Seg next prev p l₁ (l₂.headD n) ∧ Seg next prev (l₁.getLastD p) l₂ n := by
  induction l₁ generalizing p with
  | nil => simp
  | cons x xs ih =>
    have hd : (xs ++ l₂).headD n = xs.headD (l₂.headD n) := by cases xs <;> rfl
    rw [List.cons_append, seg_cons, seg_cons, ih, hd, List.getLastD_cons]
    tauto

/-- Linking `x` in front of a segment: `x` points to the old head, the old head back to `x`. -/
theorem Seg.pushFront {l : List α} {p q n x : α} (h : Seg next prev p l n)
    (hnx : next' x = l.headD n) (hpx : prev' x = q)
    (hn : ∀ y ∈ l, next' y = next y) (hhead : ∀ y ys, l = y :: ys → prev' y = x)
    (hp : ∀ y ys, l = y :: ys → ∀ z ∈ ys, prev' z = prev z) :
    Seg next' prev' q (x :: l) n := by
  refine ⟨hpx, hnx, ?_⟩
  cases l with
  | nil => trivial
  | cons y ys =>
    obtain ⟨-, h₂, h₃⟩ := h
    exact ⟨hhead y ys rfl, (hn y List.mem_cons_self).trans h₂,
      h₃.congr (fun z hz => hn z (List.mem_cons_of_mem y hz)) (hp y ys rfl)⟩

/-- Dropping the first node of a segment needs no write to the remaining nodes. -/
theorem Seg.tail {l : List α} {p n x : α} (h : Seg next prev p (x :: l) n) :
    Seg next prev x l n := h.2.2

/-- Dropping the first node and clearing the back link of the second. -/
theorem Seg.popFront {l : List α} {p q n x : α} (h : Seg next prev p (x :: l) n)
    (hn : ∀ y ∈ l, next' y = next y) (hhead : ∀ y ys, l = y :: ys → prev' y = q)
    (hp : ∀ y ys, l = y :: ys → ∀ z ∈ ys, prev' z = prev z) :
    Seg next' prev' q l n := by
  cases l with
  | nil => trivial
  | cons y ys =>
    obtain ⟨-, h₂, h₃⟩ := h.2.2
    exact ⟨hhead y ys rfl, (hn y List.mem_cons_self).trans h₂,
      h₃.congr (fun z hz => hn z (List.mem_cons_of_mem y hz)) (hp y ys rfl)⟩

/-- Unlinking a node that has a predecessor `z`: the predecessor is linked to the
successor, and the successor, if there is one, back to the predecessor. -/
theorem Seg.unlink {l₁ l₂ : List α} {p n z x : α}
    (h : Seg next prev p (l₁ ++ z :: x :: l₂) n)
    (hz : next' z = l₂.headD n) (hn : ∀ y ∈ l₁ ++ l₂, next' y = next y)
    (hhead : ∀ y ys, l₂ = y :: ys → prev' y = z)
    (hp : ∀ y ∈ l₁ ++ [z], prev' y = prev y)
    (hp' : ∀ y ys, l₂ = y :: ys → ∀ w ∈ ys, prev' w = prev w) :
    Seg next' prev' p (l₁ ++ z :: l₂) n := by
  rw [seg_append] at h ⊢
  obtain ⟨h₁, hzp, -, -, -, h₂⟩ := h
  refine ⟨h₁.congr (fun y hy => hn y (by simp [hy])) (fun y hy => hp y (by simp [hy])),
    (hp z (by simp)).trans hzp, hz, ?_⟩
  cases l₂ with
  | nil => trivial
  | cons y ys =>
    exact ⟨hhead y ys rfl, (hn y (by simp)).trans h₂.2.1,
      h₂.2.2.congr (fun w hw => hn w (by simp [hw])) (hp' y ys rfl)⟩

theorem Seg.pushBack {l : List α} {p n m z x : α} (h : Seg next prev p (l ++ [z]) n)
    (hn : ∀ y ∈ l, next' y = next y) (hz : next' z = x) (hp : ∀ y ∈ l ++ [z], prev' y = prev y)
    (hpx : prev' x = z) (hnx : next' x = m) : Seg next' prev' p (l ++ [z] ++ [x]) m := by
  rw [List.append_assoc, seg_append]
  rw [seg_append] at h
  obtain ⟨h₁, hzp, -, -⟩ := h
  refine ⟨h₁.congr hn fun y hy => hp y (by simp [hy]), (hp z (by simp)).trans hzp, hz, hpx, hnx, ?_⟩
  trivial

theorem getLastD_append_cons (l₁ l₂ : List α) (x d : α) :
    (l₁ ++ x :: l₂).getLastD d = l₂.getLastD x := by
  induction l₁ generalizing d with
  | nil => rw [List.nil_append, List.getLastD_cons]
  | cons y l₁ ih => rw [List.cons_append, List.getLastD_cons, ih]

theorem Seg.links {l₁ l₂ : List α} {p n x : α} (h : Seg next prev p (l₁ ++ x :: l₂) n) :
    prev x = l₁.getLastD p ∧ next x = l₂.headD n := by
  rw [seg_append] at h
  exact ⟨h.2.1, h.2.2.1⟩

/-! ## Stores that unlink a node -/

theorem headD_ne {l : List α} {d y : α} (hy : y ∉ l) (hd : y ≠ d) : y ≠ l.headD d := by
  cases l with
  | nil => exact hd
  | cons x xs =>
    rintro rfl
    exact hy List.mem_cons_self

theorem getLastD_ne {l : List α} {d y : α} (hy : y ∉ l) (hd : y ≠ d) : y ≠ l.getLastD d := by
  rcases l.eq_nil_or_concat' with rfl | ⟨xs, x, rfl⟩
  · exact hd
  · rw [List.getLastD_concat]
    rintro rfl
    exact hy (by simp)

section Stores
variable [DecidableEq α] {l l₁ l₂ : List α} {p q null x y z : α}

theorem relink_of_ne (hy : y ≠ z) : (if z ≠ null then update prev z q else prev) y = prev y := by
  split_ifs
  · rw [update_of_ne hy]
  · rfl

/-- The first node goes, the second one, if there is one, gets the back link `q`. -/
theorem Seg.pop (h : Seg next prev p (x :: l) null) (hnd : l.Nodup) (h0 : null ∉ l) :
    Seg next (if next x ≠ null then update prev (next x) q else prev) q l null := by
  have hx : next x = l.headD null := h.2.1
  refine h.popFront (fun _ _ => rfl) (fun y ys hl => ?_) fun y ys hl w hw => relink_of_ne ?_
  · subst hl
    have hy0 : y ≠ null := fun he => h0 (by simp [he])
    rw [hx, List.headD_cons, if_pos hy0, update_self]
  · subst hl
    rw [hx, List.headD_cons]
    rintro rfl
    exact (List.nodup_cons.1 hnd).1 hw

/-- A node behind `z` goes: `z` gets its link, and the next node, if there is one, the back
link `z`. -/
theorem Seg.splice (h : Seg next prev p (l₁ ++ z :: x :: l₂) null)
    (hnd : (l₁ ++ z :: x :: l₂).Nodup) (h0 : null ∉ l₁ ++ z :: x :: l₂) :
    Seg (update next z (next x)) (if next x ≠ null then update prev (next x) z else prev) p
      (l₁ ++ z :: l₂) null := by
  have hx : next x = l₂.headD null := by
    have hsplit : l₁ ++ z :: x :: l₂ = (l₁ ++ [z]) ++ x :: l₂ := by simp
    exact (hsplit ▸ h).links.2
  obtain ⟨-, hnd₂, hapart⟩ := List.nodup_append.1 hnd
  simp only [List.nodup_cons, List.mem_cons, not_or] at hnd₂
  obtain ⟨⟨-, hz₂⟩, -, hnd₂⟩ := hnd₂
  have hz₁ : ∀ y ∈ l₁, y ≠ z := fun y hy => hapart y hy z (by simp)
  refine h.unlink ?_ (fun y hy => update_of_ne ?_ _ _) (fun y ys hl => ?_)
    (fun y hy => relink_of_ne ?_) fun y ys hl w hw => relink_of_ne ?_
  · rw [update_self, hx]
  · rcases List.mem_append.1 hy with hy | hy
    · exact hz₁ y hy
    · rintro rfl
      exact hz₂ hy
  · subst hl
    have hy0 : y ≠ null := fun he => h0 (by simp [he])
    rw [hx, List.headD_cons, if_pos hy0, update_self]
  · rw [hx]
    refine headD_ne (fun hy₂ => ?_) fun he => h0 (he ▸ ?_)
    · rcases List.mem_append.1 hy with hy | hy
      · exact hapart y hy y (by simp [hy₂]) rfl
      · exact hz₂ (List.mem_singleton.1 hy ▸ hy₂)
    · rcases List.mem_append.1 hy with hy | hy
      · simp [hy]
      · simp [List.mem_singleton.1 hy]
  · subst hl
    rw [hx, List.headD_cons]
    rintro rfl
    exact (List.nodup_cons.1 hnd₂).1 hw

end Stores

end AbcMalloc.Foundation
