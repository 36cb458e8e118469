import AbcMalloc.Arena.Invariant

/-! The metadata of an arena: the blocks in which the nodes of its tiers and their sheets live.
They come from a tier of their own, `_arena_tier`. -/
namespace AbcMalloc.Arena
open Function Foundation

/-- `_arena_tier` with its sheets, the first address of the sheet of its tail, and
`_arena_memory`, the sheet from which the nodes of `_arena_tier` itself come. -/
structure Metadata where
  tier : Tier Buddy.Heap
  tail : ℕ
  memory : Sheet Buddy.Heap

namespace Metadata

/-- `sheet<__class_arena_internal>` and `__max_sheets_arena_internal`. -/
def params : Params Buddy.Heap := TierId.buddyTier 10 64 0 false

def Rep : Buddy.Heap → Ledger → Prop := OrRefused buddyRefused Buddy.BuddyRep

/-- `__unmark_from_arena`; a pointer that is not found, or that its sheet refuses, is only
reported. -/
def unmarkFromArena (m : Metadata) (addr : ℕ) : Except Halt Metadata :=
  match m.tier.findRange addr with
  | none => .ok m
  | some idx =>
    match m.tier.idx[idx]? with
    | none => .error .undefined
    | some e => do
      let (ok, sh) ← e.sheet.tryRemove params false true addr
      let tier := m.tier.setSheet idx sh
      .ok { m with tier := if ok then tier.markAvailable idx else tier }

theorem refines : Refines params.book (fun _ => true) Rep :=
  refines_orRefused Buddy.buddy_refines refused_of_buddyRefused

variable {m : Metadata} {U : Active} {p q n : ℕ}

structure Inv (U : Active) (m : Metadata) : Prop where
  tier : m.tier.Inv params Rep U
  covered : ∀ p n k, U p = some (n, k) → ∃ f ∈ m.tier.frames, f.Covers p

theorem Inv.exists_entry (h : m.Inv U) {k : Bool} (hU : U p = some (n, k)) :
    ∃ (i : ℕ) (e : Entry Buddy.Heap), m.tier.idx[i]? = some e ∧ e.frame.Covers p := by
  obtain ⟨f, hf, hp⟩ := h.covered p n k hU
  obtain ⟨i, e, hi, rfl⟩ := Tier.exists_entry hf
  exact ⟨i, e, hi, hp⟩

theorem Inv.blocks_apart (h : m.Inv U) {k l : Bool} {n' : ℕ} (hp : U p = some (n, k))
    (hq : U q = some (n', l)) (hne : p ≠ q) : p + n ≤ q ∨ q + n' ≤ p := by
  obtain ⟨i, e, hi, hcov⟩ := h.exists_entry hp
  obtain ⟨j, e', hj, hcov'⟩ := h.exists_entry hq
  obtain ⟨L, hL⟩ := h.tier.entry_holds hi
  obtain ⟨L', hL'⟩ := h.tier.entry_holds hj
  have hend := hL.whole refines hcov hp
  have hend' := hL'.whole refines hcov' hq
  have hlo : e.lo ≤ p := hcov.1
  have hlo' : e'.lo ≤ q := hcov'.1
  have hstop : e.hi ≤ e.frame.stop := (h.tier.entry_good hi).hi_le
  have hstop' : e'.hi ≤ e'.frame.stop := (h.tier.entry_good hj).hi_le
  rcases lt_trichotomy i j with hlt | rfl | hgt
  · have := h.tier.order hi hj hlt
    omega
  · rw [hi] at hj
    obtain rfl := Option.some.inj hj
    exact hL.apart refines hcov hp hcov' hq hne
  · have := h.tier.order hj hi hgt
    omega

theorem Inv.unmark (h : m.Inv U) (hU : U p = some (n, false)) :
    ∃ t, m.unmarkFromArena p = .ok { m with tier := t } ∧ t.frames = m.tier.frames ∧
      Inv (update U p none) { m with tier := t } := by
  obtain ⟨i, e, hi, hp⟩ := h.exists_entry hU
  obtain ⟨L, hL⟩ := h.tier.entry_holds hi
  have hkind : false = true → false = false := fun _ => rfl
  obtain ⟨b, L', hrem, hL'⟩ := hL.tryRemove refines (h.tier.not_empty hi) true hp hU hkind
  have hfind := h.tier.findRange_eq_some.2 ⟨e, hi, hp⟩
  have hframes := Tier.frames_setSheet hi b
  refine ⟨(m.tier.setSheet i { e.sheet with book := b }).markAvailable i, ?_, hframes, ?_⟩
  · unfold unmarkFromArena
    rw [hfind]
    simp only [hi, hrem, bind, Except.bind, if_true]
  · have hempty : m.tier.cache = [] := List.eq_nil_of_length_eq_zero (Nat.le_zero.1 h.tier.room)
    have hset := h.tier.replace refines hi hL'
      (fun q hq => update_of_ne (fun he => hq (by rw [he]; exact hp)) _ _)
      (fun c hc => absurd hc (by rw [hempty]; simp))
    refine ⟨hset.congr rfl rfl, ?_⟩
    intro q l k hq
    have hne : q ≠ p := by
      rintro rfl
      rw [update_self] at hq
      cases hq
    rw [update_of_ne hne] at hq
    obtain ⟨f, hf, hcov⟩ := h.covered q l k hq
    refine ⟨f, ?_, hcov⟩
    show f ∈ (m.tier.setSheet i { e.sheet with book := b }).frames
    rw [hframes]
    exact hf

/-- A sheet serves a request, or it has no block for it. -/
theorem Inv.mark (h : m.Inv U) {i : ℕ} {e : Entry Buddy.Heap} (hi : m.tier.idx[i]? = some e)
    (sz : ℕ) : e.sheet.mark params false sz = .ok (.null, e.sheet) ∨
      ∃ p n b, e.sheet.mark params false sz = .ok (⟨p, n - 32⟩, { e.sheet with book := b }) ∧
        p ≠ 0 ∧ U p = none ∧ sz + 32 ≤ n ∧
        Inv (update U p (some (n, false)))
          { m with tier := m.tier.setSheet i { e.sheet with book := b } } := by
  obtain ⟨L, hL⟩ := h.tier.entry_holds hi
  rcases hL.mark refines (h.tier.not_empty hi) false rfl with
    hnull | ⟨p, n, b, U', L', hmark, hp, hcov, hserve, hL', hsz⟩
  · exact .inl hnull
  · obtain ⟨hnone, rfl⟩ : U p = none ∧ U' = update U p (some (n, false)) := by
      rcases hserve with hs | ⟨hs, -⟩
      · exact hs
      · cases hs
    have hempty : m.tier.cache = [] := List.eq_nil_of_length_eq_zero (Nat.le_zero.1 h.tier.room)
    have hset := h.tier.replace refines hi hL'
      (fun q hq => update_of_ne (fun he => hq (by rw [he]; exact hcov)) _ _)
      (fun c hc => absurd hc (by rw [hempty]; simp))
    refine .inr ⟨p, n, b, hmark, hp, hnone, hsz rfl, hset, ?_⟩
    intro q l k hq
    rw [show ({ m with tier := m.tier.setSheet i { e.sheet with book := b } } :
      Metadata).tier.frames
      = m.tier.frames from Tier.frames_setSheet hi b]
    by_cases hqp : q = p
    · subst hqp
      exact ⟨e.frame, Tier.mem_frames (List.mem_of_getElem? hi), hcov⟩
    · rw [update_of_ne hqp] at hq
      exact h.covered q l k hq

theorem exists_inv : ∃ (m : Metadata) (p n : ℕ), p ≠ 0 ∧ 1032 ≤ n ∧
    m.Inv (update (fun _ => none) p (some (n, false))) := by
  have hfresh : (Tier.fresh params).Inv params Rep fun _ => none :=
    ⟨by simp [Tier.fresh, Tier.frames], by simp [Tier.fresh, Tier.frames], by simp [Tier.fresh],
      by simp [Tier.fresh], by simp [Tier.fresh], by simp [Tier.fresh]⟩
  have hadd : ∃ t, (Tier.fresh params).addSheet params true 4096 .zero (fun _ => 0)
      ⟨65536, 65536⟩ = some t ∧
        t.idx = [Tier.newEntry params true 4096 .zero (fun _ => 0) ⟨65536, 65536⟩] :=
    ⟨_, rfl, rfl⟩
  obtain ⟨t, hadd, hidx⟩ := hadd
  obtain ⟨hinv, -, -⟩ := hfresh.addSheet (TierId.buddyTier_formats (by decide) 64 0 false)
    (by decide) (by decide) (by decide) (by decide) (by simp [Tier.fresh, Tier.frames])
    (fun _ _ => rfl) hadd
  have hserved : ((Tier.newEntry params true 4096 .zero (fun _ => 0) ⟨65536, 65536⟩).sheet.mark
      params false 1000).toOption.any (fun r => r.1.ptr ≠ 0) = true := by decide +kernel
  generalize Tier.newEntry params true 4096 .zero (fun _ => 0) ⟨65536, 65536⟩ = e at hidx hserved
  have hm : Inv (fun _ => none) ⟨t, 65536, e.sheet⟩ := ⟨hinv, fun p n k hp => by cases hp⟩
  have hi : t.idx[0]? = some e := by rw [hidx]; rfl
  rcases hm.mark hi 1000 with hnull | ⟨p, n, b, -, hp, -, hn, hinv'⟩
  · rw [hnull] at hserved
    simp [Except.toOption, Chunk.null] at hserved
  · exact ⟨_, p, n, hp, hn, hinv'⟩

end Metadata
end AbcMalloc.Arena
