import AbcMalloc.Tlsf.Operations

/-! Returning a block: `coalesce_and_free` joins it with its free neighbours and inserts the
result into the free lists. -/
namespace AbcMalloc.Tlsf
open Function Foundation

/-- The middle of `coalesce_and_free` of the block `b` of `A`: the block `r` of `n` bytes is
detached, every other block is one of `A`, and `b` is no longer in use. -/
structure Merging (h₀ h : Heap) (A B : Blocks) (b r n d : ℕ) : Prop extends Core h B d where
  own : B r = some (n, none)
  sub : ∀ {x v}, x ≠ r → B x = some v → A x = some v
  head : A r ≠ none
  used_eq : used B = update (used A) b none
  book : SameBook h₀.ctl h.ctl
  agree : AgreeOff (Header h₀.ctl A) h₀.mem h.mem
  flags : h.mem.hi = h₀.mem.hi
  w1 : h.mem.w1 = h₀.mem.w1

namespace Merging
variable {h₀ h : Heap} {A B : Blocks} {b r n n' d : ℕ}

theorem start {f : ℕ} (hI : Inv h A) (hA : A b = some (n, some f)) (hf : f ≠ blockFree) :
    Merging h h A (update A b (some (n, none))) b b n 0 where
  toCore := hI.unmark hA hf
  own := update_self ..
  sub hx hB := by rwa [update_of_ne hx] at hB
  head := by simp [hA]
  used_eq := by rw [used_update, usedEntry_detached]
  book := SameBook.refl _
  agree := AgreeOff.refl _ _
  flags := rfl
  w1 := rfl

theorem header (hM : Merging h₀ h A B b r n d) {x : ℕ} (hx : Header h.ctl B x) :
    Header h₀.ctl A x := by
  obtain ⟨_, _, _, hs⟩ := hM.book
  rcases hx with hx | hx
  · by_cases hxr : x = r
    · exact Or.inl (hxr ▸ hM.head)
    · obtain ⟨v, hv⟩ := Option.ne_none_iff_exists'.1 hx
      exact Or.inl (by simp [hM.sub hxr hv])
  · rw [hs] at hx
    exact Or.inr hx

/-- A free or detached block that vanishes and a detached block that grows do not change the
blocks in use. -/
theorem used_merge {B : Blocks} {x y j j' : ℕ} (hx : used B x = none) (hy : used B y = none) :
    used (update (update B x none) y (some (j + j', none))) = used B := by
  have hxy : update (used B) x none = used B := update_eq_self_iff.2 hx.symm
  rw [used_update, used_update, usedEntry_detached, usedEntry_none, hxy, update_eq_self_iff]
  exact hy.symm

theorem used_own (hM : Merging h₀ h A B b r n d) : used B r = none := by
  simp [used, hM.own]

theorem forward (hM : Merging h₀ h A B b r n 0) (hB : B (r + n) = some (n', some blockFree)) :
    Merging h₀ ⟨(flRemove h (r + n)).ctl, (flRemove h (r + n)).mem.setLo r (n + n')⟩ A
      (update (update B (r + n) none) r (some (n + n', none))) b r (n + n') (r + n + n') where
  toCore := hM.toCore.absorbNext hM.own hB (Or.inl rfl)
  own := update_self ..
  sub hx hv := by
    rcases Tiles.merge_entry hv with ⟨he, -⟩ | ⟨-, -, hv⟩
    · exact absurd he hx
    · exact hM.sub hx hv
  head := hM.head
  used_eq := by
    rw [used_merge (by simp [used, hB]) hM.used_own, hM.used_eq]
  book := hM.book.trans (flRemove_sameBook _ _)
  agree := by
    refine (hM.agree.trans ((hM.toCore.remove hB).2.mono fun x hx => hM.header hx)).trans
      fun x hx => ?_
    have hxr : x ≠ r := fun he => hx (Or.inl (he ▸ hM.head))
    simp [update_of_ne hxr]
  flags := by simp [hM.flags]
  w1 := by simp [hM.w1]

theorem backward (hM : Merging h₀ h A B b r n d) {p j : ℕ} (hB : B p = some (j, some blockFree))
    (hp : p + j = r) (hd : d = 0 ∨ d = r + n) :
    Merging h₀ ⟨(flRemove h p).ctl, (flRemove h p).mem.setLo p (j + n)⟩ A
      (update (update B r none) p (some (j + n, none))) b p (j + n) (r + n) := by
  subst hp
  have hpr : p ≠ p + j := by
    have := hM.phys.size_ge hB
    omega
  have hAp := hM.sub hpr hB
  refine ⟨hM.toCore.absorbPrev hB hM.own hd, update_self .., fun hx hv => ?_, by simp [hAp], ?_,
    hM.book.trans (flRemove_sameBook _ _), ?_, by simp [hM.flags], by simp [hM.w1]⟩
  · rcases Tiles.merge_entry hv with ⟨he, -⟩ | ⟨-, hxr, hv⟩
    · exact absurd he hx
    · exact hM.sub hxr hv
  · rw [used_merge hM.used_own (by simp [used, hB]), hM.used_eq]
  · refine (hM.agree.trans ((hM.toCore.remove hB).2.mono fun x hx => hM.header hx)).trans
      fun x hx => ?_
    have hxp : x ≠ p := fun he => hx (Or.inl (by simp [he, hAp]))
    simp [update_of_ne hxp]

/-- A block next to the detached one whose flags read as free is a free block. -/
theorem free_of_flags (hI : Inv h₀ A) (hM : Merging h₀ h A B b r n d) {x j : ℕ} {k : Option ℕ}
    (hx : x ≠ r) (hB : B x = some (j, k)) (hfree : h.mem.hi x = blockFree) :
    B x = some (j, some blockFree) := by
  cases k with
  | none => exact absurd (hM.sub hx hB) hI.closed
  | some f =>
    have := hM.phys.hi hB
    rw [hB, ← this, hfree]

theorem mergeForward (hI : Inv h₀ A) (hM : Merging h₀ h A B b r n 0) :
    ∃ B' N, Merging h₀ (mergeForward h r).1 A B' b r N
        (if (mergeForward h r).2 then r + N else 0) ∧
      ∀ j, B' (r + N) ≠ some (j, some blockFree) := by
  have hlo := hM.phys.lo hM.own
  have hn := hM.phys.size_ge hM.own
  by_cases hfree : h.mem.hi (r + n) = blockFree
  · have hB : ∃ n', B (r + n) = some (n', some blockFree) := by
      rcases hM.phys.tiles.next hM.own with he | ⟨n', k, hB⟩
      · rw [he, hM.phys.end_flags] at hfree
        cases hfree
      · exact ⟨n', hM.free_of_flags hI (by omega) hB hfree⟩
    obtain ⟨n', hB⟩ := hB
    have hF := hM.forward hB
    have hsum : (n + n') % 2 ^ 32 = n + n' := Nat.mod_eq_of_lt (hF.size_lt hF.own)
    have hstep : Tlsf.mergeForward h r =
        (⟨(flRemove h (r + n)).ctl, (flRemove h (r + n)).mem.setLo r (n + n')⟩, true) := by
      simp only [Tlsf.mergeForward, nextPhys, hlo, if_pos hfree, flRemove_lo, hM.phys.lo hB, hsum]
    rw [hstep]
    refine ⟨_, n + n', by simpa [Nat.add_assoc] using hF, fun j hj => ?_⟩
    have hA := hM.sub (by omega) hB
    have hj' := hF.sub (by omega) hj
    rw [← Nat.add_assoc] at hj'
    exact hI.coalesced hA hj'
  · have hstep : Tlsf.mergeForward h r = (h, false) := by
      simp only [Tlsf.mergeForward, nextPhys, hlo, if_neg hfree]
    rw [hstep]
    exact ⟨B, n, by simpa using hM, fun j hj => hfree (hM.phys.hi hj)⟩

/-- What `mergeBackward` leaves: the block that remains, with no free block before it. -/
theorem mergeBackward (hI : Inv h₀ A) {merged : Bool}
    (hM : Merging h₀ h A B b r n (if merged then r + n else 0))
    (hnext : ∀ j, B (r + n) ≠ some (j, some blockFree)) :
    ∃ B' N, Merging h₀ (mergeBackward h r merged).1 A B' b (mergeBackward h r merged).2.1 N
        (if (mergeBackward h r merged).2.2 then (mergeBackward h r merged).2.1 + N else 0) ∧
      (∀ j, B' ((mergeBackward h r merged).2.1 + N) ≠ some (j, some blockFree)) ∧
      (∀ a j, B' a = some (j, some blockFree) → a + j ≠ (mergeBackward h r merged).2.1) ∧
      ((mergeBackward h r merged).2.1 = r ∨
        ((mergeBackward h r merged).2.1 = h₀.mem.w1 r ∧
          h₀.mem.hi (mergeBackward h r merged).2.1 = blockFree)) := by
  have hlo := hM.phys.lo hM.own
  have hn := hM.phys.size_ge hM.own
  have hback : ∀ {a j k}, B a = some (j, k) → a + j = r → h.mem.w1 r = a := by
    intro a j k ha he
    rw [← he]
    refine hM.phys.back ha ?_
    split_ifs
    · omega
    · have := hM.pos ha
      omega
  by_cases hfree : h.mem.w1 r ≠ 0 ∧ h.mem.hi (h.mem.w1 r) = blockFree
  · have hB : ∃ p j, B p = some (j, some blockFree) ∧ p + j = r := by
      by_cases hr : r = h.ctl.base + 32
      · rw [hr, hM.phys.first, hM.phys.start_flags] at hfree
        cases hfree.2
      · obtain ⟨p, j, k, hp, he⟩ := hM.phys.tiles.pred hM.own hr
        rw [hback hp he] at hfree
        have hj := hM.phys.size_ge hp
        exact ⟨p, j, hM.free_of_flags hI (by omega) hp hfree.2, he⟩
    obtain ⟨p, j, hB, he⟩ := hB
    have hj := hM.phys.size_ge hB
    have hw1 := hback hB he
    have hK := hM.backward hB he (by split_ifs <;> simp)
    have hsum : (j + n) % 2 ^ 32 = j + n := Nat.mod_eq_of_lt (hK.size_lt hK.own)
    have hstep : Tlsf.mergeBackward h r merged =
        (⟨(flRemove h p).ctl, (flRemove h p).mem.setLo p (j + n)⟩, p, true) := by
      rw [Tlsf.mergeBackward, if_pos hfree]
      simp only [hw1, flRemove_lo, hM.phys.lo hB, hlo, hsum]
    rw [hstep]
    have hend : r + n = p + (j + n) := by omega
    refine ⟨update (update B r none) p (some (j + n, none)), j + n, by simpa [hend] using hK,
      fun i hi => ?_, fun a i ha hai => ?_, Or.inr ⟨?_, ?_⟩⟩
    · rw [← hend, update_of_ne (by omega), update_of_ne (by omega)] at hi
      exact hnext i hi
    · have hai : a + i = p := hai
      have hap : a ≠ p := by
        have := hK.phys.size_ge ha
        omega
      have hj := hM.sub (by omega) hB
      rw [← hai] at hj
      exact hI.coalesced (hK.sub hap ha) hj
    · rw [← hM.w1, hw1]
    · rw [← hM.flags, ← hw1]
      exact hfree.2
  · have hstep : Tlsf.mergeBackward h r merged = (h, r, merged) := by
      rw [Tlsf.mergeBackward, if_neg hfree]
    rw [hstep]
    refine ⟨B, n, hM, hnext, fun a i ha hai => hfree ?_, Or.inl rfl⟩
    rw [hback ha hai]
    exact ⟨hM.pos ha, hM.phys.hi ha⟩

end Merging

/-- An operation returns the block at `b`; `r` is the header that becomes free. -/
structure Releases (h h' : Heap) (A A' : Blocks) (b r : ℕ) : Prop where
  inv : Inv h' A'
  used : used A' = update (used A) b none
  payload : AgreeOff (fun x => ¬ Payload A x) h.mem h'.mem
  flags : h'.mem.hi = update h.mem.hi r blockFree
  root : r = b ∨ (r = h.mem.w1 b ∧ h.mem.hi r = blockFree)

/-- `coalesce_and_free` of a block in use. -/
theorem Inv.release {h : Heap} {A : Blocks} {b n f : ℕ} (hI : Inv h A)
    (hA : A b = some (n, some f)) (hf : f ≠ blockFree) :
    SameBook h.ctl (coalesceAndFree h b).ctl ∧
      ∃ A' r, Releases h (coalesceAndFree h b) A A' b r := by
  obtain ⟨B₁, N₁, hF, hnext⟩ := (Merging.start hI hA hf).mergeForward hI
  obtain ⟨B₂, N, hM, hnext, hprev, hroot⟩ := hF.mergeBackward hI hnext
  simp only [coalesceAndFree]
  generalize mergeBackward (mergeForward h b).1 b (mergeForward h b).2 = R at hM hnext hprev hroot ⊢
  obtain ⟨h₂, r, merged⟩ := R
  simp only at hM hnext hprev hroot ⊢
  have hN : nextPhys h₂.mem r = r + N := by
    rw [nextPhys, hM.phys.lo hM.own]
  rw [hN]
  -- the stale back link, if any, is repaired before the block is inserted
  have hC : Core ⟨h₂.ctl, if merged then h₂.mem.setW1 (r + N) r else h₂.mem⟩ B₂ 0 := by
    cases merged with
    | true => simpa using hM.toCore.repair hM.own rfl
    | false => simpa using hM.toCore
  have hhi : (if merged then h₂.mem.setW1 (r + N) r else h₂.mem).hi = h.mem.hi := by
    rw [← hM.flags]
    split_ifs <;> rfl
  have hagree : AgreeOff (Header h.ctl A) h.mem
      (if merged then h₂.mem.setW1 (r + N) r else h₂.mem) := by
    refine hM.agree.trans fun x hx => ?_
    have hxr : x ≠ r + N := by
      rintro rfl
      rcases hM.phys.tiles.next hM.own with he | ⟨j, k, hj⟩
      · exact hx (hM.header (Or.inr he))
      · exact hx (hM.header (Or.inl (by simp [hj])))
    split_ifs
    · simp [update_of_ne hxr]
    · simp
  generalize (if merged then h₂.mem.setW1 (r + N) r else h₂.mem) = m₃ at hC hhi hagree ⊢
  obtain ⟨hIns, hins⟩ := hC.insert hM.own
  refine ⟨hM.book.trans (flInsert_sameBook ⟨h₂.ctl, m₃⟩ r),
    update B₂ r (some (N, some blockFree)), r,
    ⟨hIns, fun {a j j'} ha ha' => ?_, fun {a j} ha => ?_⟩,
    ?_, ?_, ?_, hroot⟩
  · have hpos := hIns.phys.size_ge ha
    by_cases har : a = r
    · subst har
      simp only [update_self, Option.some.injEq, Prod.mk.injEq, and_true] at ha
      rw [← ha, update_of_ne (by omega)] at ha'
      exact hnext j' ha'
    · rw [update_of_ne har] at ha
      have har' := hprev a j ha
      rw [update_of_ne har'] at ha'
      exact hI.coalesced (hM.sub har ha) (hM.sub har' ha')
  · by_cases har : a = r
    · subst har
      simp at ha
    · rw [update_of_ne har] at ha
      exact hI.closed (hM.sub har ha)
  · rw [used_update, usedEntry_free, update_eq_self_iff.2 hM.used_own.symm, hM.used_eq]
  · exact (hagree.trans (hins.mono fun x hx => hM.header hx)).mono fun x hx =>
      hI.header_not_payload hx
  · rw [flInsert_hi]
    exact congrArg (update · r blockFree) hhi

end AbcMalloc.Tlsf
