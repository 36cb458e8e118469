import AbcMalloc.Tlsf.Runs

/-! What `temporal_allocate` of `__tlsf_list` serves. A carved block is as large as the request.
A ring block was cut for an earlier request of the same search class, so that it may be smaller:
classes from 2^11 on are more than 64 bytes wide. -/
namespace AbcMalloc.Tlsf
open Function Foundation

def InAllocated (h : Heap) (c : Chunk) : Prop :=
  ∃ b ∈ blocks h, h.mem.hi b &&& blockAlloc ≠ 0 ∧ b ≤ c.ptr ∧ c.ptr < b + h.mem.lo b ∧
    c.ptr + c.len ≤ b + h.mem.lo b

def Serves (h : Heap) (n : ℕ) : Prop :=
  ∀ c h', temporalAllocate h n = some (c, h') → c.ptr ≠ 0 → n ≤ c.len ∧ InAllocated h' c

/-- The ring of the request is empty, or its block is not tombstoned and at most the 32 bytes of
slack smaller than a block cut for the request. -/
def ringSuits (h : Heap) (n : ℕ) : Bool :=
  let b := ringBlock h.ctl n
  b = 0 || (adjustedBlockSize n ≤ h.mem.lo b + 32 && h.mem.hi b &&& blockTombstone = 0)

/-! ## Requests that wrap around -/

theorem mappingSearch_wraps {q : ℕ} (hlim : 2 ^ 64 - 2 ^ 59 < q) (hq : q < 2 ^ 64) :
    mappingSearch q = mappingInsert (q + 2 ^ 59 - 1 - 2 ^ 64) := by
  have hlog : Nat.log2 q = 63 := by
    have h₁ : 63 ≤ Nat.log2 q := (Nat.le_log2 (by omega)).2 (by omega)
    have h₂ : Nat.log2 q < 64 := log2_lt_of_lt (by omega) hq
    omega
  have hpow : 1 <<< (63 - 4) = 2 ^ 59 := rfl
  have hmod : (q + (2 ^ 59 - 1)) % 2 ^ 64 = q + 2 ^ 59 - 1 - 2 ^ 64 := by omega
  simp only [mappingSearch, fls64, hlog]
  rw [hpow, hmod]

/-- A block found for such a request is far from the end of its remainder. -/
theorem Good.trySplit_wraps {h : Heap} {A : Blocks} (hG : Good h A) {q b n : ℕ}
    (hlim : 2 ^ 64 - 2 ^ 59 < q) (hq : q < 2 ^ 64) (hqm : q % 32 = 0)
    (hA : A b = some (n, some blockFree)) (hfl : (mappingSearch q).1 < 26) :
    trySplit (flRemove h b) b q = none := by
  have hlo : (flRemove h b).mem.lo b = n := by
    rw [flRemove_lo]
    exact hG.phys.lo hA
  obtain ⟨_, _, _, hbook⟩ := flRemove_sameBook h b
  have hlow := hG.phys.base_lt hA
  have hpos := hG.phys.size_ge hA
  have hlt := hG.size_lt hA
  have htop := hG.geo.top
  have htot := hG.geo.total_lt
  have hend : h.ctl.endSentinel = h.ctl.base + 32 + h.ctl.total := rfl
  have hsmall : q + 2 ^ 59 - 1 - 2 ^ 64 < 2 ^ 32 := by
    rw [mappingSearch_wraps hlim hq] at hfl
    simp only [mappingInsert, fls64] at hfl
    by_contra hge
    have := (Nat.le_log2 (n := q + 2 ^ 59 - 1 - 2 ^ 64) (k := 32) (by omega)).2 (by omega)
    omega
  have hends : (flRemove h b).ctl.endSentinel = h.ctl.endSentinel := by rw [hbook]; rfl
  have hbase : (flRemove h b).ctl.base = h.ctl.base := by rw [hbook]
  simp only [trySplit, hlo, hends, hbase]
  rw [if_neg (by omega), if_pos (by omega)]

/-- A rounded request that wraps around names a class of large requests: nothing is carved, or the
remainder of the split lies outside the pool. -/
theorem Good.temporalCarve_wraps {h : Heap} {A : Blocks} (hG : Good h A) {q : ℕ}
    (hlim : 2 ^ 64 - 2 ^ 59 < q) (hq : q < 2 ^ 64) (hqm : q % 32 = 0) {c : Chunk} {h' : Heap}
    (hrun : Tlsf.temporalCarve h q = some (c, h')) : c.ptr = 0 := by
  obtain ⟨fl, hL⟩ := hG.lists
  have hfind : ∀ {b : ℕ} {h₁ : Heap}, findFree h q = some (b, h₁) → b = 0 ∨
      ((mappingSearch q).1 < 26 ∧ ∃ n, A b = some (n, some blockFree) ∧ h₁ = flRemove h b) := by
    intro b h₁ hrun
    have hcl := hG.rings.classes
    have hneg : ¬(mappingSearch q).1 < 0 ∨ (h.ctl.flCount : ℤ) ≤ (mappingSearch q).1 := by
      by_contra hcon
      push Not at hcon
      simp [findFree, not_le.2 hcon.2, hcon.1] at hrun
    by_cases hout : (h.ctl.flCount : ℤ) ≤ (mappingSearch q).1
    · simp only [findFree, if_pos hout, Option.some.injEq, Prod.mk.injEq] at hrun
      exact Or.inl hrun.1.symm
    · rcases hL.findFree_from (not_lt.1 (hneg.resolve_right hout)) with hnull
        | ⟨b', n, hA, -, -, hrun'⟩
      · have heq : some (b, h₁) = some (0, h) := hrun.symm.trans hnull
        exact Or.inl (congrArg Prod.fst (Option.some.inj heq))
      · have heq : some (b, h₁) = some (b', flRemove h b') := hrun.symm.trans hrun'
        simp only [Option.some.injEq, Prod.mk.injEq] at heq
        obtain ⟨rfl, rfl⟩ := heq
        exact Or.inr ⟨by omega, n, hA, rfl⟩
  unfold Tlsf.temporalCarve at hrun
  obtain ⟨⟨b, h₁⟩, hf, hrun⟩ := Option.bind_eq_some_iff.1 hrun
  simp only at hrun
  rcases hfind hf with rfl | ⟨hfl, n, hA, rfl⟩
  · simp only [if_true, Option.some.injEq, Prod.mk.injEq] at hrun
    rw [← hrun.1]
    rfl
  · have hb := hG.pos hA
    rw [if_neg hb] at hrun
    simp [hG.trySplit_wraps hlim hq hqm hA hfl] at hrun

/-! ## Ring blocks and carved blocks -/

section Serving
variable {h h' : Heap} {A : Blocks} {b n sz f : ℕ}

theorem Good.inAllocated_iff (hG : Good h A) (hb : used A b = some (sz, f)) :
    InAllocated h ⟨b + 32, sz - 32⟩ ↔ f ≠ blockTombstone := by
  obtain ⟨hA, hf⟩ := used_eq_some.1 hb
  have hsz := hG.phys.size_ge hA
  constructor
  · rintro ⟨b', hmem, hflag, hle, hlt, hend⟩ rfl
    obtain ⟨n', k, hA'⟩ := (hG.mem_blocks b').1 hmem
    rw [hG.phys.lo hA'] at hlt hend
    simp only at hle hlt hend
    have heq : b' = b := by
      by_contra hne
      have := hG.phys.tiles.disjoint hA' hA hne
      have := hG.phys.size_ge hA'
      omega
    subst heq
    rw [hG.phys.hi hA] at hflag
    exact hflag (by decide)
  · intro hne
    refine ⟨b, (hG.mem_blocks b).2 ⟨_, _, hA⟩, ?_, by simp, ?_, ?_⟩
    · rw [hG.phys.hi hA]
      rcases hG.kinds hb with rfl | rfl | rfl
      · decide
      · exact absurd rfl hne
      · decide
    · rw [hG.phys.lo hA]
      simp only
      omega
    · rw [hG.phys.lo hA]
      simp only
      omega

/-- The block is long enough exactly if it is within the slack of the adjusted size. -/
theorem le_sub_iff_adjusted (hn : adjustedBlockSize n ≠ 0) (hsz : 64 ≤ sz) (hmod : sz % 32 = 0) :
    n ≤ sz - 32 ↔ adjustedBlockSize n ≤ sz + 32 := by
  simp only [adjustedBlockSize, alignDown] at hn ⊢
  split_ifs at hn ⊢ with hbig
  · exact absurd rfl hn
  · omega

/-- In a good pool a request is served unless its ring holds an unsuitable block. -/
theorem Good.serves_iff (hG : Good h A) : Serves h n ↔ ringSuits h n = true := by
  by_cases h0 : ringBlock h.ctl n = 0
  · simp only [ringSuits, h0, decide_true, Bool.true_or, iff_true]
    intro c h' hrun hc
    rcases hG.temporalAllocate_carve h0 with hnull | ⟨hzero, hcarve⟩
    · rw [hnull] at hrun
      simp only [Option.some.injEq, Prod.mk.injEq] at hrun
      exact absurd (by rw [← hrun.1]; rfl) hc
    · obtain ⟨hq, hqm, hn, hlt⟩ := adjustedBlockSize_spec hzero
      rw [hcarve] at hrun
      by_cases hlim : adjustedBlockSize n ≤ 2 ^ 64 - 2 ^ 59
      · rcases hG.temporalCarve hq hqm hlim with hnull | ⟨b, sz, h₁, A', hal, hle, hG', hT, -⟩
        · rw [hnull] at hrun
          simp only [Option.some.injEq, Prod.mk.injEq] at hrun
          exact absurd (by rw [← hrun.1]; rfl) hc
        · rw [hal] at hrun
          simp only [Option.some.injEq, Prod.mk.injEq] at hrun
          obtain ⟨rfl, rfl⟩ := hrun
          have hb : used A' b = some (sz, blockAlloc + blockTemporal) := by
            rw [hT.used, update_self]
          exact ⟨by simp only; omega, (hG'.inAllocated_iff hb).2 (by decide)⟩
      · exact absurd (hG.temporalCarve_wraps (not_le.1 hlim) hlt hqm hrun) hc
  · obtain ⟨i, r, sz, f, h₁, -, -, hb, hal, hG', hm, -⟩ := hG.temporalAllocate_ring h0
    obtain ⟨hA, -⟩ := used_eq_some.1 hb
    have hzero : adjustedBlockSize n ≠ 0 := by
      intro hz
      apply h0
      simp only [ringBlock, hz]
      rfl
    have hin := hG'.inAllocated_iff hb
    have hlen := le_sub_iff_adjusted hzero (hG.phys.size_ge hA) (hG.phys.size_mod hA)
    have hflag : h.mem.hi (ringBlock h.ctl n) &&& blockTombstone = 0 ↔ f ≠ blockTombstone := by
      rw [hG.phys.hi hA]
      rcases hG.kinds hb with rfl | rfl | rfl <;> decide
    simp only [ringSuits, h0, decide_false, Bool.false_or, Bool.and_eq_true, decide_eq_true_eq,
      hG.phys.lo hA, hflag]
    rw [← hlen, ← hin]
    constructor
    · intro hserve
      exact hserve _ _ hal (by simp)
    · intro hgood c h' hrun _
      rw [hal] at hrun
      simp only [Option.some.injEq, Prod.mk.injEq] at hrun
      obtain ⟨rfl, rfl⟩ := hrun
      exact hgood

end Serving

theorem serves_iff_of_run {m : Mem} {ptr len : ℕ} {ops : List Op} {w : Client Heap}
    (hlen : ptr + len ≤ 2 ^ 64) (hacc : (initMemory m ptr len).ctl.base ≠ 0)
    (hrun : Run Permitted (Client.step tlsfBook) (.start (initMemory m ptr len)) ops w) (n : ℕ) :
    Serves w.book n ↔ ringSuits w.book n = true := by
  obtain ⟨A, hG, -⟩ := run_good hlen hacc hrun
  exact hG.serves_iff

end AbcMalloc.Tlsf
