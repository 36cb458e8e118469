import AbcMalloc.Va.Model

/-! Requests larger than the reservation. Exactly rounded they cannot be served; what the code
does with them depends on how the machine arithmetic truncates them. -/
namespace AbcMalloc.Va
open Foundation

/-- A call leaves the cursor and the free-run list as they were and returns null. -/
def Refuses (v : VaState) (r : ℕ × VaState) : Prop :=
  r.1 = 0 ∧ r.2.offset = v.offset ∧ r.2.runs = v.runs

/-- The cursor never passes the reservation, whatever is requested and released. -/
theorem offset_le_of_calls {c : VaConfig} {v : VaState} {calls : List Call}
    (hrun : Run (fun _ _ => True) (call c) .init calls v) : v.offset ≤ c.reservation := by
  have hbump : ∀ {v : VaState} {rounded off : ℕ} {v' : VaState},
      bump c v rounded = some (off, v') → v'.offset ≤ c.reservation := by
    intro v rounded off v' h
    unfold bump at h
    split_ifs at h with hle
    cases h
    exact not_lt.1 hle
  have hfresh : ∀ {v : VaState} {k : Kernel} {rounded : ℕ}, v.offset ≤ c.reservation →
      (carveFresh c k v rounded).2.offset ≤ c.reservation := by
    intro v k rounded hv
    unfold carveFresh
    split
    · exact hv
    · rename_i heq
      exact hbump heq
  have hres : ∀ {v : VaState} {k : Kernel}, (reserveOnce k v).offset = v.offset := by
    intro v k
    unfold reserveOnce
    split_ifs <;> rfl
  refine hrun.invariant (fun v => v.offset ≤ c.reservation) ?_ (Nat.zero_le _)
  rintro v (⟨k, bytes⟩ | ⟨k, bytes⟩ | ⟨slot, bytes⟩) v' hv - hstep
  · obtain rfl : (carve c k v bytes).2 = v' := Option.some.inj hstep
    have hv' : (reserveOnce k v).offset ≤ c.reservation := hres.trans_le hv
    unfold carve
    dsimp only
    split_ifs
    · exact hv'
    · split
      · split_ifs
        · exact hv'
        · exact hfresh hv'
      · exact hfresh hv'
  · obtain rfl : (carveReserved c k v bytes).2 = v' := Option.some.inj hstep
    have hv' : (reserveOnce k v).offset ≤ c.reservation := hres.trans_le hv
    unfold carveReserved
    dsimp only
    split_ifs
    · exact hv'
    · split
      · exact hv'
      · split
        · exact hv'
        · rename_i heq
          exact hbump heq
  · obtain rfl : release c v slot bytes = v' := Option.some.inj hstep
    unfold release
    split_ifs <;> exact hv

/-- The exact size of a request, rounded up to the granule. -/
def VaConfig.exactRound (c : VaConfig) (bytes : ℕ) : ℕ :=
  (bytes + (c.sheetAlign - 1)) / c.sheetAlign * c.sheetAlign

/-- Without a reservation and without the means to make one, every request is refused. -/
theorem refuses_of_unreserved {c : VaConfig} {k : Kernel} {v : VaState} (bytes : ℕ)
    (hb : v.base = 0) (hk : k.reserve = 0) :
    Refuses v (carve c k v bytes) ∧ Refuses v (carveReserved c k v bytes) := by
  have hr : (reserveOnce k v).base = 0 := by simp [reserveOnce, hb, hk]
  have hv : (reserveOnce k v).offset = v.offset ∧ (reserveOnce k v).runs = v.runs := by
    rw [reserveOnce, if_pos hb]
    exact ⟨rfl, rfl⟩
  simp only [carve, carveReserved, hr, if_true]
  exact ⟨⟨rfl, hv⟩, rfl, hv⟩

/-- With a reservation, both calls refuse exactly when nothing is reused and the cursor
cannot move. -/
theorem refuses_iff_of_reserved {c : VaConfig} {k : Kernel} {v : VaState} {bytes : ℕ}
    (hbase : ¬(v.base = 0 ∧ k.reserve = 0)) :
    (Refuses v (carve c k v bytes) ∧ Refuses v (carveReserved c k v bytes)) ↔
      (∀ r ∈ v.runs, r.granules < c.granules (c.roundUp bytes)) ∧
        c.reservation < (v.offset + c.roundUp bytes) % 2 ^ 64 := by
  set u := reserveOnce k v with hu
  have hub : u.base ≠ 0 := by
    rw [hu, reserveOnce]
    split_ifs with h0
    · exact fun hk => hbase ⟨h0, hk⟩
    · exact h0
  have huv : u.offset = v.offset ∧ u.runs = v.runs := by
    rw [hu, reserveOnce]
    split_ifs <;> exact ⟨rfl, rfl⟩
  rw [← reuse_eq_none (c := c), ← huv.1, ← huv.2]
  constructor
  · rintro ⟨-, hnull, -, -⟩
    cases hre : reuse c u.runs (c.granules (c.roundUp bytes)) with
    | some x =>
      simp only [carveReserved, ← hu, if_neg hub, hre] at hnull
      omega
    | none =>
      refine ⟨rfl, ?_⟩
      by_contra hle
      simp only [carveReserved, ← hu, if_neg hub, hre, bump, if_neg hle] at hnull
      omega
  · rintro ⟨hre, hlt⟩
    have hbump : bump c u (c.roundUp bytes) = none := by rw [bump, if_pos hlt]
    refine ⟨?_, ?_⟩
    · simp only [carve, ← hu, if_neg hub, hre, carveFresh, hbump]
      exact ⟨rfl, huv.1, huv.2⟩
    · simp only [carveReserved, ← hu, if_neg hub, hre, hbump]
      exact ⟨rfl, huv.1, huv.2⟩

/-- A request above the reservation is refused by both carving functions and leaves the list
and the cursor alone if and only if the reservation cannot be made, or the request does not
wrap when it is rounded, no free run is as long as its truncated granule count, and the
cursor plus the rounded request does not wrap. -/
theorem oversized_refused_iff {c : VaConfig} {v : VaState} {calls : List Call}
    (hrun : Run (fun _ _ => True) (call c) .init calls v) (k : Kernel) {bytes : ℕ}
    (hbytes : bytes < 2 ^ c.width) (hbig : c.reservation < c.exactRound bytes) :
    (Refuses v (carve c k v bytes) ∧ Refuses v (carveReserved c k v bytes)) ↔
      (v.base = 0 ∧ k.reserve = 0) ∨
        (bytes + c.sheetAlign ≤ 2 ^ c.width ∧
          (∀ r ∈ v.runs, r.granules < c.exactRound bytes / c.sheetAlign % 2 ^ 32) ∧
          v.offset + c.exactRound bytes < 2 ^ 64) := by
  have hoff := offset_le_of_calls hrun
  have hG := c.sheetAlign_pos
  have hres := c.reservation_lt
  have hwidth : 2 ^ c.width ≤ 2 ^ 64 := by
    unfold VaConfig.width
    split_ifs <;> decide
  by_cases hbase : v.base = 0 ∧ k.reserve = 0
  · exact iff_of_true (refuses_of_unreserved bytes hbase.1 hbase.2) (Or.inl hbase)
  rw [refuses_iff_of_reserved hbase]
  by_cases hwrap : bytes + c.sheetAlign ≤ 2 ^ c.width
  · -- No wrap in the rounding: the machine rounds exactly.
    have hround : c.roundUp bytes = c.exactRound bytes := by
      rw [VaConfig.roundUp, VaConfig.exactRound, Nat.mod_eq_of_lt (by omega)]
    have hle : c.exactRound bytes < 2 ^ 64 := by
      have := Nat.div_mul_le_self (bytes + (c.sheetAlign - 1)) c.sheetAlign
      unfold VaConfig.exactRound
      omega
    rw [hround, VaConfig.granules]
    constructor
    · rintro ⟨hruns, hlt⟩
      refine Or.inr ⟨hwrap, hruns, ?_⟩
      omega
    · rintro (h | ⟨-, hruns, hlt⟩)
      · exact absurd h hbase
      · exact ⟨hruns, by omega⟩
  · -- The rounding wraps to zero, and a request of nothing succeeds.
    have hzero : c.roundUp bytes = 0 := by
      have hw := c.reservation_add_le
      obtain ⟨d, hd⟩ : ∃ d, bytes + (c.sheetAlign - 1) = d + 2 ^ c.width :=
        ⟨_, (Nat.sub_add_cancel (by omega)).symm⟩
      rw [VaConfig.roundUp, hd, Nat.add_mod_right, Nat.mod_eq_of_lt (by omega),
        Nat.div_eq_of_lt (by omega), Nat.zero_mul]
    refine iff_of_false ?_ ?_
    · rintro ⟨-, hlt⟩
      rw [hzero, Nat.add_zero] at hlt
      omega
    · rintro (h | ⟨h, -⟩)
      · exact hbase h
      · exact hwrap h

def simpleKernel (c : VaConfig) : Kernel :=
  ⟨2 ^ 40, fun a n => decide (2 ^ 40 ≤ a ∧ a + n ≤ 2 ^ 40 + c.reservation ∧ 0 < n)⟩

theorem oversized_refused_half :
    ∃ v, Run (fun _ _ => True) (call va64) .init [.carve (simpleKernel va64) 1] v ∧
      Refuses v (carve va64 (simpleKernel va64) v (2 ^ 63)) ∧
      Refuses v (carveReserved va64 (simpleKernel va64) v (2 ^ 63)) := by
  obtain ⟨v, hrun, hv⟩ := exists_run_of_exec (fun _ _ => True) (call va64)
    (s := .init) (l := [.carve (simpleKernel va64) 1])
    (P := fun v => decide (v = ⟨2 ^ 40, 2 ^ 21, []⟩)) (by decide +kernel)
  have hv' := of_decide_eq_true hv
  refine ⟨v, hrun, (oversized_refused_iff hrun (simpleKernel va64) (by decide) (by decide)).2 ?_⟩
  subst hv'
  exact Or.inr ⟨by decide, by simp, by decide⟩

/-- A request of 2^53 bytes and one granule is truncated to one granule: it takes a free run
from the list, and `__va_carve_reserved` returns it. -/
theorem oversized_accepted :
    ∃ v, Run (fun _ _ => True) (call va64) .init
        [.carve (simpleKernel va64) 1, .release (2 ^ 40) 1] v ∧
      va64.reservation < va64.exactRound (2 ^ 53 + 2 ^ 21) ∧
      ¬Refuses v (carve va64 (simpleKernel va64) v (2 ^ 53 + 2 ^ 21)) ∧
      ¬Refuses v (carveReserved va64 (simpleKernel va64) v (2 ^ 53 + 2 ^ 21)) := by
  obtain ⟨v, hrun, hv⟩ := exists_run_of_exec (fun _ _ => True) (call va64)
    (s := .init) (l := [.carve (simpleKernel va64) 1, .release (2 ^ 40) 1])
    (P := fun v => decide (v = ⟨2 ^ 40, 2 ^ 21, [⟨0, 1⟩]⟩)) (by decide +kernel)
  have hv' := of_decide_eq_true hv
  refine ⟨v, hrun, by decide, ?_, ?_⟩
  · subst hv'
    rintro ⟨-, -, h⟩
    exact absurd h (by decide)
  · subst hv'
    rintro ⟨h, -⟩
    exact absurd h (by decide)

end AbcMalloc.Va
