import AbcMalloc.Ledger

/-! Consequences of refinement along whole runs of a client: the byte counters are the sums
over the blocks in use, and tombstoned blocks are not handed out again. -/
namespace AbcMalloc
open Function Foundation

variable {σ : Type*} {B : Book σ} {fits : ℕ → Bool} {Rep : σ → Ledger → Prop}

theorem Ledger.Holds.receive {w : Client σ} {L L' : Ledger} (hH : L.Holds B.header w)
    {b sz f : ℕ} {s' : σ} (hpos : b + B.header ≠ 0)
    (hL : L'.used = update L.used b (some (sz, f))) :
    L'.Holds B.header (w.receive B ⟨b + B.header, sz - 32⟩ s') := by
  intro p len hp
  simp only [Client.receive, if_neg hpos] at hp
  by_cases hpb : p = b + B.header
  · subst hpb
    simp only [update_self, Option.some.injEq] at hp
    exact ⟨b, sz, f, rfl, hp.symm, by rw [hL, update_self]⟩
  · rw [update_of_ne hpb] at hp
    obtain ⟨b', n, f', rfl, hlen, hb'⟩ := hH _ _ hp
    exact ⟨b', n, f', rfl, hlen, by rw [hL, update_of_ne (by omega), hb']⟩

theorem LedgerStep.holds {w w' : Client σ} {L L' : Ledger} {op : Op} (hV : L.Valid) (hV' : L'.Valid)
    (hH : L.Holds B.header w) (h : LedgerStep B w L op w' L') : L'.Holds B.header w' := by
  cases h with
  | idle => exact hH
  | @«open» _ b sz f s' L' hO hf =>
    have hb : L'.used b = some (sz, f) := by rw [hO.used, update_self]
    have := (hV'.within hb).1
    have := hV'.pos
    exact hH.receive (by omega) hO.used
  | @again n b sz f s' L' hK hr hb =>
    have := (hV.within hb).1
    have := hV.pos
    refine hH.receive (f := f) (by omega) ?_
    rw [hK.used, update_eq_self_iff.2 hb.symm]
  | @bury b n f s' L' hbury hb hf =>
    intro p len hp
    obtain ⟨b', n', f', rfl, hlen, hb'⟩ := hH _ _ hp
    by_cases hbb : b' = b
    · subst hbb
      rw [hb] at hb'
      simp only [Option.some.injEq, Prod.mk.injEq] at hb'
      exact ⟨b', n', blockTombstone, rfl, hlen, by rw [hbury.used, update_self, hb'.1]⟩
    · exact ⟨b', n', f', rfl, hlen, by rw [hbury.used, update_of_ne hbb, hb']⟩
  | @close b n f s' L' hclose hb =>
    intro p len hp
    by_cases hpb : p = b + B.header
    · simp [hpb] at hp
    · simp only [update_of_ne hpb] at hp
      obtain ⟨b', n', f', rfl, hlen, hb'⟩ := hH _ _ hp
      exact ⟨b', n', f', rfl, hlen, by rw [hclose.used, update_of_ne (by omega), hb']⟩
  | write => exact hH

def Ledger.Reported (header : ℕ) (w : Client σ) (L : Ledger) : Prop :=
  ∀ {b n f}, L.used b = some (n, f) → w.held (b + header) = some (n - 32)

theorem LedgerStep.reported {w w' : Client σ} {L L' : Ledger} {op : Op} (hV : L.Valid)
    (hV' : L'.Valid) (hR : L.Reported B.header w) (h : LedgerStep B w L op w' L') :
    L'.Reported B.header w' := by
  cases h with
  | idle => exact hR
  | @«open» _ b sz f s' L' hO hf =>
    have hb : L'.used b = some (sz, f) := by rw [hO.used, update_self]
    have hpos : b + B.header ≠ 0 := by
      have := (hV'.within hb).1
      have := hV'.pos
      omega
    intro x n g hx
    simp only [Client.receive, if_neg hpos]
    by_cases hxb : x = b
    · subst hxb
      rw [hb] at hx
      simp only [Option.some.injEq, Prod.mk.injEq] at hx
      rw [update_self, hx.1]
    · rw [hO.used, update_of_ne hxb] at hx
      rw [update_of_ne (by omega)]
      exact hR hx
  | @again n b sz f s' L' hK hr hb =>
    have hpos : b + B.header ≠ 0 := by
      have := (hV.within hb).1
      have := hV.pos
      omega
    intro x n g hx
    rw [hK.used] at hx
    simp only [Client.receive, if_neg hpos]
    by_cases hxb : x = b
    · subst hxb
      rw [hb] at hx
      simp only [Option.some.injEq, Prod.mk.injEq] at hx
      rw [update_self, hx.1]
    · rw [update_of_ne (by omega)]
      exact hR hx
  | @bury b n f s' L' hbury hb hf =>
    intro x m g hx
    rw [hbury.used, update_apply] at hx
    split_ifs at hx with hxb
    · simp only [Option.some.injEq, Prod.mk.injEq] at hx
      rw [hxb, ← hx.1]
      exact hR hb
    · exact hR hx
  | @close b n f s' L' hclose hb =>
    intro x m g hx
    rw [hclose.used, update_apply] at hx
    split_ifs at hx with hxb
    show update w.held (b + B.header) none (x + B.header) = _
    rw [update_of_ne (by omega)]
    exact hR hx
  | write => exact hR

def Ledger.Unburied (L : Ledger) : Prop := ∀ {b n}, L.used b ≠ some (n, blockTombstone)

def Op.isTombstone : Op → Bool
  | .tombstone _ => true
  | _ => false

theorem LedgerStep.unburied {w w' : Client σ} {L L' : Ledger} {op : Op} (hU : L.Unburied)
    (hop : op.isTombstone = false) (h : LedgerStep B w L op w' L') : L'.Unburied := by
  cases h with
  | idle => exact hU
  | @«open» _ b sz f s' L' hO hf =>
    intro x n hx
    rw [hO.used, update_apply] at hx
    split_ifs at hx
    · simp only [Option.some.injEq, Prod.mk.injEq] at hx
      rcases hf with rfl | rfl <;> exact absurd hx.2 (by decide)
    · exact hU hx
  | again hK =>
    intro x n hx
    rw [hK.used] at hx
    exact hU hx
  | bury => exact absurd hop (by simp [Op.isTombstone])
  | close hclose =>
    intro x n hx
    rw [hclose.used, update_apply] at hx
    split_ifs at hx
    exact hU hx
  | write => exact hU

/-! ## Byte accounting -/

def liveWeight (v : ℕ × ℕ) : ℕ := if v.2 = blockTombstone then 0 else v.1

def tombWeight (v : ℕ × ℕ) : ℕ := if v.2 = blockTombstone then v.1 else 0

namespace Ledger

/-- The counters are the sums over the blocks in use. -/
def Balanced (L : Ledger) : Prop :=
  L.allocated = mass liveWeight L.lo L.hi L.used ∧ L.tombstoned = mass tombWeight L.lo L.hi L.used

theorem Valid.mass_le {L : Ledger} (hV : L.Valid) :
    mass liveWeight L.lo L.hi L.used + mass tombWeight L.lo L.hi L.used ≤ L.hi - L.lo := by
  rw [mass_add]
  have hw : (fun v : ℕ × ℕ => liveWeight v + tombWeight v) = Prod.fst := by
    funext v
    unfold liveWeight tombWeight
    split_ifs <;> simp
  rw [hw]
  exact mass_size_le hV.within hV.disjoint

structure Vacant (L : Ledger) : Prop where
  used : ∀ x, L.used x = none
  ring : ∀ x, ¬L.ring x
  allocated : L.allocated = 0
  tombstoned : L.tombstoned = 0

theorem Vacant.balanced {L : Ledger} (h : L.Vacant) : L.Balanced := by
  have hmass : ∀ g : ℕ × ℕ → ℕ, mass g L.lo L.hi L.used = 0 := by
    intro g
    unfold mass
    simp [h.used]
  exact ⟨by rw [hmass, h.allocated], by rw [hmass, h.tombstoned]⟩

/-- Rewriting one entry moves its weight. -/
theorem mass_entry {L L' : Ledger} {b : ℕ} {v : Option (ℕ × ℕ)} (g : ℕ × ℕ → ℕ)
    (hlo : L'.lo = L.lo) (hhi : L'.hi = L.hi) (hu : L'.used = update L.used b v)
    (h₁ : L.lo ≤ b) (h₂ : b < L.hi) :
    mass g L'.lo L'.hi L'.used + (L.used b).elim 0 g = mass g L.lo L.hi L.used + v.elim 0 g := by
  rw [hlo, hhi, hu]
  exact mass_update g L.used v h₁ h₂

theorem Balanced.opens {L L' : Ledger} {b sz f : ℕ} (hL : L.Balanced) (hV' : L'.Valid)
    (h : L.Opens L' b sz f) (hf : f = blockAlloc ∨ f = blockAlloc + blockTemporal) :
    L'.Balanced := by
  have hb : L'.used b = some (sz, f) := by rw [h.used, update_self]
  have hin := hV'.within hb
  have hsz := hV'.size hb
  have hne : f ≠ blockTombstone := by rcases hf with rfl | rfl <;> decide
  have hle := hV'.mass_le
  have htop := hV'.top
  rw [h.lo, h.hi] at hin
  have hm := mass_entry liveWeight h.lo h.hi h.used hin.1 (by omega)
  have ht := mass_entry tombWeight h.lo h.hi h.used hin.1 (by omega)
  simp only [h.unused, Option.elim_none, Option.elim_some, liveWeight, tombWeight,
    if_neg hne] at hm ht
  refine ⟨?_, ?_⟩
  · rw [h.allocated, hL.1, Nat.mod_eq_of_lt] <;> omega
  · rw [h.tombstoned, hL.2]
    omega

theorem Balanced.keeps {L L' : Ledger} (hL : L.Balanced) (h : L.Keeps L') : L'.Balanced := by
  unfold Balanced at *
  rw [h.allocated, h.tombstoned, h.lo, h.hi, h.used]
  exact hL

theorem Balanced.buries {L L' : Ledger} {b n f : ℕ} (hL : L.Balanced) (hV : L.Valid)
    (hV' : L'.Valid) (h : L.Buries L' b n) (hb : L.used b = some (n, f)) (hf : f ≠ blockTombstone) :
    L'.Balanced := by
  have hin := hV.within hb
  have hsz := hV.size hb
  have hle := hV.mass_le
  have hle' := hV'.mass_le
  have htop := hV.top
  rw [h.lo, h.hi] at hle'
  have hm := mass_entry liveWeight h.lo h.hi h.used hin.1 (by omega)
  have ht := mass_entry tombWeight h.lo h.hi h.used hin.1 (by omega)
  simp only [hb, Option.elim_some, liveWeight, tombWeight, if_neg hf, if_true] at hm ht
  rw [h.lo, h.hi] at hm ht
  unfold Balanced
  rw [h.allocated, h.tombstoned, h.lo, h.hi, hL.1, hL.2]
  omega

theorem Balanced.closes {L L' : Ledger} {b n f : ℕ} (hL : L.Balanced) (hV : L.Valid)
    (h : L.Closes L' b n f) (hb : L.used b = some (n, f)) (hf : f ≠ blockTombstone) :
    L'.Balanced := by
  have hin := hV.within hb
  have hsz := hV.size hb
  have hle := hV.mass_le
  have htop := hV.top
  have hm := mass_entry liveWeight h.lo h.hi h.used hin.1 (by omega)
  have ht := mass_entry tombWeight h.lo h.hi h.used hin.1 (by omega)
  simp only [hb, Option.elim_some, Option.elim_none, liveWeight, tombWeight, if_neg hf] at hm ht
  rw [h.lo, h.hi] at hm ht
  unfold Balanced
  rw [h.allocated, h.tombstoned, if_neg hf, h.lo, h.hi, hL.1, hL.2]
  omega

end Ledger

theorem LedgerStep.balanced {w w' : Client σ} {L L' : Ledger} {op : Op} (hV : L.Valid)
    (hV' : L'.Valid) (hbal : L.Balanced)
    (htomb : ∀ {b n f}, op = .deallocate (b + B.header) → L.used b = some (n, f) →
      f ≠ blockTombstone) (h : LedgerStep B w L op w' L') : L'.Balanced := by
  cases h with
  | idle => exact hbal
  | «open» hO hf => exact hbal.opens hV' hO hf
  | again hK => exact hbal.keeps hK
  | bury hb hu hf => exact hbal.buries hV hV' hb hu hf
  | close hc hu => exact hbal.closes hV hc hu (htomb rfl hu)
  | write => exact hbal

def sparesTombs (B : Book σ) (w : Client σ) : Op → Bool
  | .deallocate p => !B.isTombstoned w.book p
  | _ => true

/-- Steps of a client that holds the pointers it passes and leaves tombstoned blocks alone. -/
def Accountable (B : Book σ) (fits : ℕ → Bool) (w : Client σ) (op : Op) : Prop :=
  w.wellHeld op = true ∧ fitsOp fits op = true ∧ sparesTombs B w op = true

instance (w : Client σ) (op : Op) : Decidable (Accountable B fits w op) := by
  unfold Accountable
  infer_instance

/-- The counters stay the sums over the blocks in use. -/
theorem Refines.run_balanced (hB : Refines B fits Rep) {s : σ} {L : Ledger} (hrep : Rep s L)
    (hL : L.Balanced) {ops : List Op} {w : Client σ}
    (hrun : Run (Accountable B fits) (Client.step B) (.start s) ops w) :
    ∃ L', Rep w.book L' ∧ L'.Balanced := by
  have hinv : ∃ L, Rep w.book L ∧ L.Holds B.header w ∧ L.Balanced := by
    refine hrun.invariant (fun w => ∃ L, Rep w.book L ∧ L.Holds B.header w ∧ L.Balanced) ?_
      ⟨L, hrep, fun p len hp => by simp [Client.start] at hp, hL⟩
    rintro w op w' ⟨L, hrep, hH, hbal⟩ ⟨hlegal, hfit, hspare⟩ hstep
    have htomb : ∀ {b n f}, op = .deallocate (b + B.header) → L.used b = some (n, f) →
        f ≠ blockTombstone := by
      rintro b n f rfl hb rfl
      simp [sparesTombs, hB.isTombstoned hrep hb] at hspare
    obtain ⟨w'', L', hstep', hrep', hls⟩ := hB.step hrep hH hlegal hfit
      fun b n hop hb => absurd rfl (htomb hop hb)
    rw [hstep, Option.some.injEq] at hstep'
    subst hstep'
    have hV := hB.valid hrep
    have hV' := hB.valid hrep'
    exact ⟨L', hrep', hls.holds hV hV' hH, hls.balanced hV hV' hbal htomb⟩
  obtain ⟨L', hrep', -, hbal⟩ := hinv
  exact ⟨L', hrep', hbal⟩

/-! ## Tombstoned blocks -/

def sparesTemporal (B : Book σ) (w : Client σ) : Op → Bool
  | .tombstone p => !B.isTemporal w.book p
  | _ => true

/-- Steps of a client that passes live pointers and tombstones no temporal block. -/
def Burying (B : Book σ) (fits : ℕ → Bool) (w : Client σ) (op : Op) : Prop :=
  w.wellLive op = true ∧ fitsOp fits op = true ∧ sparesTemporal B w op = true

instance (w : Client σ) (op : Op) : Decidable (Burying B fits w op) := by
  unfold Burying
  infer_instance

/-- Tombstoned blocks stay tombstoned, live pointers and ring slots name other blocks. -/
structure Sealed (header : ℕ) (w : Client σ) (L : Ledger) : Prop where
  graves : ∀ g ∈ w.graves, L.used g.1 = some (g.2, blockTombstone)
  live : ∀ {b n f}, w.live (b + header) = true → L.used b = some (n, f) → f ≠ blockTombstone
  ring : ∀ {x}, L.ring x → ∃ n, L.used x = some (n, blockAlloc + blockTemporal)

theorem live_receive {w : Client σ} {c : Chunk} {s : σ} (hc : c.ptr ≠ 0) {p : ℕ}
    (hp : (w.receive B c s).live p = true) : p = c.ptr ∨ w.live p = true := by
  by_cases he : p = c.ptr
  · exact Or.inl he
  · right
    simpa [Client.live, Client.receive, hc, update_of_ne he] using hp

namespace Sealed
variable {w w' : Client σ} {L L' : Ledger} {b n sz f : ℕ} {s' : σ} {op : Op}

/-- A grave is a block in use of its own kind. -/
theorem grave_ne (hS : Sealed B.header w L) {g : ℕ × ℕ} (hg : g ∈ w.graves)
    (hb : L.used b = some (n, f)) (hf : f ≠ blockTombstone) : g.1 ≠ b := by
  have hold := hS.graves g hg
  intro he
  rw [he, hb] at hold
  simp only [Option.some.injEq, Prod.mk.injEq] at hold
  exact hf hold.2

theorem opens (hS : Sealed B.header w L) (hV' : L'.Valid) (hO : L.Opens L' b sz f)
    (hf : f = blockAlloc ∨ f = blockAlloc + blockTemporal) :
    Sealed B.header (w.receive B ⟨b + B.header, sz - 32⟩ s') L' := by
  have hb : L'.used b = some (sz, f) := by rw [hO.used, update_self]
  have hfne : f ≠ blockTombstone := by rcases hf with rfl | rfl <;> decide
  have hpos : b + B.header ≠ 0 := by
    have := (hV'.within hb).1
    have := hV'.pos
    omega
  have hne : ∀ {x v}, L.used x = some v → x ≠ b := by
    rintro x v hx rfl
    rw [hO.unused] at hx
    cases hx
  refine ⟨fun g hg => ?_, fun {b' n g} hlive hb' => ?_, fun {x} hx => ?_⟩
  · simp only [Client.receive, if_neg hpos] at hg
    have := hS.graves g hg
    rw [hO.used, update_of_ne (hne this), this]
  · by_cases hbb : b' = b
    · subst hbb
      rw [hb] at hb'
      simp only [Option.some.injEq, Prod.mk.injEq] at hb'
      exact hb'.2 ▸ hfne
    · rw [hO.used, update_of_ne hbb] at hb'
      rcases live_receive hpos hlive with he | hlive
      · simp only [Nat.add_right_cancel_iff] at he
        exact absurd he hbb
      · exact hS.live hlive hb'
  · rcases hO.ring hx with rfl | hold
    · obtain ⟨n, g, hg, hkind⟩ := hV'.ring hx
      rw [hb] at hg
      simp only [Option.some.injEq, Prod.mk.injEq] at hg
      rcases hkind with hk | hk
      · exact ⟨sz, by rw [hb, hg.2, hk]⟩
      · exact absurd (hg.2.trans hk) hfne
    · obtain ⟨n, hn⟩ := hS.ring hold
      exact ⟨n, by rw [hO.used, update_of_ne (hne hn), hn]⟩

/-- A block of the ring is handed out again, which is not a grave. -/
theorem again (hS : Sealed B.header w L) (hV : L.Valid) (hK : L.Keeps L') (hr : L.ring b)
    (hb : L.used b = some (sz, f)) :
    Sealed B.header (w.receive B ⟨b + B.header, sz - 32⟩ s') L' := by
  have hpos : b + B.header ≠ 0 := by
    have := (hV.within hb).1
    have := hV.pos
    omega
  refine ⟨fun g hg => ?_, fun {b' n' g} hlive hb' => ?_, fun {x} hx => ?_⟩
  · simp only [Client.receive, if_neg hpos] at hg
    rw [hK.used]
    exact hS.graves g hg
  · rw [hK.used] at hb'
    rcases live_receive hpos hlive with he | hlive
    · simp only [Nat.add_right_cancel_iff] at he
      obtain ⟨n'', hn''⟩ := hS.ring hr
      rw [he, hn''] at hb'
      simp only [Option.some.injEq, Prod.mk.injEq] at hb'
      rw [← hb'.2]
      decide
    · exact hS.live hlive hb'
  · rw [hK.used]
    exact hS.ring (hK.ring hx)

theorem buries (hS : Sealed B.header w L) (hbury : L.Buries L' b n) (hb : L.used b = some (n, f))
    (hf : f ≠ blockTombstone) (hftmp : f ≠ blockAlloc + blockTemporal) :
    Sealed B.header
      { w with
        book := s'
        dead := update w.dead (b + B.header) true
        graves := (b, n) :: w.graves } L' := by
  refine ⟨fun g hg => ?_, fun {b' n' g} hlive hb' => ?_, fun {x} hx => ?_⟩
  · rcases List.mem_cons.1 hg with rfl | hg
    · rw [hbury.used, update_self]
    · rw [hbury.used, update_of_ne (hS.grave_ne hg hb hf), hS.graves g hg]
  · have hne : b' ≠ b := by
      rintro rfl
      simp [Client.live] at hlive
    rw [hbury.used, update_of_ne hne] at hb'
    refine hS.live ?_ hb'
    have hp : b' + B.header ≠ b + B.header := by omega
    simpa [Client.live, update_of_ne hp] using hlive
  · obtain ⟨n', hn'⟩ := hS.ring (hbury.ring hx)
    have hne : x ≠ b := by
      rintro rfl
      rw [hb] at hn'
      simp only [Option.some.injEq, Prod.mk.injEq] at hn'
      exact hftmp hn'.2
    exact ⟨n', by rw [hbury.used, update_of_ne hne, hn']⟩

theorem closes (hS : Sealed B.header w L) (hV' : L'.Valid) (hclose : L.Closes L' b n f)
    (hb : L.used b = some (n, f)) (hf : f ≠ blockTombstone) :
    Sealed B.header
      { w with
        book := s'
        held := update w.held (b + B.header) none
        dead := update w.dead (b + B.header) false
        freed := update w.freed (b + B.header) true } L' := by
  refine ⟨fun g hg => ?_, fun {b' n' g} hlive hb' => ?_, fun {x} hx => ?_⟩
  · rw [hclose.used, update_of_ne (hS.grave_ne hg hb hf), hS.graves g hg]
  · have hne : b' ≠ b := by
      rintro rfl
      simp [Client.live] at hlive
    rw [hclose.used, update_of_ne hne] at hb'
    refine hS.live ?_ hb'
    have hp : b' + B.header ≠ b + B.header := by omega
    simpa [Client.live, update_of_ne hp] using hlive
  · obtain ⟨n', g, hg, -⟩ := hV'.ring hx
    have hne : x ≠ b := by
      rintro rfl
      rw [hclose.used, update_self] at hg
      cases hg
    obtain ⟨n'', hn''⟩ := hS.ring (hclose.ring hx)
    exact ⟨n'', by rw [hclose.used, update_of_ne hne, hn'']⟩

theorem step (hS : Sealed B.header w L) (hV : L.Valid) (hV' : L'.Valid)
    (hlegal : w.wellLive op = true)
    (htmp : ∀ {b n}, op = .tombstone (b + B.header) →
      L.used b ≠ some (n, blockAlloc + blockTemporal))
    (h : LedgerStep B w L op w' L') : Sealed B.header w' L' := by
  cases h with
  | idle => exact hS
  | «open» hO hf => exact hS.opens hV' hO hf
  | again hK hr hb => exact hS.again hV hK hr hb
  | bury hbury hb hf =>
    refine hS.buries hbury hb hf ?_
    rintro rfl
    exact htmp rfl hb
  | close hclose hb => exact hS.closes hV' hclose hb (hS.live hlegal hb)
  | write => exact ⟨hS.graves, fun hl hb => hS.live hl hb, hS.ring⟩

end Sealed

/-- No chunk returned after a tombstone overlaps the tombstoned block. -/
theorem Refines.run_sealed (hB : Refines B fits Rep) {s : σ} {L : Ledger} (hrep : Rep s L)
    (hring : ∀ x, ¬L.ring x) {ops : List Op} {w : Client σ}
    (hrun : Run (Burying B fits) (Client.step B) (.start s) ops w) {u : ℕ} (hu : fits u = true)
    {c : Chunk} {s' : σ}
    (hc : B.allocate w.book u = some (c, s') ∨ B.temporalAllocate w.book u = some (c, s'))
    (hc0 : c.ptr ≠ 0) : ∀ g ∈ w.graves, c.ptr + c.len ≤ g.1 ∨ g.1 + g.2 ≤ c.ptr := by
  have hinv : ∃ L, Rep w.book L ∧ L.Holds B.header w ∧ Sealed B.header w L := by
    refine hrun.invariant
      (fun w => ∃ L, Rep w.book L ∧ L.Holds B.header w ∧ Sealed B.header w L) ?_
      ⟨L, hrep,
        fun p len hp => by simp [Client.start] at hp, fun g hg => by simp [Client.start] at hg,
        fun hl => by simp [Client.live, Client.start] at hl, fun hx => absurd hx (hring _)⟩
    rintro w op w' ⟨L, hrep, hH, hS⟩ ⟨hlegal, hfit, hspare⟩ hstep
    have hclear : ∀ b n, op = .deallocate (b + B.header) → L.used b = some (n, blockTombstone) →
        ¬L.ring b := by
      rintro b n rfl hb
      exact absurd rfl (hS.live hlegal hb)
    obtain ⟨w'', L', hstep', hrep', hls⟩ :=
      hB.step hrep hH (Client.wellHeld_of_wellLive hlegal) hfit hclear
    rw [hstep, Option.some.injEq] at hstep'
    subst hstep'
    have hV := hB.valid hrep
    have hV' := hB.valid hrep'
    refine ⟨L', hrep', hls.holds hV hV' hH, hS.step hV hV' hlegal ?_ hls⟩
    rintro b n rfl hb
    simp [sparesTemporal, hB.isTemporal hrep hb] at hspare
  obtain ⟨L, hrep, -, hS⟩ := hinv
  have hV := hB.valid hrep
  have hhd := hB.header_le
  -- a chunk inside a block in use other than the tombstoned ones
  have hdone : ∀ {L' : Ledger} {b sz f : ℕ}, L'.Valid → L'.used b = some (sz, f) →
      (∀ g ∈ w.graves, L'.used g.1 = some (g.2, blockTombstone) ∧ g.1 ≠ b) →
      ∀ g ∈ w.graves, b + B.header + (sz - 32) ≤ g.1 ∨ g.1 + g.2 ≤ b + B.header := by
    intro L' b sz f hV' hb hg g hmem
    obtain ⟨hused, hne⟩ := hg g hmem
    have := hV'.disjoint hb hused (Ne.symm hne)
    have := hV'.size hb
    omega
  have hopen : ∀ {L' : Ledger} {b sz f : ℕ}, L'.Valid → L.Opens L' b sz f →
      ∀ g ∈ w.graves, b + B.header + (sz - 32) ≤ g.1 ∨ g.1 + g.2 ≤ b + B.header := by
    intro L' b sz f hV' hO
    refine hdone hV' (by rw [hO.used, update_self]) fun g hg => ?_
    have hold := hS.graves g hg
    have hne : g.1 ≠ b := by
      intro he
      rw [he, hO.unused] at hold
      cases hold
    exact ⟨by rw [hO.used, update_of_ne hne, hold], hne⟩
  rcases hc with hal | hal
  · rcases hB.allocate hrep hu with hnull | ⟨b, sz, s'', L', hal', hrep', hO, -⟩
    · rw [hal] at hnull
      simp only [Option.some.injEq, Prod.mk.injEq] at hnull
      exact absurd (congrArg Chunk.ptr hnull.1) hc0
    · rw [hal] at hal'
      simp only [Option.some.injEq, Prod.mk.injEq] at hal'
      rw [hal'.1]
      exact hopen (hB.valid hrep') hO
  · rcases hB.temporalAllocate hrep hu with hnull |
      ⟨b, sz, f, s'', L', hal', hrep', hK, hr, hb⟩ | ⟨b, sz, s'', L', hal', hrep', hO⟩
    · rw [hal] at hnull
      simp only [Option.some.injEq, Prod.mk.injEq] at hnull
      exact absurd (congrArg Chunk.ptr hnull.1) hc0
    · rw [hal] at hal'
      simp only [Option.some.injEq, Prod.mk.injEq] at hal'
      rw [hal'.1]
      refine hdone hV hb fun g hg => ⟨hS.graves g hg, fun he => ?_⟩
      obtain ⟨n, hn⟩ := hS.ring hr
      have hold := hS.graves g hg
      rw [he, hn] at hold
      simp only [Option.some.injEq, Prod.mk.injEq] at hold
      exact absurd hold.2 (by decide)
    · rw [hal] at hal'
      simp only [Option.some.injEq, Prod.mk.injEq] at hal'
      rw [hal'.1]
      exact hopen (hB.valid hrep') hO

end AbcMalloc
