import AbcMalloc.Doctor.Runs

/-! The counters of the ledger against its slots. `occupied` and `n_live` are exact. `n_freed`
exceeds the number of freed and tombstoned slots by the quarantines of such records since the
last eviction: `__quarantine_locked` takes a record out of the freed state without counting it
down. -/
namespace AbcMalloc.Doctor
open Function Foundation

def Rec.isReleased (r : Rec) : Bool := r.state = .freed || r.state = .tombstoned

def State.slotCount (p : Rec → Bool) (d : State) : ℕ :=
  match d.slots with
  | none => 0
  | some t => count p t d.cap

/-- Quarantines of freed or tombstoned records since the last eviction, after one more call. -/
def State.strays (maxRecords : ℕ) (d : State) (n : ℕ) : Call → ℕ
  | .recordAlloc ptr _ _ => if ptr ≠ 0 ∧ d.evicts maxRecords then 0 else n
  | .quarantine ptr => if (d.record ptr).any Rec.isReleased then n + 1 else n
  | _ => n

def straysAfter (maxRecords : ℕ) (calls : List Call) : ℕ :=
  (calls.foldl (fun p c => (p.1.call maxRecords true c, p.1.strays maxRecords p.2 c))
    (State.initial, 0)).2

theorem Rec.isUsed_of_isReleased {r : Rec} (h : r.isReleased = true) : r.isUsed = true := by
  simp only [isReleased, Bool.or_eq_true, decide_eq_true_eq] at h
  rcases h with h | h <;> simp [isUsed, h]

/-- `n_freed` exceeds the number of freed and tombstoned slots by `n`. -/
def State.Tallied (d : State) (n : ℕ) : Prop := d.nFreed = d.slotCount Rec.isReleased + n

section Tally
variable {d : State} {t : ℕ → Rec} {M : Records} {ptr maxRecords n : ℕ}

theorem Loaded.slotCount_eq (hL : Loaded d t M) (p : Rec → Bool) :
    d.slotCount p = count p t d.cap := by
  unfold State.slotCount
  rw [hL.slots]

theorem reinsertAll_nFreed {keep : Rec → Bool} {old : ℕ → Rec} :
    (d.reinsertAll keep old n).nFreed = d.nFreed := by
  induction n with
  | zero => exact rfl
  | succ n ih =>
    rw [reinsertAll_succ]
    split_ifs
    · unfold State.reinsert
      split
      · exact ih
      · exact ih
    · exact ih

/-! ## Growth and eviction -/

theorem Loaded.rebuild_slotCount (hL : Loaded d t M) {p q : Rec → Bool}
    (hp : ∀ r, p r = true → r.isUsed = true) (hq : ∀ r, q r = true → r.isUsed = true) {e cap : ℕ}
    (hcap : cap = 2 ^ e) (hroom : count p t d.cap < cap) :
    ((d.fresh cap).reinsertAll p t d.cap).slotCount q = count (fun r => p r && q r) t d.cap := by
  obtain ⟨t', hF, -⟩ := hL.copying hp hcap hroom le_rfl
  unfold State.slotCount
  rw [hF.slots]
  exact hF.counts q hq

theorem Loaded.rehash_tallied (hL : Loaded d t M) (hroom : Roomy d) (hT : d.Tallied n) :
    (d.rehash true (d.cap <<< 1)).Tallied n := by
  obtain ⟨e, he⟩ := hL.table.pow
  have hlarge := hL.large
  have hbig : d.cap <<< 1 = d.cap * 2 := Nat.shiftLeft_eq _ _
  have hdouble : d.cap <<< 1 = 2 ^ (e + 1) := by rw [hbig, he, pow_succ]
  have hle : count Rec.isKept t d.cap ≤ count Rec.isUsed t d.cap :=
    count_le fun _ h => Rec.isUsed_of_isKept h
  have hlt := hL.room hroom
  have hkept : count (fun r => r.isKept && r.isReleased) t d.cap =
    count Rec.isReleased t d.cap := by
    refine count_congr fun i hi => ?_
    by_cases hr : (t i).isReleased = true
    · simp [hr, hL.isKept hi, Rec.isUsed_of_isReleased hr]
    · simp [hr]
  unfold State.Tallied at hT ⊢
  rw [hL.rehash_eq, hL.rebuild_slotCount (fun _ h => Rec.isUsed_of_isKept h)
    (fun _ h => Rec.isUsed_of_isReleased h) hdouble (by omega), hkept, reinsertAll_nFreed]
  rw [hL.slotCount_eq] at hT
  exact hT

theorem Loaded.dropFreed_tallied (hL : Loaded d t M) (hroom : Roomy d)
    (hlt : d.nLive < d.occupied) :
    (d.dropFreed true).2.Tallied 0 := by
  obtain ⟨e, he⟩ := hL.table.pow
  have hle : count Rec.isLive t d.cap ≤ count Rec.isUsed t d.cap :=
    count_le fun _ h => Rec.isUsed_of_isLive h
  have hroom' := hL.room hroom
  have hnone : count (fun r => r.isLive && r.isReleased) t d.cap = 0 := by
    unfold count
    refine Finset.sum_eq_zero fun i _ => if_neg ?_
    simp only [Rec.isLive, Rec.isReleased, Bool.and_eq_true, Bool.or_eq_true, decide_eq_true_eq]
    rintro ⟨hl, hf | hf⟩
    · simp [hl] at hf
    · simp [hl] at hf
  have hcount := hL.rebuild_slotCount (fun _ h => Rec.isUsed_of_isLive h)
    (fun _ h => Rec.isUsed_of_isReleased h) he (by omega)
  rw [hL.dropFreed_eq hlt]
  show 0 = ((d.fresh d.cap).reinsertAll Rec.isLive t d.cap).slotCount Rec.isReleased + 0
  rw [hcount, hnone]

theorem Loaded.grow_tallied (hL : Loaded d t M) (hroom : Roomy d) (hT : d.Tallied n) :
    (d.growIfNeeded maxRecords true).Tallied (if d.evicts maxRecords then 0 else n) := by
  have hlarge := hL.large
  have hbig : d.cap <<< 1 = d.cap * 2 := Nat.shiftLeft_eq _ _
  unfold State.growIfNeeded
  rw [if_neg (by omega)]
  by_cases hload : d.occupied * 10 < d.cap * 7
  · have hno : d.evicts maxRecords = false := by
      simp [State.evicts, not_le.2 hload]
    rw [if_pos hload, hno]
    exact hT
  rw [if_neg hload]
  dsimp only
  by_cases hmax : maxRecords < d.cap <<< 1
  · rw [if_pos hmax]
    by_cases hlt : d.nLive < d.occupied
    · have hyes : d.evicts maxRecords = true := by
        simp only [State.evicts, Bool.and_eq_true, decide_eq_true_eq]
        omega
      obtain ⟨⟨t', hL'⟩, hroom', hcap, -⟩ := hL.dropFreed hroom hlt
      have hdrop := hL.dropFreed_tallied hroom hlt
      rw [hyes, if_pos rfl]
      by_cases hfit : (d.dropFreed true).1 ∧
          (d.dropFreed true).2.occupied * 10 < (d.dropFreed true).2.cap * 7
      · rw [if_pos hfit]
        exact hdrop
      · rw [if_neg hfit, ← hcap]
        exact hL'.rehash_tallied hroom' hdrop
    · have hno : d.evicts maxRecords = false := by
        simp [State.evicts, hlt]
      rw [hL.dropFreed_of_le (not_lt.1 hlt), hno, if_neg (by simp)]
      exact hL.rehash_tallied hroom hT
  · have hno : d.evicts maxRecords = false := by
      rw [hbig] at hmax
      simp [State.evicts, hmax]
    rw [if_neg hmax, hno]
    exact hL.rehash_tallied hroom hT

/-! ## Calls -/

theorem Loaded.recordAlloc_tallied (hL : Loaded d t M) (hroom : Roomy d) (hT : d.Tallied n)
    (hptr : ptr ≠ 0) (reqSize : ℕ) (site : Site) :
    (d.recordAlloc maxRecords true ptr reqSize site).Tallied
      (if d.evicts maxRecords then 0 else n) := by
  obtain ⟨⟨t₁, hL₁⟩, hload⟩ :
      (∃ t', Loaded (d.growIfNeeded maxRecords true) t' _) ∧ _ := hL.grow hroom
  have hT₁ : (d.growIfNeeded maxRecords true).Tallied (if d.evicts maxRecords then 0 else n) :=
    hL.grow_tallied hroom hT
  obtain ⟨i, hi, hslot, -⟩ := hL₁.alloc hload (r := .alloc ptr reqSize d.opCounter site) rfl hptr
  have hslot : (d.growIfNeeded maxRecords true).slotFor ptr = some i := hslot
  unfold State.recordAlloc
  rw [if_neg hptr]
  dsimp only
  rw [hL.ensure_eq, if_neg (by rw [hL.slots]; simp), hL₁.slots, hslot]
  generalize d.growIfNeeded maxRecords true = g at hL₁ hi hT₁ ⊢
  generalize (if d.evicts maxRecords then 0 else n) = n' at hT₁ ⊢
  have hcount := count_update (p := Rec.isReleased) (t := t₁)
    (r := .alloc ptr reqSize g.opCounter site) hi
  have hnew : (Rec.alloc ptr reqSize g.opCounter site).isReleased = false := rfl
  unfold State.Tallied at hT₁ ⊢
  rw [hL₁.slotCount_eq] at hT₁
  rw [hnew] at hcount
  have hslots : State.slotCount Rec.isReleased (g.write i (.alloc ptr reqSize g.opCounter site)) =
      count Rec.isReleased (update t₁ i (.alloc ptr reqSize g.opCounter site)) g.cap := by
    unfold State.slotCount State.write
    rw [hL₁.slots]
    rfl
  show (if (t₁ i).state = .freed ∨ (t₁ i).state = .tombstoned then g.nFreed - 1 else g.nFreed) =
    State.slotCount Rec.isReleased (g.write i (.alloc ptr reqSize g.opCounter site)) + n'
  rw [hslots]
  by_cases hr : (t₁ i).state = .freed ∨ (t₁ i).state = .tombstoned
  · have hrel : (t₁ i).isReleased = true := by simpa [Rec.isReleased] using hr
    rw [if_pos hr]
    rw [hrel] at hcount
    simp only [if_true, Bool.false_eq_true, if_false] at hcount
    omega
  · have hrel : (t₁ i).isReleased = false := by simpa [Rec.isReleased] using hr
    rw [if_neg hr]
    rw [hrel] at hcount
    simp only [Bool.false_eq_true, if_false] at hcount
    omega

/-- A call that rewrites the record of a tracked pointer. -/
theorem Loaded.modify_tallied (hL : Loaded d t M) (hroom : Roomy d) (hT : d.Tallied n)
    {f : Rec → State → State × Rec} {n' : ℕ} (hnone : M ptr = none → n' = n)
    (hsome : ∀ r, M ptr = some r → (f r d).1.slots = d.slots ∧ (f r d).1.cap = d.cap ∧
      (f r d).1.nFreed + n + (if r.isReleased then 1 else 0) =
        d.nFreed + n' + if (f r d).2.isReleased then 1 else 0) :
    (d.modify ptr f).Tallied n' := by
  have hrec := hL.record_eq hroom ptr
  unfold State.modify
  cases hM : M ptr with
  | none =>
    rw [hL.find_of_not_mem hroom hM, hnone hM]
    exact hT
  | some r =>
    obtain ⟨i, hi, hfind, hti⟩ := hL.find_of_mem hM
    obtain ⟨hs, hc, hn⟩ := hsome r hM
    have hcount := count_update (p := Rec.isReleased) (t := t) (r := (f r d).2) hi
    rw [hti] at hcount
    unfold State.Tallied at hT ⊢
    rw [hL.slotCount_eq] at hT
    rw [hfind, hrec, hM]
    show (f r d).1.nFreed = ((f r d).1.write i (f r d).2).slotCount Rec.isReleased + n'
    have hslots : ((f r d).1.write i (f r d).2).slotCount Rec.isReleased =
        count Rec.isReleased (update t i (f r d).2) d.cap := by
      unfold State.slotCount State.write
      rw [hs, hL.slots, hc]
      rfl
    rw [hslots]
    omega

theorem Loaded.markFree_tallied (hL : Loaded d t M) (hroom : Roomy d) (hT : d.Tallied n)
    {dest : RecState} (hdest : dest = .freed ∨ dest = .tombstoned) (len : ℕ) (site : Site) :
    (d.markFree ptr dest len site).Tallied n := by
  refine hL.modify_tallied hroom hT (fun _ => rfl) fun r hr => ?_
  by_cases hdone : r.state = .freed ∨ r.state = .tombstoned ∨ r.state = .quarantined
  · rw [if_pos hdone]
    exact ⟨rfl, rfl, rfl⟩
  · rw [if_neg hdone]
    have hold : r.isReleased = false := by
      simp only [Rec.isReleased, Bool.or_eq_false_iff, decide_eq_false_iff_not]
      exact ⟨fun h => hdone (Or.inl h), fun h => hdone (Or.inr (Or.inl h))⟩
    refine ⟨rfl, rfl, ?_⟩
    rw [hold]
    rcases hdest with rfl | rfl
    · simp only [Rec.isReleased]
      simp
      omega
    · simp only [Rec.isReleased]
      simp
      omega

theorem Loaded.refresh_tallied (hL : Loaded d t M) (hroom : Roomy d) (hT : d.Tallied n)
    {f : Rec → State → State × Rec}
    (hf : ∀ r, (f r d).1.slots = d.slots ∧ (f r d).1.cap = d.cap ∧ (f r d).1.nFreed = d.nFreed ∧
      (f r d).2.state = r.state) :
    (d.modify ptr f).Tallied n := by
  refine hL.modify_tallied hroom hT (fun _ => rfl) fun r _ => ?_
  obtain ⟨hs, hc, hn, hst⟩ := hf r
  refine ⟨hs, hc, ?_⟩
  rw [hn, Rec.isReleased, Rec.isReleased, hst]

theorem Loaded.quarantine_tallied (hL : Loaded d t M) (hroom : Roomy d) (hT : d.Tallied n) :
    (d.quarantine ptr).Tallied
      (if (d.record ptr).any Rec.isReleased then n + 1 else n) := by
  rw [hL.record_eq hroom]
  refine hL.modify_tallied hroom hT (fun hM => by rw [hM]; rfl) fun r hM => ⟨rfl, rfl, ?_⟩
  have hnew : Rec.isReleased { r with state := .quarantined } = false := rfl
  rw [hM, Option.any_some, hnew]
  show d.nFreed + n + _ = _
  by_cases hr : r.isReleased = true
  · rw [hr]
    simp only [if_true, Bool.false_eq_true, if_false]
    omega
  · rw [if_neg hr, if_neg hr]
    simp

theorem initial_tallied (h : State.initial.Tallied n) :
    (State.initial.ensure true).Tallied n := by
  unfold State.Tallied at h ⊢
  rw [loaded_first.slotCount_eq, count_zero rfl]
  exact h

theorem Good.call_tallied {p : State × Records} (hp : Good p) (hT : p.1.Tallied n) (c : Call) :
    (p.1.call maxRecords true c).Tallied (p.1.strays maxRecords n c) := by
  obtain ⟨d, M⟩ := p
  rcases hp with ⟨hd, -⟩ | ⟨t, hL, hroom⟩
  · -- before the first mapping only `record_alloc` does anything
    dsimp only at hd hT ⊢
    subst hd
    have hidle : ∀ {d : State}, d = .initial → d.Tallied n := by
      rintro d rfl
      exact hT
    cases c with
    | recordAlloc ptr reqSize site =>
      have hno : State.evicts maxRecords State.initial = false := by
        simp [State.evicts, State.initial]
      have hno' : State.evicts maxRecords (State.initial.ensure true) = false := by
        simp [State.evicts, State.initial, State.ensure, State.rehash]
      dsimp only [State.call, State.strays]
      rw [if_neg (by simp [hno])]
      by_cases hptr : ptr = 0
      · rw [State.recordAlloc, if_pos hptr]
        exact hT
      · rw [recordAlloc_ensure loaded_first.ensure_eq hptr]
        have hfirst : State.Tallied (State.recordAlloc maxRecords true _ _ _ _) _ :=
          loaded_first.recordAlloc_tallied (by unfold Roomy; decide) (initial_tallied hT) hptr
            reqSize site
        rw [hno'] at hfirst
        exact hfirst
    | recordRealloc ptr m site => exact hidle (ite_self _)
    | markChunkAlloc ptr => exact hidle (ite_self _)
    | recordFree ptr len site => exact hidle (ite_self _)
    | recordTombstone ptr len site => exact hidle (ite_self _)
    | quarantine ptr => exact hT
  · dsimp only at hL hroom hT ⊢
    have hguard : ∀ {ptr : ℕ} {d' : State}, d'.Tallied n →
        (if ptr = 0 then d else d').Tallied n := by
      intro ptr d' h
      split_ifs
      · exact hT
      · exact h
    cases c with
    | recordAlloc ptr reqSize site =>
      dsimp only [State.call, State.strays]
      by_cases hptr : ptr = 0
      · rw [State.recordAlloc, if_pos hptr, if_neg (by simp [hptr])]
        exact hT
      · simp only [ne_eq, hptr, not_false_eq_true, true_and]
        exact hL.recordAlloc_tallied hroom hT hptr reqSize site
    | recordRealloc ptr m site =>
      refine hguard (hL.refresh_tallied hroom hT fun r => ?_)
      split_ifs <;> exact ⟨rfl, rfl, rfl, rfl⟩
    | markChunkAlloc ptr =>
      refine hguard (hL.refresh_tallied hroom hT fun r => ?_)
      split_ifs <;> exact ⟨rfl, rfl, rfl, rfl⟩
    | recordFree ptr len site => exact hguard (hL.markFree_tallied hroom hT (Or.inl rfl) len site)
    | recordTombstone ptr len site =>
      exact hguard (hL.markFree_tallied hroom hT (Or.inr rfl) len site)
    | quarantine ptr => exact hL.quarantine_tallied hroom hT

end Tally

/-! ## Runs -/

section Runs
variable {maxRecords : ℕ}

theorem foldl_strays_fst (calls : List Call) :
    (calls.foldl (fun p c => (p.1.call maxRecords true c, p.1.strays maxRecords p.2 c))
      (State.initial, 0)).1 = (after maxRecords calls).1 := by
  induction calls using List.reverseRecOn with
  | nil => rfl
  | append_singleton calls c ih => rw [List.foldl_append, after_append, ← ih]; rfl

theorem straysAfter_append (calls : List Call) (c : Call) :
    straysAfter maxRecords (calls ++ [c]) =
      (after maxRecords calls).1.strays maxRecords (straysAfter maxRecords calls) c := by
  rw [← foldl_strays_fst]
  unfold straysAfter
  rw [List.foldl_append]
  rfl

theorem after_tallied (maxRecords : ℕ) (calls : List Call) :
    (after maxRecords calls).1.Tallied (straysAfter maxRecords calls) := by
  induction calls using List.reverseRecOn with
  | nil => rfl
  | append_singleton calls c ih =>
    rw [after_append, straysAfter_append]
    exact (after_good calls).call_tallied ih c

/-- After any sequence of calls `occupied` and `n_live` are the numbers of slots in use and of
live slots. `n_freed` is the number of freed and tombstoned slots exactly when no such record was
quarantined since the last eviction. -/
theorem counters_match (maxRecords : ℕ) (calls : List Call) :
    (after maxRecords calls).1.occupied = (after maxRecords calls).1.slotCount Rec.isUsed ∧
    (after maxRecords calls).1.nLive = (after maxRecords calls).1.slotCount Rec.isLive ∧
    ((after maxRecords calls).1.nFreed = (after maxRecords calls).1.slotCount Rec.isReleased ↔
      straysAfter maxRecords calls = 0) := by
  have hT := after_tallied maxRecords calls
  have hcounts : (after maxRecords calls).1.occupied =
    (after maxRecords calls).1.slotCount Rec.isUsed ∧
      (after maxRecords calls).1.nLive = (after maxRecords calls).1.slotCount Rec.isLive := by
    have hgood : Good (after maxRecords calls) := after_good calls
    rcases hgood with ⟨hd, -⟩ | ⟨t, hL, -⟩
    · rw [hd]
      exact ⟨rfl, rfl⟩
    · rw [hL.slotCount_eq, hL.slotCount_eq]
      exact ⟨hL.occupied, hL.live⟩
  refine ⟨hcounts.1, hcounts.2, ?_⟩
  unfold State.Tallied at hT
  omega

/-- A block is freed twice and the second free is rescued: its record is quarantined, but
`n_freed` still counts it. -/
theorem quarantined_still_counted : ¬∀ (maxRecords : ℕ) (calls : List Call),
    (after maxRecords calls).1.nFreed = (after maxRecords calls).1.slotCount Rec.isReleased := by
  intro h
  let calls : List Call := [.recordAlloc 4096 10 ⟨1, 2, 0, 64, 0⟩,
    .recordFree 4096 10 ⟨1, 2, 0, 64, 0⟩, .quarantine 4096]
  have hstray : straysAfter (2 ^ 24) calls = 1 := by decide +kernel
  have hT := after_tallied (2 ^ 24) calls
  have hcount := h (2 ^ 24) calls
  rw [hstray] at hT
  unfold State.Tallied at hT
  omega

end Runs
end AbcMalloc.Doctor
