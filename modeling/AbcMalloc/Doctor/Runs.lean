import AbcMalloc.Doctor.Ledger

/-! Sequences of calls of the ledger: `__find` shows the record last written for a key, unless an
eviction since found it not live. -/
namespace AbcMalloc.Doctor
open Function Foundation

/-! ## What the calls write -/

def Rec.markFree (r : Rec) (op : ℕ) (dest : RecState) (len : ℕ) (site : Site) : Rec :=
  if r.state = .freed ∨ r.state = .tombstoned ∨ r.state = .quarantined then r
  else { r with state := dest, freeOp := op, freeTid := site.tid, freeLen := len }

/-- Rewrite the record of a key that has one. -/
def Records.change (M : Records) (k : ℕ) (g : Rec → Rec) : Records := update M k ((M k).map g)

/-- The records after a call on the ledger `d`. -/
def Records.call (maxRecords : ℕ) (d : State) (M : Records) : Call → Records
  | .recordAlloc ptr reqSize site =>
    if ptr = 0 then M
    else update (if d.evicts maxRecords then M.evict else M) ptr
      (some (.alloc ptr reqSize d.opCounter site))
  | .recordRealloc ptr newReqSize site => M.change ptr fun r =>
    if r.state ≠ .live then r else { r with reqSize := newReqSize }.arm site
  | .markChunkAlloc ptr => M.change ptr fun r =>
    if r.state = .live then { r with flags := r.flags ||| 1 } else r
  | .recordFree ptr len site => M.change ptr fun r => r.markFree d.opCounter .freed len site
  | .recordTombstone ptr len site =>
    M.change ptr fun r => r.markFree d.opCounter .tombstoned len site
  | .quarantine ptr => M.change ptr fun r => { r with state := .quarantined }

def Call.ptr : Call → ℕ
  | .recordAlloc ptr _ _ => ptr
  | .recordRealloc ptr _ _ => ptr
  | .markChunkAlloc ptr => ptr
  | .recordFree ptr _ _ => ptr
  | .recordTombstone ptr _ _ => ptr
  | .quarantine ptr => ptr

/-! ## One call -/

section Calls
variable {d : State} {t : ℕ → Rec} {M : Records} {ptr maxRecords : ℕ}

theorem count_pos {p : Rec → Bool} {n i : ℕ} (hi : i < n) (hp : p (t i) = true) :
    0 < count p t n := by
  have hle := Finset.single_le_sum (f := fun j => if p (t j) then 1 else 0)
    (fun _ _ => Nat.zero_le _) (Finset.mem_range.2 hi)
  simp only [if_pos hp] at hle
  exact hle

theorem Loaded.alloc (hL : Loaded d t M) (hload : d.occupied * 10 < d.cap * 7) {r : Rec}
    (hr : r.isLive = true) (hkey : r.key ≠ 0) :
    ∃ i < d.cap, d.slotFor r.key = some i ∧ ∀ d' : State, d'.slots = some (update t i r) →
      d'.cap = d.cap → d'.mask = d.mask →
      d'.occupied = (if (t i).state = .empty then d.occupied + 1 else d.occupied) →
      d'.nLive = (if (t i).state ≠ .live then d.nLive + 1 else d.nLive) →
      Loaded d' (update t i r) (update M r.key (some r)) ∧ Roomy d' := by
  have hlarge := hL.large
  have hroom : Roomy d := by
    unfold Roomy
    omega
  have hu := Rec.isUsed_of_isLive hr
  cases hM : M r.key with
  | some r₀ =>
    obtain ⟨i, hi, hti, hslot⟩ := hL.table.slotFrom_of_holds (hL.holds hM)
    have hold : (t i).isUsed = true := by
      rw [hti]
      exact (hL.holds hM).1
    have hkey₀ := hL.keyed hM
    rw [hkey₀, ← hL.slotFor] at hslot
    refine ⟨i, hi, hslot, fun d' hs hc hm ho hn => ?_⟩
    have hne : (t i).state ≠ .empty := by simpa [Rec.isUsed] using hold
    rw [if_neg hne] at ho
    have hL' := hL.write hi hold hu (by rw [hti, hkey₀]) hs hc hm ho (by
      rw [hn, hr, if_pos rfl]
      unfold Rec.isLive
      by_cases hl : (t i).state = .live <;> simp [hl])
    refine ⟨hL', ?_⟩
    unfold Roomy
    omega
  | none =>
    have habs : ∀ r', Holds t d.cap r' → r'.key ≠ r.key := by
      intro r' hr' heq
      have hmem := (hL.records r').2 hr'
      rw [heq, hM] at hmem
      exact absurd hmem (by simp)
    obtain ⟨i, hi, hslot, hfree, htable, hholds⟩ :=
      hL.table.put (by have := hL.room hroom; omega) hu hkey habs
    rw [← hL.slotFor] at hslot
    refine ⟨i, hi, hslot, fun d' hs hc hm ho hn => ?_⟩
    have hempty : (t i).state = .empty := by simpa [Rec.isUsed] using hfree
    rw [if_pos hempty] at ho
    rw [if_pos (by rw [hempty]; decide)] at hn
    have hused := count_update (p := Rec.isUsed) (t := t) (r := r) hi
    have hlive := count_update (p := Rec.isLive) (t := t) (r := r) hi
    rw [hfree, hu] at hused
    rw [hr] at hlive
    have hnl : (t i).isLive = false := by simp [Rec.isLive, hempty]
    simp only [hnl, Bool.false_eq_true, if_false, if_true, Nat.add_zero] at hused hlive
    refine ⟨⟨hs, hc ▸ htable, by rw [hm, hc, hL.mask], hc ▸ hL.large, ?_, ?_, fun r' => ?_,
      fun {x r'} hx => ?_⟩, by unfold Roomy; omega⟩
    · rw [ho, hc, hused, hL.occupied]
    · rw [hn, hc, hlive, hL.live]
    · rw [hc, hholds, ← hL.records, update_apply]
      split_ifs with he
      · rw [he, hM, Option.some.injEq]
        simp only [reduceCtorEq, or_false]
        exact eq_comm
      · constructor
        · exact Or.inr
        · rintro (rfl | h)
          · exact absurd rfl he
          · exact h
    · rw [update_apply] at hx
      split_ifs at hx with he
      · rw [he, ← Option.some.inj hx]
      · exact hL.keyed hx

/-- A call that rewrites the record of a tracked pointer. -/
theorem Loaded.modify (hL : Loaded d t M) (hroom : Roomy d) {f : Rec → State → State × Rec}
    {g : Rec → Rec}
    (hf : ∀ r, M ptr = some r → (f r d).2 = g r ∧ (g r).isUsed = true ∧ (g r).key = r.key ∧
      (f r d).1.slots = d.slots ∧ (f r d).1.cap = d.cap ∧ (f r d).1.mask = d.mask ∧
      (f r d).1.occupied = d.occupied ∧
      (f r d).1.nLive + (if r.isLive then 1 else 0) = d.nLive + if (g r).isLive then 1 else 0) :
    ∃ t', Loaded (d.modify ptr f) t' (M.change ptr g) ∧ Roomy (d.modify ptr f) := by
  have hrec := hL.record_eq hroom ptr
  unfold State.modify Records.change
  cases hM : M ptr with
  | none =>
    rw [hL.find_of_not_mem hroom hM, Option.map_none]
    refine ⟨t, ?_, hroom⟩
    rw [update_eq_self_iff.2 hM.symm]
    exact hL
  | some r =>
    obtain ⟨i, hi, hfind, hti⟩ := hL.find_of_mem hM
    obtain ⟨hg, hu, hk, hs, hc, hm, ho, hn⟩ := hf r hM
    have hkey := hL.keyed hM
    rw [hfind, hrec, hM, Option.map_some]
    dsimp only
    rw [hg]
    have hslots : ((f r d).1.write i (g r)).slots = some (update t i (g r)) := by
      unfold State.write
      rw [hs, hL.slots]
      rfl
    have hwrite := hL.write hi (by rw [hti]; exact (hL.holds hM).1) hu (by rw [hk, hti]) hslots
      hc hm ho (by rw [hti]; exact hn)
    rw [hk, hkey] at hwrite
    refine ⟨_, hwrite, ?_⟩
    unfold Roomy at hroom ⊢
    show (f r d).1.occupied * 10 < (f r d).1.cap * 7 + 10
    rw [ho, hc]
    exact hroom

/-- The calls check for a null pointer, which is not tracked. -/
theorem Loaded.guard (hL : Loaded d t M) (hroom : Roomy d) {d' : State} {g : Rec → Rec}
    (h : ∃ t', Loaded d' t' (M.change ptr g) ∧ Roomy d') :
    ∃ t', Loaded (if ptr = 0 then d else d') t' (M.change ptr g) ∧
      Roomy (if ptr = 0 then d else d') := by
  by_cases hptr : ptr = 0
  · have hnull : M 0 = none := by
      cases h0 : M 0 with
      | none => rfl
      | some r =>
        obtain ⟨hu, i, hi, rfl⟩ := hL.holds h0
        exact absurd (hL.keyed h0) (hL.table.keys i hi hu)
    rw [if_pos hptr, hptr]
    unfold Records.change
    rw [update_eq_self_iff.2 (by rw [hnull]; rfl)]
    exact ⟨t, hL, hroom⟩
  · rw [if_neg hptr]
    exact h

/-- `__mark_free_locked`. -/
theorem Loaded.markFree (hL : Loaded d t M) (hroom : Roomy d) {dest : RecState}
    (hdest : dest = .freed ∨ dest = .tombstoned) (len : ℕ) (site : Site) :
    ∃ t', Loaded (d.markFree ptr dest len site) t'
        (M.change ptr fun r => r.markFree d.opCounter dest len site) ∧
      Roomy (d.markFree ptr dest len site) := by
  refine hL.modify hroom fun r hr => ?_
  obtain ⟨hu, i, hi, rfl⟩ := hL.holds hr
  unfold Rec.markFree
  by_cases hdone : (t i).state = .freed ∨ (t i).state = .tombstoned ∨ (t i).state = .quarantined
  · rw [if_pos hdone, if_pos hdone]
    exact ⟨rfl, hu, rfl, rfl, rfl, rfl, rfl, rfl⟩
  · rw [if_neg hdone, if_neg hdone]
    have hstate : (t i).state = .live := by
      simp only [Rec.isUsed, decide_eq_true_eq] at hu
      cases hst : (t i).state with
      | live => rfl
      | empty => exact absurd hst hu
      | freed => exact absurd (Or.inl hst) hdone
      | tombstoned => exact absurd (Or.inr (Or.inl hst)) hdone
      | quarantined => exact absurd (Or.inr (Or.inr hst)) hdone
    have hlive : (t i).isLive = true := decide_eq_true hstate
    have hpos := count_pos hi hlive
    rw [← hL.live] at hpos
    refine ⟨rfl, ?_, rfl, rfl, rfl, rfl, rfl, ?_⟩
    · rcases hdest with rfl | rfl
      · rfl
      · rfl
    · have hdead : Rec.isLive { t i with
          state := dest, freeOp := d.opCounter, freeTid := site.tid, freeLen := len } = false := by
        rcases hdest with rfl | rfl
        · rfl
        · rfl
      rw [if_pos hlive, if_neg (Bool.eq_false_iff.1 hdead), if_pos hstate]
      exact Nat.sub_add_cancel hpos

/-- `record_realloc` and `mark_chunk_alloc` only change live records, which stay live. -/
theorem Loaded.refresh (hL : Loaded d t M) (hroom : Roomy d) {f : Rec → State → State × Rec}
    {g : Rec → Rec} (hdead : ∀ r : Rec, r.state ≠ .live → f r d = (d, r) ∧ g r = r)
    (hlive : ∀ r : Rec, r.state = .live → (∃ n, (f r d).1 = { d with opCounter := n }) ∧
      (f r d).2 = g r ∧ (g r).state = .live ∧ (g r).key = r.key) :
    ∃ t', Loaded (d.modify ptr f) t' (M.change ptr g) ∧ Roomy (d.modify ptr f) := by
  refine hL.modify hroom fun r hr => ?_
  obtain ⟨hu, -⟩ := hL.holds hr
  by_cases hst : r.state = .live
  · obtain ⟨⟨n, hd⟩, hg, hst', hk⟩ := hlive r hst
    have hl : r.isLive = true := decide_eq_true hst
    have hl' : (g r).isLive = true := decide_eq_true hst'
    rw [hd, hl, hl']
    exact ⟨hg, Rec.isUsed_of_isLive hl', hk, rfl, rfl, rfl, rfl, rfl⟩
  · obtain ⟨hf, hg⟩ := hdead r hst
    rw [hf, hg]
    exact ⟨rfl, hu, rfl, rfl, rfl, rfl, rfl, rfl⟩

theorem Loaded.quarantine (hL : Loaded d t M) (hroom : Roomy d) :
    ∃ t', Loaded (d.quarantine ptr) t' (M.change ptr fun r => { r with state := .quarantined }) ∧
      Roomy (d.quarantine ptr) := by
  refine hL.modify hroom fun r hr => ?_
  obtain ⟨hu, i, hi, rfl⟩ := hL.holds hr
  refine ⟨rfl, rfl, rfl, rfl, rfl, rfl, rfl, ?_⟩
  have hdead : Rec.isLive { t i with state := .quarantined } = false := rfl
  rw [if_neg (Bool.eq_false_iff.1 hdead)]
  by_cases hst : (t i).state = .live
  · have hlive : (t i).isLive = true := decide_eq_true hst
    have hpos := count_pos hi hlive
    rw [← hL.live] at hpos
    rw [if_pos hst, if_pos hlive]
    exact Nat.sub_add_cancel hpos
  · rw [if_neg hst, if_neg (by simpa [Rec.isLive] using hst)]

end Calls

/-! ## Runs -/

/-- The ledger and the records after a sequence of calls, every mapping granted. -/
def after (maxRecords : ℕ) (calls : List Call) : State × Records :=
  calls.foldl (fun p c => (p.1.call maxRecords true c, p.2.call maxRecords p.1 c))
    (.initial, fun _ => none)

/-- The ledger before its first mapping, or a table with room. -/
def Good (p : State × Records) : Prop :=
  (p.1 = .initial ∧ p.2 = fun _ => none) ∨ ∃ t, Loaded p.1 t p.2 ∧ Roomy p.1

theorem loaded_first : Loaded (State.initial.ensure true) (fun _ => .zero) fun _ => none where
  slots := rfl
  table := table_zero (e := 12) rfl
  mask := rfl
  large := by decide
  occupied := by
    rw [count_zero rfl]
    rfl
  live := by
    rw [count_zero rfl]
    rfl
  records r := by
    simp only [reduceCtorEq, false_iff]
    rintro ⟨hu, i, -, rfl⟩
    exact absurd hu (by simp [Rec.isUsed, Rec.zero])
  keyed h := by simp at h

theorem rehash_opCounter {d : State} {mapped : Bool} {n : ℕ} :
    (d.rehash mapped n).opCounter = d.opCounter := by
  unfold State.rehash
  split_ifs
  · rfl
  · rfl
  · dsimp only
    split
    · rfl
    · exact reinsertAll_counters.2

theorem dropFreed_opCounter {d : State} {mapped : Bool} :
    (d.dropFreed mapped).2.opCounter = d.opCounter := by
  unfold State.dropFreed
  split
  · rfl
  · split_ifs
    · rfl
    · rfl
    · exact reinsertAll_counters.2

theorem growIfNeeded_opCounter {d : State} {maxRecords : ℕ} {mapped : Bool} :
    (d.growIfNeeded maxRecords mapped).opCounter = d.opCounter := by
  unfold State.growIfNeeded
  dsimp only
  split_ifs
  · rfl
  · rfl
  · exact dropFreed_opCounter
  · rw [rehash_opCounter, dropFreed_opCounter]
  · exact rehash_opCounter

section Runs
variable {d : State} {t : ℕ → Rec} {M : Records} {maxRecords : ℕ}

theorem Loaded.ensure_eq (hL : Loaded d t M) : d.ensure true = d := by
  unfold State.ensure
  rw [hL.slots]
  rfl

theorem Loaded.recordAlloc (hL : Loaded d t M) (hroom : Roomy d) {ptr : ℕ} (hptr : ptr ≠ 0)
    (reqSize : ℕ) (site : Site) :
    ∃ t', Loaded (d.recordAlloc maxRecords true ptr reqSize site) t'
        (update (if d.evicts maxRecords then M.evict else M) ptr
          (some (.alloc ptr reqSize d.opCounter site))) ∧
      Roomy (d.recordAlloc maxRecords true ptr reqSize site) := by
  obtain ⟨⟨t₁, hL₁⟩, hload⟩ :
      (∃ t', Loaded (d.growIfNeeded maxRecords true) t' _) ∧ _ := hL.grow hroom
  obtain ⟨i, hi, hslot, hput⟩ := hL₁.alloc hload (r := .alloc ptr reqSize d.opCounter site) rfl hptr
  have hslot : (d.growIfNeeded maxRecords true).slotFor ptr = some i := hslot
  unfold State.recordAlloc
  rw [if_neg hptr]
  dsimp only
  rw [hL.ensure_eq, if_neg (by rw [hL.slots]; simp), hL₁.slots, hslot]
  refine ⟨_, hput _ ?_ rfl rfl rfl rfl⟩
  show (d.growIfNeeded maxRecords true).slots.map _ = _
  rw [hL₁.slots, growIfNeeded_opCounter]
  rfl

/-- The first `record_alloc` maps the table. -/
theorem recordAlloc_ensure {mapped : Bool} {ptr reqSize : ℕ} {site : Site}
    (h : (d.ensure mapped).ensure mapped = d.ensure mapped) (hptr : ptr ≠ 0) :
    d.recordAlloc maxRecords mapped ptr reqSize site =
      (d.ensure mapped).recordAlloc maxRecords mapped ptr reqSize site := by
  unfold State.recordAlloc
  rw [if_neg hptr, if_neg hptr, h]

theorem Good.call {p : State × Records} (hp : Good p) (c : Call) :
    Good (p.1.call maxRecords true c, p.2.call maxRecords p.1 c) := by
  obtain ⟨d, M⟩ := p
  rcases hp with ⟨hd, hM⟩ | ⟨t, hL, hroom⟩
  · -- before the first mapping only `record_alloc` does anything
    dsimp only at hd hM ⊢
    subst hd hM
    have hidle : ∀ (ptr : ℕ) (g : Rec → Rec) {d : State}, d = .initial →
        Good (d, Records.change (fun _ => none) ptr g) := by
      rintro ptr g d rfl
      exact Or.inl ⟨rfl, update_eq_self_iff.2 rfl⟩
    cases c with
    | recordAlloc ptr reqSize site =>
      dsimp only [State.call, Records.call]
      by_cases hptr : ptr = 0
      · rw [if_pos hptr, State.recordAlloc, if_pos hptr]
        exact Or.inl ⟨rfl, rfl⟩
      · have hno : State.evicts maxRecords (State.initial.ensure true) = false := by
          simp [State.evicts, State.initial, State.ensure, State.rehash]
        rw [if_neg hptr, recordAlloc_ensure loaded_first.ensure_eq hptr]
        have hfirst := (loaded_first.recordAlloc (by unfold Roomy; decide)
          hptr reqSize site : ∃ t', Loaded (State.recordAlloc maxRecords true _ _ _ _) t' _ ∧ _)
        rw [hno] at hfirst
        exact Or.inr hfirst
    | recordRealloc ptr n site => exact hidle ptr _ (ite_self _)
    | markChunkAlloc ptr => exact hidle ptr _ (ite_self _)
    | recordFree ptr len site => exact hidle ptr _ (ite_self _)
    | recordTombstone ptr len site => exact hidle ptr _ (ite_self _)
    | quarantine ptr => exact hidle ptr _ rfl
  · right
    dsimp only at hL hroom ⊢
    cases c with
    | recordAlloc ptr reqSize site =>
      dsimp only [State.call, Records.call]
      by_cases hptr : ptr = 0
      · rw [if_pos hptr, State.recordAlloc, if_pos hptr]
        exact ⟨t, hL, hroom⟩
      · rw [if_neg hptr]
        exact hL.recordAlloc hroom hptr reqSize site
    | recordRealloc ptr n site =>
      refine hL.guard hroom (hL.refresh hroom (fun r hr => ?_) fun r hr => ?_)
      · simp [hr]
      · simp [hr, Rec.arm]
    | markChunkAlloc ptr =>
      refine hL.guard hroom (hL.refresh hroom (fun r hr => ?_) fun r hr => ?_)
      · simp [hr]
      · simp [hr]
        exact ⟨d.opCounter, rfl⟩
    | recordFree ptr len site => exact hL.guard hroom (hL.markFree hroom (Or.inl rfl) len site)
    | recordTombstone ptr len site =>
      exact hL.guard hroom (hL.markFree hroom (Or.inr rfl) len site)
    | quarantine ptr => exact hL.quarantine hroom

theorem after_append (calls : List Call) (c : Call) :
    after maxRecords (calls ++ [c]) =
      ((after maxRecords calls).1.call maxRecords true c,
        (after maxRecords calls).2.call maxRecords (after maxRecords calls).1 c) := by
  unfold after
  rw [List.foldl_append]
  rfl

theorem after_good (calls : List Call) : Good (after maxRecords calls) := by
  induction calls using List.reverseRecOn with
  | nil => exact Or.inl ⟨rfl, rfl⟩
  | append_singleton calls c ih =>
    rw [after_append]
    exact ih.call c

theorem Good.record_eq {p : State × Records} (hp : Good p) (k : ℕ) : p.1.record k = p.2 k := by
  rcases hp with ⟨hd, hM⟩ | ⟨t, hL, hroom⟩
  · rw [hd, hM]
    rfl
  · exact hL.record_eq hroom k

/-! ## Live records -/

/-- A call leaves the other live records as they are. -/
theorem Records.call_of_ne {c : Call} {k : ℕ} {r : Rec} (hM : M k = some r) (hr : r.isLive = true)
    (hk : k ≠ c.ptr) : M.call maxRecords d c k = some r := by
  have hchange : ∀ (ptr : ℕ) (g : Rec → Rec), k ≠ ptr → M.change ptr g k = some r := by
    intro ptr g hne
    unfold Records.change
    rw [update_of_ne hne, hM]
  cases c with
  | recordAlloc ptr reqSize site =>
    have hne : k ≠ ptr := hk
    dsimp only [Records.call]
    split_ifs
    · exact hM
    · rw [update_of_ne hne]
      unfold Records.evict
      rw [hM, Option.filter_some, if_pos hr]
    · rw [update_of_ne hne, hM]
  | recordRealloc ptr n site => exact hchange ptr _ hk
  | markChunkAlloc ptr => exact hchange ptr _ hk
  | recordFree ptr len site => exact hchange ptr _ hk
  | recordTombstone ptr len site => exact hchange ptr _ hk
  | quarantine ptr => exact hchange ptr _ hk

theorem Records.call_isSome {c : Call} {k : ℕ} {r : Rec} (hM : M k = some r)
    (hr : r.isLive = true) : (M.call maxRecords d c k).isSome = true := by
  by_cases hk : k = c.ptr
  · have hchange : ∀ (ptr : ℕ) (g : Rec → Rec), k = ptr → (M.change ptr g k).isSome = true := by
      rintro ptr g rfl
      unfold Records.change
      rw [update_self, hM]
      rfl
    cases c with
    | recordAlloc ptr reqSize site =>
      have heq : k = ptr := hk
      dsimp only [Records.call]
      split_ifs
      · rw [hM]
        rfl
      · rw [heq, update_self]
        rfl
      · rw [heq, update_self]
        rfl
    | recordRealloc ptr n site => exact hchange ptr _ hk
    | markChunkAlloc ptr => exact hchange ptr _ hk
    | recordFree ptr len site => exact hchange ptr _ hk
    | recordTombstone ptr len site => exact hchange ptr _ hk
    | quarantine ptr => exact hchange ptr _ hk
  · rw [Records.call_of_ne hM hr hk]
    rfl

/-! ## The probes of a call -/

/-- The probes of a call: the ledger at that time and the key. -/
def State.probes (maxRecords : ℕ) (d : State) (c : Call) : List (State × ℕ) :=
  match c with
  | .recordAlloc ptr _ _ =>
    let d := d.ensure true
    if ptr = 0 then [] else d.growProbes maxRecords ++ [(d.growIfNeeded maxRecords true, ptr)]
  | c => if d.slots.isNone then [] else [(d, c.ptr)]

theorem Loaded.alloc_probes (hL : Loaded d t M) (hroom : Roomy d) {ptr : ℕ} {x : State × ℕ}
    (hx : x ∈ d.growProbes maxRecords ++ [(d.growIfNeeded maxRecords true, ptr)]) :
    x.1.Probed x.2 := by
  rcases List.mem_append.1 hx with hx | hx
  · exact hL.growProbes hroom hx
  · obtain ⟨⟨t', hL'⟩, hload⟩ :
        (∃ t', Loaded (d.growIfNeeded maxRecords true) t' _) ∧ _ := hL.grow hroom
    obtain rfl := List.mem_singleton.1 hx
    exact hL'.probed (by unfold Roomy; omega) ptr

theorem Good.probes {p : State × Records} (hp : Good p) {c : Call} {x : State × ℕ}
    (hx : x ∈ p.1.probes maxRecords c) : x.1.Probed x.2 := by
  obtain ⟨d, M⟩ := p
  rcases hp with ⟨hd, -⟩ | ⟨t, hL, hroom⟩
  · dsimp only at hd hx
    subst hd
    cases c with
    | recordAlloc ptr reqSize site =>
      dsimp only [State.probes] at hx
      split_ifs at hx
      · exact absurd hx List.not_mem_nil
      · exact loaded_first.alloc_probes (by unfold Roomy; decide) hx
    | recordRealloc ptr n site => exact absurd hx List.not_mem_nil
    | markChunkAlloc ptr => exact absurd hx List.not_mem_nil
    | recordFree ptr len site => exact absurd hx List.not_mem_nil
    | recordTombstone ptr len site => exact absurd hx List.not_mem_nil
    | quarantine ptr => exact absurd hx List.not_mem_nil
  · dsimp only at hL hroom hx
    have hone : ∀ ptr : ℕ, x ∈ (if d.slots.isNone then [] else [(d, ptr)]) → x.1.Probed x.2 := by
      intro ptr hx
      rw [hL.slots, if_neg (by simp)] at hx
      obtain rfl := List.mem_singleton.1 hx
      exact hL.probed hroom ptr
    cases c with
    | recordAlloc ptr reqSize site =>
      dsimp only [State.probes] at hx
      rw [hL.ensure_eq] at hx
      split_ifs at hx
      · exact absurd hx List.not_mem_nil
      · exact hL.alloc_probes hroom hx
    | recordRealloc ptr n site => exact hone ptr hx
    | markChunkAlloc ptr => exact hone ptr hx
    | recordFree ptr len site => exact hone ptr hx
    | recordTombstone ptr len site => exact hone ptr hx
    | quarantine ptr => exact hone ptr hx

/-! ## The ledger is a map -/

/-- After any sequence of calls `__find` shows for every key the record last written, unless an
eviction since found it not live; no key has two slots; the next call keeps every live record,
changing none but its own; and each of its probes stops at the key or at an empty slot before it
has been at every slot. -/
theorem ledger_is_map (maxRecords : ℕ) (calls : List Call) :
    (∀ k, (after maxRecords calls).1.record k = (after maxRecords calls).2 k) ∧
    (∀ t, (after maxRecords calls).1.slots = some t →
      ∀ i < (after maxRecords calls).1.cap, ∀ j < (after maxRecords calls).1.cap,
        (t i).state ≠ .empty → (t j).state ≠ .empty → (t i).key = (t j).key → i = j) ∧
    (∀ c k r, (after maxRecords calls).1.record k = some r → r.state = .live →
      (((after maxRecords calls).1.call maxRecords true c).record k).isSome ∧
      (k ≠ c.ptr → ((after maxRecords calls).1.call maxRecords true c).record k = some r)) ∧
    ∀ c, ∀ x ∈ (after maxRecords calls).1.probes maxRecords c, x.1.Probed x.2 := by
  have hgood : Good (after maxRecords calls) := after_good calls
  refine ⟨hgood.record_eq, fun t ht i hi j hj hui huj hk => ?_, fun c k r hr hlive => ?_,
    fun c x hx => hgood.probes hx⟩
  · rcases hgood with ⟨hd, -⟩ | ⟨t', hL, -⟩
    · rw [hd] at ht
      exact absurd ht (by simp [State.initial])
    · obtain rfl := Option.some.inj (hL.slots.symm.trans ht)
      have hused : ∀ {i : ℕ}, (t' i).state ≠ .empty → (t' i).isUsed = true :=
        fun h => decide_eq_true h
      exact hL.table.chained.unique hi hj (occupant_eq_some.2 ⟨hused hui, hk⟩)
        (occupant_eq_some.2 ⟨hused huj, rfl⟩)
  · have hnext := Good.record_eq (hgood.call c : Good (State.call maxRecords true _ c, _)) k
    rw [hgood.record_eq] at hr
    have hl : r.isLive = true := decide_eq_true hlive
    dsimp only at hnext
    rw [hnext]
    exact ⟨Records.call_isSome hr hl, Records.call_of_ne hr hl⟩

end Runs
end AbcMalloc.Doctor
