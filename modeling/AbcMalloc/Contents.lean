import AbcMalloc.LedgerRuns

/-! What clients keep in their blocks. A book preserves contents when its operations leave the
cells of the blocks in use alone; then a client reads what it wrote. -/
namespace AbcMalloc
open Function Foundation

def Mem.cell (m : Mem) (x : ℕ) : Cell := ⟨m.lo x, m.hi x, m.w1 x, m.w2 x, m.w3 x⟩

theorem Mem.cell_store (m : Mem) (x : ℕ) (c : Cell) : (m.store x c).cell = update m.cell x c := by
  funext y
  by_cases hy : y = x
  · subst hy
    simp [Mem.cell, Mem.store]
  · simp [Mem.cell, Mem.store, update_of_ne hy]

/-- Cells of the block `b` that its holder may write. -/
def Ledger.CellOf (header : ℕ) (L : Ledger) (b x : ℕ) : Prop :=
  ∃ n f i, L.used b = some (n, f) ∧ x = b + header + 32 * i ∧ 32 * i + 32 ≤ n - 32

/-- The operations of a book keep what `read` finds in the blocks in use, up to the block that is
deallocated. -/
structure Preserves {σ : Type*} (B : Book σ) (fits : ℕ → Bool) (Rep : σ → Ledger → Prop)
    (read : σ → ℕ → Cell) : Prop where
  allocate : ∀ {s s' L u c b x}, Rep s L → fits u = true → B.allocate s u = some (c, s') →
    L.CellOf B.header b x → read s' x = read s x
  temporalAllocate : ∀ {s s' L u c b x}, Rep s L → fits u = true →
    B.temporalAllocate s u = some (c, s') → L.CellOf B.header b x → read s' x = read s x
  tombstone : ∀ {s L b n f a x}, Rep s L → L.used b = some (n, f) → f ≠ blockTombstone →
    L.CellOf B.header a x → read (B.tombstone s (b + B.header)).2 x = read s x
  deallocate : ∀ {s L b n f a x}, Rep s L → L.used b = some (n, f) →
    (f = blockTombstone → ¬L.ring b) → L.CellOf B.header a x → a ≠ b →
    read (B.deallocate s (b + B.header)).2 x = read s x
  store : ∀ s x c, read (B.store s x c) = update (read s) x c

/-! ## Clients that read -/

/-- A client together with what it knows of its chunks: the cell last written at each index, since
the pointer was last handed out. -/
structure Reader (σ : Type*) where
  client : Client σ
  notes : ℕ → ℕ → Option Cell

namespace Reader
variable {σ : Type*}

def start (s : σ) : Reader σ := ⟨.start s, fun _ _ => none⟩

def noted (B : Book σ) (r : Reader σ) : Op → ℕ → ℕ → Option Cell
  | .allocate n => (B.allocate r.client.book n).elim r.notes fun q =>
      update r.notes q.1.ptr fun _ => none
  | .temporalAllocate n => (B.temporalAllocate r.client.book n).elim r.notes fun q =>
      update r.notes q.1.ptr fun _ => none
  | .write p i c => update r.notes p (update (r.notes p) i (some c))
  | _ => r.notes

def step (B : Book σ) (r : Reader σ) (op : Op) : Option (Reader σ) :=
  (r.client.step B op).map fun w => ⟨w, r.noted B op⟩

def ReadsBack (read : σ → ℕ → Cell) (r : Reader σ) : Prop :=
  ∀ p len i c, r.client.held p = some len → r.notes p i = some c →
    32 * i + 32 ≤ len ∧ read r.client.book (p + 32 * i) = c

end Reader

section Readers
variable {σ : Type*} {B : Book σ} {fits : ℕ → Bool} {Rep : σ → Ledger → Prop}
  {read : σ → ℕ → Cell} {L : Ledger} {w w' : Client σ} {op : Op}

theorem Client.receive_book {w : Client σ} {c : Chunk} {s : σ} : (w.receive B c s).book = s := by
  unfold Client.receive
  split_ifs <;> rfl

theorem Client.held_receive {w : Client σ} {c : Chunk} {s : σ} {p : ℕ} (hp : p ≠ c.ptr) :
    (w.receive B c s).held p = w.held p := by
  unfold Client.receive
  split_ifs
  · rfl
  · exact update_of_ne hp _ _

/-- The cells of a block in use stay as they are, unless they are written or the block is freed. -/
theorem Preserves.step (hP : Preserves B fits Rep read) (hrep : Rep w.book L)
    (hB : Refines B fits Rep) (hH : L.Holds B.header w) (hlegal : w.wellHeld op = true)
    (hfit : fitsOp fits op = true)
    (hring : ∀ b n, op = .deallocate (b + B.header) → L.used b = some (n, blockTombstone) →
      ¬L.ring b) {b n f i : ℕ} (hb : L.used b = some (n, f)) (hi : 32 * i + 32 ≤ n - 32)
    (hfree : op ≠ .deallocate (b + B.header)) (hwrite : ∀ c, op ≠ .write (b + B.header) i c)
    (hstep : w.step B op = some w') :
    read w'.book (b + B.header + 32 * i) = read w.book (b + B.header + 32 * i) := by
  have hx : L.CellOf B.header b (b + B.header + 32 * i) := ⟨n, f, i, hb, rfl, hi⟩
  cases op with
  | allocate u =>
    simp only [Client.step, Option.bind_eq_bind, Option.bind_eq_some_iff] at hstep
    obtain ⟨⟨c, s⟩, hal, hw⟩ := hstep
    obtain rfl := Option.some.inj hw
    rw [Client.receive_book]
    exact hP.allocate hrep hfit hal hx
  | temporalAllocate u =>
    simp only [Client.step, Option.bind_eq_bind, Option.bind_eq_some_iff] at hstep
    obtain ⟨⟨c, s⟩, hal, hw⟩ := hstep
    obtain rfl := Option.some.inj hw
    rw [Client.receive_book]
    exact hP.temporalAllocate hrep hfit hal hx
  | tombstone p =>
    obtain ⟨len, hlen⟩ := Option.isSome_iff_exists.1 hlegal
    obtain ⟨d, m, g, rfl, -, hd⟩ := hH _ _ hlen
    have hbook : w'.book = (B.tombstone w.book (d + B.header)).2 := by
      simp only [Client.step] at hstep
      split_ifs at hstep <;> exact (congrArg Client.book (Option.some.inj hstep)).symm
    rw [hbook]
    by_cases hg : g = blockTombstone
    · subst hg
      rw [hB.tombstone_again hrep hd]
    · exact hP.tombstone hrep hd hg hx
  | deallocate p =>
    obtain ⟨len, hlen⟩ := Option.isSome_iff_exists.1 hlegal
    obtain ⟨d, m, g, rfl, -, hd⟩ := hH _ _ hlen
    have hbook : w'.book = (B.deallocate w.book (d + B.header)).2 := by
      simp only [Client.step] at hstep
      split_ifs at hstep <;> exact (congrArg Client.book (Option.some.inj hstep)).symm
    rw [hbook]
    refine hP.deallocate hrep hd (fun hg => hring d m rfl (hg ▸ hd)) hx ?_
    rintro rfl
    exact hfree rfl
  | write p j c =>
    obtain ⟨len, hlen, hj⟩ := Client.exists_len_of_writes (c := c) hlegal
    obtain ⟨d, m, g, rfl, rfl, hd⟩ := hH _ _ hlen
    obtain rfl := Option.some.inj hstep
    show read (B.store _ _ _) _ = _
    rw [hP.store, update_of_ne]
    by_cases hdb : d = b
    · subst hdb
      have hij : i ≠ j := by
        rintro rfl
        exact hwrite c rfl
      omega
    · have := (hB.valid hrep).disjoint hb hd (Ne.symm hdb)
      omega

/-- What a client knows stays true. -/
theorem Reader.ReadsBack.step {r r' : Reader σ} (hR : r.ReadsBack read)
    (hP : Preserves B fits Rep read) (hB : Refines B fits Rep) (hrep : Rep r.client.book L)
    (hH : L.Holds B.header r.client) (hlegal : r.client.wellHeld op = true)
    (hfit : fitsOp fits op = true)
    (hring : ∀ b n, op = .deallocate (b + B.header) → L.used b = some (n, blockTombstone) →
      ¬L.ring b) (hstep : r.step B op = some r') : r'.ReadsBack read := by
  obtain ⟨w, hw, rfl⟩ := Option.map_eq_some_iff.1 hstep
  have keep : ∀ {p len i c}, op ≠ .deallocate p → (∀ c, op ≠ .write p i c) →
      r.client.held p = some len → r.notes p i = some c →
      32 * i + 32 ≤ len ∧ read w.book (p + 32 * i) = c := by
    intro p len i c hfree hwrite hheld hnote
    obtain ⟨hi, hc⟩ := hR _ _ _ _ hheld hnote
    obtain ⟨b, n, f, rfl, rfl, hb⟩ := hH _ _ hheld
    exact ⟨hi, (hP.step hrep hB hH hlegal hfit hring hb hi hfree hwrite hw).trans hc⟩
  -- a chunk arrives: nothing is known of it, and other chunks are as before
  have hreceive : ∀ {d : Chunk} {s : σ} {p len i c}, w = r.client.receive B d s →
      w.held p = some len → update r.notes d.ptr (fun _ => none) p i = some c →
      r.client.held p = some len ∧ r.notes p i = some c := by
    intro d s p len i c hwd hheld hnote
    have hne : p ≠ d.ptr := by
      rintro rfl
      rw [update_self] at hnote
      exact absurd hnote (by simp)
    rw [update_of_ne hne] at hnote
    rw [hwd, Client.held_receive hne] at hheld
    exact ⟨hheld, hnote⟩
  intro p len i c hheld hnote
  cases op with
  | allocate u =>
    simp only [Client.step, Option.bind_eq_bind, Option.bind_eq_some_iff] at hw
    obtain ⟨⟨d, s⟩, hal, hd⟩ := hw
    simp only [noted, hal, Option.elim_some] at hnote
    obtain ⟨h₁, h₂⟩ := hreceive (Option.some.inj hd).symm hheld hnote
    exact keep (by simp) (by simp) h₁ h₂
  | temporalAllocate u =>
    simp only [Client.step, Option.bind_eq_bind, Option.bind_eq_some_iff] at hw
    obtain ⟨⟨d, s⟩, hal, hd⟩ := hw
    simp only [noted, hal, Option.elim_some] at hnote
    obtain ⟨h₁, h₂⟩ := hreceive (Option.some.inj hd).symm hheld hnote
    exact keep (by simp) (by simp) h₁ h₂
  | tombstone q =>
    have hheld' : w.held = r.client.held := by
      simp only [Client.step] at hw
      split_ifs at hw <;> exact (congrArg Client.held (Option.some.inj hw)).symm
    exact keep (by simp) (by simp) (hheld' ▸ hheld) hnote
  | deallocate q =>
    obtain ⟨m, hm⟩ := Option.isSome_iff_exists.1 hlegal
    obtain ⟨d, n, f, rfl, -, hd⟩ := hH _ _ hm
    obtain ⟨s, L', hde, -⟩ := hB.deallocate hrep hd fun hf => hring d n rfl (hf ▸ hd)
    simp only [Client.step, hde, if_true, Option.some.injEq] at hw
    subst hw
    have hne : p ≠ d + B.header := by
      rintro rfl
      simp at hheld
    simp only [update_of_ne hne] at hheld
    exact keep (by simpa using hne.symm) (by simp) hheld hnote
  | write q j v =>
    obtain rfl := Option.some.inj hw
    simp only [noted] at hnote
    by_cases hq : q = p ∧ j = i
    · obtain ⟨rfl, rfl⟩ := hq
      simp only [update_self, Option.some.injEq] at hnote
      obtain ⟨m, hm, hj⟩ := Client.exists_len_of_writes (c := v) hlegal
      have hmlen : m = len := Option.some.inj (hm.symm.trans hheld)
      refine ⟨hmlen ▸ hj, ?_⟩
      show read (B.store _ _ _) _ = _
      rw [hP.store, update_self, hnote]
    · refine keep (by simp) (fun c' he => hq ?_) hheld ?_
      · simp only [Op.write.injEq] at he
        exact ⟨he.1, he.2.1⟩
      · by_cases hqp : p = q
        · subst hqp
          rwa [update_self, update_of_ne fun hij => hq ⟨rfl, hij.symm⟩] at hnote
        · rwa [update_of_ne hqp] at hnote

/-- A client of a preserving book that leaves tombstoned blocks alone reads what it wrote. -/
theorem Preserves.run_reads_back (hP : Preserves B fits Rep read) (hB : Refines B fits Rep) {s : σ}
    (hrep : Rep s L) {ops : List Op} {r : Reader σ}
    (hrun : Run (fun r op => Accountable B fits r.client op) (Reader.step B) (.start s) ops r) :
    r.ReadsBack read := by
  have hinv : ∃ L, Rep r.client.book L ∧ L.Holds B.header r.client ∧ r.ReadsBack read := by
    refine hrun.invariant
      (fun r => ∃ L, Rep r.client.book L ∧ L.Holds B.header r.client ∧ r.ReadsBack read) ?_
      ⟨L, hrep, fun p len hp => by simp [Reader.start, Client.start] at hp,
        fun p len i c hp => by simp [Reader.start, Client.start] at hp⟩
    rintro r op r' ⟨L, hrep, hH, hR⟩ ⟨hlegal, hfit, hspare⟩ hstep
    have hring : ∀ b n, op = .deallocate (b + B.header) → L.used b = some (n, blockTombstone) →
        ¬L.ring b := by
      rintro b n rfl hb
      simp [sparesTombs, hB.isTombstoned hrep hb] at hspare
    obtain ⟨w, hw, hr⟩ := Option.map_eq_some_iff.1 hstep
    obtain ⟨w', L', hw', hrep', hls⟩ := hB.step hrep hH hlegal hfit hring
    rw [hw, Option.some.injEq] at hw'
    subst hw'
    subst hr
    exact ⟨L', hrep', hls.holds (hB.valid hrep) (hB.valid hrep') hH,
      hR.step hP hB hrep hH hlegal hfit hring hstep⟩
  obtain ⟨-, -, -, hR⟩ := hinv
  exact hR

end Readers
end AbcMalloc
