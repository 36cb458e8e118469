import AbcMalloc.Foundation.Intervals
import AbcMalloc.Va.Model

/-! Any number of threads that carve and release runs. A step is one atomic action of the
source: a read of `__va_base`, the reservation under `__va_init_lock`, a search or an insertion
under `__va_free_lock`, the load of the cursor, one compare-exchange. Every commit succeeds, so
`__va_carve` and `__va_carve_reserved` take the same steps. -/
namespace AbcMalloc.Va
open Function Foundation

/-- A run returned to a caller: its offset and the byte count it was requested with. -/
structure LiveRun where
  off : ℕ
  bytes : ℕ
  deriving DecidableEq, Repr

inductive Pc
  | idle
  /-- Called with a byte count, before the read of `__va_base`. -/
  | called (bytes : ℕ)
  /-- Read a null base, before `__va_reserve_once`. -/
  | unreserved (bytes : ℕ)
  /-- Before `__va_reuse`. -/
  | searching (bytes : ℕ)
  /-- Before the load of the cursor in `__va_bump`. -/
  | bumping (bytes : ℕ)
  /-- Before a compare-exchange that expects `off`. -/
  | swapping (bytes off : ℕ)
  /-- Got a run, before the return. -/
  | carved (off bytes : ℕ)
  /-- In `__va_release`, before the insertion. -/
  | releasing (r : FreeRun)
  deriving DecidableEq

structure Machine (T : Type*) where
  va : VaState
  pcs : T → Pc
  live : List LiveRun
  /-- Runs whose release found the list full. -/
  dropped : List FreeRun

inductive Action (T : Type*)
  | call (t : T) (bytes : ℕ)
  | readBase (t : T)
  /-- `addr` is what `mmap` returns if this call is the one that reserves. -/
  | reserve (t : T) (addr : ℕ)
  | search (t : T)
  | load (t : T)
  /-- A weak compare-exchange may fail for no reason. -/
  | compareExchange (t : T) (spurious : Bool)
  | commit (t : T)
  /-- `__va_release` of the `i`-th live run, up to the insertion. -/
  | release (t : T) (i : ℕ)
  | push (t : T)

def Machine.init (T : Type*) : Machine T := ⟨.init, fun _ => .idle, [], []⟩

section Steps
variable {T : Type*} [DecidableEq T]

def Machine.goto (m : Machine T) (t : T) (pc : Pc) : Machine T :=
  { m with pcs := update m.pcs t pc }

def Machine.step (c : VaConfig) (m : Machine T) : Action T → Option (Machine T)
  | .call t bytes =>
    match m.pcs t with
    | .idle => some (m.goto t (.called bytes))
    | _ => none
  | .readBase t =>
    match m.pcs t with
    | .called bytes =>
      some (m.goto t (if m.va.base = 0 then .unreserved bytes else .searching bytes))
    | _ => none
  | .reserve t addr =>
    match m.pcs t with
    | .unreserved bytes =>
      let va := reserveOnce ⟨addr, fun _ _ => true⟩ m.va
      some ({ m with va := va }.goto t (if va.base = 0 then .idle else .searching bytes))
    | _ => none
  | .search t =>
    match m.pcs t with
    | .searching bytes =>
      match reuse c m.va.runs (c.granules (c.roundUp bytes)) with
      | some (off, runs) =>
        some ({ m with va := { m.va with runs := runs } }.goto t (.carved off bytes))
      | none => some (m.goto t (.bumping bytes))
    | _ => none
  | .load t =>
    match m.pcs t with
    | .bumping bytes => some (m.goto t (.swapping bytes m.va.offset))
    | _ => none
  | .compareExchange t spurious =>
    match m.pcs t with
    | .swapping bytes off =>
      if c.reservation < (off + c.roundUp bytes) % 2 ^ 64 then some (m.goto t .idle)
      else if m.va.offset = off ∧ spurious = false then
        some ({ m with va := { m.va with offset := (off + c.roundUp bytes) % 2 ^ 64 } }.goto t
          (.carved off bytes))
      else some (m.goto t (.swapping bytes m.va.offset))
    | _ => none
  | .commit t =>
    match m.pcs t with
    | .carved off bytes => some ({ m with live := ⟨off, bytes⟩ :: m.live }.goto t .idle)
    | _ => none
  | .release t i =>
    match m.pcs t, m.live[i]? with
    | .idle, some l =>
      let m := { m with live := m.live.eraseIdx i }
      if m.va.base = 0 ∨ c.reservation ≤ l.off then some m
      else some (m.goto t (.releasing ⟨l.off, c.granules (c.roundUp l.bytes)⟩))
    | _, _ => none
  | .push t =>
    match m.pcs t with
    | .releasing r =>
      some ({ m with
        va := { m.va with runs := pushRun c m.va.runs r }
        dropped :=
          if m.va.runs.length < c.freeCap then m.dropped else r :: m.dropped }.goto t .idle)
    | _ => none

/-- Requests are between one byte and the whole reservation. -/
def legal (c : VaConfig) (_ : Machine T) : Action T → Prop
  | .call _ bytes => 1 ≤ bytes ∧ bytes ≤ c.reservation
  | _ => True

instance (c : VaConfig) (m : Machine T) (a : Action T) : Decidable (legal c m a) := by
  cases a <;> unfold legal <;> infer_instance

end Steps

/-! ## Conservation -/

section Tally
variable (c : VaConfig)

def LiveRun.hits (l : LiveRun) (x : ℕ) : ℕ := Foundation.hits l.off (c.roundUp l.bytes) x

def FreeRun.hits (r : FreeRun) (x : ℕ) : ℕ := Foundation.hits r.off (r.granules * c.sheetAlign) x

def Pc.hits (x : ℕ) : Pc → ℕ
  | .carved off bytes => Foundation.hits off (c.roundUp bytes) x
  | .releasing r => r.hits c x
  | _ => 0

def Pc.Ok : Pc → Prop
  | .idle => True
  | .called bytes => 1 ≤ bytes ∧ bytes ≤ c.reservation
  | .unreserved bytes => 1 ≤ bytes ∧ bytes ≤ c.reservation
  | .searching bytes => 1 ≤ bytes ∧ bytes ≤ c.reservation
  | .bumping bytes => 1 ≤ bytes ∧ bytes ≤ c.reservation
  | .swapping bytes off => 1 ≤ bytes ∧ bytes ≤ c.reservation ∧ c.sheetAlign ∣ off ∧
    off ≤ c.reservation
  | .carved off bytes => 1 ≤ bytes ∧ bytes ≤ c.reservation ∧ c.sheetAlign ∣ off
  | .releasing r => 1 ≤ r.granules ∧ c.sheetAlign ∣ r.off

/-- Threads behind the read of the base have a base. -/
def Pc.Based : Pc → Prop
  | .idle => False
  | .called _ => False
  | .unreserved _ => False
  | _ => True

end Tally

theorem reuse_hits {c : VaConfig} {l runs : List FreeRun} {want off : ℕ}
    (hl : ∀ r ∈ l, 1 ≤ r.granules ∧ c.sheetAlign ∣ r.off)
    (hle : ∀ r ∈ l, r.off + r.granules * c.sheetAlign ≤ c.reservation)
    (h : reuse c l want = some (off, runs)) :
    (∀ x, (runs.map fun r => r.hits c x).sum + hits off (want * c.sheetAlign) x =
      (l.map fun r => r.hits c x).sum) ∧
      (∀ r ∈ runs, 1 ≤ r.granules ∧ c.sheetAlign ∣ r.off) ∧ c.sheetAlign ∣ off ∧
      off + want * c.sheetAlign ≤ c.reservation ∧ runs.length ≤ l.length := by
  obtain ⟨j, hj, he⟩ := Option.map_eq_some_iff.1 h
  obtain ⟨hlt, hge⟩ := findBest_some _ le_rfl (by simp) hj
  set r := l.getD j ⟨0, 0⟩ with hr
  have hmem : r ∈ l := by
    rw [hr, List.getD_eq_getElem _ _ hlt]
    exact List.getElem_mem _
  obtain ⟨-, hdvd⟩ := hl r hmem
  have hrle := hle r hmem
  have hres := c.reservation_lt
  have hcut : want * c.sheetAlign + (r.granules - want) * c.sheetAlign =
    r.granules * c.sheetAlign := by
    rw [← Nat.add_mul, Nat.add_sub_cancel' hge]
  simp only [Prod.mk.injEq] at he
  obtain ⟨rfl, hruns⟩ := he
  split_ifs at hruns with hbig
  · -- The head of the run is handed out, the tail stays in its place.
    rw [Nat.mod_eq_of_lt (by omega)] at hruns
    subst hruns
    refine ⟨fun x => ?_, fun r' hr' => ?_, hdvd, by omega, by simp⟩
    · have hset := sum_map_set (fun r : FreeRun => r.hits c x) ⟨0, 0⟩
        ⟨r.off + want * c.sheetAlign, r.granules - want⟩ hlt
      rw [← hr] at hset
      have hsplit := hits_add r.off (want * c.sheetAlign) ((r.granules - want) * c.sheetAlign) x
      rw [hcut] at hsplit
      simp only [FreeRun.hits] at hset ⊢
      omega
    · rcases List.mem_or_eq_of_mem_set hr' with hr' | rfl
      · exact hl r' hr'
      · exact ⟨by show 1 ≤ r.granules - want; omega,
          (Nat.dvd_add_right hdvd).2 (Nat.dvd_mul_left _ _)⟩
  · -- An exact fit is removed by swapping the last entry in.
    obtain hwg : r.granules = want := by omega
    subst hruns
    refine ⟨fun x => ?_, fun r' hr' => ?_, hdvd, by omega, by simp⟩
    · have := sum_map_swapRemove (fun r : FreeRun => r.hits c x) ⟨0, 0⟩ r hlt
      rw [← hr] at this
      rw [← hwg]
      exact this
    · rcases mem_swapRemove hr' with hr' | hnil
      · exact hl r' hr'
      · rw [hnil] at hlt
        simp at hlt

def Machine.tally {T : Type*} [Fintype T] (c : VaConfig) (m : Machine T) (x : ℕ) : ℕ :=
  (m.live.map fun l => l.hits c x).sum + ∑ t, (m.pcs t).hits c x +
    (m.va.runs.map fun r => r.hits c x).sum + (m.dropped.map fun r => r.hits c x).sum

/-- The runs of a machine partition the bytes below the cursor. -/
structure Conserved {T : Type*} [Fintype T] (c : VaConfig) (m : Machine T) : Prop where
  tally : ∀ x, m.tally c x = if x < m.va.offset then 1 else 0
  offset_le : m.va.offset ≤ c.reservation
  offset_dvd : c.sheetAlign ∣ m.va.offset
  live : ∀ l ∈ m.live, 1 ≤ l.bytes ∧ l.bytes ≤ c.reservation ∧ c.sheetAlign ∣ l.off
  runs : ∀ r ∈ m.va.runs, 1 ≤ r.granules ∧ c.sheetAlign ∣ r.off
  dropped : ∀ r ∈ m.dropped, 1 ≤ r.granules ∧ c.sheetAlign ∣ r.off
  pcs : ∀ t, (m.pcs t).Ok c
  based : (m.live ≠ [] ∨ ∃ t, (m.pcs t).Based) → m.va.base ≠ 0
  length_le : m.va.runs.length ≤ c.freeCap
  kept : c.is64 = true → m.dropped = []

namespace Conserved
variable {T : Type*} [Fintype T] {c : VaConfig} {m : Machine T}

theorem roundUp_pos {bytes : ℕ} (h₁ : 1 ≤ bytes) (h₂ : bytes ≤ c.reservation) :
    0 < c.roundUp bytes := by
  have := (c.roundUp_spec h₂).1
  omega

theorem granules_roundUp {bytes : ℕ} (h₁ : 1 ≤ bytes) (h₂ : bytes ≤ c.reservation) :
    c.granules (c.roundUp bytes) * c.sheetAlign = c.roundUp bytes ∧
      1 ≤ c.granules (c.roundUp bytes) := by
  have hmul := c.granules_mul (c.roundUp_spec h₂).2.2 (c.dvd_roundUp bytes)
  refine ⟨hmul, Nat.pos_of_ne_zero fun h0 => ?_⟩
  have := roundUp_pos h₁ h₂
  rw [← hmul, h0] at this
  omega

theorem le_offset_of_hits (hm : Conserved c m) {off len : ℕ} (hlen : 0 < len)
    (h : ∀ x, hits off len x ≤ m.tally c x) : off + len ≤ m.va.offset := by
  have hx := h (off + len - 1)
  rw [hits_eq_one (by omega) (by omega), hm.tally] at hx
  split_ifs at hx with hlt
  · omega
  · omega

theorem live_hits_le {l : LiveRun} (hl : l ∈ m.live) (x : ℕ) : l.hits c x ≤ m.tally c x := by
  have := List.le_sum_of_mem (List.mem_map_of_mem (f := fun l => l.hits c x) hl)
  unfold Machine.tally
  omega

theorem runs_hits_le {r : FreeRun} (hr : r ∈ m.va.runs) (x : ℕ) : r.hits c x ≤ m.tally c x := by
  have := List.le_sum_of_mem (List.mem_map_of_mem (f := fun r => r.hits c x) hr)
  unfold Machine.tally
  omega

theorem run_len_pos {r : FreeRun} (hr : 1 ≤ r.granules) : 0 < r.granules * c.sheetAlign :=
  Nat.mul_pos hr c.sheetAlign_pos

theorem run_le (hm : Conserved c m) {r : FreeRun} (hr : r ∈ m.va.runs) :
    r.off + r.granules * c.sheetAlign ≤ m.va.offset :=
  hm.le_offset_of_hits (run_len_pos (hm.runs r hr).1) (runs_hits_le hr)

/-- The free runs and a run about to be inserted occupy a granule each. -/
theorem length_lt (hm : Conserved c m) {t : T} {r : FreeRun} (ht : m.pcs t = .releasing r) :
    (m.va.runs.length + 1) * c.sheetAlign ≤ m.va.offset := by
  have hok := hm.pcs t
  rw [ht] at hok
  have hrlen := run_len_pos (c := c) hok.1
  have hle : ∀ x, hits r.off (r.granules * c.sheetAlign) x +
      (m.va.runs.map fun r => r.hits c x).sum ≤ m.tally c x := by
    intro x
    have hpc := Finset.single_le_sum (f := fun t => (m.pcs t).hits c x) (fun _ _ => Nat.zero_le _)
      (Finset.mem_univ t)
    rw [ht] at hpc
    have hpc' : hits r.off (r.granules * c.sheetAlign) x ≤ ∑ t, (m.pcs t).hits c x := hpc
    unfold Machine.tally
    omega
  have hr : r.off + r.granules * c.sheetAlign ≤ m.va.offset :=
    hm.le_offset_of_hits hrlen fun x => le_trans (Nat.le_add_right _ _) (hle x)
  have hsum : ∑ x ∈ Finset.range m.va.offset, (hits r.off (r.granules * c.sheetAlign) x +
      (m.va.runs.map fun r => r.hits c x).sum) ≤ m.va.offset := by
    calc _ ≤ ∑ x ∈ Finset.range m.va.offset, 1 := by
          refine Finset.sum_le_sum fun x _ => (hle x).trans ?_
          rw [hm.tally]
          split_ifs <;> omega
      _ = m.va.offset := by simp
  have hruns := sum_hits_list (fun r : FreeRun => r.off) (fun r => r.granules * c.sheetAlign)
    (l := m.va.runs) (N := m.va.offset) fun r hr => hm.run_le hr
  rw [Finset.sum_add_distrib, sum_hits hr] at hsum
  have hruns' : ∑ x ∈ Finset.range m.va.offset, (m.va.runs.map fun r => r.hits c x).sum =
      (m.va.runs.map fun r => r.granules * c.sheetAlign).sum := hruns
  rw [hruns'] at hsum
  have hlen : m.va.runs.length * c.sheetAlign ≤
      (m.va.runs.map fun r => r.granules * c.sheetAlign).sum := by
    have := List.card_nsmul_le_sum (m.va.runs.map fun r => r.granules * c.sheetAlign) c.sheetAlign
      (by
        intro y hy
        obtain ⟨r, hr, rfl⟩ := List.mem_map.1 hy
        exact Nat.le_mul_of_pos_left _ (hm.runs r hr).1)
    simpa using this
  have hone : c.sheetAlign ≤ r.granules * c.sheetAlign := Nat.le_mul_of_pos_left _ hok.1
  rw [Nat.add_mul, Nat.one_mul]
  omega

theorem init (c : VaConfig) : Conserved c (Machine.init T) := by
  refine ⟨fun x => ?_, Nat.zero_le _, Nat.dvd_zero _, by simp [Machine.init],
    by simp [Machine.init, VaState.init], by simp [Machine.init], fun _ => trivial, ?_,
    Nat.zero_le _, fun _ => rfl⟩
  · simp [Machine.tally, Machine.init, VaState.init, Pc.hits]
  · rintro (h | ⟨t, h⟩)
    · exact absurd rfl h
    · exact False.elim h

/-- What `__va_reuse` does to the list. -/
theorem reuse_spec (hm : Conserved c m) {want off : ℕ} {runs : List FreeRun}
    (h : reuse c m.va.runs want = some (off, runs)) :
    (∀ x, (runs.map fun r => r.hits c x).sum + hits off (want * c.sheetAlign) x =
      (m.va.runs.map fun r => r.hits c x).sum) ∧
      (∀ r ∈ runs, 1 ≤ r.granules ∧ c.sheetAlign ∣ r.off) ∧ c.sheetAlign ∣ off ∧
      runs.length ≤ m.va.runs.length := by
  obtain ⟨hsum, hruns, hdvd, -, hlen⟩ :=
    reuse_hits hm.runs (fun r hr => (hm.run_le hr).trans hm.offset_le) h
  exact ⟨hsum, hruns, hdvd, hlen⟩

/-- Whoever reserves, offset and runs stay. -/
theorem reserveOnce (hm : Conserved c m) (k : Kernel) :
    Conserved c { m with va := Va.reserveOnce k m.va } := by
  have hsame : (Va.reserveOnce k m.va).offset = m.va.offset ∧
      (Va.reserveOnce k m.va).runs = m.va.runs := by
    unfold Va.reserveOnce
    split_ifs <;> exact ⟨rfl, rfl⟩
  have hbase : m.va.base ≠ 0 → (Va.reserveOnce k m.va).base ≠ 0 := by
    intro h0
    rw [Va.reserveOnce, if_neg h0]
    exact h0
  refine ⟨fun x => ?_, ?_, ?_, hm.live, ?_, hm.dropped, hm.pcs, fun hb => hbase (hm.based hb), ?_,
    hm.kept⟩
  · have := hm.tally x
    simp only [Machine.tally, hsame.1, hsame.2] at this ⊢
    exact this
  · exact hsame.1 ▸ hm.offset_le
  · exact hsame.1 ▸ hm.offset_dvd
  · exact hsame.2 ▸ hm.runs
  · exact hsame.2 ▸ hm.length_le

variable [DecidableEq T]

/-- Moving one thread changes the tally by the run it holds. -/
theorem tally_goto (n : Machine T) (t : T) (pc : Pc) (x : ℕ) :
    (n.goto t pc).tally c x + (n.pcs t).hits c x = n.tally c x + pc.hits c x := by
  have := sum_update_add (fun pc : Pc => pc.hits c x) n.pcs t pc
  unfold Machine.tally Machine.goto
  dsimp only
  omega

/-- A step that changes nothing but the position of a thread without a run. -/
theorem move (hm : Conserved c m) {t : T} {pc : Pc} (hold : ∀ x, (m.pcs t).hits c x = 0)
    (hnew : ∀ x, pc.hits c x = 0) (hok : pc.Ok c) (hbased : pc.Based → m.va.base ≠ 0) :
    Conserved c (m.goto t pc) := by
  refine ⟨fun x => ?_, hm.offset_le, hm.offset_dvd, hm.live, hm.runs, hm.dropped, fun u => ?_, ?_,
    hm.length_le, hm.kept⟩
  · have := tally_goto (c := c) m t pc x
    rw [hold, hnew, Nat.add_zero, Nat.add_zero] at this
    rw [this]
    exact hm.tally x
  · by_cases hu : u = t
    · subst hu
      simpa [Machine.goto] using hok
    · simpa [Machine.goto, update_of_ne hu] using hm.pcs u
  · rintro (hl | ⟨u, hu⟩)
    · exact hm.based (Or.inl hl)
    · by_cases hut : u = t
      · subst hut
        exact hbased (by simpa [Machine.goto] using hu)
      · exact hm.based (Or.inr ⟨u, by simpa [Machine.goto, update_of_ne hut] using hu⟩)

theorem search (hm : Conserved c m) {t : T} {bytes off : ℕ} {runs : List FreeRun}
    (ht : m.pcs t = .searching bytes)
    (h : reuse c m.va.runs (c.granules (c.roundUp bytes)) = some (off, runs)) :
    Conserved c ({ m with va := { m.va with runs := runs } }.goto t (.carved off bytes)) := by
  have hok := hm.pcs t
  rw [ht] at hok
  obtain ⟨hmul, -⟩ := granules_roundUp hok.1 hok.2
  obtain ⟨hsum, hruns, hdvd, hlen⟩ := hm.reuse_spec h
  refine ⟨fun x => ?_, hm.offset_le, hm.offset_dvd, hm.live, hruns, hm.dropped, fun u => ?_, ?_,
    hlen.trans hm.length_le, hm.kept⟩
  · have h₁ :=
      tally_goto (c := c) { m with va := { m.va with runs := runs } } t (.carved off bytes) x
    have h₂ := hm.tally x
    have h₃ := hsum x
    rw [hmul] at h₃
    simp only [Machine.tally, ht, Pc.hits, Nat.add_zero] at h₁ h₂ ⊢
    exact Eq.trans (by omega) h₂
  · by_cases hu : u = t
    · subst hu
      simpa [Machine.goto, Pc.Ok] using ⟨hok.1, hok.2, hdvd⟩
    · simpa [Machine.goto, update_of_ne hu] using hm.pcs u
  · intro _
    exact hm.based (Or.inr ⟨t, by rw [ht]; trivial⟩)

theorem advance (hm : Conserved c m) {t : T} {bytes : ℕ}
    (ht : m.pcs t = .swapping bytes m.va.offset)
    (h : ¬c.reservation < (m.va.offset + c.roundUp bytes) % 2 ^ 64) :
    Conserved c
    ({ m with va := { m.va with offset := (m.va.offset + c.roundUp bytes) % 2 ^ 64 } }.goto t
      (.carved m.va.offset bytes)) := by
  have hok := hm.pcs t
  rw [ht] at hok
  obtain ⟨h1, h2, hdvd, -⟩ := hok
  have hround := (c.roundUp_spec h2).2.2
  have hres := c.reservation_lt
  have hoff := hm.offset_le
  have hmod : (m.va.offset + c.roundUp bytes) % 2 ^ 64 = m.va.offset + c.roundUp bytes :=
    Nat.mod_eq_of_lt (by omega)
  rw [hmod] at h ⊢
  refine ⟨fun x => ?_, not_lt.1 h, (Nat.dvd_add_right hdvd).2 (c.dvd_roundUp _), hm.live, hm.runs,
    hm.dropped, fun u => ?_, ?_, hm.length_le, hm.kept⟩
  · have h₁ := tally_goto (c := c)
      { m with va := { m.va with offset := m.va.offset + c.roundUp bytes } } t
      (.carved m.va.offset bytes) x
    have h₂ := hm.tally x
    rw [ht] at h₁
    have h₃ : (m.goto t (.carved m.va.offset bytes)).tally c x =
        m.tally c x + hits m.va.offset (c.roundUp bytes) x := h₁
    show (m.goto t (.carved m.va.offset bytes)).tally c x =
      if x < m.va.offset + c.roundUp bytes then 1 else 0
    rw [h₃, h₂]
    unfold hits
    split_ifs <;> omega
  · by_cases hu : u = t
    · subst hu
      simpa [Machine.goto, Pc.Ok] using ⟨h1, h2, hdvd⟩
    · simpa [Machine.goto, update_of_ne hu] using hm.pcs u
  · intro _
    exact hm.based (Or.inr ⟨t, by rw [ht]; trivial⟩)

theorem commit (hm : Conserved c m) {t : T} {bytes off : ℕ} (ht : m.pcs t = .carved off bytes) :
    Conserved c ({ m with live := ⟨off, bytes⟩ :: m.live }.goto t .idle) := by
  have hok := hm.pcs t
  rw [ht] at hok
  refine ⟨fun x => ?_, hm.offset_le, hm.offset_dvd, fun l hl => ?_, hm.runs, hm.dropped,
    fun u => ?_, ?_,
    hm.length_le, hm.kept⟩
  · have h₁ := tally_goto (c := c) { m with live := ⟨off, bytes⟩ :: m.live } t .idle x
    have h₂ := hm.tally x
    simp only [Machine.tally, ht, Pc.hits, List.map_cons, List.sum_cons, LiveRun.hits, Nat.add_zero]
      at h₁ h₂ ⊢
    exact Eq.trans (by omega) h₂
  · rcases List.mem_cons.1 hl with rfl | hl
    · exact hok
    · exact hm.live l hl
  · by_cases hu : u = t
    · subst hu
      simp [Machine.goto, Pc.Ok]
    · simpa [Machine.goto, update_of_ne hu] using hm.pcs u
  · intro _
    exact hm.based (Or.inr ⟨t, by rw [ht]; trivial⟩)

/-- A live run is on its way back to the list. -/
theorem release (hm : Conserved c m) {t : T} {i : ℕ} {l : LiveRun} (ht : m.pcs t = .idle)
    (hl : m.live[i]? = some l) :
    Conserved c ({ m with live := m.live.eraseIdx i }.goto t
      (.releasing ⟨l.off, c.granules (c.roundUp l.bytes)⟩)) := by
  obtain ⟨hi, he⟩ := List.getElem?_eq_some_iff.1 hl
  have hmem : l ∈ m.live := he ▸ List.getElem_mem hi
  obtain ⟨h1, h2, hdvd⟩ := hm.live l hmem
  obtain ⟨hmul, hwant⟩ := granules_roundUp h1 h2
  refine ⟨fun x => ?_, hm.offset_le, hm.offset_dvd, fun l hl => ?_, hm.runs, hm.dropped,
    fun u => ?_, ?_,
    hm.length_le, hm.kept⟩
  · have h₁ := tally_goto (c := c) { m with live := m.live.eraseIdx i } t
      (.releasing ⟨l.off, c.granules (c.roundUp l.bytes)⟩) x
    have h₂ := hm.tally x
    have h₃ := sum_map_eraseIdx (fun l : LiveRun => l.hits c x) l hi
    rw [List.getD_eq_getElem _ _ hi, he] at h₃
    simp only [Machine.tally, ht, Pc.hits, FreeRun.hits, hmul, LiveRun.hits, Nat.add_zero]
      at h₁ h₂ h₃ ⊢
    exact Eq.trans (by omega) h₂
  · exact hm.live l (List.mem_of_mem_eraseIdx hl)
  · by_cases hu : u = t
    · subst hu
      simpa [Machine.goto, Pc.Ok] using ⟨hwant, hdvd⟩
    · simpa [Machine.goto, update_of_ne hu] using hm.pcs u
  · intro _
    exact hm.based (Or.inl (List.ne_nil_of_mem hmem))

/-- A run is inserted, or dropped when the list is full, which needs more granules than the
reservation has on a 64-bit target. -/
theorem push (hm : Conserved c m) {t : T} {r : FreeRun} (ht : m.pcs t = .releasing r) :
    Conserved c ({ m with
      va := { m.va with runs := pushRun c m.va.runs r }
      dropped :=
        if m.va.runs.length < c.freeCap then m.dropped else r :: m.dropped }.goto t .idle) := by
  have hok := hm.pcs t
  rw [ht] at hok
  have hpc : ∀ u, (update m.pcs t .idle u).Ok c := by
    intro u
    by_cases hu : u = t
    · subst hu
      simp [Pc.Ok]
    · simpa [update_of_ne hu] using hm.pcs u
  have hbase : m.va.base ≠ 0 := hm.based (Or.inr ⟨t, by rw [ht]; trivial⟩)
  by_cases hfull : m.va.runs.length < c.freeCap
  · simp only [pushRun, if_pos hfull]
    refine ⟨fun x => ?_, hm.offset_le, hm.offset_dvd, hm.live, fun r' hr' => ?_, hm.dropped, hpc,
      fun _ => hbase, ?_, hm.kept⟩
    · have h₁ :=
        tally_goto (c := c) { m with va := { m.va with runs := m.va.runs ++ [r] } } t .idle x
      have h₂ := hm.tally x
      simp only [Machine.tally, ht, Pc.hits, List.map_append, List.sum_append, List.map_cons,
        List.map_nil, List.sum_cons, List.sum_nil, Nat.add_zero] at h₁ h₂ ⊢
      exact Eq.trans (by omega) h₂
    · rcases List.mem_append.1 hr' with hr' | hr'
      · exact hm.runs r' hr'
      · rw [List.mem_singleton.1 hr']
        exact hok
    · show (m.va.runs ++ [r]).length ≤ c.freeCap
      rw [List.length_append, List.length_singleton]
      omega
  · simp only [pushRun, if_neg hfull]
    refine ⟨fun x => ?_, hm.offset_le, hm.offset_dvd, hm.live, hm.runs, fun r' hr' => ?_, hpc,
      fun _ => hbase, hm.length_le, fun h64 => ?_⟩
    · have h₁ := tally_goto (c := c)
        { m with va := { m.va with runs := m.va.runs }, dropped := r :: m.dropped } t .idle x
      have h₂ := hm.tally x
      simp only [Machine.tally, ht, Pc.hits, List.map_cons, List.sum_cons, Nat.add_zero] at h₁ h₂ ⊢
      exact Eq.trans (by omega) h₂
    · rcases List.mem_cons.1 hr' with rfl | hr'
      · exact hok
      · exact hm.dropped r' hr'
    · -- The list would hold as many runs as the reservation has granules.
      exfalso
      have hlen := (hm.length_lt ht).trans hm.offset_le
      have hcap : c.freeCap = c.reservation / c.sheetAlign := if_pos h64
      rw [hcap, not_lt] at hfull
      have := (Nat.le_div_iff_mul_le c.sheetAlign_pos).2 hlen
      omega

theorem stepReadBase (hm : Conserved c m) {t : T} {m' : Machine T}
    (h : m.step c (.readBase t) = some m') : Conserved c m' := by
  simp only [Machine.step] at h
  split at h
  · rename_i bytes ht
    cases h
    have hok := hm.pcs t
    rw [ht] at hok
    refine hm.move (fun x => by rw [ht]; rfl) (fun x => ?_) ?_ ?_
    · split_ifs <;> rfl
    · split_ifs <;> exact hok
    · split_ifs with h0
      · exact False.elim
      · exact fun _ => h0
  · cases h

theorem stepReserve (hm : Conserved c m) {t : T} {addr : ℕ} {m' : Machine T}
    (h : m.step c (.reserve t addr) = some m') : Conserved c m' := by
  simp only [Machine.step] at h
  split at h
  · rename_i bytes ht
    cases h
    have hok := hm.pcs t
    rw [ht] at hok
    refine (hm.reserveOnce ⟨addr, fun _ _ => true⟩).move (fun x => by rw [ht]; rfl) (fun x => ?_)
      ?_ ?_
    · split_ifs <;> rfl
    · split_ifs
      · trivial
      · exact hok
    · split_ifs with h0
      · exact False.elim
      · exact fun _ => h0
  · cases h

theorem stepSearch (hm : Conserved c m) {t : T} {m' : Machine T}
    (h : m.step c (.search t) = some m') : Conserved c m' := by
  simp only [Machine.step] at h
  split at h
  · rename_i bytes ht
    split at h
    · rename_i off runs hre
      cases h
      exact hm.search ht hre
    · cases h
      have hok := hm.pcs t
      rw [ht] at hok
      exact hm.move (fun x => by rw [ht]; rfl) (fun _ => rfl) hok
        fun _ => hm.based (Or.inr ⟨t, by rw [ht]; trivial⟩)
  · cases h

theorem stepLoad (hm : Conserved c m) {t : T} {m' : Machine T}
    (h : m.step c (.load t) = some m') : Conserved c m' := by
  simp only [Machine.step] at h
  split at h
  · rename_i bytes ht
    cases h
    have hok := hm.pcs t
    rw [ht] at hok
    exact hm.move (fun x => by rw [ht]; rfl) (fun _ => rfl)
      ⟨hok.1, hok.2, hm.offset_dvd, hm.offset_le⟩
      fun _ => hm.based (Or.inr ⟨t, by rw [ht]; trivial⟩)
  · cases h

theorem stepCompareExchange (hm : Conserved c m) {t : T} {spurious : Bool} {m' : Machine T}
    (h : m.step c (.compareExchange t spurious) = some m') : Conserved c m' := by
  simp only [Machine.step] at h
  split at h
  · rename_i bytes off ht
    have hok := hm.pcs t
    rw [ht] at hok
    split_ifs at h with h₁ h₂
    · cases h
      exact hm.move (fun x => by rw [ht]; rfl) (fun _ => rfl) trivial False.elim
    · cases h
      obtain ⟨rfl, -⟩ := h₂
      exact hm.advance ht h₁
    · cases h
      exact hm.move (fun x => by rw [ht]; rfl) (fun _ => rfl)
        ⟨hok.1, hok.2.1, hm.offset_dvd, hm.offset_le⟩
        fun _ => hm.based (Or.inr ⟨t, by rw [ht]; trivial⟩)
  · cases h

theorem stepRelease (hm : Conserved c m) {t : T} {i : ℕ} {m' : Machine T}
    (h : m.step c (.release t i) = some m') : Conserved c m' := by
  simp only [Machine.step] at h
  split at h
  · rename_i l ht hl
    have hmem := List.mem_of_getElem? hl
    obtain ⟨h1, h2, -⟩ := hm.live l hmem
    have hin : l.off + c.roundUp l.bytes ≤ m.va.offset :=
      hm.le_offset_of_hits (roundUp_pos h1 h2) (live_hits_le hmem)
    have hpos := roundUp_pos h1 h2
    have hoff := hm.offset_le
    -- a live run lies in the reservation, so `__va_release` does not turn it away
    rw [if_neg] at h
    · cases h
      exact hm.release ht hl
    · rintro (h0 | h0)
      · exact hm.based (Or.inl (List.ne_nil_of_mem hmem)) h0
      · omega
  · cases h

theorem step (hm : Conserved c m) {a : Action T} {m' : Machine T} (hlegal : legal c m a)
    (h : m.step c a = some m') : Conserved c m' := by
  cases a with
  | call t bytes =>
    simp only [Machine.step] at h
    split at h
    · rename_i ht
      cases h
      exact hm.move (fun x => by rw [ht]; rfl) (fun _ => rfl) hlegal False.elim
    · cases h
  | readBase t => exact hm.stepReadBase h
  | reserve t addr => exact hm.stepReserve h
  | search t => exact hm.stepSearch h
  | load t => exact hm.stepLoad h
  | compareExchange t spurious => exact hm.stepCompareExchange h
  | commit t =>
    simp only [Machine.step] at h
    split at h
    · rename_i off bytes ht
      cases h
      exact hm.commit ht
    · cases h
  | release t i => exact hm.stepRelease h
  | push t =>
    simp only [Machine.step] at h
    split at h
    · rename_i r ht
      cases h
      exact hm.push ht
    · cases h

end Conserved

/-! ## Runs of the machine -/

section Runs
variable {T : Type*} [Fintype T]

def Machine.extents (c : VaConfig) (m : Machine T) : List (ℕ × ℕ) :=
  (m.live.map fun l => (l.off, c.roundUp l.bytes)) ++
    m.va.runs.map fun r => (r.off, r.granules * c.sheetAlign)

def Machine.lost (c : VaConfig) (m : Machine T) : List (ℕ × ℕ) :=
  m.dropped.map fun r => (r.off, r.granules * c.sheetAlign)

def Covers (l : List (ℕ × ℕ)) (x : ℕ) : Prop := ∃ e ∈ l, e.1 ≤ x ∧ x < e.1 + e.2

theorem covers_of_sum_pos {l : List (ℕ × ℕ)} {x : ℕ}
    (h : 0 < (l.map fun e => hits e.1 e.2 x).sum) : Covers l x := by
  by_contra hc
  have hzero : ∀ y ∈ l.map fun e => hits e.1 e.2 x, y = 0 := by
    intro y hy
    obtain ⟨e, he, rfl⟩ := List.mem_map.1 hy
    exact hits_eq_zero.2 fun hx => hc ⟨e, he, hx⟩
  rw [List.sum_eq_zero hzero] at h
  omega

theorem Conserved.extents_sum {c : VaConfig} {m : Machine T} (hm : Conserved c m) (x : ℕ) :
    ((m.extents c).map fun e => hits e.1 e.2 x).sum + ∑ t, (m.pcs t).hits c x +
      ((m.lost c).map fun e => hits e.1 e.2 x).sum = if x < m.va.offset then 1 else 0 := by
  have h := hm.tally x
  unfold Machine.tally at h
  simp only [Machine.extents, Machine.lost, List.map_append, List.map_map, List.sum_append]
  have h₁ :
    (m.live.map ((fun e : ℕ × ℕ => hits e.1 e.2 x) ∘ fun l => (l.off, c.roundUp l.bytes))).sum =
      (m.live.map fun l => l.hits c x).sum := rfl
  have h₂ : ∀ l : List FreeRun, (l.map ((fun e : ℕ × ℕ => hits e.1 e.2 x) ∘
      fun r => (r.off, r.granules * c.sheetAlign))).sum =
        (l.map fun r => r.hits c x).sum := fun _ => rfl
  rw [h₁, h₂, h₂]
  omega

/-- In every interleaving, the live runs and the free runs are disjoint, aligned and below the
cursor, which stays inside the reservation. When no operation is in progress they cover every
byte below the cursor, apart from runs whose release found the list full; on 64-bit targets
the list is never full when a run is released. -/
theorem va_runs_conserved [DecidableEq T] (c : VaConfig) {acts : List (Action T)} {m : Machine T}
    (hrun : Run (legal c) (Machine.step c) (Machine.init T) acts m) :
    (m.extents c).Pairwise (fun a b => a.1 + a.2 ≤ b.1 ∨ b.1 + b.2 ≤ a.1) ∧
      (∀ e ∈ m.extents c, 0 < e.2 ∧ c.sheetAlign ∣ e.1 ∧ c.sheetAlign ∣ e.2 ∧
        e.1 + e.2 ≤ m.va.offset) ∧
      m.va.offset ≤ c.reservation ∧ m.va.runs.length ≤ c.freeCap ∧
      ((∀ t, m.pcs t = .idle) →
        ∀ x, x < m.va.offset ↔ Covers (m.extents c) x ∨ Covers (m.lost c) x) ∧
      (c.is64 = true → m.lost c = []) := by
  have hm : Conserved c m :=
    hrun.invariant (Conserved c) (fun _ _ _ hm hlegal hstep => hm.step hlegal hstep) (.init c)
  have hin : ∀ e ∈ m.extents c, 0 < e.2 ∧ c.sheetAlign ∣ e.1 ∧ c.sheetAlign ∣ e.2 ∧
      e.1 + e.2 ≤ m.va.offset := by
    intro e he
    rcases List.mem_append.1 he with he | he
    · obtain ⟨l, hl, rfl⟩ := List.mem_map.1 he
      obtain ⟨h1, h2, hdvd⟩ := hm.live l hl
      have hpos := Conserved.roundUp_pos h1 h2
      exact ⟨hpos, hdvd, c.dvd_roundUp _, hm.le_offset_of_hits hpos (Conserved.live_hits_le hl)⟩
    · obtain ⟨r, hr, rfl⟩ := List.mem_map.1 he
      exact ⟨Conserved.run_len_pos (hm.runs r hr).1, (hm.runs r hr).2, Nat.dvd_mul_left _ _,
        hm.run_le hr⟩
  refine ⟨?_, hin, hm.offset_le, hm.length_le, fun hidle x => ?_, fun h64 => ?_⟩
  · refine pairwise_of_hits_le Prod.fst Prod.snd (fun e he => (hin e he).1) fun x => ?_
    have := hm.extents_sum x
    split_ifs at this <;> omega
  · have hsum := hm.extents_sum x
    have hpcs : ∑ t, (m.pcs t).hits c x = 0 := Finset.sum_eq_zero fun t _ => by rw [hidle t]; rfl
    rw [hpcs, Nat.add_zero] at hsum
    constructor
    · intro hx
      rw [if_pos hx] at hsum
      by_cases h0 : 0 < ((m.extents c).map fun e => hits e.1 e.2 x).sum
      · exact Or.inl (covers_of_sum_pos h0)
      · exact Or.inr (covers_of_sum_pos (by omega))
    · rintro (⟨e, he, h₁, h₂⟩ | ⟨e, he, h₁, h₂⟩)
      · have := (hin e he).2.2.2
        omega
      · by_contra hx
        rw [if_neg hx] at hsum
        have := List.le_sum_of_mem (List.mem_map_of_mem (f := fun e : ℕ × ℕ => hits e.1 e.2 x) he)
        rw [hits_eq_one h₁ h₂] at this
        omega
  · rw [Machine.lost, hm.kept h64]
    rfl

end Runs

/-- Two threads race for the cursor: the second compare-exchange fails once. -/
theorem va_runs_conserved_race : ∃ m, Run (legal va64) (Machine.step va64) (Machine.init Bool)
    [.call false 1, .readBase false, .reserve false (2 ^ 40), .call true (2 ^ 22), .readBase true,
      .search true, .load true, .search false, .load false, .compareExchange true false,
      .compareExchange false false, .compareExchange false false, .commit true, .commit false,
      .release true 0, .push true] m ∧ m.va.offset = 3 * 2 ^ 21 ∧
    ∀ x, x < 3 * 2 ^ 21 ↔ Covers (m.extents va64) x := by
  obtain ⟨m, hrun, hm⟩ := exists_run_of_exec (legal va64) (Machine.step va64)
    (s := Machine.init Bool)
    (l := [.call false 1, .readBase false, .reserve false (2 ^ 40), .call true (2 ^ 22),
      .readBase true,
      .search true, .load true, .search false, .load false, .compareExchange true false,
      .compareExchange false false, .compareExchange false false, .commit true, .commit false,
      .release true 0, .push true])
    (P := fun m => m.va.offset = 3 * 2 ^ 21 ∧ ∀ t, m.pcs t = .idle) (by decide +kernel)
  obtain ⟨hoff, hidle⟩ := of_decide_eq_true hm
  obtain ⟨-, -, -, -, hcover, hlost⟩ := va_runs_conserved va64 hrun
  refine ⟨m, hrun, hoff, fun x => ?_⟩
  rw [← hoff, hcover hidle x, hlost rfl]
  simp [Covers]

/-! ## A list that is too short -/

def soloMachine (offset : ℕ) (runs : List FreeRun) (live : List LiveRun) (dropped : List FreeRun) :
    Machine Unit :=
  ⟨⟨2 ^ 40, offset, runs⟩, fun _ => .idle, live, dropped⟩

theorem goto_unit (m : Machine Unit) (pc : Pc) : m.goto () pc = { m with pcs := fun _ => pc } := by
  unfold Machine.goto
  congr 1

/-- A thread on its own carves one granule from the cursor. -/
theorem carve_solo (offset : ℕ) (live : List LiveRun) (h : offset + 2 ^ 16 ≤ 2 ^ 30) :
    Run (legal va32) (Machine.step va32) (soloMachine offset [] live [])
      [.call () 1, .readBase (), .search (), .load (), .compareExchange () false, .commit ()]
      (soloMachine (offset + 2 ^ 16) [] (⟨offset, 1⟩ :: live) []) := by
  have hround : va32.roundUp 1 = 2 ^ 16 := by decide
  have hmod : (offset + 2 ^ 16) % 2 ^ 64 = offset + 2 ^ 16 := Nat.mod_eq_of_lt (by omega)
  have hres : ¬va32.reservation < offset + 2 ^ 16 := by
    show ¬1024 * 2 ^ 20 < offset + 2 ^ 16
    omega
  refine .cons (t := (soloMachine offset [] live []).goto () (.called 1)) ⟨le_rfl, by decide⟩ rfl
    (.cons (t := (soloMachine offset [] live []).goto () (.searching 1)) trivial ?_
    (.cons (t := (soloMachine offset [] live []).goto () (.bumping 1)) trivial ?_
    (.cons (t := (soloMachine offset [] live []).goto () (.swapping 1 offset)) trivial ?_
    (.cons (t := (soloMachine (offset + 2 ^ 16) [] live []).goto () (.carved offset 1)) trivial ?_
    (.cons trivial ?_ (.nil _))))))
  · simp [goto_unit, Machine.step, soloMachine]
  · simp [goto_unit, Machine.step, soloMachine, reuse, findBest]
  · simp [goto_unit, Machine.step, soloMachine]
  · simp only [goto_unit, Machine.step, soloMachine, hround, hmod, if_neg hres, and_self, if_true]
  · simp [goto_unit, Machine.step, soloMachine]

theorem release_solo (offset off : ℕ) (runs : List FreeRun) (live : List LiveRun)
    (dropped : List FreeRun) (h : off < 2 ^ 30) :
    Run (legal va32) (Machine.step va32) (soloMachine offset runs (⟨off, 1⟩ :: live) dropped)
      [.release () 0, .push ()]
      (soloMachine offset (pushRun va32 runs ⟨off, 1⟩) live
        (if runs.length < va32.freeCap then dropped else ⟨off, 1⟩ :: dropped)) := by
  have hgran : va32.granules (va32.roundUp 1) = 1 := by decide
  have hres : ¬va32.reservation ≤ off := by
    show ¬1024 * 2 ^ 20 ≤ off
    omega
  refine .cons (t := (soloMachine offset runs live dropped).goto () (.releasing ⟨off, 1⟩))
    trivial ?_
    (.cons trivial ?_ (.nil _))
  · simp [goto_unit, Machine.step, soloMachine, hres, hgran]
  · simp [goto_unit, Machine.step, soloMachine]

def granuleRuns : ℕ → List LiveRun
  | 0 => []
  | n + 1 => ⟨n * 2 ^ 16, 1⟩ :: granuleRuns n

theorem reserve_solo : Run (legal va32) (Machine.step va32) (Machine.init Unit)
    [.call () 1, .readBase (), .reserve () (2 ^ 40), .search (), .load (),
    .compareExchange () false,
      .commit ()] (soloMachine (1 * 2 ^ 16) [] (granuleRuns 1) []) := by
  have hround : va32.roundUp 1 = 2 ^ 16 := by decide
  have hres : ¬va32.reservation < (0 + 2 ^ 16) % 2 ^ 64 := by decide
  refine .cons (t := (Machine.init Unit).goto () (.called 1)) ⟨le_rfl, by decide⟩ rfl
    (.cons (t := (Machine.init Unit).goto () (.unreserved 1)) trivial ?_
    (.cons (t := (soloMachine 0 [] [] []).goto () (.searching 1)) trivial ?_
    (.cons (t := (soloMachine 0 [] [] []).goto () (.bumping 1)) trivial ?_
    (.cons (t := (soloMachine 0 [] [] []).goto () (.swapping 1 0)) trivial ?_
    (.cons (t := (soloMachine (1 * 2 ^ 16) [] [] []).goto () (.carved 0 1)) trivial ?_
    (.cons trivial ?_ (.nil _)))))))
  · simp [goto_unit, Machine.step, Machine.init, VaState.init]
  · simp [goto_unit, Machine.step, Machine.init, VaState.init, soloMachine, reserveOnce]
  · simp [goto_unit, Machine.step, soloMachine, reuse, findBest]
  · simp [goto_unit, Machine.step, soloMachine]
  · simp only [goto_unit, Machine.step, soloMachine, hround, if_neg hres, and_self, if_true]
    rfl
  · simp [goto_unit, Machine.step, soloMachine, granuleRuns]

theorem carve_solo_many (n : ℕ) (h : n < 16384) : ∃ acts,
    Run (legal va32) (Machine.step va32) (Machine.init Unit) acts
      (soloMachine ((n + 1) * 2 ^ 16) [] (granuleRuns (n + 1)) []) := by
  induction n with
  | zero => exact ⟨_, reserve_solo⟩
  | succ n ih =>
    obtain ⟨acts, hrun⟩ := ih (by omega)
    have hcarve := carve_solo ((n + 1) * 2 ^ 16) (granuleRuns (n + 1)) (by omega)
    rw [show (n + 1) * 2 ^ 16 + 2 ^ 16 = (n + 1 + 1) * 2 ^ 16 by omega] at hcarve
    exact ⟨_, hrun.append hcarve⟩

/-- Released one after the other, the runs fill the list; the run at offset 0 comes last. -/
theorem release_solo_many (n : ℕ) : ∀ (runs : List FreeRun), n + runs.length = 1024 →
    (∀ r ∈ runs, 0 < r.off) → n ≤ 1024 → ∃ acts runs',
    Run (legal va32) (Machine.step va32)
      (soloMachine (1025 * 2 ^ 16) runs (granuleRuns (n + 1)) []) acts
      (soloMachine (1025 * 2 ^ 16) runs' [] [⟨0, 1⟩]) ∧ ∀ r ∈ runs', 0 < r.off := by
  have hcap : va32.freeCap = 1024 := by decide
  induction n with
  | zero =>
    intro runs hlen hpos _
    have hrel := release_solo (1025 * 2 ^ 16) 0 runs [] [] (by omega)
    rw [hcap, if_neg (by omega), pushRun, hcap, if_neg (by omega)] at hrel
    exact ⟨_, runs, hrel, hpos⟩
  | succ n ih =>
    intro runs hlen hpos hn
    have hrel := release_solo (1025 * 2 ^ 16) ((n + 1) * 2 ^ 16) runs (granuleRuns (n + 1)) []
      (by omega)
    rw [hcap, if_pos (by omega), pushRun, hcap, if_pos (by omega)] at hrel
    have hpos₁ : ∀ r ∈ runs ++ [⟨(n + 1) * 2 ^ 16, 1⟩], 0 < r.off := by
      intro r hr
      rcases List.mem_append.1 hr with hr | hr
      · exact hpos r hr
      · rw [List.mem_singleton.1 hr]
        exact Nat.mul_pos (Nat.succ_pos n) (by decide)
    obtain ⟨acts, runs', hrun, hpos'⟩ := ih (runs ++ [⟨(n + 1) * 2 ^ 16, 1⟩])
      (by rw [List.length_append, List.length_singleton]; omega) hpos₁ (by omega)
    exact ⟨_, runs', hrel.append hrun, hpos'⟩

/-- On the 32-bit target, releasing 1025 runs of one granule loses one: no operation is in
progress, and byte 0 belongs neither to a live nor to a free run. -/
theorem va_run_lost_32 : ∃ (acts : List (Action Unit)) (m : Machine Unit),
    Run (legal va32) (Machine.step va32) (Machine.init Unit) acts m ∧
      (∀ t, m.pcs t = .idle) ∧ 0 < m.va.offset ∧ ¬Covers (m.extents va32) 0 := by
  obtain ⟨acts, hcarve⟩ := carve_solo_many 1024 (by omega)
  obtain ⟨acts', runs, hrelease, hpos⟩ := release_solo_many 1024 [] rfl (by simp) le_rfl
  refine ⟨acts ++ acts', _, hcarve.append hrelease, fun _ => rfl,
    Nat.mul_pos (by decide) (by decide), ?_⟩
  rintro ⟨e, he, h0, -⟩
  obtain ⟨r, hr, rfl⟩ :=
    List.mem_map.1 (List.mem_append.1 he |>.resolve_left (by simp [soloMachine]))
  have := hpos r hr
  exact absurd h0 (by show ¬r.off ≤ 0; omega)

end AbcMalloc.Va
