import AbcMalloc.Arena.Backing

/-! The sheets of a process and the chunks they have. `Store.Inv` says that the reservation, the
owner table, the list of the sheets outside and the mappings all describe the same chunks; taking a
chunk, building a sheet on it and giving both back keep it, and a sheet that is given up at once
leaves the tables as they were. -/
namespace AbcMalloc.Arena
open Function Foundation Owner
open Va (VaConfig VaState FreeRun LiveRun Machine Conserved carve reserveOnce reuse)

namespace Store
variable {α : Type} {c : VaConfig} {st st' : Store α} {held held' : List Chunk} {g : Answer}
  {x : α} {m d : Chunk} {sz : ℕ}

/-- What the tables say when the sheets of the process have the chunks `held`. -/
structure Inv (c : VaConfig) (st : Store α) (held : List Chunk) : Prop where
  carved : Carved c st.va (held.filter fun m => st.vaContains c m.ptr)
  whole : ∀ m ∈ held, st.vaContains c m.ptr = true → c.sheetAlign ∣ m.len
  outside : (held.filter fun m => !st.vaContains c m.ptr).Perm st.mapped
  apart : st.mapped.Pairwise fun m d => apart m.ptr m.len d.ptr d.len
  mapped : ∀ m ∈ st.mapped, m.ptr ≠ 0 ∧ 0 < m.len ∧ m.ptr + m.len ≤ 2 ^ 47 ∧
    Beyond c st.owners m
  count : st.mapped.length < 2 ^ 31
  base : st.va.base ≠ 0 → st.va.base + c.reservation ≤ 2 ^ 47
  named : ∀ g, st.table g ≠ none → ∃ m ∈ held, st.vaContains c m.ptr = true ∧
    st.owners.blockIndex c m.ptr ≤ g ∧ g < st.owners.blockIndex c m.ptr + Table.blocks c m.len
  live : st.oor.live = (liveRanges st.oor.nodes).length
  distinct : (liveRanges st.oor.nodes).Nodup
  tracked : ∀ r ∈ liveRanges st.oor.nodes, ∃ m ∈ st.mapped, r = (m.ptr, m.ptr + m.len)

/-- A request for which the cursor of the reservation does not wrap, wherever it stands. -/
def fits (c : VaConfig) (sz : ℕ) : Prop := c.roundUp sz + c.reservation < 2 ^ 64

instance (c : VaConfig) (sz : ℕ) : Decidable (fits c sz) := inferInstanceAs (Decidable (_ < _))

/-- What the system may answer. It may refuse to commit any run, and always an empty one; new
mappings lie in the address space of the user and meet no other mapping; a process has fewer than
2^31 of them. -/
structure Granted (c : VaConfig) (st : Store α) (sz : ℕ) (g : Answer) : Prop where
  empty : ∀ a, g.va.commit a 0 = false
  reserve : g.va.reserve ≠ 0 → g.va.reserve + c.reservation ≤ 2 ^ 47 ∧
    ∀ m ∈ st.mapped, Owner.apart g.va.reserve c.reservation m.ptr m.len
  alloc : ∀ p, g.alloc = some p → kernelChunkValid ⟨p, sz⟩ = true → p + sz ≤ 2 ^ 47 ∧
    (∀ m ∈ st.mapped, Owner.apart p sz m.ptr m.len) ∧
    Beyond c { st.owners with base := (reserveOnce g.va st.va).base } ⟨p, sz⟩ ∧
    st.mapped.length + 1 < 2 ^ 31

theorem fits_of_le (h : sz ≤ 2 ^ 63) : fits c sz := by
  have hres := c.reservation_lt
  have hmod := Nat.mod_le (sz + (c.sheetAlign - 1)) (2 ^ c.width)
  have hround := Nat.div_mul_le_self ((sz + (c.sheetAlign - 1)) % 2 ^ c.width) c.sheetAlign
  have halign : c.sheetAlign ≤ 2 ^ 21 := by
    unfold VaConfig.sheetAlign
    split_ifs <;> norm_num
  unfold fits VaConfig.roundUp
  omega

theorem vaContains_iff : st.vaContains c d.ptr = true ↔
    st.va.base ≠ 0 ∧ st.va.base ≤ d.ptr ∧ d.ptr < st.va.base + c.reservation := Owner.vaContains_iff

theorem vaContains_congr {st st' : Store α} (h : st'.va.base = st.va.base) (p : ℕ) :
    st'.vaContains c p = st.vaContains c p := by
  unfold vaContains Owners.vaContains owners
  rw [h]

theorem sheetRegister_cases {node : Bool} (h : st.sheetRegister c node x m = .ok st') :
    m.ptr + m.len ≤ 2 ^ 64 ∧
      ((st.vaContains c m.ptr = true ∧
          st.owners.blockIndex c m.ptr + Table.blocks c m.len ≤ numBlocks c ∧
          st' = { st with
            table :=
              fill (st.owners.blockIndex c m.ptr) (some x) st.table (Table.blocks c m.len) }) ∨
        (st.vaContains c m.ptr = false ∧
          (st' = { st with oor := oorInsert st.oor x m.ptr m.len } ∨ st' = st))) := by
  unfold sheetRegister at h
  split_ifs at h with htop hin hfit htrack
  · cases h
    refine ⟨by omega, .inl ⟨hin, by omega, ?_⟩⟩
    unfold Owners.sheetRegister
    rw [if_pos (show st.owners.vaContains c m.ptr = true from hin)]
    rfl
  · cases h
    rw [Bool.not_eq_true] at hin
    refine ⟨by omega, .inr ⟨hin, .inl ?_⟩⟩
    unfold Owners.sheetRegister
    rw [if_neg (by rw [show st.owners.vaContains c m.ptr = false from hin]; simp)]
    rfl
  · cases h
    rw [Bool.not_eq_true] at hin
    exact ⟨by omega, .inr ⟨hin, .inr rfl⟩⟩

theorem blocks_mul {n : ℕ} (hd : c.sheetAlign ∣ n) (hlt : n < 2 ^ c.width) :
    Table.blocks c n * c.sheetAlign = n := by
  have hG := c.sheetAlign_pos
  have hw : c.sheetAlign ∣ 2 ^ c.width := by
    unfold VaConfig.sheetAlign VaConfig.width
    split_ifs <;> decide
  obtain ⟨k, rfl⟩ := hd
  obtain ⟨j, hj⟩ := hw
  rw [hj] at hlt
  have hkj : k < j := Nat.lt_of_mul_lt_mul_left hlt
  have hle : c.sheetAlign * k + c.sheetAlign ≤ c.sheetAlign * j := by
    rw [← Nat.mul_succ]
    exact Nat.mul_le_mul_left _ hkj
  rw [Table.blocks, hj, Nat.mod_eq_of_lt (by omega), Nat.mul_add_div hG,
    Nat.div_eq_of_lt (by omega), Nat.add_zero, Nat.mul_comm]

structure Entered (c : VaConfig) (x : α) (m : Chunk) (st st' : Store α) : Prop where
  base : st'.va.base = st.va.base
  table : st'.table = if st.vaContains c m.ptr then
    fill (st.owners.blockIndex c m.ptr) (some x) st.table (Table.blocks c m.len) else st.table
  ranges : liveRanges st'.oor.nodes = liveRanges st.oor.nodes ∨
    st.vaContains c m.ptr = false ∧
      (liveRanges st'.oor.nodes).Perm ((m.ptr, m.ptr + m.len) :: liveRanges st.oor.nodes)
  mapped : st'.mapped = if st.vaContains c m.ptr then st.mapped else m :: st.mapped

structure Left (c : VaConfig) (m : Chunk) (st st' : Store α) : Prop where
  base : st'.va.base = st.va.base
  table : st'.table = if st.vaContains c m.ptr then
    fill (st.owners.blockIndex c m.ptr) none st.table (Table.blocks c m.len) else st.table
  ranges : (liveRanges st'.oor.nodes).Perm (if st.vaContains c m.ptr then liveRanges st.oor.nodes
    else (liveRanges st.oor.nodes).erase (m.ptr, m.ptr + m.len))
  mapped : st'.mapped = if st.vaContains c m.ptr then st.mapped else st.mapped.erase m
  runs : st'.va.runs = if st.vaContains c m.ptr then
    st.va.runs ++ [⟨m.ptr - st.va.base, c.granules m.len⟩] else st.va.runs
  offset : st'.va.offset = st.va.offset

/-- A sheet that was given up leaves no trace in the tables: no granule and no live range of it is
left, and its run is among the free runs. -/
structure Restored (c : VaConfig) (m : Chunk) (st st' : Store α) : Prop where
  base : st'.va.base = st.va.base
  table : st'.table = st.table
  ranges : (liveRanges st'.oor.nodes).Perm (liveRanges st.oor.nodes)
  mapped : st'.mapped = st.mapped
  free : st.vaContains c m.ptr = true → ∃ r ∈ st'.va.runs,
    st.va.base + r.off = m.ptr ∧ r.granules * c.sheetAlign = m.len

namespace Inv

theorem perm (h : Inv c st held) (hp : held.Perm held') : Inv c st held' where
  carved := h.carved.perm (hp.filter _)
  whole m hm := h.whole m (hp.mem_iff.2 hm)
  outside := (hp.symm.filter _).trans h.outside
  apart := h.apart
  mapped := h.mapped
  count := h.count
  base := h.base
  named g hg := by
    obtain ⟨m, hm, hin⟩ := h.named g hg
    exact ⟨m, hp.mem_iff.1 hm, hin⟩
  live := h.live
  distinct := h.distinct
  tracked := h.tracked

theorem carved_spec (h : Inv c st held) (hm : m ∈ held) (hin : st.vaContains c m.ptr = true) :
    0 < m.len ∧ m.len ≤ c.reservation ∧ c.sheetAlign ∣ m.ptr - st.va.base ∧
      m.ptr + m.len ≤ st.va.base + c.reservation := by
  have hmem : m ∈ held.filter fun m => st.vaContains c m.ptr := List.mem_filter.2 ⟨hm, hin⟩
  obtain ⟨h₁, h₂, hd, htop⟩ := h.carved.chunk hmem
  rw [Table.roundUp_self h₂ (h.whole m hm hin)] at htop
  have hoff := h.carved.offset_le
  have hle := (vaContains_iff.1 hin).2.1
  exact ⟨h₁, h₂, hd, by omega⟩

theorem mapped_spec (h : Inv c st held) (hm : m ∈ held) (hout : st.vaContains c m.ptr = false) :
    m ∈ st.mapped :=
  h.outside.mem_iff.1 (List.mem_filter.2 ⟨hm, by rw [hout]; rfl⟩)

theorem chunks_apart (h : Inv c st (m :: held)) (hd : d ∈ held) :
    Owner.apart m.ptr m.len d.ptr d.len := by
  have hmem : m ∈ m :: held := List.mem_cons_self
  have hmem' : d ∈ m :: held := List.mem_cons_of_mem m hd
  unfold Owner.apart
  by_cases hin : st.vaContains c m.ptr = true
  · by_cases hin' : st.vaContains c d.ptr = true
    · -- two runs of the reservation
      obtain ⟨h₁, h₂, -, -⟩ := h.carved_spec hmem hin
      obtain ⟨h₁', h₂', -, -⟩ := h.carved_spec hmem' hin'
      have hle := (vaContains_iff.1 hin).2.1
      have hle' := (vaContains_iff.1 hin').2.1
      have hself := Table.roundUp_self h₂ (h.whole m hmem hin)
      have hself' := Table.roundUp_self h₂' (h.whole d hmem' hin')
      have hruns := h.carved.pairwise
      rw [List.filter_cons_of_pos (p := fun m : Chunk => st.vaContains c m.ptr) hin] at hruns
      have hpair := (List.pairwise_cons.1 hruns).1 d (List.mem_filter.2 ⟨hd, hin'⟩)
      simp only [hself, hself'] at hpair
      omega
    · rw [Bool.not_eq_true] at hin'
      obtain ⟨-, hlen, -, hbeyond⟩ := h.mapped d (h.mapped_spec hmem' hin')
      obtain ⟨-, -, -, htop⟩ := h.carved_spec hmem hin
      have hbase := vaContains_iff.1 hin
      rcases hbeyond with hb | hb | hb
      · exact absurd hb hbase.1
      · have hb : d.ptr + d.len ≤ st.va.base := hb
        omega
      · have hb : st.va.base + c.reservation ≤ d.ptr := hb
        omega
  · rw [Bool.not_eq_true] at hin
    obtain ⟨-, hlen, -, hbeyond⟩ := h.mapped m (h.mapped_spec hmem hin)
    by_cases hin' : st.vaContains c d.ptr = true
    · obtain ⟨-, -, -, htop⟩ := h.carved_spec hmem' hin'
      have hbase := vaContains_iff.1 hin'
      rcases hbeyond with hb | hb | hb
      · exact absurd hb hbase.1
      · have hb : m.ptr + m.len ≤ st.va.base := hb
        omega
      · have hb : st.va.base + c.reservation ≤ m.ptr := hb
        omega
    · rw [Bool.not_eq_true] at hin'
      have hpair := h.apart.perm h.outside.symm fun h => h.symm
      rw [List.filter_cons_of_pos (by simp [hin])] at hpair
      exact (List.pairwise_cons.1 hpair).1 d (List.mem_filter.2 ⟨hd, by simp [hin']⟩)

/-- There are no more tracked sheets than mappings. -/
theorem live_lt (h : Inv c st held) : st.oor.live < 2 ^ 31 := by
  have hsub : liveRanges st.oor.nodes ⊆ st.mapped.map fun m => (m.ptr, m.ptr + m.len) := by
    intro r hr
    obtain ⟨m, hm, rfl⟩ := h.tracked r hr
    exact List.mem_map.2 ⟨m, hm, rfl⟩
  have hle := (List.subperm_of_subset h.distinct hsub).length_le
  rw [List.length_map] at hle
  have := h.count
  have := h.live
  omega

/-- The range of a chunk that meets no mapping is not in the list. -/
theorem untracked (h : Inv c st held) (hpos : 0 < m.len)
    (hapart : ∀ d ∈ st.mapped, Owner.apart m.ptr m.len d.ptr d.len) (hi : ℕ) :
    (m.ptr, hi) ∉ liveRanges st.oor.nodes := by
  intro hmem
  obtain ⟨d, hd, hrange⟩ := h.tracked _ hmem
  obtain ⟨-, hlen, -⟩ := h.mapped d hd
  have hd := hapart d hd
  simp only [Prod.mk.injEq] at hrange
  unfold Owner.apart at hd
  omega

/-- The reservation is made where nothing is mapped. -/
theorem reserve_beyond (h : Inv c st held) (hg : Granted c st sz g) :
    ∀ m ∈ st.mapped, Beyond c (owners { st with va := reserveOnce g.va st.va }) m := by
  intro m hm
  by_cases hb : st.va.base = 0
  · have hva : reserveOnce g.va st.va = { st.va with base := g.va.reserve } := by
      unfold reserveOnce
      rw [if_pos hb]
    rw [hva]
    by_cases hr : g.va.reserve = 0
    · exact .inl hr
    · have hapart := (hg.reserve hr).2 m hm
      have hres : 0 < c.reservation := c.sheetAlign_pos.trans_le c.nonempty
      obtain ⟨-, hlen, -⟩ := h.mapped m hm
      unfold Owner.apart at hapart
      show g.va.reserve = 0 ∨ m.ptr + m.len ≤ g.va.reserve ∨ g.va.reserve + c.reservation ≤ m.ptr
      omega
  · rw [(reserveOnce_same g.va st.va).2.2 hb]
    exact (h.mapped m hm).2.2.2

theorem reserve_stays (h : Inv c st held) (hg : Granted c st sz g) : ∀ m ∈ held,
    vaContains c { st with va := reserveOnce g.va st.va } m.ptr = st.vaContains c m.ptr := by
  intro m hm
  by_cases hb : st.va.base = 0
  · have hout : st.vaContains c m.ptr = false := by
      rw [← Bool.not_eq_true]
      exact fun hp => (vaContains_iff.1 hp).1 hb
    have hmem := h.mapped_spec hm hout
    obtain ⟨-, hlen, -⟩ := h.mapped m hmem
    rw [hout]
    exact (h.reserve_beyond hg m hmem).not_contains le_rfl (by omega)
  · rw [(reserveOnce_same g.va st.va).2.2 hb]

theorem reserve (h : Inv c st held) (hg : Granted c st sz g) :
    Inv c { st with va := reserveOnce g.va st.va } held := by
  have hstay := h.reserve_stays hg
  have hindex : ∀ m ∈ held, st.vaContains c m.ptr = true →
      reserveOnce g.va st.va = st.va := by
    intro m _ hin
    exact (reserveOnce_same g.va st.va).2.2 (vaContains_iff.1 hin).1
  constructor
  · rw [List.filter_congr hstay]
    exact h.carved.reserve g.va
  · intro m hm hin
    rw [hstay m hm] at hin
    exact h.whole m hm hin
  · rw [List.filter_congr fun m hm => by rw [hstay m hm]]
    exact h.outside
  · exact h.apart
  · intro m hm
    obtain ⟨h₁, h₂, h₃, -⟩ := h.mapped m hm
    exact ⟨h₁, h₂, h₃, h.reserve_beyond hg m hm⟩
  · exact h.count
  · intro hne
    by_cases hb : st.va.base = 0
    · have hva : reserveOnce g.va st.va = { st.va with base := g.va.reserve } := by
        unfold reserveOnce
        rw [if_pos hb]
      simp only [hva] at hne ⊢
      exact (hg.reserve hne).1
    · simp only [(reserveOnce_same g.va st.va).2.2 hb]
      exact h.base hb
  · intro i hi
    obtain ⟨m, hm, hin, hgran⟩ := h.named i hi
    refine ⟨m, hm, ?_, ?_⟩
    · rw [hstay m hm]
      exact hin
    · rw [hindex m hm hin]
      exact hgran
  · exact h.live
  · exact h.distinct
  · exact h.tracked

/-- The tables do not depend on the free runs. -/
theorem revise {va : VaState} (h : Inv c st held) (hbase : va.base = st.va.base)
    (hcarved : Carved c va (held.filter fun m => st.vaContains c m.ptr)) :
    Inv c { st with va := va } held := by
  have hstay : ∀ p, vaContains c { st with va := va } p = st.vaContains c p :=
    fun p => vaContains_congr hbase p
  constructor
  · simp only [hstay]
    exact hcarved
  · intro m hm hin
    rw [hstay] at hin
    exact h.whole m hm hin
  · simp only [hstay]
    exact h.outside
  · exact h.apart
  · intro m hm
    obtain ⟨h₁, h₂, h₃, h₄⟩ := h.mapped m hm
    refine ⟨h₁, h₂, h₃, ?_⟩
    unfold Beyond owners at h₄ ⊢
    rw [hbase]
    exact h₄
  · exact h.count
  · intro hne
    simp only [hbase] at hne ⊢
    exact h.base hne
  · intro i hi
    obtain ⟨m, hm, hin, hgran⟩ := h.named i hi
    have hindex : (owners { st with va := va }).blockIndex c m.ptr =
      st.owners.blockIndex c m.ptr := by
      unfold Owners.blockIndex owners
      rw [hbase]
    refine ⟨m, hm, by rw [hstay, hin], ?_⟩
    rw [hindex]
    exact hgran
  · exact h.live
  · exact h.distinct
  · exact h.tracked

/-- After a carve that gave nothing; runs may be lost. -/
theorem carve (h : Inv c st held) (hg : Granted c st sz g) (hfit : fits c sz)
    (hnone : (Va.carve c g.va st.va sz).1 = 0) :
    (Va.carve c g.va st.va sz).2.base = (reserveOnce g.va st.va).base ∧
      Inv c { st with va := (Va.carve c g.va st.va sz).2 } held := by
  obtain ⟨hbase, hcarve⟩ := carve_carves sz h.carved hg.empty hfit
  generalize Va.carve c g.va st.va sz = r at hnone hbase hcarve ⊢
  refine ⟨hbase, (h.reserve hg).revise hbase ?_⟩
  rw [List.filter_congr (h.reserve_stays hg)]
  rcases hcarve with ⟨-, hcarved⟩ | ⟨-, hb, hle, -⟩
  · exact hcarved
  · omega

/-- What a chunk that was handed out is: invalid, mapped, or a run of the reservation. -/
theorem getKernelChunk_cases (h : Inv c st held) (hg : Granted c st sz g) (hfit : fits c sz)
    (hget : st.getKernelChunk c g sz = .ok (m, st')) :
    (kernelChunkValid m = false ∧ (Va.carve c g.va st.va sz).1 = 0 ∧
        st' = { st with va := (Va.carve c g.va st.va sz).2 }) ∨
      (kernelChunkValid m = true ∧ (Va.carve c g.va st.va sz).1 = 0 ∧ g.alloc = some m.ptr ∧
        m.len = sz ∧
        st' = { st with va := (Va.carve c g.va st.va sz).2, mapped := m :: st.mapped }) ∨
      (kernelChunkValid m = true ∧ ∃ va, st' = { st with va := va } ∧
        va.base = (reserveOnce g.va st.va).base ∧ va.base ≠ 0 ∧ va.base ≤ m.ptr ∧
        m.ptr < va.base + c.reservation ∧ c.sheetAlign ∣ m.len ∧ m.len < 2 ^ c.width ∧
        (m.len ≤ c.reservation →
        Carved c va (m :: held.filter fun m => st.vaContains c m.ptr))) := by
  obtain ⟨hbase, hcarve⟩ := carve_carves sz h.carved hg.empty hfit
  have hlow := (h.reserve hg).base
  unfold getKernelChunk at hget
  simp only at hget
  generalize Va.carve c g.va st.va sz = r at hget hbase hcarve ⊢
  by_cases hzero : r.1 = 0
  · rw [if_neg (by simp [hzero])] at hget
    cases hal : g.alloc with
    | none =>
      rw [hal] at hget
      cases hget
    | some p =>
      rw [hal] at hget
      simp only [Except.ok.injEq, Prod.mk.injEq] at hget
      obtain ⟨rfl, rfl⟩ := hget
      by_cases hval : kernelChunkValid ⟨p, sz⟩ = true
      · rw [if_pos hval]
        exact .inr (.inl ⟨hval, hzero, rfl, rfl, rfl⟩)
      · rw [if_neg hval]
        rw [Bool.not_eq_true] at hval
        exact .inl ⟨hval, hzero, rfl⟩
  · rw [if_pos hzero] at hget
    simp only [Except.ok.injEq, Prod.mk.injEq] at hget
    obtain ⟨rfl, rfl⟩ := hget
    rcases hcarve with ⟨hnone, -⟩ | ⟨hne, hb, hle, hlt, hcarved⟩
    · exact absurd hnone hzero
    · have htop : (reserveOnce g.va st.va).base + c.reservation ≤ 2 ^ 47 := hlow hb
      refine .inr (.inr ⟨?_, r.2, rfl, hbase, ?_, ?_, ?_, c.dvd_roundUp sz, Table.roundUp_lt c sz,
        hcarved⟩)
      · have hpage : r.1 < 2 ^ 64 - 4095 := by omega
        simpa [kernelChunkValid, hzero, hne] using hpage
      · rw [hbase]
        exact hb
      · rw [hbase]
        exact hle
      · rw [hbase]
        exact hlt

theorem enterOutside {oor : Oor α} (h : Inv c st held) (hptr : m.ptr ≠ 0) (hpos : 0 < m.len)
    (htop : m.ptr + m.len ≤ 2 ^ 47) (hbeyond : Beyond c st.owners m)
    (hapart : ∀ d ∈ st.mapped, Owner.apart m.ptr m.len d.ptr d.len)
    (hcount : st.mapped.length + 1 < 2 ^ 31)
    (hoor : oor = oorInsert st.oor x m.ptr m.len ∨ oor = st.oor) :
    Inv c ⟨st.va, st.table, oor, m :: st.mapped⟩ (m :: held) := by
  have hout : st.vaContains c m.ptr = false := hbeyond.not_contains le_rfl (by omega)
  have hend : (m.ptr + m.len) % 2 ^ 64 = m.ptr + m.len := Nat.mod_eq_of_lt (by omega)
  have hold : ∀ r ∈ liveRanges st.oor.nodes, ∃ d ∈ m :: st.mapped, r = (d.ptr, d.ptr + d.len) := by
    intro r hr
    obtain ⟨d, hd, hrd⟩ := h.tracked r hr
    exact ⟨d, List.mem_cons_of_mem m hd, hrd⟩
  -- the list of sheets outside
  have hlist : oor.live = (liveRanges oor.nodes).length ∧ (liveRanges oor.nodes).Nodup ∧
      ∀ r ∈ liveRanges oor.nodes, ∃ d ∈ m :: st.mapped, r = (d.ptr, d.ptr + d.len) := by
    rcases hoor with rfl | rfl
    · have hperm := liveRanges_insert st.oor x m.ptr m.len
      rw [hend] at hperm
      refine ⟨?_, ?_, ?_⟩
      · rw [hperm.length_eq, List.length_cons, ← h.live]
        have := h.live_lt
        exact Nat.mod_eq_of_lt (by omega)
      · rw [hperm.nodup_iff, List.nodup_cons]
        exact ⟨h.untracked hpos hapart _, h.distinct⟩
      · intro r hr
        rcases List.mem_cons.1 (hperm.mem_iff.1 hr) with rfl | hr
        · exact ⟨m, List.mem_cons_self, rfl⟩
        · exact hold r hr
    · exact ⟨h.live, h.distinct, hold⟩
  have hin : ∀ p, vaContains c ⟨st.va, st.table, oor, m :: st.mapped⟩ p = st.vaContains c p :=
    fun p => rfl
  constructor
  · simp only [hin]
    rw [List.filter_cons_of_neg (by simp [hout])]
    exact h.carved
  · intro d hd hdin
    rcases List.mem_cons.1 hd with rfl | hd
    · rw [hin, hout] at hdin
      cases hdin
    · exact h.whole d hd hdin
  · simp only [hin]
    rw [List.filter_cons_of_pos (by simp [hout])]
    exact h.outside.cons m
  · exact List.pairwise_cons.2 ⟨hapart, h.apart⟩
  · intro d hd
    rcases List.mem_cons.1 hd with rfl | hd
    · exact ⟨hptr, hpos, htop, hbeyond⟩
    · exact h.mapped d hd
  · exact hcount
  · exact h.base
  · intro i hi
    obtain ⟨d, hd, hgran⟩ := h.named i hi
    exact ⟨d, List.mem_cons_of_mem m hd, hgran⟩
  · exact hlist.1
  · exact hlist.2.1
  · exact hlist.2.2

theorem enterCarved {va : VaState} (h : Inv c st held) (hbase : va.base = st.va.base)
    (hin : st.vaContains c m.ptr = true) (hd : c.sheetAlign ∣ m.len)
    (hcons : Carved c va (m :: held.filter fun m => st.vaContains c m.ptr)) :
    Inv c ⟨va, fill (st.owners.blockIndex c m.ptr) (some x) st.table (Table.blocks c m.len), st.oor,
      st.mapped⟩ (m :: held) := by
  generalize htable : fill (st.owners.blockIndex c m.ptr) (some x) st.table (Table.blocks c m.len) =
    table
  have hstay : ∀ p, vaContains c ⟨va, table, st.oor, st.mapped⟩ p = st.vaContains c p :=
    fun p => vaContains_congr hbase p
  have hindex : ∀ p, (owners ⟨va, table, st.oor, st.mapped⟩).blockIndex c p =
      st.owners.blockIndex c p := by
    intro p
    unfold Owners.blockIndex owners
    rw [hbase]
  constructor
  · simp only [hstay]
    rw [List.filter_cons_of_pos (p := fun m : Chunk => st.vaContains c m.ptr) hin]
    exact hcons
  · intro d hmem hdin
    rcases List.mem_cons.1 hmem with rfl | hmem
    · exact hd
    · rw [hstay] at hdin
      exact h.whole d hmem hdin
  · simp only [hstay]
    rw [List.filter_cons_of_neg (by simp [hin])]
    exact h.outside
  · exact h.apart
  · intro d hmem
    obtain ⟨h₁, h₂, h₃, h₄⟩ := h.mapped d hmem
    refine ⟨h₁, h₂, h₃, ?_⟩
    unfold Beyond owners at h₄ ⊢
    rw [hbase]
    exact h₄
  · exact h.count
  · intro hne
    simp only [hbase] at hne ⊢
    exact h.base hne
  · intro i hi
    simp only [hstay, hindex]
    simp only [← htable, fill_apply] at hi
    split_ifs at hi with hgran
    · exact ⟨m, List.mem_cons_self, hin, hgran.1, hgran.2⟩
    · obtain ⟨d, hmem, hnamed⟩ := h.named i hi
      exact ⟨d, List.mem_cons_of_mem m hmem, hnamed⟩
  · exact h.live
  · exact h.distinct
  · exact h.tracked

/-- A chunk with a sheet on it joins the others. -/
theorem acquire {st₁ st₂ : Store α} (h : Inv c st held) (hg : Granted c st sz g)
    (hfit : fits c sz) (hget : st.getKernelChunk c g sz = .ok (m, st₁))
    (hval : kernelChunkValid m = true)
    (hreg : st₁.sheetRegister c g.node x m = .ok st₂) :
    Inv c st₂ (m :: held) ∧ Entered c x m { st with va := reserveOnce g.va st.va } st₂ := by
  have hr := h.reserve hg
  obtain ⟨htop, hreg⟩ := sheetRegister_cases hreg
  rcases h.getKernelChunk_cases hg hfit hget with ⟨hinv, -⟩ | ⟨-, hnone, halloc, hlen, rfl⟩ |
    ⟨-, va, rfl, hbase, hb, hle, hlow, hd, hwidth, hcons⟩
  · rw [hval] at hinv
    cases hinv
  · -- a mapping outside of the reservation
    have hne : m.ptr ≠ 0 ∧ m.len ≠ 0 := by
      simp only [kernelChunkValid, Bool.and_eq_true, decide_eq_true_eq] at hval
      exact ⟨hval.1.1, hval.2⟩
    obtain ⟨hbase, hcarved⟩ := h.carve hg hfit hnone
    generalize (Va.carve c g.va st.va sz).2 = va at hreg hbase hcarved
    have hstay : ∀ p, vaContains c { st with va := va } p =
        vaContains c { st with va := reserveOnce g.va st.va } p := fun p => vaContains_congr hbase p
    rw [← hlen] at hg
    obtain ⟨h₁, h₂, h₃, h₄⟩ := hg.alloc m.ptr halloc hval
    have hpos := Nat.pos_of_ne_zero hne.2
    have hbeyond : Beyond c (owners { st with va := va }) m := by
      unfold Beyond owners at h₃ ⊢
      rw [hbase]
      exact h₃
    have hout : vaContains c { st with va := va } m.ptr = false :=
      Beyond.not_contains (m := m) hbeyond le_rfl (by omega)
    have hout' := (hstay m.ptr).symm.trans hout
    have hend : (m.ptr + m.len) % 2 ^ 64 = m.ptr + m.len := Nat.mod_eq_of_lt (by omega)
    have hoor : ∃ oor, (oor = oorInsert st.oor x m.ptr m.len ∨ oor = st.oor) ∧
        st₂ = ⟨va, st.table, oor, m :: st.mapped⟩ := by
      rcases hreg with ⟨hin, -⟩ | ⟨-, rfl | rfl⟩
      · exact absurd (hin.symm.trans hout) (by decide)
      · exact ⟨_, .inl rfl, rfl⟩
      · exact ⟨_, .inr rfl, rfl⟩
    obtain ⟨oor, hoor, rfl⟩ := hoor
    refine ⟨hcarved.enterOutside hne.1 hpos h₁ hbeyond h₂ h₄ hoor, hbase, ?_, ?_, ?_⟩
    · rw [if_neg (by rw [hout']; decide)]
    · rcases hoor with rfl | rfl
      · right
        have hperm := liveRanges_insert st.oor x m.ptr m.len
        rw [hend] at hperm
        exact ⟨hout', hperm⟩
      · exact .inl rfl
    · rw [if_neg (by rw [hout']; decide)]
  · -- a run of the reservation
    have hstay : ∀ p, vaContains c { st with va := va } p =
        vaContains c { st with va := reserveOnce g.va st.va } p := fun p => vaContains_congr hbase p
    have hin : vaContains c { st with va := reserveOnce g.va st.va } m.ptr = true := by
      rw [← hstay]
      exact vaContains_iff.2 ⟨hb, hle, hlow⟩
    rcases hreg with ⟨-, hfit, rfl⟩ | ⟨hout, -⟩
    · have hlen : m.len ≤ c.reservation := by
        unfold numBlocks at hfit
        rw [← blocks_mul hd hwidth]
        exact (Nat.mul_le_mul_right _ (by omega)).trans (Nat.div_mul_le_self _ _)
      have hcons := hcons hlen
      rw [← List.filter_congr (h.reserve_stays hg)] at hcons
      have hindex : (owners { st with va := va }).blockIndex c m.ptr =
          (owners { st with va := reserveOnce g.va st.va }).blockIndex c m.ptr := by
        unfold Owners.blockIndex owners
        rw [hbase]
      rw [hindex]
      refine ⟨hr.enterCarved hbase hin hd hcons, hbase, ?_, .inl rfl, ?_⟩
      · rw [if_pos hin]
      · rw [if_pos hin]
    · rw [hstay, hin] at hout
      cases hout

/-- A sheet of the reservation gives its run back. -/
theorem leaveCarved (h64 : c.is64 = true) (h : Inv c st (m :: held))
    (hin : st.vaContains c m.ptr = true) :
    Inv c (st.release c m) held ∧ Left c m st (st.release c m) := by
  have hmem : m ∈ m :: held := List.mem_cons_self
  have hcarved := h.carved
  rw [List.filter_cons_of_pos (p := fun m : Chunk => st.vaContains c m.ptr) hin] at hcarved
  obtain ⟨hva, hcons⟩ := hcarved.release h64 (vaContains_iff.1 hin).2.1 (h.whole m hmem hin)
  have hst : st.release c m = ⟨Va.release c st.va m.ptr m.len,
      fill (st.owners.blockIndex c m.ptr) none st.table (Table.blocks c m.len), st.oor,
      st.mapped⟩ := by
    have hun : st.sheetUnregister c m = { st with
        table := fill (st.owners.blockIndex c m.ptr) none st.table (Table.blocks c m.len) } := by
      unfold sheetUnregister Owners.sheetUnregister
      rw [if_pos (show st.owners.vaContains c m.ptr = true from hin)]
      rfl
    unfold release releaseKernelChunk
    rw [hun, if_pos]
    exact hin
  rw [hst, hva]
  rw [hva] at hcons
  generalize htable : fill (st.owners.blockIndex c m.ptr) none st.table
    (Table.blocks c m.len) = table
  generalize hruns : st.va.runs ++ [⟨m.ptr - st.va.base, c.granules m.len⟩] = runs at hcons ⊢
  have hstay : ∀ p, vaContains c ⟨{ st.va with runs := runs }, table, st.oor, st.mapped⟩ p =
      st.vaContains c p := fun p => vaContains_congr rfl p
  refine ⟨⟨?_, ?_, ?_, h.apart, h.mapped, h.count, h.base, ?_, h.live, h.distinct, h.tracked⟩, rfl,
    ?_, ?_, ?_, ?_, rfl⟩
  · simp only [hstay]
    exact hcons
  · exact fun d hd => h.whole d (List.mem_cons_of_mem m hd)
  · have hout := h.outside
    rw [List.filter_cons_of_neg (by simp [hin])] at hout
    simp only [hstay]
    exact hout
  · intro i hi
    simp only [← htable, fill_apply] at hi
    split_ifs at hi with hgran
    · exact absurd rfl hi
    · obtain ⟨d, hd, hnamed⟩ := h.named i hi
      rcases List.mem_cons.1 hd with rfl | hd
      · exact absurd hnamed.2 hgran
      · exact ⟨d, hd, hnamed⟩
  · rw [if_pos hin, htable]
  · rw [if_pos hin]
  · rw [if_pos hin]
  · rw [if_pos hin, hruns]

theorem leaveOutside (h : Inv c st (m :: held)) (hout : st.vaContains c m.ptr = false) :
    Inv c (st.release c m) held ∧ Left c m st (st.release c m) := by
  have hmem : m ∈ m :: held := List.mem_cons_self
  obtain ⟨-, hpos, htop, -⟩ := h.mapped m (h.mapped_spec hmem hout)
  have hend : (m.ptr + m.len) % 2 ^ 64 = m.ptr + m.len := Nat.mod_eq_of_lt (by omega)
  have hneg : ¬st.vaContains c m.ptr = true := by rw [hout]; decide
  have hst : st.release c m =
      ⟨st.va, st.table, oorRetire st.oor m.ptr m.len, st.mapped.erase m⟩ := by
    have hun : st.sheetUnregister c m = { st with oor := oorRetire st.oor m.ptr m.len } := by
      unfold sheetUnregister Owners.sheetUnregister
      rw [if_neg (show ¬st.owners.vaContains c m.ptr = true from hneg)]
      rfl
    unfold release releaseKernelChunk
    rw [hun, if_neg]
    exact hneg
  have hlive := h.live_lt
  obtain ⟨hperm, hcount⟩ := liveRanges_retire m.ptr m.len h.live (by omega)
  rw [hend] at hperm
  have hsub : ∀ r ∈ liveRanges (oorRetire st.oor m.ptr m.len).nodes, r ∈ liveRanges st.oor.nodes ∧
      r ≠ (m.ptr, m.ptr + m.len) := by
    intro r hr
    have hr := hperm.mem_iff.1 hr
    rw [h.distinct.mem_erase_iff] at hr
    exact ⟨hr.2, hr.1⟩
  have hmapped := h.outside
  rw [List.filter_cons_of_pos (by simp [hout])] at hmapped
  have herase := hmapped.erase m
  rw [List.erase_cons_head] at herase
  rw [hst]
  generalize oorRetire st.oor m.ptr m.len = oor at hperm hcount hsub
  refine ⟨⟨?_, ?_, herase, ?_, ?_, ?_, h.base, ?_, hcount, ?_, ?_⟩, rfl, ?_, ?_, ?_, ?_, rfl⟩
  · have hcarved := h.carved
    rw [List.filter_cons_of_neg (by simp [hout])] at hcarved
    exact hcarved
  · exact fun d hd => h.whole d (List.mem_cons_of_mem m hd)
  · exact h.apart.sublist List.erase_sublist
  · exact fun d hd => h.mapped d (List.mem_of_mem_erase hd)
  · exact (List.length_erase_le).trans_lt h.count
  · intro i hi
    obtain ⟨d, hd, hin, hgran⟩ := h.named i hi
    rcases List.mem_cons.1 hd with rfl | hd
    · exact absurd hin hneg
    · exact ⟨d, hd, hin, hgran⟩
  · rw [hperm.nodup_iff]
    exact h.distinct.erase _
  · intro r hr
    obtain ⟨hr, hne⟩ := hsub r hr
    obtain ⟨d, hd, rfl⟩ := h.tracked r hr
    refine ⟨d, ?_, rfl⟩
    have hdm : d ≠ m := by
      rintro rfl
      exact hne rfl
    exact (List.mem_erase_of_ne hdm).2 hd
  · rw [if_neg hneg]
  · rw [if_neg hneg]
    exact hperm
  · rw [if_neg hneg]
  · rw [if_neg hneg]

/-- A sheet goes, and its chunk with it. -/
theorem leave (h64 : c.is64 = true) (h : Inv c st (m :: held)) :
    Inv c (st.release c m) held ∧ Left c m st (st.release c m) := by
  by_cases hin : st.vaContains c m.ptr = true
  · exact h.leaveCarved h64 hin
  · rw [Bool.not_eq_true] at hin
    exact h.leaveOutside hin

theorem within (h : Inv c st held) (hm : m ∈ held) (hin : st.vaContains c m.ptr = true) :
    Within c st.owners m := by
  obtain ⟨-, -, hd, htop⟩ := h.carved_spec hm hin
  obtain ⟨hb, hle, -⟩ := vaContains_iff.1 hin
  exact ⟨hb, hle, htop, hd, h.whole m hm hin⟩

/-- The granules of a carved chunk are those in which its bytes lie. -/
theorem granule_iff (h : Inv c st held) (hm : m ∈ held) (hin : st.vaContains c m.ptr = true)
    (i : ℕ) :
    (st.owners.blockIndex c m.ptr ≤ i ∧
        i < st.owners.blockIndex c m.ptr + Table.blocks c m.len) ↔
      m.ptr ≤ st.va.base + i * c.sheetAlign ∧ st.va.base + i * c.sheetAlign < m.ptr + m.len := by
  have hp : st.owners.blockIndex c (st.va.base + i * c.sheetAlign) = i := by
    show (st.va.base + i * c.sheetAlign - st.va.base) / c.sheetAlign = i
    rw [Nat.add_sub_cancel_left, Nat.mul_div_cancel _ c.sheetAlign_pos]
  have hiff :=
    (h.within hm hin).granule_iff (p := st.va.base + i * c.sheetAlign) (Nat.le_add_right _ _)
  rw [hp] at hiff
  exact hiff

theorem unnamed (h : Inv c st held) {st₂ : Store α} (h₂ : Inv c st₂ (m :: held))
    (hbase : st₂.va.base = st.va.base) (hin : st.vaContains c m.ptr = true) {i : ℕ}
    (hlo : st.owners.blockIndex c m.ptr ≤ i)
    (hhi : i < st.owners.blockIndex c m.ptr + Table.blocks c m.len) : st.table i = none := by
  by_contra hne
  obtain ⟨d, hd, hdin, hdlo, hdhi⟩ := h.named i hne
  have hindex : ∀ p, st₂.owners.blockIndex c p = st.owners.blockIndex c p := by
    intro p
    unfold Owners.blockIndex owners
    rw [hbase]
  have hin₂ : st₂.vaContains c m.ptr = true := (vaContains_congr hbase _).trans hin
  have hm := (h₂.granule_iff List.mem_cons_self hin₂ i).1 (by rw [hindex]; exact ⟨hlo, hhi⟩)
  have hd' := (h.granule_iff hd hdin i).1 ⟨hdlo, hdhi⟩
  have hapart := h₂.chunks_apart hd
  rw [hbase] at hm
  unfold Owner.apart at hapart
  omega

/-- A sheet that is built and given up at once. -/
theorem abandon {st₁ st₂ : Store α} (h64 : c.is64 = true) (h : Inv c st held)
    (hg : Granted c st sz g) (hfit : fits c sz) (hget : st.getKernelChunk c g sz = .ok (m, st₁))
    (hval : kernelChunkValid m = true) (hreg : st₁.sheetRegister c g.node x m = .ok st₂) :
    Inv c (st₂.release c m) held ∧
      Restored c m { st with va := reserveOnce g.va st.va } (st₂.release c m) := by
  obtain ⟨h₂, hent⟩ := h.acquire hg hfit hget hval hreg
  obtain ⟨h₃, hleft⟩ := h₂.leave h64
  have hr := h.reserve hg
  generalize ({ st with va := reserveOnce g.va st.va } : Store α) = st' at hent hr
  have hin : ∀ p, st₂.vaContains c p = st'.vaContains c p := fun p => vaContains_congr hent.base p
  have hindex : st₂.owners.blockIndex c m.ptr = st'.owners.blockIndex c m.ptr := by
    unfold Owners.blockIndex owners
    rw [hent.base]
  refine ⟨h₃, hleft.base.trans hent.base, ?_, ?_, ?_, ?_⟩
  · rw [hleft.table, hent.table, hin, hindex]
    by_cases hc : st'.vaContains c m.ptr = true
    · rw [if_pos hc, if_pos hc]
      funext i
      simp only [fill_apply]
      split_ifs with hgran
      · exact (hr.unnamed h₂ hent.base hc hgran.1 hgran.2).symm
      · rfl
    · rw [if_neg hc, if_neg hc]
  · have hperm := hleft.ranges
    rw [hin] at hperm
    by_cases hc : st'.vaContains c m.ptr = true
    · rw [if_pos hc] at hperm
      rcases hent.ranges with heq | ⟨hout, -⟩
      · rw [← heq]
        exact hperm
      · rw [hout] at hc
        cases hc
    · rw [if_neg hc] at hperm
      refine hperm.trans ?_
      rcases hent.ranges with heq | ⟨-, hadd⟩
      · -- the sheet was not tracked
        have hout : st₂.vaContains c m.ptr = false := by
          rw [hin, ← Bool.not_eq_true]
          exact hc
        have hpair := h₂.outside
        rw [List.filter_cons_of_pos (by simp [hout])] at hpair
        have hmapped := hent.mapped
        rw [if_neg hc] at hmapped
        have hapart := h₂.apart
        rw [hmapped] at hapart
        obtain ⟨-, hpos, -⟩ := h₂.mapped m (hpair.mem_iff.1 List.mem_cons_self)
        rw [heq, List.erase_of_not_mem (hr.untracked hpos (List.pairwise_cons.1 hapart).1 _)]
      · have herase := hadd.erase (m.ptr, m.ptr + m.len)
        rw [List.erase_cons_head] at herase
        exact herase
  · rw [hleft.mapped, hent.mapped, hin]
    split_ifs with hc
    · rfl
    · rw [List.erase_cons_head]
  · intro hc
    have hin₂ := (hin m.ptr).trans hc
    obtain ⟨hpos, hle, -, -⟩ := h₂.carved_spec List.mem_cons_self hin₂
    refine ⟨⟨m.ptr - st₂.va.base, c.granules m.len⟩, ?_, ?_, ?_⟩
    · rw [hleft.runs, if_pos hin₂]
      simp
    · have := (vaContains_iff.1 hin₂).2.1
      rw [← hent.base]
      simp only
      omega
    · exact c.granules_mul hle (h₂.whole m List.mem_cons_self hin₂)

end Inv

end Store
end AbcMalloc.Arena
