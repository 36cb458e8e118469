import AbcMalloc.Arena.TierRuns

/-! What an expansion does in every run: with `true` the tier has one sheet more, with `false` it
is as before. -/
namespace AbcMalloc.Arena
open Function Foundation Owner
open Va (VaConfig VaState reserveOnce)

namespace Process

theorem exists_ok_of_any {ε β : Type} {x : Except ε β} {t : β → Bool}
    (h : x.toOption.any t = true) : ∃ r, x = .ok r ∧ t r = true := by
  cases x with
  | error e => cases h
  | ok r => exact ⟨r, rfl, h⟩

def largeTier : Growing Buddy.Heap Unit where
  params := TierId.large.params
  sizeofSheet := 64
  sizeofSheet_pos := by decide
  release := Store.release Va.va64
  va := Va.va64
  wide := rfl
  arena := ()
  metaGuard := 4096
  metaGuard_le := le_rfl
  metaPair := 96
  release_eq := rfl

/-- A system that gives a reservation at 2^40 and then commits nothing of it. -/
def refusing (st : Store Unit) : Va.Kernel where
  reserve := if ∀ m ∈ st.mapped, apart (2 ^ 40) Va.va64.reservation m.ptr m.len then 2 ^ 40 else 0
  commit _ _ := false

/-- That system, with the address `a` for one other request. -/
def grantAt (a : ℕ) : Answers Unit := fun st sz =>
  { va := refusing st
    alloc := some (if st.mapped.length < 16 ∧ a + sz ≤ 2 ^ 47 ∧
      ((reserveOnce (refusing st) st.va).base = 0 ∨
        a + sz ≤ (reserveOnce (refusing st) st.va).base) ∧
      ∀ m ∈ st.mapped, apart a sz m.ptr m.len then a else 0)
    node := true
    mem := .zero
    tags := fun _ => 0 }

theorem grantAt_granted (a : ℕ) : (grantAt a).Granted Va.va64 := by
  intro st sz
  refine ⟨fun _ => rfl, fun h => ?_, ?_⟩
  · have hfree : ∀ m ∈ st.mapped, apart (2 ^ 40) Va.va64.reservation m.ptr m.len := by
      by_contra hmeet
      exact h (if_neg hmeet)
    have hat : (grantAt a st sz).va.reserve = 2 ^ 40 := if_pos hfree
    rw [hat]
    exact ⟨by decide, hfree⟩
  · intro p hp hval
    simp only [grantAt, Option.some.injEq] at hp
    split_ifs at hp with hfree
    · subst hp
      obtain ⟨hlen, htop, hbase, hapart⟩ := hfree
      exact ⟨htop, hapart, hbase.imp id .inl, by omega⟩
    · subst hp
      simp [kernelChunkValid] at hval

def oneSheet : Process Buddy.Heap Unit where
  tier :=
    { head := 32768
      tail := 32768
      index := ⟨fun _ => ⟨131072, 262144, 32768⟩, 1, fun _ => 0, 128⟩
      deallocCount := 0
      node := fun q => if q = 32768 then some ⟨32832, 0, 0⟩ else none
      sheet := fun q => if q = 32832 then some ⟨⟨131072, 131072⟩, 0,
        TierId.large.params.format .zero (fun _ => 0) ⟨131072, 131072⟩⟩ else none
      metadata :=
        { tier := ((Tier.fresh Metadata.params).addSheet Metadata.params true 4096 .zero
          (fun _ => 0)
            ⟨65536, 65536⟩).getD (Tier.fresh Metadata.params)
          tail := 65536
          memory := ⟨.null, 0, Metadata.params.format .zero (fun _ => 0) .null⟩ }
      kernel := ⟨.init, fun _ => none, ⟨[], 0⟩, [⟨65536, 65536⟩, ⟨131072, 131072⟩, ⟨32768, 4096⟩]⟩
      unmarked := [] }
  others := [⟨32768, 4096⟩]
  lent := []

theorem oneSheet_metadata : oneSheet.tier.metadata.Inv fun _ => none := by
  have hfresh : (Tier.fresh Metadata.params).Inv Metadata.params Metadata.Rep fun _ => none :=
    ⟨by simp [Tier.fresh, Tier.frames], by simp [Tier.fresh, Tier.frames], by simp [Tier.fresh],
      by simp [Tier.fresh], by simp [Tier.fresh], by simp [Tier.fresh]⟩
  have hadd : (Tier.fresh Metadata.params).addSheet Metadata.params true 4096 .zero (fun _ => 0)
      ⟨65536, 65536⟩ = some oneSheet.tier.metadata.tier := rfl
  obtain ⟨hinv, -, -⟩ := hfresh.addSheet (TierId.buddyTier_formats (by decide) 64 0 false)
    (by decide) (by decide) (by decide) (by decide) (by simp [Tier.fresh, Tier.frames])
    (fun _ _ => rfl) hadd
  exact ⟨hinv, fun p n k hp => by cases hp⟩

theorem oneSheet_sound : oneSheet.Sound largeTier (fun _ => none) [32768] := by
  have hnode : oneSheet.tier.node 32768 = some ⟨32832, 0, 0⟩ := rfl
  have hsheet : oneSheet.tier.sheetOf 32768 = some ⟨⟨131072, 131072⟩, 0,
      TierId.large.params.format .zero (fun _ => 0) ⟨131072, 131072⟩⟩ := by
    unfold Listed.sheetOf
    rw [hnode, Option.bind_some]
    rfl
  constructor
  · constructor
    · exact ⟨[], rfl⟩
    · simp [Listed.prev_eq hnode, Listed.next_eq hnode]
    · rfl
    · simp
    · intro p hp
      rw [List.mem_singleton.1 hp]
      exact ⟨by decide, _, hnode, by decide⟩
    · intro p hp
      rw [List.mem_singleton.1 hp]
      exact ⟨_, hsheet⟩
    · exact .refl _
    · show 1 ≤ TierId.large.params.maxSheets
      decide
    · intro i _ _
      simp [oneSheet, RangeIndex.maskGet, bit]
    · exact oneSheet_metadata
    · intro p hp hne
      exact absurd (List.mem_singleton.1 hp) hne
    · intro p hp hne
      exact absurd (List.mem_singleton.1 hp) hne
  · have hheld :
      oneSheet.tier.metadata.chunks ++ (oneSheet.tier.chunks [32768] ++ oneSheet.others) =
        [⟨65536, 65536⟩, ⟨131072, 131072⟩, ⟨32768, 4096⟩] := by
      have hchunk : Sheet.chunk (⟨⟨131072, 131072⟩, 0,
          TierId.large.params.format .zero (fun _ => 0) ⟨131072, 131072⟩⟩ : Sheet Buddy.Heap) =
          some ⟨131072, 131072⟩ := if_neg (by simp [Sheet.empty])
      have hchunks : oneSheet.tier.chunks [32768] = [⟨131072, 131072⟩] := by
        unfold Listed.chunks
        rw [List.filterMap_cons, hsheet, Option.bind_some, hchunk]
        rfl
      rw [hchunks]
      rfl
    rw [hheld]
    have hbase : oneSheet.tier.kernel.va.base = 0 := rfl
    constructor
    · exact ⟨[], Va.Conserved.init _⟩
    · intro m _ hin
      exact absurd hbase (Store.vaContains_iff.1 hin).1
    · exact .refl _
    · decide
    · intro m hm
      have hall : ∀ m ∈ oneSheet.tier.kernel.mapped, m.ptr ≠ 0 ∧ 0 < m.len ∧
          m.ptr + m.len ≤ 2 ^ 47 := by decide
      obtain ⟨h₁, h₂, h₃⟩ := hall m hm
      exact ⟨h₁, h₂, h₃, .inl hbase⟩
    · decide
    · exact fun hb => absurd hbase hb
    · exact fun g hg => absurd rfl hg
    · rfl
    · exact List.nodup_nil
    · intro r hr
      cases hr
  · exact ⟨_, List.mem_singleton_self _, by decide, by decide⟩
  · intro n hn
    obtain rfl := Option.some.inj (hnode.symm.trans hn)
    exact ⟨_, List.mem_singleton_self _, by decide, by decide⟩
  · intro q hq
    cases hq
  · exact List.nodup_nil

section
variable {σ α : Type} {G : Growing σ α} {k : Answers α} {U : Active} {P P' : Process σ α}
  {events : List (Event σ α)} {l : List ℕ} {b' : Listed σ (Store α)} {sz : ℕ}

/-- After any run, an expansion that returns false leaves no trace. The index with its bitmap and
its last hit, the list, its tail and every sheet are as before; the block that the metadata gave is
free again, so the same blocks are out as before; and the tables are as they were when the block
was taken: the reservation gave no run (what it could not commit is lost) and the system no chunk,
or the tier was full and the chunk is back with its granules, its range and its run. -/
theorem failed_expansion_leaves_no_trace (hmax : G.params.maxSheets ≤ 2 ^ 32 - 64)
    (h : P.Sound G U l) (hrun : Runs G P events P') (hk : k.Granted G.va)
    (hexp : Store.fits G.va (Listed.pageRound sz) ∧
        P'.tier.expandTlsf G k sz = .ok (false, b') ∨
      Store.fits G.va ((sz + G.params.guard) % 2 ^ 64) ∧
        P'.tier.expandBuddy G k sz = .ok (false, b')) :
    ∃ U' l', P'.Sound G U' l' ∧ Sound G U' l' { P' with tier := b' } ∧
      b'.index = P'.tier.index ∧ b'.head = P'.tier.head ∧ b'.tail = P'.tier.tail ∧
      b'.deallocCount = P'.tier.deallocCount ∧
      (∀ q ∈ l', b'.node q = P'.tier.node q ∧ b'.sheetOf q = P'.tier.sheetOf q) ∧
      ∃ buf md st, P'.tier.metadata.markArena G k P'.tier.kernel (sizeofNode + G.sizeofSheet) =
          .ok (buf, md, st) ∧ U' buf.ptr = none ∧ b'.unmarked = P'.tier.unmarked ++ [buf.ptr] ∧
        Listed.Relinquished G.va (G.params.maxSheets ≤ P'.tier.index.count) st b'.kernel := by
  obtain ⟨U', l', h'⟩ := h.run hmax hrun
  obtain ⟨bytes, hfit, hexp⟩ : ∃ bytes, Store.fits G.va bytes ∧
      P'.tier.expand G k bytes = .ok (false, b') := by
    rcases hexp with hexp | hexp
    · exact ⟨_, hexp⟩
    · exact ⟨_, hexp⟩
  obtain ⟨p, n, c, md, st, hmark, hU, -, hout⟩ := h'.outcome hmax hk hfit hexp
  cases hout with
  | undone tier linked node sheetOf frames tables back =>
    refine ⟨U', l', h', h'.undone hU tier linked node sheetOf frames tables, tier.index, tier.head,
      tier.tail, tier.deallocCount, ?_, ⟨p, c⟩, md, st, hmark, hU, tier.unmarked, back⟩
    intro q hq
    exact ⟨node q hq, sheetOf q hq⟩

/-- A refused chunk, after another tier got one. -/
theorem failed_expansion_leaves_no_trace_refused : ∃ P' b',
    Runs largeTier oneSheet [.takeChunk (grantAt (2 ^ 30)) 4096 ()] P' ∧
      P'.tier.expandBuddy largeTier (grantAt 0) 65536 = .ok (false, b') ∧
      b'.index = P'.tier.index ∧ b'.tail = P'.tier.tail := by
  have hstep : (oneSheet.apply largeTier (.takeChunk (grantAt (2 ^ 30)) 4096 ())).toOption.any
      (fun P => (P.tier.expandBuddy largeTier (grantAt 0) 65536).toOption.any fun r => !r.1) =
        true := by decide +kernel
  obtain ⟨P', happ, hfail⟩ := exists_ok_of_any hstep
  obtain ⟨⟨r, b'⟩, hexp, hr⟩ := exists_ok_of_any hfail
  rw [Bool.not_eq_true'] at hr
  obtain rfl : r = false := hr
  have hrun : Runs largeTier oneSheet [.takeChunk (grantAt (2 ^ 30)) 4096 ()] P' := by
    refine .cons ⟨grantAt_granted _, by decide⟩ ?_ (.nil P')
    rw [happ]
    rfl
  obtain ⟨-, -, -, -, hindex, -, htail, -⟩ := failed_expansion_leaves_no_trace
    (Listed.maxSheets_le .large) oneSheet_sound hrun (grantAt_granted 0) (.inr ⟨by decide, hexp⟩)
  exact ⟨P', b', hrun, hexp, hindex, htail⟩

/-- After any run, an expansion that returns true adds one sheet: there was room for it, its node
is the new tail, its range is in the index, and its chunk lies apart from every other chunk of the
process. The other sheets keep their books and their chunks. -/
theorem expansion_adds_one_sheet (hmax : G.params.maxSheets ≤ 2 ^ 32 - 64)
    (h : P.Sound G U l) (hrun : Runs G P events P') (hk : k.Granted G.va)
    (hexp : Store.fits G.va (Listed.pageRound sz) ∧
        P'.tier.expandTlsf G k sz = .ok (true, b') ∨
      Store.fits G.va ((sz + G.params.guard) % 2 ^ 64) ∧
        P'.tier.expandBuddy G k sz = .ok (true, b')) :
    ∃ U' l' p len sh, P'.Sound G U' l' ∧ P'.tier.index.count < G.params.maxSheets ∧
      U' p = none ∧ p ∉ l' ∧
      Sound G (update U' p (some (len, false))) (l' ++ [p]) { P' with tier := b' } ∧
      b'.sheetOf p = some sh ∧ b'.index.sheets.Perm
        ((⟨sh.addr, sh.addrEnd, p⟩, true) :: P'.tier.index.sheets) ∧
      (∀ q ∈ l', b'.sheetOf q = P'.tier.sheetOf q) ∧
      ∀ d ∈ b'.metadata.chunks ++ (P'.tier.chunks l' ++ P'.others),
        apart sh.mem.ptr sh.mem.len d.ptr d.len := by
  obtain ⟨U', l', h'⟩ := h.run hmax hrun
  obtain ⟨bytes, hfit, hexp⟩ : ∃ bytes, Store.fits G.va bytes ∧
      P'.tier.expand G k bytes = .ok (true, b') := by
    rcases hexp with hexp | hexp
    · exact ⟨_, hexp⟩
    · exact ⟨_, hexp⟩
  obtain ⟨p, n, c, md, st, -, hU, hp, hout⟩ := h'.outcome hmax hk hfit hexp
  cases hout with
  | grown st' sh hsh tier tables =>
    refine ⟨U', l', p, n, sh, h', tier.room, hU, hp, h'.grown hU hsh tier tables, tier.new, ?_,
      tier.sheetOf, ?_⟩
    · have hroom : P'.tier.index.count < G.params.maxSheets := tier.room
      have hins := RangeIndex.registerSheet_inserted hroom ⟨sh.addr, sh.addrEnd, p⟩
      rw [tier.index, hins.sheets_eq hmax hroom]
      simp only [RangeIndex.SheetList.apply]
      rw [if_neg (by rw [P'.tier.index.length_sheets]; omega)]
      exact List.perm_orderedInsert _ _ _
    · intro d hd
      apply tables.chunks_apart
      rw [tier.metadata] at hd
      exact hd

end

theorem expansion_adds_one_sheet_first : ∃ b' U l p,
    oneSheet.tier.expandBuddy largeTier (grantAt (2 ^ 30)) 65536 = .ok (true, b') ∧
      Sound largeTier U (l ++ [p]) { oneSheet with tier := b' } := by
  have hstep : (oneSheet.tier.expandBuddy largeTier (grantAt (2 ^ 30)) 65536).toOption.any
      (fun r => r.1) = true := by decide +kernel
  obtain ⟨⟨r, b'⟩, hexp, hr⟩ := exists_ok_of_any hstep
  obtain rfl : r = true := hr
  obtain ⟨U, l, p, len, sh, -, -, -, -, hgrown, -⟩ := expansion_adds_one_sheet
    (Listed.maxSheets_le .large) oneSheet_sound (.nil _) (grantAt_granted (2 ^ 30))
    (.inr ⟨by decide, hexp⟩)
  exact ⟨b', _, l, p, hexp, hgrown⟩

end Process

/-! ## The chunks of a process -/

namespace Store
variable {α : Type} {c : VaConfig} {st : Store α} {held : List Chunk} {m : Chunk} {r : Va.FreeRun}

theorem Inv.pairwise (h : Inv c st held) :
    held.Pairwise fun m d => Owner.apart m.ptr m.len d.ptr d.len := by
  rw [List.pairwise_iff_forall_sublist]
  intro m d hsub
  obtain ⟨rest, hperm⟩ := hsub.exists_perm_append
  exact (h.perm hperm).chunks_apart (by simp)

theorem Inv.free_apart (h : Inv c st held) (hr : r ∈ st.va.runs) (hm : m ∈ held)
    (hin : st.vaContains c m.ptr = true) :
    Owner.apart (st.va.base + r.off) (r.granules * c.sheetAlign) m.ptr m.len := by
  obtain ⟨h₁, h₂, -, -⟩ := h.carved_spec hm hin
  have hle := (vaContains_iff.1 hin).2.1
  have hlen := Table.roundUp_self h₂ (h.whole m hm hin)
  have hmem : m ∈ held.filter fun m => st.vaContains c m.ptr := List.mem_filter.2 ⟨hm, hin⟩
  have hrpos := h.carved.run_pos hr
  by_contra hmeet
  unfold Owner.apart at hmeet
  -- a point in both would be counted twice
  obtain ⟨x, hrx, hrx', hmx, hmx'⟩ : ∃ x, r.off ≤ x ∧ x < r.off + r.granules * c.sheetAlign ∧
      m.ptr - st.va.base ≤ x ∧ x < m.ptr - st.va.base + m.len :=
    ⟨max r.off (m.ptr - st.va.base), by omega, by omega, by omega, by omega⟩
  have hpoint := h.carved.free hmem hr x
  have hrun : r.hits c x = 1 := hits_eq_one hrx hrx'
  rw [hlen, hits_eq_one hmx hmx', hrun] at hpoint
  omega

theorem Inv.named_within (h : Inv c st held) {i : ℕ} (hi : st.table i ≠ none) : ∃ m ∈ held,
    m.ptr ≤ st.va.base + i * c.sheetAlign ∧ st.va.base + i * c.sheetAlign < m.ptr + m.len := by
  obtain ⟨m, hm, hin, hlo, hhi⟩ := h.named i hi
  exact ⟨m, hm, (h.granule_iff hm hin i).1 ⟨hlo, hhi⟩⟩

end Store

namespace Process
variable {σ α : Type} {G : Growing σ α} {U : Active} {P P' : Process σ α}
  {events : List (Event σ α)} {l : List ℕ}

/-- The tier grows, its sheets drain, are swept or are reset, and other tiers come and go: the
chunks of all sheets, those of the metadata among them, never overlap; none of them meets a free
run of the reservation, or it is one of the mappings; and the owner table names no granule outside
of them. -/
theorem chunks_stay_apart (hmax : G.params.maxSheets ≤ 2 ^ 32 - 64) (h : P.Sound G U l)
    (hrun : Runs G P events P') :
    ∃ l', (P'.tier.index.sheets.map fun e => e.1.nd).Perm l' ∧
      (P'.tier.metadata.chunks ++ (P'.tier.chunks l' ++ P'.others)).Pairwise
        (fun m d => apart m.ptr m.len d.ptr d.len) ∧
      (∀ m ∈ P'.tier.metadata.chunks ++ (P'.tier.chunks l' ++ P'.others),
        if P'.tier.kernel.vaContains G.va m.ptr then ∀ r ∈ P'.tier.kernel.va.runs,
          apart (P'.tier.kernel.va.base + r.off) (r.granules * G.va.sheetAlign) m.ptr m.len
        else m ∈ P'.tier.kernel.mapped) ∧
      ∀ i, P'.tier.kernel.table i ≠ none →
        ∃ m ∈ P'.tier.metadata.chunks ++ (P'.tier.chunks l' ++ P'.others),
          m.ptr ≤ P'.tier.kernel.va.base + i * G.va.sheetAlign ∧
          P'.tier.kernel.va.base + i * G.va.sheetAlign < m.ptr + m.len := by
  obtain ⟨U', l', h'⟩ := h.run hmax hrun
  refine ⟨l', h'.linked.indexed, h'.tables.pairwise, ?_, fun i hi => h'.tables.named_within hi⟩
  intro m hm
  split_ifs with hin
  · exact fun r hr => h'.tables.free_apart hr hm hin
  · rw [Bool.not_eq_true] at hin
    exact h'.tables.mapped_spec hm hin

theorem chunks_stay_apart_two : ∃ P', Runs largeTier oneSheet
    [.expand (grantAt (2 ^ 30)) 65536] P' ∧
    P'.tier.index.count = 2 ∧ ∃ l', (P'.tier.index.sheets.map fun e => e.1.nd).Perm l' ∧
      (P'.tier.metadata.chunks ++ (P'.tier.chunks l' ++ P'.others)).Pairwise
        fun m d => apart m.ptr m.len d.ptr d.len := by
  have hstep : (oneSheet.apply largeTier (.expand (grantAt (2 ^ 30)) 65536)).toOption.any
      (fun P => P.tier.index.count = 2) = true := by decide +kernel
  obtain ⟨P', happ, hcount⟩ := exists_ok_of_any hstep
  have hrun : Runs largeTier oneSheet [.expand (grantAt (2 ^ 30)) 65536] P' := by
    refine .cons ⟨grantAt_granted _, by decide⟩ ?_ (.nil P')
    rw [happ]
    rfl
  obtain ⟨l', hperm, hpair, -⟩ := chunks_stay_apart (Listed.maxSheets_le .large) oneSheet_sound hrun
  exact ⟨P', hrun, of_decide_eq_true hcount, l', hperm, hpair⟩

end Process
end AbcMalloc.Arena
