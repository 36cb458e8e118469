import AbcMalloc.Arena.Rollback

/-! A tier in its process: runs in which it grows and gives sheets back while other tiers take and
return blocks of the metadata and chunks of the kernel. -/
namespace AbcMalloc.Arena
open Function Foundation Owner
open Va (VaConfig VaState reserveOnce)

def Sheet.chunk {σ : Type*} (s : Sheet σ) : Option Chunk := if s.empty then none else some s.mem

namespace Listed

section
variable {σ κ : Type} (S : SheetType σ κ)

/-- `__try_reclaim_empty` on the sheet at a position of the index. -/
def tryReclaimEmpty (b : Listed σ κ) (i : ℕ) : Except Halt (Listed σ κ) := do
  let nd := (b.index.idx i).nd
  let n ← b.readNode nd
  let sh ← b.readSheet n.nd
  if sh.used S.params = 0 ∧ nd ≠ b.head then b.giveBack S i nd n.nd else .ok b

/-- `__tombstone_accounting`; `interval` is `__default_tombstone_sweep_interval`. -/
def tombstoneAccounting (interval : ℕ) (b : Listed σ κ) (i : ℕ) : Except Halt (Listed σ κ) := do
  let nd := (b.index.idx i).nd
  let n ← b.readNode nd
  let sh ← b.readSheet n.nd
  if nd ≠ b.head ∧ sh.reclaimable S.params then b.giveBack S i nd n.nd
  else if interval = 0 then .ok b
  else
    let b := { b with deallocCount := (b.deallocCount + 1) % 2 ^ 32 }
    if interval ≤ b.deallocCount then b.sweepTierTombstones S else .ok b

def resetPage (b : Listed σ κ) (i : ℕ) : Except Halt (Listed σ κ) := do
  let n ← b.readNode (b.index.idx i).nd
  b.resetSheet S n.nd

/-- The book of the sheet at a position of the index changes. -/
def serve (b : Listed σ κ) (i : ℕ) (book : σ) : Except Halt (Listed σ κ) := do
  let n ← b.readNode (b.index.idx i).nd
  let sh ← b.readSheet n.nd
  .ok { b with sheet := update b.sheet n.nd (some { sh with book := book }) }

def chunks (b : Listed σ κ) (l : List ℕ) : List Chunk :=
  l.filterMap fun p => (b.sheetOf p).bind Sheet.chunk

end
end Listed

/-- A tier and what else the process has: the chunks of other sheets and of objects such as the
arena itself, and the blocks of the metadata that are out for other tiers. -/
structure Process (σ α : Type) where
  tier : Listed σ (Store α)
  others : List Chunk
  lent : List ℕ

inductive Event (σ α : Type)
  | expand (k : Answers α) (bytes : ℕ)
  | tryReclaimEmpty (i : ℕ)
  | tombstoneAccounting (interval i : ℕ)
  | sweepTierTombstones
  | resetPage (i : ℕ)
  | serve (i : ℕ) (book : σ)
  | hit (i : ℕ)
  | markAvailable (i : ℕ)
  | markExhausted (i : ℕ)
  /-- Another tier gets a sheet, of the arena `x`. -/
  | takeChunk (k : Answers α) (sz : ℕ) (x : α)
  | dropChunk (d : Chunk)
  /-- Another tier takes a block of the metadata. -/
  | markArena (k : Answers α) (sz : ℕ)
  | unmarkFromArena (q : ℕ)

namespace Process
variable {σ α : Type} (G : Growing σ α)

/-- What is needed for an event: positions are those of sheets, the answers are possible ones, no
request makes the cursor wrap, and nobody gives back what he does not have, nor the chunks in which
the head and its sheet lie. -/
def Allowed (P : Process σ α) : Event σ α → Prop
  | .expand k sz | .takeChunk k sz _ => k.Granted G.va ∧ Store.fits G.va sz
  | .markArena k _ => k.Granted G.va
  | .tryReclaimEmpty i | .tombstoneAccounting _ i | .resetPage i | .serve i _ | .hit i
  | .markAvailable i | .markExhausted i => i < P.tier.index.count
  | .sweepTierTombstones => True
  | .dropChunk d => d ∈ P.others ∧ Listed.Housed (P.others.erase d) P.tier.head ∧
      ∀ n, P.tier.node P.tier.head = some n → Listed.Housed (P.others.erase d) n.nd
  | .unmarkFromArena q => q ∈ P.lent

/-- The event; an abort ends the run. -/
def apply (P : Process σ α) : Event σ α → Except Halt (Process σ α)
  | .expand k bytes => do
    let (_, b) ← P.tier.expand G k bytes
    .ok { P with tier := b }
  | .tryReclaimEmpty i => do
    let b ← P.tier.tryReclaimEmpty G.toSheetType i
    .ok { P with tier := b }
  | .tombstoneAccounting interval i => do
    let b ← P.tier.tombstoneAccounting G.toSheetType interval i
    .ok { P with tier := b }
  | .sweepTierTombstones => do
    let b ← P.tier.sweepTierTombstones G.toSheetType
    .ok { P with tier := b }
  | .resetPage i => do
    let b ← P.tier.resetPage G.toSheetType i
    .ok { P with tier := b }
  | .serve i book => do
    let b ← P.tier.serve i book
    .ok { P with tier := b }
  | .hit i => .ok { P with tier.index.lastHit := i }
  | .markAvailable i => .ok { P with tier.index := P.tier.index.markAvailable i }
  | .markExhausted i => .ok { P with tier.index := P.tier.index.markExhausted i }
  | .takeChunk k sz x => do
    let g := k P.tier.kernel sz
    let (mem, st) ← P.tier.kernel.getKernelChunk G.va g sz
    if kernelChunkValid mem then do
      let st ← st.sheetRegister G.va g.node x mem
      .ok { P with tier.kernel := st, others := mem :: P.others }
    else .ok { P with tier.kernel := st }
  | .dropChunk d =>
    .ok { P with tier.kernel := P.tier.kernel.release G.va d, others := P.others.erase d }
  | .markArena k sz => do
    let (buf, metadata, st) ← P.tier.metadata.markArena G k P.tier.kernel sz
    .ok { P with
      tier.metadata := metadata
      tier.kernel := st
      lent := buf.ptr :: P.lent }
  | .unmarkFromArena q => do
    let metadata ← P.tier.metadata.unmarkFromArena q
    .ok { P with tier.metadata := metadata, lent := P.lent.erase q }

abbrev Runs : Process σ α → List (Event σ α) → Process σ α → Prop :=
  Run (Allowed G) fun P e => (apply G P e).toOption

/-- The tier, the metadata and the tables describe the same nodes, blocks and chunks. -/
structure Sound (U : Active) (l : List ℕ) (P : Process σ α) : Prop where
  linked : P.tier.Linked G.toSheetType U l
  tables : P.tier.kernel.Inv G.va (P.tier.metadata.chunks ++ (P.tier.chunks l ++ P.others))
  head : Listed.Housed P.others P.tier.head
  home : ∀ n, P.tier.node P.tier.head = some n → Listed.Housed P.others n.nd
  lent : ∀ q ∈ P.lent, q ∉ l ∧ ∃ n, U q = some (n, false)
  nodup : P.lent.Nodup

end Process

/-! ## How a sheet goes -/

namespace Listed
section
variable {σ κ : Type} {S : SheetType σ κ} {U : Active} {b b' b₁ : Listed σ κ} {l : List ℕ}
  {p q z i : ℕ} {n m : Node} {sh : Sheet σ} {f : Node → Node}

structure Relinked (b b' : Listed σ κ) : Prop where
  sheet : b'.sheet = b.sheet
  metadata : b'.metadata = b.metadata
  kernel : b'.kernel = b.kernel
  node : ∀ q, (b'.node q).map Node.nd = (b.node q).map Node.nd

theorem Relinked.refl (b : Listed σ κ) : Relinked b b := ⟨rfl, rfl, rfl, fun _ => rfl⟩

theorem Relinked.trans (h : Relinked b b₁) (h' : Relinked b₁ b') : Relinked b b' :=
  ⟨h'.sheet.trans h.sheet, h'.metadata.trans h.metadata, h'.kernel.trans h.kernel,
    fun q => (h'.node q).trans (h.node q)⟩

theorem writeNode_relinked (h : b.writeNode p f = .ok b') (hf : ∀ n, (f n).nd = n.nd) :
    Relinked b b' := by
  unfold writeNode at h
  cases hn : b.node p with
  | none =>
    rw [hn] at h
    cases h
  | some n =>
    rw [hn] at h
    cases h
    refine ⟨rfl, rfl, rfl, ?_⟩
    intro q
    by_cases hq : q = p
    · subst hq
      simp [hn, hf]
    · simp only
      rw [update_of_ne hq]

theorem unlinkNode_relinked (h : b.unlinkNode p = .ok b') : Relinked b b' := by
  unfold unlinkNode at h
  obtain ⟨b₁, h₁, h⟩ := ok_of_bind h
  obtain ⟨b₂, h₂, h₃⟩ := ok_of_bind h
  have hfirst : Relinked b b₁ := by
    unfold unlinkPrev at h₁
    obtain ⟨n, -, h₁⟩ := ok_of_bind h₁
    split_ifs at h₁
    · exact writeNode_relinked h₁ fun _ => rfl
    · cases h₁
      exact .refl b
  have hsecond : Relinked b₁ b₂ := by
    unfold unlinkNext at h₂
    obtain ⟨n, -, h₂⟩ := ok_of_bind h₂
    split_ifs at h₂
    · exact writeNode_relinked h₂ fun _ => rfl
    · cases h₂
      exact .refl b₁
  refine (hfirst.trans hsecond).trans ?_
  unfold unlinkTail at h₃
  split_ifs at h₃
  · obtain ⟨n, -, h₃⟩ := ok_of_bind h₃
    cases h₃
    exact ⟨rfl, rfl, rfl, fun _ => rfl⟩
  · cases h₃
    exact .refl _

/-- What a sheet that goes does to the tables and to the nodes that stay. -/
theorem giveBack_frame (h : b.Linked S U l) (hp : p ∈ l) (hne : p ≠ b.head)
    (hsh : b.sheet z = some sh) (hgive : b.giveBack S i p z = .ok b') :
    b'.kernel = (if sh.empty then b.kernel else S.release b.kernel sh.mem) ∧
      b'.metadata.chunks = b.metadata.chunks ∧
      ∀ q m, b'.node q = some m → ∃ n, b.node q = some n ∧ n.nd = m.nd := by
  obtain ⟨-, len, hU, -⟩ := h.block p hp hne
  obtain ⟨t, hunmark, hframes, -⟩ := h.metadata.unmark hU
  unfold giveBack at hgive
  obtain ⟨b₁, hreset, hgive⟩ := ok_of_bind hgive
  obtain ⟨b₂, hunlink, hgive⟩ := ok_of_bind hgive
  have hre := unlinkNode_relinked hunlink
  have hb₁ : b₁.metadata = b.metadata ∧ b₁.node = b.node ∧
      b₁.kernel = if sh.empty then b.kernel else S.release b.kernel sh.mem := by
    unfold resetSheet readSheet at hreset
    rw [hsh] at hreset
    simp only [bind, Except.bind] at hreset
    split_ifs at hreset with hempty
    · cases hreset
      exact ⟨rfl, rfl, (if_pos hempty).symm⟩
    · cases hreset
      exact ⟨rfl, rfl, (if_neg hempty).symm⟩
  obtain ⟨hmeta, hnode, hkernel⟩ := hb₁
  unfold unmarkFromArena at hgive
  simp only [hre.metadata, hmeta, hunmark, bind, Except.bind, Except.ok.injEq] at hgive
  subst hgive
  refine ⟨hre.kernel.trans hkernel, ?_, ?_⟩
  · unfold Metadata.chunks
    simp only
    rw [hframes]
  · intro q m hm
    simp only at hm
    split_ifs at hm
    have hmap := hre.node q
    rw [hm, hnode, Option.map_some] at hmap
    obtain ⟨n, hn, hnd⟩ := Option.map_eq_some_iff.1 hmap.symm
    exact ⟨n, hn, hnd⟩

theorem readNode_of_ok (h : b.readNode p = .ok n) : b.node p = some n := by
  unfold readNode at h
  cases hn : b.node p with
  | none =>
    rw [hn] at h
    cases h
  | some m =>
    rw [hn] at h
    cases h
    rfl

theorem sweepAt_cases (h : b.sweepAt S i = .ok b') : b' = b ∨ ∃ n,
    b.node (b.index.idx i).nd = some n ∧ (b.index.idx i).nd ≠ b.head ∧
      b.giveBack S i (b.index.idx i).nd n.nd = .ok b' := by
  unfold sweepAt at h
  simp only at h
  split_ifs at h with hnull
  · cases h
    exact .inl rfl
  · obtain ⟨n, hn, h⟩ := ok_of_bind h
    split_ifs at h with hskip
    · cases h
      exact .inl rfl
    · obtain ⟨sh, -, h⟩ := ok_of_bind h
      split_ifs at h with hused hts
      · cases h
        exact .inl rfl
      · exact .inr ⟨n, readNode_of_ok hn, fun he => hskip (.inr he), h⟩
      · cases h
        exact .inl rfl

/-- The sheets of two nodes are not the same. -/
theorem Linked.sheet_ne (h : b.Linked S U l) (hp : p ∈ l) (hq : q ∈ l) (hne : p ≠ q)
    (hn : b.node p = some n) (hm : b.node q = some m) : n.nd ≠ m.nd := by
  have hpos := S.sizeofSheet_pos
  by_cases hph : p = b.head
  · have hqh : q ≠ b.head := fun he => hne (hph.trans he.symm)
    have hout := (h.outside hq hqh hp hne hn).2
    have hnd : m.nd = q + sizeofNode := by simpa [hm] using (h.block q hq hqh).1
    omega
  · have hout := (h.outside hp hph hq hne.symm hm).2
    have hnd : n.nd = p + sizeofNode := by simpa [hn] using (h.block p hp hph).1
    omega

/-! ## The chunks of a tier -/

theorem chunks_congr
    (h : ∀ q ∈ l, (b'.sheetOf q).bind Sheet.chunk = (b.sheetOf q).bind Sheet.chunk) :
    b'.chunks l = b.chunks l := List.filterMap_congr h

theorem chunks_perm (hl : l.Nodup) (hp : p ∈ l) : (b.chunks l).Perm
    (((b.sheetOf p).bind Sheet.chunk).toList ++ b.chunks (l.filter (· ≠ p))) := by
  have hfilter : l.filter (· ≠ p) = l.erase p := by
    rw [hl.erase_eq_filter]
    apply List.filter_congr
    intro q _
    by_cases hq : q = p
    · simp [hq]
    · simp [hq]
  have hperm := (List.perm_cons_erase hp).filterMap fun p => (b.sheetOf p).bind Sheet.chunk
  rw [hfilter]
  unfold chunks
  refine hperm.trans ?_
  rw [List.filterMap_cons]
  cases (b.sheetOf p).bind Sheet.chunk with
  | none => exact .refl _
  | some c => exact .refl _

end
end Listed

/-! ## One event -/

namespace Process
section
variable {σ α : Type} {G : Growing σ α} {k : Answers α} {U : Active} {P P' : Process σ α}
  {l : List ℕ} {b' : Listed σ (Store α)} {p i bytes : ℕ} {n : Node} {r : Bool}

theorem housed_append (l₁ : List Chunk) {l₂ : List Chunk} {a : ℕ} (h : Listed.Housed l₂ a) :
    Listed.Housed (l₁ ++ l₂) a := by
  obtain ⟨d, hd, ha⟩ := h
  exact ⟨d, List.mem_append_right _ hd, ha⟩

theorem Sound.outcome (hmax : G.params.maxSheets ≤ 2 ^ 32 - 64) (h : P.Sound G U l)
    (hk : k.Granted G.va) (hfit : Store.fits G.va bytes)
    (hexp : P.tier.expand G k bytes = .ok (r, b')) :
    ∃ p n c md st, P.tier.metadata.markArena G k P.tier.kernel (sizeofNode + G.sizeofSheet) =
        .ok (⟨p, c⟩, md, st) ∧ U p = none ∧ p ∉ l ∧
      Listed.Outcome G (update U p (some (n, false))) l (md.chunks ++ (P.tier.chunks l ++ P.others))
        p st { P.tier with metadata := md, kernel := st } b' r :=
  Listed.expand_outcome hmax hk hfit h.linked h.tables (housed_append _ h.head)
    (fun n hn => housed_append _ (h.home n hn)) hexp

theorem home_of_kept {others : List Chunk} {b b' : Listed σ (Store α)} (hhead : b'.head = b.head)
    (hkept : ∀ m, b'.node b.head = some m → ∃ n, b.node b.head = some n ∧ n.nd = m.nd)
    (h : ∀ n, b.node b.head = some n → Listed.Housed others n.nd) :
    ∀ n, b'.node b'.head = some n → Listed.Housed others n.nd := by
  intro m hm
  rw [hhead] at hm
  obtain ⟨n, hn, hnd⟩ := hkept m hm
  rw [← hnd]
  exact h n hn

theorem Sound.not_lent (h : P.Sound G U l) (hU : U p = none) : ∀ q ∈ P.lent, q ≠ p := by
  intro q hq he
  obtain ⟨-, n, hn⟩ := h.lent q hq
  rw [he, hU] at hn
  cases hn

theorem Sound.grown {len : ℕ} {md : Metadata} {st st' : Store α} {sh : Sheet σ} (h : P.Sound G U l)
    (hU : U p = none) (hsh : sh.empty = false)
    (tier : Listed.Grown G (update U p (some (len, false))) l p sh st'
      { P.tier with metadata := md, kernel := st } b')
    (tables : st'.Inv G.va (sh.mem :: (md.chunks ++ (P.tier.chunks l ++ P.others)))) :
    Sound G (update U p (some (len, false))) (l ++ [p]) { P with tier := b' } := by
  have hchunk : sh.chunk = some sh.mem := if_neg (by simp [hsh])
  have hchunks : b'.chunks (l ++ [p]) = P.tier.chunks l ++ [sh.mem] := by
    unfold Listed.chunks
    rw [List.filterMap_append, List.filterMap_cons, tier.new, Option.bind_some, hchunk]
    refine congrArg₂ _ (List.filterMap_congr ?_) rfl
    intro q hq
    rw [tier.sheetOf q hq]
    rfl
  refine ⟨tier.linked, ?_, ?_, home_of_kept tier.head ?_ h.home, ?_, h.nodup⟩
  · show b'.kernel.Inv G.va (b'.metadata.chunks ++ (b'.chunks (l ++ [p]) ++ P.others))
    rw [tier.kernel, tier.metadata, hchunks]
    apply tables.perm
    rw [List.append_assoc, List.singleton_append, ← List.append_assoc, ← List.append_assoc]
    exact List.perm_middle.symm
  · show Listed.Housed P.others b'.head
    rw [tier.head]
    exact h.head
  · exact tier.node _ h.linked.head_mem
  · intro q hq
    obtain ⟨hql, n', hn'⟩ := h.lent q hq
    have hne := h.not_lent hU q hq
    refine ⟨?_, n', ?_⟩
    · rw [List.mem_append, List.mem_singleton, not_or]
      exact ⟨hql, hne⟩
    · rw [update_of_ne hne]
      exact hn'

theorem Sound.undone {len : ℕ} {md : Metadata} {st : Store α} (h : P.Sound G U l) (hU : U p = none)
    (tier : Listed.Undone G.toSheetType p { P.tier with metadata := md, kernel := st } b')
    (linked : b'.Linked G.toSheetType (update (update U p (some (len, false))) p none) l)
    (node : ∀ q ∈ l, b'.node q = P.tier.node q)
    (sheetOf : ∀ q ∈ l, b'.sheetOf q = P.tier.sheetOf q)
    (frames : b'.metadata.tier.frames = md.tier.frames)
    (tables : b'.kernel.Inv G.va (md.chunks ++ (P.tier.chunks l ++ P.others))) :
    Sound G U l { P with tier := b' } := by
  have hself : update (update U p (some (len, false))) p none = U := by
    rw [update_idem, ← hU, update_eq_self]
  have hchunks : b'.chunks l = P.tier.chunks l :=
    Listed.chunks_congr fun q hq => by rw [sheetOf q hq]
  refine ⟨hself ▸ linked, ?_, ?_, home_of_kept tier.head ?_ h.home, h.lent, h.nodup⟩
  · show b'.kernel.Inv G.va (b'.metadata.chunks ++ (b'.chunks l ++ P.others))
    rw [hchunks, Metadata.chunks, frames]
    exact tables
  · show Listed.Housed P.others b'.head
    rw [tier.head]
    exact h.head
  · intro m hm
    exact ⟨m, (node _ h.linked.head_mem).symm.trans hm, rfl⟩

theorem Sound.expand (hmax : G.params.maxSheets ≤ 2 ^ 32 - 64) (h : P.Sound G U l)
    (hk : k.Granted G.va) (hfit : Store.fits G.va bytes)
    (hexp : P.tier.expand G k bytes = .ok (r, b')) :
    ∃ U' l', Sound G U' l' { P with tier := b' } := by
  obtain ⟨p, n, c, md, st, -, hU, hp, hout⟩ := h.outcome hmax hk hfit hexp
  cases hout with
  | grown st' sh hsh tier tables => exact ⟨_, _, h.grown hU hsh tier tables⟩
  | undone tier linked node sheetOf frames tables back =>
    exact ⟨U, l, h.undone hU tier linked node sheetOf frames tables⟩

/-- A sheet that goes takes its chunk with it. -/
theorem Sound.giveBack (hmax : G.params.maxSheets ≤ 2 ^ 32 - 64) (h : P.Sound G U l)
    (hi : i < P.tier.index.count) (hp : (P.tier.index.idx i).nd = p) (hne : p ≠ P.tier.head)
    (hn : P.tier.node p = some n)
    (hgive : P.tier.giveBack G.toSheetType i p n.nd = .ok b') :
    Sound G (update U p none) (l.filter (· ≠ p)) { P with tier := b' } ∧
      i ≤ b'.index.count := by
  have hmem : p ∈ l := hp ▸ h.linked.mem hi
  obtain ⟨b₁, hgive', hdrop⟩ := Listed.giveBack_spec hmax h.linked hi hp hne hn
  rw [hgive] at hgive'
  cases hgive'
  obtain ⟨sh, hsh⟩ := h.linked.sheet p hmem
  have hz : P.tier.sheet n.nd = some sh := by
    unfold Listed.sheetOf at hsh
    rw [hn] at hsh
    exact hsh
  obtain ⟨hkernel, hmeta, hkept⟩ := Listed.giveBack_frame h.linked hmem hne hz hgive
  have hchunks : b'.chunks (l.filter (· ≠ p)) = P.tier.chunks (l.filter (· ≠ p)) := by
    apply Listed.chunks_congr
    intro q hq
    obtain ⟨hq, hqp⟩ := List.mem_filter.1 hq
    rw [hdrop.sheetOf q hq (of_decide_eq_true hqp)]
  have hperm := Listed.chunks_perm (b := P.tier) h.linked.nodup hmem
  refine ⟨⟨hdrop.linked, ?_, ?_, home_of_kept hdrop.head (hkept _) h.home, ?_, h.nodup⟩, ?_⟩
  · show b'.kernel.Inv G.va
      (b'.metadata.chunks ++ (b'.chunks (l.filter (· ≠ p)) ++ P.others))
    rw [hkernel, hmeta, hchunks]
    rw [hsh, Option.bind_some, Sheet.chunk] at hperm
    by_cases hempty : sh.empty = true
    · rw [if_pos hempty] at hperm ⊢
      exact h.tables.perm ((hperm.append_right _).append_left _)
    · rw [if_neg hempty] at hperm ⊢
      rw [G.release_eq]
      refine (Store.Inv.leave G.wide (h.tables.perm ?_)).1
      refine ((hperm.append_right _).append_left _).trans ?_
      rw [Option.toList_some, List.append_assoc, List.singleton_append]
      exact List.perm_middle
  · show Listed.Housed P.others b'.head
    rw [hdrop.head]
    exact h.head
  · intro q hq
    obtain ⟨hql, n', hn'⟩ := h.lent q hq
    refine ⟨fun hmem => hql (List.mem_filter.1 hmem).1, n', ?_⟩
    rw [update_of_ne fun he : q = p => hql (he ▸ hmem)]
    exact hn'
  · rw [← b'.index.length_sheets, hdrop.sheets, List.length_eraseIdx, P.tier.index.length_sheets,
      if_pos hi]
    omega

theorem Sound.sweepBelow (hmax : G.params.maxSheets ≤ 2 ^ 32 - 64) : ∀ {i : ℕ} {U : Active}
    {l : List ℕ} {P : Process σ α} {b' : Listed σ (Store α)}, P.Sound G U l →
    i ≤ P.tier.index.count → Listed.sweepBelow G.toSheetType i P.tier = .ok b' →
      ∃ U' l', Sound G U' l' { P with tier := b' } := by
  intro i
  induction i with
  | zero =>
    intro U l P b' h _ hrun
    cases hrun
    exact ⟨U, l, h⟩
  | succ i ih =>
    intro U l P b' h hi hrun
    rw [Listed.sweepBelow] at hrun
    obtain ⟨b₁, hstep, hrun⟩ := ok_of_bind hrun
    rcases Listed.sweepAt_cases hstep with rfl | ⟨n, hn, hne, hgive⟩
    · exact ih h (by omega) hrun
    · obtain ⟨h₁, hcount⟩ := h.giveBack hmax (by omega) rfl hne hn hgive
      exact ih (P := { P with tier := b₁ }) h₁ hcount hrun

theorem Sound.congr_count (h : P.Sound G U l) (n : ℕ) :
    Sound G U l { P with tier.deallocCount := n } :=
  ⟨⟨h.linked.head, h.linked.seg, h.linked.tail, h.linked.nodup, h.linked.node, h.linked.sheet,
    h.linked.indexed, h.linked.count_le, h.linked.clear, h.linked.metadata, h.linked.block,
    h.linked.home⟩, h.tables, h.head, h.home, h.lent, h.nodup⟩

theorem Sound.sweep (hmax : G.params.maxSheets ≤ 2 ^ 32 - 64) (h : P.Sound G U l)
    (hrun : P.tier.sweepTierTombstones G.toSheetType = .ok b') :
    ∃ U' l', Sound G U' l' { P with tier := b' } :=
  Sound.sweepBelow (P := { P with tier.deallocCount := 0 }) hmax (h.congr_count 0) le_rfl hrun

theorem Sound.tryReclaimEmpty (hmax : G.params.maxSheets ≤ 2 ^ 32 - 64) (h : P.Sound G U l)
    (hi : i < P.tier.index.count) (hrun : P.tier.tryReclaimEmpty G.toSheetType i = .ok b') :
    ∃ U' l', Sound G U' l' { P with tier := b' } := by
  unfold Listed.tryReclaimEmpty at hrun
  simp only at hrun
  obtain ⟨n, hn, hrun⟩ := ok_of_bind hrun
  obtain ⟨sh, -, hrun⟩ := ok_of_bind hrun
  split_ifs at hrun with hgone
  · exact ⟨_, _, (h.giveBack hmax hi rfl hgone.2 (Listed.readNode_of_ok hn) hrun).1⟩
  · cases hrun
    exact ⟨U, l, h⟩

theorem Sound.tombstoneAccounting {interval : ℕ} (hmax : G.params.maxSheets ≤ 2 ^ 32 - 64)
    (h : P.Sound G U l) (hi : i < P.tier.index.count)
    (hrun : P.tier.tombstoneAccounting G.toSheetType interval i = .ok b') :
    ∃ U' l', Sound G U' l' { P with tier := b' } := by
  have hcount := h.congr_count ((P.tier.deallocCount + 1) % 2 ^ 32)
  unfold Listed.tombstoneAccounting at hrun
  simp only at hrun
  obtain ⟨n, hn, hrun⟩ := ok_of_bind hrun
  obtain ⟨sh, -, hrun⟩ := ok_of_bind hrun
  split_ifs at hrun with hgone hzero hdue
  · exact ⟨_, _, (h.giveBack hmax hi rfl hgone.1 (Listed.readNode_of_ok hn) hrun).1⟩
  · cases hrun
    exact ⟨U, l, h⟩
  · exact Sound.sweep (P := { P with
      tier.deallocCount := (P.tier.deallocCount + 1) % 2 ^ 32 }) hmax hcount hrun
  · cases hrun
    exact ⟨U, l, hcount⟩

/-- Sheets may change while their chunks stay. -/
theorem Sound.congr_sheet (h : P.Sound G U l) {s : ℕ → Option (Sheet σ)}
    (hs : ∀ q, (P.tier.sheet q).isSome → (s q).isSome)
    (hchunk : ∀ q, (s q).bind Sheet.chunk = (P.tier.sheet q).bind Sheet.chunk) :
    Sound G U l { P with tier.sheet := s } := by
  refine ⟨h.linked.congr_sheet hs, ?_, h.head, h.home, h.lent, h.nodup⟩
  have hchunks : Listed.chunks { P.tier with sheet := s } l = P.tier.chunks l := by
    apply Listed.chunks_congr
    intro q _
    unfold Listed.sheetOf
    simp only [Option.bind_assoc, hchunk]
  show P.tier.kernel.Inv G.va (P.tier.metadata.chunks ++
    (Listed.chunks { P.tier with sheet := s } l ++ P.others))
  rw [hchunks]
  exact h.tables

theorem Sound.serve {book : σ} (h : P.Sound G U l) (hrun : P.tier.serve i book = .ok b') :
    Sound G U l { P with tier := b' } := by
  unfold Listed.serve at hrun
  obtain ⟨n, -, hrun⟩ := ok_of_bind hrun
  obtain ⟨sh, hsh, hrun⟩ := ok_of_bind hrun
  have hsheet : P.tier.sheet n.nd = some sh := by
    unfold Listed.readSheet at hsh
    cases hs : P.tier.sheet n.nd with
    | none =>
      rw [hs] at hsh
      cases hsh
    | some s =>
      rw [hs] at hsh
      cases hsh
      rfl
  cases hrun
  apply h.congr_sheet
  · intro q hq
    by_cases hqz : q = n.nd
    · rw [hqz, update_self]
      rfl
    · rw [update_of_ne hqz]
      exact hq
  · intro q
    by_cases hqz : q = n.nd
    · rw [hqz, update_self, hsheet]
      rfl
    · rw [update_of_ne hqz]

theorem Sound.resetPage (h : P.Sound G U l) (hi : i < P.tier.index.count)
    (hrun : P.tier.resetPage G.toSheetType i = .ok b') :
    Sound G U l { P with tier := b' } := by
  have hmem := h.linked.mem hi
  unfold Listed.resetPage at hrun
  obtain ⟨n, hn, hrun⟩ := ok_of_bind hrun
  have hn := Listed.readNode_of_ok hn
  obtain ⟨sh, hsh⟩ := h.linked.sheet _ hmem
  have hz : P.tier.sheet n.nd = some sh := by
    unfold Listed.sheetOf at hsh
    rw [hn] at hsh
    exact hsh
  unfold Listed.resetSheet Listed.readSheet at hrun
  rw [hz] at hrun
  simp only [bind, Except.bind] at hrun
  split_ifs at hrun with hempty
  · cases hrun
    exact h
  · cases hrun
    have hlinked := h.linked.congr_sheet (k := G.release P.tier.kernel sh.mem)
      (s := update P.tier.sheet n.nd (some { sh with mem := .null })) (by
        intro q hq
        by_cases hqz : q = n.nd
        · rw [hqz, update_self]
          rfl
        · rw [update_of_ne hqz]
          exact hq)
    refine ⟨hlinked, ?_, h.head, h.home, h.lent, h.nodup⟩
    -- the other sheets are not touched
    have hother : Listed.chunks { P.tier with
        kernel := G.release P.tier.kernel sh.mem
        sheet := update P.tier.sheet n.nd (some { sh with mem := .null }) }
          (l.filter (· ≠ (P.tier.index.idx i).nd)) =
        P.tier.chunks (l.filter (· ≠ (P.tier.index.idx i).nd)) := by
      apply Listed.chunks_congr
      intro q hq
      obtain ⟨hq, hne⟩ := List.mem_filter.1 hq
      obtain ⟨-, m, hm, -⟩ := h.linked.node q hq
      have hne' := h.linked.sheet_ne hmem hq (of_decide_eq_true hne).symm hn hm
      unfold Listed.sheetOf
      simp only
      rw [hm, Option.bind_some, Option.bind_some, update_of_ne hne'.symm]
    have hperm := Listed.chunks_perm (b := P.tier) h.linked.nodup hmem
    have hperm' := Listed.chunks_perm (b := { P.tier with
      kernel := G.release P.tier.kernel sh.mem
      sheet := update P.tier.sheet n.nd (some { sh with mem := .null }) }) h.linked.nodup hmem
    have hgone : (Listed.sheetOf { P.tier with
        kernel := G.release P.tier.kernel sh.mem
        sheet := update P.tier.sheet n.nd (some { sh with mem := .null }) }
          (P.tier.index.idx i).nd).bind Sheet.chunk = none := by
      unfold Listed.sheetOf
      simp only
      rw [hn, Option.bind_some, update_self]
      rfl
    rw [hgone, hother, Option.toList_none, List.nil_append] at hperm'
    rw [hsh, Option.bind_some, Sheet.chunk, if_neg hempty, Option.toList_some] at hperm
    simp only
    rw [G.release_eq] at hperm' ⊢
    have htables : P.tier.kernel.Inv G.va (sh.mem :: (P.tier.metadata.chunks ++
        (P.tier.chunks (l.filter (· ≠ (P.tier.index.idx i).nd)) ++ P.others))) := by
      refine h.tables.perm (((hperm.append_right _).append_left _).trans ?_)
      rw [List.append_assoc, List.singleton_append]
      exact List.perm_middle
    exact (htables.leave G.wide).1.perm ((hperm'.symm.append_right _).append_left _)

theorem Sound.congr_index (h : P.Sound G U l) {x : RangeIndex ℕ} (hidx : x.idx = P.tier.index.idx)
    (hcount : x.count = P.tier.index.count)
    (hclear : ∀ j, x.count ≤ j → x.maskGet j = P.tier.index.maskGet j) :
    Sound G U l { P with tier.index := x } := by
  have hnodes : (x.sheets.map fun e => e.1.nd) = P.tier.index.sheets.map fun e => e.1.nd := by
    apply List.ext_getElem
    · simp [hcount]
    · intro j hj hj'
      simp only [List.getElem_map, RangeIndex.sheets, getElem_toList]
      rw [hidx]
  refine ⟨⟨h.linked.head, h.linked.seg, h.linked.tail, h.linked.nodup, h.linked.node,
    h.linked.sheet,
    ?_, ?_, ?_, h.linked.metadata, h.linked.block, h.linked.home⟩, h.tables, h.head, h.home, h.lent,
    h.nodup⟩
  · simp only
    rw [hnodes]
    exact h.linked.indexed
  · simp only
    rw [hcount]
    exact h.linked.count_le
  · intro j hj hw
    simp only at hj ⊢
    rw [hclear j hj]
    exact h.linked.clear j (by omega) hw

theorem Sound.markAvailable (h : P.Sound G U l) (hi : i < P.tier.index.count) :
    Sound G U l { P with tier.index := P.tier.index.markAvailable i } := by
  apply h.congr_index
  · rfl
  · rfl
  · intro j hj
    have hj : P.tier.index.count ≤ j := hj
    rw [RangeIndex.maskGet_markAvailable, decide_eq_false (by omega), Bool.or_false]

theorem Sound.markExhausted (h : P.Sound G U l) (hi : i < P.tier.index.count) :
    Sound G U l { P with tier.index := P.tier.index.markExhausted i } := by
  apply h.congr_index
  · rfl
  · rfl
  · intro j hj
    have hj : P.tier.index.count ≤ j := hj
    rw [RangeIndex.maskGet_markExhausted, decide_eq_true (by omega), Bool.and_true]

theorem Sound.congr_others (h : P.Sound G U l) {st : Store α} {others : List Chunk}
    (hst : st.Inv G.va (P.tier.metadata.chunks ++ (P.tier.chunks l ++ others)))
    (hhead : Listed.Housed others P.tier.head)
    (hhome : ∀ n, P.tier.node P.tier.head = some n → Listed.Housed others n.nd) :
    Sound G U l { P with tier.kernel := st, others := others } :=
  ⟨h.linked.congr_sheet fun _ hq => hq, hst, hhead, hhome, h.lent, h.nodup⟩

theorem Sound.takeChunk {sz : ℕ} {x : α} (h : P.Sound G U l) (hk : k.Granted G.va)
    (hfit : Store.fits G.va sz)
    (hrun : P.apply G (.takeChunk k sz x) = .ok P') : Sound G U l P' := by
  unfold apply at hrun
  simp only at hrun
  obtain ⟨⟨mem, st⟩, hget, hrun⟩ := ok_of_bind hrun
  simp only at hrun
  split_ifs at hrun with hval
  · obtain ⟨st₂, hreg, hrun⟩ := ok_of_bind hrun
    cases hrun
    obtain ⟨hst, -⟩ := h.tables.acquire (hk _ _) hfit hget hval hreg
    apply h.congr_others
    · apply hst.perm
      rw [← List.append_assoc, ← List.append_assoc]
      exact List.perm_middle.symm
    · exact housed_append [mem] h.head
    · exact fun n hn => housed_append [mem] (h.home n hn)
  · cases hrun
    apply h.congr_others _ h.head h.home
    rcases h.tables.getKernelChunk_cases (hk _ _) hfit hget with ⟨-, hnone, rfl⟩ | ⟨hyes, -⟩ |
      ⟨hyes, -⟩
    · exact (h.tables.carve (hk _ sz) hfit hnone).2
    · exact absurd hyes hval
    · exact absurd hyes hval

theorem Sound.dropChunk {d : Chunk} (h : P.Sound G U l) (hok : P.Allowed G (.dropChunk d)) :
    Sound G U l { P with
      tier.kernel := P.tier.kernel.release G.va d
      others := P.others.erase d } := by
  obtain ⟨hd, hhead, hhome⟩ := hok
  refine h.congr_others (Store.Inv.leave G.wide (h.tables.perm ?_)).1 hhead hhome
  refine (((List.perm_cons_erase hd).append_left _).append_left _).trans ?_
  rw [← List.append_assoc, ← List.append_assoc]
  exact List.perm_middle

theorem Sound.markArena {sz : ℕ} (h : P.Sound G U l) (hk : k.Granted G.va)
    (hrun : P.apply G (.markArena k sz) = .ok P') : ∃ U', Sound G U' l P' := by
  unfold apply at hrun
  simp only at hrun
  obtain ⟨⟨buf, md, st⟩, hmark, hrun⟩ := ok_of_bind hrun
  cases hrun
  obtain ⟨n, -, -, hU, hsize, hmd, hst⟩ :=
    Metadata.retryMark_spec hk h.linked.metadata h.tables hmark
  have hself : update U buf.ptr (some (n, false)) buf.ptr = some (n, false) := update_self _ _ _
  have hne : ∀ q, U q ≠ none → q ≠ buf.ptr := by
    intro q hq he
    rw [he] at hq
    exact hq hU
  have hlent : ∀ q ∈ P.lent, q ≠ buf.ptr := by
    intro q hq
    obtain ⟨-, m, hm⟩ := h.lent q hq
    exact hne q (by rw [hm]; simp)
  have hblock : ∀ q ∈ l, q ≠ P.tier.head → q ≠ buf.ptr := by
    intro q hq hqh
    obtain ⟨-, len, hlen, -⟩ := h.linked.block q hq hqh
    exact hne q (by rw [hlen]; simp)
  have hhead : buf.ptr ≠ P.tier.head := by
    intro he
    apply Listed.not_housed hmd hst hself (housed_append (P.tier.chunks l) h.head)
    exact ⟨he.le, by omega⟩
  refine ⟨update U buf.ptr (some (n, false)), ?_, hst, h.head, h.home, ?_, ?_⟩
  · exact h.linked.congr_metadata hmd fun q hq hqh => update_of_ne (hblock q hq hqh) _ _
  · intro q hq
    rcases List.mem_cons.1 hq with rfl | hq
    · refine ⟨?_, n, hself⟩
      intro hmem
      by_cases he : buf.ptr = P.tier.head
      · exact hhead he
      · exact hblock _ hmem he rfl
    · obtain ⟨hql, m, hm⟩ := h.lent q hq
      exact ⟨hql, m, by rw [update_of_ne (hlent q hq)]; exact hm⟩
  · rw [List.nodup_cons]
    exact ⟨fun hmem => hlent _ hmem rfl, h.nodup⟩

theorem Sound.unmarkFromArena {q : ℕ} (h : P.Sound G U l) (hq : q ∈ P.lent)
    (hrun : P.apply G (.unmarkFromArena q) = .ok P') : ∃ U', Sound G U' l P' := by
  obtain ⟨hql, n, hn⟩ := h.lent q hq
  obtain ⟨t, hunmark, hframes, hinv⟩ := h.linked.metadata.unmark hn
  unfold apply at hrun
  simp only [hunmark, bind, Except.bind, Except.ok.injEq] at hrun
  subst hrun
  refine ⟨update U q none, ?_, ?_, h.head, h.home, ?_, h.nodup.erase q⟩
  · exact h.linked.congr_metadata hinv fun p hp _ =>
      update_of_ne (fun he : p = q => hql (he ▸ hp)) _ _
  · simp only
    have hchunks : Metadata.chunks { P.tier.metadata with tier := t } = P.tier.metadata.chunks := by
      unfold Metadata.chunks
      simp only
      rw [hframes]
    rw [hchunks]
    exact h.tables
  · intro p hp
    obtain ⟨hne, hp⟩ := (h.nodup.mem_erase_iff).1 hp
    obtain ⟨hpl, m, hm⟩ := h.lent p hp
    exact ⟨hpl, m, by rw [update_of_ne hne]; exact hm⟩

/-- What one event preserves. -/
theorem Sound.step (hmax : G.params.maxSheets ≤ 2 ^ 32 - 64) {e : Event σ α} (h : P.Sound G U l)
    (hok : P.Allowed G e) (hstep : P.apply G e = .ok P') : ∃ U' l', P'.Sound G U' l' := by
  cases e with
  | expand k bytes =>
    obtain ⟨⟨r, b⟩, hexp, hret⟩ := ok_of_bind hstep
    cases hret
    exact h.expand hmax hok.1 hok.2 hexp
  | tryReclaimEmpty i =>
    obtain ⟨b, hrun, hret⟩ := ok_of_bind hstep
    cases hret
    exact h.tryReclaimEmpty hmax hok hrun
  | tombstoneAccounting interval i =>
    obtain ⟨b, hrun, hret⟩ := ok_of_bind hstep
    cases hret
    exact h.tombstoneAccounting hmax hok hrun
  | sweepTierTombstones =>
    obtain ⟨b, hrun, hret⟩ := ok_of_bind hstep
    cases hret
    exact h.sweep hmax hrun
  | resetPage i =>
    obtain ⟨b, hrun, hret⟩ := ok_of_bind hstep
    cases hret
    exact ⟨U, l, h.resetPage hok hrun⟩
  | serve i book =>
    obtain ⟨b, hrun, hret⟩ := ok_of_bind hstep
    cases hret
    exact ⟨U, l, h.serve hrun⟩
  | hit i =>
    cases hstep
    exact ⟨U, l, h.congr_index rfl rfl fun _ _ => rfl⟩
  | markAvailable i =>
    cases hstep
    exact ⟨U, l, h.markAvailable hok⟩
  | markExhausted i =>
    cases hstep
    exact ⟨U, l, h.markExhausted hok⟩
  | takeChunk k sz x => exact ⟨U, l, h.takeChunk hok.1 hok.2 hstep⟩
  | dropChunk d =>
    cases hstep
    exact ⟨U, l, h.dropChunk hok⟩
  | markArena k sz =>
    obtain ⟨U', h'⟩ := h.markArena hok hstep
    exact ⟨U', l, h'⟩
  | unmarkFromArena q =>
    obtain ⟨U', h'⟩ := h.unmarkFromArena hok hstep
    exact ⟨U', l, h'⟩

/-- What every run preserves. -/
theorem Sound.run (hmax : G.params.maxSheets ≤ 2 ^ 32 - 64) {events : List (Event σ α)}
    (h : P.Sound G U l) (hrun : Runs G P events P') : ∃ U' l', P'.Sound G U' l' := by
  refine hrun.invariant (fun P => ∃ U l, P.Sound G U l) ?_ ⟨U, l, h⟩
  rintro Q e Q' ⟨U, l, hQ⟩ hok hstep
  cases happ : Q.apply G e with
  | error err =>
    rw [happ] at hstep
    cases hstep
  | ok Q₁ =>
    rw [happ] at hstep
    cases hstep
    exact hQ.step hmax hok happ

end
end Process
end AbcMalloc.Arena
