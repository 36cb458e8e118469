import AbcMalloc.Arena.Aligned

/-! Runs of clients that hold aligned blocks: plain operations of an arena, `aligned_balloc`,
writes into the aligned chunks and `aligned_free`. -/
namespace AbcMalloc.Arena
open Function Foundation

/-- A pointer from `aligned_balloc`, the block underneath, and the length that was reported. -/
structure Cut where
  ptr : ℕ
  raw : ℕ
  len : ℕ

structure Desk where
  world : World
  cuts : List Cut

inductive Act
  | plain (op : Op)
  | alignedBalloc (alignment size : ℕ) (gs : List Grant)
  /-- Overwrite the `i`-th cell of the aligned chunk at `p`. -/
  | write (p i : ℕ) (c : Cell)
  | alignedFree (p : ℕ) (env : Env)

def alignedTotal (alignment size : ℕ) : ℕ := size + (alignment - 1 + 16)

namespace Desk

def init (a : Tiers) : Desk := ⟨.init a, []⟩

def step (cfg : Config) (d : Desk) : Act → Except Halt Desk
  | .plain op => do
    let w ← d.world.step cfg op
    .ok ⟨w, d.cuts⟩
  | .alignedBalloc alignment size gs => do
    match ← Arena.alignedBalloc cfg d.world.arena alignment size gs with
    | (none, a) => .ok ⟨{ d.world with arena := a }, d.cuts⟩
    | (some c, a) =>
      match prefixOf a c.ptr with
      | none => .error .undefined
      | some (raw, _) =>
        .ok ⟨d.world.receive cfg false (.ofSize (rzInflate cfg (alignedTotal alignment size)))
          ⟨raw, c.len + (c.ptr - raw)⟩ a, ⟨c.ptr, raw, c.len⟩ :: d.cuts⟩
  | .write p i c =>
    .ok ⟨{ d.world with arena := writeCell d.world.arena (p + 32 * i) fun _ => c }, d.cuts⟩
  | .alignedFree p env => do
    match ← Arena.alignedFree cfg env d.world.arena p with
    | (none, a) => .ok ⟨{ d.world with arena := a }, d.cuts⟩
    | (some q, a) => .ok ⟨d.world.release q (true, a), d.cuts.filter fun c => c.ptr ≠ p⟩

def next (cfg : Config) (d : Desk) (act : Act) : Option Desk := (d.step cfg act).toOption

/-- Clients free and write what they hold: blocks under an aligned pointer are not named, writes
stay in the chunk, and only aligned pointers go to `aligned_free`, with an intact canary. -/
def Legal (cfg : Config) (d : Desk) : Act → Prop
  | .plain op => d.world.Legal op ∧ Regular cfg d.world op ∧ (∀ g ∈ op.grants, g.Paged) ∧
      ∀ c ∈ d.cuts, op.names ≠ some c.raw
  | .alignedBalloc alignment _ gs => nativeAlignment cfg < alignment ∧ Mapped d.world.arena gs ∧
      ∀ g ∈ gs, g.Paged
  | .write p i _ => ∃ c ∈ d.cuts, c.ptr = p ∧ 32 * i < c.len
  | .alignedFree p env => ∃ c ∈ d.cuts, c.ptr = p ∧ env.intact c.raw = true

/-- Where `aligned_free` takes the right way. -/
def Clear (cfg : Config) (env : Env) (a : Tiers) (p : ℕ) : Prop :=
  env.owned (p - 16) = true ∧ env.external p = false ∧ Quiet cfg a p

def Spared (cfg : Config) (d : Desk) : Act → Prop
  | .alignedFree p env => Clear cfg env d.world.arena p
  | _ => True

end Desk

/-! ## Requests -/

section Requests
variable {cfg : Config} {a a' : Tiers} {alignment size raw len : ℕ} {gs : List Grant}
  {o : Option Chunk}

theorem dvd_alignment (hpow : alignment &&& (alignment - 1) = 0)
    (hlt : nativeAlignment cfg < alignment) : 32 ∣ alignment := by
  have hlow : 16 < alignment := by
    unfold nativeAlignment at hlt
    split_ifs at hlt <;> omega
  obtain ⟨k, rfl⟩ := (Nat.and_sub_one_eq_zero_iff_isPowerOfTwo (by omega)).1 hpow
  have hk : 5 ≤ k := by
    by_contra hk
    have := Nat.pow_le_pow_right (show 0 < 2 by norm_num) (show k ≤ 4 by omega)
    omega
  exact pow_dvd_pow 2 hk

/-- The aligned pointer leaves room for the prefix and for the request. -/
theorem alignedPtr_spec (hpos : 0 < alignment) (hlen : alignedTotal alignment size ≤ len)
    (htop : raw + len < 2 ^ 64) : alignment ∣ alignedPtr alignment raw ∧
      raw + 16 ≤ alignedPtr alignment raw ∧ alignedPtr alignment raw + size ≤ raw + len := by
  unfold alignedTotal at hlen
  have h₁ : (raw + 16) % 2 ^ 64 = raw + 16 := Nat.mod_eq_of_lt (by omega)
  have h₂ : (raw + 16 + alignment - 1) % 2 ^ 64 = raw + 16 + alignment - 1 :=
    Nat.mod_eq_of_lt (by omega)
  have hp : alignedPtr alignment raw = (raw + 16 + alignment - 1) / alignment * alignment := by
    rw [alignedPtr, h₁, Tlsf.alignUp, h₂, Tlsf.alignDown]
  have hdiv := Nat.div_add_mod (raw + 16 + alignment - 1) alignment
  have hmod := Nat.mod_lt (raw + 16 + alignment - 1) hpos
  rw [Nat.mul_comm, ← hp] at hdiv
  refine ⟨?_, by omega, by omega⟩
  rw [hp]
  exact dvd_mul_left _ _

theorem alignedBalloc_cases (hlt : nativeAlignment cfg < alignment)
    (hrun : alignedBalloc cfg a alignment size gs = .ok (o, a')) :
    (o = none ∧ a' = a) ∨
      (o = none ∧ push cfg a (alignedTotal alignment size) gs = .ok (none, a')) ∨
      ∃ u a₁, push cfg a (alignedTotal alignment size) gs = .ok (some u, a₁) ∧
        32 ∣ alignment ∧ 0 < size ∧
        o = some ⟨alignedPtr alignment u.ptr, u.len - (alignedPtr alignment u.ptr - u.ptr)⟩ ∧
        a' = writeCell a₁ (alignedPtr alignment u.ptr - 32) fun c =>
          { c with w2 := u.ptr, w3 := alignedPtr alignment u.ptr ^^^ u.ptr } := by
  unfold alignedBalloc at hrun
  by_cases hbad : alignment = 0 ∨ alignment &&& (alignment - 1) ≠ 0 ∨ size = 0
  · simp only [if_pos hbad, Except.ok.injEq, Prod.mk.injEq] at hrun
    exact Or.inl ⟨hrun.1.symm, hrun.2.symm⟩
  rw [if_neg hbad, if_neg (show ¬alignment ≤ nativeAlignment cfg by omega)] at hrun
  by_cases hbig : 2 ^ 64 ≤ alignment - 1 + 16 ∨ 2 ^ 64 ≤ size + (alignment - 1 + 16)
  · simp only [if_pos hbig, Except.ok.injEq, Prod.mk.injEq] at hrun
    exact Or.inl ⟨hrun.1.symm, hrun.2.symm⟩
  · right
    simp only [if_neg hbig] at hrun
    push Not at hbad
    obtain ⟨-, hpow, hsize⟩ := hbad
    have hballoc : balloc cfg a (size + (alignment - 1 + 16)) gs =
        push cfg a (alignedTotal alignment size) gs := if_neg (by omega)
    rw [hballoc] at hrun
    cases hpush : push cfg a (alignedTotal alignment size) gs with
    | error x =>
      rw [hpush] at hrun
      exact absurd hrun (by simp [bind, Except.bind])
    | ok r =>
      obtain ⟨u, a₁⟩ := r
      rw [hpush] at hrun
      cases u with
      | none =>
        simp only [bind, Except.bind, Except.ok.injEq, Prod.mk.injEq] at hrun
        left
        rw [← hrun.2]
        exact ⟨hrun.1.symm, rfl⟩
      | some u =>
        simp only [bind, Except.bind, Except.ok.injEq, Prod.mk.injEq] at hrun
        exact Or.inr ⟨u, a₁, rfl, dvd_alignment hpow hlt, by omega, hrun.1.symm, hrun.2.symm⟩

end Requests

/-! ## Invariant -/

/-- The block `b` under an aligned pointer is held, and the prefix names it. -/
structure Cut.Stands (cfg : Config) (w : World) (U : Active) (c : Cut) (h : Held) (t : TierId)
    (b n : ℕ) : Prop where
  live : w.live c.raw = some h
  plain : h.temporal = false
  handle : Handle cfg w.arena U c.raw h t b n
  inside : Inside c.raw h.len c.ptr
  room : c.ptr + c.len ≤ c.raw + h.len
  names : AllEntries (Reads b (c.ptr - 32) (c.raw, c.ptr ^^^ c.raw)) w.arena

structure Desk.Good (cfg : Config) (d : Desk) (U : Active) : Prop where
  sound : Sound cfg d.world U
  grid : AllEntries Gridded d.world.arena
  stands : ∀ c ∈ d.cuts, ∃ h t b n, c.Stands cfg d.world U h t b n
  raw_inj : ∀ c ∈ d.cuts, ∀ c' ∈ d.cuts, c.raw = c'.raw → c = c'

section Invariant
variable {cfg : Config} {d d' : Desk} {w w' : World} {U U' : Active} {c : Cut} {t : TierId}
  {h : Held} {q b n j : ℕ}

theorem Cut.Stands.cell (hs : c.Stands cfg w U h t b n) (hgrid : AllEntries Gridded w.arena)
    (hI : Inv w.arena U) : ∃ j, c.ptr - 32 = b + 32 * j ∧ 32 * j + 64 ≤ n - 32 := by
  obtain ⟨j, hp, hj⟩ := hs.handle.cell hgrid hI hs.inside
  exact ⟨j, by omega, hj⟩

/-- It keeps standing where the block is still held and the prefix is still there. -/
theorem Cut.Stands.congr (hs : c.Stands cfg w U h t b n) (hlive : w'.live c.raw = some h)
    (hh : Handle cfg w'.arena U' c.raw h t b n)
    (hr : AllEntries (Reads b (c.ptr - 32) (c.raw, c.ptr ^^^ c.raw)) w'.arena) :
    c.Stands cfg w' U' h t b n :=
  ⟨hlive, hs.plain, hh, hs.inside, hs.room, hr⟩

/-- The prefix is no cell of another block. -/
theorem Cut.Stands.apart {h' : Held} {s : TierId} {b' n' : ℕ} (hs : c.Stands cfg w U h t b n)
    (hgrid : AllEntries Gridded w.arena) (hI : Inv w.arena U)
    (hh : Handle cfg w.arena U q h' s b' n') (hne : c.raw ≠ q) (hj : 32 * j + 32 ≤ n' - 32) :
    c.ptr - 32 ≠ b' + 32 * j := by
  obtain ⟨i, hi, hin⟩ := hs.cell hgrid hI
  have hbb : b ≠ b' := by
    rintro rfl
    exact hne (hs.handle.ptr_unique hI hh)
  rcases hI.blocks_disjoint hs.handle.active hh.active hbb with h₁ | h₁ <;> omega

namespace Desk.Good

/-- A step of the arena that names no block under an aligned pointer. -/
theorem plain (hG : Good cfg d U) {op : Op} (hlegal : d.world.Legal op)
    (hreg : Regular cfg d.world op) (hpaged : ∀ g ∈ op.grants, g.Paged)
    (hnames : ∀ c ∈ d.cuts, op.names ≠ some c.raw) (hstep : d.world.step cfg op = .ok w') :
    ∃ U', Good cfg ⟨w', d.cuts⟩ U' ∧ HeldOn cfg (fun q => op.names = some q) d.world U w' U' := by
  obtain ⟨U', hS, hkeep⟩ := hG.sound.step_keeps hlegal hreg hstep
  have hgrid := hG.sound.step_gridded hlegal hreg hpaged hG.grid hstep
  refine ⟨U', ⟨hS, hgrid, ?_, hG.raw_inj⟩, hkeep⟩
  intro c hc
  obtain ⟨h, t, b, n, hs⟩ := hG.stands c hc
  obtain ⟨hlive, hh⟩ := hkeep hs.live hs.plain hs.handle (hnames c hc)
  obtain ⟨j, hx, hj⟩ := hs.cell hG.grid hG.sound.inv
  refine ⟨h, t, b, n, hs.congr hlive hh ?_⟩
  have hr := hs.names
  rw [hx] at hr ⊢
  exact hG.sound.step_reads hlegal hreg hs.handle (hnames c hc) (by omega) hr hstep

theorem rehome {cuts : List Cut} {a : Tiers} {live : ℕ → Option Held}
    {home : ℕ → Option (TierId × ℕ)} (hG : Good cfg ⟨⟨a, live, home⟩, cuts⟩ U)
    (home' : ℕ → Option (TierId × ℕ)) : Good cfg ⟨⟨a, live, home'⟩, cuts⟩ U where
  sound := ⟨hG.sound.inv, hG.sound.held⟩
  grid := hG.grid
  stands c hc := by
    obtain ⟨h, t, b, n, hs⟩ := hG.stands c hc
    exact ⟨h, t, b, n, hs.congr hs.live hs.handle hs.names⟩
  raw_inj := hG.raw_inj

theorem put (hG : Good cfg d U) (hh : Handle cfg d.world.arena U q h t b n)
    (hj : 32 * j + 32 ≤ n - 32) (hx : ∀ c ∈ d.cuts, c.ptr - 32 ≠ b + 32 * j) (v : Cell) :
    Good cfg ⟨{ d.world with arena := store cfg d.world.arena q j v }, d.cuts⟩ U := by
  have hu := hh.untouched_store hG.sound.inv hj v
  have hgrows : Grows d.world.arena (store cfg d.world.arena q j v) :=
    .of_frames fun s => hu.frames s
  have hkeep : HeldOn cfg (fun _ => False) d.world U
      { d.world with arena := store cfg d.world.arena q j v } U :=
    heldOn_idle (fun _ => hu.caches.parked.1) hgrows
  have hR : Robust (fun _ => False) Gridded U [] :=
    robust_gridded fun g hg => absurd hg List.not_mem_nil
  refine ⟨hG.sound.idle hu.inv (fun _ => hu.caches.parked.1) hgrows, ?_, ?_, hG.raw_inj⟩
  · exact hR.write hG.sound.inv (fun _ _ => rfl) hh id hj v hG.grid
  · intro c hc
    obtain ⟨h', s, b', n', hs⟩ := hG.stands c hc
    obtain ⟨hlive, hh'⟩ := hkeep hs.live hs.plain hs.handle id
    refine ⟨h', s, b', n', hs.congr hlive hh' ?_⟩
    obtain ⟨i, hi, hin⟩ := hs.cell hG.grid hG.sound.inv
    have hr := hs.names
    rw [hi] at hr ⊢
    by_cases hbb : b' = b
    · subst hbb
      exact hh.reads_store hG.sound.inv v (fun hxj => absurd (hi.trans hxj) (hx c hc)) fun _ => hr
    · exact hh.reads_store_other hG.sound.inv hj v hs.handle hbb (by omega) hr

theorem write (hG : Good cfg d U) (hc : c ∈ d.cuts) {i : ℕ} (hi : 32 * i < c.len) (v : Cell) :
    Good cfg ⟨{ d.world with arena := writeCell d.world.arena (c.ptr + 32 * i) fun _ => v },
      d.cuts⟩ U := by
  obtain ⟨h, t, b, n, hs⟩ := hG.stands c hc
  obtain ⟨j, hp, hj⟩ := hs.handle.cell hG.grid hG.sound.inv hs.inside
  obtain ⟨hb, hn⟩ := hs.handle.grid hG.grid hG.sound.inv
  have hwithin := hs.handle.within
  have hle := le_userPtr cfg t b
  rw [← hs.handle.ptr] at hle
  have hroom := hs.room
  have hcell : 32 * (j + 1 + i) + 32 ≤ n - 32 := by omega
  obtain ⟨-, hw⟩ := hs.handle.writeCell hG.sound.inv hcell fun _ => v
  rw [show c.ptr + 32 * i = b + 32 * (j + 1 + i) by omega, hw]
  apply hG.put hs.handle hcell
  intro c' hc'
  obtain ⟨h', s, b', n', hs'⟩ := hG.stands c' hc'
  by_cases hraw : c'.raw = c.raw
  · -- the prefix of the chunk itself lies in front of it
    obtain rfl := hG.raw_inj c' hc' c hc hraw
    omega
  · exact hs'.apart hG.grid hG.sound.inv hs.handle hraw hcell

/-- A block is cut: its prefix is written, and the aligned pointer stands. -/
theorem cut (hG : Good cfg d U) (hlive : d.world.live q = some h) (hplain : h.temporal = false)
    (hh : Handle cfg d.world.arena U q h t b n) {p : ℕ} (hin : Inside q h.len p)
    (hnew : ∀ c ∈ d.cuts, c.raw ≠ q) {a' : Tiers}
    (ha' : a' = writeCell d.world.arena (p - 32) fun c => { c with w2 := q, w3 := p ^^^ q }) :
    prefixOf a' p = some (q, p ^^^ q) ∧
      Good cfg ⟨{ d.world with arena := a' }, ⟨p, q, h.len - (p - q)⟩ :: d.cuts⟩ U := by
  have hI := hG.sound.inv
  obtain ⟨j, hpj, hj⟩ := hh.cell hG.grid hI hin
  have hcell : 32 * j + 32 ≤ n - 32 := by omega
  obtain ⟨v, hw⟩ := hh.writeCell hI hcell fun c => { c with w2 := q, w3 := p ^^^ q }
  have hx : p - 32 = b + 32 * j := by omega
  rw [hx, hw] at ha'
  subst ha'
  have hu := hh.untouched_store hI hcell { v with w2 := q, w3 := p ^^^ q }
  have hput := hG.put hh hcell (v := { v with w2 := q, w3 := p ^^^ q }) fun c hc => by
    obtain ⟨h', s, b', n', hs⟩ := hG.stands c hc
    exact hs.apart hG.grid hI hh (hnew c hc) hcell
  obtain ⟨f, hf, hfb⟩ := hh.covered
  have hh' := hh.congr rfl ⟨f, by rw [hu.frames]; exact hf, hfb⟩ hu.caches.parked.1
  have hr : AllEntries (Reads b (p - 32) (q, p ^^^ q))
      (store cfg d.world.arena q j { v with w2 := q, w3 := p ^^^ q }) :=
    hh.reads_store hI _ (fun _ => rfl) fun hne => absurd hx hne
  refine ⟨hh'.prefixOf_eq hput.grid hu.inv hin hr, hput.sound, hput.grid, ?_, ?_⟩
  · intro c hc
    rcases List.mem_cons.1 hc with rfl | hc
    · have habove := hin.above
      have hbelow := hin.below
      refine ⟨h, t, b, n, hlive, hplain, hh', hin, ?_, hr⟩
      show p + (h.len - (p - q)) ≤ q + h.len
      omega
    · exact hput.stands c hc
  · intro c hc c' hc' heq
    rcases List.mem_cons.1 hc with rfl | hc <;> rcases List.mem_cons.1 hc' with rfl | hc'
    · rfl
    · exact absurd heq.symm (hnew c' hc')
    · exact absurd heq (hnew c hc)
    · exact hG.raw_inj c hc c' hc' heq

theorem alignedBalloc (hG : Good cfg d U) {alignment size : ℕ} {gs : List Grant}
    (hlt : nativeAlignment cfg < alignment) (hgs : Mapped d.world.arena gs)
    (hpaged : ∀ g ∈ gs, g.Paged)
    (hstep : d.step cfg (.alignedBalloc alignment size gs) = .ok d') : ∃ U', Good cfg d' U' := by
  obtain ⟨w, cuts⟩ := d
  simp only [step, bind, Except.bind] at hstep
  cases hrun : Arena.alignedBalloc cfg w.arena alignment size gs with
  | error x =>
    rw [hrun] at hstep
    exact absurd hstep (by simp)
  | ok r =>
    obtain ⟨o, a'⟩ := r
    simp only [hrun] at hstep
    -- the request is a step of the arena
    have hpush : ∀ {w' : World}, w.step cfg (.push (alignedTotal alignment size) gs) = .ok w' →
        ∃ U', Good cfg ⟨w', cuts⟩ U' ∧
          HeldOn cfg (fun q => (none : Option ℕ) = some q) w U w' U' :=
      fun hw => hG.plain (show w.Legal (.push (alignedTotal alignment size) gs) from hgs) trivial
        hpaged (fun _ _ h => absurd h (by simp [Op.names])) hw
    rcases alignedBalloc_cases hlt hrun with ⟨rfl, rfl⟩ | ⟨rfl, hnone⟩ |
      ⟨u, a₁, hsome, hdvd, hsize, rfl, rfl⟩
    · obtain rfl := Except.ok.inj hstep
      exact ⟨U, hG⟩
    · obtain rfl := Except.ok.inj hstep
      have hstep₁ : w.step cfg (.push (alignedTotal alignment size) gs) =
          .ok { w with arena := a' } := by
        simp [World.step, hnone, bind, Except.bind]
      obtain ⟨U', hG', -⟩ := hpush hstep₁
      exact ⟨U', hG'⟩
    · have hstep₁ : w.step cfg (.push (alignedTotal alignment size) gs) =
          .ok (w.receive cfg false (.ofSize (rzInflate cfg (alignedTotal alignment size))) u
            a₁) := by
        simp [World.step, hsome, bind, Except.bind]
      obtain ⟨U', hG', -⟩ := hpush hstep₁
      obtain ⟨k, U₁, hk, hg⟩ := (push_spec hG.sound.inv cfg hgs).ok hsome
      have hcan := canaries_ofSize cfg (alignedTotal alignment size)
      obtain ⟨t, b, n, hh⟩ := hG'.sound.held (p := u.ptr) (h := ⟨u.len, false⟩) (update_self _ _ _)
      -- the block is large enough for the prefix and the request
      have hlen : alignedTotal alignment size ≤ u.len := by
        have henough := hg.enough rfl
        have hle := le_rzInflate cfg (alignedTotal alignment size)
        rw [hk]
        unfold rzApply
        split_ifs
        · exact le_rfl
        · exact le_trans (by omega) henough
      have htop : u.ptr + u.len < 2 ^ 64 := by
        obtain ⟨f, hf, -, -, hhi⟩ := hh.frame hG'.sound.inv
        have hgood := (hG'.sound.inv.tiers t).good f hf
        have h₁ := hgood.hi_le
        have h₂ := hgood.top
        have hwithin := hh.within
        dsimp only at hwithin
        omega
      obtain ⟨hal, hlo, hhi⟩ := alignedPtr_spec (by omega) hlen htop
      have hin : Inside u.ptr u.len (alignedPtr alignment u.ptr) := ⟨hdvd.trans hal, hlo, by omega⟩
      have hnew : ∀ c ∈ cuts, c.raw ≠ u.ptr := by
        intro c hc
        obtain ⟨h', s, b', n', hs⟩ := hG.stands c hc
        rw [hk]
        exact (hg.keeps_held hG.sound.inv hcan (by simp) hs.handle hs.plain).1
      obtain ⟨hpre, hcut⟩ := hG'.cut (update_self _ _ _) rfl hh hin hnew rfl
      have hlen' : u.len - (alignedPtr alignment u.ptr - u.ptr) +
          (alignedPtr alignment u.ptr - u.ptr) = u.len := by omega
      dsimp only [World.receive] at hpre hcut
      simp only [hpre, hlen', Except.ok.injEq] at hstep
      subst hstep
      exact ⟨U', hcut.rehome _⟩

theorem alignedFree (hG : Good cfg d U) (hc : c ∈ d.cuts) {env : Env}
    (hintact : env.intact c.raw = true) (hclear : Clear cfg env d.world.arena c.ptr)
    (hstep : d.step cfg (.alignedFree c.ptr env) = .ok d') : ∃ U', Good cfg d' U' := by
  obtain ⟨h, t, b, n, hs⟩ := hG.stands c hc
  obtain ⟨howned, hext, hquiet⟩ := hclear
  have hI := hG.sound.inv
  obtain ⟨a', U', hfree, hpop, hF⟩ := hs.handle.alignedFree_eq hG.grid hI hs.plain hs.inside
    hs.names hintact howned hext hquiet
  simp only [step, hfree, bind, Except.bind, Except.ok.injEq] at hstep
  subst hstep
  have hR : Robust (fun _ => False) Gridded U [] :=
    robust_gridded fun g hg => absurd hg List.not_mem_nil
  refine ⟨U', hG.sound.release hs.handle hF, ?_, ?_, ?_⟩
  · exact hR.pop hI (fun _ _ => rfl) hs.handle id hG.grid hpop
  · intro c' hc'
    obtain ⟨hc', hne⟩ := List.mem_filter.1 hc'
    have hne := of_decide_eq_true hne
    have hraw : c'.raw ≠ c.raw := fun heq => hne (by rw [hG.raw_inj c' hc' c hc heq])
    obtain ⟨h', s, b', n', hs'⟩ := hG.stands c' hc'
    obtain ⟨hlive, hh⟩ := heldOn_release hI hs.handle hF hs'.live hs'.plain hs'.handle hraw
    refine ⟨h', s, b', n', hs'.congr hlive hh ?_⟩
    have hbb : b ≠ b' := by
      rintro rfl
      exact hraw (hs'.handle.ptr_unique hI hs.handle)
    obtain ⟨j, hx, hj⟩ := hs'.cell hG.grid hI
    have hr := hs'.names
    rw [hx] at hr ⊢
    have hW : Robust (fun y => y = b') (Worded b' n' (b' + 32 * j) (c'.raw, c'.ptr ^^^ c'.raw)) U
        [] := robust_worded hs'.handle.active (by omega) fun g hg => absurd hg List.not_mem_nil
    have hworded := hW.pop hI (fun _ _ => rfl) hs.handle hbb
      (worded_of_reads hI hs'.handle.active hr) hpop
    exact fun s e he hcov => (hworded s e he hcov).1
  · intro c₁ hc₁ c₂ hc₂
    exact hG.raw_inj c₁ (List.mem_filter.1 hc₁).1 c₂ (List.mem_filter.1 hc₂).1

theorem step (hG : Good cfg d U) {act : Act} (hlegal : d.Legal cfg act)
    (hspared : d.Spared cfg act) (hstep : d.step cfg act = .ok d') : ∃ U', Good cfg d' U' := by
  cases act with
  | plain op =>
    obtain ⟨hop, hreg, hpaged, hnames⟩ := hlegal
    simp only [Desk.step, bind, Except.bind] at hstep
    cases hw : d.world.step cfg op with
    | error x =>
      rw [hw] at hstep
      exact absurd hstep (by simp)
    | ok w =>
      rw [hw] at hstep
      obtain rfl := Except.ok.inj hstep
      obtain ⟨U', hG', -⟩ := hG.plain hop hreg hpaged hnames hw
      exact ⟨U', hG'⟩
  | alignedBalloc alignment size gs =>
    obtain ⟨hlt, hgs, hpaged⟩ := hlegal
    exact hG.alignedBalloc hlt hgs hpaged hstep
  | write p i v =>
    obtain ⟨c, hc, rfl, hi⟩ := hlegal
    obtain rfl := Except.ok.inj hstep
    exact ⟨U, hG.write hc hi v⟩
  | alignedFree p env =>
    obtain ⟨c, hc, rfl, hintact⟩ := hlegal
    exact hG.alignedFree hc hintact hspared hstep

end Desk.Good

end Invariant

/-! ## Concrete runs -/

instance (g : Grant) : Decidable g.Paged := inferInstanceAs (Decidable (4096 ∣ g.chunk.ptr))

instance (cfg : Config) (env : Env) (a : Tiers) (p : ℕ) : Decidable (Desk.Clear cfg env a p) :=
  inferInstanceAs (Decidable (_ ∧ _ ∧ Quiet cfg a p))

instance (cfg : Config) (d : Desk) (act : Act) : Decidable (d.Legal cfg act) :=
  match act with
  | .plain op => inferInstanceAs (Decidable (d.world.Legal op ∧ Regular cfg d.world op ∧ _ ∧ _))
  | .alignedBalloc .. => inferInstanceAs (Decidable (_ ∧ _ ∧ _))
  | .write .. => inferInstanceAs (Decidable (∃ c ∈ d.cuts, _))
  | .alignedFree .. => inferInstanceAs (Decidable (∃ c ∈ d.cuts, _))

instance (cfg : Config) (d : Desk) (act : Act) : Decidable (d.Spared cfg act) :=
  match act with
  | .alignedFree p env => inferInstanceAs (Decidable (Desk.Clear cfg env d.world.arena p))
  | .plain _ => inferInstanceAs (Decidable True)
  | .alignedBalloc .. => inferInstanceAs (Decidable True)
  | .write .. => inferInstanceAs (Decidable True)

end AbcMalloc.Arena
