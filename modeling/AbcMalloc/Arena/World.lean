import AbcMalloc.Arena.Operations

/-! Clients of an arena: runs of its operations together with what a caller knows. Writes of
the client between the calls are steps of their own. -/
namespace AbcMalloc.Arena
open Function Foundation

/-- A chunk that a client holds, and whether `launder` returned it. -/
structure Held where
  len : ℕ
  temporal : Bool
  deriving DecidableEq, Repr

structure World where
  arena : Tiers
  /-- Live pointers. -/
  live : ℕ → Option Held
  /-- Tier and start of the sheet whose list allocated the block at a pointer. -/
  home : ℕ → Option (TierId × ℕ)

/-- Steps of a client. A request comes with the mappings that the kernel makes for it. -/
inductive Op
  | push (sz : ℕ) (gs : List Grant)
  | launder (sz : ℕ) (gs : List Grant)
  | pop (p : ℕ) (len : Option ℕ) (intact : Bool)
  | tsPop (p : ℕ) (len : Option ℕ) (intact : Bool)
  | resize (p newSz : ℕ) (data : ℕ → Cell) (gs : List Grant)
  | freeze (p : ℕ)
  | resetPage (p : ℕ)
  /-- Overwrite the `i`-th cell of the chunk at `p`. -/
  | write (p i : ℕ) (c : Cell)

namespace World

def init (a : Tiers) : World := ⟨a, fun _ => none, fun _ => none⟩

/-- A chunk served by the tier `t` arrives. A block from the cache stays at home where it was;
any other comes from the sheet of the last hit. -/
def receive (cfg : Config) (w : World) (temporal : Bool) (t : TierId) (c : Chunk) (a : Tiers) :
    World where
  arena := a
  live := update w.live c.ptr (some ⟨c.len, temporal⟩)
  home :=
    if (w.arena t).cache.contains (blockPtr cfg t c.ptr) then w.home
    else update w.home c.ptr (some (t, (a t).loAt (a t).lastHit))

def release (w : World) (p : ℕ) (r : Bool × Tiers) : World :=
  { w with arena := r.2, live := if r.1 then update w.live p none else w.live }

/-- The sheet that `reset_page` releases for `p` covers `q`. -/
def released (a : Tiers) (p q : ℕ) : Bool :=
  TierId.all.any fun t => ((a t).findRange p).any fun i => (a t).loAt i ≤ q && q < (a t).hiAt i

def step (cfg : Config) (w : World) : Op → Except Halt World
  | .push sz gs => do
    match ← Arena.push cfg w.arena sz gs with
    | (none, a) => .ok { w with arena := a }
    | (some c, a) => .ok (w.receive cfg false (.ofSize (rzInflate cfg sz)) c a)
  | .launder sz gs => do
    match ← Arena.launder cfg w.arena sz gs with
    | (none, a) => .ok { w with arena := a }
    | (some c, a) => .ok (w.receive cfg true (.ofLaunder (rzInflate cfg sz)) c a)
  | .pop p len intact => do
    let r ← Arena.pop cfg w.arena p len intact
    .ok (w.release p r)
  | .tsPop p len intact => do
    let r ← Arena.tsPop cfg w.arena p len intact
    .ok (w.release p r)
  | .resize p newSz data gs => do
    match ← Arena.resize cfg w.arena p newSz data gs with
    | (none, a) => .ok { w with arena := a }
    | (some c, a) =>
      if c.ptr = p then .ok { w with arena := a, live := update w.live p (some ⟨c.len, false⟩) }
      else
        .ok ((w.receive cfg false (.ofSize (rzInflate cfg newSz)) c a).release p (true, a))
  | .freeze p => .ok { w with arena := Arena.freeze w.arena p }
  | .resetPage p => .ok { w with
      arena := Arena.resetPage w.arena p
      live := fun q => if released w.arena p q then none else w.live q }
  | .write p i c => .ok { w with arena := Arena.store cfg w.arena p i c }

/-! What a step that ends without a halt has done. -/
section Inversion
variable {cfg : Config} {w w' : World}

theorem step_push {sz : ℕ} {gs : List Grant} (h : w.step cfg (.push sz gs) = .ok w') :
    ∃ o a, Arena.push cfg w.arena sz gs = .ok (o, a) ∧
      w' = o.elim { w with arena := a } fun c =>
        w.receive cfg false (.ofSize (rzInflate cfg sz)) c a := by
  simp only [step, bind, Except.bind] at h
  split at h
  · exact absurd h (by simp)
  · next r hr =>
    obtain ⟨o, a⟩ := r
    refine ⟨o, a, hr, ?_⟩
    cases o with
    | none => exact (Except.ok.inj h).symm
    | some c => exact (Except.ok.inj h).symm

theorem step_launder {sz : ℕ} {gs : List Grant} (h : w.step cfg (.launder sz gs) = .ok w') :
    ∃ o a, Arena.launder cfg w.arena sz gs = .ok (o, a) ∧
      w' = o.elim { w with arena := a } fun c =>
        w.receive cfg true (.ofLaunder (rzInflate cfg sz)) c a := by
  simp only [step, bind, Except.bind] at h
  split at h
  · exact absurd h (by simp)
  · next r hr =>
    obtain ⟨o, a⟩ := r
    refine ⟨o, a, hr, ?_⟩
    cases o with
    | none => exact (Except.ok.inj h).symm
    | some c => exact (Except.ok.inj h).symm

theorem step_pop {p : ℕ} {len : Option ℕ} {intact : Bool}
    (h : w.step cfg (.pop p len intact) = .ok w') :
    ∃ r, Arena.pop cfg w.arena p len intact = .ok r ∧ w' = w.release p r := by
  simp only [step, bind, Except.bind] at h
  split at h
  · exact absurd h (by simp)
  · next r hr => exact ⟨r, hr, (Except.ok.inj h).symm⟩

theorem step_tsPop {p : ℕ} {len : Option ℕ} {intact : Bool}
    (h : w.step cfg (.tsPop p len intact) = .ok w') :
    ∃ r, Arena.tsPop cfg w.arena p len intact = .ok r ∧ w' = w.release p r := by
  simp only [step, bind, Except.bind] at h
  split at h
  · exact absurd h (by simp)
  · next r hr => exact ⟨r, hr, (Except.ok.inj h).symm⟩

theorem step_resize {p newSz : ℕ} {data : ℕ → Cell} {gs : List Grant}
    (h : w.step cfg (.resize p newSz data gs) = .ok w') :
    ∃ o a, Arena.resize cfg w.arena p newSz data gs = .ok (o, a) ∧
      w' = o.elim { w with arena := a } fun c =>
        if c.ptr = p then { w with arena := a, live := update w.live p (some ⟨c.len, false⟩) }
        else (w.receive cfg false (.ofSize (rzInflate cfg newSz)) c a).release p (true, a) := by
  simp only [step, bind, Except.bind] at h
  split at h
  · exact absurd h (by simp)
  · next r hr =>
    obtain ⟨o, a⟩ := r
    refine ⟨o, a, hr, ?_⟩
    cases o with
    | none => exact (Except.ok.inj h).symm
    | some c =>
      simp only [Option.elim_some] at h ⊢
      split_ifs at h ⊢
      · exact (Except.ok.inj h).symm
      · exact (Except.ok.inj h).symm

theorem step_push_arena {sz : ℕ} {gs : List Grant} (h : w.step cfg (.push sz gs) = .ok w') :
    ∃ o, Arena.push cfg w.arena sz gs = .ok (o, w'.arena) := by
  obtain ⟨o, a, hr, rfl⟩ := step_push h
  refine ⟨o, ?_⟩
  cases o with
  | none => exact hr
  | some c => exact hr

theorem step_launder_arena {sz : ℕ} {gs : List Grant}
    (h : w.step cfg (.launder sz gs) = .ok w') :
    ∃ o, Arena.launder cfg w.arena sz gs = .ok (o, w'.arena) := by
  obtain ⟨o, a, hr, rfl⟩ := step_launder h
  refine ⟨o, ?_⟩
  cases o with
  | none => exact hr
  | some c => exact hr

theorem step_resize_arena {p newSz : ℕ} {data : ℕ → Cell} {gs : List Grant}
    (h : w.step cfg (.resize p newSz data gs) = .ok w') :
    ∃ o, Arena.resize cfg w.arena p newSz data gs = .ok (o, w'.arena) := by
  obtain ⟨o, a, hr, rfl⟩ := step_resize h
  refine ⟨o, ?_⟩
  cases o with
  | none => exact hr
  | some c =>
    simp only [Option.elim_some]
    split_ifs
    · exact hr
    · exact hr

end Inversion

def next (cfg : Config) (w : World) (op : Op) : Option World := (w.step cfg op).toOption

/-- Frees and writes name live pointers, and mappings are fresh. -/
def Legal (w : World) : Op → Prop
  | .push _ gs => Mapped w.arena gs
  | .launder _ gs => Mapped w.arena gs
  | .pop p _ _ => (w.live p).isSome = true
  | .tsPop p _ _ => (w.live p).isSome = true
  | .resize p _ _ gs => (w.live p).isSome = true ∧ Mapped w.arena gs
  | .freeze _ => True
  | .resetPage _ => True
  | .write p i _ => ((w.live p).any fun h => 32 * i + 32 ≤ h.len) = true

instance instDecidableLegal (w : World) (op : Op) : Decidable (w.Legal op) :=
  match op with
  | .push _ gs => inferInstanceAs (Decidable (Mapped w.arena gs))
  | .launder _ gs => inferInstanceAs (Decidable (Mapped w.arena gs))
  | .pop .. => inferInstanceAs (Decidable (_ = true))
  | .tsPop .. => inferInstanceAs (Decidable (_ = true))
  | .resize .. => inferInstanceAs (Decidable (_ ∧ _))
  | .freeze _ => inferInstanceAs (Decidable True)
  | .resetPage _ => inferInstanceAs (Decidable True)
  | .write .. => inferInstanceAs (Decidable (_ = true))

end World

/-! ## The start of an arena -/

/-- The heads of the tiers are built on disjoint mappings. -/
def Distinct (g₁ g₂ g₃ : Grant) : Prop :=
  (g₁.Valid ∧ g₂.Valid ∧ g₃.Valid) ∧
    Apart g₁.chunk g₂.chunk ∧ Apart g₁.chunk g₃.chunk ∧ Apart g₂.chunk g₃.chunk

instance (g₁ g₂ g₃ : Grant) : Decidable (Distinct g₁ g₂ g₃) := inferInstanceAs (Decidable (_ ∧ _))

theorem inv_fresh : Inv (fun t => Tier.fresh t.params) fun _ => none where
  tiers t := by
    refine ⟨?_, List.Pairwise.nil, ?_, ?_, List.nodup_nil, Nat.zero_le _⟩
    · exact fun f hf => absurd hf List.not_mem_nil
    · exact fun e he => absurd he List.not_mem_nil
    · exact fun c hc => absurd hc List.not_mem_nil
  apart := fun _ f hf => absurd hf List.not_mem_nil
  covered := fun hp => absurd hp (by simp)

theorem inv_start {g₁ g₂ g₃ : Grant} {a : Tiers} (hg : Distinct g₁ g₂ g₃)
    (ha : start g₁ g₂ g₃ = some a) : Inv a (fun _ => none) ∧ ∀ p, ¬Parked a p := by
  obtain ⟨⟨hv₁, hv₂, hv₃⟩, h₁₂, h₁₃, h₂₃⟩ := hg
  simp only [start, Option.bind_eq_bind, Option.bind_eq_some_iff] at ha
  obtain ⟨x, hx, y, hy, z, hz, ha⟩ := ha
  obtain rfl := Option.some.inj ha
  have hfresh : ∀ g : Grant, g.Fresh fun t => Tier.fresh t.params := fun g t _ e he =>
    absurd he List.not_mem_nil
  obtain ⟨hI₁, hs₁, -, hf₁⟩ := inv_fresh.addSheet hv₁ (hfresh g₁) (Or.inl rfl) hx
  obtain ⟨hI₂, hs₂, -, hf₂⟩ :=
    hI₁.addSheet hv₂ (hf₁ g₂ (hfresh g₂) h₁₂) (Or.inl rfl) (t := .small) hy
  obtain ⟨hI₃, hs₃, -⟩ := hI₂.addSheet hv₃ (hf₂ g₃ (hf₁ g₃ (hfresh g₃) h₁₃) h₂₃) (Or.inl rfl)
    (t := .medium) hz
  refine ⟨hI₃, ?_⟩
  intro p
  rw [hs₃.parked, hs₂.parked, hs₁.parked]
  rintro ⟨t, x, hx, -⟩
  exact absurd hx List.not_mem_nil

def clearGrant (p n : ℕ) : Grant := ⟨⟨p, n⟩, .zero, fun _ => 0⟩

theorem exists_run (cfg : Config) (ok : World → Op → Prop) [∀ w op, Decidable (ok w op)]
    (g₁ g₂ g₃ : Grant) (ops : List Op) (P : World → Bool)
    (h : ((start g₁ g₂ g₃).any fun a =>
      (exec ok (World.next cfg) (World.init a) ops).any P) = true) :
    ∃ a w, start g₁ g₂ g₃ = some a ∧ Run ok (World.next cfg) (World.init a) ops w ∧ P w = true := by
  obtain ⟨a, ha, hexec⟩ := Option.any_eq_true _ _ |>.1 h
  obtain ⟨w, hw⟩ := exists_run_of_exec ok (World.next cfg) hexec
  exact ⟨a, w, ha, hw⟩

end AbcMalloc.Arena
