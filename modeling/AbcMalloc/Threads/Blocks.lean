import AbcMalloc.Arena.Layout
import AbcMalloc.Arena.Readers
import AbcMalloc.Remote.Model

/-! What other threads do to the blocks of an arena: a block that they free is released by the
owner of the arena later on, and until then it may be a node of the overflow list
(`__remote_ovf_node`). -/
namespace AbcMalloc.Arena
open Function Foundation Remote

section Model
variable (cfg : Config) (a : Tiers)

def remoteTombstoneSize : ℕ := 2 ^ 64 - 1

def remoteRelease (b : Payload) (intact : Bool) : Except Halt (Bool × Tiers) :=
  if b.size = remoteTombstoneSize then tsPop cfg a b.ptr none intact
  else vmapRemove cfg a b.ptr (if b.size = 0 then none else some b.size) intact

/-- The fields of a `__remote_ovf_node` in the block at `p`. -/
def nodeWord (v : Cell) : ℕ := v.lo + 2 ^ 32 * v.hi

def nodeNext (p : ℕ) : ℕ := (load a p).elim 0 nodeWord

def nodeSize (p : ℕ) : ℕ := (load a p).elim 0 Cell.w1

/-- `nd->sz = sz` and `nd->next = head`, of a thread in `__remote_push`. -/
def nodeStore : PushPc → Option (ℕ × (Cell → Cell))
  | .writeNodeSize b => some (b.ptr, fun v => { v with w1 := b.size })
  | .writeNext b head => some (b.ptr, fun v => { v with
      lo := head % 2 ^ 32
      hi := head / 2 ^ 32 })
  | _ => none

/-- A store to the first cell of the block at `p`; `none` where nothing is mapped. -/
def storeNode (p : ℕ) (f : Cell → Cell) : Option Tiers :=
  (load a p).map fun v => store cfg a p 0 (f v)

end Model

/-- What the owner of an arena calls for a block that another thread freed. -/
def releaseOp (b : Payload) : Op :=
  if b.size = remoteTombstoneSize then .tsPop b.ptr none true
  else .pop b.ptr (if b.size = 0 then none else some b.size) true

/-- Frees, which go to the owner of the block. -/
def Op.routed : Op → Bool
  | .pop .. => true
  | .tsPop .. => true
  | _ => false

/-- The block that a call frees or moves, and the cell that it writes. -/
def Op.frees : Op → Option ℕ
  | .pop p _ _ => some p
  | .tsPop p _ _ => some p
  | .resize p _ _ _ => some p
  | _ => none

def Op.writes : Op → Option (ℕ × ℕ)
  | .write p i _ => some (p, i)
  | _ => none

/-- Live blocks but the one that is freed stay live and keep their size, and their cells but the
one that is written keep their contents. -/
structure Kept (cfg : Config) (freed : Option ℕ) (written : Option (ℕ × ℕ)) (w w' : World) :
    Prop where
  live : ∀ {q h}, w.live q = some h → freed ≠ some q → w'.live q = some h
  size : ∀ {q h}, w.live q = some h → freed ≠ some q →
    sizeOfAlloc cfg w'.arena q = sizeOfAlloc cfg w.arena q
  load : ∀ {q h i}, w.live q = some h → freed ≠ some q → written ≠ some (q, i) →
    32 * i + 32 ≤ sizeOfAlloc cfg w.arena q → load w'.arena (q + 32 * i) = load w.arena (q + 32 * i)

theorem Kept.refl (cfg : Config) (w : World) : Kept cfg none none w w :=
  ⟨fun hlive _ => hlive, fun _ _ => rfl, fun _ _ _ _ => rfl⟩

/-- Every chunk that is live has at least one byte and was not laundered. -/
def World.Solid (w : World) : Prop := ∀ p, ∀ h ∈ w.live p, h.temporal = false ∧ 0 < h.len

/-- Requests of at least one byte; nothing is laundered and no sheet is given back by hand. -/
def Op.Usual : Op → Prop
  | .push sz _ => 0 < sz
  | .launder .. => False
  | .resize _ newSz _ _ => 0 < newSz
  | .resetPage _ => False
  | _ => True

instance (op : Op) : Decidable op.Usual := by
  unfold Op.Usual
  cases op <;> infer_instance

section Blocks
variable {cfg : Config} {w w' : World} {a : Tiers} {U : Active} {p : ℕ} {h : Held} {op : Op}
  {b : Payload}

/-! ## Releases -/

theorem pop_eq_vmapRemove {len : Option ℕ} {intact : Bool} (hp : p ≠ 0)
    (hadm : freeAdmit p len = true) : pop cfg a p len intact = vmapRemove cfg a p len intact := by
  unfold pop popWith
  rw [if_neg hp, hadm]
  rfl

/-- `__remote_release` does to a block what its owner would do. -/
theorem step_releaseOp (hp : b.ptr ≠ 0)
    (hadm : freeAdmit b.ptr (if b.size = 0 then none else some b.size) = true) :
    w.step cfg (releaseOp b) =
      (remoteRelease cfg w.arena b true).bind fun r => .ok (w.release b.ptr r) := by
  unfold releaseOp remoteRelease
  split_ifs
  · rfl
  · show (pop cfg w.arena b.ptr none true).bind _ = _
    rw [pop_eq_vmapRemove hp (by simpa [*] using hadm)]
  · show (pop cfg w.arena b.ptr (some b.size) true).bind _ = _
    rw [pop_eq_vmapRemove hp (by simpa [*] using hadm)]

/-- A free of at most the bytes that are held is admitted. -/
theorem Handle.admits_len {t : TierId} {c n m : ℕ} (hI : Inv a U) (hh : Handle cfg a U p h t c n)
    (hm : 0 < m) (hle : m ≤ h.len) : freeAdmit p (some m) = true := by
  obtain ⟨f, hf, -, -, hhi⟩ := hh.frame hI
  have hgood := (hI.tiers t).good f hf
  have h₁ := hgood.hi_le
  have h₂ := hgood.top
  have h₃ := hh.within
  have hadm := hh.admits hI
  simp [freeAdmit] at hadm ⊢
  have h₄ := le_userPtr cfg t c
  rw [← hh.ptr] at h₄
  omega

/-- What is released is a live block: the owner gives it back, as if it had freed it itself. -/
theorem Sound.remoteRelease (hS : Sound cfg w U) (hoff : cfg.redzone = false)
    (hsolid : w.Solid) (hlive : w.live b.ptr = some h)
    (hsize : b.size = remoteTombstoneSize ∨ b.size ≤ h.len) :
    ∃ a, Arena.remoteRelease cfg w.arena b true = .ok (true, a) ∧
      w.step cfg (releaseOp b) = .ok (w.release b.ptr (true, a)) := by
  obtain ⟨t, c, n, hh⟩ := hS.held hlive
  obtain ⟨i, e, hd, he, hcov⟩ := hh.dispatch hS.inv
  have hplain := (hsolid _ h hlive).1
  have hp := ptr_ne_zero hS.inv hd
  have hblock := hh.blockPtr_eq
  have hactive := hh.active
  have hcan := canaries_eq_false hoff t
  rw [hplain] at hactive
  by_cases htomb : b.size = remoteTombstoneSize
  · obtain ⟨a, U', hrun, -⟩ := tsPop_ok hS.inv cfg none true hd he (by rwa [hblock])
      (by rw [hblock]; exact hactive) (by rw [hblock]; exact hh.out) (hh.admits hS.inv)
      (by simp [hcan])
    refine ⟨a, by rw [Arena.remoteRelease, if_pos htomb, hrun], ?_⟩
    rw [releaseOp, if_pos htomb]
    simp [World.step, hrun, bind, Except.bind]
  · have hle := hsize.resolve_left htomb
    have hadm : freeAdmit b.ptr (if b.size = 0 then none else some b.size) = true := by
      split_ifs with hzero
      · exact hh.admits hS.inv
      · exact hh.admits_len hS.inv (Nat.pos_of_ne_zero hzero) hle
    obtain ⟨a, U', hrun, -⟩ := pop_ok hS.inv cfg (if b.size = 0 then none else some b.size) true hd
      he (by rwa [hblock]) (by rw [hblock]; exact hactive) (by rw [hblock]; exact hh.out) (by simp)
      hadm (by simp [hcan])
    have hok : Arena.remoteRelease cfg w.arena b true = .ok (true, a) := by
      rw [Arena.remoteRelease, if_neg htomb, ← pop_eq_vmapRemove hp hadm, hrun]
    exact ⟨a, hok, by rw [step_releaseOp hp hadm, hok]; rfl⟩

theorem releaseOp_legal (hlive : w.live b.ptr = some h) : w.Legal (releaseOp b) := by
  have hsome : (w.live b.ptr).isSome = true := by simp [hlive]
  unfold releaseOp
  split_ifs <;> exact hsome

theorem releaseOp_spec (b : Payload) : (releaseOp b).Usual ∧ (releaseOp b).frees = some b.ptr ∧
    (releaseOp b).writes = none ∧ (releaseOp b).grants = [] ∧ (releaseOp b).ordinary = true := by
  unfold releaseOp
  split_ifs
  all_goals exact ⟨trivial, rfl, rfl, rfl, rfl⟩

/-! ## Calls -/

theorem World.Solid.regular (hsolid : w.Solid) (hop : op.Usual) : Regular cfg w op := by
  cases op with
  | push sz gs => trivial
  | launder sz gs => exact hop.elim
  | pop p len intact =>
    intro h hlive htemp
    rw [(hsolid p h hlive).1] at htemp
    exact absurd htemp (by decide)
  | tsPop p len intact => exact fun h hlive => (hsolid p h hlive).1
  | resize p newSz data gs => exact fun h hlive => (hsolid p h hlive).1
  | freeze p => trivial
  | resetPage p => exact hop.elim
  | write p i c => trivial

theorem World.Solid.receive (hsolid : w.Solid) {t : TierId} {c : Chunk} (hlen : 0 < c.len) :
    (w.receive cfg false t c a).Solid := by
  intro q h hq
  by_cases hqc : q = c.ptr
  · subst hqc
    simp only [World.receive, update_self, Option.mem_def, Option.some.injEq] at hq
    rw [← hq]
    exact ⟨rfl, hlen⟩
  · simp only [World.receive, update_of_ne hqc] at hq
    exact hsolid q h hq

theorem World.Solid.release (hsolid : w.Solid) (p : ℕ) (r : Bool × Tiers) :
    (w.release p r).Solid := by
  intro q h hq
  simp only [World.release] at hq
  split_ifs at hq
  · by_cases hqp : q = p
    · subst hqp
      rw [update_self] at hq
      exact absurd hq (by simp)
    · rw [update_of_ne hqp] at hq
      exact hsolid q h hq
  · exact hsolid q h hq

theorem Sound.step_solid (hS : Sound cfg w U) (hoff : cfg.redzone = false) (hsolid : w.Solid)
    (hop : op.Usual) (hlegal : w.Legal op) (hstep : w.step cfg op = .ok w') : w'.Solid := by
  cases op with
  | push sz gs =>
    obtain ⟨o, a, hrun, rfl⟩ := World.step_push hstep
    cases o with
    | none => exact hsolid
    | some c => exact hsolid.receive (lt_of_lt_of_le hop (push_enough hoff hS.inv hlegal hrun))
  | launder sz gs => exact hop.elim
  | pop p len intact =>
    obtain ⟨r, -, rfl⟩ := World.step_pop hstep
    exact hsolid.release _ _
  | tsPop p len intact =>
    obtain ⟨r, -, rfl⟩ := World.step_tsPop hstep
    exact hsolid.release _ _
  | resize p newSz data gs =>
    obtain ⟨h, hlive⟩ := Option.isSome_iff_exists.1 hlegal.1
    obtain ⟨t, b, n, hh⟩ := hS.held hlive
    obtain ⟨o, a, hrun, rfl⟩ := World.step_resize hstep
    cases o with
    | none => exact hsolid
    | some c =>
      have hlen : 0 < c.len := lt_of_lt_of_le hop
        (hh.resize_enough hoff hS.inv (hsolid p h hlive).1 hlegal.2 hrun)
      simp only [Option.elim_some]
      split_ifs with hcp
      · intro q h' hq
        by_cases hqp : q = p
        · subst hqp
          simp only [update_self, Option.mem_def, Option.some.injEq] at hq
          rw [← hq]
          exact ⟨rfl, hlen⟩
        · simp only [update_of_ne hqp] at hq
          exact hsolid q h' hq
      · exact (hsolid.receive hlen).release _ _
  | freeze p =>
    obtain rfl := Except.ok.inj hstep
    exact hsolid
  | resetPage p => exact hop.elim
  | write p i c =>
    obtain rfl := Except.ok.inj hstep
    exact hsolid

/-! ## Stores -/

/-- A live block has room for a node. -/
theorem Handle.room (hI : Inv a U) {t : TierId} {c n : ℕ} (hh : Handle cfg a U p h t c n)
    (hlen : 0 < h.len) : 64 ≤ n := by
  have hmod := hh.size_mod hI
  have hwithin := hh.within
  have hle := le_userPtr cfg t c
  rw [← hh.ptr] at hle
  omega

theorem Sound.store (hS : Sound cfg w U) (hoff : cfg.redzone = false) {t : TierId} {n j : ℕ}
    (hh : Handle cfg w.arena U p h t p n) (hj : 32 * j + 32 ≤ n - 32) (v : Cell) :
    Sound cfg { w with arena := Arena.store cfg w.arena p j v } U ∧
      Kept cfg none (some (p, j)) w { w with arena := Arena.store cfg w.arena p j v } ∧
      Arena.load (Arena.store cfg w.arena p j v) (p + 32 * j) = some v ∧
      ∀ s, (Arena.store cfg w.arena p j v s).frames = (w.arena s).frames := by
  obtain ⟨i, e, hd, he, hcov⟩ := hh.dispatch hS.inv
  obtain ⟨hI, hsame, hrest⟩ := store_spec hS.inv cfg v hd he (by rwa [hh.blockPtr_eq])
    (by rw [hh.blockPtr_eq]; exact hh.active) hj
  have hgrows : Grows w.arena (Arena.store cfg w.arena p j v) := .of_frames fun s => (hrest s).1
  have hkeep : ∀ {q h' s m}, Handle cfg w.arena U q h' s q m →
      Handle cfg (Arena.store cfg w.arena p j v) U q h' s q m := by
    intro q h' s m hq
    obtain ⟨g, hg, hgq⟩ := hq.covered
    exact hq.congr rfl ⟨g, hgrows s g hg, hgq⟩ hsame.parked.1
  refine ⟨hS.idle hI (fun _ => hsame.parked.1) hgrows, ?_, ?_, fun s => (hrest s).1⟩
  · constructor
    case live => exact fun hlive _ => hlive
    case size =>
      intro q h' hlive _
      obtain ⟨s, c, m, hq⟩ := hS.held hlive
      obtain rfl := hq.ptr_eq hoff
      rw [(hkeep hq).sizeOfAlloc_off hoff hI, hq.sizeOfAlloc_off hoff hS.inv]
    case load =>
      intro q h' k hlive _ hqj hk
      obtain ⟨s, c, m, hq⟩ := hS.held hlive
      obtain rfl := hq.ptr_eq hoff
      rw [hq.sizeOfAlloc_off hoff hS.inv] at hk
      obtain ⟨u, hu⟩ := hq.exists_load hoff hS.inv hk
      rw [hu, (hkeep hq).load_eq hoff hI hk]
      have hstores := (hq.load_eq hoff hS.inv hk).1 hu
      by_cases hqp : q = p
      · subst hqp
        have hne : k ≠ j := fun hkj => hqj (by rw [hkj])
        exact hh.stores_store hS.inv v (fun heq => absurd heq (by omega)) fun _ => hstores
      · have hR := robust_keeps (v := u) hq.active hk
          fun g (hg : g ∈ ([] : List Grant)) => absurd hg List.not_mem_nil
        exact Keeps.stores (hR.write hS.inv (fun _ _ => rfl) hh (fun hpq => hqp hpq.symm) hj v
          (keeps_of_stores hS.inv hq.active hstores))
  · exact ((hkeep hh).load_eq hoff hI hj).2
      (hh.stores_store hS.inv v (fun _ => rfl) fun hne => absurd rfl hne)

theorem Sound.storeNode (hS : Sound cfg w U) (hoff : cfg.redzone = false) (hsolid : w.Solid)
    (hlive : w.live p = some h) (f : Cell → Cell) :
    ∃ v a, load w.arena p = some v ∧ Arena.storeNode cfg w.arena p f = some a ∧
      Sound cfg { w with arena := a } U ∧ Kept cfg none (some (p, 0)) w { w with arena := a } ∧
      load a p = some (f v) ∧ ∀ s, (a s).frames = (w.arena s).frames := by
  obtain ⟨t, b, n, hh⟩ := hS.held hlive
  obtain rfl := hh.ptr_eq hoff
  have hroom := hh.room hS.inv (hsolid p h hlive).2
  obtain ⟨v, hv⟩ := hh.exists_load hoff hS.inv (i := 0) (by omega)
  obtain ⟨hS', hkept, hload, hframes⟩ := hS.store hoff hh (j := 0) (by omega) (f v)
  rw [Nat.mul_zero, Nat.add_zero] at hv hload
  exact ⟨v, _, hv, by rw [Arena.storeNode, hv]; rfl, hS', hkept, hload, hframes⟩

theorem Sound.step_kept (hS : Sound cfg w U) (hoff : cfg.redzone = false) (hsolid : w.Solid)
    (hop : op.Usual) (hlegal : w.Legal op) (hstep : w.step cfg op = .ok w') :
    ∃ U', Sound cfg w' U' ∧ Kept cfg op.frees op.writes w w' := by
  by_cases hwrite : ∃ p i c, op = .write p i c
  · obtain ⟨p, i, c, rfl⟩ := hwrite
    obtain ⟨h, hlive, hi⟩ := Option.any_eq_true _ _ |>.1 hlegal
    obtain ⟨t, b, n, hh⟩ := hS.held hlive
    obtain rfl := hh.ptr_eq hoff
    have hwithin := hh.within
    have hi := of_decide_eq_true hi
    obtain rfl := Except.ok.inj hstep
    obtain ⟨hS', hkept, -⟩ := hS.store hoff hh (j := i) (by omega) c
    exact ⟨U, hS', hkept⟩
  have hnames : op.names = op.frees := by
    cases op with
    | write p i c => exact absurd ⟨p, i, c, rfl⟩ hwrite
    | _ => rfl
  have hreg : Regular cfg w op := hsolid.regular hop
  obtain ⟨U', hS', hheld⟩ := hS.step_keeps hlegal hreg hstep
  rw [hnames] at hheld
  refine ⟨U', hS', ?_⟩
  constructor
  case live =>
    intro q h hlive hq
    obtain ⟨t, b, n, hh⟩ := hS.held hlive
    exact (hheld hlive (hsolid q h hlive).1 hh hq).1
  case size =>
    intro q h hlive hq
    obtain ⟨t, b, n, hh⟩ := hS.held hlive
    have hh' := (hheld hlive (hsolid q h hlive).1 hh hq).2
    rw [hh'.sizeOfAlloc_off hoff hS'.inv, hh.sizeOfAlloc_off hoff hS.inv]
  case load =>
    intro q h i hlive hq _ hi
    obtain ⟨t, b, n, hh⟩ := hS.held hlive
    have hh' := (hheld hlive (hsolid q h hlive).1 hh hq).2
    rw [hh.sizeOfAlloc_off hoff hS.inv] at hi
    obtain ⟨v, hv⟩ := hh.exists_load hoff hS.inv hi
    rw [hv, hh'.load_eq hoff hS'.inv hi]
    rw [← hnames] at hq
    exact hS.step_stores hlegal hreg hh hq hi ((hh.load_eq hoff hS.inv hi).1 hv) hstep

end Blocks
end AbcMalloc.Arena
