import AbcMalloc.Threads.Invariant

/-! Every step of the threads keeps the invariant, and the chunks that it does not name. -/
namespace AbcMalloc.Threads
open Function Foundation Va
open Arena (Tiers Config World Active Sound Kept Grant)
open External (Process Space)
open Remote (Mailbox Payload)

variable {θ α : Type*}

def Event.frees : Event θ α → Option ℕ
  | .other (.call _ op _) => op.frees
  | .dealloc _ _ p _ => some p
  | .retire _ _ p => some p
  | _ => none

def Event.writes : Event θ α → Option (ℕ × ℕ)
  | .other (.call _ op _) => op.writes
  | _ => none

theorem names_of_frees {op : Arena.Op} {p : ℕ} (h : p ∈ op.frees) : p ∈ op.names := by
  cases op <;> simp_all [Arena.Op.frees, Arena.Op.names]

theorem names_of_writes {op : Arena.Op} {r : ℕ × ℕ} (h : r ∈ op.writes) : r.1 ∈ op.names := by
  obtain ⟨p, i⟩ := r
  cases op <;> simp_all [Arena.Op.writes, Arena.Op.names]

/-! ## Sheets -/

theorem sheetsOf_congr {t t' : Tiers} (h : ∀ s, (t' s).frames = (t s).frames) :
    External.sheetsOf t' = External.sheetsOf t := by
  unfold External.sheetsOf
  exact List.flatMap_congr fun s _ => by rw [h]

/-- A store to a block leaves the sheets as they are. -/
theorem space_withFrames [DecidableEq α] {c : VaConfig} {P : Process α}
    {S : External.Ranges} {x : α}
    {a : World} (hspace : External.Space c P S)
    (h : ∀ s, (a.arena s).frames = ((P.arenas x).arena s).frames) :
    External.Space c { P with arenas := update P.arenas x a } S := by
  have hframes : ∀ y s, (((update P.arenas x a) y).arena s).frames =
      ((P.arenas y).arena s).frames := by
    intro y s
    by_cases hyx : y = x
    · subst hyx
      rw [update_self]
      exact h s
    · rw [update_of_ne hyx]
  have hsheetsOf := fun y => sheetsOf_congr (hframes y)
  have hsheets : ∀ y, ({ P with arenas := update P.arenas x a } : Process α).sheets y =
      P.sheets y := fun y => congrArg (· ++ P.metadata y) (hsheetsOf y)
  constructor
  case rep => exact hspace.rep
  case layout =>
    intro y
    have hL := hspace.layout y
    refine ⟨?_, ?_, ?_, fun _ _ _ => trivial, fun g hg => absurd hg List.not_mem_nil,
      List.Pairwise.nil⟩
    · intro s
      rw [hframes]
      exact hL.good s
    · intro s
      rw [hframes]
      exact hL.sorted s
    · intro s s' hss
      rw [hframes, hframes]
      exact hL.apart hss
  case placed =>
    intro y
    rw [hsheets]
    exact hspace.placed y
  case across =>
    intro y z hyz
    rw [hsheets, hsheets]
    exact hspace.across hyz
  case inside =>
    intro y
    rw [show External.sheetsOf
      (({ P with arenas := update P.arenas x a } : Process α).arenas y).arena =
      External.sheetsOf (P.arenas y).arena from hsheetsOf y]
    exact hspace.inside y
  case external =>
    intro y
    rw [hsheets]
    exact hspace.external y
  case names =>
    intro y
    rw [hsheets]
    exact hspace.names y

namespace System
variable {c : VaConfig} {cfg : Config} {pageSize N : ℕ} {w w' : System θ α} {x y : α} {p q n : ℕ}
  {h : Arena.Held} {e : Event θ α} {b : Payload}

theorem held_eq_some : w.held x p = some h ↔ p ∉ (w.mail x).inFlight ∧
    (w.world x).live p = some h := by
  unfold held
  split_ifs with hp
  · simp [hp]
  · simp [hp]

structure Good [Fintype θ] (c : VaConfig) (cfg : Config) (N : ℕ) (w : System θ α) : Prop where
  space : ∃ S, Space c w.process S
  serves : ∀ x, Serves cfg N (w.mail x) (w.world x)

/-- Chunks that a thread holds stay as they are, but for the one that `e` frees and the cell that
it writes. -/
structure Keeps (cfg : Config) (e : Event θ α) (w w' : System θ α) : Prop where
  held : ∀ {x p h}, w.held x p = some h → e.frees ≠ some p → w'.held x p = some h
  size : ∀ {x p h}, w.held x p = some h → e.frees ≠ some p →
    Arena.sizeOfAlloc cfg (w'.world x).arena p = Arena.sizeOfAlloc cfg (w.world x).arena p
  load : ∀ {x p h i}, w.held x p = some h → e.frees ≠ some p → e.writes ≠ some (p, i) →
    32 * i + 32 ≤ Arena.sizeOfAlloc cfg (w.world x).arena p →
    Arena.load (w'.world x).arena (p + 32 * i) = Arena.load (w.world x).arena (p + 32 * i)

theorem Keeps.of_same (harenas : w'.process.arenas = w.process.arenas) (hmail : w'.mail = w.mail) :
    Keeps cfg e w w' := by
  have hworld : ∀ x, w'.world x = w.world x := fun x => congrFun harenas x
  constructor
  case held =>
    intro x p h hheld _
    rw [System.held, hmail, hworld]
    exact hheld
  case size =>
    intro x p h _ _
    rw [hworld]
  case load =>
    intro x p h i _ _ _ _
    rw [hworld]

section Init
variable [Fintype θ] [DecidableEq α]

theorem good_init (c : VaConfig) (cfg : Config) (hN : Remote.IsCapacity N) :
    Good c cfg N (System.init θ α) where
  space := ⟨_, External.space_init c⟩
  serves x := by
    have hI : Arena.Inv (fun t => Arena.Tier.fresh (Arena.TierId.params t)) fun _ => none := by
      refine ⟨fun t => ?_, fun _ f hf => absurd hf List.not_mem_nil, by simp⟩
      refine ⟨?_, List.Pairwise.nil, ?_, ?_, ?_, ?_⟩
      all_goals simp [Arena.Tier.fresh, Arena.Tier.frames]
    refine ⟨⟨fun _ => none, hI, ?_⟩, fun p h hp => ?_, ⟨[], [], ?_⟩, fun b hb => ?_⟩
    · exact fun hp => absurd hp (by simp [System.world, System.init, Process.init, World.init])
    · exact absurd hp (by simp [System.world, System.init, Process.init, World.init])
    · exact (Remote.inv_init hN).withNodes (fun q hq => absurd hq (Multiset.notMem_zero q))
        fun q hq => absurd hq (Multiset.notMem_zero q)
    · exact absurd hb (Multiset.notMem_zero b)

end Init

namespace Good
variable [Fintype θ]

/-! ## The arena of a chunk -/

theorem handle (hG : Good c cfg N w) (hlive : (w.world x).live p = some h)
    (hoff : cfg.redzone = false) :
    ∃ t, ∃ f ∈ ((w.world x).arena t).frames, f.Covers p ∧
      p + Arena.sizeOfAlloc cfg (w.world x).arena p ≤ f.hi := by
  obtain ⟨U, hS⟩ := (hG.serves x).sound
  obtain ⟨t, b, n, hh⟩ := hS.held hlive
  obtain rfl := hh.ptr_eq hoff
  obtain ⟨f, hf, hcov, -, hhi⟩ := hh.frame hS.inv
  rw [hh.sizeOfAlloc_off hoff hS.inv]
  exact ⟨t, f, hf, hcov, hhi⟩

/-- The owner table leads to the arena of a chunk in the reservation. -/
theorem ownerOf (hG : Good c cfg N w) (hoff : cfg.redzone = false)
    (hlive : (w.world x).live p = some h)
    (hout : w.process.owners.vaContains c p = false → w.process.owners.ownerOf c p = some x) :
    w.process.owners.ownerOf c p = some x := by
  by_cases hin : w.process.owners.vaContains c p = true
  · obtain ⟨S, hspace⟩ := hG.space
    obtain ⟨t, f, hf, hcov, -⟩ := hG.handle hlive hoff
    have hm : f.mem ∈ w.process.sheets x :=
      External.mem_sheets.2 (Or.inl (External.mem_sheetsOf.2 ⟨t, f, hf, rfl⟩))
    have hgood := (hspace.layout x).good t f hf
    have hlo : f.mem.ptr ≤ p := hgood.ptr ▸ hcov.1
    have hhi : p < f.mem.ptr + f.mem.len := lt_of_lt_of_le hcov.2 hgood.hi_le
    have hw : Owner.Within c w.process.owners f.mem := by
      rcases (hspace.placed x f.mem hm).1 with hw | hb
      · exact hw
      · rw [hb.not_contains hlo hhi] at hin
        exact absurd hin (by decide)
    unfold Owner.Owners.ownerOf
    rw [if_pos hin, hspace.names x f.mem hm hw p hlo hhi]
  · exact hout (by simpa using hin)

theorem apart (hG : Good c cfg N w) (hoff : cfg.redzone = false) {k : Arena.Held}
    (hp : (w.world x).live p = some h) (hq : (w.world y).live q = some k) (hne : (x, p) ≠ (y, q)) :
    p + Arena.sizeOfAlloc cfg (w.world x).arena p ≤ q ∨
      q + Arena.sizeOfAlloc cfg (w.world y).arena q ≤ p := by
  by_cases hxy : x = y
  · subst hxy
    obtain ⟨U, hS⟩ := (hG.serves x).sound
    exact (hS.noOverlap hoff).apart hp hq fun hpq => hne (by rw [hpq])
  · obtain ⟨S, hspace⟩ := hG.space
    obtain ⟨t, f, hf, hcov, hhi⟩ := hG.handle hp hoff
    obtain ⟨s, g, hg, hcov', hhi'⟩ := hG.handle hq hoff
    have happ := hspace.across hxy f.mem
      (External.mem_sheets.2 (Or.inl (External.mem_sheetsOf.2 ⟨t, f, hf, rfl⟩))) g.mem
      (External.mem_sheets.2 (Or.inl (External.mem_sheetsOf.2 ⟨s, g, hg, rfl⟩)))
    have hfg := (hspace.layout x).good t f hf
    have hgg := (hspace.layout y).good s g hg
    have h₁ := hfg.ptr
    have h₂ := hgg.ptr
    have h₃ := hfg.hi_le
    have h₄ := hgg.hi_le
    have h₅ := hcov.1
    have h₆ := hcov'.1
    unfold Arena.Apart at happ
    unfold Arena.Frame.stop at h₃ h₄
    omega

/-! ## One arena moves -/

/-- The arena `x` and its mailbox move on. -/
theorem change [DecidableEq α] (hG : Good c cfg N w) {P : Process α} {a : World} {m : Mailbox θ}
    {mail : α → Mailbox θ} {freed : Option ℕ} {written : Option (ℕ × ℕ)}
    (harenas : P.arenas = update w.process.arenas x a) (hmail : mail = update w.mail x m)
    (hspace : ∃ S, Space c P S) (hserves : Serves cfg N m a)
    (hk : Kept cfg freed written (w.world x) a)
    (hflight : ∀ q ∈ m.inFlight, q ∈ (w.mail x).inFlight ∨ q ∈ e.frees)
    (hfreed : ∀ q ∈ freed, q ∈ (w.mail x).inFlight ∨ q ∈ e.frees)
    (hwritten : ∀ r ∈ written, r.1 ∈ (w.mail x).inFlight ∨ r ∈ e.writes) :
    Good c cfg N ⟨P, mail⟩ ∧ Keeps cfg e w ⟨P, mail⟩ := by
  have hself : (System.mk P mail).world x = a ∧ mail x = m := by
    constructor
    · show P.arenas x = a
      rw [harenas, update_self]
    · rw [hmail, update_self]
  have hother : ∀ {y}, y ≠ x → (System.mk P mail).world y = w.world y ∧ mail y = w.mail y := by
    intro y hyx
    constructor
    · show P.arenas y = _
      rw [harenas, update_of_ne hyx]
      rfl
    · rw [hmail, update_of_ne hyx]
  -- a chunk that is held is neither in flight nor named
  have hnot : ∀ {p h}, w.held x p = some h → e.frees ≠ some p →
      freed ≠ some p ∧ ∀ {i}, e.writes ≠ some (p, i) → written ≠ some (p, i) := by
    intro p h hheld hp
    have hp' := (held_eq_some.1 hheld).1
    constructor
    · exact fun he => (hfreed p he).elim hp' hp
    · exact fun hi he => (hwritten _ he).elim hp' hi
  constructor
  · refine ⟨hspace, fun y => ?_⟩
    by_cases hyx : y = x
    · subst hyx
      show Serves cfg N (mail y) _
      rw [hself.1, hself.2]
      exact hserves
    · show Serves cfg N (mail y) _
      rw [(hother hyx).1, (hother hyx).2]
      exact hG.serves y
  · constructor
    case held =>
      intro y p h hheld hp
      by_cases hyx : y = x
      · subst hyx
        obtain ⟨hp', hlive⟩ := held_eq_some.1 hheld
        rw [held_eq_some]
        show p ∉ (mail y).inFlight ∧ _
        rw [hself.1, hself.2]
        exact ⟨fun hq => (hflight p hq).elim hp' hp, hk.live hlive (hnot hheld hp).1⟩
      · rw [held_eq_some] at hheld ⊢
        show p ∉ (mail y).inFlight ∧ _
        rw [(hother hyx).1, (hother hyx).2]
        exact hheld
    case size =>
      intro y p h hheld hp
      by_cases hyx : y = x
      · subst hyx
        rw [hself.1]
        exact hk.size (held_eq_some.1 hheld).2 (hnot hheld hp).1
      · rw [(hother hyx).1]
    case load =>
      intro y p h i hheld hp hpi hi
      by_cases hyx : y = x
      · subst hyx
        rw [hself.1]
        exact hk.load (held_eq_some.1 hheld).2 (hnot hheld hp).1 ((hnot hheld hp).2 hpi) hi
      · rw [(hother hyx).1]

section Calls
variable [DecidableEq α] (hG : Good c cfg N w) (hoff : cfg.redzone = false)
include hG hoff

/-- A call of an arena on a chunk that is not in flight. -/
theorem call {op : Arena.Op} {grown : List Chunk} {P : Process α}
    (hproc : w.process.Legal c (.call x op grown)) (hlegal : (w.world x).Legal op)
    (husual : op.Usual) (hfree : ∀ p ∈ op.names, p ∉ (w.mail x).inFlight)
    (hfrees : ∀ q ∈ op.frees, q ∈ e.frees) (hwrites : ∀ r ∈ op.writes, r ∈ e.writes)
    (hstep : w.process.step c cfg pageSize (.call x op grown) = some P) :
    Good c cfg N { w with process := P } ∧ Keeps cfg e w { w with process := P } := by
  obtain ⟨S, hspace⟩ := hG.space
  obtain ⟨U, hS⟩ := (hG.serves x).sound
  have hsolid := (hG.serves x).solid
  rw [Process.step, Option.map_eq_some_iff] at hstep
  obtain ⟨a, ha, rfl⟩ := hstep
  have hrun := Arena.next_eq_some.1 ha
  obtain ⟨U', hS', hk⟩ := hS.step_kept hoff hsolid husual hlegal hrun
  refine hG.change rfl (update_eq_self x w.mail).symm ⟨S, hspace.call hproc ha⟩ ?_ hk
    (fun q hq => Or.inl hq) (fun q hq => Or.inr (hfrees q hq)) fun r hr => Or.inr (hwrites r hr)
  exact (hG.serves x).kept hoff hS' (hS.step_solid hoff hsolid husual hlegal hrun) hk
    (fun p hp => hfree p (names_of_frees hp)) fun r hr => hfree r.1 (names_of_writes hr)

theorem create {g₁ g₂ g₃ : Grant} {grown : List Chunk} {P : Process α}
    (hproc : w.process.Legal c (.create x g₁ g₂ g₃ grown))
    (hstep : w.process.step c cfg pageSize (.create x g₁ g₂ g₃ grown) = some P) :
    Good c cfg N { w with process := P } ∧ Keeps cfg e w { w with process := P } := by
  obtain ⟨S, hspace⟩ := hG.space
  rw [Process.step, Option.map_eq_some_iff] at hstep
  obtain ⟨t, ht, rfl⟩ := hstep
  have hempty : ∀ p, (w.world x).live p = none := by
    intro p
    by_contra hlive
    obtain ⟨h, hlive⟩ := Option.ne_none_iff_exists'.1 hlive
    obtain ⟨s, f, hf, -⟩ := hG.handle hlive hoff
    have hm : f.mem ∈ w.process.sheets x :=
      External.mem_sheets.2 (Or.inl (External.mem_sheetsOf.2 ⟨s, f, hf, rfl⟩))
    rw [hproc.1] at hm
    exact absurd hm List.not_mem_nil
  have hdistinct : Arena.Distinct g₁ g₂ g₃ := by
    obtain ⟨-, hfresh, hpair⟩ := hproc
    have hvalid : ∀ g ∈ [g₁, g₂, g₃], g.Valid := fun g hg =>
      (hfresh _ (List.mem_append_right grown (List.mem_map_of_mem (f := Grant.chunk) hg))).1
    have hpair := (List.pairwise_append.1 hpair).2.1
    simp only [List.pairwise_cons, List.mem_cons, List.not_mem_nil, or_false, forall_eq_or_imp,
      forall_eq] at hpair
    refine ⟨⟨hvalid g₁ ?_, hvalid g₂ ?_, hvalid g₃ ?_⟩, hpair.1.1, hpair.1.2, hpair.2.1⟩
    all_goals simp
  have hk : Kept cfg none none (w.world x) (World.init t) := by
    have hnone : ∀ {p h}, (w.world x).live p = some h → False := fun {p h} hlive => by
      rw [hempty] at hlive
      cases hlive
    exact ⟨fun hlive _ => (hnone hlive).elim, fun hlive _ => (hnone hlive).elim,
      fun hlive _ _ _ => (hnone hlive).elim⟩
  exact hG.change rfl (update_eq_self x w.mail).symm ⟨S, hspace.create hproc ht⟩
    ((hG.serves x).create hempty (Arena.sound_init cfg hdistinct ht)) hk (fun q hq => Or.inl hq)
    (by simp) (by simp)

/-- A free of a chunk that the thread holds, by the owner or into its mailbox. -/
theorem route [DecidableEq θ] (hN : Remote.IsCapacity N) {t : θ} {me : α} {sz : ℕ} {op : Arena.Op}
    (hF : w.Frees c t p n) (hlegal : ∀ {x h}, (w.world x).live p = some h → (w.world x).Legal op)
    (husual : op.Usual ∧ op.ordinary = true) (hgrants : op.grants = [])
    (hnames : op.names = some p ∧ op.frees = some p ∧ op.writes = none)
    (hsized : ∀ {h : Arena.Held}, n ≤ h.len → Sized ⟨p, sz⟩ h) (he : e.frees = some p)
    (hstep : w.route c cfg pageSize N t me p sz op = some w') :
    Good c cfg N w' ∧ Keeps cfg e w w' := by
  obtain ⟨hidle, x, h, hheld, hn, hout⟩ := hF
  obtain ⟨hp, hlive⟩ := held_eq_some.1 hheld
  rw [System.route, hG.ownerOf hoff hlive hout] at hstep
  dsimp only at hstep
  split_ifs at hstep with hme
  · subst hme
    obtain ⟨P, hP, rfl⟩ := Option.map_eq_some_iff.1 hstep
    have hproc : w.process.Legal c (.call x op []) := by
      refine ⟨husual.2, fun m hm => ?_, ?_⟩
      · exact absurd hm (by simp [hgrants])
      · rw [hgrants]
        exact List.Pairwise.nil
    refine hG.call hoff hproc (hlegal hlive) husual.1 ?_ ?_ ?_ hP
    · rw [hnames.1]
      rintro q ⟨⟩
      exact hp
    · rw [hnames.2.1, he]
      exact fun q hq => hq
    · simp [hnames.2.2]
  · obtain ⟨m, hm, rfl⟩ := Option.map_eq_some_iff.1 hstep
    obtain ⟨t', f, hf, hcov, -⟩ := hG.handle hlive hoff
    obtain ⟨S, hspace⟩ := hG.space
    have hpos : p ≠ 0 := by
      have hgood := (hspace.layout x).good t' f hf
      have hlo := hcov.1
      have hptr := hgood.ptr
      have hpos := hgood.pos
      omega
    have hserves := (hG.serves x).push hN (b := ⟨p, sz⟩) (hidle x) hpos hp hlive (hsized hn) hm
    refine hG.change (update_eq_self x w.process.arenas).symm rfl ⟨S, hspace⟩ hserves
      (.refl cfg (w.world x)) (fun q hq => ?_) (by simp) (by simp)
    obtain rfl := Option.some.inj hm
    obtain ⟨b, hb, rfl⟩ := Remote.Mailbox.mem_inFlight.1 hq
    have hb : b ∈ ⟨p, sz⟩ ::ₘ (w.mail x).pushed - (w.mail x).released := hb
    rw [Multiset.cons_sub_of_le _ (hG.serves x).released_le] at hb
    rcases Multiset.mem_cons.1 hb with rfl | hb
    · exact Or.inr he
    · exact Or.inl (Remote.Mailbox.mem_inFlight.2 ⟨b, hb, rfl⟩)

theorem produce [DecidableEq θ] (hN : Remote.IsCapacity N) {t : θ} {spurious : Bool}
    (hstep : w.produce cfg N x t spurious = some w') : Good c cfg N w' ∧ Keeps cfg e w w' := by
  obtain ⟨S, hspace⟩ := hG.space
  obtain ⟨m, hm, hstep⟩ := Option.bind_eq_some_iff.1 hstep
  obtain ⟨hpushed, hreleased, -⟩ := Remote.produce_fields hm
  have hflight : m.inFlight = (w.mail x).inFlight :=
    (Remote.Mailbox.inFlight_congr hpushed hreleased).2
  cases hstore : Arena.nodeStore ((w.mail x).pushing t) with
  | none =>
    rw [hstore] at hstep
    obtain rfl := Option.some.inj hstep
    refine hG.change (update_eq_self x w.process.arenas).symm rfl ⟨S, hspace⟩
      ((hG.serves x).produce hN hstore hm) (.refl cfg (w.world x)) (fun q hq => ?_) (by simp)
        (by simp)
    exact Or.inl (hflight ▸ hq)
  | some r =>
    obtain ⟨p, f⟩ := r
    obtain ⟨hp, t', ht', hserves, hk, hframes⟩ := (hG.serves x).produceNode hN hoff hstore hm
    rw [hstore] at hstep
    obtain ⟨a, ha, rfl⟩ := Option.map_eq_some_iff.1 hstep
    obtain rfl := Option.some.inj (ht'.symm.trans ha)
    refine hG.change rfl rfl ⟨S, space_withFrames hspace hframes⟩ hserves hk (fun q hq => ?_)
      (by simp) ?_
    · exact Or.inl (hflight ▸ hq)
    · rintro r ⟨⟩
      exact Or.inl hp

omit [DecidableEq α] in
theorem own [DecidableEq α] (hN : Remote.IsCapacity N) (hstep : w.own c cfg N x = some w') :
    Good c cfg N w' ∧ Keeps cfg e w w' := by
  obtain ⟨S, hspace⟩ := hG.space
  obtain ⟨m, hm, hstep⟩ := Option.bind_eq_some_iff.1 hstep
  cases hrel : releases (w.mail x).drain with
  | none =>
    rw [hrel] at hstep
    obtain rfl := Option.some.inj hstep
    obtain ⟨-, hpushed, -, -, hreleased⟩ := Remote.own_fields hm
    rw [show releases (w.box x).drain = none from hrel] at hreleased
    have hflight : m.inFlight = (w.mail x).inFlight :=
      (Remote.Mailbox.inFlight_congr hpushed hreleased).2
    refine hG.change (update_eq_self x w.process.arenas).symm rfl ⟨S, hspace⟩
      ((hG.serves x).own hN hrel hm) (.refl cfg (w.world x)) (fun q hq => ?_) (by simp) (by simp)
    exact Or.inl (hflight ▸ hq)
  | some b =>
    obtain ⟨hb, -, hsub, t', ht', hlegal, hrun, hserves, hk⟩ :=
      (hG.serves x).ownRelease hN hoff hrel hm
    rw [hrel] at hstep
    obtain ⟨r, hr, rfl⟩ := Option.map_eq_some_iff.1 hstep
    obtain rfl : (true, t') = r := by
      rw [ht'] at hr
      exact Option.some.inj hr
    obtain ⟨husual, -, -, hgrants, hordinary⟩ := Arena.releaseOp_spec b
    have hproc : w.process.Legal c (.call x (Arena.releaseOp b) []) := by
      refine ⟨hordinary, fun m hm => ?_, ?_⟩
      · exact absurd hm (by simp [hgrants])
      · rw [hgrants]
        exact List.Pairwise.nil
    have hcall := hspace.call hproc (Arena.next_eq_some.2 hrun)
    rw [hgrants] at hcall
    refine hG.change rfl rfl ⟨S, hcall⟩ hserves hk (fun q hq => Or.inl (hsub hq)) ?_ (by simp)
    rintro q ⟨⟩
    exact Or.inl hb

/-- Every step keeps the invariant, and what it does not name. -/
theorem step [DecidableEq θ] (hN : Remote.IsCapacity N) (hlegal : w.Legal c e)
    (hstep : w.step c cfg pageSize N e = some w') : Good c cfg N w' ∧ Keeps cfg e w w' := by
  obtain ⟨S, hspace⟩ := hG.space
  cases e with
  | other e =>
    obtain ⟨hproc, hspotted, hop⟩ := hlegal
    obtain ⟨P, hP, rfl⟩ := Option.map_eq_some_iff.1 hstep
    have hspace' := hspace.step hproc hspotted hP
    have hsame : P.arenas = w.process.arenas → Good c cfg N { w with process := P } ∧
        Keeps cfg (.other e) w { w with process := P } := by
      intro harenas
      refine ⟨⟨hspace', fun y => ?_⟩, .of_same harenas rfl⟩
      rw [show System.world { w with process := P } y = w.world y from congrFun harenas y]
      exact hG.serves y
    cases e with
    | call x op grown =>
      obtain ⟨hworld, husual, -, hnamed⟩ := hop
      refine hG.call hoff hproc hworld husual ?_ (fun q hq => hq) (fun r hr => hr) hP
      intro p hp
      obtain ⟨h, hheld⟩ := Option.isSome_iff_exists.1 (hnamed p hp)
      exact (held_eq_some.1 hheld).1
    | create x g₁ g₂ g₃ grown => exact hG.create hoff hproc hP
    | reserve base =>
      obtain rfl := Option.some.inj hP
      exact hsame rfl
    | markAt me ptr size mapped =>
      obtain rfl := Option.some.inj hP
      apply hsame
      unfold Process.markAt
      split_ifs <;> rfl
    | unmarkAt ptr size =>
      obtain rfl := Option.some.inj hP
      apply hsame
      unfold Process.unmarkAt
      split_ifs <;> rfl
  | dealloc t me p sz =>
    have hpop : ∀ {x h}, (w.world x).live p = some h →
        (w.world x).Legal (.pop p (if sz = 0 then none else some sz) true) := by
      intro x h hlive
      show ((w.world x).live p).isSome = true
      simp [hlive]
    exact hG.route hoff hN hlegal hpop ⟨trivial, rfl⟩ rfl ⟨rfl, rfl, rfl⟩ Or.inr rfl hstep
  | retire t me p =>
    have hpop : ∀ {x h}, (w.world x).live p = some h →
        (w.world x).Legal (.tsPop p none true) := by
      intro x h hlive
      show ((w.world x).live p).isSome = true
      simp [hlive]
    exact hG.route hoff hN hlegal hpop ⟨trivial, rfl⟩ rfl ⟨rfl, rfl, rfl⟩ (fun _ => Or.inl rfl) rfl
      hstep
  | produce x t spurious => exact hG.produce hoff hN hstep
  | maybeDrain x =>
    rw [System.step, Option.map_eq_some_iff] at hstep
    obtain ⟨m, hm, rfl⟩ := hstep
    have hserves := (hG.serves x).drains hN (Or.inr rfl) hlegal hm
    obtain rfl := Option.some.inj hm
    exact hG.change (update_eq_self x w.process.arenas).symm rfl ⟨S, hspace⟩ hserves
      (.refl cfg (w.world x)) (fun q hq => Or.inl hq) (by simp) (by simp)
  | drain x =>
    rw [System.step, Option.map_eq_some_iff] at hstep
    obtain ⟨m, hm, rfl⟩ := hstep
    have hserves := (hG.serves x).drains hN (Or.inl rfl) hlegal hm
    obtain rfl := Option.some.inj hm
    exact hG.change (update_eq_self x w.process.arenas).symm rfl ⟨S, hspace⟩ hserves
      (.refl cfg (w.world x)) (fun q hq => Or.inl hq) (by simp) (by simp)
  | own x => exact hG.own hoff hN hstep

end Calls

end Good
end System
end AbcMalloc.Threads
