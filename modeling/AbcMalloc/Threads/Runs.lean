import AbcMalloc.Threads.Steps

/-! Every interleaving of the threads of a process. -/
namespace AbcMalloc.Threads
open Function Foundation Va
open Arena (Tiers Config World Active Sound Kept Grant)
open External (Process Space)
open Remote (Mailbox Payload)

variable {θ α : Type*} {c : VaConfig} {cfg : Config} {pageSize N : ℕ} {w w' w'' : System θ α}
  {x y : α} {p q i n : ℕ} {h : Arena.Held} {e : Event θ α} {b : Payload}

namespace System

structure Safe [DecidableEq θ] [DecidableEq α] (c : VaConfig) (cfg : Config) (pageSize N : ℕ)
    (w : System θ α) : Prop where
  /-- Chunks that threads hold and chunks in flight, of all arenas. -/
  apart : ∀ {x y p q h k}, (w.world x).live p = some h → (w.world y).live q = some k →
    (x, p) ≠ (y, q) → p + Arena.sizeOfAlloc cfg (w.world x).arena p ≤ q ∨
      q + Arena.sizeOfAlloc cfg (w.world y).arena q ≤ p
  flight : ∀ {x p}, p ∈ (w.mail x).inFlight → ∃ h, (w.world x).live p = some h
  once : ∀ x, (w.mail x).inFlight.Nodup
  released : ∀ x, (w.mail x).released ≤ (w.mail x).pushed
  /-- No request is served with a chunk that is held or in flight. -/
  fresh : ∀ {x sz gs d a}, Arena.Mapped (w.world x).arena gs →
    Arena.push cfg (w.world x).arena sz gs = .ok (some d, a) →
      (w.world x).live d.ptr = none ∧ d.ptr ∉ (w.mail x).inFlight
  /-- A drain does not get stuck, and what it releases is gone. -/
  drains : ∀ {x}, (w.mail x).drain ≠ .idle → ∃ w', w.step c cfg pageSize N (.own x) = some w' ∧
    ∀ b, releases (w.mail x).drain = some b →
      (w'.world x).live b.ptr = none ∧ b.ptr ∉ (w'.mail x).inFlight

/-! ## Drains -/

structure Delivers (x : α) (w w' : System θ α) : Prop where
  sub : ∀ {q}, q ∈ (w'.mail x).inFlight → q ∈ (w.mail x).inFlight
  dead : ∀ {q}, q ∈ (w.mail x).inFlight → q ∉ (w'.mail x).inFlight → (w'.world x).live q = none
  stay : ∀ {q}, q ∉ (w.mail x).inFlight ∨ q ∈ (w'.mail x).inFlight →
    (w'.world x).live q = (w.world x).live q
  others : ∀ {y}, y ≠ x → w'.world y = w.world y ∧ w'.mail y = w.mail y

theorem Delivers.refl (x : α) (w : System θ α) : Delivers x w w :=
  ⟨id, fun hq hq' => absurd hq hq', fun _ => rfl, fun _ => ⟨rfl, rfl⟩⟩

theorem Delivers.trans (h₁ : Delivers x w w') (h₂ : Delivers x w' w'') : Delivers x w w'' := by
  constructor
  case sub => exact fun hq => h₁.sub (h₂.sub hq)
  case dead =>
    intro q hq hq''
    by_cases hq' : q ∈ (w'.mail x).inFlight
    · exact h₂.dead hq' hq''
    · rw [h₂.stay (Or.inl hq')]
      exact h₁.dead hq hq'
  case stay =>
    rintro q (hq | hq)
    · rw [h₂.stay (Or.inl fun hq' => hq (h₁.sub hq')), h₁.stay (Or.inl hq)]
    · rw [h₂.stay (Or.inr hq), h₁.stay (Or.inr (h₂.sub hq))]
  case others =>
    intro y hy
    obtain ⟨hworld, hmail⟩ := h₁.others hy
    obtain ⟨hworld', hmail'⟩ := h₂.others hy
    exact ⟨hworld'.trans hworld, hmail'.trans hmail⟩

theorem Delivers.of_update [DecidableEq α] {P : Process α} {a : World} {m : Mailbox θ}
    (harenas : P.arenas = update w.process.arenas x a)
    (hsub : ∀ {q}, q ∈ m.inFlight → q ∈ (w.mail x).inFlight)
    (hdead : ∀ {q}, q ∈ (w.mail x).inFlight → q ∉ m.inFlight → a.live q = none)
    (hstay : ∀ {q}, q ∉ (w.mail x).inFlight ∨ q ∈ m.inFlight → a.live q = (w.world x).live q) :
    Delivers x w ⟨P, update w.mail x m⟩ := by
  have hworld : (System.mk P (update w.mail x m)).world x = a := by
    show P.arenas x = a
    rw [harenas, update_self]
  have hmail : update w.mail x m x = m := update_self ..
  constructor
  case sub =>
    intro q hq
    rw [show (System.mk P (update w.mail x m)).mail x = m from hmail] at hq
    exact hsub hq
  case dead =>
    intro q hq hq'
    rw [show (System.mk P (update w.mail x m)).mail x = m from hmail] at hq'
    rw [hworld]
    exact hdead hq hq'
  case stay =>
    intro q hq
    rw [show (System.mk P (update w.mail x m)).mail x = m from hmail] at hq
    rw [hworld]
    exact hstay hq
  case others =>
    intro y hy
    constructor
    · show P.arenas y = _
      rw [harenas, update_of_ne hy]
      rfl
    · exact update_of_ne hy _ _

namespace Good
variable [Fintype θ]

/-- The owner of `x` can go on, and its mailbox does what a mailbox does. -/
theorem own_delivers [DecidableEq α] (hG : Good c cfg N w) (hoff : cfg.redzone = false)
    (hN : Remote.IsCapacity N)
    {m : Mailbox θ} (hm : (w.box x).own N = some m) :
    ∃ w', w.own c cfg N x = some w' ∧ w'.mail x = m ∧ Delivers x w w' ∧
      ∀ b, releases (w.mail x).drain = some b →
        (w'.world x).live b.ptr = none ∧ b.ptr ∉ (w'.mail x).inFlight := by
  obtain ⟨-, hpushed, -, -, hreleased⟩ := Remote.own_fields hm
  cases hrel : releases (w.mail x).drain with
  | none =>
    rw [show releases (w.box x).drain = none from hrel] at hreleased
    have hflight : m.inFlight = (w.mail x).inFlight :=
      (Remote.Mailbox.inFlight_congr hpushed hreleased).2
    refine ⟨{ w with mail := update w.mail x m }, ?_, update_self .., ?_, by simp⟩
    · rw [System.own, hm, hrel]
      rfl
    · refine .of_update (update_eq_self x w.process.arenas).symm (fun hq => hflight ▸ hq)
        (fun hq hq' => absurd (hflight.symm ▸ hq) hq') fun _ => rfl
  | some b =>
    obtain ⟨hb, hgone, hsub, t', ht', -, -, -, -⟩ := (hG.serves x).ownRelease hN hoff hrel hm
    have honly : ∀ {q}, q ∈ (w.mail x).inFlight → q ∉ m.inFlight → q = b.ptr := by
      intro q hq hq'
      obtain ⟨S, C, hinv⟩ := (hG.serves x).mail
      by_contra hne
      obtain ⟨d, hd, rfl⟩ := Remote.Mailbox.mem_inFlight.1 hq
      apply hq'
      refine Remote.Mailbox.mem_inFlight.2
        ⟨d, (hinv.pending_own hN hm).2 ⟨hd, fun b' hb' => ?_⟩, rfl⟩
      obtain rfl := Option.some.inj (hrel.symm.trans hb')
      exact hne
    have hlive : ∀ {q}, ((w.world x).release b.ptr (true, t')).live q =
        if q = b.ptr then none else (w.world x).live q := by
      intro q
      by_cases hq : q = b.ptr
      · rw [if_pos hq, hq]
        exact update_self ..
      · rw [if_neg hq]
        exact update_of_ne hq _ _
    refine ⟨⟨w.process.settle c x ((w.world x).release b.ptr (true, t')) [] [], update w.mail x m⟩,
      ?_, update_self .., ?_, ?_⟩
    · rw [System.own, hm, hrel]
      show ((Arena.remoteRelease cfg (w.world x).arena b true).toOption.map _) = _
      rw [ht']
      rfl
    · refine .of_update rfl hsub (fun hq hq' => ?_) fun hq => ?_
      · rw [hlive, if_pos (honly hq hq')]
      · rw [hlive, if_neg]
        rintro rfl
        exact hq.elim (fun hq => hq hb) hgone
    · intro b' hb'
      obtain rfl := Option.some.inj hb'
      constructor
      · show (update w.process.arenas x _ x).live b.ptr = none
        rw [update_self, hlive, if_pos rfl]
      · show b.ptr ∉ (update w.mail x m x).inFlight
        rwa [update_self]

/-! ## Safety -/

/-- A request is served with a chunk that nobody holds. -/
theorem unheld (hG : Good c cfg N w) (hoff : cfg.redzone = false) {sz : ℕ} {gs : List Grant}
    {d : Chunk} {a : Tiers} (hgs : Arena.Mapped (w.world x).arena gs)
    (hpush : Arena.push cfg (w.world x).arena sz gs = .ok (some d, a)) :
    (w.world x).live d.ptr = none := by
  obtain ⟨U, hS⟩ := (hG.serves x).sound
  obtain ⟨d', U', rfl, hg⟩ := (Arena.push_spec hS.inv cfg hgs).ok hpush
  obtain ⟨m, hnew⟩ := hg.handle hS.inv (Arena.canaries_ofSize cfg sz) (by simp)
  rw [Arena.rzApply_ptr_off hoff sz d']
  by_contra hlive
  obtain ⟨h, hlive⟩ := Option.ne_none_iff_exists'.1 hlive
  obtain ⟨t, b, n, hh⟩ := hS.held hlive
  exact hg.not_held hnew hS.inv hh (Arena.rzApply_ptr_off hoff sz d').symm

theorem write [DecidableEq θ] [DecidableEq α] (hG : Good c cfg N w) (hoff : cfg.redzone = false)
    {v : Cell} {grown : List Chunk} (hlegal : w.Legal c (.other (.call x (.write p i v) grown)))
    (hheld : w.held x p = some h)
    (hstep : w.step c cfg pageSize N (.other (.call x (.write p i v) grown)) = some w') :
    32 * i + 32 ≤ Arena.sizeOfAlloc cfg (w.world x).arena p ∧
      Arena.sizeOfAlloc cfg (w'.world x).arena p = Arena.sizeOfAlloc cfg (w.world x).arena p ∧
      Arena.load (w'.world x).arena (p + 32 * i) = some v := by
  obtain ⟨U, hS⟩ := (hG.serves x).sound
  have hlive := (held_eq_some.1 hheld).2
  obtain ⟨h', hlive', hi⟩ := Option.any_eq_true _ _ |>.1 hlegal.2.2.1
  have hi := of_decide_eq_true hi
  obtain ⟨t, b, n, hh⟩ := hS.held hlive'
  obtain rfl := hh.ptr_eq hoff
  have hwithin := hh.within
  obtain ⟨-, hk, hload, -⟩ := hS.store hoff hh (j := i) (by omega) v
  have hworld : w'.world x =
    { w.world x with arena := Arena.store cfg (w.world x).arena p i v } := by
    rw [System.step, Option.map_eq_some_iff] at hstep
    obtain ⟨P, hP, rfl⟩ := hstep
    rw [Process.step, Option.map_eq_some_iff] at hP
    obtain ⟨a, ha, rfl⟩ := hP
    obtain rfl := Except.ok.inj (Arena.next_eq_some.1 ha)
    exact update_self ..
  have hsize := hk.size hlive (by simp)
  rw [hworld]
  refine ⟨?_, hsize, hload⟩
  rw [hh.sizeOfAlloc_off hoff hS.inv]
  omega

theorem safe [DecidableEq θ] [DecidableEq α] (hG : Good c cfg N w) (hoff : cfg.redzone = false)
    (hN : Remote.IsCapacity N) : w.Safe c cfg pageSize N where
  apart hp hq hne := hG.apart hoff hp hq hne
  flight hp := (hG.serves _).live hp
  once x := (hG.serves x).nodup
  released x := (hG.serves x).released_le
  fresh hgs hpush := by
    have hnone := hG.unheld hoff hgs hpush
    refine ⟨hnone, fun hmem => ?_⟩
    obtain ⟨h, hlive⟩ := (hG.serves _).live hmem
    exact absurd hnone (by simp [hlive])
  drains hd := by
    obtain ⟨m, hm⟩ := Remote.Mailbox.exists_own (w := w.box _) (N := N) hd
    obtain ⟨w', hown, -, -, hgone⟩ := hG.own_delivers hoff hN hm
    exact ⟨w', hown, hgone⟩

end Good

/-! ## Runs -/

section Runs
variable [Fintype θ] [DecidableEq θ] [DecidableEq α] (hoff : cfg.redzone = false)
  (hN : Remote.IsCapacity N)
include hoff hN

theorem good_run {events : List (Event θ α)} (hG : Good c cfg N w)
    (hrun : Run (Legal c) (System.step c cfg pageSize N) w events w') : Good c cfg N w' :=
  hrun.invariant (fun w => Good c cfg N w)
    (fun _ _ _ hG hlegal hstep => (hG.step hoff hN hlegal hstep).1) hG

theorem Good.run_keeps {events : List (Event θ α)} (hG : Good c cfg N w)
    (hrun : Run (Legal c) (System.step c cfg pageSize N) w events w')
    (hnot : ∀ e ∈ events, e.frees ≠ some p ∧ e.writes ≠ some (p, i)) (hheld : w.held x p = some h)
    (hi : 32 * i + 32 ≤ Arena.sizeOfAlloc cfg (w.world x).arena p) : w'.held x p = some h ∧
      Arena.sizeOfAlloc cfg (w'.world x).arena p = Arena.sizeOfAlloc cfg (w.world x).arena p ∧
      Arena.load (w'.world x).arena (p + 32 * i) = Arena.load (w.world x).arena (p + 32 * i) := by
  refine (hrun.invariant_mem hnot (fun u => Good c cfg N u ∧ u.held x p = some h ∧
    Arena.sizeOfAlloc cfg (u.world x).arena p = Arena.sizeOfAlloc cfg (w.world x).arena p ∧
    Arena.load (u.world x).arena (p + 32 * i) = Arena.load (w.world x).arena (p + 32 * i)) ?_
    ⟨hG, hheld, rfl, rfl⟩).2
  rintro u e u' ⟨hG, hheld, hsize, hload⟩ hlegal ⟨hfrees, hwrites⟩ hstep
  obtain ⟨hG', hk⟩ := hG.step hoff hN hlegal hstep
  refine ⟨hG', hk.held hheld hfrees, (hk.size hheld hfrees).trans hsize, ?_⟩
  exact (hk.load hheld hfrees hwrites (hsize.symm ▸ hi)).trans hload

theorem Good.exists_rest (k : ℕ) : ∀ {w : System θ α}, Good c cfg N w →
    (∀ t, (w.mail x).pushing t = .idle) → (w.mail x).Emptied → (w.mail x).work ≤ k →
      ∃ n w', Run (Legal c) (System.step c cfg pageSize N) w (List.replicate n (.own x)) w' ∧
        (w'.mail x).drain = .idle ∧ (w'.mail x).released = (w'.mail x).pushed ∧
        Delivers x w w' := by
  induction k with
  | zero =>
    intro w hG hquiet hemptied hwork
    obtain ⟨S, C, hinv⟩ := (hG.serves x).mail
    by_cases hd : (w.mail x).drain = .idle
    · exact ⟨0, w, .nil w, hd, hinv.released_eq hquiet hemptied hd, .refl x w⟩
    · obtain ⟨m, -, -, -, -, hlt⟩ := hinv.own_work hN hquiet hemptied hd
      have hlt : m.work < (w.mail x).work := hlt
      omega
  | succ k ih =>
    intro w hG hquiet hemptied hwork
    obtain ⟨S, C, hinv⟩ := (hG.serves x).mail
    by_cases hd : (w.mail x).drain = .idle
    · exact ⟨0, w, .nil w, hd, hinv.released_eq hquiet hemptied hd, .refl x w⟩
    · obtain ⟨m, hm, hpushing, -, hemptied', hlt⟩ := hinv.own_work hN hquiet hemptied hd
      have hlt : m.work < (w.mail x).work := hlt
      obtain ⟨w', hown, rfl, hdel, -⟩ := hG.own_delivers hoff hN hm
      have hstep : w.step c cfg pageSize N (.own x) = some w' := hown
      have hlegal : w.Legal c (.own x) := trivial
      obtain ⟨n, w'', hrun, hidle, hdone, hdel'⟩ := ih (hG.step hoff hN hlegal hstep).1
        (by rw [hpushing]; exact hquiet) hemptied' (by omega)
      exact ⟨n + 1, w'', .cons hlegal hstep hrun, hidle, hdone, hdel.trans hdel'⟩

end Runs

/-! ## The process -/

section Process
variable [Fintype θ] [DecidableEq θ] [DecidableEq α] (c : VaConfig) {cfg : Config} (pageSize k : ℕ)

/-- In every interleaving of requests, frees by any thread, stores of producers to nodes and drains,
the chunks of all arenas that are held or in flight lie apart, none is served twice or released
twice, and a drain gets past everything that is in its mailbox. -/
theorem remote_frees_safe (hoff : cfg.redzone = false) {events : List (Event θ α)} {w : System θ α}
    (hrun : Run (Legal c) (System.step c cfg pageSize (2 ^ (k + 1))) (System.init θ α) events w) :
    w.Safe c cfg pageSize (2 ^ (k + 1)) :=
  (good_run hoff ⟨k, rfl⟩ (good_init c cfg ⟨k, rfl⟩) hrun).safe hoff ⟨k, rfl⟩

def fourChunks : List (Event Bool Bool) :=
  [.other (.reserve (2 ^ 40)),
    .other (.create false (Arena.clearGrant (2 ^ 40) (2 ^ 21))
      (Arena.clearGrant (2 ^ 40 + 2 ^ 21) (2 ^ 21))
        (Arena.clearGrant (2 ^ 40 + 2 ^ 22) (2 ^ 21)) []),
    .other (.create true (Arena.clearGrant (2 ^ 40 + 2 ^ 23) (2 ^ 21))
      (Arena.clearGrant (2 ^ 40 + 2 ^ 23 + 2 ^ 21) (2 ^ 21))
      (Arena.clearGrant (2 ^ 40 + 2 ^ 23 + 2 ^ 22) (2 ^ 21)) [])] ++
    List.replicate 4 (.other (.call false (.push 100 []) []))

/-- The thread of the second arena frees three of them. The ring has two cells, so that the third
chunk becomes a node. -/
def threeFrees : List (Event Bool Bool) :=
  [.dealloc true true (2 ^ 40 + 64) 100] ++ List.replicate 6 (.produce false true false) ++
    [.retire true true (2 ^ 40 + 256)] ++ List.replicate 6 (.produce false true false) ++
    [.dealloc true true (2 ^ 40 + 448) 0] ++ List.replicate 6 (.produce false true false)

theorem remote_frees_safe_overflow : ∃ w : System Bool Bool,
    Run (Legal va64) (System.step va64 .default 4096 2) (System.init Bool Bool)
      (fourChunks ++ threeFrees) w ∧
    (w.mail false).ovf = 2 ^ 40 + 448 ∧
    (w.mail false).inFlight = {2 ^ 40 + 64, 2 ^ 40 + 256, 2 ^ 40 + 448} ∧
    w.Safe va64 .default 4096 2 := by
  obtain ⟨w, hrun, hw⟩ := exists_run_of_exec (Legal va64) (System.step va64 .default 4096 2)
    (s := System.init Bool Bool) (l := fourChunks ++ threeFrees)
    (P := fun w => (w.mail false).ovf = 2 ^ 40 + 448 &&
      (w.mail false).inFlight = {2 ^ 40 + 64, 2 ^ 40 + 256, 2 ^ 40 + 448}) (by decide +kernel)
  rw [Bool.and_eq_true, decide_eq_true_eq, decide_eq_true_eq] at hw
  exact ⟨w, hrun, hw.1, hw.2, remote_frees_safe va64 4096 0 rfl hrun⟩

/-- With all pushes complete, a drain of `x` ends with an empty mailbox. What was in flight is dead,
other chunks are as live as before, and the other arenas are as they were. -/
theorem drain_delivers (hoff : cfg.redzone = false) {events : List (Event θ α)} {w : System θ α}
    (hrun : Run (Legal c) (System.step c cfg pageSize (2 ^ (k + 1))) (System.init θ α) events w)
    {x : α} (hquiet : ∀ t, (w.mail x).pushing t = .idle) (hidle : (w.mail x).drain = .idle) :
    ∃ n w', Run (Legal c) (System.step c cfg pageSize (2 ^ (k + 1))) w
        (.drain x :: List.replicate n (.own x)) w' ∧
      (w'.mail x).drain = .idle ∧ (w'.mail x).inFlight = 0 ∧
      (∀ p, (w'.world x).live p = if p ∈ (w.mail x).inFlight then none else (w.world x).live p) ∧
      ∀ y, y ≠ x → w'.world y = w.world y ∧ w'.mail y = w.mail y := by
  have hN : Remote.IsCapacity (2 ^ (k + 1)) := ⟨k, rfl⟩
  have hG := good_run hoff hN (good_init c cfg hN) hrun
  obtain ⟨w₁, hstep⟩ : ∃ w₁, w.step c cfg pageSize (2 ^ (k + 1)) (.drain x) = some w₁ := ⟨_, rfl⟩
  have hlegal : w.Legal c (.drain x) := hidle
  have hG₁ := (hG.step hoff hN hlegal hstep).1
  obtain rfl := Option.some.inj hstep
  have hdel : Delivers x w ⟨w.process, update w.mail x { w.box x with drain := .loadSeq }⟩ := by
    refine .of_update (update_eq_self x w.process.arenas).symm id ?_ fun _ => rfl
    exact fun hq hq' => absurd hq hq'
  have hself : update w.mail x { w.box x with drain := .loadSeq } x =
      { w.box x with drain := .loadSeq } := update_self ..
  obtain ⟨n, w', hrest, hdone, hall, hdel'⟩ := hG₁.exists_rest (x := x) hoff hN _ (by
    intro t
    show (update w.mail x { w.box x with drain := .loadSeq } x).pushing t = _
    rw [hself]
    exact hquiet t) (by
    show (update w.mail x { w.box x with drain := .loadSeq } x).Emptied
    rw [hself]
    trivial) le_rfl
  have hfinal := hdel.trans hdel'
  have hempty : (w'.mail x).inFlight = 0 := by
    rw [Mailbox.inFlight, hall, tsub_self, Multiset.map_zero]
  refine ⟨n, w', .cons hlegal rfl hrest, hdone, hempty, fun p => ?_, fun y hy => hfinal.others hy⟩
  split_ifs with hp
  · exact hfinal.dead hp (by simp [hempty])
  · exact hfinal.stay (Or.inl hp)

theorem drain_delivers_overflow : ∃ n, ∃ w w' : System Bool Bool,
    Run (Legal va64) (System.step va64 .default 4096 2) (System.init Bool Bool)
      (fourChunks ++ threeFrees) w ∧
    Run (Legal va64) (System.step va64 .default 4096 2) w
    (.drain false :: List.replicate n (.own false))
      w' ∧
    (w'.mail false).inFlight = 0 ∧ (w'.world false).live (2 ^ 40 + 448) = none ∧
    (w'.world false).live (2 ^ 40 + 640) = some ⟨160, false⟩ := by
  obtain ⟨w, hrun, hw⟩ := exists_run_of_exec (Legal va64) (System.step va64 .default 4096 2)
    (s := System.init Bool Bool) (l := fourChunks ++ threeFrees)
    (P := fun w => (∀ t, (w.mail false).pushing t = .idle) && (w.mail false).drain = .idle &&
      2 ^ 40 + 448 ∈ (w.mail false).inFlight && 2 ^ 40 + 640 ∉ (w.mail false).inFlight &&
      (w.world false).live (2 ^ 40 + 640) = some ⟨160, false⟩) (by decide +kernel)
  simp only [Bool.and_eq_true, decide_eq_true_eq] at hw
  obtain ⟨⟨⟨⟨hquiet, hidle⟩, hin⟩, hout⟩, hlive⟩ := hw
  obtain ⟨n, w', hdrain, -, hempty, hdead, -⟩ := drain_delivers va64 4096 0 rfl hrun hquiet hidle
  refine ⟨n, w, w', hrun, hdrain, hempty, ?_, ?_⟩
  · rw [hdead, if_pos hin]
  · rw [hdead, if_neg hout, hlive]

/-- What a thread writes to a chunk that it holds is what it reads, whatever the other threads do,
until it frees, resizes or overwrites it. -/
theorem held_chunks_keep (hoff : cfg.redzone = false) {before after : List (Event θ α)}
    {w w₁ w₂ : System θ α} {x : α} {p i : ℕ} {v : Cell} {grown : List Chunk}
    (hbefore : Run (Legal c) (System.step c cfg pageSize (2 ^ (k + 1))) (System.init θ α) before w)
    (hlegal : w.Legal c (.other (.call x (.write p i v) grown)))
    (hwrite : w.step c cfg pageSize (2 ^ (k + 1)) (.other (.call x (.write p i v) grown)) = some w₁)
    (hafter : Run (Legal c) (System.step c cfg pageSize (2 ^ (k + 1))) w₁ after w₂)
    (hnot : ∀ e ∈ after, e.frees ≠ some p ∧ e.writes ≠ some (p, i)) :
    w₂.held x p = w.held x p ∧
      Arena.sizeOfAlloc cfg (w₂.world x).arena p = Arena.sizeOfAlloc cfg (w.world x).arena p ∧
      Arena.load (w₂.world x).arena (p + 32 * i) = some v := by
  have hN : Remote.IsCapacity (2 ^ (k + 1)) := ⟨k, rfl⟩
  have hG := good_run hoff hN (good_init c cfg hN) hbefore
  obtain ⟨hG₁, hk⟩ := hG.step hoff hN hlegal hwrite
  obtain ⟨h, hheld⟩ : ∃ h, w.held x p = some h :=
    Option.isSome_iff_exists.1 (hlegal.2.2.2.2.2 p rfl)
  obtain ⟨hi, hsize, hload⟩ := hG.write hoff hlegal hheld hwrite
  have hheld₁ := hk.held hheld (by simp [Event.frees, Arena.Op.frees])
  obtain ⟨hheld₂, hsize₂, hload₂⟩ := hG₁.run_keeps hoff hN hafter hnot hheld₁ (hsize ▸ hi)
  exact ⟨hheld₂.trans hheld.symm, hsize₂.trans hsize, hload₂.trans hload⟩

theorem held_chunks_keep_drained : ∃ w w₁ w₂ : System Bool Bool,
    Run (Legal va64) (System.step va64 .default 4096 2) (System.init Bool Bool) fourChunks w ∧
    Run (Legal va64) (System.step va64 .default 4096 2) w₁
      (threeFrees ++ .drain false :: List.replicate 19 (.own false)) w₂ ∧
    (w₂.mail false).inFlight = 0 ∧
    Arena.load (w₂.world false).arena (2 ^ 40 + 640 + 32 * 1) = some ⟨1, 2, 3, 4, 5⟩ := by
  obtain ⟨w, hrun, hw⟩ := exists_run_of_exec (Legal va64) (System.step va64 .default 4096 2)
    (s := System.init Bool Bool) (l := fourChunks)
    (P := fun w =>
      decide (w.Legal va64 (.other (.call false (.write (2 ^ 40 + 640) 1 ⟨1, 2, 3, 4, 5⟩) []))) &&
      (w.step va64 .default 4096 2
        (.other (.call false (.write (2 ^ 40 + 640) 1 ⟨1, 2, 3, 4, 5⟩) []))).any fun w₁ =>
      (exec (Legal va64) (System.step va64 .default 4096 2) w₁
        (threeFrees ++ .drain false :: List.replicate 19 (.own false))).any fun w₂ =>
      (w₂.mail false).inFlight = 0) (by decide +kernel)
  rw [Bool.and_eq_true, decide_eq_true_eq] at hw
  obtain ⟨hlegal, hw⟩ := hw
  obtain ⟨w₁, hwrite, hw⟩ := (Option.any_eq_true _ _).1 hw
  obtain ⟨w₂, hafter, hw⟩ := exists_run_of_exec (Legal va64) (System.step va64 .default 4096 2) hw
  refine ⟨w, w₁, w₂, hrun, hafter, of_decide_eq_true hw, ?_⟩
  refine (held_chunks_keep va64 4096 0 rfl hrun hlegal hwrite hafter ?_).2.2
  decide +kernel

end Process
end System
end AbcMalloc.Threads
