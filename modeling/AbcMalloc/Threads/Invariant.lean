import AbcMalloc.External.Marks
import AbcMalloc.Threads.Mailboxes

/-! What holds of an arena and its mailbox in every state that the threads reach: what is in flight
is live, and whoever pushed it gave no length that is too large. -/
namespace AbcMalloc.Threads
open Function Foundation Va
open Arena (Tiers Config World Active Sound Kept Grant)
open External (Process Space)
open Remote (Mailbox Payload)

variable {θ α : Type*} {c : VaConfig} {cfg : Config} {pageSize N : ℕ} {m m' : Mailbox θ}
  {a a' : World} {U U' : Active} {p q : ℕ} {h : Arena.Held} {b : Payload}

def Sized (b : Payload) (h : Arena.Held) : Prop :=
    b.size = Arena.remoteTombstoneSize ∨ b.size ≤ h.len

structure Serves [Fintype θ] (cfg : Config) (N : ℕ) (m : Mailbox θ) (a : World) : Prop where
  sound : ∃ U, Sound cfg a U
  solid : a.Solid
  mail : ∃ S C, Remote.Inv N (withNodes m a.arena) S C
  pending : ∀ b ∈ m.pending, ∃ h, a.live b.ptr = some h ∧ Sized b h

/-! ## Cells of live blocks -/

section Cells

theorem first_cell (hS : Sound cfg a U) (hoff : cfg.redzone = false) (hsolid : a.Solid)
    (hlive : a.live q = some h) : 32 ≤ Arena.sizeOfAlloc cfg a.arena q := by
  obtain ⟨t, b, n, hh⟩ := hS.held hlive
  have hroom := hh.room hS.inv (hsolid q h hlive).2
  rw [hh.sizeOfAlloc_off hoff hS.inv]
  omega

theorem nodes_congr (hload : Arena.load a'.arena q = Arena.load a.arena q) :
    Arena.nodeNext a'.arena q = Arena.nodeNext a.arena q ∧
      Arena.nodeSize a'.arena q = Arena.nodeSize a.arena q := by
  constructor
  · rw [Arena.nodeNext, Arena.nodeNext, hload]
  · rw [Arena.nodeSize, Arena.nodeSize, hload]

/-- The nodes of live blocks are kept. -/
theorem nodes_kept {freed : Option ℕ} {written : Option (ℕ × ℕ)} (hk : Kept cfg freed written a a')
    (hS : Sound cfg a U) (hoff : cfg.redzone = false) (hsolid : a.Solid) (hlive : a.live q = some h)
    (hfreed : freed ≠ some q) (hwritten : written ≠ some (q, 0)) :
    Arena.nodeNext a'.arena q = Arena.nodeNext a.arena q ∧
      Arena.nodeSize a'.arena q = Arena.nodeSize a.arena q :=
  nodes_congr (hk.load (i := 0) hlive hfreed hwritten (first_cell hS hoff hsolid hlive))

end Cells

namespace Serves
variable [Fintype θ]

/-- What is in flight is live. -/
theorem live (hv : Serves cfg N m a) (hp : p ∈ m.inFlight) : ∃ h, a.live p = some h := by
  obtain ⟨b, hb, rfl⟩ := Remote.Mailbox.mem_inFlight.1 hp
  obtain ⟨h, hlive, -⟩ := hv.pending b hb
  exact ⟨h, hlive⟩

theorem nodup (hv : Serves cfg N m a) : m.inFlight.Nodup := by
  obtain ⟨S, C, hm⟩ := hv.mail
  exact hm.account.inFlight_nodup

theorem released_le (hv : Serves cfg N m a) : m.released ≤ m.pushed := by
  obtain ⟨S, C, hm⟩ := hv.mail
  exact hm.released_le.trans hm.reserved_le

/-- A call of the owner on chunks that are not in flight. -/
theorem kept (hv : Serves cfg N m a) (hoff : cfg.redzone = false) {freed : Option ℕ}
    {written : Option (ℕ × ℕ)} (hS' : Sound cfg a' U') (hsolid' : a'.Solid)
    (hk : Kept cfg freed written a a') (hfreed : ∀ p ∈ freed, p ∉ m.inFlight)
    (hwritten : ∀ r ∈ written, r.1 ∉ m.inFlight) : Serves cfg N m a' := by
  obtain ⟨U, hS⟩ := hv.sound
  obtain ⟨S, C, hm⟩ := hv.mail
  have hstay : ∀ {q}, q ∈ m.inFlight → freed ≠ some q ∧ written ≠ some (q, 0) := fun hq =>
    ⟨fun he => hfreed _ he hq, fun he => hwritten _ he hq⟩
  have hnodes : ∀ q ∈ m.inFlight, Arena.nodeNext a'.arena q = Arena.nodeNext a.arena q ∧
      Arena.nodeSize a'.arena q = Arena.nodeSize a.arena q := by
    intro q hq
    obtain ⟨h, hlive⟩ := hv.live hq
    exact nodes_kept hk hS hoff hv.solid hlive (hstay hq).1 (hstay hq).2
  refine ⟨⟨U', hS'⟩, hsolid', ⟨S, C, ?_⟩, ?_⟩
  · exact hm.withNodes (fun q hq => (hnodes q hq).1) fun q hq => (hnodes q hq).2
  · intro b hb
    obtain ⟨h, hlive, hsized⟩ := hv.pending b hb
    have hflight : b.ptr ∈ m.inFlight := Remote.Mailbox.mem_inFlight.2 ⟨b, hb, rfl⟩
    exact ⟨h, hk.live hlive (hstay hflight).1, hsized⟩

/-- Before its constructor runs an arena serves nobody. -/
theorem create (hv : Serves cfg N m a) (hempty : ∀ p, a.live p = none) {t : Tiers}
    (hS : Sound cfg (World.init t) U) : Serves cfg N m (World.init t) := by
  obtain ⟨S, C, hm⟩ := hv.mail
  have hnone : ∀ p, p ∉ m.inFlight := by
    intro p hp
    obtain ⟨h, hlive⟩ := hv.live hp
    exact absurd (hempty p) (by simp [hlive])
  refine ⟨⟨U, hS⟩, fun p h hp => absurd hp (by simp [World.init]), ⟨S, C, ?_⟩, ?_⟩
  · exact hm.withNodes (fun q hq => absurd hq (hnone q)) fun q hq => absurd hq (hnone q)
  · exact fun b hb => absurd (Remote.Mailbox.mem_inFlight.2 ⟨b, hb, rfl⟩) (hnone b.ptr)

theorem mailbox (hv : Serves cfg N m a) (hm : ∃ S C, Remote.Inv N m' S C)
    (hnext : m'.next = Arena.nodeNext a.arena) (hsize : m'.nodeSize = Arena.nodeSize a.arena)
    (hpending : ∀ b ∈ m'.pending, ∃ h, a.live b.ptr = some h ∧ Sized b h) : Serves cfg N m' a := by
  obtain ⟨S, C, hm⟩ := hm
  refine ⟨hv.sound, hv.solid, ⟨S, C, ?_⟩, hpending⟩
  rwa [withNodes, ← hnext, ← hsize]

section Mail
variable [DecidableEq θ] {t : θ} (hv : Serves cfg N m a) (hN : Remote.IsCapacity N)
include hv hN

theorem push (hidle : m.pushing t = .idle) (hp : b.ptr ≠ 0) (hfresh : b.ptr ∉ m.inFlight)
    (hlive : a.live b.ptr = some h) (hsized : Sized b h)
    (hstep : (withNodes m a.arena).step N (.push t b) = some m') : Serves cfg N m' a := by
  obtain ⟨S, C, hm⟩ := hv.mail
  have hinv := hm.step hN (e := .push t b) ⟨hidle, hp, hfresh⟩ hstep
  obtain rfl := Option.some.inj hstep
  refine hv.mailbox hinv rfl rfl fun d hd => ?_
  have hle : m.released ≤ m.pushed := hv.released_le
  have hd : d ∈ b ::ₘ m.pushed - m.released := hd
  rw [Multiset.cons_sub_of_le _ hle] at hd
  rcases Multiset.mem_cons.1 hd with rfl | hd
  · exact ⟨h, hlive, hsized⟩
  · exact hv.pending d hd

theorem drains {e : Remote.Event θ} (he : e = .drain ∨ e = .maybeDrain) (hidle : m.drain = .idle)
    (hstep : (withNodes m a.arena).step N e = some m') : Serves cfg N m' a := by
  obtain ⟨S, C, hm⟩ := hv.mail
  have hlegal : (withNodes m a.arena).legal e := by
    rcases he with rfl | rfl
    · exact hidle
    · exact hidle
  have hinv := hm.step hN hlegal hstep
  rcases he with rfl | rfl
  all_goals
    obtain rfl := Option.some.inj hstep
    exact hv.mailbox hinv rfl rfl hv.pending

theorem produce {spurious : Bool} (hnone : Arena.nodeStore (m.pushing t) = none)
    (hstep : (withNodes m a.arena).produce N t spurious = some m') : Serves cfg N m' a := by
  obtain ⟨S, C, hm⟩ := hv.mail
  obtain ⟨S', hm'⟩ := hm.produce hN hstep
  obtain ⟨hnext, hsize⟩ := Remote.produce_nodes hstep hnone
  obtain ⟨hpushed, hreleased, -⟩ := Remote.produce_fields hstep
  refine hv.mailbox ⟨S', C, hm'⟩ hnext hsize ?_
  rw [(Remote.Mailbox.inFlight_congr hpushed hreleased).1]
  exact hv.pending

/-- A producer that stores to its node: the block is in flight, so that nobody else has it. -/
theorem produceNode (hoff : cfg.redzone = false) {spurious : Bool} {f : Cell → Cell}
    (hsome : Arena.nodeStore (m.pushing t) = some (p, f))
    (hstep : (withNodes m a.arena).produce N t spurious = some m') :
    p ∈ m.inFlight ∧ ∃ t', Arena.storeNode cfg a.arena p f = some t' ∧
      Serves cfg N m' { a with arena := t' } ∧
      Kept cfg none (some (p, 0)) a { a with arena := t' } ∧
      ∀ s, (t' s).frames = (a.arena s).frames := by
  obtain ⟨U, hS⟩ := hv.sound
  obtain ⟨S, C, hm⟩ := hv.mail
  obtain ⟨S', hm'⟩ := hm.produce hN hstep
  obtain ⟨hpushed, hreleased, -⟩ := Remote.produce_fields hstep
  obtain ⟨⟨b, hb, rfl⟩, hothers, hself⟩ := Remote.produce_store hstep hsome
  obtain ⟨hpending, hflight⟩ := Remote.Mailbox.inFlight_congr hpushed hreleased
  have hmem : b.ptr ∈ m.inFlight :=
    Remote.Mailbox.mem_inFlight.2 ⟨b, hm.account.mem_pending hb, rfl⟩
  obtain ⟨h, hlive⟩ := hv.live hmem
  obtain ⟨v, t', hload, hstore, hS', hk, hload', hframes⟩ := hS.storeNode hoff hv.solid hlive f
  have hnext₀ : Arena.nodeNext a.arena b.ptr = Arena.nodeWord v := by
    rw [Arena.nodeNext, hload]; rfl
  have hsize₀ : Arena.nodeSize a.arena b.ptr = v.w1 := by rw [Arena.nodeSize, hload]; rfl
  obtain ⟨hnext₁, hsize₁⟩ := hself v hnext₀ hsize₀
  -- what the mailbox says of a node is what the arena holds there
  have hnodes : ∀ q ∈ m.inFlight, Arena.nodeNext t' q = m'.next q ∧
      Arena.nodeSize t' q = m'.nodeSize q := by
    intro q hq
    by_cases hqb : q = b.ptr
    · subst hqb
      rw [hnext₁, hsize₁, Arena.nodeNext, Arena.nodeSize, hload']
      exact ⟨rfl, rfl⟩
    · obtain ⟨h', hlive'⟩ := hv.live hq
      obtain ⟨hnext, hsize⟩ := nodes_kept hk hS hoff hv.solid hlive' (by simp)
        fun he => hqb (congrArg Prod.fst (Option.some.inj he)).symm
      exact ⟨hnext.trans (hothers hqb).1.symm, hsize.trans (hothers hqb).2.symm⟩
  refine ⟨hmem, t', hstore, ⟨⟨U, hS'⟩, hv.solid, ⟨S', C, ?_⟩, ?_⟩, hk, hframes⟩
  · rw [show (withNodes m a.arena).inFlight = m.inFlight from rfl] at hflight
    rw [← hflight] at hnodes
    exact hm'.withNodes (fun q hq => (hnodes q hq).1) fun q hq => (hnodes q hq).2
  · rw [hpending]
    exact hv.pending

omit [DecidableEq θ] in
theorem own (hnone : releases m.drain = none) (hstep : (withNodes m a.arena).own N = some m') :
    Serves cfg N m' a := by
  obtain ⟨S, C, hm⟩ := hv.mail
  obtain ⟨-, hpushed, hnext, hsize, hreleased⟩ := Remote.own_fields hstep
  rw [show releases (withNodes m a.arena).drain = none from hnone] at hreleased
  refine hv.mailbox (hm.own hN hstep) hnext hsize ?_
  rw [(Remote.Mailbox.inFlight_congr hpushed hreleased).1]
  exact hv.pending

omit [DecidableEq θ] in
/-- The owner releases a block: it is live, and nothing else is touched. -/
theorem ownRelease (hoff : cfg.redzone = false) (hsome : releases m.drain = some b)
    (hstep : (withNodes m a.arena).own N = some m') :
    b.ptr ∈ m.inFlight ∧ b.ptr ∉ m'.inFlight ∧ (∀ {q}, q ∈ m'.inFlight → q ∈ m.inFlight) ∧ ∃ t',
      Arena.remoteRelease cfg a.arena b true = .ok (true, t') ∧
      a.Legal (Arena.releaseOp b) ∧
      a.step cfg (Arena.releaseOp b) = .ok (a.release b.ptr (true, t')) ∧
      Serves cfg N m' (a.release b.ptr (true, t')) ∧
      Kept cfg (some b.ptr) none a (a.release b.ptr (true, t')) := by
  obtain ⟨U, hS⟩ := hv.sound
  obtain ⟨S, C, hm⟩ := hv.mail
  obtain ⟨S', C', hm'⟩ := hm.own hN hstep
  obtain ⟨-, hpushed, hnext, hsize, hreleased⟩ := Remote.own_fields hstep
  have hb : b ∈ m.pending := hm.releases_pending hN hstep hsome
  have hpending : ∀ {d}, d ∈ m'.pending ↔
      d ∈ m.pending ∧ ∀ b, releases m.drain = some b → d.ptr ≠ b.ptr := hm.pending_own hN hstep
  have hsub : ∀ {q}, q ∈ m'.inFlight → q ∈ m.inFlight ∧ q ≠ b.ptr := by
    intro q hq
    obtain ⟨d, hd, rfl⟩ := Remote.Mailbox.mem_inFlight.1 hq
    obtain ⟨hd, hne⟩ := hpending.1 hd
    exact ⟨Remote.Mailbox.mem_inFlight.2 ⟨d, hd, rfl⟩, hne b hsome⟩
  obtain ⟨h, hlive, hsized⟩ := hv.pending b hb
  obtain ⟨t', hrel, hrun⟩ := hS.remoteRelease hoff hv.solid hlive hsized
  have hlegal := Arena.releaseOp_legal (b := b) hlive
  obtain ⟨husual, hfrees, hwrites, -⟩ := Arena.releaseOp_spec b
  obtain ⟨U', hS', hk⟩ := hS.step_kept hoff hv.solid husual hlegal hrun
  rw [hfrees, hwrites] at hk
  have hnodes : ∀ q ∈ m'.inFlight, Arena.nodeNext t' q = m'.next q ∧
      Arena.nodeSize t' q = m'.nodeSize q := by
    intro q hq
    obtain ⟨hq, hne⟩ := hsub hq
    obtain ⟨h', hlive'⟩ := hv.live hq
    rw [hnext, hsize]
    exact nodes_kept hk hS hoff hv.solid hlive' (fun he => hne (Option.some.inj he).symm) (by simp)
  refine ⟨Remote.Mailbox.mem_inFlight.2 ⟨b, hb, rfl⟩, fun hmem => (hsub hmem).2 rfl,
    fun hq => (hsub hq).1, t', hrel, hlegal, hrun,
    ⟨⟨U', hS'⟩, hv.solid.release _ _, ⟨S', C', ?_⟩, ?_⟩, hk⟩
  · exact hm'.withNodes (fun q hq => (hnodes q hq).1) fun q hq => (hnodes q hq).2
  · intro d hd
    obtain ⟨hd, hne⟩ := hpending.1 hd
    obtain ⟨h', hlive', hsized'⟩ := hv.pending d hd
    exact ⟨h', hk.live hlive' fun he => hne b hsome (Option.some.inj he).symm, hsized'⟩

end Mail
end Serves
end AbcMalloc.Threads
