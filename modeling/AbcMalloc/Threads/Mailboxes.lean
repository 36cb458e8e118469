import AbcMalloc.Remote.Runs
import AbcMalloc.Threads.Model

/-! What is in flight in a mailbox, and what each step of a producer or of the owner does to it. -/
namespace AbcMalloc.Remote
open Function Foundation

variable {θ : Type*} {N : ℕ} {w w' : Mailbox θ} {S C : List Payload} {b c : Payload} {t : θ}

def Mailbox.pending (w : Mailbox θ) : Multiset Payload := w.pushed - w.released

theorem Mailbox.mem_inFlight {p : ℕ} : p ∈ w.inFlight ↔ ∃ b ∈ w.pending, b.ptr = p :=
  Multiset.mem_map

theorem Mailbox.inFlight_congr (hpushed : w'.pushed = w.pushed)
    (hreleased : w'.released = w.released) :
    w'.pending = w.pending ∧ w'.inFlight = w.inFlight := by
  constructor
  · rw [pending, pending, hpushed, hreleased]
  · rw [inFlight, inFlight, hpushed, hreleased]

/-! ## The account -/

section Account
variable [Fintype θ]

theorem Account.pending_eq (h : Account w S C) :
    w.pending = ∑ x, (w.pushing x).waiting + ↑(w.placed S C) := by
  rw [Mailbox.pending, h.total, h.balance, add_left_comm, add_tsub_cancel_left]

theorem Account.mem_pending (h : Account w S C) (hb : (w.pushing t).waits = some b) :
    b ∈ w.pending := by
  rw [h.pending_eq]
  exact Multiset.mem_add.2
    (Or.inl (Multiset.mem_sum.2 ⟨t, Finset.mem_univ t, PushPc.mem_waiting.2 hb⟩))

/-- No block is in flight twice. -/
theorem Account.inFlight_nodup (h : Account w S C) : w.inFlight.Nodup := by
  have hflight : w.inFlight = (∑ x, (w.pushing x).waiting).map Payload.ptr +
      ↑((w.placed S C).map Payload.ptr) := by
    rw [Mailbox.inFlight, ← Mailbox.pending, h.pending_eq, Multiset.map_add, Multiset.map_coe]
  have hwaiting : ∀ {p : ℕ} {x : θ}, p ∈ (w.pushing x).waiting.map Payload.ptr →
      ∃ b, (w.pushing x).waits = some b ∧ b.ptr = p := by
    intro p x hp
    obtain ⟨b, hb, hbp⟩ := Multiset.mem_map.1 hp
    exact ⟨b, PushPc.mem_waiting.1 hb, hbp⟩
  have hsum : (∑ x, (w.pushing x).waiting).map Payload.ptr =
      (Finset.univ : Finset θ).val.bind fun x => (w.pushing x).waiting.map Payload.ptr :=
    Multiset.map_bind Finset.univ.val (fun x => (w.pushing x).waiting) Payload.ptr
  rw [hflight, Multiset.nodup_add]
  refine ⟨?_, Multiset.coe_nodup.2 h.nodup, ?_⟩
  · rw [hsum, Multiset.nodup_bind]
    constructor
    · intro x _
      rw [PushPc.waiting]
      cases (w.pushing x).waits with
      | none => exact Multiset.nodup_zero
      | some b => exact Multiset.nodup_singleton _
    · refine Multiset.Nodup.pairwise (fun x _ y _ hxy => ?_) Finset.univ.nodup
      refine Multiset.disjoint_left.2 fun {p} hp hp' => ?_
      obtain ⟨b, hb, rfl⟩ := hwaiting hp
      obtain ⟨b', hb', he⟩ := hwaiting hp'
      exact hxy (h.once hb hb' he.symm)
  · refine Multiset.disjoint_left.2 fun {p} hp hp' => ?_
    rw [hsum, Multiset.mem_bind] at hp
    obtain ⟨x, -, hp⟩ := hp
    obtain ⟨b, hb, rfl⟩ := hwaiting hp
    exact h.apart hb (Multiset.mem_coe.1 hp')

end Account

/-! ## Nodes -/

/-- Only the nodes of the blocks in flight count. -/
theorem Inv.withNodes [Fintype θ] (h : Inv N w S C) {next nodeSize : ℕ → ℕ}
    (hnext : ∀ p ∈ w.inFlight, next p = w.next p)
    (hsize : ∀ p ∈ w.inFlight, nodeSize p = w.nodeSize p) :
    Inv N { w with
      next := next
      nodeSize := nodeSize } S C := by
  have hacc := h.account
  have hring := h.ring
  have hplaced : ∀ {b}, b ∈ w.placed S C → b.ptr ∈ w.inFlight := by
    intro b hb
    refine Mailbox.mem_inFlight.2 ⟨b, ?_, rfl⟩
    rw [hacc.pending_eq]
    exact Multiset.mem_add.2 (Or.inr hb)
  have hwaits : ∀ {x b}, (w.pushing x).waits = some b → b.ptr ∈ w.inFlight := fun hb =>
    Mailbox.mem_inFlight.2 ⟨_, hacc.mem_pending hb, rfl⟩
  have hchain : ∀ {p l}, (∀ b ∈ l, b ∈ w.placed S C) → Chain w.next w.nodeSize p l →
      Chain next nodeSize p l := by
    intro p l hl hp
    refine hp.congr (fun x hx => ?_) fun x hx => ?_
    all_goals obtain ⟨b, hb, rfl⟩ := List.mem_map.1 hx
    · exact hnext _ (hplaced (hl b hb))
    · exact hsize _ (hplaced (hl b hb))
  have hS : ∀ b ∈ S, b ∈ w.placed S C := fun b hb =>
    List.mem_append_left _ (List.mem_append_right _ hb)
  have hC : ∀ b ∈ C, b ∈ w.placed S C := fun b hb => List.mem_append_right _ hb
  have hover : Overflow { w with
      next := next
      nodeSize := nodeSize } S C := by
    refine ⟨hchain hS h.overflow.stack, fun {x b} hx => ?_, fun {x b head} hx => ?_, ?_⟩
    · exact (hsize _ (hwaits (PushPc.waits_of_sized hx))).trans (h.overflow.sized hx)
    · exact (hnext _ (hwaits (x := x) (by rw [hx]; rfl))).trans (h.overflow.linked hx)
    · have howner := h.overflow.owner
      simp only [Mailbox.OwnerWalk] at howner ⊢
      cases hd : w.drain with
      | walk node =>
        rw [hd] at howner
        exact hchain hC howner
      | readNodeSize node nx =>
        rw [hd] at howner
        obtain ⟨b, C', rfl, rfl, hb, hrest⟩ := howner
        refine ⟨b, C', rfl, rfl, ?_, hchain (fun d hd => hC d (List.mem_cons_of_mem _ hd)) hrest⟩
        exact (hsize _ (hplaced (hC b List.mem_cons_self))).trans hb
      | releaseNode b nx =>
        rw [hd] at howner
        obtain ⟨C', rfl, hrest⟩ := howner
        exact ⟨C', rfl, hchain (fun d hd => hC d (List.mem_cons_of_mem _ hd)) hrest⟩
      | _ =>
        rw [hd] at howner
        exact howner
  exact ⟨⟨hring.length, hring.start, hring.room, hring.free, hring.filled, hring.fills,
    hring.unique, hring.wrotePtr, hring.wroteSize, hring.sees, hring.reserves, hring.owner⟩, hover,
    ⟨hacc.total, hacc.balance, hacc.ordered, hacc.nonnull, hacc.once, hacc.apart, hacc.nodup⟩⟩

/-! ## The owner -/

theorem own_fields (hstep : w.own N = some w') : w'.pushing = w.pushing ∧ w'.pushed = w.pushed ∧
    w'.next = w.next ∧ w'.nodeSize = w.nodeSize ∧
    w'.released = (Threads.releases w.drain).elim w.released (· ::ₘ w.released) := by
  unfold Mailbox.own at hstep
  cases hd : w.drain <;> rw [hd] at hstep
  case idle => exact absurd hstep (by simp)
  all_goals
    obtain rfl := Option.some.inj hstep
    exact ⟨rfl, rfl, rfl, rfl, rfl⟩

theorem Mailbox.exists_own (hd : w.drain ≠ .idle) : ∃ w', w.own N = some w' := by
  unfold Mailbox.own
  cases hpc : w.drain
  case idle => exact absurd hpc hd
  all_goals exact ⟨_, rfl⟩

section Own
variable [Fintype θ] (h : Inv N w S C) (hN : IsCapacity N) (hstep : w.own N = some w')
include h hN hstep

theorem Inv.releases_pending (hb : Threads.releases w.drain = some b) : b ∈ w.pending := by
  obtain ⟨S', C', h'⟩ := h.own hN hstep
  obtain ⟨-, hpushed, -, -, hreleased⟩ := own_fields hstep
  have hle : w'.released ≤ w'.pushed := h'.released_le.trans h'.reserved_le
  rw [hreleased, hpushed, hb] at hle
  have hsingle : ({b} : Multiset Payload) ≤ w.pending := by
    refine le_tsub_of_add_le_right ?_
    rwa [Multiset.singleton_add]
  exact Multiset.singleton_le.1 hsingle

/-- The pair that the owner releases is in flight no more, the other ones are. -/
theorem Inv.pending_own : c ∈ w'.pending ↔
    c ∈ w.pending ∧ ∀ b, Threads.releases w.drain = some b → c.ptr ≠ b.ptr := by
  obtain ⟨-, hpushed, -, -, hreleased⟩ := own_fields hstep
  cases hr : Threads.releases w.drain with
  | none =>
    rw [hr] at hreleased
    rw [(Mailbox.inFlight_congr hpushed hreleased).1]
    simp
  | some b =>
    rw [hr] at hreleased
    have hb := h.releases_pending hN hstep hr
    have herase : w'.pending = w.pending.erase b := by
      rw [Mailbox.pending, hpushed, hreleased]
      show w.pushed - b ::ₘ w.released = _
      rw [← Multiset.singleton_add, add_comm, tsub_add_eq_tsub_tsub, Multiset.sub_singleton]
      rfl
    have hnodup : (w.pending.map Payload.ptr).Nodup := h.account.inFlight_nodup
    rw [← Multiset.cons_erase hb, Multiset.map_cons, Multiset.nodup_cons] at hnodup
    rw [herase]
    constructor
    · intro hc
      refine ⟨Multiset.mem_of_mem_erase hc, fun d hd hcd => ?_⟩
      obtain rfl := Option.some.inj hd
      exact hnodup.1 (hcd ▸ Multiset.mem_map_of_mem Payload.ptr hc)
    · rintro ⟨hc, hne⟩
      exact (Multiset.mem_erase_of_ne fun heq => hne b rfl (by rw [heq])).2 hc

end Own

/-! ## Producers -/

section Produce
variable [DecidableEq θ] {x : θ} {spurious : Bool}

theorem produce_fields (hstep : w.produce N x spurious = some w') : w'.pushed = w.pushed ∧
    w'.released = w.released ∧ w'.drain = w.drain := by
  unfold Mailbox.produce at hstep
  cases hpc : w.pushing x <;> rw [hpc] at hstep
  case idle => exact absurd hstep (by simp)
  case loadSeq | reserve | link =>
    dsimp only at hstep
    split_ifs at hstep
    all_goals
      obtain rfl := Option.some.inj hstep
      exact ⟨rfl, rfl, rfl⟩
  all_goals
    obtain rfl := Option.some.inj hstep
    exact ⟨rfl, rfl, rfl⟩

/-- A thread that stores to no node leaves the nodes alone. -/
theorem produce_nodes (hstep : w.produce N x spurious = some w')
    (hnone : Arena.nodeStore (w.pushing x) = none) :
    w'.next = w.next ∧ w'.nodeSize = w.nodeSize := by
  unfold Mailbox.produce at hstep
  cases hpc : w.pushing x <;> rw [hpc] at hstep hnone
  case idle => exact absurd hstep (by simp)
  case writeNodeSize | writeNext => exact absurd hnone (by simp [Arena.nodeStore])
  case loadSeq | reserve | link =>
    dsimp only at hstep
    split_ifs at hstep
    all_goals
      obtain rfl := Option.some.inj hstep
      exact ⟨rfl, rfl⟩
  all_goals
    obtain rfl := Option.some.inj hstep
    exact ⟨rfl, rfl⟩

theorem produce_store (hstep : w.produce N x spurious = some w') {p : ℕ} {f : Cell → Cell}
    (hsome : Arena.nodeStore (w.pushing x) = some (p, f)) :
    (∃ b, (w.pushing x).waits = some b ∧ b.ptr = p) ∧
      (∀ {q}, q ≠ p → w'.next q = w.next q ∧ w'.nodeSize q = w.nodeSize q) ∧
      ∀ v, w.next p = Arena.nodeWord v → w.nodeSize p = v.w1 →
        w'.next p = Arena.nodeWord (f v) ∧ w'.nodeSize p = (f v).w1 := by
  unfold Mailbox.produce at hstep
  cases hpc : w.pushing x <;> rw [hpc] at hstep hsome
  case writeNodeSize b =>
    obtain rfl := Option.some.inj hstep
    obtain ⟨rfl, rfl⟩ := Prod.mk.inj (Option.some.inj hsome)
    refine ⟨⟨b, rfl, rfl⟩, fun hq => ⟨rfl, update_of_ne hq _ _⟩, fun v hnext _ => ⟨hnext, ?_⟩⟩
    exact update_self ..
  case writeNext b head =>
    obtain rfl := Option.some.inj hstep
    obtain ⟨rfl, rfl⟩ := Prod.mk.inj (Option.some.inj hsome)
    refine ⟨⟨b, rfl, rfl⟩, fun hq => ⟨update_of_ne hq _ _, rfl⟩, fun v _ hsize => ⟨?_, hsize⟩⟩
    show update w.next b.ptr head b.ptr = head % 2 ^ 32 + 2 ^ 32 * (head / 2 ^ 32)
    rw [update_self, Nat.mod_add_div]
  all_goals exact absurd hsome (by simp [Arena.nodeStore])

end Produce
end AbcMalloc.Remote
