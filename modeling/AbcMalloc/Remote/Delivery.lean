import AbcMalloc.Foundation.Intervals
import AbcMalloc.Foundation.Links
import AbcMalloc.Remote.Ring

/-! The overflow stack, and where each pushed pair is: with a thread that has no place for it
yet, in the ring, on the stack, on the list that the owner took, or released. -/
namespace AbcMalloc.Remote
open Function Foundation

/-! ## Overflow nodes -/

/-- The nodes of the blocks `l`, linked from `p` on. -/
structure Chain (next nodeSize : ℕ → ℕ) (p : ℕ) (l : List Payload) : Prop where
  first : p = (l.map Payload.ptr).headD 0
  path : Path next (l.map Payload.ptr) 0
  node : ∀ b ∈ l, b.ptr ≠ 0 ∧ nodeSize b.ptr = b.size

section Chain
variable {next next' nodeSize nodeSize' : ℕ → ℕ} {p : ℕ} {b : Payload} {l : List Payload}

theorem chain_nil : Chain next nodeSize 0 [] := ⟨rfl, trivial, by simp⟩

theorem Chain.congr (h : Chain next nodeSize p l)
    (hnext : ∀ x ∈ l.map Payload.ptr, next' x = next x)
    (hsize : ∀ x ∈ l.map Payload.ptr, nodeSize' x = nodeSize x) : Chain next' nodeSize' p l := by
  refine ⟨h.first, h.path.congr hnext, fun b hb => ?_⟩
  rw [hsize b.ptr (List.mem_map_of_mem hb)]
  exact h.node b hb

theorem Chain.cons (h : Chain next nodeSize p l) (hb : b.ptr ≠ 0) (hnext : next b.ptr = p)
    (hsize : nodeSize b.ptr = b.size) : Chain next nodeSize b.ptr (b :: l) := by
  refine ⟨rfl, ⟨hnext.trans h.first, h.path⟩, fun c hc => ?_⟩
  rcases List.mem_cons.1 hc with rfl | hc
  · exact ⟨hb, hsize⟩
  · exact h.node c hc

theorem Chain.exists_cons (h : Chain next nodeSize p l) (hp : p ≠ 0) :
    ∃ b l', l = b :: l' ∧ p = b.ptr ∧ nodeSize p = b.size ∧ Chain next nodeSize (next p) l' := by
  cases l with
  | nil => exact absurd h.first hp
  | cons b l =>
    have hfirst : p = b.ptr := h.first
    subst hfirst
    exact ⟨b, l, rfl, rfl, (h.node b List.mem_cons_self).2, h.path.1, h.path.2,
      fun c hc => h.node c (List.mem_cons_of_mem _ hc)⟩

theorem Chain.eq_nil (h : Chain next nodeSize 0 l) : l = [] := by
  cases l with
  | nil => rfl
  | cons b l => exact absurd h.first (h.node b List.mem_cons_self).1.symm

end Chain

/-! ## Views of the program counters -/

/-- The pair for which a thread has no place yet. -/
def PushPc.waits : PushPc → Option Payload
  | .loadTail b => some b
  | .loadSeq b _ => some b
  | .reserve b _ => some b
  | .writeNodeSize b => some b
  | .loadHead b => some b
  | .writeNext b _ => some b
  | .link b _ => some b
  | _ => none

def PushPc.sized : PushPc → Option Payload
  | .loadHead b => some b
  | .writeNext b _ => some b
  | .link b _ => some b
  | _ => none

theorem PushPc.waits_of_sized {pc : PushPc} {b : Payload} (h : pc.sized = some b) :
    pc.waits = some b := by
  cases pc <;> simp_all [PushPc.sized, PushPc.waits]

def PushPc.waiting (pc : PushPc) : Multiset Payload := pc.waits.elim 0 ({·})

theorem PushPc.mem_waiting {pc : PushPc} {b : Payload} : b ∈ pc.waiting ↔ pc.waits = some b := by
  cases h : pc.waits with
  | none => simp [PushPc.waiting, h]
  | some c => simp [PushPc.waiting, h, eq_comm]

variable {θ : Type*} {N : ℕ} {w : Mailbox θ} {S C : List Payload}

/-- Reservations below this number were handed to `__remote_release`. -/
def Mailbox.handed (w : Mailbox θ) : ℕ :=
  match w.drain with
  | .release _ => w.head - 1
  | _ => w.head

def Mailbox.OwnerWalk (w : Mailbox θ) (C : List Payload) : Prop :=
  match w.drain with
  | .walk node => Chain w.next w.nodeSize node C
  | .readNodeSize node next => ∃ b C', C = b :: C' ∧ node = b.ptr ∧ w.nodeSize node = b.size ∧
      Chain w.next w.nodeSize next C'
  | .releaseNode b next => ∃ C', C = b :: C' ∧ Chain w.next w.nodeSize next C'
  | _ => C = []

structure Overflow (w : Mailbox θ) (S C : List Payload) : Prop where
  stack : Chain w.next w.nodeSize w.ovf S
  sized : ∀ {x b}, (w.pushing x).sized = some b → w.nodeSize b.ptr = b.size
  linked : ∀ {x b head}, w.pushing x = .link b head → w.next b.ptr = head
  owner : w.OwnerWalk C

def Mailbox.placed (w : Mailbox θ) (S C : List Payload) : List Payload :=
  w.slots.drop w.handed ++ S ++ C

structure Account [Fintype θ] (w : Mailbox θ) (S C : List Payload) : Prop where
  total : w.pushed = ∑ x, (w.pushing x).waiting + w.reserved
  balance : w.reserved = w.released + ↑(w.placed S C)
  ordered : w.ringReleased = w.slots.take w.handed
  nonnull : ∀ {x b}, (w.pushing x).waits = some b → b.ptr ≠ 0
  once : ∀ {x x' b b'}, (w.pushing x).waits = some b → (w.pushing x').waits = some b' →
    b.ptr = b'.ptr → x = x'
  apart : ∀ {x b}, (w.pushing x).waits = some b → b.ptr ∉ (w.placed S C).map Payload.ptr
  nodup : ((w.placed S C).map Payload.ptr).Nodup

/-! ## The stack -/

namespace Overflow

/-- Words of blocks that are neither on a list nor in the hands of a thread may change. -/
theorem write (h : Overflow w S C) {next nodeSize : ℕ → ℕ} {p : ℕ}
    (hnext : ∀ {x}, x ≠ p → next x = w.next x) (hsize : ∀ {x}, x ≠ p → nodeSize x = w.nodeSize x)
    (hS : p ∉ S.map Payload.ptr) (hC : p ∉ C.map Payload.ptr)
    (hp : ∀ {x b}, (w.pushing x).sized = some b → b.ptr ≠ p) :
    Overflow { w with
      next := next
      nodeSize := nodeSize } S C := by
  have hchain : ∀ {q l}, p ∉ l.map Payload.ptr → Chain w.next w.nodeSize q l →
      Chain next nodeSize q l := fun {q l} hl hq =>
    hq.congr (fun x hx => hnext (ne_of_mem_of_not_mem hx hl))
      fun x hx => hsize (ne_of_mem_of_not_mem hx hl)
  refine ⟨hchain hS h.stack, fun hx => (hsize (hp hx)).trans (h.sized hx),
    fun {x b head} hx => ?_, ?_⟩
  · exact (hnext (hp (x := x) (by rw [hx]; rfl))).trans (h.linked hx)
  · have howner := h.owner
    simp only [Mailbox.OwnerWalk] at howner ⊢
    cases hd : w.drain with
    | walk node =>
      rw [hd] at howner
      exact hchain hC howner
    | readNodeSize node nx =>
      rw [hd] at howner
      obtain ⟨b, C', rfl, rfl, hb, hchain'⟩ := howner
      simp only [List.map_cons, List.mem_cons, not_or] at hC
      exact ⟨b, C', rfl, rfl, (hsize (Ne.symm hC.1)).trans hb, hchain hC.2 hchain'⟩
    | releaseNode b nx =>
      rw [hd] at howner
      obtain ⟨C', rfl, hchain'⟩ := howner
      simp only [List.map_cons, List.mem_cons, not_or] at hC
      exact ⟨C', rfl, hchain hC.2 hchain'⟩
    | _ =>
      rw [hd] at howner
      exact howner

/-- The owner moves on without touching the stack. -/
theorem ownerTo (h : Overflow w S C) {d : DrainPc}
    (howner : ({ w with drain := d }).OwnerWalk C) : Overflow { w with drain := d } S C :=
  ⟨h.stack, h.sized, h.linked, howner⟩

variable [DecidableEq θ] {t : θ}

theorem goto (h : Overflow w S C) {pc : PushPc}
    (hsized : ∀ {b}, pc.sized = some b → w.nodeSize b.ptr = b.size)
    (hlinked : ∀ {b head}, pc = .link b head → w.next b.ptr = head) :
    Overflow (w.goto t pc) S C := by
  have hpc : ∀ {x}, x ≠ t → (w.goto t pc).pushing x = w.pushing x := fun hx => update_of_ne hx _ _
  have hpct : (w.goto t pc).pushing t = pc := update_self ..
  refine ⟨h.stack, fun {x b} hx => ?_, fun {x b head} hx => ?_, h.owner⟩
  · by_cases hxt : x = t
    · rw [hxt, hpct] at hx
      exact hsized hx
    · exact h.sized (hpc hxt ▸ hx)
  · by_cases hxt : x = t
    · rw [hxt, hpct] at hx
      exact hlinked hx
    · exact h.linked (hpc hxt ▸ hx)

end Overflow

/-! ## The account -/

section Account
variable [Fintype θ] [DecidableEq θ] {t : θ}

namespace Account

omit [DecidableEq θ] in
theorem not_mem (h : Account w S C) {p : ℕ} (hp : p ∉ w.inFlight) :
    (∀ {x b}, (w.pushing x).waits = some b → b.ptr ≠ p) ∧ p ∉ (w.placed S C).map Payload.ptr := by
  have hflight : w.pushed - w.released = ∑ x, (w.pushing x).waiting + ↑(w.placed S C) := by
    rw [h.total, h.balance, add_left_comm, add_tsub_cancel_left]
  rw [Mailbox.inFlight, hflight] at hp
  constructor
  · intro x b hb he
    refine hp (Multiset.mem_map.2 ⟨b, Multiset.mem_add.2 (Or.inl ?_), he⟩)
    exact Multiset.mem_sum.2 ⟨x, Finset.mem_univ x, PushPc.mem_waiting.2 hb⟩
  · intro hmem
    obtain ⟨b, hb, rfl⟩ := List.mem_map.1 hmem
    exact hp (Multiset.mem_map.2 ⟨b, Multiset.mem_add.2 (Or.inr hb), rfl⟩)

theorem goto (h : Account w S C) {pc : PushPc} (hwaits : pc.waits = (w.pushing t).waits) :
    Account (w.goto t pc) S C := by
  have hpc : ∀ x, ((w.goto t pc).pushing x).waits = (w.pushing x).waits := by
    intro x
    by_cases hxt : x = t
    · rw [hxt, ← hwaits]
      exact congrArg PushPc.waits (update_self ..)
    · exact congrArg PushPc.waits (update_of_ne hxt _ _)
  have hsum : ∑ x, ((w.goto t pc).pushing x).waiting = ∑ x, (w.pushing x).waiting := by
    refine Finset.sum_congr rfl fun x _ => ?_
    rw [PushPc.waiting, PushPc.waiting, hpc]
  refine ⟨?_, h.balance, h.ordered, fun {x b} hx => ?_, fun {x x' b b'} hx hx' => ?_,
    fun {x b} hx => ?_, h.nodup⟩
  · rw [hsum]
    exact h.total
  · rw [hpc] at hx
    exact h.nonnull hx
  · rw [hpc] at hx hx'
    exact h.once hx hx'
  · rw [hpc] at hx
    exact h.apart hx

theorem push (h : Account w S C) {b : Payload} (hidle : w.pushing t = .idle) (hb : b.ptr ≠ 0)
    (hfresh : b.ptr ∉ w.inFlight) :
    Account { w.goto t (.loadTail b) with pushed := b ::ₘ w.pushed } S C := by
  obtain ⟨hother, hplaced⟩ := h.not_mem hfresh
  have hwaits : ∀ {x c}, ((w.goto t (.loadTail b)).pushing x).waits = some c →
      x ≠ t ∧ (w.pushing x).waits = some c ∨ x = t ∧ c = b := by
    intro x c hx
    by_cases hxt : x = t
    · rw [hxt, show (w.goto t (.loadTail b)).pushing t = .loadTail b from update_self ..] at hx
      exact Or.inr ⟨hxt, (Option.some.inj hx).symm⟩
    · rw [show (w.goto t (.loadTail b)).pushing x = w.pushing x from update_of_ne hxt _ _] at hx
      exact Or.inl ⟨hxt, hx⟩
  refine ⟨?_, h.balance, h.ordered, fun {x c} hx => ?_, fun {x x' c c'} hx hx' he => ?_,
    fun {x c} hx => ?_, h.nodup⟩
  · have hsum := sum_update_add PushPc.waiting w.pushing t (.loadTail b)
    rw [hidle] at hsum
    change b ::ₘ w.pushed = ∑ x, (update w.pushing t (.loadTail b) x).waiting + w.reserved
    rw [show ∑ x, (update w.pushing t (.loadTail b) x).waiting = ∑ x,
      (w.pushing x).waiting + {b} from
      (add_zero _).symm.trans hsum, h.total, add_right_comm, ← Multiset.singleton_add,
      add_comm]
  · rcases hwaits hx with ⟨-, hx⟩ | ⟨-, rfl⟩
    · exact h.nonnull hx
    · exact hb
  · rcases hwaits hx with ⟨-, hold⟩ | ⟨hxt, hc⟩
    · rcases hwaits hx' with ⟨-, hold'⟩ | ⟨-, hc'⟩
      · exact h.once hold hold' he
      · exact absurd (hc' ▸ he) (hother hold)
    · rcases hwaits hx' with ⟨-, hold'⟩ | ⟨hxt', -⟩
      · exact absurd (hc ▸ he.symm) (hother hold')
      · rw [hxt, hxt']
  · rcases hwaits hx with ⟨-, hx⟩ | ⟨-, rfl⟩
    · exact h.apart hx
    · exact hplaced

/-- A compare-exchange gives a waiting pair its place. -/
theorem place (h : Account w S C) {w' : Mailbox θ} {S' : List Payload} {b : Payload} {pc : PushPc}
    (hb : (w.pushing t).waits = some b) (hpc : pc.waits = none)
    (hpushing : w'.pushing = update w.pushing t pc) (hpushed : w'.pushed = w.pushed)
    (hreserved : w'.reserved = b ::ₘ w.reserved) (hreleased : w'.released = w.released)
    (hring : w'.ringReleased = w'.slots.take w'.handed)
    (hplaced : (w'.placed S' C).Perm (b :: w.placed S C)) : Account w' S' C := by
  have hwaits : ∀ {x c}, (w'.pushing x).waits = some c → x ≠ t ∧ (w.pushing x).waits = some c := by
    intro x c hx
    rw [hpushing] at hx
    by_cases hxt : x = t
    · rw [hxt, update_self, hpc] at hx
      cases hx
    · rw [update_of_ne hxt] at hx
      exact ⟨hxt, hx⟩
  have hmap := hplaced.map Payload.ptr
  refine ⟨?_, ?_, hring, fun hx => h.nonnull (hwaits hx).2,
    fun hx hx' => h.once (hwaits hx).2 (hwaits hx').2, fun {x c} hx hmem => ?_, ?_⟩
  · have hsum := sum_update_add PushPc.waiting w.pushing t pc
    rw [show pc.waiting = 0 by simp [PushPc.waiting, hpc], add_zero,
      show (w.pushing t).waiting = {b} by simp [PushPc.waiting, hb]] at hsum
    rw [hpushed, h.total, hpushing, hreserved, ← hsum, add_assoc, Multiset.singleton_add]
  · rw [hreserved, hreleased, h.balance, Multiset.coe_eq_coe.2 hplaced, ← Multiset.cons_coe,
      Multiset.add_cons]
  · rcases List.mem_cons.1 (hmap.mem_iff.1 hmem) with he | hmem
    · exact (hwaits hx).1 (h.once (hwaits hx).2 hb he)
    · exact h.apart (hwaits hx).2 hmem
  · exact hmap.nodup_iff.2 (List.nodup_cons.2 ⟨h.apart hb, h.nodup⟩)

omit [DecidableEq θ] in
theorem move (h : Account w S C) {w' : Mailbox θ} {S' C' : List Payload}
    (hpushing : w'.pushing = w.pushing) (hpushed : w'.pushed = w.pushed)
    (hreserved : w'.reserved = w.reserved) (hreleased : w'.released = w.released)
    (hring : w'.ringReleased = w'.slots.take w'.handed)
    (hplaced : (w'.placed S' C').Perm (w.placed S C)) : Account w' S' C' := by
  have hmap := hplaced.map Payload.ptr
  refine ⟨?_, ?_, hring, ?_, ?_, fun {x b} hx hmem => ?_, hmap.nodup_iff.2 h.nodup⟩
  · rw [hpushed, hreserved, hpushing]
    exact h.total
  · rw [hreserved, hreleased, Multiset.coe_eq_coe.2 hplaced]
    exact h.balance
  · rw [hpushing]
    exact h.nonnull
  · rw [hpushing]
    exact h.once
  · rw [hpushing] at hx
    exact h.apart hx (hmap.mem_iff.1 hmem)

omit [DecidableEq θ] in
/-- The owner hands a pair to `__remote_release`. -/
theorem release (h : Account w S C) {w' : Mailbox θ} {C' : List Payload} {b : Payload}
    (hpushing : w'.pushing = w.pushing) (hpushed : w'.pushed = w.pushed)
    (hreserved : w'.reserved = w.reserved) (hreleased : w'.released = b ::ₘ w.released)
    (hring : w'.ringReleased = w'.slots.take w'.handed)
    (hplaced : (w.placed S C).Perm (b :: w'.placed S C')) : Account w' S C' := by
  have hmap := hplaced.map Payload.ptr
  refine ⟨?_, ?_, hring, ?_, ?_, fun {x c} hx hmem => ?_, ?_⟩
  · rw [hpushed, hreserved, hpushing]
    exact h.total
  · rw [hreserved, hreleased, h.balance, Multiset.coe_eq_coe.2 hplaced, ← Multiset.cons_coe,
      Multiset.add_cons, Multiset.cons_add]
  · rw [hpushing]
    exact h.nonnull
  · rw [hpushing]
    exact h.once
  · rw [hpushing] at hx
    exact h.apart hx (hmap.mem_iff.2 (List.mem_cons_of_mem _ hmem))
  · exact (List.nodup_cons.1 (hmap.nodup_iff.1 h.nodup)).2

end Account

end Account

end AbcMalloc.Remote
