import AbcMalloc.Foundation.Run
import Mathlib.Tactic

/-! Arenas and the threads that own them (`tapi.hpp`): `__claim_arena_slow` and
`__release_tls_arena` by any number of threads, one atomic step or write to `__tls_arena` at a
time. Kernel thread ids are given out by the environment and may be used again after a death. -/
namespace AbcMalloc.Owner
open Function Foundation

/-- An arena: a slot of `__arena_pool` or an overflow node. -/
inductive Slot
  | pool (i : ℕ)
  | node (j : ℕ)
  deriving DecidableEq, Repr

abbrev slotFree : ℤ := -1

/-- The next step of a thread, with the local variables that it still needs. -/
inductive Pc
  | idle
  /-- First loop: slots that were released. -/
  | loadFree
  | casFree (lim i : ℕ)
  /-- Second loop: slots whose owner died. -/
  | loadDead
  | readDead (lim i : ℕ)
  | checkDead (lim i : ℕ) (owner : ℤ)
  | casDead (lim i : ℕ) (owner : ℤ)
  /-- A slot that was never used. -/
  | loadFresh
  | casFresh (cur : ℕ)
  | construct (cur : ℕ)
  | storeFresh (cur : ℕ)
  /-- Overflow nodes, from `rest` on. -/
  | loadHead
  | readNode (rest : List ℕ)
  | checkNode (j : ℕ) (rest : List ℕ) (owner : ℤ)
  | casNode (j : ℕ) (rest : List ℕ) (owner : ℤ)
  /-- A new overflow node. -/
  | storeNode (j : ℕ)
  | loadLink (j : ℕ)
  | linkNode (j : ℕ) (next : Option ℕ)
  /-- `__tls_arena = a` of a thread that owns `s`. -/
  | storeTls (s : Slot)
  /-- `__release_tls_arena`. -/
  | checkRelease (s : Slot)
  | storeRelease (s : Slot)
  | clearTls (s : Slot)
  deriving DecidableEq

structure World (θ : Type*) where
  /-- `__arena_pool_next`. -/
  next : ℕ
  /-- Slots whose `__arena_pool` entry is not null. -/
  built : ℕ → Bool
  /-- `__arena_owner` and the `owner` of the overflow nodes. -/
  owner : Slot → ℤ
  /-- The nodes from `__overflow_head` on. -/
  head : List ℕ
  /-- Overflow nodes allocated so far. -/
  nodes : ℕ
  /-- Threads started so far. -/
  threads : List θ
  alive : θ → Bool
  tid : θ → ℤ
  /-- `__tls_arena`. -/
  tls : θ → Option Slot
  pc : θ → Pc

variable {θ : Type*} [DecidableEq θ]

namespace World

def init (θ : Type*) : World θ :=
  ⟨0, fun _ => false, fun _ => 0, [], 0, [], fun _ => false, fun _ => 0, fun _ => none,
    fun _ => .idle⟩

def ownerAlive (w : World θ) (tid : ℤ) : Bool :=
  tid ≠ 0 && w.threads.any fun t => w.alive t && w.tid t = tid

def goto (w : World θ) (t : θ) (pc : Pc) : World θ := { w with pc := update w.pc t pc }

def acquire (w : World θ) (t : θ) (s : Slot) : World θ :=
  { w.goto t (.storeTls s) with owner := update w.owner s (w.tid t) }

/-- The next atomic step of `t`; `spurious` makes a weak compare-exchange fail. -/
def advance (maxArenas : ℕ) (w : World θ) (t : θ) (spurious : Bool) : Option (World θ) :=
  match w.pc t with
  | .idle => none
  | .loadFree => some (w.goto t (.casFree (min w.next maxArenas) 0))
  | .casFree lim i =>
    if lim ≤ i then some (w.goto t .loadDead)
    else if w.owner (.pool i) = slotFree then some (w.acquire t (.pool i))
    else some (w.goto t (.casFree lim (i + 1)))
  | .loadDead => some (w.goto t (.readDead (min w.next maxArenas) 0))
  | .readDead lim i =>
    if lim ≤ i then some (w.goto t .loadFresh)
    else if w.built i = false then some (w.goto t (.readDead lim (i + 1)))
    else if w.owner (.pool i) ≤ 0 ∨ w.owner (.pool i) = w.tid t then
      some (w.goto t (.readDead lim (i + 1)))
    else some (w.goto t (.checkDead lim i (w.owner (.pool i))))
  | .checkDead lim i owner =>
    if w.ownerAlive owner then some (w.goto t (.readDead lim (i + 1)))
    else some (w.goto t (.casDead lim i owner))
  | .casDead lim i owner =>
    if w.owner (.pool i) = owner then some (w.acquire t (.pool i))
    else some (w.goto t (.readDead lim (i + 1)))
  | .loadFresh => some (w.goto t (.casFresh w.next))
  | .casFresh cur =>
    if maxArenas ≤ cur then some (w.goto t .loadHead)
    else if w.next = cur then some { w.goto t (.construct cur) with next := cur + 1 }
    else some (w.goto t (.casFresh w.next))
  | .construct cur => some { w.goto t (.storeFresh cur) with built := update w.built cur true }
  | .storeFresh cur => some (w.acquire t (.pool cur))
  | .loadHead => some (w.goto t (.readNode w.head))
  | .readNode [] =>
    some { w.goto t (.storeNode w.nodes) with
      nodes := w.nodes + 1
      owner := update w.owner (.node w.nodes) 0 }
  | .readNode (j :: rest) =>
    let owner := w.owner (.node j)
    if owner = slotFree then some (w.goto t (.casNode j rest owner))
    else if 0 < owner ∧ owner ≠ w.tid t then some (w.goto t (.checkNode j rest owner))
    else some (w.goto t (.readNode rest))
  | .checkNode j rest owner =>
    if w.ownerAlive owner then some (w.goto t (.readNode rest))
    else some (w.goto t (.casNode j rest owner))
  | .casNode j rest owner =>
    if w.owner (.node j) = owner then some (w.acquire t (.node j))
    else some (w.goto t (.readNode rest))
  | .storeNode j =>
    some { w.goto t (.loadLink j) with owner := update w.owner (.node j) (w.tid t) }
  | .loadLink j => some (w.goto t (.linkNode j w.head.head?))
  | .linkNode j next =>
    if spurious = false ∧ w.head.head? = next then
      some { w.goto t (.storeTls (.node j)) with head := j :: w.head }
    else some (w.goto t (.linkNode j w.head.head?))
  | .storeTls s => some { w.goto t .idle with tls := update w.tls t (some s) }
  | .checkRelease s =>
    if w.owner s = w.tid t then some (w.goto t (.storeRelease s)) else some (w.goto t (.clearTls s))
  | .storeRelease s => some { w.goto t (.clearTls s) with owner := update w.owner s slotFree }
  | .clearTls _ => some { w.goto t .idle with tls := update w.tls t none }

end World

inductive Event (θ : Type*)
  | spawn (t : θ) (tid : ℤ)
  /-- The thread ends without the exit hook, wherever it is. -/
  | die (t : θ)
  | claim (t : θ)
  | release (t : θ)
  | advance (t : θ) (spurious : Bool)

/-- `pid` is the id of the initial thread, which keeps its arena. -/
def World.step (maxArenas : ℕ) (pid : ℤ) (w : World θ) : Event θ → Option (World θ)
  | .spawn t tid =>
    some { w with
      threads := t :: w.threads
      alive := update w.alive t true
      tid := update w.tid t tid }
  | .die t => some { w with alive := update w.alive t false }
  | .claim t => some (w.goto t .loadFree)
  | .release t =>
    match w.tls t with
    | none => some w
    | some s => if w.tid t = pid then some w else some (w.goto t (.checkRelease s))
  | .advance t spurious => w.advance maxArenas t spurious

/-- Thread ids are unique among the live threads; `__claim_arena_slow` runs on a thread without
an arena. -/
def World.legal (w : World θ) : Event θ → Prop
  | .spawn t tid => t ∉ w.threads ∧ 0 < tid ∧ w.ownerAlive tid = false
  | .die t => w.alive t = true
  | .claim t => w.alive t = true ∧ (w.pc t matches .idle) ∧ w.tls t = none
  | .release t => w.alive t = true ∧ (w.pc t matches .idle)
  | .advance t _ => w.alive t = true

/-- No live thread is between its store of `__arena_slot_free` to the owner of `s` and the clearing
of its `__tls_arena`. -/
def World.settled (w : World θ) (s : Slot) : Bool :=
  w.threads.all fun t => !(w.alive t && w.pc t = .clearTls s)

/-- A slot is taken from a dead owner while no live thread has that owner's id again, and a released
slot after the thread that released it has cleared its `__tls_arena`. -/
def World.unreused (w : World θ) : Event θ → Prop
  | .advance t _ =>
    match w.pc t with
    | .casFree lim i => i < lim → w.owner (.pool i) = slotFree → w.settled (.pool i) = true
    | .casDead _ i owner => w.owner (.pool i) = owner → w.ownerAlive owner = false
    | .casNode j _ owner => w.owner (.node j) = owner →
        if owner = slotFree then w.settled (.node j) = true else w.ownerAlive owner = false
    | _ => True
  | _ => True

instance World.instDecidableLegal (w : World θ) (e : Event θ) : Decidable (w.legal e) := by
  cases e <;> unfold World.legal <;> infer_instance

instance World.instDecidableUnreused (w : World θ) (e : Event θ) : Decidable (w.unreused e) := by
  cases e with
  | advance t spurious =>
    unfold World.unreused
    dsimp only
    split <;> infer_instance
  | _ => exact inferInstanceAs (Decidable True)

def OneOwner (w : World θ) : Prop :=
  ∀ t t' s, w.alive t = true → w.alive t' = true → w.tls t = some s → w.tls t' = some s → t = t'

/-! ## The invariant -/

/-- The slot that a thread has reserved and not handed to itself yet. -/
def Pc.pending : Pc → Option Slot
  | .construct cur => some (.pool cur)
  | .storeFresh cur => some (.pool cur)
  | .storeNode j => some (.node j)
  | .loadLink j => some (.node j)
  | .linkNode j _ => some (.node j)
  | _ => none

def Pc.stored : Pc → Option ℕ
  | .loadLink j => some j
  | .linkNode j _ => some j
  | _ => none

def Pc.visits : Pc → List ℕ
  | .readNode rest => rest
  | .checkNode j rest _ => j :: rest
  | .casNode j rest _ => j :: rest
  | _ => []

/-- The arena that a thread owns and will store to its `__tls_arena`. -/
def Pc.takes : Pc → Option Slot
  | .storeTls s => some s
  | _ => none

def Pc.releases : Pc → Option Slot
  | .checkRelease s => some s
  | .storeRelease s => some s
  | .clearTls s => some s
  | _ => none

/-- The arena that is released but for the clearing of `__tls_arena`. -/
def Pc.clears : Pc → Option Slot
  | .clearTls s => some s
  | _ => none

def Pc.expects : Pc → Option ℤ
  | .checkDead _ _ owner => some owner
  | .casDead _ _ owner => some owner
  | .checkNode _ _ owner => some owner
  | .casNode _ _ owner => some owner
  | _ => none

def Pc.finds : Pc → Option ℤ
  | .checkDead _ _ owner => some owner
  | .casDead _ _ owner => some owner
  | _ => none

def World.Has (w : World θ) (t : θ) (s : Slot) : Prop :=
  w.tls t = some s ∧ (w.pc t).clears = none ∨ (w.pc t).takes = some s

structure ClaimInv (w : World θ) : Prop where
  known : ∀ {t}, w.alive t = true → t ∈ w.threads
  unborn : ∀ {t}, t ∉ w.threads → w.tls t = none ∧ w.pc t = .idle
  pos : ∀ {t}, w.alive t = true → 0 < w.tid t
  tids : ∀ {t t'}, w.alive t = true → w.alive t' = true → w.tid t = w.tid t' → t = t'
  /-- The owner field of an arena names the live thread that has it. -/
  has : ∀ {t s}, w.alive t = true → w.Has t s → w.owner s = w.tid t
  cleared : ∀ {t s}, w.alive t = true → (w.pc t).clears = some s → w.owner s = slotFree
  single : ∀ {t t' s}, w.alive t = true → w.alive t' = true → (w.pc t).clears = some s →
    (w.pc t').clears = some s → t = t'
  releasing : ∀ {t s}, (w.pc t).releases = some s → w.tls t = some s
  unclaimed : ∀ {c}, w.next ≤ c → w.owner (.pool c) = 0
  fresh : ∀ {t c}, (w.pc t).pending = some (.pool c) → c < w.next ∧ w.owner (.pool c) = 0
  unlinked : ∀ {t j}, (w.pc t).pending = some (.node j) → j < w.nodes ∧ j ∉ w.head
  unique : ∀ {t t' s}, (w.pc t).pending = some s → (w.pc t').pending = some s → t = t'
  stored : ∀ {t j}, w.alive t = true → (w.pc t).stored = some j → w.owner (.node j) = w.tid t
  linked : ∀ {j}, j ∈ w.head → j < w.nodes
  visits : ∀ {t j}, j ∈ (w.pc t).visits → j ∈ w.head
  heldNode : ∀ {t j}, w.tls t = some (.node j) ∨ (w.pc t).takes = some (.node j) → j ∈ w.head
  expects : ∀ {t o}, (w.pc t).expects = some o → o ≠ 0
  finds : ∀ {t o}, (w.pc t).finds = some o → 0 < o

theorem Pc.releases_of_clears {pc : Pc} {s : Slot} (h : pc.clears = some s) :
    pc.releases = some s := by
  cases pc <;> simp_all [Pc.clears, Pc.releases]

theorem Pc.pending_of_stored {pc : Pc} {j : ℕ} (h : pc.stored = some j) :
    pc.pending = some (.node j) := by
  cases pc <;> simp_all [Pc.stored, Pc.pending]

omit [DecidableEq θ] in
theorem World.ownerAlive_iff {w : World θ} (h : ∀ {t}, w.alive t = true → t ∈ w.threads) {tid : ℤ}
    (htid : tid ≠ 0) : w.ownerAlive tid = true ↔ ∃ t, w.alive t = true ∧ w.tid t = tid := by
  simp only [World.ownerAlive, Bool.and_eq_true, decide_eq_true_eq, List.any_eq_true]
  constructor
  · rintro ⟨-, t, -, ht⟩
    exact ⟨t, ht⟩
  · rintro ⟨t, ht⟩
    exact ⟨htid, t, h ht.1, ht⟩

def World.Vacant (w : World θ) (s : Slot) : Prop :=
  (∀ x, (w.pc x).pending ≠ some s) ∧
    match s with
    | .pool c => c < w.next ∧ w.owner (.pool c) = 0
    | .node j => j < w.nodes ∧ j ∉ w.head

namespace ClaimInv
variable {w : World θ} {t : θ}

/-- A step that only moves on. What is pending afterwards was so before or is vacant. -/
theorem goto (h : ClaimInv w) {pc : Pc} (ht : w.alive t = true)
    (hpend : ∀ {s}, pc.pending = some s → (w.pc t).pending = some s ∨ w.Vacant s)
    (hstored : ∀ {j}, pc.stored = some j → w.owner (.node j) = w.tid t)
    (hvisits : ∀ {j}, j ∈ pc.visits → j ∈ w.head)
    (hrelease : ∀ {s}, pc.releases = some s → w.tls t = some s)
    (hexpects : ∀ {o}, pc.expects = some o → o ≠ 0) (hfinds : ∀ {o}, pc.finds = some o → 0 < o)
    (htakes : pc.takes = none) (hclears : pc.clears = none) (hold : (w.pc t).clears = none) :
    ClaimInv (w.goto t pc) := by
  have hpc : ∀ x, (w.goto t pc).pc x = if x = t then pc else w.pc x := fun x => update_apply _ _ _ _
  have hpending : ∀ {x s}, ((w.goto t pc).pc x).pending = some s →
      (w.pc x).pending = some s ∨ x = t ∧ w.Vacant s := by
    intro x s hx
    rw [hpc] at hx
    split_ifs at hx with hxt
    · exact (hpend hx).imp (fun hs => hxt ▸ hs) fun hs => ⟨hxt, hs⟩
    · exact Or.inl hx
  have htakes' : ∀ {x s}, ((w.goto t pc).pc x).takes = some s → (w.pc x).takes = some s := by
    intro x s hx
    rw [hpc] at hx
    split_ifs at hx with hxt
    · rw [htakes] at hx
      cases hx
    · exact hx
  have hclears' : ∀ {x}, ((w.goto t pc).pc x).clears = (w.pc x).clears := by
    intro x
    rw [hpc]
    split_ifs with hxt
    · rw [hclears, hxt, hold]
    · rfl
  constructor
  case known => exact h.known
  case unborn =>
    intro x hx
    have hxt : x ≠ t := by
      rintro rfl
      exact hx (h.known ht)
    rw [hpc, if_neg hxt]
    exact h.unborn hx
  case pos => exact h.pos
  case tids => exact h.tids
  case has =>
    intro x s hal hx
    refine h.has hal (hx.imp (fun hx => ⟨hx.1, ?_⟩) htakes')
    rw [← hclears']
    exact hx.2
  case cleared =>
    intro x s hal hx
    exact h.cleared hal (hclears' ▸ hx)
  case single =>
    intro x x' s hal hal' hx hx'
    exact h.single hal hal' (hclears' ▸ hx) (hclears' ▸ hx')
  case releasing =>
    intro x s hx
    rw [hpc] at hx
    split_ifs at hx with hxt
    · exact hxt ▸ hrelease hx
    · exact h.releasing hx
  case unclaimed => exact h.unclaimed
  case fresh =>
    intro x c hx
    rcases hpending hx with hx | ⟨-, hv⟩
    · exact h.fresh hx
    · exact hv.2
  case unlinked =>
    intro x j hx
    rcases hpending hx with hx | ⟨-, hv⟩
    · exact h.unlinked hx
    · exact hv.2
  case unique =>
    intro x x' s hx hx'
    rcases hpending hx with hx | ⟨hxt, hv⟩
    · rcases hpending hx' with hx' | ⟨-, hv⟩
      · exact h.unique hx hx'
      · exact absurd hx (hv.1 x)
    · rcases hpending hx' with hx' | ⟨hxt', -⟩
      · exact absurd hx' (hv.1 x')
      · rw [hxt, hxt']
  case stored =>
    intro x j hal hx
    rw [hpc] at hx
    split_ifs at hx with hxt
    · exact hxt ▸ hstored hx
    · exact h.stored hal hx
  case linked => exact h.linked
  case visits =>
    intro x j hx
    rw [hpc] at hx
    split_ifs at hx with hxt
    · exact hvisits hx
    · exact h.visits hx
  case heldNode => exact fun hx => h.heldNode (hx.imp id htakes')
  case expects =>
    intro x o hx
    rw [hpc] at hx
    split_ifs at hx with hxt
    · exact hexpects hx
    · exact h.expects hx
  case finds =>
    intro x o hx
    rw [hpc] at hx
    split_ifs at hx with hxt
    · exact hfinds hx
    · exact h.finds hx

omit [DecidableEq θ] in
/-- The owner field of an arena that no live thread has, is about to have or has just released. -/
theorem setOwner (h : ClaimInv w) {s : Slot} (v : ℤ)
    (hfree : ∀ {x}, w.alive x = true → ¬w.Has x s)
    (hclear : ∀ {x}, w.alive x = true → (w.pc x).clears ≠ some s)
    (hpool : ∀ {c}, s = .pool c → c < w.next ∧ ∀ x, (w.pc x).pending ≠ some s)
    (hnode : ∀ {j x}, s = .node j → w.alive x = true → (w.pc x).stored ≠ some j) :
    ClaimInv { w with owner := update w.owner s v } := by
  have hother : ∀ {s'}, s' ≠ s → update w.owner s v s' = w.owner s' :=
    fun hne => update_of_ne hne _ _
  refine ⟨h.known, h.unborn, h.pos, h.tids, fun {x s'} hal hx => ?_, fun {x s'} hal hx => ?_,
    h.single, h.releasing, fun {c} hc => ?_, fun {x c} hx => ?_, h.unlinked, h.unique,
    fun {x j} hal hx => ?_, h.linked, h.visits, h.heldNode, h.expects, h.finds⟩
  · have hne : s' ≠ s := by
      rintro rfl
      exact hfree hal hx
    exact (hother hne).trans (h.has hal hx)
  · have hne : s' ≠ s := by
      rintro rfl
      exact hclear hal hx
    exact (hother hne).trans (h.cleared hal hx)
  · have hne : Slot.pool c ≠ s := fun he => absurd (hpool he.symm).1 (not_lt.2 hc)
    exact (hother hne).trans (h.unclaimed hc)
  · have hne : Slot.pool c ≠ s := fun he => (hpool he.symm).2 x (he ▸ hx)
    exact ⟨(h.fresh hx).1, (hother hne).trans (h.fresh hx).2⟩
  · have hne : Slot.node j ≠ s := fun he => hnode he.symm hal hx
    exact (hother hne).trans (h.stored hal hx)

theorem move (h : ClaimInv w) {pc : Pc} (ht : w.alive t = true) (hpend : pc.pending = none)
    (hstored : pc.stored = none) (hvisits : ∀ {j}, j ∈ pc.visits → j ∈ w.head)
    (hrelease : ∀ {s}, pc.releases = some s → w.tls t = some s)
    (hexpects : ∀ {o}, pc.expects = some o → o ≠ 0) (hfinds : ∀ {o}, pc.finds = some o → 0 < o)
    (htakes : pc.takes = none) (hclears : pc.clears = none) (hold : (w.pc t).clears = none) :
    ClaimInv (w.goto t pc) :=
  h.goto ht (by simp [hpend]) (by simp [hstored]) hvisits hrelease hexpects hfinds htakes
    hclears hold

/-- A step to a point where the thread has nothing in hand. -/
theorem plain (h : ClaimInv w) {pc : Pc} (ht : w.alive t = true) (hpend : pc.pending = none)
    (hstored : pc.stored = none) (hvisits : pc.visits = []) (hrelease : pc.releases = none)
    (hexpects : pc.expects = none) (hfinds : pc.finds = none) (htakes : pc.takes = none)
    (hclears : pc.clears = none) (hold : (w.pc t).clears = none) : ClaimInv (w.goto t pc) :=
  h.move ht hpend hstored (by simp [hvisits]) (by simp [hrelease]) (by simp [hexpects])
    (by simp [hfinds]) htakes hclears hold

/-- A thread with nothing in hand goes to `pc`, with `v` as its `__tls_arena`. -/
theorem put (h : ClaimInv w) (pc : Pc) (v : Option Slot) (ht : w.alive t = true)
    (hpend : pc.pending = none) (hstored : pc.stored = none) (hvisits : pc.visits = [])
    (hexpects : pc.expects = none) (hfinds : pc.finds = none)
    (hhas : ∀ {s}, v = some s ∧ pc.clears = none ∨ pc.takes = some s → w.owner s = w.tid t)
    (hcleared : ∀ {s}, pc.clears = some s → w.owner s = slotFree ∧
      ∀ {x}, x ≠ t → w.alive x = true → (w.pc x).clears ≠ some s)
    (hrelease : ∀ {s}, pc.releases = some s → v = some s)
    (hnode : ∀ {j}, v = some (.node j) ∨ pc.takes = some (.node j) → j ∈ w.head) :
    ClaimInv { w.goto t pc with tls := update w.tls t v } := by
  have hpct : (w.goto t pc).pc t = pc := update_self ..
  have htlst : update w.tls t v t = v := update_self ..
  have hpc : ∀ {x}, x ≠ t → (w.goto t pc).pc x = w.pc x := fun hx => update_of_ne hx _ _
  have htls : ∀ {x}, x ≠ t → update w.tls t v x = w.tls x := fun hx => update_of_ne hx _ _
  have hview : ∀ {β : Type} {view : Pc → Option β} {x : θ} {b : β}, view pc = none →
      view ((w.goto t pc).pc x) = some b → view (w.pc x) = some b := by
    intro β view x b hnone hx
    by_cases hxt : x = t
    · rw [hxt, hpct, hnone] at hx
      cases hx
    · rwa [hpc hxt] at hx
  constructor
  case known => exact h.known
  case unborn =>
    intro x hx
    have hxt : x ≠ t := by
      rintro rfl
      exact hx (h.known ht)
    exact ⟨(htls hxt).trans (h.unborn hx).1, (hpc hxt).trans (h.unborn hx).2⟩
  case pos => exact h.pos
  case tids => exact h.tids
  case has =>
    intro x s hal hx
    unfold World.Has at hx
    dsimp only at hx
    by_cases hxt : x = t
    · rw [hxt, hpct, htlst] at hx
      rw [hxt]
      exact hhas hx
    · rw [hpc hxt, htls hxt] at hx
      exact h.has hal hx
  case cleared =>
    intro x s hal hx
    by_cases hxt : x = t
    · rw [hxt, hpct] at hx
      exact (hcleared hx).1
    · rw [hpc hxt] at hx
      exact h.cleared hal hx
  case single =>
    intro x x' s hal hal' hx hx'
    by_cases hxt : x = t
    · by_cases hxt' : x' = t
      · rw [hxt, hxt']
      · rw [hxt, hpct] at hx
        rw [hpc hxt'] at hx'
        exact absurd hx' ((hcleared hx).2 hxt' hal')
    · rw [hpc hxt] at hx
      by_cases hxt' : x' = t
      · rw [hxt', hpct] at hx'
        exact absurd hx ((hcleared hx').2 hxt hal)
      · rw [hpc hxt'] at hx'
        exact h.single hal hal' hx hx'
  case releasing =>
    intro x s hx
    by_cases hxt : x = t
    · rw [hxt, hpct] at hx
      rw [hxt]
      exact htlst.trans (hrelease hx)
    · rw [hpc hxt] at hx
      exact (htls hxt).trans (h.releasing hx)
  case unclaimed => exact h.unclaimed
  case fresh => exact fun hx => h.fresh (hview hpend hx)
  case unlinked => exact fun hx => h.unlinked (hview hpend hx)
  case unique => exact fun hx hx' => h.unique (hview hpend hx) (hview hpend hx')
  case stored => exact fun hal hx => h.stored hal (hview hstored hx)
  case linked => exact h.linked
  case visits =>
    intro x j hx
    by_cases hxt : x = t
    · rw [hxt, hpct, hvisits] at hx
      exact absurd hx List.not_mem_nil
    · rw [hpc hxt] at hx
      exact h.visits hx
  case heldNode =>
    intro x j hx
    dsimp only at hx
    by_cases hxt : x = t
    · rw [hxt, hpct, htlst] at hx
      exact hnode hx
    · rw [hpc hxt, htls hxt] at hx
      exact h.heldNode hx
  case expects => exact fun hx => h.expects (hview hexpects hx)
  case finds => exact fun hx => h.finds (hview hfinds hx)

theorem toTls (h : ClaimInv w) {s : Slot} (ht : w.alive t = true) (hold : (w.pc t).clears = none)
    (hown : w.owner s = w.tid t) (hnode : ∀ {j}, s = .node j → j ∈ w.head) :
    ClaimInv (w.goto t (.storeTls s)) := by
  have hput := h.put (.storeTls s) (w.tls t) ht rfl rfl rfl rfl rfl (fun hs => ?_)
    (by simp [Pc.clears]) (by simp [Pc.releases]) fun hj => ?_
  · rwa [update_eq_self] at hput
  · rcases hs with ⟨htls, -⟩ | htakes
    · exact h.has ht (Or.inl ⟨htls, hold⟩)
    · rw [← Option.some.inj htakes]
      exact hown
  · rcases hj with htls | htakes
    · exact h.heldNode (Or.inl htls)
    · exact hnode (Option.some.inj htakes)

/-- The owner field of an arena that nobody has is set to the id of a thread. -/
theorem acquire (h : ClaimInv w) {s : Slot} (ht : w.alive t = true) (hold : (w.pc t).clears = none)
    (hfree : ∀ {x}, w.alive x = true → ¬w.Has x s)
    (hclear : ∀ {x}, w.alive x = true → (w.pc x).clears ≠ some s)
    (hpool : ∀ {c}, s = .pool c → c < w.next ∧ ∀ x, x ≠ t → (w.pc x).pending ≠ some s)
    (hnode : ∀ {j}, s = .node j → j ∈ w.head) : ClaimInv (w.acquire t s) := by
  have hpc : (w.goto t .idle).pc t = .idle := update_self ..
  have hother : ∀ {x}, x ≠ t → (w.goto t .idle).pc x = w.pc x := fun hx => update_of_ne hx _ _
  have hidle : ClaimInv (w.goto t .idle) := h.plain ht rfl rfl rfl rfl rfl rfl rfl rfl hold
  have hset : ClaimInv { w.goto t .idle with owner := update w.owner s (w.tid t) } := by
    refine hidle.setOwner (w.tid t) (fun {x} hal hx => ?_) (fun {x} hal hx => ?_)
      (fun {c} hc => ⟨(hpool hc).1, fun x hx => ?_⟩) fun {j x} hj hal hx => ?_
    · refine hfree hal (hx.imp (fun hx => ⟨hx.1, ?_⟩) fun hx => ?_)
      · by_cases hxt : x = t
        · rw [hxt, hold]
        · rw [← hother hxt]
          exact hx.2
      · by_cases hxt : x = t
        · rw [hxt, hpc] at hx
          cases hx
        · rwa [hother hxt] at hx
    · by_cases hxt : x = t
      · rw [hxt, hpc] at hx
        cases hx
      · rw [hother hxt] at hx
        exact hclear hal hx
    · by_cases hxt : x = t
      · rw [hxt, hpc] at hx
        cases hx
      · rw [hother hxt] at hx
        exact (hpool hc).2 x hxt hx
    · exact (hidle.unlinked (Pc.pending_of_stored hx)).2 (hnode hj)
  have htls := hset.toTls (t := t) (s := s) ht (by
    show ((w.goto t .idle).pc t).clears = none
    rw [hpc]
    rfl) (update_self ..) hnode
  unfold World.goto at htls
  dsimp only at htls
  rwa [update_idem] at htls

theorem storeTls (h : ClaimInv w) {s : Slot} (ht : w.alive t = true) (hpc : w.pc t = .storeTls s) :
    ClaimInv { w.goto t .idle with tls := update w.tls t (some s) } := by
  have htakes : (w.pc t).takes = some s := by rw [hpc]; rfl
  refine h.put _ _ ht rfl rfl rfl rfl rfl (fun {s'} hs => ?_) (by simp [Pc.clears])
    (by simp [Pc.releases]) fun {j} hj => ?_
  · rcases hs with ⟨hs, -⟩ | hs
    · rw [← Option.some.inj hs]
      exact h.has ht (Or.inr htakes)
    · cases hs
  · rcases hj with hj | hj
    · rw [Option.some.inj hj] at htakes
      exact h.heldNode (Or.inr htakes)
    · cases hj

theorem drop (h : ClaimInv w) (ht : w.alive t = true) :
    ClaimInv { w.goto t .idle with tls := update w.tls t none } :=
  h.put _ _ ht rfl rfl rfl rfl rfl (by simp [Pc.takes]) (by simp [Pc.clears])
    (by simp [Pc.releases])
    (by simp [Pc.takes])

/-- A thread frees its arena, which stays its `__tls_arena` for one more step. -/
theorem release (h : ClaimInv w) {s : Slot} (ht : w.alive t = true)
    (hpc : w.pc t = .storeRelease s) :
    ClaimInv { w.goto t (.clearTls s) with owner := update w.owner s slotFree } := by
  have hs : w.tls t = some s := h.releasing (by rw [hpc]; rfl)
  have hown : w.owner s = w.tid t := h.has ht (Or.inl ⟨hs, by rw [hpc]; rfl⟩)
  have hpos := h.pos ht
  have hdrop := h.drop ht
  have hpct : (w.goto t .idle).pc t = .idle := update_self ..
  have hother : ∀ {x}, x ≠ t → (w.goto t .idle).pc x = w.pc x := fun hx => update_of_ne hx _ _
  have hclear : ∀ {x}, w.alive x = true → ((w.goto t .idle).pc x).clears ≠ some s := by
    intro x hal hx
    have hfree : w.owner s = slotFree := hdrop.cleared hal hx
    rw [hown] at hfree
    exact absurd hpos (by rw [hfree]; decide)
  have hset := hdrop.setOwner (s := s) slotFree (fun {x} hal hx => ?_) hclear
    (fun {c} hc => ⟨?_, fun x hx => ?_⟩) fun {j x} hj hal hx => ?_
  · have hput := hset.put (.clearTls s) (some s) ht rfl rfl rfl rfl rfl
      (by simp [Pc.clears, Pc.takes]) (fun hs' => ?_) (fun hs' => hs') fun {j} hj => ?_
    · unfold World.goto at hput ⊢
      dsimp only at hput
      rw [update_idem, update_idem, ← hs, update_eq_self] at hput
      exact hput
    · rw [← Option.some.inj hs']
      exact ⟨update_self .., fun _ hal => hclear hal⟩
    · rcases hj with hj | hj
      · exact h.heldNode (Or.inl (hs.trans hj))
      · cases hj
  · have hown' : w.owner s = w.tid x := hdrop.has hal hx
    have hxt : x = t := h.tids hal ht (hown'.symm.trans hown)
    unfold World.Has at hx
    dsimp only at hx
    rw [hxt, update_self, hpct] at hx
    rcases hx with ⟨hx, -⟩ | hx
    · cases hx
    · cases hx
  · by_contra hlt
    have h0 : w.owner s = 0 := hc ▸ h.unclaimed (not_lt.1 hlt)
    omega
  · subst hc
    have h0 : w.owner (.pool c) = 0 := (hdrop.fresh hx).2
    omega
  · subst hj
    exact (hdrop.unlinked (Pc.pending_of_stored hx)).2 (h.heldNode (Or.inl hs))

theorem link (h : ClaimInv w) {j : ℕ} {next : Option ℕ} (ht : w.alive t = true)
    (hpc : w.pc t = .linkNode j next) :
    ClaimInv { w.goto t (.storeTls (.node j)) with head := j :: w.head } := by
  have hpend : (w.pc t).pending = some (.node j) := by rw [hpc]; rfl
  have hown : w.owner (.node j) = w.tid t := h.stored ht (by rw [hpc]; rfl)
  have hidle : ClaimInv (w.goto t .idle) :=
    h.plain ht rfl rfl rfl rfl rfl rfl rfl rfl (by rw [hpc]; rfl)
  have hpct : (w.goto t .idle).pc t = .idle := update_self ..
  have hne : ∀ {x i}, ((w.goto t .idle).pc x).pending = some (.node i) → i ≠ j := by
    rintro x i hx rfl
    by_cases hxt : x = t
    · rw [hxt, hpct] at hx
      cases hx
    · rw [show (w.goto t .idle).pc x = w.pc x from update_of_ne hxt _ _] at hx
      exact hxt (h.unique hx hpend)
  have hhead : ClaimInv { w.goto t .idle with head := j :: w.head } := by
    refine ⟨hidle.known, hidle.unborn, hidle.pos, hidle.tids, hidle.has, hidle.cleared,
      hidle.single, hidle.releasing, hidle.unclaimed, hidle.fresh,
      fun hx => ⟨(hidle.unlinked hx).1, ?_⟩,
      hidle.unique, hidle.stored, fun {i} hi => ?_,
      fun hx => List.mem_cons_of_mem _ (hidle.visits hx),
      fun hx => List.mem_cons_of_mem _ (hidle.heldNode hx), hidle.expects, hidle.finds⟩
    · simp only [List.mem_cons, not_or]
      exact ⟨hne hx, (hidle.unlinked hx).2⟩
    · rcases List.mem_cons.1 hi with rfl | hi
      · exact (h.unlinked hpend).1
      · exact h.linked hi
  have htls := hhead.toTls (t := t) (s := .node j) ht (by
    show ((w.goto t .idle).pc t).clears = none
    rw [hpct]
    rfl) hown fun hi => by rw [← Slot.node.inj hi]; exact List.mem_cons_self
  unfold World.goto at htls ⊢
  dsimp only at htls
  rwa [update_idem] at htls

theorem reservePool (h : ClaimInv w) (ht : w.alive t = true) (hold : (w.pc t).clears = none) :
    ClaimInv { w.goto t (.construct w.next) with next := w.next + 1 } := by
  have hbump : ClaimInv { w with next := w.next + 1 } :=
    ⟨h.known, h.unborn, h.pos, h.tids, h.has, h.cleared, h.single, h.releasing,
      fun hc => h.unclaimed (Nat.le_of_succ_le hc),
      fun hx => ⟨Nat.lt_succ_of_lt (h.fresh hx).1, (h.fresh hx).2⟩, h.unlinked, h.unique, h.stored,
      h.linked, h.visits, h.heldNode, h.expects, h.finds⟩
  refine hbump.goto ht (fun {s} hs => Or.inr ?_) (by simp [Pc.stored]) (by simp [Pc.visits])
    (by simp [Pc.releases]) (by simp [Pc.expects]) (by simp [Pc.finds]) rfl rfl hold
  obtain rfl : Slot.pool w.next = s := Option.some.inj hs
  exact ⟨fun x hx => absurd (h.fresh hx).1 (lt_irrefl _), Nat.lt_succ_self _, h.unclaimed le_rfl⟩

theorem reserveNode (h : ClaimInv w) (ht : w.alive t = true) (hold : (w.pc t).clears = none) :
    ClaimInv { w.goto t (.storeNode w.nodes) with
      nodes := w.nodes + 1
      owner := update w.owner (.node w.nodes) 0 } := by
  have hnew : ∀ {x}, ¬w.Has x (.node w.nodes) := fun hx =>
    absurd (h.linked (h.heldNode (hx.imp And.left id))) (lt_irrefl _)
  have hset := h.setOwner (s := .node w.nodes) 0 (fun _ hx => hnew hx) (fun {x} _ hx => ?_)
    (by simp) fun {j x} hj _ hx => ?_
  · have hbump : ClaimInv { w with
        nodes := w.nodes + 1
        owner := update w.owner (.node w.nodes) 0 } :=
      ⟨hset.known, hset.unborn, hset.pos, hset.tids, hset.has, hset.cleared, hset.single,
        hset.releasing,
        hset.unclaimed, hset.fresh,
        fun hx => ⟨Nat.lt_succ_of_lt (h.unlinked hx).1, (h.unlinked hx).2⟩, hset.unique,
        hset.stored, fun hj => Nat.lt_succ_of_lt (h.linked hj), hset.visits, hset.heldNode,
        hset.expects, hset.finds⟩
    refine hbump.goto ht (fun {s} hs => Or.inr ?_) (by simp [Pc.stored]) (by simp [Pc.visits])
      (by simp [Pc.releases]) (by simp [Pc.expects]) (by simp [Pc.finds]) rfl rfl hold
    obtain rfl : Slot.node w.nodes = s := Option.some.inj hs
    exact ⟨fun x hx => absurd (h.unlinked hx).1 (lt_irrefl _), Nat.lt_succ_self _,
      fun hj => absurd (h.linked hj) (lt_irrefl _)⟩
  · have htls : w.tls x = some (.node w.nodes) := h.releasing (Pc.releases_of_clears hx)
    exact absurd (h.linked (h.heldNode (Or.inl htls))) (lt_irrefl _)
  · have := (h.unlinked (Pc.pending_of_stored hx)).1
    rw [Slot.node.inj hj] at this
    exact absurd this (lt_irrefl _)

/-- The owner of a new node is stored before the node is linked. -/
theorem storeNode (h : ClaimInv w) {j : ℕ} (ht : w.alive t = true) (hpc : w.pc t = .storeNode j) :
    ClaimInv { w.goto t (.loadLink j) with owner := update w.owner (.node j) (w.tid t) } := by
  have hpend : (w.pc t).pending = some (.node j) := by rw [hpc]; rfl
  have hset := h.setOwner (s := .node j) (w.tid t)
    (fun _ hx => (h.unlinked hpend).2 (h.heldNode (hx.imp And.left id))) (fun {x} _ hx => ?_)
      (by simp)
    fun {i x} hi _ hx => ?_
  · refine hset.goto ht (fun hs => Or.inl ?_) (fun {i} hi => ?_) (by simp [Pc.visits])
      (by simp [Pc.releases]) (by simp [Pc.expects]) (by simp [Pc.finds]) rfl rfl (by rw [hpc]; rfl)
    · exact hpend.trans hs
    · obtain rfl : j = i := Option.some.inj hi
      exact update_self ..
  · have htls : w.tls x = some (.node j) := h.releasing (Pc.releases_of_clears hx)
    exact (h.unlinked hpend).2 (h.heldNode (Or.inl htls))
  · obtain rfl : j = i := Slot.node.inj hi
    obtain rfl := h.unique (Pc.pending_of_stored hx) hpend
    simp [hpc, Pc.stored] at hx

omit [DecidableEq θ] in
/-- The owner field of a slot that is free or whose owner is dead names no live thread. -/
theorem unheld (h : ClaimInv w) {s : Slot}
    (hs : w.owner s = slotFree ∨ w.owner s ≠ 0 ∧ w.ownerAlive (w.owner s) = false) {x : θ}
    (hx : w.alive x = true) : ¬w.Has x s := by
  intro hhas
  have hown := h.has hx hhas
  have hpos := h.pos hx
  rcases hs with hs | ⟨h0, hs⟩
  · rw [hown] at hs
    rw [hs] at hpos
    exact absurd hpos (by decide)
  · rw [Bool.eq_false_iff] at hs
    exact hs ((World.ownerAlive_iff (fun ht => h.known ht) h0).2 ⟨x, hx, hown.symm⟩)

omit [DecidableEq θ] in
theorem not_clears (h : ClaimInv w) {s : Slot} (hs : w.settled s = true) {x : θ}
    (hx : w.alive x = true) : (w.pc x).clears ≠ some s := by
  intro hclears
  have hall := List.all_eq_true.1 hs x (h.known hx)
  have hpc : w.pc x = .clearTls s := by
    cases hpc : w.pc x <;> rw [hpc] at hclears <;> simp [Pc.clears] at hclears
    rw [hclears]
  simp [hx, hpc] at hall

/-- A slot with a free or dead owner can be taken. -/
theorem reclaim (h : ClaimInv w) {s : Slot} (ht : w.alive t = true) (hold : (w.pc t).clears = none)
    (hs : w.owner s = slotFree ∧ w.settled s = true ∨
      w.owner s ≠ 0 ∧ w.owner s ≠ slotFree ∧ w.ownerAlive (w.owner s) = false)
    (hnode : ∀ {j}, s = .node j → j ∈ w.head) : ClaimInv (w.acquire t s) := by
  have h0 : w.owner s ≠ 0 := by
    rcases hs with ⟨hs, -⟩ | hs
    · rw [hs]
      decide
    · exact hs.1
  refine h.acquire ht hold (h.unheld ?_) (fun {x} hx hclears => ?_)
    (fun {c} hc => ⟨?_, fun x _ hx => ?_⟩) hnode
  · exact hs.imp And.left fun hs => ⟨hs.1, hs.2.2⟩
  · rcases hs with ⟨-, hs⟩ | ⟨-, hs, -⟩
    · exact h.not_clears hs hx hclears
    · exact hs (h.cleared hx hclears)
  · by_contra hlt
    exact h0 (hc ▸ h.unclaimed (not_lt.1 hlt))
  · subst hc
    exact h0 (h.fresh hx).2

/-! ## Steps of `__claim_arena_slow` and `__release_tls_arena` -/

section Advance
variable {maxArenas : ℕ} {spurious : Bool} {w' : World θ} (h : ClaimInv w) (ht : w.alive t = true)
  (hok : w.unreused (.advance t spurious)) (hstep : w.advance maxArenas t spurious = some w')
include h ht hstep

include hok in
theorem casFree {lim i : ℕ} (hpc : w.pc t = .casFree lim i) : ClaimInv w' := by
  have hold : (w.pc t).clears = none := by rw [hpc]; rfl
  have hsettled : i < lim → w.owner (.pool i) = slotFree → w.settled (.pool i) = true := by
    simpa [World.unreused, hpc] using hok
  rw [World.advance, hpc] at hstep
  dsimp only at hstep
  split_ifs at hstep with hlim hfree <;> obtain rfl := Option.some.inj hstep
  · exact h.plain ht rfl rfl rfl rfl rfl rfl rfl rfl hold
  · exact h.reclaim ht hold (Or.inl ⟨hfree, hsettled (not_le.1 hlim) hfree⟩) (by simp)
  · exact h.plain ht rfl rfl rfl rfl rfl rfl rfl rfl hold

theorem readDead {lim i : ℕ} (hpc : w.pc t = .readDead lim i) : ClaimInv w' := by
  have hold : (w.pc t).clears = none := by rw [hpc]; rfl
  rw [World.advance, hpc] at hstep
  dsimp only at hstep
  split_ifs at hstep with hlim hbuilt hown <;> obtain rfl := Option.some.inj hstep
  · exact h.plain ht rfl rfl rfl rfl rfl rfl rfl rfl hold
  · exact h.plain ht rfl rfl rfl rfl rfl rfl rfl rfl hold
  · exact h.plain ht rfl rfl rfl rfl rfl rfl rfl rfl hold
  · have hpos : 0 < w.owner (.pool i) := by
      by_contra hle
      exact hown (Or.inl (not_lt.1 hle))
    refine h.move ht rfl rfl (by simp [Pc.visits]) (by simp [Pc.releases]) (fun {o} ho => ?_)
      (fun {o} ho => ?_) rfl rfl hold
    · rw [← Option.some.inj ho]
      exact hpos.ne'
    · rw [← Option.some.inj ho]
      exact hpos

theorem checkDead {lim i : ℕ} {owner : ℤ} (hpc : w.pc t = .checkDead lim i owner) :
    ClaimInv w' := by
  have hold : (w.pc t).clears = none := by rw [hpc]; rfl
  have hpos : 0 < owner := h.finds (t := t) (by rw [hpc]; rfl)
  rw [World.advance, hpc] at hstep
  dsimp only at hstep
  split_ifs at hstep with halive <;> obtain rfl := Option.some.inj hstep
  · exact h.plain ht rfl rfl rfl rfl rfl rfl rfl rfl hold
  · refine h.move ht rfl rfl (by simp [Pc.visits]) (by simp [Pc.releases]) (fun {o} ho => ?_)
      (fun {o} ho => ?_) rfl rfl hold
    · rw [← Option.some.inj ho]
      exact hpos.ne'
    · rw [← Option.some.inj ho]
      exact hpos

include hok in
theorem casDead {lim i : ℕ} {owner : ℤ} (hpc : w.pc t = .casDead lim i owner) : ClaimInv w' := by
  have hold : (w.pc t).clears = none := by rw [hpc]; rfl
  have hpos : 0 < owner := h.finds (t := t) (by rw [hpc]; rfl)
  have hdead : w.owner (.pool i) = owner → w.ownerAlive owner = false := by
    simpa [World.unreused, hpc] using hok
  rw [World.advance, hpc] at hstep
  dsimp only at hstep
  split_ifs at hstep with howner <;> obtain rfl := Option.some.inj hstep
  · refine h.reclaim ht hold (Or.inr ?_) (by simp)
    rw [howner]
    exact ⟨hpos.ne', by unfold slotFree; omega, hdead howner⟩
  · exact h.plain ht rfl rfl rfl rfl rfl rfl rfl rfl hold

theorem casFresh {cur : ℕ} (hpc : w.pc t = .casFresh cur) : ClaimInv w' := by
  have hold : (w.pc t).clears = none := by rw [hpc]; rfl
  rw [World.advance, hpc] at hstep
  dsimp only at hstep
  split_ifs at hstep with hmax hnext <;> obtain rfl := Option.some.inj hstep
  · exact h.plain ht rfl rfl rfl rfl rfl rfl rfl rfl hold
  · rw [← hnext]
    exact h.reservePool ht hold
  · exact h.plain ht rfl rfl rfl rfl rfl rfl rfl rfl hold

theorem construct {cur : ℕ} (hpc : w.pc t = .construct cur) : ClaimInv w' := by
  have hold : (w.pc t).clears = none := by rw [hpc]; rfl
  rw [World.advance, hpc] at hstep
  obtain rfl := Option.some.inj hstep
  have hgo : ClaimInv (w.goto t (.storeFresh cur)) :=
    h.goto ht (fun hs => Or.inl (by rw [hpc]; exact hs)) (by simp [Pc.stored]) (by simp [Pc.visits])
      (by simp [Pc.releases]) (by simp [Pc.expects]) (by simp [Pc.finds]) rfl rfl hold
  exact ⟨hgo.known, hgo.unborn, hgo.pos, hgo.tids, hgo.has, hgo.cleared, hgo.single, hgo.releasing,
    hgo.unclaimed, hgo.fresh, hgo.unlinked, hgo.unique, hgo.stored, hgo.linked, hgo.visits,
    hgo.heldNode, hgo.expects, hgo.finds⟩

theorem storeFresh {cur : ℕ} (hpc : w.pc t = .storeFresh cur) : ClaimInv w' := by
  have hold : (w.pc t).clears = none := by rw [hpc]; rfl
  have hpend : (w.pc t).pending = some (.pool cur) := by rw [hpc]; rfl
  obtain ⟨hlt, h0⟩ := h.fresh hpend
  rw [World.advance, hpc] at hstep
  obtain rfl := Option.some.inj hstep
  refine h.acquire ht hold (fun {x} hx hhas => ?_) (fun {x} hx hclears => ?_)
    (fun {c} hc => ⟨?_, fun x hne hx => ?_⟩) (by simp)
  · have := h.has hx hhas
    have := h.pos hx
    omega
  · have hfree := h.cleared hx hclears
    rw [h0] at hfree
    exact absurd hfree (by decide)
  · rw [← Slot.pool.inj hc]
    exact hlt
  · exact hne (h.unique hx hpend)

theorem readNode {rest : List ℕ} (hpc : w.pc t = .readNode rest) : ClaimInv w' := by
  have hold : (w.pc t).clears = none := by rw [hpc]; rfl
  have hv : ∀ {j}, j ∈ rest → j ∈ w.head := fun hj => h.visits (t := t) (by rw [hpc]; exact hj)
  rw [World.advance, hpc] at hstep
  cases rest with
  | nil =>
    obtain rfl := Option.some.inj hstep
    exact h.reserveNode ht hold
  | cons j rest =>
    have hrest : ∀ {i}, i ∈ rest → i ∈ w.head := fun hi => hv (List.mem_cons_of_mem _ hi)
    dsimp only at hstep
    split_ifs at hstep with hfree hown <;> obtain rfl := Option.some.inj hstep
    · refine h.move ht rfl rfl hv (by simp [Pc.releases]) (fun {o} ho => ?_) (by simp [Pc.finds])
        rfl rfl hold
      rw [← Option.some.inj ho, hfree]
      decide
    · refine h.move ht rfl rfl hv (by simp [Pc.releases]) (fun {o} ho => ?_) (by simp [Pc.finds])
        rfl rfl hold
      rw [← Option.some.inj ho]
      exact hown.1.ne'
    · exact h.move ht rfl rfl hrest (by simp [Pc.releases]) (by simp [Pc.expects])
        (by simp [Pc.finds]) rfl rfl hold

theorem checkNode {j : ℕ} {rest : List ℕ} {owner : ℤ} (hpc : w.pc t = .checkNode j rest owner) :
    ClaimInv w' := by
  have hold : (w.pc t).clears = none := by rw [hpc]; rfl
  have hv : ∀ {i}, i ∈ j :: rest → i ∈ w.head := fun hi => h.visits (t := t) (by rw [hpc]; exact hi)
  have hexp : owner ≠ 0 := h.expects (t := t) (by rw [hpc]; rfl)
  rw [World.advance, hpc] at hstep
  dsimp only at hstep
  split_ifs at hstep with halive <;> obtain rfl := Option.some.inj hstep
  · exact h.move ht rfl rfl (fun hi => hv (List.mem_cons_of_mem _ hi)) (by simp [Pc.releases])
      (by simp [Pc.expects]) (by simp [Pc.finds]) rfl rfl hold
  · refine h.move ht rfl rfl hv (by simp [Pc.releases]) (fun {o} ho => ?_) (by simp [Pc.finds])
      rfl rfl hold
    rw [← Option.some.inj ho]
    exact hexp

include hok in
theorem casNode {j : ℕ} {rest : List ℕ} {owner : ℤ} (hpc : w.pc t = .casNode j rest owner) :
    ClaimInv w' := by
  have hold : (w.pc t).clears = none := by rw [hpc]; rfl
  have hv : ∀ {i}, i ∈ j :: rest → i ∈ w.head := fun hi => h.visits (t := t) (by rw [hpc]; exact hi)
  have hexp : owner ≠ 0 := h.expects (t := t) (by rw [hpc]; rfl)
  have hdead : w.owner (.node j) = owner →
      if owner = slotFree then w.settled (.node j) = true else w.ownerAlive owner = false := by
    simpa only [World.unreused, hpc] using hok
  rw [World.advance, hpc] at hstep
  dsimp only at hstep
  split_ifs at hstep with howner <;> obtain rfl := Option.some.inj hstep
  · refine h.reclaim ht hold ?_ fun {i} hi => ?_
    · have hdead := hdead howner
      rw [howner]
      split_ifs at hdead with hfree
      · exact Or.inl ⟨hfree, hdead⟩
      · exact Or.inr ⟨hexp, hfree, hdead⟩
    · rw [← Slot.node.inj hi]
      exact hv List.mem_cons_self
  · exact h.move ht rfl rfl (fun hi => hv (List.mem_cons_of_mem _ hi)) (by simp [Pc.releases])
      (by simp [Pc.expects]) (by simp [Pc.finds]) rfl rfl hold

theorem linkNode {j : ℕ} {next : Option ℕ} (hpc : w.pc t = .linkNode j next) : ClaimInv w' := by
  have hold : (w.pc t).clears = none := by rw [hpc]; rfl
  rw [World.advance, hpc] at hstep
  dsimp only at hstep
  split_ifs at hstep with hcas <;> obtain rfl := Option.some.inj hstep
  · exact h.link ht hpc
  · exact h.goto ht (fun hs => Or.inl (by rw [hpc]; exact hs))
      (fun hs => h.stored ht (by rw [hpc]; exact hs)) (by simp [Pc.visits]) (by simp [Pc.releases])
      (by simp [Pc.expects]) (by simp [Pc.finds]) rfl rfl hold

theorem checkRelease {s : Slot} (hpc : w.pc t = .checkRelease s) : ClaimInv w' := by
  have hold : (w.pc t).clears = none := by rw [hpc]; rfl
  have htls : w.tls t = some s := h.releasing (by rw [hpc]; rfl)
  -- the thread still owns what it has
  have hown : w.owner s = w.tid t := h.has ht (Or.inl ⟨htls, hold⟩)
  rw [World.advance, hpc] at hstep
  dsimp only at hstep
  rw [if_pos hown] at hstep
  obtain rfl := Option.some.inj hstep
  refine h.move ht rfl rfl (by simp [Pc.visits]) (fun {s'} hs => ?_) (by simp [Pc.expects])
    (by simp [Pc.finds]) rfl rfl hold
  rw [← Option.some.inj hs]
  exact htls

include hok in
theorem advance : ClaimInv w' := by
  cases hpc : w.pc t with
  | idle => simp [World.advance, hpc] at hstep
  | loadFree | loadDead | loadFresh =>
    rw [World.advance, hpc] at hstep
    obtain rfl := Option.some.inj hstep
    exact h.plain ht rfl rfl rfl rfl rfl rfl rfl rfl (by rw [hpc]; rfl)
  | casFree lim i => exact h.casFree ht hok hstep hpc
  | readDead lim i => exact h.readDead ht hstep hpc
  | checkDead lim i owner => exact h.checkDead ht hstep hpc
  | casDead lim i owner => exact h.casDead ht hok hstep hpc
  | casFresh cur => exact h.casFresh ht hstep hpc
  | construct cur => exact h.construct ht hstep hpc
  | storeFresh cur => exact h.storeFresh ht hstep hpc
  | loadHead =>
    rw [World.advance, hpc] at hstep
    obtain rfl := Option.some.inj hstep
    exact h.move ht rfl rfl (fun hj => hj) (by simp [Pc.releases]) (by simp [Pc.expects])
      (by simp [Pc.finds]) rfl rfl (by rw [hpc]; rfl)
  | readNode rest => exact h.readNode ht hstep hpc
  | checkNode j rest owner => exact h.checkNode ht hstep hpc
  | casNode j rest owner => exact h.casNode ht hok hstep hpc
  | storeNode j =>
    rw [World.advance, hpc] at hstep
    obtain rfl := Option.some.inj hstep
    exact h.storeNode ht hpc
  | loadLink j =>
    rw [World.advance, hpc] at hstep
    obtain rfl := Option.some.inj hstep
    exact h.goto ht (fun hs => Or.inl (by rw [hpc]; exact hs))
      (fun hs => h.stored ht (by rw [hpc]; exact hs)) (by simp [Pc.visits]) (by simp [Pc.releases])
      (by simp [Pc.expects]) (by simp [Pc.finds]) rfl rfl (by rw [hpc]; rfl)
  | linkNode j next => exact h.linkNode ht hstep hpc
  | storeTls s =>
    rw [World.advance, hpc] at hstep
    obtain rfl := Option.some.inj hstep
    exact h.storeTls ht hpc
  | checkRelease s => exact h.checkRelease ht hstep hpc
  | storeRelease s =>
    rw [World.advance, hpc] at hstep
    obtain rfl := Option.some.inj hstep
    exact h.release ht hpc
  | clearTls s =>
    rw [World.advance, hpc] at hstep
    obtain rfl := Option.some.inj hstep
    exact h.drop ht

end Advance

/-! ## Events -/

theorem spawn (h : ClaimInv w) {tid : ℤ} (hnew : t ∉ w.threads) (hpos : 0 < tid)
    (hfree : w.ownerAlive tid = false) :
    ClaimInv { w with
      threads := t :: w.threads
      alive := update w.alive t true
      tid := update w.tid t tid } := by
  obtain ⟨htls, hpc⟩ := h.unborn hnew
  have hal : ∀ {x}, update w.alive t true x = true → x = t ∨ x ≠ t ∧ w.alive x = true := by
    intro x hx
    by_cases hxt : x = t
    · exact Or.inl hxt
    · exact Or.inr ⟨hxt, (update_of_ne hxt _ _).symm.trans hx⟩
  have htid : ∀ {x}, x ≠ t → update w.tid t tid x = w.tid x := fun hxt => update_of_ne hxt _ _
  have hother : ∀ {x}, w.alive x = true → w.tid x ≠ tid := by
    intro x hx he
    rw [Bool.eq_false_iff] at hfree
    exact hfree ((World.ownerAlive_iff (fun ht => h.known ht) (by omega)).2 ⟨x, hx, he⟩)
  refine ⟨fun {x} hx => ?_, fun {x} hx => ?_, fun {x} hx => ?_, fun {x x'} hx hx' he => ?_,
    fun {x s} hx hs => ?_, fun {x s} hx hs => ?_, fun {x x' s} hx hx' hs hs' => ?_, h.releasing,
    h.unclaimed, h.fresh, h.unlinked, h.unique, fun {x j} hx hj => ?_, h.linked, h.visits,
    h.heldNode, h.expects, h.finds⟩
  · rcases hal hx with rfl | ⟨-, hx⟩
    · exact List.mem_cons_self
    · exact List.mem_cons_of_mem _ (h.known hx)
  · exact h.unborn fun hm => hx (List.mem_cons_of_mem _ hm)
  · rcases hal hx with rfl | ⟨hxt, hx⟩
    · dsimp only
      rwa [update_self]
    · exact lt_of_lt_of_eq (h.pos hx) (htid hxt).symm
  · dsimp only at he
    rcases hal hx with rfl | ⟨hxt, hx⟩
    · rcases hal hx' with rfl | ⟨hxt', hx'⟩
      · rfl
      · rw [update_self, htid hxt'] at he
        exact absurd he.symm (hother hx')
    · rcases hal hx' with rfl | ⟨hxt', hx'⟩
      · rw [update_self, htid hxt] at he
        exact absurd he (hother ‹w.alive x = true›)
      · rw [htid hxt, htid hxt'] at he
        exact h.tids hx hx' he
  · rcases hal hx with rfl | ⟨hxt, hx⟩
    · rcases hs with ⟨hs, -⟩ | hs
      · exact absurd (htls.symm.trans hs) (by simp)
      · dsimp only at hs
        simp [hpc, Pc.takes] at hs
    · exact (h.has hx hs).trans (htid hxt).symm
  · rcases hal hx with rfl | ⟨-, hx⟩
    · dsimp only at hs
      simp [hpc, Pc.clears] at hs
    · exact h.cleared hx hs
  · have hold : ∀ {x}, update w.alive t true x = true → (w.pc x).clears = some s →
        w.alive x = true := by
      intro x hx hs
      rcases hal hx with hxt | ⟨-, hx⟩
      · rw [hxt, hpc] at hs
        cases hs
      · exact hx
    exact h.single (hold hx hs) (hold hx' hs') hs hs'
  · rcases hal hx with rfl | ⟨hxt, hx⟩
    · dsimp only at hj
      simp [hpc, Pc.stored] at hj
    · exact (h.stored hx hj).trans (htid hxt).symm

theorem die (h : ClaimInv w) : ClaimInv { w with alive := update w.alive t false } := by
  have hal : ∀ {x}, update w.alive t false x = true → w.alive x = true := by
    intro x hx
    by_cases hxt : x = t
    · simp [hxt] at hx
    · exact (update_of_ne hxt _ _).symm.trans hx
  exact ⟨fun hx => h.known (hal hx), h.unborn, fun hx => h.pos (hal hx),
    fun hx hx' => h.tids (hal hx) (hal hx'), fun hx => h.has (hal hx), fun hx => h.cleared (hal hx),
    fun hx hx' => h.single (hal hx) (hal hx'), h.releasing, h.unclaimed, h.fresh, h.unlinked,
    h.unique, fun hx => h.stored (hal hx), h.linked,
    h.visits, h.heldNode, h.expects, h.finds⟩

theorem step (h : ClaimInv w) {maxArenas : ℕ} {pid : ℤ} {e : Event θ} {w' : World θ}
    (hlegal : w.legal e) (hok : w.unreused e) (hstep : w.step maxArenas pid e = some w') :
    ClaimInv w' := by
  have hidle : ∀ {t}, (w.pc t matches .idle) = true → w.pc t = .idle := by
    intro t ht
    cases hpc : w.pc t <;> rw [hpc] at ht <;> first | rfl | cases ht
  cases e with
  | spawn t tid =>
    obtain rfl := Option.some.inj hstep
    exact h.spawn hlegal.1 hlegal.2.1 hlegal.2.2
  | die t =>
    obtain rfl := Option.some.inj hstep
    exact h.die
  | claim t =>
    obtain rfl := Option.some.inj hstep
    exact h.plain hlegal.1 rfl rfl rfl rfl rfl rfl rfl rfl (by rw [hidle hlegal.2.1]; rfl)
  | release t =>
    simp only [World.step] at hstep
    cases htls : w.tls t with
    | none =>
      rw [htls] at hstep
      exact Option.some.inj hstep ▸ h
    | some s =>
      rw [htls] at hstep
      dsimp only at hstep
      split_ifs at hstep with hpid <;> obtain rfl := Option.some.inj hstep
      · exact h
      · refine h.move hlegal.1 rfl rfl (by simp [Pc.visits]) (fun hs => ?_) (by simp [Pc.expects])
          (by simp [Pc.finds]) rfl rfl (by rw [hidle hlegal.2]; rfl)
        rw [htls]
        exact hs
  | advance t spurious => exact h.advance hlegal hok hstep

omit [DecidableEq θ] in
theorem oneOwner (h : ClaimInv w) : OneOwner w := by
  intro t t' s ht ht' hs hs'
  -- a thread that still has to clear its `__tls_arena` left the free owner in the slot
  have hown : ∀ {x}, w.alive x = true → w.tls x = some s →
      w.owner s = w.tid x ∨ (w.pc x).clears = some s := by
    intro x hx hxs
    cases hc : (w.pc x).clears with
    | none => exact Or.inl (h.has hx (Or.inl ⟨hxs, hc⟩))
    | some s' => exact Or.inr ((h.releasing (Pc.releases_of_clears hc)).symm.trans hxs)
  have hfree : ∀ {x y}, w.alive x = true → w.alive y = true → w.owner s = w.tid x →
      (w.pc y).clears ≠ some s := by
    intro x y hx hy hxs hys
    have hpos := h.pos hx
    rw [← hxs, h.cleared hy hys] at hpos
    exact absurd hpos (by decide)
  rcases hown ht hs with hs | hs
  · rcases hown ht' hs' with hs' | hs'
    · exact h.tids ht ht' (hs.symm.trans hs')
    · exact absurd hs' (hfree ht ht' hs)
  · rcases hown ht' hs' with hs' | hs'
    · exact absurd hs (hfree ht' ht hs')
    · exact h.single ht ht' hs hs'

end ClaimInv

omit [DecidableEq θ] in
theorem claimInv_init : ClaimInv (World.init θ) := by
  constructor <;> simp [World.init, Pc.pending, Pc.stored, Pc.visits, Pc.releases, Pc.expects,
    Pc.takes, Pc.finds]

/-- No two live threads hold the same arena when no arena is taken from a dead owner whose id is in
use again or from a thread that has still to clear its `__tls_arena`. -/
theorem arena_one_owner (maxArenas : ℕ) (pid : ℤ) {events : List (Event θ)} {w : World θ}
    (hrun : Run (fun w e => World.legal w e ∧ w.unreused e) (World.step maxArenas pid) (.init θ)
      events w) : OneOwner w := by
  have hinv : ClaimInv w :=
    hrun.invariant ClaimInv (fun w e w' h hok hstep => h.step hok.1 hok.2 hstep) claimInv_init
  exact hinv.oneOwner

/-- Thread 0 starts with id 5, takes a new slot and dies. -/
def firstOwner : List (Event ℕ) :=
  [.spawn 0 5, .claim 0] ++ List.replicate 9 (.advance 0 false) ++ [.die 0]

/-- Thread 1, with id 7, finds the owner of slot 0 dead. -/
def findsDead : List (Event ℕ) :=
  [.spawn 1 7, .claim 1] ++ List.replicate 6 (.advance 1 false)

/-- Thread 2, with id 9, takes the slot from its dead owner and releases it. -/
def reclaimsAndReleases : List (Event ℕ) :=
  [.spawn 2 9, .claim 2] ++ List.replicate 8 (.advance 2 false) ++
    .release 2 :: List.replicate 3 (.advance 2 false)

/-- Thread 3 gets the id 5 again and takes the released slot. -/
def reusesTid : List (Event ℕ) :=
  [.spawn 3 5, .claim 3] ++ List.replicate 3 (.advance 3 false)

/-- A dead owner's slot is taken, released and taken again. -/
theorem arena_one_owner_reclaimed : ∃ w : World ℕ,
    Run (fun w e => World.legal w e ∧ w.unreused e) (World.step 4 1) (.init ℕ)
      (firstOwner ++ reclaimsAndReleases ++ reusesTid) w ∧
    w.tls 3 = some (.pool 0) ∧ OneOwner w := by
  have hexec := exists_run_of_exec (fun w e => World.legal w e ∧ World.unreused w e)
    (World.step 4 1) (s := .init ℕ) (l := firstOwner ++ reclaimsAndReleases ++ reusesTid)
    (P := fun w => w.tls 3 = some (.pool 0)) (by decide +kernel)
  obtain ⟨w, hrun, hheld⟩ := hexec
  exact ⟨w, hrun, by simpa using hheld, arena_one_owner 4 1 hrun⟩

/-- Thread 1 compares with the id that it found dead, which by now is thread 3's. -/
theorem arena_two_owners : ¬∀ (maxArenas : ℕ) (pid : ℤ) (events : List (Event ℕ)) (w : World ℕ),
    Run World.legal (World.step maxArenas pid) (.init ℕ) events w → OneOwner w := by
  intro h
  have hexec := exists_run_of_exec World.legal (World.step 4 1) (s := .init ℕ)
    (l := firstOwner ++ findsDead ++ reclaimsAndReleases ++ reusesTid ++
      [.advance 1 false, .advance 1 false])
    (P := fun w => w.alive 1 && w.alive 3 && w.tls 1 = some (.pool 0) && w.tls 3 = some (.pool 0))
    (by decide +kernel)
  obtain ⟨w, hrun, hheld⟩ := hexec
  simp only [Bool.and_eq_true, decide_eq_true_eq] at hheld
  obtain ⟨⟨⟨h₁, h₃⟩, hs₁⟩, hs₃⟩ := hheld
  exact absurd (h 4 1 _ w hrun 1 3 (.pool 0) h₁ h₃ hs₁ hs₃) (by decide)

end AbcMalloc.Owner
