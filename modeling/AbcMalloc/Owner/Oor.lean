import AbcMalloc.Foundation.Run
import Mathlib.Data.List.TakeWhile
import Mathlib.Tactic

/-! Sheets mapped outside the reservation (`sheet_header.hpp`). Their owners are kept in a list
of ranges that never shrinks: retiring a range clears the owner of its node, and inserting a
range revives the first retired node with exactly that range before it links a new node in
front. A lookup stops at the first node that contains the address, retired or not. -/
namespace AbcMalloc.Owner
open Foundation

/-- `__oor_sheet`; no owner is the null pointer. -/
structure OorSheet (α : Type*) where
  lo : ℕ
  hi : ℕ
  owner : Option α

/-- `__oor_head` as the list of its nodes, and `__oor_live`. -/
structure Oor (α : Type*) where
  nodes : List (OorSheet α)
  live : ℕ

variable {α : Type*}

/-- The compare-exchange of `__oor_insert` succeeds on this node. -/
def OorSheet.revivable (n : OorSheet α) (lo hi : ℕ) : Bool :=
  n.lo = lo ∧ n.hi = hi ∧ n.owner.isNone

/-- The loop of `__oor_insert` runs to the first node that can be revived. -/
def oorInsert (s : Oor α) (arena : α) (base len : ℕ) : Oor α :=
  let lo := base
  let hi := (base + len) % 2 ^ 64
  let front := s.nodes.takeWhile fun n => !n.revivable lo hi
  let nodes :=
    match s.nodes.dropWhile fun n => !n.revivable lo hi with
    | n :: rest => front ++ { n with owner := some arena } :: rest
    | [] => ⟨lo, hi, some arena⟩ :: s.nodes
  ⟨nodes, (s.live + 1) % 2 ^ 32⟩

/-- The owner of the first live node with this range is cleared. -/
def retireFirst (lo hi : ℕ) : List (OorSheet α) → Option (List (OorSheet α))
  | [] => none
  | n :: rest =>
    if n.lo = lo ∧ n.hi = hi ∧ n.owner.isSome then some ({ n with owner := none } :: rest)
    else (retireFirst lo hi rest).map (n :: ·)

def oorRetire (s : Oor α) (base len : ℕ) : Oor α :=
  if s.live = 0 then s
  else
    match retireFirst base ((base + len) % 2 ^ 64) s.nodes with
    | some nodes => ⟨nodes, (s.live + (2 ^ 32 - 1)) % 2 ^ 32⟩
    | none => s

def oorOwnerOf (s : Oor α) (a : ℕ) : Option α :=
  if s.live = 0 then none
  else (s.nodes.find? fun n => n.lo ≤ a ∧ a < n.hi).bind OorSheet.owner

/-! ## Histories -/

structure OorRange (α : Type*) where
  arena : α
  base : ℕ
  len : ℕ

inductive OorCall (α : Type*)
  | insert (arena : α) (base len : ℕ)
  | retire (base len : ℕ)

structure OorClient (α : Type*) where
  oor : Oor α
  ranges : List (OorRange α)

def OorClient.start : OorClient α := ⟨⟨[], 0⟩, []⟩

def apart (a n b m : ℕ) : Prop := a + n ≤ b ∨ b + m ≤ a

instance (a n b m : ℕ) : Decidable (apart a n b m) := inferInstanceAs (Decidable (_ ∨ _))

def OorClient.step (w : OorClient α) : OorCall α → Option (OorClient α)
  | .insert arena base len =>
    some ⟨oorInsert w.oor arena base len, ⟨arena, base, len⟩ :: w.ranges⟩
  | .retire base len =>
    some ⟨oorRetire w.oor base len, w.ranges.eraseP fun r => r.base = base ∧ r.len = len⟩

/-- Inserted ranges are non-empty ranges of the address space apart from the live ones, and a
range that is retired is live. -/
def OorClient.legal (w : OorClient α) : OorCall α → Prop
  | .insert _ base len =>
    0 < len ∧ base + len < 2 ^ 64 ∧ ∀ r ∈ w.ranges, apart base len r.base r.len
  | .retire base len => ∃ r ∈ w.ranges, r.base = base ∧ r.len = len

/-- No node in front of the one that an insertion revives overlaps the inserted range, and
the count of live nodes does not wrap. -/
def OorClient.unshadowed (w : OorClient α) : OorCall α → Prop
  | .insert _ base len =>
    w.ranges.length + 1 < 2 ^ 32 ∧
      (w.oor.nodes.any (fun n => n.revivable base (base + len)) = true →
        ∀ n ∈ w.oor.nodes.takeWhile fun n => !n.revivable base (base + len),
          n.hi ≤ base ∨ base + len ≤ n.lo)
  | .retire _ _ => True

instance (w : OorClient α) (c : OorCall α) : Decidable (w.legal c) := by
  cases c <;> unfold OorClient.legal <;> infer_instance

instance (w : OorClient α) (c : OorCall α) : Decidable (w.unshadowed c) := by
  cases c <;> unfold OorClient.unshadowed <;> infer_instance

def OorExact (w : OorClient α) : Prop :=
  ∀ a, (∀ r ∈ w.ranges, r.base ≤ a → a < r.base + r.len → oorOwnerOf w.oor a = some r.arena) ∧
    ((∀ r ∈ w.ranges, ¬(r.base ≤ a ∧ a < r.base + r.len)) → oorOwnerOf w.oor a = none)

/-! ## The invariant -/

def OorSheet.range (n : OorSheet α) : Option (OorRange α) :=
  n.owner.map fun arena => ⟨arena, n.lo, n.hi - n.lo⟩

structure OorInv (w : OorClient α) : Prop where
  /-- The live nodes are the live ranges. -/
  ranges : (w.oor.nodes.filterMap OorSheet.range).Perm w.ranges
  /-- No live node lies behind one that overlaps it. -/
  front : w.oor.nodes.Pairwise fun m n => n.owner.isSome → m.hi ≤ n.lo ∨ n.hi ≤ m.lo
  le : ∀ n ∈ w.oor.nodes, n.lo < n.hi
  live : w.oor.live = w.ranges.length
  lt : w.ranges.length < 2 ^ 32

theorem OorSheet.range_eq_some {n : OorSheet α} {r : OorRange α} :
    n.range = some r ↔ n.owner = some r.arena ∧ n.lo = r.base ∧ n.hi - n.lo = r.len := by
  obtain ⟨arena, base, len⟩ := r
  simp [OorSheet.range]

theorem OorSheet.range_of_owner {n : OorSheet α} {arena : α} (h : n.owner = some arena) :
    n.range = some ⟨arena, n.lo, n.hi - n.lo⟩ :=
  OorSheet.range_eq_some.2 ⟨h, rfl, rfl⟩

/-- Where the loop of `__oor_insert` stops. -/
theorem exists_revivable {nodes : List (OorSheet α)} {lo hi : ℕ}
    (h : nodes.any (fun n => n.revivable lo hi) = true) :
    ∃ n rest, nodes = (nodes.takeWhile fun n => !n.revivable lo hi) ++ n :: rest ∧
      (nodes.dropWhile fun n => !n.revivable lo hi) = n :: rest ∧
      n.lo = lo ∧ n.hi = hi ∧ n.owner = none := by
  have happ :=
    List.takeWhile_append_dropWhile (p := fun n : OorSheet α => !n.revivable lo hi) (l := nodes)
  cases hd : nodes.dropWhile fun n => !n.revivable lo hi with
  | nil =>
    rw [List.dropWhile_eq_nil_iff] at hd
    obtain ⟨n, hn, hr⟩ := List.any_eq_true.1 h
    have := hd n hn
    simp [hr] at this
  | cons n rest =>
    have hn : n.revivable lo hi = true := by
      have := List.head_dropWhile_not (fun n : OorSheet α => !n.revivable lo hi) (l := nodes)
        (by simp [hd])
      simpa [hd] using this
    rw [hd] at happ
    refine ⟨n, rest, happ.symm, rfl, ?_⟩
    simpa [OorSheet.revivable] using hn

theorem exists_of_retireFirst {lo hi : ℕ} : ∀ {nodes : List (OorSheet α)},
    (∃ n ∈ nodes, n.lo = lo ∧ n.hi = hi ∧ n.owner.isSome = true) →
      ∃ front n rest, nodes = front ++ n :: rest ∧ n.lo = lo ∧ n.hi = hi ∧ n.owner.isSome = true ∧
        (∀ m ∈ front, ¬(m.lo = lo ∧ m.hi = hi ∧ m.owner.isSome = true)) ∧
        retireFirst lo hi nodes = some (front ++ { n with owner := none } :: rest) := by
  intro nodes
  induction nodes with
  | nil => simp
  | cons m nodes ih =>
    intro h
    by_cases hm : m.lo = lo ∧ m.hi = hi ∧ m.owner.isSome = true
    · exact ⟨[], m, nodes, rfl, hm.1, hm.2.1, hm.2.2, by simp, by simp [retireFirst, hm]⟩
    · obtain ⟨n, hn, hmatch⟩ := h
      have hn' : n ∈ nodes := by
        rcases List.mem_cons.1 hn with rfl | hn
        · exact absurd hmatch hm
        · exact hn
      obtain ⟨front, n, rest, rfl, h₁, h₂, h₃, hfront, hret⟩ := ih ⟨n, hn', hmatch⟩
      refine ⟨m :: front, n, rest, rfl, h₁, h₂, h₃, ?_, ?_⟩
      · intro k hk
        rcases List.mem_cons.1 hk with rfl | hk
        · exact hm
        · exact hfront k hk
      · rw [retireFirst, if_neg hm, hret]
        rfl

namespace OorInv
variable {w : OorClient α}

theorem mem_ranges (h : OorInv w) {n : OorSheet α} (hn : n ∈ w.oor.nodes) {r : OorRange α}
    (hr : n.range = some r) : r ∈ w.ranges :=
  h.ranges.mem_iff.1 (List.mem_filterMap.2 ⟨n, hn, hr⟩)

theorem exists_node (h : OorInv w) {r : OorRange α} (hr : r ∈ w.ranges) :
    ∃ n ∈ w.oor.nodes, n.owner = some r.arena ∧ n.lo = r.base ∧ n.hi = r.base + r.len := by
  obtain ⟨n, hn, hr⟩ := List.mem_filterMap.1 (h.ranges.mem_iff.2 hr)
  obtain ⟨h₁, h₂, h₃⟩ := OorSheet.range_eq_some.1 hr
  have := h.le n hn
  exact ⟨n, hn, h₁, h₂, by omega⟩

theorem exact (h : OorInv w) : OorExact w := by
  intro a
  constructor
  · intro r hr h₁ h₂
    have hlive : w.oor.live ≠ 0 := by
      rw [h.live]
      exact (List.length_pos_of_mem hr).ne'
    obtain ⟨n, hn, howner, hlo, hhi⟩ := h.exists_node hr
    obtain ⟨front, rest, hnodes⟩ := List.append_of_mem hn
    have hfront := h.front
    rw [hnodes, List.pairwise_append] at hfront
    -- the nodes in front of a live node do not contain its addresses
    have hskip : front.find? (fun n => n.lo ≤ a ∧ a < n.hi) = none := by
      rw [List.find?_eq_none]
      intro m hm
      have := hfront.2.2 m hm n List.mem_cons_self (by simp [howner])
      have : ¬(m.lo ≤ a ∧ a < m.hi) := by omega
      simpa using this
    have hin : n.lo ≤ a ∧ a < n.hi := by omega
    rw [oorOwnerOf, if_neg hlive, hnodes, List.find?_append, hskip, Option.none_or,
      List.find?_cons_of_pos (by simpa using hin), Option.bind_some, howner]
  · intro hnone
    rw [oorOwnerOf]
    split_ifs with hlive
    · rfl
    · cases hf : w.oor.nodes.find? fun n => n.lo ≤ a ∧ a < n.hi with
      | none => rfl
      | some n =>
        have hin : n.lo ≤ a ∧ a < n.hi := by simpa using List.find?_some hf
        rw [Option.bind_some]
        cases howner : n.owner with
        | none => rfl
        | some arena =>
          have hr := h.mem_ranges (List.mem_of_find?_eq_some hf)
            (OorSheet.range_of_owner howner)
          exact absurd ⟨hin.1, by dsimp only; omega⟩ (hnone _ hr)

theorem insert (h : OorInv w) {arena : α} {base len : ℕ} (hlegal : w.legal (.insert arena base len))
    (hclear : w.unshadowed (.insert arena base len)) :
    OorInv ⟨oorInsert w.oor arena base len, ⟨arena, base, len⟩ :: w.ranges⟩ := by
  obtain ⟨hpos, htop, hapart⟩ := hlegal
  obtain ⟨hcount, hshadow⟩ := hclear
  have hmod : (base + len) % 2 ^ 64 = base + len := Nat.mod_eq_of_lt htop
  have hlive : (w.oor.live + 1) % 2 ^ 32 = (⟨arena, base, len⟩ :: w.ranges).length := by
    rw [h.live, List.length_cons, Nat.mod_eq_of_lt hcount]
  have hsep : ∀ n ∈ w.oor.nodes, n.owner.isSome = true → base + len ≤ n.lo ∨ n.hi ≤ base := by
    intro n hn hsome
    obtain ⟨a, ha⟩ := Option.isSome_iff_exists.1 hsome
    have hr := h.mem_ranges hn (OorSheet.range_of_owner ha)
    have hap := hapart _ hr
    have := h.le n hn
    unfold apart at hap
    dsimp only at hap
    omega
  by_cases hany : w.oor.nodes.any (fun n => n.revivable base (base + len)) = true
  · obtain ⟨n, rest, hnodes, hdrop, hlo, hhi, hnone⟩ := exists_revivable hany
    have hfront := hshadow hany
    set front := w.oor.nodes.takeWhile fun n => !n.revivable base (base + len) with hf
    have heq : oorInsert w.oor arena base len =
        ⟨front ++ { n with owner := some arena } :: rest, (w.oor.live + 1) % 2 ^ 32⟩ := by
      simp only [oorInsert, hmod, hdrop, ← hf]
    have hold := h.front
    have hperm := h.ranges
    have hle := h.le
    rw [hnodes, List.pairwise_append, List.pairwise_cons] at hold
    rw [hnodes, List.filterMap_append,
      List.filterMap_cons_none (by simp [OorSheet.range, hnone])] at hperm
    rw [hnodes] at hle
    rw [heq]
    refine ⟨?_, ?_, ?_, hlive, by simpa using hcount⟩
    · have hrange : OorSheet.range { n with owner := some arena } = some ⟨arena, base, len⟩ :=
        OorSheet.range_eq_some.2 ⟨rfl, hlo, by dsimp only; omega⟩
      rw [List.filterMap_append, List.filterMap_cons_some hrange]
      exact List.perm_middle.trans (hperm.cons _)
    · rw [List.pairwise_append, List.pairwise_cons]
      refine ⟨hold.1, ⟨hold.2.1.1, hold.2.1.2⟩, fun m hm k hk hsome => ?_⟩
      rcases List.mem_cons.1 hk with rfl | hk
      · have := hfront m hm
        dsimp only
        omega
      · exact hold.2.2 m hm k (List.mem_cons_of_mem _ hk) hsome
    · intro m hm
      rcases List.mem_append.1 hm with hm | hm
      · exact hle m (List.mem_append_left _ hm)
      · rcases List.mem_cons.1 hm with rfl | hm
        · exact hle n (by simp)
        · exact hle m (by simp [hm])
  · have hdrop : (w.oor.nodes.dropWhile fun n => !n.revivable base (base + len)) = [] := by
      rw [List.dropWhile_eq_nil_iff]
      intro n hn
      by_contra hr
      exact hany (List.any_eq_true.2 ⟨n, hn, by simpa using hr⟩)
    have heq : oorInsert w.oor arena base len =
        ⟨⟨base, base + len, some arena⟩ :: w.oor.nodes, (w.oor.live + 1) % 2 ^ 32⟩ := by
      simp only [oorInsert, hmod, hdrop]
    rw [heq]
    refine ⟨?_, ?_, ?_, hlive, by simpa using hcount⟩
    · have hrange : OorSheet.range (⟨base, base + len, some arena⟩ : OorSheet α) =
          some ⟨arena, base, len⟩ := OorSheet.range_eq_some.2 ⟨rfl, rfl, by dsimp only; omega⟩
      rw [List.filterMap_cons_some hrange]
      exact h.ranges.cons _
    · exact List.pairwise_cons.2 ⟨fun n hn => hsep n hn, h.front⟩
    · intro m hm
      rcases List.mem_cons.1 hm with rfl | hm
      · dsimp only
        omega
      · exact h.le m hm

theorem retire (h : OorInv w) {base len : ℕ} (hlegal : w.legal (.retire base len))
    (htop : ∀ r ∈ w.ranges, r.base + r.len < 2 ^ 64) :
    OorInv ⟨oorRetire w.oor base len, w.ranges.eraseP fun r => r.base = base ∧ r.len = len⟩ := by
  obtain ⟨r, hr, rfl, rfl⟩ := hlegal
  have hmod : (r.base + r.len) % 2 ^ 64 = r.base + r.len := Nat.mod_eq_of_lt (htop r hr)
  have hlen := List.length_pos_of_mem hr
  have hlt := h.lt
  obtain ⟨n₀, hn₀, howner₀, hlo₀, hhi₀⟩ := h.exists_node hr
  have howned : ∃ n ∈ w.oor.nodes, n.lo = r.base ∧ n.hi = r.base + r.len ∧ n.owner.isSome = true :=
    ⟨n₀, hn₀, hlo₀, hhi₀, by simp [howner₀]⟩
  obtain ⟨front, n, rest, hnodes, hlo, hhi, hsome, hfront, hret⟩ := exists_of_retireFirst howned
  obtain ⟨arena, howner⟩ := Option.isSome_iff_exists.1 hsome
  have hrange : n.range = some ⟨arena, r.base, r.len⟩ :=
    OorSheet.range_eq_some.2 ⟨howner, hlo, by dsimp only; omega⟩
  have heq : oorRetire w.oor r.base r.len =
      ⟨front ++ { n with owner := none } :: rest, (w.oor.live + (2 ^ 32 - 1)) % 2 ^ 32⟩ := by
    rw [oorRetire, if_neg (by rw [h.live]; omega), hmod, hret]
  -- the range that goes is that of the retired node
  have hdistinct : (w.oor.nodes.filterMap OorSheet.range).Pairwise fun a b =>
      (decide (a.base = r.base ∧ a.len = r.len)) = true →
        (decide (b.base = r.base ∧ b.len = r.len)) = true → False := by
    refine List.Pairwise.filterMap OorSheet.range ?_ (List.Pairwise.and_mem.1 h.front)
    rintro m n ⟨hm, hn, hsep⟩ a ha b hb
    rw [decide_eq_true_eq, decide_eq_true_eq]
    rintro ⟨h₁, h₂⟩ ⟨h₃, h₄⟩
    obtain ⟨-, ha₁, ha₂⟩ := OorSheet.range_eq_some.1 ha
    obtain ⟨hb₀, hb₁, hb₂⟩ := OorSheet.range_eq_some.1 hb
    have := h.le m hm
    have := h.le n hn
    have := hsep (by simp [hb₀])
    omega
  have herase := h.ranges.eraseP _ hdistinct
  have hle := h.le
  have hold := h.front
  rw [hnodes] at hle
  rw [hnodes, List.pairwise_append, List.pairwise_cons] at hold
  rw [hnodes, List.filterMap_append, List.filterMap_cons_some hrange, List.eraseP_append_right,
    List.eraseP_cons_of_pos (by simp)] at herase
  · rw [heq]
    refine ⟨?_, ?_, ?_, ?_, ?_⟩
    · rw [List.filterMap_append, List.filterMap_cons_none (by simp [OorSheet.range])]
      exact herase
    · rw [List.pairwise_append, List.pairwise_cons]
      refine ⟨hold.1, ⟨hold.2.1.1, hold.2.1.2⟩, fun m hm k hk hk' => ?_⟩
      rcases List.mem_cons.1 hk with rfl | hk
      · simp at hk'
      · exact hold.2.2 m hm k (List.mem_cons_of_mem _ hk) hk'
    · intro m hm
      rcases List.mem_append.1 hm with hm | hm
      · exact hle m (List.mem_append_left _ hm)
      · rcases List.mem_cons.1 hm with rfl | hm
        · exact hle n (by simp)
        · exact hle m (by simp [hm])
    · have :=
        List.length_eraseP_of_mem (p := fun a : OorRange α => a.base = r.base ∧ a.len = r.len) hr
        (by simp)
      dsimp only
      rw [this, h.live]
      omega
    · exact lt_of_le_of_lt List.length_eraseP_le h.lt
  · intro a ha
    obtain ⟨m, hm, hma⟩ := List.mem_filterMap.1 ha
    obtain ⟨h₁, h₂, h₃⟩ := OorSheet.range_eq_some.1 hma
    have hml := hle m (List.mem_append_left _ hm)
    have := hfront m hm
    rw [h₁] at this
    simp only [Option.isSome_some, and_true] at this
    simp only [decide_eq_true_eq]
    omega

end OorInv

/-- In every history in which no insertion revives a node behind one that overlaps it, the lookup
finds the arena of the live range that contains an address, and nothing elsewhere. -/
theorem oor_owner_exact {calls : List (OorCall α)} {w : OorClient α}
    (hrun : Run (fun w c => OorClient.legal w c ∧ w.unshadowed c) OorClient.step .start calls w) :
    OorExact w := by
  have hinv : OorInv w ∧ ∀ r ∈ w.ranges, r.base + r.len < 2 ^ 64 := by
    refine hrun.invariant (fun w => OorInv w ∧ ∀ r ∈ w.ranges, r.base + r.len < 2 ^ 64) ?_
      ⟨⟨by simp [OorClient.start], by simp [OorClient.start], by simp [OorClient.start], rfl,
        by simp [OorClient.start]⟩, by simp [OorClient.start]⟩
    rintro w c w' ⟨hI, htop⟩ ⟨hlegal, hclear⟩ hstep
    cases c with
    | insert arena base len =>
      simp only [OorClient.step, Option.some.injEq] at hstep
      subst hstep
      refine ⟨hI.insert hlegal hclear, fun r hr => ?_⟩
      rcases List.mem_cons.1 hr with rfl | hr
      · exact hlegal.2.1
      · exact htop r hr
    | retire base len =>
      simp only [OorClient.step, Option.some.injEq] at hstep
      subst hstep
      exact ⟨hI.retire hlegal htop, fun r hr => htop r (List.mem_of_mem_eraseP hr)⟩
  exact hinv.1.exact

/-- Reuse of a retired range, with a nested range inserted in between elsewhere. -/
theorem oor_owner_exact_reuse : ∃ w : OorClient ℕ,
    Run (fun w c => OorClient.legal w c ∧ w.unshadowed c) OorClient.step .start
      [.insert 1 4096 8192, .retire 4096 8192, .insert 2 4096 4096, .insert 3 8192 4096,
        .retire 4096 4096, .insert 4 4096 4096] w ∧ oorOwnerOf w.oor 5000 = some 4 := by
  obtain ⟨w, hrun, hw⟩ := exists_run_of_exec
    (fun w c => OorClient.legal w c ∧ w.unshadowed c) OorClient.step (s := .start)
    (l := [.insert 1 4096 8192, .retire 4096 8192, .insert 2 4096 4096, .insert 3 8192 4096,
      .retire 4096 4096, .insert 4 4096 4096])
    (P := fun w : OorClient ℕ => w.ranges.any fun r => r.base ≤ 5000 ∧ 5000 < r.base + r.len ∧
      r.arena = 4)
    (by decide +kernel)
  obtain ⟨r, hr, hin⟩ := List.any_eq_true.1 hw
  simp only [decide_eq_true_eq] at hin
  obtain ⟨h₁, h₂, h₃⟩ := hin
  exact ⟨w, hrun, h₃ ▸ (oor_owner_exact hrun 5000).1 r hr h₁ h₂⟩

/-- A retired node in front hides the revived one. -/
theorem oor_owner_hidden : ∃ (calls : List (OorCall ℕ)) (w : OorClient ℕ),
    Run (fun w c => OorClient.legal w c) OorClient.step .start calls w ∧ ¬OorExact w := by
  obtain ⟨w, hrun, hw⟩ := exists_run_of_exec OorClient.legal OorClient.step (s := .start)
    (l := [.insert 1 4096 4096, .retire 4096 4096, .insert 2 4096 8192, .retire 4096 8192,
      .insert 3 4096 4096])
    (P := fun w : OorClient ℕ => (oorOwnerOf w.oor 4096).isNone &&
      w.ranges.any fun r => r.base ≤ 4096 ∧ 4096 < r.base + r.len)
    (by decide +kernel)
  rw [Bool.and_eq_true, List.any_eq_true] at hw
  obtain ⟨hnone, r, hr, hin⟩ := hw
  simp only [decide_eq_true_eq] at hin
  refine ⟨_, w, hrun, fun hexact => ?_⟩
  have := (hexact 4096).1 r hr hin.1 hin.2
  simp [this] at hnone

end AbcMalloc.Owner
