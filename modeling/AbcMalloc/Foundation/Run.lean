import Mathlib.Tactic.SplitIfs

/-! Runs of a labelled transition system whose steps may be forbidden (`ok`) or may fail
(`apply` returns `none`). `exec` evaluates a run on concrete labels; `Run.invariant` is
the rule by which a property of one step becomes a property of every run. -/
namespace AbcMalloc.Foundation

variable {σ α : Type*} {ok ok' : σ → α → Prop} {apply : σ → α → Option σ}

/-- `Run ok apply s l t`: the labels `l`, each permitted by `ok`, lead from `s` to `t`. -/
inductive Run (ok : σ → α → Prop) (apply : σ → α → Option σ) : σ → List α → σ → Prop
  | nil (s : σ) : Run ok apply s [] s
  | cons {s t u : σ} {a : α} {l : List α} (hok : ok s a) (hstep : apply s a = some t)
      (hrest : Run ok apply t l u) : Run ok apply s (a :: l) u

namespace Run

/-- What every permitted step preserves, every run preserves. -/
theorem invariant {s t : σ} {l : List α} (h : Run ok apply s l t) (I : σ → Prop)
    (hstep : ∀ s a t, I s → ok s a → apply s a = some t → I t) (hs : I s) : I t := by
  induction h with
  | nil => exact hs
  | cons hok ha _ ih => exact ih (hstep _ _ _ hs hok ha)

/-- The same for steps whose labels are known to come from a set. -/
theorem invariant_mem {s t : σ} {l : List α} (h : Run ok apply s l t) {P : α → Prop}
    (hP : ∀ a ∈ l, P a) (I : σ → Prop)
    (hstep : ∀ s a t, I s → ok s a → P a → apply s a = some t → I t) (hs : I s) : I t := by
  induction h with
  | nil => exact hs
  | cons hok ha _ ih =>
    apply ih fun a hmem => hP a (List.mem_cons_of_mem _ hmem)
    exact hstep _ _ _ hs hok (hP _ List.mem_cons_self) ha

/-- A run is a run of any other system whose steps are the same while an invariant holds. -/
theorem transfer {s t : σ} {l : List α} (h : Run ok apply s l t) (apply' : σ → α → Option σ)
    (I : σ → Prop)
    (hstep : ∀ s a t, I s → ok s a → apply s a = some t → apply' s a = some t ∧ I t) (hs : I s) :
    Run ok apply' s l t ∧ I t := by
  induction h with
  | nil => exact ⟨.nil _, hs⟩
  | cons hok ha _ ih =>
    obtain ⟨ha', hs'⟩ := hstep _ _ _ hs hok ha
    obtain ⟨hrun, ht⟩ := ih hs'
    exact ⟨.cons hok ha' hrun, ht⟩

theorem mono {s t : σ} {l : List α} (h : Run ok apply s l t) (hle : ∀ s a, ok s a → ok' s a) :
    Run ok' apply s l t := by
  induction h with
  | nil => exact .nil _
  | cons hok ha _ ih => exact .cons (hle _ _ hok) ha ih

theorem append {s t u : σ} {l l' : List α} (h : Run ok apply s l t) (h' : Run ok apply t l' u) :
    Run ok apply s (l ++ l') u := by
  induction h with
  | nil => exact h'
  | cons hok ha _ ih => exact .cons hok ha (ih h')

end Run

/-- Evaluate a run, stopping with `none` at the first step that is not permitted or fails. -/
def exec (ok : σ → α → Prop) [∀ s a, Decidable (ok s a)] (apply : σ → α → Option σ) :
    σ → List α → Option σ
  | s, [] => some s
  | s, a :: l => if ok s a then (apply s a).bind (exec ok apply · l) else none

theorem run_of_exec [∀ s a, Decidable (ok s a)] {l : List α} :
    ∀ {s t : σ}, exec ok apply s l = some t → Run ok apply s l t := by
  induction l with
  | nil =>
    intro s t h
    simp only [exec, Option.some.injEq] at h
    exact h ▸ .nil s
  | cons a l ih =>
    intro s t h
    simp only [exec] at h
    split_ifs at h with hok
    obtain ⟨u, hu, ht⟩ := Option.bind_eq_some_iff.1 h
    exact .cons hok hu (ih ht)

/-- A run on concrete labels, checked by evaluation, together with a fact about its end. -/
theorem exists_run_of_exec (ok : σ → α → Prop) [∀ s a, Decidable (ok s a)]
    (apply : σ → α → Option σ) {s : σ} {l : List α} {P : σ → Bool}
    (h : (exec ok apply s l).any P = true) : ∃ t, Run ok apply s l t ∧ P t = true := by
  cases ht : exec ok apply s l with
  | none => simp [ht] at h
  | some t => exact ⟨t, run_of_exec ht, by simpa [ht] using h⟩

end AbcMalloc.Foundation
