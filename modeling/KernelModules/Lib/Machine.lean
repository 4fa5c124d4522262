/-
  Guarded deterministic machines: steps, runs, reachable states, and bounded progress.

  A `Machine σ α` is a program seen from its scheduler: `guard s a` says whether the action `a`
  may be scheduled in state `s`, and `exec s a` runs it.  The two are kept apart because they
  fail for different reasons — a false guard is an action that is not there to be taken, while
  `exec s a = none` is a program that FAULTS (an index out of bounds, a NULL dereference).  Two
  machines that share `exec` and differ in `guard` are two schedulers over one program, and
  `Reachable.mono` moves every invariant of the freer one to the stricter one.

  * `step`, `runFrom`, `run`  — the executable side: a schedule is a list of actions;
  * `Reachable`               — its relational reading, with the invariant rule `Reachable.induct`
                                and the bridge `reachable_iff_run`;
  * `prefix_invariant`        — the invariant rule along one given schedule;
  * `iterate_drain`           — a measure that falls within every `k` turns of a loop is zero
                                after `k` times its value;
  * `runFrom_countdown`       — a bound on the ticks to go, whatever a schedule does between them.
-/
import Mathlib.Logic.Function.Iterate
import Mathlib.Data.List.Induction

namespace KernelModules.Lib

/-- A guarded deterministic machine with states `σ` and actions `α`. -/
structure Machine (σ α : Type) where
  /-- The initial state. -/
  init : σ
  /-- May the action be scheduled in this state? -/
  guard : σ → α → Bool
  /-- Running the action; `none` is a fault of the program. -/
  exec : σ → α → Option σ

namespace Machine

variable {σ α : Type} (M : Machine σ α)

/-! ## Steps and runs -/

/-- One scheduled action. -/
def step (s : σ) (a : α) : Option σ := if M.guard s a then M.exec s a else none

/-- Run a schedule from `s`; `none` if an action is not available or faults. -/
def runFrom : σ → List α → Option σ
  | s, [] => some s
  | s, a :: acts => (M.step s a).bind fun s' => runFrom s' acts

/-- Run a schedule from the initial state. -/
def run (acts : List α) : Option σ := M.runFrom M.init acts

variable {M}

theorem step_eq_some {s s' : σ} {a : α} :
    M.step s a = some s' ↔ M.guard s a = true ∧ M.exec s a = some s' := by
  unfold step
  split
  · rename_i hg
    exact ⟨fun h => ⟨hg, h⟩, fun h => h.2⟩
  · rename_i hg
    exact ⟨fun h => absurd h (by simp), fun h => absurd h.1 hg⟩

/-- A schedule whose first action is known. -/
theorem runFrom_cons {s t : σ} {a : α} (h : M.step s a = some t) (acts : List α) :
    M.runFrom s (a :: acts) = M.runFrom t acts := by
  show (M.step s a).bind _ = _
  rw [h]
  rfl

theorem runFrom_append (s : σ) (xs ys : List α) :
    M.runFrom s (xs ++ ys) = (M.runFrom s xs).bind fun s' => M.runFrom s' ys := by
  induction xs generalizing s with
  | nil => rfl
  | cons a xs ih =>
    rw [List.cons_append, runFrom, runFrom]
    cases M.step s a with
    | none => rfl
    | some t => exact ih t

/-- A schedule with one more action at its end. -/
theorem run_concat (acts : List α) (a : α) :
    M.run (acts ++ [a]) = (M.run acts).bind fun s => M.step s a := by
  rw [run, runFrom_append]
  show (M.run acts).bind _ = _
  cases M.run acts with
  | none => rfl
  | some s =>
    show (M.step s a).bind some = M.step s a
    cases M.step s a <;> rfl

/-- Where an action stands in a schedule: what comes before it is as long as its index. -/
theorem position {acts pre : List α} {a : α} (h : pre ++ [a] <+: acts) :
    pre = acts.take pre.length ∧ acts[pre.length]? = some a := by
  refine ⟨List.prefix_iff_eq_take.mp ((List.prefix_append pre [a]).trans h), ?_⟩
  obtain ⟨rest, rfl⟩ := h
  simp

/-- What a schedule reached on its way.  A schedule that runs to its end has run to every point
    before it. -/
theorem run_initial {acts pre : List α} {s : σ} (h : M.run acts = some s) (hpre : pre <+: acts) :
    ∃ t, M.run pre = some t := by
  obtain ⟨rest, rfl⟩ := hpre
  rw [run, runFrom_append, Option.bind_eq_some_iff] at h
  obtain ⟨t, ht, _⟩ := h
  exact ⟨t, ht⟩

/-! ## Reachable states -/

variable (M) in
/-- The states some schedule reaches. -/
inductive Reachable : σ → Prop
  | init : Reachable M.init
  | step {s s' : σ} {a : α} : Reachable s → M.step s a = some s' → Reachable s'

/-- The invariant rule: what holds initially and survives every step holds everywhere.  The
    step case may use that its source state is itself reachable. -/
theorem Reachable.induct {P : σ → Prop} (hinit : P M.init)
    (hstep : ∀ s a s', M.Reachable s → P s → M.step s a = some s' → P s') :
    ∀ {s}, M.Reachable s → P s := by
  intro s hs
  induction hs with
  | init => exact hinit
  | step hr hst ih => exact hstep _ _ _ hr ih hst

theorem Reachable.runFrom {s s' : σ} (hs : M.Reachable s) {acts : List α}
    (h : M.runFrom s acts = some s') : M.Reachable s' := by
  induction acts generalizing s with
  | nil => rw [Machine.runFrom, Option.some.injEq] at h; exact h ▸ hs
  | cons a acts ih =>
    rw [Machine.runFrom, Option.bind_eq_some_iff] at h
    obtain ⟨t, ht, hrest⟩ := h
    exact ih (hs.step ht) hrest

/-- The reachable states are exactly the ends of the schedules. -/
theorem reachable_iff_run {s : σ} : M.Reachable s ↔ ∃ acts, M.run acts = some s := by
  constructor
  · intro hs
    induction hs with
    | init => exact ⟨[], rfl⟩
    | @step s s' a _ hst ih =>
      obtain ⟨acts, hacts⟩ := ih
      exact ⟨acts ++ [a], by rw [run_concat, hacts]; exact hst⟩
  · rintro ⟨acts, hacts⟩
    exact Reachable.init.runFrom hacts

/-- The state a schedule computes. -/
theorem run_get (acts : List α) (h : (M.run acts).isSome) :
    M.run acts = some ((M.run acts).get h) :=
  (Option.some_get h).symm

/-- A state computed by a schedule is reachable.  With `decide` for its hypothesis this is how a
    concrete run enters a theorem. -/
theorem reachable_get (acts : List α) (h : (M.run acts).isSome) :
    M.Reachable ((M.run acts).get h) :=
  reachable_iff_run.mpr ⟨acts, run_get acts h⟩

/-- The invariant rule along one schedule: the step case may use which action of the schedule it
    is, and what was run before it. -/
theorem prefix_invariant {P : σ → Prop} {acts : List α} (hinit : P M.init)
    (hstep : ∀ pre a s s', pre ++ [a] <+: acts → M.run pre = some s → P s →
      M.step s a = some s' → P s') :
    ∀ pre s, pre <+: acts → M.run pre = some s → P s := by
  intro pre
  induction pre using List.reverseRecOn with
  | nil =>
    intro s _ h
    have h' : M.init = s := Option.some.inj h
    rw [← h']
    exact hinit
  | append_singleton pre a ih =>
    intro s hpre h
    rw [run_concat, Option.bind_eq_some_iff] at h
    obtain ⟨t, ht, hst⟩ := h
    exact hstep pre a t s hpre ht (ih t ((List.prefix_append pre [a]).trans hpre) ht) hst

/-- Two schedulers over one program: a run of the stricter is a run of the freer ... -/
theorem run_mono {N : Machine σ α} (hinit : M.init = N.init) (hexec : M.exec = N.exec)
    (hguard : ∀ s a, M.guard s a = true → N.guard s a = true) {acts : List α} {s : σ}
    (h : M.run acts = some s) : N.run acts = some s := by
  induction acts using List.reverseRecOn generalizing s with
  | nil =>
    have h' : M.init = s := Option.some.inj h
    rw [← h', hinit]
    rfl
  | append_singleton acts a ih =>
    rw [run_concat, Option.bind_eq_some_iff] at h ⊢
    obtain ⟨t, ht, hst⟩ := h
    obtain ⟨hg, he⟩ := step_eq_some.mp hst
    exact ⟨t, ih ht, step_eq_some.mpr ⟨hguard t a hg, hexec ▸ he⟩⟩

/-- ... so what the stricter reaches, the freer reaches. -/
theorem Reachable.mono {N : Machine σ α} (hinit : M.init = N.init) (hexec : M.exec = N.exec)
    (hguard : ∀ s a, M.guard s a = true → N.guard s a = true) {s : σ} (hs : M.Reachable s) :
    N.Reachable s := by
  obtain ⟨acts, h⟩ := reachable_iff_run.mp hs
  exact reachable_iff_run.mpr ⟨acts, run_mono hinit hexec hguard h⟩

end Machine

/-! ## Bounded progress of an iterated function -/

section Progress

variable {σ : Type} {f : σ → σ} {P : σ → Prop}

theorem iterate_preserves (hP : ∀ s, P s → P (f s)) (n : Nat) {s : σ} (hs : P s) :
    P (f^[n] s) := by
  induction n generalizing s with
  | zero => exact hs
  | succ n ih => exact ih (hP s hs)

/-- A measure no turn raises is raised by no number of turns; the invariant `P` is there for
    measures that behave on good states only. -/
theorem iterate_le {μ : σ → Nat} (hP : ∀ s, P s → P (f s)) (hle : ∀ s, P s → μ (f s) ≤ μ s)
    (n : Nat) {s : σ} (hs : P s) : μ (f^[n] s) ≤ μ s := by
  induction n generalizing s with
  | zero => exact Nat.le_refl _
  | succ n ih => exact Nat.le_trans (ih (hP s hs)) (hle s hs)

/-- **Bounded progress.**  A measure that falls within every `k` turns, as long as it is not
    zero, is zero after `k` times its value. -/
theorem iterate_drain {μ : σ → Nat} {k : Nat} (hP : ∀ s, P s → P (f s))
    (hdec : ∀ s, P s → 0 < μ s → μ (f^[k] s) < μ s) (hzero : ∀ s, P s → μ s = 0 → μ (f s) = 0) :
    ∀ (m : Nat) {s : σ}, P s → μ s ≤ m → μ (f^[k * m] s) = 0 := by
  intro m
  induction m with
  | zero => intro s _ hm; exact Nat.le_zero.mp hm
  | succ m ih =>
    intro s hs hm
    rw [Nat.mul_succ, Function.iterate_add_apply]
    refine ih (iterate_preserves hP k hs) ?_
    rcases Nat.eq_zero_or_pos (μ s) with h0 | hpos
    · have h : P (f^[k] s) ∧ μ (f^[k] s) = 0 :=
        iterate_preserves (P := fun s => P s ∧ μ s = 0)
          (fun s h => ⟨hP s h.1, hzero s h.1 h.2⟩) k ⟨hs, h0⟩
      omega
    · have := hdec s hs hpos
      omega

end Progress

/-! ## Bounded progress of a run -/

/-- **A countdown under any schedule.**  `I n s`: in state `s` there are fewer than `n` ticks to go.
    If every tick takes one off and no other action of the schedule adds one, the ticks of a
    schedule are taken off, whatever comes between them. -/
theorem Machine.runFrom_countdown {σ α : Type} {M : Machine σ α} {I : Nat → σ → Prop}
    {ok : α → Prop} {tick : α → Bool}
    (htick : ∀ n s a s', ok a → tick a = true → I (n + 1) s → M.step s a = some s' → I n s')
    (hother : ∀ n s a s', ok a → tick a = false → I n s → M.step s a = some s' → I n s') :
    ∀ (acts : List α) {n : Nat} {s s' : σ}, (∀ a ∈ acts, ok a) → I (n + acts.countP tick) s →
      M.runFrom s acts = some s' → I n s'
  | [], n, s, s', _, hI, hrun => by
    rw [← Option.some.inj hrun]
    exact hI
  | a :: acts, n, s, s', hok, hI, hrun => by
    obtain ⟨t, hst, htail⟩ := Option.bind_eq_some_iff.mp hrun
    have ha := hok a List.mem_cons_self
    refine runFrom_countdown htick hother acts (fun x hx => hok x (List.mem_cons_of_mem a hx)) ?_
      htail
    cases hcase : tick a with
    | true =>
      rw [List.countP_cons_of_pos hcase, ← Nat.add_assoc] at hI
      exact htick _ s a t ha hcase hI hst
    | false =>
      rw [List.countP_cons_of_neg (by simp [hcase])] at hI
      exact hother _ s a t ha hcase hI hst

end KernelModules.Lib
