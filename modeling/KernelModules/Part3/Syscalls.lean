/-
  The system calls and their return codes.

  The caller of `issue_request`, `start_elevator` or `stop_elevator` learns one thing, the return
  code.  `Truthful` says what a code should mean — 0 exactly when the call had its `Effect`, a
  non-zero code only with the building untouched — for every outcome of the two kernel primitives
  the calls use.

  The calls do not check the primitives.  `issue_request` writes through whatever `kmalloc`
  returned, and all three skip their locked region when `mutex_lock_interruptible` fails and then
  return 0 as if they had run it.  So a call is truthful exactly when it gets what it asked the
  kernel for, or never asks (`truthful_iff_granted`).
-/
import KernelModules.Part3.Runs

namespace KernelModules.Part3

open KernelModules.Lib

/-! ## Calls and effects -/

/-- The three system calls. -/
inductive Syscall
  | issueRequest (pType sFloor dFloor : Int)
  | startElevator
  | stopElevator
  deriving DecidableEq, Repr

/-- Make a call: its return code and the state it leaves, or a fault. -/
def Syscall.call (k : Outcome) (s : Sys) : Syscall → Option (Int × Sys)
  | .issueRequest pType sFloor dFloor => Part3.issueRequest k pType sFloor dFloor s
  | .startElevator => some (Part3.startElevator k s)
  | .stopElevator => some (Part3.stopElevator k s)

/-- What a call is for.  A request appends one new passenger to the tail of the waiting list of
    its start floor and counts it in there; a start takes an offline elevator to idle at floor 0
    with `e.shutdown` clear; a stop sets a clear `e.shutdown`. -/
def Syscall.Effect (s s' : Sys) : Syscall → Prop
  | .issueRequest pType sFloor dFloor => ∃ (i : Slot) (p : Passenger),
      p.node = s.nodes ∧ p.type = PType.ofInt (pType - 1) ∧ p.sFloor = sFloor - 1 ∧
      p.dFloor = dFloor - 1 ∧ p.sFloor = i ∧ s'.b = s.b.queued i p
  | .startElevator => s.b.e.status = .offline ∧ s'.b.e.status = .idle ∧ s'.b.e.current = 0 ∧
      s'.b.e.shutdown = 0
  | .stopElevator => s.b.e.shutdown = 0 ∧ s'.b.e.shutdown = 1

/-- The return code tells the truth. -/
def Truthful (k : Outcome) (s : Sys) (c : Syscall) : Prop :=
  ∃ ret s', c.call k s = some (ret, s') ∧ (ret = 0 ↔ c.Effect s s') ∧ (ret ≠ 0 → s'.b = s.b)

/-- The kernel grants what the call asks for; a request that is refused asks for nothing. -/
def Granted (k : Outcome) (s : Sys) : Syscall → Prop
  | .issueRequest pType sFloor dFloor =>
      refuses s.b.e pType sFloor dFloor = true ∨ k.kmalloc = true ∧ k.lock = true
  | .startElevator => k.lock = true
  | .stopElevator => k.lock = true

/-! ## `issue_request` -/

/-- A request leaves a building that differs from the one before. -/
theorem queued_ne (b : Building) (i : Slot) (p : Passenger) : b.queued i p ≠ b := by
  intro heq
  have hw : ((b.queued i p).f i).waiting = (b.f i).waiting := by rw [heq]
  simp [Building.queued, Building.onFloor] at hw

theorem not_effect_request {s s' : Sys} {pType sFloor dFloor : Int} (hb : s'.b = s.b) :
    ¬ (Syscall.issueRequest pType sFloor dFloor).Effect s s' := by
  rintro ⟨i, p, _, _, _, _, _, hq⟩
  exact queued_ne s.b i p (hq.symm.trans hb)

/-- With memory and the lock, a request that passes the tests is appended. -/
theorem issueRequest_granted {k : Outcome} {s : Sys} {pType sFloor dFloor : Int}
    (href : refuses s.b.e pType sFloor dFloor = false) (hk : k.kmalloc = true)
    (hl : k.lock = true) :
    ∃ s', issueRequest k pType sFloor dFloor s = some (0, s') ∧
      (Syscall.issueRequest pType sFloor dFloor).Effect s s' := by
  have hvalid := newPassenger_valid href
  obtain ⟨i, hi⟩ := hvalid.src
  refine ⟨({ s with
      b := s.b.queued i (newPassenger s pType sFloor dFloor)
      nodes := s.nodes + 1 } : Sys).record (.accepted (newPassenger s pType sFloor dFloor)),
    ?_, i, newPassenger s pType sFloor dFloor, rfl, rfl, rfl, rfl, hi, rfl⟩
  rw [issueRequest, if_neg (by rw [href]; decide), if_neg (by rw [hk]; decide), if_pos hl, enqueue,
    addPass_spec _ hvalid hi]
  rfl

theorem truthful_request_iff (k : Outcome) (s : Sys) (pType sFloor dFloor : Int) :
    Truthful k s (.issueRequest pType sFloor dFloor) ↔
      Granted k s (.issueRequest pType sFloor dFloor) := by
  cases href : refuses s.b.e pType sFloor dFloor with
  | true =>
    refine iff_of_true ⟨1, s, ?_, ?_, fun _ => rfl⟩ (Or.inl href)
    · rw [Syscall.call, issueRequest, if_pos href]
    · exact iff_of_false (by decide) (not_effect_request rfl)
  | false =>
    have hrefused : ¬ refuses s.b.e pType sFloor dFloor = true := by rw [href]; decide
    constructor
    · rintro ⟨ret, s', hcall, hret, _⟩
      refine Or.inr ?_
      rw [Syscall.call, issueRequest, if_neg hrefused] at hcall
      cases hk : k.kmalloc with
      | false =>
        -- a NULL node faults
        rw [hk, if_pos (by decide)] at hcall
        exact absurd hcall (by simp)
      | true =>
        rw [hk, if_neg (by decide)] at hcall
        cases hl : k.lock with
        | true => exact ⟨rfl, rfl⟩
        | false =>
          -- the passenger is lost and the code is 0
          simp only [hl, Bool.false_eq_true, if_false, Option.some.injEq, Prod.mk.injEq] at hcall
          obtain ⟨rfl, rfl⟩ := hcall
          exact absurd (hret.mp rfl) (not_effect_request rfl)
    · rintro (hyes | ⟨hk, hl⟩)
      · exact absurd hyes hrefused
      · obtain ⟨s', hcall, heffect⟩ := issueRequest_granted href hk hl
        exact ⟨0, s', hcall, iff_of_true rfl heffect, fun h => absurd rfl h⟩

/-- One call of `issue_request` that gets memory and the lock is the machine's two actions, one
    after the other. -/
theorem issueRequest_eq_request_insert {s : Sys} (hs : Sound s) {pType sFloor dFloor : Int}
    (href : refuses s.b.e pType sFloor dFloor = false) :
    (exec s (.request pType sFloor dFloor)).bind
        (fun t => exec t (.insert (newPassenger s pType sFloor dFloor)))
      = (issueRequest .ok pType sFloor dFloor s).map Prod.snd := by
  have hnew : newPassenger s pType sFloor dFloor ∉ s.inflight := by
    intro hin
    have hlt := hs.census.bound _ (List.mem_append_right _ hin)
    exact absurd hlt (Nat.lt_irrefl s.nodes)
  have hrefused : ¬ refuses s.b.e pType sFloor dFloor = true := by rw [href]; decide
  rw [exec, if_neg hrefused, Option.bind_some, exec, issueRequest, if_neg hrefused,
    if_neg (by decide), if_pos (by rfl), List.erase_append_right _ hnew, List.erase_cons_head,
    List.append_nil, Option.map_map]
  exact Option.map_id'.symm

/-! ## `start_elevator` and `stop_elevator` -/

theorem truthful_start_iff (k : Outcome) (s : Sys) :
    Truthful k s .startElevator ↔ Granted k s .startElevator := by
  show _ ↔ k.lock = true
  constructor
  · rintro ⟨ret, s', hcall, hret, _⟩
    by_contra hl
    rw [Syscall.call, startElevator, if_neg hl, Option.some.injEq, Prod.mk.injEq] at hcall
    obtain ⟨rfl, rfl⟩ := hcall
    obtain ⟨hoff, hidle, _⟩ := hret.mp rfl
    rw [hoff] at hidle
    exact absurd hidle (by decide)
  · intro hl
    by_cases hoff : s.b.e.status = .offline
    · refine ⟨(startElevator k s).1, (startElevator k s).2, rfl, ?_⟩
      rw [startElevator, if_pos hl, if_neg (not_not.mpr hoff)]
      exact ⟨iff_of_true rfl ⟨hoff, rfl, rfl, rfl⟩, fun h => absurd rfl h⟩
    · refine ⟨1, s, ?_, iff_of_false (by decide) fun h => hoff h.1, fun _ => rfl⟩
      rw [Syscall.call, startElevator, if_pos hl, if_pos hoff]

theorem truthful_stop_iff (k : Outcome) (s : Sys) :
    Truthful k s .stopElevator ↔ Granted k s .stopElevator := by
  show _ ↔ k.lock = true
  constructor
  · rintro ⟨ret, s', hcall, hret, _⟩
    by_contra hl
    rw [Syscall.call, stopElevator, if_neg hl, Option.some.injEq, Prod.mk.injEq] at hcall
    obtain ⟨rfl, rfl⟩ := hcall
    obtain ⟨hzero, hone⟩ := hret.mp rfl
    omega
  · intro hl
    by_cases hsd : s.b.e.shutdown = 0
    · refine ⟨(stopElevator k s).1, (stopElevator k s).2, rfl, ?_⟩
      rw [stopElevator, if_pos hl, if_neg (not_not.mpr hsd)]
      exact ⟨iff_of_true rfl ⟨hsd, rfl⟩, fun h => absurd rfl h⟩
    · refine ⟨1, s, ?_, iff_of_false (by decide) fun h => hsd h.1, fun _ => rfl⟩
      rw [Syscall.call, stopElevator, if_pos hl, if_pos hsd]

/-! ## When the return code tells the truth -/

/-- **Return codes.**  In every state, for every call, all arguments and all outcomes of the
    kernel primitives, the return code tells the truth exactly when the kernel grants what the
    call asks for. -/
theorem truthful_iff_granted (k : Outcome) (s : Sys) (c : Syscall) :
    Truthful k s c ↔ Granted k s c := by
  cases c with
  | issueRequest pType sFloor dFloor => exact truthful_request_iff k s pType sFloor dFloor
  | startElevator => exact truthful_start_iff k s
  | stopElevator => exact truthful_stop_iff k s

/-- A stop that is interrupted while it waits for the lock returns 0, and nothing was stopped. -/
theorem interrupted_stop_returns_zero :
    ¬ ∀ s, system.Reachable s → ∀ (k : Outcome) (c : Syscall), Truthful k s c := by
  intro hall
  have hr := Machine.reachable_get (M := system) [.start] (by decide)
  obtain ⟨ret, s', hcall, hret, _⟩ := hall _ hr ⟨true, false⟩ .stopElevator
  rw [Syscall.call, stopElevator, if_neg (by decide), Option.some.injEq, Prod.mk.injEq] at hcall
  obtain ⟨rfl, rfl⟩ := hcall
  exact absurd (hret.mp rfl).2 (by decide)

end KernelModules.Part3
