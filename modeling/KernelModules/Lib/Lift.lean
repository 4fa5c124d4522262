/-
  A lift, as a specification: one carriage, riders who wait, and the history of what it did.

  The state is what a passer-by could note down: who waits, in order of arrival; who is aboard, in
  order of boarding; who has been taken where they wanted; where the carriage stands and which way it
  is heading; whether it is running, has come to rest, and has been asked to stop.  There are no
  queues by level, no lists by destination and no counters: a queue is the part of `waiting` with
  that origin, a load is a sum over such a part or over `aboard`, a count of trips done is the
  length of a part of `done`.

  The machine `lift` reads a HISTORY, event by event, and accepts it if each event could happen
  when it did.  An implementation is right if the history of each of its runs is accepted and ends
  in a state that looks like its own.

  What is true of every accepted history can then be proved here, once.  `story_prefix`: if nobody
  arrives twice, the events about one rider are the beginning of their itinerary — arrive, board
  at the origin, alight at the destination — and they are as far as the state says they are.
-/
import Mathlib.Data.List.Nodup
import KernelModules.Lib.Machine

namespace KernelModules.Lib

/-- The riders, as far as a lift knows them. -/
structure Riders (π : Type) where
  origin : π → Int
  dest : π → Int
  /-- May these be aboard together? -/
  fits : List π → Bool

/-- A lift with riders `π`. -/
structure Lift (π : Type) where
  /-- In order of arrival. -/
  waiting : List π
  /-- In order of boarding. -/
  aboard : List π
  /-- In order of alighting. -/
  done : List π
  level : Int
  /-- Is it heading up? -/
  up : Bool
  running : Bool
  /-- It has had nothing to do since it last travelled. -/
  parked : Bool
  /-- It has been asked to stop. -/
  closing : Bool

/-- What a history records. -/
inductive LiftEvent (π : Type)
  | arrive (p : π)
  | board (p : π) (level : Int)
  | alight (p : π) (level : Int)
  | travel (src dst : Int)
  /-- The carriage has nothing to do. -/
  | park
  /-- The carriage goes out of service. -/
  | halt
  /-- The carriage goes into service, at level 0. -/
  | resume
  | stop
  deriving DecidableEq

variable {π : Type}

/-- Does the rider go up? -/
def Riders.goesUp (R : Riders π) (p : π) : Bool := decide (R.origin p < R.dest p)

namespace Lift

/-- Who waits at level `i`. -/
def queue (R : Riders π) (t : Lift π) (i : Int) : List π := t.waiting.filter fun p => R.origin p = i

/-- Who rides to level `j`. -/
def riding (R : Riders π) (t : Lift π) (j : Int) : List π := t.aboard.filter fun p => R.dest p = j

/-- Who has been taken from level `i`. -/
def taken (R : Riders π) (t : Lift π) (i : Int) : List π := t.done.filter fun p => R.origin p = i

/-- The level the carriage would go to: there is one way only from the bottom. -/
def nextLevel (t : Lift π) : Int := if t.up || t.level == 0 then t.level + 1 else t.level - 1

/-- Is there a reason to travel: a rider, or somebody waiting who will be let in? -/
def hasWork (t : Lift π) : Bool := !t.aboard.isEmpty || (!t.waiting.isEmpty && !t.closing)

/-- Nobody stays aboard at their destination, but for those who have just boarded there. -/
def doorsDone (R : Riders π) (t : Lift π) : Bool :=
  (t.riding R t.level).all fun p => R.origin p = t.level

variable [DecidableEq π]

/-- May this event happen now? -/
def allows (R : Riders π) (top : Int) (t : Lift π) : LiftEvent π → Bool
  | .arrive p => decide (0 ≤ R.origin p ∧ R.origin p ≤ top ∧ 0 ≤ R.dest p ∧ R.dest p ≤ top)
  | .board p i => t.running && !t.closing && decide (i = t.level)
      && decide ((t.queue R i).head? = some p) && (R.goesUp p == t.up) && R.fits (t.aboard ++ [p])
  | .alight p i => t.running && decide (i = t.level) && decide ((t.riding R i).head? = some p)
  | .travel i j => t.running && decide (i = t.level) && decide (j = t.nextLevel) && t.hasWork
      && t.doorsDone R
  | .park => t.running && t.aboard.isEmpty && t.waiting.isEmpty
  | .halt => t.running && t.aboard.isEmpty && !t.waiting.isEmpty && t.closing
  | .resume => !t.running
  | .stop => !t.closing

/-- The state after it. -/
def after (top : Int) (t : Lift π) : LiftEvent π → Lift π
  | .arrive p => { t with waiting := t.waiting ++ [p] }
  | .board p _ => { t with waiting := t.waiting.erase p, aboard := t.aboard ++ [p] }
  | .alight p _ => { t with aboard := t.aboard.erase p, done := t.done ++ [p] }
  | .travel _ j => { t with
      level := j
      parked := false
      up := if j = 0 then true else if j = top then false else t.up }
  | .park => { t with parked := true }
  | .halt => { t with running := false }
  -- the heading is left as it was
  | .resume => { t with level := 0, running := true, parked := true, closing := false }
  | .stop => { t with closing := true }

/-- Out of service at level 0, and nobody about. -/
def init : Lift π where
  waiting := []
  aboard := []
  done := []
  level := 0
  up := true
  running := false
  parked := false
  closing := false

end Lift

variable [DecidableEq π]

/-- The acceptor of histories. -/
def lift (R : Riders π) (top : Int) : Machine (Lift π) (LiftEvent π) where
  init := .init
  guard := Lift.allows R top
  exec := fun t ev => some (t.after top ev)

variable {R : Riders π} {top : Int}

theorem lift_step {t t' : Lift π} {ev : LiftEvent π} :
    (lift R top).step t ev = some t' ↔ t.allows R top ev = true ∧ t.after top ev = t' := by
  rw [Machine.step_eq_some]
  exact and_congr_right fun _ => Option.some_inj

/-! ## Queues -/

omit [DecidableEq π] in
/-- The head of a part of a list is in the list, and in the part. -/
theorem mem_of_filter_head {q : π → Bool} {l : List π} {p : π} (h : (l.filter q).head? = some p) :
    p ∈ l ∧ q p = true :=
  List.mem_filter.mp (List.mem_of_head? h)

/-- Taking the head of a part out of the list shortens that part ... -/
theorem filter_erase_head {q : π → Bool} {l r : List π} {p : π} (h : l.filter q = p :: r) :
    (l.erase p).filter q = r := by
  rw [← List.erase_filter, h, List.erase_cons_head]

/-- ... and leaves a part without it alone. -/
theorem filter_erase_of_neg {q : π → Bool} {l : List π} {p : π} (h : q p = false) :
    (l.erase p).filter q = l.filter q := by
  rw [← List.erase_filter, List.erase_of_not_mem]
  intro hp
  rw [(List.mem_filter.mp hp).2] at h
  exact absurd h (by decide)

omit [DecidableEq π] in
/-- A newcomer joins the parts it belongs to, at their ends ... -/
theorem filter_concat {q : π → Bool} (l : List π) {p : π} (h : q p = true) :
    (l ++ [p]).filter q = l.filter q ++ [p] := by
  rw [List.filter_append, List.filter_cons_of_pos h, List.filter_nil]

omit [DecidableEq π] in
/-- ... and no other part. -/
theorem filter_concat_of_neg {q : π → Bool} (l : List π) {p : π} (h : q p = false) :
    (l ++ [p]).filter q = l.filter q := by
  rw [List.filter_append, List.filter_cons_of_neg (by rw [h]; decide), List.filter_nil,
    List.append_nil]

/-! ## The story of one rider -/

/-- Is this event about `p`? -/
def LiftEvent.about (p : π) : LiftEvent π → Bool
  | .arrive q | .board q _ | .alight q _ => q = p
  | _ => false

/-- The events about `p`, in order. -/
def story (p : π) (es : List (LiftEvent π)) : List (LiftEvent π) := es.filter (LiftEvent.about p)

omit [DecidableEq π] in
/-- Everybody who arrived, in order. -/
def arrivals (es : List (LiftEvent π)) : List π := es.filterMap fun | .arrive p => some p | _ => none

/-- What is to happen to `p`. -/
def itinerary (R : Riders π) (p : π) : List (LiftEvent π) :=
  [.arrive p, .board p (R.origin p), .alight p (R.dest p)]

theorem story_concat (p : π) (es : List (LiftEvent π)) (ev : LiftEvent π) :
    story p (es ++ [ev]) = if ev.about p then story p es ++ [ev] else story p es := by
  cases h : ev.about p with
  | true => exact filter_concat es h
  | false => exact filter_concat_of_neg es h

/-- `p` is `k` events along the itinerary: before it, waiting, aboard, or done. -/
structure Stage (R : Riders π) (p : π) (es : List (LiftEvent π)) (t : Lift π) (k : Nat) : Prop where
  bound : k ≤ 3
  events : story p es = (itinerary R p).take k
  waiting : p ∈ t.waiting ↔ k = 1
  aboard : p ∈ t.aboard ↔ k = 2

/-- The invariant of the histories in which nobody arrives twice. -/
structure Told (R : Riders π) (es : List (LiftEvent π)) (t : Lift π) : Prop where
  waiting : t.waiting.Nodup
  aboard : t.aboard.Nodup
  stage : ∀ p, ∃ k, Stage R p es t k

/-- An event that is not about `p` and leaves `p` where it is tells nothing new of `p`'s story. -/
theorem Stage.other {p : π} {es : List (LiftEvent π)} {t t' : Lift π} {k : Nat}
    (h : Stage R p es t k) {ev : LiftEvent π} (hev : ev.about p = false)
    (hw : p ∈ t'.waiting ↔ p ∈ t.waiting) (ha : p ∈ t'.aboard ↔ p ∈ t.aboard) :
    Stage R p (es ++ [ev]) t' k where
  bound := h.bound
  events := by rw [story_concat, hev, if_neg (by decide), h.events]
  waiting := hw.trans h.waiting
  aboard := ha.trans h.aboard

/-- The next event of the itinerary: the story gets longer by the event that was due, and `p` is
    one stage further. -/
theorem Stage.next {p : π} {es : List (LiftEvent π)} {t t' : Lift π} {k : Nat}
    (h : Stage R p es t k) {ev : LiftEvent π} (hev : (itinerary R p)[k]? = some ev)
    (habout : ev.about p = true) (hw : p ∈ t'.waiting ↔ k + 1 = 1)
    (ha : p ∈ t'.aboard ↔ k + 1 = 2) : Stage R p (es ++ [ev]) t' (k + 1) where
  bound := by
    have := (List.getElem?_eq_some_iff.mp hev).1
    exact this
  events := by rw [story_concat, if_pos habout, h.events, List.take_add_one, hev]; rfl
  waiting := hw
  aboard := ha

/-- Whoever is past the start of the itinerary has arrived. -/
theorem Stage.arrived {p : π} {es : List (LiftEvent π)} {t : Lift π} {k : Nat}
    (h : Stage R p es t k) (hk : k ≠ 0) : p ∈ arrivals es := by
  have hmem : LiftEvent.arrive p ∈ story p es := by
    rw [h.events]
    obtain ⟨n, rfl⟩ := Nat.exists_eq_succ_of_ne_zero hk
    exact List.mem_cons_self
  exact List.mem_filterMap.mpr ⟨_, (List.mem_filter.mp hmem).1, rfl⟩

/-- **One more event**, for every rider at once: it is the next of its own rider's story, and of
    nobody else's. -/
theorem Told.concat {es : List (LiftEvent π)} {t t' : Lift π} {ev : LiftEvent π}
    (h : Told R es t) (hst : (lift R top).step t ev = some t')
    (hnew : ∀ p, ev = .arrive p → p ∉ arrivals es) : Told R (es ++ [ev]) t' := by
  obtain ⟨hg, rfl⟩ := lift_step.mp hst
  cases ev with
  | arrive p =>
    obtain ⟨k, hk⟩ := h.stage p
    obtain rfl : k = 0 := by
      by_contra hk0
      exact hnew p rfl (hk.arrived hk0)
    have hp : p ∉ t.waiting := fun hp => absurd (hk.waiting.mp hp) (by decide)
    refine ⟨?_, h.aboard, fun q => ?_⟩
    · refine List.nodup_append.mpr ⟨h.waiting, List.nodup_singleton p, ?_⟩
      rintro q hq r hr rfl
      exact hp (List.mem_singleton.mp hr ▸ hq)
    · by_cases hq : q = p
      · subst hq
        refine ⟨1, hk.next rfl (by simp [LiftEvent.about]) ?_ ?_⟩
        · exact iff_of_true (List.mem_append_right _ List.mem_cons_self) rfl
        · exact iff_of_false (fun ha => absurd (hk.aboard.mp ha) (by decide)) (by decide)
      · obtain ⟨k, hk⟩ := h.stage q
        refine ⟨k, hk.other (by simpa [LiftEvent.about] using Ne.symm hq) ?_ Iff.rfl⟩
        show q ∈ t.waiting ++ [p] ↔ _
        rw [List.mem_append, List.mem_singleton, or_iff_left hq]
  | board p i =>
    simp only [Lift.allows, Bool.and_eq_true, decide_eq_true_eq] at hg
    obtain ⟨⟨⟨_, hhead⟩, _⟩, _⟩ := hg
    obtain ⟨hp, horigin⟩ := mem_of_filter_head hhead
    obtain rfl : R.origin p = i := of_decide_eq_true horigin
    refine ⟨h.waiting.erase p, ?_, fun q => ?_⟩
    · obtain ⟨k, hk⟩ := h.stage p
      have hpa : p ∉ t.aboard := fun ha => by
        have h1 := hk.waiting.mp hp
        have h2 := hk.aboard.mp ha
        omega
      refine List.nodup_append.mpr ⟨h.aboard, List.nodup_singleton p, ?_⟩
      rintro q hq r hr rfl
      exact hpa (List.mem_singleton.mp hr ▸ hq)
    · obtain ⟨k, hk⟩ := h.stage q
      by_cases hq : q = p
      · subst hq
        obtain rfl := hk.waiting.mp hp
        refine ⟨2, hk.next rfl (by simp [LiftEvent.about]) ?_ ?_⟩
        · exact iff_of_false (h.waiting.not_mem_erase) (by decide)
        · exact iff_of_true (List.mem_append_right _ List.mem_cons_self) rfl
      · refine ⟨k, hk.other (by simpa [LiftEvent.about] using Ne.symm hq) ?_ ?_⟩
        · exact List.mem_erase_of_ne hq
        · show q ∈ t.aboard ++ [p] ↔ _
          rw [List.mem_append, List.mem_singleton, or_iff_left hq]
  | alight p i =>
    simp only [Lift.allows, Bool.and_eq_true, decide_eq_true_eq] at hg
    obtain ⟨hp, hdest⟩ := mem_of_filter_head hg.2
    obtain rfl : R.dest p = i := of_decide_eq_true hdest
    refine ⟨h.waiting, h.aboard.erase p, fun q => ?_⟩
    obtain ⟨k, hk⟩ := h.stage q
    by_cases hq : q = p
    · subst hq
      obtain rfl := hk.aboard.mp hp
      refine ⟨3, hk.next rfl (by simp [LiftEvent.about]) ?_ ?_⟩
      · exact iff_of_false (fun hw => absurd (hk.waiting.mp hw) (by decide)) (by decide)
      · exact iff_of_false (h.aboard.not_mem_erase) (by decide)
    · exact ⟨k, hk.other (by simpa [LiftEvent.about] using Ne.symm hq) Iff.rfl
        (List.mem_erase_of_ne hq)⟩
  | _ =>
    refine ⟨h.waiting, h.aboard, fun q => ?_⟩
    obtain ⟨k, hk⟩ := h.stage q
    exact ⟨k, hk.other rfl Iff.rfl Iff.rfl⟩

/-- Along every run each passenger's story is told as far as the lift has got with them, if nobody
    arrives twice. -/
theorem told_of_run {es : List (LiftEvent π)} {t : Lift π} (h : (lift R top).run es = some t)
    (hnodup : (arrivals es).Nodup) : Told R es t := by
  induction es using List.reverseRecOn generalizing t with
  | nil =>
    obtain rfl : Lift.init = t := Option.some.inj h
    refine ⟨List.nodup_nil, List.nodup_nil, fun p => ⟨0, Nat.zero_le _, rfl, ?_, ?_⟩⟩
    · exact iff_of_false List.not_mem_nil (by decide)
    · exact iff_of_false List.not_mem_nil (by decide)
  | append_singleton es ev ih =>
    rw [Machine.run_concat, Option.bind_eq_some_iff] at h
    obtain ⟨u, hu, hst⟩ := h
    rw [arrivals, List.filterMap_append, List.nodup_append] at hnodup
    refine (ih hu hnodup.1).concat hst ?_
    rintro p rfl hp
    exact hnodup.2.2 p hp p (by simp) rfl

/-- **The story of one rider**, in every accepted history in which nobody arrives twice, is a
    beginning of the itinerary, and ends where the state says the rider is. -/
theorem story_prefix {es : List (LiftEvent π)} {t : Lift π} (h : (lift R top).run es = some t)
    (hnodup : (arrivals es).Nodup) (p : π) :
    story p es <+: itinerary R p ∧ (p ∈ t.waiting ↔ story p es = (itinerary R p).take 1) ∧
      (p ∈ t.aboard ↔ story p es = (itinerary R p).take 2) := by
  obtain ⟨k, hk⟩ := (told_of_run h hnodup).stage p
  have hbound := hk.bound
  have hlen : ∀ j, j ≤ 3 → ((itinerary R p).take k = (itinerary R p).take j ↔ k = j) := by
    intro j hj
    refine ⟨fun heq => ?_, fun heq => by rw [heq]⟩
    have := congrArg List.length heq
    rw [List.length_take, List.length_take] at this
    have hthree : (itinerary R p).length = 3 := rfl
    omega
  refine ⟨hk.events ▸ List.take_prefix _ _, ?_, ?_⟩
  · rw [hk.events, hlen 1 (by decide)]
    exact hk.waiting
  · rw [hk.events, hlen 2 (by decide)]
    exact hk.aboard

end KernelModules.Lib
