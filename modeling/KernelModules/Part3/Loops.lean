/-
  The unload/load phase in closed form.

  From a sound state neither loop of `runElevator` faults, and each has a closed form: `unloaded`
  is the state after delivering a list of passengers at the current floor, `loaded` the state
  after boarding one.  Both loop lemmas (`unloadLoop_spec`, `loadLoop_spec`) are inductions on
  the list the loop walks over, carrying the part of the queue behind it as a frame; instantiated
  with a PREFIX of the queue they describe the states between two turns of the loop.

  `loadPhase_spec` puts the two together and connects the code with the relations of `Steps`: a
  load phase is a chain of `LoadStep`s.
-/
import KernelModules.Part3.Steps

namespace KernelModules.Part3

open Function Relation KernelModules.Lib

/-! ## The loops' closed forms -/

/-- The passengers `ps`, the front of the cabin's list `c`, have been delivered. -/
def Sys.unloaded (s : Sys) (c : Slot) (ps rest : List Passenger) : Sys where
  b :=
    { f := fun i => { s.b.f i with
        serviced := (s.b.f i).serviced + ps.countP fun p => p.sFloor = (i : Int) }
      e := { s.b.e with
        toLoad := s.b.e.toLoad - (ps.map Passenger.unit).sum
        p := update s.b.e.p c rest } }
  pc := s.pc
  nodes := s.nodes
  inflight := s.inflight
  log := s.log ++ ps.map fun p => .delivered p s.b.e.current

/-- The passengers `ps`, the front of the waiting list `c`, have boarded. -/
def Sys.loaded (s : Sys) (c : Slot) (ps rest : List Passenger) : Sys where
  b :=
    { f := update s.b.f c { s.b.f c with
        toLoad := (s.b.f c).toLoad - (ps.map Passenger.unit).sum
        waiting := rest }
      e := { s.b.e with
        toLoad := s.b.e.toLoad + (ps.map Passenger.unit).sum
        p := fun j => s.b.e.p j ++ ps.filter fun p => p.dFloor = (j : Int) } }
  pc := s.pc
  nodes := s.nodes
  inflight := s.inflight
  log := s.log ++ ps.map fun p => .boarded p s.b.e.current

theorem Sys.unloaded_nil {s : Sys} {c : Slot} {rest : List Passenger} (h : s.b.e.p c = rest) :
    s.unloaded c [] rest = s := by
  subst h
  simp [unloaded]

theorem Sys.loaded_nil {s : Sys} {c : Slot} {rest : List Passenger}
    (h : (s.b.f c).waiting = rest) : s.loaded c [] rest = s := by
  subst h
  simp [loaded]

/-- Delivering one passenger and then `ps` is delivering them together. -/
theorem Sys.unloaded_cons (s : Sys) {i c : Slot} {p : Passenger} (hi : p.sFloor = i)
    (ps l rest : List Passenger) :
    (({ s with b := s.b.delivered i c p l } : Sys).record
        (.delivered p s.b.e.current)).unloaded c ps rest = s.unloaded c (p :: ps) rest := by
  have hf : ∀ k, ({ (s.b.delivered i c p l).f k with
        serviced := ((s.b.delivered i c p l).f k).serviced
          + ps.countP fun q => q.sFloor = (k : Int) } : Floors)
      = { s.b.f k with
        serviced := (s.b.f k).serviced + (p :: ps).countP fun q => q.sFloor = (k : Int) } := by
    intro k
    by_cases hk : k = i
    · subst hk
      simp only [Building.delivered, update_self, List.countP_cons, hi, decide_true, if_true,
        Nat.cast_add, Nat.cast_one]
      congr 1
      omega
    · have hne : ¬ (p.sFloor = (k : Int)) := by
        rw [hi]
        intro h
        exact hk (Fin.ext (by omega))
      simp [Building.delivered, hk, hne]
  simp only [unloaded, record_b, record_pc, record_nodes, record_inflight, record_log, hf]
  simp [Building.delivered, sub_sub]

/-- Boarding one passenger and then `ps` is boarding them together. -/
theorem Sys.loaded_cons (s : Sys) {c j : Slot} {p : Passenger} (hj : p.dFloor = j)
    (ps l rest : List Passenger) :
    (({ s with b := s.b.boarded c j p l } : Sys).record
        (.boarded p s.b.e.current)).loaded c ps rest = s.loaded c (p :: ps) rest := by
  have hp : (fun k => pushTail j p s.b.e.p k ++ ps.filter fun q => q.dFloor = (k : Int))
      = fun k => s.b.e.p k ++ (p :: ps).filter fun q => q.dFloor = (k : Int) := by
    funext k
    by_cases hk : k = j
    · subst hk
      simp [pushTail, hj]
    · have hne : ¬ (p.dFloor = (k : Int)) := by
        rw [hj]
        intro h
        exact hk (Fin.ext (by omega))
      simp [pushTail, hk, hne]
  simp only [loaded, record_b, record_pc, record_nodes, record_inflight, record_log,
    Building.boarded, hp]
  simp [sub_sub, add_assoc]

/-! ## The loops -/

/-- **The unload loop** delivers everybody it walks over.  By induction on the list: the head is
    unlinked, so what is left of the list is what the loop has left to do. -/
theorem unloadLoop_spec : ∀ (ps rest : List Passenger) {s : Sys} {c : Slot}, Sound s →
    s.b.e.status = .loading → s.b.e.current = c → s.b.e.p c = ps ++ rest →
    unloadLoop ps s = some (s.unloaded c ps rest) ∧
      ReflTransGen LoadStep s (s.unloaded c ps rest) := by
  intro ps
  induction ps with
  | nil =>
    intro rest s c _ _ _ hp
    rw [List.nil_append] at hp
    rw [Sys.unloaded_nil hp]
    exact ⟨rfl, .refl⟩
  | cons p ps ih =>
    intro rest s c hs hld hc hp
    obtain ⟨hvalid, hdst⟩ := hs.stock.riding_head hp
    obtain ⟨i, hi⟩ := hvalid.src
    have hstep := LoadStep.deliver hld hc hp hi
    have hnext := ih rest (c := c) (hstep.sound hs) hld hc (by
      show update s.b.e.p c (ps ++ rest) c = _
      rw [update_self])
    rw [s.unloaded_cons hi] at hnext
    refine ⟨?_, hnext.2.head hstep⟩
    rw [unloadLoop, if_pos (hdst.trans hc.symm), delPass_spec hs.stock.linked hvalid hi hp]
    exact hnext.1

/-- Would the load loop take `p` on board? -/
def boards (p : Passenger) (e : Elevator) : Bool := canFit p e && pDirection p == e.direction

/-- **The load loop** boards a prefix of what it walks over, and stops in front of a passenger it
    would not take. -/
theorem loadLoop_spec : ∀ (ps rest : List Passenger) {s : Sys} {c : Slot}, Sound s →
    s.b.e.status = .loading → s.b.e.shutdown ≠ 1 → s.b.e.current = c →
    (s.b.f c).waiting = ps ++ rest →
    ∃ took kept, ps = took ++ kept ∧ loadLoop ps s = some (s.loaded c took (kept ++ rest)) ∧
      ReflTransGen LoadStep s (s.loaded c took (kept ++ rest)) ∧
      (∀ q qs, kept = q :: qs → boards q (s.loaded c took (kept ++ rest)).b.e = false) := by
  intro ps
  induction ps with
  | nil =>
    intro rest s c _ _ _ _ hw
    refine ⟨[], [], rfl, ?_⟩
    rw [List.nil_append] at hw ⊢
    rw [Sys.loaded_nil hw]
    exact ⟨rfl, .refl, by simp⟩
  | cons p ps ih =>
    intro rest s c hs hld hsd hc hw
    obtain ⟨hvalid, hsrc⟩ := hs.stock.waiting_head hw
    obtain ⟨j, hj⟩ := hvalid.dst
    cases hb : boards p s.b.e with
    | false =>
      -- the loop breaks here
      refine ⟨[], p :: ps, rfl, ?_⟩
      rw [Sys.loaded_nil hw]
      refine ⟨?_, .refl, ?_⟩
      · have hb' : (canFit p s.b.e && pDirection p == s.b.e.direction) = false := hb
        rw [loadLoop, hb']
        rfl
      · intro q qs hq
        rw [← (List.cons.inj hq).1]
        exact hb
    | true =>
      have hb' : (canFit p s.b.e && pDirection p == s.b.e.direction) = true := hb
      obtain ⟨hfit, hdir⟩ : canFit p s.b.e = true ∧ pDirection p = s.b.e.direction := by
        simpa using hb'
      have hstep := LoadStep.board hld hsd hc hw hj hfit hdir
      obtain ⟨took, kept, hsplit, hrun, hchain, hstop⟩ :=
        ih rest (c := c) (hstep.sound hs) hld hsd hc (by
          show (update s.b.f c _ c).waiting = _
          rw [update_self]; rfl)
      rw [s.loaded_cons hj] at hrun hchain hstop
      refine ⟨p :: took, kept, by rw [hsplit]; rfl, ?_, hchain.head hstep, hstop⟩
      rw [loadLoop, if_pos hb', if_pos (hsrc.trans hc.symm),
        movePass_spec hs.stock.linked hvalid hsrc hj hw]
      exact hrun

/-! ## The load phase -/

theorem unloadHere_spec {s : Sys} {c : Slot} (hs : Sound s) (hld : s.b.e.status = .loading)
    (hc : s.b.e.current = c) : unloadHere c s = some (s.unloaded c (s.b.e.p c) []) ∧
      ReflTransGen LoadStep s (s.unloaded c (s.b.e.p c) []) := by
  obtain ⟨hrun, hchain⟩ := unloadLoop_spec (s.b.e.p c) [] hs hld hc (List.append_nil _).symm
  refine ⟨?_, hchain⟩
  unfold unloadHere
  split
  · exact hrun
  · -- with nobody to get off, the loop takes no turn
    rename_i hnil
    rw [not_not] at hnil
    rw [hnil, Sys.unloaded_nil hnil]

theorem loadHere_spec {s : Sys} {c : Slot} (hs : Sound s) (hld : s.b.e.status = .loading)
    (hc : s.b.e.current = c) : ∃ took kept, (s.b.f c).waiting = took ++ kept ∧
      loadHere c s = some (s.loaded c took kept) ∧
      ReflTransGen LoadStep s (s.loaded c took kept) ∧
      (s.b.e.shutdown = 1 → took = []) ∧
      (s.b.e.shutdown ≠ 1 → ∀ q qs, kept = q :: qs →
        boards q (s.loaded c took kept).b.e = false) := by
  have heq : loadHere c s = if !(s.b.f c).waiting.isEmpty && s.b.e.shutdown != 1 then
      loadLoop (s.b.f c).waiting s else some s := by
    rw [loadHere, checkFloor, hc, slot_coe]
    rfl
  by_cases hsd : s.b.e.shutdown = 1
  · refine ⟨[], (s.b.f c).waiting, rfl, ?_, ?_, fun _ => rfl, fun h => absurd hsd h⟩
    · rw [heq, Sys.loaded_nil rfl, hsd]
      simp
    · rw [Sys.loaded_nil rfl]
  · obtain ⟨took, kept, hsplit, hload, hchain, hstop⟩ :=
      loadLoop_spec (s.b.f c).waiting [] hs hld hsd hc (List.append_nil _).symm
    rw [List.append_nil] at hload hchain hstop
    refine ⟨took, kept, hsplit, ?_, hchain, fun h => absurd h hsd, fun _ => hstop⟩
    rw [heq]
    split
    · exact hload
    · rename_i hnone
      have hnil : (s.b.f c).waiting = [] := by simpa [hsd] using hnone
      rw [hnil] at hload
      exact hload

/-- The state `serveFloor` leaves at floor `c`, when `took` boarded and `kept` did not. -/
def Sys.served (s : Sys) (c : Slot) (took kept : List Passenger) : Sys :=
  ((openDoors s).unloaded c (s.b.e.p c) []).loaded c took kept

/-- **Opening the doors at floor `c`**, from a sound state: everybody for this floor gets off, and
    then the longest part of the queue that may board does. -/
theorem serveFloor_spec {s : Sys} {c : Slot} (hs : Sound s) (hon : s.b.e.status ≠ .offline)
    (hc : s.b.e.current = c) : ∃ took kept, (s.b.f c).waiting = took ++ kept ∧
      serveFloor c s = some (s.served c took kept) ∧
      ReflTransGen LoadStep s (s.served c took kept) ∧
      (s.b.e.shutdown = 1 → took = []) ∧
      (s.b.e.shutdown ≠ 1 → ∀ q qs, kept = q :: qs →
        boards q (s.served c took kept).b.e = false) := by
  have henter := LoadStep.enter hon
  have hs₁ := henter.sound hs
  obtain ⟨hun, hchain⟩ := unloadHere_spec (c := c) hs₁ rfl hc
  obtain ⟨took, kept, hsplit, hload, hchain', hnone, hstop⟩ :=
    loadHere_spec (c := c) (LoadStep.sound_chain hs₁ hchain) rfl hc
  refine ⟨took, kept, hsplit, ?_, (hchain.head henter).trans hchain', hnone, hstop⟩
  rw [serveFloor, hun]
  exact hload

/-- The three things a load phase can be: nothing, with the elevator offline; nothing, with
    nobody here; or one stop. -/
inductive Stop (s : Sys) : Sys → Prop
  | offline : s.b.e.status = .offline → Stop s { s with pc := .move }
  | nobody {c : Slot} : s.b.e.status ≠ .offline → s.b.e.current = c → (s.b.f c).waiting = [] →
      s.b.e.p c = [] → Stop s { s with pc := .move }
  | serve {c : Slot} {took kept : List Passenger} : s.b.e.status ≠ .offline →
      s.b.e.current = c → (s.b.f c).waiting = took ++ kept →
      ((s.b.f c).waiting ≠ [] ∨ s.b.e.p c ≠ []) →
      (s.b.e.shutdown = 1 → took = []) →
      (s.b.e.shutdown ≠ 1 → ∀ q qs, kept = q :: qs →
        boards q (s.served c took kept).b.e = false) →
      Stop s { s.served c took kept with pc := .move }

/-- **A load phase from a sound state** never faults, is one of the three stops, and resolves into
    single steps. -/
theorem loadPhase_spec {s : Sys} (hs : Sound s) :
    ∃ s', loadPhase s = some s' ∧ Stop s s' ∧ ReflTransGen LoadStep s s' := by
  by_cases hoff : s.b.e.status = .offline
  · refine ⟨{ s with pc := .move }, ?_, .offline hoff, .single (.close fun h => absurd hoff h)⟩
    rw [loadPhase, loadBody, if_neg (not_not.mpr hoff)]
    rfl
  · obtain ⟨c, hc⟩ := hs.motion.track.slot
    have hbody : loadBody s = if (s.b.f c).waiting ≠ [] ∨ s.b.e.p c ≠ [] then serveFloor c s
        else some s := by
      rw [loadBody, if_pos hoff, hc, slot_coe]
      rfl
    by_cases hany : (s.b.f c).waiting ≠ [] ∨ s.b.e.p c ≠ []
    · obtain ⟨took, kept, hsplit, hserve, hchain, hnone, hstop⟩ := serveFloor_spec hs hoff hc
      refine ⟨_, ?_, .serve hoff hc hsplit hany hnone hstop, hchain.tail (.close ?_)⟩
      · rw [loadPhase, hbody, if_pos hany, hserve]
        rfl
      · -- the list of this floor was emptied; who is in it now came from this floor's queue
        intro _ j p hj hp
        obtain rfl : j = c := Fin.ext (by have : s.b.e.current = (j : Int) := hj; omega)
        have hp' : p ∈ update s.b.e.p j [] j ++ took.filter fun q => q.dFloor = (j : Int) := hp
        rw [update_self, List.nil_append] at hp'
        have hmem : p ∈ (s.b.f j).waiting := by
          rw [hsplit]
          exact List.mem_append_left _ (List.mem_of_mem_filter hp')
        exact (hs.stock.waiting hmem).2
    · obtain ⟨hw, hp⟩ : (s.b.f c).waiting = [] ∧ s.b.e.p c = [] := by
        simpa [not_or] using hany
      refine ⟨{ s with pc := .move }, ?_, .nobody hoff hc hw hp, .single (.close ?_)⟩
      · rw [loadPhase, hbody, if_neg hany]
        rfl
      · intro _ j q hj hq
        obtain rfl : j = c := Fin.ext (by omega)
        rw [hp] at hq
        exact absurd hq List.not_mem_nil

end KernelModules.Part3
