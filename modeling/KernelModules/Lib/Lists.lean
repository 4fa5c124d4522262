/-
  Intrusive lists: a family of queues whose elements carry their own link.

  A kernel-style `list_head` lives INSIDE the object it links, so an object is on one list at a
  time and is unlinked without naming the list.  Here the lists are a family `L : ι → List α`
  and `key : α → ν` is an object's identity (its address); `unlink key n L` takes the object with
  identity `n` off whatever list it is on, and `pushTail i a L` appends it to list `i`.

  `Linked key L` is the discipline that makes this meaningful: no list repeats an object and an
  identity occurs on one list only.  Under it, unlinking the head of a list is what one expects —
  that list loses its head and no other list changes (`unlink_head`) — and the discipline
  survives both operations.

  `total g L` adds up a weight over the whole family, the sum of `g` over all objects on all lists,
  with one lemma per operation.  The last section is about a scan of a single queue: what a greedy
  scan takes is the longest prefix with its property.
-/
import Mathlib.Algebra.BigOperators.Fin
import Mathlib.Data.Fintype.Pi
import Mathlib.Data.List.Nodup
import Mathlib.Tactic.Abel

namespace KernelModules.Lib

open Function

variable {ι α ν : Type} [DecidableEq ι] [DecidableEq ν]

/-! ## Linking and unlinking -/

omit [DecidableEq ι] in
/-- Take the object with identity `n` off whatever list it is on. -/
def unlink (key : α → ν) (n : ν) (L : ι → List α) : ι → List α :=
  fun i => (L i).filter fun a => key a ≠ n

/-- Append `a` to list `i`. -/
def pushTail (i : ι) (a : α) (L : ι → List α) : ι → List α := update L i (L i ++ [a])

/-- The discipline of intrusive lists. -/
structure Linked (key : α → ν) (L : ι → List α) : Prop where
  /-- No list repeats an object. -/
  nodup : ∀ i, (L i).Nodup
  /-- One identity is one object, on one list. -/
  owner : ∀ {i j a c}, a ∈ L i → c ∈ L j → key a = key c → i = j ∧ a = c

namespace Linked

variable {key : α → ν} {L : ι → List α}

omit [DecidableEq ι] [DecidableEq ν] in
theorem empty (h : ∀ i, L i = []) : Linked key L where
  nodup i := by rw [h i]; exact List.nodup_nil
  owner := by
    intro i j a c ha
    rw [h i] at ha
    exact absurd ha List.not_mem_nil

/-- Unlinking the head of list `i` shortens that list and leaves every other one alone, since the
    identity is on no other list. -/
theorem unlink_head (hL : Linked key L) {i : ι} {a : α} {l : List α} (hi : L i = a :: l) :
    unlink key (key a) L = update L i l := by
  have ha : a ∈ L i := by rw [hi]; exact List.mem_cons_self
  funext j
  by_cases hj : j = i
  · subst hj
    rw [update_self, unlink, hi, List.filter_cons_of_neg (by simp), List.filter_eq_self]
    intro c hc
    have hnd := hL.nodup j
    rw [hi, List.nodup_cons] at hnd
    -- a second object with the head's identity would be the head itself, repeated
    refine decide_eq_true fun hkey => hnd.1 ?_
    have hcL : c ∈ L j := by rw [hi]; exact List.mem_cons_of_mem a hc
    exact (hL.owner hcL ha hkey).2 ▸ hc
  · rw [update_of_ne hj, unlink, List.filter_eq_self]
    intro c hc
    exact decide_eq_true fun hkey => hj (hL.owner hc ha hkey).1

omit [DecidableEq ν] in
/-- Dropping the head of one list keeps the discipline: what is left was there before, at the same
    place. -/
theorem drop_head (hL : Linked key L) {i : ι} {a : α} {l : List α} (hi : L i = a :: l) :
    Linked key (update L i l) := by
  have hsub : ∀ j c, c ∈ update L i l j → c ∈ L j := by
    intro j c hc
    by_cases hj : j = i
    · subst hj
      rw [update_self] at hc
      rw [hi]
      exact List.mem_cons_of_mem a hc
    · rwa [update_of_ne hj] at hc
  refine ⟨fun j => ?_, fun ha hc hkey => hL.owner (hsub _ _ ha) (hsub _ _ hc) hkey⟩
  by_cases hj : j = i
  · subst hj
    have hnd := hL.nodup j
    rw [hi, List.nodup_cons] at hnd
    rw [update_self]
    exact hnd.2
  · rw [update_of_ne hj]
    exact hL.nodup j

omit [DecidableEq ν] in
/-- Appending an object of fresh identity keeps the discipline.  Fresh means that no list has it,
    the one it joins included. -/
theorem push (hL : Linked key L) {i : ι} {a : α} (hfresh : ∀ j c, c ∈ L j → key c ≠ key a) :
    Linked key (pushTail i a L) := by
  have hmem : ∀ j c, c ∈ pushTail i a L j → c ∈ L j ∨ j = i ∧ c = a := by
    intro j c hc
    unfold pushTail at hc
    by_cases hj : j = i
    · subst hj
      rw [update_self, List.mem_append, List.mem_singleton] at hc
      exact hc.imp_right fun h => ⟨rfl, h⟩
    · rw [update_of_ne hj] at hc
      exact Or.inl hc
  refine ⟨fun j => ?_, fun {j k c d} hc hd hkey => ?_⟩
  · unfold pushTail
    by_cases hj : j = i
    · subst hj
      rw [update_self, List.nodup_append]
      refine ⟨hL.nodup j, List.nodup_singleton a, fun c hc d hd heq => ?_⟩
      rw [List.mem_singleton] at hd
      exact hfresh j c hc (by rw [heq, hd])
    · rw [update_of_ne hj]
      exact hL.nodup j
  · rcases hmem j c hc with hcL | ⟨hji, hca⟩ <;> rcases hmem k d hd with hdL | ⟨hki, hda⟩
    · exact hL.owner hcL hdL hkey
    · exact absurd (hda ▸ hkey) (hfresh j c hcL)
    · exact absurd (hca ▸ hkey.symm) (hfresh k d hdL)
    · exact ⟨hji.trans hki.symm, hca.trans hda.symm⟩

omit [DecidableEq ν] in
/-- Once its head is dropped from a list, the identity is fresh, and may be appended anywhere. -/
theorem fresh_of_drop (hL : Linked key L) {i : ι} {a : α} {l : List α} (hi : L i = a :: l) :
    ∀ j c, c ∈ update L i l j → key c ≠ key a := by
  have ha : a ∈ L i := by rw [hi]; exact List.mem_cons_self
  intro j c hc hkey
  by_cases hj : j = i
  · subst hj
    rw [update_self] at hc
    have hnd := hL.nodup j
    rw [hi, List.nodup_cons] at hnd
    have hcL : c ∈ L j := by rw [hi]; exact List.mem_cons_of_mem a hc
    exact hnd.1 ((hL.owner hcL ha hkey).2 ▸ hc)
  · rw [update_of_ne hj] at hc
    exact hj (hL.owner hc ha hkey).1

end Linked

/-! ## A weight added up over the family -/

section Total

variable {G : Type} [AddCommMonoid G] [Fintype ι] (g : α → G)

omit [DecidableEq ι] in
/-- The sum of `g` over every object of every list. -/
def total (L : ι → List α) : G := ∑ i, ((L i).map g).sum

omit [DecidableEq ι] in
theorem total_empty {L : ι → List α} (h : ∀ i, L i = []) : total g L = 0 := by
  refine Finset.sum_eq_zero fun i _ => ?_
  rw [h i, List.map_nil, List.sum_nil]

/-- Replacing list `i`: both sides count the other lists once, so only the two versions of this
    one are left to compare. -/
theorem total_update (L : ι → List α) (i : ι) (l : List α) :
    total g (update L i l) + ((L i).map g).sum = total g L + (l.map g).sum := by
  have hrest : ∑ j ∈ Finset.univ.erase i, ((update L i l j).map g).sum
      = ∑ j ∈ Finset.univ.erase i, ((L j).map g).sum := by
    refine Finset.sum_congr rfl fun j hj => ?_
    rw [update_of_ne (Finset.ne_of_mem_erase hj)]
  unfold total
  rw [← Finset.add_sum_erase _ _ (Finset.mem_univ i), hrest,
    ← Finset.add_sum_erase Finset.univ (fun j => ((L j).map g).sum) (Finset.mem_univ i), update_self]
  abel

end Total

/-- One more at the end of a list adds what it is worth ... -/
theorem total_pushTail {G : Type} [AddCommGroup G] [Fintype ι] (g : α → G) (i : ι) (a : α)
    (L : ι → List α) : total g (pushTail i a L) = total g L + g a := by
  have h := total_update g L i (L i ++ [a])
  rw [List.map_append, List.sum_append, ← add_assoc, add_right_comm] at h
  rw [pushTail, add_right_cancel h, List.map_singleton, List.sum_singleton]

/-- ... and one less at the head of a list takes it away. -/
theorem total_drop_head {G : Type} [AddCommGroup G] [Fintype ι] (g : α → G) {i : ι} {a : α}
    {l : List α} {L : ι → List α} (hi : L i = a :: l) :
    total g (update L i l) = total g L - g a := by
  have h := total_update g L i l
  rw [hi, List.map_cons, List.sum_cons, ← add_assoc] at h
  exact eq_sub_of_add_eq (add_right_cancel h)

/-! ## Longest prefixes -/

/-- `p` is the longest prefix of `q` with property `C`. -/
structure LongestPrefix (C : List α → Prop) (p q : List α) : Prop where
  pre : p <+: q
  holds : C p
  longest : ∀ p', p' <+: q → C p' → p'.length ≤ p.length

/-- A scan that stops in front of the first element it cannot add takes the longest prefix, if
    the prefixes of what has the property have it too. -/
theorem LongestPrefix.of_stop {C : List α → Prop} {took kept : List α} (hC : C took)
    (hclosed : ∀ p p', p <+: p' → p' <+: took ++ kept → C p' → C p)
    (hstop : ∀ a l, kept = a :: l → ¬ C (took ++ [a])) :
    LongestPrefix C took (took ++ kept) where
  pre := List.prefix_append took kept
  holds := hC
  longest p' hp' hCp' := by
    by_contra hlong
    cases kept with
    | nil =>
      rw [List.append_nil] at hp'
      exact hlong hp'.length_le
    | cons a l =>
      -- a longer prefix contains the first element that was refused
      have hnext : took ++ [a] <+: took ++ a :: l := ⟨l, by simp⟩
      have hle : (took ++ [a]).length ≤ p'.length := by
        rw [List.length_append, List.length_singleton]
        omega
      exact hstop a l rfl
        (hclosed _ p' (List.prefix_of_prefix_length_le hnext hp' hle) hp' hCp')

end KernelModules.Lib
