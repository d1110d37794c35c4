import Bslz4ToSparse.Foundation.Loops

/-!
# Stores of many threads

The threads of a launch store vectors of `g` cells, in an order that nothing fixes. When two
stores to one vector agree, what is in memory afterwards does not depend on the order.
-/

namespace Bslz4ToSparse.Foundation

variable {α : Type} {g : Nat}

/-- The store of a vector: its number and its cells. -/
def putVector (g : Nat) (mem : Nat → α) (s : Nat × (Nat → α)) : Nat → α := fun i =>
  if i / g = s.1 then s.2 (i % g) else mem i

/-- The memory after the stores of all threads, in some order. -/
def AnyOrder (g : Nat) (threads : List (List (Nat × (Nat → α)))) (mem mem' : Nat → α) : Prop :=
  ∃ order : List (Nat × (Nat → α)), order.Perm threads.flatten ∧ mem' = order.foldl (putVector g) mem

theorem AnyOrder.exists (g : Nat) (threads : List (List (Nat × (Nat → α)))) (mem : Nat → α) :
    ∃ mem', AnyOrder g threads mem mem' := ⟨_, _, List.Perm.refl _, rfl⟩

/-- A vector that is not stored to. -/
theorem foldl_putVector_of_ne {order : List (Nat × (Nat → α))} {mem : Nat → α} {i : Nat}
    (h : ∀ s ∈ order, s.1 ≠ i / g) : order.foldl (putVector g) mem i = mem i := by
  induction order generalizing mem with
  | nil => rfl
  | cons s order ih =>
    rw [List.foldl_cons, ih fun s' hs' => h s' (List.mem_cons_of_mem s hs')]
    exact if_neg fun heq => h s List.mem_cons_self heq.symm

/-- A vector to which all stores agree. -/
theorem foldl_putVector_of_eq {order : List (Nat × (Nat → α))} {mem : Nat → α} {i : Nat} {v : α}
    (h : ∀ s ∈ order, s.1 = i / g → s.2 (i % g) = v) (hs : ∃ s ∈ order, s.1 = i / g) :
    order.foldl (putVector g) mem i = v := by
  induction order generalizing mem with
  | nil =>
    obtain ⟨s, hs, -⟩ := hs
    exact absurd hs List.not_mem_nil
  | cons s order ih =>
    have hrest : ∀ s' ∈ order, s'.1 = i / g → s'.2 (i % g) = v := fun s' hs' =>
      h s' (List.mem_cons_of_mem s hs')
    rw [List.foldl_cons]
    by_cases hlater : ∃ s' ∈ order, s'.1 = i / g
    · exact ih hrest hlater
    · rw [foldl_putVector_of_ne fun s' hs' heq => hlater ⟨s', hs', heq⟩]
      obtain ⟨s', hs', heq⟩ := hs
      rcases List.mem_cons.mp hs' with rfl | hmem
      · exact (if_pos heq.symm).trans (h s' List.mem_cons_self heq)
      · exact absurd ⟨s', hmem, heq⟩ hlater

theorem AnyOrder.of_ne {threads : List (List (Nat × (Nat → α)))} {mem mem' : Nat → α}
    (hrun : AnyOrder g threads mem mem') {i : Nat}
    (h : ∀ thread ∈ threads, ∀ s ∈ thread, s.1 ≠ i / g) : mem' i = mem i := by
  obtain ⟨order, hperm, rfl⟩ := hrun
  apply foldl_putVector_of_ne
  intro s hs
  obtain ⟨thread, hthread, hmem⟩ := List.mem_flatten.mp (hperm.mem_iff.mp hs)
  exact h thread hthread s hmem

theorem AnyOrder.of_eq {threads : List (List (Nat × (Nat → α)))} {mem mem' : Nat → α}
    (hrun : AnyOrder g threads mem mem') {i : Nat} {v : α}
    (h : ∀ thread ∈ threads, ∀ s ∈ thread, s.1 = i / g → s.2 (i % g) = v)
    (hs : ∃ thread ∈ threads, ∃ s ∈ thread, s.1 = i / g) : mem' i = v := by
  obtain ⟨order, hperm, rfl⟩ := hrun
  apply foldl_putVector_of_eq
  · intro s hmem
    obtain ⟨thread, hthread, hs'⟩ := List.mem_flatten.mp (hperm.mem_iff.mp hmem)
    exact h thread hthread s hs'
  · obtain ⟨thread, hthread, s, hmem, heq⟩ := hs
    exact ⟨s, hperm.mem_iff.mpr (List.mem_flatten.mpr ⟨thread, hthread, hmem⟩), heq⟩

end Bslz4ToSparse.Foundation
