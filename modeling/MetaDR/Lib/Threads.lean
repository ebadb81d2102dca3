import Mathlib.Algebra.BigOperators.Group.Finset.Basic
import Mathlib.Algebra.Order.BigOperators.Group.Finset
/-!
# Threads — program points, a mutex and sums over threads

The threads `0 .. n - 1` of a process each stand at a program point.  A mutex is held by the thread that stands where
it is held (`Exclusive`); what is weighed by program points changes with the one thread that moves (`total_update`).
-/
namespace Threads

open Function

variable {π : Type} {pc : Nat → π} {t : Nat} {p : π}

/-- The mutex is held by the thread that stands at a point where it is held, and by nobody else. -/
def Exclusive (holds : π → Bool) (mutex : Option Nat) (pc : Nat → π) : Prop :=
  ∀ t, holds (pc t) = true ↔ mutex = some t

variable {holds : π → Bool} {mutex : Option Nat}

theorem Exclusive.other (h : Exclusive holds mutex pc) {u : Nat} (ht : holds (pc t) = true)
    (hu : holds (pc u) = true) : u = t :=
  Option.some.inj (((h u).1 hu).symm.trans ((h t).1 ht))

theorem Exclusive.acquire (h : Exclusive holds none pc) (hp : holds p = true) :
    Exclusive holds (some t) (update pc t p) := by
  intro u
  by_cases hu : u = t
  · rw [hu, update_self, hp]
    exact ⟨fun _ => rfl, fun _ => rfl⟩
  · rw [update_of_ne hu, h u, Option.some.injEq]
    exact ⟨fun he => (nomatch he), fun he => absurd he.symm hu⟩

theorem Exclusive.release (h : Exclusive holds mutex pc) (ht : holds (pc t) = true) (hp : holds p = false) :
    Exclusive holds none (update pc t p) := by
  intro u
  by_cases hu : u = t
  · rw [hu, update_self, hp]
    exact ⟨fun he => (nomatch he), fun he => (nomatch he)⟩
  · rw [update_of_ne hu]
    exact ⟨fun he => absurd (h.other ht he) hu, fun he => (nomatch he)⟩

/-- A thread that stays inside, or outside. -/
theorem Exclusive.move (h : Exclusive holds mutex pc) (hp : holds p = holds (pc t)) :
    Exclusive holds mutex (update pc t p) := by
  intro u
  by_cases hu : u = t
  · rw [hu, update_self, hp]
    exact h t
  · rw [update_of_ne hu]
    exact h u

/-- What the threads weigh together, each by the point it stands at. -/
def total (n : Nat) (w : π → Nat) (pc : Nat → π) : Nat := ∑ t ∈ Finset.range n, w (pc t)

variable {n : Nat} {w : π → Nat}

theorem total_update (w : π → Nat) (pc : Nat → π) (ht : t < n) (p : π) :
    total n w (update pc t p) + w (pc t) = total n w pc + w p := by
  have hmem : t ∈ Finset.range n := Finset.mem_range.2 ht
  have hrest : ∑ u ∈ (Finset.range n).erase t, w (update pc t p u) = ∑ u ∈ (Finset.range n).erase t, w (pc u) :=
    Finset.sum_congr rfl (fun u hu => by rw [update_of_ne (Finset.ne_of_mem_erase hu)])
  rw [total, total, ← Finset.add_sum_erase _ _ hmem, ← Finset.add_sum_erase (Finset.range n) (fun u => w (pc u)) hmem,
    hrest, update_self]
  omega

/-- What the threads weigh goes down with the one that moves. -/
theorem total_update_lt {p' : π} (ht : t < n) (hp : pc t = p) (hlt : w p' < w p) :
    total n w (update pc t p') < total n w pc := by
  have h := total_update w pc ht p'
  rw [hp] at h
  omega

theorem total_eq_zero : total n w pc = 0 ↔ ∀ t < n, w (pc t) = 0 := by
  simp only [total, Finset.sum_eq_zero_iff, Finset.mem_range]

theorem le_total (w : π → Nat) (pc : Nat → π) (ht : t < n) : w (pc t) ≤ total n w pc :=
  Finset.single_le_sum (f := fun u => w (pc u)) (fun _ _ => Nat.zero_le _) (Finset.mem_range.2 ht)

end Threads
