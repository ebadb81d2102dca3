import Mathlib.Data.List.Forall2
import Mathlib.Data.List.Infix
/-!
# Wildcard — patterns with a symbol for any one and a symbol for any number

`fits` matches a list against a pattern: `many` stands for any list, `one` for any symbol, every other symbol for those
with the same fold.  A pattern whose only `many` is its last symbol matches exactly the lists that start like the rest
of it (`fits_append_many`).
-/
namespace Wildcard

variable {α : Type} [DecidableEq α] (many one : α) (fold : α → α)

def fits : List α → List α → Bool
  | [], s => s.isEmpty
  | c :: p, s =>
    if c = many then s.tails.any (fits p)
    else
      match s with
      | [] => false
      | d :: s => (decide (c = one) || decide (fold c = fold d)) && fits p s

/-- What a symbol other than `many` stands for. -/
def Stands (c d : α) : Prop := c = one ∨ fold c = fold d

variable {many one : α} {fold : α → α}

/-- **A pattern that ends in `many`** matches what it is the start of. -/
theorem fits_append_many {p : List α} (h : many ∉ p) (s : List α) :
    fits many one fold (p ++ [many]) s = true ↔ ∃ t r, s = t ++ r ∧ List.Forall₂ (Stands one fold) p t := by
  induction p generalizing s with
  | nil =>
    have htail : s.tails.any (fits many one fold []) = true :=
      List.any_eq_true.2 ⟨[], (List.mem_tails _ _).2 List.nil_suffix, rfl⟩
    exact ⟨fun _ => ⟨[], s, rfl, .nil⟩, fun _ => (if_pos rfl).trans htail⟩
  | cons c p ih =>
    rw [List.mem_cons, not_or] at h
    cases s with
    | nil =>
      rw [List.cons_append, fits, if_neg (Ne.symm h.1)]
      constructor
      · intro hf
        cases hf
      · rintro ⟨t, r, heq, hall⟩
        obtain ⟨rfl, -⟩ := List.append_eq_nil_iff.1 heq.symm
        cases hall
    | cons d s =>
      rw [List.cons_append, fits, if_neg (Ne.symm h.1)]
      show ((decide (c = one) || decide (fold c = fold d)) && fits many one fold (p ++ [many]) s) = true ↔ _
      rw [Bool.and_eq_true, Bool.or_eq_true, decide_eq_true_eq, decide_eq_true_eq, ih h.2]
      constructor
      · rintro ⟨hcd, t, r, rfl, hall⟩
        exact ⟨d :: t, r, rfl, .cons hcd hall⟩
      · rintro ⟨t, r, heq, hall⟩
        cases hall with
        | cons hcd hall =>
          obtain ⟨rfl, rfl⟩ := List.cons.inj heq
          exact ⟨hcd, _, r, rfl, hall⟩

end Wildcard
