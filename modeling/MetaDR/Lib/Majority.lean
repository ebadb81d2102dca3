import Mathlib.Data.Finset.Card
import Mathlib.Data.Finset.Range
/-!
# Majority — quorums of more than half

A quorum of `n` voters numbered from `0` is a set of at least `n / 2 + 1` of them; two of them share a voter.  A list of
answers counts as a quorum when no voter answers twice.
-/
namespace Majority

/-- **A quorum of the voters `0 .. n - 1`.** -/
def IsQuorum (n : Nat) (Q : Finset Nat) : Prop := Q ⊆ Finset.range n ∧ n / 2 + 1 ≤ Q.card

/-- **Two quorums share a voter.** -/
theorem IsQuorum.inter {n : Nat} {Q R : Finset Nat} (hQ : IsQuorum n Q) (hR : IsQuorum n R) : ∃ q, q ∈ Q ∧ q ∈ R := by
  have hu : (Q ∪ R).card ≤ n := by
    have := Finset.card_le_card (Finset.union_subset hQ.1 hR.1)
    rwa [Finset.card_range] at this
  have hi := Finset.card_union_add_card_inter Q R
  have hpos : 0 < (Q ∩ R).card := by
    have h1 := hQ.2
    have h2 := hR.2
    omega
  obtain ⟨q, hq⟩ := Finset.card_pos.1 hpos
  exact ⟨q, Finset.mem_inter.1 hq⟩

theorem IsQuorum.mem_lt {n : Nat} {Q : Finset Nat} (hQ : IsQuorum n Q) {q : Nat} (hq : q ∈ Q) : q < n :=
  Finset.mem_range.1 (hQ.1 hq)

/-- **Enough answers of distinct voters are a quorum.** -/
theorem isQuorum_toFinset {n : Nat} {l : List Nat} (hnd : l.Nodup) (hlt : ∀ q ∈ l, q < n)
    (hlen : n / 2 + 1 ≤ l.length) :
    IsQuorum n l.toFinset := by
  refine ⟨fun q hq => Finset.mem_range.2 (hlt q (List.mem_toFinset.1 hq)), ?_⟩
  rwa [List.toFinset_card_of_nodup hnd]

end Majority
