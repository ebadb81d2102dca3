import MetaDR.Lib.Chosen
/-!
# Order — numbers are won one after the other

In the runs of `Viewstamp` with its demands, a primary that wins a number past what it has committed has all that was
ever won at or below what it has committed, in whatever view: a later view would have started at the number it is about
to win, and somebody before that view would have had to win it first.
-/
namespace Viewstamp

variable {α : Type}

/-- **What is won is won after all that was won before it.** -/
theorem Good.won_le_of_next {n : Nat} {s s' : State α} (h : Good n s) (hc : Core s) (hcert : Certificates s)
    (g : Grows s s') (h' : Good n s') {p m : Nat} {a : α} (hp : IsPrimary s p (s.node p).last)
    (hm : (s.node p).commit < m) (hw : s'.won (s.node p).last m) (ho : s'.op (s.node p).last m = some a) {u : Nat} :
    ∀ {j : Nat}, s.won u j → j ≤ (s.node p).commit := by
  obtain ⟨S, hS, rfl⟩ := hp
  induction u using Nat.strong_induction_on with
  | _ u ih =>
    intro j hj
    obtain ⟨T, hT⟩ := Option.ne_none_iff_exists'.1 (hc.won_start u j hj)
    rcases Nat.lt_trichotomy u (s.node S.primary).last with hlt | rfl | hgt
    · rcases Nat.eq_zero_or_pos j with rfl | hpos
      · exact Nat.zero_le _
      · obtain ⟨Q, hQ, hh⟩ := h.won u j hj
        obtain ⟨b, hb⟩ : ∃ b, s.op u j = some b := by
          obtain ⟨q, hq, -⟩ := hQ.inter hQ
          exact Option.ne_none_iff_exists'.1 (hc.held_op q u j (hh q hq))
        exact (h.start_of_won hlt hS hj hpos (le_refl j) hb).1.trans (hc.start_commit _ S hS)
    · exact hc.won_le _ S j hS rfl hj
    · -- the view would start at `m`, which a view before it has won
      have hle : m ≤ T.top := (h'.start_of_won hgt (g.start u T hT) hw (by omega) (le_refl m) ho).1
      rcases hcert.start u T hT with h0 | ⟨w, k, -, hlt, hk, hge, -⟩
      · omega
      · have := ih w hlt hk
        omega

end Viewstamp
