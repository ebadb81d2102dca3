import MetaDR.Refinement
/-!
# LogMatching — in a view, a backup's log is the primary's

Whatever leftovers a view starts with and whatever waits time out: a view numbers each operation once, so the replicas
`NORMAL` in it agree below what a backup has taken up, and nobody is ahead of the primary.  Nothing is asked of the
votes a view starts from or of the quorum check; only that a vote counts at one candidate, which the candidate loop
gives up when it takes a lost answer for a lost call.
-/
namespace MetaDR

open Viewstamp

section

variable {n : Nat} {R : Rules} {c : Cluster} {tr : List Obs}

/-- Every run whose tests still hold under the lock, and whose failed calls are not taken up, follows the protocol, its
demands apart. -/
theorem Moves.refines_free (hat : R.atomic = true) (hC : R.called = true) (h : Moves n R c tr) :
    ∃ s, Reach n False s ∧ c.Follows False s tr :=
  h.refines hat hC (fun hf => hf.elim) (fun hf => hf.elim)

theorem Replica.Follows.isPrimary {good : Prop} {s : State Op} {i : Nat} {r : Replica} (h : r.Follows good s tr i)
    (hid : r.id = i) (hs : r.status = .normal) (hp : r.isPrimary = true) : IsPrimary s i r.viewNum := by
  obtain ⟨-, -, S, hS, hSp⟩ := h.normal hs
  simp only [Replica.isPrimary, decide_eq_true_eq] at hp
  exact ⟨S, hS, by rw [hSp, ← hp, hid]⟩

end

/-- **Log matching within a view**: a replica `NORMAL` in the view of a `NORMAL` primary agrees with it on the operation
at every number up to its own op number, and is ahead of it in neither number. -/
theorem log_matching {n p b : Nat} {c : Cluster} {tr : List Obs}
    (h : Runs n { Rules.free with atomic := true, called := true } c tr)
    (hp : (c.reps p).status = .normal) (hpri : (c.reps p).isPrimary = true) (hb : (c.reps b).status = .normal)
    (hv : (c.reps b).viewNum = (c.reps p).viewNum) :
    (∀ k, k ≤ (c.reps b).opNum → (c.reps b).log.opAt k = (c.reps p).log.opAt k) ∧
      (c.reps b).opNum ≤ (c.reps p).opNum ∧ (c.reps b).commitNum ≤ (c.reps p).commitNum := by
  have hm := h.moves
  obtain ⟨s, hs, hf⟩ := hm.refines_free rfl rfl
  have hfp := hf.rep p (by rw [hp]; simp)
  have hfb := hf.rep b (by rw [hb]; simp)
  obtain ⟨hpl, hpt, -⟩ := hfp.normal hp
  obtain ⟨hbl, hbt, -⟩ := hfb.normal hb
  obtain ⟨htop, hcommit, hlog⟩ :=
    hs.core.logs_agree (hfp.isPrimary (hm.id_eq p) hp hpri) hpl (hbl.trans hv)
  rw [hfb.log, hfp.log, hbt] at hlog
  rw [hbt, hpt] at htop
  rw [hfb.commit, hfp.commit] at hcommit
  exact ⟨hlog, htop, hcommit⟩

/-- Replica `1` takes up a `create` whose wait times out on replica `0`. -/
def matchingEvents : List Event :=
  Event.call 0 (.create ⟨[slash, 120], []⟩) ++ [.act 0 .replicateCount 0, .act 0 .replicateTimeout 0] ++
    Event.takeUp 1 (.ofKey 0 1 0 [slash, 120])

theorem log_matching_three : ∃ c tr, Runs 3 { Rules.free with atomic := true, called := true } c tr ∧
    (c.reps 1).opNum = 1 ∧ (c.reps 1).log.opAt 1 = (c.reps 0).log.opAt 1 := by
  obtain ⟨c, tr, h, hc⟩ := exists_runs (n := 3) (R := { Rules.free with atomic := true, called := true }) matchingEvents
    (fun c _ => decide ((c.reps 0).status = .normal) && (c.reps 0).isPrimary && decide ((c.reps 1).status = .normal) &&
      decide ((c.reps 1).viewNum = (c.reps 0).viewNum) && decide ((c.reps 1).opNum = 1)) (by decide +kernel)
  simp only [Bool.and_eq_true, decide_eq_true_eq] at hc
  obtain ⟨⟨⟨⟨hp, hpri⟩, hb⟩, hv⟩, hn⟩ := hc
  exact ⟨c, tr, h, hn, (log_matching h hp hpri hb hv).1 1 hn.ge⟩

/-- All five replicas have committed a `create`. -/
def fiveEvents : List Event :=
  Event.call 0 (.create ⟨[slash, 120], []⟩) ++
    [1, 2, 3, 4].flatMap (fun i => Event.takeUp i (.ofKey 0 1 0 [slash, 120])) ++
    [Event.act 0 .replicateCount 0, .deliver ⟨0, .prepareOk ⟨0, 1, 1⟩⟩ 0, .act 0 .prepareOkCount 0,
      .deliver ⟨0, .prepareOk ⟨0, 1, 2⟩⟩ 0, .act 0 .prepareOkCount 0, .act 0 .replicateWake 0,
      .act 0 .clientFinish 0] ++
    [1, 2, 3, 4].flatMap (fun i => Event.learn i ⟨0, 1⟩)

/-- The entry that all five have committed. -/
def fiveEntry : LogEntry := ⟨⟨[slash, 120], []⟩, .update, 1, true⟩

/-- Replica `1` has taken up the votes of `3` and `4`, but their calls return `false`; they vote again, at `2`, which
has not reached `1` with its own.  Both start view `1`. -/
def twoPrimariesEvents : List Event :=
  fiveEvents ++ [1, 2, 3, 4].map (fun i => Event.act i .changeViewBegin 10) ++
    [(1, 2), (1, 3), (2, 1), (2, 3), (3, 1), (3, 2), (4, 1), (4, 2)].map
      (fun p => Event.deliver ⟨p.1, .startViewChange ⟨1, p.2⟩⟩ 10) ++
    [1, 2, 3, 4].map (fun i => Event.act i .changeViewCount 10) ++
    [Event.act 1 (.candidate .answered) 10, .act 2 (.candidate .failed) 10, .act 2 (.candidate .answered) 10] ++
    [3, 4].flatMap (fun i => [Event.act i (.candidate .unanswered) 10, .act i (.candidate .answered) 10]) ++
    [(1, 3), (1, 4), (2, 3), (2, 4)].flatMap (fun p =>
      [Event.deliver ⟨p.1, .doViewChange ⟨1, [fiveEntry], 0, 1, 1, p.2⟩⟩ 10, .act p.1 .doViewChangeCount 10]) ++
    [Event.act 1 .hbWake 10, .act 2 .hbWake 10]

/-- Replica `3` follows `1`, and both primaries number an operation. -/
def mismatchEvents : List Event :=
  twoPrimariesEvents ++
    [Event.deliver ⟨3, .startView ⟨1, [fiveEntry], 1, 1, 1⟩⟩ 10, .act 3 .startViewCount 10, .act 3 .hbWake 10] ++
    Event.call 1 (.create ⟨[slash, 121], []⟩) ++ Event.takeUp 3 (.ofKey 1 2 1 [slash, 121]) ++
    Event.call 2 (.create ⟨[slash, 122], []⟩)

theorem log_matching_fails : ∃ c tr, Runs 5 { Rules.env with called := false } c tr ∧
    (c.reps 2).status = .normal ∧ (c.reps 2).isPrimary = true ∧ (c.reps 3).status = .normal ∧
    (c.reps 3).viewNum = (c.reps 2).viewNum ∧ (c.reps 3).opNum = 2 ∧
    (c.reps 3).log.opAt 2 ≠ (c.reps 2).log.opAt 2 := by
  obtain ⟨c, tr, h, hc⟩ := exists_runs (n := 5) (R := { Rules.env with called := false }) mismatchEvents
    (fun c _ => decide ((c.reps 2).status = .normal) && (c.reps 2).isPrimary && decide ((c.reps 3).status = .normal) &&
      decide ((c.reps 3).viewNum = (c.reps 2).viewNum) && decide ((c.reps 3).opNum = 2) &&
      decide ((c.reps 3).log.opAt 2 ≠ (c.reps 2).log.opAt 2)) (by decide +kernel)
  simp only [Bool.and_eq_true, decide_eq_true_eq] at hc
  obtain ⟨⟨⟨⟨⟨hp, hpri⟩, hb⟩, hv⟩, hn⟩, hne⟩ := hc
  exact ⟨c, tr, h, hp, hpri, hb, hv, hn, hne⟩

end MetaDR
