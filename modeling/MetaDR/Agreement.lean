import MetaDR.Answers
import MetaDR.LogShape
/-!
# Agreement — one operation a number, in every view

Viewstamped replication asks three things the code does not see to: that a view starts from the newest of a majority's
logs, all of each, that a vote counts at one candidate only, and that a quorum's answers are for the operation at hand.
In the runs where they hold, no two replicas apply different operations under one number (`applied_agree`), what passed
its quorum check is in the log of every later view (`acknowledged_durable`), and a majority has it when it passes
(`quorum_sound`).  One run of three replicas in which a view starts without an operation that a quorum holds breaks all
of them.
-/
namespace MetaDR

open Majority Viewstamp

/-- What viewstamped replication asks for. -/
structure Rules.Strict (R : Rules) : Prop where
  atomic : R.atomic = true
  notified : R.notified = true
  called : R.called = true
  current : R.current = true
  assign : ∀ tr r, R.assign tr r = true → r.waitMap.cnt (r.opNum + 1) = 0
  start : ∀ last votes, R.start last votes = true → noneLeft votes = true ∧ picksNewest last votes = true

/-- Nothing is counted yet for the number that the next operation gets. -/
def uncounted (r : Replica) : Bool := decide (r.waitMap.cnt (r.opNum + 1) = 0)

/-- Locks, messages and waits are as the code takes them to be, and viewstamped replication's demands are met. -/
def Rules.strict : Rules :=
  { free with
    atomic := true
    notified := true
    called := true
    current := true
    assign := fun _ r => uncounted r
    start := fun last votes => noneLeft votes && picksNewest last votes }

theorem Rules.Strict.endsAtOpNum {R : Rules} (h : R.Strict) {last : Nat → Nat} {votes : List ViewChangeInfo}
    (hs : R.start last votes = true) : endsAtOpNum votes = true := by
  obtain ⟨hn, hp⟩ := h.start last votes hs
  obtain ⟨cand, hc, -⟩ := (Option.any_eq_true _ _).1 hp
  rw [MetaDR.endsAtOpNum, hc, Option.any_some]
  exact List.all_eq_true.1 hn cand (selectCandidate_mem hc)

theorem Rules.strict_strict : Rules.strict.Strict where
  atomic := rfl
  notified := rfl
  called := rfl
  current := rfl
  assign := fun _ _ h => of_decide_eq_true h
  start := fun _ _ h => Bool.and_eq_true_iff.1 h

section

variable {n : Nat} {R : Rules} {c : Cluster} {tr : List Obs}

/-- **A run under the rules is a run of the protocol with its demands.** -/
theorem Moves.refines_strict (hR : R.Strict) (h : Moves n R c tr) : ∃ s, Reach n True s ∧ c.Follows True s tr :=
  h.refines hR.atomic hR.called (fun _ => hR.start)
    (fun _ _ _ _ _ _ _ hM hi hc hq => hM.answered hR.atomic hR.called hR.current hR.assign hi hc (hq hR.notified))

theorem Moves.live (hR : R.noRestart = true) (h : Moves n R c tr) (i : Nat) : (c.reps i).status ≠ .recovering := by
  refine h.forall_rep (P := fun r => r.status ≠ .recovering) (fun _ => by simp [Replica.init]) (fun _ h => h)
    (fun hn => absurd (hR.symm.trans hn) (by simp)) ?_ i
  intro c tr i msg r' sent os _ hr m
  cases m with
  | enter | storeStart => simp
  | startPrimary | startBackup => simp [Replica.adopted]
  | _ => exact hr

/-- A started view is the first or was started by somebody. -/
theorem Cluster.Follows.newView_of_start {good : Prop} {s : State Op} (hf : c.Follows good s tr) {v : Nat}
    (hv : s.start v ≠ none) (hpos : 0 < v) : ∃ q info, .newView q true info ∈ tr ∧ info.viewNum = v :=
  (hf.started v hv).resolve_left (by omega)

end

/-- **Agreement**: two replicas that have applied an operation under one number have applied the same. -/
theorem applied_agree {n r r' k : Nat} {op op' : Op} {c : Cluster} {tr : List Obs} (h : Runs n Rules.strict c tr)
    (ha : .applied r k op ∈ tr) (ha' : .applied r' k op' ∈ tr) : op = op' := by
  obtain ⟨s, hs, hf⟩ := h.moves.refines_strict Rules.strict_strict
  obtain ⟨h1, hc⟩ := hf.seen _ ha trivial
  obtain ⟨-, hc'⟩ := hf.seen _ ha' trivial
  exact (hs.good trivial).chosen_unique hs.core h1 hc hc'

theorem applied_agree_three : ∃ c tr, Runs 3 Rules.strict c tr ∧ (c.reps 1).viewNum = 1 ∧
    ∃ op op', .applied 0 1 op ∈ tr ∧ .applied 1 1 op' ∈ tr ∧ op = op' := by
  obtain ⟨c, tr, h, hc⟩ := exists_runs (n := 3) (R := Rules.strict) (settledEvents ++ changeEvents)
    (fun c tr => decide ((c.reps 1).viewNum = 1) && decide (.applied 0 1 settledEntry.op ∈ tr) &&
      decide (.applied 1 1 settledEntry.op ∈ tr)) (by decide +kernel)
  simp only [Bool.and_eq_true, decide_eq_true_eq] at hc
  obtain ⟨⟨hv, ha⟩, ha'⟩ := hc
  exact ⟨c, tr, h, hv, _, _, ha, ha', applied_agree h ha ha'⟩

/-- The second operation passes its quorum check and is acknowledged, and then the view changes as before. -/
def lostEvents : List Event :=
  settledEvents ++ Event.call 0 (.create ⟨[slash, 121], []⟩) ++ Event.takeUp 1 (.ofKey 0 2 1 [slash, 121]) ++
    [.deliver ⟨0, .prepareOk ⟨0, 2, 1⟩⟩ 0, .act 0 .prepareOkCount 0, .act 0 .replicateCount 0,
      .act 0 .clientFinish 0] ++ changeEvents

/-- The new primary gives the number of the acknowledged operation to another one, which gets its quorum too. -/
def reusedEvents : List Event :=
  lostEvents ++ Event.call 1 (.create ⟨[slash, 122], []⟩) ++
    [.deliver ⟨2, .startView ⟨1, [settledEntry, (PrepInfo.ofKey 0 2 1 [slash, 121]).entry], 1, 1, 1⟩⟩ 10,
      .act 2 .startViewCount 10, .act 2 .hbWake 10] ++
    Event.takeUp 2 (.ofKey 1 2 1 [slash, 122]) ++
    [.deliver ⟨1, .prepareOk ⟨1, 2, 2⟩⟩ 10, .act 1 .prepareOkCount 10, .act 1 .replicateCount 10,
      .act 1 .clientFinish 10]

theorem applied_agree_fails : ∃ c tr, Runs 3 Rules.env c tr ∧ (∀ i < 3, (c.reps i).up = true) ∧
    ∃ op op', .applied 0 2 op ∈ tr ∧ .applied 1 2 op' ∈ tr ∧ op ≠ op' := by
  obtain ⟨c, tr, h, hc⟩ := exists_runs (n := 3) (R := Rules.env) reusedEvents
    (fun c tr => (List.range 3).all (fun i => (c.reps i).up) &&
      decide (.applied 0 2 (PrepInfo.ofKey 0 2 1 [slash, 121]).op ∈ tr) &&
      decide (.applied 1 2 (PrepInfo.ofKey 1 2 1 [slash, 122]).op ∈ tr)) (by decide +kernel)
  simp only [Bool.and_eq_true, List.all_eq_true, List.mem_range, decide_eq_true_eq] at hc
  obtain ⟨⟨hup, ha⟩, ha'⟩ := hc
  exact ⟨c, tr, h, hup, _, _, ha, ha', by decide⟩

/-- Nobody has started a view later than `v`. -/
def latest (tr : List Obs) (v : Nat) : Bool :=
  tr.all (fun o =>
    match o with
    | .newView _ true info => decide (info.viewNum ≤ v)
    | _ => true)

theorem le_of_latest {tr : List Obs} {v q : Nat} {info : ViewStartInfo} (h : latest tr v = true)
    (hn : .newView q true info ∈ tr) : info.viewNum ≤ v := by
  have := List.all_eq_true.1 h _ hn
  simpa using this

/-- `strict`, and operations are numbered in the latest view only. -/
def Rules.strictLatest : Rules := { strict with assign := fun tr r => uncounted r && latest tr r.viewNum }

theorem Rules.strictLatest_strict : Rules.strictLatest.Strict where
  atomic := rfl
  notified := rfl
  called := rfl
  current := rfl
  assign := fun _ _ h => of_decide_eq_true (Bool.and_eq_true_iff.1 h).1
  start := Rules.strict_strict.start

section

variable {n : Nat} {R : Rules} {c : Cluster} {tr : List Obs}

/-- An operation is sent out by a `NORMAL` primary, under the number after its own. -/
theorem Move.of_prepared {r r' : Replica} {msg : Option Msg} {sent : List Packet} {os : List Obs} {q : Nat}
    {p : PrepInfo}
    (m : Move R tr r msg r' sent os) (h : .prepared q p ∈ os) : os = [.prepared q p] ∧ r.isPrimary = true ∧
      r.status = .normal ∧ p.opNum = r.opNum + 1 ∧ R.assign tr r = true := by
  cases m with
  | prepare req m p' hc hl hp hs hv hn ho hR =>
    obtain ⟨rfl, rfl⟩ := by simpa using h
    exact ⟨rfl, hp, hs, hn, hR⟩
  | _ => simp at h

/-- A quorum check is passed by the wait of `replicate`. -/
theorem Move.of_quorum {r r' : Replica} {msg : Option Msg} {sent : List Packet} {os : List Obs} {q : Nat} {p : PrepInfo}
    (m : Move R tr r msg r' sent os) (h : .quorum q p ∈ os) : os = [.quorum q p, .forgot q p.opNum] ∧ q = r.id ∧
      R.pass r.commitNum p.opNum = true ∧ ∃ req m, r.client = .waiting req m p := by
  cases m with
  | passQuorum req m p' log hc hq hR =>
    obtain ⟨rfl, rfl⟩ := by simpa using h
    exact ⟨rfl, rfl, hR, req, m, hc⟩
  | _ => simp at h

/-- What passed its quorum check was won by the operation it was sent for. -/
theorem Moves.won_of_quorum {good : Prop} {s : State Op} (h : Moves n R c tr) (hf : c.Follows good s tr) {r : Nat}
    {p : PrepInfo} (hq : .quorum r p ∈ tr) :
    s.won p.viewNum p.opNum ∧ s.op p.viewNum p.opNum = some p.op ∧ 1 ≤ p.opNum ∧
      s.held r p.viewNum p.opNum := by
  obtain ⟨hop, hheld, S, -, -, hlt⟩ := hf.seen _ (h.known.2.2 _ hq)
  exact ⟨hf.seen _ hq, hop, by omega, hheld⟩

/-- The number the primary of the latest view gives out has passed no quorum check. -/
theorem Moves.prepare_fresh (hR : R.Strict) (h : Moves n R c tr) {i : Nat} (hs : (c.reps i).status = .normal)
    (hpri : (c.reps i).isPrimary = true) (hl : latest tr (c.reps i).viewNum = true) {r : Nat} {p : PrepInfo}
    (hq : .quorum r p ∈ tr) : p.opNum ≠ (c.reps i).opNum + 1 := by
  obtain ⟨s, hr, hf⟩ := h.refines_strict hR
  have hcore := hr.core
  have hi := hf.rep i (by rw [hs]; simp)
  obtain ⟨hlast, htop, -⟩ := hi.normal hs
  obtain ⟨S, hS, hSi⟩ := hi.isPrimary (h.id_eq i) hs hpri
  obtain ⟨hwon, hop, hpos, -⟩ := h.won_of_quorum hf hq
  rcases Nat.lt_trichotomy p.viewNum (c.reps i).viewNum with hlt | heq | hgt
  · have h1 := ((hr.good trivial).start_of_won hlt hS hwon hpos (le_refl _) hop).1
    have h2 := hcore.start_top i S (hlast ▸ hS)
    omega
  · subst hSi
    have h1 := hcore.won_le _ S p.opNum hS hlast (heq ▸ hwon)
    have h2 := hcore.primary_commit _ S hS hlast
    omega
  · obtain ⟨q, info, hnew, hv⟩ := hf.newView_of_start (hcore.won_start _ _ hwon) (by omega)
    have := le_of_latest hl hnew
    omega

end

/-- **Durability**: what passed its quorum check is, in the log that any later view starts from, at its number, at or
below both numbers the view starts with; and no later operation gets its number. -/
theorem acknowledged_durable {n r : Nat} {p : PrepInfo} {c : Cluster} {tr : List Obs}
    (h : Runs n Rules.strictLatest c tr) (hq : .quorum r p ∈ tr) :
    (∀ q info, .newView q true info ∈ tr → p.viewNum < info.viewNum →
      (InMemOpLogHandler.setLog info.opLog).opAt p.opNum = some p.op ∧ p.opNum ≤ info.opNum ∧
        p.opNum ≤ info.commitNum) ∧
    ∀ tr₁ tr₂, tr = tr₁ ++ .quorum r p :: tr₂ → ∀ q p', .prepared q p' ∈ tr₂ → p'.opNum ≠ p.opNum := by
  have hm := h.moves
  obtain ⟨s, hr, hf⟩ := hm.refines_strict Rules.strictLatest_strict
  refine ⟨fun q info hn hlt => ?_, fun tr₁ tr₂ he q p' hp' => ?_⟩
  · obtain ⟨hwon, hop, hpos, -⟩ := hm.won_of_quorum hf hq
    obtain ⟨hS, hc, -⟩ := hf.seen _ hn
    obtain ⟨hle, hlog⟩ := (hr.good trivial).start_of_won hlt hS hwon hpos (le_refl _) hop
    exact ⟨hlog, hle, hc ▸ hle⟩
  · have heach : Run.Each
        (fun tr o => ∀ q p', o = .prepared q p' → ∀ r p, .quorum r p ∈ tr → p.opNum ≠ p'.opNum) tr := by
      refine hm.each (fun c tr i msg r' sent os hM hi m os₁ o os₂ hos q p' ho r p hq => ?_)
      subst ho
      obtain ⟨hone, hpri, hs, hn, hR⟩ := m.of_prepared (hos ▸ List.mem_append_right _ List.mem_cons_self)
      rw [Run.nil_of_first (hone.symm.trans hos) (List.not_mem_nil), List.append_nil] at hq
      rw [hn]
      exact hM.prepare_fresh Rules.strictLatest_strict hs hpri (Bool.and_eq_true_iff.1 hR).2 hq
    obtain ⟨a, b, rfl⟩ := List.append_of_mem hp'
    have := heach (tr₁ ++ .quorum r p :: a) (.prepared q p') b (by rw [he]; simp) q p' rfl r p (by simp)
    exact this.symm

theorem acknowledged_durable_three : ∃ c tr, Runs 3 Rules.strictLatest c tr ∧
    .newView 1 true ⟨1, [settledEntry], 1, 1, 1⟩ ∈ tr ∧
    (InMemOpLogHandler.setLog [settledEntry]).opAt 1 = some (PrepInfo.ofKey 0 1 0 [slash, 120]).op := by
  obtain ⟨c, tr, h, hc⟩ := exists_runs (n := 3) (R := Rules.strictLatest) (settledEvents ++ changeEvents)
    (fun _ tr => decide (.newView 1 true ⟨1, [settledEntry], 1, 1, 1⟩ ∈ tr) &&
      decide (.quorum 0 (PrepInfo.ofKey 0 1 0 [slash, 120]) ∈ tr)) (by decide +kernel)
  simp only [Bool.and_eq_true, decide_eq_true_eq] at hc
  exact ⟨c, tr, h, hc.1, ((acknowledged_durable h hc.2).1 1 _ hc.1 (by decide)).1⟩

theorem acknowledged_durable_fails : ∃ c tr, Runs 3 Rules.env c tr ∧ (∀ i < 3, (c.reps i).up = true) ∧
    ∃ p info p', .quorum 0 p ∈ tr ∧ .replied 0 (.create p.kvPair) (.err .none) ∈ tr ∧ .newView 1 true info ∈ tr ∧
      p.viewNum < info.viewNum ∧ info.opNum < p.opNum ∧ .prepared 1 p' ∈ tr ∧ p'.opNum = p.opNum := by
  obtain ⟨c, tr, h, hc⟩ := exists_runs (n := 3) (R := Rules.env) reusedEvents
    (fun c tr => (List.range 3).all (fun i => (c.reps i).up) &&
      decide (.quorum 0 (PrepInfo.ofKey 0 2 1 [slash, 121]) ∈ tr) &&
      decide (.replied 0 (.create ⟨[slash, 121], []⟩) (.err .none) ∈ tr) &&
      decide (.newView 1 true ⟨1, [settledEntry, (PrepInfo.ofKey 0 2 1 [slash, 121]).entry], 1, 1, 1⟩ ∈ tr) &&
      decide (.prepared 1 (PrepInfo.ofKey 1 2 1 [slash, 122]) ∈ tr)) (by decide +kernel)
  simp only [Bool.and_eq_true, List.all_eq_true, List.mem_range, decide_eq_true_eq] at hc
  obtain ⟨⟨⟨⟨hup, hq⟩, hr⟩, hn⟩, hp⟩ := hc
  exact ⟨c, tr, h, hup, _, _, _, hq, hr, hn, by decide, by decide, hp, by decide⟩

/-- `strict`, and no process is started again. -/
def Rules.strictSteady : Rules := { strict with noRestart := true }

theorem Rules.strictSteady_strict : Rules.strictSteady.Strict :=
  ⟨rfl, rfl, rfl, rfl, Rules.strict_strict.assign, Rules.strict_strict.start⟩

/-- **Quorum soundness**: from the moment an operation passes its quorum check on, the logs of a majority, the primary's
own among them, have it at its number; and every answer counted for it was given in its view, for this operation. -/
theorem quorum_sound {n i : Nat} {p : PrepInfo} {c : Cluster} {tr : List Obs}
    (h : Runs n Rules.strictSteady c tr) (hq : .quorum i p ∈ tr) :
    (∃ Q, IsQuorum n Q ∧ i ∈ Q ∧ ∀ q ∈ Q, (c.reps q).log.opAt p.opNum = some p.op) ∧
    ∀ tr₁ tr₂, tr = tr₁ ++ .quorum i p :: tr₂ → ∀ resp ∈ countedSince tr₁ i p.opNum,
      resp.viewNum = p.viewNum ∧ resp.opNum = p.opNum ∧
        ∃ p', .acked resp.replicaId p' resp ∈ tr₁ ∧ p'.viewNum = p.viewNum ∧ p'.opNum = p.opNum ∧ p'.op = p.op := by
  have hm := h.moves
  obtain ⟨s, hr, hf⟩ := hm.refines_strict Rules.strictSteady_strict
  refine ⟨?_, fun tr₁ tr₂ he resp hresp => ?_⟩
  · obtain ⟨hwon, hop, hpos, hheld⟩ := hm.won_of_quorum hf hq
    obtain ⟨Q, hQ, hqs⟩ := (hr.good trivial).won _ _ hwon
    refine ⟨insert i Q, ⟨Finset.insert_subset (Finset.mem_range.2 (hm.by_lt _ hq)) hQ.1,
      hQ.2.trans (Finset.card_le_card (Finset.subset_insert _ _))⟩, Finset.mem_insert_self _ _, fun q hqi => ?_⟩
    have hheldq : s.held q p.viewNum p.opNum := by
      rcases Finset.mem_insert.1 hqi with rfl | hqQ
      · exact hheld
      · exact hqs q hqQ
    rw [← (hf.rep q (hm.live rfl q)).log]
    exact (hr.good trivial).log_of_held hr.core hwon hpos hop hheldq
  · have heach : Run.Each (fun tr o => ∀ i p, o = .quorum i p → ∀ resp ∈ countedSince tr i p.opNum,
        resp.viewNum = p.viewNum ∧ resp.opNum = p.opNum ∧ ∃ p', .acked resp.replicaId p' resp ∈ tr ∧
          p'.viewNum = p.viewNum ∧ p'.opNum = p.opNum ∧ p'.op = p.op) tr := by
      refine hm.each (fun c tr i msg r' sent os hM hi m os₁ o os₂ hos q p ho resp hresp => ?_)
      subst ho
      obtain ⟨hone, hid, -, req, mu, hc⟩ := m.of_quorum (hos ▸ List.mem_append_right _ List.mem_cons_self)
      rw [Run.nil_of_first (hone.symm.trans hos) (by simp), List.append_nil] at hresp ⊢
      rw [hid, hM.id_eq i] at hresp
      obtain ⟨hv, hn, -, hacked⟩ := hM.counted_for rfl rfl rfl Rules.strictSteady_strict.assign hc hresp
      exact ⟨hv, hn, hacked⟩
    exact heach tr₁ _ tr₂ he i p rfl resp hresp

theorem quorum_sound_three : ∃ c tr, Runs 3 Rules.strictSteady c tr ∧ (c.reps 1).viewNum = 1 ∧
    ∃ Q, IsQuorum 3 Q ∧ 0 ∈ Q ∧ ∀ q ∈ Q, (c.reps q).log.opAt 1 = some settledEntry.op := by
  obtain ⟨c, tr, h, hc⟩ := exists_runs (n := 3) (R := Rules.strictSteady) (settledEvents ++ changeEvents)
    (fun c tr => decide ((c.reps 1).viewNum = 1) && decide (.quorum 0 (PrepInfo.ofKey 0 1 0 [slash, 120]) ∈ tr))
    (by decide +kernel)
  simp only [Bool.and_eq_true, decide_eq_true_eq] at hc
  exact ⟨c, tr, h, hc.1, (quorum_sound h hc.2).1⟩

/-- After `leftoverEvents` replica `1` gives number `2` to an operation of its own; then the old primary gets its
quorum for what it numbered `2`. -/
def splitEvents : List Event :=
  leftoverEvents ++ Event.call 1 (.create ⟨[slash, 122], []⟩) ++
    [.deliver ⟨0, .prepareOk ⟨0, 2, 1⟩⟩ 10, .act 0 .prepareOkCount 10, .act 0 .replicateCount 10]

theorem quorum_sound_fails : ∃ c tr p, Runs 3 Rules.env c tr ∧ [.quorum 0 p, .forgot 0 2] <:+ tr ∧
    ¬ ∃ Q, IsQuorum 3 Q ∧ ∀ q ∈ Q, (c.reps q).log.opAt p.opNum = some p.op := by
  obtain ⟨c, tr, h, hc⟩ := exists_runs (n := 3) (R := Rules.env) splitEvents
    (fun c tr => decide ([.quorum 0 (PrepInfo.ofKey 0 2 1 [slash, 121]), .forgot 0 2] <:+ tr) &&
      decide ((c.reps 1).log.opAt 2 ≠ some (PrepInfo.ofKey 0 2 1 [slash, 121]).op) &&
      decide ((c.reps 2).log.opAt 2 ≠ some (PrepInfo.ofKey 0 2 1 [slash, 121]).op)) (by decide +kernel)
  simp only [Bool.and_eq_true, decide_eq_true_eq] at hc
  obtain ⟨⟨hq, h1⟩, h2⟩ := hc
  refine ⟨c, tr, _, h, hq, ?_⟩
  rintro ⟨Q, hQ, hlog⟩
  have hsub : Q ⊆ {0} := fun q hqQ => by
    have hlt := hQ.mem_lt hqQ
    have hne1 : q ≠ 1 := fun he => h1 (he ▸ hlog q hqQ)
    have hne2 : q ≠ 2 := fun he => h2 (he ▸ hlog q hqQ)
    rw [Finset.mem_singleton]
    omega
  have := hQ.2.trans (Finset.card_le_card hsub)
  simp at this

end MetaDR
