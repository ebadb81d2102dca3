import MetaDR.LogMatching
/-!
# LogShape — the numbers a log lists

In runs whose view starts adopt a log that ends at the op number it comes with, every `NORMAL` replica's log lists
exactly `1 .. opNum`, each number once.  A view change takes over a whole log but an op number equal to the commit
number, so a log with entries past its commit number breaks this at once (`log_representation_fails`).
-/
namespace MetaDR

/-- The log lists `1 .. k`, and everything the replica counts by is at most `k`. -/
structure Replica.Lists (r : Replica) (k : Nat) : Prop where
  opNums : r.log.opNums = List.range' 1 k
  commit : r.commitNum ≤ k
  normal : r.status = .normal → r.opNum = k
  holds : ∀ p, r.holds p → p.opNum ≤ k

/-- The logs that votes and view starts carry. -/
def Obs.Lists : Obs → Prop
  | .voted _ info => ∃ k, info.opLog.map LogEntry.opNum = List.range' 1 k ∧ info.commitNum ≤ k
  | .newView _ true info => info.opLog.map LogEntry.opNum = List.range' 1 info.opNum ∧ info.commitNum ≤ info.opNum
  | _ => True

/-- The info that the loop of `updateNewView` picks lists no entry past its op number. -/
def endsAtOpNum (vcInfos : List ViewChangeInfo) : Bool :=
  (selectCandidate vcInfos).any (fun candidate =>
    candidate.opLog.all (fun entry => decide (entry.opNum ≤ candidate.opNum)))

theorem range'_push (k : Nat) : List.range' 1 k ++ [k + 1] = List.range' 1 (k + 1) := by
  rw [List.range'_concat, Nat.one_mul, Nat.add_comm 1 k]

/-- A log that lists `1 .. k` and ends at `m` or below, for an `m` at most `k`, lists `1 .. m`. -/
theorem lists_eq {opLog : OpLog} {k m : Nat} (h : opLog.map LogEntry.opNum = List.range' 1 k) (hm : m ≤ k)
    (he : ∀ entry ∈ opLog, entry.opNum ≤ m) : k = m := by
  by_contra hne
  have hk : k ∈ opLog.map LogEntry.opNum := by
    rw [h, List.mem_range'_1]
    omega
  obtain ⟨entry, hmem, rfl⟩ := List.mem_map.1 hk
  have := he entry hmem
  omega

theorem Replica.Lists.getLogEntry {r : Replica} {k : Nat} (h : r.Lists k) {j : Nat} {e : LogEntry}
    (he : r.log.getLogEntry j = some e) : 1 ≤ j ∧ j ≤ k := by
  have := InMemOpLogHandler.mem_opNums.2 ⟨e, he⟩
  rw [h.opNums, List.mem_range'_1] at this
  omega

section

variable {n : Nat} {R : Rules}

theorem Replica.Lists.adopted {r : Replica} {info : ViewStartInfo} {kvMap : KvMap}
    (h : info.opLog.map LogEntry.opNum = List.range' 1 info.opNum) (hc : info.commitNum ≤ info.opNum)
    (hp : ∀ p, ¬ r.holds p) : (r.adopted info kvMap).Lists info.opNum where
  opNums := by rw [← h]; exact InMemOpLogHandler.opNums_setLog _
  commit := hc
  normal := fun _ => rfl
  holds := fun p hh => absurd hh (hp p)

/-- A vote counted lists what the log of its sender did, and a view that starts from it lists `1 .. opNum`. -/
theorem Moves.lists_cand {c : Cluster} {tr : List Obs} (hM : Moves n R c tr)
    (hstart : ∀ last votes, R.start last votes = true → endsAtOpNum votes = true) (ht : ∀ o ∈ tr, o.Lists)
    (i v : Nat) (last : Nat → Nat) (cand : ViewChangeInfo)
    (hc : selectCandidate (((c.reps i).viewChangeInfoMap.lookup v).getD []) = some cand)
    (hR : R.start last (((c.reps i).viewChangeInfoMap.lookup v).getD []) = true) :
    cand.opLog.map LogEntry.opNum = List.range' 1 cand.opNum ∧ cand.commitNum ≤ cand.opNum := by
  obtain ⟨-, hvoted⟩ := (hM.known.1 i).votes v cand (selectCandidate_mem hc)
  obtain ⟨j, hj, hcj⟩ := ht _ hvoted
  have hop := (hM.known.2.2 _ hvoted).2
  have hend := hstart _ _ hR
  simp only [endsAtOpNum, hc, Option.any_some, List.all_eq_true, decide_eq_true_eq] at hend
  obtain rfl := lists_eq hj (by omega) hend
  exact ⟨hj, hcj⟩

theorem Move.lists_rep {c : Cluster} {tr : List Obs} (hM : Moves n R c tr) (hat : R.atomic = true)
    (hstart : ∀ last votes, R.start last votes = true → endsAtOpNum votes = true) {i : Nat} {r' : Replica}
    {msg : Option Msg} {sent : List Packet} {os : List Obs} (hr : ∃ k, (c.reps i).Lists k) (ht : ∀ o ∈ tr, o.Lists)
    (m : Move R tr (c.reps i) msg r' sent os) : ∃ k, r'.Lists k := by
  obtain ⟨k, h⟩ := hr
  have hknown := hM.known.1 i
  have hcand := hM.lists_cand hstart ht i
  have hnh : (c.reps i).hb ≠ .idle → ∀ p, ¬ (c.reps i).holds p := fun hb p hp => hb (hM.holds_idle hp)
  generalize c.reps i = r at *
  cases m with
  | lock | giveUp | finish =>
    exact ⟨k, { h with holds := fun q ⟨_, _, hq⟩ => by rcases hq with hq | hq <;> cases hq }⟩
  | refuse req m hc hl hs =>
    exact ⟨k, { h with
      normal := fun hn => absurd hn hs
      holds := fun q ⟨_, _, hq⟩ => by rcases hq with hq | hq <;> cases hq }⟩
  | prepare req m p hc hl hp hs hv hn ho hR =>
    have hk := h.normal hs
    have hcm := h.commit
    refine ⟨k + 1, ?_, by show r.commitNum ≤ k + 1; omega, fun _ => by show r.opNum + 1 = k + 1; omega,
      fun q ⟨_, _, hq⟩ => ?_⟩
    · rw [InMemOpLogHandler.opNums_push, h.opNums, PrepInfo.entry_opNum, hn, hk, range'_push]
    · rcases hq with hq | hq <;> cases hq
      omega
  | countOwn req m p hc =>
    refine ⟨k, { h with holds := fun q ⟨_, _, hq⟩ => ?_ }⟩
    rcases hq with hq | hq <;> cases hq
    exact h.holds p ⟨req, m, .inl hc⟩
  | passQuorum req m p log hc hq hR hl =>
    obtain ⟨-, -, hnums, -⟩ := InMemOpLogHandler.commit_eq_some hl
    exact ⟨k, { h with
      opNums := hnums.trans h.opNums
      commit := h.holds p ⟨req, m, .inr hc⟩
      holds := fun q ⟨_, _, hq⟩ => by rcases hq with hq | hq <;> cases hq }⟩
  | ack p hp hl hn htest hkept =>
    obtain ⟨-, hs, -⟩ := Replica.prepInfoTest_eq_true.1 (htest hat)
    have hk := h.normal hs
    have hcm := h.commit
    refine ⟨k + 1, ?_, by show r.commitNum ≤ k + 1; omega, fun _ => by show p.opNum = k + 1; omega,
      fun q hq => absurd hq (Replica.not_holds_of_free hl q)⟩
    rw [InMemOpLogHandler.opNums_push, h.opNums, PrepInfo.entry_opNum, hn, hk, range'_push]
  | commitNext ci log e hi hl hs hv hn hlog he hc =>
    obtain ⟨-, -, hnums, -⟩ := InMemOpLogHandler.commit_eq_some hlog
    exact ⟨k, { h with opNums := hnums.trans h.opNums, commit := (h.getLogEntry he).2 }⟩
  | enter | storeStart => exact ⟨k, { h with normal := fun hn => (by cases hn) }⟩
  | startPrimary v votes cand kvMap ops hb hv hq hc hn hR hA ha hs =>
    subst hv
    obtain ⟨hj, hcj⟩ := hcand _ _ _ hc hR
    exact ⟨_, Replica.Lists.adopted hj hcj (hnh (by rw [hb]; simp))⟩
  | startBackup v info kvMap ops hb hi hn hA ha hs =>
    obtain ⟨hj, hcj⟩ := ht _ (hknown.starts v info hi).2.1
    exact ⟨_, Replica.Lists.adopted hj hcj (hnh (by rcases hb with hb | ⟨o, hb⟩ <;> rw [hb] <;> simp))⟩
  | _ => exact ⟨k, { h with }⟩

theorem Move.lists_obs {c : Cluster} {tr : List Obs} (hM : Moves n R c tr)
    (hstart : ∀ last votes, R.start last votes = true → endsAtOpNum votes = true) {i : Nat} {r' : Replica}
    {msg : Option Msg} {sent : List Packet} {os : List Obs} (hr : ∃ k, (c.reps i).Lists k) (ht : ∀ o ∈ tr, o.Lists)
    (m : Move R tr (c.reps i) msg r' sent os) : ∀ o ∈ os, o.Lists := by
  obtain ⟨k, h⟩ := hr
  have hcand := hM.lists_cand hstart ht i
  generalize c.reps i = r at *
  cases m with
  | vote v o info hb hi =>
    intro o ho
    rw [List.mem_singleton.1 ho, hi]
    exact ⟨k, by rw [InMemOpLogHandler.map_opNum_getLog, h.opNums], h.commit⟩
  | startPrimary v votes cand kvMap ops hb hv hq hc hn hR hA ha hs =>
    subst hv
    obtain ⟨hj, hcj⟩ := hcand _ _ _ hc hR
    intro o ho
    rcases mem_applied_append ho with ⟨_, _, rfl⟩ | ho
    · trivial
    · rw [List.mem_singleton.1 ho]
      refine ⟨?_, hcj⟩
      simp only [Replica.viewStartInfo, InMemOpLogHandler.map_opNum_getLog, InMemOpLogHandler.opNums_setLog]
      exact hj
  | startBackup v info kvMap ops hb hi hn hA ha hs =>
    intro o ho
    rcases mem_applied_append ho with ⟨_, _, rfl⟩ | ho
    · trivial
    · rw [List.mem_singleton.1 ho]
      trivial
  | _ => simp [Obs.Lists]

theorem Moves.lists (hat : R.atomic = true)
    (hstart : ∀ last votes, R.start last votes = true → endsAtOpNum votes = true)
    {c : Cluster} {tr : List Obs} (h : Moves n R c tr) : (∀ i, ∃ k, (c.reps i).Lists k) ∧ ∀ o ∈ tr, o.Lists := by
  have hinit : ∀ i, (Replica.init n i).Lists 0 := fun i =>
    ⟨rfl, le_refl _, fun _ => rfl, fun p hp => absurd hp (Replica.holds_of_idle rfl p)⟩
  have hkeep := h.invariant (P := fun _ _ r => ∃ k, r.Lists k) (Q := fun _ _ => True) (T := fun _ o => o.Lists)
    (fun _ _ _ _ _ h => h) (fun _ _ _ h => h) (fun _ _ _ h => h) (fun i => ⟨0, hinit i⟩)
    (fun _ _ _ h => h.imp (fun _ h => { h with })) (fun _ _ i _ flag _ => ?_) ?_
  · exact ⟨hkeep.1, hkeep.2.2⟩
  · exact ⟨0, rfl, le_refl _, fun h => (by cases h), fun p hp => absurd hp (Replica.holds_of_idle rfl p)⟩
  · intro c tr i p r' sent os hM hP _ hT _ _ m
    exact ⟨m.lists_rep hM hat hstart (hP i) hT, fun _ _ => trivial, m.lists_obs hM hstart (hP i) hT⟩

end

/-- **Log representation**: where every view starts from a log that ends at the op number it comes with, the numbers
a `NORMAL` replica's log lists are `1 .. opNum` in order, its commit number is among them, and it has an entry at no
other. -/
theorem log_representation {n i : Nat} {c : Cluster} {tr : List Obs}
    (h : Runs n { Rules.free with atomic := true, start := fun _ vcInfos => endsAtOpNum vcInfos } c tr)
    (hs : (c.reps i).status = .normal) :
    (c.reps i).log.getLog.map LogEntry.opNum = List.range' 1 (c.reps i).opNum ∧
      (c.reps i).commitNum ≤ (c.reps i).opNum ∧
      ∀ k, (c.reps i).log.hasEntry k = true ↔ 1 ≤ k ∧ k ≤ (c.reps i).opNum := by
  obtain ⟨k, hk⟩ := (h.moves.lists rfl (fun _ _ h => h)).1 i
  obtain rfl := hk.normal hs
  refine ⟨by rw [InMemOpLogHandler.map_opNum_getLog, hk.opNums], hk.commit, fun j => ?_⟩
  rw [InMemOpLogHandler.hasEntry_iff, ← InMemOpLogHandler.mem_opNums, hk.opNums, List.mem_range'_1]
  omega

/-- A `create` is numbered `1` and committed by all three replicas. -/
def settledEvents : List Event :=
  Event.call 0 (.create ⟨[slash, 120], []⟩) ++ Event.takeUp 1 (.ofKey 0 1 0 [slash, 120]) ++
    [.act 0 .replicateCount 0, .deliver ⟨0, .prepareOk ⟨0, 1, 1⟩⟩ 0, .act 0 .prepareOkCount 0,
      .act 0 .replicateWake 0, .act 0 .clientFinish 0] ++
    Event.learn 1 ⟨0, 1⟩ ++ Event.takeUp 2 (.ofKey 0 1 0 [slash, 120]) ++ Event.learn 2 ⟨0, 1⟩

/-- The entry that all three have committed. -/
def settledEntry : LogEntry := ⟨⟨[slash, 120], []⟩, .update, 1, true⟩

/-- Replicas `1` and `2` start view `1`, with replica `1` as primary. -/
def changeEvents : List Event := [
  .act 1 .changeViewBegin 10, .act 2 .changeViewBegin 10,
  .deliver ⟨1, .startViewChange ⟨1, 2⟩⟩ 10, .deliver ⟨2, .startViewChange ⟨1, 1⟩⟩ 10,
  .act 1 .changeViewCount 10, .act 1 (.candidate .answered) 10,
  .act 2 .changeViewCount 10, .act 2 (.candidate .answered) 10,
  .deliver ⟨1, .doViewChange ⟨1, [settledEntry], 0, 1, 1, 2⟩⟩ 10, .act 1 .doViewChangeCount 10, .act 1 .hbWake 10]

theorem log_representation_three : ∃ c tr,
    Runs 3 { Rules.free with atomic := true, start := fun _ vcInfos => endsAtOpNum vcInfos } c tr ∧
      (c.reps 1).viewNum = 1 ∧ (c.reps 1).log.getLog.map LogEntry.opNum = List.range' 1 (c.reps 1).opNum := by
  obtain ⟨c, tr, h, hc⟩ := exists_runs (n := 3)
    (R := { Rules.free with atomic := true, start := fun _ vcInfos => endsAtOpNum vcInfos })
    (settledEvents ++ changeEvents)
    (fun c _ => decide ((c.reps 1).viewNum = 1) && decide ((c.reps 1).status = .normal)) (by decide +kernel)
  simp only [Bool.and_eq_true, decide_eq_true_eq] at hc
  exact ⟨c, tr, h, hc.1, (log_representation h hc.2).1⟩

/-- A second operation reaches replica `1` before the view changes: it stays in the log of view `1`, past its op
number. -/
def leftoverEvents : List Event :=
  settledEvents ++ Event.call 0 (.create ⟨[slash, 121], []⟩) ++ Event.takeUp 1 (.ofKey 0 2 1 [slash, 121]) ++
    changeEvents

theorem log_representation_fails : ∃ c tr,
    Runs 3 Rules.env c tr ∧
      (c.reps 1).status = .normal ∧ (c.reps 1).opNum = 1 ∧ (c.reps 1).log.getLog.map LogEntry.opNum = [1, 2] := by
  obtain ⟨c, tr, h, hc⟩ := exists_runs (n := 3) (R := Rules.env) leftoverEvents
    (fun c _ => decide ((c.reps 1).status = .normal) && decide ((c.reps 1).opNum = 1) &&
      decide ((c.reps 1).log.getLog.map LogEntry.opNum = [1, 2])) (by decide +kernel)
  simp only [Bool.and_eq_true, decide_eq_true_eq] at hc
  exact ⟨c, tr, h, hc.1.1, hc.1.2, hc.2⟩

end MetaDR
