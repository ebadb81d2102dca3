import MetaDR.Replay
import MetaDR.Alone
/-!
# Backup — what a backup of view `0` applies

One backup, its listener thread and its queue's thread, and whatever `Prepare`s and `Commit`s arrive in whatever
order.  It takes up `1, 2, ..` or stops, and commits one entry after the other whatever number a `Commit` names: so
the committed entries are those up to its commit number, and each was applied once, in order (`in_order`).
-/
namespace MetaDR

namespace Replica

/-- `Prepare`s and `Commit`s arrive, and the threads that take them up go on. -/
def backupEvent : LocalEvent → Bool
  | .recv (.prepare _) _ => true
  | .recv (.commit _) _ => true
  | .act .prepCheck _ => true
  | .act .prepLocked _ => true
  | .act .commitLocked _ => true
  | _ => false

/-- The runs of a backup. -/
abbrev BackupRuns (n id : Nat) : Replica → List (LocalEvent × Step) → Prop :=
  Run.Reach (alone (init n id)) (fun _ _ e => backupEvent e)

/-- The entries `1 .. opNum` are in the log, those up to the commit number committed and applied. -/
structure InOrder (r : Replica) (tr : List Obs) : Prop where
  client : r.client = .idle
  hb : r.hb = .idle
  logged : ∀ k, (∃ e, r.log.getLogEntry k = some e) ↔ 1 ≤ k ∧ k ≤ r.opNum
  le : r.commitNum ≤ r.opNum
  committed : ∀ k e, r.log.getLogEntry k = some e → (e.committed = true ↔ k ≤ r.commitNum)
  kvMap : r.kvMap = applyAll ((List.range' 1 r.commitNum).filterMap r.log.opAt)
  applied : tr.filter Obs.isApplied =
    (List.range' 1 r.commitNum).filterMap (fun k => (r.log.opAt k).map (Obs.applied r.id k))

namespace InOrder

variable {r r' : Replica} {tr : List Obs}

theorem keep (h : r.InOrder tr) (hc : r'.client = r.client) (hb : r'.hb = r.hb) (hl : r'.log = r.log)
    (ho : r'.opNum = r.opNum) (hn : r'.commitNum = r.commitNum) (hm : r'.kvMap = r.kvMap) (hi : r'.id = r.id) :
    r'.InOrder (tr ++ []) := by
  rw [List.append_nil]
  obtain ⟨h1, h2, h3, h4, h5, h6, h7⟩ := h
  exact ⟨hc.trans h1, hb.trans h2, by rw [hl, ho]; exact h3, by rw [hn, ho]; exact h4, by rw [hl, hn]; exact h5,
    by rw [hm, hn, hl]; exact h6, by rw [hn, hl, hi]; exact h7⟩

theorem repMutexFree (h : r.InOrder tr) : r.repMutexFree = true := by
  rw [Replica.repMutexFree, h.client, h.hb]
  rfl

theorem append (h : r.InOrder tr) {p : PrepInfo} {s : Step} (hs : r.processPrepInfoLocked p = some s) :
    s.rep.InOrder (tr ++ s.obs) := by
  unfold processPrepInfoLocked at hs
  split at hs
  · cases hs
  · rename_i hn
    have hp : p.opNum = r.opNum + 1 := not_not.1 hn
    cases hs
    have hle := h.le
    have hold : ∀ k ∈ List.range' 1 r.commitNum, (r.log.push p.entry).opAt k = r.log.opAt k := fun k hk => by
      rw [List.mem_range'_1] at hk
      rw [InMemOpLogHandler.opAt_push, if_neg (by rw [PrepInfo.entry_opNum]; omega)]
    rw [PrepInfo.append_eq]
    refine ⟨h.client, h.hb, fun k => ?_, ?_, fun k e he => ?_, ?_, ?_⟩
    · show (∃ e, (r.log.push p.entry).getLogEntry k = some e) ↔ 1 ≤ k ∧ k ≤ p.opNum
      rw [InMemOpLogHandler.getLogEntry_push, PrepInfo.entry_opNum]
      split
      · rename_i hk
        exact iff_of_true ⟨_, rfl⟩ (by omega)
      · rw [h.logged k]
        omega
    · show r.commitNum ≤ p.opNum
      omega
    · rw [InMemOpLogHandler.getLogEntry_push, PrepInfo.entry_opNum] at he
      split at he
      · rename_i hk
        cases he
        rw [PrepInfo.entry_committed]
        exact iff_of_false Bool.false_ne_true (by show ¬ k ≤ r.commitNum; omega)
      · exact h.committed k e he
    · exact h.kvMap.trans (congrArg applyAll (List.filterMap_congr (fun k hk => (hold k hk).symm)))
    · rw [List.filter_append, List.filter_singleton]
      refine (List.append_nil _).trans (h.applied.trans (List.filterMap_congr (fun k hk => ?_)))
      show _ = ((r.log.push p.entry).opAt k).map (Obs.applied r.id k)
      rw [hold k hk]

theorem commitNext (h : r.InOrder tr) {log : InMemOpLogHandler} {e : LogEntry}
    (hl : r.log.commit (r.commitNum + 1) = some log)
    (he : r.log.getLogEntry (r.commitNum + 1) = some e) :
    { r with listener := none, commitNum := r.commitNum + 1, log := log, kvMap := e.op.apply r.kvMap }.InOrder
      (tr ++ [Obs.applied r.id (r.commitNum + 1) e.op]) := by
  obtain ⟨e', he', -, hget⟩ := InMemOpLogHandler.commit_eq_some hl
  obtain rfl := Option.some.inj (he.symm.trans he')
  have hop : log.opAt = r.log.opAt := funext (InMemOpLogHandler.opAt_commit hl)
  have hnext : r.log.opAt (r.commitNum + 1) = some e.op := by rw [InMemOpLogHandler.opAt, he]; rfl
  have hle := ((h.logged _).1 ⟨e, he⟩).2
  refine ⟨h.client, h.hb, fun k => ?_, hle, fun k e' he' => ?_, ?_, ?_⟩
  · show (∃ e, log.getLogEntry k = some e) ↔ _
    rw [← h.logged k, hget]
    split
    · rename_i hk
      rw [hk]
      exact iff_of_true ⟨_, rfl⟩ ⟨e, he⟩
    · rfl
  · show e'.committed = true ↔ k ≤ r.commitNum + 1
    have hk' : log.getLogEntry k = some e' := he'
    rw [hget] at hk'
    split at hk'
    · rename_i hk
      cases hk'
      exact iff_of_true rfl hk.le
    · rename_i hk
      rw [h.committed k e' hk']
      omega
  · show e.op.apply r.kvMap = applyAll ((List.range' 1 (r.commitNum + 1)).filterMap log.opAt)
    rw [hop, ← range'_push, List.filterMap_append, List.filterMap_cons_some hnext, List.filterMap_nil, applyAll_concat,
      ← h.kvMap]
  · show (tr ++ _).filter Obs.isApplied =
      (List.range' 1 (r.commitNum + 1)).filterMap (fun k => (log.opAt k).map (Obs.applied r.id k))
    rw [List.filter_append, hop, ← range'_push, List.filterMap_append, ← h.applied, List.filterMap_cons, hnext]
    rfl

/-- **The commit handler's assertions hold.** -/
theorem commit (h : r.InOrder tr) (ci : CommitInfo) :
    ∃ s, r.processCommitLocked ci = some s ∧ s.rep.InOrder (tr ++ s.obs) := by
  have hquiet : { r with listener := none }.InOrder (tr ++ []) := h.keep rfl rfl rfl rfl rfl rfl rfl
  have hle := h.le
  unfold processCommitLocked
  dsimp only
  split
  · exact ⟨_, rfl, hquiet⟩
  · split
    · -- a number that has passed: its entry is in the log, and committed
      rename_i hc
      obtain ⟨e, he⟩ := (h.logged ci.commitNum).2 ⟨hc.1, by omega⟩
      rw [he]
      dsimp only
      rw [if_pos ((h.committed _ e he).2 hc.2)]
      exact ⟨_, rfl, hquiet⟩
    · split
      · split
        · exact ⟨_, rfl, hquiet⟩
        · rename_i hn
          obtain ⟨e, he⟩ := InMemOpLogHandler.hasEntry_iff.1 (Bool.eq_true_of_not_eq_false hn)
          obtain ⟨log, hl⟩ := InMemOpLogHandler.commit_isSome he
          obtain ⟨e', he', -, hget⟩ := InMemOpLogHandler.commit_eq_some hl
          obtain rfl := Option.some.inj (he.symm.trans he')
          rw [hl]
          dsimp only
          rw [show log.getLogEntry (r.commitNum + 1) = _ from (hget _).trans (if_pos rfl)]
          have hnext := h.commitNext hl he
          exact ⟨_, rfl, hnext⟩
      · exact ⟨_, rfl, hquiet⟩

theorem processPrepare (h : r.InOrder tr) (p : PrepInfo) :
    (r.processPrepare p).rep.InOrder (tr ++ (r.processPrepare p).obs) := by
  unfold Replica.processPrepare
  split
  · exact h.keep rfl rfl rfl rfl rfl rfl rfl
  · split
    · exact h.keep rfl rfl rfl rfl rfl rfl rfl
    · exact h.keep rfl rfl rfl rfl rfl rfl rfl

theorem processCommit (h : r.InOrder tr) (ci : CommitInfo) (now : Nat) :
    (r.processCommit ci now).rep.InOrder (tr ++ (r.processCommit ci now).obs) := by
  unfold Replica.processCommit
  dsimp only
  split
  · exact h.keep rfl rfl rfl rfl rfl rfl rfl
  · exact h.keep rfl rfl rfl rfl rfl rfl rfl

theorem processPrepInfo (h : r.InOrder tr) (p : PrepInfo) (rest : List PrepInfo) :
    (r.processPrepInfo p rest).rep.InOrder (tr ++ (r.processPrepInfo p rest).obs) := by
  unfold Replica.processPrepInfo
  dsimp only
  split
  · exact h.keep rfl rfl rfl rfl rfl rfl rfl
  · exact h.keep rfl rfl rfl rfl rfl rfl rfl

/-- **Every section keeps the order.** -/
theorem section_ok (h : r.InOrder tr) {e : LocalEvent} {s : Step} (he : backupEvent e = true)
    (hs : r.localSection e = .ok s) : s.rep.InOrder (tr ++ s.obs) := by
  unfold backupEvent at he
  split at he
  · rename_i p now
    simp only [localSection, handle] at hs
    split at hs
    · cases hs
    · cases hs
      exact h.processPrepare p
  · rename_i ci now
    simp only [localSection, handle] at hs
    split at hs
    · cases hs
    · cases hs
      exact h.processCommit ci now
  · simp only [localSection, act] at hs
    split at hs
    · cases hs
      exact h.processPrepInfo _ _
    · cases hs
  · simp only [localSection, act] at hs
    split at hs
    · rw [if_pos h.repMutexFree] at hs
      exact h.append (Outcome.ofOption_eq_ok hs)
    · cases hs
  · simp only [localSection, act] at hs
    split at hs
    · rename_i ci hci
      rw [if_pos h.repMutexFree] at hs
      obtain ⟨s', hs', hin⟩ := h.commit ci
      obtain rfl := Option.some.inj (hs'.symm.trans (Outcome.withStore_eq_ok hs).1)
      exact hin
    · cases hs
  · cases he

theorem commitLocked_ne_abort (h : r.InOrder tr) (now : Nat) : r.act now .commitLocked ≠ .abort := by
  simp only [act]
  split
  · rename_i ci hci
    obtain ⟨s, hs, -⟩ := h.commit ci
    rw [if_pos h.repMutexFree, hs, Outcome.withStore]
    split <;> exact Outcome.noConfusion
  · exact Outcome.noConfusion

end InOrder

theorem inOrder_init (n id : Nat) : (init n id).InOrder [] where
  client := rfl
  hb := rfl
  logged := fun k => iff_of_false (fun ⟨e, he⟩ => by simp [init] at he) (by simp only [init]; omega)
  le := le_refl _
  committed := fun k e he => by simp [init] at he
  kvMap := rfl
  applied := rfl

theorem BackupRuns.inOrder {n id : Nat} {r : Replica} {tr : List (LocalEvent × Step)} (h : BackupRuns n id r tr) :
    r.InOrder (seen tr) := by
  refine alone_invariant (P := fun r tr => r.InOrder (seen tr)) (inOrder_init n id) (fun r tr e hin => ?_)
    (fun r tr e s _ hin he hs => ?_) h
  · rw [seen_concat]
    exact hin.keep rfl rfl rfl rfl rfl rfl rfl
  · rw [seen_concat]
    exact hin.section_ok he hs

end Replica

/-- **In order, without a gap and once**: on a backup of view `0` the committed entries are those numbered up to its
commit number, its map is what they leave of the empty one, what was seen applied are they, each once, and the commit
handler's assertion holds. -/
theorem in_order {n id : Nat} {r : Replica} {tr : List (LocalEvent × Step)} (h : Replica.BackupRuns n id r tr) :
    (∀ k, (∃ e, r.log.getLogEntry k = some e ∧ e.committed = true) ↔ 1 ≤ k ∧ k ≤ r.commitNum) ∧
      r.kvMap = applyAll ((List.range' 1 r.commitNum).filterMap r.log.opAt) ∧
      (seen tr).filter Obs.isApplied =
        (List.range' 1 r.commitNum).filterMap (fun k => (r.log.opAt k).map (Obs.applied r.id k)) ∧
      r.commitNum ≤ r.opNum ∧ ∀ now, r.act now .commitLocked ≠ .abort := by
  have hin := h.inOrder
  refine ⟨fun k => ⟨fun ⟨e, he, hc⟩ => ?_, fun hk => ?_⟩, hin.kvMap, hin.applied, hin.le, hin.commitLocked_ne_abort⟩
  · exact ⟨((hin.logged k).1 ⟨e, he⟩).1, (hin.committed k e he).1 hc⟩
  · obtain ⟨e, he⟩ := (hin.logged k).2 ⟨hk.1, hk.2.trans hin.le⟩
    exact ⟨e, he, (hin.committed k e he).2 hk.2⟩

/-- Two operations are taken up; a `Commit` skips ahead, is repeated, and an old one follows. -/
def skippingEvents : List LocalEvent :=
  [.recv (.prepare (.ofKey 0 1 0 [slash, 120])) 0, .recv (.prepare (.ofKey 0 2 0 [slash, 121])) 0, .act .prepCheck 0,
    .act .prepLocked 0, .act .prepCheck 0, .act .prepLocked 0, .recv (.commit ⟨0, 5⟩) 0, .act .commitLocked 0,
    .recv (.commit ⟨0, 5⟩) 1, .act .commitLocked 1, .recv (.commit ⟨0, 1⟩) 2, .act .commitLocked 2]

theorem in_order_three : ∃ r tr, Replica.BackupRuns 3 1 r tr ∧ r.commitNum = 2 ∧
    r.kvMap = applyAll ((List.range' 1 2).filterMap r.log.opAt) ∧ r.kvMap.lookup [slash, 121] = some [] := by
  obtain ⟨r, tr, h, hq⟩ : ∃ r tr, Replica.BackupRuns 3 1 r tr ∧
      (decide (r.commitNum = 2) && decide (r.kvMap.lookup [slash, 121] = some [])) = true :=
    Run.exists_reach_of_exec skippingEvents _ (by decide +kernel)
  simp only [Bool.and_eq_true, decide_eq_true_eq] at hq
  obtain ⟨hc, hm⟩ := hq
  refine ⟨r, tr, h, hc, ?_, hm⟩
  have := (in_order h).2.1
  rwa [hc] at this

end MetaDR
