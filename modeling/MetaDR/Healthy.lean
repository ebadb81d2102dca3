import MetaDR.Agreement
import MetaDR.Replay
/-!
# Healthy — when a view change passes its assertions

`updateNewView` asserts that the adopted log has the entry at the replica's old commit number, and has it as
committed.  Numbers begin at `1` and commit numbers at `0`, so before its first commit a replica fails this in every
view change.  After it, in runs that meet the demands of viewstamped replication and commit in order, every view
change passes (`new_view_passes`): what a replica has committed is chosen, and every later view starts at or above it.
-/
namespace MetaDR

open Viewstamp

/-- `strict`, and an operation passes its quorum check only as the next one to commit. -/
def Rules.inOrder : Rules :=
  { strict with counted := true, pass := fun commitNum opNum => decide (opNum = commitNum + 1) }

theorem Rules.inOrder_strict : Rules.inOrder.Strict :=
  ⟨rfl, rfl, rfl, rfl, Rules.strict_strict.assign, Rules.strict_strict.start⟩

/-- Every entry up to the commit number has its mark. -/
def Replica.Flagged (r : Replica) : Prop := ∀ k e, r.log.getLogEntry k = some e → k ≤ r.commitNum → e.committed = true

/-- The logs that votes and view starts carry have theirs. -/
def Obs.Flagged : Obs → Prop
  | .voted _ info => ∀ e ∈ info.opLog, e.opNum ≤ info.commitNum → e.committed = true
  | .newView _ true info => ∀ e ∈ info.opLog, e.opNum ≤ info.commitNum → e.committed = true
  | _ => True

namespace Replica.Flagged

variable {r r' : Replica}

theorem keep (h : r.Flagged) (hl : r'.log = r.log) (hc : r'.commitNum = r.commitNum) : r'.Flagged := fun k e he hk =>
  h k e (hl ▸ he) (hc ▸ hk)

theorem push (h : r.Flagged) {entry : LogEntry} (hl : r'.log = r.log.push entry) (hc : r'.commitNum = r.commitNum)
    (hn : r.commitNum < entry.opNum) : r'.Flagged := fun k e he hk => by
  rw [hl, InMemOpLogHandler.getLogEntry_push] at he
  rw [hc] at hk
  split at he
  · omega
  · exact h k e he hk

theorem commit (h : r.Flagged) (hl : r.log.commit (r.commitNum + 1) = some r'.log)
    (hc : r'.commitNum = r.commitNum + 1) :
    r'.Flagged := fun k e he hk => by
  obtain ⟨e', -, -, hall⟩ := InMemOpLogHandler.commit_eq_some hl
  rw [hall] at he
  split at he
  · cases he
    rfl
  · exact h k e he (by omega)

theorem adopted {info : ViewStartInfo} {kvMap : KvMap}
    (h : ∀ e ∈ info.opLog, e.opNum ≤ info.commitNum → e.committed = true) : (r.adopted info kvMap).Flagged :=
  fun k e he hk => by
    obtain ⟨hm, rfl⟩ := InMemOpLogHandler.mem_of_getLogEntry_setLog he
    exact h e hm hk

end Replica.Flagged

section

variable {n : Nat} {R : Rules} {c : Cluster} {tr : List Obs}

theorem Move.flagged_rep (hM : Moves n R c tr) (hat : R.atomic = true) (hpass : ∀ a b, R.pass a b = true → b = a + 1)
    {i k : Nat} (hk : (c.reps i).Lists k) {r' : Replica} {msg : Option Msg} {sent : List Packet} {os : List Obs}
    (hr : (c.reps i).Flagged) (ht : ∀ o ∈ tr, o.Flagged) (m : Move R tr (c.reps i) msg r' sent os) : r'.Flagged := by
  have hknown := hM.known.1 i
  generalize c.reps i = r at *
  have hcommit := hk.commit
  cases m with
  | prepare req m p hc hl hp hs hv hn ho hR =>
    refine hr.push rfl rfl ?_
    rw [PrepInfo.entry_opNum, hn, hk.normal hs]
    omega
  | ack p hp hl hn htest hkept =>
    obtain ⟨-, hs, -⟩ := Replica.prepInfoTest_eq_true.1 (htest hat)
    refine hr.push rfl rfl ?_
    rw [PrepInfo.entry_opNum, hn, hk.normal hs]
    omega
  | passQuorum req m p log hc hq hR hl =>
    have hn : p.opNum = r.commitNum + 1 := hpass _ _ hR
    rw [hn] at hl
    exact hr.commit hl hn
  | commitNext ci log entry hi hl ht hv hn hlog he hc => exact hr.commit hlog rfl
  | startPrimary v votes cand kvMap ops hb hv hq hc hn hR hA ha hs =>
    subst hv
    exact .adopted (ht _ (hknown.votes v cand (selectCandidate_mem hc)).2)
  | startBackup v info kvMap ops hb hi hn hA ha hs => exact .adopted (ht _ (hknown.starts v info hi).2.1)
  | _ => exact hr.keep rfl rfl

theorem Move.flagged_obs (hM : Moves n R c tr) {i : Nat} {r' : Replica} {msg : Option Msg} {sent : List Packet}
    {os : List Obs} (hr : (c.reps i).Flagged) (ht : ∀ o ∈ tr, o.Flagged) (m : Move R tr (c.reps i) msg r' sent os) :
    ∀ o ∈ os, o.Flagged := by
  have hknown := hM.known.1 i
  generalize c.reps i = r at *
  cases m with
  | vote v o info hb hi =>
    intro o ho
    rw [List.mem_singleton.1 ho, hi]
    exact fun e he hle => hr e.opNum e (InMemOpLogHandler.mem_getLog.1 he) hle
  | startPrimary v votes cand kvMap ops hb hv hq hc hn hR hA ha hs =>
    subst hv
    have hcand : Obs.Flagged (.voted cand.replicaId cand) := ht _ (hknown.votes v cand (selectCandidate_mem hc)).2
    intro o ho
    rcases mem_applied_append ho with ⟨_, _, rfl⟩ | ho
    · trivial
    · rw [List.mem_singleton.1 ho]
      intro e he hle
      rw [Replica.viewStartInfo, InMemOpLogHandler.mem_getLog] at he
      exact hcand e (InMemOpLogHandler.mem_of_getLogEntry_setLog he).1 hle
  | startBackup =>
    intro o ho
    rcases mem_applied_append ho with ⟨_, _, rfl⟩ | ho
    · trivial
    · rw [List.mem_singleton.1 ho]
      trivial
  | _ => simp [Obs.Flagged]

theorem Moves.flagged_all (hR : R.Strict) (hpass : ∀ a b, R.pass a b = true → b = a + 1) (h : Moves n R c tr) :
    (∀ i, (c.reps i).Flagged) ∧ ∀ o ∈ tr, o.Flagged := by
  have hfresh : ∀ r : Replica, r.log = .empty → r.Flagged := fun r hl k e he => by
    rw [hl, InMemOpLogHandler.getLogEntry_empty] at he
    cases he
  have hall := h.invariant (P := fun _ _ r => r.Flagged) (Q := fun _ _ => True) (T := fun _ o => o.Flagged)
    (fun _ _ _ _ _ h => h) (fun _ _ _ h => h) (fun _ _ _ h => h) (fun i => hfresh _ rfl) (fun _ _ _ h => h)
    (fun _ _ i _ flag _ => hfresh _ rfl) ?_
  · exact ⟨hall.1, hall.2.2⟩
  intro c tr i p r' sent os hM hP _ hT _ _ m
  obtain ⟨k, hk⟩ := (hM.lists hR.atomic (fun _ _ h => hR.endsAtOpNum h)).1 i
  exact ⟨m.flagged_rep hM hR.atomic hpass hk (hP i) hT, fun _ _ => trivial, m.flagged_obs hM (hP i) hT⟩

theorem Moves.flagged (hR : R.Strict) (hpass : ∀ a b, R.pass a b = true → b = a + 1) (h : Moves n R c tr) :
    ∀ o ∈ tr, o.Flagged := (h.flagged_all hR hpass).2

end

/-- `updateNewView(viewNum, isPrimary)` returns, and the log it leaves has the entry at the old commit number
committed. -/
def Replica.PassesNewView (r : Replica) (viewNum : Nat) (isPrimary : Bool) (now : Nat) : Prop :=
  ∃ s, r.updateNewView viewNum isPrimary now = some s ∧
    ∃ e, s.rep.log.getLogEntry r.commitNum = some e ∧ e.committed = true

/-- What a replica takes up lists `1 .. opNum`, all of them committed, and reaches its commit number. -/
structure Replica.Covered (r : Replica) (info : ViewStartInfo) : Prop where
  opNums : info.opLog.map LogEntry.opNum = List.range' 1 info.opNum
  committed : ∀ e ∈ info.opLog, e.committed = true
  le : r.commitNum ≤ info.opNum

namespace Replica.Covered

variable {r : Replica} {info : ViewStartInfo}

theorem nodup (h : r.Covered info) : (info.opLog.map LogEntry.opNum).Nodup := by
  rw [h.opNums]
  exact List.nodup_range'

theorem getLogEntry (h : r.Covered info) {k : Nat} (h1 : 1 ≤ k) (hk : k ≤ info.opNum) :
    ∃ e, (InMemOpLogHandler.setLog info.opLog).getLogEntry k = some e ∧ e.committed = true := by
  have hm : k ∈ info.opLog.map LogEntry.opNum := by
    rw [h.opNums, List.mem_range'_1]
    omega
  obtain ⟨e, he, rfl⟩ := List.mem_map.1 hm
  exact ⟨e, InMemOpLogHandler.getLogEntry_setLog_of_mem h.nodup he, h.committed e he⟩

theorem adopts (h : r.Covered info) (h1 : 1 ≤ r.commitNum) : ∃ kvMap ops, r.Adopts info kvMap ops := by
  have hlen : info.opLog.length = info.opNum := by
    rw [← List.length_map (f := LogEntry.opNum), h.opNums, List.length_range']
  have hread : ∀ k ∈ List.range' (r.commitNum + 1) ((InMemOpLogHandler.setLog info.opLog).logSize - (r.commitNum + 1)),
      ∃ e, (InMemOpLogHandler.setLog info.opLog).getLogEntry k = some e := fun k hk => by
    rw [InMemOpLogHandler.logSize_setLog h.nodup, hlen, List.mem_range'_1] at hk
    obtain ⟨e, he, -⟩ := h.getLogEntry (k := k) (by omega) (by omega)
    exact ⟨e, he⟩
  obtain ⟨ops, hops⟩ := replay_eq _ r.kvMap hread
  exact ⟨_, ops, h.getLogEntry h1 h.le, hops⟩

end Replica.Covered

theorem Replica.TakesUp.adopts {r : Replica} {viewNum now : Nat} {b : Bool} {info : ViewStartInfo} {s : Step}
    (ht : r.TakesUp viewNum b info) (h : r.updateNewView viewNum b now = some s) :
    ∃ kvMap ops, r.Adopts info kvMap ops := by
  cases ht with
  | primary candidate hq hc hn =>
    obtain ⟨candidate', kvMap, ops, -, hc', -, ha, -⟩ := updateNewView_true h
    obtain rfl := Option.some.inj (hc.symm.trans hc')
    exact ⟨kvMap, ops, ha⟩
  | backup info hi hn =>
    obtain ⟨info', kvMap, ops, hi', -, ha, -⟩ := updateNewView_false h
    obtain rfl := Option.some.inj (hi.symm.trans hi')
    exact ⟨kvMap, ops, ha⟩

/-- **The assertions on a log that covers the replica**: they pass but for the number no log lists. -/
theorem Replica.TakesUp.passes_iff {r : Replica} {viewNum now : Nat} {b : Bool} {info : ViewStartInfo}
    (ht : r.TakesUp viewNum b info) (h : r.Covered info) : r.PassesNewView viewNum b now ↔ 1 ≤ r.commitNum := by
  constructor
  · rintro ⟨s, hs, -⟩
    obtain ⟨kvMap, ops, ha⟩ := ht.adopts hs
    obtain ⟨e, he, -⟩ := ha.entry
    obtain ⟨hm, hn⟩ := InMemOpLogHandler.mem_of_getLogEntry_setLog he
    have hk : e.opNum ∈ info.opLog.map LogEntry.opNum := List.mem_map_of_mem hm
    rw [h.opNums, List.mem_range'_1, hn] at hk
    exact hk.1
  · intro h1
    obtain ⟨kvMap, ops, ha⟩ := h.adopts h1
    obtain ⟨s, hs, hrep⟩ := ht.updateNewView ha now
    refine ⟨s, hs, ?_⟩
    rw [hrep]
    exact ha.entry

section

variable {n : Nat} {R : Rules} {c : Cluster} {tr : List Obs}

/-- What a replica has committed before view `w`, the start of that view reaches. -/
theorem Cluster.Follows.commit_le {s s' : State Op} (hf : c.Follows True s tr) (hs : Reach n True s)
    (hs' : Reach n True s')
    (g : Grows s s') {i w : Nat} {S : Start Op} (hlive : (c.reps i).status ≠ .recovering) (hS : s'.start w = some S)
    (hw : (c.reps i).viewNum < w ∨ ((c.reps i).hb ≠ .idle ∧ (c.reps i).viewNum = w)) :
    (c.reps i).commitNum ≤ S.top := by
  have hr := hf.rep i hlive
  rw [← hr.commit]
  refine hs.commit_le_start trivial hs' g hS ?_
  rcases hw with hw | ⟨hb, rfl⟩
  · have := hs.core.last_le i
    rw [hr.view] at this
    omega
  · exact hr.changing hb

/-- The `StartView` a backup takes up covers it. -/
theorem Moves.covered_backup (hM : Moves n R c tr) (hR : R.Strict) (hpass : ∀ a b, R.pass a b = true → b = a + 1)
    {i w : Nat}
    {info : ViewStartInfo} (hi : (c.reps i).viewStartInfoMap.lookup w = some info)
    (hlive : (c.reps i).status ≠ .recovering)
    (hw : (c.reps i).viewNum < w ∨ ((c.reps i).hb ≠ .idle ∧ (c.reps i).viewNum = w)) :
    info.viewNum = w ∧ (c.reps i).Covered info := by
  obtain ⟨hv, hnew, -⟩ := (hM.known.1 i).starts w info hi
  obtain ⟨s, hs, hf⟩ := hM.refines_strict hR
  obtain ⟨hS, hc, -⟩ := hf.seen _ hnew
  obtain ⟨hl, -⟩ := (hM.lists hR.atomic (fun _ _ h => hR.endsAtOpNum h)).2 _ hnew
  refine ⟨hv, hl, fun e he => ?_, hf.commit_le hs hs (.refl s) hlive (hv ▸ hS) hw⟩
  have hk : e.opNum ∈ info.opLog.map LogEntry.opNum := List.mem_map_of_mem he
  rw [hl, List.mem_range'_1] at hk
  exact hM.flagged hR hpass _ hnew e he (by omega)

/-- The vote a candidate picks covers it. -/
theorem Moves.covered_primary (hM : Moves n R c tr) (hR : R.Strict) (hpass : ∀ a b, R.pass a b = true → b = a + 1)
    {i w : Nat}
    (hi : i < n) (hb : (c.reps i).hb = .doWait w) (hq : (c.reps i).getMajorityCnt ≤ ((c.reps i).votesFor w).length)
    (hs : noneLeft ((c.reps i).votesFor w) = true ∧ picksNewest (lastNormal tr w) ((c.reps i).votesFor w) = true) :
    ∃ cand, selectCandidate ((c.reps i).votesFor w) = some cand ∧ cand.viewNum = w ∧
      (c.reps i).Covered ((c.reps i).startInfo cand) := by
  obtain ⟨cand, hc, -⟩ := (Option.any_eq_true _ _).1 hs.2
  have hmem := selectCandidate_mem hc
  obtain ⟨hv, hvoted⟩ := (hM.known.1 i).votes w cand hmem
  obtain ⟨s, hreach, hf⟩ := hM.refines_strict hR
  obtain ⟨-, hop, -⟩ := hf.votesFor hM hmem
  obtain ⟨k, hl, hk⟩ := (hM.lists hR.atomic (fun _ _ h => hR.endsAtOpNum h)).2 _ hvoted
  have hend : ∀ e ∈ cand.opLog, e.opNum ≤ cand.opNum := by
    have := List.all_eq_true.1 hs.1 cand hmem
    simpa only [List.all_eq_true, decide_eq_true_eq] using this
  obtain rfl := lists_eq hl (by omega) hend
  -- the view starts: its step is there to take
  have hstep := hf.takes hM (.inl hR.atomic) hR.called hi hb hq hc (fun _ => hs)
  have hle := hf.commit_le hreach (hreach.step hstep) (hreach.core.grows hstep)
    ((hM.hbOk i).live (w := w) (by rw [hb]; rfl)) (Function.update_self w _ s.start)
    (.inr ⟨by rw [hb]; simp, ((hM.views i).hb_view w (by rw [hb]; rfl)).1.symm⟩)
  refine ⟨cand, hc, hv, hl, fun e he => ?_, by rw [← hop] at hle; exact hle⟩
  exact hM.flagged hR hpass _ hvoted e he (by rw [← hop]; exact hend e he)

end

/-- No more votes are counted than stored, also when the one that waits to be counted is, if it still is stored. -/
structure Replica.CountsVotes (r : Replica) : Prop where
  le : ∀ w, r.doViewChangeMap.cnt w ≤ (r.votesFor w).length
  lt : ∀ info, r.listener = some (.doViewChange info) → info ∈ r.votesFor info.viewNum →
    r.doViewChangeMap.cnt info.viewNum < (r.votesFor info.viewNum).length
  other : ∀ info, r.listener = some (.doViewChange info) → info.replicaId ≠ r.id

namespace Replica.CountsVotes

variable {r r' : Replica}

/-- Without a vote that waits to be counted. -/
theorem counted (hle : ∀ w, r.doViewChangeMap.cnt w ≤ (r.votesFor w).length)
    (hl : ∀ info, r.listener ≠ some (.doViewChange info)) : r.CountsVotes :=
  ⟨hle, fun info hi => absurd hi (hl info), fun info hi => absurd hi (hl info)⟩

theorem cleared (hc : r.doViewChangeMap = ∅) (hl : ∀ info, r.listener = some (.doViewChange info) →
    info ∉ r.votesFor info.viewNum ∧ info.replicaId ≠ r.id) : r.CountsVotes where
  le := fun w => by
    rw [hc, WaitMap.cnt_empty]
    exact Nat.zero_le _
  lt := fun info hi hm => absurd hm (hl info hi).1
  other := fun info hi => (hl info hi).2

theorem move (hR : R.counted = true) {tr : List Obs} {msg : Option Msg} {sent : List Packet} {os : List Obs}
    (h : r.CountsVotes) (hmsg : ∀ info, msg = some (.doViewChange info) → info.replicaId ≠ r.id)
    (m : Move R tr r msg r' sent os) : r'.CountsVotes := by
  obtain ⟨hle, hlt, hother⟩ := h
  cases m with
  | vote v o info hb hi =>
    refine ⟨fun w => ?_, fun x hx hm => ?_, hother⟩
    · show (r.doViewChangeMap.bump v).cnt w ≤ List.length (_ : List ViewChangeInfo)
      rw [Replica.votesFor, r.votesFor_push, WaitMap.cnt_bump]
      split
      · rw [List.length_append]
        exact Nat.succ_le_succ (hle w)
      · exact hle w
    · -- its own is not the one that waits
      have hne : x ≠ info := fun he => hother x hx (by rw [he, hi])
      show (r.doViewChangeMap.bump v).cnt x.viewNum < List.length (_ : List ViewChangeInfo)
      rw [Replica.votesFor, r.votesFor_push] at hm ⊢
      rw [WaitMap.cnt_bump]
      by_cases hv : x.viewNum = v
      · rw [if_pos hv] at hm ⊢
        rw [if_pos hv, List.length_append]
        have hmem := (List.mem_append.1 hm).resolve_right (fun he => hne (List.mem_singleton.1 he))
        exact Nat.succ_lt_succ (hlt x hx hmem)
      · rw [if_neg hv] at hm ⊢
        rw [if_neg hv]
        exact hlt x hx hm
  | storeVote info hv hs =>
    refine ⟨fun w => ?_, fun x hx hm => ?_, fun x hx => ?_⟩
    · rw [Replica.votesFor, r.votesFor_push]
      split
      · rw [List.length_append]
        exact (hle w).trans (Nat.le_add_right _ _)
      · exact hle w
    · cases hx
      rw [Replica.votesFor, r.votesFor_push, if_pos rfl, List.length_append]
      exact Nat.lt_succ_of_le (hle info.viewNum)
    · cases hx
      exact hmsg info rfl
  | countVote info hi hcnt =>
    refine counted (fun w => ?_) (fun x hx => by cases hx)
    simp only [WaitMap.cnt_bump]
    split
    · subst_vars
      exact hlt info hi (hcnt hR)
    · exact hle w
  | startPrimary | startBackup =>
    exact cleared rfl (fun x hx => ⟨by simp [Replica.votesFor, Replica.adopted], hother x hx⟩)
  | takeOk | countOk | listen | unlisten | commitNext | storeStart => exact counted hle (fun x hx => by cases hx)
  | _ => exact ⟨hle, hlt, hother⟩

end Replica.CountsVotes

theorem Moves.countsVotes (hR : R.counted = true) (hM : Moves n R c tr) (i : Nat) : (c.reps i).CountsVotes := by
  have hfresh : ∀ r : Replica, r.doViewChangeMap = ∅ → r.listener = none → r.CountsVotes := fun r hc hl =>
    .cleared hc (fun info hi => by rw [hl] at hi; cases hi)
  refine (hM.invariant (P := fun _ _ r => r.CountsVotes) (Q := fun _ _ => True) (T := fun _ _ => True)
    (fun _ _ _ _ _ h => h) (fun _ _ _ h => h) (fun _ _ _ h => h) (fun _ => hfresh _ rfl rfl)
    (fun _ _ _ h => ⟨h.le, h.lt, h.other⟩) (fun _ _ _ _ _ _ => hfresh _ rfl rfl) ?_).1 i
  intro c tr i p r' sent os hM hP _ _ _ hp m
  refine ⟨(hP i).move hR (fun info hmsg => ?_) m, fun _ _ => trivial, fun _ _ => trivial⟩
  obtain ⟨q, rfl, hq⟩ := Option.map_eq_some_iff.1 hmsg
  obtain ⟨hmem, hdst⟩ := hp q rfl
  have hknown := hM.known.2.1 q hmem
  rw [Packet.Known, hq, hdst] at hknown
  rw [hM.id_eq i]
  exact hknown.2

/-- A `StartView` is counted for the views that are stored. -/
def Replica.StartCounts (r : Replica) : Prop := ∀ v, r.startViewMap.cnt v ≠ 0 → v ∈ r.viewStartInfoMap

namespace Replica.StartCounts

variable {r r' : Replica}

theorem keep (h : r.StartCounts) (hc : ∀ v, r'.startViewMap.cnt v = r.startViewMap.cnt v)
    (hm : r'.viewStartInfoMap = r.viewStartInfoMap) : r'.StartCounts := fun v hv => by
  rw [hm]
  exact h v (by rwa [← hc v])

theorem act {R : Rules} {i : Nat} (h : r.StartCounts) {a : Act} {now : Nat} {s : Step} (hR : R.counted = true)
    (hok : R.eventOk r (.act i a now) = true) (hs : r.act now a = .ok s) : s.rep.StartCounts := by
  have hclear : ∀ {r' : Replica}, r'.startViewMap = ∅ → r'.StartCounts := fun he v hv => by
    rw [he] at hv
    exact absurd (WaitMap.cnt_empty v) hv
  cases performs_of_act hs with
  | startedPrimary => exact hclear rfl
  | startedBackup => exact hclear rfl
  | enteredJoined => exact hclear rfl
  | chose => exact h.keep (fun v => WaitMap.cnt_touch _ _ v) rfl
  | startCounted newViewNum hi hc =>
    intro v hv
    have hbump : (r.startViewMap.bump newViewNum).cnt v ≠ 0 := hv
    rw [WaitMap.cnt_bump] at hbump
    split at hbump
    · subst_vars
      have hm : v ∈ r.viewStartInfoMap := by simpa [Rules.eventOk, hi, hR] using hok
      exact hm
    · exact h v hbump
  | recovered _ nonce _ hb hend =>
    obtain ⟨resp, rfl⟩ := recoverEnd_eq_some hend
    exact h
  | _ => exact h

theorem handle (h : r.StartCounts) {msg : Msg} {now : Nat} {s : Step} (hs : r.handle now msg = .ok s) :
    s.rep.StartCounts := by
  cases handles_of_handle hs with
  | startStored info hv hst hn => exact fun v hcnt => Finmap.mem_insert.2 (.inr (h v hcnt))
  | _ => exact h

end Replica.StartCounts

section

variable {n : Nat} {R : Rules} {c : Cluster} {tr : List Obs}

theorem Cluster.forall_setRep {P : Replica → Prop} (hP : ∀ j, P (c.reps j)) {i : Nat} {r : Replica} (hr : P r)
    (j : Nat) :
    P ((c.setRep i r).reps j) := by
  by_cases hj : j = i
  · subst hj
    rw [setRep_reps_self]
    exact hr
  · rw [setRep_reps_of_ne c r hj]
    exact hP j

theorem Cluster.forall_settle {P : List Obs → Replica → Prop} (hP : ∀ tr os r, P tr r → P (tr ++ os) r)
    (hdown : ∀ tr r, P tr r → P tr { r with up := false }) {i : Nat} {o : Outcome} {c' : Cluster} {os : List Obs}
    (hall : ∀ j, P tr (c.reps j)) (ho : ∀ s, o = .ok s → P (tr ++ s.obs) s.rep)
    (h : c.settle i o = some (c', os)) (j : Nat) : P (tr ++ os) (c'.reps j) := by
  cases o with
  | blocked => cases h
  | abort =>
    cases h
    exact forall_setRep (fun j => hP tr _ _ (hall j)) (hdown _ _ (hP tr _ _ (hall i))) j
  | ok s =>
    cases h
    exact forall_setRep (fun j => hP tr _ _ (hall j)) (ho s rfl) j

/-- **The rule for what one replica keeps**, in every run of the cluster. -/
theorem Runs.forall_rep {P : List Obs → Replica → Prop} (hP : ∀ tr os r, P tr r → P (tr ++ os) r)
    (hinit : ∀ i, P [] (Replica.init n i)) (hrec : ∀ tr i flag, P tr (Replica.recovering n i flag))
    (hdown : ∀ tr r, P tr r → P tr { r with up := false })
    (hact : ∀ c tr i a now s, Runs n R c tr → P tr (c.reps i) → R.eventOk (c.reps i) (.act i a now) = true →
      (c.reps i).act now a = .ok s → P (tr ++ s.obs) s.rep)
    (hhandle : ∀ tr r msg now s, P tr r → r.handle now msg = .ok s → P (tr ++ s.obs) s.rep) (h : Runs n R c tr)
    (i : Nat) : P tr (c.reps i) := by
  refine Run.Reach.invariant (P := fun c tr => ∀ i, P tr (c.reps i)) hinit ?_ h i
  intro c tr e c' os hr hall hok hs
  obtain ⟨hev, -⟩ := Bool.and_eq_true_iff.1 hok
  have hkeep : ∀ j, P (tr ++ os) (c.reps j) := fun j => hP tr os _ (hall j)
  unfold Cluster.system at hs
  cases e with
  | act j a now =>
    simp only [Cluster.step, Option.ite_none_right_eq_some] at hs
    exact Cluster.forall_settle hP hdown hall (fun s ho => hact c tr j a now s hr (hall j) hev ho) hs.2
  | deliver p now =>
    simp only [Cluster.step, Option.ite_none_right_eq_some] at hs
    exact Cluster.forall_settle (c := { c with net := c.net.erase p }) hP hdown hall
      (fun s ho => hhandle tr _ p.msg now s (hall p.dst) ho) hs.2
  | lose p =>
    simp only [Cluster.step, Option.ite_none_right_eq_some] at hs
    cases hs.2
    exact hkeep
  | crash j =>
    simp only [Cluster.step, Option.ite_none_right_eq_some] at hs
    cases hs.2
    exact Cluster.forall_setRep hkeep (hdown _ _ (hkeep j))
  | restart j flag =>
    simp only [Cluster.step, Option.ite_none_right_eq_some] at hs
    cases hs.2
    exact Cluster.forall_setRep hkeep (hrec _ j flag)

theorem Runs.startCounts (hR : R.counted = true) (h : Runs n R c tr) (i : Nat) : (c.reps i).StartCounts :=
  h.forall_rep (P := fun _ r => r.StartCounts) (fun _ _ _ h => h) (fun _ v hv => absurd (WaitMap.cnt_empty v) hv)
    (fun _ _ _ v hv => absurd (WaitMap.cnt_empty v) hv) (fun _ _ h => h)
    (fun _ _ _ _ _ _ _ h hok hs => h.act hR hok hs) (fun _ _ _ _ _ h hs => h.handle hs) i

/-- Somebody has started the view. -/
def ViewStarted (tr : List Obs) (w : Nat) : Prop := ∃ q info, .newView q true info ∈ tr ∧ info.viewNum = w

theorem ViewStarted.mono {os : List Obs} {w : Nat} : ViewStarted tr w → ViewStarted (tr ++ os) w :=
  fun ⟨q, info, hm, hv⟩ => ⟨q, info, List.mem_append_left _ hm, hv⟩

theorem Move.of_startView {r r' : Replica} {msg : Option Msg} {sent : List Packet} {os : List Obs} {w : Nat}
    (m : Move R tr r msg r' sent os) (hl : r'.listener = some (.startView w)) :
    r.listener = some (.startView w) ∨ ∃ info, msg = some (.startView info) ∧ info.viewNum = w := by
  cases m with
  | storeStart info =>
    cases hl
    exact .inr ⟨info, rfl, rfl⟩
  | takeOk | countOk | listen | unlisten | commitNext | storeVote | countVote => cases hl
  | _ => exact .inl hl

/-- The `StartView` that waits to be counted is of a view that has started. -/
theorem Moves.listens (h : Moves n R c tr) {i w : Nat} (hl : (c.reps i).listener = some (.startView w)) :
    ViewStarted tr w := by
  refine (h.invariant (P := fun tr _ r => ∀ w, r.listener = some (.startView w) → ViewStarted tr w)
    (Q := fun _ _ => True) (T := fun _ _ => True) (fun _ _ _ _ _ hP w hw => (hP w hw).mono) (fun _ _ _ h => h)
    (fun _ _ _ h => h) (fun _ _ hw => by cases hw) (fun _ _ _ hP w hw => hP w hw)
    (fun _ _ _ _ _ _ _ hw => by cases hw) ?_).1 i w hl
  intro c tr i p r' sent os hM hP _ _ _ hp m
  refine ⟨fun w hw => ?_, fun _ _ => trivial, fun _ _ => trivial⟩
  rcases m.of_startView hw with hold | ⟨info, hmsg, hv⟩
  · exact (hP i w hold).mono
  · obtain ⟨q, rfl, hq⟩ := Option.map_eq_some_iff.1 hmsg
    have hknown := hM.known.2.1 q (hp q rfl).1
    rw [Packet.Known, hq] at hknown
    exact ⟨_, info, List.mem_append_left _ hknown.1, hv⟩

/-- A `StartView` is counted for a view that has started. -/
theorem Runs.started (h : Runs n R c tr) {i w : Nat} (hc : (c.reps i).startViewMap.cnt w ≠ 0) : ViewStarted tr w := by
  refine h.forall_rep (P := fun tr r => ∀ w, r.startViewMap.cnt w ≠ 0 → ViewStarted tr w)
    (fun _ _ _ hP w hw => (hP w hw).mono) (fun _ w hw => absurd (WaitMap.cnt_empty w) hw)
    (fun _ _ _ w hw => absurd (WaitMap.cnt_empty w) hw) (fun _ _ hP w hw => hP w hw)
    (fun c tr i a now s h hP _ hs w hw => ?_) (fun tr r msg now s hP hs w hw => ?_) i w hc
  · cases Replica.performs_of_act hs with
    | startedPrimary | startedBackup | enteredJoined => exact absurd (WaitMap.cnt_empty w) hw
    | chose => exact (hP w (by rwa [← WaitMap.cnt_touch])).mono
    | startCounted newViewNum hi =>
      have hbump : ((c.reps i).startViewMap.bump newViewNum).cnt w ≠ 0 := hw
      rw [WaitMap.cnt_bump] at hbump
      split at hbump
      · subst_vars
        exact (h.moves.listens hi).mono
      · exact (hP w hbump).mono
    | recovered _ nonce _ hb hend =>
      obtain ⟨resp, rfl⟩ := Replica.recoverEnd_eq_some hend
      exact (hP w hw).mono
    | _ => exact (hP w hw).mono
  · exact (hP w (by cases Replica.handles_of_handle hs <;> exact hw)).mono

end

/-- **Replica `i` calls `updateNewView(viewNum, isPrimary)`**, in the state `r`: behind its quorum of
`DoViewChange`s, behind a `StartView`, or at the head of `changeView` for a view that has started. -/
inductive Cluster.Changes (c : Cluster) (i : Nat) : Nat → Bool → Replica → Prop where
  | primary (viewNum : Nat) (h : c.CallsUpdateNewView i viewNum) : Changes c i viewNum true (c.reps i)
  | backup (viewNum : Nat) (hb : (c.reps i).hb = .viewWait viewNum) (hq : (c.reps i).startViewMap.cnt viewNum = 1) :
      Changes c i viewNum false (c.reps i)
  | started (now : Nat) (hl : (c.reps i).repMutexFree = true) (hw : (c.reps i).wantsViewChange now = true)
      (hm : (c.reps i).viewNum + 1 ∈ (c.reps i).viewStartInfoMap) :
      Changes c i ((c.reps i).viewNum + 1) false (c.reps i).entering

/-- **When a view change passes**: in every run that meets the demands of viewstamped replication and commits in order,
every call of `updateNewView`, by a primary whose votes meet them or a backup, passes its assertions exactly when the
replica has committed an operation. -/
theorem new_view_passes {n i viewNum now : Nat} {isPrimary : Bool} {c : Cluster} {tr : List Obs} {r : Replica}
    (h : Runs n Rules.inOrder c tr) (hi : i < n) (hc : c.Changes i viewNum isPrimary r)
    (hs : isPrimary = true → noneLeft (r.votesFor viewNum) = true ∧
      picksNewest (lastNormal tr viewNum) (r.votesFor viewNum) = true) :
    r.PassesNewView viewNum isPrimary now ↔ 1 ≤ r.commitNum := by
  have hM := h.moves
  have hpass : ∀ a b, Rules.inOrder.pass a b = true → b = a + 1 := fun _ _ h => of_decide_eq_true h
  cases hc with
  | primary _ hcall =>
    have hq := hcall.2
    rw [Replica.quorumReached, decide_eq_true_eq] at hq
    replace hq := hq.trans ((hM.countsVotes rfl i).le viewNum)
    obtain ⟨cand, hsel, hv, hcov⟩ := hM.covered_primary Rules.inOrder_strict hpass hi hcall.1 hq (hs rfl)
    exact Replica.TakesUp.passes_iff (.primary cand hq hsel hv) hcov
  | backup _ hb hq =>
    obtain ⟨info, hinfo⟩ := Finmap.mem_iff.1 (h.startCounts rfl i viewNum (by omega))
    obtain ⟨hv, hcov⟩ := hM.covered_backup Rules.inOrder_strict hpass hinfo
      ((hM.hbOk i).live (w := viewNum) (by rw [hb]; rfl))
      (.inr ⟨by rw [hb]; simp, ((hM.views i).hb_view viewNum (by rw [hb]; rfl)).1.symm⟩)
    exact Replica.TakesUp.passes_iff (.backup info hinfo hv) hcov
  | started now' hl hw hm =>
    obtain ⟨info, hinfo⟩ := Finmap.mem_iff.1 hm
    obtain ⟨hv, hcov⟩ := hM.covered_backup Rules.inOrder_strict hpass hinfo (Replica.not_primary_of_wants hw).1
      (.inl (Nat.lt_succ_self _))
    exact Replica.TakesUp.passes_iff (r := (c.reps i).entering) (.backup info hinfo hv) ⟨hcov.1, hcov.2, hcov.3⟩

/-- Replica `1` is about to start view `1` with one committed operation. -/
theorem new_view_passes_three : ∃ c tr, Runs 3 Rules.inOrder c tr ∧ c.Changes 1 1 true (c.reps 1) ∧
    (c.reps 1).PassesNewView 1 true 10 := by
  obtain ⟨c, tr, h, hq⟩ := exists_runs (n := 3) (R := Rules.inOrder) (settledEvents ++ changeEvents.dropLast)
    (fun c tr => decide (c.CallsUpdateNewView 1 1) && decide (1 ≤ (c.reps 1).commitNum) &&
      (noneLeft ((c.reps 1).votesFor 1) && picksNewest (lastNormal tr 1) ((c.reps 1).votesFor 1))) (by decide +kernel)
  simp only [Bool.and_eq_true, decide_eq_true_eq] at hq
  obtain ⟨⟨hcall, h1⟩, hs⟩ := hq
  exact ⟨c, tr, h, .primary 1 hcall, (new_view_passes h (by decide) (.primary 1 hcall) (fun _ => hs)).2 h1⟩

/-- After the acknowledged operation is lost, its old primary hears of view `1`. -/
def deposedEvents : List Event :=
  lostEvents ++ [.deliver ⟨0, .startView ⟨1, [settledEntry, (PrepInfo.ofKey 0 2 1 [slash, 121]).entry], 1, 1, 1⟩⟩ 10,
    .act 0 .startViewCount 10]

/-- The first view change of all fails at replica `1`, which has committed nothing; and a primary that had committed two
operations fails in the view of one that has committed one. -/
theorem new_view_passes_fails :
    (∃ c tr, Runs 3 Rules.env c tr ∧ (∀ i < 3, (c.reps i).up = true) ∧ c.Changes 1 1 true (c.reps 1) ∧
      (c.reps 1).commitNum = 0 ∧ (c.reps 1).updateNewView 1 true 10 = none) ∧
    ∃ c tr, Runs 3 Rules.env c tr ∧ (∀ i < 3, (c.reps i).up = true) ∧ c.Changes 0 1 false (c.reps 0).entering ∧
      (c.reps 0).commitNum = 2 ∧ (c.reps 0).entering.updateNewView 1 false 20 = none := by
  constructor
  · obtain ⟨c, tr, h, hq⟩ := exists_runs (n := 3) (R := Rules.env) electionEvents
      (fun c _ => (List.range 3).all (fun i => (c.reps i).up) && decide (c.CallsUpdateNewView 1 1) &&
        decide ((c.reps 1).commitNum = 0) && ((c.reps 1).updateNewView 1 true 10).isNone) (by decide +kernel)
    simp only [Bool.and_eq_true, List.all_eq_true, List.mem_range, decide_eq_true_eq, Option.isNone_iff_eq_none] at hq
    obtain ⟨⟨⟨hup, hcall⟩, h0⟩, hnone⟩ := hq
    exact ⟨c, tr, h, hup, .primary 1 hcall, h0, hnone⟩
  · obtain ⟨c, tr, h, hq⟩ := exists_runs (n := 3) (R := Rules.env) deposedEvents
      (fun c _ => (List.range 3).all (fun i => (c.reps i).up) && (c.reps 0).repMutexFree &&
        (c.reps 0).wantsViewChange 20 && decide ((c.reps 0).viewNum = 0) &&
        decide (1 ∈ (c.reps 0).viewStartInfoMap) && decide ((c.reps 0).commitNum = 2) &&
        ((c.reps 0).entering.updateNewView 1 false 20).isNone) (by decide +kernel)
    simp only [Bool.and_eq_true, List.all_eq_true, List.mem_range, decide_eq_true_eq, Option.isNone_iff_eq_none] at hq
    obtain ⟨⟨⟨⟨⟨⟨hup, hl⟩, hw⟩, hv⟩, hm⟩, h2⟩, hnone⟩ := hq
    have hch : c.Changes 0 ((c.reps 0).viewNum + 1) false (c.reps 0).entering := .started 20 hl hw (by rwa [hv])
    rw [hv] at hch
    exact ⟨c, tr, h, hup, hch, h2, hnone⟩

end MetaDR
