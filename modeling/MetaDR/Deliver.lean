import MetaDR.Cluster
/-!
# Deliver — a message taken up from its arrival to its end

A handler and what it starts on its own replica, with no other thread in between: a `Commit` gets the lock at once,
a `PrepareOk` that is taken up and what is stored are counted, and a `Prepare` that is queued is popped.  A message that
is refused leaves everything as it was, but for a `Commit`, which has already moved the clock of the failure detector
(`refused_inert`).  A message that is delivered twice is counted, stored or applied twice by most handlers, and
`processStartView` and `processPrepInfo` fail their assertions (`twice_iff`).
-/
namespace MetaDR
namespace Replica

/-- The loop of `processPrepInfo` over its queue. -/
def processPrepReqQ : List PrepInfo → Replica → Option Replica
  | [], r => some r
  | prepInfo :: rest, r =>
    let r' := (r.processPrepInfo prepInfo rest).rep
    if r.prepInfoTest prepInfo = true then
      match r'.processPrepInfoLocked prepInfo with
      | none => none
      | some s => processPrepReqQ rest s.rep
    else processPrepReqQ rest r'

/-- **What a message does to the replica that takes it up**; `none` is a failed assertion. -/
def receive (r : Replica) (now : Nat) : Msg → Option Replica
  | .prepare prepInfo =>
    let r' := (r.processPrepare prepInfo).rep
    if r.status = .normal ∧ prepInfo.viewNum = r.viewNum then processPrepReqQ r'.prepReqQ r' else some r'
  | .prepareOk prepResponse =>
    let r' := (r.processPrepareOk prepResponse).rep
    if r.status = .normal ∧ prepResponse.viewNum = r.viewNum then some (r'.prepareOkCount prepResponse).rep else some r'
  | .commit commitInfo =>
    let r' := (r.processCommit commitInfo now).rep
    if r.status = .normal then (r'.processCommitLocked commitInfo).map Step.rep else some r'
  | .startViewChange viewChangeReq => some (r.processStartViewChange viewChangeReq).rep
  | .doViewChange viewChangeInfo =>
    let r' := (r.processDoViewChange viewChangeInfo).rep
    if viewChangeInfo.viewNum < r.viewNum ∨ r.status = .recovering then some r'
    else some (r'.doViewChangeCount viewChangeInfo).rep
  | .startView viewStartInfo =>
    if viewStartInfo.viewNum < r.viewNum ∨ r.status = .recovering then (r.processStartView viewStartInfo).map Step.rep
    else (r.processStartView viewStartInfo).bind (fun s => (s.rep.startViewCount viewStartInfo.viewNum).map Step.rep)
  | .recoveryRequest recoveryReq => some (r.processRecoveryRequest recoveryReq).rep
  | .recoveryResponse recoveryResp => some (r.processRecoveryResponse recoveryResp).rep

/-- The messages the handlers refuse: of another view, of an older one, or in a status that does not admit them. -/
def Refuses (r : Replica) : Msg → Prop
  | .prepare prepInfo => r.status ≠ .normal ∨ prepInfo.viewNum ≠ r.viewNum
  | .prepareOk prepResponse => r.status ≠ .normal ∨ prepResponse.viewNum ≠ r.viewNum
  | .commit commitInfo => r.status ≠ .normal ∨ commitInfo.viewNum ≠ r.viewNum
  | .startViewChange viewChangeReq => viewChangeReq.viewNum < r.viewNum ∨ r.status = .recovering
  | .doViewChange viewChangeInfo => viewChangeInfo.viewNum < r.viewNum ∨ r.status = .recovering
  | .startView viewStartInfo => viewStartInfo.viewNum < r.viewNum ∨ r.status = .recovering
  | .recoveryRequest _ => r.status ≠ .normal
  | .recoveryResponse _ => r.status ≠ .recovering

/-- The replica with the clock of its failure detector set. -/
def heard (r : Replica) (now : Nat) : Replica := { r with lastCommitTime := now }

theorem heard_eq_self {r : Replica} {now : Nat} : r.heard now = r ↔ now = r.lastCommitTime := by
  constructor
  · intro h
    rw [← h]
    rfl
  · rintro rfl
    rfl

theorem receive_commit (r : Replica) (now : Nat) (commitInfo : CommitInfo) : r.receive now (.commit commitInfo) =
    if r.status = .normal then ((r.heard now).processCommitLocked commitInfo).map Step.rep else some (r.heard now) := by
  unfold receive processCommit
  dsimp only
  split
  · rename_i hs
    rw [if_neg (not_not.2 hs)]
    rfl
  · rfl

/-- What a refused message leaves. -/
def refused (r : Replica) (now : Nat) : Msg → Replica
  | .commit _ => r.heard now
  | _ => r

/-- **A message that is refused** leaves the replica as it was, but for the clock of the failure detector. -/
theorem receive_of_refuses {r : Replica} {now : Nat} {msg : Msg}
    (hl : (∃ commitInfo, msg = .commit commitInfo) → r.listener = none)
    (h : r.Refuses msg) : r.receive now msg = some (r.refused now msg) := by
  cases msg with
  | prepare prepInfo =>
    have hn : ¬ (r.status = .normal ∧ prepInfo.viewNum = r.viewNum) :=
      fun hc => h.elim (fun h => h hc.1) (fun h => h hc.2)
    rw [receive, if_neg hn, processPrepare]
    split
    · rfl
    · rename_i hs
      rw [if_pos (h.resolve_left hs)]
      rfl
  | prepareOk prepResponse =>
    have hn : ¬ (r.status = .normal ∧ prepResponse.viewNum = r.viewNum) := fun hc => h.elim (· hc.1) (· hc.2)
    rw [receive, if_neg hn, processPrepareOk]
    split
    · rfl
    · rename_i hs
      rw [if_pos (h.resolve_left hs)]
      rfl
  | commit commitInfo =>
    rw [receive_commit]
    split
    · rename_i hs
      have hv : commitInfo.viewNum ≠ r.viewNum := h.resolve_left (not_not.2 hs)
      have hr : { r.heard now with listener := none } = r.heard now := by rw [← hl ⟨_, rfl⟩]; rfl
      unfold processCommitLocked
      dsimp only
      rw [if_pos (show commitInfo.viewNum ≠ (r.heard now).viewNum from hv), hr]
      rfl
    · rfl
  | startViewChange viewChangeReq =>
    rw [receive, processStartViewChange]
    split
    · rfl
    · rename_i hv
      rw [if_pos (h.resolve_left hv)]
      rfl
  | doViewChange viewChangeInfo =>
    rw [receive, if_pos (show viewChangeInfo.viewNum < r.viewNum ∨ r.status = .recovering from h), processDoViewChange]
    split
    · rfl
    · rename_i hv
      rw [if_pos (h.resolve_left hv)]
      rfl
  | startView viewStartInfo =>
    rw [receive, if_pos (show viewStartInfo.viewNum < r.viewNum ∨ r.status = .recovering from h), processStartView]
    split
    · rfl
    · rename_i hv
      rw [if_pos (h.resolve_left hv)]
      rfl
  | recoveryRequest recoveryReq => rw [receive, processRecoveryRequest, if_pos (show r.status ≠ .normal from h)]; rfl
  | recoveryResponse recoveryResp =>
    rw [receive, processRecoveryResponse, if_pos (show r.status ≠ .recovering from h)]; rfl

end Replica

/-- **A refused message is inert** exactly when it is not a `Commit`, or the clock has not moved since the last one;
then it does not postpone a view change either. -/
theorem refused_inert {r : Replica} {now : Nat} {msg : Msg} (hl : r.listener = none) (h : r.Refuses msg) :
    (∃ r', r.receive now msg = some r' ∧ r' = r ∧ ∀ t, r'.wantsViewChange t = r.wantsViewChange t) ↔
      ((∃ commitInfo, msg = .commit commitInfo) → now = r.lastCommitTime) := by
  rw [Replica.receive_of_refuses (fun _ => hl) h]
  constructor
  · rintro ⟨r', hr', rfl, -⟩ ⟨commitInfo, rfl⟩
    exact Replica.heard_eq_self.1 (Option.some.inj hr')
  · intro hc
    refine ⟨r, ?_, rfl, fun _ => rfl⟩
    cases msg with
    | commit commitInfo => exact congrArg some (Replica.heard_eq_self.2 (hc ⟨commitInfo, rfl⟩))
    | _ => rfl

/-- Replica `1` of three, `NORMAL` in view `1` under replica `2`. -/
def inViewOne : Replica := { Replica.init 3 1 with viewNum := 1, priId := 2 }

/-- A vote for an old view. -/
theorem refused_inert_three : ∃ r', inViewOne.receive 4 (.doViewChange ⟨0, [], 0, 0, 0, 2⟩) = some r' ∧ r' = inViewOne ∧
    ∀ t, r'.wantsViewChange t = inViewOne.wantsViewChange t := by
  have h : inViewOne.Refuses (.doViewChange ⟨0, [], 0, 0, 0, 2⟩) := Or.inl Nat.zero_lt_one
  exact (refused_inert rfl h).2 (fun ⟨_, hc⟩ => by cases hc)

/-- The replica has not heard from its primary for four seconds; then the primary of view `0` calls. -/
theorem refused_inert_fails : inViewOne.Refuses (.commit ⟨0, 0⟩) ∧ inViewOne.wantsViewChange 4 = true ∧
    ∃ r', inViewOne.receive 4 (.commit ⟨0, 0⟩) = some r' ∧ r' ≠ inViewOne ∧ r'.wantsViewChange 4 = false := by
  refine ⟨Or.inr Nat.zero_ne_one, rfl, _, rfl, fun h => ?_, rfl⟩
  have := congrArg Replica.lastCommitTime h
  cases this

/-- What `processPrepareOk` and `processStartViewChange` do to their counter. -/
def WaitMap.counted (m : WaitMap) (t majority : Nat) : WaitMap :=
  if majority ≤ m.cnt t then m.touch t else (m.touch t).bump t

theorem WaitMap.touch_eq_self {m : WaitMap} {t c : Nat} (h : m.lookup t = some c) : m.touch t = m := by
  refine Finmap.ext_lookup (fun u => ?_)
  rw [touch, lookup_insert_ite]
  split
  · rename_i hu
    rw [hu, h, cnt, h]
    rfl
  · rfl

/-- Counting once more counts nothing exactly when the first time reached the majority. -/
theorem WaitMap.counted_counted {m : WaitMap} {t majority : Nat} :
    (m.counted t majority).counted t majority = m.counted t majority ↔ majority ≤ m.cnt t + 1 := by
  by_cases h : majority ≤ m.cnt t
  · have hm : m.counted t majority = m.touch t := if_pos h
    rw [hm, counted, cnt_touch, if_pos h]
    refine iff_of_true (touch_eq_self (c := m.cnt t) ?_) (by omega)
    rw [touch, lookup_insert_ite, if_pos rfl]
  · have hcnt : ((m.touch t).bump t).cnt t = m.cnt t + 1 := by rw [cnt_bump, if_pos rfl, cnt_touch]
    have hm : m.counted t majority = (m.touch t).bump t := if_neg h
    rw [hm, counted, hcnt]
    split
    · rename_i hm
      refine iff_of_true (touch_eq_self (c := m.cnt t + 1) ?_) hm
      rw [bump, lookup_insert_ite, if_pos rfl, cnt_touch]
    · rename_i hm
      refine iff_of_false (fun he => ?_) hm
      have := congrArg (fun m : WaitMap => m.cnt t) he
      simp only [cnt_bump, cnt_touch, if_true] at this
      omega

namespace Replica

/-- **The message is delivered twice**: no assertion fails, and the second time changes nothing. -/
def Twice (r : Replica) (now now' : Nat) (msg : Msg) : Prop :=
  ∃ r', r.receive now msg = some r' ∧ r'.receive now' msg = some r'

/-- A `Commit` that is new to the replica but is taken up in one step, or one it has nothing to do for. -/
def CommitsOnce (r : Replica) (commitInfo : CommitInfo) : Prop :=
  if commitInfo.commitNum ≤ r.commitNum then
    commitInfo.commitNum = 0 ∨ ∃ e, r.log.getLogEntry commitInfo.commitNum = some e ∧ e.committed = true
  else
    commitInfo.commitNum = r.commitNum + 1 ∨ r.log.hasEntry (r.commitNum + 1) = false ∨
      r.log.hasEntry (r.commitNum + 2) = false

/-- **When a second delivery changes nothing**, by the state before the first. -/
def TwiceSafe (r : Replica) (now now' : Nat) : Msg → Prop
  | .prepare prepInfo => r.Refuses (.prepare prepInfo) ∨ r.isPrimary = true
  | .prepareOk prepResponse =>
    r.Refuses (.prepareOk prepResponse) ∨ r.getMajorityCnt ≤ r.waitMap.cnt prepResponse.opNum + 1
  | .commit commitInfo => now' = now ∧ (r.Refuses (.commit commitInfo) ∨ r.CommitsOnce commitInfo)
  | .startViewChange viewChangeReq =>
    r.Refuses (.startViewChange viewChangeReq) ∨ r.getMajorityCnt ≤ r.viewStartReqMap.cnt viewChangeReq.viewNum + 1
  | msg => r.Refuses msg

theorem twice_of_refuses {r : Replica} {now now' : Nat} {msg : Msg} (hc : ∀ commitInfo, msg ≠ .commit commitInfo)
    (h : r.Refuses msg) : r.Twice now now' msg := by
  have hr : ∀ t, r.receive t msg = some r := fun t => by
    rw [receive_of_refuses (fun ⟨ci, he⟩ => absurd he (hc ci)) h]
    cases msg with
    | commit commitInfo => exact absurd rfl (hc commitInfo)
    | _ => rfl
  exact ⟨r, hr now, hr now'⟩

theorem processPrepReqQ_cons (p : PrepInfo) (rest : List PrepInfo) (r : Replica) : processPrepReqQ (p :: rest) r =
    if r.prepInfoTest p = true then
      ({ r with prepReqQ := rest, ppit := some p }.processPrepInfoLocked p).bind (fun s => processPrepReqQ rest s.rep)
    else processPrepReqQ rest { r with prepReqQ := rest } := by
  rw [processPrepReqQ, processPrepInfo]
  have ht : { r with prepReqQ := rest }.prepInfoTest p = r.prepInfoTest p := rfl
  dsimp only
  rw [ht]
  split
  · show (match { r with prepReqQ := rest, ppit := some p }.processPrepInfoLocked p with
      | none => none
      | some s => processPrepReqQ rest s.rep) = _
    cases { r with prepReqQ := rest, ppit := some p }.processPrepInfoLocked p <;> rfl
  · rfl

theorem processPrepReqQ_primary {r : Replica} (hp : r.isPrimary = true) :
    ∀ l : List PrepInfo, processPrepReqQ l { r with prepReqQ := l } = some { r with prepReqQ := [] }
  | [] => rfl
  | p :: rest => by
    have hp' : { r with prepReqQ := p :: rest }.isPrimary = true := hp
    have ht : { r with prepReqQ := p :: rest }.prepInfoTest p = false := by
      rw [prepInfoTest, hp', Bool.not_true, Bool.false_and, Bool.false_and]
    rw [processPrepReqQ_cons, ht, if_neg Bool.false_ne_true]
    exact processPrepReqQ_primary hp rest

theorem processPrepInfoLocked_eq_some {r : Replica} {p : PrepInfo} {s : Step} (h : r.processPrepInfoLocked p = some s) :
    p.opNum = r.opNum + 1 ∧ s.rep.opNum = p.opNum ∧ s.rep.prepReqQ = r.prepReqQ ∧
      ∀ q, s.rep.prepInfoTest q = r.prepInfoTest q := by
  unfold processPrepInfoLocked at h
  split at h
  · cases h
  · rename_i hn
    cases h
    exact ⟨not_not.1 hn, rfl, rfl, fun _ => rfl⟩

/-- What the queue's thread leaves when the last one of the queue passes its tests. -/
theorem processPrepReqQ_concat {p : PrepInfo} : ∀ {l : List PrepInfo} {r r' : Replica}, r.prepInfoTest p = true →
    processPrepReqQ (l ++ [p]) r = some r' → r'.opNum = p.opNum ∧ r'.prepReqQ = [] ∧ r'.prepInfoTest p = true
  | [], r, r', ht, h => by
    rw [List.nil_append, processPrepReqQ_cons, if_pos ht, Option.bind_eq_some_iff] at h
    obtain ⟨s, hs, hr⟩ := h
    obtain ⟨-, hop, hq, htest⟩ := processPrepInfoLocked_eq_some hs
    cases hr
    exact ⟨hop, hq, (htest p).trans ht⟩
  | x :: l, r, r', ht, h => by
    rw [List.cons_append, processPrepReqQ_cons] at h
    split at h
    · obtain ⟨s, hs, hr⟩ := Option.bind_eq_some_iff.1 h
      obtain ⟨-, -, -, htest⟩ := processPrepInfoLocked_eq_some hs
      exact processPrepReqQ_concat ((htest p).trans ht) hr
    · have ht' : { r with prepReqQ := l ++ [p] }.prepInfoTest p = true := ht
      exact processPrepReqQ_concat ht' h

theorem receive_prepare {r : Replica} {now : Nat} {p : PrepInfo} (h : ¬ r.Refuses (.prepare p)) :
    r.receive now (.prepare p) = processPrepReqQ (r.prepReqQ ++ [p]) { r with prepReqQ := r.prepReqQ ++ [p] } := by
  simp only [Refuses, not_or, not_not] at h
  rw [receive, processPrepare, if_neg (not_not.2 h.1), if_neg (not_not.2 h.2)]
  exact if_pos h

/-- A `Prepare` that is queued is dropped by a primary; elsewhere it is taken up, and the second time its number is
not the next one any more. -/
theorem twice_prepare {r : Replica} {now now' : Nat} {p : PrepInfo} (h : ¬ r.Refuses (.prepare p)) :
    r.Twice now now' (.prepare p) ↔ r.isPrimary = true := by
  constructor
  · rintro ⟨r', hr', hr''⟩
    by_contra hp
    have ht : { r with prepReqQ := r.prepReqQ ++ [p] }.prepInfoTest p = true := by
      simp only [Refuses, not_or, not_not] at h
      have hp' : { r with prepReqQ := r.prepReqQ ++ [p] }.isPrimary = false := Bool.eq_false_iff.2 hp
      rw [prepInfoTest, hp']
      simp [h]
    rw [receive_prepare h] at hr'
    obtain ⟨hop, hq, htest⟩ := processPrepReqQ_concat ht hr'
    have h' : ¬ r'.Refuses (.prepare p) := by
      obtain ⟨-, hst, hview⟩ := prepInfoTest_eq_true.1 htest
      rintro (hs | hv)
      · exact hs hst
      · exact hv hview
    have ht' : { r' with prepReqQ := [p] }.prepInfoTest p = true := htest
    rw [receive_prepare h', hq, List.nil_append, processPrepReqQ_cons, if_pos ht', Option.bind_eq_some_iff] at hr''
    obtain ⟨s, hs, -⟩ := hr''
    obtain ⟨hn, -⟩ := processPrepInfoLocked_eq_some hs
    have hn' : p.opNum = r'.opNum + 1 := hn
    omega
  · intro hp
    have h' : ¬ { r with prepReqQ := [] }.Refuses (.prepare p) := h
    refine ⟨{ r with prepReqQ := [] }, ?_, ?_⟩
    · rw [receive_prepare h]
      exact processPrepReqQ_primary hp _
    · rw [receive_prepare h']
      exact processPrepReqQ_primary hp _

theorem receive_prepareOk {r : Replica} {now : Nat} {resp : PrepResponse} (h : ¬ r.Refuses (.prepareOk resp)) :
    r.receive now (.prepareOk resp) =
      some { r with waitMap := r.waitMap.counted resp.opNum r.getMajorityCnt, listener := none } := by
  simp only [Refuses, not_or, not_not] at h
  have hm : ({ r with waitMap := r.waitMap.touch resp.opNum, listener := none }).getMajorityCnt = r.getMajorityCnt :=
    rfl
  rw [receive, if_pos h, processPrepareOk, if_neg (not_not.2 h.1), if_neg (not_not.2 h.2), WaitMap.counted]
  simp only [prepareOkCount, quiet, quorumReached, decide_eq_true_eq, hm, WaitMap.cnt_touch]
  split <;> rfl

theorem receive_startViewChange {r : Replica} {now : Nat} {req : ViewChangeRequest}
    (h : ¬ r.Refuses (.startViewChange req)) :
    r.receive now (.startViewChange req) =
      some { r with viewStartReqMap := r.viewStartReqMap.counted req.viewNum r.getMajorityCnt } := by
  simp only [Refuses, not_or] at h
  have hm : ({ r with viewStartReqMap := r.viewStartReqMap.touch req.viewNum }).getMajorityCnt = r.getMajorityCnt := rfl
  rw [receive, processStartViewChange, if_neg h.1, if_neg h.2, WaitMap.counted]
  simp only [quorumReached, decide_eq_true_eq, hm, WaitMap.cnt_touch]
  split <;> rfl

/-- An answer is counted twice, unless the first time reached the majority: nothing is kept of its sender. -/
theorem twice_prepareOk {r : Replica} {now now' : Nat} {resp : PrepResponse} (h : ¬ r.Refuses (.prepareOk resp)) :
    r.Twice now now' (.prepareOk resp) ↔ r.getMajorityCnt ≤ r.waitMap.cnt resp.opNum + 1 := by
  have h' : ¬ { r with waitMap := r.waitMap.counted resp.opNum r.getMajorityCnt, listener := none }.Refuses
      (.prepareOk resp) := h
  rw [← WaitMap.counted_counted, Twice, receive_prepareOk h]
  constructor
  · rintro ⟨r', hr', hr''⟩
    cases hr'
    rw [receive_prepareOk h'] at hr''
    exact congrArg Replica.waitMap (Option.some.inj hr'')
  · intro he
    refine ⟨_, rfl, ?_⟩
    rw [receive_prepareOk h']
    exact congrArg (fun m => some { r with waitMap := m, listener := none }) he

theorem twice_startViewChange {r : Replica} {now now' : Nat} {req : ViewChangeRequest}
    (h : ¬ r.Refuses (.startViewChange req)) :
    r.Twice now now' (.startViewChange req) ↔ r.getMajorityCnt ≤ r.viewStartReqMap.cnt req.viewNum + 1 := by
  have h' : ¬ { r with viewStartReqMap := r.viewStartReqMap.counted req.viewNum r.getMajorityCnt }.Refuses
      (.startViewChange req) := h
  rw [← WaitMap.counted_counted, Twice, receive_startViewChange h]
  constructor
  · rintro ⟨r', hr', hr''⟩
    cases hr'
    rw [receive_startViewChange h'] at hr''
    exact congrArg Replica.viewStartReqMap (Option.some.inj hr'')
  · intro he
    refine ⟨_, rfl, ?_⟩
    rw [receive_startViewChange h']
    exact congrArg (fun m => some { r with viewStartReqMap := m }) he

/-- A message that makes something grow each time it is taken up, and is not refused the next time. -/
theorem not_twice_of_lt {msg : Msg} (f : Replica → Nat) (hf : ∀ r t r', ¬ r.Refuses msg → r.receive t msg = some r' →
    f r < f r' ∧ ¬ r'.Refuses msg) {r : Replica} {now now' : Nat} (h : ¬ r.Refuses msg) : ¬ r.Twice now now' msg := by
  rintro ⟨r', hr', hr''⟩
  obtain ⟨-, h'⟩ := hf r now r' h hr'
  exact Nat.lt_irrefl _ (hf r' now' r' h' hr'').1

/-- A vote is stored and counted twice. -/
theorem not_twice_doViewChange {r : Replica} {now now' : Nat} {info : ViewChangeInfo}
    (h : ¬ r.Refuses (.doViewChange info)) :
    ¬ r.Twice now now' (.doViewChange info) := by
  refine not_twice_of_lt (fun r => r.doViewChangeMap.cnt info.viewNum) (fun r t r' h hr => ?_) h
  have hn := not_or.1 h
  rw [receive, if_neg (not_or.2 hn), processDoViewChange, if_neg hn.1, if_neg hn.2] at hr
  cases hr
  refine ⟨?_, h⟩
  show r.doViewChangeMap.cnt info.viewNum < (r.doViewChangeMap.bump info.viewNum).cnt info.viewNum
  rw [WaitMap.cnt_bump, if_pos rfl]
  exact Nat.lt_succ_self _

/-- A `StartView` is stored once, so the second fails the assertion on its absence. -/
theorem not_twice_startView {r : Replica} {now now' : Nat} {info : ViewStartInfo} (h : ¬ r.Refuses (.startView info)) :
    ¬ r.Twice now now' (.startView info) := by
  refine not_twice_of_lt (fun r => r.startViewMap.cnt info.viewNum) (fun r t r' h hr => ?_) h
  have hn := not_or.1 h
  rw [receive, if_neg (not_or.2 hn)] at hr
  obtain ⟨s, hs, hr⟩ := Option.bind_eq_some_iff.1 hr
  obtain ⟨s', hs', rfl⟩ := Option.map_eq_some_iff.1 hr
  rw [processStartView, if_neg hn.1, if_neg hn.2] at hs
  split at hs
  · cases hs
  · cases hs
    unfold startViewCount at hs'
    dsimp only at hs'
    split at hs'
    · cases hs'
      refine ⟨?_, fun hr => hr.elim hn.1 (fun hst => by cases hst)⟩
      show r.startViewMap.cnt info.viewNum < (r.startViewMap.bump info.viewNum).cnt info.viewNum
      rw [WaitMap.cnt_bump, if_pos rfl]
      exact Nat.lt_succ_self _
    · cases hs'

/-- An answer to a recovering replica is counted twice. -/
theorem not_twice_recoveryResponse {r : Replica} {now now' : Nat} {resp : RecoveryResponse}
    (h : ¬ r.Refuses (.recoveryResponse resp)) : ¬ r.Twice now now' (.recoveryResponse resp) := by
  refine not_twice_of_lt (fun r => r.recoveryWaitMap.cnt resp.nonce) (fun r t r' h hr => ?_) h
  have hs : ¬ r.status ≠ .recovering := h
  rw [receive, processRecoveryResponse, if_neg hs] at hr
  cases hr
  refine ⟨?_, h⟩
  show r.recoveryWaitMap.cnt resp.nonce < (r.recoveryWaitMap.bump resp.nonce).cnt resp.nonce
  rw [WaitMap.cnt_bump, if_pos rfl]
  exact Nat.lt_succ_self _

/-- A request is queued twice. -/
theorem not_twice_recoveryRequest {r : Replica} {now now' : Nat} {req : RecoveryRequest}
    (h : ¬ r.Refuses (.recoveryRequest req)) : ¬ r.Twice now now' (.recoveryRequest req) := by
  refine not_twice_of_lt (fun r => r.recoveryReqQ.length) (fun r t r' h hr => ?_) h
  have hs : ¬ r.status ≠ .normal := h
  rw [receive, processRecoveryRequest, if_neg hs] at hr
  cases hr
  refine ⟨?_, h⟩
  show r.recoveryReqQ.length < (r.recoveryReqQ ++ [req]).length
  rw [List.length_append]
  exact Nat.lt_succ_self _

/-- The replica once the listener thread is through with a `Commit` that moved nothing. -/
def listened (r : Replica) (now : Nat) : Replica := { r.heard now with listener := none }

/-- The replica has nothing to do for the `Commit`. -/
def Ignores (r : Replica) (commitInfo : CommitInfo) : Prop :=
  commitInfo.viewNum ≠ r.viewNum ∨ commitInfo.commitNum = 0 ∨
    (commitInfo.commitNum ≤ r.commitNum ∧ ∃ e, r.log.getLogEntry commitInfo.commitNum = some e ∧ e.committed = true) ∨
    (r.commitNum < commitInfo.commitNum ∧ r.log.hasEntry (r.commitNum + 1) = false)

theorem receive_commit_ignores {r : Replica} {now : Nat} {ci : CommitInfo} (hs : r.status = .normal)
    (h : r.Ignores ci) :
    r.receive now (.commit ci) = some (r.listened now) := by
  have hl : (r.heard now).processCommitLocked ci = some (quiet (r.listened now)) := by
    unfold processCommitLocked
    dsimp only
    split
    · rfl
    · rename_i hv
      have hv' : ¬ ci.viewNum ≠ r.viewNum := hv
      split
      · rename_i hle
        have hle' : 0 < ci.commitNum ∧ ci.commitNum ≤ r.commitNum := hle
        rcases h with h | h | ⟨-, e, he, hc⟩ | ⟨h, -⟩
        · exact absurd h hv'
        · omega
        · rw [show (r.heard now).log.getLogEntry ci.commitNum = some e from he]
          exact if_pos hc
        · omega
      · rename_i hle
        have hle' : ¬ (0 < ci.commitNum ∧ ci.commitNum ≤ r.commitNum) := hle
        split
        · rename_i hlt
          have hlt' : r.commitNum < ci.commitNum := hlt
          rcases h with h | h | ⟨h, -⟩ | ⟨-, h⟩
          · exact absurd h hv'
          · omega
          · omega
          · exact if_pos h
        · rfl
  rw [receive_commit, if_pos hs, hl]
  rfl

theorem receive_commit_none {r : Replica} {now : Nat} {ci : CommitInfo} (hs : r.status = .normal)
    (hv : ci.viewNum = r.viewNum) (h0 : 0 < ci.commitNum) (hle : ci.commitNum ≤ r.commitNum)
    (hc : ¬ ∃ e, r.log.getLogEntry ci.commitNum = some e ∧ e.committed = true) : r.receive now (.commit ci) = none := by
  have hl : (r.heard now).processCommitLocked ci = none := by
    unfold processCommitLocked
    dsimp only
    rw [if_neg (not_not.2 (show ci.viewNum = (r.heard now).viewNum from hv)),
      if_pos (show 0 < ci.commitNum ∧ ci.commitNum ≤ (r.heard now).commitNum from ⟨h0, hle⟩)]
    split
    · rfl
    · rename_i e he
      exact if_neg (fun hcom => hc ⟨e, he, hcom⟩)
  rw [receive_commit, if_pos hs, hl]
  rfl

/-- **A `Commit` past the commit number** commits the next entry and nothing else. -/
theorem receive_commit_next {r : Replica} (now : Nat) {ci : CommitInfo} (hs : r.status = .normal)
    (hv : ci.viewNum = r.viewNum) (hlt : r.commitNum < ci.commitNum) (hn : r.log.hasEntry (r.commitNum + 1) = true) :
    ∃ log e kvMap, r.log.commit (r.commitNum + 1) = some log ∧ r.log.getLogEntry (r.commitNum + 1) = some e ∧
      r.receive now (.commit ci) =
        some { r.listened now with commitNum := r.commitNum + 1, log := log, kvMap := kvMap } := by
  obtain ⟨e, he⟩ := InMemOpLogHandler.hasEntry_iff.1 hn
  obtain ⟨log, hlog⟩ := InMemOpLogHandler.commit_isSome he
  obtain ⟨e', he', -, hget⟩ := InMemOpLogHandler.commit_eq_some hlog
  have hnew : log.getLogEntry (r.commitNum + 1) = some { e' with committed := true } := by rw [hget, if_pos rfl]
  refine ⟨log, e, ({ e' with committed := true } : LogEntry).op.apply r.kvMap, hlog, he, ?_⟩
  have hl : (r.heard now).processCommitLocked ci = some
      ⟨{ r.listened now with
        commitNum := r.commitNum + 1, log := log,
        kvMap := ({ e' with committed := true } : LogEntry).op.apply r.kvMap }, [],
        [.applied r.id (r.commitNum + 1) ({ e' with committed := true } : LogEntry).op]⟩ := by
    unfold processCommitLocked
    dsimp only
    rw [if_neg (not_not.2 (show ci.viewNum = (r.heard now).viewNum from hv)),
      if_neg (show ¬ (0 < ci.commitNum ∧ ci.commitNum ≤ (r.heard now).commitNum) from fun h => Nat.not_lt.2 h.2 hlt),
      if_pos (show (r.heard now).commitNum < ci.commitNum from hlt),
      show (r.heard now).log.hasEntry ((r.heard now).commitNum + 1) = true from hn,
      if_neg (show ¬ true = false by simp),
      show (r.heard now).log.commit ((r.heard now).commitNum + 1) = some log from hlog]
    dsimp only
    rw [show log.getLogEntry ((r.heard now).commitNum + 1) = _ from hnew]
    rfl
  rw [receive_commit, if_pos hs, hl]
  rfl

theorem hasEntry_commit {log log' : InMemOpLogHandler} {n k : Nat} (h : log.commit n = some log') :
    log'.hasEntry k = log.hasEntry k := by
  obtain ⟨e, he, -, hget⟩ := InMemOpLogHandler.commit_eq_some h
  rw [Bool.eq_iff_iff, InMemOpLogHandler.hasEntry_iff, InMemOpLogHandler.hasEntry_iff, hget]
  split
  · rename_i hk
    rw [hk, he]
    simp
  · rfl

theorem receive_commit_time {r r' : Replica} {now : Nat} {ci : CommitInfo} (h : r.receive now (.commit ci) = some r') :
    r'.lastCommitTime = now := by
  by_cases hs : r.status = .normal
  · by_cases hi : r.Ignores ci
    · rw [receive_commit_ignores hs hi] at h
      cases h
      rfl
    · simp only [Ignores, not_or, not_and, not_not, Bool.not_eq_false] at hi
      obtain ⟨hv, h0, hle, hlt⟩ := hi
      rcases Nat.lt_or_ge r.commitNum ci.commitNum with hc | hc
      · obtain ⟨log, e, kvMap, -, -, hr⟩ := receive_commit_next now hs hv hc (hlt hc)
        rw [hr] at h
        cases h
        rfl
      · rw [receive_commit_none hs hv (Nat.pos_of_ne_zero h0) hc (hle hc)] at h
        cases h
  · rw [receive_commit, if_neg hs] at h
    cases h
    rfl

/-- **A `Commit` delivered twice**, by what is behind it in the log. -/
theorem twice_commit {r : Replica} {now now' : Nat} {ci : CommitInfo} :
    r.Twice now now' (.commit ci) ↔ now' = now ∧ (r.Refuses (.commit ci) ∨ r.CommitsOnce ci) := by
  constructor
  · rintro ⟨r', hr', hr''⟩
    obtain rfl : now' = now := (receive_commit_time hr'').symm.trans (receive_commit_time hr')
    refine ⟨rfl, ?_⟩
    by_contra hn
    simp only [Refuses, not_or, not_not] at hn
    obtain ⟨⟨hs, hv⟩, hn⟩ := hn
    unfold CommitsOnce at hn
    split at hn
    · rename_i hle
      obtain ⟨h0, hc⟩ := not_or.1 hn
      rw [receive_commit_none hs hv (Nat.pos_of_ne_zero h0) hle hc] at hr'
      cases hr'
    · -- the second delivery commits the entry after the next one
      rename_i hlt
      simp only [not_or, Bool.not_eq_false] at hn
      obtain ⟨hne, h1, h2⟩ := hn
      obtain ⟨log, e, kvMap, hlog, he, hr⟩ := receive_commit_next now' hs hv (by omega) h1
      obtain rfl := Option.some.inj (hr.symm.trans hr')
      obtain ⟨log', e', kvMap', -, -, hr₂⟩ := receive_commit_next now'
        (r := { r.listened now' with commitNum := r.commitNum + 1, log := log, kvMap := kvMap }) hs hv
        (show r.commitNum + 1 < ci.commitNum by omega) ((hasEntry_commit hlog).trans h2)
      have := congrArg Replica.commitNum (Option.some.inj (hr₂.symm.trans hr''))
      exact absurd this (Nat.succ_ne_self _)
  · rintro ⟨rfl, h⟩
    by_cases hs : r.status = .normal
    · by_cases hi : r.Ignores ci
      · have hi' : (r.listened now').Ignores ci := hi
        exact ⟨r.listened now', receive_commit_ignores hs hi, receive_commit_ignores hs hi'⟩
      · simp only [Ignores, not_or, not_and, not_not, Bool.not_eq_false] at hi
        obtain ⟨hv, h0, hle, hlt⟩ := hi
        have hc := h.resolve_left (fun hc => hc.elim (fun hc => hc hs) (fun hc => hc hv))
        unfold CommitsOnce at hc
        split at hc
        · rename_i hcle
          exact absurd (hc.resolve_left h0) (hle hcle)
        · rename_i hclt
          obtain ⟨log, e, kvMap, hlog, he, hr⟩ := receive_commit_next now' hs hv (by omega) (hlt (by omega))
          obtain ⟨e', he', -, hget⟩ := InMemOpLogHandler.commit_eq_some hlog
          refine ⟨_, hr, receive_commit_ignores hs (.inr (.inr ?_))⟩
          by_cases hcn : ci.commitNum = r.commitNum + 1
          · refine .inl ⟨hcn.le, { e' with committed := true }, ?_, rfl⟩
            rw [hcn]
            exact (hget _).trans (if_pos rfl)
          · refine .inr ⟨show r.commitNum + 1 < ci.commitNum by omega, ?_⟩
            have h1 := hlt (by omega)
            exact (hasEntry_commit hlog).trans ((hc.resolve_left hcn).resolve_left (by rw [h1]; exact Bool.noConfusion))
    · refine ⟨r.heard now', ?_, ?_⟩
      · rw [receive_commit, if_neg hs]
      · rw [receive_commit, if_neg (show ¬ (r.heard now').status = .normal from hs)]
        rfl

end Replica

/-- **Delivered twice** is the same as delivered once exactly when the message is refused, when it is a `Prepare` for
a primary or completes a majority, or when it is a `Commit` that finds the clock as it was and no second entry to
commit. -/
theorem twice_iff (r : Replica) (now now' : Nat) (msg : Msg) : r.Twice now now' msg ↔ r.TwiceSafe now now' msg := by
  by_cases hr : r.Refuses msg
  · cases msg with
    | prepare p => exact iff_of_true (Replica.twice_of_refuses (fun _ h => by cases h) hr) (.inl hr)
    | prepareOk resp => exact iff_of_true (Replica.twice_of_refuses (fun _ h => by cases h) hr) (.inl hr)
    | commit ci => exact Replica.twice_commit
    | startViewChange req => exact iff_of_true (Replica.twice_of_refuses (fun _ h => by cases h) hr) (.inl hr)
    | _ => exact iff_of_true (Replica.twice_of_refuses (fun _ h => by cases h) hr) hr
  · cases msg with
    | prepare p => exact (Replica.twice_prepare hr).trans (or_iff_right hr).symm
    | prepareOk resp => exact (Replica.twice_prepareOk hr).trans (or_iff_right hr).symm
    | commit ci => exact Replica.twice_commit
    | startViewChange req => exact (Replica.twice_startViewChange hr).trans (or_iff_right hr).symm
    | doViewChange info => exact iff_of_false (Replica.not_twice_doViewChange hr) hr
    | startView info => exact iff_of_false (Replica.not_twice_startView hr) hr
    | recoveryRequest req => exact iff_of_false (Replica.not_twice_recoveryRequest hr) hr
    | recoveryResponse resp => exact iff_of_false (Replica.not_twice_recoveryResponse hr) hr

/-- A primary of five that has sent operation `1` and counted itself. -/
def awaiting : Replica := { Replica.init 5 0 with opNum := 1, waitMap := Finmap.singleton 1 1 }

/-- Replica `1` answers twice, and the primary has its majority of three. -/
theorem twice_iff_fails : ¬ awaiting.Twice 0 0 (.prepareOk ⟨0, 1, 1⟩) ∧
    (awaiting.receive 0 (.prepareOk ⟨0, 1, 1⟩)).any (fun r => !r.quorumReached (r.waitMap.cnt 1) &&
      (r.receive 0 (.prepareOk ⟨0, 1, 1⟩)).any (fun r => r.quorumReached (r.waitMap.cnt 1))) = true := by
  refine ⟨fun h => ?_, by decide +kernel⟩
  have hr : ¬ awaiting.Refuses (.prepareOk ⟨0, 1, 1⟩) := fun hc => hc.elim (fun hc => hc rfl) (fun hc => hc rfl)
  exact absurd ((Replica.twice_prepareOk hr).1 h) (by decide +kernel)

end MetaDR
