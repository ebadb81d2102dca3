import MetaDR.Performs
/-!
# Sections — every section is a chain of moves

Whatever a section performs or a handler does is a chain of a few moves (`Replica.chain_act`, `Replica.chain_handle`),
under the rules that the event and the observations keep.
-/
namespace MetaDR

section

variable {R : Rules} {tr : List Obs} {r : Replica}

theorem Move.idle (msg : Option Msg) : Move R tr r msg r [] [] :=
  .minor msg r.lastCommitTime r.viewStartReqMap r.startViewMap r.recoveryWaitMap r.waitMap
    r.recoveryRespMap r.respViewCnt r.receivedRespFromPri (fun _ => rfl)

theorem Chain.append {msg : Option Msg} {r' r'' : Replica} {sent sent' : List Packet} {os os' : List Obs}
    (h : Chain R tr r msg r' sent os) (h' : Chain R (tr ++ os) r' none r'' sent' os') :
    Chain R tr r msg r'' (sent ++ sent') (os ++ os') := by
  induction h' with
  | one h' => exact h.more h'
  | more _ h'' ih =>
    rw [← List.append_assoc, ← List.append_assoc]
    exact ih.more (by rwa [List.append_assoc] at h'')

theorem Chain.touched {msg : Option Msg} {r' : Replica} {sent : List Packet} {os : List Obs} {n : Nat}
    (h : Chain R tr r msg r' sent os) : Chain R tr r msg { r' with waitMap := r'.waitMap.touch n } sent os := by
  have := h.more (.minor none r'.lastCommitTime r'.viewStartReqMap r'.startViewMap r'.recoveryWaitMap
    (r'.waitMap.touch n) r'.recoveryRespMap r'.respViewCnt r'.receivedRespFromPri (fun t => WaitMap.cnt_touch _ n t))
  rwa [List.append_nil, List.append_nil] at this

end

/-- What `tidied` adds to a move. -/
theorem Chain.tidied {R : Rules} {tr : List Obs} {r r' : Replica} {msg : Option Msg} {sent : List Packet}
    {os : List Obs}
    {now : Nat}
    (h : Chain R tr r msg r' sent os) : Chain R tr r msg (r'.tidied now) sent os := by
  have := h.more (.minor none now ∅ ∅ r'.recoveryWaitMap r'.waitMap r'.recoveryRespMap r'.respViewCnt
    r'.receivedRespFromPri (fun _ => rfl))
  rwa [List.append_nil, List.append_nil] at this

namespace Replica

variable {R : Rules} {tr : List Obs} {r : Replica}

/-- The end of `replicate`, whatever thread position the state still names. -/
theorem move_passed {tr' : List Obs} {r' : Replica} {req : Req} {m : Mutation} {prepInfo : PrepInfo}
    {log : InMemOpLogHandler}
    (hq : R.notified = true → r.getMajorityCnt ≤ r.waitMap.cnt prepInfo.opNum)
    (hl : r.log.commit prepInfo.opNum = some log) (hR : (r.passed req m prepInfo log).obs.all (R.obsOk tr' r') = true)
    (hr : r'.commitNum = r.commitNum) :
    Move R tr { r with client := .waiting req m prepInfo } none (r.passed req m prepInfo log).rep
      (r.passed req m prepInfo log).sent (r.passed req m prepInfo log).obs := by
  refine .passQuorum (r := { r with client := .waiting req m prepInfo }) req m prepInfo log rfl hq ?_ hl
  simpa [passed, Rules.obsOk, hr] using hR

/-- `updateNewView(viewNum, true)`, whatever thread position the state still names. -/
theorem chain_started {viewNum now : Nat} {candidate : ViewChangeInfo} {kvMap : KvMap} {ops : List (Nat × Op)}
    (hq : r.getMajorityCnt ≤ ((r.viewChangeInfoMap.lookup viewNum).getD []).length)
    (hc : selectCandidate ((r.viewChangeInfoMap.lookup viewNum).getD []) = some candidate)
    (hn : candidate.viewNum = viewNum)
    (ha : r.Adopts (r.startInfo candidate) kvMap ops) (hs : ops ≠ [] → r.client = .idle)
    (hR : (r.started candidate kvMap ops now).obs.all (R.obsOk tr r) = true) :
    Chain R tr { r with hb := .doWait viewNum } none (r.started candidate kvMap ops now).rep
      (r.started candidate kvMap ops now).sent (r.started candidate kvMap ops now).obs := by
  simp only [started, List.all_append, List.all_cons, List.all_nil, Bool.and_true, Bool.and_eq_true] at hR
  have hnew := hR.2
  simp only [Rules.obsOk, Bool.and_eq_true, Bool.not_true, Bool.false_or] at hnew
  obtain ⟨hA, hstart⟩ := hnew
  rw [show (r.viewStartInfo candidate).viewNum = viewNum from hn] at hstart
  exact Chain.tidied (.one (.startPrimary (r := { r with hb := .doWait viewNum }) viewNum _ candidate kvMap ops rfl rfl
    hq hc hn hstart hA ⟨ha.entry, ha.replay⟩ hs))

/-- `updateNewView(viewNum, false)`, likewise. -/
theorem chain_joined {viewNum now : Nat} {info : ViewStartInfo} {kvMap : KvMap} {ops : List (Nat × Op)} {hb : HbPc}
    (hi : r.viewStartInfoMap.lookup viewNum = some info) (hn : info.viewNum = viewNum) (ha : r.Adopts info kvMap ops)
    (hs : ops ≠ [] → r.client = .idle) (hhb : hb = .viewWait viewNum ∨ ∃ o, hb = .startSent viewNum o)
    (hR : R.adopt r.commitNum info = true) :
    Chain R tr { r with hb := hb } none (r.joined info kvMap ops now).rep (r.joined info kvMap ops now).sent
      (r.joined info kvMap ops now).obs :=
  Chain.tidied
    (.one (.startBackup (r := { r with hb := hb }) viewNum info kvMap ops hhb hi hn hR ⟨ha.entry, ha.replay⟩ hs))

theorem adopt_of_obsOk {os : List Obs} {q : Nat} {info : ViewStartInfo} (hR : os.all (R.obsOk tr r) = true)
    (hm : .newView q false info ∈ os) : R.adopt r.commitNum info = true := by
  have := List.all_eq_true.1 hR _ hm
  simpa [Rules.obsOk] using this

theorem move_vote {newViewNum oldViewNum : Nat}
    (hb : r.hb = .startSent newViewNum oldViewNum ∨ r.hb = .startWait newViewNum oldViewNum) :
    Move R tr r none (r.vote newViewNum oldViewNum).rep (r.vote newViewNum oldViewNum).sent
      (r.vote newViewNum oldViewNum).obs :=
  .vote newViewNum oldViewNum _ hb rfl

/-- One more `StartViewChange` is counted. -/
theorem chain_counting (newViewNum : Nat) :
    Chain R tr r none { r with viewStartReqMap := r.viewStartReqMap.bump newViewNum } [] [] :=
  .one (.minor none r.lastCommitTime _ r.startViewMap r.recoveryWaitMap r.waitMap
    r.recoveryRespMap r.respViewCnt r.receivedRespFromPri (fun _ => rfl))

theorem not_primary_of_wants {now : Nat} (hw : r.wantsViewChange now = true) :
    r.status ≠ .recovering ∧ ¬ (r.isPrimary = true ∧ r.status = .normal) := by
  simp only [wantsViewChange, Bool.and_eq_true, decide_eq_true_eq, Bool.not_eq_true', Bool.and_eq_false_iff] at hw
  refine ⟨hw.1.1, fun hc => ?_⟩
  rcases hw.1.2 with h1 | h1
  · rw [hc.1] at h1
    cases h1
  · simp [hc.2] at h1

/-- **Every section of a thread is a chain of moves.** -/
theorem chain_act {a : Act} {s : Step} {i now : Nat} (h : r.act now a = .ok s)
    (hrec : (∃ t, r.hb = .recoverSent t) → r.status = .recovering)
    (he : R.eventOk r (.act i a now) = true) (hR : s.obs.all (R.obsOk tr r) = true) :
    Chain R tr r none s.rep s.sent s.obs := by
  cases performs_of_act h with
  | replied req res hc hf => exact .one (.reply req res hc hf)
  | locked req m u hc hf hu => exact .one (.lock req m hc hf)
  | refused req m hc hl hs => exact .one (.refuse req m hc hl hs)
  | prepared req m prepInfo hc hl hp hs hi =>
    have ho : prepInfo.op = m.op := by subst hi; cases m <;> rfl
    have hv : prepInfo.viewNum = r.viewNum := by subst hi; rfl
    have hn : prepInfo.opNum = r.opNum + 1 := by subst hi; rfl
    rw [PrepInfo.append_eq]
    exact Chain.touched (.one (.prepare req m prepInfo hc hl hp hs hv hn ho (by simpa [Rules.obsOk] using hR)))
  | waits req m prepInfo hc => exact .one (.countOwn req m prepInfo hc)
  | counted req m prepInfo log hc hq hl =>
    have h1 : Chain R tr r none _ [] [] := .one (.countOwn req m prepInfo hc)
    have h2 : Move R (tr ++ []) _ none _ _ _ :=
      move_passed (r := { r with waitMap := r.waitMap.bump prepInfo.opNum }) (fun _ => hq) hl hR rfl
    exact h1.more h2
  | woken req m prepInfo log hc hl =>
    have hr : { r with client := .waiting req m prepInfo } = r := by rw [← hc]
    have hm : Move R tr { r with client := .waiting req m prepInfo } none (r.passed req m prepInfo log).rep
        (r.passed req m prepInfo log).sent (r.passed req m prepInfo log).obs := by
      refine move_passed (fun hn => ?_) hl hR rfl
      simpa [Rules.eventOk, hc, hn, quorumReached] using he
    rw [hr] at hm
    exact .one hm
  | timedOut req m prepInfo hc => exact .one (.giveUp req m prepInfo hc)
  | finished req m opNum hc => exact .one (.finish req m opNum hc)
  | popped prepInfo rest ppit hp hq ht => exact .one (.pop prepInfo rest ppit hq (ht.imp (fun h => h) And.left))
  | acked prepInfo hp hl hn =>
    simp only [Rules.eventOk, hp, Bool.and_eq_true, Bool.or_eq_true, Bool.not_eq_true', decide_eq_true_eq] at he
    rw [PrepInfo.append_eq]
    refine .one (.ack prepInfo hp hl hn (fun ha => ?_) (fun hk => ?_))
    · exact he.1.resolve_left (by rw [ha]; simp)
    · exact he.2.resolve_left (by rw [hk]; simp)
  | enough resp hi => exact .touched (.one (.unlisten _ hi))
  | okCounted resp hi =>
    have h1 : Chain R tr r none _ [] [.counted r.id resp] := .one (.countOk resp hi (fun hR => by
      simpa [Rules.eventOk, hi, hR] using he))
    refine h1.more (.minor none r.lastCommitTime r.viewStartReqMap r.startViewMap r.recoveryWaitMap
      ((r.waitMap.touch resp.opNum).bump resp.opNum) r.recoveryRespMap r.respViewCnt r.receivedRespFromPri
        (fun t => ?_))
    simp only [WaitMap.cnt_bump, WaitMap.cnt_touch]
  | unlistened commitInfo hi hl => exact .one (.unlisten _ hi)
  | committed commitInfo log entry hi hl hv hn hlog hent hc =>
    refine .one (.commitNext commitInfo log entry hi hl (fun ha => ?_) hv hn hlog hent hc)
    simpa [Rules.eventOk, ha] using he
  | voteCounted info hi =>
    refine .one (.countVote info hi (fun hR => ?_))
    simpa [Rules.eventOk, hi, hR] using he
  | startCounted newViewNum hi hc =>
    have h1 : Chain R tr r none _ [] [] := .one (.unlisten _ hi)
    exact h1.more (.minor none r.lastCommitTime r.viewStartReqMap (r.startViewMap.bump newViewNum) r.recoveryWaitMap
      r.waitMap r.recoveryRespMap r.respViewCnt r.receivedRespFromPri (fun _ => rfl))
  | beat hb hp hs => exact .one (.beat hp hs)
  | entered hl hw =>
    obtain ⟨hs, hp⟩ := not_primary_of_wants hw
    exact .one (.enter _ hl hs hp (.inr rfl))
  | enteredJoined info kvMap ops hl hw hi hn ha hs =>
    obtain ⟨hst, hp⟩ := not_primary_of_wants hw
    exact (Chain.one (.enter [] hl hst hp (.inl rfl))).append
      (chain_joined (r := r.entering) hi hn ha hs (.inr ⟨_, rfl⟩) (adopt_of_obsOk (r := r) hR (by simp [joined]; rfl)))
  | startWaits v o hb => exact (chain_counting v).more (.startWait v o hb)
  | votedAtOnce v o hb => exact (chain_counting v).more (move_vote (.inl hb))
  | voted v o hb => exact .one (move_vote (.inr hb))
  | nextCandidate info cnt c call sent hb hc hsent =>
    refine .one (.candidate info cnt c sent hb hc (hsent.imp_right (fun hu => ⟨?_, hu.2⟩)))
    simpa [Rules.eventOk, hu.1] using he
  | choseSelf info cnt call hb =>
    have h1 : Chain R tr r none _ [] _ := .one (.select info cnt r.id [] hb (.inl rfl))
    simpa only [if_true] using h1
  | chose info cnt c call sent hb hc hsent =>
    have h1 : Chain R tr r none _ sent _ :=
      .one (.select info cnt c sent hb (hsent.imp (fun h => h) (fun h => ⟨hc, h⟩)))
    simp only [hc, if_false] at h1
    have h2 := h1.more (.minor none r.lastCommitTime r.viewStartReqMap (r.startViewMap.touch info.viewNum)
      r.recoveryWaitMap r.waitMap r.recoveryRespMap r.respViewCnt r.receivedRespFromPri (fun _ => rfl))
    rw [List.append_nil] at h2
    exact h2
  | startedPrimary v candidate kvMap ops hb hd hq hc hn ha hs =>
    have hr : { r with hb := .doWait v } = r := by rw [← hb]
    rw [← hr]
    exact chain_started hq hc hn ha hs hR
  | startedBackup v info kvMap ops hb hd hi hn ha hs =>
    have hr : { r with hb := .viewWait v } = r := by rw [← hb]
    rw [← hr]
    exact chain_joined hi hn ha hs (.inl rfl) (adopt_of_obsOk hR (by simp [joined]; rfl))
  | gaveUp hb => exact .one (.giveUpView hb)
  | recoverSent hl hs => exact .one (.recover _ _ hs (.inl ⟨now, rfl⟩) (.inr ⟨now, rfl⟩))
  | recoverWaits nonce hb hd =>
    exact .one (.recover (.recoverWait nonce) [] (hrec ⟨nonce, hb⟩) (.inr ⟨nonce, rfl⟩) (.inl rfl))
  | recovered _ nonce _ hb h hs =>
    rcases hb with ⟨rfl, hb, hd⟩ | ⟨rfl, hb⟩
    · simp [Rules.eventOk, hb, hd] at he
    · simp [Rules.eventOk, hb] at he
  | recPopped req rest prr hp hq ht => exact .one (.recPop req rest prr hq ht)
  | recAnswered req hp hl => exact .one (.recAnswer req _ hp)

/-- **Every handler is a chain of moves.** -/
theorem chain_handle {msg : Msg} {s : Step} {now : Nat} (h : r.handle now msg = .ok s) :
    Chain R tr r (some msg) s.rep s.sent s.obs := by
  cases handles_of_handle h with
  | ignored => exact .one (.idle _)
  | queued prepInfo hs hv => exact .one (.queue prepInfo hs hv)
  | okTested resp hs hv => exact .one (.takeOk resp hs hv)
  | heard commitInfo =>
    exact .one (.minor _ now r.viewStartReqMap r.startViewMap r.recoveryWaitMap r.waitMap
      r.recoveryRespMap r.respViewCnt r.receivedRespFromPri (fun _ => rfl))
  | listens commitInfo hs =>
    have h1 : Chain R tr r (some (.commit commitInfo)) _ [] [] := .one (.listen commitInfo)
    exact h1.more (.minor none now r.viewStartReqMap r.startViewMap r.recoveryWaitMap r.waitMap
      r.recoveryRespMap r.respViewCnt r.receivedRespFromPri (fun _ => rfl))
  | viewStartReq req m =>
    exact .one (.minor _ r.lastCommitTime m r.startViewMap r.recoveryWaitMap r.waitMap
      r.recoveryRespMap r.respViewCnt r.receivedRespFromPri (fun _ => rfl))
  | voteStored info hv hs => exact .one (.storeVote info hv hs)
  | startStored info hv hs hn => exact .one (.storeStart info hv hs)
  | recQueued req => exact .one (.recQueue req)
  | recStored resp hs =>
    exact .one (.minor _ r.lastCommitTime r.viewStartReqMap r.startViewMap _ r.waitMap _ _ _ (fun _ => rfl))

end Replica

end MetaDR
