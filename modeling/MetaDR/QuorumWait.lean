import MetaDR.Alone
import MetaDR.Follows
/-!
# QuorumWait — the wait of `replicate` and the count

`replicate` waits once and reads the result of the wait as its decision: `no_timeout` commits, `timeout` throws.  A
wait may end without a notification, and may time out just when the last answer was counted; so the decision is the
count's exactly when the wait ends without a timeout just in case the quorum is there (`quorum_decision`).  Until the
wait ends the thread keeps `_repMutex`, so the entry it is to commit is still in the log (`Waiting`).
-/
namespace MetaDR

/-- `std::cv_status`. -/
inductive CvStatus where
  | noTimeout
  | timeout
  deriving DecidableEq, Repr

/-- The section of `replicate` behind a wait with this result. -/
def CvStatus.act : CvStatus → Act
  | .noTimeout => .replicateWake
  | .timeout => .replicateTimeout

def Outcome.Commits (o : Outcome) (r : Replica) (prepInfo : PrepInfo) : Prop :=
  ∃ s, o = .ok s ∧ .quorum r.id prepInfo ∈ s.obs ∧ s.rep.commitNum = prepInfo.opNum

/-- `replicate` throws `QuorumNotReached`, and the call answers it. -/
def Outcome.Throws (o : Outcome) (r : Replica) : Prop :=
  ∃ s req, o = .ok s ∧ .replied r.id req (.err .quorumNotReached) ∈ s.obs

/-- **The decision is the count's.** -/
structure DecidedByCount (r : Replica) (prepInfo : PrepInfo) (cnt : Nat) (o : Outcome) : Prop where
  commits : o.Commits r prepInfo ↔ r.quorumReached cnt = true
  throws : o.Throws r → r.quorumReached cnt = false

namespace Replica

/-- A thread in `replicate` with the lock shuts out the heart-beat thread, and its entry is in the log. -/
structure Waiting (r : Replica) (prepInfo : PrepInfo) : Prop where
  status : r.status ≠ .recovering
  hb : r.hb = .idle
  entry : ∃ e, r.log.getLogEntry prepInfo.opNum = some e

def WaitOk (r : Replica) : Prop := ∀ prepInfo, r.holds prepInfo → r.Waiting prepInfo

theorem Fresh.waitOk {r : Replica} (h : r.Fresh) : r.WaitOk := fun p hp => by
  cases h <;> exact absurd hp (holds_of_idle rfl p)

theorem WaitOk.of_busy {r r' : Replica} (h : r.WaitOk) (hb : r.hb ≠ .idle) (hc : r'.client = r.client) : r'.WaitOk :=
  fun p hp => absurd (h p (by rwa [holds, hc] at hp)).hb hb

theorem WaitOk.of_free {r r' : Replica} (hl : r.repMutexFree = true) (hc : r'.client = r.client) : r'.WaitOk :=
  fun p hp => absurd (by rwa [holds, hc] at hp) (not_holds_of_free hl p)

end Replica

theorem Move.waitOk {R : Rules} {tr : List Obs} {r r' : Replica} {msg : Option Msg} {sent : List Packet} {os : List Obs}
    (h : r.WaitOk) (m : Move R tr r msg r' sent os) : r'.WaitOk := by
  have hnone : ∀ {r' : Replica}, (∀ p, ¬ r'.holds p) → r'.WaitOk := fun hn p hp => absurd hp (hn p)
  have hbusy : ∀ {pc : HbPc}, r.hb = pc → pc ≠ .idle → r.hb ≠ .idle := fun he hne => he ▸ hne
  cases m with
  | lock | refuse | passQuorum | giveUp | finish =>
    refine hnone (fun p hp => ?_)
    rcases hp with ⟨_, _, hp | hp⟩ <;> cases hp
  | prepare req m prepInfo hc hl hp hs hv hn =>
    intro p hh
    obtain rfl : p = prepInfo := by rcases hh with ⟨_, _, hh | hh⟩ <;> cases hh; rfl
    refine ⟨by rw [hs]; exact Status.noConfusion, Replica.hb_idle_of_free (r := r) hl, p.entry, ?_⟩
    rw [InMemOpLogHandler.getLogEntry_push, PrepInfo.entry_opNum, if_pos rfl]
  | countOwn req m prepInfo hc =>
    intro p hh
    obtain rfl : p = prepInfo := by rcases hh with ⟨_, _, hh | hh⟩ <;> cases hh; rfl
    exact { h p ⟨req, m, .inl hc⟩ with }
  | ack p hp hl => exact .of_free hl rfl
  | commitNext ci log entry hi hl => exact .of_free hl rfl
  | enter sent hl => exact .of_free hl rfl
  | startWait v o hb => exact h.of_busy (hbusy hb HbPc.noConfusion) rfl
  | vote v o info hb => rcases hb with hb | hb <;> exact h.of_busy (hbusy hb HbPc.noConfusion) rfl
  | candidate info cnt c sent hb => exact h.of_busy (hbusy hb HbPc.noConfusion) rfl
  | select info cnt c sent hb => exact h.of_busy (hbusy hb HbPc.noConfusion) rfl
  | giveUpView hb => rcases hb with ⟨v, o, hb⟩ | ⟨v, hb⟩ | ⟨v, hb⟩ <;> exact h.of_busy (hbusy hb HbPc.noConfusion) rfl
  | startPrimary v votes candidate kvMap ops hb => exact h.of_busy (hbusy hb HbPc.noConfusion) rfl
  | startBackup v info kvMap ops hb => rcases hb with hb | ⟨o, hb⟩ <;> exact h.of_busy (hbusy hb HbPc.noConfusion) rfl
  | storeStart info hv hs => exact fun p hp => { h p hp with status := Status.noConfusion }
  | recover hb sent hs => exact fun p hp => absurd hs (h p hp).status
  | _ => exact fun p hp => { h p hp with }

theorem Chain.waitOk {R : Rules} {tr : List Obs} {r r' : Replica} {msg : Option Msg} {sent : List Packet}
    {os : List Obs} (h : r.WaitOk) (hch : Chain R tr r msg r' sent os) : r'.WaitOk := by
  induction hch with
  | one m => exact m.waitOk h
  | more _ m ih => exact m.waitOk ih

namespace Replica

theorem WaitOk.section_ok {r : Replica} {e : LocalEvent} {s : Step} (h : r.WaitOk) (hp : r.Phase)
    (hs : r.localSection e = .ok s) : s.rep.WaitOk := by
  rcases section_cases hs hp [] with hch | ⟨nonce, now, hb, hrec⟩
  · exact hch.waitOk h
  · have hne : r.hb ≠ .idle := by rcases hb with hb | hb <;> rw [hb] <;> exact HbPc.noConfusion
    obtain ⟨resp, rfl⟩ := recoverEnd_eq_some hrec
    exact h.of_busy hne rfl

theorem WaitOk.ended {r : Replica} (h : r.WaitOk) : r.ended.WaitOk := fun p hp => { h p hp with }

theorem waitOk_of_reach {r₀ r : Replica} {ok : Replica → List (LocalEvent × Step) → LocalEvent → Bool}
    {tr : List (LocalEvent × Step)} (hf : r₀.Fresh) (h : Run.Reach (alone r₀) ok r tr) : r.WaitOk :=
  alone_invariant (P := fun r _ => r.WaitOk) hf.waitOk (fun _ _ _ hP => hP.ended)
    (fun _ _ _ _ hr hP _ hs => hP.section_ok (phase_of_reach hf hr) hs) h

/-- Once decided, the commit goes through: the entry is in the log. -/
theorem commits_replicateEnd {r : Replica} {prepInfo : PrepInfo} (req : Req) (m : Mutation)
    (he : ∃ e, r.log.getLogEntry prepInfo.opNum = some e) :
    (Outcome.ofOption (r.replicateEnd req m prepInfo)).Commits r prepInfo := by
  obtain ⟨e, he⟩ := he
  obtain ⟨log, hlog⟩ := InMemOpLogHandler.commit_isSome he
  refine ⟨r.passed req m prepInfo log, ?_, List.mem_cons_self, rfl⟩
  rw [replicateEnd, hlog]
  rfl

theorem not_throws_replicateEnd {r : Replica} {req : Req} {m : Mutation} {prepInfo : PrepInfo} :
    ¬ (Outcome.ofOption (r.replicateEnd req m prepInfo)).Throws r := by
  rintro ⟨s, req', ho, hm⟩
  obtain ⟨log, -, rfl⟩ := replicateEnd_eq_some (Outcome.ofOption_eq_ok ho)
  simp [passed] at hm

/-- **The decision behind the wait**: it is the result's, and so the count's when the two say the same. -/
theorem decided_iff {r : Replica} {req : Req} {m : Mutation} {prepInfo : PrepInfo} {now : Nat} {status : CvStatus}
    (hc : r.client = .waiting req m prepInfo) (he : ∃ e, r.log.getLogEntry prepInfo.opNum = some e) (cnt : Nat) :
    DecidedByCount r prepInfo cnt (r.act now status.act) ↔ (status = .noTimeout ↔ r.quorumReached cnt = true) := by
  cases status with
  | noTimeout =>
    have hact : r.act now CvStatus.noTimeout.act = .ofOption (r.replicateEnd req m prepInfo) := by
      simp only [CvStatus.act, act, hc]
    rw [hact]
    have hcommits := commits_replicateEnd req m he
    constructor
    · exact fun h => iff_of_true rfl (h.commits.1 hcommits)
    · intro h
      exact ⟨iff_of_true hcommits (h.1 rfl), fun ht => absurd ht not_throws_replicateEnd⟩
  | timeout =>
    have hact : r.act now CvStatus.timeout.act = .ok (r.replicateTimeout req m) := by
      simp only [CvStatus.act, act, hc]
    rw [hact]
    have hthrows : (Outcome.ok (r.replicateTimeout req m)).Throws r :=
      ⟨_, req, rfl, by simp [replicateTimeout, Mutation.finish]⟩
    have hnot : ¬ (Outcome.ok (r.replicateTimeout req m)).Commits r prepInfo := by
      rintro ⟨s, ho, hm, -⟩
      cases ho
      simp [replicateTimeout] at hm
    constructor
    · intro h
      have hq := h.throws hthrows
      exact iff_of_false CvStatus.noConfusion (by rw [hq]; exact Bool.false_ne_true)
    · intro h
      have hq : ¬ r.quorumReached cnt = true := fun hq => CvStatus.noConfusion (h.2 hq)
      exact ⟨iff_of_false hnot hq, fun _ => Bool.eq_false_of_not_eq_true hq⟩

/-- **The decision at the first test** is always the count's. -/
theorem decided_first {r : Replica} {req : Req} {m : Mutation} {prepInfo : PrepInfo} {now : Nat}
    (hc : r.client = .prepared req m prepInfo) (he : ∃ e, r.log.getLogEntry prepInfo.opNum = some e) :
    DecidedByCount r prepInfo (r.waitMap.cnt prepInfo.opNum + 1) (r.act now .replicateCount) := by
  have hact : r.act now .replicateCount = .ofOption (r.replicateCount req m prepInfo) := by simp only [act, hc]
  have hcnt : (r.waitMap.bump prepInfo.opNum).cnt prepInfo.opNum = r.waitMap.cnt prepInfo.opNum + 1 := by simp
  rw [hact, replicateCount]
  dsimp only
  rw [hcnt]
  by_cases hq : r.quorumReached (r.waitMap.cnt prepInfo.opNum + 1) = true
  · have hq' : { r with waitMap := r.waitMap.bump prepInfo.opNum }.quorumReached (r.waitMap.cnt prepInfo.opNum + 1) =
      true := hq
    rw [if_pos hq']
    exact ⟨iff_of_true (commits_replicateEnd (r := { r with waitMap := _ }) _ _ he) hq,
      fun ht => absurd ht (not_throws_replicateEnd (r := { r with waitMap := _ }))⟩
  · have hq' : ¬ { r with waitMap := r.waitMap.bump prepInfo.opNum }.quorumReached
      (r.waitMap.cnt prepInfo.opNum + 1) = true := hq
    rw [if_neg hq']
    refine ⟨iff_of_false ?_ hq, fun _ => Bool.eq_false_of_not_eq_true hq⟩
    rintro ⟨s, ho, hm, -⟩
    cases ho
    cases hm

end Replica

/-- **The quorum decision**, in every state that a run of one replica reaches, whatever arrived and however its threads
alternated: at its first test it is the count's, and behind the wait it is the count's if and only if the wait ended
without a timeout just in case the quorum was there. -/
theorem quorum_decision {r₀ r : Replica} {tr : List (LocalEvent × Step)} (hf : r₀.Fresh)
    (h : Run.Reach (Replica.alone r₀) (fun _ _ _ => true) r tr) (req : Req) (m : Mutation) (prepInfo : PrepInfo)
    (now : Nat) :
    (r.client = .prepared req m prepInfo →
      DecidedByCount r prepInfo (r.waitMap.cnt prepInfo.opNum + 1) (r.act now .replicateCount)) ∧
    (r.client = .waiting req m prepInfo → ∀ status : CvStatus,
      DecidedByCount r prepInfo (r.waitMap.cnt prepInfo.opNum) (r.act now status.act) ↔
        (status = .noTimeout ↔ r.quorumReached (r.waitMap.cnt prepInfo.opNum) = true)) := by
  have hw := Replica.waitOk_of_reach hf h
  refine ⟨fun hc => Replica.decided_first hc (hw prepInfo ⟨req, m, .inl hc⟩).entry, fun hc status => ?_⟩
  exact Replica.decided_iff hc (hw prepInfo ⟨req, m, .inr hc⟩).entry _

/-- A `create` up to the wait of `replicate`, and as many answers to it. -/
def awaitedEvents (acks : List Nat) : List LocalEvent :=
  [.act (.clientCall (.create ⟨[slash, 120], []⟩)) 0, .act .replicateBegin 0, .act .replicateCount 0] ++
    acks.flatMap (fun i => [.recv (.prepareOk ⟨0, 1, i⟩) 0, .act .prepareOkCount 0])

def awaited : PrepInfo := .ofKey 0 1 0 [slash, 120]

/-- The replica is in the wait with this count; two are a majority. -/
def Replica.awaits (r : Replica) (cnt : Nat) : Bool :=
  decide (r.client = .waiting (.create ⟨[slash, 120], []⟩) (.set [slash, 120] []) awaited) &&
    decide (r.waitMap.cnt 1 = cnt) && decide (r.getMajorityCnt = 2)

theorem exists_awaiting (acks : List Nat) (cnt : Nat)
    (h : (Run.exec (Replica.alone (.init 3 0)) (fun _ _ _ => true) (awaitedEvents acks) (.init 3 0) []).any
      (fun p => p.1.awaits cnt) = true) :
    ∃ r tr, Run.Reach (Replica.alone (.init 3 0)) (fun _ _ _ => true) r tr ∧
      r.client = .waiting (.create ⟨[slash, 120], []⟩) (.set [slash, 120] []) awaited ∧
      (r.quorumReached (r.waitMap.cnt 1) = true ↔ 2 ≤ cnt) := by
  obtain ⟨r, tr, h, hq⟩ := Run.exists_reach_of_exec (awaitedEvents acks) (fun (r : Replica) _ => r.awaits cnt) h
  simp only [Replica.awaits, Bool.and_eq_true, decide_eq_true_eq] at hq
  exact ⟨r, tr, h, hq.1.1, by rw [Replica.quorumReached, decide_eq_true_eq, hq.2, hq.1.2]⟩

theorem quorum_decision_three : ∃ r tr, Run.Reach (Replica.alone (.init 3 0)) (fun _ _ _ => true) r tr ∧
    DecidedByCount r awaited (r.waitMap.cnt 1) (r.act 0 .replicateWake) := by
  obtain ⟨r, tr, h, hc, hq⟩ := exists_awaiting [1] 2 (by decide +kernel)
  have hd := (quorum_decision (.init 3 0) h _ _ awaited 0).2 hc .noTimeout
  exact ⟨r, tr, h, hd.2 (iff_of_true rfl (hq.2 (by decide)))⟩

/-- The decision is the count's whenever the wait ends with this result. -/
def WaitDecides (status : CvStatus) : Prop :=
  ∀ r₀ r tr req m prepInfo now, Replica.Fresh r₀ → Run.Reach (Replica.alone r₀) (fun _ _ _ => true) r tr →
    r.client = .waiting req m prepInfo → DecidedByCount r prepInfo (r.waitMap.cnt prepInfo.opNum) (r.act now status.act)

/-- A wait that ends by itself, and one that times out when the last answer is there. -/
theorem quorum_decision_fails : ¬ WaitDecides .noTimeout ∧ ¬ WaitDecides .timeout := by
  constructor
  · intro hall
    obtain ⟨r, tr, h, hc, hq⟩ := exists_awaiting [] 1 (by decide +kernel)
    have hd := hall _ r tr _ _ awaited 0 (.init 3 0) h hc
    have he := (Replica.waitOk_of_reach (.init 3 0) h awaited ⟨_, _, .inr hc⟩).entry
    exact absurd (hq.1 (((Replica.decided_iff hc he _).1 hd).1 rfl)) (by decide)
  · intro hall
    obtain ⟨r, tr, h, hc, hq⟩ := exists_awaiting [1] 2 (by decide +kernel)
    have hd := hall _ r tr _ _ awaited 0 (.init 3 0) h hc
    have he := (Replica.waitOk_of_reach (.init 3 0) h awaited ⟨_, _, .inr hc⟩).entry
    exact CvStatus.noConfusion (((Replica.decided_iff hc he _).1 hd).2 (hq.2 (by decide)))

end MetaDR
