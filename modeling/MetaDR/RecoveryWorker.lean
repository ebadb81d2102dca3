import MetaDR.QuorumWait
import MetaDR.Lib.Kept
/-!
# RecoveryWorker — the thread that answers `RecoveryRequest`s

`processRecoveryReqInt` pops a request, tests the status without `_repMutex`, and builds and sends its answer when it
has it.  Two things follow from where the test stands.  A view change between the test and the lock lets a replica
answer from a view it has not started, also one it gave up as its own candidate: the answers come from `NORMAL`
replicas exactly when each section in between that takes the status away from `NORMAL` is followed, before the lock, by
one that gives it back (`recovery_responses_normal`).  And the failed test
leaves the function, not the turn of the loop: a request at the head of a `NORMAL` replica's queue is answered exactly
when no request was ever popped under another status (`recovery_request_answered`).
-/
namespace MetaDR

/-- **What an answer says is so**: the replica is `NORMAL` in its view, and what counts as the primary's is the
primary's. -/
structure RecoveryResponse.FromNormal (resp : RecoveryResponse) (r : Replica) : Prop where
  status : r.status = .normal
  viewNum : resp.viewNum = r.viewNum
  primary : resp.isPrimary = true → r.isPrimary = true ∧ resp.opLog = r.log.getLog ∧ resp.opNum = r.opNum ∧
    resp.commitNum = r.commitNum

def LocalEvent.ofWorker : LocalEvent → Bool
  | .act .recReqCheck _ => true
  | .act .recReqLocked _ => true
  | _ => false

def Packet.isAnswer (q : Packet) : Bool :=
  match q.msg with
  | .recoveryResponse _ => true
  | _ => false

namespace Replica

/-- A call to this replica reaches one. -/
def reaches (r : Replica) (i : Nat) : Bool := decide (i ∈ r.replicas ∧ i ≠ r.id)

/-- When the worker has the lock its test still holds, or nobody is reached by its answer. -/
def stillNormal (r : Replica) : LocalEvent → Bool
  | .act .recReqLocked _ =>
    match r.prr with
    | .checked req => decide (r.status = .normal) || !r.reaches req.replicaId
    | _ => true
  | _ => true

/-- The fields the worker's thread goes by. -/
structure SameWorker (r r' : Replica) : Prop where
  id : r'.id = r.id
  replicas : ∀ i ∈ r.replicas, i ∈ r'.replicas
  prr : r'.prr = r.prr
  recoveryReqQ : ∃ reqs, r'.recoveryReqQ = r.recoveryReqQ ++ reqs

/-- **What the worker's thread does in a section**; in the sections of the others requests may come in. -/
inductive WorkerMove (r : Replica) (e : LocalEvent) (s : Step) : Prop where
  | stays (he : e.ofWorker = false) (h : SameWorker r s.rep) (hs : ∀ q ∈ s.sent, q.isAnswer = false)
  | popped (now : Nat) (req : RecoveryRequest) (rest : List RecoveryRequest) (he : e = .act .recReqCheck now)
      (hp : r.prr = .popping) (hq : r.recoveryReqQ = req :: rest) (hs : s = r.processRecoveryReqInt req rest)
  | answered (now : Nat) (req : RecoveryRequest) (he : e = .act .recReqLocked now) (hp : r.prr = .checked req)
      (hs : s = r.processRecoveryReqLocked req)

theorem mem_endPoint {r : Replica} {i j : Nat} (h : j ∈ r.replicas) : j ∈ (r.endPoint i).replicas := by
  unfold endPoint
  split
  · exact h
  · exact List.mem_append_left _ h

theorem SameWorker.of_eq {r r' : Replica} (hid : r'.id = r.id) (hreps : r'.replicas = r.replicas) (hp : r'.prr = r.prr)
    (hq : r'.recoveryReqQ = r.recoveryReqQ) : SameWorker r r' :=
  ⟨hid, fun _ hi => hreps ▸ hi, hp, [], by rw [hq, List.append_nil]⟩

theorem noAnswer_nil : ∀ q ∈ ([] : List Packet), q.isAnswer = false := fun _ h => absurd h List.not_mem_nil

theorem noAnswer_all {r : Replica} {msg : Msg} (h : Packet.isAnswer ⟨r.id, msg⟩ = false) :
    ∀ q ∈ r.invokeForAllReplicas msg, q.isAnswer = false := by
  intro q hq
  obtain ⟨rfl, -⟩ := mem_invokeForAllReplicas.1 hq
  exact h

theorem workerMove_of_handle {r : Replica} {msg : Msg} {now : Nat} {s : Step} (h : r.handle now msg = .ok s) :
    r.WorkerMove (.recv msg now) s := by
  cases handles_of_handle h with
  | recQueued req => exact .stays rfl ⟨rfl, fun _ hi => hi, rfl, [req], rfl⟩ noAnswer_nil
  | _ => exact .stays rfl (.of_eq rfl rfl rfl rfl) noAnswer_nil

theorem workerMove_of_act {r : Replica} {a : Act} {now : Nat} {s : Step} (h : r.act now a = .ok s) :
    r.WorkerMove (.act a now) s := by
  have hgrows : ∀ {r' : Replica} {i : Nat} {sent : List Packet} {os : List Obs},
      LocalEvent.ofWorker (.act a now) = false → r'.id = r.id → r'.replicas = (r.endPoint i).replicas →
      r'.prr = r.prr → r'.recoveryReqQ = r.recoveryReqQ → (∀ q ∈ sent, q.isAnswer = false) →
      r.WorkerMove (.act a now) ⟨r', sent, os⟩ := fun he hid hreps hp hq hs =>
    .stays he ⟨hid, fun _ hj => hreps ▸ mem_endPoint hj, hp, [], by rw [hq, List.append_nil]⟩ hs
  cases performs_of_act h with
  | recPopped req rest prr hp hq =>
    simp only [act, hp, hq] at h
    exact .popped now req rest rfl hp hq (Outcome.ok.inj h).symm
  | recAnswered req hp => exact .answered now req rfl hp rfl
  | recovered _ nonce _ hb hend =>
    obtain ⟨resp, rfl⟩ := recoverEnd_eq_some hend
    have he : LocalEvent.ofWorker (.act a now) = false := by rcases hb with ⟨rfl, -⟩ | ⟨rfl, -⟩ <;> rfl
    exact .stays he (.of_eq rfl rfl rfl rfl) noAnswer_nil
  | prepared | counted | woken | beat | entered | startedPrimary | recoverSent =>
    exact .stays rfl (.of_eq rfl rfl rfl rfl) (noAnswer_all rfl)
  | acked p =>
    refine hgrows rfl rfl rfl rfl rfl (fun q hq => ?_)
    rw [Packet.isAnswer, (mem_sendTo hq).1]
  | nextCandidate info cnt c call sent hb hc hsent =>
    refine hgrows rfl rfl rfl rfl rfl (fun q hq => ?_)
    rcases hsent with rfl | ⟨-, rfl⟩
    · cases hq
    · rw [List.mem_singleton.1 hq]
      rfl
  | chose info cnt c call sent hb hc hsent =>
    refine hgrows rfl rfl rfl rfl rfl (fun q hq => ?_)
    rcases hsent with rfl | rfl
    · cases hq
    · rw [List.mem_singleton.1 hq]
      rfl
  | _ => exact .stays rfl (.of_eq rfl rfl rfl rfl) noAnswer_nil

theorem workerMove_of_section {r : Replica} {e : LocalEvent} {s : Step} (h : r.localSection e = .ok s) :
    r.WorkerMove e s := by
  cases e with
  | act a now => exact workerMove_of_act h
  | recv msg now => exact workerMove_of_handle h

theorem ofWorker_of_abort {r : Replica} {e : LocalEvent} (h : r.localSection e = .abort) : e.ofWorker = false := by
  cases e with
  | recv msg now => rfl
  | act a now =>
    cases a with
    | recReqCheck =>
      simp only [localSection, act] at h
      split at h <;> cases h
    | recReqLocked =>
      simp only [localSection, act] at h
      split at h
      · split at h <;> cases h
      · cases h
    | _ => rfl

theorem stillNormal_of_lock {r : Replica} {e : LocalEvent} (h : ∀ now, e ≠ .act .recReqLocked now) :
    r.stillNormal e = true := by
  cases e with
  | recv msg now => rfl
  | act a now =>
    cases a with
    | recReqLocked => exact absurd rfl (h now)
    | _ => rfl

theorem stillNormal_of_other {r : Replica} {e : LocalEvent} (h : e.ofWorker = false) : r.stillNormal e = true :=
  stillNormal_of_lock (fun now he => by subst he; cases h)

theorem exists_answer {r : Replica} {req : RecoveryRequest} (hr : r.reaches req.replicaId = true) :
    ∃ resp, ⟨req.replicaId, .recoveryResponse resp⟩ ∈ (r.processRecoveryReqLocked req).sent ∧
      resp.nonce = req.nonce := by
  unfold processRecoveryReqLocked
  dsimp only
  rw [sendTo, if_pos (of_decide_eq_true hr)]
  exact ⟨_, List.mem_singleton_self _, rfl⟩

/-- **One section**: its answers say what is so exactly when the test still holds. -/
theorem fromNormal_iff {r : Replica} {e : LocalEvent} {s : Step} (h : r.localSection e = .ok s) :
    (∀ dst resp, ⟨dst, .recoveryResponse resp⟩ ∈ s.sent → resp.FromNormal r) ↔ r.stillNormal e = true := by
  cases workerMove_of_section h with
  | stays he _ hs => exact iff_of_true (fun dst resp hm => by cases hs _ hm) (stillNormal_of_other he)
  | popped now req rest he hp hq hs =>
    subst he hs
    refine iff_of_true (fun dst resp hm => ?_) rfl
    unfold processRecoveryReqInt at hm
    split at hm <;> cases hm
  | answered now req he hp hs =>
    subst he hs
    simp only [stillNormal, hp, Bool.or_eq_true, decide_eq_true_eq, Bool.not_eq_true']
    constructor
    · intro hall
      by_cases hr : r.reaches req.replicaId = true
      · obtain ⟨resp, hm, -⟩ := exists_answer hr
        exact .inl (hall _ _ hm).status
      · exact .inr (Bool.eq_false_of_not_eq_true hr)
    · intro hn dst resp hm
      rw [processRecoveryReqLocked, sendTo] at hm
      split at hm
      · rename_i hr
        have hst : r.status = .normal := hn.resolve_right (fun hf => by simp [reaches, hr] at hf)
        obtain ⟨-, hresp⟩ := Packet.mk.inj (List.mem_singleton.1 hm)
        cases hresp
        refine ⟨hst, rfl, fun hpri => ?_⟩
        have hid : r.priId = r.id := of_decide_eq_true hpri
        exact ⟨decide_eq_true hid.symm, by simp [hid], by simp [hid], by simp [hid]⟩
      · cases hm

end Replica

/-- A step of a run with the state before it. -/
abbrev Watched := Replica × LocalEvent × List (LocalEvent × Step)

abbrev WatchedRuns (r : Replica) : Replica → List Watched → Prop :=
  Run.Reach (Replica.alone r).watched (fun _ _ _ => true)

def Watched.AnswersNormal (x : Watched) : Prop :=
  ∀ y ∈ x.2.2, ∀ dst resp, ⟨dst, .recoveryResponse resp⟩ ∈ y.2.sent → resp.FromNormal x.1

theorem WatchedRuns.cases_of_mem {r₀ r : Replica} {xs : List Watched} (h : WatchedRuns r₀ r xs) {x : Watched}
    (hx : x ∈ xs) : (∃ s, x.1.localSection x.2.1 = .ok s ∧ x.2.2 = [(x.2.1, s)]) ∨
      (x.1.localSection x.2.1 = .abort ∧ x.2.2 = [(x.2.1, Replica.quiet x.1.ended)]) := by
  obtain ⟨tr, s', -, hs⟩ := Run.Reach.mem_watched h hx
  obtain ⟨-, ⟨ho, -, hos⟩ | ⟨s, ho, -, hos⟩⟩ := Replica.localStep_cases hs
  · exact .inr ⟨ho, hos⟩
  · exact .inl ⟨s, ho, hos⟩

namespace Watched

/-- The replica behind the step. -/
def after (x : Watched) : Replica := (x.2.2.getLast?.map (fun y => y.2.rep)).getD x.1

/-- The worker pops a request under `NORMAL`. -/
def Tests (x : Watched) : Prop := (∃ now, x.2.1 = .act .recReqCheck now) ∧ x.1.status = .normal

/-- The worker has the lock, for a request that reaches somebody. -/
def Uses (x : Watched) : Prop :=
  ∃ now req, x.2.1 = .act .recReqLocked now ∧ x.1.prr = .checked req ∧ x.1.reaches req.replicaId = true

theorem stillNormal_iff {x : Watched} : x.1.stillNormal x.2.1 = true ↔ (x.Uses → x.1.status = .normal) := by
  obtain ⟨r, e, tr⟩ := x
  constructor
  · rintro h ⟨now, req, rfl, hp, hr⟩
    simpa [Replica.stillNormal, show r.prr = .checked req from hp, show r.reaches req.replicaId = true from hr] using h
  · intro h
    by_cases he : ∃ now, e = .act .recReqLocked now
    · obtain ⟨now, rfl⟩ := he
      simp only [Replica.stillNormal]
      split
      · rename_i req hp
        by_cases hr : r.reaches req.replicaId = true
        · have hst : r.status = .normal := h ⟨now, req, rfl, hp, hr⟩
          simp [hst]
        · simp [hr]
      · rfl
    · exact Replica.stillNormal_of_lock (fun now hn => he ⟨now, hn⟩)

end Watched

/-- A test, and nothing of the worker's since. -/
def WatchedTested (xs : List Watched) : Prop := Run.Since Watched.Tests (fun x => x.2.1.ofWorker = true) xs

/-- **The status is kept for the worker**: each section between the test and the lock that takes it away from `NORMAL`
is followed, before the lock, by one that gives it back. -/
def StatusKept (xs : List Watched) : Prop :=
  Run.KeptFrom (fun x : Watched => x.1) Watched.after (fun r => r.status = .normal) Watched.Tests
    (fun x => x.2.1.ofWorker = true) Watched.Uses xs

namespace WatchedRuns

variable {r₀ r : Replica} {xs : List Watched}

theorem linked (h : WatchedRuns r₀ r xs) : Run.Linked (fun x : Watched => x.1) Watched.after xs := by
  refine Run.Reach.linked id (fun r xs e r' os _ hs => ?_) h
  obtain ⟨tr, hs', rfl⟩ := Run.System.step_watched hs
  refine ⟨_, rfl, rfl, ?_⟩
  obtain ⟨-, ⟨-, rfl, rfl⟩ | ⟨s, -, rfl, rfl⟩⟩ := Replica.localStep_cases hs' <;> rfl

/-- The worker has a request, and takes the lock for it, only behind a test. -/
theorem since (hf : r₀.Fresh) (h : WatchedRuns r₀ r xs) :
    (∀ req, r.prr = .checked req → WatchedTested xs) ∧ Run.Each (fun xs₁ x => x.Uses → WatchedTested xs₁) xs := by
  refine Run.Reach.invariant (P := fun (r : Replica) (xs : List Watched) =>
    (∀ req, r.prr = .checked req → WatchedTested xs) ∧ Run.Each (fun xs₁ x => x.Uses → WatchedTested xs₁) xs) ?_ ?_ h
  · refine ⟨?_, Run.each_nil⟩
    cases hf <;> exact fun req hp => by cases hp
  · rintro r xs e r' os _ ⟨hP, hE⟩ _ hs
    obtain ⟨tr, hs', rfl⟩ := Run.System.step_watched hs
    refine ⟨fun req hp => ?_, hE.concat (by rintro ⟨now, req, -, hp, -⟩; exact hP req hp)⟩
    obtain ⟨-, ⟨ho, rfl, -⟩ | ⟨s, ho, rfl, -⟩⟩ := Replica.localStep_cases hs'
    · exact (hP req hp).concat (by simp [Replica.ofWorker_of_abort ho])
    · cases Replica.workerMove_of_section ho with
      | stays he hsame => exact (hP req (hsame.prr.symm.trans hp)).concat (by simp [he])
      | popped now req' rest he hp' _ hpop =>
        subst he hpop
        refine Run.since_last ⟨⟨now, rfl⟩, ?_⟩
        by_contra hst
        rw [Replica.processRecoveryReqInt, if_pos hst] at hp
        cases hp
      | answered now req' he hp' ha =>
        subst ha
        cases hp

theorem tested (h : WatchedRuns r₀ r xs) {x : Watched} (hx : x ∈ xs) (ht : x.Tests) : x.after.status = .normal := by
  obtain ⟨⟨now, he⟩, hst⟩ := ht
  rcases h.cases_of_mem hx with ⟨s, hs, hy⟩ | ⟨hs, hy⟩
  · have hafter : x.after = s.rep := by rw [Watched.after, hy]; rfl
    rw [he] at hs
    cases Replica.workerMove_of_section hs with
    | stays he' => cases he'
    | popped now' req rest _ _ _ hpop =>
      rw [hafter, hpop, Replica.processRecoveryReqInt, if_neg (not_not.2 hst)]
      exact hst
    | answered now' req he' => cases he'
  · rw [he] at hs
    cases Replica.ofWorker_of_abort hs

/-- **The test still holds at the lock** just if the status is kept. -/
theorem statusKept_iff (hf : r₀.Fresh) (h : WatchedRuns r₀ r xs) :
    StatusKept xs ↔ ∀ x ∈ xs, x.1.stillNormal x.2.1 = true := by
  rw [StatusKept, h.linked.keptFrom_iff (fun x hx ht => h.tested hx ht) (h.since hf).2]
  exact forall₂_congr (fun x _ => Watched.stillNormal_iff.symm)

end WatchedRuns

/-- **Recovery answers come from `NORMAL` replicas**, in every run of one replica, whatever arrives and however its
threads alternate: each says what is so when it is built if and only if, each time the worker has the lock for a
request that reaches somebody, the status is still `NORMAL`; that is, from a process that has just started, if and only
if the status is kept for the worker. -/
theorem recovery_responses_normal {r₀ r : Replica} {xs : List Watched} (h : WatchedRuns r₀ r xs) :
    ((∀ x ∈ xs, x.1.stillNormal x.2.1 = true) ↔ ∀ x ∈ xs, x.AnswersNormal) ∧
      (r₀.Fresh → (StatusKept xs ↔ ∀ x ∈ xs, x.AnswersNormal)) := by
  have hstill : (∀ x ∈ xs, x.1.stillNormal x.2.1 = true) ↔ ∀ x ∈ xs, x.AnswersNormal := by
    refine forall₂_congr (fun x hx => ?_)
    rcases h.cases_of_mem hx with ⟨s, hs, hy⟩ | ⟨hs, hy⟩
    · rw [← Replica.fromNormal_iff hs, Watched.AnswersNormal, hy]
      simp
    · refine iff_of_true (Replica.stillNormal_of_other (Replica.ofWorker_of_abort hs)) (fun y hy' dst resp hm => ?_)
      rw [hy, List.mem_singleton] at hy'
      subst hy'
      cases hm
  exact ⟨hstill, fun hf => (h.statusKept_iff hf).trans hstill⟩

def Watched.sends (x : Watched) (resp : RecoveryResponse) (status : Status) : Bool :=
  x.2.2.any (fun y => decide (⟨2, .recoveryResponse resp⟩ ∈ y.2.sent)) && decide (x.1.status = status)

/-- A backup answers a request. -/
theorem recovery_responses_normal_three : ∃ r xs, WatchedRuns (.init 3 1) r xs ∧ (∀ x ∈ xs, x.AnswersNormal) ∧
    StatusKept xs ∧ xs.any (Watched.sends · ⟨0, 7, 1, false, [], 0, 0⟩ .normal) = true := by
  obtain ⟨r, xs, h, hq⟩ : ∃ r xs, WatchedRuns (.init 3 1) r xs ∧
      (xs.all (fun x => x.1.stillNormal x.2.1) && xs.any (Watched.sends · ⟨0, 7, 1, false, [], 0, 0⟩ .normal)) = true :=
    Run.exists_reach_of_exec [.recv (.recoveryRequest ⟨2, 7⟩) 0, .act .recReqCheck 0, .act .recReqLocked 0]
      (fun _ (xs : List Watched) => xs.all (fun x => x.1.stillNormal x.2.1) &&
        xs.any (Watched.sends · ⟨0, 7, 1, false, [], 0, 0⟩ .normal)) (by decide +kernel)
  rw [Bool.and_eq_true, List.all_eq_true] at hq
  obtain ⟨hstill, hkept⟩ := recovery_responses_normal h
  exact ⟨r, xs, h, hstill.1 hq.1, (hkept (.init 3 1)).2 (hstill.1 hq.1), hq.2⟩

/-- Replica `1` pops a request of replica `2`, begins a view change, becomes its own candidate and gives up; then the
worker has the lock. -/
def gaveUpEvents : List LocalEvent :=
  [.recv (.recoveryRequest ⟨2, 7⟩) 0, .act .recReqCheck 0, .act .changeViewBegin 9,
    .recv (.startViewChange ⟨1, 2⟩) 9, .act .changeViewCount 9, .act (.candidate .answered) 9, .act .hbTimeout 9,
    .act .recReqLocked 9]

/-- It answers as the primary of view `1`, which never started. -/
def neverStarted : RecoveryResponse := ⟨1, 7, 1, true, [], 0, 0⟩

theorem recovery_responses_normal_fails : ¬ ∀ r₀ r xs, Replica.Fresh r₀ → WatchedRuns r₀ r xs →
    ∀ x ∈ xs, Watched.AnswersNormal x := by
  intro hall
  obtain ⟨r, xs, h, hq⟩ : ∃ r xs, WatchedRuns (.init 3 1) r xs ∧
      xs.any (Watched.sends · neverStarted .viewChange) = true :=
    Run.exists_reach_of_exec gaveUpEvents (fun _ (xs : List Watched) =>
      xs.any (Watched.sends · neverStarted .viewChange)) (by decide +kernel)
  simp only [List.any_eq_true, Watched.sends, Bool.and_eq_true, decide_eq_true_eq] at hq
  obtain ⟨x, hx, ⟨y, hy, hm⟩, hst⟩ := hq
  have hn := (hall _ r xs (.init 3 1) h x hx y hy 2 _ hm).status
  cases hst.symm.trans hn

/-- The runs of a replica as long as it is `NORMAL`. -/
abbrev NormalRuns (r : Replica) : Replica → List (LocalEvent × Step) → Prop :=
  Run.Reach (Replica.alone r) (fun r _ _ => decide (r.status = .normal))

theorem NormalRuns.trans {r r' r'' : Replica} {tr tr' : List (LocalEvent × Step)} (h : NormalRuns r r' tr)
    (h' : NormalRuns r' r'' tr') : NormalRuns r r'' (tr ++ tr') :=
  Run.Reach.trans (p := fun (r : Replica) (_ : LocalEvent) => decide (r.status = .normal)) h h'

def AnsweredIn (req : RecoveryRequest) (tr : List (LocalEvent × Step)) : Prop :=
  ∃ x ∈ tr, ∃ resp, ⟨req.replicaId, .recoveryResponse resp⟩ ∈ x.2.sent ∧ resp.nonce = req.nonce

theorem AnsweredIn.append_left {req : RecoveryRequest} {tr : List (LocalEvent × Step)} (h : AnsweredIn req tr)
    (tr' : List (LocalEvent × Step)) : AnsweredIn req (tr ++ tr') := by
  obtain ⟨x, hx, ha⟩ := h
  exact ⟨x, List.mem_append_left _ hx, ha⟩

theorem AnsweredIn.append_right {req : RecoveryRequest} {tr : List (LocalEvent × Step)} (h : AnsweredIn req tr)
    (tr' : List (LocalEvent × Step)) : AnsweredIn req (tr' ++ tr) := by
  obtain ⟨x, hx, ha⟩ := h
  exact ⟨x, List.mem_append_right _ hx, ha⟩

namespace Replica

/-- The replica can go on, `NORMAL`, until the answer is sent. -/
def CanAnswer (r : Replica) (req : RecoveryRequest) : Prop := ∃ r' tr, NormalRuns r r' tr ∧ AnsweredIn req tr

/-- **The request is answered**: however the replica goes on as long as it is `NORMAL`, the answer has been sent, or it
is still to come. -/
def Answers (r : Replica) (req : RecoveryRequest) : Prop :=
  ∀ r' tr, NormalRuns r r' tr → r'.up = true → r'.status = .normal → AnsweredIn req tr ∨ r'.CanAnswer req

/-- A request is popped only from a `NORMAL` replica's queue. -/
def popsNormal (r : Replica) : LocalEvent → Bool
  | .act .recReqCheck _ => decide (r.status = .normal)
  | _ => true

/-- The request is at the head of the queue, or the worker has it. -/
structure Awaited (r : Replica) (req : RecoveryRequest) : Prop where
  phase : r.Phase
  waitOk : r.WaitOk
  reaches : r.reaches req.replicaId = true
  waits : r.prr = .checked req ∨ (r.prr ≠ .ended ∧ ∃ rest, r.recoveryReqQ = req :: rest)

variable {r r' : Replica} {e : LocalEvent} {s : Step} {req : RecoveryRequest}

theorem SameWorker.reaches (h : SameWorker r r') {i : Nat} (hr : r.reaches i = true) : r'.reaches i = true := by
  simp only [Replica.reaches, decide_eq_true_eq] at hr ⊢
  exact ⟨h.replicas i hr.1, h.id ▸ hr.2⟩

theorem reaches_answered {req' : RecoveryRequest} {i : Nat} (hr : r.reaches i = true) :
    (r.processRecoveryReqLocked req').rep.reaches i = true := by
  simp only [Replica.reaches, decide_eq_true_eq] at hr ⊢
  exact ⟨mem_endPoint hr.1, hr.2⟩

/-- **A request that waits goes on to wait, or is answered.** -/
theorem Awaited.step (h : r.Awaited req) (hst : r.status = .normal) (hs : r.localSection e = .ok s) :
    s.rep.Awaited req ∨ AnsweredIn req [(e, s)] := by
  have hphase := h.phase.section_ok hs
  have hwait := h.waitOk.section_ok h.phase hs
  cases workerMove_of_section hs with
  | stays _ hsame =>
    refine .inl ⟨hphase, hwait, hsame.reaches h.reaches, ?_⟩
    rw [hsame.prr]
    refine h.waits.imp_right (And.imp_right ?_)
    rintro ⟨rest, hq⟩
    obtain ⟨reqs, hreqs⟩ := hsame.recoveryReqQ
    exact ⟨rest ++ reqs, by rw [hreqs, hq, List.cons_append]⟩
  | popped now req' rest _ hp hq hpop =>
    obtain ⟨-, rest', hq'⟩ := h.waits.resolve_left (by rw [hp]; exact PrrPc.noConfusion)
    obtain ⟨rfl, -⟩ := List.cons.inj (hq.symm.trans hq')
    rw [processRecoveryReqInt, if_neg (not_not.2 hst)] at hpop
    subst hpop
    exact .inl ⟨hphase, hwait, h.reaches, .inl rfl⟩
  | answered now req' _ hp ha =>
    subst ha
    rcases h.waits with hw | ⟨-, rest, hq⟩
    · obtain rfl : req' = req := PrrPc.checked.inj (hp.symm.trans hw)
      obtain ⟨resp, hm, hn⟩ := exists_answer h.reaches
      exact .inr ⟨_, List.mem_singleton_self _, resp, hm, hn⟩
    · exact .inl ⟨hphase, hwait, reaches_answered h.reaches, .inr ⟨PrrPc.noConfusion, rest, hq⟩⟩

theorem normalRuns_one (hu : r.up = true) (hst : r.status = .normal) (hs : r.localSection e = .ok s) :
    NormalRuns r s.rep [(e, s)] := by
  have hstep : localStep r e = some (s.rep, [(e, s)]) := by rw [localStep, if_pos hu, hs]
  exact Run.Reach.init.step (decide_eq_true hst) hstep

theorem CanAnswer.of_step (hu : r.up = true) (hst : r.status = .normal) (hs : r.localSection e = .ok s)
    (h : s.rep.CanAnswer req) : r.CanAnswer req := by
  obtain ⟨r', tr, hr, ha⟩ := h
  exact ⟨r', _, (normalRuns_one hu hst hs).trans hr, ha.append_right _⟩

theorem canAnswer_of_checked (hu : r.up = true) (hst : r.status = .normal) (hl : r.repMutexFree = true)
    (hr : r.reaches req.replicaId = true) (hp : r.prr = .checked req) : r.CanAnswer req := by
  have hs : r.localSection (.act .recReqLocked 0) = .ok (r.processRecoveryReqLocked req) := by
    simp only [localSection, act, hp, hl, if_true]
  obtain ⟨resp, hm, hn⟩ := exists_answer hr
  exact ⟨_, _, normalRuns_one hu hst hs, _, List.mem_singleton_self _, resp, hm, hn⟩

theorem canAnswer_of_popping (hu : r.up = true) (hst : r.status = .normal) (hl : r.repMutexFree = true)
    (hr : r.reaches req.replicaId = true) (hp : r.prr = .popping) {rest : List RecoveryRequest}
    (hq : r.recoveryReqQ = req :: rest) : r.CanAnswer req := by
  have hpop : r.processRecoveryReqInt req rest = quiet { r with recoveryReqQ := rest, prr := .checked req } :=
    if_neg (not_not.2 hst)
  have hs : r.localSection (.act .recReqCheck 0) =
      .ok (quiet { r with recoveryReqQ := rest, prr := .checked req }) := by
    simp only [localSection, act, hp, hq, hpop]
  exact .of_step hu hst hs (canAnswer_of_checked hu hst hl hr rfl)

/-- The worker is done with an earlier request first. -/
theorem Awaited.of_free (h : r.Awaited req) (hu : r.up = true) (hst : r.status = .normal)
    (hl : r.repMutexFree = true) : r.CanAnswer req := by
  rcases h.waits with hp | ⟨hne, rest, hq⟩
  · exact canAnswer_of_checked hu hst hl h.reaches hp
  · cases hp : r.prr with
    | ended => exact absurd hp hne
    | popping => exact canAnswer_of_popping hu hst hl h.reaches hp hq
    | checked req' =>
      have hs : r.localSection (.act .recReqLocked 0) = .ok (r.processRecoveryReqLocked req') := by
        simp only [localSection, act, hp, hl, if_true]
      exact .of_step hu hst hs (canAnswer_of_popping (r := (r.processRecoveryReqLocked req').rep) hu hst hl
        (reaches_answered h.reaches) rfl hq)

theorem Awaited.of_step (h : r.Awaited req) (hu : r.up = true) (hst : r.status = .normal)
    (hs : r.localSection e = .ok s) (hn : s.rep.Awaited req → s.rep.CanAnswer req) : r.CanAnswer req := by
  rcases h.step hst hs with ha | ha
  · exact .of_step hu hst hs (hn ha)
  · exact ⟨_, _, normalRuns_one hu hst hs, ha⟩

/-- A client that waits in `replicate` gives the lock back. -/
theorem Awaited.of_waiting (h : r.Awaited req) (hu : r.up = true) (hst : r.status = .normal) {req' : Req}
    {m : Mutation} {p : PrepInfo} (hc : r.client = .waiting req' m p) : r.CanAnswer req := by
  have hs : r.localSection (.act .replicateTimeout 0) = .ok (r.replicateTimeout req' m) := by
    simp only [localSection, act, hc]
  have hb := h.phase.hb_eq_idle hst
  exact h.of_step hu hst hs (fun ha => ha.of_free hu hst (by simp [replicateTimeout, repMutexFree, hb]))

/-- A client that has sent its operation counts itself, and then waits or has given the lock back. -/
theorem replicateCount_ok (hw : r.WaitOk) {req' : Req} {m : Mutation} {p : PrepInfo}
    (hc : r.client = .prepared req' m p) :
    ∃ s, r.localSection (.act .replicateCount 0) = .ok s ∧ s.rep.up = r.up ∧ s.rep.status = r.status ∧
      s.rep.hb = r.hb ∧ (s.rep.client = .waiting req' m p ∨ s.rep.client = .replicated req' m p.opNum) := by
  obtain ⟨e, he⟩ := (hw p ⟨req', m, .inl hc⟩).entry
  obtain ⟨log, hlog⟩ := InMemOpLogHandler.commit_isSome he
  simp only [localSection, act, hc, replicateCount]
  split
  · refine ⟨{ r with waitMap := r.waitMap.bump p.opNum }.passed req' m p log, ?_, rfl, rfl, rfl, .inr rfl⟩
    rw [replicateEnd, hlog]
    rfl
  · exact ⟨_, rfl, rfl, rfl, rfl, .inl rfl⟩

/-- **A request that waits at a `NORMAL` replica is answered.** -/
theorem Awaited.canAnswer (h : r.Awaited req) (hu : r.up = true) (hst : r.status = .normal) : r.CanAnswer req := by
  have hb := h.phase.hb_eq_idle hst
  cases hc : r.client with
  | idle | locked _ _ | replicated _ _ _ => exact h.of_free hu hst (by simp [repMutexFree, hc, hb])
  | waiting req' m p => exact h.of_waiting hu hst hc
  | prepared req' m p =>
    obtain ⟨s, hs, hup, hst', hb', hwait | hrep⟩ := replicateCount_ok h.waitOk hc
    · exact h.of_step hu hst hs (fun ha => ha.of_waiting (hup.trans hu) (hst'.trans hst) hwait)
    · exact h.of_step hu hst hs (fun ha => ha.of_free (hup.trans hu) (hst'.trans hst)
        (by simp [repMutexFree, hrep, hb', hb]))

theorem Awaited.answers (h : r.Awaited req) : r.Answers req := by
  intro r' tr hr hu hst
  have hinv : r'.Awaited req ∨ AnsweredIn req tr := by
    refine alone_invariant (P := fun r tr => r.Awaited req ∨ AnsweredIn req tr) (.inl h) ?_ ?_ hr
    · rintro r tr e (ha | ha)
      · exact .inl ⟨ha.phase, ha.waitOk.ended, ha.reaches, ha.waits⟩
      · exact .inr (ha.append_left _)
    · rintro r tr e s - (ha | ha) hok hs
      · exact (ha.step (of_decide_eq_true hok) hs).imp_right (fun ha => ha.append_right _)
      · exact .inr (ha.append_left _)
  exact hinv.symm.imp_right (fun ha => ha.canAnswer hu hst)

/-- Once the worker has left its loop nothing is answered any more. -/
theorem not_answeredIn_of_ended {tr : List (LocalEvent × Step)} (hp : r.prr = .ended) (h : NormalRuns r r' tr) :
    ¬ AnsweredIn req tr := by
  have hinv : r'.prr = .ended ∧ ∀ x ∈ tr, ∀ q ∈ x.2.sent, q.isAnswer = false := by
    refine alone_invariant (P := fun r tr => r.prr = .ended ∧ ∀ x ∈ tr, ∀ q ∈ x.2.sent, q.isAnswer = false)
      ⟨hp, fun x hx => absurd hx List.not_mem_nil⟩ ?_ ?_ h
    · rintro r tr e ⟨hp, hall⟩
      exact ⟨hp, List.forall_mem_append.2 ⟨hall, List.forall_mem_singleton.2 noAnswer_nil⟩⟩
    · rintro r tr e s - ⟨hp, hall⟩ - hs
      cases workerMove_of_section hs with
      | stays _ hsame hsent =>
        exact ⟨hsame.prr.trans hp, List.forall_mem_append.2 ⟨hall, List.forall_mem_singleton.2 hsent⟩⟩
      | popped _ _ _ _ hp' => cases hp.symm.trans hp'
      | answered _ _ _ hp' => cases hp.symm.trans hp'
  rintro ⟨x, hx, resp, hm, -⟩
  cases hinv.2 x hx _ hm

theorem answers_iff (hphase : r.Phase) (hw : r.WaitOk) (hu : r.up = true) (hst : r.status = .normal)
    {rest : List RecoveryRequest} (hq : r.recoveryReqQ = req :: rest) (hr : r.reaches req.replicaId = true) :
    r.Answers req ↔ r.prr ≠ .ended := by
  constructor
  · intro ha hp
    rcases ha r [] .init hu hst with h | ⟨r', tr, hruns, h⟩
    · exact not_answeredIn_of_ended hp .init h
    · exact not_answeredIn_of_ended hp hruns h
  · exact fun hp => Awaited.answers ⟨hphase, hw, hr, .inr ⟨hp, rest, hq⟩⟩

theorem popsNormal_of_other (h : e.ofWorker = false) : r.popsNormal e = true := by
  cases e with
  | recv msg now => rfl
  | act a now =>
    cases a with
    | recReqCheck => cases h
    | _ => rfl

end Replica

/-- **When the worker has left its loop**: it has popped a request under another status. -/
theorem WatchedRuns.prr_ended {r₀ r : Replica} {xs : List Watched} (hf : r₀.Fresh) (h : WatchedRuns r₀ r xs) :
    r.prr ≠ .ended ↔ ∀ x ∈ xs, x.1.popsNormal x.2.1 = true := by
  refine Run.Reach.invariant (P := fun (r : Replica) (xs : List Watched) =>
    r.prr ≠ .ended ↔ ∀ x ∈ xs, x.1.popsNormal x.2.1 = true) ?_ ?_ h
  · refine iff_of_true ?_ (fun x hx => absurd hx List.not_mem_nil)
    cases hf <;> exact PrrPc.noConfusion
  · intro r xs e r' os _ hP _ hs
    obtain ⟨tr, hs', rfl⟩ := Run.System.step_watched hs
    rw [List.forall_mem_append, List.forall_mem_singleton, ← hP]
    obtain ⟨-, ⟨ho, rfl, -⟩ | ⟨s, ho, rfl, -⟩⟩ := Replica.localStep_cases hs'
    · exact (and_iff_left (Replica.popsNormal_of_other (Replica.ofWorker_of_abort ho))).symm
    · cases Replica.workerMove_of_section ho with
      | stays he hsame =>
        rw [hsame.prr]
        exact (and_iff_left (Replica.popsNormal_of_other he)).symm
      | popped now req rest he hp _ hpop =>
        subst he hpop
        by_cases hst : r.status = .normal <;> simp [Replica.processRecoveryReqInt, Replica.popsNormal,
          Replica.quiet, hst, hp]
      | answered now req he hp ha =>
        subst he ha
        exact iff_of_true PrrPc.noConfusion ⟨by rw [hp]; exact PrrPc.noConfusion, rfl⟩

/-- **Each request is answered by itself**, in every run of one replica, whatever arrives and however its threads
alternate: the request of a peer at the head of a `NORMAL` replica's queue is answered if and only if no request was
ever popped under another status. -/
theorem recovery_request_answered {r₀ r : Replica} {xs : List Watched} (hf : r₀.Fresh) (h : WatchedRuns r₀ r xs)
    (hu : r.up = true) (hst : r.status = .normal) {req : RecoveryRequest} {rest : List RecoveryRequest}
    (hq : r.recoveryReqQ = req :: rest) (hr : r.reaches req.replicaId = true) :
    r.Answers req ↔ ∀ x ∈ xs, x.1.popsNormal x.2.1 = true := by
  have hrun := Run.Reach.unwatched h
  rw [← h.prr_ended hf]
  exact Replica.answers_iff (Replica.phase_of_reach hf hrun) (Replica.waitOk_of_reach hf hrun) hu hst hq hr

/-- The replica is up and `NORMAL`, and has this request of a peer at the head of its queue. -/
def Replica.asked (r : Replica) (req : RecoveryRequest) : Bool :=
  r.up && decide (r.status = .normal) && decide (r.recoveryReqQ = [req]) && r.reaches req.replicaId

theorem Replica.asked_eq_true {r : Replica} {req : RecoveryRequest} : r.asked req = true ↔
    r.up = true ∧ r.status = .normal ∧ r.recoveryReqQ = [req] ∧ r.reaches req.replicaId = true := by
  simp only [asked, Bool.and_eq_true, decide_eq_true_eq, and_assoc]

/-- A second request, when the first is answered. -/
theorem recovery_request_answered_three : ∃ r xs, WatchedRuns (.init 3 1) r xs ∧ r.Answers ⟨2, 8⟩ := by
  obtain ⟨r, xs, h, hq⟩ : ∃ r xs, WatchedRuns (.init 3 1) r xs ∧
      (r.asked ⟨2, 8⟩ && xs.all (fun x => x.1.popsNormal x.2.1)) = true :=
    Run.exists_reach_of_exec [.recv (.recoveryRequest ⟨2, 7⟩) 0, .act .recReqCheck 0, .act .recReqLocked 0,
      .recv (.recoveryRequest ⟨2, 8⟩) 0]
      (fun (r : Replica) (xs : List Watched) => r.asked ⟨2, 8⟩ && xs.all (fun x => x.1.popsNormal x.2.1))
      (by decide +kernel)
  rw [Bool.and_eq_true, List.all_eq_true, Replica.asked_eq_true] at hq
  obtain ⟨⟨hu, hst, hreq, hr⟩, hpops⟩ := hq
  exact ⟨r, xs, h, (recovery_request_answered (.init 3 1) h hu hst hreq hr).2 hpops⟩

/-- A first request is popped in a view change that is given up; the next view is taken up, and a second request
comes. -/
def skippedEvents : List LocalEvent :=
  [.recv (.prepare (.ofKey 0 1 0 [slash, 120])) 0, .act .prepCheck 0, .act .prepLocked 0, .recv (.commit ⟨0, 1⟩) 0,
    .act .commitLocked 0, .recv (.recoveryRequest ⟨2, 7⟩) 0, .act .changeViewBegin 9, .act .recReqCheck 9,
    .act .changeViewCount 9, .act .hbTimeout 9,
    .recv (.startView ⟨2, [⟨⟨[slash, 120], []⟩, .update, 1, true⟩], 1, 1, 2⟩) 9, .act .startViewCount 9,
    .act .changeViewBegin 9,
    .recv (.recoveryRequest ⟨2, 8⟩) 9]

theorem recovery_request_answered_fails : ¬ ∀ r₀ r xs req rest, Replica.Fresh r₀ → WatchedRuns r₀ r xs →
    r.up = true → r.status = .normal → r.recoveryReqQ = req :: rest → r.reaches req.replicaId = true →
    r.Answers req := by
  intro hall
  obtain ⟨r, xs, h, hq⟩ : ∃ r xs, WatchedRuns (.init 3 1) r xs ∧
      (r.asked ⟨2, 8⟩ && decide (r.prr = .ended)) = true :=
    Run.exists_reach_of_exec skippedEvents
      (fun (r : Replica) (_ : List Watched) => r.asked ⟨2, 8⟩ && decide (r.prr = .ended)) (by decide +kernel)
  rw [Bool.and_eq_true, decide_eq_true_eq, Replica.asked_eq_true] at hq
  obtain ⟨⟨hu, hst, hreq, hr⟩, hp⟩ := hq
  have hrun := Run.Reach.unwatched h
  exact (Replica.answers_iff (Replica.phase_of_reach (.init 3 1) hrun) (Replica.waitOk_of_reach (.init 3 1) hrun)
    hu hst hreq hr).1 (hall _ r xs _ _ (.init 3 1) h hu hst hreq hr) hp

end MetaDR
