import MetaDR.Alone
import MetaDR.Follows
/-!
# AckRace — what a `PrepareOk` answers

The queue's thread tests the role, the status and the view of a `Prepare` before it has `_repMutex`, and appends and
answers it under the lock, with the view the replica is in by then.  As long as the view of the `Prepare` is still the
replica's when the lock is there, each `PrepareOk` of view `w` is for an operation that a `Prepare` of view `w`
brought (`ack_means`); a view change in between can leave the op number one below that of the old operation, which is
then appended and answered in the new view (`ack_means_fails`).
-/
namespace MetaDR

/-- The `Prepare` has arrived. -/
def Arrived (p : PrepInfo) (tr : List (LocalEvent × Step)) : Prop :=
  ∃ now, LocalEvent.recv (.prepare p) now ∈ tr.map Prod.fst

theorem Arrived.append {p : PrepInfo} {tr : List (LocalEvent × Step)} (h : Arrived p tr)
    (os : List (LocalEvent × Step)) :
    Arrived p (tr ++ os) := by
  obtain ⟨now, hm⟩ := h
  exact ⟨now, by rw [List.map_append]; exact List.mem_append_left _ hm⟩

/-- **What the answers of a step mean**: a `PrepareOk` is for the operation of a `Prepare` of its view and number,
which the log holds, and no operation of another view is appended by the queue's thread. -/
structure AckMeans (tr : List (LocalEvent × Step)) (x : LocalEvent × Step) : Prop where
  answer : ∀ dst resp, ⟨dst, .prepareOk resp⟩ ∈ x.2.sent →
    ∃ p, Arrived p tr ∧ p.viewNum = resp.viewNum ∧ p.opNum = resp.opNum ∧ x.2.rep.log.opAt resp.opNum = some p.op
  append : ∀ q p resp, .acked q p resp ∈ x.2.obs → p.viewNum = x.2.rep.viewNum

/-- The step answers no `Prepare`, and appends none. -/
structure Step.Silent (s : Step) : Prop where
  sent : ∀ dst resp, ⟨dst, .prepareOk resp⟩ ∉ s.sent
  obs : ∀ q p resp, .acked q p resp ∉ s.obs

theorem Step.Silent.means {s : Step} (h : s.Silent) (tr : List (LocalEvent × Step)) (e : LocalEvent) :
    AckMeans tr (e, s) where
  answer := fun dst resp hm => absurd hm (h.sent dst resp)
  append := fun q p resp hm => absurd hm (h.obs q p resp)

namespace Replica

variable {r : Replica} {s : Step}

theorem silent_quiet (r : Replica) : (quiet r).Silent := ⟨by simp [quiet], by simp [quiet]⟩

theorem silent_passed (r : Replica) (req : Req) (m : Mutation) (p : PrepInfo) (log : InMemOpLogHandler) :
    (r.passed req m p log).Silent :=
  ⟨by simp [passed, invokeForAllReplicas], by simp [passed]⟩

theorem silent_vote (r : Replica) (v o : Nat) : (r.vote v o).Silent := ⟨by simp [vote], by simp [vote]⟩

theorem silent_joined (r : Replica) (info : ViewStartInfo) (kvMap : KvMap) (ops : List (Nat × Op)) (now : Nat) :
    (r.joined info kvMap ops now).Silent :=
  ⟨by simp [joined], by simp [joined]⟩

theorem silent_recoverEnd {nonce now : Nat} (h : r.recoverEnd nonce now = some s) : s.Silent := by
  obtain ⟨resp, rfl⟩ := recoverEnd_eq_some h
  exact ⟨by simp [recoveredFrom], by simp [recoveredFrom]⟩

theorem silent_handle {msg : Msg} {now : Nat} (h : r.handle now msg = .ok s) : s.Silent := by
  cases handles_of_handle h <;> exact silent_quiet _

/-- **Only the queue's thread answers a `Prepare`.** -/
theorem silent_act {a : Act} {now : Nat} (ha : a ≠ .prepLocked) (h : r.act now a = .ok s) : s.Silent := by
  cases performs_of_act h with
  | acked => exact absurd rfl ha
  | okCounted => exact ⟨by simp, by simp⟩
  | counted => exact silent_passed _ _ _ _ _
  | woken => exact silent_passed _ _ _ _ _
  | votedAtOnce => exact silent_vote _ _ _
  | voted => exact silent_vote _ _ _
  | startedBackup => exact silent_joined _ _ _ _ _
  | enteredJoined info kvMap ops =>
    have hj := silent_joined r.entering info kvMap ops now
    refine ⟨hj.sent, fun q p resp hm => ?_⟩
    rcases List.mem_cons.1 hm with hm | hm
    · cases hm
    · exact hj.obs q p resp hm
  | startedPrimary => exact ⟨by simp [started, invokeForAllReplicas], by simp [started]⟩
  | recovered _ nonce _ hb h => exact silent_recoverEnd h
  | chose info cnt c call sent hb hc hsent =>
    refine ⟨fun dst resp hm => ?_, by simp⟩
    rcases hsent with rfl | rfl <;> simp at hm
  | nextCandidate info cnt c call sent hb hc hsent =>
    refine ⟨fun dst resp hm => ?_, by simp⟩
    rcases hsent with rfl | ⟨-, rfl⟩ <;> simp at hm
  | prepared => exact ⟨by simp [invokeForAllReplicas], by simp⟩
  | timedOut => exact ⟨by simp [replicateTimeout], by simp [replicateTimeout]⟩
  | finished => exact ⟨by simp [clientFinish], by simp [clientFinish]⟩
  | beat => exact ⟨by simp [heartBeat, invokeForAllReplicas], by simp [heartBeat]⟩
  | entered => exact ⟨by simp [invokeForAllReplicas], by simp⟩
  | recoverSent => exact ⟨by simp [recoverBegin, invokeForAllReplicas], by simp [recoverBegin]⟩
  | recAnswered => exact ⟨fun dst resp hm => (by cases (mem_sendTo hm).1), by simp [processRecoveryReqLocked]⟩
  | _ => exact ⟨by simp [quiet], by simp [quiet]⟩

/-- The operation waits: in the queue, or for the lock. -/
def Waits (r : Replica) (p : PrepInfo) : Prop := p ∈ r.prepReqQ ∨ r.ppit = some p

end Replica

/-- What waits has waited before or just arrived. -/
theorem Move.waits {R : Rules} {tr : List Obs} {r r' : Replica} {msg : Option Msg} {sent : List Packet} {os : List Obs}
    (m : Move R tr r msg r' sent os) {p : PrepInfo} (h : r'.Waits p) : r.Waits p ∨ msg = some (.prepare p) := by
  cases m with
  | queue p' hs hv =>
    rcases h with h | h
    · rcases List.mem_append.1 h with h | h
      · exact .inl (.inl h)
      · rw [List.mem_singleton.1 h]
        exact .inr rfl
    · exact .inl (.inr h)
  | pop p' rest ppit hq hp =>
    refine .inl (.inl ?_)
    rw [hq]
    rcases h with h | h
    · exact List.mem_cons_of_mem _ h
    · rcases hp with hp | hp <;> cases hp.symm.trans h
      exact List.mem_cons_self
  | ack p' hp =>
    rcases h with h | h
    · exact .inl (.inl h)
    · cases h
  | _ => exact .inl h

theorem Chain.waits {R : Rules} {tr : List Obs} {r r' : Replica} {msg : Option Msg} {sent : List Packet} {os : List Obs}
    (hch : Chain R tr r msg r' sent os) {p : PrepInfo} (h : r'.Waits p) : r.Waits p ∨ msg = some (.prepare p) := by
  induction hch with
  | one m => exact m.waits h
  | more _ m ih =>
    rcases m.waits h with h | h
    · exact ih h
    · cases h

namespace Replica

variable {r : Replica} {s : Step}

theorem Recovers.waits (h : r.Recovers s) {p : PrepInfo} (hw : s.rep.Waits p) : r.Waits p := by
  obtain ⟨nonce, now, -, h⟩ := h
  obtain ⟨resp, rfl⟩ := recoverEnd_eq_some h
  exact hw

/-- The operation that has the lock next has the number that follows, and is of the replica's view. -/
def keepsView (r : Replica) : LocalEvent → Bool
  | .act .prepLocked _ =>
    match r.ppit with
    | some p => decide (p.opNum = r.opNum + 1 → p.viewNum = r.viewNum)
    | none => true
  | _ => true

/-- The runs of one replica, its view the same where `processPrepInfo` tests it and where it appends. -/
abbrev KeptRuns (r : Replica) : Replica → List (LocalEvent × Step) → Prop :=
  Run.Reach (alone r) (fun r _ e => keepsView r e)

/-- **The queue's thread answers in the view of the `Prepare`**, when that is the replica's. -/
theorem means_prepLocked {tr : List (LocalEvent × Step)} {now : Nat} (hw : ∀ p, r.Waits p → Arrived p tr)
    (hk : keepsView r (.act .prepLocked now) = true) (h : r.act now .prepLocked = .ok s) :
    AckMeans tr (.act .prepLocked now, s) := by
  cases performs_of_act h with
  | acked p hp hl hn =>
    have hv : p.viewNum = r.viewNum := by
      simp only [keepsView, hp, decide_eq_true_eq] at hk
      exact hk hn
    refine ⟨fun dst resp hm => ?_, fun q p' resp hm => ?_⟩
    · cases (mem_sendTo hm).1
      refine ⟨p, hw p (.inr hp), hv, rfl, ?_⟩
      rw [PrepInfo.append_eq, InMemOpLogHandler.opAt_push, PrepInfo.entry_opNum, if_pos rfl]
      rfl
    · cases List.mem_singleton.1 hm
      exact hv
  | recovered _ nonce _ hb => rcases hb with ⟨hb, -⟩ | ⟨hb, -⟩ <;> cases hb

theorem KeptRuns.means {r₀ : Replica} {tr : List (LocalEvent × Step)} (hf : r₀.Fresh) (h : KeptRuns r₀ r tr) :
    (∀ p, r.Waits p → Arrived p tr) ∧ Run.Each AckMeans tr := by
  refine alone_invariant (P := fun r tr => (∀ p, r.Waits p → Arrived p tr) ∧ Run.Each AckMeans tr) ?_ ?_ ?_ h
  · refine ⟨fun p hp => ?_, Run.each_nil⟩
    cases hf <;> rcases hp with hp | hp <;> cases hp
  · intro r tr e hP
    exact ⟨fun p hp => (hP.1 p hp).append _, hP.2.concat ((silent_quiet _).means tr e)⟩
  · intro r tr e s hr hP hk hs
    refine ⟨fun p hp => ?_, hP.2.concat ?_⟩
    · rcases section_cases hs (phase_of_reach hf hr) [] with hch | hrec
      · rcases hch.waits hp with hw | hmsg
        · exact (hP.1 p hw).append _
        · cases e with
          | act a now => cases hmsg
          | recv msg now =>
            cases hmsg
            exact ⟨now, by simp⟩
      · exact (hP.1 p (hrec.waits hp)).append _
    · cases e with
      | recv msg now => exact (silent_handle hs).means tr _
      | act a now =>
        by_cases ha : a = .prepLocked
        · subst ha
          exact means_prepLocked hP.1 hk hs
        · exact (silent_act ha hs).means tr _

end Replica

/-- **A `PrepareOk` of view `w` is for an operation prepared in view `w`**: in every run of one replica, whatever
arrives and however its threads alternate, as long as the operation that has the lock next is of the replica's view. -/
theorem ack_means {r₀ r : Replica} {tr : List (LocalEvent × Step)} (hf : r₀.Fresh) (h : Replica.KeptRuns r₀ r tr) :
    Run.Each AckMeans tr :=
  (h.means hf).2

/-- A `Prepare` that is taken up and answered. -/
def answeringEvents : List LocalEvent :=
  [.recv (.prepare (.ofKey 0 1 0 [slash, 120])) 0, .act .prepCheck 0, .act .prepLocked 0]

theorem ack_means_three : ∃ r tr, Replica.KeptRuns (.init 3 2) r tr ∧ Run.Each AckMeans tr ∧
    ∃ x ∈ tr, ⟨0, .prepareOk ⟨0, 1, 2⟩⟩ ∈ x.2.sent := by
  obtain ⟨r, tr, h, hq⟩ : ∃ r tr, Replica.KeptRuns (.init 3 2) r tr ∧
      tr.any (fun x => decide (⟨0, .prepareOk ⟨0, 1, 2⟩⟩ ∈ x.2.sent)) = true :=
    Run.exists_reach_of_exec answeringEvents _ (by decide +kernel)
  refine ⟨r, tr, h, ack_means (.init 3 2) h, ?_⟩
  simpa only [List.any_eq_true, decide_eq_true_eq] using hq

/-- Operation `2` of view `0` passes the tests; the replica changes to view `1`, whose primary has a log of one
entry; then operation `2` gets the lock. -/
def racingEvents : List LocalEvent :=
  [.recv (.prepare (.ofKey 0 1 0 [slash, 120])) 0, .act .prepCheck 0, .act .prepLocked 0, .recv (.commit ⟨0, 1⟩) 0,
    .act .commitLocked 0, .recv (.prepare (.ofKey 0 2 1 [slash, 121])) 0, .act .prepCheck 0, .act .changeViewBegin 9,
    .recv (.startViewChange ⟨1, 1⟩) 9, .act .changeViewCount 9, .act (.candidate .answered) 9,
    .recv (.startView ⟨1, [⟨⟨[slash, 120], []⟩, .update, 1, true⟩], 1, 1, 1⟩) 9, .act .startViewCount 9,
    .act .hbWake 9, .act .prepLocked 9]

/-- The `Prepare`s that arrived are of view `0`. -/
def LocalEvent.ofFirstView : LocalEvent → Bool
  | .recv (.prepare p) _ => decide (p.viewNum = 0)
  | _ => true

theorem ack_means_fails : ¬ ∀ r₀ r tr, Replica.Fresh r₀ → Run.Reach (Replica.alone r₀) (fun _ _ _ => true) r tr →
    Run.Each AckMeans tr := by
  intro hall
  obtain ⟨r, tr, h, hq⟩ : ∃ r tr, Run.Reach (Replica.alone (.init 3 2)) (fun _ _ _ => true) r tr ∧
      (tr.any (fun x => decide (⟨1, .prepareOk ⟨1, 2, 2⟩⟩ ∈ x.2.sent)) && tr.all (fun x => x.1.ofFirstView)) = true :=
    Run.exists_reach_of_exec racingEvents _ (by decide +kernel)
  simp only [Bool.and_eq_true, List.any_eq_true, List.all_eq_true, decide_eq_true_eq] at hq
  obtain ⟨⟨x, hx, hsent⟩, hfirst⟩ := hq
  obtain ⟨tr₁, tr₂, rfl⟩ := List.append_of_mem hx
  obtain ⟨p, ⟨now, hp⟩, hv, -⟩ := (hall _ r _ (.init 3 2) h tr₁ x tr₂ rfl).answer _ _ hsent
  obtain ⟨y, hy, he⟩ := List.mem_map.1 hp
  have h0 := hfirst y (List.mem_append_left _ hy)
  rw [he] at h0
  rw [of_decide_eq_true h0] at hv
  cases hv

end MetaDR
