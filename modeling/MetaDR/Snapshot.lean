import MetaDR.Moves
/-!
# Snapshot — a log handed over whole

`getLog` is what a view change and a recovery send, `setLog` what they install.  The calls of `IOpLogHandler` come in
any order, each with what it answers; a failed assertion ends the process, so nothing is answered after it.  A handler
that installs the log of another answers as the other from then on, and a list that gives each number one entry comes
back as it was installed (`snapshot_round_trip`).
-/
namespace MetaDR

/-- The calls of `IOpLogHandler`. -/
inductive LogCall where
  | appendUpdate (kvPair : KvPair) (opNum : Nat)
  | appendDelete (key : Str) (opNum : Nat)
  | logSize
  | getLogEntry (opNum : Nat)
  | getLog
  | setLog (opLog : OpLog)
  | hasEntry (opNum : Nat)
  | commit (opNum : Nat)

/-- What a call returns. -/
inductive LogAnswer where
  | done
  | size (n : Nat)
  | entry (e : LogEntry)
  | log (opLog : OpLog)
  | has (b : Bool)
  deriving DecidableEq, Repr

namespace InMemOpLogHandler

/-- A call and what it leaves; `none` is the failed assertion.  `setLog` clears the handler it is called on. -/
def call (h : InMemOpLogHandler) : LogCall → Option (InMemOpLogHandler × LogAnswer)
  | .appendUpdate kvPair opNum => some (h.appendUpdate kvPair opNum, .done)
  | .appendDelete key opNum => some (h.appendDelete key opNum, .done)
  | .logSize => some (h, .size h.logSize)
  | .getLogEntry opNum => (h.getLogEntry opNum).map (fun e => (h, .entry e))
  | .getLog => some (h, .log h.getLog)
  | .setLog opLog => some (setLog opLog, .done)
  | .hasEntry opNum => some (h, .has (h.hasEntry opNum))
  | .commit opNum => (h.commit opNum).map (fun h' => (h', .done))

/-- The answers to one call after the other; `none` is the failed assertion, and the last. -/
def answers (h : InMemOpLogHandler) : List LogCall → List (Option LogAnswer)
  | [] => []
  | c :: cs =>
    match h.call c with
    | none => [none]
    | some (h', a) => some a :: h'.answers cs

/-- **A list that gives each number one entry comes back as it was installed.** -/
theorem getLog_setLog {opLog : OpLog} (hone : ∀ e ∈ opLog, ∀ e' ∈ opLog, e.opNum = e'.opNum → e = e') :
    (setLog opLog).getLog = opLog := by
  have hget : ∀ e ∈ opLog, ((setLog opLog).opLog.lookup ∘ LogEntry.opNum) e = some e :=
    fun e he => getLogEntry_setLog_of_unique hone he
  rw [getLog, opNums_setLog, List.filterMap_map, List.filterMap_congr hget, List.filterMap_some]

end InMemOpLogHandler

/-- **A log round-trips through its snapshot.**  A handler that installs the log of `h` answers every further sequence
of calls as `h` does, whatever it held before and however `h` came about; a list that gives each number one entry is
what `getLog` returns after `setLog`.  So a vote and the recovery response that a primary sends to a configured replica
give the sender's log back, and a `StartView` the log its sender took up. -/
theorem snapshot_round_trip (h h' : InMemOpLogHandler) (opLog : OpLog) (r : Replica) :
    (∀ cs, h'.answers (.setLog h.getLog :: cs) = some .done :: h.answers cs) ∧
      ((∀ e ∈ opLog, ∀ e' ∈ opLog, e.opNum = e'.opNum → e = e') →
        h'.answers [.setLog opLog, .getLog] = [some .done, some (.log opLog)]) ∧
      (∀ v o info, .voted r.id info ∈ (r.vote v o).obs → .setLog info.opLog = r.log) ∧
      (∀ candidate, InMemOpLogHandler.setLog (r.viewStartInfo candidate).opLog = .setLog candidate.opLog) ∧
      (∀ req, req.replicaId ∈ r.replicas ∧ req.replicaId ≠ r.id → r.isPrimary = true →
        ∃ resp, (r.processRecoveryReqLocked req).sent = [⟨req.replicaId, .recoveryResponse resp⟩] ∧
          resp.isPrimary = true) ∧
      ∀ req q resp, q ∈ (r.processRecoveryReqLocked req).sent → q.msg = .recoveryResponse resp →
        resp.isPrimary = true → .setLog resp.opLog = r.log := by
  refine ⟨fun cs => ?_, fun hone => ?_, fun v o info hv => ?_, fun candidate => ?_, fun req hto hpri => ?_,
    fun req q resp hq hm hp => ?_⟩
  · show some LogAnswer.done :: (InMemOpLogHandler.setLog h.getLog).answers cs = _
    rw [InMemOpLogHandler.setLog_getLog]
  · show [some LogAnswer.done, some (.log (InMemOpLogHandler.setLog opLog).getLog)] = _
    rw [InMemOpLogHandler.getLog_setLog hone]
  · cases List.mem_singleton.1 hv
    exact InMemOpLogHandler.setLog_getLog r.log
  · exact InMemOpLogHandler.setLog_getLog _
  · exact ⟨_, if_pos hto, decide_eq_true (of_decide_eq_true hpri).symm⟩
  · obtain ⟨rfl, -⟩ := Replica.mem_sendTo hq
    cases hm
    show InMemOpLogHandler.setLog (if _ then _ else _) = _
    rw [if_pos hp]
    exact InMemOpLogHandler.setLog_getLog r.log

/-- A log that lists number `1` twice. -/
def reusedLog : InMemOpLogHandler := (InMemOpLogHandler.empty.appendUpdate ⟨[97], [98]⟩ 1).appendDelete [97] 1

theorem snapshot_round_trip_reused : reusedLog.getLog.length = 2 ∧ reusedLog.logSize = 1 ∧
    InMemOpLogHandler.empty.answers [.setLog reusedLog.getLog, .getLog] = [some .done, some (.log reusedLog.getLog)] :=
  ⟨by decide, by decide,
    (snapshot_round_trip reusedLog .empty reusedLog.getLog (.init 3 0)).2.1 (by decide)⟩

end MetaDR
