import MetaDR.Carried
import MetaDR.KvStoreSpec
import MetaDR.LogShape
/-!
# Asked — nothing is kept that was not asked for

The operations a replica has in its log, the pairs in its store and whatever a message carries come from calls of
clients, through any number of view changes, restarts and recoveries (`only_asked`).  So a bound on the keys of the
calls is a bound on the keys of all messages (`Asking.sendable`).
-/
namespace MetaDR

/-- The operation a call asks for, if it is one that changes the store. -/
def Req.asked : Req → Option Op
  | .create arg => some ⟨.update, ⟨pathKey (comps arg.key), arg.val⟩⟩
  | .set arg => some ⟨.update, ⟨pathKey (comps arg.key), arg.val⟩⟩
  | .remove arg => some ⟨.delete, ⟨pathKey (comps arg), []⟩⟩
  | .get _ => none
  | .list _ => none

/-- The operations a message carries. -/
def Msg.ops : Msg → List Op
  | .prepare prepInfo => [prepInfo.op]
  | .doViewChange info => info.opLog.map LogEntry.op
  | .startView info => info.opLog.map LogEntry.op
  | .recoveryResponse resp => resp.opLog.map LogEntry.op
  | _ => []

theorem Req.asked_of_mutate {isPrimary : Bool} {kvMap : KvMap} {req : Req} {m : Mutation}
    (h : req.front isPrimary kvMap = .ok (.mutate m)) : req.asked = some m.op := by
  obtain ⟨arg, rfl | rfl, -, rfl⟩ | ⟨arg, rfl, -, rfl⟩ := Req.front_mutate h <;> rfl

theorem Msg.Within.ops {L : Limits} {msg : Msg} (h : msg.Within L) : ∀ op ∈ msg.ops, L.op op := by
  have hlog : ∀ log : OpLog, log.Within L → ∀ op ∈ log.map LogEntry.op, L.op op := by
    intro log hl op ho
    obtain ⟨e, he, rfl⟩ := List.mem_map.1 ho
    exact (hl.2 e he).1
  cases msg with
  | prepare prepInfo =>
    intro op ho
    rw [List.mem_singleton.1 ho]
    exact PrepInfo.Within.op h
  | doViewChange info => exact hlog _ h.1
  | startView info => exact hlog _ h.1
  | recoveryResponse resp => exact hlog _ h.1
  | _ => exact fun op ho => absurd ho List.not_mem_nil

/-- **Nothing is kept that was not asked for**: every operation in a log, every pair in a store and every operation in
a message is what a call of a client asks for. -/
theorem only_asked {n : Nat} {q : Req → Bool} {t : Nat} {c : Cluster} {tr : List Obs} (h : Asking n q t c tr) :
    (∀ i, i < n → (∀ k e, (c.reps i).log.getLogEntry k = some e → ∃ req, q req = true ∧ req.asked = some e.op) ∧
      ∀ key val, (c.reps i).kvMap.lookup key = some val →
        ∃ req, q req = true ∧ req.asked = some ⟨.update, ⟨key, val⟩⟩) ∧
    ∀ p ∈ c.net, ∀ op ∈ p.msg.ops, ∃ req, q req = true ∧ req.asked = some op := by
  have hw := h.within (P := fun op => ∃ req, q req = true ∧ req.asked = some op)
    (fun _ _ req _ _ hq _ hf _ => ⟨req, hq, Req.asked_of_mutate hf⟩)
  exact ⟨fun i hi => ⟨fun k e he => ((hw.reps i hi).log.2 k e he).1, (hw.reps i hi).kvMap⟩,
    fun p hp => (hw.net p hp).ops⟩

/-- Replica `2` is started again and takes its state from the primary. -/
def recoveredEvents : List Event :=
  settledEvents ++ [.crash 2, .restart 2 false, .act 2 .recoverBegin 7,
    .deliver ⟨0, .recoveryRequest ⟨2, 7⟩⟩ 7, .act 0 .recReqCheck 7, .act 0 .recReqLocked 7,
    .deliver ⟨1, .recoveryRequest ⟨2, 7⟩⟩ 7, .act 1 .recReqCheck 7, .act 1 .recReqLocked 7,
    .deliver ⟨2, .recoveryResponse ⟨0, 7, 0, true, [settledEntry], 1, 1⟩⟩ 7,
    .deliver ⟨2, .recoveryResponse ⟨0, 7, 1, false, [], 0, 0⟩⟩ 7, .act 2 .recoverTest 7]

theorem only_asked_three : ∃ c tr, Asking 3 (fun req => decide (req.asked = some settledEntry.op)) 7 c tr ∧
    (c.reps 2).status = .normal ∧ (c.reps 2).log.getLogEntry 1 = some settledEntry ∧
    ∃ req : Req, req.asked = some settledEntry.op := by
  obtain ⟨c, tr, h, hc⟩ := exists_asking (n := 3) (q := fun req => decide (req.asked = some settledEntry.op)) (t := 7)
    recoveredEvents (fun c _ => decide ((c.reps 2).status = .normal) &&
      decide ((c.reps 2).log.getLogEntry 1 = some settledEntry)) (by decide +kernel)
  simp only [Bool.and_eq_true, decide_eq_true_eq] at hc
  obtain ⟨req, -, hr⟩ := ((only_asked h).1 2 (by decide)).1 1 settledEntry hc.2
  exact ⟨c, tr, h, hc.1, hc.2, req, hr⟩

end MetaDR
