import MetaDR.Alone
import MetaDR.Replay
/-!
# LockOrder — `kvMemMutex` and `_repMutex` taken in both orders

A client's call takes the store's mutex and then `_repMutex`; the commit handler, `changeView` and `recover` take
`_repMutex` and then, when they apply an entry, the store's.  What keeps the two apart is the role: a call goes on to
`_repMutex` only on a primary, and a `NORMAL` primary neither changes views nor follows commits.  But `isPrimary` does
not ask for the status, and a candidate counts as primary: its clients can take the store's mutex while its view
change replays a log (`no_cyclic_wait_fails`).  Calls at `NORMAL` primaries only, and no new view while one waits, and
there is no such state (`no_cyclic_wait`).
-/
namespace MetaDR

/-- The replay loop comes to a committed entry before it ends or finds none. -/
def replayCalls (log : InMemOpLogHandler) : List Nat → Bool
  | [] => false
  | i :: is =>
    match log.getLogEntry i with
    | none => false
    | some entry => entry.committed || replayCalls log is

theorem replayCalls_of_replay {log : InMemOpLogHandler} :
    ∀ {is : List Nat} {kvMap kvMap' : KvMap} {ops : List (Nat × Op)},
      replay log is kvMap = some (kvMap', ops) → ops ≠ [] →
      replayCalls log is = true
  | [], _, _, _, h, hne => by
    cases h
    exact absurd rfl hne
  | i :: is, kvMap, kvMap', ops, h, hne => by
    unfold replay at h
    unfold replayCalls
    cases he : log.getLogEntry i with
    | none =>
      rw [he] at h
      cases h
    | some e =>
      rw [he] at h
      dsimp only at h ⊢
      split at h
      · rename_i hc
        rw [hc, Bool.true_or]
      · rw [replayCalls_of_replay h hne, Bool.or_true]

theorem Mutation.isPrimary_of_enter {isPrimary : Bool} {kvMap : KvMap} {m : Mutation} {u : Unit}
    (h : m.enter isPrimary kvMap = .ok u) : isPrimary = true := by
  cases m with
  | set key val => simpa [Mutation.enter] using h
  | remove key =>
    simp only [Mutation.enter] at h
    split at h
    · cases h
    · split at h
      · assumption
      · cases h

namespace Replica

/-- `updateNewView(viewNum, isPrimary)` comes to a callback into the store. -/
def Replays (r : Replica) (viewNum : Nat) (isPrimary : Bool) : Prop :=
  ∃ info, r.TakesUp viewNum isPrimary info ∧
    (∃ e, (InMemOpLogHandler.setLog info.opLog).getLogEntry r.commitNum = some e ∧ e.committed = true) ∧
    replayCalls (.setLog info.opLog)
      (List.range' (r.commitNum + 1) ((InMemOpLogHandler.setLog info.opLog).logSize - (r.commitNum + 1))) = true

/-- **A thread with `_repMutex` comes to a callback into the store**: the listener thread in the commit handler, or the
heart-beat thread in `updateNewView` or `recover`. -/
inductive CallsBack (r : Replica) : Prop where
  | commit (ci : CommitInfo) (s : Step) (hi : r.listener = some (.commit ci)) (hl : r.repMutexFree = true)
      (hs : r.processCommitLocked ci = some s) (ho : s.obs.any Obs.isApplied = true)
  | started (now : Nat) (hl : r.repMutexFree = true) (hw : r.wantsViewChange now = true)
      (hn : r.viewNum + 1 ∈ r.viewStartInfoMap) (hr : r.entering.Replays (r.viewNum + 1) false)
  | primary (viewNum : Nat) (hb : r.hb = .doWait viewNum)
      (hq : r.quorumReached (r.doViewChangeMap.cnt viewNum) = true) (hr : r.Replays viewNum true)
  | backup (viewNum : Nat) (hb : r.hb = .viewWait viewNum) (hc : r.startViewMap.cnt viewNum = 1)
      (hr : r.Replays viewNum false)
  | recover (nonce now : Nat) (s : Step)
      (hb : (r.hb = .recoverSent nonce ∧ r.responseDone nonce = true) ∨ r.hb = .recoverWait nonce)
      (hs : r.recoverEnd nonce now = some s) (ho : s.obs.any Obs.isApplied = true)

/-- A client's call has `kvMemMutex` and waits for `_repMutex`. -/
def clientLocked (r : Replica) : Bool :=
  match r.client with
  | .locked _ _ => true
  | _ => false

theorem TakesUp.replays {r : Replica} {viewNum : Nat} {b : Bool} {info : ViewStartInfo} {kvMap : KvMap}
    {ops : List (Nat × Op)} (h : r.TakesUp viewNum b info) (ha : r.Adopts info kvMap ops) (hne : ops ≠ []) :
    r.Replays viewNum b :=
  ⟨info, h, ha.entry, replayCalls_of_replay ha.replay hne⟩

/-- **No callback is left out**: where a section other than the client's applies an entry, its thread came to a
callback. -/
theorem callsBack_of_applied {r : Replica} {a : Act} {now : Nat} {s : Step} (h : r.act now a = .ok s)
    (ha : a ≠ .clientFinish)
    (ho : s.obs.any Obs.isApplied = true) : r.CallsBack := by
  cases performs_of_act h with
  | finished => exact absurd rfl ha
  | committed ci log entry hi hl =>
    simp only [act, hi, hl, if_true] at h
    exact .commit ci _ hi hl (Outcome.withStore_eq_ok h).1 ho
  | enteredJoined info kvMap ops hl hw hi hn hado hs =>
    have hne : ops ≠ [] := fun he => by subst he; cases ho
    exact .started now hl hw (Finmap.mem_of_lookup_eq_some hi)
      (TakesUp.replays (r := r.entering) (.backup info hi hn) hado hne)
  | startedPrimary v candidate kvMap ops hb hd hq hc hn hado hs =>
    have hne : ops ≠ [] := fun he => by subst he; cases ho
    exact .primary v hb hd (TakesUp.replays (.primary candidate hq hc hn) hado hne)
  | startedBackup v info kvMap ops hb hd hi hn hado hs =>
    have hne : ops ≠ [] := fun he => by subst he; cases ho
    exact .backup v hb hd (TakesUp.replays (.backup info hi hn) hado hne)
  | recovered _ nonce _ hb hend hs =>
    exact .recover nonce now s (hb.imp (fun h => h.2) (fun h => h.2)) hend ho
  | _ => cases ho

/-- The commit handler goes on to the next entry at this `Commit`, if the log has it. -/
def follows (r : Replica) (ci : CommitInfo) : Bool := decide (ci.viewNum = r.viewNum ∧ r.commitNum < ci.commitNum)

/-- Nothing changes views or follows commits here. -/
structure Steady (r : Replica) : Prop where
  isPrimary : r.isPrimary = true
  status : r.status = .normal
  listener : ∀ ci, r.listener = some (.commit ci) → r.follows ci = false

/-- While a client's call has the store's mutex and waits for `_repMutex`, no other thread comes to need the store's. -/
def LockSafe (r : Replica) : Prop := r.clientLocked = true → r.Steady

theorem Fresh.lockSafe {r : Replica} (h : r.Fresh) : r.LockSafe := fun hl => by cases h <;> cases hl

theorem Steady.hb {r : Replica} (h : r.Steady) (hp : r.Phase) : r.hb = .idle := hp.hb_eq_idle h.status

theorem Steady.not_wantsViewChange {r : Replica} (h : r.Steady) (now : Nat) : r.wantsViewChange now = false := by
  simp [wantsViewChange, h.isPrimary, h.status]

structure SameRole (r r' : Replica) : Prop where
  client : r'.client = r.client
  isPrimary : r'.isPrimary = r.isPrimary
  status : r'.status = r.status
  viewNum : r'.viewNum = r.viewNum
  commitNum : r'.commitNum = r.commitNum
  listener : ∀ ci, r'.listener = some (.commit ci) → r.listener = some (.commit ci)

theorem SameRole.lockSafe {r r' : Replica} (h : SameRole r r') (hs : r.LockSafe) : r'.LockSafe := fun hl => by
  obtain ⟨h1, h2, h3, h4, h5, h6⟩ := h
  have hst := hs (by rw [clientLocked, ← h1]; exact hl)
  refine ⟨h2.trans hst.isPrimary, h3.trans hst.status, fun ci hci => ?_⟩
  rw [follows, h4, h5]
  exact hst.listener ci (h6 ci hci)

def mutates (r : Replica) (req : Req) : Bool :=
  match req.front r.isPrimary r.kvMap with
  | .ok (.mutate _) => true
  | _ => false

/-- What a run keeps to: calls go on to `_repMutex` at `NORMAL` primaries that follow no `Commit`, and while one
waits no `StartView` is taken up and no `Commit` followed. -/
def gated (r : Replica) : LocalEvent → Bool
  | .act (.clientCall req) _ =>
    !(r.isPrimary && r.mutates req) || (decide (r.status = .normal) && !r.committing.any r.follows)
  | .recv (.startView info) _ => !r.clientLocked || decide (info.viewNum < r.viewNum)
  | .recv (.commit ci) _ => !r.clientLocked || !r.follows ci
  | _ => true

abbrev GatedRuns (r : Replica) : Replica → List (LocalEvent × Step) → Prop :=
  Run.Reach (alone r) (fun r _ e => gated r e)

/-- A section of the heart-beat thread under `_repMutex`: the client does not move, and the thread was not idle. -/
theorem LockSafe.of_hb {r r' : Replica} (h : r.LockSafe) (hp : r.Phase) (hc : r'.client = r.client)
    (hb : r.hb ≠ .idle) :
    r'.LockSafe := fun hl => absurd ((h (by rw [clientLocked, ← hc]; exact hl)).hb hp) hb

/-- **What the sections of the threads keep.** -/
theorem LockSafe.act {r : Replica} (h : r.LockSafe) (hp : r.Phase) {a : Act} {now : Nat} {s : Step}
    (hg : r.gated (.act a now) = true) (hs : r.act now a = .ok s) : s.rep.LockSafe := by
  have hsame : ∀ {r' : Replica}, SameRole r r' → r'.LockSafe := fun hr => hr.lockSafe h
  have hbusy : ∀ {r' : Replica} {pc : HbPc}, r.hb = pc → pc ≠ .idle → r'.client = r.client → r'.LockSafe :=
    fun he hne hc => h.of_hb hp hc (fun hi => hne (he.symm.trans hi))
  cases performs_of_act hs with
  | replied => exact h
  | locked req m u hc hf hu =>
    -- the call goes on at a steady replica
    have hpri : r.isPrimary = true := Mutation.isPrimary_of_enter hu
    have hmut : r.mutates req = true := by rw [mutates, hf]
    simp only [gated, hpri, hmut, Bool.and_self, Bool.not_true, Bool.false_or, Bool.and_eq_true, decide_eq_true_eq,
      Bool.not_eq_true'] at hg
    refine fun _ => ⟨hpri, hg.1, fun ci hci => ?_⟩
    have hl := hg.2
    rw [committing_eq_some.2 (show r.listener = some (.commit ci) from hci)] at hl
    exact hl
  | refused | prepared | waits | counted | woken | timedOut | finished => exact fun hl => by cases hl
  | committed ci log entry hi hl hv hn =>
    intro hlocked
    have hf := (h hlocked).listener ci hi
    exact absurd ⟨hv, hn⟩ (of_decide_eq_false hf)
  | entered hl hw =>
    intro hlocked
    exact absurd hw (by rw [(h hlocked).not_wantsViewChange now]; exact Bool.false_ne_true)
  | enteredJoined info kvMap ops hl hw =>
    intro hlocked
    exact absurd hw (by rw [(h hlocked).not_wantsViewChange now]; exact Bool.false_ne_true)
  | beat => exact h
  | enough | okCounted | unlistened | voteCounted | startCounted =>
    exact hsame ⟨rfl, rfl, rfl, rfl, rfl, fun _ hci => by cases hci⟩
  | popped | acked | recoverSent | recPopped | recAnswered => exact hsame ⟨rfl, rfl, rfl, rfl, rfl, fun _ hci => hci⟩
  | startWaits v o hb => exact hbusy hb HbPc.noConfusion rfl
  | votedAtOnce v o hb => exact hbusy hb HbPc.noConfusion rfl
  | voted v o hb => exact hbusy hb HbPc.noConfusion rfl
  | nextCandidate info cnt c call sent hb => exact hbusy hb HbPc.noConfusion rfl
  | choseSelf info cnt call hb => exact hbusy hb HbPc.noConfusion rfl
  | chose info cnt c call sent hb => exact hbusy hb HbPc.noConfusion rfl
  | startedPrimary v candidate kvMap ops hb => exact hbusy hb HbPc.noConfusion rfl
  | startedBackup v info kvMap ops hb => exact hbusy hb HbPc.noConfusion rfl
  | gaveUp hb => rcases hb with ⟨v, o, hb⟩ | ⟨v, hb⟩ | ⟨v, hb⟩ <;> exact hbusy hb HbPc.noConfusion rfl
  | recoverWaits nonce hb => exact hbusy hb HbPc.noConfusion rfl
  | recovered _ nonce _ hb hend =>
    obtain ⟨resp, rfl⟩ := recoverEnd_eq_some hend
    rcases hb with ⟨-, hb, -⟩ | ⟨-, hb⟩ <;> exact hbusy hb HbPc.noConfusion rfl

/-- **What the messages keep.** -/
theorem LockSafe.handle {r : Replica} (h : r.LockSafe) {msg : Msg} {now : Nat} {s : Step}
    (hg : r.gated (.recv msg now) = true) (hs : r.handle now msg = .ok s) : s.rep.LockSafe := by
  have hungated : ∀ {b : Bool}, r.clientLocked = true → (!r.clientLocked || b) = true → b = true := fun hl hb => by
    rwa [hl, Bool.not_true, Bool.false_or] at hb
  cases handles_of_handle hs with
  | listens ci hst =>
    refine fun hl => ⟨(h hl).isPrimary, (h hl).status, fun ci' hci => ?_⟩
    cases hci
    exact Bool.not_eq_true' _ ▸ hungated hl hg
  | startStored info hv => exact fun hl => absurd (of_decide_eq_true (hungated hl hg)) (by omega)
  | okTested | voteStored =>
    exact SameRole.lockSafe (r := r) ⟨rfl, rfl, rfl, rfl, rfl, fun _ hci => by cases hci⟩ h
  | _ => exact SameRole.lockSafe (r := r) ⟨rfl, rfl, rfl, rfl, rfl, fun _ hci => hci⟩ h

theorem GatedRuns.lockSafe {r₀ r : Replica} {tr : List (LocalEvent × Step)} (hf : r₀.Fresh) (h : GatedRuns r₀ r tr) :
    r.LockSafe := by
  refine alone_invariant (P := fun r _ => r.LockSafe) hf.lockSafe
    (fun r tr e hP => SameRole.lockSafe (r := r) ⟨rfl, rfl, rfl, rfl, rfl, fun _ hci => hci⟩ hP)
    (fun r tr e s hr hP hg hs => ?_) h
  cases e with
  | act a now => exact hP.act (phase_of_reach hf hr) hg hs
  | recv msg now => exact hP.handle hg hs

end Replica

end MetaDR
