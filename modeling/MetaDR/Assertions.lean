import MetaDR.Alone
import MetaDR.Lib.Lockstep
/-!
# Assertions — the two builds of a backup

The sections that take up `Prepare`s and `Commit`s, once as they are built with assertions and once with `NDEBUG`.  The
assertion on the commit number is an assignment: with it the entry after the replica's own commit number is committed,
without it the entry the message names.  The two builds go through the same states exactly as long as no `Commit` runs
ahead of the next number (`assertions_inert`).
-/
namespace MetaDR

/-- What happens at a backup: a message arrives, or a thread goes on with one. -/
inductive BackupEvent where
  | prepare (prepInfo : PrepInfo) (now : Nat)
  | commit (commitInfo : CommitInfo) (now : Nat)
  | prepCheck (now : Nat)
  | prepLocked (now : Nat)
  | commitLocked (now : Nat)
  deriving DecidableEq, Repr

def BackupEvent.toLocal : BackupEvent → LocalEvent
  | .prepare prepInfo now => .recv (.prepare prepInfo) now
  | .commit commitInfo now => .recv (.commit commitInfo) now
  | .prepCheck now => .act .prepCheck now
  | .prepLocked now => .act .prepLocked now
  | .commitLocked now => .act .commitLocked now

def Outcome.rep? : Outcome → Option Replica
  | .ok s => some s.rep
  | _ => none

namespace Replica

/-- `processPrepInfo` under the lock, with `NDEBUG`. -/
def processPrepInfoLockedNdebug (r : Replica) (prepInfo : PrepInfo) : Step :=
  let resp : PrepResponse := ⟨r.viewNum, prepInfo.opNum, r.id⟩
  ⟨{ r.endPoint r.priId with
      ppit := none
      opNum := prepInfo.opNum
      log := prepInfo.append r.log },
    r.sendTo r.priId (.prepareOk resp), [.acked r.id prepInfo resp]⟩

/-- `processCommit` under the lock, with `NDEBUG`; `none` would be an access behind the end of the log's map. -/
def processCommitLockedNdebug (r : Replica) (commitInfo : CommitInfo) : Option Step :=
  let r := { r with listener := none }
  if commitInfo.viewNum ≠ r.viewNum then some (quiet r)
  else if r.commitNum < commitInfo.commitNum then
    if r.log.hasEntry commitInfo.commitNum = false then some (quiet r)
    else
      match r.log.commit commitInfo.commitNum with
      | none => none
      | some log =>
        match log.getLogEntry commitInfo.commitNum with
        | none => none
        | some entry => some
            ⟨{ r with commitNum := commitInfo.commitNum, log := log, kvMap := entry.op.apply r.kvMap }, [],
              [.applied r.id commitInfo.commitNum entry.op]⟩
  else some (quiet r)

/-- The sections as they are built with `NDEBUG`; the others have no assertion. -/
def ndebugSection (r : Replica) : BackupEvent → Outcome
  | .prepLocked _ =>
    match r.ppit with
    | some prepInfo => if r.repMutexFree = true then .ok (r.processPrepInfoLockedNdebug prepInfo) else .blocked
    | none => .blocked
  | .commitLocked _ =>
    match r.listener with
    | some (.commit commitInfo) =>
      if r.repMutexFree = true then .withStore r (r.processCommitLockedNdebug commitInfo) else .blocked
    | _ => .blocked
  | e => r.localSection e.toLocal

def assertStep (r : Replica) (e : BackupEvent) : Option Replica := (r.localSection e.toLocal).rep?

def ndebugStep (r : Replica) (e : BackupEvent) : Option Replica := (r.ndebugSection e).rep?

/-- What the two builds are compared by. -/
def data (r : Replica) : Nat × Nat × InMemOpLogHandler × KvMap := (r.commitNum, r.opNum, r.log, r.kvMap)

/-- The `Commit` that has the lock does not run ahead of the next number, or nothing is logged where it or the next
number points. -/
def NumbersNext (r : Replica) : BackupEvent → Prop
  | .commitLocked _ => ∀ ci ∈ r.committing, ci.viewNum = r.viewNum →
      ci.commitNum ≤ r.commitNum + 1 ∨
        (r.log.hasEntry (r.commitNum + 1) = false ∧ r.log.hasEntry ci.commitNum = false)
  | _ => True

instance (r : Replica) : DecidablePred r.NumbersNext
  | .commitLocked _ => inferInstanceAs (Decidable (∀ ci ∈ r.committing, ci.viewNum = r.viewNum →
      ci.commitNum ≤ r.commitNum + 1 ∨
        (r.log.hasEntry (r.commitNum + 1) = false ∧ r.log.hasEntry ci.commitNum = false)))
  | .prepare _ _ => isTrue trivial
  | .commit _ _ => isTrue trivial
  | .prepCheck _ => isTrue trivial
  | .prepLocked _ => isTrue trivial

/-- The `Commit` that has the lock commits and applies the entry it names, when that is logged and not yet
committed. -/
def CommitsNamed (r : Replica) : BackupEvent → Prop
  | .commitLocked now => ∀ ci r', r.listener = some (.commit ci) → r.assertStep (.commitLocked now) = some r' →
      ci.viewNum = r.viewNum → r.commitNum < ci.commitNum → ∀ entry, r.log.getLogEntry ci.commitNum = some entry →
        r'.commitNum = ci.commitNum ∧ r'.kvMap = entry.op.apply r.kvMap ∧
          ∀ n, r'.log.getLogEntry n = if n = ci.commitNum then some { entry with committed := true }
            else r.log.getLogEntry n
  | _ => True

section

variable {r r' : Replica} {ci : CommitInfo} {s : Step}

theorem rep?_withStore {o : Option Step} (h : (Outcome.withStore r o).rep? = some r') :
    ∃ s, o = some s ∧ Outcome.withStore r o = .ok s ∧ s.rep = r' := by
  cases hw : Outcome.withStore r o with
  | blocked => rw [hw] at h; cases h
  | abort => rw [hw] at h; cases h
  | ok s =>
    rw [hw] at h
    exact ⟨s, (Outcome.withStore_eq_ok hw).1, rfl, Option.some.inj h⟩

theorem assertStep_commitLocked {now : Nat} (hi : r.listener = some (.commit ci))
    (h : r.assertStep (.commitLocked now) = some r') :
    r.repMutexFree = true ∧ ∃ s, r.processCommitLocked ci = some s ∧
      Outcome.withStore r (r.processCommitLocked ci) = .ok s ∧ s.rep = r' := by
  simp only [assertStep, BackupEvent.toLocal, localSection, act, hi] at h
  split at h
  · exact ⟨‹_›, rep?_withStore h⟩
  · cases h

theorem ndebugStep_commitLocked {now : Nat} (hi : r.listener = some (.commit ci))
    (h : r.ndebugStep (.commitLocked now) = some r') : ∃ s, r.processCommitLockedNdebug ci = some s ∧ s.rep = r' := by
  simp only [ndebugStep, ndebugSection, hi] at h
  split at h
  · obtain ⟨s, hs, -, he⟩ := rep?_withStore h
    exact ⟨s, hs, he⟩
  · cases h

/-- **With assertions** the next number is committed, whatever the message says. -/
theorem processCommitLocked_ahead (hv : ci.viewNum = r.viewNum) (hn : r.commitNum < ci.commitNum)
    (h : r.processCommitLocked ci = some s) :
    (r.log.hasEntry (r.commitNum + 1) = false ∧ s = quiet { r with listener := none }) ∨
      (r.log.hasEntry (r.commitNum + 1) = true ∧ s.rep.commitNum = r.commitNum + 1) := by
  unfold processCommitLocked at h
  dsimp only at h
  rw [if_neg (not_not_intro hv), if_neg (fun hle => absurd hle.2 (Nat.not_le.2 hn)), if_pos hn] at h
  split at h
  · cases h
    exact .inl ⟨‹_›, rfl⟩
  · rename_i he
    split at h
    · cases h
    · split at h
      · cases h
      · cases h
        exact .inr ⟨Bool.eq_true_of_not_eq_false he, rfl⟩

/-- **With `NDEBUG`** the number the message names is. -/
theorem processCommitLockedNdebug_ahead (hv : ci.viewNum = r.viewNum) (hn : r.commitNum < ci.commitNum)
    (h : r.processCommitLockedNdebug ci = some s) :
    (r.log.hasEntry ci.commitNum = false ∧ s = quiet { r with listener := none }) ∨
      (r.log.hasEntry ci.commitNum = true ∧ s.rep.commitNum = ci.commitNum) := by
  unfold processCommitLockedNdebug at h
  dsimp only at h
  rw [if_neg (not_not_intro hv), if_pos hn] at h
  split at h
  · cases h
    exact .inl ⟨‹_›, rfl⟩
  · rename_i he
    split at h
    · cases h
    · split at h
      · cases h
      · cases h
        exact .inr ⟨Bool.eq_true_of_not_eq_false he, rfl⟩

/-- **A `Commit` that does not run ahead** is handled alike. -/
theorem processCommitLockedNdebug_of_next (h : r.processCommitLocked ci = some s)
    (hp : ci.viewNum = r.viewNum → ci.commitNum ≤ r.commitNum + 1 ∨
      (r.log.hasEntry (r.commitNum + 1) = false ∧ r.log.hasEntry ci.commitNum = false)) :
    r.processCommitLockedNdebug ci = some s := by
  unfold processCommitLockedNdebug
  dsimp only
  by_cases hv : ci.viewNum = r.viewNum
  · rw [if_neg (not_not_intro hv)]
    by_cases hn : r.commitNum < ci.commitNum
    · rw [if_pos hn]
      rcases hp hv with hle | ⟨he, he'⟩
      · -- the next number
        obtain hc : ci.commitNum = r.commitNum + 1 := by omega
        unfold processCommitLocked at h
        dsimp only at h
        rw [if_neg (not_not_intro hv), if_neg (fun hle => absurd hle.2 (Nat.not_le.2 hn)), if_pos hn, ← hc] at h
        exact h
      · rw [if_pos he']
        rcases processCommitLocked_ahead hv hn h with ⟨-, rfl⟩ | ⟨he'', -⟩
        · rfl
        · rw [he] at he''
          cases he''
    · rw [if_neg hn]
      unfold processCommitLocked at h
      dsimp only at h
      rw [if_neg (not_not_intro hv)] at h
      split at h
      · split at h
        · cases h
        · split at h
          · exact h
          · cases h
      · exact h
  · rw [if_pos hv]
    unfold processCommitLocked at h
    dsimp only at h
    rwa [if_pos hv] at h

/-- The assertion of the queue's thread only ends the process. -/
theorem eq_ndebug_of_processPrepInfoLocked {prepInfo : PrepInfo} (h : r.processPrepInfoLocked prepInfo = some s) :
    s = r.processPrepInfoLockedNdebug prepInfo := by
  unfold processPrepInfoLocked at h
  split at h
  · cases h
  · exact (Option.some.inj h).symm

end

/-- **One step, where the condition holds**: the builds go to the same state. -/
theorem ndebugStep_of_next {r : Replica} {e : BackupEvent} {r' : Replica} (h : r.assertStep e = some r')
    (hp : r.NumbersNext e) : r.ndebugStep e = some r' := by
  cases e with
  | prepLocked now =>
    simp only [assertStep, BackupEvent.toLocal, localSection, act] at h
    simp only [ndebugStep, ndebugSection]
    cases hpp : r.ppit with
    | none => rw [hpp] at h; cases h
    | some prepInfo =>
      rw [hpp] at h
      dsimp only at h ⊢
      by_cases hl : r.repMutexFree = true
      · rw [if_pos hl] at h ⊢
        cases hs : r.processPrepInfoLocked prepInfo with
        | none => rw [hs] at h; cases h
        | some s =>
          rw [hs] at h
          rw [← eq_ndebug_of_processPrepInfoLocked hs]
          exact h
      · rw [if_neg hl] at h
        cases h
  | commitLocked now =>
    cases hc : r.committing with
    | none =>
      simp only [assertStep, BackupEvent.toLocal, localSection, act] at h
      split at h
      · rename_i ci hi
        rw [committing_eq_some.2 hi] at hc
        cases hc
      · cases h
    | some ci =>
      have hi := committing_eq_some.1 hc
      obtain ⟨hl, s, hs, hw, rfl⟩ := assertStep_commitLocked hi h
      rw [hs] at hw
      simp only [ndebugStep, ndebugSection, hi]
      rw [if_pos hl, processCommitLockedNdebug_of_next hs (hp ci hc), hw]
      rfl
  | _ => exact h

/-- **One step, where it does not**: they commit different numbers. -/
theorem data_ne_of_ahead {r : Replica} {e : BackupEvent} {r' r'' : Replica} (h : r.assertStep e = some r')
    (hp : ¬ r.NumbersNext e) (h' : r.ndebugStep e = some r'') : r''.data ≠ r'.data := by
  cases e with
  | commitLocked now =>
    simp only [NumbersNext, not_forall, not_or] at hp
    obtain ⟨ci, hc, hv, hlt, hent⟩ := hp
    have hi := committing_eq_some.1 hc
    obtain ⟨-, s, hs, -, rfl⟩ := assertStep_commitLocked hi h
    obtain ⟨s', hs', rfl⟩ := ndebugStep_commitLocked hi h'
    have hn : r.commitNum < ci.commitNum := by omega
    refine fun hd => ?_
    have hc : s'.rep.commitNum = s.rep.commitNum := congrArg Prod.fst hd
    rcases processCommitLocked_ahead hv hn hs with ⟨he, rfl⟩ | ⟨he, hc1⟩ <;>
      rcases processCommitLockedNdebug_ahead hv hn hs' with ⟨he', rfl⟩ | ⟨he', hc2⟩
    · exact hent ⟨he, he'⟩
    · have : s'.rep.commitNum = r.commitNum := hc
      omega
    · have : r.commitNum = s.rep.commitNum := hc
      omega
    · omega
  | _ => exact absurd trivial hp

theorem commitsNamed_of_next {r : Replica} {e : BackupEvent} (hp : r.NumbersNext e) : r.CommitsNamed e := by
  cases e with
  | commitLocked now =>
    intro ci r' hi h hv hn entry hentry
    obtain ⟨-, s, hs, -, rfl⟩ := assertStep_commitLocked hi h
    have hhas : r.log.hasEntry ci.commitNum = true := InMemOpLogHandler.hasEntry_iff.2 ⟨entry, hentry⟩
    have hs' := processCommitLockedNdebug_of_next hs (hp ci (committing_eq_some.2 hi))
    unfold processCommitLockedNdebug at hs'
    dsimp only at hs'
    rw [if_neg (not_not_intro hv), if_pos hn, if_neg (by rw [hhas]; exact Bool.noConfusion)] at hs'
    split at hs'
    · cases hs'
    · rename_i log hlog
      obtain ⟨e, he, -, hget⟩ := InMemOpLogHandler.commit_eq_some hlog
      obtain rfl : e = entry := Option.some.inj (he.symm.trans hentry)
      split at hs'
      · cases hs'
      · rename_i e' he'
        rw [hget, if_pos rfl] at he'
        cases he'
        cases hs'
        exact ⟨rfl, rfl, hget⟩
  | _ => trivial

end Replica

open Replica in
/-- **Assertions are inert exactly on `Commit`s that do not run ahead.**  Take any state and any sequence of sections
on `Prepare`s and `Commit`s that the build with assertions gets through: the build without goes through the same
states, and every `Commit` commits the entry it names, if and only if none that has the lock runs ahead of the next
number (or nothing is logged where either points). -/
theorem assertions_inert (r : Replica) (es : List BackupEvent) (rs : List Replica)
    (h : Lockstep.states assertStep r es = some rs) :
    ((∃ rs', Lockstep.states ndebugStep r es = some rs' ∧ rs'.map data = rs.map data) ∧
      Lockstep.Along assertStep CommitsNamed r es) ↔ Lockstep.Along assertStep NumbersNext r es := by
  have hiff : (∃ rs', Lockstep.states ndebugStep r es = some rs' ∧ rs'.map data = rs.map data) ↔
      Lockstep.Along assertStep NumbersNext r es :=
    Lockstep.states_iff (fun _ _ _ => ndebugStep_of_next) (fun _ _ _ _ => data_ne_of_ahead) h
  rw [hiff]
  exact and_iff_left_of_imp (Lockstep.Along.mono (fun _ _ => commitsNamed_of_next))

/-- Two operations are taken up, then a `Commit` for the number given. -/
def commitEvents (n : Nat) : List BackupEvent :=
  [.prepare (.ofKey 0 1 0 [slash, 120]) 0, .prepCheck 0, .prepLocked 0, .prepare (.ofKey 0 2 0 [slash, 121]) 0,
    .prepCheck 0, .prepLocked 0, .commit ⟨0, n⟩ 0, .commitLocked 0]

/-- The commit numbers a build goes through. -/
def commitNums (step : Replica → BackupEvent → Option Replica) (n : Nat) : Option (List Nat) :=
  (Lockstep.states step (Replica.init 3 1) (commitEvents n)).map (fun rs => rs.map Replica.commitNum)

open Replica in
theorem assertions_inert_three : ∃ rs rs', Lockstep.states assertStep (.init 3 1) (commitEvents 1) = some rs ∧
    Lockstep.states ndebugStep (.init 3 1) (commitEvents 1) = some rs' ∧ rs'.map data = rs.map data ∧
    rs.map commitNum = [0, 0, 0, 0, 0, 0, 0, 1] := by
  have ha : commitNums assertStep 1 = some [0, 0, 0, 0, 0, 0, 0, 1] := by decide +kernel
  obtain ⟨rs, hrs, hra⟩ := Option.map_eq_some_iff.1 ha
  obtain ⟨⟨rs', hrs', hd⟩, -⟩ := (assertions_inert _ _ rs hrs).2 (by decide +kernel)
  exact ⟨rs, rs', hrs, hrs', hd, hra⟩

open Replica in
theorem assertions_inert_fails : ¬ ∀ r es rs, Lockstep.states assertStep r es = some rs →
    (∃ rs', Lockstep.states ndebugStep r es = some rs' ∧ rs'.map data = rs.map data) ∧
      Lockstep.Along assertStep CommitsNamed r es := by
  intro hall
  have ha : commitNums assertStep 2 = some [0, 0, 0, 0, 0, 0, 0, 1] := by decide +kernel
  have hn : commitNums ndebugStep 2 = some [0, 0, 0, 0, 0, 0, 0, 2] := by decide +kernel
  obtain ⟨rs, hrs, hra⟩ := Option.map_eq_some_iff.1 ha
  obtain ⟨⟨rs', hrs', hd⟩, -⟩ := hall _ _ rs hrs
  rw [commitNums, hrs', Option.map_some, Option.some.injEq] at hn
  have hc : rs'.map commitNum = rs.map commitNum := by
    have := congrArg (List.map Prod.fst) hd
    rwa [List.map_map, List.map_map] at this
  rw [hn, hra] at hc
  cases hc

end MetaDR
