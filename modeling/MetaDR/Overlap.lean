import MetaDR.QuorumWait
import MetaDR.KvStoreSpec
import MetaDR.Lib.Kept
/-!
# Overlap — a client's mutation and a change of role

A call of `create`, `remove` or `set` asks three times whether the replica is the primary: the API before anything
else, the store when it has `kvMemMutex`, the replicator when it has `_repMutex`.  Only the first answers the client;
the other two are assertions, and the heart-beat thread may give the role away before either.  `Replica.clientCall`
has all up to the store's mutex as one section; here it is three (`callers_of_alone`).  The calls are all replicated
by a `NORMAL` primary or answered with an error exactly when the role is still there at both assertions, and the key
of a `remove` at the store's look-up: when each section in between that takes either away is followed, still in between,
by one that gives it back (`mutations_answered`).
-/
namespace MetaDR

/-- The API functions that change the store. -/
def Req.mutation : Req → Bool
  | .create _ => true
  | .remove _ => true
  | .set _ => true
  | .get _ => false
  | .list _ => false

/-- Where a call of `create`, `remove` or `set` stands before it has `kvMemMutex`. -/
inductive CallPc where
  | idle
  /-- `isPrimary` of the API said yes -/
  | tested (req : Req)
  /-- the checks on the key are over; `set` or `remove` of the store is called -/
  | entering (req : Req) (m : Mutation)
  deriving DecidableEq, Repr

/-- A replica and the part of its client listener thread that holds no mutex. -/
structure Caller where
  rep : Replica
  call : CallPc

inductive CallerEvent where
  /-- a mutation arrives, and `isPrimary` is asked -/
  | call (req : Req)
  /-- the checks on the key -/
  | check
  /-- the store's part up to its call of the replicator, under `kvMemMutex` -/
  | enter
  /-- anything else of `LocalEvent` -/
  | other (e : LocalEvent)
  deriving DecidableEq, Repr

/-- The whole of a call as one section is left to `get` and `list`, and the thread serves one call at a time. -/
def CallPc.leaves (call : CallPc) : LocalEvent → Bool
  | .act (.clientCall req) _ => !req.mutation && decide (call = .idle)
  | _ => true

def Outcome.obs : Outcome → List Obs
  | .ok s => s.obs
  | _ => []

/-- The replica behind a section; a failed assertion ends the process. -/
def Outcome.rep (o : Outcome) (r : Replica) : Replica :=
  match o with
  | .blocked => r
  | .abort => r.ended
  | .ok s => s.rep

/-- What happened: the state before a section, the section and how it went. -/
structure Happened where
  before : Caller
  event : CallerEvent
  outcome : Outcome

def Happened.obs (x : Happened) : List Obs := x.outcome.obs

def allSeen (tr : List Happened) : List Obs := tr.flatMap Happened.obs

@[simp] theorem allSeen_concat (tr : List Happened) (x : Happened) : allSeen (tr ++ [x]) = allSeen tr ++ x.obs := by
  simp [allSeen]

namespace Caller

/-- `isPrimary` of the API. -/
def test (c : Caller) (req : Req) : Outcome × CallPc :=
  if c.rep.isPrimary = true then (.ok (Replica.quiet c.rep), .tested req)
  else (.ok ⟨c.rep, [], [.replied c.rep.id req (.err .replicaNotPrimary)]⟩, .idle)

/-- What an API function does behind its test of the role, up to its call of the store. -/
def check (c : Caller) (req : Req) : Outcome × CallPc :=
  match req.front true c.rep.kvMap with
  | .error _ => (.abort, .idle)
  | .ok (.reply res) => (.ok ⟨c.rep, [], [.replied c.rep.id req res]⟩, .idle)
  | .ok (.mutate m) => (.ok (Replica.quiet c.rep), .entering req m)

/-- `set` or `remove` of the store up to its call of the replicator. -/
def enter (c : Caller) (req : Req) (m : Mutation) : Outcome × CallPc :=
  match m.enter c.rep.isPrimary c.rep.kvMap with
  | .error _ => (.abort, .idle)
  | .ok _ => (.ok (Replica.quiet { c.rep with client := .locked req m }), .idle)

def perform (c : Caller) : CallerEvent → Outcome × CallPc
  | .call req =>
    if req.mutation = true ∧ c.call = .idle ∧ c.rep.client = .idle then c.test req else (.blocked, c.call)
  | .check =>
    match c.call with
    | .tested req => c.check req
    | _ => (.blocked, c.call)
  | .enter =>
    match c.call with
    | .entering req m => c.enter req m
    | _ => (.blocked, c.call)
  | .other e => (if c.call.leaves e = true then c.rep.localSection e else .blocked, c.call)

def step (c : Caller) (e : CallerEvent) : Option (Caller × List Happened) :=
  if c.rep.up = true then
    match c.perform e with
    | (.blocked, _) => none
    | (o, call) => some (⟨o.rep c.rep, call⟩, [⟨c, e, o⟩])
  else none

end Caller

def callers (r : Replica) : Run.System Caller CallerEvent Happened := ⟨⟨r, .idle⟩, Caller.step⟩

abbrev CallerRuns (r : Replica) : Caller → List Happened → Prop := Run.Reach (callers r) (fun _ _ _ => true)

theorem Caller.step_of_perform {c : Caller} {e : CallerEvent} {o : Outcome} {call : CallPc} (hu : c.rep.up = true)
    (h : c.perform e = (o, call)) (ho : o ≠ .blocked) : c.step e = some (⟨o.rep c.rep, call⟩, [⟨c, e, o⟩]) := by
  rw [step, if_pos hu, h]
  cases o with
  | blocked => exact absurd rfl ho
  | abort => rfl
  | ok s => rfl

theorem Caller.perform_of_step {c c' : Caller} {e : CallerEvent} {os : List Happened} (h : c.step e = some (c', os)) :
    ∃ o call, c.perform e = (o, call) ∧ o ≠ .blocked ∧ c' = ⟨o.rep c.rep, call⟩ ∧ os = [⟨c, e, o⟩] := by
  unfold step at h
  split at h
  · split at h
    · cases h
    · rename_i o call hne hp
      cases h
      exact ⟨o, call, hp, hne, rfl, rfl⟩
  · cases h

/-- The checks on the key of a mutation do not fault. -/
theorem Req.front_mutation {req : Req} (h : req.mutation = true) (kvMap : KvMap) :
    ∃ f, req.front true kvMap = .ok f := by
  cases req with
  | create arg =>
    by_cases hw : WellFormed arg.key
    · exact ⟨_, create_wellFormed kvMap hw⟩
    · exact ⟨_, create_malformed kvMap hw⟩
  | remove arg =>
    by_cases hw : WellFormed arg
    · exact ⟨_, remove_wellFormed kvMap hw⟩
    · exact ⟨_, remove_malformed kvMap hw⟩
  | set arg =>
    by_cases hw : WellFormed arg.key
    · exact ⟨_, set_wellFormed kvMap hw⟩
    · exact ⟨_, set_malformed kvMap hw⟩
  | get arg => cases h
  | list arg => cases h

namespace Caller

variable {r₀ r r' : Replica} {c : Caller} {e : CallerEvent} {call : CallPc} {os : List Obs}

/-- A run leads to the state, and this was seen on it. -/
def Reached (r₀ : Replica) (c : Caller) (os : List Obs) : Prop := ∃ tr, CallerRuns r₀ c tr ∧ allSeen tr = os

theorem Reached.next {o : Outcome} (h : Reached r₀ c os) (hu : c.rep.up = true) (hp : c.perform e = (o, call))
    (ho : o ≠ .blocked) : Reached r₀ ⟨o.rep c.rep, call⟩ (os ++ o.obs) := by
  obtain ⟨tr, hr, rfl⟩ := h
  exact ⟨_, hr.step rfl (step_of_perform hu hp ho), allSeen_concat tr _⟩

theorem Reached.quiet (h : Reached r₀ c os) (hu : c.rep.up = true)
    (hp : c.perform e = (.ok (Replica.quiet r'), call)) : Reached r₀ ⟨r', call⟩ os := by
  have hn := h.next hu hp Outcome.noConfusion
  rwa [show (Outcome.ok (Replica.quiet r')).obs = [] from rfl, List.append_nil] at hn

/-- **A call in one section is a call in three**, one right after the other: they leave the same replica and let the
same be seen. -/
theorem Reached.clientCall {req : Req} (h : Reached r₀ ⟨r, .idle⟩ os) (hu : r.up = true) (hm : req.mutation = true)
    (hc : r.client = .idle) {o : Outcome} (ho : Outcome.ofOption (r.clientCall req) = o) :
    Reached r₀ ⟨o.rep r, .idle⟩ (os ++ o.obs) := by
  have hcall : perform ⟨r, .idle⟩ (.call req) = test ⟨r, .idle⟩ req := if_pos ⟨hm, rfl, hc⟩
  unfold Replica.clientCall at ho
  by_cases hpri : r.isPrimary = true
  · have htest : perform ⟨r, .idle⟩ (.call req) = (.ok (Replica.quiet r), .tested req) := hcall.trans (if_pos hpri)
    have h₁ : Reached r₀ ⟨r, .tested req⟩ os := h.quiet hu htest
    obtain ⟨f, hf⟩ := Req.front_mutation hm r.kvMap
    rw [hpri, hf] at ho
    cases f with
    | reply res =>
      have hcheck : perform ⟨r, .tested req⟩ .check = (.ok ⟨r, [], [.replied r.id req res]⟩, .idle) := by
        simp only [perform, check, hf]
      exact ho ▸ h₁.next hu hcheck Outcome.noConfusion
    | mutate m =>
      have hcheck : perform ⟨r, .tested req⟩ .check = (.ok (Replica.quiet r), .entering req m) := by
        simp only [perform, check, hf]
      have h₂ : Reached r₀ ⟨r, .entering req m⟩ os := h₁.quiet hu hcheck
      dsimp only at ho
      cases hen : m.enter true r.kvMap with
      | error f =>
        rw [hen] at ho
        have henter : perform ⟨r, .entering req m⟩ .enter = (.abort, .idle) := by
          simp only [perform, enter, hpri, hen]
        exact ho ▸ h₂.next hu henter Outcome.noConfusion
      | ok u =>
        rw [hen] at ho
        have henter : perform ⟨r, .entering req m⟩ .enter =
            (.ok (Replica.quiet { r with client := .locked req m }), .idle) := by
          simp only [perform, enter, hpri, hen]
        exact ho ▸ h₂.next hu henter Outcome.noConfusion
  · have htest : perform ⟨r, .idle⟩ (.call req) =
        (.ok ⟨r, [], [.replied r.id req (.err .replicaNotPrimary)]⟩, .idle) := hcall.trans (if_neg hpri)
    rw [Bool.eq_false_of_not_eq_true hpri, Req.front_false] at ho
    exact ho ▸ h.next hu htest Outcome.noConfusion

theorem Reached.local {e : LocalEvent} {o : Outcome} (h : Reached r₀ ⟨r, .idle⟩ os) (hu : r.up = true)
    (hs : r.localSection e = o) (ho : o ≠ .blocked) : Reached r₀ ⟨o.rep r, .idle⟩ (os ++ o.obs) := by
  have hother : CallPc.idle.leaves e = true → Reached r₀ ⟨o.rep r, .idle⟩ (os ++ o.obs) := fun hl =>
    h.next hu (e := .other e) (by rw [perform, if_pos hl, hs]) ho
  cases e with
  | recv msg now => exact hother rfl
  | act a now =>
    cases a with
    | clientCall req =>
      by_cases hm : req.mutation = true
      · simp only [Replica.localSection, Replica.act] at hs
        split at hs
        · rename_i hc
          exact h.clientCall hu hm hc hs
        · exact absurd hs.symm ho
      · exact hother (by simp [CallPc.leaves, hm])
    | _ => exact hother rfl

/-- **No run is lost by cutting the calls**: each run of `alone` is one of `callers` that lets the same be seen. -/
theorem callers_of_alone {tr : List (LocalEvent × Step)}
    (h : Run.Reach (Replica.alone r₀) (fun _ _ _ => true) r tr) : Reached r₀ ⟨r, .idle⟩ (seen tr) := by
  induction h with
  | init => exact ⟨[], .init, rfl⟩
  | @step r r' tr os e h _ hs ih =>
    obtain ⟨hu, ⟨ho, rfl, rfl⟩ | ⟨s, ho, rfl, rfl⟩⟩ := Replica.localStep_cases hs
    · rw [seen_concat]
      exact ih.local hu ho Outcome.noConfusion
    · rw [seen_concat]
      exact ih.local hu ho Outcome.noConfusion

end Caller

/-- A `NORMAL` primary has appended the operation and sent it. -/
def PreparedIn (tr : List Happened) (p : PrepInfo) : Prop :=
  ∃ y ∈ tr, (∃ q, .prepared q p ∈ y.obs) ∧ y.before.rep.isPrimary = true ∧ y.before.rep.status = .normal

def WonIn (tr : List Happened) (p : PrepInfo) : Prop := ∃ y ∈ tr, ∃ q, .quorum q p ∈ y.obs

theorem PreparedIn.append {tr : List Happened} {p : PrepInfo} (h : PreparedIn tr p) (ys : List Happened) :
    PreparedIn (tr ++ ys) p := by
  obtain ⟨y, hy, hp⟩ := h
  exact ⟨y, List.mem_append_left _ hy, hp⟩

theorem WonIn.append {tr : List Happened} {p : PrepInfo} (h : WonIn tr p) (ys : List Happened) :
    WonIn (tr ++ ys) p := by
  obtain ⟨y, hy, hp⟩ := h
  exact ⟨y, List.mem_append_left _ hy, hp⟩

/-- **What a call of `create`, `remove` or `set` may be answered**: an error, or `NONE` for an operation that a `NORMAL`
primary replicated. -/
inductive Answer (tr : List Happened) (x : Happened) (req : Req) : Result → Prop where
  | notPrimary : Answer tr x req (.err .replicaNotPrimary)
  | statusNotNormal : Answer tr x req (.err .statusNotNormal)
  | quorumNotReached : Answer tr x req (.err .quorumNotReached)
  /-- the checks on the key refuse it -/
  | refused (res : Result) (hx : x.event = .check) (hf : req.front true x.before.rep.kvMap = .ok (.reply res)) :
      Answer tr x req res
  | replicated (p : PrepInfo) (hp : PreparedIn tr p) (hw : WonIn tr p) (ha : ∃ q, .applied q p.opNum p.op ∈ x.obs) :
      Answer tr x req (.err .none)

/-- A section of the thread that serves a mutation. -/
def CallerEvent.serves : CallerEvent → Bool
  | .call _ => true
  | .check => true
  | .enter => true
  | .other (.act .replicateBegin _) => true
  | .other (.act .replicateCount _) => true
  | .other (.act .replicateWake _) => true
  | .other (.act .replicateTimeout _) => true
  | .other (.act .clientFinish _) => true
  | .other _ => false

/-- **A mutation is answered**: no section that serves it aborts, `NORMAL` primaries replicate it, and it is answered
as it may. -/
structure Happened.Answered (tr : List Happened) (x : Happened) : Prop where
  lives : x.event.serves = true → x.outcome ≠ .abort
  prepares : ∀ q p, .prepared q p ∈ x.obs → x.before.rep.isPrimary = true ∧ x.before.rep.status = .normal
  replies : ∀ q req res, .replied q req res ∈ x.obs → req.mutation = true → Answer tr x req res

/-- **The role is still there**: when the store has its mutex, with the key of a `remove`, and when the replicator has
its own. -/
def Happened.stillPrimary (x : Happened) : Bool :=
  match x.event, x.before.call with
  | .enter, .entering _ (.remove key) => x.before.rep.isPrimary && KvMemStore.hasKey x.before.rep.kvMap key
  | .enter, _ => x.before.rep.isPrimary
  | .other (.act .replicateBegin _), _ => x.before.rep.isPrimary
  | _, _ => true

/-- What the position of a call says of the run so far. -/
structure Caller.Served (c : Caller) (tr : List Happened) : Prop where
  phase : c.rep.Phase
  waitOk : c.rep.WaitOk
  tested : ∀ req, c.call = .tested req → req.mutation = true
  replicates : ∀ req m p, c.rep.replicates req m p → p.op = m.op ∧ PreparedIn tr p
  replicated : ∀ req m n, c.rep.client = .replicated req m n →
    ∃ p, p.opNum = n ∧ p.op = m.op ∧ PreparedIn tr p ∧ WonIn tr p

namespace Caller

variable {r₀ : Replica} {c : Caller} {tr : List Happened} {e : CallerEvent} {o : Outcome} {call : CallPc}

theorem served_init (hf : r₀.Fresh) : Served ⟨r₀, .idle⟩ [] := by
  have hc : r₀.client = .idle := by cases hf <;> rfl
  refine ⟨hf.phase, hf.waitOk, fun req h => (by cases h), fun req m p h => ?_, fun req m n h => ?_⟩
  · rcases h with h | h <;> rw [hc] at h <;> cases h
  · rw [hc] at h
    cases h

theorem Served.stays {r' : Replica} (h : c.Served tr) (hp : r'.Phase) (hw : r'.WaitOk) (hc : r'.client = c.rep.client)
    (ht : ∀ req, call = .tested req → req.mutation = true) (x : Happened) : Served ⟨r', call⟩ (tr ++ [x]) := by
  refine ⟨hp, hw, ht, fun req m p hr => ?_, fun req m n hr => ?_⟩
  · have hr' : c.rep.replicates req m p := by rwa [Replica.replicates, ← hc]
    exact (h.replicates req m p hr').imp_right (fun hp => hp.append _)
  · obtain ⟨p, hn, hop, hpr, hw⟩ := h.replicated req m n (hc.symm.trans hr)
    exact ⟨p, hn, hop, hpr.append _, hw.append _⟩

/-- The client's thread goes on in `replicate` or behind it. -/
theorem Served.moves {e : LocalEvent} {s : Step} (h : c.Served tr) (hp : s.rep.Phase) (hw : s.rep.WaitOk)
    (hm : c.rep.ClientMove s) : Served ⟨s.rep, c.call⟩ (tr ++ [⟨c, .other e, .ok s⟩]) := by
  have hlast : ∀ {q : Nat} {p : PrepInfo}, .prepared q p ∈ s.obs → c.rep.isPrimary = true → c.rep.status = .normal →
      PreparedIn (tr ++ [⟨c, .other e, .ok s⟩]) p := fun ho hpri hst =>
    ⟨_, List.mem_append_right _ (List.mem_singleton_self _), ⟨_, ho⟩, hpri, hst⟩
  have hno : ∀ {pc : ClientPc}, s.rep.client = pc → (∀ req m p, pc ≠ .prepared req m p ∧ pc ≠ .waiting req m p) →
      (∀ req m n, pc ≠ .replicated req m n) → Served ⟨s.rep, c.call⟩ (tr ++ [⟨c, .other e, .ok s⟩]) := fun hc h₁ h₂ =>
    ⟨hp, hw, h.tested, fun req m p hr => (hr.elim (fun hr => (h₁ req m p).1 (hc.symm.trans hr))
      (fun hr => (h₁ req m p).2 (hc.symm.trans hr))).elim, fun req m n hr => (h₂ req m n (hc.symm.trans hr)).elim⟩
  cases hm with
  | stays hc => exact h.stays hp hw hc h.tested _
  | refused req m _ _ hr => exact hno (by rw [hr]) (by simp) (by simp)
  | timedOut req hc => exact hno hc (by simp) (by simp)
  | finished req m n _ hc => exact hno hc (by simp) (by simp)
  | prepared req m p _ hpri hst hop hc ho =>
    refine ⟨hp, hw, h.tested, fun req' m' p' hr => ?_, fun req' m' n' hr => ?_⟩
    · rcases hr with hr | hr <;> cases hc.symm.trans hr
      exact ⟨hop, hlast (ho ▸ List.mem_singleton_self _) hpri hst⟩
    · cases hc.symm.trans hr
  | waits req m p hr₀ hc =>
    refine ⟨hp, hw, h.tested, fun req' m' p' hr => ?_, fun req' m' n' hr => ?_⟩
    · rcases hr with hr | hr <;> cases hc.symm.trans hr
      exact (h.replicates req m p hr₀).imp_right (fun hp => hp.append _)
    · cases hc.symm.trans hr
  | won req m p hr₀ hc ho =>
    refine ⟨hp, hw, h.tested, fun req' m' p' hr => ?_, fun req' m' n' hr => ?_⟩
    · rcases hr with hr | hr <;> cases hc.symm.trans hr
    · cases hc.symm.trans hr
      obtain ⟨hop, hpr⟩ := h.replicates req m p hr₀
      exact ⟨p, rfl, hop, hpr.append _, _, List.mem_append_right _ (List.mem_singleton_self _), _,
        ho ▸ List.mem_cons_self⟩

/-- What the client's thread lets be seen in `replicate` and behind it. -/
theorem Served.answered {e : LocalEvent} {s : Step} (h : c.Served tr) (hm : c.rep.ClientMove s) :
    Happened.Answered tr ⟨c, .other e, .ok s⟩ := by
  refine ⟨fun _ => Outcome.noConfusion, fun q p ho => ?_, fun q req res ho _ => ?_⟩
  · cases hm with
    | stays _ hs => cases hs _ ho
    | prepared _ _ _ _ hpri hst => exact ⟨hpri, hst⟩
    | refused _ _ _ _ _ hs | waits _ _ _ _ _ hs | won _ _ _ _ _ hs | timedOut _ _ hs | finished _ _ _ _ _ hs =>
      have ho' : Obs.prepared q p ∈ s.obs := ho
      rw [hs] at ho'
      simp at ho'
  · have ho' : Obs.replied q req res ∈ s.obs := ho
    cases hm with
    | stays _ hs => cases hs _ ho
    | refused _ _ _ _ _ hs =>
      rw [hs, List.mem_singleton, Obs.replied.injEq] at ho'
      obtain ⟨-, -, rfl⟩ := ho'
      exact .statusNotNormal
    | timedOut _ _ hs =>
      rw [hs, List.mem_singleton, Obs.replied.injEq] at ho'
      obtain ⟨-, -, rfl⟩ := ho'
      exact .quorumNotReached
    | finished req' m n hc _ hs =>
      obtain ⟨p, rfl, hop, hpr, hw⟩ := h.replicated req' m n hc
      rw [hs] at ho'
      simp only [List.mem_cons, reduceCtorEq, Obs.replied.injEq, false_or, List.not_mem_nil, or_false] at ho'
      obtain ⟨-, -, rfl⟩ := ho'
      refine .replicated p hpr hw ⟨c.rep.id, ?_⟩
      show Obs.applied c.rep.id p.opNum p.op ∈ s.obs
      rw [hs, hop]
      exact List.mem_cons_self
    | prepared _ _ _ _ _ _ _ _ hs | waits _ _ _ _ _ hs | won _ _ _ _ _ hs =>
      rw [hs] at ho'
      simp at ho'

/-- `replicate` does not abort once it has sent the operation: its entry is in the log. -/
theorem Served.replicateEnd_ne_abort {req : Req} {m : Mutation} {p : PrepInfo} {r : Replica} (h : c.Served tr)
    (hr : c.rep.replicates req m p) (hl : r.log = c.rep.log) :
    Outcome.ofOption (r.replicateEnd req m p) ≠ .abort := by
  have he := (h.waitOk p ⟨req, m, hr⟩).entry
  rw [← hl] at he
  obtain ⟨s, hs, -⟩ := Replica.commits_replicateEnd req m he
  rw [hs]
  exact Outcome.noConfusion

theorem enter_iff {req : Req} {m : Mutation} (hc : c.call = .entering req m) :
    (c.enter req m).1 ≠ .abort ↔ Happened.stillPrimary ⟨c, .enter, o⟩ = true := by
  cases m with
  | set key val =>
    by_cases hp : c.rep.isPrimary = true <;> simp [enter, Mutation.enter, Happened.stillPrimary, hc, hp]
  | remove key =>
    by_cases hk : KvMemStore.hasKey c.rep.kvMap key = true <;> by_cases hp : c.rep.isPrimary = true <;>
      simp [enter, Mutation.enter, Happened.stillPrimary, hc, hk, hp]

theorem replicateBegin_iff {r : Replica} {req : Req} {m : Mutation} :
    Outcome.ofOption (r.replicateBegin req m) ≠ .abort ↔ r.isPrimary = true := by
  cases m <;> by_cases hp : r.isPrimary = true <;>
    simp [Replica.replicateBegin, Replica.replicateUpdate, Replica.replicateDelete, hp, Outcome.ofOption]

theorem Served.act_iff (h : c.Served tr) {a : Act} {now : Nat} (hs : c.rep.act now a = o) (ho : o ≠ .blocked) :
    ((CallerEvent.other (.act a now)).serves = true → o ≠ .abort) ↔
      Happened.stillPrimary ⟨c, .other (.act a now), o⟩ = true := by
  cases a with
  | replicateBegin =>
    refine (imp_iff_right rfl).trans ?_
    simp only [Replica.act] at hs
    split at hs
    · split at hs
      · rw [← hs]
        exact replicateBegin_iff
      · exact absurd hs.symm ho
    · exact absurd hs.symm ho
  | replicateCount =>
    refine iff_of_true (fun _ => ?_) rfl
    simp only [Replica.act] at hs
    split at hs
    · rename_i req m p hc
      rw [← hs, Replica.replicateCount]
      dsimp only
      split
      · exact h.replicateEnd_ne_abort (.inl hc) rfl
      · exact Outcome.noConfusion
    · exact absurd hs.symm ho
  | replicateWake =>
    refine iff_of_true (fun _ => ?_) rfl
    simp only [Replica.act] at hs
    split at hs
    · rename_i req m p hc
      exact hs ▸ h.replicateEnd_ne_abort (.inr hc) rfl
    · exact absurd hs.symm ho
  | replicateTimeout | clientFinish =>
    refine iff_of_true (fun _ => ?_) rfl
    simp only [Replica.act] at hs
    split at hs
    · exact hs ▸ Outcome.noConfusion
    · exact absurd hs.symm ho
  | _ => exact iff_of_true (fun hf => by cases hf) rfl

/-- **What a section of `callers` does**: a part of a call, or a section of the replica. -/
inductive Does (c : Caller) : CallerEvent → Outcome → CallPc → Prop where
  | asked (req : Req) (hm : req.mutation = true) (hp : c.rep.isPrimary = true) :
      Does c (.call req) (.ok (Replica.quiet c.rep)) (.tested req)
  | notPrimary (req : Req) (hc : c.rep.client = .idle) :
      Does c (.call req) (.ok ⟨c.rep, [], [.replied c.rep.id req (.err .replicaNotPrimary)]⟩) .idle
  | faulted (req : Req) (f : Fault) (hc : c.call = .tested req) (hf : req.front true c.rep.kvMap = .error f) :
      Does c .check .abort .idle
  | refused (req : Req) (res : Result) (hf : req.front true c.rep.kvMap = .ok (.reply res)) :
      Does c .check (.ok ⟨c.rep, [], [.replied c.rep.id req res]⟩) .idle
  | checked (req : Req) (m : Mutation) (hc : c.call = .tested req)
      (hf : req.front true c.rep.kvMap = .ok (.mutate m)) :
      Does c .check (.ok (Replica.quiet c.rep)) (.entering req m)
  | failed (req : Req) (m : Mutation) (hc : c.call = .entering req m) (he : (c.enter req m).1 = .abort) :
      Does c .enter .abort .idle
  | locked (req : Req) (m : Mutation) (hc : c.call = .entering req m) (he : (c.enter req m).1 ≠ .abort) :
      Does c .enter (.ok (Replica.quiet { c.rep with client := .locked req m })) .idle
  | ended (e : LocalEvent) (hs : c.rep.localSection e = .abort) : Does c (.other e) .abort c.call
  | replied (req : Req) (res : Result) (now : Nat) (hm : req.mutation = false)
      (hs : c.rep.localSection (.act (.clientCall req) now) = .ok ⟨c.rep, [], [.replied c.rep.id req res]⟩) :
      Does c (.other (.act (.clientCall req) now)) (.ok ⟨c.rep, [], [.replied c.rep.id req res]⟩) c.call
  | moved (e : LocalEvent) (s : Step) (hs : c.rep.localSection e = .ok s) (hm : c.rep.ClientMove s) :
      Does c (.other e) (.ok s) c.call

theorem does_of_perform (hp : c.perform e = (o, call)) (ho : o ≠ .blocked) : c.Does e o call := by
  cases e with
  | call req =>
    simp only [perform, test] at hp
    split at hp
    · rename_i hreq
      split at hp <;> cases hp
      · rename_i hpri
        exact .asked req hreq.1 hpri
      · exact .notPrimary req hreq.2.2
    · cases hp
      exact absurd rfl ho
  | check =>
    simp only [perform] at hp
    split at hp
    · rename_i req hc
      unfold check at hp
      split at hp <;> cases hp
      · rename_i f hf
        exact .faulted req f hc hf
      · rename_i res hf
        exact .refused req res hf
      · rename_i m hf
        exact .checked req m hc hf
    · cases hp
      exact absurd rfl ho
  | enter =>
    simp only [perform] at hp
    split at hp
    · rename_i req m hc
      have he : (c.enter req m).1 = o := by rw [hp]
      unfold enter at hp
      split at hp <;> cases hp
      · exact .failed req m hc he
      · exact .locked req m hc (by rw [he]; exact Outcome.noConfusion)
    · cases hp
      exact absurd rfl ho
  | other e =>
    obtain ⟨hs, rfl⟩ := Prod.mk.inj hp
    split at hs
    · rename_i hleft
      cases o with
      | blocked => exact absurd rfl ho
      | abort => exact .ended e hs
      | ok s =>
        cases e with
        | recv msg now => exact .moved _ s hs (Replica.clientMove_of_handle hs)
        | act a now =>
          by_cases ha : ∃ req, a = .clientCall req
          · obtain ⟨req, rfl⟩ := ha
            simp only [CallPc.leaves, Bool.and_eq_true, Bool.not_eq_true'] at hleft
            have hs' : c.rep.act now (.clientCall req) = .ok s := hs
            cases Replica.performs_of_act hs' with
            | replied _ res => exact .replied req res now hleft.1 hs
            | locked _ m _ _ hf =>
              exfalso
              obtain ⟨arg, rfl | rfl, -⟩ | ⟨arg, rfl, -⟩ := Req.front_mutate hf <;> cases hleft.1
            | recovered _ _ _ hb => rcases hb with ⟨hb, -⟩ | ⟨hb, -⟩ <;> cases hb
          · exact .moved _ s hs (Replica.clientMove_of_act (fun req hreq => ha ⟨req, hreq⟩) hs)
    · exact absurd hs.symm ho

/-- **When a section that serves a mutation lives.** -/
theorem Served.lives_iff (h : c.Served tr) (hp : c.perform e = (o, call)) (ho : o ≠ .blocked) :
    (e.serves = true → o ≠ .abort) ↔ Happened.stillPrimary ⟨c, e, o⟩ = true := by
  have hother : ∀ {e : LocalEvent} {o : Outcome}, c.rep.localSection e = o → o ≠ .blocked →
      (((CallerEvent.other e).serves = true → o ≠ .abort) ↔ Happened.stillPrimary ⟨c, .other e, o⟩ = true) := by
    intro e o hs ho
    cases e with
    | recv msg now => exact iff_of_true (fun hf => by cases hf) rfl
    | act a now => exact h.act_iff hs ho
  cases does_of_perform hp ho with
  | asked | notPrimary | refused | checked => exact iff_of_true (fun _ => Outcome.noConfusion) rfl
  | faulted req f hc hf =>
    obtain ⟨f', hf'⟩ := Req.front_mutation (h.tested req hc) c.rep.kvMap
    cases hf.symm.trans hf'
  | failed req m hc he => exact iff_of_false (fun hl => hl rfl rfl) (fun hsp => (enter_iff hc).2 hsp he)
  | locked req m hc he => exact iff_of_true (fun _ => Outcome.noConfusion) ((enter_iff hc).1 he)
  | ended e hs => exact hother hs ho
  | replied req res now hm hs => exact hother hs ho
  | moved e s hs => exact hother hs ho

/-- A section of a call before it has `kvMemMutex`, and one of `get` or `list`, moves no operation. -/
theorem Served.of_quiet {r' : Replica} (h : c.Served tr) (hr : r' = c.rep)
    (ht : ∀ req, call = .tested req → req.mutation = true) (x : Happened) : Served ⟨r', call⟩ (tr ++ [x]) := by
  subst hr
  exact h.stays h.phase h.waitOk rfl ht x

theorem Served.locked {req : Req} {m : Mutation} (h : c.Served tr)
    (ht : ∀ req, call = .tested req → req.mutation = true) (x : Happened) :
    Served ⟨{ c.rep with client := .locked req m }, call⟩ (tr ++ [x]) := by
  refine ⟨h.phase, fun p hh => ?_, ht, fun req m p hr => ?_, fun req m n hr => ?_⟩
  · rcases hh with ⟨_, _, hh | hh⟩ <;> cases hh
  · rcases hr with hr | hr <;> cases hr
  · cases hr

theorem Served.next (h : c.Served tr) (hp : c.perform e = (o, call)) (ho : o ≠ .blocked) :
    Served ⟨o.rep c.rep, call⟩ (tr ++ [⟨c, e, o⟩]) := by
  have habort : ∀ {call : CallPc}, (∀ req, call = .tested req → req.mutation = true) →
      Served ⟨c.rep.ended, call⟩ (tr ++ [⟨c, e, .abort⟩]) := fun ht => by
    have hphase : c.rep.ended.Phase := h.phase
    exact h.stays hphase h.waitOk.ended rfl ht _
  have hidle : ∀ req, CallPc.idle = .tested req → req.mutation = true := fun req hc => by cases hc
  cases does_of_perform hp ho with
  | asked req hm => exact h.of_quiet rfl (fun req' hc => by cases hc; exact hm) _
  | notPrimary | refused => exact h.of_quiet rfl hidle _
  | checked => exact h.of_quiet rfl (fun req hc => by cases hc) _
  | faulted | failed => exact habort hidle
  | locked => exact h.locked hidle _
  | ended => exact habort h.tested
  | replied => exact h.of_quiet rfl h.tested _
  | moved e s hs hm => exact h.moves (h.phase.section_ok hs) (h.waitOk.section_ok h.phase hs) hm

theorem answered_of_nil {x : Happened} (hl : x.event.serves = true → x.outcome ≠ .abort) (ho : x.obs = []) :
    Happened.Answered tr x :=
  ⟨hl, fun _ _ hm => absurd (ho ▸ hm) List.not_mem_nil, fun _ _ _ hm => absurd (ho ▸ hm) List.not_mem_nil⟩

theorem answered_of_reply {x : Happened} {i : Nat} {req : Req} {res : Result}
    (hl : x.event.serves = true → x.outcome ≠ .abort) (ho : x.obs = [.replied i req res])
    (ha : req.mutation = true → Answer tr x req res) : Happened.Answered tr x := by
  refine ⟨hl, fun q p hm => ?_, fun q req' res' hm hmut => ?_⟩
  · rw [ho] at hm
    cases List.mem_singleton.1 hm
  · rw [ho] at hm
    cases List.mem_singleton.1 hm
    exact ha hmut

/-- Whatever happens, only a `NORMAL` primary replicates, and a mutation is answered as it may be. -/
theorem Served.answers (h : c.Served tr) (hp : c.perform e = (o, call)) (ho : o ≠ .blocked)
    (hl : e.serves = true → o ≠ .abort) : Happened.Answered tr ⟨c, e, o⟩ := by
  cases does_of_perform hp ho with
  | asked | checked | locked | ended => exact answered_of_nil hl rfl
  | notPrimary => exact answered_of_reply hl rfl (fun _ => .notPrimary)
  | refused req res hf => exact answered_of_reply hl rfl (fun _ => .refused res rfl hf)
  | faulted | failed => exact absurd rfl (hl rfl)
  | replied req res now hm =>
    exact answered_of_reply hl rfl (fun hmut => absurd hmut (by rw [hm]; exact Bool.false_ne_true))
  | moved e s hs hm => exact h.answered hm

end Caller

namespace Happened

/-- The replica behind the section. -/
def after (x : Happened) : Replica := x.outcome.rep x.before.rep

/-- The API finds the role. -/
def FindsRole (x : Happened) : Prop := (∃ req, x.event = .call req) ∧ x.before.rep.isPrimary = true

/-- The store or the replicator has its mutex. -/
def NeedsRole (x : Happened) : Prop := x.event = .enter ∨ ∃ now, x.event = .other (.act .replicateBegin now)

/-- The checks of the API find the key. -/
def FindsKey (key : Str) (x : Happened) : Prop := x.event = .check ∧ KvMemStore.hasKey x.before.rep.kvMap key = true

/-- The store looks up the key it is to remove. -/
def NeedsKey (key : Str) (x : Happened) : Prop :=
  x.event = .enter ∧ ∃ req, x.before.call = .entering req (.remove key)

theorem stillPrimary_iff {x : Happened} : x.stillPrimary = true ↔
    (x.NeedsRole → x.before.rep.isPrimary = true) ∧
      ∀ key, x.NeedsKey key → KvMemStore.hasKey x.before.rep.kvMap key = true := by
  unfold stillPrimary
  split
  · rename_i req key he hc
    rw [Bool.and_eq_true]
    refine ⟨fun h => ⟨fun _ => h.1, ?_⟩, fun h => ⟨h.1 (.inl he), h.2 key ⟨he, req, hc⟩⟩⟩
    rintro key' ⟨-, req', hc'⟩
    cases hc.symm.trans hc'
    exact h.2
  · rename_i he hno
    refine ⟨fun h => ⟨fun _ => h, ?_⟩, fun h => h.1 (.inl he)⟩
    rintro key ⟨-, req, hc⟩
    exact (hno req key hc).elim
  · rename_i now he
    refine ⟨fun h => ⟨fun _ => h, ?_⟩, fun h => h.1 (.inr ⟨now, he⟩)⟩
    rintro key ⟨he', -⟩
    cases he.symm.trans he'
  · rename_i hne hnr _
    refine iff_of_true rfl ⟨?_, ?_⟩
    · rintro (he | ⟨now, he⟩)
      · exact (hne he).elim
      · exact (hnr now he).elim
    · rintro key ⟨he, -⟩
      exact (hne he).elim

end Happened

/-- **The role is kept for a call**: between the API's test of it and either mutex, each section that takes it away is
followed by one that gives it back. -/
def RoleKept (tr : List Happened) : Prop :=
  Run.KeptFrom (fun x : Happened => x.before.rep) Happened.after (fun r => r.isPrimary = true) Happened.FindsRole
    (fun x => ∃ req, x.event = .call req) Happened.NeedsRole tr

/-- **The key is kept for a `remove`**: likewise between the API's checks and the store's. -/
def KeyKept (tr : List Happened) : Prop :=
  ∀ key, Run.KeptFrom (fun x : Happened => x.before.rep) Happened.after
    (fun r => KvMemStore.hasKey r.kvMap key = true) (Happened.FindsKey key) (fun x => x.event = .check)
    (Happened.NeedsKey key) tr

/-- The role was found for the call under way. -/
def RoleFound (tr : List Happened) : Prop := Run.Since Happened.FindsRole (fun x => ∃ req, x.event = .call req) tr

/-- The key was found that is to be removed. -/
def KeyFound (key : Str) (tr : List Happened) : Prop := Run.Since (Happened.FindsKey key) (fun x => x.event = .check) tr

namespace Caller

variable {r₀ : Replica} {c : Caller} {tr : List Happened} {e : CallerEvent} {o : Outcome} {call : CallPc}

/-- A call is under way that has not sent its operation. -/
def Begun (c : Caller) : Prop := c.call ≠ .idle ∨ ∃ req m, c.rep.client = .locked req m

/-- A section that needs the role belongs to a call. -/
theorem begun_of_needsRole (hp : c.perform e = (o, call)) (ho : o ≠ .blocked)
    (hn : Happened.NeedsRole ⟨c, e, o⟩) : c.Begun := by
  obtain he | ⟨now, he⟩ := hn
  · have he : e = .enter := he
    subst he
    cases does_of_perform hp ho with
    | failed req m hc => exact .inl (by rw [hc]; exact CallPc.noConfusion)
    | locked req m hc => exact .inl (by rw [hc]; exact CallPc.noConfusion)
  · have he : e = .other (.act .replicateBegin now) := he
    subst he
    obtain ⟨hs, -⟩ := Prod.mk.inj hp
    have hs : c.rep.localSection (.act .replicateBegin now) = o := hs
    simp only [Replica.localSection, Replica.act] at hs
    split at hs
    · rename_i req m hc
      exact .inr ⟨req, m, hc⟩
    · exact absurd hs.symm ho

theorem roleFound_next (h : c.Begun → RoleFound tr) (hp : c.perform e = (o, call)) (ho : o ≠ .blocked)
    (hb : Begun ⟨o.rep c.rep, call⟩) : RoleFound (tr ++ [⟨c, e, o⟩]) := by
  -- but for the API's test, what goes on was under way
  have hgoes : (∀ req, e ≠ .call req) → c.Begun → RoleFound (tr ++ [⟨c, e, o⟩]) := fun hne hc =>
    (h hc).concat (by rintro ⟨req, he⟩; exact hne req he)
  cases does_of_perform hp ho with
  | asked req hm hpri => exact Run.since_last ⟨⟨req, rfl⟩, hpri⟩
  | notPrimary req hc =>
    rcases hb with hb | ⟨req', m, hb⟩
    · exact absurd rfl hb
    · cases hc.symm.trans hb
  | faulted req f hc => exact hgoes (by simp) (.inl (by simp [hc]))
  | refused req res hf => exact hgoes (by simp) (hb.imp (fun hb => absurd rfl hb) id)
  | checked req m hc => exact hgoes (by simp) (.inl (by simp [hc]))
  | failed req m hc => exact hgoes (by simp) (.inl (by simp [hc]))
  | locked req m hc => exact hgoes (by simp) (.inl (by simp [hc]))
  | ended e hs => exact hgoes (by simp) hb
  | replied req res now hm hs => exact hgoes (by simp) hb
  | moved e s hs hm =>
    refine hgoes (by simp) (hb.imp id (fun hl => ?_))
    obtain ⟨req, m, hl⟩ := hl
    have hl : s.rep.client = .locked req m := hl
    cases hm with
    | stays hc => exact ⟨req, m, hc.symm.trans hl⟩
    | refused _ _ _ _ hr => rw [hr] at hl; cases hl
    | prepared _ _ _ _ _ _ _ hc | waits _ _ _ _ hc | won _ _ _ _ hc | timedOut _ hc | finished _ _ _ _ hc =>
      cases hc.symm.trans hl

theorem keyFound_next {key : Str} (h : ∀ req, c.call = .entering req (.remove key) → KeyFound key tr)
    (hp : c.perform e = (o, call)) (ho : o ≠ .blocked) {req : Req} (hc : call = .entering req (.remove key)) :
    KeyFound key (tr ++ [⟨c, e, o⟩]) := by
  subst hc
  have hgoes : e ≠ .check → c.call = .entering req (.remove key) → KeyFound key (tr ++ [⟨c, e, o⟩]) := fun hne hc =>
    (h req hc).concat hne
  generalize hcall : CallPc.entering req (.remove key) = call' at hp
  cases does_of_perform hp ho with
  | asked | notPrimary | faulted | refused | failed | locked => cases hcall
  | checked req' m _ hf =>
    cases hcall
    exact Run.since_last ⟨rfl, decide_eq_true (Req.mem_of_front hf)⟩
  | ended e hs => exact hgoes (by simp) hcall.symm
  | replied req' res now hm hs => exact hgoes (by simp) hcall.symm
  | moved e s hs hm => exact hgoes (by simp) hcall.symm

end Caller

namespace CallerRuns

variable {r₀ : Replica} {c : Caller} {tr : List Happened}

theorem linked (h : CallerRuns r₀ c tr) : Run.Linked (fun x : Happened => x.before.rep) Happened.after tr := by
  refine Run.Reach.linked Caller.rep (fun c tr e c' os _ hs => ?_) h
  obtain ⟨o, call, -, -, rfl, rfl⟩ := Caller.perform_of_step hs
  exact ⟨_, rfl, rfl, rfl⟩

theorem roleFound (hf : r₀.Fresh) (h : CallerRuns r₀ c tr) :
    (c.Begun → RoleFound tr) ∧ Run.Each (fun tr₁ x => x.NeedsRole → RoleFound tr₁) tr := by
  refine Run.Reach.invariant
    (P := fun (c : Caller) tr => (c.Begun → RoleFound tr) ∧ Run.Each (fun tr₁ x => x.NeedsRole → RoleFound tr₁) tr)
    ⟨?_, Run.each_nil⟩ ?_ h
  · rintro (hb | ⟨req, m, hb⟩)
    · exact absurd rfl hb
    · cases hf <;> cases hb
  · rintro c tr e c' os - ⟨hB, hE⟩ - hs
    obtain ⟨o, call, hp, ho, rfl, rfl⟩ := Caller.perform_of_step hs
    exact ⟨Caller.roleFound_next hB hp ho, hE.concat (fun hn => hB (Caller.begun_of_needsRole hp ho hn))⟩

theorem keyFound (h : CallerRuns r₀ c tr) (key : Str) :
    (∀ req, c.call = .entering req (.remove key) → KeyFound key tr) ∧
      Run.Each (fun tr₁ x => x.NeedsKey key → KeyFound key tr₁) tr := by
  refine Run.Reach.invariant
    (P := fun (c : Caller) tr => (∀ req, c.call = .entering req (.remove key) → KeyFound key tr) ∧
      Run.Each (fun tr₁ x => x.NeedsKey key → KeyFound key tr₁) tr)
    ⟨fun req hc => (by cases hc), Run.each_nil⟩ ?_ h
  rintro c tr e c' os - ⟨hK, hE⟩ - hs
  obtain ⟨o, call, hp, ho, rfl, rfl⟩ := Caller.perform_of_step hs
  refine ⟨fun req hc => Caller.keyFound_next hK hp ho hc, hE.concat ?_⟩
  rintro ⟨-, req, hc⟩
  exact hK req hc

/-- What a test found is there behind it. -/
theorem found (h : CallerRuns r₀ c tr) {x : Happened} (hx : x ∈ tr) :
    (x.FindsRole → x.after.isPrimary = true) ∧
      ∀ key, x.FindsKey key → KvMemStore.hasKey x.after.kvMap key = true := by
  refine Run.Reach.invariant (P := fun _ tr => ∀ x ∈ tr, (x.FindsRole → x.after.isPrimary = true) ∧
    ∀ key, x.FindsKey key → KvMemStore.hasKey x.after.kvMap key = true)
    (fun x hx => absurd hx List.not_mem_nil) ?_ h x hx
  rintro c tr e c' os - hP - hs
  obtain ⟨o, call, hp, ho, rfl, rfl⟩ := Caller.perform_of_step hs
  refine List.forall_mem_append.2 ⟨hP, List.forall_mem_singleton.2 ⟨?_, ?_⟩⟩
  · rintro ⟨⟨req, he⟩, hpri⟩
    have he : e = .call req := he
    subst he
    cases Caller.does_of_perform hp ho <;> exact hpri
  · rintro key ⟨he, hk⟩
    have he : e = .check := he
    subst he
    cases Caller.does_of_perform hp ho <;> exact hk

/-- **What was found is still there where it is needed** just if it is kept. -/
theorem kept_iff (hf : r₀.Fresh) (h : CallerRuns r₀ c tr) :
    (∀ x ∈ tr, x.stillPrimary = true) ↔ RoleKept tr ∧ KeyKept tr := by
  have hrole : RoleKept tr ↔ ∀ x ∈ tr, x.NeedsRole → x.before.rep.isPrimary = true :=
    h.linked.keptFrom_iff (fun x hx => (h.found hx).1) (h.roleFound hf).2
  have hkey : KeyKept tr ↔ ∀ key, ∀ x ∈ tr, x.NeedsKey key → KvMemStore.hasKey x.before.rep.kvMap key = true :=
    forall_congr' (fun key => h.linked.keptFrom_iff (fun x hx => (h.found hx).2 key) (h.keyFound key).2)
  rw [hrole, hkey]
  constructor
  · intro hsp
    exact ⟨fun x hx => (Happened.stillPrimary_iff.1 (hsp x hx)).1,
      fun key x hx => (Happened.stillPrimary_iff.1 (hsp x hx)).2 key⟩
  · rintro ⟨hr, hk⟩ x hx
    exact Happened.stillPrimary_iff.2 ⟨hr x hx, fun key => hk key x hx⟩

end CallerRuns

/-- **A client's mutation under changes of role**, in every run of one replica, whatever arrives and however its threads
alternate: all mutations are answered if and only if the role is still there whenever the store and the replicator
have their mutexes; that is, if and only if the role is kept for each call and the key for each `remove`. -/
theorem mutations_answered {r₀ : Replica} {c : Caller} {tr : List Happened} (hf : r₀.Fresh) (h : CallerRuns r₀ c tr) :
    ((∀ x ∈ tr, x.stillPrimary = true) ↔ Run.Each Happened.Answered tr) ∧
      (RoleKept tr ∧ KeyKept tr ↔ Run.Each Happened.Answered tr) := by
  have hall : c.Served tr ∧ Run.Each (fun tr x => x.stillPrimary = true ↔ Happened.Answered tr x) tr := by
    refine Run.Reach.invariant
      (P := fun c tr => c.Served tr ∧ Run.Each (fun tr x => x.stillPrimary = true ↔ Happened.Answered tr x) tr)
      ⟨Caller.served_init hf, Run.each_nil⟩ ?_ h
    rintro c tr e c' os - ⟨hsv, hE⟩ - hs
    obtain ⟨o, call, hp, ho, rfl, rfl⟩ := Caller.perform_of_step hs
    have hlives := hsv.lives_iff hp ho
    exact ⟨hsv.next hp ho, hE.concat ⟨fun hsp => hsv.answers hp ho (hlives.2 hsp), fun ha => hlives.1 ha.lives⟩⟩
  have hstill : (∀ x ∈ tr, x.stillPrimary = true) ↔ Run.Each Happened.Answered tr := by
    constructor
    · intro hsp tr₁ x tr₂ he
      exact (hall.2 tr₁ x tr₂ he).1 (hsp x (by rw [he]; simp))
    · intro hE x hx
      obtain ⟨tr₁, tr₂, he⟩ := List.append_of_mem hx
      exact (hall.2 tr₁ x tr₂ he).2 (hE tr₁ x tr₂ he)
  exact ⟨hstill, (CallerRuns.kept_iff hf h).symm.trans hstill⟩

/-- The heart-beat thread of replica `0` takes up the view `1` of replica `1` while a second `create` waits for
`_repMutex`; before that a first one is replicated. -/
def overlapEvents : List CallerEvent :=
  [.call (.create ⟨[slash, 120], []⟩), .check, .enter, .other (.act .replicateBegin 0),
    .other (.recv (.prepareOk ⟨0, 1, 1⟩) 0), .other (.act .prepareOkCount 0), .other (.act .replicateCount 0),
    .other (.act .clientFinish 0),
    .call (.create ⟨[slash, 121], []⟩), .check, .enter,
    .other (.recv (.startView ⟨1, [⟨⟨[slash, 120], []⟩, .update, 1, true⟩], 1, 1, 1⟩) 0),
    .other (.act .startViewCount 0),
    .other (.act .changeViewBegin 0), .other (.act .replicateBegin 0)]

def Happened.lost (x : Happened) : Bool :=
  match x.outcome with
  | .abort => x.event.serves
  | _ => false

/-- The first of the two calls, up to its reply. -/
theorem mutations_answered_three : ∃ c tr, CallerRuns (.init 3 0) c tr ∧ Run.Each Happened.Answered tr ∧
    RoleKept tr ∧ ∃ x ∈ tr, .replied 0 (.create ⟨[slash, 120], []⟩) (.err .none) ∈ x.obs := by
  obtain ⟨c, tr, h, hq⟩ : ∃ c tr, CallerRuns (.init 3 0) c tr ∧ (tr.all Happened.stillPrimary &&
      tr.any (fun x => decide (.replied 0 (.create ⟨[slash, 120], []⟩) (.err .none) ∈ x.obs))) = true :=
    Run.exists_reach_of_exec (overlapEvents.take 8) (fun _ tr => tr.all Happened.stillPrimary &&
      tr.any (fun x => decide (.replied 0 (.create ⟨[slash, 120], []⟩) (.err .none) ∈ x.obs))) (by decide +kernel)
  simp only [Bool.and_eq_true, List.all_eq_true, List.any_eq_true, decide_eq_true_eq] at hq
  obtain ⟨hstill, hkept⟩ := mutations_answered (.init 3 0) h
  exact ⟨c, tr, h, hstill.1 hq.1, (hkept.2 (hstill.1 hq.1)).1, hq.2⟩

theorem mutations_answered_fails :
    ¬ ∀ r₀ c tr, Replica.Fresh r₀ → CallerRuns r₀ c tr → Run.Each Happened.Answered tr := by
  intro hall
  obtain ⟨c, tr, h, hq⟩ : ∃ c tr, CallerRuns (.init 3 0) c tr ∧ tr.any Happened.lost = true :=
    Run.exists_reach_of_exec overlapEvents (fun _ tr => tr.any Happened.lost) (by decide +kernel)
  obtain ⟨x, hx, hl⟩ := List.any_eq_true.1 hq
  obtain ⟨tr₁, tr₂, he⟩ := List.append_of_mem hx
  have hlives := (hall _ c tr (.init 3 0) h tr₁ x tr₂ he).lives
  unfold Happened.lost at hl
  split at hl
  · rename_i ho
    exact hlives hl ho
  · cases hl

end MetaDR
