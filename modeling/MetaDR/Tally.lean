import MetaDR.Alone
import MetaDR.Follows
/-!
# Tally — votes stored and counted step by step

`processDoViewChange` stores a vote under `_viewChangeMutex` and then counts it in `_doViewChangeMap`, which has locks
of its own.  `cleanUp` clears the one map and the other, with `_viewChangeMutex` but not while a counter is held.  Here
each call of `processDoViewChange` is cut into its steps, calls may overlap one another and other messages, which is
more than the one thread that serves them lets happen, and `updateNewView` is cut from the two halves of its `cleanUp`.
`Replica.act` has `updateNewView` with its `cleanUp` as one section, and the look-up of the counter with the count;
their runs are among these (`tally_of_alone`).

`changeView` stores and counts its own vote in one section, as before: the thread that clears is its own, and what
others do to the two maps can as well come before or behind both.
-/
namespace MetaDR
namespace Replica

/-- `updateNewView` up to its call of `cleanUp`. -/
def installNewView (r : Replica) (viewNum : Nat) (isPrimary : Bool) (now : Nat) : Option Step :=
  if isPrimary = true then
    let vcInfos := (r.viewChangeInfoMap.lookup viewNum).getD []
    if vcInfos.length < r.getMajorityCnt then none
    else
      match selectCandidate vcInfos with
      | none => none
      | some candidate =>
        if candidate.viewNum ≠ viewNum then none
        else
          match r.adopt { r.viewStartInfo candidate with opLog := candidate.opLog } now with
          | none => none
          | some (r', ops) => some
              ⟨r', r.invokeForAllReplicas (.startView (r.viewStartInfo candidate)),
                ops.map (fun p => .applied r.id p.1 p.2) ++ [.newView r.id true (r.viewStartInfo candidate)]⟩
  else
    match r.viewStartInfoMap.lookup viewNum with
    | none => none
    | some info =>
      if info.viewNum ≠ viewNum then none
      else
        match r.adopt info now with
        | none => none
        | some (r', ops) => some ⟨r', [], ops.map (fun p => .applied r.id p.1 p.2) ++ [.newView r.id false info]⟩

/-- The first two clears of `cleanUp`. -/
def clearCounts (r : Replica) : Replica := { r with viewStartReqMap := ∅, doViewChangeMap := ∅ }

/-- The other three. -/
def clearInfos (r : Replica) : Replica := { r with viewChangeInfoMap := ∅, startViewMap := ∅, viewStartInfoMap := ∅ }

/-- `push_back` of `processDoViewChange`. -/
def storeVote (r : Replica) (info : ViewChangeInfo) : Replica :=
  { r with
    viewChangeInfoMap := r.viewChangeInfoMap.insert info.viewNum
      ((r.viewChangeInfoMap.lookup info.viewNum).getD [] ++ [info]) }

/-- The replica as another message finds it while a call of `processDoViewChange` is under way. -/
def besides (r : Replica) : Replica :=
  { r with
    listener := match r.listener with
      | some (.doViewChange _) => none
      | pc => pc }

theorem besides_eq {r : Replica} (h : r.listener = none) : r.besides = r := by
  cases r
  dsimp only at h
  subst h
  rfl

theorem cleanUp_eq {r : Replica} (h : r.status = .normal) : r.cleanUp = r.clearCounts.clearInfos := if_pos h

end Replica

def Step.cleaned (s : Step) : Step := { s with rep := s.rep.cleanUp }

theorem Replica.updateNewView_eq (r : Replica) (viewNum : Nat) (isPrimary : Bool) (now : Nat) :
    r.updateNewView viewNum isPrimary now = (r.installNewView viewNum isPrimary now).map Step.cleaned := by
  unfold updateNewView installNewView
  by_cases hp : isPrimary = true
  · rw [if_pos hp, if_pos hp]
    dsimp only
    by_cases hl : ((r.viewChangeInfoMap.lookup viewNum).getD []).length < r.getMajorityCnt
    · rw [if_pos hl, if_pos hl]
      rfl
    · rw [if_neg hl, if_neg hl]
      cases selectCandidate ((r.viewChangeInfoMap.lookup viewNum).getD []) with
      | none => rfl
      | some candidate =>
        dsimp only
        by_cases hv : candidate.viewNum ≠ viewNum
        · rw [if_pos hv, if_pos hv]
          rfl
        · rw [if_neg hv, if_neg hv]
          cases r.adopt { r.viewStartInfo candidate with opLog := candidate.opLog } now <;> rfl
  · rw [if_neg hp, if_neg hp]
    cases r.viewStartInfoMap.lookup viewNum with
    | none => rfl
    | some info =>
      dsimp only
      by_cases hv : info.viewNum ≠ viewNum
      · rw [if_pos hv, if_pos hv]
        rfl
      · rw [if_neg hv, if_neg hv]
        cases r.adopt info now <;> rfl

def Outcome.cleaned : Outcome → Outcome
  | .ok s => .ok s.cleaned
  | o => o

theorem Outcome.withStore_cleaned (r : Replica) (o : Option Step) :
    withStore r (o.map Step.cleaned) = (withStore r o).cleaned := by
  cases o with
  | none => rfl
  | some s =>
    by_cases hs : s.obs.any Obs.isApplied = true ∧ r.client ≠ .idle
    · have h₁ : withStore r (some s) = .blocked := if_pos hs
      have h₂ : withStore r ((some s).map Step.cleaned) = .blocked := if_pos hs
      rw [h₁, h₂, cleaned]
      intro s' hs'
      cases hs'
    · have h₁ : withStore r (some s) = .ok s := if_neg hs
      have h₂ : withStore r ((some s).map Step.cleaned) = .ok s.cleaned := if_neg hs
      rw [h₁, h₂, cleaned]

theorem WaitMap.bump_touch (m : WaitMap) (t : Nat) : (m.touch t).bump t = m.bump t := by
  rw [bump, cnt_touch, touch, Finmap.insert_insert]
  rfl

/-- Where a call of `processDoViewChange` stands. -/
inductive VoteCall where
  /-- its tests have passed -/
  | tested (info : ViewChangeInfo)
  /-- the vote is stored; `stale` when `cleanUp` has cleared the counters since -/
  | pushed (viewNum : Nat) (stale : Bool)
  /-- it has the counter; `attached` when this still is the map's -/
  | got (viewNum : Nat) (stale attached : Bool)
  deriving DecidableEq, Repr

/-- What clearing the counters does to a call under way. -/
def VoteCall.cleared : VoteCall → VoteCall
  | .tested info => .tested info
  | .pushed viewNum _ => .pushed viewNum true
  | .got viewNum _ _ => .got viewNum true false

/-- Where the heart-beat thread stands in `updateNewView`; outside `idle` it has `_repMutex` and `_viewChangeMutex`. -/
inductive CleanPc where
  | idle
  /-- `cleanUp` is next -/
  | installed
  /-- in `cleanUp`, between the clears of the counters and of the infos -/
  | clearing
  deriving DecidableEq, Repr

/-- A replica with its calls of `processDoViewChange` under way. -/
structure Tally where
  rep : Replica
  calls : List VoteCall
  clean : CleanPc

inductive TallyEvent where
  /-- a `DoViewChange` arrives, and its tests are made -/
  | arrive (info : ViewChangeInfo)
  /-- a call goes on: it stores its vote, gets its counter or counts -/
  | proceed (call : VoteCall)
  /-- `updateNewView` up to its call of `cleanUp` -/
  | install (now : Nat)
  /-- `cleanUp` tests the status, and clears the counters -/
  | clearCounts
  | clearInfos
  /-- `processStartView` has set the status and waits for `_viewChangeMutex`; the rest comes with `recv` -/
  | shake
  /-- anything else of `LocalEvent` -/
  | other (e : LocalEvent)
  deriving DecidableEq, Repr

/-- The section comes to `updateNewView`. -/
def Replica.updates (r : Replica) : Act → Bool
  | .changeViewBegin => decide (r.viewNum + 1 ∈ r.viewStartInfoMap)
  | .hbWake =>
    match r.hb with
    | .doWait _ => true
    | .viewWait _ => true
    | _ => false
  | _ => false

/-- A section off the heart-beat thread that takes neither `_repMutex` nor `_viewChangeMutex`. -/
def Act.unlocked : Act → Bool
  | .clientCall _ => true
  | .clientFinish => true
  | .prepCheck => true
  | .prepareOkCount => true
  | .startViewCount => true
  | .recReqCheck => true
  | _ => false

namespace Tally

/-- The events that are left whole, by what the heart-beat thread holds. -/
def admits (t : Tally) : LocalEvent → Bool
  | .recv (.doViewChange _) _ => false
  | .recv (.startView _) _ => decide (t.clean = .idle)
  | .recv _ _ => true
  | .act .doViewChangeCount _ => false
  | .act a _ => if t.clean = .idle then !t.rep.updates a else a.unlocked

/-- The heart-beat thread comes to `updateNewView`. -/
def install (r : Replica) (now : Nat) : Outcome :=
  match r.hb with
  | .doWait viewNum =>
    .withStore r (if r.quorumReached (r.doViewChangeMap.cnt viewNum) = true then r.installNewView viewNum true now
      else none)
  | .viewWait viewNum =>
    .withStore r (if r.startViewMap.cnt viewNum = 1 then r.installNewView viewNum false now else none)
  | .idle =>
    if r.repMutexFree = true ∧ r.wantsViewChange now = true ∧ r.viewNum + 1 ∈ r.viewStartInfoMap then
      .withStore r ((r.entering.installNewView (r.viewNum + 1) false now).map
        (fun s => { s with obs := .entered r.id (r.viewNum + 1) :: s.obs }))
    else .blocked
  | _ => .blocked

/-- A section that is left whole. -/
def whole (r : Replica) : LocalEvent → Outcome
  | .recv msg now => r.besides.handle now msg
  | .act a now => r.act now a

/-- The replica behind a section, with its calls and its heart-beat thread where they are then. -/
def settle (t : Tally) (o : Outcome) (calls : List VoteCall) (clean : CleanPc) : Option (Tally × List Obs) :=
  match o with
  | .blocked => none
  | .abort => some (⟨t.rep.ended, t.calls, t.clean⟩, [])
  | .ok s => some (⟨s.rep, calls, clean⟩, s.obs)

def proceed (t : Tally) : VoteCall → Option (Tally × List Obs)
  | .tested info =>
    if t.clean = .idle then
      some (⟨{ t.rep.storeVote info with listener := t.rep.listener.or (some (.doViewChange info)) },
        .pushed info.viewNum false :: t.calls.erase (.tested info), t.clean⟩, [])
    else none
  | .pushed viewNum stale =>
    some (⟨{ t.rep with doViewChangeMap := t.rep.doViewChangeMap.touch viewNum },
      .got viewNum stale true :: t.calls.erase (.pushed viewNum stale), t.clean⟩, [])
  | .got viewNum stale attached =>
    some (⟨{ t.rep.besides with
        doViewChangeMap := if attached = true then t.rep.doViewChangeMap.bump viewNum else t.rep.doViewChangeMap },
      t.calls.erase (.got viewNum stale attached), t.clean⟩, [])

def step (t : Tally) (e : TallyEvent) : Option (Tally × List Obs) :=
  if t.rep.up = true then
    match e with
    | .arrive info =>
      if info.viewNum < t.rep.viewNum ∨ t.rep.status = .recovering then some (t, [])
      else some ({ t with calls := .tested info :: t.calls }, [])
    | .proceed call => if call ∈ t.calls then t.proceed call else none
    | .install now => if t.clean = .idle then t.settle (install t.rep now) t.calls .installed else none
    | .clearCounts =>
      if t.clean = .installed then
        if t.rep.status = .normal then some (⟨t.rep.clearCounts, t.calls.map VoteCall.cleared, .clearing⟩, [])
        else some (⟨t.rep, t.calls, .idle⟩, [])
      else none
    | .clearInfos => if t.clean = .clearing then some (⟨t.rep.clearInfos, t.calls, .idle⟩, []) else none
    | .shake =>
      if t.clean ≠ .idle ∧ t.rep.status = .normal then some ({ t with rep := { t.rep with status := .viewChange } }, [])
      else none
    | .other e => if t.admits e = true then t.settle (whole t.rep e) t.calls t.clean else none
  else none

end Tally

def tally (r : Replica) : Run.System Tally TallyEvent Obs := ⟨⟨r, [], .idle⟩, Tally.step⟩

namespace Replica

variable {r : Replica} {s : Step}

/-- `updateNewView` before its `cleanUp`: the replica is `NORMAL`, and no vote is forgotten. -/
structure Installs (r r' : Replica) : Prop where
  counts : r'.doViewChangeMap = r.doViewChangeMap
  infos : r'.viewChangeInfoMap = r.viewChangeInfoMap
  listener : r'.listener = r.listener
  normal : r'.status = .normal
  up : r'.up = r.up

theorem adopt_stays {r' : Replica} {info : ViewStartInfo} {now : Nat} {ops : List (Nat × Op)}
    (h : r.adopt info now = some (r', ops)) : r.Installs r' := by
  unfold adopt at h
  dsimp only at h
  split at h
  · cases h
  · split at h
    · cases h
    · split at h
      · cases h
      · cases h
        exact ⟨rfl, rfl, rfl, rfl, rfl⟩

theorem installNewView_stays {viewNum now : Nat} {isPrimary : Bool}
    (h : r.installNewView viewNum isPrimary now = some s) : r.Installs s.rep := by
  unfold installNewView at h
  split at h
  · dsimp only at h
    split at h
    · cases h
    · split at h
      · cases h
      · split at h
        · cases h
        · split at h
          · cases h
          · rename_i r' ops ha
            cases h
            exact adopt_stays ha
  · split at h
    · cases h
    · split at h
      · cases h
      · split at h
        · cases h
        · rename_i r' ops ha
          cases h
          exact adopt_stays ha

end Replica

namespace Tally

theorem install_stays {r : Replica} {now : Nat} {s : Step} (h : install r now = .ok s) : r.Installs s.rep := by
  unfold install at h
  split at h
  · have hs := (Outcome.withStore_eq_ok h).1
    split at hs
    · exact Replica.installNewView_stays hs
    · cases hs
  · have hs := (Outcome.withStore_eq_ok h).1
    split at hs
    · exact Replica.installNewView_stays hs
    · cases hs
  · split at h
    · obtain ⟨s', hs', rfl⟩ := Option.map_eq_some_iff.1 (Outcome.withStore_eq_ok h).1
      obtain ⟨hc, hv, hl, hn, hu⟩ := Replica.installNewView_stays hs'
      exact ⟨hc, hv, hl, hn, hu⟩
    · cases h
  · cases h

/-- The call has looked its counter up behind a `cleanUp` that came after its vote. -/
def late : TallyEvent → Bool
  | .proceed (.got _ stale attached) => stale && attached
  | _ => false

/-- The sections that come to `updateNewView` are `install` with `cleanUp` behind. -/
theorem act_eq_install {r : Replica} {a : Act} (hu : r.updates a = true) (now : Nat) (hb : r.act now a ≠ .blocked) :
    r.act now a = (install r now).cleaned := by
  cases a with
  | changeViewBegin =>
    have hi : r.viewNum + 1 ∈ r.viewStartInfoMap := of_decide_eq_true hu
    simp only [Replica.act] at hb ⊢
    split at hb
    · rename_i hl
      rw [if_pos hl, Replica.changeViewBegin, if_pos hi, Replica.updateNewView_eq, Option.map_map, install,
        Replica.hb_idle_of_free hl.1]
      dsimp only
      rw [if_pos ⟨hl.1, hl.2, hi⟩, ← Outcome.withStore_cleaned, Option.map_map]
      rfl
    · exact absurd rfl hb
  | hbWake =>
    simp only [Replica.updates] at hu
    split at hu
    · rename_i v hhb
      simp only [Replica.act, hhb, install]
      rw [← Outcome.withStore_cleaned, Replica.doWake, apply_ite (Option.map Step.cleaned), Replica.updateNewView_eq]
      rfl
    · rename_i v hhb
      simp only [Replica.act, hhb, install]
      rw [← Outcome.withStore_cleaned, Replica.viewWake, apply_ite (Option.map Step.cleaned), Replica.updateNewView_eq]
      rfl
    · cases hu
  | _ => cases hu

theorem admits_act {t : Tally} {a : Act} {now : Nat} (hv : a ≠ .doViewChangeCount) :
    t.admits (.act a now) = if t.clean = .idle then !t.rep.updates a else a.unlocked := by
  cases a with
  | doViewChangeCount => exact absurd rfl hv
  | _ => rfl

/-- The calls under way at a replica whose sections are whole: the one its listener thread is in. -/
def Under (r : Replica) (calls : List VoteCall) : Prop :=
  match r.listener with
  | some (.doViewChange info) => ∃ stale, calls = [.pushed info.viewNum stale]
  | _ => calls = []

theorem Under.congr {r r' : Replica} {calls : List VoteCall} (h : Under r calls) (hl : r'.listener = r.listener) :
    Under r' calls := by
  unfold Under at h ⊢
  rwa [hl]

/-- What clearing the counters does to it. -/
theorem Under.cleared {r : Replica} {calls : List VoteCall} (h : Under r calls) :
    Under r (calls.map VoteCall.cleared) := by
  unfold Under at h ⊢
  split at h
  · obtain ⟨stale, rfl⟩ := h
    exact ⟨true, rfl⟩
  · subst h
    rfl

/-- A run of the tally to where the replica is between two of its sections. -/
def Between (r₀ r : Replica) (tr : List Obs) : Prop :=
  ∃ calls, Under r calls ∧ Run.Reach (tally r₀) (fun _ _ _ => true) ⟨r, calls, .idle⟩ tr

variable {r₀ r : Replica} {tr : List Obs}

theorem reach_proceed {call : VoteCall} {t : Tally}
    (h : Run.Reach (tally r₀) (fun _ _ _ => true) ⟨r, [call], .idle⟩ tr) (hu : r.up = true)
    (hs : Tally.proceed ⟨r, [call], .idle⟩ call = some (t, [])) : Run.Reach (tally r₀) (fun _ _ _ => true) t tr := by
  have hstep : (tally r₀).step ⟨r, [call], .idle⟩ (.proceed call) = some (t, []) := by
    show step ⟨r, [call], .idle⟩ (.proceed call) = _
    rw [step, if_pos hu, ← hs]
    exact if_pos List.mem_cons_self
  rw [← List.append_nil tr]
  exact h.step rfl hstep

theorem Between.processDoViewChange (h : Between r₀ r tr) (hu : r.up = true) (hl : r.listener = none)
    (info : ViewChangeInfo) :
    Between r₀ (r.processDoViewChange info).rep (tr ++ (r.processDoViewChange info).obs) := by
  obtain ⟨calls, hc, h⟩ := h
  rw [Under, hl] at hc
  subst hc
  by_cases ht : info.viewNum < r.viewNum ∨ r.status = .recovering
  · have hq : r.processDoViewChange info = r.quiet := by
      unfold Replica.processDoViewChange
      rcases ht with ht | ht <;> simp [ht]
    rw [hq]
    refine ⟨[], by simp [Under, Replica.quiet, hl], ?_⟩
    exact h.step (e := .arrive info) rfl (by simp [tally, step, hu, ht, Replica.quiet])
  · have hq : r.processDoViewChange info =
        Replica.quiet { r.storeVote info with listener := some (.doViewChange info) } := by
      rw [Replica.processDoViewChange, if_neg (not_or.1 ht).1, if_neg (not_or.1 ht).2]
      rfl
    rw [hq]
    have harrives : (tally r₀).step ⟨r, [], .idle⟩ (.arrive info) = some (⟨r, [.tested info], .idle⟩, []) := by
      simp [tally, step, hu, ht]
    have harrive := h.step rfl harrives
    rw [List.append_nil] at harrive
    refine ⟨[.pushed info.viewNum false], ⟨false, rfl⟩, ?_⟩
    exact (List.append_nil tr).symm ▸ reach_proceed harrive hu (by simp [Tally.proceed, Replica.quiet, hl])

theorem Between.doViewChangeCount (h : Between r₀ r tr) (hu : r.up = true) {info : ViewChangeInfo}
    (hl : r.listener = some (.doViewChange info)) :
    Between r₀ (r.doViewChangeCount info).rep (tr ++ (r.doViewChangeCount info).obs) := by
  obtain ⟨calls, hc, h⟩ := h
  rw [Under, hl] at hc
  obtain ⟨stale, rfl⟩ := hc
  have hget := reach_proceed
    (t := ⟨{ r with doViewChangeMap := r.doViewChangeMap.touch info.viewNum }, [.got info.viewNum stale true], .idle⟩)
    h hu (by simp [Tally.proceed])
  have hcount := reach_proceed (t := ⟨(r.doViewChangeCount info).rep, [], .idle⟩) hget hu
    (by simp [Tally.proceed, WaitMap.bump_touch, Replica.doViewChangeCount, Replica.quiet, Replica.besides, hl])
  exact ⟨[], rfl, (List.append_nil tr).symm ▸ hcount⟩

theorem Between.install (h : Between r₀ r tr) (hu : r.up = true) {now : Nat} {s : Step}
    (hi : Tally.install r now = .ok s) : Between r₀ s.cleaned.rep (tr ++ s.obs) := by
  obtain ⟨calls, hc, h⟩ := h
  have hins := install_stays hi
  have hup : s.rep.up = true := hins.up.trans hu
  have hs₁ : (tally r₀).step ⟨r, calls, .idle⟩ (.install now) = some (⟨s.rep, calls, .installed⟩, s.obs) := by
    simp [tally, step, hu, hi, settle]
  have hs₂ : (tally r₀).step ⟨s.rep, calls, .installed⟩ .clearCounts =
      some (⟨s.rep.clearCounts, calls.map VoteCall.cleared, .clearing⟩, []) := by
    simp [tally, step, hup, hins.normal]
  have hs₃ : (tally r₀).step ⟨s.rep.clearCounts, calls.map VoteCall.cleared, .clearing⟩ .clearInfos =
      some (⟨s.cleaned.rep, calls.map VoteCall.cleared, .idle⟩, []) := by
    rw [Step.cleaned, Replica.cleanUp_eq hins.normal]
    simp [tally, step, Replica.clearCounts, hup]
  have hr := ((h.step rfl hs₁).step rfl hs₂).step rfl hs₃
  rw [List.append_nil, List.append_nil] at hr
  refine ⟨_, hc.cleared.congr ?_, hr⟩
  rw [Step.cleaned, Replica.cleanUp_eq hins.normal]
  exact hins.listener

theorem Under.act {calls : List VoteCall} (hc : Under r calls) {a : Act} {now : Nat} {s : Step}
    (ha : a ≠ .doViewChangeCount) (h : r.act now a = .ok s) : Under s.rep calls := by
  cases Replica.performs_of_act h with
  | enough _ hi | okCounted _ hi | unlistened _ hi | committed _ _ _ hi | startCounted _ hi =>
    rw [Under, hi] at hc
    exact hc
  | voteCounted => exact absurd rfl ha
  | recovered _ nonce _ hb hend =>
    obtain ⟨resp, rfl⟩ := Replica.recoverEnd_eq_some hend
    exact hc
  | _ => exact hc

theorem Under.handle {calls : List VoteCall} (hc : Under r calls) {msg : Msg} {now : Nat} {s : Step}
    (hm : ∀ info, msg ≠ .doViewChange info) (h : r.handle now msg = .ok s) : Under s.rep calls := by
  have hl : r.listener = none := by
    unfold Replica.handle at h
    split at h
    · cases h
    · assumption
  rw [Under, hl] at hc
  subst hc
  cases Replica.handles_of_handle h with
  | voteStored info => exact absurd rfl (hm info)
  | okTested | listens | startStored => rfl
  | _ => simp [Under, Replica.quiet, hl]

/-- A section that ends is the same when it is left whole. -/
theorem whole_eq {e : LocalEvent} (h : r.localSection e ≠ .blocked) : whole r e = r.localSection e := by
  cases e with
  | act a now => rfl
  | recv msg now =>
    have hl : r.listener = none := by
      cases hl : r.listener with
      | none => rfl
      | some pc => exact absurd (by simp [Replica.localSection, Replica.handle, hl]) h
    rw [whole, Replica.besides_eq hl]
    rfl

theorem Between.other (h : Between r₀ r tr) (hu : r.up = true) {e : LocalEvent} {s : Step}
    (ha : ∀ calls, admits ⟨r, calls, .idle⟩ e = true) (hs : r.localSection e = .ok s) :
    Between r₀ s.rep (tr ++ s.obs) := by
  obtain ⟨calls, hc, h⟩ := h
  have hw : whole r e = .ok s := (whole_eq (by rw [hs]; exact Outcome.noConfusion)).trans hs
  refine ⟨calls, ?_, h.step (e := .other e) rfl (by simp [tally, step, hu, ha, hw, settle])⟩
  cases e with
  | act a now => exact hc.act (by rintro rfl; exact absurd (ha []) Bool.false_ne_true) hs
  | recv msg now => exact hc.handle (by rintro info rfl; exact absurd (ha []) Bool.false_ne_true) hs

theorem Between.abort (h : Between r₀ r tr) (hu : r.up = true) {e : LocalEvent} (hs : r.localSection e = .abort) :
    Between r₀ r.ended tr := by
  obtain ⟨calls, hc, h⟩ := h
  refine ⟨calls, hc, ?_⟩
  rw [← List.append_nil tr]
  by_cases ha : admits ⟨r, calls, .idle⟩ e = true
  · have hw : whole r e = .abort := (whole_eq (by rw [hs]; exact Outcome.noConfusion)).trans hs
    exact h.step (e := .other e) rfl (by simp [tally, step, hu, ha, hw, settle])
  · cases e with
    | recv msg now =>
      cases msg with
      | doViewChange info =>
        simp only [Replica.localSection, Replica.handle] at hs
        split at hs <;> cases hs
      | _ => exact absurd rfl ha
    | act a now =>
      by_cases hv : a = .doViewChangeCount
      · subst hv
        simp only [Replica.localSection, Replica.act] at hs
        split at hs <;> cases hs
      · rw [admits_act hv, if_pos rfl, Bool.not_eq_true, Bool.not_eq_false'] at ha
        have hs' : r.act now a = .abort := hs
        have heq := act_eq_install ha now (by rw [hs']; exact Outcome.noConfusion)
        rw [hs'] at heq
        cases hi : Tally.install r now with
        | abort => exact h.step (e := .install now) rfl (by simp [tally, step, hu, hi, settle])
        | ok | blocked => rw [hi] at heq; cases heq

end Tally

/-- **Each run of one replica is one of the tally**, with the same to be seen. -/
theorem tally_of_alone {r₀ r : Replica} {tr : List (LocalEvent × Step)} (hf : r₀.listener = none)
    (h : Run.Reach (Replica.alone r₀) (fun _ _ _ => true) r tr) : Tally.Between r₀ r (seen tr) := by
  refine Run.Reach.invariant (P := fun r tr => Tally.Between r₀ r (seen tr)) ?_ ?_ h
  · exact ⟨[], by rw [Tally.Under, show (Replica.alone r₀).init.listener = none from hf], .init⟩
  intro r tr e r' os _ hr _ hs
  obtain ⟨hu, ⟨hsec, rfl, rfl⟩ | ⟨s, hsec, rfl, rfl⟩⟩ := Replica.localStep_cases hs
  · rw [seen_concat]
    exact (List.append_nil (seen tr)).symm ▸ hr.abort hu hsec
  · rw [seen_concat]
    cases e with
    | recv msg now =>
      cases msg with
      | doViewChange info =>
        simp only [Replica.localSection, Replica.handle] at hsec
        split at hsec <;> cases hsec
        exact hr.processDoViewChange hu ‹_› info
      | _ => exact hr.other hu (fun _ => rfl) hsec
    | act a now =>
      by_cases hv : a = .doViewChangeCount
      · subst hv
        simp only [Replica.localSection, Replica.act] at hsec
        split at hsec <;> cases hsec
        exact hr.doViewChangeCount hu ‹_›
      · have hs' : r.act now a = .ok s := hsec
        by_cases ha : r.updates a = true
        · have heq := Tally.act_eq_install ha now (by rw [hs']; exact Outcome.noConfusion)
          rw [hs'] at heq
          cases hi : Tally.install r now with
          | ok s₁ =>
            rw [hi] at heq
            cases heq
            exact hr.install hu hi
          | abort | blocked => rw [hi] at heq; cases heq
        · refine hr.other hu (fun calls => ?_) hsec
          rw [Tally.admits_act hv, if_pos rfl, Bool.eq_false_iff.2 ha]
          rfl

end MetaDR
