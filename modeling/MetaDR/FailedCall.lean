import MetaDR.LockOrder
/-!
# FailedCall — what a failed request leaves behind

One call by itself: the sections of the client's thread from the API's test to the reply, with the answers that come
in while `replicate` waits.  An error other than `QUORUM_NOT_REACHED` is answered before anything is written, but for
one number: `replicateUpdate` and `replicateDelete` count up the op number before `replicate` looks at the status.  So
the replica is as it was exactly when its status is `NORMAL` or the call ends before the replicator is asked
(`failed_call_unchanged`).
-/
namespace MetaDR

/-- The sections of a call behind the store's assertion. -/
def Act.goesOn : Act → Bool
  | .replicateBegin => true
  | .replicateCount => true
  | .replicateWake => true
  | .replicateTimeout => true
  | .clientFinish => true
  | _ => false

namespace Replica

def replicating (r : Replica) : Bool :=
  match r.client with
  | .prepared _ _ _ => true
  | .waiting _ _ _ => true
  | _ => false

/-- Nothing but one call runs, and the answers to its `Prepare`s arrive and are counted. -/
def onlyCall (req : Req) (r : Replica) (tr : List (LocalEvent × Step)) : LocalEvent → Bool
  | .act (.clientCall req') _ => decide (req' = req) && tr.isEmpty
  | .act .prepareOkCount _ => r.replicating
  | .act a _ => a.goesOn
  | .recv (.prepareOk _) _ => r.replicating
  | .recv _ _ => false

abbrev CallRuns (r : Replica) (req : Req) : Replica → List (LocalEvent × Step) → Prop :=
  Run.Reach (alone r) (onlyCall req)

/-- **The replica is as it was**, and the next operation gets the number it would have got. -/
structure Unchanged (r r' : Replica) : Prop where
  kvMap : r'.kvMap = r.kvMap
  log : r'.log = r.log
  opNum : r'.opNum = r.opNum
  commitNum : r'.commitNum = r.commitNum
  viewNum : r'.viewNum = r.viewNum
  waitMap : r'.waitMap = r.waitMap
  next : ∀ kvPair opType, (r'.mkPrepInfo kvPair opType).opNum = (r.mkPrepInfo kvPair opType).opNum

/-- How far a call is: where that leaves the replica, and what was seen of it. -/
inductive CallStage (r : Replica) (req : Req) : Replica → List (LocalEvent × Step) → Prop where
  | arrived : CallStage r req r []
  | answered (up : Bool) (tr : List (LocalEvent × Step)) (hne : tr ≠ []) (hm : r.mutates req = false) :
      CallStage r req { r with up := up } tr
  | locked (up : Bool) (m : Mutation) (tr : List (LocalEvent × Step)) (hne : tr ≠ []) (hm : r.mutates req = true)
      (hs : seen tr = []) : CallStage r req { r with up := up, client := .locked req m } tr
  | refused (up : Bool) (tr : List (LocalEvent × Step)) (hne : tr ≠ []) (hm : r.mutates req = true)
      (hs : r.status ≠ .normal) : CallStage r req { r with up := up, opNum := r.opNum + 1, client := .idle } tr
  | sent (r' : Replica) (tr : List (LocalEvent × Step)) (hne : tr ≠ []) (hl : ∀ req' m, r'.client ≠ .locked req' m)
      (ho : ∀ q req' e, .replied q req' (.err e) ∈ seen tr → e = .none ∨ e = .quorumNotReached) : CallStage r req r' tr

variable {r r' : Replica} {req : Req} {tr : List (LocalEvent × Step)} {e : LocalEvent} {s : Step}

theorem CallStage.ended (hc : r.client = .idle) (h : r.CallStage req r' tr) :
    r.CallStage req r'.ended (tr ++ [(e, quiet r'.ended)]) := by
  have hne : tr ++ [(e, quiet r'.ended)] ≠ [] := List.concat_ne_nil _ _
  cases h with
  | arrived =>
    refine .sent _ _ hne (fun req' m hl => ?_) (fun q req' e ho => ?_)
    · cases hc.symm.trans hl
    · cases ho
  | answered up _ _ hm => exact .answered false _ hne hm
  | locked up m _ _ hm hs => exact .locked false m _ hne hm (by rw [seen_concat, hs]; rfl)
  | refused up _ _ hm hs => exact .refused false _ hne hm hs
  | sent _ _ _ hl ho =>
    refine .sent _ _ hne hl (fun q req' e hr => ?_)
    rw [seen_concat] at hr
    exact ho q req' e (by simpa [quiet] using hr)

/-- A section behind the store's assertion needs a call that came so far. -/
theorem not_goesOn_of_idle {a : Act} {now : Nat} (hc : r'.client = .idle) (ha : a.goesOn = true) :
    r'.act now a ≠ .ok s := by
  intro h
  cases performs_of_act h with
  | refused _ _ hc' | prepared _ _ _ hc' | waits _ _ _ hc' | counted _ _ _ _ hc' => cases hc.symm.trans hc'
  | woken _ _ _ _ hc' | timedOut _ _ _ hc' | finished _ _ _ hc' => cases hc.symm.trans hc'
  | recovered _ _ _ hb => rcases hb with ⟨rfl, -⟩ | ⟨rfl, -⟩ <;> cases ha
  | _ => cases ha

/-- What may happen behind the first section of a call. -/
theorem goesOn_or_answer (hne : tr ≠ []) (hok : onlyCall req r' tr e = true) :
    (∃ a now, e = .act a now ∧ a.goesOn = true) ∨ r'.replicating = true ∧
      ((∃ resp now, e = .recv (.prepareOk resp) now) ∨ ∃ now, e = .act .prepareOkCount now) := by
  cases e with
  | act a now =>
    cases a with
    | clientCall req' => simp [onlyCall, hne] at hok
    | prepareOkCount => exact .inr ⟨hok, .inr ⟨now, rfl⟩⟩
    | _ => exact .inl ⟨_, now, rfl, hok⟩
  | recv msg now =>
    cases msg with
    | prepareOk resp => exact .inr ⟨hok, .inl ⟨resp, now, rfl⟩⟩
    | _ => cases hok

theorem idle_of_stage (hc : r'.client = .idle) (hne : tr ≠ []) (hok : onlyCall req r' tr e = true) :
    r'.localSection e ≠ .ok s := by
  rcases goesOn_or_answer hne hok with ⟨a, now, rfl, ha⟩ | ⟨hr, -⟩
  · exact not_goesOn_of_idle hc ha
  · rw [replicating, hc] at hr
    cases hr

/-- A call that waits for `_repMutex` is refused or sent. -/
theorem CallStage.of_locked {up : Bool} {m : Mutation} (hne : tr ≠ [])
    (hm : r.mutates req = true) (hseen : seen tr = [])
    (hok : onlyCall req { r with up := up, client := .locked req m } tr e = true)
    (hs : { r with up := up, client := .locked req m }.localSection e = .ok s) :
    r.CallStage req s.rep (tr ++ [(e, s)]) := by
  have hne' : tr ++ [(e, s)] ≠ [] := List.concat_ne_nil _ _
  obtain ⟨a, now, rfl, ha⟩ | ⟨hr, -⟩ := goesOn_or_answer hne hok
  · have hs' : { r with up := up, client := .locked req m }.act now a = .ok s := hs
    cases performs_of_act hs' with
    | refused req' m' hc' hl hst => exact .refused up _ hne' hm hst
    | prepared req' m' prepInfo =>
      refine .sent _ _ hne' (fun _ _ hl => by cases hl) (fun q req' e ho => ?_)
      rw [seen_concat, hseen] at ho
      simp at ho
    | waits _ _ _ hc' | counted _ _ _ _ hc' | woken _ _ _ _ hc' | timedOut _ _ _ hc' | finished _ _ _ hc' => cases hc'
    | recovered _ _ _ hb => rcases hb with ⟨rfl, -⟩ | ⟨rfl, -⟩ <;> cases ha
    | _ => cases ha
  · cases hr

/-- A call that was sent is answered with `NONE` or `QUORUM_NOT_REACHED`. -/
theorem CallStage.of_sent (hne : tr ≠ []) (hl : ∀ req' m, r'.client ≠ .locked req' m)
    (ho : ∀ q req' e, .replied q req' (.err e) ∈ seen tr → e = .none ∨ e = .quorumNotReached)
    (hok : onlyCall req r' tr e = true) (hs : r'.localSection e = .ok s) : r.CallStage req s.rep (tr ++ [(e, s)]) := by
  have hsent : (∀ req' m, s.rep.client ≠ .locked req' m) →
      (∀ q req' e, .replied q req' (.err e) ∈ s.obs → e = .none ∨ e = .quorumNotReached) →
      r.CallStage req s.rep (tr ++ [(e, s)]) := fun h₁ h₂ => by
    refine .sent _ _ (List.concat_ne_nil _ _) h₁ (fun q req' e hr => ?_)
    rw [seen_concat] at hr
    exact (List.mem_append.1 hr).elim (ho q req' e) (h₂ q req' e)
  obtain ⟨a, now, rfl, ha⟩ | ⟨-, ⟨resp, now, rfl⟩ | ⟨now, rfl⟩⟩ := goesOn_or_answer hne hok
  · have hs' : r'.act now a = .ok s := hs
    cases performs_of_act hs' with
    | refused req' m hc' | prepared req' m _ hc' => exact absurd hc' (hl req' m)
    | waits | counted | woken => exact hsent (fun _ _ h => by cases h) (fun q req' e h => by simp [quiet, passed] at h)
    | timedOut =>
      exact hsent (fun _ _ h => by cases h) (fun q req' e h => by simp_all [Replica.replicateTimeout, Mutation.finish])
    | finished =>
      exact hsent (fun _ _ h => by cases h) (fun q req' e h => by simp_all [Replica.clientFinish, Mutation.finish])
    | recovered _ _ _ hb => rcases hb with ⟨rfl, -⟩ | ⟨rfl, -⟩ <;> cases ha
    | _ => cases ha
  · have hs' : r'.handle now (.prepareOk resp) = .ok s := hs
    cases handles_of_handle hs' <;> exact hsent hl (fun q req' e h => by simp [quiet] at h)
  · have hs' : r'.act now .prepareOkCount = .ok s := hs
    cases performs_of_act hs' with
    | enough => exact hsent hl (fun q req' e h => by simp [quiet] at h)
    | okCounted => exact hsent hl (fun q req' e h => by simp at h)
    | recovered _ _ _ hb => rcases hb with ⟨hb, -⟩ | ⟨hb, -⟩ <;> cases hb

/-- **A call goes on** from stage to stage. -/
theorem CallStage.step (hc : r.client = .idle) (h : r.CallStage req r' tr) (hok : onlyCall req r' tr e = true)
    (hs : r'.localSection e = .ok s) : r.CallStage req s.rep (tr ++ [(e, s)]) := by
  cases h with
  | arrived =>
    cases e with
    | recv msg now => cases msg <;> simp [onlyCall, replicating, hc] at hok
    | act a now =>
      have hs' : r.act now a = .ok s := hs
      by_cases ha : a.goesOn = true
      · exact absurd hs' (not_goesOn_of_idle hc ha)
      · obtain ⟨rfl⟩ : a = .clientCall req := by cases a <;> simp_all [onlyCall, Act.goesOn, replicating]
        have hne : [] ++ [(LocalEvent.act (.clientCall req) now, s)] ≠ [] := List.concat_ne_nil _ _
        cases performs_of_act hs' with
        | replied _ res _ hf => exact .answered r.up _ hne (by rw [mutates, hf])
        | locked _ m _ _ hf => exact .locked r.up m _ hne (by rw [mutates, hf]) rfl
        | recovered _ _ _ hb => rcases hb with ⟨hb, -⟩ | ⟨hb, -⟩ <;> cases hb
  | answered up _ hne hm => exact absurd hs (idle_of_stage hc hne hok)
  | refused up _ hne hm => exact absurd hs (idle_of_stage rfl hne hok)
  | locked up m _ hne hm hseen => exact .of_locked hne hm hseen hok hs
  | sent _ _ hne hl ho => exact .of_sent hne hl ho hok hs

theorem callStage_of_runs (hc : r.client = .idle) (h : CallRuns r req r' tr) : r.CallStage req r' tr :=
  alone_invariant (P := r.CallStage req) .arrived (fun _ _ _ hP => hP.ended hc)
    (fun _ _ _ _ _ hP hok hs => hP.step hc hok hs) h

end Replica

/-- **What a failed request leaves behind**: after a call at any replica that was answered with an error other than
`QUORUM_NOT_REACHED`, the replica is as it was if and only if it was `NORMAL` or the call ended before the replicator
was asked. -/
theorem failed_call_unchanged {r r' : Replica} {req : Req} {tr : List (LocalEvent × Step)} {q : Nat} {e : Error}
    (hc : r.client = .idle) (h : Replica.CallRuns r req r' tr) (hr : .replied q req (.err e) ∈ seen tr)
    (hn : e ≠ .none) (hq : e ≠ .quorumNotReached) : r.Unchanged r' ↔ r.status = .normal ∨ r.mutates req = false := by
  cases Replica.callStage_of_runs hc h with
  | arrived => cases hr
  | answered up _ _ hm => exact iff_of_true ⟨rfl, rfl, rfl, rfl, rfl, rfl, fun _ _ => rfl⟩ (.inr hm)
  | locked up m _ _ _ hs =>
    rw [hs] at hr
    cases hr
  | refused up _ _ hm hs =>
    refine iff_of_false (fun hu => absurd hu.opNum (Nat.succ_ne_self _)) ?_
    rintro (hst | hm')
    · exact hs hst
    · exact absurd (hm.symm.trans hm') Bool.noConfusion
  | sent _ _ _ _ ho => exact ((ho q req e hr).elim hn hq).elim

/-- A primary that has committed `/x` and `/x/y` and is on its way to another view. -/
def stocked : Replica :=
  { Replica.init 3 0 with
    status := .viewChange
    opNum := 2
    commitNum := 2
    log := .setLog [⟨⟨[slash, 120], []⟩, .update, 1, true⟩, ⟨⟨[slash, 120, slash, 121], []⟩, .update, 2, true⟩]
    kvMap := (Finmap.singleton [slash, 120] []).insert [slash, 120, slash, 121] [] }

/-- `/x` has a child. -/
theorem failed_call_unchanged_three : ∃ r' tr, Replica.CallRuns stocked (.remove [slash, 120]) r' tr ∧
    .replied 0 (.remove [slash, 120]) (.err .keyHasChildren) ∈ seen tr ∧ stocked.Unchanged r' := by
  obtain ⟨r', tr, h, hq⟩ : ∃ r' tr, Replica.CallRuns stocked (.remove [slash, 120]) r' tr ∧
      decide (.replied 0 (.remove [slash, 120]) (.err .keyHasChildren) ∈ seen tr) = true :=
    Run.exists_reach_of_exec [.act (.clientCall (.remove [slash, 120])) 0]
      (fun _ tr => decide (.replied 0 (.remove [slash, 120]) (.err .keyHasChildren) ∈ seen tr)) (by decide +kernel)
  have hr := of_decide_eq_true hq
  have hm : stocked.mutates (.remove [slash, 120]) = false := by decide +kernel
  exact ⟨r', tr, h, hr, (failed_call_unchanged rfl h hr (by decide) (by decide)).2 (.inr hm)⟩

/-- A `StartView` that replica `0` does not take up yet. -/
def laterStart : ViewStartInfo := ⟨5, [], 0, 0, 2⟩

/-- The primary `0` once it has stored it: the status has changed, the role has not. -/
def shaking : Replica :=
  { Replica.init 3 0 with
    status := .viewChange
    viewStartInfoMap := (Replica.init 3 0).viewStartInfoMap.insert 5 laterStart
    listener := some (.startView 5) }

/-- And once it has counted it. -/
def shaken : Replica := { shaking with startViewMap := shaking.startViewMap.bump 5, listener := none }

theorem failed_call_unchanged_fails : ¬ ∀ (r₀ r r' : Replica) (req : Req) (tr₀ tr : List (LocalEvent × Step)) (q : Nat)
    (e : Error), r₀.Fresh → Run.Reach (Replica.alone r₀) (fun _ _ _ => true) r tr₀ → r.client = .idle →
      Replica.CallRuns r req r' tr → .replied q req (.err e) ∈ seen tr → e ≠ .none → e ≠ .quorumNotReached →
      r.Unchanged r' := by
  intro hall
  have hshaken : Run.Reach (Replica.alone (.init 3 0)) (fun _ _ _ => true) shaken
      ([] ++ [(.recv (.startView laterStart) 0, Replica.quiet shaking)] ++
        [(.act .startViewCount 0, Replica.quiet shaken)]) :=
    (Run.Reach.init.step (e := .recv (.startView laterStart) 0) rfl rfl).step (e := .act .startViewCount 0) rfl rfl
  obtain ⟨r', tr, h, hq⟩ : ∃ r' tr, Replica.CallRuns shaken (.create ⟨[slash, 120], []⟩) r' tr ∧
      (decide (.replied 0 (.create ⟨[slash, 120], []⟩) (.err .statusNotNormal) ∈ seen tr) &&
        decide (r'.opNum = 1)) = true :=
    Run.exists_reach_of_exec (S := Replica.alone shaken)
      [.act (.clientCall (.create ⟨[slash, 120], []⟩)) 0, .act .replicateBegin 0]
      (fun (r' : Replica) tr => decide (.replied 0 (.create ⟨[slash, 120], []⟩) (.err .statusNotNormal) ∈ seen tr) &&
        decide (r'.opNum = 1)) (by decide +kernel)
  simp only [Bool.and_eq_true, decide_eq_true_eq] at hq
  have hu := hall _ shaken r' _ _ tr 0 _ (.init 3 0) hshaken rfl h hq.1 (by decide) (by decide)
  exact absurd (hq.2.symm.trans hu.opNum) (by decide)

end MetaDR
