import MetaDR.Alone
import MetaDR.Views
import Mathlib.Order.Bounds.Basic
/-!
# OldView — the old view a replica reports

A vote is meant to name the last view its sender was `NORMAL` in: `updateNewView` ranks the logs by it.  What
`changeView` puts there is the view number before its own increment, and an attempt that times out leaves the increment
behind.  The view number is the greatest `NORMAL` view plus the attempts since (`Replica.Clock`), so a vote names that
view exactly in the first attempt (`old_view_last_normal`); a replica that was cut off for its second attempt has the
rank of one that was `NORMAL` in the view it missed (`old_view_last_normal_fails`).
-/
namespace MetaDR

/-- The replica has been `NORMAL` in the view: in view `0` at its start, or behind a step of the run. -/
def NormalIn (tr : List (LocalEvent × Step)) (v : Nat) : Prop :=
  v = 0 ∨ ∃ x ∈ tr, x.2.rep.status = .normal ∧ x.2.rep.viewNum = v

def Obs.isEntered : Obs → Bool
  | .entered _ _ => true
  | _ => false

def attemptsStep (n : Nat) (x : LocalEvent × Step) : Nat :=
  if x.2.rep.status = .normal then 0 else n + x.2.obs.countP Obs.isEntered

/-- The calls of `changeView` since the replica was last `NORMAL`. -/
def attempts (tr : List (LocalEvent × Step)) : Nat := tr.foldl attemptsStep 0

@[simp] theorem attempts_concat (tr : List (LocalEvent × Step)) (x : LocalEvent × Step) :
    attempts (tr ++ [x]) = attemptsStep (attempts tr) x := by
  rw [attempts, List.foldl_append, List.foldl_cons, List.foldl_nil, attempts]

theorem normalIn_concat {tr : List (LocalEvent × Step)} {x : LocalEvent × Step} {v : Nat} :
    NormalIn (tr ++ [x]) v ↔ NormalIn tr v ∨ (x.2.rep.status = .normal ∧ x.2.rep.viewNum = v) := by
  simp only [NormalIn, List.mem_append, List.mem_singleton, or_and_right, exists_or, exists_eq_left, or_assoc]

/-- The old view that `changeView` keeps until it votes. -/
def HbPc.old : HbPc → Option Nat
  | .startSent _ o => some o
  | .startWait _ o => some o
  | _ => none

namespace Replica

/-- **What a section does to the view.** -/
inductive ViewMove (r : Replica) (s : Step) : Prop where
  | stays (hv : s.rep.viewNum = r.viewNum) (hs : s.rep.status = r.status ∨ s.rep.status = .viewChange)
      (hb : s.rep.hb.view = r.hb.view ∨ s.rep.hb.view = none) (hold : s.rep.hb.old = r.hb.old ∨ s.rep.hb.old = none)
      (ho : s.obs.countP Obs.isEntered = 0)
  | entered (hv : s.rep.viewNum = r.viewNum + 1) (hs : s.rep.status = .viewChange)
      (hb : s.rep.hb = .startSent (r.viewNum + 1) r.viewNum) (ho : s.obs.countP Obs.isEntered = 1)
  | started (hv : s.rep.viewNum = r.viewNum + 1 ∨ r.hb.view = some s.rep.viewNum) (hs : s.rep.status = .normal)
      (hb : s.rep.hb = .idle)

theorem viewMove_of_handle {r : Replica} {msg : Msg} {now : Nat} {s : Step} (h : r.handle now msg = .ok s) :
    r.ViewMove s := by
  cases handles_of_handle h with
  | startStored => exact .stays rfl (.inr rfl) (.inl rfl) (.inl rfl) rfl
  | _ => exact .stays rfl (.inl rfl) (.inl rfl) (.inl rfl) rfl

theorem viewMove_of_act {r : Replica} {a : Act} {now : Nat} {s : Step} (hrec : ¬ r.Recovers s)
    (h : r.act now a = .ok s) : r.ViewMove s := by
  cases performs_of_act h with
  | entered => exact .entered rfl rfl rfl rfl
  | enteredJoined info kvMap ops hl hw hi hn => exact .started (.inl hn) rfl rfl
  | startedPrimary v candidate kvMap ops hb hd hq hc hn =>
    exact .started (.inr (by rw [hb]; exact congrArg some hn.symm)) rfl rfl
  | startedBackup v info kvMap ops hb hd hi hn =>
    exact .started (.inr (by rw [hb]; exact congrArg some hn.symm)) rfl rfl
  | startWaits v o hb => exact .stays rfl (.inl rfl) (.inl (by rw [hb]; rfl)) (.inl (by rw [hb]; rfl)) rfl
  | votedAtOnce v o hb | voted v o hb => exact .stays rfl (.inl rfl) (.inl (by rw [hb]; rfl)) (.inr rfl) rfl
  | nextCandidate info cnt c call sent hb => exact .stays rfl (.inl rfl) (.inl (by rw [hb]; rfl)) (.inr rfl) rfl
  | choseSelf info cnt call hb => exact .stays rfl (.inl rfl) (.inl (by rw [hb]; rfl)) (.inr rfl) rfl
  | chose info cnt c call sent hb => exact .stays rfl (.inl rfl) (.inl (by rw [hb]; rfl)) (.inr rfl) rfl
  | gaveUp | recoverSent | recoverWaits => exact .stays rfl (.inl rfl) (.inr rfl) (.inr rfl) rfl
  | recovered _ nonce _ hb hend =>
    exact absurd ⟨nonce, now, hb.imp (fun h => h.2.1) (fun h => h.2), hend⟩ hrec
  | _ => exact .stays rfl (.inl rfl) (.inl rfl) (.inl rfl) rfl

/-- A vote names the view that `changeView` kept. -/
theorem old_of_voted {r : Replica} {e : LocalEvent} {s : Step} {q : Nat} {info : ViewChangeInfo}
    (h : r.localSection e = .ok s) (hv : .voted q info ∈ s.obs) : r.hb.old = some info.oldViewNum := by
  have happlied : ∀ {ops : List (Nat × Op)}, .voted q info ∉ ops.map (fun p => Obs.applied r.id p.1 p.2) := by
    intro ops hm
    obtain ⟨p, -, hp⟩ := List.mem_map.1 hm
    cases hp
  cases e with
  | recv msg now =>
    have hs : r.handle now msg = .ok s := h
    cases handles_of_handle hs <;> cases hv
  | act a now =>
    have hs : r.act now a = .ok s := h
    cases performs_of_act hs with
    | votedAtOnce v o hb | voted v o hb =>
      cases List.mem_singleton.1 hv
      rw [hb]
      rfl
    | enteredJoined info kvMap ops =>
      rcases List.mem_append.1 (List.mem_of_ne_of_mem Obs.noConfusion hv) with hm | hm
      · exact absurd hm happlied
      · cases List.mem_singleton.1 hm
    | startedPrimary | startedBackup =>
      rcases List.mem_append.1 hv with hm | hm
      · exact absurd hm happlied
      · cases List.mem_singleton.1 hm
    | recovered _ nonce _ _ hend =>
      obtain ⟨resp, rfl⟩ := recoverEnd_eq_some hend
      obtain ⟨p, -, hp⟩ := List.mem_map.1 hv
      cases hp
    | _ => simp [quiet, passed, replicateTimeout, clientFinish, heartBeat, recoverBegin, processRecoveryReqLocked] at hv

end Replica

/-- **The view number counts the attempts**: it is the greatest `NORMAL` view and the attempts since. -/
structure Replica.Clock (r : Replica) (tr : List (LocalEvent × Step)) : Prop where
  live : r.status ≠ .recovering
  phase : r.Phase
  last : ∃ v, IsGreatest {v | NormalIn tr v} v ∧ r.viewNum = v + attempts tr
  normal : r.status = .normal → attempts tr = 0
  view : ∀ w, r.hb.view = some w → w = r.viewNum ∧ 0 < attempts tr
  old : ∀ o, r.hb.old = some o → o + 1 = r.viewNum

namespace Replica

variable {r : Replica} {tr : List (LocalEvent × Step)} {e : LocalEvent} {s : Step}

theorem clock_init (n i : Nat) : (Replica.init n i).Clock [] := by
  refine ⟨Status.noConfusion, trivial, ⟨0, ⟨.inl rfl, fun v hv => ?_⟩, rfl⟩, fun _ => rfl, fun w hw => (by cases hw),
    fun o ho => (by cases ho)⟩
  rcases hv with rfl | ⟨x, hx, -⟩
  · exact le_refl _
  · cases hx

theorem Clock.not_recovers (h : r.Clock tr) : ¬ r.Recovers s := by
  rintro ⟨nonce, now, hb, -⟩
  have hp := h.phase
  rcases hb with hb | hb <;> rw [Phase, hb] at hp <;> exact h.live hp

/-- A step that leaves the replica `NORMAL`, in a view at or above all it was `NORMAL` in. -/
theorem isGreatest_normal {v : Nat} (hv : IsGreatest {v | NormalIn tr v} v) (hs : s.rep.status = .normal)
    (hle : v ≤ s.rep.viewNum) : IsGreatest {v | NormalIn (tr ++ [(e, s)]) v} s.rep.viewNum := by
  refine ⟨normalIn_concat.2 (.inr ⟨hs, rfl⟩), fun u hu => ?_⟩
  rcases normalIn_concat.1 hu with hu | ⟨-, rfl⟩
  · exact (hv.2 hu).trans hle
  · exact le_refl _

theorem isGreatest_other {v : Nat} (hv : IsGreatest {v | NormalIn tr v} v) (hs : s.rep.status ≠ .normal) :
    IsGreatest {v | NormalIn (tr ++ [(e, s)]) v} v := by
  refine ⟨normalIn_concat.2 (.inl hv.1), fun u hu => ?_⟩
  rcases normalIn_concat.1 hu with hu | ⟨hn, -⟩
  · exact hv.2 hu
  · exact absurd hn hs

theorem attempts_normal (hs : s.rep.status = .normal) : attempts (tr ++ [(e, s)]) = 0 := by
  rw [attempts_concat, attemptsStep, if_pos hs]

theorem attempts_other (hs : s.rep.status ≠ .normal) :
    attempts (tr ++ [(e, s)]) = attempts tr + s.obs.countP Obs.isEntered := by
  rw [attempts_concat, attemptsStep, if_neg hs]

/-- What no call of `changeView` begins or ends leaves the count as it is. -/
theorem Clock.stays (h : r.Clock tr) (hp : s.rep.Phase) (hv : s.rep.viewNum = r.viewNum)
    (hs : s.rep.status = r.status ∨ s.rep.status = .viewChange)
    (hb : s.rep.hb.view = r.hb.view ∨ s.rep.hb.view = none) (hold : s.rep.hb.old = r.hb.old ∨ s.rep.hb.old = none)
    (ho : s.obs.countP Obs.isEntered = 0) : s.rep.Clock (tr ++ [(e, s)]) := by
  have hview : ∀ w, s.rep.hb.view = some w → r.hb.view = some w := fun w hw =>
    hb.elim (fun hb => hb ▸ hw) (fun hb => by rw [hb] at hw; cases hw)
  have holds : ∀ o, s.rep.hb.old = some o → r.hb.old = some o := fun o hw =>
    hold.elim (fun hb => hb ▸ hw) (fun hb => by rw [hb] at hw; cases hw)
  obtain ⟨v, hgreat, hcount⟩ := h.last
  by_cases hn : s.rep.status = .normal
  · have hzero := h.normal ((hs.resolve_right (by rw [hn]; exact Status.noConfusion)).symm.trans hn)
    refine ⟨by rw [hn]; exact Status.noConfusion, hp, ⟨_, isGreatest_normal hgreat hn (by omega), ?_⟩,
      fun _ => attempts_normal hn, fun w hw => ?_, fun o hw => hv ▸ h.old o (holds o hw)⟩
    · rw [attempts_normal hn, Nat.add_zero]
    · have := (h.view w (hview w hw)).2
      omega
  · have hsame : attempts (tr ++ [(e, s)]) = attempts tr := by rw [attempts_other hn, ho, Nat.add_zero]
    refine ⟨fun hr => ?_, hp, ⟨v, isGreatest_other hgreat hn, by rw [hsame, hv, hcount]⟩, fun hn' => absurd hn' hn,
      fun w hw => ?_, fun o hw => hv ▸ h.old o (holds o hw)⟩
    · rcases hs with hs | hs
      · exact h.live (hs.symm.trans hr)
      · cases hs.symm.trans hr
    · rw [hsame, hv]
      exact h.view w (hview w hw)

theorem Clock.step (h : r.Clock tr) (hp : s.rep.Phase) (hm : r.ViewMove s) : s.rep.Clock (tr ++ [(e, s)]) := by
  obtain ⟨v, hgreat, hcount⟩ := h.last
  cases hm with
  | stays hv hs hb hold ho => exact h.stays hp hv hs hb hold ho
  | entered hv hs hb ho =>
    have hn : s.rep.status ≠ .normal := by rw [hs]; exact Status.noConfusion
    have hone : attempts (tr ++ [(e, s)]) = attempts tr + 1 := by rw [attempts_other hn, ho]
    refine ⟨by rw [hs]; exact Status.noConfusion, hp, ⟨v, isGreatest_other hgreat hn, by omega⟩,
      fun hn' => absurd hn' hn, fun w hw => ?_, fun o hw => ?_⟩
    · rw [hb] at hw
      cases hw
      exact ⟨hv.symm, by omega⟩
    · rw [hb] at hw
      cases hw
      exact hv.symm
  | started hv hs hb =>
    have hle : v ≤ s.rep.viewNum := by
      rcases hv with hv | hv
      · omega
      · have := (h.view _ hv).1
        omega
    refine ⟨by rw [hs]; exact Status.noConfusion, hp, ⟨_, isGreatest_normal hgreat hs hle, ?_⟩,
      fun _ => attempts_normal hs, fun w hw => ?_, fun o hw => ?_⟩
    · rw [attempts_normal hs, Nat.add_zero]
    · rw [hb] at hw
      cases hw
    · rw [hb] at hw
      cases hw

def VoteNames (tr : List (LocalEvent × Step)) (x : LocalEvent × Step) : Prop :=
  ∀ q info, .voted q info ∈ x.2.obs → ∃ v, IsGreatest {v | NormalIn tr v} v ∧ 0 < attempts tr ∧
    info.oldViewNum + 1 = v + attempts tr

theorem Clock.voteNames (h : r.Clock tr) (hs : r.localSection e = .ok s) : VoteNames tr (e, s) := by
  intro q info hv
  have hold := old_of_voted hs hv
  obtain ⟨v, hgreat, hcount⟩ := h.last
  have hview : ∃ w, r.hb.view = some w := by
    revert hold
    cases r.hb <;> simp [HbPc.old, HbPc.view]
  obtain ⟨w, hw⟩ := hview
  exact ⟨v, hgreat, (h.view w hw).2, by rw [h.old _ hold, hcount]⟩

/-- **The count of a whole run**, and what each vote on it names. -/
theorem clock_of_reach {n i : Nat} {r : Replica}
    (h : Run.Reach (alone (.init n i)) (fun _ _ _ => true) r tr) : r.Clock tr ∧ Run.Each VoteNames tr := by
  refine alone_invariant (P := fun r tr => r.Clock tr ∧ Run.Each VoteNames tr) ⟨clock_init n i, Run.each_nil⟩ ?_ ?_ h
  · rintro r tr e ⟨hc, hE⟩
    have hm : r.ViewMove (quiet r.ended) := .stays rfl (.inl rfl) (.inl rfl) (.inl rfl) rfl
    refine ⟨hc.step (s := quiet r.ended) hc.phase hm, hE.concat (fun q info hv => ?_)⟩
    cases hv
  · rintro r tr e s - ⟨hc, hE⟩ - hs
    have hm : r.ViewMove s := by
      cases e with
      | act a now => exact viewMove_of_act hc.not_recovers hs
      | recv msg now => exact viewMove_of_handle hs
    exact ⟨hc.step (hc.phase.section_ok hs) hm, hE.concat (hc.voteNames hs)⟩

end Replica

/-- **The old view of a vote**, in every run of a replica that was not restarted, whatever arrives and however its
attempts go: it is the greatest view the replica has been `NORMAL` in if and only if this is the first attempt since it
was; and then the vote names an older view than each vote of a replica that has been `NORMAL` in a later one. -/
theorem old_view_last_normal {n i : Nat} {r : Replica} {tr tr₁ tr₂ : List (LocalEvent × Step)} {x : LocalEvent × Step}
    {q : Nat} {info : ViewChangeInfo} (h : Run.Reach (Replica.alone (.init n i)) (fun _ _ _ => true) r tr)
    (htr : tr = tr₁ ++ x :: tr₂) (hv : .voted q info ∈ x.2.obs) :
    (IsGreatest {v | NormalIn tr₁ v} info.oldViewNum ↔ attempts tr₁ = 1) ∧
      (attempts tr₁ = 1 → ∀ {j : Nat} {r' : Replica} {tr' tr₁' tr₂' : List (LocalEvent × Step)}
        {x' : LocalEvent × Step} {q' : Nat} {info' : ViewChangeInfo} {w : Nat},
        Run.Reach (Replica.alone (.init n j)) (fun _ _ _ => true) r' tr' → tr' = tr₁' ++ x' :: tr₂' →
        .voted q' info' ∈ x'.2.obs → NormalIn tr₁' w → (∀ v, NormalIn tr₁ v → v < w) →
        info.oldViewNum < info'.oldViewNum) := by
  obtain ⟨v, hgreat, hpos, hcount⟩ := (Replica.clock_of_reach h).2 tr₁ x tr₂ htr q info hv
  refine ⟨⟨fun hg => ?_, fun ha => ?_⟩, fun ha j r' tr' tr₁' tr₂' x' q' info' w h' htr' hv' hw hlt => ?_⟩
  · have := hg.unique hgreat
    omega
  · obtain rfl : info.oldViewNum = v := by omega
    exact hgreat
  · obtain ⟨v', hgreat', hpos', hcount'⟩ := (Replica.clock_of_reach h').2 tr₁' x' tr₂' htr' q' info' hv'
    have h₁ : v < w := hlt v hgreat.1
    have h₂ : w ≤ v' := hgreat'.2 hw
    omega

/-- The last step of a run is this vote of the replica, behind so many attempts. -/
def votesLast (i : Nat) (info : ViewChangeInfo) (k : Nat) (tr : List (LocalEvent × Step)) : Bool :=
  tr.getLast?.any (fun x => decide (.voted i info ∈ x.2.obs)) && decide (attempts tr.dropLast = k)

theorem votesLast_eq_true {i k : Nat} {info : ViewChangeInfo} {tr : List (LocalEvent × Step)}
    (h : votesLast i info k tr = true) :
    ∃ x, tr = tr.dropLast ++ x :: [] ∧ .voted i info ∈ x.2.obs ∧ attempts tr.dropLast = k := by
  rw [votesLast, Bool.and_eq_true, decide_eq_true_eq, Option.any_eq_true] at h
  obtain ⟨⟨x, hx, hv⟩, hk⟩ := h
  exact ⟨x, (List.dropLast_append_getLast? x hx).symm, of_decide_eq_true hv, hk⟩

def emptyVote (viewNum : Nat) : ViewChangeInfo := ⟨viewNum, [], viewNum - 1, 0, 0, 1⟩

def fullVote (viewNum : Nat) : ViewChangeInfo :=
  ⟨viewNum, [⟨⟨[slash, 120], []⟩, .update, 1, true⟩], viewNum - 1, 1, 1, 2⟩

/-- The call of `changeView` that a `StartViewChange` of replica `0` brings to its vote. -/
def attemptEvents (viewNum now : Nat) : List LocalEvent :=
  [.act .changeViewBegin now, .recv (.startViewChange ⟨viewNum, 0⟩) now, .act .changeViewCount now]

/-- A replica that is cut off in its first attempt. -/
def cutOffEvents : List LocalEvent :=
  [.act .changeViewBegin 9, .act .changeViewCount 9, .act .hbTimeout 9] ++ attemptEvents 2 9

/-- One that takes part in view `1` meanwhile. -/
def takesPartEvents : List LocalEvent :=
  [.recv (.prepare (.ofKey 0 1 0 [slash, 120])) 0, .act .prepCheck 0, .act .prepLocked 0, .recv (.commit ⟨0, 1⟩) 0,
    .act .commitLocked 0, .recv (.startView ⟨1, [⟨⟨[slash, 120], []⟩, .update, 1, true⟩], 1, 1, 0⟩) 9,
    .act .startViewCount 9,
    .act .changeViewBegin 9] ++ attemptEvents 2 19

theorem exists_vote {i k : Nat} (info : ViewChangeInfo) (es : List LocalEvent)
    (h : (Run.exec (Replica.alone (.init 3 i)) (fun _ _ _ => true) es (.init 3 i) []).any
      (fun p => votesLast i info k p.2) = true) :
    ∃ r tr tr₁ x, Run.Reach (Replica.alone (.init 3 i)) (fun _ _ _ => true) r tr ∧ tr = tr₁ ++ x :: [] ∧
      .voted i info ∈ x.2.obs ∧ attempts tr₁ = k := by
  obtain ⟨r, tr, h, hq⟩ := Run.exists_reach_of_exec es (fun _ tr => votesLast i info k tr) h
  obtain ⟨x, htr, hv, ha⟩ := votesLast_eq_true hq
  exact ⟨r, tr, tr.dropLast, x, h, htr, hv, ha⟩

theorem old_view_last_normal_three : ∃ r tr tr₁ x, Run.Reach (Replica.alone (.init 3 1)) (fun _ _ _ => true) r tr ∧
    tr = tr₁ ++ x :: [] ∧ .voted 1 (emptyVote 1) ∈ x.2.obs ∧
      IsGreatest {v | NormalIn tr₁ v} (emptyVote 1).oldViewNum := by
  obtain ⟨r, tr, tr₁, x, h, htr, hv, ha⟩ :=
    exists_vote (i := 1) (k := 1) (emptyVote 1) (attemptEvents 1 9) (by decide +kernel)
  exact ⟨r, tr, tr₁, x, h, htr, hv, (old_view_last_normal h htr hv).1.2 ha⟩

/-- Each vote names the greatest view its sender was `NORMAL` in. -/
def VotesNameLast : Prop :=
  ∀ n i r tr tr₁ x tr₂ q info, Run.Reach (Replica.alone (.init n i)) (fun _ _ _ => true) r tr →
    tr = tr₁ ++ x :: tr₂ → .voted q info ∈ x.2.obs → IsGreatest {v | NormalIn tr₁ v} (ViewChangeInfo.oldViewNum info)

/-- A vote names an older view than each vote of a replica that was `NORMAL` in a later one. -/
def VotesRank : Prop :=
  ∀ n i r tr tr₁ x tr₂ q info j r' tr' tr₁' x' tr₂' q' info' w,
    Run.Reach (Replica.alone (.init n i)) (fun _ _ _ => true) r tr → tr = tr₁ ++ x :: tr₂ → .voted q info ∈ x.2.obs →
    Run.Reach (Replica.alone (.init n j)) (fun _ _ _ => true) r' tr' → tr' = tr₁' ++ x' :: tr₂' →
    .voted q' info' ∈ x'.2.obs → NormalIn tr₁' w → (∀ v, NormalIn tr₁ v → v < w) →
    ViewChangeInfo.oldViewNum info < ViewChangeInfo.oldViewNum info'

theorem old_view_last_normal_fails : ¬ VotesNameLast ∧ ¬ VotesRank := by
  obtain ⟨r, tr, tr₁, x, h, htr, hv, ha⟩ :=
    exists_vote (i := 1) (k := 2) (emptyVote 2) cutOffEvents (by decide +kernel)
  obtain ⟨v, hgreat, -, hcount⟩ := (Replica.clock_of_reach h).2 tr₁ x [] htr 1 _ hv
  obtain rfl : v = 0 := by
    have hold : (emptyVote 2).oldViewNum = 1 := rfl
    omega
  constructor
  · intro hall
    have hg := hall _ _ r tr tr₁ x [] 1 _ h htr hv
    exact absurd (hg.unique hgreat) (by decide)
  · intro hall
    obtain ⟨r', tr', tr₁', x', h', htr', hv', ha'⟩ :=
      exists_vote (i := 2) (k := 1) (fullVote 2) takesPartEvents (by decide +kernel)
    obtain ⟨v', hgreat', -, hcount'⟩ := (Replica.clock_of_reach h').2 tr₁' x' [] htr' 2 _ hv'
    obtain rfl : v' = 1 := by
      have hold : (fullVote 2).oldViewNum = 1 := rfl
      omega
    have hlt := hall _ _ r tr tr₁ x [] 1 _ _ r' tr' tr₁' x' [] 2 _ 1 h htr hv h' htr' hv' hgreat'.1
      (fun v hn => Nat.lt_succ_of_le (hgreat.2 hn))
    exact absurd hlt (by decide)

end MetaDR
