import MetaDR.Tally
import MetaDR.Election
/-!
# VoteCount — the counter of votes and the stored votes

What is counted for a view, and what is stored and yet to be counted, is stored (`Tally.InStep`).  Each step keeps it
but one: a call that looks its counter up behind a `cleanUp` counts a vote that was cleared.  Without it the count never
exceeds the stored votes, and a quorum of the count is one of votes (`votes_in_step`).
-/
namespace MetaDR
/-- The call has a vote for the view in the map and is yet to count it there. -/
def VoteCall.fresh (w : Nat) : VoteCall → Bool
  | .tested _ => false
  | .pushed viewNum stale => decide (viewNum = w) && !stale
  | .got viewNum stale attached => decide (viewNum = w) && !stale && attached

@[simp] theorem VoteCall.fresh_cleared (w : Nat) (call : VoteCall) : call.cleared.fresh w = false := by
  cases call <;> simp [cleared, fresh]

theorem VoteCall.countP_cleared (w : Nat) (calls : List VoteCall) :
    (calls.map VoteCall.cleared).countP (VoteCall.fresh w) = 0 := by
  rw [List.countP_eq_zero]
  intro call hcall
  obtain ⟨c, -, rfl⟩ := List.mem_map.1 hcall
  rw [fresh_cleared]
  exact Bool.false_ne_true

theorem countP_erase {p : VoteCall → Bool} {calls : List VoteCall} {call : VoteCall} (h : call ∈ calls) :
    calls.countP p = (calls.erase call).countP p + if p call = true then 1 else 0 := by
  rw [(List.perm_cons_erase h).countP_eq p, List.countP_cons]

namespace Replica

variable {r : Replica} {s : Step}

/-- **What a section does to the votes**: nothing, or it stores and counts its own. -/
inductive OwnVote (r : Replica) (s : Step) : Prop where
  | stays (hc : s.rep.doViewChangeMap = r.doViewChangeMap) (hv : s.rep.viewChangeInfoMap = r.viewChangeInfoMap)
  | votes (info : ViewChangeInfo) (hc : s.rep.doViewChangeMap = r.doViewChangeMap.bump info.viewNum)
      (hv : s.rep.viewChangeInfoMap = (r.storeVote info).viewChangeInfoMap)

theorem ownVote_of_act {a : Act} {now : Nat} (hv : a ≠ .doViewChangeCount) (hu : r.updates a = false)
    (h : r.act now a = .ok s) : r.OwnVote s := by
  cases performs_of_act h with
  | voteCounted => exact absurd rfl hv
  | votedAtOnce v o | voted v o => exact .votes ⟨v, r.log.getLog, o, r.commitNum, r.commitNum, r.id⟩ rfl rfl
  | enteredJoined info kvMap ops hl hw hi => simp [updates, Finmap.mem_of_lookup_eq_some hi] at hu
  | startedPrimary v candidate kvMap ops hb | startedBackup v info kvMap ops hb => simp [updates, hb] at hu
  | recovered _ nonce _ _ hend =>
    obtain ⟨resp, rfl⟩ := recoverEnd_eq_some hend
    exact .stays rfl rfl
  | _ => exact .stays rfl rfl

theorem stays_of_unlocked {a : Act} {now : Nat} (hu : a.unlocked = true) (h : r.act now a = .ok s) :
    s.rep.doViewChangeMap = r.doViewChangeMap ∧ s.rep.viewChangeInfoMap = r.viewChangeInfoMap := by
  cases performs_of_act h with
  | replied | locked | finished | popped | enough | okCounted | recPopped | startCounted => exact ⟨rfl, rfl⟩
  | recovered _ _ _ hb => rcases hb with ⟨rfl, -⟩ | ⟨rfl, -⟩ <;> cases hu
  | _ => cases hu

theorem stays_of_handle {msg : Msg} {now : Nat} (hm : ∀ info, msg ≠ .doViewChange info) (h : r.handle now msg = .ok s) :
    s.rep.doViewChangeMap = r.doViewChangeMap ∧ s.rep.viewChangeInfoMap = r.viewChangeInfoMap := by
  cases handles_of_handle h with
  | voteStored info => exact absurd rfl (hm info)
  | _ => exact ⟨rfl, rfl⟩

end Replica

namespace Tally

/-- The votes the count of a view is held against: between the two halves of `cleanUp`, none. -/
def bound (t : Tally) (w : Nat) : Nat := if t.clean = .clearing then 0 else (t.rep.votesFor w).length

/-- **The count is in step**: what is counted for a view, and what is stored and yet to be counted, is stored. -/
def InStep (t : Tally) : Prop :=
  ∀ w, t.rep.doViewChangeMap.cnt w + t.calls.countP (VoteCall.fresh w) ≤ t.bound w

variable {t : Tally}

theorem votesFor_congr {r r' : Replica} (h : r'.viewChangeInfoMap = r.viewChangeInfoMap) (w : Nat) :
    r'.votesFor w = r.votesFor w := by rw [Replica.votesFor, h, Replica.votesFor]

theorem length_votesFor_storeVote (r : Replica) (info : ViewChangeInfo) (w : Nat) :
    ((r.storeVote info).votesFor w).length = (r.votesFor w).length + if w = info.viewNum then 1 else 0 := by
  rw [Replica.votesFor, Replica.storeVote, r.votesFor_push]
  split
  · rw [List.length_append, List.length_singleton]
  · rfl

/-- What changes neither map keeps the count in step; only between the halves of `cleanUp` it matters which. -/
theorem InStep.same (h : t.InStep) {r' : Replica} {calls : List VoteCall} {clean : CleanPc}
    (hc : ∀ w, r'.doViewChangeMap.cnt w = t.rep.doViewChangeMap.cnt w)
    (hv : r'.viewChangeInfoMap = t.rep.viewChangeInfoMap)
    (hf : ∀ w, calls.countP (VoteCall.fresh w) ≤ t.calls.countP (VoteCall.fresh w))
    (hclean : clean = .clearing ↔ t.clean = .clearing) : InStep ⟨r', calls, clean⟩ := by
  intro w
  have hw := h w
  have hbound : bound ⟨r', calls, clean⟩ w = t.bound w := by
    simp only [bound, hclean, votesFor_congr hv]
  rw [hbound]
  have h₁ := hc w
  have h₂ := hf w
  dsimp only
  omega

theorem bound_of_ne (h : t.clean ≠ .clearing) (w : Nat) : t.bound w = (t.rep.votesFor w).length := if_neg h

theorem InStep.stored (h : t.InStep) (hclean : t.clean ≠ .clearing) (info : ViewChangeInfo) {r' : Replica}
    {calls : List VoteCall} (hv : r'.viewChangeInfoMap = (t.rep.storeVote info).viewChangeInfoMap)
    (hc : ∀ w, r'.doViewChangeMap.cnt w + calls.countP (VoteCall.fresh w) ≤ t.rep.doViewChangeMap.cnt w +
      t.calls.countP (VoteCall.fresh w) + if w = info.viewNum then 1 else 0) : InStep ⟨r', calls, t.clean⟩ := by
  intro w
  have hw := h w
  have hcw := hc w
  have hbound : bound ⟨r', calls, t.clean⟩ w = (r'.votesFor w).length := if_neg hclean
  rw [bound_of_ne hclean] at hw
  rw [hbound, votesFor_congr hv, length_votesFor_storeVote]
  dsimp only
  omega

/-- A call of `processDoViewChange` goes on, and counts no vote late. -/
theorem InStep.proceed (h : t.InStep) {call : VoteCall} (hm : call ∈ t.calls) (hl : late (.proceed call) = false)
    {t' : Tally} {os : List Obs} (hs : t.proceed call = some (t', os)) : t'.InStep := by
  have hcount := fun w => countP_erase (p := VoteCall.fresh w) hm
  cases call with
  | tested info =>
    simp only [Tally.proceed] at hs
    split at hs
    · rename_i hclean
      cases hs
      refine h.stored (by rw [hclean]; exact CleanPc.noConfusion) info rfl (fun w => ?_)
      have hsame : (t.rep.storeVote info).doViewChangeMap.cnt w = t.rep.doViewChangeMap.cnt w := rfl
      rw [hsame, List.countP_cons, hcount w]
      by_cases hv : w = info.viewNum
      · simp [VoteCall.fresh, hv, Nat.add_assoc]
      · simp [VoteCall.fresh, hv, Ne.symm hv]
    · cases hs
  | pushed viewNum stale =>
    cases hs
    refine h.same (fun w => WaitMap.cnt_touch _ _ w) rfl (fun w => ?_) Iff.rfl
    rw [List.countP_cons, hcount w]
    simp [VoteCall.fresh]
  | got viewNum stale attached =>
    cases hs
    cases attached with
    | false => exact h.same (fun _ => rfl) rfl (fun w => by rw [hcount w]; exact Nat.le_add_right _ _) Iff.rfl
    | true =>
      obtain rfl : stale = false := by simpa [late] using hl
      intro w
      have hw := h w
      rw [hcount w] at hw
      refine le_trans (le_of_eq ?_) hw
      rw [if_pos rfl, WaitMap.cnt_bump]
      by_cases hv : w = viewNum
      · simp only [VoteCall.fresh, hv, decide_true, Bool.not_false, Bool.and_self, if_true]
        omega
      · simp [VoteCall.fresh, hv, Ne.symm hv]

theorem settle_cases {o : Outcome} {calls : List VoteCall} {clean : CleanPc} {t' : Tally} {os : List Obs}
    (hs : t.settle o calls clean = some (t', os)) :
    (o = .abort ∧ t' = ⟨t.rep.ended, t.calls, t.clean⟩) ∨ ∃ s, o = .ok s ∧ t' = ⟨s.rep, calls, clean⟩ := by
  cases o with
  | blocked => cases hs
  | abort =>
    cases hs
    exact .inl ⟨rfl, rfl⟩
  | ok s =>
    cases hs
    exact .inr ⟨s, rfl, rfl⟩

theorem InStep.ended (h : t.InStep) : InStep ⟨t.rep.ended, t.calls, t.clean⟩ :=
  h.same (fun _ => rfl) rfl (fun _ => le_refl _) Iff.rfl

theorem InStep.install (h : t.InStep) (hclean : t.clean = .idle) {now : Nat} {t' : Tally} {os : List Obs}
    (hs : t.settle (Tally.install t.rep now) t.calls .installed = some (t', os)) : t'.InStep := by
  rcases settle_cases hs with ⟨-, rfl⟩ | ⟨s, hsec, rfl⟩
  · exact h.ended
  · have hstays := install_stays hsec
    exact h.same (fun w => by rw [hstays.counts]) hstays.infos (fun _ => le_refl _) (by rw [hclean]; simp)

/-- What the other sections do to the votes when the tally lets them run. -/
theorem ownVote_of_admits {e : LocalEvent} {s : Step} (ha : t.admits e = true) (hs : whole t.rep e = .ok s) :
    t.rep.OwnVote s ∧ (t.clean ≠ .idle → s.rep.doViewChangeMap = t.rep.doViewChangeMap ∧
      s.rep.viewChangeInfoMap = t.rep.viewChangeInfoMap) := by
  cases e with
  | recv msg now =>
    have hm : ∀ info, msg ≠ .doViewChange info := by
      rintro info rfl
      cases ha
    have hstays : s.rep.doViewChangeMap = t.rep.doViewChangeMap ∧ s.rep.viewChangeInfoMap = t.rep.viewChangeInfoMap :=
      Replica.stays_of_handle (r := t.rep.besides) hm hs
    exact ⟨.stays hstays.1 hstays.2, fun _ => hstays⟩
  | act a now =>
    have hv : a ≠ .doViewChangeCount := by
      rintro rfl
      cases ha
    rw [admits_act hv] at ha
    by_cases hclean : t.clean = .idle
    · have hu : t.rep.updates a = false := by simpa [hclean] using ha
      exact ⟨Replica.ownVote_of_act hv hu hs, fun hn => absurd hclean hn⟩
    · have hu : a.unlocked = true := by simpa [hclean] using ha
      have hstays := Replica.stays_of_unlocked hu hs
      exact ⟨.stays hstays.1 hstays.2, fun _ => hstays⟩

theorem InStep.other (h : t.InStep) {e : LocalEvent} (ha : t.admits e = true) {t' : Tally} {os : List Obs}
    (hs : t.settle (whole t.rep e) t.calls t.clean = some (t', os)) : t'.InStep := by
  rcases settle_cases hs with ⟨-, rfl⟩ | ⟨s, hsec, rfl⟩
  · exact h.ended
  · obtain ⟨hmove, hlocked⟩ := ownVote_of_admits ha hsec
    by_cases hclean : t.clean = .idle
    · cases hmove with
      | stays hc hv => exact h.same (fun w => by rw [hc]) hv (fun _ => le_refl _) Iff.rfl
      | votes info hc hv =>
        refine h.stored (by rw [hclean]; exact CleanPc.noConfusion) info hv (fun w => ?_)
        rw [hc, WaitMap.cnt_bump]
        split <;> omega
    · obtain ⟨hc, hv⟩ := hlocked hclean
      exact h.same (fun w => by rw [hc]) hv (fun _ => le_refl _) Iff.rfl

/-- **One step keeps the count in step**, if no vote is counted late. -/
theorem InStep.step (h : t.InStep) {e : TallyEvent} (hl : late e = false) {t' : Tally} {os : List Obs}
    (hs : t.step e = some (t', os)) : t'.InStep := by
  unfold Tally.step at hs
  split at hs
  · cases e with
    | arrive info =>
      dsimp only at hs
      split at hs <;> cases hs
      · exact h
      · exact h.same (fun _ => rfl) rfl (fun w => by rw [List.countP_cons]; exact le_refl _) Iff.rfl
    | proceed call =>
      dsimp only at hs
      split at hs
      · rename_i hm
        exact h.proceed hm hl hs
      · cases hs
    | install now =>
      dsimp only at hs
      split at hs
      · rename_i hclean
        exact h.install hclean hs
      · cases hs
    | clearCounts =>
      dsimp only at hs
      split at hs
      · rename_i hclean
        split at hs <;> cases hs
        · intro w
          show WaitMap.cnt ∅ w + (t.calls.map VoteCall.cleared).countP (VoteCall.fresh w) ≤ _
          rw [WaitMap.cnt_empty, VoteCall.countP_cleared]
          exact Nat.zero_le _
        · exact h.same (fun _ => rfl) rfl (fun _ => le_refl _) (by rw [hclean]; simp)
      · cases hs
    | clearInfos =>
      dsimp only at hs
      split at hs
      · rename_i hclean
        cases hs
        intro w
        have hw := h w
        rw [bound, if_pos hclean] at hw
        exact hw.trans (Nat.zero_le _)
      · cases hs
    | shake =>
      dsimp only at hs
      split at hs <;> cases hs
      exact h.same (fun _ => rfl) rfl (fun _ => le_refl _) Iff.rfl
    | other e =>
      dsimp only at hs
      split at hs
      · rename_i ha
        exact h.other ha hs
      · cases hs
  · cases hs

theorem inStep_of_fresh {r₀ : Replica} (hf : r₀.Fresh) : InStep ⟨r₀, [], .idle⟩ := by
  intro w
  have hc : r₀.doViewChangeMap = ∅ := by cases hf <;> rfl
  rw [hc, WaitMap.cnt_empty]
  exact Nat.zero_le _

/-- **Counts are votes stored**: in a run that counts no vote late, and between the two clears of `cleanUp` there is
nothing counted. -/
theorem inStep_of_reach {r₀ : Replica} (hf : r₀.Fresh) {tr : List Obs}
    (h : Run.Reach (tally r₀) (fun _ _ e => !late e) t tr) : t.InStep := by
  refine Run.Reach.invariant (P := fun t _ => t.InStep) (inStep_of_fresh hf) ?_ h
  intro t tr e t' os _ hin hok hs
  exact hin.step (by simpa using hok) hs

end Tally

/-- **Votes counted and votes stored**, in every run of one replica with its calls of `processDoViewChange` cut into
their steps and those of `cleanUp` between them: if no vote is counted late, the count of a view never exceeds its
stored votes, and a quorum of the count is a quorum of votes. -/
theorem votes_in_step {r₀ : Replica} {t : Tally} {tr : List Obs} (hf : r₀.Fresh)
    (h : Run.Reach (tally r₀) (fun _ _ e => !Tally.late e) t tr) (w : Nat) :
    t.rep.doViewChangeMap.cnt w ≤ (t.rep.votesFor w).length ∧
      (t.rep.quorumReached (t.rep.doViewChangeMap.cnt w) = true →
        t.rep.getMajorityCnt ≤ (t.rep.votesFor w).length) := by
  have hle : t.rep.doViewChangeMap.cnt w ≤ (t.rep.votesFor w).length := by
    refine (Nat.le_add_right _ _).trans ((Tally.inStep_of_reach hf h w).trans ?_)
    unfold Tally.bound
    split
    · exact Nat.zero_le _
    · exact le_refl _
  exact ⟨hle, fun hq => (of_decide_eq_true hq).trans hle⟩

def voteOfTwo : ViewChangeInfo := ⟨2, [⟨⟨[slash, 120], []⟩, .update, 1, true⟩], 0, 1, 1, 2⟩

/-- Replica `1` takes up view `1` between the two steps of a vote for view `2`; then it stands for view `2` itself. -/
def lateEvents : List TallyEvent :=
  [.other (.recv (.prepare (.ofKey 0 1 0 [slash, 120])) 0), .other (.act .prepCheck 0), .other (.act .prepLocked 0),
    .other (.recv (.commit ⟨0, 1⟩) 0), .other (.act .commitLocked 0),
    .other (.recv (.startView ⟨1, [⟨⟨[slash, 120], []⟩, .update, 1, true⟩], 1, 1, 0⟩) 9),
    .other (.act .startViewCount 9),
    .arrive voteOfTwo, .proceed (.tested voteOfTwo), .install 9, .clearCounts, .clearInfos,
    .proceed (.pushed 2 true), .proceed (.got 2 true true), .other (.act .changeViewBegin 19),
    .other (.recv (.startViewChange ⟨2, 2⟩) 19), .other (.act .changeViewCount 19),
    .other (.act (.candidate .answered) 19)]

def inStepEvents : List TallyEvent :=
  [.other (.act .changeViewBegin 9), .arrive { voteOfTwo with viewNum := 1 },
    .proceed (.tested { voteOfTwo with viewNum := 1 }), .other (.recv (.startViewChange ⟨1, 2⟩) 9),
    .proceed (.pushed 1 false), .other (.act .changeViewCount 9), .proceed (.got 1 false true)]

theorem votes_in_step_three : ∃ t tr, Run.Reach (tally (.init 3 1)) (fun _ _ e => !Tally.late e) t tr ∧
    t.rep.doViewChangeMap.cnt 1 = 2 ∧ t.rep.getMajorityCnt ≤ (t.rep.votesFor 1).length := by
  obtain ⟨t, tr, h, hq⟩ : ∃ t tr, Run.Reach (tally (.init 3 1)) (fun _ _ e => !Tally.late e) t tr ∧
      (decide (t.rep.doViewChangeMap.cnt 1 = 2) && t.rep.quorumReached (t.rep.doViewChangeMap.cnt 1)) = true :=
    Run.exists_reach_of_exec inStepEvents (fun (t : Tally) _ => decide (t.rep.doViewChangeMap.cnt 1 = 2) &&
      t.rep.quorumReached (t.rep.doViewChangeMap.cnt 1)) (by decide +kernel)
  rw [Bool.and_eq_true, decide_eq_true_eq] at hq
  exact ⟨t, tr, h, hq.1, (votes_in_step (.init 3 1) h 1).2 hq.2⟩

theorem votes_in_step_fails :
    (¬ ∀ r₀ t tr w, Replica.Fresh r₀ → Run.Reach (tally r₀) (fun _ _ _ => true) t tr →
      t.rep.doViewChangeMap.cnt w ≤ (t.rep.votesFor w).length) ∧
    ¬ ∀ r₀ t tr w, Replica.Fresh r₀ → Run.Reach (tally r₀) (fun _ _ _ => true) t tr →
      t.rep.quorumReached (t.rep.doViewChangeMap.cnt w) = true → t.rep.getMajorityCnt ≤ (t.rep.votesFor w).length := by
  obtain ⟨t, tr, h, hq⟩ : ∃ t tr, Run.Reach (tally (.init 3 1)) (fun _ _ _ => true) t tr ∧
      (t.rep.quorumReached (t.rep.doViewChangeMap.cnt 2) && decide ((t.rep.votesFor 2).length = 1) &&
        decide (t.rep.getMajorityCnt = 2)) = true :=
    Run.exists_reach_of_exec lateEvents (fun (t : Tally) _ => t.rep.quorumReached (t.rep.doViewChangeMap.cnt 2) &&
      decide ((t.rep.votesFor 2).length = 1) && decide (t.rep.getMajorityCnt = 2)) (by decide +kernel)
  simp only [Bool.and_eq_true, decide_eq_true_eq] at hq
  obtain ⟨⟨hquorum, hlen⟩, hmaj⟩ := hq
  have hcnt : t.rep.getMajorityCnt ≤ t.rep.doViewChangeMap.cnt 2 := of_decide_eq_true hquorum
  constructor
  · intro hall
    have hle := hall _ t tr 2 (.init 3 1) h
    omega
  · intro hall
    have hle := hall _ t tr 2 (.init 3 1) h hquorum
    omega

end MetaDR
