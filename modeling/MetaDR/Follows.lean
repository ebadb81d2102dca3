import MetaDR.Election
import MetaDR.Lib.Chosen
/-!
# Follows — the replicas do what the protocol of Viewstamp does

What a state of the protocol says of a replica, of a message in flight and of an observation.  A replica follows its
node as long as it is not restarted: a restarted one takes no part any more, and its node stays where it was.
-/
namespace MetaDR

open Viewstamp

namespace InMemOpLogHandler

/-- The operation the log has at a number. -/
def opAt (h : InMemOpLogHandler) (n : Nat) : Option Op := (h.getLogEntry n).map LogEntry.op

theorem opAt_push (h : InMemOpLogHandler) (e : LogEntry) (n : Nat) :
    (h.push e).opAt n = if n = e.opNum then some e.op else h.opAt n := by
  rw [opAt, getLogEntry_push]
  split <;> rfl

theorem opAt_commit {h h' : InMemOpLogHandler} {n : Nat} (hc : h.commit n = some h') (m : Nat) :
    h'.opAt m = h.opAt m := by
  obtain ⟨e, he, -, hall⟩ := commit_eq_some hc
  rw [opAt, hall]
  split
  · subst_vars; rw [opAt, he]; rfl
  · rfl

theorem opAt_setLog_getLog (h : InMemOpLogHandler) : (setLog h.getLog).opAt = h.opAt := by
  funext n
  rw [opAt, opAt, getLogEntry_setLog_getLog]

theorem opAt_eq_some {h : InMemOpLogHandler} {n : Nat} {op : Op} (ho : h.opAt n = some op) :
    ∃ e, h.getLogEntry n = some e ∧ e.op = op :=
  Option.map_eq_some_iff.1 ho

end InMemOpLogHandler

/-- The replica is in `replicate` with the lock. -/
def Replica.holds (r : Replica) (prepInfo : PrepInfo) : Prop :=
  ∃ req m, r.client = .prepared req m prepInfo ∨ r.client = .waiting req m prepInfo

theorem Replica.holds_of_idle {r : Replica} (h : r.client = .idle) (p : PrepInfo) : ¬ r.holds p := by
  rintro ⟨req, m, hp | hp⟩ <;> rw [h] at hp <;> cases hp

theorem Replica.not_holds_of_free {r : Replica} (h : r.repMutexFree = true) (p : PrepInfo) : ¬ r.holds p := by
  rintro ⟨req, m, hp | hp⟩ <;> simp [repMutexFree, hp] at h

theorem Replica.hb_idle_of_free {r : Replica} (h : r.repMutexFree = true) : r.hb = .idle := by
  unfold repMutexFree at h
  revert h
  cases r.hb <;> simp

/-- The number may be committed in the view: it starts below it, or a later number of it is won. -/
def Committable (s : State Op) (v c : Nat) : Prop := (∃ S, s.start v = some S ∧ c ≤ S.top) ∨ ∃ m, s.won v m ∧ c ≤ m

/-- All the log has as committed is chosen. -/
def LogChosen (s : State Op) (h : InMemOpLogHandler) : Prop :=
  ∀ n e, h.getLogEntry n = some e → e.committed = true → Chosen s n e.op

/-- **A replica and its node.** -/
structure Replica.Follows (good : Prop) (s : State Op) (tr : List Obs) (i : Nat) (r : Replica) : Prop where
  view : (s.node i).view = r.viewNum
  log : (s.node i).log = r.log.opAt
  commit : (s.node i).commit = r.commitNum
  normal : r.status = .normal → (s.node i).last = r.viewNum ∧ (s.node i).top = r.opNum ∧
    ∃ S, s.start r.viewNum = some S ∧ S.primary = r.priId
  changing : r.hb ≠ .idle → (s.node i).last < r.viewNum
  holds : ∀ p, r.holds p → (s.node i).last = r.viewNum ∧ p.viewNum = r.viewNum ∧ IsPrimary s i r.viewNum ∧
    r.commitNum < p.opNum ∧ p.opNum ≤ (s.node i).top ∧ r.log.opAt p.opNum = some p.op
  lastNormal : ∀ v, (s.node i).last < v → lastNormal tr v i = (s.node i).last
  chosen : good → LogChosen s r.log

def Packet.Follows (s : State Op) (q : Packet) : Prop :=
  match q.msg with
  | .commit commitInfo => Committable s commitInfo.viewNum commitInfo.commitNum
  | _ => True

def Obs.Follows (good : Prop) (s : State Op) (tr : List Obs) : Obs → Prop
  | .prepared q p => s.op p.viewNum p.opNum = some p.op ∧ s.held q p.viewNum p.opNum ∧
    ∃ S, s.start p.viewNum = some S ∧ S.primary = q ∧ S.top < p.opNum
  | .acked q p _ => s.held q p.viewNum p.opNum ∧ ∃ S, s.start p.viewNum = some S ∧ S.primary ≠ q
  | .quorum _ p => s.won p.viewNum p.opNum
  | .voted q info =>
    s.vote q info.viewNum ⟨lastNormal tr info.viewNum q, (InMemOpLogHandler.setLog info.opLog).opAt, info.commitNum⟩ ∧
      (good → LogChosen s (.setLog info.opLog))
  | .newView q true info =>
    s.start info.viewNum = some ⟨q, (InMemOpLogHandler.setLog info.opLog).opAt, info.opNum⟩ ∧
      info.opNum = info.commitNum ∧ (good → LogChosen s (.setLog info.opLog))
  | .applied _ k op => good → 1 ≤ k ∧ Chosen s k op
  | _ => True

/-- **The cluster and the protocol.** -/
structure Cluster.Follows (good : Prop) (s : State Op) (tr : List Obs) (c : Cluster) : Prop where
  rep : ∀ i, (c.reps i).status ≠ .recovering → (c.reps i).Follows good s tr i
  listener : ∀ i commitInfo, (c.reps i).listener = some (.commit commitInfo) →
    Committable s commitInfo.viewNum commitInfo.commitNum
  net : ∀ q ∈ c.net, q.Follows s
  seen : ∀ o ∈ tr, o.Follows good s tr
  started : ∀ w, s.start w ≠ none → w = 0 ∨ ∃ q info, .newView q true info ∈ tr ∧ info.viewNum = w

theorem follows_init (good : Prop) (n : Nat) : (Cluster.init n).Follows good State.init [] := by
  refine ⟨fun i _ => ?_, fun i ci h => (by cases h), fun q hq => absurd hq (List.not_mem_nil),
    fun o ho => absurd ho (List.not_mem_nil), fun w hw => ?_⟩
  · have hlog : (fun _ => none : Nat → Option Op) = InMemOpLogHandler.empty.opAt := by
      funext k
      simp [InMemOpLogHandler.opAt]
    refine ⟨rfl, hlog, rfl, fun _ => ⟨rfl, rfl, ⟨0, fun _ => none, 0⟩, rfl, rfl⟩, fun h => absurd rfl h,
      fun p hp => absurd hp (Replica.holds_of_idle rfl p), fun v _ => rfl, fun _ k e he => ?_⟩
    have he' : InMemOpLogHandler.empty.getLogEntry k = some e := he
    rw [InMemOpLogHandler.getLogEntry_empty] at he'
    cases he'
  · by_cases h : w = 0
    · exact .inl h
    · exact absurd (if_neg h) hw

section Grows

variable {good : Prop} {s s' : State Op} (g : Grows s s')
include g

theorem Committable.grows {v c : Nat} (h : Committable s v c) : Committable s' v c :=
  h.imp (fun ⟨S, hS, hc⟩ => ⟨S, g.start v S hS, hc⟩) (fun ⟨m, hm, hc⟩ => ⟨m, g.won v m hm, hc⟩)

theorem LogChosen.grows {h : InMemOpLogHandler} (hl : LogChosen s h) : LogChosen s' h :=
  fun n e he hc => (hl n e he hc).grows g

theorem Packet.Follows.grows {q : Packet} (h : q.Follows s) : q.Follows s' := by
  unfold Packet.Follows at h ⊢
  split at h
  · exact h.grows g
  · trivial

theorem isPrimary_grows {p v : Nat} (h : IsPrimary s p v) : IsPrimary s' p v :=
  h.imp (fun S hS => ⟨g.start v S hS.1, hS.2⟩)

end Grows

section Trace

theorem lastNormal_append {tr os : List Obs} {v q : Nat}
    (h : ∀ b info, .newView q b info ∈ os → v ≤ info.viewNum) : lastNormal (tr ++ os) v q = lastNormal tr v q := by
  rw [lastNormal, lastNormal, List.foldl_append]
  generalize tr.foldl _ 0 = u
  induction os generalizing u with
  | nil => rfl
  | cons o os ih =>
    have hu : lastNormalStep v q u o = u := by
      unfold lastNormalStep
      split
      · rename_i r b info
        rw [if_neg]
        rintro ⟨rfl, hlt⟩
        have := h b info List.mem_cons_self
        omega
      · rfl
    rw [List.foldl_cons, hu]
    exact ih (fun b info hm => h b info (List.mem_cons_of_mem _ hm)) u

theorem lastNormal_newView {tr : List Obs} {v q : Nat} {b : Bool} {info : ViewStartInfo} (h : info.viewNum < v) :
    lastNormal (tr ++ [.newView q b info]) v q = max (lastNormal tr v q) info.viewNum := by
  rw [lastNormal, lastNormal, List.foldl_append, List.foldl_cons, List.foldl_nil, lastNormalStep, if_pos ⟨rfl, h⟩]

end Trace

section Frame

variable {good : Prop} {s s' : State Op}

theorem Replica.Follows.frame (g : Grows s s') {tr os : List Obs} {j : Nat} {r : Replica} (h : r.Follows good s tr j)
    (hn : s'.node j = s.node j) (hos : ∀ o ∈ os, o.by ≠ j) : r.Follows good s' (tr ++ os) j := by
  obtain ⟨h1, h2, h3, h4, h5, h6, h7, h8⟩ := h
  rw [← hn] at h1 h2 h3 h4 h5 h6 h7
  refine ⟨h1, h2, h3, fun hs => ?_, h5, fun p hp => ?_, fun v hv => ?_, fun hg => (h8 hg).grows g⟩
  · obtain ⟨ha, hb, S, hS, hp⟩ := h4 hs
    exact ⟨ha, hb, S, g.start _ S hS, hp⟩
  · obtain ⟨ha, hb, hc, hd, he, hf⟩ := h6 p hp
    exact ⟨ha, hb, isPrimary_grows g hc, hd, he, hf⟩
  · rw [lastNormal_append (fun b info hm => absurd rfl (hos _ hm)), h7 v hv]

/-- What a node does not see: the log, the numbers and the view stay, and `replicate` gets no further. -/
structure Replica.Aside (r r' : Replica) : Prop where
  viewNum : r'.viewNum = r.viewNum
  log : r'.log = r.log
  commitNum : r'.commitNum = r.commitNum
  normal : r'.status = .normal → r.status = .normal ∧ r'.opNum = r.opNum ∧ r'.priId = r.priId
  live : r'.status ≠ .recovering → r.status ≠ .recovering
  changing : r'.hb ≠ .idle → r.hb ≠ .idle
  holds : ∀ p, r'.holds p → r.holds p

theorem Replica.Aside.refl (r : Replica) : r.Aside r :=
  ⟨rfl, rfl, rfl, fun hs => ⟨hs, rfl, rfl⟩, fun hs => hs, fun hb => hb, fun _ hp => hp⟩

/-- A replica keeps following its node through what the node does not see. -/
theorem Replica.Follows.keep {tr os : List Obs} {i : Nat} {r r' : Replica} (h : r.Follows good s tr i)
    (a : r.Aside r') (hos : ∀ q b info, .newView q b info ∉ os) : r'.Follows good s (tr ++ os) i where
  view := by rw [a.viewNum]; exact h.view
  log := by rw [a.log]; exact h.log
  commit := by rw [a.commitNum]; exact h.commit
  normal := fun hs => by
    obtain ⟨hs, ho, hp⟩ := a.normal hs
    rw [a.viewNum, ho, hp]
    exact h.normal hs
  changing := fun hi => by rw [a.viewNum]; exact h.changing (a.changing hi)
  holds := fun p hp => by rw [a.viewNum, a.log, a.commitNum]; exact h.holds p (a.holds p hp)
  lastNormal := fun v hlt => by
    rw [lastNormal_append (fun b info hm => absurd hm (hos i b info))]
    exact h.lastNormal v hlt
  chosen := fun hg => by rw [a.log]; exact h.chosen hg

theorem Replica.Follows.append {tr os : List Obs} {i : Nat} {r : Replica} (h : r.Follows good s tr i)
    (hos : ∀ q b info, .newView q b info ∉ os) : r.Follows good s (tr ++ os) i :=
  h.keep (.refl r) hos

/-- With the next number taken up, one's own or the primary's, a replica follows its node with it pushed. -/
theorem Replica.Follows.push (g : Grows s s') {tr os : List Obs} {i : Nat} {r r' : Replica}
    (h : r.Follows good s tr i) (hos : ∀ q b info, .newView q b info ∉ os) (hst : r.status = .normal) {p : PrepInfo}
    (hn : p.opNum = r.opNum + 1) (hnode : s'.node i = { s.node i with
      log := Function.update (s.node i).log ((s.node i).top + 1) (some p.op), top := (s.node i).top + 1 })
    (hl : r'.log = r.log.push p.entry) (ho : r'.opNum = p.opNum) (hv : r'.viewNum = r.viewNum)
    (hc : r'.commitNum = r.commitNum) (hp : r'.priId = r.priId) (hidle : r.hb = .idle) (hb : r'.hb = r.hb)
    (hh : ∀ p', r'.holds p' → p' = p ∧ p.viewNum = r.viewNum ∧ IsPrimary s i r.viewNum ∧ r.commitNum < p.opNum) :
    r'.Follows good s' (tr ++ os) i := by
  obtain ⟨hlast, htop, S, hS, hSp⟩ := h.normal hst
  have hlast' : (s'.node i).last = r'.viewNum := by rw [hnode, hv]; exact hlast
  have htop' : (s'.node i).top = p.opNum := by rw [hnode, hn, ← htop]
  constructor
  case view => rw [hnode, hv]; exact h.view
  case log =>
    rw [hnode, hl]
    funext k
    show Function.update (s.node i).log ((s.node i).top + 1) (some p.op) k = _
    rw [Function.update_apply, InMemOpLogHandler.opAt_push, h.log, htop, ← hn]
    rfl
  case commit => rw [hnode, hc]; exact h.commit
  case normal =>
    exact fun _ => ⟨hlast', htop'.trans ho.symm, S, by rw [hv]; exact g.start _ S hS, by rw [hp]; exact hSp⟩
  case changing => exact fun hne => absurd (hb.trans hidle) hne
  case holds =>
    intro p' hp'
    obtain ⟨rfl, hpv, hprim, hlt⟩ := hh p' hp'
    refine ⟨hlast', hpv.trans hv.symm, by rw [hv]; exact isPrimary_grows g hprim, by rw [hc]; exact hlt, htop'.ge, ?_⟩
    rw [hl, InMemOpLogHandler.opAt_push, if_pos (by rfl)]
    rfl
  case lastNormal => rw [hnode]; exact (h.append hos).lastNormal
  case chosen =>
    intro hg k e he hcm
    rw [hl, InMemOpLogHandler.getLogEntry_push] at he
    split at he
    · cases he
      cases hcm
    · exact (h.chosen hg k e he hcm).grows g

/-- With an entry flagged, a replica follows its node with the commit number moved on. -/
theorem Replica.Follows.flag (g : Grows s s') {tr os : List Obs} {i : Nat} {r r' : Replica}
    (h : r.Follows good s tr i) (hos : ∀ q b info, .newView q b info ∉ os) {k : Nat} {e : LogEntry}
    (hnode : s'.node i = { s.node i with commit := r'.commitNum }) (hl : r.log.commit k = some r'.log)
    (he : r.log.getLogEntry k = some e) (hch : good → Chosen s' k e.op) (hs : r'.status = r.status)
    (hv : r'.viewNum = r.viewNum) (ho : r'.opNum = r.opNum) (hp : r'.priId = r.priId) (hb : r'.hb = r.hb)
    (hh : ∀ p, ¬ r'.holds p) : r'.Follows good s' (tr ++ os) i := by
  constructor
  case view => rw [hnode, hv]; exact h.view
  case log =>
    rw [hnode, h.log]
    funext m
    exact (InMemOpLogHandler.opAt_commit hl m).symm
  case commit => rw [hnode]
  case normal =>
    intro hst
    obtain ⟨hlast, htop, S, hS, hSp⟩ := h.normal (hs ▸ hst)
    rw [hnode, hv, ho, hp]
    exact ⟨hlast, htop, S, g.start _ S hS, hSp⟩
  case changing => rw [hnode, hv, hb]; exact h.changing
  case holds => exact fun p hp => absurd hp (hh p)
  case lastNormal => rw [hnode]; exact (h.append hos).lastNormal
  case chosen =>
    intro hg m x hx hcm
    obtain ⟨e', he', -, hall⟩ := InMemOpLogHandler.commit_eq_some hl
    rw [hall] at hx
    split at hx
    · subst_vars
      rw [he] at he'
      cases he'
      cases hx
      exact hch hg
    · exact (h.chosen hg m x hx hcm).grows g

theorem Obs.Follows.frame (g : Grows s s') {tr os : List Obs} {o : Obs} (h : o.Follows good s tr)
    (hos : ∀ q info, o = .voted q info → ∀ b x, .newView q b x ∈ os → info.viewNum ≤ x.viewNum) :
    o.Follows good s' (tr ++ os) := by
  unfold Obs.Follows at h ⊢
  split
  · obtain ⟨ho, hh, S, hS, hp⟩ := h
    exact ⟨g.op _ _ _ ho, g.held _ _ _ hh, S, g.start _ S hS, hp⟩
  · obtain ⟨hh, S, hS, hp⟩ := h
    exact ⟨g.held _ _ _ hh, S, g.start _ S hS, hp⟩
  · exact g.won _ _ h
  · rename_i q info
    rw [lastNormal_append (fun b x hm => hos q info rfl b x hm)]
    exact ⟨g.vote _ _ _ h.1, fun hg => (h.2 hg).grows g⟩
  · exact ⟨g.start _ _ h.1, h.2.1, fun hg => (h.2.2 hg).grows g⟩
  · exact fun hg => ⟨(h hg).1, (h hg).2.grows g⟩
  · trivial

end Frame

end MetaDR
