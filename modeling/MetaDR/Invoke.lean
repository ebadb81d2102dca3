import MetaDR.ViewChangeHandler
import MetaDR.Lib.Run
import Mathlib.Logic.Function.Basic
/-!
# Invoke — calls to other servers, each tried twice (server/vsReplicator.cc, include/clientBase.h)

The `invoke…` functions of the replicator, of the view change and of the recovery are one loop: take the connection to
the end point from `_clWrappers`, or make one; call; close the connection when either fails, and try once more.  They
run under one mutex, so that one call is under way at a time.  The other servers stop and start at any step; a
connection is to one start of its server and fails for ever when that is over.

The second try is for connections that a restart has left behind: undisturbed, a call runs exactly once if the server
is up and never if it is not, whatever connection was kept (`invoke_undisturbed`).  In general a call runs again only
if its answer was lost, so at most twice, and the loop ends well just if the last answer came (`invoke_counted`).

What a call returns and how often it has run tell how it ends for the candidate loop of `changeView`, which leaves on
its way to a peer what has run there (`candidate_sends`).
-/
namespace MetaDR
namespace Invoke

open Function

variable {α : Type}

/-- A server: whether it is up, and how often it was started before. -/
structure Peer where
  up : Bool
  gen : Nat
  deriving DecidableEq, Repr

/-- Where the thread stands that has the mutex; `cw` is its own pointer to a `ClientWrapper`. -/
inductive Pc (α : Type) where
  | idle
  | tries (ep : Nat) (msg : α) (tryCnt : Nat) (cw : Option Nat)
  | connect (ep : Nat) (msg : α) (tryCnt : Nat) (cw : Option Nat)
  | call (ep : Nat) (msg : α) (tryCnt : Nat) (cw : Nat)
  | answer (ep : Nat) (msg : α) (tryCnt : Nat) (cw : Nat)
  | caught (ep : Nat) (msg : α) (tryCnt : Nat) (cw : Option Nat)
  deriving DecidableEq, Repr

structure State (α : Type) where
  /-- by end point -/
  peers : Nat → Peer
  /-- `_srpcClient` of each `ClientWrapper` made: the start it is connected to, or nothing -/
  clients : Nat → Option Nat
  /-- how many were made -/
  made : Nat
  /-- `_clWrappers` -/
  clWrappers : Nat → Option Nat
  pc : Pc α

inductive Event (α : Type) where
  | invoke (ep : Nat) (msg : α)
  | run
  /-- the call has run, and its answer does not come -/
  | lose
  | crash (ep : Nat)
  | start (ep : Nat)
  deriving DecidableEq, Repr

inductive Obs (α : Type) where
  | invoked (ep : Nat) (msg : α)
  /-- the server runs the call -/
  | executed (ep : Nat) (msg : α)
  | lost
  | returned (success : Bool)
  deriving DecidableEq, Repr

namespace State

def init (peers : Nat → Peer) : State α := ⟨peers, fun _ => none, 0, fun _ => none, .idle⟩

/-- The wrapper that `getRepClient` finds: one in the map, and connected. -/
def connected (s : State α) (ep : Nat) : Option Nat := (s.clWrappers ep).filter (fun cw => (s.clients cw).isSome)

/-- `close`, on the wrapper behind a pointer that may be null. -/
def close (s : State α) (cw : Option Nat) : Nat → Option Nat :=
  match cw with
  | none => s.clients
  | some cw => update s.clients cw none

/-- `getRepClient` makes a wrapper, whose constructor connects. -/
def connect (s : State α) (ep : Nat) : State α :=
  { s with
    clients := update s.clients s.made (some (s.peers ep).gen)
    made := s.made + 1
    clWrappers := update s.clWrappers ep (some s.made) }

/-- The next thing the thread does; a call over a closed client is a null pointer's. -/
def run (s : State α) : Option (State α × List (Obs α)) :=
  match s.pc with
  | .idle => none
  | .tries ep msg tryCnt cw =>
    if tryCnt + 1 ≤ 2 then some ({ s with pc := .connect ep msg (tryCnt + 1) cw }, [])
    else some ({ s with pc := .idle }, [.returned false])
  | .connect ep msg tryCnt cw =>
    match s.connected ep with
    | some cw => some ({ s with pc := .call ep msg tryCnt cw }, [])
    | none =>
      if (s.peers ep).up then some ({ s.connect ep with pc := .call ep msg tryCnt s.made }, [])
      else some ({ s with pc := .caught ep msg tryCnt cw }, [])
  | .call ep msg tryCnt cw =>
    match s.clients cw with
    | none => none
    | some gen =>
      if (s.peers ep).up ∧ (s.peers ep).gen = gen then
        some ({ s with pc := .answer ep msg tryCnt cw }, [.executed ep msg])
      else some ({ s with pc := .caught ep msg tryCnt (some cw) }, [])
  | .answer ep msg tryCnt cw =>
    if (s.peers ep).up ∧ s.clients cw = some (s.peers ep).gen then some ({ s with pc := .idle }, [.returned true])
    else some ({ s with pc := .caught ep msg tryCnt (some cw) }, [.lost])
  | .caught ep msg tryCnt cw => some ({ s with clients := s.close cw, pc := .tries ep msg tryCnt cw }, [])

def step (s : State α) : Event α → Option (State α × List (Obs α))
  | .invoke ep msg =>
    match s.pc with
    | .idle => some ({ s with pc := .tries ep msg 0 none }, [.invoked ep msg])
    | _ => none
  | .run => s.run
  | .lose =>
    match s.pc with
    | .answer ep msg tryCnt cw => some ({ s with pc := .caught ep msg tryCnt (some cw) }, [.lost])
    | _ => none
  | .crash ep =>
    if (s.peers ep).up then
      some ({ s with peers := update s.peers ep { s.peers ep with up := false } }, [])
    else none
  | .start ep =>
    if (s.peers ep).up then none
    else some ({ s with peers := update s.peers ep ⟨true, (s.peers ep).gen + 1⟩ }, [])

end State

/-- A server's calls, from any state of the others. -/
def system (α : Type) (peers : Nat → Peer) : Run.System (State α) (Event α) (Obs α) := ⟨State.init peers, State.step⟩

/-- How far a call is, by what is seen of it: how many of its answers were lost, and whether it has run since. -/
inductive Phase (α : Type) where
  | out
  | calling (ep : Nat) (msg : α) (lost : Nat)
  | ran (ep : Nat) (msg : α) (lost : Nat)
  deriving DecidableEq, Repr

section

variable [DecidableEq α]

/-- It runs once, and once more if its answer is lost; it returns well if it has run and the answer was not lost, and
not well if there is no answer to come. -/
def Phase.next : Phase α → Obs α → Option (Phase α)
  | .out, .invoked ep msg => some (.calling ep msg 0)
  | .calling ep msg lost, .executed ep' msg' =>
    if (ep', msg') = (ep, msg) ∧ lost < 2 then some (.ran ep msg lost) else none
  | .calling _ _ _, .returned false => some .out
  | .ran ep msg lost, .lost => some (.calling ep msg (lost + 1))
  | .ran _ _ _, .returned true => some .out
  | _, _ => none

/-- The calls one after the other; `none` if something is seen out of order. -/
def session (tr : List (Obs α)) : Option (Phase α) := tr.foldlM Phase.next .out

/-- Where the thread can stand in a phase: each try loses one answer at most. -/
def Pc.Fits : Pc α → Phase α → Prop
  | .idle, ph => ph = .out
  | .tries ep msg tryCnt _, ph => tryCnt ≤ 2 ∧ ∃ lost ≤ tryCnt, ph = .calling ep msg lost
  | .connect ep msg tryCnt _, ph => tryCnt ≤ 2 ∧ ∃ lost < tryCnt, ph = .calling ep msg lost
  | .call ep msg tryCnt _, ph => tryCnt ≤ 2 ∧ ∃ lost < tryCnt, ph = .calling ep msg lost
  | .answer ep msg tryCnt _, ph => tryCnt ≤ 2 ∧ ∃ lost < tryCnt, ph = .ran ep msg lost
  | .caught ep msg tryCnt _, ph => tryCnt ≤ 2 ∧ ∃ lost ≤ tryCnt, ph = .calling ep msg lost

/-- What is seen so far is in order, up to where the thread stands. -/
def InOrder (s : State α) (tr : List (Obs α)) : Prop := ∃ ph, session tr = some ph ∧ s.pc.Fits ph

variable {s s' : State α} {tr os : List (Obs α)}

theorem session_append {ph : Phase α} (h : session tr = some ph) (os : List (Obs α)) :
    session (tr ++ os) = os.foldlM Phase.next ph := by
  rw [session, List.foldlM_append, ← session, h]
  rfl

theorem InOrder.run (h : InOrder s tr) (hs : s.run = some (s', os)) : InOrder s' (tr ++ os) := by
  obtain ⟨ph, hph, hfit⟩ := h
  unfold State.run at hs
  split at hs <;> rename_i hp <;> rw [hp] at hfit
  · cases hs
  · obtain ⟨hk, lost, hlost, rfl⟩ := hfit
    split at hs <;> rename_i hle <;> cases hs
    · exact ⟨_, by rw [session_append hph]; rfl, hle, lost, Nat.lt_succ_of_le hlost, rfl⟩
    · exact ⟨.out, by rw [session_append hph]; rfl, rfl⟩
  · obtain ⟨hk, lost, hlost, rfl⟩ := hfit
    split at hs
    · cases hs
      exact ⟨_, by rw [session_append hph]; rfl, hk, lost, hlost, rfl⟩
    · split at hs <;> cases hs
      · exact ⟨_, by rw [session_append hph]; rfl, hk, lost, hlost, rfl⟩
      · exact ⟨_, by rw [session_append hph]; rfl, hk, lost, Nat.le_of_lt hlost, rfl⟩
  · rename_i ep msg tryCnt cw
    obtain ⟨hk, lost, hlost, rfl⟩ := hfit
    split at hs
    · cases hs
    · split at hs <;> cases hs
      · refine ⟨.ran ep msg lost, ?_, hk, lost, hlost, rfl⟩
        have hlt : lost < 2 := by omega
        rw [session_append hph]
        simp [Phase.next, hlt]
      · exact ⟨_, by rw [session_append hph]; rfl, hk, lost, Nat.le_of_lt hlost, rfl⟩
  · obtain ⟨hk, lost, hlost, rfl⟩ := hfit
    split at hs <;> cases hs
    · exact ⟨.out, by rw [session_append hph]; rfl, rfl⟩
    · exact ⟨_, by rw [session_append hph]; rfl, hk, lost + 1, hlost, rfl⟩
  · obtain ⟨hk, lost, hlost, rfl⟩ := hfit
    cases hs
    exact ⟨_, by rw [session_append hph]; rfl, hk, lost, hlost, rfl⟩

theorem InOrder.step {e : Event α} (h : InOrder s tr) (hs : s.step e = some (s', os)) : InOrder s' (tr ++ os) := by
  obtain ⟨ph, hph, hfit⟩ := h
  cases e with
  | invoke ep msg =>
    simp only [State.step] at hs
    split at hs <;> rename_i hp
    · rw [hp] at hfit
      obtain rfl : ph = .out := hfit
      cases hs
      exact ⟨_, by rw [session_append hph]; rfl, Nat.zero_le _, 0, Nat.le_refl _, rfl⟩
    · cases hs
  | run => exact InOrder.run ⟨ph, hph, hfit⟩ hs
  | lose =>
    simp only [State.step] at hs
    split at hs <;> rename_i hp
    · rw [hp] at hfit
      obtain ⟨hk, lost, hlost, rfl⟩ := hfit
      cases hs
      exact ⟨_, by rw [session_append hph]; rfl, hk, lost + 1, hlost, rfl⟩
    · cases hs
  | crash ep =>
    obtain ⟨-, he⟩ := Option.ite_none_right_eq_some.1 hs
    cases he
    exact ⟨ph, by rwa [List.append_nil], hfit⟩
  | start ep =>
    obtain ⟨-, he⟩ := Option.ite_none_left_eq_some.1 hs
    cases he
    exact ⟨ph, by rwa [List.append_nil], hfit⟩

theorem inOrder_of_reach {peers : Nat → Peer} (h : Run.Reach (system α peers) (fun _ _ _ => true) s tr) :
    InOrder s tr := by
  have hinit : InOrder (State.init peers : State α) [] := ⟨.out, rfl, rfl⟩
  exact h.invariant (P := InOrder) hinit (fun _ _ _ _ _ _ hi _ hs => hi.step hs)

end

/-- Each open connection is kept, for one end point. -/
structure State.Kept (s : State α) : Prop where
  fresh : ∀ cw, s.made ≤ cw → s.clients cw = none
  cached : ∀ ep cw, s.clWrappers ep = some cw → cw < s.made
  opened : ∀ cw gen, s.clients cw = some gen → ∃ ep, s.clWrappers ep = some cw
  unique : ∀ ep ep' cw, s.clWrappers ep = some cw → s.clWrappers ep' = some cw → ep' = ep

theorem State.Kept.connect {s : State α} (h : s.Kept) {ep : Nat} (hnone : s.connected ep = none) (pc : Pc α) :
    State.Kept { s.connect ep with pc := pc } where
  fresh := fun cw hcw => by
    have hcw : s.made + 1 ≤ cw := hcw
    show update s.clients s.made _ cw = none
    rw [update_of_ne (by omega)]
    exact h.fresh cw (by omega)
  cached := fun ep' cw hcw => by
    have hcw : update s.clWrappers ep (some s.made) ep' = some cw := hcw
    show cw < s.made + 1
    by_cases he : ep' = ep
    · rw [he, update_self] at hcw
      cases hcw
      exact Nat.lt_succ_self _
    · rw [update_of_ne he] at hcw
      exact Nat.lt_succ_of_lt (h.cached ep' cw hcw)
  opened := fun cw gen hcw => by
    have hcw : update s.clients s.made (some (s.peers ep).gen) cw = some gen := hcw
    by_cases hm : cw = s.made
    · exact ⟨ep, by rw [hm]; exact update_self ..⟩
    · rw [update_of_ne hm] at hcw
      obtain ⟨ep', hep⟩ := h.opened cw gen hcw
      refine ⟨ep', (update_of_ne (fun he => ?_) _ _).trans hep⟩
      -- what was kept for this end point was closed
      rw [State.connected, ← he, hep] at hnone
      simp [hcw] at hnone
  unique := fun ep₁ ep₂ cw h₁ h₂ => by
    have h₁ : update s.clWrappers ep (some s.made) ep₁ = some cw := h₁
    have h₂ : update s.clWrappers ep (some s.made) ep₂ = some cw := h₂
    have hlt : ∀ e, s.clWrappers e = some s.made → False := fun e he => Nat.lt_irrefl _ (h.cached e _ he)
    by_cases he₁ : ep₁ = ep <;> by_cases he₂ : ep₂ = ep
    · rw [he₁, he₂]
    · rw [he₁, update_self] at h₁
      rw [update_of_ne he₂, ← h₁] at h₂
      exact (hlt _ h₂).elim
    · rw [he₂, update_self] at h₂
      rw [update_of_ne he₁, ← h₂] at h₁
      exact (hlt _ h₁).elim
    · rw [update_of_ne he₁] at h₁
      rw [update_of_ne he₂] at h₂
      exact h.unique ep₁ ep₂ cw h₁ h₂

/-- What `close` leaves open was open. -/
theorem State.close_eq_some {s : State α} {cw : Option Nat} {id gen : Nat} (h : s.close cw id = some gen) :
    s.clients id = some gen := by
  cases cw with
  | none => exact h
  | some cw =>
    have h : update s.clients cw none id = some gen := h
    by_cases he : id = cw
    · rw [he, update_self] at h
      cases h
    · rwa [update_of_ne he] at h

theorem State.Kept.close {s : State α} (h : s.Kept) (cw : Option Nat) (pc : Pc α) :
    State.Kept { s with clients := s.close cw, pc := pc } where
  fresh := fun id hid => Option.eq_none_iff_forall_ne_some.2 (fun gen hg => by
    have hs := State.close_eq_some hg
    rw [h.fresh id hid] at hs
    cases hs)
  cached := h.cached
  opened := fun id gen hg => h.opened id gen (State.close_eq_some hg)
  unique := h.unique

theorem State.Kept.step {s s' : State α} {e : Event α} {os : List (Obs α)} (h : s.Kept)
    (hs : s.step e = some (s', os)) : s'.Kept := by
  cases e with
  | invoke ep msg =>
    simp only [State.step] at hs
    split at hs <;> cases hs
    exact { h with }
  | run =>
    simp only [State.step, State.run] at hs
    split at hs
    · cases hs
    · split at hs <;> cases hs <;> exact { h with }
    · split at hs
      · cases hs
        exact { h with }
      · rename_i hnone
        split at hs <;> cases hs
        · exact h.connect hnone _
        · exact { h with }
    · split at hs
      · cases hs
      · split at hs <;> cases hs <;> exact { h with }
    · split at hs <;> cases hs <;> exact { h with }
    · cases hs
      exact h.close _ _
  | lose =>
    simp only [State.step] at hs
    split at hs <;> cases hs
    exact { h with }
  | crash ep =>
    obtain ⟨-, he⟩ := Option.ite_none_right_eq_some.1 hs
    cases he
    exact { h with }
  | start ep =>
    obtain ⟨-, he⟩ := Option.ite_none_left_eq_some.1 hs
    cases he
    exact { h with }

/-- **Calls are counted.**  In every run, whatever the other servers do, what is seen of each call is in order: it runs
at most twice, and a second time only after its answer was lost; the loop ends well just if the call has run and that
answer came.  And there is one connection to an end point at most, the one that is kept. -/
theorem invoke_counted [DecidableEq α] {peers : Nat → Peer} {s : State α} {tr : List (Obs α)}
    (h : Run.Reach (system α peers) (fun _ _ _ => true) s tr) :
    (session tr).isSome = true ∧ ∀ cw gen, s.clients cw = some gen → ∃! ep, s.clWrappers ep = some cw := by
  have hinit : (State.init peers : State α).Kept :=
    ⟨fun _ _ => rfl, fun _ _ hc => (nomatch hc), fun _ _ hc => (nomatch hc), fun _ _ _ hc => (nomatch hc)⟩
  have hk : s.Kept := h.invariant (P := fun s _ => s.Kept) hinit (fun _ _ _ _ _ _ hk _ hs => hk.step hs)
  obtain ⟨ph, hph, -⟩ := inOrder_of_reach h
  refine ⟨by rw [hph]; rfl, fun cw gen hcw => ?_⟩
  obtain ⟨ep, hep⟩ := hk.opened cw gen hcw
  exact ⟨ep, hep, fun ep' hep' => hk.unique ep ep' cw hep hep'⟩

/-- It is seen within a call. -/
def Obs.Inside : Obs α → Prop
  | .executed _ _ => True
  | .lost => True
  | _ => False

/-- How often a call runs. -/
def runs (os : List (Obs α)) : Nat :=
  os.countP (fun o =>
    match o with
    | .executed _ _ => true
    | _ => false)

/-- How often the call has run that is under way. -/
def Phase.runs : Phase α → Nat
  | .out => 0
  | .calling _ _ lost => lost
  | .ran _ _ lost => lost + 1

section

variable [DecidableEq α]

theorem Phase.runs_next {ph ph' : Phase α} {o : Obs α} (ho : o.Inside) (h : ph.next o = some ph')
    (hle : ph.runs ≤ 2) : ph'.runs = Invoke.runs [o] + ph.runs ∧ ph'.runs ≤ 2 := by
  cases o with
  | invoked ep msg => exact ho.elim
  | returned success => exact ho.elim
  | executed ep' msg' =>
    cases ph with
    | out => cases h
    | ran ep msg lost => cases h
    | calling ep msg lost =>
      obtain ⟨⟨-, hlost⟩, he⟩ := Option.ite_none_right_eq_some.1 h
      cases he
      exact ⟨Nat.add_comm _ _, hlost⟩
  | lost =>
    cases ph with
    | out => cases h
    | calling ep msg lost => cases h
    | ran ep msg lost =>
      cases h
      exact ⟨(Nat.zero_add _).symm, hle⟩

theorem Phase.runs_foldlM : ∀ (os : List (Obs α)) {ph ph' : Phase α}, (∀ o ∈ os, o.Inside) →
    os.foldlM Phase.next ph = some ph' → ph.runs ≤ 2 → ph'.runs = Invoke.runs os + ph.runs ∧ ph'.runs ≤ 2
  | [], ph, ph', _, h, hle => by
    cases h
    exact ⟨(Nat.zero_add _).symm, hle⟩
  | o :: os, ph, ph', ho, h, hle => by
    rw [List.foldlM_cons, Option.bind_eq_bind, Option.bind_eq_some_iff] at h
    obtain ⟨ph₁, h₁, h₂⟩ := h
    obtain ⟨ho, hos⟩ := List.forall_mem_cons.1 ho
    obtain ⟨hr₁, hle₁⟩ := Phase.runs_next ho h₁ hle
    obtain ⟨hr₂, hle₂⟩ := Phase.runs_foldlM os hos h₂ hle₁
    refine ⟨?_, hle₂⟩
    rw [hr₂, hr₁, ← Nat.add_assoc, Invoke.runs, Invoke.runs, Invoke.runs, Nat.add_comm (List.countP _ os),
      ← List.countP_append]
    rfl

/-- A finished call has run at most twice, and at least once if it returns `true`. -/
theorem runs_le_two {peers : Nat → Peer} {s : State α} {tr₁ os tr₂ : List (Obs α)} {ep : Nat} {msg : α}
    {success : Bool} (h : Run.Reach (system α peers) (fun _ _ _ => true) s
      (tr₁ ++ .invoked ep msg :: os ++ .returned success :: tr₂)) (hos : ∀ o ∈ os, o.Inside) :
    runs os ≤ 2 ∧ (success = true → 0 < runs os) := by
  obtain ⟨ph, hph, -⟩ := inOrder_of_reach h
  rw [session, List.append_assoc, List.foldlM_append, Option.bind_eq_bind, Option.bind_eq_some_iff] at hph
  obtain ⟨ph₀, -, hph⟩ := hph
  rw [List.cons_append, List.foldlM_cons, Option.bind_eq_bind, Option.bind_eq_some_iff] at hph
  obtain ⟨ph₁, h₁, hph⟩ := hph
  rw [List.foldlM_append, Option.bind_eq_bind, Option.bind_eq_some_iff] at hph
  obtain ⟨ph₂, h₂, hph⟩ := hph
  rw [List.foldlM_cons, Option.bind_eq_bind, Option.bind_eq_some_iff] at hph
  obtain ⟨ph₃, h₃, -⟩ := hph
  have hzero : ph₁.runs = 0 := by
    cases ph₀ <;> cases h₁
    rfl
  obtain ⟨hr, hle⟩ := Phase.runs_foldlM os hos h₂ (by omega)
  rw [hzero, Nat.add_zero] at hr
  refine ⟨hr ▸ hle, fun hsuc => ?_⟩
  subst hsuc
  cases ph₂ with
  | out => cases h₃
  | calling ep msg lost => cases h₃
  | ran ep msg lost => exact hr ▸ Nat.succ_pos lost

end

/-- How a call ends for the candidate loop. -/
def callEnd (runs : Nat) (success : Bool) : CallEnd :=
  if success = true then .answered
  else if runs = 0 then .failed
  else .unanswered

theorem candidate_sent {r : Replica} {newPriId : Nat} (hne : newPriId ≠ r.id) (info : ViewChangeInfo) (cnt : Nat)
    (call : CallEnd) : (r.candidate info cnt newPriId call).sent =
      if call = .failed then [] else r.sendTo newPriId (.doViewChange info) := by
  rw [Replica.candidate, if_neg hne]
  dsimp only
  generalize (if call = .failed then [] else r.sendTo newPriId (.doViewChange info)) = sent
  split
  · rfl
  · split <;> rfl

/-- **What the candidate loop leaves on its way is what has run**: of each finished call of `invokeDoViewChange` to
another configured replica that has run at most once, a turn of the loop sends its message as often as it has run. -/
theorem candidate_sends {peers : Nat → Peer} {s : State ViewChangeInfo} {tr₁ os tr₂ : List (Obs ViewChangeInfo)}
    {ep : Nat} {info : ViewChangeInfo} {success : Bool}
    (h : Run.Reach (system ViewChangeInfo peers) (fun _ _ _ => true) s
      (tr₁ ++ .invoked ep info :: os ++ .returned success :: tr₂)) (hos : ∀ o ∈ os, o.Inside) (honce : runs os ≤ 1)
    {r : Replica} (hself : ep ≠ r.id) (hmem : ep ∈ r.replicas) (cnt : Nat) :
    (r.candidate info cnt ep (callEnd (runs os) success)).sent =
      List.replicate (runs os) ⟨ep, .doViewChange info⟩ := by
  have hsent : r.sendTo ep (.doViewChange info) = [⟨ep, .doViewChange info⟩] := if_pos ⟨hmem, hself⟩
  obtain ⟨-, hpos⟩ := runs_le_two h hos
  rw [candidate_sent hself, hsent]
  cases success with
  | true =>
    have hone : runs os = 1 := Nat.le_antisymm honce (hpos rfl)
    rw [hone]
    rfl
  | false =>
    rcases Nat.le_one_iff_eq_zero_or_eq_one.1 honce with hrun | hrun
    · rw [hrun]
      rfl
    · rw [hrun]
      rfl

/-- **Undisturbed, a call runs once if the server is up, and never if it is not**, whatever connection was kept: no
more than eight steps of the loop, and the others are as before. -/
theorem invoke_undisturbed (s : State α) (tr : List (Obs α)) (hp : s.pc = .idle) (peers : Nat → Peer) (ep : Nat)
    (msg : α) : ∃ k s', k ≤ 8 ∧
      Run.exec (system α peers) (fun _ _ _ => true) (.invoke ep msg :: List.replicate k .run) s tr = some (s', tr ++
        (if (s.peers ep).up then [.invoked ep msg, .executed ep msg, .returned true]
          else [.invoked ep msg, .returned false])) ∧ s'.pc = .idle ∧ s'.peers = s.peers := by
  obtain ⟨peers', clients, made, clWrappers, pc⟩ := s
  obtain rfl : pc = .idle := hp
  cases hc : (clWrappers ep).filter (fun cw => (clients cw).isSome) with
  | none =>
    -- nothing is kept: each try connects, or cannot
    cases hup : (peers' ep).up with
    | true =>
      refine ⟨4, ?_⟩
      simp [Run.exec, system, State.step, State.run, State.connected, State.connect, hup, hc, List.replicate]
    | false =>
      refine ⟨7, ?_⟩
      simp [Run.exec, system, State.step, State.run, State.connected, State.close, hup, hc, List.replicate]
  | some cw =>
    obtain ⟨hcw, hsome⟩ := Option.filter_eq_some_iff.1 hc
    obtain ⟨gen, hg⟩ := Option.isSome_iff_exists.1 hsome
    by_cases hlive : (peers' ep).up = true ∧ (peers' ep).gen = gen
    · -- the connection that is kept is to this start of the server
      obtain ⟨hup, rfl⟩ := hlive
      refine ⟨4, ?_⟩
      simp [Run.exec, system, State.step, State.run, State.connected, hup, hcw, hg, Option.filter_some, List.replicate]
    · -- it fails once, and is closed
      cases hup : (peers' ep).up with
      | true =>
        have hgen : (peers' ep).gen ≠ gen := fun he => hlive ⟨hup, he⟩
        refine ⟨8, ?_⟩
        simp [Run.exec, system, State.step, State.run, State.connected, State.connect, State.close, hup, hcw, hg,
          Option.filter_some, hgen, List.replicate]
      | false =>
        refine ⟨8, ?_⟩
        simp [Run.exec, system, State.step, State.run, State.connected, State.close, hup, hcw, hg,
          Option.filter_some, List.replicate]

/-- The server of end point `1` was started again behind a call; the next one goes through, on a new connection. -/
def staleEvents : List (Event Nat) :=
  [.invoke 1 5, .run, .run, .run, .run, .crash 1, .start 1]

theorem invoke_counted_one : ∃ (s : State Nat) (tr : List (Obs Nat)),
    Run.Reach (system Nat (fun _ => ⟨true, 0⟩)) (fun _ _ _ => true) s tr ∧ (s.clients 1).isSome = true ∧
    (session tr).isSome = true ∧ ∃! ep, s.clWrappers ep = some 1 := by
  obtain ⟨s, tr, h, hc⟩ : ∃ (s : State Nat) (tr : List (Obs Nat)),
      Run.Reach (system Nat (fun _ => ⟨true, 0⟩)) (fun _ _ _ => true) s tr ∧ (s.clients 1).isSome = true :=
    Run.exists_reach_of_exec (staleEvents ++ .invoke 1 6 :: List.replicate 8 .run)
      (fun (s : State Nat) _ => (s.clients 1).isSome) (by decide +kernel)
  obtain ⟨gen, hg⟩ := Option.isSome_iff_exists.1 hc
  obtain ⟨hs, hone⟩ := invoke_counted h
  exact ⟨s, tr, h, hc, hs, hone 1 gen hg⟩

theorem invoke_undisturbed_one : ∃ (s s' : State Nat) (tr : List (Obs Nat)) (k : Nat),
    Run.Reach (system Nat (fun _ => ⟨true, 0⟩)) (fun _ _ _ => true) s tr ∧ s.clients 0 = some 0 ∧
    (s.peers 1).gen = 1 ∧ Run.exec (system Nat (fun _ => ⟨true, 0⟩)) (fun _ _ _ => true)
      (.invoke 1 6 :: List.replicate k .run) s tr = some (s', tr ++ [.invoked 1 6, .executed 1 6, .returned true]) := by
  obtain ⟨s, tr, h, hc⟩ : ∃ (s : State Nat) (tr : List (Obs Nat)),
      Run.Reach (system Nat (fun _ => ⟨true, 0⟩)) (fun _ _ _ => true) s tr ∧
      decide (s.pc = .idle ∧ s.clients 0 = some 0 ∧ s.peers 1 = ⟨true, 1⟩) = true :=
    Run.exists_reach_of_exec staleEvents _ (by decide +kernel)
  obtain ⟨hp, hcl, hpeer⟩ := of_decide_eq_true hc
  obtain ⟨k, s', -, he, -⟩ := invoke_undisturbed s tr hp (fun _ => ⟨true, 0⟩) 1 6
  rw [hpeer] at he
  exact ⟨s, s', tr, k, h, hcl, by rw [hpeer], he⟩

end Invoke
end MetaDR
