import MetaDR.Moves
/-!
# Alone — the threads of one replica

One replica, the sections of its threads in any order, and whatever messages arrive.  A run keeps what happened and what
each step did, so that a result can speak of what came before a step.  The heart-beat thread steers by the status
(`Replica.Phase`), each section is a chain of moves or the last part of `recover` (`section_cases`), and the client's
thread goes through `replicate` a section at a time (`ClientMove`).
-/
namespace MetaDR

/-- What happens at one replica: a section of one of its threads runs, or a message arrives. -/
inductive LocalEvent where
  | act (a : Act) (now : Nat)
  | recv (msg : Msg) (now : Nat)
  deriving DecidableEq, Repr

def LocalEvent.msg : LocalEvent → Option Msg
  | .act _ _ => none
  | .recv msg _ => some msg

/-- What was seen on a run. -/
def seen (tr : List (LocalEvent × Step)) : List Obs := tr.flatMap (fun x => x.2.obs)

@[simp] theorem seen_concat (tr : List (LocalEvent × Step)) (e : LocalEvent) (s : Step) :
    seen (tr ++ [(e, s)]) = seen tr ++ s.obs := by
  simp [seen]

theorem Rules.free_obsOk (tr : List Obs) (r : Replica) (os : List Obs) : os.all (free.obsOk tr r) = true :=
  List.all_eq_true.2 (fun o _ => by cases o <;> simp [obsOk, free])

namespace Replica

def localSection (r : Replica) : LocalEvent → Outcome
  | .act a now => r.act now a
  | .recv msg now => r.handle now msg

/-- The process has ended. -/
def ended (r : Replica) : Replica := { r with up := false }

/-- A failed assertion ends the process. -/
def localStep (r : Replica) (e : LocalEvent) : Option (Replica × List (LocalEvent × Step)) :=
  if r.up = true then
    match r.localSection e with
    | .blocked => none
    | .abort => some (r.ended, [(e, quiet r.ended)])
    | .ok s => some (s.rep, [(e, s)])
  else none

/-- The system of one replica. -/
def alone (r : Replica) : Run.System Replica LocalEvent (LocalEvent × Step) := ⟨r, localStep⟩

/-- **A step is a section that is over, or the end of the process.** -/
theorem localStep_cases {r r' : Replica} {e : LocalEvent} {os : List (LocalEvent × Step)}
    (h : r.localStep e = some (r', os)) : r.up = true ∧
      ((r.localSection e = .abort ∧ r' = r.ended ∧ os = [(e, quiet r.ended)]) ∨
        ∃ s, r.localSection e = .ok s ∧ r' = s.rep ∧ os = [(e, s)]) := by
  unfold localStep at h
  split at h
  · rename_i hu
    split at h
    · cases h
    · rename_i ho
      cases h
      exact ⟨hu, .inl ⟨ho, rfl, rfl⟩⟩
    · rename_i s ho
      cases h
      exact ⟨hu, .inr ⟨s, ho, rfl, rfl⟩⟩
  · cases h

/-- A process just started, as it is or recovering. -/
inductive Fresh : Replica → Prop where
  | init (n id : Nat) : Fresh (init n id)
  | recovering (n id : Nat) (flag : Bool) : Fresh (recovering n id flag)

/-- **The rule for runs of one replica**: what each section keeps, and the end of the process. -/
theorem alone_invariant {r₀ : Replica} {ok : Replica → List (LocalEvent × Step) → LocalEvent → Bool}
    {P : Replica → List (LocalEvent × Step) → Prop} (h0 : P r₀ [])
    (hend : ∀ r tr e, P r tr → P r.ended (tr ++ [(e, quiet r.ended)]))
    (hsec : ∀ r tr e s, Run.Reach (alone r₀) ok r tr → P r tr → ok r tr e = true → r.localSection e = .ok s →
      P s.rep (tr ++ [(e, s)]))
    {r : Replica} {tr : List (LocalEvent × Step)} (h : Run.Reach (alone r₀) ok r tr) : P r tr := by
  refine Run.Reach.invariant h0 ?_ h
  intro r tr e r' os hr hP hok hs
  obtain ⟨-, ⟨-, rfl, rfl⟩ | ⟨s, hsec', rfl, rfl⟩⟩ := localStep_cases hs
  · exact hend r tr e hP
  · exact hsec r tr e s hr hP hok hsec'

/-- The heart-beat thread is in `recover` only in a recovering replica, and in `changeView` only under `VIEW_CHANGE`. -/
def Phase (r : Replica) : Prop :=
  match r.hb with
  | .idle => True
  | .recoverSent _ => r.status = .recovering
  | .recoverWait _ => r.status = .recovering
  | _ => r.status = .viewChange

theorem Fresh.phase {r : Replica} (h : r.Fresh) : r.Phase := by
  cases h <;> trivial

theorem Phase.hb_eq_idle {r : Replica} (h : r.Phase) (hs : r.status = .normal) : r.hb = .idle := by
  unfold Phase at h
  split at h
  · assumption
  all_goals
    rw [hs] at h
    cases h

end Replica

theorem Move.phase {R : Rules} {tr : List Obs} {r r' : Replica} {msg : Option Msg} {sent : List Packet} {os : List Obs}
    (h : r.Phase) (m : Move R tr r msg r' sent os) : r'.Phase := by
  unfold Replica.Phase at h ⊢
  cases m with
  | vote v o info hb hi => rcases hb with hb | hb <;> simpa [hb] using h
  | candidate info cnt c sent hb hc hs => simpa [hb] using h
  | select info cnt c sent hb hs =>
    rw [hb] at h
    by_cases hc : c = r.id <;> simpa only [hc, if_true, if_false] using h
  | recover hb sent hs hh hm => rcases hh with ⟨t, rfl⟩ | ⟨t, rfl⟩ <;> exact hs
  | storeStart info hv hs =>
    revert h
    cases r.hb <;> simp [hs]
  | _ => simp_all [Replica.adopted]

theorem Chain.phase {R : Rules} {tr : List Obs} {r r' : Replica} {msg : Option Msg} {sent : List Packet} {os : List Obs}
    (h : r.Phase) (hch : Chain R tr r msg r' sent os) : r'.Phase := by
  induction hch with
  | one m => exact m.phase h
  | more _ m ih => exact m.phase ih

namespace Replica

/-- The last part of `recover` ends with the step `s`. -/
def Recovers (r : Replica) (s : Step) : Prop :=
  ∃ nonce now, (r.hb = .recoverSent nonce ∨ r.hb = .recoverWait nonce) ∧ r.recoverEnd nonce now = some s

/-- **What a section does**: moves, or the last part of `recover`. -/
theorem section_cases {r : Replica} {e : LocalEvent} {s : Step} (h : r.localSection e = .ok s) (hp : r.Phase)
    (tr : List Obs) :
    Chain Rules.free tr r e.msg s.rep s.sent s.obs ∨ r.Recovers s := by
  cases e with
  | recv msg now => exact .inl (chain_handle h)
  | act a now =>
    have hrec : (∃ t, r.hb = .recoverSent t) → r.status = .recovering := fun ⟨t, ht⟩ => by
      rw [Phase, ht] at hp
      exact hp
    by_cases he : Rules.free.eventOk r (.act 0 a now) = true
    · exact .inl (chain_act h hrec he (Rules.free_obsOk tr r s.obs))
    · -- the free rules leave nothing else out
      refine .inr ?_
      cases performs_of_act h with
      | recovered _ nonce _ hb hend hs => exact ⟨nonce, now, hb.imp (fun h => h.2.1) (fun h => h.2), hend⟩
      | recoverWaits nonce hb hd => exact absurd (by simp [Rules.eventOk, hb, hd]) he
      | startedPrimary v candidate kvMap ops hb => exact absurd (by simp [Rules.eventOk, hb]) he
      | startedBackup v info kvMap ops hb => exact absurd (by simp [Rules.eventOk, hb]) he
      | voted v o hb => exact absurd (by simp [Rules.eventOk, hb]) he
      | woken req m prepInfo log hc => exact absurd (by simp [Rules.eventOk, hc, Rules.free]) he
      | acked prepInfo hpp => exact absurd (by simp [Rules.eventOk, hpp, Rules.free]) he
      | enough resp hi => exact absurd (by simp [Rules.eventOk, hi, Rules.free]) he
      | okCounted resp hi => exact absurd (by simp [Rules.eventOk, hi, Rules.free]) he
      | voteCounted info hi => exact absurd (by simp [Rules.eventOk, hi, Rules.free]) he
      | startCounted v hi => exact absurd (by simp [Rules.eventOk, hi, Rules.free]) he
      | _ => exact absurd rfl he

theorem Phase.section_ok {r : Replica} {e : LocalEvent} {s : Step} (hp : r.Phase) (h : r.localSection e = .ok s) :
    s.rep.Phase := by
  rcases section_cases h hp [] with hch | ⟨nonce, now, -, hrec⟩
  · exact hch.phase hp
  · obtain ⟨resp, rfl⟩ := recoverEnd_eq_some hrec
    trivial

/-- **The heart-beat thread keeps to the status** in every run. -/
theorem phase_of_reach {r₀ r : Replica} {ok : Replica → List (LocalEvent × Step) → LocalEvent → Bool}
    {tr : List (LocalEvent × Step)} (hf : r₀.Fresh) (h : Run.Reach (alone r₀) ok r tr) : r.Phase :=
  alone_invariant (P := fun r _ => r.Phase) hf.phase (fun _ _ _ hp => hp) (fun _ _ _ _ _ hp _ hs => hp.section_ok hs) h

end Replica

/-- What only the client's thread lets be seen. -/
def Obs.ofClient : Obs → Bool
  | .prepared _ _ => true
  | .quorum _ _ => true
  | .replied _ _ _ => true
  | _ => false

namespace Replica

/-- The client's thread is in `replicate` with the lock, for this mutation. -/
def replicates (r : Replica) (req : Req) (m : Mutation) (prepInfo : PrepInfo) : Prop :=
  r.client = .prepared req m prepInfo ∨ r.client = .waiting req m prepInfo

/-- **What the client's thread does in a section** behind the store's assertion; in the sections of the others it does
nothing. -/
inductive ClientMove (r : Replica) (s : Step) : Prop where
  | stays (hc : s.rep.client = r.client) (ho : ∀ o ∈ s.obs, o.ofClient = false)
  | refused (req : Req) (m : Mutation) (h : r.client = .locked req m) (hs : r.status ≠ .normal)
      (hr : s.rep = { r with opNum := r.opNum + 1, client := .idle })
      (ho : s.obs = [.replied r.id req (.err .statusNotNormal)])
  | prepared (req : Req) (m : Mutation) (prepInfo : PrepInfo) (h : r.client = .locked req m)
      (hp : r.isPrimary = true) (hs : r.status = .normal) (hop : prepInfo.op = m.op)
      (hc : s.rep.client = .prepared req m prepInfo) (ho : s.obs = [.prepared r.id prepInfo])
  | waits (req : Req) (m : Mutation) (prepInfo : PrepInfo) (h : r.replicates req m prepInfo)
      (hc : s.rep.client = .waiting req m prepInfo) (ho : s.obs = [])
  | won (req : Req) (m : Mutation) (prepInfo : PrepInfo) (h : r.replicates req m prepInfo)
      (hc : s.rep.client = .replicated req m prepInfo.opNum)
      (ho : s.obs = [.quorum r.id prepInfo, .forgot r.id prepInfo.opNum])
  | timedOut (req : Req) (hc : s.rep.client = .idle) (ho : s.obs = [.replied r.id req (.err .quorumNotReached)])
  | finished (req : Req) (m : Mutation) (opNum : Nat) (h : r.client = .replicated req m opNum)
      (hc : s.rep.client = .idle) (ho : s.obs = [.applied r.id opNum m.op, .replied r.id req (.err .none)])

theorem ofClient_applied {i : Nat} {ops : List (Nat × Op)} {o : Obs}
    (h : o ∈ ops.map (fun p => Obs.applied i p.1 p.2)) : o.ofClient = false := by
  obtain ⟨p, -, rfl⟩ := List.mem_map.1 h
  rfl

theorem ofClient_joined {r : Replica} {info : ViewStartInfo} {kvMap : KvMap} {ops : List (Nat × Op)} {now : Nat}
    {o : Obs} (h : o ∈ (r.joined info kvMap ops now).obs) : o.ofClient = false := by
  rcases List.mem_append.1 h with h | h
  · exact ofClient_applied h
  · rw [List.mem_singleton.1 h]
    rfl

theorem clientMove_of_act {r : Replica} {a : Act} {now : Nat} {s : Step} (ha : ∀ req, a ≠ .clientCall req)
    (h : r.act now a = .ok s) : r.ClientMove s := by
  have hnone : ∀ {r' : Replica} {sent : List Packet}, r'.client = r.client → r.ClientMove ⟨r', sent, []⟩ :=
    fun hc => .stays hc (fun o ho => absurd ho List.not_mem_nil)
  have hone : ∀ {r' : Replica} {sent : List Packet} {o : Obs}, r'.client = r.client → o.ofClient = false →
      r.ClientMove ⟨r', sent, [o]⟩ := fun hc ho => .stays hc (fun o' ho' => by rwa [List.mem_singleton.1 ho'])
  cases performs_of_act h with
  | replied req | locked req => exact absurd rfl (ha req)
  | refused req m hc hl hs => exact .refused req m hc hs rfl rfl
  | prepared req m prepInfo hc hl hp hs hi =>
    exact .prepared req m prepInfo hc hp hs (by subst hi; cases m <;> rfl) rfl rfl
  | waits req m prepInfo hc => exact .waits req m prepInfo (.inl hc) rfl rfl
  | counted req m prepInfo log hc => exact .won req m prepInfo (.inl hc) rfl rfl
  | woken req m prepInfo log hc => exact .won req m prepInfo (.inr hc) rfl rfl
  | timedOut req m => exact .timedOut req rfl rfl
  | finished req m opNum hc => exact .finished req m opNum hc rfl rfl
  | enteredJoined info kvMap ops =>
    refine .stays rfl (fun o ho => ?_)
    rcases List.mem_cons.1 ho with rfl | ho
    · rfl
    · exact ofClient_joined ho
  | startedPrimary v candidate kvMap ops =>
    refine .stays rfl (fun o ho => ?_)
    rcases List.mem_append.1 ho with ho | ho
    · exact ofClient_applied ho
    · rw [List.mem_singleton.1 ho]
      rfl
  | startedBackup => exact .stays rfl (fun o ho => ofClient_joined ho)
  | recovered _ nonce _ hb hend =>
    obtain ⟨resp, rfl⟩ := recoverEnd_eq_some hend
    refine .stays rfl (fun o ho => ?_)
    obtain ⟨e, -, rfl⟩ := List.mem_map.1 ho
    rfl
  | acked | okCounted | committed | entered | votedAtOnce | voted | choseSelf | chose => exact hone rfl rfl
  | _ => exact hnone rfl

theorem clientMove_of_handle {r : Replica} {msg : Msg} {now : Nat} {s : Step} (h : r.handle now msg = .ok s) :
    r.ClientMove s := by
  cases handles_of_handle h <;> exact .stays rfl (fun o ho => absurd ho List.not_mem_nil)

end Replica

end MetaDR
