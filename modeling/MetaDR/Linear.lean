import MetaDR.Freshness
import MetaDR.Namespace
import MetaDR.Lib.Order
/-!
# Linear — the cluster as one store

All that passes its quorum check passes in the order of its number, whoever is primary (`Moves.numbered`); so a run has
one history, and one store that it leaves (`storeAt`).  That store changes at the quorum checks only, each time as a
single `KvMemStore` changes when it serves the request.  Every call that is answered with `NONE` changed it once,
between the numbering of its operation and the answer, and what the `NORMAL` primary of the latest view answers at once
is what that store would answer.  The maps of the replicas are what it was at some time.
-/
namespace MetaDR

open Majority Viewstamp

/-- The operation that passes its quorum check. -/
def Obs.passedOp : Obs → Option Op
  | .quorum _ prepInfo => some prepInfo.op
  | _ => none

/-- The operations in the order they passed. -/
def passedOps (tr : List Obs) : List Op := tr.filterMap Obs.passedOp

/-- What they leave. -/
def storeAt (tr : List Obs) : KvMap := applyAll (passedOps tr)

@[simp] theorem passedOps_append (tr os : List Obs) : passedOps (tr ++ os) = passedOps tr ++ passedOps os :=
  List.filterMap_append

theorem passedOps_quorum (r : Nat) (p : PrepInfo) (tr : List Obs) :
    passedOps (.quorum r p :: tr) = p.op :: passedOps tr := rfl

theorem storeAt_quorum (tr : List Obs) (r : Nat) (p : PrepInfo) :
    storeAt (tr ++ [.quorum r p]) = p.op.apply (storeAt tr) := by
  rw [storeAt, passedOps_append, passedOps_quorum, storeAt]
  exact applyAll_concat _ _

/-- The operations passed under `1, 2, 3, …`. -/
def Numbered (tr : List Obs) : Prop :=
  Run.Each (fun tr o => ∀ r p, o = .quorum r p → p.opNum = (passedOps tr).length + 1) tr

theorem passed_of_getElem? {tr : List Obs} (h : Numbered tr) {a : Nat} {op : Op} (ho : (passedOps tr)[a]? = some op) :
    Passed tr (a + 1) op := by
  obtain ⟨tr₁, o, tr₂, rfl, hlen, hop⟩ : ∃ tr₁ o tr₂, tr = tr₁ ++ o :: tr₂ ∧ (passedOps tr₁).length = a ∧
      o.passedOp = some op := by
    clear h
    induction tr using List.reverseRecOn with
    | nil => cases ho
    | append_singleton tr o ih =>
      rw [passedOps_append] at ho
      rcases Nat.lt_or_ge a (passedOps tr).length with ha | ha
      · rw [List.getElem?_append_left ha] at ho
        obtain ⟨tr₁, x, tr₂, rfl, hlen, hx⟩ := ih ho
        exact ⟨tr₁, x, tr₂ ++ [o], by simp, hlen, hx⟩
      · rw [List.getElem?_append_right ha] at ho
        cases hx : o.passedOp with
        | none => rw [passedOps, List.filterMap_cons_none hx] at ho; cases ho
        | some x =>
          rw [passedOps, List.filterMap_cons_some hx, List.filterMap_nil, List.getElem?_singleton] at ho
          split at ho
          · rw [← Option.some.inj ho]
            exact ⟨tr, o, [], rfl, by omega, hx⟩
          · cases ho
  cases o with
  | quorum r p =>
    obtain rfl := Option.some.inj hop
    exact ⟨r, p, by simp, by rw [h tr₁ _ tr₂ rfl r p rfl, hlen], rfl⟩
  | _ => cases hop

theorem getElem?_of_passed {tr : List Obs} (h : Numbered tr) {k : Nat} {op : Op} (hp : Passed tr k op) :
    1 ≤ k ∧ (passedOps tr)[k - 1]? = some op := by
  obtain ⟨r, p, hq, rfl, rfl⟩ := hp
  obtain ⟨tr₁, tr₂, rfl⟩ := List.append_of_mem hq
  have hn := h tr₁ _ tr₂ rfl r p rfl
  refine ⟨by omega, ?_⟩
  rw [passedOps_append, passedOps_quorum, hn, Nat.add_sub_cancel, List.getElem?_append_right (le_refl _),
    Nat.sub_self, List.getElem?_cons_zero]

section

variable {n : Nat} {R : Rules} {c : Cluster} {tr : List Obs}

/-- A move between two states of the protocol, the second one grown from the first. -/
theorem Moves.refines_step (hR : R.Strict) (hM : Moves n R c tr) {i : Nat} (hi : i < n) {p : Option Packet}
    (hp : ∀ q, p = some q → q ∈ c.net ∧ q.dst = i) {r' : Replica} {sent : List Packet} {os : List Obs}
    (m : MetaDR.Move R tr (c.reps i) (p.map Packet.msg) r' sent os) :
    ∃ s s', Reach n True s ∧ c.Follows True s tr ∧ Reach n True s' ∧ Grows s s' ∧
      Cluster.Follows True s' (tr ++ os) { c.setRep i r' with net := takeUp p c.net ++ sent } := by
  obtain ⟨s, hs, hf⟩ := hM.refines_strict hR
  obtain ⟨s', a⟩ := hf.move hs hM hR.atomic hR.called (fun _ => hR.start)
    (fun _ _ _ _ hc hq => hM.answered hR.atomic hR.called hR.current hR.assign hi hc (hq hR.notified)) hi hp m
  rcases a.step with rfl | hstep
  · exact ⟨s', s', hs, hf, hs, .refl s', hf.moved (.refl s') hM m a⟩
  · exact ⟨s, s', hs, hf, hs.step hstep, hs.core.grows hstep, hf.moved (hs.core.grows hstep) hM m a⟩

theorem Move.msg_of_quorum {r r' : Replica} {msg : Option Msg} {sent : List Packet} {os : List Obs} {q : Nat}
    {p : PrepInfo} (m : Move R tr r msg r' sent os) (h : .quorum q p ∈ os) : msg = none := by
  cases m with
  | passQuorum => rfl
  | _ => simp at h

/-- Whoever passes its quorum check has committed all that passed before. -/
theorem Moves.le_of_quorum (hR : R.Strict) (hM : Moves n R c tr) {i : Nat} (hi : i < n) {msg : Option Msg}
    {r' : Replica} {sent : List Packet} {os : List Obs} (m : MetaDR.Move R tr (c.reps i) msg r' sent os) {q : Nat}
    {x : PrepInfo} (hx : .quorum q x ∈ os) {k : Nat} {op : Op} (hy : Passed tr k op) : k ≤ (c.reps i).commitNum := by
  obtain ⟨q', y, hy, rfl, -⟩ := hy
  obtain rfl := m.msg_of_quorum hx
  have hp : ∀ q : Packet, (none : Option Packet) = some q → q ∈ c.net ∧ q.dst = i := fun q hq => by cases hq
  obtain ⟨s, s', hs, hf, hs', g, hf'⟩ := hM.refines_step hR (p := none) hi hp m
  obtain ⟨-, -, -, req, mu, hc⟩ := m.of_quorum hx
  have hholds : (c.reps i).holds x := ⟨req, mu, .inr hc⟩
  have hr := hf.rep i (hM.holds_live hholds)
  obtain ⟨hlast, hv, hpri, hlt, -⟩ := hr.holds x hholds
  rw [← hlast] at hv hpri
  rw [← hr.commit] at hlt ⊢
  obtain ⟨hwon, hop, -⟩ := (hM.step (.move i none r' sent os hi hp m)).won_of_quorum hf' (List.mem_append_right _ hx)
  rw [hv] at hwon hop
  exact (hs.good trivial).won_le_of_next hs.core (hs.certificates trivial) g (hs'.good trivial) hpri hlt hwon hop
    (hM.won_of_quorum hf hy).1

/-- What a replica's map comes from are the first operations that passed. -/
theorem Replica.Replayed.eq_take {r : Replica} {ops : List Op} (h : r.Replayed tr ops) (hn : Numbered tr) :
    ops = (passedOps tr).take ops.length := by
  refine List.ext_getElem? (fun a => ?_)
  rw [List.getElem?_take]
  split
  · rename_i ha
    obtain ⟨-, hget⟩ := getElem?_of_passed hn (h.passed a _ (List.getElem?_eq_getElem ha))
    rw [List.getElem?_eq_getElem ha, ← hget, Nat.add_sub_cancel]
  · rename_i ha
    exact List.getElem?_eq_none (by omega)

/-- **The operations pass in the order of their numbers**, without a gap. -/
theorem Moves.numbered (hR : R.Strict) (hG : R.Gapless n) (h : Moves n R c tr) : Numbered tr := by
  induction h with
  | init => exact Run.each_nil
  | @step c c' tr os hM m ih =>
    cases m with
    | lose p => rwa [List.append_nil]
    | down i => rwa [List.append_nil]
    | restart i flag hi hR => rwa [List.append_nil]
    | move i p r' sent os hi hp m =>
      refine ih.append (fun os₁ o os₂ hos r x ho => ?_)
      subst ho
      have hx : .quorum r x ∈ os := hos ▸ List.mem_append_right _ List.mem_cons_self
      obtain ⟨hone, -, hpass, -⟩ := m.of_quorum hx
      rw [Run.nil_of_first (hone.symm.trans hos) (by simp), List.append_nil, hG.pass _ _ hpass]
      congr 1
      obtain ⟨hrep, -⟩ := hM.replayed hG
      obtain ⟨ops, hops⟩ := hrep i
      -- nothing passed past the commit number, and everything up to it did
      refine le_antisymm (Nat.le_of_not_lt (fun hlt => ?_)) (Nat.le_of_not_lt (fun hlt => ?_))
      · obtain ⟨op, hop⟩ := hops.passedTo (c.reps i).commitNum (by omega) (le_refl _)
        obtain ⟨-, hget⟩ := getElem?_of_passed ih hop
        have := (List.getElem?_eq_some_iff.1 hget).1
        omega
      · have := hM.le_of_quorum hR hi m hx (passed_of_getElem? ih (List.getElem?_eq_getElem hlt))
        omega

end

/-- The call the client thread is in, and what it asks of the store, until the map is changed. -/
def ClientPc.call : ClientPc → Option (Req × Mutation)
  | .idle => none
  | .locked req m => some (req, m)
  | .prepared req m _ => some (req, m)
  | .waiting req m _ => some (req, m)
  | .replicated req m _ => some (req, m)

/-- What the client thread is about to do to the map is what its request asks for on the map as it is. -/
def Replica.Asks (r : Replica) : Prop :=
  ∀ req m, r.client.call = some (req, m) → req.front true r.kvMap = .ok (.mutate m)

theorem replay_of_nil {log : InMemOpLogHandler} : ∀ {is : List Nat} {kvMap kvMap' : KvMap},
    replay log is kvMap = some (kvMap', []) → kvMap' = kvMap
  | [], kvMap, kvMap', h => by
    simp only [replay, Option.some.injEq, Prod.mk.injEq, and_true] at h
    exact h.symm
  | k :: is, kvMap, kvMap', h => by
    unfold replay at h
    split at h
    · cases h
    · split at h
      · obtain ⟨x, -, hx⟩ := Option.map_eq_some_iff.1 h
        cases hx
      · exact replay_of_nil h

section

variable {n : Nat} {R : Rules} {c : Cluster} {tr : List Obs}

theorem Replica.Adopts.asks {r : Replica} {info info' : ViewStartInfo} {kvMap : KvMap} {ops : List (Nat × Op)}
    (ha : r.Adopts info kvMap ops) (hs : ops ≠ [] → r.client = .idle) (hr : r.Asks) : (r.adopted info' kvMap).Asks := by
  intro req m hc
  have hc : r.client.call = some (req, m) := hc
  have hnil : ops = [] := by
    by_contra hne
    rw [hs hne] at hc
    cases hc
  subst hnil
  have hmap : kvMap = r.kvMap := replay_of_nil ha.replay
  rw [show (r.adopted info' kvMap).kvMap = kvMap from rfl, hmap]
  exact hr req m hc

/-- No other thread changes the map while a call is on its way. -/
theorem Moves.asks (h : Moves n R c tr) (i : Nat) : (c.reps i).Asks := by
  refine h.forall_rep (P := Replica.Asks) (fun _ _ _ hc => by cases hc) (fun _ h => h) (fun _ _ _ _ _ hc => by cases hc)
    ?_ i
  intro c tr i msg r' sent os _ hr m
  generalize c.reps i = r at hr m
  cases m with
  | lock req m hc hf =>
    intro req' m' he
    cases he
    cases hp : r.isPrimary with
    | true => rwa [hp] at hf
    | false =>
      rw [hp, Req.front_false] at hf
      cases hf
  | prepare req m p hc | countOwn req m p hc | passQuorum req m p log hc =>
    intro req' m' he
    cases he
    exact hr req m (by rw [hc]; rfl)
  | refuse | giveUp | finish => exact fun _ _ he => by cases he
  | commitNext ci log entry hi hl ht hv hn hlog he hc =>
    intro req m hm
    have hm : r.client.call = some (req, m) := hm
    rw [hc] at hm
    cases hm
  | startPrimary v votes cand kvMap ops hb hv hq hc hn hR hA ha hs => exact ha.asks hs hr
  | startBackup v info kvMap ops hb hi hn hA ha hs => exact ha.asks hs hr
  | _ => exact hr

/-- A replica with no operation on its way to its map, and all that passed committed, has the one store. -/
theorem Replica.Replayed.kvMap_eq {r : Replica} {ops : List Op} (h : r.Replayed tr ops) (hn : Numbered tr)
    (hc : ∀ req m k, r.client ≠ .replicated req m k) (hle : ∀ k op, Passed tr k op → k ≤ r.commitNum) :
    r.kvMap = storeAt tr := by
  have hlen := h.length hc
  have heq := h.eq_take hn
  rw [h.kvMap, storeAt, heq, List.take_of_length_le]
  by_contra hlt
  have hp := passed_of_getElem? hn (List.getElem?_eq_getElem (Nat.lt_of_not_le hlt))
  have := hle _ _ hp
  omega

/-- What passes is what its request asks of the one store. -/
theorem Moves.quorum_asks (hR : R.Strict) (hG : R.Gapless n) (h : Moves n R c tr) : Run.Each
    (fun tr o => ∀ r p, o = .quorum r p →
      ∃ (req : Req) (m : Mutation), req.front true (storeAt tr) = .ok (.mutate m) ∧ m.op = p.op) tr := by
  refine h.each (fun c tr i msg r' sent os hM hi m os₁ o os₂ hos r p ho => ?_)
  subst ho
  have hx : .quorum r p ∈ os := hos ▸ List.mem_append_right _ List.mem_cons_self
  obtain ⟨hone, -, -, req, mu, hc⟩ := m.of_quorum hx
  rw [Run.nil_of_first (hone.symm.trans hos) (by simp), List.append_nil]
  obtain ⟨ops, hops⟩ := (hM.replayed hG).1 i
  rw [← hops.kvMap_eq (hM.numbered hR hG) (fun _ _ _ he => by rw [hc] at he; cases he)
    (fun _ _ hy => hM.le_of_quorum hR hi m hx hy)]
  exact ⟨req, mu, hM.asks i req mu (by rw [hc]; rfl), ((hM.known.1 i).waiting req mu p (.inr hc)).2.symm⟩

/-- The one store is a namespace at all times. -/
theorem Moves.pathStore (hR : R.Strict) (hG : R.Gapless n) (h : Moves n R c tr) {tr₁ : List Obs} (hpre : tr₁ <+: tr) :
    PathStore (storeAt tr₁) := by
  have hasks := h.quorum_asks hR hG
  induction tr₁ using List.reverseRecOn with
  | nil => exact pathStore_empty
  | append_singleton tr₁ o ih =>
    have hp := ih ((List.prefix_append tr₁ [o]).trans hpre)
    cases o with
    | quorum r p =>
      obtain ⟨tr₂, htr⟩ := hpre
      obtain ⟨req, m, hf, ho⟩ := hasks tr₁ _ tr₂ (by rw [← htr, List.append_assoc]; rfl) r p rfl
      obtain ⟨f, hf', hs⟩ := hp.front req
      rw [hf] at hf'
      cases hf'
      rw [storeAt_quorum, ← ho, ← m.leave_eq]
      exact hs.2
    | _ => rwa [storeAt, passedOps_append, show passedOps [_] = [] from rfl, List.append_nil]

/-- A request that asks the store for a change is served by it, once the change is replicated. -/
theorem PathStore.serve_of_front {kvMap : KvMap} (h : PathStore kvMap) {req : Req} {m : Mutation}
    (hf : req.front true kvMap = .ok (.mutate m)) :
    MetaDR.serve true kvMap req .done = .ok (m.op.apply kvMap, .err .none) := by
  obtain ⟨f, hf', hs⟩ := h.front req
  rw [hf] at hf'
  cases hf'
  rw [MetaDR.serve, hf]
  simp only [bind, Except.bind, hs.1, Mutation.finish, m.leave_eq]

/-- **Each operation that passes changes the one store as a single `KvMemStore` changes that serves its request.** -/
theorem Moves.quorum_served (hR : R.Strict) (hG : R.Gapless n) (h : Moves n R c tr) {tr₁ tr₂ : List Obs} {r : Nat}
    {p : PrepInfo} (htr : tr = tr₁ ++ .quorum r p :: tr₂) :
    ∃ req, serve true (storeAt tr₁) req .done = .ok (storeAt (tr₁ ++ [.quorum r p]), .err .none) := by
  obtain ⟨req, m, hf, ho⟩ := h.quorum_asks hR hG tr₁ _ tr₂ htr r p rfl
  refine ⟨req, ?_⟩
  rw [(h.pathStore hR hG ⟨_, htr.symm⟩).serve_of_front hf, ho, storeAt_quorum]

end

/-- The replica answers nothing in it. -/
def Unanswered (i : Nat) (tr : List Obs) : Prop := ∀ req res, .replied i req res ∉ tr

/-- The replica has sent the operation out and has answered nothing since. -/
def SentOut (tr : List Obs) (i : Nat) (p : PrepInfo) : Prop :=
  ∃ tr₀ mid, tr = tr₀ ++ .prepared i p :: mid ∧ Unanswered i mid

/-- **The call changed the one store**: at one moment between the sending of its operation and now, with nothing
answered by the replica in between. -/
def TookEffect (tr : List Obs) (i : Nat) (req : Req) : Prop :=
  ∃ tr₁ p last, tr = tr₁ ++ .quorum i p :: last ∧ SentOut tr₁ i p ∧ Unanswered i last ∧
    serve true (storeAt tr₁) req .done = .ok (storeAt (tr₁ ++ [.quorum i p]), .err .none)

theorem unanswered_of_by {i : Nat} {os : List Obs} (h : ∀ o ∈ os, o.by ≠ i) : Unanswered i os :=
  fun _ _ ho => h _ ho rfl

theorem Unanswered.append {i : Nat} {tr os : List Obs} (h : Unanswered i tr) (hos : Unanswered i os) :
    Unanswered i (tr ++ os) := fun req res ho => (List.mem_append.1 ho).elim (h req res) (hos req res)

theorem SentOut.append {i : Nat} {tr os : List Obs} {p : PrepInfo} (h : SentOut tr i p) (hos : Unanswered i os) :
    SentOut (tr ++ os) i p := by
  obtain ⟨tr₀, mid, rfl, hmid⟩ := h
  exact ⟨tr₀, mid ++ os, by simp, hmid.append hos⟩

theorem TookEffect.append {i : Nat} {tr os : List Obs} {req : Req} (h : TookEffect tr i req) (hos : Unanswered i os) :
    TookEffect (tr ++ os) i req := by
  obtain ⟨tr₁, p, last, rfl, hs, hlast, hserve⟩ := h
  exact ⟨tr₁, p, last ++ os, by simp, hs, hlast.append hos, hserve⟩

/-- How far the call of the client thread has come, by what was seen. -/
structure Replica.Underway (tr : List Obs) (i : Nat) (r : Replica) : Prop where
  sentOut : ∀ req m p, (r.client = .prepared req m p ∨ r.client = .waiting req m p) → SentOut tr i p
  tookEffect : ∀ req m k, r.client = .replicated req m k → TookEffect tr i req

theorem Replica.Underway.keep {tr os : List Obs} {i : Nat} {r r' : Replica} (h : r.Underway tr i)
    (hc : r'.client = r.client) (hos : Unanswered i os) : r'.Underway (tr ++ os) i where
  sentOut := fun req m p hp => (h.sentOut req m p (by rwa [hc] at hp)).append hos
  tookEffect := fun req m k hk => (h.tookEffect req m k (by rwa [hc] at hk)).append hos

theorem underway_of_idle {tr : List Obs} {i : Nat} {r : Replica} (hc : r.client = .idle) : r.Underway tr i :=
  ⟨fun req m p hp => (by rw [hc] at hp; rcases hp with hp | hp <;> cases hp),
    fun req m k hk => (by rw [hc] at hk; cases hk)⟩

section

variable {n : Nat} {R : Rules} {c : Cluster} {tr : List Obs}

theorem Move.underway (hR : R.Strict) (hG : R.Gapless n) (hM : Moves n R c tr) {i : Nat} (hi : i < n)
    {msg : Option Msg} {r' : Replica} {sent : List Packet} {os : List Obs} (h : (c.reps i).Underway tr i)
    (m : Move R tr (c.reps i) msg r' sent os) : r'.Underway (tr ++ os) i := by
  have hasks := hM.asks i
  have hid := hM.id_eq i
  have hknown := hM.known.1 i
  have hle := fun {q x} (hx : .quorum q x ∈ os) {k op} (hy : Passed tr k op) => hM.le_of_quorum hR hi m hx hy
  obtain ⟨ops, hops⟩ := (hM.replayed hG).1 i
  generalize c.reps i = r at *
  subst hid
  cases m with
  | reply req res hc hf => exact underway_of_idle hc
  | lock req m hc hf =>
    exact ⟨fun _ _ _ hp => (by rcases hp with hp | hp <;> cases hp), fun _ _ _ hk => by cases hk⟩
  | prepare req m p hc hl hpri hs hv hn ho hR =>
    refine ⟨fun req' m' p' hp => ?_, fun _ _ _ hk => by cases hk⟩
    rcases hp with hp | hp <;> cases hp
    exact ⟨tr, [], rfl, fun _ _ h => by cases h⟩
  | countOwn req m p hc =>
    refine ⟨fun req' m' p' hp => ?_, fun _ _ _ hk => by cases hk⟩
    rcases hp with hp | hp <;> cases hp
    exact (h.sentOut req m p (.inl hc)).append (fun _ _ h => by cases h)
  | passQuorum req m p log hc hq hpass hl =>
    refine ⟨fun _ _ _ hp => (by rcases hp with hp | hp <;> cases hp), fun req' m' k hk => ?_⟩
    cases hk
    have hmap : r.kvMap = storeAt tr := hops.kvMap_eq (hM.numbered hR hG)
      (fun _ _ _ he => by rw [hc] at he; cases he) (fun _ _ hy => hle List.mem_cons_self hy)
    have hf := hasks req m (by rw [hc]; rfl)
    rw [hmap] at hf
    refine ⟨tr, p, [.forgot r.id p.opNum], rfl, h.sentOut req m p (.inr hc), fun _ _ h => by simp at h, ?_⟩
    rw [(hM.pathStore hR hG (List.prefix_refl tr)).serve_of_front hf, storeAt_quorum,
      (hknown.waiting req m p (.inr hc)).2]
  | refuse | giveUp | finish => exact underway_of_idle rfl
  | startPrimary | startBackup =>
    refine h.keep rfl (fun _ _ ho => ?_)
    simp at ho
  | _ => exact h.keep rfl (fun _ _ ho => by simp at ho)

theorem Moves.underway (hR : R.Strict) (hG : R.Gapless n) (h : Moves n R c tr) (i : Nat) :
    (c.reps i).Underway tr i :=
  (h.invariant (P := fun tr i r => r.Underway tr i) (Q := fun _ _ => True) (T := fun _ _ => True)
    (fun _ _ _ _ hos h => h.keep rfl (unanswered_of_by hos)) (fun _ _ _ h => h) (fun _ _ _ h => h)
    (fun _ => underway_of_idle rfl) (fun _ _ _ h => ⟨h.sentOut, h.tookEffect⟩) (fun _ _ _ _ _ _ => underway_of_idle rfl)
    (fun _ _ i _ _ _ _ hM hP _ _ hi _ m =>
      ⟨m.underway hR hG hM hi (hP i), fun _ _ => trivial, fun _ _ => trivial⟩)).1 i

/-- **Every call that is answered with `NONE` changed the one store.** -/
theorem Moves.answered_tookEffect (hR : R.Strict) (hG : R.Gapless n) (h : Moves n R c tr) :
    Run.Each (fun tr o => ∀ r req, o = .replied r req (.err .none) → TookEffect tr r req) tr := by
  refine h.each (fun c tr i msg r' sent os hM hi m os₁ o os₂ hos r req ho => ?_)
  subst ho
  have hun := hM.underway hR hG i
  have hid := hM.id_eq i
  generalize c.reps i = r at *
  subst hid
  have hx : .replied _ req (.err .none) ∈ os := hos ▸ List.mem_append_right _ List.mem_cons_self
  cases m with
  | reply req' res hc hf =>
    obtain ⟨rfl, rfl, rfl⟩ := by simpa using hx
    exact absurd rfl (Req.front_ne_none hf)
  | finish req' m k hc =>
    obtain ⟨rfl, rfl⟩ := by simpa using hx
    obtain rfl : os₁ = [.applied r.id k m.op] := by
      rcases os₁ with - | ⟨a, - | ⟨b, os₁⟩⟩
      · cases hos
      · cases hos
        rfl
      · simp at hos
    exact (hun.tookEffect req m k hc).append (fun _ _ h => by simp at h)
  | _ => simp at hx

/-- What a call that is answered at once tells. -/
theorem Cluster.step_clientCall {i now q : Nat} {req req' : Req} {res : Result} {c' : Cluster}
    (hs : c.step n (.act i (.clientCall req) now) = some (c', [.replied q req' res])) :
    (c.reps i).client = .idle ∧ req.front (c.reps i).isPrimary (c.reps i).kvMap = .ok (.reply res) := by
  simp only [Cluster.step] at hs
  split at hs
  · cases ho : (c.reps i).act now (.clientCall req) with
    | ok s =>
      rw [ho] at hs
      simp only [Cluster.settle, Option.some.injEq, Prod.mk.injEq] at hs
      exact Replica.act_clientCall ho hs.2
    | _ => rw [ho] at hs; cases hs
  · cases hs

end

/-- **Linearizability.**  All that passes its quorum check passes in the order of its number and changes the one store
as a single `KvMemStore` changes that serves a request; every call that is answered with `NONE` is such a request, and
passed between the sending of its operation and the answer; and whatever the primary of the latest view, `NORMAL` in it,
answers at once is what the one store would answer then. -/
theorem linearizable {n : Nat} {c : Cluster} {tr : List Obs} (h : Runs n Rules.fresh c tr) :
    (∀ tr₁ r p tr₂, tr = tr₁ ++ .quorum r p :: tr₂ → p.opNum = (passedOps tr₁).length + 1 ∧
      ∃ req, serve true (storeAt tr₁) req .done = .ok (storeAt (tr₁ ++ [.quorum r p]), .err .none)) ∧
    (∀ tr₁ r req tr₂, tr = tr₁ ++ .replied r req (.err .none) :: tr₂ → TookEffect tr₁ r req) ∧
    ∀ i now req res c', c.step n (.act i (.clientCall req) now) = some (c', [.replied i req res]) →
      res ≠ .err .replicaNotPrimary → (c.reps i).status = .normal → latest tr (c.reps i).viewNum = true →
      serve true (storeAt tr) req .done = .ok (storeAt tr, res) := by
  have hM := h.moves
  have hR := Rules.fresh_strict
  have hG := Rules.fresh_gapless n
  refine ⟨fun tr₁ r p tr₂ htr => ⟨hM.numbered hR hG tr₁ _ tr₂ htr r p rfl, hM.quorum_served hR hG htr⟩,
    fun tr₁ r req tr₂ htr => hM.answered_tookEffect hR hG tr₁ _ tr₂ htr r req rfl,
    fun i now req res c' hs hres hn hl => ?_⟩
  obtain ⟨hidle, hf⟩ := Cluster.step_clientCall hs
  have hpri : (c.reps i).isPrimary = true := by
    by_contra hp
    rw [Bool.not_eq_true] at hp
    rw [hp, Req.front_false] at hf
    cases hf
    exact hres rfl
  obtain ⟨ops, hops⟩ := (hM.replayed hG).1 i
  have hmap := hops.kvMap_eq (hM.numbered hR hG) (fun _ _ _ he => by rw [hidle] at he; cases he)
    (fun _ _ hp => hM.passed_le hR hn hpri hl hp)
  rw [hpri, hmap] at hf
  rw [serve, hf]
  rfl

theorem linearizable_three : ∃ c tr c', Runs 3 Rules.fresh c tr ∧ (c.reps 1).viewNum = 1 ∧
    c.step 3 (readEvent 1) = some (c', [.replied 1 (.get [slash, 120]) (.val [])]) ∧
    serve true (storeAt tr) (.get [slash, 120]) .done = .ok (storeAt tr, .val []) := by
  obtain ⟨c, tr, h, hc⟩ := exists_runs (n := 3) (R := Rules.fresh) (settledEvents ++ changeEvents)
    (fun c tr => decide ((c.reps 1).viewNum = 1) && readsAs c 1 (.val []) && decide ((c.reps 1).status = .normal) &&
      latest tr (c.reps 1).viewNum) (by decide +kernel)
  simp only [Bool.and_eq_true, decide_eq_true_eq] at hc
  obtain ⟨⟨⟨hv, hr⟩, hn⟩, hl⟩ := hc
  obtain ⟨c', hstep⟩ := step_of_readsAs hr
  exact ⟨c, tr, c', h, hv, hstep, (linearizable h).2.2 1 0 _ _ c' hstep (by decide) hn hl⟩

/-- Some of the first operations that passed are all that passed up to some moment. -/
theorem exists_prefix_take (tr : List Obs) (k : Nat) : ∃ tr₁, tr₁ <+: tr ∧ passedOps tr₁ = (passedOps tr).take k := by
  induction tr using List.reverseRecOn with
  | nil => exact ⟨[], List.prefix_refl _, List.take_nil.symm⟩
  | append_singleton tr o ih =>
    rcases Nat.le_total k (passedOps tr).length with hk | hk
    · obtain ⟨tr₁, hpre, heq⟩ := ih
      exact ⟨tr₁, hpre.trans (List.prefix_append _ _), by rw [heq, passedOps_append, List.take_append_of_le_length hk]⟩
    · rcases Nat.eq_or_lt_of_le hk with rfl | hlt
      · exact ⟨tr, List.prefix_append _ _, by rw [passedOps_append, List.take_left']; rfl⟩
      · refine ⟨tr ++ [o], List.prefix_refl _, (List.take_of_length_le ?_).symm⟩
        have : (passedOps [o]).length ≤ 1 := List.length_filterMap_le _ _
        rw [passedOps_append, List.length_append]
        omega

/-- On a namespace no call faults before it asks for the lock of the replicator. -/
theorem PathStore.clientCall_ne_abort {r : Replica} (h : PathStore r.kvMap) (now : Nat) (req : Req) :
    r.act now (.clientCall req) ≠ .abort := by
  intro ha
  simp only [Replica.act] at ha
  split at ha
  · unfold Replica.clientCall at ha
    cases hp : r.isPrimary with
    | false =>
      rw [hp, Req.front_false] at ha
      cases ha
    | true =>
      obtain ⟨f, hf, hs⟩ := h.front req
      rw [hp, hf] at ha
      cases f with
      | reply res => cases ha
      | mutate m =>
        simp only [hs.1] at ha
        cases ha
  · cases ha

/-- The map of a replica is what the cluster stood for at some time of the run. -/
theorem Moves.storeAt_rep {n : Nat} {R : Rules} {c : Cluster} {tr : List Obs} (hR : R.Strict) (hG : R.Gapless n)
    (h : Moves n R c tr) (i : Nat) :
    ∃ tr₁, tr₁ <+: tr ∧ (c.reps i).kvMap = storeAt tr₁ ∧ PathStore (c.reps i).kvMap := by
  obtain ⟨ops, hops⟩ := (h.replayed hG).1 i
  obtain ⟨tr₁, hpre, htr₁⟩ := exists_prefix_take tr ops.length
  have hmap : (c.reps i).kvMap = storeAt tr₁ := by
    rw [hops.kvMap, storeAt, htr₁, ← hops.eq_take (h.numbered hR hG)]
  exact ⟨tr₁, hpre, hmap, hmap ▸ h.pathStore hR hG hpre⟩

/-- **Every replica has a namespace**, the one the cluster stood for at some time of the run, and no call faults on
it. -/
theorem replicated_namespace {n : Nat} {c : Cluster} {tr : List Obs} (h : Runs n Rules.fresh c tr) (i : Nat) :
    (∃ tr₁, tr₁ <+: tr ∧ (c.reps i).kvMap = storeAt tr₁) ∧ Namespace (c.reps i).kvMap ∧
      ∀ now req, (c.reps i).act now (.clientCall req) ≠ .abort := by
  obtain ⟨tr₁, hpre, hmap, hpath⟩ := h.moves.storeAt_rep Rules.fresh_strict (Rules.fresh_gapless n) i
  exact ⟨⟨tr₁, hpre, hmap⟩, hpath.namespace, fun now req => hpath.clientCall_ne_abort now req⟩

theorem replicated_namespace_three : ∃ c tr, Runs 3 Rules.fresh c tr ∧ (c.reps 1).kvMap ≠ ∅ ∧
    Namespace (c.reps 1).kvMap := by
  obtain ⟨c, tr, h, hc⟩ := exists_runs (n := 3) (R := Rules.fresh) (settledEvents ++ changeEvents)
    (fun c _ => decide ((c.reps 1).kvMap ≠ ∅)) (by decide +kernel)
  exact ⟨c, tr, h, of_decide_eq_true hc, (replicated_namespace h 1).2.1⟩

/-- What a log has at a committed number is what passed under it. -/
theorem Moves.opAt_eq {n : Nat} {R : Rules} {c : Cluster} {tr : List Obs} (hR : R.Strict) (hG : R.Gapless n)
    (h : Moves n R c tr) {i k : Nat} (hs : (c.reps i).status ≠ .recovering) (hk : k < (c.reps i).commitNum) :
    (c.reps i).log.opAt (k + 1) = (passedOps tr)[k]? := by
  obtain ⟨ops, hops⟩ := (h.replayed hG).1 i
  obtain ⟨op, hop⟩ := hops.passedTo (k + 1) (by omega) hk
  obtain ⟨s, hr, hf⟩ := h.refines_strict hR
  have hi := hf.rep i hs
  have hnode := (hr.good trivial).node i
  rw [← hi.commit] at hk
  obtain ⟨a, ha, hchosen⟩ := hnode.committed (k + 1) (by omega) hk
  have heq := (hr.good trivial).chosen_unique hr.core (by omega) hchosen (hop.chosen h hf).2
  have hget := (getElem?_of_passed (h.numbered hR hG) hop).2
  rw [Nat.add_sub_cancel] at hget
  rw [← hi.log, hr.core.log_eq i (k + 1) (le_trans (Nat.succ_le_of_lt hk) hnode.commit_top), ha, heq, hget]

/-- **Committed entries are the history**: up to its commit number, the log of a replica that is not recovering lists
the operations in the order they passed. -/
theorem log_is_history {n : Nat} {c : Cluster} {tr : List Obs} (h : Runs n Rules.fresh c tr) {i : Nat}
    (hs : (c.reps i).status ≠ .recovering) : (c.reps i).commitNum ≤ (passedOps tr).length ∧
      ∀ k, k < (c.reps i).commitNum → (c.reps i).log.opAt (k + 1) = (passedOps tr)[k]? := by
  have hM := h.moves
  have hG := Rules.fresh_gapless n
  obtain ⟨ops, hops⟩ := (hM.replayed hG).1 i
  refine ⟨?_, fun k hk => hM.opAt_eq Rules.fresh_strict hG hs hk⟩
  rcases Nat.eq_zero_or_pos (c.reps i).commitNum with h0 | hpos
  · omega
  · obtain ⟨op, hop⟩ := hops.passedTo _ hpos (le_refl _)
    have := (List.getElem?_eq_some_iff.1 (getElem?_of_passed (hM.numbered Rules.fresh_strict hG) hop).2).1
    omega

theorem log_is_history_three : ∃ c tr, Runs 3 Rules.fresh c tr ∧ (c.reps 1).viewNum = 1 ∧
    (c.reps 1).log.opAt 1 = (passedOps tr)[0]? := by
  obtain ⟨c, tr, h, hc⟩ := exists_runs (n := 3) (R := Rules.fresh) (settledEvents ++ changeEvents)
    (fun c _ => decide ((c.reps 1).viewNum = 1) && decide ((c.reps 1).status ≠ .recovering) &&
      decide (0 < (c.reps 1).commitNum)) (by decide +kernel)
  simp only [Bool.and_eq_true, decide_eq_true_eq] at hc
  obtain ⟨⟨hv, hs⟩, hk⟩ := hc
  exact ⟨c, tr, h, hv, (log_is_history h hs).2 0 hk⟩

end MetaDR
