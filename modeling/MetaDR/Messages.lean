import MetaDR.Moves
/-!
# Messages — what a message or an observation says once happened

Every message in flight, and everything a replica has queued or stored from one, was sent by the replica it names, and
the section that sent it let it be seen.
-/
namespace MetaDR

/-- The message says what was seen. -/
def Packet.Known (tr : List Obs) (q : Packet) : Prop :=
  match q.msg with
  | .prepare prepInfo => ∃ r, .prepared r prepInfo ∈ tr
  | .prepareOk resp => ∃ prepInfo, .acked resp.replicaId prepInfo resp ∈ tr
  | .doViewChange info => .voted info.replicaId info ∈ tr ∧ info.replicaId ≠ q.dst
  | .startView info => .newView info.replicaId true info ∈ tr ∧ info.replicaId ≠ q.dst
  | _ => True

/-- What was seen before the observation. -/
def Obs.Known (R : Rules) (tr : List Obs) : Obs → Prop
  | .voted r info => info.replicaId = r ∧ info.opNum = info.commitNum
  | .newView r true info => info.replicaId = r
  | .newView r false info => .newView info.replicaId true info ∈ tr ∧ info.replicaId ≠ r
  | .acked r prepInfo resp =>
    (∃ q, .prepared q prepInfo ∈ tr) ∧ resp.replicaId = r ∧ resp.opNum = prepInfo.opNum ∧
      (R.atomic = true → resp.viewNum = prepInfo.viewNum)
  | .counted _ resp => ∃ prepInfo, .acked resp.replicaId prepInfo resp ∈ tr
  | .quorum r prepInfo => .prepared r prepInfo ∈ tr
  | _ => True

/-- What a replica holds says what was seen. -/
structure Replica.Known (tr : List Obs) (i : Nat) (r : Replica) : Prop where
  id_eq : r.id = i
  queue : ∀ prepInfo ∈ r.prepReqQ, ∃ q, .prepared q prepInfo ∈ tr
  ppit : ∀ prepInfo, r.ppit = some prepInfo → ∃ q, .prepared q prepInfo ∈ tr
  votes : ∀ w info, info ∈ (r.viewChangeInfoMap.lookup w).getD [] → info.viewNum = w ∧ .voted info.replicaId info ∈ tr
  starts : ∀ w info, r.viewStartInfoMap.lookup w = some info → info.viewNum = w ∧
    .newView info.replicaId true info ∈ tr ∧ info.replicaId ≠ i
  choosing : ∀ info cnt c, r.hb = .choosing info cnt c → .voted i info ∈ tr ∧ info.replicaId = i
  waiting : ∀ req m prepInfo, (r.client = .prepared req m prepInfo ∨ r.client = .waiting req m prepInfo) →
    .prepared i prepInfo ∈ tr ∧ prepInfo.op = m.op
  replicated : ∀ req m k, r.client = .replicated req m k →
    ∃ prepInfo, .quorum i prepInfo ∈ tr ∧ prepInfo.opNum = k ∧ prepInfo.op = m.op
  counting : ∀ resp, r.listener = some (.prepareOk resp) → ∃ prepInfo, .acked resp.replicaId prepInfo resp ∈ tr

theorem known_init (n i : Nat) : (Replica.init n i).Known [] i := by
  constructor <;> simp [Replica.init]

theorem Packet.Known.mono {tr os : List Obs} {q : Packet} (h : q.Known tr) : q.Known (tr ++ os) := by
  have hl : ∀ o ∈ tr, o ∈ tr ++ os := fun _ ho => List.mem_append_left _ ho
  unfold Known at h ⊢
  split at h
  · exact h.imp (fun _ h => hl _ h)
  · exact h.imp (fun _ h => hl _ h)
  · exact ⟨hl _ h.1, h.2⟩
  · exact ⟨hl _ h.1, h.2⟩
  · trivial

theorem Obs.Known.mono {R : Rules} {tr os : List Obs} {o : Obs} (h : o.Known R tr) : o.Known R (tr ++ os) := by
  have hl : ∀ o ∈ tr, o ∈ tr ++ os := fun _ ho => List.mem_append_left _ ho
  unfold Known at h ⊢
  split at h
  · exact h
  · exact h
  · exact ⟨hl _ h.1, h.2⟩
  · exact ⟨h.1.imp (fun _ h => hl _ h), h.2⟩
  · exact h.imp (fun _ h => hl _ h)
  · exact hl _ h
  · trivial

theorem Replica.Known.mono {tr os : List Obs} {i : Nat} {r : Replica} (h : r.Known tr i) : r.Known (tr ++ os) i where
  id_eq := h.id_eq
  queue := fun p hp => (h.queue p hp).imp (fun _ h => List.mem_append_left _ h)
  ppit := fun p hp => (h.ppit p hp).imp (fun _ h => List.mem_append_left _ h)
  votes := fun w info hi => ⟨(h.votes w info hi).1, List.mem_append_left _ (h.votes w info hi).2⟩
  starts := fun w info hi =>
    have ⟨h1, h2, h3⟩ := h.starts w info hi
    ⟨h1, List.mem_append_left _ h2, h3⟩
  choosing := fun info cnt c hb => ⟨List.mem_append_left _ (h.choosing info cnt c hb).1, (h.choosing info cnt c hb).2⟩
  waiting := fun req m p hc => ⟨List.mem_append_left _ (h.waiting req m p hc).1, (h.waiting req m p hc).2⟩
  replicated := fun req m k hc => (h.replicated req m k hc).imp (fun _ h => ⟨List.mem_append_left _ h.1, h.2⟩)
  counting := fun resp hi => (h.counting resp hi).imp (fun _ h => List.mem_append_left _ h)

section

variable {n : Nat} {R : Rules}

theorem mem_applied_append {r : Nat} {ops : List (Nat × Op)} {o : Obs} {os : List Obs}
    (h : o ∈ ops.map (fun p => Obs.applied r p.1 p.2) ++ os) : (∃ k op, o = .applied r k op) ∨ o ∈ os := by
  rcases List.mem_append.1 h with h | h
  · obtain ⟨p, -, rfl⟩ := List.mem_map.1 h
    exact .inl ⟨p.1, p.2, rfl⟩
  · exact .inr h

theorem Replica.Known.storeVote {tr : List Obs} {i : Nat} {r : Replica} (h : r.Known tr i) {info : ViewChangeInfo}
    (hv : .voted info.replicaId info ∈ tr) :
    ∀ w x, x ∈ ((r.viewChangeInfoMap.insert info.viewNum
        ((r.viewChangeInfoMap.lookup info.viewNum).getD [] ++ [info])).lookup w).getD [] →
      x.viewNum = w ∧ .voted x.replicaId x ∈ tr := by
  intro w x hx
  simp only [lookup_insert_ite] at hx
  split at hx
  · rename_i hw
    subst hw
    rcases List.mem_append.1 hx with hx | hx
    · exact h.votes _ x hx
    · rw [List.mem_singleton.1 hx]
      exact ⟨rfl, hv⟩
  · exact h.votes w x hx

/-- Taking up a view drops the stored messages and nothing else that is known. -/
theorem Replica.Known.adopted {tr : List Obs} {i : Nat} {r : Replica} (h : r.Known tr i) (info : ViewStartInfo)
    (kvMap : KvMap) : (r.adopted info kvMap).Known tr i :=
  { h with
    votes := fun w x hx => (by simp [Replica.adopted] at hx)
    starts := fun w x hx => (by simp [Replica.adopted] at hx)
    choosing := fun _ _ _ hb => (by cases hb) }

theorem Move.known_rep {tr : List Obs} {i : Nat} {r r' : Replica} {msg : Option Msg} {sent : List Packet}
    {os : List Obs} (h : r.Known tr i) (hmsg : ∀ m, msg = some m → Packet.Known tr ⟨i, m⟩)
    (m : Move R tr r msg r' sent os) : r'.Known (tr ++ os) i := by
  replace hmsg : ∀ m, msg = some m → Packet.Known (tr ++ os) ⟨i, m⟩ := fun m hm => (hmsg m hm).mono
  replace h : r.Known (tr ++ os) i := h.mono
  obtain rfl := h.id_eq
  cases m with
  | lock | refuse | giveUp | finish =>
    exact { h with waiting := fun _ _ _ hc => (by simp at hc), replicated := fun _ _ _ hc => (by cases hc) }
  | prepare req m prepInfo hc hl hpri hs hv hn ho hR =>
    refine { h with waiting := fun _ _ _ hc => ?_, replicated := fun _ _ _ hc => (by cases hc) }
    simp only [ClientPc.prepared.injEq, reduceCtorEq, or_false] at hc
    obtain ⟨rfl, rfl, rfl⟩ := hc
    exact ⟨by simp, ho⟩
  | countOwn req m prepInfo hc =>
    refine { h with waiting := fun _ _ _ hw => ?_, replicated := fun _ _ _ hw => (by cases hw) }
    simp only [ClientPc.waiting.injEq, reduceCtorEq, false_or] at hw
    obtain ⟨rfl, rfl, rfl⟩ := hw
    exact h.waiting _ _ _ (.inl hc)
  | passQuorum req m prepInfo log hc hq hR hl =>
    refine { h with waiting := fun _ _ _ hw => (by simp at hw), replicated := fun _ _ _ hr => ?_ }
    simp only [ClientPc.replicated.injEq] at hr
    obtain ⟨rfl, rfl, rfl⟩ := hr
    exact ⟨prepInfo, by simp, rfl, (h.waiting _ _ _ (.inr hc)).2⟩
  | queue prepInfo hs hv =>
    refine { h with queue := fun q hq => ?_ }
    rcases List.mem_append.1 hq with hq | hq
    · exact h.queue q hq
    · rw [List.mem_singleton.1 hq]
      exact hmsg _ rfl
  | pop prepInfo rest ppit hq hpp =>
    refine { h with queue := fun q hr => h.queue q (hq ▸ List.mem_cons_of_mem _ hr), ppit := fun q hs => ?_ }
    rcases hpp with rfl | rfl <;> cases hs
    exact h.queue _ (hq ▸ List.mem_cons_self)
  | ack => exact { h with ppit := fun _ hp => (by cases hp) }
  | takeOk resp hs hv =>
    refine { h with counting := fun _ hi => ?_ }
    cases hi
    exact hmsg _ rfl
  | countOk | listen | unlisten | commitNext | countVote => exact { h with counting := fun _ hi => (by cases hi) }
  | enter | startWait | giveUpView => exact { h with choosing := fun _ _ _ hb => (by cases hb) }
  | vote v o info hb hinfo =>
    have hid : info.replicaId = r.id := by rw [hinfo]
    have hv : info.viewNum = v := by rw [hinfo]
    have hvoted : Obs.voted info.replicaId info ∈ tr ++ [.voted r.id info] := by rw [hid]; simp
    subst hv
    refine { h with
      votes := h.storeVote hvoted
      choosing := fun x cnt c hb => ?_ }
    cases hb
    exact ⟨hid ▸ hvoted, hid⟩
  | candidate info cnt c sent hb hc hs =>
    refine { h with choosing := fun x cnt' c' he => ?_ }
    cases he
    exact h.choosing _ _ _ hb
  | select info cnt c sent hb hs =>
    refine { h with choosing := fun x cnt' c' he => ?_ }
    simp only at he
    split at he <;> cases he
  | startPrimary | startBackup => exact h.adopted _ _
  | storeVote info hv hs =>
    exact { h with
      votes := h.storeVote (hmsg _ rfl).1
      counting := fun _ hi => (by cases hi) }
  | storeStart info hv hs =>
    refine { h with
      starts := fun w x hx => ?_
      counting := fun _ hi => (by cases hi) }
    simp only [lookup_insert_ite] at hx
    split at hx
    · rename_i hw
      cases hx
      exact ⟨hw.symm, hmsg _ rfl⟩
    · exact h.starts w x hx
  | recover hb sent hs hh hm =>
    refine { h with choosing := fun _ _ _ he => ?_ }
    rcases hh with ⟨t, rfl⟩ | ⟨t, rfl⟩ <;> cases he
  | _ => exact { h with }

theorem Move.known_sent {tr : List Obs} {i : Nat} {r r' : Replica} {msg : Option Msg} {sent : List Packet}
    {os : List Obs} (h : r.Known tr i) (m : Move R tr r msg r' sent os) : ∀ q ∈ sent, q.Known (tr ++ os) := by
  intro q hq
  obtain rfl := h.id_eq
  cases m.sends q hq with
  | prepare d prepInfo ho => exact ⟨r.id, List.mem_append_right _ ho⟩
  | prepareOk prepInfo ho => exact ⟨prepInfo, List.mem_append_right _ ho⟩
  | doViewChange d info cnt hb hd =>
    obtain ⟨hv, hid⟩ := h.choosing _ _ _ hb
    refine ⟨List.mem_append_left _ (hid.symm ▸ hv), ?_⟩
    rw [hid]
    exact hd.symm
  | startView d candidate hd ho => exact ⟨List.mem_append_right _ ho, hd.symm⟩
  | _ => trivial

theorem Move.known_obs {tr : List Obs} {i : Nat} {r r' : Replica} {msg : Option Msg} {sent : List Packet}
    {os : List Obs} (h : r.Known tr i) (hmsg : ∀ m, msg = some m → Packet.Known tr ⟨i, m⟩)
    (m : Move R tr r msg r' sent os) : ∀ o ∈ os, o.Known R (tr ++ os) := by
  obtain rfl := h.id_eq
  cases m with
  | passQuorum req m prepInfo log hc hq hR hl =>
    intro o ho
    rcases List.mem_cons.1 ho with rfl | ho
    · exact List.mem_append_left _ (h.waiting _ _ _ (.inr hc)).1
    · rw [List.mem_singleton.1 ho]; trivial
  | ack prepInfo hpp hl hn ht hk =>
    intro o ho
    rw [List.mem_singleton.1 ho]
    exact ⟨(h.ppit _ hpp).imp (fun _ hq => List.mem_append_left _ hq), rfl, rfl,
      fun ha => (Replica.prepInfoTest_eq_true.1 (ht ha)).2.2.symm⟩
  | countOk resp hi hR =>
    intro o ho
    rw [List.mem_singleton.1 ho]
    exact (h.counting resp hi).imp (fun _ h => List.mem_append_left _ h)
  | vote v o info hb hinfo =>
    intro o ho
    rw [List.mem_singleton.1 ho, hinfo]
    exact ⟨rfl, rfl⟩
  | startPrimary v votes cand kvMap ops hb hv hq hc hn hR hA ha hs =>
    intro o ho
    rcases mem_applied_append ho with ⟨k, op, rfl⟩ | ho
    · trivial
    · rw [List.mem_singleton.1 ho]; exact rfl
  | startBackup v info kvMap ops hb hinfo hn hA ha hs =>
    intro o ho
    rcases mem_applied_append ho with ⟨k, op, rfl⟩ | ho
    · trivial
    · obtain ⟨-, hnew, hne⟩ := h.starts v info hinfo
      rw [List.mem_singleton.1 ho]
      exact ⟨List.mem_append_left _ hnew, hne⟩
  | _ => simp [Obs.Known]

/-- **Messages, queues and observations say what was seen.** -/
theorem Moves.known {c : Cluster} {tr : List Obs} (h : Moves n R c tr) :
    (∀ i, (c.reps i).Known tr i) ∧ (∀ q ∈ c.net, q.Known tr) ∧ ∀ o ∈ tr, o.Known R tr := by
  refine h.invariant (P := fun tr i r => r.Known tr i) (Q := fun tr q => q.Known tr) (T := fun tr o => o.Known R tr)
    (fun _ _ _ _ _ h => h.mono) (fun _ _ _ h => h.mono) (fun _ _ _ h => h.mono) (known_init n)
    (fun _ _ _ h => { h with }) (fun _ _ i _ _ _ => ?_) ?_
  · constructor <;> simp [Replica.recovering, Replica.init]
  · intro c tr i p r' sent os _ hP hQ _ _ hp m
    have hmsg := Cluster.of_taken hQ hp
    exact ⟨m.known_rep (hP i) hmsg, m.known_sent (hP i), m.known_obs (hP i) hmsg⟩

end

end MetaDR
