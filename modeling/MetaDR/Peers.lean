import MetaDR.Moves
/-!
# Peers — the configured peers stay what they are

`_replicas[i]` inserts a missing key.  Every index the server uses is one of its peers, as long as `processPrepInfo`
asks for the primary under the test it has made: then the map keeps its keys and every replica counts the same
majority.
-/
namespace MetaDR

/-- What a replica knows of the others. -/
structure Replica.Peers (n i : Nat) (r : Replica) : Prop where
  id_eq : r.id = i
  replicas_eq : r.replicas = (List.range n).filter (fun j => decide (j ≠ i))
  priId_lt : i < n → r.priId < n
  choosing_lt : ∀ info cnt c, r.hb = .choosing info cnt c → i < n → c < n
  starts_lt : ∀ w info, r.viewStartInfoMap.lookup w = some info → info.replicaId < n
  reqs : ∀ req ∈ r.recoveryReqQ, req.replicaId ∈ r.replicas
  checked : ∀ req, r.prr = .checked req → req.replicaId ∈ r.replicas

def Packet.Peers (n : Nat) (q : Packet) : Prop :=
  match q.msg with
  | .startView info => info.replicaId < n
  | .recoveryRequest req => req.replicaId < n ∧ req.replicaId ≠ q.dst
  | _ => True

theorem mem_filter_ne {n i j : Nat} : j ∈ (List.range n).filter (fun j => decide (j ≠ i)) ↔ j < n ∧ j ≠ i := by
  simp

theorem Replica.Peers.mem {n i j : Nat} {r : Replica} (h : r.Peers n i) : j ∈ r.replicas ↔ j < n ∧ j ≠ i := by
  rw [h.replicas_eq, mem_filter_ne]

theorem Replica.Peers.length {n i : Nat} {r : Replica} (h : r.Peers n i) (hi : i < n) : r.replicas.length = n - 1 := by
  have he : (List.range n).filter (fun j => decide (j ≠ i)) = (List.range n).erase i := by
    rw [List.Nodup.erase_eq_filter List.nodup_range]
    exact List.filter_congr (fun j _ => by by_cases hj : j = i <;> simp [hj])
  rw [h.replicas_eq, he, List.length_erase_of_mem (List.mem_range.2 hi), List.length_range]

/-- **Every replica counts the majority of the cluster.** -/
theorem Replica.Peers.majority {n i : Nat} {r : Replica} (h : r.Peers n i) (hi : i < n) :
    r.getMajorityCnt = n / 2 + 1 := by
  rw [Replica.getMajorityCnt, h.length hi, Nat.sub_add_cancel (by omega)]

theorem Replica.endPoint_replicas {r : Replica} {j : Nat} (hj : j ∈ r.replicas) :
    (r.endPoint j).replicas = r.replicas :=
  if_pos hj

theorem Replica.Peers.next_lt {n i c : Nat} {r : Replica} (h : r.Peers n i) (hi : i < n) :
    r.getNextPrimaryCandidate c < n := by
  have := h.length hi
  unfold Replica.getNextPrimaryCandidate
  split <;> omega

theorem peers_init (n i : Nat) : (Replica.init n i).Peers n i where
  id_eq := rfl
  replicas_eq := rfl
  priId_lt := fun h => by simp only [Replica.init]; omega
  choosing_lt := fun info cnt c h => by cases h
  starts_lt := fun w info h => by simp [Replica.init] at h
  reqs := fun req h => absurd h (by simp [Replica.init])
  checked := fun req h => by cases h

section

variable {n : Nat} {R : Rules}

theorem Replica.Peers.next {i c : Nat} {r : Replica} (h : r.Peers n i) (hi : i < n) (hc : c < n) (hne : c ≠ i) :
    (r.endPoint c).replicas = r.replicas ∧ (r.endPoint c).getNextPrimaryCandidate c < n := by
  have hrep : (r.endPoint c).replicas = r.replicas := Replica.endPoint_replicas (h.mem.2 ⟨hc, hne⟩)
  refine ⟨hrep, ?_⟩
  rw [Replica.getNextPrimaryCandidate, hrep]
  exact h.next_lt hi

theorem Replica.Peers.adopted {i : Nat} {r : Replica} (h : r.Peers n i) {info : ViewStartInfo} {kvMap : KvMap}
    (hlt : info.replicaId < n) : (r.adopted info kvMap).Peers n i :=
  { h with
    priId_lt := fun _ => hlt
    choosing_lt := fun _ _ _ hb => (by cases hb)
    starts_lt := fun w info' hw => (by simp [Replica.adopted] at hw) }

theorem Move.peers_rep (hR : R.atomic = true ∨ R.peersKept = true) {tr : List Obs} {i : Nat} {r r' : Replica}
    {msg : Option Msg} {sent : List Packet} {os : List Obs} (hi : i < n) (h : r.Peers n i)
    (hmsg : ∀ m, msg = some m → Packet.Peers n ⟨i, m⟩) (m : Move R tr r msg r' sent os) : r'.Peers n i := by
  obtain rfl := h.id_eq
  cases m with
  | ack prepInfo hpp hl hn ht hk =>
    -- the primary asked for is a peer: not the replica itself under the test, or kept
    have hmem : r.priId ∈ r.replicas := by
      rcases hR with ha | ha
      · obtain ⟨hne, -⟩ := Replica.prepInfoTest_eq_true.1 (ht ha)
        exact h.mem.2 ⟨h.priId_lt hi, hne.symm⟩
      · exact hk ha
    rw [Replica.endPoint_replicas hmem]
    exact { h with }
  | enter | startWait | giveUpView => exact { h with choosing_lt := fun _ _ _ hb => (by cases hb) }
  | vote v o info hb hinfo =>
    refine { h with choosing_lt := fun _ _ _ he hi => ?_ }
    cases he
    exact h.next_lt hi
  | candidate info cnt c sent hb hc hs =>
    obtain ⟨hrep, hlt⟩ := h.next hi (h.choosing_lt info cnt c hb hi) hc
    rw [hrep]
    refine { h with choosing_lt := fun _ _ _ he _ => ?_ }
    cases he
    exact hlt
  | select info cnt c sent hb hs =>
    have hlt := h.choosing_lt info cnt c hb hi
    have hrep : (if c = r.id then r.replicas else (r.endPoint c).replicas) = r.replicas := by
      split
      · rfl
      · rename_i hc
        exact (h.next hi hlt hc).1
    rw [hrep]
    refine { h with priId_lt := fun _ => hlt, choosing_lt := fun _ _ _ he => ?_ }
    simp only at he
    split at he <;> cases he
  | startPrimary => exact h.adopted hi
  | startBackup v info kvMap ops hb hinfo => exact h.adopted (h.starts_lt v info hinfo)
  | storeStart info hv hs =>
    refine { h with starts_lt := fun w info' hw => ?_ }
    simp only [lookup_insert_ite] at hw
    split at hw
    · cases hw
      exact hmsg _ rfl
    · exact h.starts_lt w info' hw
  | recover hb sent hs hh hm =>
    refine { h with choosing_lt := fun _ _ _ he => ?_ }
    rcases hh with ⟨t, rfl⟩ | ⟨t, rfl⟩ <;> cases he
  | recQueue req =>
    refine { h with reqs := fun req' hreq => ?_ }
    rcases List.mem_append.1 hreq with hreq | hreq
    · exact h.reqs req' hreq
    · obtain ⟨hlt, hne⟩ := hmsg _ rfl
      rw [List.mem_singleton.1 hreq]
      exact h.mem.2 ⟨hlt, hne⟩
  | recPop req rest prr hq hprr =>
    refine { h with reqs := fun req' hreq => h.reqs req' (hq ▸ List.mem_cons_of_mem _ hreq), checked := fun _ he => ?_ }
    rcases hprr with rfl | rfl <;> cases he
    exact h.reqs req (hq ▸ List.mem_cons_self)
  | recAnswer req resp hprr =>
    rw [Replica.endPoint_replicas (h.checked req hprr)]
    exact { h with checked := fun _ he => (by cases he) }
  | _ => exact { h with }

theorem Move.peers_sent {tr : List Obs} {r r' : Replica} {msg : Option Msg} {sent : List Packet} {os : List Obs}
    (hi : r.id < n) (m : Move R tr r msg r' sent os) : ∀ q ∈ sent, q.Peers n := by
  intro q hq
  cases m.sends q hq with
  | startView => exact hi
  | recoveryRequest d nonce hd => exact ⟨hi, hd.symm⟩
  | _ => trivial

theorem Moves.peers (hR : R.atomic = true ∨ R.peersKept = true) {c : Cluster} {tr : List Obs} (h : Moves n R c tr) :
    (∀ i, (c.reps i).Peers n i) ∧ ∀ q ∈ c.net, q.Peers n := by
  have hkeep := h.invariant (P := fun _ i r => r.Peers n i) (Q := fun _ q => q.Peers n) (T := fun _ _ => True)
    (fun _ _ _ _ _ h => h) (fun _ _ _ h => h) (fun _ _ _ h => h) (peers_init n) (fun _ _ _ h => { h with })
    (fun _ _ i _ _ _ => { peers_init n i with }) ?_
  · exact ⟨hkeep.1, hkeep.2.1⟩
  · intro c tr i p r' sent os _ hP hQ _ hi hp m
    exact ⟨m.peers_rep hR hi (hP i) (Cluster.of_taken hQ hp), m.peers_sent ((hP i).id_eq.symm ▸ hi), fun _ _ => trivial⟩

end

end MetaDR
