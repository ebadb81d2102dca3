import MetaDR.Agreement
/-!
# Store — where a key-value map comes from

Where each operation that passes its quorum check has the number after the commit number, and taking up a view changes
neither the map nor that number, every replica's map is what the operations that passed under `1 .. commitNum` leave, in
order (`Moves.replayed`).
-/
namespace MetaDR

/-- What the operation leaves at its key. -/
def Op.effect (op : Op) : Option Str :=
  match op.opType with
  | .update => some op.kvPair.val
  | .delete => none

theorem Op.lookup_apply (op : Op) (kvMap : KvMap) (key : Str) :
    (op.apply kvMap).lookup key = if key = op.kvPair.key then op.effect else kvMap.lookup key := by
  unfold apply effect
  cases op.opType with
  | update =>
    by_cases h : key = op.kvPair.key
    · subst h; rw [if_pos rfl]; exact Finmap.lookup_insert _
    · rw [if_neg h]; exact Finmap.lookup_insert_of_ne _ h
  | delete =>
    by_cases h : key = op.kvPair.key
    · subst h; rw [if_pos rfl]; exact Finmap.lookup_erase _ _
    · rw [if_neg h]; exact Finmap.lookup_erase_ne h

theorem Mutation.leave_eq (m : Mutation) (kvMap : KvMap) : m.leave kvMap = m.op.apply kvMap := by
  cases m <;> rfl

/-- What an operation says: an update puts its value at its key, a delete takes the key away. -/
def Op.write (kvMap : KvMap) (op : Op) : KvMap :=
  match op.opType with
  | .update => Finmap.insert op.kvPair.key op.kvPair.val kvMap
  | .delete => Finmap.erase op.kvPair.key kvMap

/-- What the operations leave of the empty map. -/
def applyAll (ops : List Op) : KvMap := ops.foldl Op.write ∅

/-- The callbacks do what the operations say. -/
theorem Op.apply_eq_write (op : Op) (kvMap : KvMap) : op.apply kvMap = op.write kvMap := by
  obtain ⟨opType, kvPair⟩ := op
  cases opType <;> rfl

theorem applyAll_concat (ops : List Op) (op : Op) : applyAll (ops ++ [op]) = op.apply (applyAll ops) := by
  rw [applyAll, List.foldl_append, List.foldl_cons, List.foldl_nil, Op.apply_eq_write, applyAll]

/-- **The last operation on a key decides what is there.** -/
theorem lookup_applyAll {ops : List Op} {a : Nat} {op : Op} (h : ops[a]? = some op) :
    (applyAll ops).lookup op.kvPair.key = op.effect ∨
      ∃ b op', a < b ∧ ops[b]? = some op' ∧ op'.kvPair.key = op.kvPair.key := by
  induction ops using List.reverseRecOn with
  | nil => simp at h
  | append_singleton ops x ih =>
    rw [applyAll_concat, Op.lookup_apply]
    rcases Nat.lt_or_ge a ops.length with ha | ha
    · rw [List.getElem?_append_left ha] at h
      by_cases hx : op.kvPair.key = x.kvPair.key
      · exact .inr ⟨ops.length, x, ha, by simp, hx.symm⟩
      · rw [if_neg hx]
        refine (ih h).imp id (fun ⟨b, op', hab, hb, hk⟩ => ⟨b, op', hab, ?_, hk⟩)
        rw [List.getElem?_append_left (List.getElem?_eq_some_iff.1 hb).1]
        exact hb
    · rw [List.getElem?_append_right ha] at h
      obtain ⟨-, rfl⟩ := by simpa [List.getElem?_singleton] using h
      exact .inl (if_pos rfl)

/-- The operation passed its quorum check under the number. -/
def Passed (tr : List Obs) (k : Nat) (op : Op) : Prop := ∃ q p, .quorum q p ∈ tr ∧ p.opNum = k ∧ p.op = op

/-- Something passed under every number up to `c`. -/
def PassedTo (tr : List Obs) (c : Nat) : Prop := ∀ k, 1 ≤ k → k ≤ c → ∃ op, Passed tr k op

theorem Passed.mono {tr os : List Obs} {k : Nat} {op : Op} (h : Passed tr k op) : Passed (tr ++ os) k op := by
  obtain ⟨q, p, hq, hk, ho⟩ := h
  exact ⟨q, p, List.mem_append_left _ hq, hk, ho⟩

theorem PassedTo.mono {tr os : List Obs} {c : Nat} (h : PassedTo tr c) : PassedTo (tr ++ os) c :=
  fun k h1 hk => (h k h1 hk).imp (fun _ ho => ho.mono)

theorem PassedTo.succ {tr : List Obs} {c : Nat} {op : Op} (h : PassedTo tr c) (ho : Passed tr (c + 1) op) :
    PassedTo tr (c + 1) := by
  intro k h1 hk
  rcases Nat.lt_or_eq_of_le hk with hlt | rfl
  · exact h k h1 (by omega)
  · exact ⟨op, ho⟩

/-- **The map and the operations it comes from**, one of which may still be on its way to the map. -/
structure Replica.Replayed (tr : List Obs) (r : Replica) (ops : List Op) : Prop where
  kvMap : r.kvMap = applyAll ops
  passed : ∀ a op, ops[a]? = some op → Passed tr (a + 1) op
  length : (∀ req m k, r.client ≠ .replicated req m k) → ops.length = r.commitNum
  pending : ∀ req m k, r.client = .replicated req m k → k = r.commitNum ∧ ops.length + 1 = k ∧ Passed tr k m.op

def Packet.PassedTo (tr : List Obs) (q : Packet) : Prop :=
  match q.msg with
  | .commit commitInfo => MetaDR.PassedTo tr commitInfo.commitNum
  | _ => True

def Obs.Passed (tr : List Obs) : Obs → Prop
  | .applied _ k op => MetaDR.Passed tr k op
  | _ => True

namespace Replica.Replayed

variable {tr os : List Obs} {r r' : Replica} {ops : List Op}

theorem passedTo (h : r.Replayed tr ops) : PassedTo tr r.commitNum := by
  intro k h1 hk
  have hlen : k ≤ ops.length → ∃ op, Passed tr k op := fun hle => by
    have := h.passed (k - 1) _ (List.getElem?_eq_getElem (by omega))
    rw [Nat.sub_add_cancel h1] at this
    exact ⟨_, this⟩
  by_cases hc : ∃ req m j, r.client = .replicated req m j
  · obtain ⟨req, m, j, hc⟩ := hc
    obtain ⟨rfl, hl, hp⟩ := h.pending req m j hc
    rcases Nat.lt_or_eq_of_le hk with hlt | rfl
    · exact hlen (by omega)
    · exact ⟨_, hp⟩
  · exact hlen (by rw [h.length (fun req m j he => hc ⟨req, m, j, he⟩)]; exact hk)

theorem keep (h : r.Replayed tr ops) (hm : r'.kvMap = r.kvMap) (hc : r'.commitNum = r.commitNum)
    (hcl : ∀ req m k, r'.client = .replicated req m k ↔ r.client = .replicated req m k) :
    r'.Replayed (tr ++ os) ops where
  kvMap := hm.trans h.kvMap
  passed := fun a op ho => (h.passed a op ho).mono
  length := fun hn => by rw [hc]; exact h.length (fun req m k he => hn req m k ((hcl req m k).2 he))
  pending := fun req m k he => by
    obtain ⟨h1, h2, h3⟩ := h.pending req m k ((hcl req m k).1 he)
    exact ⟨h1.trans hc.symm, h2, h3.mono⟩

theorem concat {op : Op} (h : r.Replayed tr ops) (ho : Passed (tr ++ os) (ops.length + 1) op)
    (hm : r'.kvMap = op.apply r.kvMap) (hc : ops.length + 1 = r'.commitNum) (hcl : r'.client = .idle) :
    r'.Replayed (tr ++ os) (ops ++ [op]) where
  kvMap := by rw [hm, h.kvMap, applyAll_concat]
  passed := fun a x hx => by
    rcases Nat.lt_or_ge a ops.length with ha | ha
    · rw [List.getElem?_append_left ha] at hx
      exact (h.passed a x hx).mono
    · rw [List.getElem?_append_right ha] at hx
      obtain ⟨ha', rfl⟩ := by simpa [List.getElem?_singleton] using hx
      obtain rfl : a = ops.length := by omega
      exact ho
  length := fun _ => by rw [List.length_append, List.length_singleton, hc]
  pending := fun req m k he => by rw [hcl] at he; cases he

end Replica.Replayed

section

variable {n : Nat} {R : Rules} {c : Cluster} {tr : List Obs}

/-- What this module asks of the runs: numbers pass one after the other, what is applied is what passed, and taking
up a view leaves the map and the commit number as they are. -/
structure Rules.Gapless (n : Nat) (R : Rules) : Prop where
  pass : ∀ commitNum opNum, R.pass commitNum opNum = true → opNum = commitNum + 1
  same : ∀ c tr r k op op', Moves n R c tr → .applied r k op ∈ tr → Passed tr k op' → op = op'
  adopt : ∀ c tr i (msg : Option Msg) r' sent os q b info, Moves n R c tr → i < n →
    Move R tr (c.reps i) msg r' sent os → .newView q b info ∈ os →
    r'.kvMap = (c.reps i).kvMap ∧ r'.commitNum = (c.reps i).commitNum ∧ os = [.newView q b info]

/-- The replica's map, and the commit number it has been told. -/
structure Replica.Stored (tr : List Obs) (r : Replica) : Prop where
  replayed : ∃ ops, r.Replayed tr ops
  listener : ∀ commitInfo, r.listener = some (.commit commitInfo) → PassedTo tr commitInfo.commitNum

theorem Replica.Stored.keep {os : List Obs} {r r' : Replica} (h : r.Stored tr) (hm : r'.kvMap = r.kvMap)
    (hc : r'.commitNum = r.commitNum) (hl : ∀ ci, r'.listener = some (.commit ci) → r.listener = some (.commit ci))
    (hcl : ∀ req m k, r'.client = .replicated req m k ↔ r.client = .replicated req m k) : r'.Stored (tr ++ os) where
  replayed := h.replayed.imp (fun _ ho => ho.keep hm hc hcl)
  listener := fun ci hci => (h.listener ci (hl ci hci)).mono

theorem Move.stored_rep (hR : R.Gapless n) (hM : Moves n R c tr) {i : Nat} (hi : i < n) {msg : Option Msg}
    {r' : Replica} {sent : List Packet} {os : List Obs} (h : (c.reps i).Stored tr)
    (hmsg : ∀ m, msg = some m → Packet.PassedTo tr ⟨i, m⟩) (hos : ∀ o ∈ os, o.Passed (tr ++ os))
    (m : Move R tr (c.reps i) msg r' sent os) : r'.Stored (tr ++ os) := by
  have hk := hM.known.1 i
  have hadopt := fun q b info (hx : .newView q b info ∈ os) => hR.adopt c tr i _ r' sent os q b info hM hi m hx
  obtain ⟨ops, hops⟩ := h.replayed
  have hsame : (c.reps i).Stored (tr ++ os) := h.keep rfl rfl (fun _ => id) (fun _ _ _ => .rfl)
  generalize c.reps i = r at *
  cases m with
  | passQuorum req m q log hc hq hpass hl =>
    have hlen := hops.length (fun _ _ _ he => by rw [hc] at he; cases he)
    have hn := hR.pass _ _ hpass
    refine { hsame with replayed := ⟨ops, hops.kvMap, fun a op ho => (hops.passed a op ho).mono,
      fun hne => absurd rfl (hne req m q.opNum), fun req' m' k he => ?_⟩ }
    cases he
    exact ⟨rfl, by rw [hlen, hn], r.id, q, by simp, rfl, (hk.waiting req m q (.inr hc)).2⟩
  | finish req m k hc =>
    obtain ⟨hk, rfl, hpassed⟩ := hops.pending req m k hc
    exact { hsame with replayed := ⟨ops ++ [m.op], hops.concat hpassed.mono (m.leave_eq _) hk rfl⟩ }
  | commitNext ci log entry hli hl ht hv hn hlog he hc =>
    have hlen := hops.length (fun _ _ _ he => by rw [hc] at he; cases he)
    have hop : Passed _ (r.commitNum + 1) entry.op := hos _ List.mem_cons_self
    exact {
      replayed := ⟨ops ++ [entry.op], hops.concat (by rw [hlen]; exact hop) rfl (congrArg Nat.succ hlen) hc⟩
      listener := fun _ hci => (by cases hci) }
  | listen ci =>
    refine ⟨⟨ops, hops.keep rfl rfl (fun _ _ _ => .rfl)⟩, fun _ hci => ?_⟩
    cases hci
    exact (hmsg _ rfl).mono
  | unlisten ci hc => exact ⟨⟨ops, hops.keep rfl rfl (fun _ _ _ => .rfl)⟩, fun _ hci => by cases hci⟩
  | startPrimary =>
    obtain ⟨hm, hc, -⟩ := hadopt r.id true _ (List.mem_append_right _ List.mem_cons_self)
    exact h.keep hm hc (fun _ => id) (fun _ _ _ => .rfl)
  | startBackup =>
    obtain ⟨hm, hc, -⟩ := hadopt r.id false _ (List.mem_append_right _ List.mem_cons_self)
    exact h.keep hm hc (fun _ => id) (fun _ _ _ => .rfl)
  | lock _ _ hc | refuse _ _ hc | prepare _ _ _ hc | countOwn _ _ _ hc | giveUp _ _ _ hc =>
    exact h.keep rfl rfl (fun _ => id) (by simp [hc])
  | takeOk | countOk | storeVote | countVote | storeStart =>
    exact h.keep rfl rfl (fun _ hci => by cases hci) (fun _ _ _ => .rfl)
  | _ => exact h.keep rfl rfl (fun _ => id) (fun _ _ _ => .rfl)

/-- A `Commit` is sent for a number up to which something passed. -/
theorem Move.stored_sent (hR : R.Gapless n) {r r' : Replica} {msg : Option Msg} {sent : List Packet} {os : List Obs}
    (h : r.Stored tr) (m : Move R tr r msg r' sent os) : ∀ q ∈ sent, q.PassedTo (tr ++ os) := by
  intro q hq
  obtain ⟨ops, hops⟩ := h.replayed
  cases m.sends q hq with
  | passed d p ho =>
    obtain ⟨-, -, hpass, -⟩ := m.of_quorum ho
    have hn := hR.pass _ _ hpass
    show MetaDR.PassedTo _ p.opNum
    rw [hn]
    exact hops.passedTo.mono.succ ⟨r.id, p, List.mem_append_right _ ho, hn, rfl⟩
  | beat d hs => exact hops.passedTo.mono
  | _ => trivial

/-- What a move applies has passed under its number. -/
theorem Move.stored_obs (hR : R.Gapless n) (hM : Moves n R c tr) {i : Nat} (hi : i < n) {p : Option Packet}
    (hp : ∀ q, p = some q → q ∈ c.net ∧ q.dst = i) {r' : Replica} {sent : List Packet} {os : List Obs}
    (h : (c.reps i).Stored tr) (m : Move R tr (c.reps i) (p.map Packet.msg) r' sent os) :
    ∀ o ∈ os, o.Passed (tr ++ os) := by
  have hnext := hM.step (.move i p r' sent os hi hp m)
  have hadopt := fun q b info (hx : .newView q b info ∈ os) => hR.adopt c tr i _ r' sent os q b info hM hi m hx
  obtain ⟨ops, hops⟩ := h.replayed
  generalize c.reps i = r at *
  generalize p.map Packet.msg = msg at m
  cases m with
  | finish req m k hc =>
    intro o ho
    rcases List.mem_cons.1 ho with rfl | ho
    · exact (hops.pending req m k hc).2.2.mono
    · rw [List.mem_singleton.1 ho]
      trivial
  | commitNext ci log entry hli hl ht hv hn hlog he hc =>
    intro o ho
    obtain ⟨op, hop⟩ := h.listener ci hli (r.commitNum + 1) (by omega) hn
    have hsame : entry.op = op :=
      hR.same _ _ r.id _ _ _ hnext (List.mem_append_right _ List.mem_cons_self) hop.mono
    rw [List.mem_singleton.1 ho]
    exact hsame ▸ hop.mono
  | startPrimary =>
    obtain ⟨-, -, hos⟩ := hadopt r.id true _ (List.mem_append_right _ List.mem_cons_self)
    rw [hos]
    simp [Obs.Passed]
  | startBackup =>
    obtain ⟨-, -, hos⟩ := hadopt r.id false _ (List.mem_append_right _ List.mem_cons_self)
    rw [hos]
    simp [Obs.Passed]
  | _ => simp [Obs.Passed]

/-- **Every map comes of what passed**, one number after the other; and what is applied passed under its number. -/
theorem Moves.replayed (hR : R.Gapless n) (h : Moves n R c tr) :
    (∀ i, ∃ ops, (c.reps i).Replayed tr ops) ∧ ∀ o ∈ tr, o.Passed tr := by
  have hinit : ∀ (tr : List Obs) (r : Replica), r.kvMap = ∅ → r.commitNum = 0 → r.client = .idle → r.listener = none →
      r.Stored tr := fun tr r hm hc hcl hl =>
    ⟨⟨[], hm, by simp, fun _ => hc.symm, fun req m k he => by rw [hcl] at he; cases he⟩,
      fun ci hci => by rw [hl] at hci; cases hci⟩
  obtain ⟨h1, -, h3⟩ := h.invariant (P := fun tr _ r => r.Stored tr) (Q := fun tr q => q.PassedTo tr)
    (T := fun tr o => o.Passed tr) (fun _ _ _ _ _ h => h.keep rfl rfl (fun _ => id) (fun _ _ _ => .rfl))
    (fun tr os q h => by
      unfold Packet.PassedTo at h ⊢
      split at h
      · exact h.mono
      · trivial)
    (fun tr os o h => by
      unfold Obs.Passed at h ⊢
      split at h
      · exact h.mono
      · trivial)
    (fun i => hinit [] _ rfl rfl rfl rfl)
    (fun _ _ _ h => ⟨h.replayed.imp (fun _ ho => ⟨ho.1, ho.2, ho.3, ho.4⟩), h.listener⟩)
    (fun _ _ _ _ _ _ => hinit _ _ rfl rfl rfl rfl)
    (fun c tr i p r' sent os hM hP hQ _ hi hp m =>
      have hos := m.stored_obs hR hM hi hp (hP i)
      ⟨m.stored_rep hR hM hi (hP i) (Cluster.of_taken hQ hp) hos, m.stored_sent hR (hP i), hos⟩)
  exact ⟨fun i => (h1 i).replayed, h3⟩

end

end MetaDR
