import MetaDR.Namespace
/-!
# PathMap — the store as a map from component lists

The abstract store is a function from component lists to values, given by the history of calls and replies alone
(`lastWrite`): a `create` or `set` that answered `NONE` writes, a `remove` that answered `NONE` erases, and nothing else
counts.  The map of `KvMemStore` simulates it along every run (`Simulates.serveAll`).
-/
namespace MetaDR

/-- What one answered call does to the value at `ps`. -/
def writeOf (ps : List Str) (old : Option Str) : Req × Result → Option Str
  | (.create arg, .err .none) => if comps arg.key = ps then some arg.val else old
  | (.set arg, .err .none) => if comps arg.key = ps then some arg.val else old
  | (.remove arg, .err .none) => if comps arg = ps then none else old
  | _ => old

/-- The value of the last `create` or `set` at `ps` that answered `NONE`, unless a `remove` that answered `NONE` came
after it. -/
def lastWrite (hist : List (Req × Result)) (ps : List Str) : Option Str := hist.foldl (writeOf ps) none

/-- The map holds, at the key of each path, what the history wrote there. -/
structure Simulates (kvMap : KvMap) (hist : List (Req × Result)) : Prop where
  store : PathStore kvMap
  lookup : ∀ ps, IsPath ps → kvMap.lookup (pathKey ps) = lastWrite hist ps

/-- Two spellings of a key: the same components, between slashes in any number. -/
structure Spelling (s t : Str) : Prop where
  comps_eq : comps s = comps t
  starts : s.head? = some slash ↔ t.head? = some slash
  ends : s.getLast? = some slash ↔ t.getLast? = some slash

/-- The same request with its key argument respelled. -/
inductive Req.Respelled : Req → Req → Prop
  | create {s t : Str} (h : Spelling s t) (v : Str) : Respelled (.create ⟨s, v⟩) (.create ⟨t, v⟩)
  | remove {s t : Str} (h : Spelling s t) : Respelled (.remove s) (.remove t)
  | set {s t : Str} (h : Spelling s t) (v : Str) : Respelled (.set ⟨s, v⟩) (.set ⟨t, v⟩)
  | get {s t : Str} (h : Spelling s t) : Respelled (.get s) (.get t)
  | list (s : Str) : Respelled (.list s) (.list s)

theorem lastWrite_snoc (hist : List (Req × Result)) (c : Req × Result) (ps : List Str) :
    lastWrite (hist ++ [c]) ps = writeOf ps (lastWrite hist ps) c := by simp [lastWrite]

theorem writeOf_err {ps : List Str} {old : Option Str} {req : Req} {res : Result} (h : res ≠ .err .none) :
    writeOf ps old (req, res) = old := by
  cases req <;> cases res <;> first | rfl | (rename_i e; cases e <;> first | rfl | exact absurd rfl h)

theorem Simulates.mem_iff {kvMap : KvMap} {hist : List (Req × Result)} (h : Simulates kvMap hist) {ps : List Str}
    (hp : IsPath ps) : pathKey ps ∈ kvMap ↔ lastWrite hist ps ≠ none := by
  rw [← h.lookup ps hp, Finmap.mem_iff, Option.ne_none_iff_exists']

theorem lookup_setInt {kvMap : KvMap} {ps qs : List Str} (hp : IsPath ps) (hq : IsPath qs) (v : Str) :
    (KvMemStore.setInt kvMap (pathKey qs) v).lookup (pathKey ps) =
      if qs = ps then some v else kvMap.lookup (pathKey ps) := by
  by_cases h : qs = ps
  · subst h; rw [if_pos rfl]; exact Finmap.lookup_insert kvMap
  · rw [if_neg h]
    exact Finmap.lookup_insert_of_ne kvMap (fun he => h (pathKey_inj hp hq he).symm)

theorem lookup_erase {kvMap : KvMap} {ps qs : List Str} (hp : IsPath ps) (hq : IsPath qs) :
    (kvMap.erase (pathKey qs)).lookup (pathKey ps) = if qs = ps then none else kvMap.lookup (pathKey ps) := by
  by_cases h : qs = ps
  · subst h; rw [if_pos rfl]; exact Finmap.lookup_erase _ kvMap
  · rw [if_neg h]
    exact Finmap.lookup_erase_ne (fun he => h (pathKey_inj hp hq he).symm)

/-- What a call that reached the store wrote, once the replicator returned: the front's mutation is the request's. -/
theorem Simulates.leave {kvMap : KvMap} {hist : List (Req × Result)} (h : Simulates kvMap hist) {req : Req}
    {m : Mutation} (hf : req.front true kvMap = .ok (.mutate m)) (ps : List Str) (hp : IsPath ps) :
    (m.leave kvMap).lookup (pathKey ps) = writeOf ps (lastWrite hist ps) (req, .err .none) := by
  cases req with
  | create arg =>
    by_cases hw : WellFormed arg.key
    · rw [Req.front, create_wellFormed kvMap hw] at hf
      split at hf
      · cases hf
      · split at hf
        · cases hf
        · cases hf
          rw [Mutation.leave, lookup_setInt hp hw.isPath, h.lookup ps hp, writeOf]
    · rw [Req.front, create_malformed kvMap hw] at hf; cases hf
  | remove arg =>
    by_cases hw : WellFormed arg
    · rw [Req.front, remove_wellFormed kvMap hw] at hf
      split at hf
      · cases hf
      · split at hf
        · cases hf
        · cases hf
          rw [Mutation.leave, lookup_erase hp hw.isPath, h.lookup ps hp, writeOf]
    · rw [Req.front, remove_malformed kvMap hw] at hf; cases hf
  | set arg =>
    by_cases hw : WellFormed arg.key
    · rw [Req.front, set_wellFormed kvMap hw] at hf
      split at hf
      · cases hf
      · cases hf
        rw [Mutation.leave, lookup_setInt hp hw.isPath, h.lookup ps hp, writeOf]
    · rw [Req.front, set_malformed kvMap hw] at hf; cases hf
  | get arg =>
    by_cases hw : WellFormed arg
    · rw [Req.front, get_wellFormed kvMap hw] at hf; cases hf
    · rw [Req.front, get_malformed kvMap hw] at hf; cases hf
  | list arg =>
    by_cases hr : arg = [slash]
    · subst hr
      obtain ⟨ns, hns⟩ := h.store.listNames []
      rw [Req.front, list_root, hns] at hf; cases hf
    · by_cases hw : WellFormed arg
      · rw [Req.front, list_wellFormed kvMap hw] at hf
        obtain ⟨ns, hns⟩ := h.store.listNames (pathKey (comps arg))
        rw [hns] at hf
        split at hf <;> cases hf
      · rw [Req.front, list_malformed kvMap hr hw] at hf; cases hf

theorem PathStore.front_reply {kvMap : KvMap} (h : PathStore kvMap) {req : Req} {res : Result}
    (hf : req.front true kvMap = .ok (.reply res)) : res ≠ .err .none := by
  cases req with
  | create arg =>
    by_cases hw : WellFormed arg.key
    · rw [Req.front, create_wellFormed kvMap hw] at hf
      split at hf
      · cases hf; simp
      · split at hf <;> cases hf
        simp
    · rw [Req.front, create_malformed kvMap hw] at hf; cases hf; simp
  | remove arg =>
    by_cases hw : WellFormed arg
    · rw [Req.front, remove_wellFormed kvMap hw] at hf
      split at hf
      · cases hf; simp
      · split at hf <;> cases hf
        simp
    · rw [Req.front, remove_malformed kvMap hw] at hf; cases hf; simp
  | set arg =>
    by_cases hw : WellFormed arg.key
    · rw [Req.front, set_wellFormed kvMap hw] at hf
      split at hf <;> cases hf
      simp
    · rw [Req.front, set_malformed kvMap hw] at hf; cases hf; simp
  | get arg =>
    by_cases hw : WellFormed arg
    · rw [Req.front, get_wellFormed kvMap hw] at hf
      cases hf
      split <;> simp
    · rw [Req.front, get_malformed kvMap hw] at hf; cases hf; simp
  | list arg =>
    by_cases hr : arg = [slash]
    · subst hr
      obtain ⟨ns, hns⟩ := h.listNames []
      rw [Req.front, list_root, hns] at hf; cases hf; simp
    · by_cases hw : WellFormed arg
      · rw [Req.front, list_wellFormed kvMap hw] at hf
        obtain ⟨ns, hns⟩ := h.listNames (pathKey (comps arg))
        rw [hns] at hf
        split at hf <;> cases hf <;> simp
      · rw [Req.front, list_malformed kvMap hr hw] at hf; cases hf; simp

/-- **Only a call that answers `NONE` changes the map.** -/
theorem PathStore.serve_eq {kvMap kvMap' : KvMap} (h : PathStore kvMap) {req : Req} {rep : Replicated} {res : Result}
    (hs : MetaDR.serve true kvMap req rep = .ok (kvMap', res)) :
    (res ≠ .err .none ∧ kvMap' = kvMap) ∨
      (res = .err .none ∧ rep = .done ∧ ∃ m, req.front true kvMap = .ok (.mutate m) ∧ kvMap' = m.leave kvMap) := by
  obtain ⟨f, hf, hsound⟩ := h.front req
  rw [MetaDR.serve, hf] at hs
  cases f with
  | reply r =>
    cases hs
    exact .inl ⟨h.front_reply hf, rfl⟩
  | mutate m =>
    simp only [bind, Except.bind, hsound.1] at hs
    cases rep with
    | done => cases hs; exact .inr ⟨rfl, rfl, m, hf, rfl⟩
    | quorumNotReached => cases hs; exact .inl ⟨by simp, rfl⟩
    | replicaStateNotNormal => cases hs; exact .inl ⟨by simp, rfl⟩

/-- **The step lemma**: one call keeps the simulation. -/
theorem Simulates.serve {kvMap kvMap' : KvMap} {hist : List (Req × Result)} (h : Simulates kvMap hist) {req : Req}
    {rep : Replicated} {res : Result} (hs : MetaDR.serve true kvMap req rep = .ok (kvMap', res)) :
    Simulates kvMap' (hist ++ [(req, res)]) := by
  obtain ⟨kv₂, res₂, hs₂, hp⟩ := h.store.serve req rep
  rw [hs] at hs₂
  cases hs₂
  refine ⟨hp, fun ps hps => ?_⟩
  rw [lastWrite_snoc]
  rcases h.store.serve_eq hs with ⟨hr, rfl⟩ | ⟨rfl, -, m, hf, rfl⟩
  · rw [writeOf_err hr, h.lookup ps hps]
  · exact h.leave hf ps hps

/-- **The run lemma**: a run of calls keeps the simulation. -/
theorem Simulates.serveAll : ∀ (calls : List (Req × Replicated)) {kvMap kvMap' : KvMap} {hist : List (Req × Result)}
    {ress : List Result}, Simulates kvMap hist → MetaDR.serveAll true kvMap calls = .ok (kvMap', ress) →
    Simulates kvMap' (hist ++ (calls.map Prod.fst).zip ress)
  | [], _, _, _, _, h, hs => by cases hs; simpa using h
  | (req, rep) :: calls, kvMap, kvMap', hist, ress, h, hs => by
    obtain ⟨kv₁, res, h₁, -⟩ := h.store.serve req rep
    simp only [MetaDR.serveAll, h₁, bind, Except.bind] at hs
    split at hs
    · cases hs
    · rename_i p hp
      cases hs
      have := Simulates.serveAll calls (h.serve h₁) hp
      simpa using this

theorem simulates_empty : Simulates ∅ [] := ⟨pathStore_empty, fun _ _ => Finmap.lookup_empty _⟩

theorem chars_iff_comps (s : Str) :
    (∀ c ∈ s, c = slash ∨ isWordChar c = true) ↔ ∀ p ∈ comps s, ∀ c ∈ p, isWordChar c = true := by
  constructor
  · intro h p hp c hc
    exact (h c (Split.mem_of_mem_pieces hp hc)).resolve_left (fun hs => (comps_proper s p hp).2 (hs ▸ hc))
  · intro h c hc
    by_cases hs : c = slash
    · exact .inl hs
    · obtain ⟨p, hp, hcp⟩ := Split.mem_pieces_of_mem hc hs
      exact .inr (h p hp c hcp)

theorem Spelling.symm {s t : Str} (h : Spelling s t) : Spelling t s := ⟨h.comps_eq.symm, h.starts.symm, h.ends.symm⟩

theorem Spelling.wellFormed {s t : Str} (h : Spelling s t) (hs : WellFormed s) : WellFormed t where
  starts := h.starts.1 hs.starts
  ends := fun he => hs.ends (h.ends.2 he)
  chars := (chars_iff_comps t).2 (by rw [← h.comps_eq]; exact (chars_iff_comps s).1 hs.chars)

/-- **A respelled request gets as far as the original, with the same reply or mutation.** -/
theorem Req.Respelled.front_eq {req req' : Req} (h : req.Respelled req') (kvMap : KvMap) :
    req'.front true kvMap = req.front true kvMap := by
  cases h with
  | @create s t h v =>
    by_cases hw : WellFormed s
    · rw [Req.front, Req.front, @create_wellFormed kvMap ⟨s, v⟩ hw,
        @create_wellFormed kvMap ⟨t, v⟩ (h.wellFormed hw)]
      simp only [h.comps_eq]
    · rw [Req.front, Req.front, @create_malformed kvMap ⟨s, v⟩ hw,
        @create_malformed kvMap ⟨t, v⟩ (fun hw' => hw (h.symm.wellFormed hw'))]
  | @remove s t h =>
    by_cases hw : WellFormed s
    · rw [Req.front, Req.front, remove_wellFormed kvMap hw, remove_wellFormed kvMap (h.wellFormed hw), h.comps_eq]
    · rw [Req.front, Req.front, remove_malformed kvMap hw,
        remove_malformed kvMap (fun hw' => hw (h.symm.wellFormed hw'))]
  | @set s t h v =>
    by_cases hw : WellFormed s
    · rw [Req.front, Req.front, @set_wellFormed kvMap ⟨s, v⟩ hw,
        @set_wellFormed kvMap ⟨t, v⟩ (h.wellFormed hw)]
      simp only [h.comps_eq]
    · rw [Req.front, Req.front, @set_malformed kvMap ⟨s, v⟩ hw,
        @set_malformed kvMap ⟨t, v⟩ (fun hw' => hw (h.symm.wellFormed hw'))]
  | @get s t h =>
    by_cases hw : WellFormed s
    · rw [Req.front, Req.front, get_wellFormed kvMap hw, get_wellFormed kvMap (h.wellFormed hw), h.comps_eq]
    · rw [Req.front, Req.front, get_malformed kvMap hw, get_malformed kvMap (fun hw' => hw (h.symm.wellFormed hw'))]
  | list s => rfl

/-- **A run with its keys respelled goes through the same maps and replies.** -/
theorem serveAll_respelled {calls calls' : List (Req × Replicated)}
    (h : List.Forall₂ (fun c c' => c.1.Respelled c'.1 ∧ c.2 = c'.2) calls calls') :
    ∀ kvMap, serveAll true kvMap calls' = serveAll true kvMap calls := by
  induction h with
  | nil => intro _; rfl
  | @cons c c' calls calls' hc _ ih =>
    intro kvMap
    obtain ⟨req, rep⟩ := c
    obtain ⟨req', rep'⟩ := c'
    obtain ⟨hr, rfl⟩ := hc
    have : serve true kvMap req' rep = serve true kvMap req rep := by rw [serve, serve, hr.front_eq kvMap]
    simp only [serveAll, this, ih]

/-- What `create` answers, on the abstract store. -/
theorem Simulates.create {kvMap : KvMap} {hist : List (Req × Result)} (h : Simulates kvMap hist) (arg : KvPair)
    (rep : Replicated) : ∃ kvMap' res, MetaDR.serve true kvMap (.create arg) rep = .ok (kvMap', res) ∧
      (res = .err .none ↔ WellFormed arg.key ∧ lastWrite hist (comps arg.key) = none ∧
        ((comps arg.key).length = 1 ∨ lastWrite hist (comps arg.key).dropLast ≠ none) ∧ rep = .done) ∧
      (res = .err .keyAlreadyPresent ↔ WellFormed arg.key ∧ lastWrite hist (comps arg.key) ≠ none) := by
  obtain ⟨kvMap', res, hs, -⟩ := h.store.serve (.create arg) rep
  refine ⟨kvMap', res, hs, ?_⟩
  by_cases hw : WellFormed arg.key
  · have hpath := hw.isPath
    have hlen : (comps arg.key).length = 1 ↔ (comps arg.key).dropLast = [] := by
      have := List.length_pos_iff.2 hpath.ne_nil
      rw [← List.length_eq_zero_iff, List.length_dropLast]; omega
    have hk := h.mem_iff hpath
    have hpar : (comps arg.key).dropLast ≠ [] →
        (pathKey (comps arg.key).dropLast ∈ kvMap ↔ lastWrite hist (comps arg.key).dropLast ≠ none) := by
      intro hne
      have hd := List.dropLast_append_getLast hpath.ne_nil
      exact h.mem_iff (IsPath.of_append (by rw [hd]; exact hpath) hne)
    -- a present key has its parent, so the parent check overwrites nothing
    have hpres : pathKey (comps arg.key) ∈ kvMap → (comps arg.key).dropLast ≠ [] →
        pathKey (comps arg.key).dropLast ∈ kvMap := by
      intro hm
      obtain ⟨ps, hp, he, hpp⟩ := h.store _ hm
      obtain rfl := pathKey_inj hpath hp he
      exact hpp
    rw [MetaDR.serve, Req.front, create_wellFormed kvMap hw] at hs
    simp only [hlen, hw, true_and, bind, Except.bind] at hs ⊢
    by_cases hm : pathKey (comps arg.key) ∈ kvMap
    · rw [if_neg (fun hc => hc.2 (hpres hm hc.1)), if_pos hm] at hs
      cases hs
      simp [hk.1 hm]
    · have hl : lastWrite hist (comps arg.key) = none := by by_contra hc; exact hm (hk.2 hc)
      by_cases hd : (comps arg.key).dropLast = []
      · rw [if_neg (fun hc => hc.1 hd), if_neg hm] at hs
        cases rep <;> cases hs <;> simp [hl, hd]
      · by_cases hpm : pathKey (comps arg.key).dropLast ∈ kvMap
        · rw [if_neg (fun hc => hc.2 hpm), if_neg hm] at hs
          have := (hpar hd).1 hpm
          cases rep <;> cases hs <;> simp [hl, this]
        · rw [if_pos ⟨hd, hpm⟩] at hs
          have : lastWrite hist (comps arg.key).dropLast = none := by
            by_contra hc; exact hpm ((hpar hd).2 hc)
          cases hs
          simp [hl, hd, this]
  · rw [MetaDR.serve, Req.front, create_malformed kvMap hw] at hs
    cases hs
    simp [hw]

/-- What `set` answers, on the abstract store. -/
theorem Simulates.set {kvMap : KvMap} {hist : List (Req × Result)} (h : Simulates kvMap hist) (arg : KvPair)
    (rep : Replicated) : ∃ kvMap' res, MetaDR.serve true kvMap (.set arg) rep = .ok (kvMap', res) ∧
      (res = .err .none ↔ WellFormed arg.key ∧ lastWrite hist (comps arg.key) ≠ none ∧ rep = .done) ∧
      (res = .err .keyNotPresent ↔ WellFormed arg.key ∧ lastWrite hist (comps arg.key) = none) := by
  obtain ⟨kvMap', res, hs, -⟩ := h.store.serve (.set arg) rep
  refine ⟨kvMap', res, hs, ?_⟩
  by_cases hw : WellFormed arg.key
  · have hk := h.mem_iff hw.isPath
    rw [MetaDR.serve, Req.front, set_wellFormed kvMap hw] at hs
    simp only [hw, true_and, bind, Except.bind] at hs ⊢
    by_cases hm : pathKey (comps arg.key) ∈ kvMap
    · rw [if_neg (fun hn => hn hm)] at hs
      have hl := hk.1 hm
      cases rep <;> cases hs <;> simp [hl]
    · rw [if_pos hm] at hs
      have hl : lastWrite hist (comps arg.key) = none := by by_contra hc; exact hm (hk.2 hc)
      cases hs
      simp [hl]
  · rw [MetaDR.serve, Req.front, set_malformed kvMap hw] at hs
    cases hs
    simp [hw]

/-- The reply of `get` on a well-formed key whose value on the abstract store is given. -/
def getReply : Option Str → Result
  | none => .err .keyNotPresent
  | some v => .val v

/-- What `get` answers, on the abstract store. -/
theorem Simulates.get {kvMap : KvMap} {hist : List (Req × Result)} (h : Simulates kvMap hist) (arg : Str)
    (rep : Replicated) : ∃ res, MetaDR.serve true kvMap (.get arg) rep = .ok (kvMap, res) ∧
      (WellFormed arg → res = getReply (lastWrite hist (comps arg))) ∧
      (¬ WellFormed arg → res = .err .keyMalformed) := by
  by_cases hw : WellFormed arg
  · refine ⟨getReply (lastWrite hist (comps arg)), ?_, fun _ => rfl, fun h => absurd hw h⟩
    rw [MetaDR.serve, Req.front, get_wellFormed kvMap hw, h.lookup _ hw.isPath]
    cases lastWrite hist (comps arg) <;> rfl
  · refine ⟨.err .keyMalformed, ?_, fun h => absurd h hw, fun _ => rfl⟩
    rw [MetaDR.serve, Req.front, get_malformed kvMap hw]
    rfl

/-- **The store is a map from component lists.**  After every run of calls on a primary from the empty store, with the
replies it gave as its history: `create` answers `NONE` exactly on a well-formed absent key with one component or a
present parent whose replication succeeds, and `KEY_ALREADY_PRESENT` exactly on a well-formed present key; `set` answers
`NONE` exactly on a well-formed present key whose replication succeeds, and `KEY_NOT_PRESENT` exactly on a well-formed
absent key; `get` answers the last write; a call that answers an error leaves the map as it was; and the run with any
keys respelled has the same replies and the same map. -/
theorem path_map_semantics (calls : List (Req × Replicated)) :
    ∃ kvMap ress, serveAll true ∅ calls = .ok (kvMap, ress) ∧ ress.length = calls.length ∧
      (∀ arg rep, ∃ kvMap' res, serve true kvMap (.create arg) rep = .ok (kvMap', res) ∧
        (res = .err .none ↔ WellFormed arg.key ∧ lastWrite ((calls.map Prod.fst).zip ress) (comps arg.key) = none ∧
          ((comps arg.key).length = 1 ∨ lastWrite ((calls.map Prod.fst).zip ress) (comps arg.key).dropLast ≠ none) ∧
          rep = .done) ∧
        (res = .err .keyAlreadyPresent ↔
          WellFormed arg.key ∧ lastWrite ((calls.map Prod.fst).zip ress) (comps arg.key) ≠ none)) ∧
      (∀ arg rep, ∃ kvMap' res, serve true kvMap (.set arg) rep = .ok (kvMap', res) ∧
        (res = .err .none ↔
          WellFormed arg.key ∧ lastWrite ((calls.map Prod.fst).zip ress) (comps arg.key) ≠ none ∧ rep = .done) ∧
        (res = .err .keyNotPresent ↔
          WellFormed arg.key ∧ lastWrite ((calls.map Prod.fst).zip ress) (comps arg.key) = none)) ∧
      (∀ arg rep, ∃ res, serve true kvMap (.get arg) rep = .ok (kvMap, res) ∧
        (WellFormed arg → res = getReply (lastWrite ((calls.map Prod.fst).zip ress) (comps arg))) ∧
        (¬ WellFormed arg → res = .err .keyMalformed)) ∧
      (∀ req rep kvMap' e, serve true kvMap req rep = .ok (kvMap', .err e) → e ≠ .none → kvMap' = kvMap) ∧
      (∀ calls', List.Forall₂ (fun c c' => c.1.Respelled c'.1 ∧ c.2 = c'.2) calls calls' →
        serveAll true ∅ calls' = .ok (kvMap, ress)) := by
  obtain ⟨kvMap, ress, hrun, hp⟩ := PathStore.serveAll calls pathStore_empty
  have hsim : Simulates kvMap ((calls.map Prod.fst).zip ress) := by
    simpa using simulates_empty.serveAll calls hrun
  refine ⟨kvMap, ress, hrun, length_serveAll calls hrun, hsim.create, hsim.set, hsim.get, ?_, ?_⟩
  · intro req rep kvMap' e hs he
    rcases hp.serve_eq hs with ⟨-, h⟩ | ⟨h, -⟩
    · exact h
    · cases h; exact absurd rfl he
  · intro calls' hc
    rw [serveAll_respelled hc ∅, hrun]
where
  length_serveAll : ∀ (calls : List (Req × Replicated)) {kvMap kvMap' : KvMap} {ress : List Result},
      serveAll true kvMap calls = .ok (kvMap', ress) → ress.length = calls.length
    | [], _, _, _, h => by cases h; rfl
    | (req, rep) :: calls, kvMap, kvMap', ress, h => by
      simp only [serveAll, bind, Except.bind] at h
      split at h
      · cases h
      · split at h
        · cases h
        · rename_i p hp
          cases h
          simpa using length_serveAll calls hp

end MetaDR
