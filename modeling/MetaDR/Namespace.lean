import MetaDR.KvStoreSpec
/-!
# Namespace — the keys of the store form a tree

Every key the store holds is the key of a path, and with a path the store holds its parent (`PathStore`).  `create`
checks the parent, and `remove` lists the children first: the listing's substring search may report a key that is no
child, but never misses a child (`listed_child`), so no removal orphans a key.
-/
namespace MetaDR

/-- A key in canonical form. -/
structure Canonical (key : Str) : Prop where
  starts : key.head? = some slash
  noEmpty : ∀ p ∈ (key.splitOn slash).tail, p ≠ []
  ends : key.getLast? ≠ some slash
  chars : ∀ c ∈ key, c = slash ∨ isWordChar c = true

/-- The key up to its last slash. -/
def parentOf (key : Str) : Str := key.take ((findLastOf key slash).getD 0)

/-- The namespace of a store: canonical keys, each with its parent when it has more than one component. -/
structure Namespace (kvMap : KvMap) : Prop where
  canonical : ∀ key ∈ kvMap, Canonical key
  parent : ∀ key ∈ kvMap, 1 < (comps key).length → parentOf key ∈ kvMap

/-- The same on paths: a set of paths closed under taking the parent. -/
def PathStore (kvMap : KvMap) : Prop :=
  ∀ key ∈ kvMap, ∃ ps, IsPath ps ∧ key = pathKey ps ∧ (ps.dropLast ≠ [] → pathKey ps.dropLast ∈ kvMap)

theorem IsPath.snoc {ps : List Str} (h : IsPath ps) : ∃ qs q, ps = qs ++ [q] ∧ q ≠ [] ∧ slash ∉ q :=
  ⟨ps.dropLast, ps.getLast h.ne_nil, (List.dropLast_append_getLast h.ne_nil).symm, h.proper _ (List.getLast_mem _)⟩

theorem IsPath.of_append {ps qs : List Str} (h : IsPath (ps ++ qs)) (hp : ps ≠ []) : IsPath ps :=
  ⟨hp, fun p hm => h.word p (List.mem_append_left _ hm)⟩

theorem findIdx?_not_mem {s : Str} (h : slash ∉ s) : s.findIdx? (· == slash) = none := by
  rw [List.findIdx?_eq_none_iff]
  intro c hc
  simp only [beq_eq_false_iff_ne]
  rintro rfl; exact h hc

theorem findLastOf_append {a b : Str} (hb : slash ∉ b) : findLastOf (a ++ slash :: b) slash = some a.length := by
  have hr : (a ++ slash :: b).reverse = b.reverse ++ slash :: a.reverse := by simp
  rw [findLastOf, hr, List.findIdx?_append, findIdx?_not_mem (by simpa using hb)]
  simp [List.findIdx?_cons]

theorem parentOf_pathKey (qs : List Str) {q : Str} (hq : slash ∉ q) : parentOf (pathKey (qs ++ [q])) = pathKey qs := by
  rw [pathKey_snoc, parentOf, findLastOf_append hq]
  simp

theorem leaf_append (a : Str) {q : Str} (hq : slash ∉ q) (hne : q ≠ []) : leaf (a ++ slash :: q) = .ok q := by
  have hlt : a.length < (a ++ slash :: q).length - 1 := by
    have := List.length_pos_iff.2 hne
    simp only [List.length_append, List.length_cons]; omega
  rw [leaf, findLastOf_append hq]
  simp only [if_pos hlt, ← List.drop_drop, List.drop_left]
  rfl

theorem leaf_pathKey (qs : List Str) {q : Str} (hq : slash ∉ q) (hne : q ≠ []) :
    leaf (pathKey (qs ++ [q])) = .ok q := by
  rw [pathKey_snoc, leaf_append _ hq hne]

theorem find_eq_zero {s pat : Str} (h : pat <+: s) : find s pat = some 0 := by
  have hp : pat.isPrefixOf s = true := List.isPrefixOf_iff_prefix.2 h
  cases s with
  | nil => rw [find, List.tails, List.findIdx?_cons, hp]; rfl
  | cons c cs => rw [find, List.tails, List.findIdx?_cons, hp]; rfl

/-- **The listing never misses a child**: the search finds the parent's key at the front of the child's. -/
theorem listed_child (ps : List Str) {p : Str} (hp : p ≠ []) (hs : slash ∉ p) :
    KvMemStore.listed (pathKey ps ++ [slash]) slash (pathKey (ps ++ [p])) = true := by
  have hkey : pathKey (ps ++ [p]) = (pathKey ps ++ [slash]) ++ p := by rw [pathKey_snoc]; simp
  have hne : ¬ (pathKey ps ++ [slash]) ++ p = pathKey ps ++ [slash] := by simpa using hp
  have hdrop : ((pathKey ps ++ [slash]) ++ p).drop (0 + (pathKey ps ++ [slash]).length + 1) = p.drop 1 := by
    rw [Nat.zero_add, ← List.drop_drop, List.drop_left]
  have hnone : findChar ((pathKey ps ++ [slash]) ++ p) slash (0 + (pathKey ps ++ [slash]).length + 1) = none := by
    rw [findChar, hdrop, findIdx?_not_mem (fun hm => hs (List.mem_of_mem_drop hm))]
    rfl
  rw [KvMemStore.listed, hkey, if_neg hne, find_eq_zero (List.prefix_append _ _)]
  simp only [hnone, Option.isNone_none]

theorem intercalate_eq_pathKey : ∀ ps : List Str, [slash].intercalate ([] :: ps) = pathKey ps
  | [] => rfl
  | p :: ps => by
    have ih := intercalate_eq_pathKey ps
    cases ps with
    | nil => simp [List.intercalate, List.intersperse, pathKey]
    | cons r rs =>
      simp only [List.intercalate, List.intersperse, pathKey, List.flatten_cons, List.nil_append] at ih ⊢
      simp [← ih]

theorem splitOn_pathKey {ps : List Str} (h : IsPath ps) : (pathKey ps).splitOn slash = [] :: ps := by
  rw [← intercalate_eq_pathKey, List.splitOn_intercalate]
  · intro p hp
    rcases List.mem_cons.1 hp with rfl | hp
    · simp
    · exact (h.proper p hp).2
  · simp

theorem canonical_pathKey {ps : List Str} (h : IsPath ps) : Canonical (pathKey ps) where
  starts := by
    cases ps with
    | nil => exact absurd rfl h.ne_nil
    | cons p ps => rfl
  noEmpty := by rw [splitOn_pathKey h]; exact fun p hp => (h.word p hp).1
  ends := by
    obtain ⟨qs, q, rfl, hq, hs⟩ := h.snoc
    rw [pathKey_snoc, List.getLast?_append, List.getLast?_cons, List.getLast?_eq_some_getLast hq]
    simp only [Option.getD_some, Option.some_or, ne_eq, Option.some.injEq]
    exact fun he => hs (he ▸ List.getLast_mem hq)
  chars := by
    intro c hc
    obtain ⟨p, hp, hcp⟩ := List.mem_flatMap.1 hc
    rcases List.mem_cons.1 hcp with rfl | hcp
    · exact .inl rfl
    · exact .inr ((h.word p hp).2 c hcp)

theorem PathStore.namespace {kvMap : KvMap} (h : PathStore kvMap) : Namespace kvMap where
  canonical := fun key hk => by
    obtain ⟨ps, hp, rfl, -⟩ := h key hk
    exact canonical_pathKey hp
  parent := fun key hk hlen => by
    obtain ⟨ps, hp, rfl, hpar⟩ := h key hk
    rw [comps_pathKey hp] at hlen
    obtain ⟨qs, q, rfl, -, hs⟩ := hp.snoc
    rw [parentOf_pathKey qs hs]
    rw [List.dropLast_concat] at hpar
    exact hpar (by rintro rfl; simp at hlen)

/-- **With a path the store holds every ancestor.** -/
theorem PathStore.ancestor {kvMap : KvMap} (h : PathStore kvMap) {ps : List Str} (hp : ps ≠ []) :
    ∀ qs, IsPath (ps ++ qs) → pathKey (ps ++ qs) ∈ kvMap → pathKey ps ∈ kvMap := by
  intro qs
  induction qs using List.reverseRecOn with
  | nil => intro _ hm; simpa using hm
  | append_singleton qs q ih =>
    intro hpath hm
    rw [← List.append_assoc] at hpath hm
    obtain ⟨ts, ht, he, hpar⟩ := h _ hm
    obtain rfl := pathKey_inj hpath ht he
    rw [List.dropLast_concat] at hpar
    have hne : ps ++ qs ≠ [] := by simp [hp]
    exact ih (hpath.of_append hne) (hpar hne)

theorem PathStore.insert {kvMap : KvMap} (h : PathStore kvMap) {ps : List Str} (hp : IsPath ps)
    (hpar : ps.dropLast ≠ [] → pathKey ps.dropLast ∈ kvMap) (v : Str) :
    PathStore (KvMemStore.setInt kvMap (pathKey ps) v) := by
  intro key hk
  rcases Finmap.mem_insert.1 hk with rfl | hk
  · exact ⟨ps, hp, rfl, fun hne => Finmap.mem_insert.2 (.inr (hpar hne))⟩
  · obtain ⟨qs, hq, rfl, hqpar⟩ := h key hk
    exact ⟨qs, hq, rfl, fun hne => Finmap.mem_insert.2 (.inr (hqpar hne))⟩

/-- **Erasing a key whose listing is empty orphans nothing.** -/
theorem PathStore.erase {kvMap : KvMap} (h : PathStore kvMap) {ps : List Str}
    (hl : KvMemStore.list kvMap (pathKey ps ++ [slash]) slash = ∅) : PathStore (kvMap.erase (pathKey ps)) := by
  intro key hk
  obtain ⟨hne, hk⟩ := Finmap.mem_erase.1 hk
  obtain ⟨qs, hq, rfl, hqpar⟩ := h key hk
  refine ⟨qs, hq, rfl, fun hd => Finmap.mem_erase.2 ⟨fun he => ?_, hqpar hd⟩⟩
  -- `qs` would be a child of the erased key, and the listing would have shown it
  obtain ⟨rs, r, rfl, hr, hs⟩ := hq.snoc
  rw [List.dropLast_concat] at he
  have hmem : pathKey (rs ++ [r]) ∈ KvMemStore.list kvMap (pathKey ps ++ [slash]) slash :=
    Finset.mem_filter.2 ⟨Finmap.mem_keys.2 hk, by rw [← he]; exact listed_child rs hr hs⟩
  rw [hl] at hmem
  cases hmem

theorem mapM_leaf_ok : ∀ {keys : List Str}, (∀ key ∈ keys, ∃ n, leaf key = .ok n) → ∃ ns, keys.mapM leaf = .ok ns
  | [], _ => ⟨[], rfl⟩
  | key :: keys, h => by
    obtain ⟨n, hn⟩ := h key (by simp)
    obtain ⟨ns, hns⟩ := mapM_leaf_ok (fun k hk => h k (List.mem_cons_of_mem _ hk))
    exact ⟨n :: ns, by rw [List.mapM_cons, hn, hns]; rfl⟩

/-- **The assertion of `list` holds on every listed key.** -/
theorem PathStore.listNames {kvMap : KvMap} (h : PathStore kvMap) (key : Str) :
    ∃ ns, MetaDR.listNames kvMap key = .ok (.reply (.keys ns)) := by
  have hleaf : ∀ k ∈ (KvMemStore.list kvMap (key ++ [slash]) slash).sort strLe, ∃ n, leaf k = .ok n := by
    intro k hk
    have hk : k ∈ kvMap := Finmap.mem_keys.1 (Finset.mem_filter.1 ((Finset.mem_sort _).1 hk)).1
    obtain ⟨ps, hp, rfl, -⟩ := h k hk
    obtain ⟨qs, q, rfl, hq, hs⟩ := hp.snoc
    exact ⟨q, leaf_pathKey qs hs hq⟩
  obtain ⟨ns, hns⟩ := mapM_leaf_ok hleaf
  exact ⟨ns, by rw [MetaDR.listNames, hns]; rfl⟩

/-- What a primary's API function hands to the store keeps the namespace once it is done. -/
def Front.Sound (kvMap : KvMap) : Front → Prop
  | .reply _ => True
  | .mutate m => m.enter true kvMap = .ok () ∧ PathStore (m.leave kvMap)

/-- **No API function faults on a namespace, and what it hands to the store keeps the namespace.** -/
theorem PathStore.front {kvMap : KvMap} (h : PathStore kvMap) (req : Req) :
    ∃ f, req.front true kvMap = .ok f ∧ f.Sound kvMap := by
  cases req with
  | create arg =>
    by_cases hw : WellFormed arg.key
    · refine ⟨_, create_wellFormed kvMap hw, ?_⟩
      split
      · trivial
      · rename_i hpar
        split
        · trivial
        · exact ⟨rfl, h.insert hw.isPath (fun hne => by by_contra hm; exact hpar ⟨hne, hm⟩) _⟩
    · exact ⟨_, create_malformed kvMap hw, trivial⟩
  | remove arg =>
    by_cases hw : WellFormed arg
    · refine ⟨_, remove_wellFormed kvMap hw, ?_⟩
      split
      · trivial
      · rename_i hk
        split
        · trivial
        · rename_i hl
          have hk : pathKey (comps arg) ∈ kvMap := by simpa using hk
          exact ⟨by simp [Mutation.enter, hasKey_eq, hk], h.erase (by simpa using hl)⟩
    · exact ⟨_, remove_malformed kvMap hw, trivial⟩
  | set arg =>
    by_cases hw : WellFormed arg.key
    · refine ⟨_, set_wellFormed kvMap hw, ?_⟩
      split
      · trivial
      · rename_i hk
        have hk : pathKey (comps arg.key) ∈ kvMap := by simpa using hk
        obtain ⟨ps, hp, he, hpar⟩ := h _ hk
        obtain rfl := pathKey_inj hw.isPath hp he
        exact ⟨rfl, h.insert hp hpar _⟩
    · exact ⟨_, set_malformed kvMap hw, trivial⟩
  | get arg =>
    by_cases hw : WellFormed arg
    · exact ⟨_, get_wellFormed kvMap hw, trivial⟩
    · exact ⟨_, get_malformed kvMap hw, trivial⟩
  | list arg =>
    by_cases hr : arg = [slash]
    · obtain ⟨ns, hns⟩ := h.listNames []
      subst hr
      exact ⟨_, (list_root kvMap).trans hns, trivial⟩
    · by_cases hw : WellFormed arg
      · obtain ⟨ns, hns⟩ := h.listNames (pathKey (comps arg))
        by_cases hk : pathKey (comps arg) ∉ kvMap
        · exact ⟨_, (list_wellFormed kvMap hw).trans (if_pos hk), trivial⟩
        · exact ⟨_, (list_wellFormed kvMap hw).trans ((if_neg hk).trans hns), trivial⟩
      · exact ⟨_, list_malformed kvMap hr hw, trivial⟩

/-- **The step lemma**: a call on a primary faults on no namespace and leaves a namespace. -/
theorem PathStore.serve {kvMap : KvMap} (h : PathStore kvMap) (req : Req) (rep : Replicated) :
    ∃ kvMap' res, serve true kvMap req rep = .ok (kvMap', res) ∧ PathStore kvMap' := by
  obtain ⟨f, hf, hs⟩ := h.front req
  cases f with
  | reply res => exact ⟨kvMap, res, by rw [MetaDR.serve, hf]; rfl, h⟩
  | mutate m =>
    obtain ⟨he, hl⟩ := hs
    refine ⟨(m.finish kvMap rep).1, (m.finish kvMap rep).2, by rw [MetaDR.serve, hf]; simp [bind, Except.bind, he], ?_⟩
    cases rep with
    | done => exact hl
    | quorumNotReached => exact h
    | replicaStateNotNormal => exact h

/-- **The run lemma.** -/
theorem PathStore.serveAll : ∀ (calls : List (Req × Replicated)) {kvMap : KvMap}, PathStore kvMap →
    ∃ kvMap' ress, serveAll true kvMap calls = .ok (kvMap', ress) ∧ PathStore kvMap'
  | [], kvMap, h => ⟨kvMap, [], rfl, h⟩
  | (req, rep) :: calls, kvMap, h => by
    obtain ⟨kvMap₁, res, h₁, hp₁⟩ := h.serve req rep
    obtain ⟨kvMap₂, ress, h₂, hp₂⟩ := PathStore.serveAll calls hp₁
    exact ⟨kvMap₂, res :: ress, by simp [MetaDR.serveAll, h₁, h₂, bind, Except.bind], hp₂⟩

theorem pathStore_empty : PathStore ∅ := fun _ hk => absurd hk Finmap.notMem_empty

theorem not_mem_of_remove {kvMap kvMap' : KvMap} {arg : Str} {rep : Replicated}
    (hs : serve true kvMap (.remove arg) rep = .ok (kvMap', .err .none)) :
    WellFormed arg ∧ pathKey (comps arg) ∉ kvMap' := by
  by_cases hw : WellFormed arg
  · refine ⟨hw, ?_⟩
    simp only [MetaDR.serve, Req.front, remove_wellFormed kvMap hw, bind, Except.bind] at hs
    split at hs
    · rename_i res hres
      split at hres
      · cases hres; cases hs
      · split at hres
        · cases hres; cases hs
        · cases hres
    · rename_i m hm
      split at hm
      · cases hm
      · split at hm
        · cases hm
        · cases hm
          split at hs
          · cases hs
          · cases rep with
            | done => cases hs; exact Finmap.notMem_erase_self
            | quorumNotReached => cases hs
            | replicaStateNotNormal => cases hs
  · simp [MetaDR.serve, Req.front, remove_malformed kvMap hw, bind, Except.bind] at hs

/-- **The namespace invariant.**  Every run of calls on a primary from the empty store is free of faults, the assertion
of `list` among them; it ends in a namespace that holds every ancestor of its keys; and a removal that answers `NONE`
leaves no key below the one it removed. -/
theorem namespace_invariant (calls : List (Req × Replicated)) :
    ∃ kvMap ress, serveAll true ∅ calls = .ok (kvMap, ress) ∧ Namespace kvMap ∧
      (∀ key ∈ kvMap, ∀ ps, ps ≠ [] → ps <+: comps key → pathKey ps ∈ kvMap) ∧
      ∀ arg rep kvMap', serve true kvMap (.remove arg) rep = .ok (kvMap', .err .none) →
        ∀ key ∈ kvMap', ¬ comps arg <+: comps key := by
  obtain ⟨kvMap, ress, hrun, hp⟩ := PathStore.serveAll calls pathStore_empty
  have hanc : ∀ {kvMap : KvMap}, PathStore kvMap → ∀ key ∈ kvMap, ∀ ps, ps ≠ [] → ps <+: comps key →
      pathKey ps ∈ kvMap := by
    rintro kvMap hp key hk ps hne ⟨qs, hqs⟩
    obtain ⟨ts, ht, rfl, -⟩ := hp key hk
    rw [comps_pathKey ht] at hqs
    subst hqs
    exact hp.ancestor hne qs ht hk
  refine ⟨kvMap, ress, hrun, hp.namespace, hanc hp, fun arg rep kvMap' hs key hk hpre => ?_⟩
  obtain ⟨hw, hnot⟩ := not_mem_of_remove hs
  obtain ⟨kvMap'', res, hs', hp'⟩ := hp.serve (.remove arg) rep
  rw [hs] at hs'
  cases hs'
  exact hnot (hanc hp' key hk _ hw.isPath.ne_nil hpre)

end MetaDR
