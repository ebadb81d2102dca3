import MetaDR.Namespace
/-!
# Children — what the listing finds

`KvMemStore::list` looks for its prefix anywhere in a key.  On a namespace, the listing of `k` is its children exactly
as long as `k` and a slash stand in no key but at its front (`children_iff`); the root's always is.  A key that passes
`k` in its middle has an ancestor there that is listed and is no child.
-/
namespace MetaDR

theorem find_eq_some {s pat : Str} {n : Nat} :
    find s pat = some n ↔ n ≤ s.length ∧ pat <+: s.drop n ∧ ∀ m < n, ¬ pat <+: s.drop m := by
  rw [find, List.findIdx?_eq_some_iff_getElem]
  simp only [List.length_tails, List.getElem_tails, List.isPrefixOf_iff_prefix, Nat.lt_succ_iff, exists_prop]

theorem find_eq_none {s pat : Str} : find s pat = none ↔ ¬ pat <:+: s := by
  rw [find, List.findIdx?_eq_none_iff, List.infix_iff_prefix_suffix]
  simp only [List.mem_tails, Bool.eq_false_iff, ne_eq, List.isPrefixOf_iff_prefix, not_exists, not_and]
  exact ⟨fun h t hp hs => h t hs hp, fun h t hs hp => h t hp hs⟩

theorem findChar_eq_none {s : Str} {c : UInt8} {pos : Nat} : findChar s c pos = none ↔ c ∉ s.drop pos := by
  rw [findChar, Option.map_eq_none_iff, List.findIdx?_eq_none_iff]
  simp only [beq_eq_false_iff_ne, ne_eq]
  exact ⟨fun h hm => h c hm rfl, fun h x hx he => h (he ▸ hx)⟩

/-- `key` is `k`, a slash and a component. -/
def IsChild (k key : Str) : Prop := ∃ c, c ≠ [] ∧ slash ∉ c ∧ key = k ++ slash :: c

/-- `k` and a slash stand in the keys of the store at the front only. -/
def InFrontOnly (kvMap : KvMap) (k : Str) : Prop := ∀ key ∈ kvMap, k ++ [slash] <:+: key → k ++ [slash] <+: key

/-- **Where a path has its first `k` and slash**: a component follows. -/
theorem IsPath.occurrence {ps : List Str} (hp : IsPath ps) {k : Str} {n : Nat}
    (hn : find (pathKey ps) (k ++ [slash]) = some n) :
    ∃ a qs q rs, ps = qs ++ q :: rs ∧ a.length = n ∧ pathKey qs = a ++ k ∧
      ∀ m < n, ¬ k ++ [slash] <+: (pathKey ps).drop m := by
  obtain ⟨hle, ⟨b, hb⟩, hfirst⟩ := find_eq_some.1 hn
  have hkey : pathKey ps = ((pathKey ps).take n ++ k) ++ slash :: b := by
    conv => lhs; rw [← List.take_append_drop n (pathKey ps), ← hb]
    simp
  obtain ⟨qs, rs, hps, hqs, hrs⟩ := Split.join_cut hp.proper hkey
  cases rs with
  | nil => cases hrs
  | cons q rs =>
    exact ⟨(pathKey ps).take n, qs, q, rs, hps, by rw [List.length_take, Nat.min_eq_left hle], hqs.symm, hfirst⟩

theorem pathKey_cut (q : Str) (rs : List Str) {qs : List Str} {a k : Str} (h : pathKey qs = a ++ k) :
    pathKey (qs ++ q :: rs) = (a ++ (k ++ [slash])) ++ (q ++ pathKey rs) := by
  have hq : pathKey (q :: rs) = slash :: (q ++ pathKey rs) := rfl
  rw [pathKey_append, h, hq]
  simp

/-- **What is listed**: the first time `k` and a slash stand in the key, its last component follows. -/
theorem listed_iff {ps : List Str} (hp : IsPath ps) (k : Str) :
    KvMemStore.listed (k ++ [slash]) slash (pathKey ps) = true ↔
      ∃ a q, q ≠ [] ∧ slash ∉ q ∧ pathKey ps = a ++ (k ++ slash :: q) ∧
        ∀ m < a.length, ¬ k ++ [slash] <+: (pathKey ps).drop m := by
  have hne : pathKey ps ≠ k ++ [slash] := fun he => by
    refine (canonical_pathKey hp).ends ?_
    rw [he]
    simp
  rw [KvMemStore.listed, if_neg hne]
  constructor
  · intro h
    split at h
    · cases h
    · rename_i n hn
      rw [Option.isNone_iff_eq_none, findChar_eq_none] at h
      obtain ⟨a, qs, q, rs, rfl, rfl, hqs, hfirst⟩ := hp.occurrence hn
      obtain ⟨hq, hs⟩ := hp.proper q (by simp)
      have hcut := pathKey_cut q rs hqs
      have hrest : rs = [] := by
        by_contra hr
        obtain ⟨r, rs, rfl⟩ := List.exists_cons_of_ne_nil hr
        -- the slash behind `q` would be found
        refine h ?_
        rw [hcut, ← List.length_append, ← List.drop_drop, List.drop_left, List.drop_append,
          Nat.sub_eq_zero_of_le (List.length_pos_iff.2 hq), List.drop_zero]
        exact List.mem_append_right _ List.mem_cons_self
      subst hrest
      exact ⟨a, q, hq, hs, by rw [hcut]; simp [pathKey], hfirst⟩
  · rintro ⟨a, q, hq, hs, hkey, hfirst⟩
    have hdrop : (pathKey ps).drop a.length = (k ++ [slash]) ++ q := by rw [hkey, List.drop_left]; simp
    have hfind : find (pathKey ps) (k ++ [slash]) = some a.length := by
      refine find_eq_some.2 ⟨?_, ?_, hfirst⟩
      · rw [hkey, List.length_append]
        exact Nat.le_add_right _ _
      · rw [hdrop]
        exact List.prefix_append _ _
    rw [hfind]
    simp only [Option.isNone_iff_eq_none, findChar_eq_none]
    rw [Nat.add_assoc, ← List.drop_drop, hdrop, ← List.drop_drop, List.drop_left]
    exact fun hm => hs (List.mem_of_mem_drop hm)

theorem mem_list {kvMap : KvMap} {pre key : Str} :
    key ∈ KvMemStore.list kvMap pre slash ↔ key ∈ kvMap ∧ KvMemStore.listed pre slash key = true := by
  rw [KvMemStore.list, Finset.mem_filter, Finmap.mem_keys]

/-- The listing of `k` is its children. -/
def ListsChildren (kvMap : KvMap) (k : Str) : Prop :=
  ∀ key, key ∈ KvMemStore.list kvMap (k ++ [slash]) slash ↔ key ∈ kvMap ∧ IsChild k key

theorem PathStore.listsChildren_of {kvMap : KvMap} (h : PathStore kvMap) {k : Str} (hk : InFrontOnly kvMap k) :
    ListsChildren kvMap k := by
  intro key
  rw [mem_list]
  refine and_congr_right (fun hmem => ?_)
  obtain ⟨ps, hp, rfl, -⟩ := h key hmem
  rw [listed_iff hp]
  constructor
  · rintro ⟨a, q, hq, hs, hkey, hfirst⟩
    have hin : k ++ [slash] <:+: pathKey ps := ⟨a, q, by rw [hkey]; simp⟩
    have ha : a = [] := by
      by_contra ha
      exact hfirst 0 (List.length_pos_iff.2 ha) (by rw [List.drop_zero]; exact hk _ hmem hin)
    exact ⟨q, hq, hs, by rw [hkey, ha, List.nil_append]⟩
  · rintro ⟨q, hq, hs, hkey⟩
    exact ⟨[], q, hq, hs, hkey, fun m hm => absurd hm (Nat.not_lt_zero m)⟩

/-- **A key with `k` in its middle makes the listing wrong**: its ancestor that ends one component behind the first
occurrence is listed. -/
theorem PathStore.inFrontOnly_of {kvMap : KvMap} (h : PathStore kvMap) {k : Str} (hl : ListsChildren kvMap k) :
    InFrontOnly kvMap k := by
  intro key hmem hin
  obtain ⟨ps, hp, rfl, -⟩ := h key hmem
  by_contra hfront
  obtain ⟨n, hn⟩ : ∃ n, find (pathKey ps) (k ++ [slash]) = some n := by
    rw [← Option.isSome_iff_exists, Option.isSome_iff_ne_none, ne_eq, find_eq_none]
    exact not_not_intro hin
  obtain ⟨a, qs, q, rs, rfl, rfl, hqs, hfirst⟩ := hp.occurrence hn
  obtain ⟨hq, hs⟩ := hp.proper q (by simp)
  have hsplit : qs ++ q :: rs = (qs ++ [q]) ++ rs := by simp
  have hpath : IsPath (qs ++ [q]) := IsPath.of_append (hsplit ▸ hp) (by simp)
  have hanc : pathKey (qs ++ [q]) ∈ kvMap := h.ancestor (by simp) rs (hsplit ▸ hp) (hsplit ▸ hmem)
  have hpre : pathKey (qs ++ [q]) <+: pathKey (qs ++ q :: rs) := by
    rw [hsplit, pathKey_append (qs ++ [q])]
    exact List.prefix_append _ _
  have hform : pathKey (qs ++ [q]) = a ++ (k ++ slash :: q) := by
    rw [pathKey_snoc, hqs, List.append_assoc]
  have hlisted := (listed_iff hpath k).2 ⟨a, q, hq, hs, hform, fun m hm hm' => hfirst m hm (hm'.trans (hpre.drop m))⟩
  obtain ⟨-, c, -, -, hc⟩ := (hl _).1 (mem_list.2 ⟨hanc, hlisted⟩)
  refine hfront (List.IsPrefix.trans ⟨c, ?_⟩ hpre)
  rw [hc]
  simp

theorem mapM_leaf_eq {f : Str → Str} : ∀ {keys : List Str}, (∀ key ∈ keys, leaf key = .ok (f key)) →
    keys.mapM leaf = .ok (keys.map f)
  | [], _ => rfl
  | key :: keys, h => by
    rw [List.mapM_cons, h key List.mem_cons_self, mapM_leaf_eq (fun k hk => h k (List.mem_cons_of_mem _ hk))]
    rfl

/-- A reply of `list`: the names of the children of `k`, each once. -/
def NamesOf (kvMap : KvMap) (k : Str) (reply : Except Fault Front) : Prop :=
  ∃ ns, reply = .ok (.reply (.keys ns)) ∧ ns.Nodup ∧ ∀ c, c ∈ ns ↔ c ≠ [] ∧ slash ∉ c ∧ k ++ slash :: c ∈ kvMap

theorem ListsChildren.namesOf {kvMap : KvMap} {k : Str} (h : ListsChildren kvMap k) :
    NamesOf kvMap k (listNames kvMap k) := by
  have hmem : ∀ key ∈ (KvMemStore.list kvMap (k ++ [slash]) slash).sort strLe, key ∈ kvMap ∧ IsChild k key :=
    fun key hk => (h key).1 ((Finset.mem_sort _).1 hk)
  have hdrop : ∀ c : Str, (k ++ slash :: c).drop (k.length + 1) = c := fun c => by
    rw [← List.drop_drop, List.drop_left]
    rfl
  have hleaf : ∀ key ∈ (KvMemStore.list kvMap (k ++ [slash]) slash).sort strLe,
      leaf key = .ok (key.drop (k.length + 1)) := by
    intro key hk
    obtain ⟨-, c, hc, hs, rfl⟩ := hmem key hk
    rw [hdrop, leaf_append k hs hc]
  refine ⟨_, by rw [listNames, mapM_leaf_eq hleaf]; rfl, ?_, fun c => ?_⟩
  · refine (Finset.sort_nodup _ _).map_on (fun key hk key' hk' he => ?_)
    obtain ⟨-, c, -, -, rfl⟩ := hmem key hk
    obtain ⟨-, c', -, -, rfl⟩ := hmem key' hk'
    rw [hdrop, hdrop] at he
    rw [he]
  · rw [List.mem_map]
    constructor
    · rintro ⟨key, hk, rfl⟩
      obtain ⟨hkv, c, hc, hs, rfl⟩ := hmem key hk
      rw [hdrop]
      exact ⟨hc, hs, hkv⟩
    · rintro ⟨hc, hs, hkv⟩
      exact ⟨_, (Finset.mem_sort _).2 ((h _).2 ⟨hkv, c, hc, hs, rfl⟩), hdrop c⟩

/-- **What the API shows of the children of `k`**, for each spelling of `k` it is given. -/
structure ChildrenExact (kvMap : KvMap) (k : Str) : Prop where
  listing : ListsChildren kvMap k
  names : ∀ arg n, checkKeyFormat arg = .none → pruneKey arg = .ok (k, n) → NamesOf kvMap k (list true kvMap arg)
  refusal : ∀ arg n, checkKeyFormat arg = .none → pruneKey arg = .ok (k, n) →
    (remove true kvMap arg = .ok (.reply (.err .keyHasChildren)) ↔ ∃ key ∈ kvMap, IsChild k key)

theorem ListsChildren.exact {kvMap : KvMap} {k : Str} (h : ListsChildren kvMap k) (hk : k ∈ kvMap) :
    ChildrenExact kvMap k := by
  have hspelled : ∀ arg n, checkKeyFormat arg = .none → pruneKey arg = .ok (k, n) →
      WellFormed arg ∧ pathKey (comps arg) = k := fun arg n hc hp => by
    rw [checkKeyFormat_eq_none] at hc
    rw [pruneKey_of_wellFormed hc, Except.ok.injEq, Prod.mk.injEq] at hp
    exact ⟨hc, hp.1⟩
  refine ⟨h, fun arg n hc hp => ?_, fun arg n hc hp => ?_⟩
  · obtain ⟨hw, rfl⟩ := hspelled arg n hc hp
    rw [list_wellFormed kvMap hw, if_neg (not_not_intro hk)]
    exact h.namesOf
  · obtain ⟨hw, rfl⟩ := hspelled arg n hc hp
    have hlist : KvMemStore.list kvMap (pathKey (comps arg) ++ [slash]) slash ≠ ∅ ↔
        ∃ key ∈ kvMap, IsChild (pathKey (comps arg)) key := by
      rw [← Finset.nonempty_iff_ne_empty]
      exact exists_congr (fun key => h key)
    rw [remove_wellFormed kvMap hw, if_neg (not_not_intro hk), ← hlist]
    split <;> simp_all

theorem Canonical.eq_pathKey {key : Str} (h : Canonical key) : IsPath (comps key) ∧ key = pathKey (comps key) := by
  have hw : WellFormed key := ⟨h.starts, h.ends, h.chars⟩
  refine ⟨hw.isPath, ?_⟩
  cases key with
  | nil => cases h.starts
  | cons c cs =>
    obtain rfl : c = slash := Option.some.inj h.starts
    have hsplit : (slash :: cs).splitOn slash = [] :: cs.splitOn slash := by
      simp [List.splitOn_cons_eq_if_modifyHead]
    have hcomps : comps (slash :: cs) = cs.splitOn slash := by
      rw [comps, Split.pieces, hsplit, List.filter_cons_of_neg (by simp)]
      refine List.filter_eq_self.2 (fun p hp => decide_eq_true (h.noEmpty p ?_))
      rw [hsplit]
      exact hp
    rw [hcomps, ← intercalate_eq_pathKey, ← hsplit, List.intercalate_splitOn]

theorem Namespace.pathStore {kvMap : KvMap} (h : Namespace kvMap) : PathStore kvMap := by
  intro key hk
  obtain ⟨hp, he⟩ := (h.canonical key hk).eq_pathKey
  refine ⟨comps key, hp, he, fun hne => ?_⟩
  obtain ⟨qs, q, hqs, -, hs⟩ := hp.snoc
  have hlen : 1 < (comps key).length := by
    have := List.length_pos_iff.2 hne
    rw [List.length_dropLast] at this
    omega
  have hpar := h.parent key hk hlen
  rw [he, hqs, parentOf_pathKey qs hs] at hpar
  rwa [hqs, List.dropLast_concat]

/-- **Children are exactly children.**  On a namespace the root's listing is the one-component keys; and the listing
of a present key, the names the API gives for it and the refusal to remove it are what its children make them exactly
when the key and a slash stand in no key but at its front. -/
theorem children_iff {kvMap : KvMap} (h : Namespace kvMap) :
    NamesOf kvMap [] (list true kvMap [slash]) ∧ ∀ k ∈ kvMap, ChildrenExact kvMap k ↔ InFrontOnly kvMap k := by
  have hp := h.pathStore
  refine ⟨?_, fun k hk => ⟨fun he => hp.inFrontOnly_of he.listing, fun hf => (hp.listsChildren_of hf).exact hk⟩⟩
  rw [list_root]
  refine (hp.listsChildren_of (fun key hk _ => ?_)).namesOf
  obtain ⟨t, ht⟩ : ∃ t, key = slash :: t := by
    have := (h.canonical key hk).starts
    cases key with
    | nil => cases this
    | cons c cs => exact ⟨cs, by rw [Option.some.inj this]⟩
  exact ⟨t, by rw [ht]; rfl⟩

/-- `/a` and `/a/b`. -/
theorem children_iff_two : ∃ kvMap, Namespace kvMap ∧ IsChild [slash, 97] [slash, 97, slash, 98] ∧
    [slash, 97, slash, 98] ∈ kvMap ∧ ChildrenExact kvMap [slash, 97] := by
  have hw : ∀ ps : List Str, ps ≠ [] → ps.all (fun p => !p.isEmpty && p.all isWordChar) = true → IsPath ps :=
    fun _ h h' => ⟨h, by simpa using h'⟩
  have h := (pathStore_empty.insert (hw [[97]] (by simp) (by decide)) (fun h => absurd rfl h) []).insert
    (hw [[97], [98]] (by simp) (by decide)) (fun _ => Finmap.mem_insert.2 (.inl rfl)) []
  refine ⟨_, h.namespace, ⟨[98], by simp, by decide, rfl⟩, Finmap.mem_insert.2 (.inl rfl), ?_⟩
  refine ((children_iff h.namespace).2 _ (Finmap.mem_insert.2 (.inr (Finmap.mem_insert.2 (.inl rfl))))).2 ?_
  intro key hk _
  rcases Finmap.mem_insert.1 hk with rfl | hk
  · exact ⟨[98], rfl⟩
  · rcases Finmap.mem_insert.1 hk with rfl | hk
    · rename_i hin
      exact absurd hin.length_le (by decide)
    · exact absurd hk Finmap.notMem_empty

/-- Calls that make the keys `/a`, `/b`, `/b/a` and `/b/a/c`. -/
def middleCalls : List (Req × Replicated) :=
  [([slash, 97] : Str), [slash, 98], [slash, 98, slash, 97], [slash, 98, slash, 97, slash, 99]].map
    (fun key => (.create ⟨key, []⟩, .done))

theorem children_iff_fails : ¬ ∀ calls kvMap ress, serveAll true ∅ calls = .ok (kvMap, ress) →
    ∀ k ∈ kvMap, ChildrenExact kvMap k := by
  intro hall
  obtain ⟨kvMap, ress, hrun, -⟩ := PathStore.serveAll middleCalls pathStore_empty
  have hq : (serveAll true ∅ middleCalls).toOption.any (fun p => decide ([slash, 97] ∈ p.1 ∧
      [slash, 98, slash, 97, slash, 99] ∈ KvMemStore.list p.1 [slash, 97, slash] slash)) = true := by decide +kernel
  rw [hrun] at hq
  obtain ⟨hk, hl⟩ := of_decide_eq_true (p := _ ∧ _) hq
  obtain ⟨-, c, -, -, hc⟩ := ((hall _ _ _ hrun _ hk).listing _).1 hl
  cases hc

end MetaDR
