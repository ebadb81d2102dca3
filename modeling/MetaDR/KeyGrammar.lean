import MetaDR.Namespace
/-!
# KeyGrammar — the keys that are accepted, and their canonical form

An accepted key is read off a grammar: slashes and a word, once or more, and nothing after (`Spells`).  The loop of
`pruneKey` is given turn by turn, with the faults of `at` and `erase` in it, so that a run of it that ends is a run
without a fault (`PruneEnds`).  Both meet in `key_grammar`: what the grammar spells is what the loop leaves.
-/
namespace MetaDR

/-- A non-empty word over the letters, the digits and the underscore. -/
structure IsWord (w : Str) : Prop where
  ne_nil : w ≠ []
  chars : ∀ c ∈ w, isWordChar c = true

/-- **The grammar of keys**: one or more slashes and a word, once or more; the words are the key's components. -/
inductive Spells : Str → List Str → Prop where
  | last (n : Nat) {w : Str} (hw : IsWord w) : Spells (List.replicate (n + 1) slash ++ w) [w]
  | more (n : Nat) {w rest : Str} {ws : List Str} (hw : IsWord w) (h : Spells rest ws) :
      Spells (List.replicate (n + 1) slash ++ (w ++ rest)) (w :: ws)

theorem IsWord.slash_not_mem {w : Str} (h : IsWord w) : slash ∉ w := fun hm => by
  have := h.chars slash hm
  rw [not_isWordChar_slash] at this
  cases this

theorem Spells.starts {s : Str} {ws : List Str} (h : Spells s ws) : ∃ t, s = slash :: t := by
  cases h with
  | last n hw => exact ⟨_, rfl⟩
  | more n hw h => exact ⟨_, rfl⟩

theorem Spells.isPath {s : Str} {ws : List Str} (h : Spells s ws) : IsPath ws := by
  have hword : ∀ w ∈ ws, IsWord w := by
    induction h with
    | last n hw => exact fun w hm => List.mem_singleton.1 hm ▸ hw
    | more n hw h ih => exact List.forall_mem_cons.2 ⟨hw, ih⟩
  refine ⟨?_, fun w hm => ⟨(hword w hm).ne_nil, (hword w hm).chars⟩⟩
  cases h <;> exact List.cons_ne_nil _ _

theorem comps_replicate (n : Nat) (s : Str) : comps (List.replicate n slash ++ s) = comps s := by
  induction n with
  | zero => rfl
  | succ n ih => rw [List.replicate_succ, List.cons_append, comps, Split.pieces_sep]; exact ih

/-- **The words of the grammar are the non-empty components.** -/
theorem Spells.comps_eq {s : Str} {ws : List Str} (h : Spells s ws) : comps s = ws := by
  induction h with
  | last n hw => rw [comps_replicate, comps, Split.pieces_word hw.ne_nil hw.slash_not_mem]
  | more n hw h ih =>
    obtain ⟨t, rfl⟩ := h.starts
    rw [comps, Split.pieces_sep] at ih
    rw [comps_replicate, comps, Split.pieces_word_sep hw.ne_nil hw.slash_not_mem, ih]

theorem Spells.wellFormed {s : Str} {ws : List Str} (h : Spells s ws) : WellFormed s := by
  have hrep : ∀ (n : Nat) (c : UInt8), c ∈ List.replicate n slash → c = slash := fun n c hc =>
    List.eq_of_mem_replicate hc
  induction h with
  | @last n w hw =>
    refine ⟨rfl, ?_, fun c hc => ?_⟩
    · rw [List.getLast?_append_of_ne_nil _ hw.ne_nil, List.getLast?_eq_some_getLast hw.ne_nil]
      exact fun he => hw.slash_not_mem (Option.some.inj he ▸ List.getLast_mem hw.ne_nil)
    · exact (List.mem_append.1 hc).imp (hrep _ c) (hw.chars c)
  | @more n w rest ws hw h ih =>
    obtain ⟨t, ht⟩ := h.starts
    have hne : rest ≠ [] := by rw [ht]; exact List.cons_ne_nil _ _
    refine ⟨rfl, ?_, fun c hc => ?_⟩
    · rw [← List.append_assoc, List.getLast?_append_of_ne_nil _ hne]
      exact ih.ends
    · rcases List.mem_append.1 hc with hc | hc
      · exact .inl (hrep _ c hc)
      · rcases List.mem_append.1 hc with hc | hc
        · exact .inr (hw.chars c hc)
        · exact ih.chars c hc

/-- Behind at least one slash, what does not end in a slash is spelled. -/
theorem exists_spells (s : Str) (hs : s ≠ []) (hl : s.getLast? ≠ some slash)
    (hc : ∀ c ∈ s, c = slash ∨ isWordChar c = true) (n : Nat) :
    ∃ ws, Spells (List.replicate (n + 1) slash ++ s) ws := by
  induction hn : s.length using Nat.strongRecOn generalizing s n with
  | _ k ih =>
    rcases @Split.word_cases _ slash s with rfl | ⟨t, rfl⟩ | ⟨w, t, hw, hws, rfl, ht⟩
    · exact absurd rfl hs
    · -- one more slash in the run
      have ht : t ≠ [] := by rintro rfl; exact hl rfl
      obtain ⟨ws, h⟩ := ih t.length (by simp at hn; omega) t ht (Split.getLast?_ne_of_cons hl)
        (fun c hm => hc c (List.mem_cons_of_mem _ hm)) (n + 1) rfl
      refine ⟨ws, ?_⟩
      rwa [List.replicate_succ', List.append_assoc] at h
    · have hword : IsWord w := ⟨hw, fun c hm =>
        (hc c (List.mem_append_left _ hm)).resolve_left (fun he => hws (he ▸ hm))⟩
      rcases ht with rfl | ⟨u, rfl⟩
      · exact ⟨[w], by rw [List.append_nil]; exact .last n hword⟩
      · have hl' : (slash :: u).getLast? ≠ some slash := by
          rwa [List.getLast?_append_of_ne_nil _ (List.cons_ne_nil _ _)] at hl
        have hu : u ≠ [] := by rintro rfl; exact hl' rfl
        obtain ⟨ws, h⟩ := ih u.length (by simp at hn; omega) u hu (Split.getLast?_ne_of_cons hl')
          (fun c hm => hc c (List.mem_append_right _ (List.mem_cons_of_mem _ hm))) 0 rfl
        exact ⟨w :: ws, .more n hword h⟩

theorem WellFormed.spells {s : Str} (h : WellFormed s) : Spells s (comps s) := by
  cases s with
  | nil => cases h.starts
  | cons c cs =>
    obtain rfl : c = slash := Option.some.inj h.starts
    have hcs : cs ≠ [] := by rintro rfl; exact h.ends rfl
    obtain ⟨ws, hws⟩ := exists_spells cs hcs (Split.getLast?_ne_of_cons h.ends)
      (fun d hd => h.chars d (List.mem_cons_of_mem _ hd)) 0
    have : Spells (slash :: cs) ws := hws
    rwa [this.comps_eq]

/-- `std::string::at`. -/
def charAt (key : Str) (i : Nat) : Except Fault UInt8 :=
  match key[i]? with
  | none => .error .outOfRange
  | some c => .ok c

/-- `std::string::erase(i, 1)`. -/
def eraseAt (key : Str) (i : Nat) : Except Fault Str :=
  if i ≤ key.length then .ok (key.eraseIdx i) else .error .outOfRange

/-- One turn of the loop of `pruneKey`; `none` when its test fails. -/
def pruneTurn (key : Str) (i lastSlashIndex : Nat) : Except Fault (Option (Str × Nat × Nat)) :=
  if i < key.length then do
    let c ← charAt key i
    if c = slash then
      if lastSlashIndex = i - 1 then do
        let key ← eraseAt key i
        -- `--i`, then the loop's own `++i`
        .ok (some (key, i - 1 + 1, lastSlashIndex))
      else .ok (some (key, i + 1, i))
    else .ok (some (key, i + 1, lastSlashIndex))
  else .ok none

/-- **The loop ends**: turn after turn, none of them faults, and in the last one the test fails. -/
inductive PruneEnds : Str → Nat → Nat → Str × Nat → Prop where
  | done {key : Str} {i lastSlashIndex : Nat} (h : pruneTurn key i lastSlashIndex = .ok none) :
      PruneEnds key i lastSlashIndex (key, lastSlashIndex)
  | turn {key key' : Str} {i i' lastSlashIndex lastSlashIndex' : Nat} {out : Str × Nat}
      (h : pruneTurn key i lastSlashIndex = .ok (some (key', i', lastSlashIndex')))
      (hrest : PruneEnds key' i' lastSlashIndex' out) : PruneEnds key i lastSlashIndex out

/-- **The turns left in `pruneLoop` are enough**: each turn comes nearer to the end of the key. -/
theorem pruneEnds_loop : ∀ (n : Nat) (key : Str) (i lastSlashIndex : Nat), key.length ≤ n + i →
    PruneEnds key i lastSlashIndex (pruneLoop n key i lastSlashIndex)
  | 0, key, i, lastSlashIndex, h => .done (if_neg (by omega))
  | n + 1, key, i, lastSlashIndex, h => by
    unfold pruneLoop
    by_cases hi : i < key.length
    · have hget : key[i]? = some key[i] := List.getElem?_eq_getElem hi
      have hat : charAt key i = .ok key[i] := by unfold charAt; rw [hget]
      have herase : eraseAt key i = .ok (key.eraseIdx i) := if_pos hi.le
      rw [if_pos hi, hget]
      simp only [Option.some.injEq]
      by_cases hc : key[i] = slash
      · rw [if_pos hc]
        by_cases hl : lastSlashIndex = i - 1
        · rw [if_pos hl]
          have hlen : (key.eraseIdx i).length = key.length - 1 := List.length_eraseIdx_of_lt hi
          have hrest := pruneEnds_loop n (key.eraseIdx i) (i - 1 + 1) lastSlashIndex (by omega)
          refine .turn ?_ hrest
          simp [pruneTurn, hi, hat, herase, hc, hl, bind, Except.bind]
        · rw [if_neg hl]
          have hrest := pruneEnds_loop n key (i + 1) i (by omega)
          refine .turn ?_ hrest
          simp [pruneTurn, hi, hat, hc, hl, bind, Except.bind]
      · rw [if_neg hc]
        have hrest := pruneEnds_loop n key (i + 1) lastSlashIndex (by omega)
        refine .turn ?_ hrest
        simp [pruneTurn, hi, hat, hc, bind, Except.bind]
    · rw [if_neg hi]
      exact .done (if_neg hi)

/-- **What `pruneKey` makes of a key** with the components `ws`. -/
structure PrunesTo (s : Str) (ws : List Str) (lastSlashIndex : Nat) : Prop where
  result : pruneKey s = .ok (pathKey ws, lastSlashIndex)
  ends : PruneEnds s 1 0 (pathKey ws, lastSlashIndex)
  lastSlash : findLastOf (pathKey ws) slash = some lastSlashIndex
  parent : (pathKey ws).take lastSlashIndex = pathKey ws.dropLast
  single : lastSlashIndex = 0 ↔ ws.length = 1
  again : pruneKey (pathKey ws) = .ok (pathKey ws, lastSlashIndex)

theorem IsPath.wellFormed {ps : List Str} (h : IsPath ps) : WellFormed (pathKey ps) :=
  ⟨(canonical_pathKey h).starts, (canonical_pathKey h).ends, (canonical_pathKey h).chars⟩

theorem Spells.prunesTo {s : Str} {ws : List Str} (h : Spells s ws) :
    PrunesTo s ws (pathKey ws.dropLast).length := by
  have hresult : pruneKey s = .ok (pathKey ws, (pathKey ws.dropLast).length) := by
    rw [pruneKey_of_wellFormed h.wellFormed, h.comps_eq]
  have hp := h.isPath
  obtain ⟨t, rfl⟩ := h.starts
  refine ⟨hresult, ?_, ?_, take_pathKey_dropLast, ?_, ?_⟩
  · have hloop : pruneLoop (slash :: t).length (slash :: t) 1 0 = (pathKey ws, (pathKey ws.dropLast).length) := by
      simpa [pruneKey] using hresult
    rw [← hloop]
    exact pruneEnds_loop _ _ _ _ (Nat.le_add_right _ _)
  · obtain ⟨qs, q, rfl, -, hq⟩ := hp.snoc
    rw [pathKey_snoc, findLastOf_append hq, List.dropLast_concat]
  · have hpos : 0 < (pathKey ws.dropLast).length ↔ ws.dropLast ≠ [] := length_pathKey_pos
    have hlen : ws.dropLast = [] ↔ ws.length = 1 := by
      rw [← List.length_eq_zero_iff, List.length_dropLast]
      have := List.length_pos_iff.2 hp.ne_nil
      omega
    rw [← hlen, ← not_iff_not, ← ne_eq ws.dropLast, ← hpos, Nat.pos_iff_ne_zero]
  · rw [pruneKey_of_wellFormed hp.wellFormed, comps_pathKey hp]

/-- **Key grammar and canonical form.**  A key is accepted exactly when the grammar spells it.  Its words are then its
non-empty components, `pruneKey` ends without a fault and leaves one slash before each of them, with the index of the
last slash; doing it again changes nothing; and two accepted keys become one exactly when they have the same
components. -/
theorem key_grammar (s : Str) :
    (checkKeyFormat s = .none ↔ ∃ ws, Spells s ws) ∧
    (∀ ws, Spells s ws → comps s = ws ∧ ∃ lastSlashIndex, PrunesTo s ws lastSlashIndex) ∧
    ∀ s', checkKeyFormat s = .none → checkKeyFormat s' = .none →
      ((pruneKey s).map Prod.fst = (pruneKey s').map Prod.fst ↔ comps s = comps s') := by
  refine ⟨?_, fun ws h => ⟨h.comps_eq, _, h.prunesTo⟩, fun s' hs hs' => ?_⟩
  · rw [checkKeyFormat_eq_none]
    exact ⟨fun h => ⟨_, h.spells⟩, fun ⟨ws, h⟩ => h.wellFormed⟩
  · rw [checkKeyFormat_eq_none] at hs hs'
    rw [pruneKey_of_wellFormed hs, pruneKey_of_wellFormed hs']
    simp only [Except.map, Except.ok.injEq]
    exact ⟨pathKey_inj hs.isPath hs'.isPath, fun h => by rw [h]⟩

/-- A key with two slashes in front of its first word. -/
theorem key_grammar_twice : comps [slash, slash, 97, slash, 98] = [[97], [98]] ∧
    PrunesTo [slash, slash, 97, slash, 98] [[97], [98]] 2 := by
  have hw : ∀ c : UInt8, isWordChar c = true → IsWord [c] := fun c hc => ⟨by simp, by simpa using hc⟩
  have h : Spells [slash, slash, 97, slash, 98] [[97], [98]] :=
    .more 1 (hw 97 (by decide)) (.last 0 (hw 98 (by decide)))
  obtain ⟨hc, k, hk⟩ := (key_grammar _).2.1 _ h
  obtain rfl : k = 2 := Option.some.inj (hk.lastSlash.symm.trans (by decide))
  exact ⟨hc, hk⟩

end MetaDR
