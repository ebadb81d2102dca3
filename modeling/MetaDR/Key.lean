import Mathlib.Algebra.Group.Nat.Defs
import MetaDR.Lib.Split
/-!
# Key — `checkKeyFormat` and `pruneKey` (server/kvStoreImpl.cc)

A key is a byte string.  `checkKeyFormat` accepts exactly the well-formed keys (`checkKeyFormat_eq_none`), and on these
`pruneKey`'s erasing loop leaves the join of the key's components and returns the index of its last slash
(`pruneKey_of_wellFormed`).
-/
namespace MetaDR

open Split (pieces join squeeze Proper)

/-- `std::string`. -/
abbrev Str := List UInt8

/-- `kvs::Error` (include/kvStore.x). -/
inductive Error where
  | none
  | keyAlreadyPresent
  | keyNotPresent
  | keyHasNoParent
  | keyHasChildren
  | keyMalformed
  | replicaNotPrimary
  | quorumNotReached
  | statusNotNormal
  deriving DecidableEq, Repr

/-- What ends a call without a reply: a failed `assert`, `std::out_of_range` from `at`, or the stores' `runtime_error`,
which no caller catches. -/
inductive Fault where
  | assertFailed
  | outOfRange
  | runtimeError
  deriving DecidableEq, Repr

/-- `'/'`. -/
def slash : UInt8 := 47

/-- `static_cast<unsigned>` of a signed `char`. -/
def toUnsigned (c : UInt8) : Nat := if c.toNat < 128 then c.toNat else 2 ^ 32 - (256 - c.toNat)

/-- The character test of `checkKeyFormat`. -/
def keyCharOk (c : UInt8) : Bool :=
  let keyInt := toUnsigned c
  (decide (47 ≤ keyInt) && decide (keyInt ≤ 57)) || (decide (65 ≤ keyInt) && decide (keyInt ≤ 90)) ||
    (decide (97 ≤ keyInt) && decide (keyInt ≤ 122)) || decide (keyInt = 95)

/-- The loop of `checkKeyFormat`, on what is left of the key from index `i` on. -/
def checkLoop : Str → Error
  | [] => .none
  | c :: cs =>
    if cs = [] ∧ c = slash then .keyMalformed
    else if keyCharOk c = false then .keyMalformed
    else checkLoop cs

def checkKeyFormat : Str → Error
  | [] => .keyMalformed
  | c :: cs => if c ≠ slash then .keyMalformed else if cs = [] then .keyMalformed else checkLoop cs

/-- The loop of `pruneKey` at index `i`; each turn uses up one unit of the first argument, the number of turns left. -/
def pruneLoop : Nat → Str → Nat → Nat → Str × Nat
  | 0, key, _, lastSlashIndex => (key, lastSlashIndex)
  | n + 1, key, i, lastSlashIndex =>
    if i < key.length then
      if key[i]? = some slash then
        if lastSlashIndex = i - 1 then
          -- `erase`, then `--i`, then the loop's own `++i`
          pruneLoop n (key.eraseIdx i) (i - 1 + 1) lastSlashIndex
        else pruneLoop n key (i + 1) i
      else pruneLoop n key (i + 1) lastSlashIndex
    else (key, lastSlashIndex)

/-- `pruneKey`: the pruned key and the index it returns. -/
def pruneKey (key : Str) : Except Fault (Str × Nat) :=
  match key with
  | [] => .error .outOfRange
  | c :: _ => if c = slash then .ok (pruneLoop key.length key 1 0) else .error .assertFailed

/-- The letters, the digits and the underscore. -/
def isWordChar (c : UInt8) : Bool :=
  (decide (48 ≤ c.toNat) && decide (c.toNat ≤ 57)) || (decide (65 ≤ c.toNat) && decide (c.toNat ≤ 90)) ||
    (decide (97 ≤ c.toNat) && decide (c.toNat ≤ 122)) || decide (c.toNat = 95)

/-- A key the API admits: it starts with a slash, does not end in one, and has only word characters and slashes. -/
structure WellFormed (key : Str) : Prop where
  starts : key.head? = some slash
  ends : key.getLast? ≠ some slash
  chars : ∀ c ∈ key, c = slash ∨ isWordChar c = true

/-- The non-empty components of a key. -/
def comps (key : Str) : List Str := pieces slash key

/-- The key of a path: `'/'` before each component. -/
def pathKey (ps : List Str) : Str := join slash ps

/-- A path the store may hold: at least one component, each a non-empty word. -/
structure IsPath (ps : List Str) : Prop where
  ne_nil : ps ≠ []
  word : ∀ p ∈ ps, p ≠ [] ∧ ∀ c ∈ p, isWordChar c = true

theorem keyCharOk_iff (c : UInt8) : keyCharOk c = true ↔ c = slash ∨ isWordChar c = true := by
  have hs : c = slash ↔ c.toNat = 47 := by
    constructor
    · rintro rfl; rfl
    · intro h; exact UInt8.toNat_inj.1 (by rw [h]; rfl)
  have hc := c.toNat_lt
  rw [hs]
  simp only [keyCharOk, isWordChar, Bool.or_eq_true, Bool.and_eq_true, decide_eq_true_eq]
  by_cases h : c.toNat < 128
  · rw [toUnsigned, if_pos h]; omega
  · rw [toUnsigned, if_neg h]; omega

theorem not_isWordChar_slash : isWordChar slash = false := by decide

theorem checkLoop_eq_none : ∀ (cs : Str), checkLoop cs = .none ↔
    cs.getLast? ≠ some slash ∧ ∀ c ∈ cs, c = slash ∨ isWordChar c = true
  | [] => by simp [checkLoop]
  | c :: cs => by
    unfold checkLoop
    split
    · rename_i h
      obtain ⟨rfl, rfl⟩ := h
      simp
    · rename_i h
      have hlast : (c :: cs).getLast? ≠ some slash ↔ cs.getLast? ≠ some slash := by
        cases cs with
        | nil => simpa using h
        | cons d ds => simp
      rw [hlast]
      split
      · rename_i hk
        have : ¬ (c = slash ∨ isWordChar c = true) := by rw [← keyCharOk_iff, hk]; simp
        simp only [List.mem_cons, forall_eq_or_imp, this, false_and, and_false, reduceCtorEq]
      · rename_i hk
        have : c = slash ∨ isWordChar c = true := by rw [← keyCharOk_iff]; simpa using hk
        simp only [List.mem_cons, forall_eq_or_imp, this, true_and, checkLoop_eq_none cs]

/-- **`checkKeyFormat` accepts exactly the well-formed keys.** -/
theorem checkKeyFormat_eq_none (key : Str) : checkKeyFormat key = .none ↔ WellFormed key := by
  cases key with
  | nil => exact ⟨fun h => (by cases h), fun h => (by cases h.starts)⟩
  | cons c cs =>
    rw [checkKeyFormat]
    split
    · rename_i h
      exact ⟨by simp, fun h' => absurd (by simpa using h'.starts) h⟩
    · rename_i h
      have hc : c = slash := by simpa using h
      subst hc
      split
      · rename_i hcs
        subst hcs
        exact ⟨by simp, fun h' => absurd rfl h'.ends⟩
      · rename_i hcs
        rw [checkLoop_eq_none]
        have hlast : (slash :: cs).getLast? = cs.getLast? := by
          cases cs with
          | nil => exact absurd rfl hcs
          | cons d ds => simp
        constructor
        · rintro ⟨h1, h2⟩
          exact ⟨rfl, by rw [hlast]; exact h1, fun d hd => by
            rcases List.mem_cons.1 hd with rfl | hd
            · exact .inl rfl
            · exact h2 d hd⟩
        · intro h'
          exact ⟨by rw [← hlast]; exact h'.ends, fun d hd => h'.chars d (List.mem_cons_of_mem _ hd)⟩

theorem checkKeyFormat_cases (key : Str) : checkKeyFormat key = .none ∨ checkKeyFormat key = .keyMalformed := by
  have hloop : ∀ cs : Str, checkLoop cs = .none ∨ checkLoop cs = .keyMalformed := by
    intro cs
    induction cs with
    | nil => exact .inl rfl
    | cons c cs ih =>
      unfold checkLoop
      split
      · exact .inr rfl
      · split
        · exact .inr rfl
        · exact ih
  cases key with
  | nil => exact .inr rfl
  | cons c cs =>
    rw [checkKeyFormat]
    split
    · exact .inr rfl
    · split
      · exact .inr rfl
      · exact hloop cs

/-- **The loop invariant of `pruneKey`**: before index `i` the key is `a ++ '/' :: b` with no slash in `b`, and
`lastSlashIndex` is the length of `a`; the loop leaves that part alone and squeezes the rest. -/
theorem pruneLoop_eq : ∀ (n : Nat) (a b rest : Str), rest.length ≤ n → slash ∉ b → ∃ a' b', slash ∉ b' ∧
    pruneLoop n ((a ++ slash :: b) ++ rest) (a ++ slash :: b).length a.length = (a' ++ slash :: b', a'.length) ∧
    a' ++ slash :: b' = (a ++ slash :: b) ++ squeeze slash (decide (b = [])) rest
  | n, a, b, [], _, hb => by
    refine ⟨a, b, hb, ?_, by simp [squeeze]⟩
    cases n <;> simp [pruneLoop]
  | 0, _, _, _ :: _, h, _ => by simp at h
  | n + 1, a, b, c :: cs, h, hb => by
    have hlen : (a ++ slash :: b).length < ((a ++ slash :: b) ++ c :: cs).length := by simp
    have hget : ((a ++ slash :: b) ++ c :: cs)[(a ++ slash :: b).length]? = some c := by
      rw [List.getElem?_append_right (Nat.le_refl _)]; simp
    have hrest : cs.length ≤ n := by simpa using h
    rw [pruneLoop, if_pos hlen, hget]
    by_cases hc : c = slash
    · subst hc
      rw [if_pos rfl]
      have hidx : a.length = (a ++ slash :: b).length - 1 ↔ b = [] := by
        rw [← List.length_eq_zero_iff]; simp only [List.length_append, List.length_cons]; omega
      by_cases hbn : b = []
      · -- a second slash in a row: it is erased and the index stays
        rw [if_pos (hidx.2 hbn), List.eraseIdx_append_of_length_le (Nat.le_refl _)]
        have hi : (a ++ slash :: b).length - 1 + 1 = (a ++ slash :: b).length := by simp; omega
        obtain ⟨a', b', hb', h1, h2⟩ := pruneLoop_eq n a b cs hrest hb
        refine ⟨a', b', hb', ?_, ?_⟩
        · rw [hi, Nat.sub_self]; exact h1
        · rw [h2]; simp [hbn, squeeze]
      · rw [if_neg (fun hx => hbn (hidx.1 hx))]
        obtain ⟨a', b', hb', h1, h2⟩ := pruneLoop_eq n (a ++ slash :: b) [] cs hrest (by simp)
        refine ⟨a', b', hb', ?_, ?_⟩
        · rw [← h1]; congr 1
          · simp
          · simp; omega
        · rw [h2]; simp [hbn, squeeze]
    · rw [if_neg (by simpa using hc)]
      obtain ⟨a', b', hb', h1, h2⟩ := pruneLoop_eq n a (b ++ [c]) cs hrest (by
        simp [hb, Ne.symm hc])
      refine ⟨a', b', hb', ?_, ?_⟩
      · rw [← h1]; congr 1
        · simp
        · simp; omega
      · rw [h2]; simp [squeeze, hc]

theorem comps_proper (key : Str) : Proper slash (comps key) := Split.pieces_proper key

theorem IsPath.proper {ps : List Str} (h : IsPath ps) : Proper slash ps := fun p hp =>
  ⟨(h.word p hp).1, fun hm => by have := (h.word p hp).2 slash hm; rw [not_isWordChar_slash] at this; cases this⟩

theorem comps_pathKey {ps : List Str} (h : IsPath ps) : comps (pathKey ps) = ps := Split.pieces_join h.proper

theorem pathKey_inj {ps qs : List Str} (hp : IsPath ps) (hq : IsPath qs) (h : pathKey ps = pathKey qs) : ps = qs :=
  Split.join_inj hp.proper hq.proper h

/-- **The components of a well-formed key are a path.** -/
theorem WellFormed.isPath {key : Str} (h : WellFormed key) : IsPath (comps key) where
  ne_nil := (Split.squeeze_eq_join h.starts h.ends).1
  word := fun p hp => ⟨(comps_proper key p hp).1, fun c hc =>
    (h.chars c (Split.mem_of_mem_pieces hp hc)).resolve_left (fun hs => (comps_proper key p hp).2 (hs ▸ hc))⟩

/-- **`pruneKey` on a well-formed key**: it leaves the key of the components, and returns the length of the key of all
components but the last. -/
theorem pruneKey_of_wellFormed {key : Str} (h : WellFormed key) :
    pruneKey key = .ok (pathKey (comps key), (pathKey (comps key).dropLast).length) := by
  obtain ⟨hne, hsq⟩ := Split.squeeze_eq_join h.starts h.ends
  have hlast : (comps key).dropLast ++ [(comps key).getLast hne] = comps key := List.dropLast_append_getLast hne
  cases key with
  | nil => cases h.starts
  | cons c cs =>
    have hc : c = slash := by simpa using h.starts
    subst hc
    obtain ⟨a, b, hb, h1, h2⟩ := pruneLoop_eq (slash :: cs).length [] [] cs (by simp) (by simp)
    simp only [List.nil_append, List.length_cons, List.length_nil, decide_true, List.cons_append] at h1 h2
    have hkey : a ++ slash :: b = pathKey (comps (slash :: cs)) := by
      rw [h2, pathKey, comps, ← hsq]; simp [squeeze]
    have hsplit : a ++ slash :: b =
        pathKey (comps (slash :: cs)).dropLast ++ slash :: (comps (slash :: cs)).getLast hne := by
      rw [hkey]; conv => lhs; rw [← hlast]
      exact Split.join_snoc _ _
    obtain ⟨ha, -⟩ := Split.last_sep_inj hb (comps_proper _ _ (List.getLast_mem hne)).2 hsplit
    simp only [pruneKey, if_true]
    rw [show (slash :: cs).length = cs.length + 1 from rfl, h1, hkey, ha]

end MetaDR
