import MetaDR.KvStore
/-!
# KvStoreSpec — what each API function does, on paths

One lemma per API function, for a primary: a malformed key is refused, and on a well-formed key the function reads and
writes the store at the key of the key's components.  Every later statement about the API cites these and unfolds no
API function.
-/
namespace MetaDR

open KvMemStore (hasKey)

theorem hasKey_eq (kvMap : KvMap) (key : Str) : hasKey kvMap key = decide (key ∈ kvMap) := rfl

theorem checkKeyFormat_of_not {key : Str} (h : ¬ WellFormed key) : checkKeyFormat key = .keyMalformed :=
  (checkKeyFormat_cases key).resolve_left (fun h' => h ((checkKeyFormat_eq_none key).1 h'))

theorem pathKey_append (ps qs : List Str) : pathKey (ps ++ qs) = pathKey ps ++ pathKey qs := Split.join_append ps qs

theorem pathKey_snoc (ps : List Str) (p : Str) : pathKey (ps ++ [p]) = pathKey ps ++ slash :: p := Split.join_snoc ps p

theorem length_pathKey_pos {ps : List Str} : 0 < (pathKey ps).length ↔ ps ≠ [] := by
  rw [List.length_pos_iff, ne_eq, pathKey, Split.join_eq_nil]

/-- The key of a path, cut at the length of its parent's key, is its parent's key. -/
theorem take_pathKey_dropLast {ps : List Str} :
    (pathKey ps).take (pathKey ps.dropLast).length = pathKey ps.dropLast := by
  by_cases h : ps = []
  · subst h; rfl
  · conv => lhs; rw [← List.dropLast_append_getLast h, pathKey_append]
    rw [List.dropLast_append_getLast h, List.take_left']
    rfl

section primary

variable (kvMap : KvMap)

theorem create_malformed {arg : KvPair} (h : ¬ WellFormed arg.key) :
    create true kvMap arg = .ok (.reply (.err .keyMalformed)) := by
  simp [create, checkKeyFormat_of_not h]

theorem create_wellFormed {arg : KvPair} (h : WellFormed arg.key) :
    create true kvMap arg = .ok (
      if (comps arg.key).dropLast ≠ [] ∧ pathKey (comps arg.key).dropLast ∉ kvMap then .reply (.err .keyHasNoParent)
      else if pathKey (comps arg.key) ∈ kvMap then .reply (.err .keyAlreadyPresent)
      else .mutate (.set (pathKey (comps arg.key)) arg.val)) := by
  simp only [create, (checkKeyFormat_eq_none arg.key).2 h, pruneKey_of_wellFormed h, bind, Except.bind, hasKey_eq,
    take_pathKey_dropLast, length_pathKey_pos, decide_eq_true_eq, if_true, Bool.true_eq_false, if_false]
  by_cases hp : (comps arg.key).dropLast = []
  · by_cases hk : pathKey (comps arg.key) ∈ kvMap <;> simp [hp, hk]
  · by_cases hpar : pathKey (comps arg.key).dropLast ∈ kvMap <;>
      by_cases hk : pathKey (comps arg.key) ∈ kvMap <;> simp [hp, hpar, hk]

theorem remove_malformed {arg : Str} (h : ¬ WellFormed arg) :
    remove true kvMap arg = .ok (.reply (.err .keyMalformed)) := by
  simp [remove, checkKeyFormat_of_not h]

theorem remove_wellFormed {arg : Str} (h : WellFormed arg) :
    remove true kvMap arg = .ok (
      if pathKey (comps arg) ∉ kvMap then .reply (.err .keyNotPresent)
      else if KvMemStore.list kvMap (pathKey (comps arg) ++ [slash]) slash ≠ ∅ then .reply (.err .keyHasChildren)
      else .mutate (.remove (pathKey (comps arg)))) := by
  simp only [remove, (checkKeyFormat_eq_none arg).2 h, pruneKey_of_wellFormed h, bind, Except.bind, hasKey_eq,
    decide_eq_false_iff_not, if_true, Bool.true_eq_false, if_false]
  split
  · rfl
  · split <;> rfl

theorem set_malformed {arg : KvPair} (h : ¬ WellFormed arg.key) :
    set true kvMap arg = .ok (.reply (.err .keyMalformed)) := by
  simp [set, checkKeyFormat_of_not h]

theorem set_wellFormed {arg : KvPair} (h : WellFormed arg.key) :
    set true kvMap arg = .ok (
      if pathKey (comps arg.key) ∉ kvMap then .reply (.err .keyNotPresent)
      else .mutate (.set (pathKey (comps arg.key)) arg.val)) := by
  simp only [set, (checkKeyFormat_eq_none arg.key).2 h, pruneKey_of_wellFormed h, bind, Except.bind, hasKey_eq,
    decide_eq_false_iff_not, if_true, Bool.true_eq_false, if_false]
  split <;> rfl

theorem get_malformed {arg : Str} (h : ¬ WellFormed arg) : get true kvMap arg = .ok (.reply (.err .keyMalformed)) := by
  simp [get, checkKeyFormat_of_not h]

theorem get_wellFormed {arg : Str} (h : WellFormed arg) :
    get true kvMap arg = .ok (.reply (match kvMap.lookup (pathKey (comps arg)) with
      | none => .err .keyNotPresent
      | some v => .val v)) := by
  simp only [get, (checkKeyFormat_eq_none arg).2 h, pruneKey_of_wellFormed h, bind, Except.bind, hasKey_eq,
    decide_eq_false_iff_not, if_true, Bool.true_eq_false, if_false, KvMemStore.get]
  cases hl : kvMap.lookup (pathKey (comps arg)) with
  | none => rw [if_pos (fun hm => by simpa [hl] using Finmap.lookup_isSome.2 hm)]
  | some v => rw [if_neg (fun hm => hm (Finmap.mem_iff.2 ⟨v, hl⟩))]

theorem list_root : list true kvMap [slash] = listNames kvMap [] := by simp [list]

theorem list_malformed {arg : Str} (hr : arg ≠ [slash]) (h : ¬ WellFormed arg) :
    list true kvMap arg = .ok (.reply (.err .keyMalformed)) := by
  simp [list, hr, checkKeyFormat_of_not h]

theorem WellFormed.ne_root {arg : Str} (h : WellFormed arg) : arg ≠ [slash] := fun he => h.ends (by rw [he]; rfl)

theorem list_wellFormed {arg : Str} (h : WellFormed arg) :
    list true kvMap arg = if pathKey (comps arg) ∉ kvMap then .ok (.reply (.err .keyNotPresent))
      else listNames kvMap (pathKey (comps arg)) := by
  simp only [list, (checkKeyFormat_eq_none arg).2 h, pruneKey_of_wellFormed h, bind, Except.bind, hasKey_eq,
    decide_eq_false_iff_not, h.ne_root, if_true, Bool.true_eq_false, if_false]

end primary

namespace Req

theorem front_false (kvMap : KvMap) (req : Req) : req.front false kvMap = .ok (.reply (.err .replicaNotPrimary)) := by
  cases req <;> rfl

theorem front_ne_none {isPrimary : Bool} {kvMap : KvMap} {req : Req} {res : Result}
    (h : req.front isPrimary kvMap = .ok (.reply res)) : res ≠ .err .none := by
  rintro rfl
  cases isPrimary with
  | false => rw [front_false] at h; cases h
  | true =>
    have hnames : ∀ key, listNames kvMap key ≠ .ok (.reply (.err .none)) := by
      intro key hk
      unfold listNames at hk
      cases hm : ((KvMemStore.list kvMap (key ++ [slash]) slash).sort strLe).mapM leaf <;> rw [hm] at hk <;> cases hk
    cases req with
    | create arg =>
      simp only [front] at h
      by_cases hw : WellFormed arg.key
      · rw [create_wellFormed kvMap hw] at h
        split at h
        · cases h
        · split at h <;> cases h
      · rw [create_malformed kvMap hw] at h; cases h
    | remove arg =>
      simp only [front] at h
      by_cases hw : WellFormed arg
      · rw [remove_wellFormed kvMap hw] at h
        split at h
        · cases h
        · split at h <;> cases h
      · rw [remove_malformed kvMap hw] at h; cases h
    | set arg =>
      simp only [front] at h
      by_cases hw : WellFormed arg.key
      · rw [set_wellFormed kvMap hw] at h
        split at h <;> cases h
      · rw [set_malformed kvMap hw] at h; cases h
    | get arg =>
      simp only [front] at h
      by_cases hw : WellFormed arg
      · rw [get_wellFormed kvMap hw] at h
        split at h <;> cases h
      · rw [get_malformed kvMap hw] at h; cases h
    | list arg =>
      simp only [front] at h
      by_cases hr : arg = [slash]
      · subst hr
        rw [list_root kvMap] at h
        exact hnames _ h
      · by_cases hw : WellFormed arg
        · rw [list_wellFormed kvMap hw] at h
          split at h
          · cases h
          · exact hnames _ h
        · rw [list_malformed kvMap hr hw] at h; cases h

/-- **The calls that change the store**, and what they call it with. -/
theorem front_mutate {isPrimary : Bool} {kvMap : KvMap} {req : Req} {m : Mutation}
    (h : req.front isPrimary kvMap = .ok (.mutate m)) :
    (∃ arg, (req = .create arg ∨ req = .set arg) ∧ WellFormed arg.key ∧ m = .set (pathKey (comps arg.key)) arg.val) ∨
      ∃ arg, req = .remove arg ∧ WellFormed arg ∧ m = .remove (pathKey (comps arg)) := by
  cases isPrimary with
  | false => rw [front_false] at h; cases h
  | true =>
    have hnames : ∀ key, listNames kvMap key ≠ .ok (.mutate m) := by
      intro key hk
      unfold listNames at hk
      cases hm : ((KvMemStore.list kvMap (key ++ [slash]) slash).sort strLe).mapM leaf <;> rw [hm] at hk <;> cases hk
    cases req with
    | create arg =>
      simp only [front] at h
      by_cases hw : WellFormed arg.key
      · rw [create_wellFormed kvMap hw] at h
        split at h
        · cases h
        · split at h <;> cases h
          exact .inl ⟨arg, .inl rfl, hw, rfl⟩
      · rw [create_malformed kvMap hw] at h; cases h
    | remove arg =>
      simp only [front] at h
      by_cases hw : WellFormed arg
      · rw [remove_wellFormed kvMap hw] at h
        split at h
        · cases h
        · split at h <;> cases h
          exact .inr ⟨arg, rfl, hw, rfl⟩
      · rw [remove_malformed kvMap hw] at h; cases h
    | set arg =>
      simp only [front] at h
      by_cases hw : WellFormed arg.key
      · rw [set_wellFormed kvMap hw] at h
        split at h <;> cases h
        exact .inl ⟨arg, .inr rfl, hw, rfl⟩
      · rw [set_malformed kvMap hw] at h; cases h
    | get arg =>
      simp only [front] at h
      by_cases hw : WellFormed arg
      · rw [get_wellFormed kvMap hw] at h; cases h
      · rw [get_malformed kvMap hw] at h; cases h
    | list arg =>
      simp only [front] at h
      by_cases hr : arg = [slash]
      · subst hr
        rw [list_root kvMap] at h
        exact absurd h (hnames _)
      · by_cases hw : WellFormed arg
        · rw [list_wellFormed kvMap hw] at h
          split at h
          · cases h
          · exact absurd h (hnames _)
        · rw [list_malformed kvMap hr hw] at h; cases h

/-- A key to be removed is there. -/
theorem mem_of_front {isPrimary : Bool} {kvMap : KvMap} {req : Req} {key : Str}
    (h : req.front isPrimary kvMap = .ok (.mutate (.remove key))) : key ∈ kvMap := by
  obtain ⟨arg, -, -, hm⟩ | ⟨arg, rfl, hw, hm⟩ := front_mutate h
  · cases hm
  · cases hm
    cases isPrimary with
    | false => rw [front_false] at h; cases h
    | true =>
      by_contra hk
      rw [front, remove_wellFormed kvMap hw, if_pos hk] at h
      cases h

end Req

end MetaDR
