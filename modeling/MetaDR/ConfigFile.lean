import MetaDR.Configurator
/-!
# ConfigFile — what a configuration file says

A line, its blanks taken off both ends, is empty, a comment, or a key, one `=` and a value; the value of `EndPoints` is
a list of `ip:port` pairs (`readLine`).  This is the file's grammar, in terms of `List.splitOn`, and says nothing of how
`parse` goes about it.  On what it admits `parseLine` does what the line says, but for lines of blanks
(`parseLine_of_readLine`).  What `parseLine` takes beyond it are the lines in which a delimiter stands where a field
starts, or the last field is empty (`Tolerated`).
-/
namespace MetaDR

open Fields (strip fields WellCut)

/-- An `ip:port` pair. -/
def readEndPoint (item : Str) : Option EndPoint :=
  match (item.splitOn colon).map (strip space) with
  | [ip, port] => if ip = [] ∨ port = [] then none else some ⟨ip, port⟩
  | _ => none

/-- What a line says. -/
inductive Setting where
  | nothing
  | clientPort (port : Str)
  | replicationPort (port : Str)
  | endPoints (eps : List EndPoint)
  | recovering (val : Str)
  deriving DecidableEq, Repr

def readKeyVal (key val : Str) : Option Setting :=
  if val = [] then none
  else if key = clientPortKey then some (.clientPort val)
  else if key = replicationPortKey then some (.replicationPort val)
  else if key = endPointsKey then ((val.splitOn comma).mapM readEndPoint).map .endPoints
  else if key = recoveringKey then some (.recovering val)
  else none

/-- **The grammar of a line.** -/
def readLine (line : Str) : Option Setting :=
  let line := strip space line
  if line = [] ∨ line.head? = some hash then some .nothing
  else
    match line.splitOn equals with
    | [key, val] => readKeyVal (strip space key) (strip space val)
    | _ => none

def Setting.apply : Setting → UserInput → UserInput
  | .nothing, uip => uip
  | .clientPort port, uip => { uip with clientPort := port }
  | .replicationPort port, uip => { uip with replicationPort := port }
  | .endPoints eps, uip => { uip with endPoints := uip.endPoints ++ eps }
  | .recovering val, uip => { uip with recovering := uip.recovering || decide (val = trueVal) }

/-- A pair whose parts may begin with the delimiter, and whose port may be missing. -/
def LoosePair (item : Str) (ep : EndPoint) : Prop :=
  ∃ ip port, strip space item = ip ++ colon :: port ∧ ip ≠ [] ∧ colon ∉ ip.tail ∧ colon ∉ port.tail ∧
    ep = ⟨strip space ip, strip space port⟩

/-- A list of such pairs, each of which may begin with a comma. -/
def LooseEndPoints (val : Str) : Prop :=
  ∃ items, WellCut comma items ∧ val = [comma].intercalate items ∧ ∀ item ∈ items, ∃ ep, LoosePair item ep

/-- **A key, one `=` and whatever**: the value may be missing or begin with `=`, and so on for its parts. -/
def Tolerated (line : Str) : Prop :=
  ∃ key val, strip space line = key ++ equals :: val ∧ equals ∉ key ∧ equals ∉ val.tail ∧
    (strip space key = clientPortKey ∨ strip space key = replicationPortKey ∨ strip space key = recoveringKey ∨
      (strip space key = endPointsKey ∧ LooseEndPoints (strip space val)))

theorem readEndPoint_eq_some {item : Str} {ep : EndPoint} :
    readEndPoint item = some ep ↔
      ∃ ip port, item = ip ++ colon :: port ∧ colon ∉ ip ∧ colon ∉ port ∧ strip space ip = ep.ip ∧
        strip space port = ep.port ∧ ep.ip ≠ [] ∧ ep.port ≠ [] := by
  unfold readEndPoint
  constructor
  · intro h
    split at h
    · rename_i x y hs
      split at h
      · cases h
      · rename_i hne
        rw [not_or] at hne
        cases h
        obtain ⟨ip, l, hsp, rfl, hl⟩ := List.map_eq_cons_iff.1 hs
        obtain ⟨port, rfl, rfl⟩ := List.map_eq_singleton_iff.1 hl
        obtain ⟨rfl, hip, hport⟩ := Fields.splitOn_eq_pair.1 hsp
        exact ⟨ip, port, rfl, hip, hport, rfl, rfl, hne⟩
    · cases h
  · rintro ⟨ip, port, rfl, hip, hport, h1, h2, hne1, hne2⟩
    rw [Fields.splitOn_eq_pair.2 ⟨rfl, hip, hport⟩, List.map_cons, List.map_singleton, h1, h2]
    show (if ep.ip = [] ∨ ep.port = [] then none else some ep) = some ep
    rw [if_neg (not_or.2 ⟨hne1, hne2⟩)]

theorem loosePair_of_readEndPoint {item : Str} {ep : EndPoint} (h : readEndPoint item = some ep) :
    LoosePair item ep := by
  obtain ⟨ip, port, rfl, hip, hport, h1, h2, hne, -⟩ := readEndPoint_eq_some.1 h
  refine ⟨_, _, Fields.strip_append_cons (by decide) ip port, fun hnil => hne ?_, ?_, ?_, ?_⟩
  · rw [← h1, ← Fields.strip_dropWhile, hnil]
    rfl
  · exact fun hm => hip ((List.dropWhile_suffix _).mem (List.mem_of_mem_tail hm))
  · exact fun hm => hport ((List.rdropWhile_prefix _ _).mem (List.mem_of_mem_tail hm))
  · rw [Fields.strip_dropWhile, Fields.strip_rdropWhile, h1, h2]

theorem mapM_eq_some {α β : Type} {f : α → Option β} {xs : List α} {ys : List β} :
    xs.mapM f = some ys ↔ List.Forall₂ (fun x y => f x = some y) xs ys := by
  induction xs generalizing ys with
  | nil => simp [eq_comm]
  | cons x xs ih =>
    rw [List.mapM_cons]
    constructor
    · intro h
      simp only [Option.bind_eq_bind, Option.bind_eq_some_iff, Option.pure_def, Option.some.injEq] at h
      obtain ⟨y, hy, zs, hzs, rfl⟩ := h
      exact .cons hy (ih.1 hzs)
    · intro h
      cases h with
      | cons hy hys =>
        rw [hy, ih.2 hys]
        rfl

theorem exists_forall₂ {α β : Type} {R : α → β → Prop} : ∀ {xs : List α}, (∀ x ∈ xs, ∃ y, R x y) →
    ∃ ys, List.Forall₂ R xs ys
  | [], _ => ⟨[], .nil⟩
  | x :: xs, h => by
    obtain ⟨y, hy⟩ := h x List.mem_cons_self
    obtain ⟨ys, hys⟩ := exists_forall₂ (fun z hz => h z (List.mem_cons_of_mem x hz))
    exact ⟨y :: ys, .cons hy hys⟩

theorem parseEndPts_ok {line : Str} {items : List Str} {eps : List EndPoint} (h : List.Forall₂ LoosePair items eps) :
    ∀ acc, parseEndPts line (items.map trim) acc = .ok (acc ++ eps) := by
  induction h with
  | nil => intro acc; rw [List.append_nil]; rfl
  | @cons item ep items eps hpair _ ih =>
    intro acc
    obtain ⟨ip, port, heq, hne, hip, hport, rfl⟩ := hpair
    have hs : split (trim item) colon = [strip space ip, strip space port] :=
      (split_trim_eq_pair (by decide)).2 ⟨ip, port, heq, hne, hip, hport, rfl, rfl⟩
    rw [List.map_cons, parseEndPts, hs]
    show parseEndPts line (items.map trim) _ = _
    rw [ih, List.append_assoc, List.singleton_append]

theorem loosePairs_of_ok {line : Str} : ∀ {items : List Str} {acc eps : List EndPoint},
    parseEndPts line (items.map trim) acc = .ok eps → ∀ item ∈ items, ∃ ep, LoosePair item ep
  | [], _, _, _ => fun _ hm => absurd hm List.not_mem_nil
  | item :: items, acc, eps, h => by
    rw [List.map_cons, parseEndPts] at h
    split at h
    · rename_i ip port hs
      obtain ⟨a, b, heq, hne, ha, hb, -, -⟩ := (split_trim_eq_pair (by decide)).1 hs
      intro item' hm
      rcases List.mem_cons.1 hm with rfl | hm
      · exact ⟨_, a, b, heq, hne, ha, hb, rfl⟩
      · exact loosePairs_of_ok h item' hm
    · cases h

theorem split_comma_of_read {val : Str} {eps : List EndPoint} (h : (val.splitOn comma).mapM readEndPoint = some eps) :
    split val comma = (val.splitOn comma).map trim := by
  have hread := mapM_eq_some.1 h
  have hne : ∀ item ∈ val.splitOn comma, item ≠ [] ∧ comma ∉ item := by
    intro item hm
    refine ⟨?_, (Split.splitOn_mem val item hm).1⟩
    rintro rfl
    obtain ⟨k, hk, hget⟩ := List.getElem_of_mem hm
    have := hread.get hk (hread.length_eq ▸ hk)
    rw [List.get_eq_getElem, hget] at this
    cases this
  have hcut := Fields.wellCut_of_notMem (List.splitOn_ne_nil comma val) hne
  rw [split_eq, ← Fields.fields_intercalate hcut, List.intercalate_splitOn]

/-- **The keys** and what their values say. -/
inductive KeyVal (val : Str) : Str → Setting → Prop where
  | clientPort : KeyVal val clientPortKey (.clientPort val)
  | replicationPort : KeyVal val replicationPortKey (.replicationPort val)
  | endPoints (eps : List EndPoint) (h : (val.splitOn comma).mapM readEndPoint = some eps) :
      KeyVal val endPointsKey (.endPoints eps)
  | recovering : KeyVal val recoveringKey (.recovering val)

theorem keyVal_of_readKeyVal {key val : Str} {st : Setting} (h : readKeyVal key val = some st) : KeyVal val key st := by
  unfold readKeyVal at h
  split at h
  · cases h
  · split at h
    · rename_i hk
      cases h
      exact hk ▸ .clientPort
    · split at h
      · rename_i hk
        cases h
        exact hk ▸ .replicationPort
      · split at h
        · rename_i hk
          obtain ⟨eps, heps, rfl⟩ := Option.map_eq_some_iff.1 h
          exact hk ▸ .endPoints eps heps
        · split at h
          · rename_i hk
            cases h
            exact hk ▸ .recovering
          · cases h

theorem KeyVal.key_ne_nil {key val : Str} {st : Setting} (h : KeyVal val key st) : key ≠ [] := by
  cases h <;> decide

theorem parseKeyVal_of_keyVal {key val : Str} {st : Setting} (h : KeyVal val key st) (line : Str) (uip : UserInput) :
    parseKeyVal line key val uip = .ok (st.apply uip) := by
  unfold parseKeyVal
  cases h with
  | clientPort =>
    rw [if_pos rfl]
    rfl
  | replicationPort =>
    rw [if_neg (by decide), if_pos rfl]
    rfl
  | endPoints eps heps =>
    have hpairs := (mapM_eq_some.1 heps).imp (fun _ _ => loosePair_of_readEndPoint)
    rw [if_neg (by decide), if_neg (by decide), if_pos rfl, split_comma_of_read heps, parseEndPts_ok hpairs]
    rfl
  | recovering =>
    rw [if_neg (by decide), if_neg (by decide), if_neg (by decide), if_pos rfl]
    show _ = Except.ok { uip with recovering := uip.recovering || decide (val = trueVal) }
    split
    · rename_i ht
      rw [decide_eq_true ht, Bool.or_true]
    · rename_i ht
      rw [decide_eq_false ht, Bool.or_false]

theorem trim_eq_strip_of_ne {line : Str} (h : strip space line ≠ []) : trim line = strip space line := by
  refine trim_eq_strip (.inr ?_)
  simpa only [ne_eq, Fields.strip_eq_nil, not_forall, exists_prop] using h

theorem parseLine_comment {line : Str} (h : strip space line ≠ []) (hc : (strip space line).head? = some hash)
    (uip : UserInput) : parseLine line uip = .ok uip := by
  unfold parseLine
  dsimp only
  rw [trim_eq_strip_of_ne h, if_neg h, if_pos hc]

/-- **`parseLine` on a line that has something to say.** -/
theorem parseLine_eq {line : Str} (h : strip space line ≠ []) (hc : (strip space line).head? ≠ some hash)
    (uip : UserInput) :
    parseLine line uip =
      match split (trim line) equals with
      | [key, val] => parseKeyVal (strip space line) key val uip
      | _ => .error (strip space line) := by
  unfold parseLine
  dsimp only
  rw [trim_eq_strip_of_ne h]
  exact (if_neg h).trans (if_neg hc)

/-- **What a line says is what `parseLine` does**, blanks apart. -/
theorem parseLine_of_readLine {line : Str} {st : Setting} (h : readLine line = some st)
    (hb : line = [] ∨ strip space line ≠ []) (uip : UserInput) : parseLine line uip = .ok (st.apply uip) := by
  rcases hb with rfl | hb
  · cases h
    rfl
  · unfold readLine at h
    dsimp only at h
    split at h
    · rename_i hc
      cases h
      exact parseLine_comment hb (hc.resolve_left hb) uip
    · rename_i hc
      rw [not_or] at hc
      split at h
      · rename_i key val hs
        obtain ⟨heq, hkey, hval⟩ := Fields.splitOn_eq_pair.1 hs
        have hkv := keyVal_of_readKeyVal h
        have hne : key ≠ [] := fun hnil => hkv.key_ne_nil (by rw [hnil]; rfl)
        have hsplit : split (trim line) equals = [strip space key, strip space val] :=
          (split_trim_eq_pair (by decide)).2 ⟨key, val, heq, hne, fun hm => hkey (List.mem_of_mem_tail hm),
            fun hm => hval (List.mem_of_mem_tail hm), rfl, rfl⟩
        rw [parseLine_eq hb hc.2, hsplit]
        exact parseKeyVal_of_keyVal hkv _ uip
      · cases h

/-- A line of blanks. -/
def Blank (line : Str) : Prop := line ≠ [] ∧ strip space line = []

theorem parseLine_blank {line : Str} (h : Blank line) (uip : UserInput) : parseLine line uip = .error line := by
  obtain ⟨hne, hs⟩ := h
  have htrim := trim_of_blank (Fields.strip_eq_nil.1 hs)
  have hhead : line.head? ≠ some hash := fun hh => by
    have := Fields.strip_eq_nil.1 hs hash (List.mem_of_mem_head? hh)
    revert this
    decide
  unfold parseLine
  dsimp only
  rw [htrim, if_neg hne, if_neg hhead]
  split
  · rename_i x y hsplit
    rw [← htrim] at hsplit
    obtain ⟨a, b, heq, -⟩ := (split_trim_eq_pair (by decide)).1 hsplit
    rw [hs] at heq
    simp at heq
  · rfl

theorem ne_of_readLine_none {line : Str} (h : readLine line = none) :
    strip space line ≠ [] ∧ (strip space line).head? ≠ some hash := by
  unfold readLine at h
  dsimp only at h
  split at h
  · cases h
  · rename_i hc
    exact not_or.1 hc

/-- **The keys `parseKeyVal` takes**, and what it asks of their values. -/
theorem parseKeyVal_ok {line key val : Str} {uip uip' : UserInput} (h : parseKeyVal line key val uip = .ok uip') :
    key = clientPortKey ∨ key = replicationPortKey ∨ key = recoveringKey ∨
      (key = endPointsKey ∧ ∃ eps, parseEndPts line (split val comma) uip.endPoints = .ok eps) := by
  unfold parseKeyVal at h
  split at h
  · rename_i hk
    exact .inl hk
  · split at h
    · rename_i hk
      exact .inr (.inl hk)
    · split at h
      · rename_i hk
        split at h
        · rename_i eps heps
          exact .inr (.inr (.inr ⟨hk, eps, heps⟩))
        · cases h
      · split at h
        · rename_i hk
          exact .inr (.inr (.inl hk))
        · cases h

theorem tolerated_of_ok {line : Str} (h : readLine line = none) {uip uip' : UserInput}
    (hok : parseLine line uip = .ok uip') : Tolerated line := by
  obtain ⟨hne, hc⟩ := ne_of_readLine_none h
  rw [parseLine_eq hne hc] at hok
  split at hok
  · rename_i x y hs
    obtain ⟨key, val, heq, -, -, hval, rfl, rfl⟩ := (split_trim_eq_pair (by decide)).1 hs
    have hno : ∀ k : Str, strip space key = k → equals ∉ k → equals ∉ key := fun k hk hno hm =>
      hno (hk ▸ (Fields.mem_strip (by decide)).2 hm)
    rcases parseKeyVal_ok hok with hk | hk | hk | ⟨hk, eps, heps⟩
    · exact ⟨key, val, heq, hno _ hk (by decide), hval, .inl hk⟩
    · exact ⟨key, val, heq, hno _ hk (by decide), hval, .inr (.inl hk)⟩
    · exact ⟨key, val, heq, hno _ hk (by decide), hval, .inr (.inr (.inl hk))⟩
    · rw [split_eq] at heps
      exact ⟨key, val, heq, hno _ hk (by decide), hval, .inr (.inr (.inr ⟨hk, _, Fields.wellCut_fields _,
        (Fields.intercalate_fields _).symm, loosePairs_of_ok heps⟩))⟩
  · cases hok

theorem ok_of_tolerated {line : Str} (h : readLine line = none) (ht : Tolerated line) (uip : UserInput) :
    ∃ uip', parseLine line uip = .ok uip' := by
  obtain ⟨hne, hc⟩ := ne_of_readLine_none h
  obtain ⟨key, val, heq, hkey, hval, hk⟩ := ht
  have hkne : key ≠ [] := by
    rintro rfl
    have hnil : ∀ k : Str, k ≠ [] → ¬ strip space [] = k := fun k hk he => hk he.symm
    rcases hk with hk | hk | hk | ⟨hk, -⟩ <;> exact hnil _ (by decide) hk
  have hsplit : split (trim line) equals = [strip space key, strip space val] :=
    (split_trim_eq_pair (by decide)).2
      ⟨key, val, heq, hkne, fun hm => hkey (List.mem_of_mem_tail hm), hval, rfl, rfl⟩
  rw [parseLine_eq hne hc, hsplit]
  show ∃ uip', parseKeyVal (strip space line) (strip space key) (strip space val) uip = .ok uip'
  rcases hk with hk | hk | hk | ⟨hk, items, hcut, hval', hitems⟩
  · rw [hk]
    exact ⟨_, parseKeyVal_of_keyVal .clientPort _ uip⟩
  · rw [hk]
    exact ⟨_, parseKeyVal_of_keyVal .replicationPort _ uip⟩
  · rw [hk]
    exact ⟨_, parseKeyVal_of_keyVal .recovering _ uip⟩
  · obtain ⟨eps, heps⟩ := exists_forall₂ hitems
    unfold parseKeyVal
    rw [hk, if_neg (by decide), if_neg (by decide), if_pos rfl, hval', split_eq, Fields.fields_intercalate hcut,
      parseEndPts_ok heps]
    exact ⟨_, rfl⟩

/-- **The lines `parseLine` takes.** -/
theorem parseLine_ok_iff (line : Str) (uip : UserInput) :
    (∃ uip', parseLine line uip = .ok uip') ↔ ¬ Blank line ∧ (readLine line ≠ none ∨ Tolerated line) := by
  constructor
  · rintro ⟨uip', hok⟩
    refine ⟨fun hb => ?_, ?_⟩
    · rw [parseLine_blank hb] at hok
      cases hok
    · by_cases h : readLine line = none
      · exact .inr (tolerated_of_ok h hok)
      · exact .inl h
  · rintro ⟨hb, h⟩
    by_cases hr : readLine line = none
    · exact ok_of_tolerated hr (h.resolve_left (not_not.2 hr)) uip
    · obtain ⟨st, hst⟩ := Option.ne_none_iff_exists'.1 hr
      refine ⟨_, parseLine_of_readLine hst ?_ uip⟩
      by_cases hl : line = []
      · exact .inl hl
      · exact .inr (fun hs => hb ⟨hl, hs⟩)

/-- **The files `parse` takes.** -/
theorem parse_ok_iff (lines : List Str) (uip : UserInput) :
    (∃ uip', parse lines uip = .ok uip') ↔
      ∀ line ∈ lines, ¬ Blank line ∧ (readLine line ≠ none ∨ Tolerated line) := by
  induction lines generalizing uip with
  | nil => exact iff_of_true ⟨uip, rfl⟩ (fun _ hm => absurd hm List.not_mem_nil)
  | cons line lines ih =>
    rw [List.forall_mem_cons, ← parseLine_ok_iff line uip, parse]
    split
    · rename_i uip₁ h
      rw [ih uip₁]
      exact ⟨fun hl => ⟨⟨uip₁, h⟩, hl⟩, And.right⟩
    · rename_i what h
      refine iff_of_false (fun ⟨_, he⟩ => by cases he) (fun ⟨⟨_, he⟩, _⟩ => ?_)
      rw [h] at he
      cases he

theorem parse_of_read {lines : List Str} (h : ∀ line ∈ lines, ¬ Blank line ∧ readLine line ≠ none) (uip : UserInput) :
    parse lines uip = .ok ((lines.filterMap readLine).foldl (fun uip st => st.apply uip) uip) := by
  induction lines generalizing uip with
  | nil => rfl
  | cons line lines ih =>
    obtain ⟨⟨hb, hr⟩, hlines⟩ := List.forall_mem_cons.1 h
    obtain ⟨st, hst⟩ := Option.ne_none_iff_exists'.1 hr
    have hne : line = [] ∨ strip space line ≠ [] := by
      by_cases hl : line = []
      · exact .inl hl
      · exact .inr (fun hs => hb ⟨hl, hs⟩)
    rw [parse, parseLine_of_readLine hst hne]
    show parse lines (st.apply uip) = _
    rw [ih hlines, List.filterMap_cons, hst]
    rfl

theorem eq_of_ok {lines : List Str} {uip uip' : UserInput} (hok : parse lines uip = .ok uip')
    (hr : ∀ line ∈ lines, readLine line ≠ none) :
    uip' = (lines.filterMap readLine).foldl (fun uip st => st.apply uip) uip := by
  have hb := (parse_ok_iff lines uip).1 ⟨uip', hok⟩
  rw [parse_of_read (fun line hm => ⟨(hb line hm).1, hr line hm⟩)] at hok
  exact (Except.ok.inj hok).symm

def Setting.clientPort? : Setting → Option Str
  | .clientPort port => some port
  | _ => none

def Setting.replicationPort? : Setting → Option Str
  | .replicationPort port => some port
  | _ => none

/-- The last value that the lines give, empty if none does. -/
def lastGiven (get : Setting → Option Str) (lines : List Str) : Str :=
  ((lines.filterMap readLine).filterMap get).getLast?.getD []

/-- A field that each setting sets or leaves holds the last value set. -/
theorem foldl_apply_last (field : UserInput → Str) {get : Setting → Option Str}
    (hf : ∀ st uip, field (Setting.apply st uip) = (get st).getD (field uip)) (sts : List Setting) (uip : UserInput) :
    field (sts.foldl (fun uip st => st.apply uip) uip) = (sts.filterMap get).getLast?.getD (field uip) := by
  induction sts generalizing uip with
  | nil => rfl
  | cons st sts ih =>
    rw [List.foldl_cons, ih, hf, List.filterMap_cons]
    cases get st with
    | none => rfl
    | some v => rw [List.getLast?_cons, Option.getD_some, Option.getD_some]

theorem foldl_apply_recovering (sts : List Setting) (uip : UserInput) :
    (sts.foldl (fun uip st => st.apply uip) uip).recovering = true ↔
      uip.recovering = true ∨ .recovering trueVal ∈ sts := by
  induction sts generalizing uip with
  | nil => simp
  | cons st sts ih =>
    rw [List.foldl_cons, ih, List.mem_cons]
    cases st with
    | recovering val =>
      simp only [Setting.apply, Bool.or_eq_true, decide_eq_true_eq, Setting.recovering.injEq, or_assoc]
      rw [eq_comm (a := val)]
    | _ => simp [Setting.apply]

/-- **The file is classified as its lines read**: it is refused exactly when one of them does not, and otherwise gives
the last value of each port, and the flag exactly when a line sets it. -/
structure Classified (lines : List Str) (recovering : Bool) : Prop where
  throws : (∃ what, parse lines (.declared recovering) = .error what) ↔ ∃ line ∈ lines, readLine line = none
  clientPort : ∀ uip, parse lines (.declared recovering) = .ok uip →
    uip.clientPort = lastGiven Setting.clientPort? lines
  replicationPort : ∀ uip, parse lines (.declared recovering) = .ok uip →
    uip.replicationPort = lastGiven Setting.replicationPort? lines
  recovering : ∀ uip, parse lines (.declared recovering) = .ok uip →
    (uip.recovering = true ↔ ∃ line ∈ lines, readLine line = some (.recovering trueVal))

/-- A line that does not read well, and `parse` refuses. -/
def Malformed (line : Str) : Prop := readLine line = none ∧ ¬ Tolerated line

/-- A line that does not read well, for a delimiter that stands where a field starts or a field that is missing. -/
def Slips (line : Str) : Prop := readLine line = none ∧ Tolerated line

theorem parse_throws_iff (lines : List Str) (uip : UserInput) :
    (∃ what, parse lines uip = .error what) ↔ (∃ line ∈ lines, Blank line) ∨ ∃ line ∈ lines, Malformed line := by
  have hnot : (∃ what, parse lines uip = .error what) ↔ ¬ ∃ uip', parse lines uip = .ok uip' := by
    cases parse lines uip <;> simp
  rw [hnot, parse_ok_iff]
  constructor
  · intro h
    simp only [not_forall] at h
    obtain ⟨line, hm, hl⟩ := h
    by_cases hb : Blank line
    · exact .inl ⟨line, hm, hb⟩
    · refine .inr ⟨line, hm, ?_, fun ht => hl ⟨hb, .inr ht⟩⟩
      by_contra hr
      exact hl ⟨hb, .inl hr⟩
  · rintro (⟨line, hm, hb⟩ | ⟨line, hm, hr, ht⟩) hall
    · exact (hall line hm).1 hb
    · exact (hall line hm).2.elim (fun h => h hr) ht

/-- **When a file is classified right**: some line is malformed beyond the slips, or it has a line of blanks exactly
when it has a slip; and the flag's memory happens to hold `false`, or a line sets it, or the file is refused. -/
theorem config_classified (lines : List Str) (recovering : Bool) :
    Classified lines recovering ↔
      ((∃ line ∈ lines, Malformed line) ∨ ((∃ line ∈ lines, Blank line) ↔ ∃ line ∈ lines, Slips line)) ∧
        (recovering = false ∨ (∃ line ∈ lines, readLine line = none) ∨
          ∃ line ∈ lines, readLine line = some (.recovering trueVal)) := by
  have hunread : (∃ line ∈ lines, readLine line = none) ↔
      (∃ line ∈ lines, Malformed line) ∨ ∃ line ∈ lines, Slips line := by
    constructor
    · rintro ⟨line, hm, hr⟩
      by_cases ht : Tolerated line
      · exact .inr ⟨line, hm, hr, ht⟩
      · exact .inl ⟨line, hm, hr, ht⟩
    · rintro (⟨line, hm, hr, -⟩ | ⟨line, hm, hr, -⟩) <;> exact ⟨line, hm, hr⟩
  have hthrows := parse_throws_iff lines (.declared recovering)
  have hfirst : ((∃ what, parse lines (.declared recovering) = .error what) ↔ ∃ line ∈ lines, readLine line = none) ↔
      (∃ line ∈ lines, Malformed line) ∨ ((∃ line ∈ lines, Blank line) ↔ ∃ line ∈ lines, Slips line) := by
    rw [hthrows, hunread]
    by_cases hm : ∃ line ∈ lines, Malformed line
    · simp only [hm, or_true, true_or]
    · simp only [hm, or_false, false_or]
  have hflag : ∀ uip, parse lines (.declared recovering) = .ok uip → (∀ line ∈ lines, readLine line ≠ none) →
      (uip.recovering = true ↔
        recovering = true ∨ ∃ line ∈ lines, readLine line = some (.recovering trueVal)) := fun uip hok hr => by
    rw [eq_of_ok hok hr, foldl_apply_recovering, List.mem_filterMap]
    rfl
  constructor
  · intro h
    refine ⟨hfirst.1 h.throws, ?_⟩
    by_cases hun : ∃ line ∈ lines, readLine line = none
    · exact .inr (.inl hun)
    · have hr : ∀ line ∈ lines, readLine line ≠ none := fun line hm he => hun ⟨line, hm, he⟩
      cases hp : parse lines (.declared recovering) with
      | error what => exact absurd (h.throws.1 ⟨what, hp⟩) hun
      | ok uip =>
        have hiff := (h.recovering uip hp).symm.trans (hflag uip hp hr)
        cases recovering with
        | false => exact .inl rfl
        | true => exact .inr (.inr (hiff.2 (.inl rfl)))
  · rintro ⟨h₁, h₂⟩
    have hthrow := hfirst.2 h₁
    have hread : ∀ uip, parse lines (.declared recovering) = .ok uip → ∀ line ∈ lines, readLine line ≠ none :=
      fun uip hok line hm he => by
        obtain ⟨what, hw⟩ := hthrow.2 ⟨line, hm, he⟩
        rw [hok] at hw
        cases hw
    refine ⟨hthrow, fun uip hok => ?_, fun uip hok => ?_, fun uip hok => ?_⟩
    · rw [eq_of_ok hok (hread uip hok)]
      exact foldl_apply_last UserInput.clientPort (fun st uip => by cases st <;> rfl) _ _
    · rw [eq_of_ok hok (hread uip hok)]
      exact foldl_apply_last UserInput.replicationPort (fun st uip => by cases st <;> rfl) _ _
    · have hr := hread uip hok
      rw [hflag uip hok hr]
      refine ⟨fun h => h.elim (fun ht => ?_) id, .inr⟩
      rcases h₂ with hf | ⟨line, hm, he⟩ | hset
      · rw [hf] at ht
        cases ht
      · exact absurd he (hr line hm)
      · exact hset

/-- Two endpoints with an empty item between them. -/
def doubledComma : Str := endPointsKey ++ ascii ['=', 'a', ':', '1', ',', ',', 'b', ':', '2']

/-- A line of one blank is refused; an empty item is taken into the next endpoint's ip; the flag is not set to
`false`. -/
theorem config_classified_fails :
    ¬ Classified [[space]] false ∧ ¬ Classified [doubledComma] false ∧ ¬ Classified [] true := by
  refine ⟨fun h => ?_, fun h => ?_, fun h => ?_⟩
  · obtain ⟨line, hm, hr⟩ := h.throws.1 ⟨[space], rfl⟩
    rw [List.mem_singleton.1 hm] at hr
    revert hr
    decide
  · obtain ⟨what, hw⟩ := h.throws.2 ⟨doubledComma, List.mem_cons_self, by decide⟩
    have hok : parse [doubledComma] (.declared false) =
        .ok ⟨[], [], [⟨[97], [49]⟩, ⟨[44, 98], [50]⟩], false⟩ := by decide
    rw [hok] at hw
    cases hw
  · obtain ⟨line, hm, -⟩ := (h.recovering (.declared true) rfl).1 rfl
    cases hm

end MetaDR
