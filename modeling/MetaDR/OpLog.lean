import MetaDR.KvStore
/-!
# OpLog — `InMemOpLogHandler` (server/inMemOpLogHandler.cc)

The log is a map from op numbers to entries beside the vector of the numbers in the order they were pushed.  The two
name the same numbers and every entry carries its own number; both facts are fields of the handler, so every operation
keeps them.  An append pushes its number without looking, so a number may be listed twice.
-/
namespace MetaDR

/-- `vr::OpType`. -/
inductive OpType where
  | update
  | delete
  deriving DecidableEq, Repr

/-- An operation on the store: what a log entry carries apart from its number and its flag. -/
structure Op where
  opType : OpType
  kvPair : KvPair
  deriving DecidableEq, Repr

/-- `vr::LogEntry`. -/
structure LogEntry where
  kvPair : KvPair
  opType : OpType
  opNum : Nat
  committed : Bool
  deriving DecidableEq, Repr

/-- `vr::OpLog`. -/
abbrev OpLog := List LogEntry

def LogEntry.op (e : LogEntry) : Op := ⟨e.opType, e.kvPair⟩

/-- The callbacks `updateCb` and `deleteCb`. -/
def Op.apply (op : Op) (kvMap : KvMap) : KvMap :=
  match op.opType with
  | .update => KvMemStore.setInt kvMap op.kvPair.key op.kvPair.val
  | .delete => KvMemStore.removeInt kvMap op.kvPair.key

structure InMemOpLogHandler where
  opLog : Finmap (fun _ : Nat => LogEntry)
  opNums : List Nat
  mem_iff : ∀ n, n ∈ opNums ↔ n ∈ opLog
  opNum_eq : ∀ n e, opLog.lookup n = some e → e.opNum = n

namespace InMemOpLogHandler

def empty : InMemOpLogHandler := ⟨∅, [], by simp [Finmap.notMem_empty], by simp⟩

/-- `_opNums.push_back(e.opNum)` and `_opLog[e.opNum] = e`. -/
def push (h : InMemOpLogHandler) (e : LogEntry) : InMemOpLogHandler where
  opLog := h.opLog.insert e.opNum e
  opNums := h.opNums ++ [e.opNum]
  mem_iff := fun n => by rw [List.mem_append, List.mem_singleton, h.mem_iff n, Finmap.mem_insert, or_comm]
  opNum_eq := fun n e' he => by
    by_cases hn : n = e.opNum
    · subst hn; rw [Finmap.lookup_insert] at he; cases he; rfl
    · rw [Finmap.lookup_insert_of_ne _ hn] at he; exact h.opNum_eq n e' he

def appendUpdate (h : InMemOpLogHandler) (kvPair : KvPair) (opNum : Nat) : InMemOpLogHandler :=
  h.push { kvPair, opType := .update, opNum, committed := false }

def appendDelete (h : InMemOpLogHandler) (key : Str) (opNum : Nat) : InMemOpLogHandler :=
  h.push { kvPair := { key, val := [] }, opType := .delete, opNum, committed := false }

def logSize (h : InMemOpLogHandler) : Nat := h.opLog.keys.card

/-- `none` is the failed assertion. -/
def getLogEntry (h : InMemOpLogHandler) (opNum : Nat) : Option LogEntry := h.opLog.lookup opNum

/-- The entries in the order of their numbers' pushes; every number has one, so none is left out. -/
def getLog (h : InMemOpLogHandler) : OpLog := h.opNums.filterMap h.opLog.lookup

def setLog (opLog : OpLog) : InMemOpLogHandler := opLog.foldl push empty

def hasEntry (h : InMemOpLogHandler) (opNum : Nat) : Bool := decide (opNum ∈ h.opLog)

/-- `none` is the failed assertion. -/
def commit (h : InMemOpLogHandler) (opNum : Nat) : Option InMemOpLogHandler :=
  match hl : h.opLog.lookup opNum with
  | none => none
  | some e => some {
      opLog := h.opLog.insert opNum { e with committed := true }
      opNums := h.opNums
      mem_iff := fun n => by
        rw [h.mem_iff n, Finmap.mem_insert]
        exact ⟨.inr, fun hn => hn.elim (fun he => he ▸ Finmap.mem_iff.2 ⟨e, hl⟩) id⟩
      opNum_eq := fun n e' he => by
        by_cases hn : n = opNum
        · subst hn; rw [Finmap.lookup_insert] at he; cases he; exact h.opNum_eq n e hl
        · rw [Finmap.lookup_insert_of_ne _ hn] at he; exact h.opNum_eq n e' he }

@[simp] theorem getLogEntry_empty (n : Nat) : empty.getLogEntry n = none := Finmap.lookup_empty n

@[simp] theorem getLogEntry_push (h : InMemOpLogHandler) (e : LogEntry) (n : Nat) :
    (h.push e).getLogEntry n = if n = e.opNum then some e else h.getLogEntry n := by
  by_cases hn : n = e.opNum
  · subst hn; rw [if_pos rfl]; exact Finmap.lookup_insert _
  · rw [if_neg hn]; exact Finmap.lookup_insert_of_ne _ hn

@[simp] theorem opNums_push (h : InMemOpLogHandler) (e : LogEntry) : (h.push e).opNums = h.opNums ++ [e.opNum] := rfl

theorem hasEntry_iff {h : InMemOpLogHandler} {n : Nat} : h.hasEntry n = true ↔ ∃ e, h.getLogEntry n = some e := by
  rw [hasEntry, decide_eq_true_eq, Finmap.mem_iff]; rfl

theorem mem_opNums {h : InMemOpLogHandler} {n : Nat} : n ∈ h.opNums ↔ ∃ e, h.getLogEntry n = some e := by
  rw [h.mem_iff n, Finmap.mem_iff]; rfl

theorem opNum_of_getLogEntry {h : InMemOpLogHandler} {n : Nat} {e : LogEntry} (he : h.getLogEntry n = some e) :
    e.opNum = n := h.opNum_eq n e he

/-- **What `commit` does**: the entry's flag is set, and nothing else changes. -/
theorem commit_eq_some {h h' : InMemOpLogHandler} {n : Nat} (hc : h.commit n = some h') :
    ∃ e, h.getLogEntry n = some e ∧ h'.opNums = h.opNums ∧
      ∀ m, h'.getLogEntry m = if m = n then some { e with committed := true } else h.getLogEntry m := by
  unfold commit at hc
  split at hc
  · cases hc
  · rename_i e he
    cases hc
    refine ⟨e, he, rfl, fun m => ?_⟩
    by_cases hm : m = n
    · subst hm; rw [if_pos rfl]; exact Finmap.lookup_insert _
    · rw [if_neg hm]; exact Finmap.lookup_insert_of_ne _ hm

theorem commit_isSome {h : InMemOpLogHandler} {n : Nat} {e : LogEntry} (he : h.getLogEntry n = some e) :
    ∃ h', h.commit n = some h' := by
  unfold commit
  split
  · rename_i hn; rw [getLogEntry, hn] at he; cases he
  · exact ⟨_, rfl⟩

theorem mem_getLog {h : InMemOpLogHandler} {e : LogEntry} : e ∈ h.getLog ↔ h.getLogEntry e.opNum = some e := by
  rw [getLog, List.mem_filterMap]
  constructor
  · rintro ⟨n, -, he⟩
    rw [h.opNum_eq n e he]; exact he
  · intro he
    exact ⟨e.opNum, mem_opNums.2 ⟨e, he⟩, he⟩

theorem map_opNum_getLog (h : InMemOpLogHandler) : h.getLog.map LogEntry.opNum = h.opNums := by
  have hmem : ∀ n ∈ h.opNums, ∃ e, h.opLog.lookup n = some e := fun n hn => mem_opNums.1 hn
  unfold getLog
  generalize h.opNums = l at hmem
  induction l with
  | nil => rfl
  | cons n l ih =>
    obtain ⟨e, he⟩ := hmem n (by simp)
    simp only [List.filterMap_cons, he, List.map_cons, h.opNum_eq n e he]
    rw [ih (fun m hm => hmem m (List.mem_cons_of_mem _ hm))]

theorem foldl_push (opLog : OpLog) (h : InMemOpLogHandler) :
    (opLog.foldl push h).opNums = h.opNums ++ opLog.map LogEntry.opNum ∧
      ∀ n, (opLog.foldl push h).getLogEntry n =
        (opLog.reverse.find? (fun e => decide (e.opNum = n))).or (h.getLogEntry n) := by
  induction opLog generalizing h with
  | nil => simp
  | cons e es ih =>
    obtain ⟨h1, h2⟩ := ih (h.push e)
    refine ⟨by simp [h1], fun n => ?_⟩
    rw [List.foldl_cons, h2, getLogEntry_push, List.reverse_cons, List.find?_append]
    cases (es.reverse.find? (fun e => decide (e.opNum = n))) with
    | some x => simp
    | none =>
      by_cases hn : n = e.opNum
      · simp [hn]
      · simp [hn, Ne.symm hn]

@[simp] theorem opNums_setLog (opLog : OpLog) : (setLog opLog).opNums = opLog.map LogEntry.opNum :=
  (foldl_push opLog empty).1

theorem getLogEntry_setLog (opLog : OpLog) (n : Nat) :
    (setLog opLog).getLogEntry n = opLog.reverse.find? (fun e => decide (e.opNum = n)) := by
  rw [setLog, (foldl_push opLog empty).2 n, getLogEntry_empty, Option.or_none]

theorem mem_of_getLogEntry_setLog {opLog : OpLog} {n : Nat} {e : LogEntry} (h : (setLog opLog).getLogEntry n = some e) :
    e ∈ opLog ∧ e.opNum = n := by
  rw [getLogEntry_setLog] at h
  exact ⟨by simpa using List.mem_of_find?_eq_some h, by simpa using List.find?_some h⟩

/-- The entry at a number is the one the list has for it, when the list has one only. -/
theorem getLogEntry_setLog_of_unique {opLog : OpLog} (hone : ∀ e ∈ opLog, ∀ e' ∈ opLog, e.opNum = e'.opNum → e = e')
    {e : LogEntry} (he : e ∈ opLog) : (setLog opLog).getLogEntry e.opNum = some e := by
  have hn : e.opNum ∈ (setLog opLog).opNums := by
    rw [opNums_setLog]
    exact List.mem_map_of_mem he
  obtain ⟨e', he'⟩ := mem_opNums.1 hn
  obtain ⟨hm, hnum⟩ := mem_of_getLogEntry_setLog he'
  rw [he', hone e' hm e he hnum]

/-- **Installing a snapshot of a log gives its entries back.** -/
theorem getLogEntry_setLog_getLog (h : InMemOpLogHandler) (n : Nat) :
    (setLog h.getLog).getLogEntry n = h.getLogEntry n := by
  cases hs : (setLog h.getLog).getLogEntry n with
  | some e =>
    obtain ⟨hm, rfl⟩ := mem_of_getLogEntry_setLog hs
    exact (mem_getLog.1 hm).symm
  | none =>
    cases hg : h.getLogEntry n with
    | none => rfl
    | some e =>
      have : n ∈ (setLog h.getLog).opNums := by
        rw [opNums_setLog, map_opNum_getLog]; exact mem_opNums.2 ⟨e, hg⟩
      obtain ⟨e', he'⟩ := mem_opNums.1 this
      rw [hs] at he'; cases he'

theorem opNums_setLog_getLog (h : InMemOpLogHandler) : (setLog h.getLog).opNums = h.opNums := by
  rw [opNums_setLog, map_opNum_getLog]

/-- **Installing a snapshot of a log gives the log back.** -/
theorem setLog_getLog (h : InMemOpLogHandler) : setLog h.getLog = h := by
  have h1 : (setLog h.getLog).opLog = h.opLog := Finmap.ext_lookup (fun n => getLogEntry_setLog_getLog h n)
  have h2 := opNums_setLog_getLog h
  generalize setLog h.getLog = h' at h1 h2
  cases h
  cases h'
  cases h1
  cases h2
  rfl

end InMemOpLogHandler

end MetaDR
