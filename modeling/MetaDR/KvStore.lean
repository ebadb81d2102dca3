import Mathlib.Data.Finmap
import Mathlib.Data.Finset.Sort
import Mathlib.Data.List.Lex
import MetaDR.Key
/-!
# KvStore — `KvMemStore` (server/kvMemStore.cc) and the client API (server/kvStoreImpl.cc)

An API function runs up to its call of the store's `set` or `remove` (`create`, `remove`, `set`, `get`, `list`: a
`Front` is how far it got), the store then asks the replicator, and changes its map only when the replicator returns
normally (`serve`).  The cluster runs the same two halves with the protocol in between.
-/
namespace MetaDR

/-- `kvs::KvPair`. -/
structure KvPair where
  key : Str
  val : Str
  deriving DecidableEq, Repr

/-- `kvMap`. -/
abbrev KvMap := Finmap (fun _ : Str => Str)

/-- `kvs::Result`: the union's discriminant is 1 for `val`, 2 for `keys` and the default for `err`. -/
inductive Result where
  | err (e : Error)
  | val (v : Str)
  | keys (ks : List Str)
  deriving DecidableEq, Repr

/-- `std::string::find(pat)`; `none` is `npos`. -/
def find (s pat : Str) : Option Nat := s.tails.findIdx? (fun t => pat.isPrefixOf t)

/-- `std::string::find(c, pos)`. -/
def findChar (s : Str) (c : UInt8) (pos : Nat) : Option Nat := ((s.drop pos).findIdx? (· == c)).map (· + pos)

/-- `std::string::find_last_of` for one character. -/
def findLastOf (s : Str) (c : UInt8) : Option Nat := (s.reverse.findIdx? (· == c)).map (s.length - 1 - ·)

/-- The order of `std::set<std::string>`: bytes compare unsigned. -/
def strLe (a b : Str) : Prop := a.map UInt8.toNat ≤ b.map UInt8.toNat

instance : DecidableRel strLe := fun a b => inferInstanceAs (Decidable (a.map UInt8.toNat ≤ b.map UInt8.toNat))

instance : IsTrans Str strLe := ⟨fun _ _ _ => le_trans⟩

instance : Std.Antisymm strLe :=
  ⟨fun _ _ h h' => List.map_injective_iff.2 (fun _ _ => UInt8.toNat_inj.1) (le_antisymm h h')⟩

instance : Std.Total strLe := ⟨fun _ _ => le_total _ _⟩

namespace KvMemStore

def hasKey (kvMap : KvMap) (key : Str) : Bool := decide (key ∈ kvMap)

def get (kvMap : KvMap) (key : Str) : Except Fault Str :=
  match kvMap.lookup key with
  | none => .error .runtimeError
  | some v => .ok v

/-- The test `list` puts to each key. -/
def listed (pre : Str) (ignoreInSuffix : UInt8) (key : Str) : Bool :=
  if key = pre then false
  else
    match find key pre with
    | none => false
    | some pos => (findChar key ignoreInSuffix (pos + pre.length + 1)).isNone

def list (kvMap : KvMap) (pre : Str) (ignoreInSuffix : UInt8) : Finset Str :=
  kvMap.keys.filter (fun key => listed pre ignoreInSuffix key = true)

def setInt (kvMap : KvMap) (key val : Str) : KvMap := kvMap.insert key val

def removeInt (kvMap : KvMap) (key : Str) : KvMap := kvMap.erase key

end KvMemStore

open KvMemStore (hasKey)

/-- A call of `KvMemStore::set` or `KvMemStore::remove`. -/
inductive Mutation where
  | set (key val : Str)
  | remove (key : Str)
  deriving DecidableEq, Repr

/-- How far an API function gets before the replicator is asked: it has its reply, or calls the store. -/
inductive Front where
  | reply (res : Result)
  | mutate (m : Mutation)
  deriving DecidableEq, Repr

def create (isPrimary : Bool) (kvMap : KvMap) (arg : KvPair) : Except Fault Front :=
  if isPrimary = false then .ok (.reply (.err .replicaNotPrimary))
  else if checkKeyFormat arg.key = .none then do
    let (key, lastSlashIndex) ← pruneKey arg.key
    let err := if hasKey kvMap key = true then Error.keyAlreadyPresent else .none
    -- the parent check may overwrite KEY_ALREADY_PRESENT
    let err := if 0 < lastSlashIndex then
      (if hasKey kvMap (key.take lastSlashIndex) = true then err else .keyHasNoParent) else err
    if err = .none then .ok (.mutate (.set key arg.val)) else .ok (.reply (.err err))
  else .ok (.reply (.err (checkKeyFormat arg.key)))

def remove (isPrimary : Bool) (kvMap : KvMap) (arg : Str) : Except Fault Front :=
  if isPrimary = false then .ok (.reply (.err .replicaNotPrimary))
  else if checkKeyFormat arg = .none then do
    let (key, _) ← pruneKey arg
    if hasKey kvMap key = false then .ok (.reply (.err .keyNotPresent))
    else if KvMemStore.list kvMap (key ++ [slash]) slash ≠ ∅ then .ok (.reply (.err .keyHasChildren))
    else .ok (.mutate (.remove key))
  else .ok (.reply (.err (checkKeyFormat arg)))

def set (isPrimary : Bool) (kvMap : KvMap) (arg : KvPair) : Except Fault Front :=
  if isPrimary = false then .ok (.reply (.err .replicaNotPrimary))
  else if checkKeyFormat arg.key = .none then do
    let (key, _) ← pruneKey arg.key
    if hasKey kvMap key = false then .ok (.reply (.err .keyNotPresent))
    else .ok (.mutate (.set key arg.val))
  else .ok (.reply (.err (checkKeyFormat arg.key)))

def get (isPrimary : Bool) (kvMap : KvMap) (arg : Str) : Except Fault Front :=
  if isPrimary = false then .ok (.reply (.err .replicaNotPrimary))
  else if checkKeyFormat arg = .none then do
    let (key, _) ← pruneKey arg
    if hasKey kvMap key = false then .ok (.reply (.err .keyNotPresent))
    else do
      let v ← KvMemStore.get kvMap key
      .ok (.reply (.val v))
  else .ok (.reply (.err (checkKeyFormat arg)))

/-- The name `list` returns for a key of the store: what follows its last slash, behind the `assert`. -/
def leaf (key : Str) : Except Fault Str :=
  match findLastOf key slash with
  | none => .error .assertFailed
  | some lastSlashIndex =>
    if lastSlashIndex < key.length - 1 then .ok (key.drop (lastSlashIndex + 1)) else .error .assertFailed

/-- The end of `list`: the names of the keys found, in the order of the `std::set`. -/
def listNames (kvMap : KvMap) (key : Str) : Except Fault Front := do
  let names ← ((KvMemStore.list kvMap (key ++ [slash]) slash).sort strLe).mapM leaf
  .ok (.reply (.keys names))

def list (isPrimary : Bool) (kvMap : KvMap) (arg : Str) : Except Fault Front :=
  if isPrimary = false then .ok (.reply (.err .replicaNotPrimary))
  else if arg = [slash] then listNames kvMap []
  else if checkKeyFormat arg = .none then do
    let (key, _) ← pruneKey arg
    if hasKey kvMap key = false then .ok (.reply (.err .keyNotPresent)) else listNames kvMap key
  else .ok (.reply (.err (checkKeyFormat arg)))

/-- A request of `KvStoreApi`. -/
inductive Req where
  | create (arg : KvPair)
  | remove (arg : Str)
  | set (arg : KvPair)
  | get (arg : Str)
  | list (arg : Str)
  deriving DecidableEq, Repr

def Req.front (isPrimary : Bool) (kvMap : KvMap) : Req → Except Fault Front
  | .create arg => MetaDR.create isPrimary kvMap arg
  | .remove arg => MetaDR.remove isPrimary kvMap arg
  | .set arg => MetaDR.set isPrimary kvMap arg
  | .get arg => MetaDR.get isPrimary kvMap arg
  | .list arg => MetaDR.list isPrimary kvMap arg

/-- `KvMemStore::set` and `remove` up to their call of the replicator. -/
def Mutation.enter (isPrimary : Bool) (kvMap : KvMap) : Mutation → Except Fault Unit
  | .set _ _ => if isPrimary = true then .ok () else .error .assertFailed
  | .remove key =>
    if hasKey kvMap key = false then .error .runtimeError
    else if isPrimary = true then .ok () else .error .assertFailed

/-- `KvMemStore::set` and `remove` once the replicator has returned. -/
def Mutation.leave (kvMap : KvMap) : Mutation → KvMap
  | .set key val => KvMemStore.setInt kvMap key val
  | .remove key => kvMap.erase key

/-- How `replicateUpdate` or `replicateDelete` ends. -/
inductive Replicated where
  | done
  | quorumNotReached
  | replicaStateNotNormal
  deriving DecidableEq, Repr

/-- The `try` block of `create`, `remove` and `set`. -/
def Mutation.finish (kvMap : KvMap) (m : Mutation) : Replicated → KvMap × Result
  | .done => (m.leave kvMap, .err .none)
  | .quorumNotReached => (kvMap, .err .quorumNotReached)
  | .replicaStateNotNormal => (kvMap, .err .statusNotNormal)

/-- One API call on a replica whose replicator ends as given if it is asked. -/
def serve (isPrimary : Bool) (kvMap : KvMap) (req : Req) (rep : Replicated) : Except Fault (KvMap × Result) := do
  match ← req.front isPrimary kvMap with
  | .reply res => .ok (kvMap, res)
  | .mutate m =>
    m.enter isPrimary kvMap
    .ok (m.finish kvMap rep)

/-- A sequence of calls, each with its replicator's outcome: the last map and the replies in order. -/
def serveAll (isPrimary : Bool) (kvMap : KvMap) : List (Req × Replicated) → Except Fault (KvMap × List Result)
  | [] => .ok (kvMap, [])
  | (req, rep) :: calls => do
    let (kvMap', res) ← serve isPrimary kvMap req rep
    let (kvMap'', ress) ← serveAll isPrimary kvMap' calls
    .ok (kvMap'', res :: ress)

end MetaDR
