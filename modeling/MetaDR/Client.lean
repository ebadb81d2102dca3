import MetaDR.Wire
import MetaDR.Children
import MetaDR.PathMap
/-!
# Client — the client library (libClient/kvsClient.cc) on a connection

A function of `Client` sends one call, waits for its result and turns it into a value or a `ClientException`; it
asserts that no other error comes back, and takes the union's member it expects.  Over the wire and the server behind
it, what the functions return is read off a tree of names (`client_session`).
-/
namespace MetaDR

/-- `kvs::ClientError`. -/
inductive ClientError where
  | keyNotFound
  | noParent
  | hasChildren
  | malformedKey
  | notPrimaryReplica
  | failedToReachQuorum
  | replicaStatusNotNormal
  deriving DecidableEq, Repr

/-- What ends a function of `Client` without a value. -/
inductive ClientFault where
  | exception (err : ClientError)
  | assertFailed
  /-- `xdr_wrong_union`: the result holds another member -/
  | wrongUnion
  /-- `xdr_overflow`: the call is too long to be sent -/
  | overflow
  /-- no result comes back that can be read -/
  | noReply
  deriving DecidableEq, Repr

/-- What a function of `Client` returns. -/
inductive ClientAnswer where
  | bool (b : Bool)
  | void
  | val (v : Str)
  | keys (ks : Finset Str)
  deriving DecidableEq

def getClientError : Error → Except ClientFault ClientError
  | .none => .error .assertFailed
  | .keyAlreadyPresent => .error .assertFailed
  | .keyNotPresent => .ok .keyNotFound
  | .keyHasNoParent => .ok .noParent
  | .keyHasChildren => .ok .hasChildren
  | .keyMalformed => .ok .malformedKey
  | .replicaNotPrimary => .ok .notPrimaryReplica
  | .quorumNotReached => .ok .failedToReachQuorum
  | .statusNotNormal => .ok .replicaStatusNotNormal

/-- `Result::err()`. -/
def Result.getErr : Result → Except ClientFault Error
  | .err e => .ok e
  | _ => .error .wrongUnion

/-- `Result::val()`. -/
def Result.getVal : Result → Except ClientFault Str
  | .val v => .ok v
  | _ => .error .wrongUnion

/-- `Result::keys()`. -/
def Result.getKeys : Result → Except ClientFault (List Str)
  | .keys ks => .ok ks
  | _ => .error .wrongUnion

namespace Client

/-- `throw ClientException(getClientError(r->err()))`. -/
def throwClientException {α : Type} (r : Result) : Except ClientFault α := do
  let err ← getClientError (← r.getErr)
  .error (.exception err)

def create (r : Result) : Except ClientFault ClientAnswer := do
  if (← r.getErr) = .keyAlreadyPresent then return .bool false
  if (← r.getErr) ≠ .none then throwClientException r
  return .bool true

def remove (r : Result) : Except ClientFault ClientAnswer := do
  if (← r.getErr) = .keyNotPresent then return .bool false
  if (← r.getErr) ≠ .none then throwClientException r
  return .bool true

def get (r : Result) : Except ClientFault ClientAnswer := do
  if r.discriminant ≠ 1 then throwClientException r
  return .val (← r.getVal)

def set (r : Result) : Except ClientFault ClientAnswer := do
  if (← r.getErr) ≠ .none then throwClientException r
  return .void

def list (r : Result) : Except ClientFault ClientAnswer := do
  if r.discriminant ≠ 2 then throwClientException r
  return .keys (← r.getKeys).toFinset

/-- The function behind its call. -/
def take : Req → Result → Except ClientFault ClientAnswer
  | .create _ => create
  | .remove _ => remove
  | .set _ => set
  | .get _ => get
  | .list _ => list

end Client

instance (ar : Archive) (p : KvPair) : Decidable (p.Fits ar) := inferInstanceAs (Decidable (_ ∧ _))

instance (ar : Archive) : DecidablePred (Req.Fits ar)
  | .create arg => inferInstanceAs (Decidable (arg.Fits ar))
  | .set arg => inferInstanceAs (Decidable (arg.Fits ar))
  | .remove arg => inferInstanceAs (Decidable (arg.length ≤ ar.maxLen))
  | .get arg => inferInstanceAs (Decidable (arg.length ≤ ar.maxLen))
  | .list arg => inferInstanceAs (Decidable (arg.length ≤ ar.maxLen))

/-- One function of `Client` and the server that takes up its call: the call and the result go over the connection. -/
def Client.invoke (ar : Archive) (isPrimary : Bool) (kvMap : KvMap) (req : Req) (rep : Replicated) :
    KvMap × Except ClientFault ClientAnswer :=
  if req.Fits ar then
    match (Req.codec ar).load ((Req.codec ar).save req) with
    | none => (kvMap, .error .noReply)
    | some (arg, _) =>
      match serve isPrimary kvMap arg rep with
      | .error _ => (kvMap, .error .noReply)
      | .ok (kvMap', res) =>
        match (Result.codec ar).load ((Result.codec ar).save res) with
        | none => (kvMap', .error .noReply)
        | some (r, _) => (kvMap', Client.take req r)
  else (kvMap, .error .overflow)

/-- Calls one after the other, each with the server's role and its replicator's outcome. -/
def Client.session (ar : Archive) (kvMap : KvMap) : List (Req × Bool × Replicated) →
    KvMap × List (Except ClientFault ClientAnswer)
  | [] => (kvMap, [])
  | (req, isPrimary, rep) :: calls =>
    let (kvMap', out) := Client.invoke ar isPrimary kvMap req rep
    let (kvMap'', outs) := Client.session ar kvMap' calls
    (kvMap'', out :: outs)

/-! ## A tree of names -/

/-- The key a call names. -/
def Req.key : Req → Str
  | .create arg => arg.key
  | .set arg => arg.key
  | .remove arg => arg
  | .get arg => arg
  | .list arg => arg

/-- The value at each path of the tree, as far as there is one. -/
abbrev Dir := List Str → Option Str

namespace Dir

def empty : Dir := fun _ => none

def put (t : Dir) (ps : List Str) (val : Str) : Dir := Function.update t ps (some val)

def cut (t : Dir) (ps : List Str) : Dir := Function.update t ps none

/-- The path's key and a slash stand in the keys of the tree at the front only. -/
def Clear (t : Dir) (ps : List Str) : Prop :=
  ∀ qs, t qs ≠ none → pathKey ps ++ [slash] <:+: pathKey qs → pathKey ps ++ [slash] <+: pathKey qs

/-- The call changes the tree, if it is replicated. -/
def Changes (t : Dir) : Req → Prop
  | .create arg => WellFormed arg.key ∧ t (comps arg.key) = none ∧
      ((comps arg.key).dropLast ≠ [] → t (comps arg.key).dropLast ≠ none)
  | .remove arg => WellFormed arg ∧ t (comps arg) ≠ none ∧ ∀ q, t (comps arg ++ [q]) = none
  | .set arg => WellFormed arg.key ∧ t (comps arg.key) ≠ none
  | .get _ => False
  | .list _ => False

/-- **What a call may return, and the tree it leaves.**  Of a path that is not `Clear`, more may be listed than its
children. -/
inductive Answers (ar : Archive) (t : Dir) : Bool → Replicated → Req → Except ClientFault ClientAnswer → Dir →
    Prop where
  | tooLong (isPrimary : Bool) (rep : Replicated) (req : Req) (h : ¬ req.Fits ar) :
      Answers ar t isPrimary rep req (.error .overflow) t
  | notPrimary (rep : Replicated) (req : Req) :
      Answers ar t false rep req (.error (.exception .notPrimaryReplica)) t
  | noQuorum (req : Req) (h : t.Changes req) :
      Answers ar t true .quorumNotReached req (.error (.exception .failedToReachQuorum)) t
  | notNormal (req : Req) (h : t.Changes req) :
      Answers ar t true .replicaStateNotNormal req (.error (.exception .replicaStatusNotNormal)) t
  | malformed (rep : Replicated) (req : Req) (h : ¬ WellFormed req.key) (hl : req ≠ .list [slash]) :
      Answers ar t true rep req (.error (.exception .malformedKey)) t
  | noParent (rep : Replicated) (arg : KvPair) (hw : WellFormed arg.key) (hd : (comps arg.key).dropLast ≠ [])
      (hp : t (comps arg.key).dropLast = none) : Answers ar t true rep (.create arg) (.error (.exception .noParent)) t
  | present (rep : Replicated) (arg : KvPair) (hw : WellFormed arg.key) (hk : t (comps arg.key) ≠ none) :
      Answers ar t true rep (.create arg) (.ok (.bool false)) t
  | created (arg : KvPair) (h : t.Changes (.create arg)) :
      Answers ar t true .done (.create arg) (.ok (.bool true)) (t.put (comps arg.key) arg.val)
  | absent (rep : Replicated) (arg : Str) (hw : WellFormed arg) (hk : t (comps arg) = none) :
      Answers ar t true rep (.remove arg) (.ok (.bool false)) t
  | hasChildren (rep : Replicated) (arg : Str) (hw : WellFormed arg) (hk : t (comps arg) ≠ none)
      (hc : t.Clear (comps arg) → ∃ q, t (comps arg ++ [q]) ≠ none) :
      Answers ar t true rep (.remove arg) (.error (.exception .hasChildren)) t
  | removed (arg : Str) (h : t.Changes (.remove arg)) :
      Answers ar t true .done (.remove arg) (.ok (.bool true)) (t.cut (comps arg))
  | notFound (rep : Replicated) (req : Req)
      (hr : (∃ arg, req = .set arg) ∨ (∃ arg, req = .get arg) ∨ ∃ arg, req = .list arg)
      (hw : WellFormed req.key) (hk : t (comps req.key) = none) :
      Answers ar t true rep req (.error (.exception .keyNotFound)) t
  | wrote (arg : KvPair) (h : t.Changes (.set arg)) :
      Answers ar t true .done (.set arg) (.ok .void) (t.put (comps arg.key) arg.val)
  | got (rep : Replicated) (arg val : Str) (hw : WellFormed arg) (hk : t (comps arg) = some val) :
      Answers ar t true rep (.get arg) (.ok (.val val)) t
  | listed (rep : Replicated) (arg : Str) (ps : List Str) (names : Finset Str)
      (hp : (arg = [slash] ∧ ps = []) ∨ (WellFormed arg ∧ ps = comps arg ∧ t ps ≠ none))
      (hall : ∀ q, t (ps ++ [q]) ≠ none → q ∈ names) (hclear : t.Clear ps → ∀ q ∈ names, t (ps ++ [q]) ≠ none) :
      Answers ar t true rep (.list arg) (.ok (.keys names)) t

/-- The calls of a session one after the other. -/
inductive Session (ar : Archive) : Dir → List (Req × Bool × Replicated) → List (Except ClientFault ClientAnswer) →
    Dir → Prop where
  | nil (t : Dir) : Session ar t [] [] t
  | cons {t t' t'' : Dir} {req : Req} {isPrimary : Bool} {rep : Replicated} {out : Except ClientFault ClientAnswer}
      {calls : List (Req × Bool × Replicated)} {outs : List (Except ClientFault ClientAnswer)}
      (h : t.Answers ar isPrimary rep req out t') (hs : Session ar t' calls outs t'') :
      Session ar t ((req, isPrimary, rep) :: calls) (out :: outs) t''

end Dir

/-! ## The server behind the connection -/

/-- The result can be sent: a value as long as a string may be, and no more names than there are keys. -/
def Result.Fits (ar : Archive) (len : Nat) : Result → Prop
  | .err _ => True
  | .val v => v.length ≤ ar.maxLen
  | .keys ks => ks.length ≤ len ∧ ∀ k ∈ ks, k.length ≤ ar.maxLen

theorem Result.Fits.fits {ar : Archive} {res : Result} {len : Nat} (h : res.Fits ar len) (hlen : len ≤ ar.maxLen) :
    (Result.codec ar).fits res := by
  refine ⟨ar.uint_fits _ (by cases res <;> simp [Result.discriminant]), ?_⟩
  cases res with
  | err e => exact ⟨e, rfl, ar.uint_fits _ (by cases e <;> decide)⟩
  | val v => exact ⟨v, rfl, ar.string_fits _ (Nat.le_refl _) _ h⟩
  | keys ks =>
    exact ⟨ks, rfl, ar.vector_fits _ _ (Nat.le_trans h.1 hlen) (fun k hk =>
      ar.string_fits _ (Nat.le_refl _) _ (h.2 k hk))⟩

/-- The store holds the tree, under keys and with values that can be sent. -/
structure Mirrors (ar : Archive) (kvMap : KvMap) (t : Dir) : Prop where
  store : PathStore kvMap
  lookup : ∀ ps, IsPath ps → kvMap.lookup (pathKey ps) = t ps
  outside : ∀ ps, ¬ IsPath ps → t ps = none
  fits : ∀ key val, kvMap.lookup key = some val → KvPair.Fits ar ⟨key, val⟩

namespace Mirrors

variable {ar : Archive} {kvMap : KvMap} {t : Dir} {rep : Replicated}

theorem mem_iff (h : Mirrors ar kvMap t) {ps : List Str} (hp : IsPath ps) : pathKey ps ∈ kvMap ↔ t ps ≠ none := by
  rw [← h.lookup ps hp, Finmap.mem_iff, Option.ne_none_iff_exists']

theorem isPath (h : Mirrors ar kvMap t) {ps : List Str} (hp : t ps ≠ none) : IsPath ps := by
  by_contra hn
  exact hp (h.outside ps hn)

theorem put (h : Mirrors ar kvMap t) {ps : List Str} (hp : IsPath ps)
    (hpar : ps.dropLast ≠ [] → pathKey ps.dropLast ∈ kvMap) {v : Str} (hf : KvPair.Fits ar ⟨pathKey ps, v⟩) :
    Mirrors ar (KvMemStore.setInt kvMap (pathKey ps) v) (t.put ps v) where
  store := h.store.insert hp hpar v
  lookup := fun qs hq => by
    rw [lookup_setInt hq hp, h.lookup qs hq, Dir.put, Function.update_apply]
    simp only [eq_comm]
  outside := fun qs hq => by
    rw [Dir.put, Function.update_of_ne (by rintro rfl; exact hq hp)]
    exact h.outside qs hq
  fits := fun key val hl => by
    by_cases hk : key = pathKey ps
    · subst hk
      rw [KvMemStore.setInt, Finmap.lookup_insert] at hl
      cases hl
      exact hf
    · rw [KvMemStore.setInt, Finmap.lookup_insert_of_ne _ hk] at hl
      exact h.fits key val hl

theorem cut (h : Mirrors ar kvMap t) {ps : List Str} (hp : IsPath ps)
    (hl : KvMemStore.list kvMap (pathKey ps ++ [slash]) slash = ∅) :
    Mirrors ar (kvMap.erase (pathKey ps)) (t.cut ps) where
  store := h.store.erase hl
  lookup := fun qs hq => by
    rw [lookup_erase hq hp, h.lookup qs hq, Dir.cut, Function.update_apply]
    simp only [eq_comm]
  outside := fun qs hq => by
    rw [Dir.cut, Function.update_of_ne (by rintro rfl; exact hq hp)]
    exact h.outside qs hq
  fits := fun key val hk => by
    have hne : key ≠ pathKey ps := by
      rintro rfl
      rw [Finmap.lookup_erase] at hk
      cases hk
    exact h.fits key val (by rwa [Finmap.lookup_erase_ne hne] at hk)

theorem exists_path (h : Mirrors ar kvMap t) {key : Str} (hk : key ∈ kvMap) :
    ∃ qs q, IsPath (qs ++ [q]) ∧ key = pathKey (qs ++ [q]) ∧ t (qs ++ [q]) ≠ none ∧ q ≠ [] ∧ slash ∉ q := by
  obtain ⟨ps, hp, rfl, -⟩ := h.store key hk
  obtain ⟨qs, q, rfl, hne, hs⟩ := hp.snoc
  exact ⟨qs, q, hp, rfl, (h.mem_iff hp).1 hk, hne, hs⟩

theorem inFrontOnly (h : Mirrors ar kvMap t) {ps : List Str} (hc : t.Clear ps) : InFrontOnly kvMap (pathKey ps) := by
  intro key hk hin
  obtain ⟨qs, q, -, rfl, ht, -⟩ := h.exists_path hk
  exact hc _ ht hin

theorem child_mem (h : Mirrors ar kvMap t) {ps : List Str} {q : Str} (ht : t (ps ++ [q]) ≠ none) :
    pathKey (ps ++ [q]) ∈ KvMemStore.list kvMap (pathKey ps ++ [slash]) slash := by
  have hp := h.isPath ht
  have hq := hp.proper q (by simp)
  exact mem_list.2 ⟨(h.mem_iff hp).2 ht, listed_child ps hq.1 hq.2⟩

/-- On a path that is clear, what is listed are its children. -/
theorem child_of_mem (h : Mirrors ar kvMap t) {ps : List Str} (hp : Split.Proper slash ps) (hc : t.Clear ps) {key : Str}
    (hk : key ∈ KvMemStore.list kvMap (pathKey ps ++ [slash]) slash) : ∃ q, key = pathKey (ps ++ [q]) ∧
      t (ps ++ [q]) ≠ none := by
  obtain ⟨hmem, c, hne, hs, hkey⟩ := (h.store.listsChildren_of (h.inFrontOnly hc) key).1 hk
  obtain ⟨qs, q, hpath, rfl, ht, -, hqs⟩ := h.exists_path hmem
  rw [pathKey_snoc] at hkey
  obtain ⟨hfront, rfl⟩ := Split.last_sep_inj hqs hs hkey
  obtain rfl : qs = ps := Split.join_inj (fun p hm => hpath.proper p (by simp [hm])) hp hfront
  exact ⟨q, rfl, ht⟩

/-- **What `list` answers** is read off the tree. -/
theorem listNames (h : Mirrors ar kvMap t) {ps : List Str} (hp : Split.Proper slash ps) :
    ∃ ns, MetaDR.listNames kvMap (pathKey ps) = .ok (.reply (.keys ns)) ∧ Result.Fits ar kvMap.keys.card (.keys ns) ∧
      (∀ q, t (ps ++ [q]) ≠ none → q ∈ ns) ∧ (t.Clear ps → ∀ q ∈ ns, t (ps ++ [q]) ≠ none) := by
  have hname : ∀ {qs q}, IsPath (qs ++ [q]) → ((comps (pathKey (qs ++ [q]))).getLast?).getD [] = q := by
    intro qs q hq
    rw [comps_pathKey hq, List.getLast?_concat, Option.getD_some]
  have hmem : ∀ key ∈ (KvMemStore.list kvMap (pathKey ps ++ [slash]) slash).sort strLe, key ∈ kvMap :=
    fun key hk => (mem_list.1 ((Finset.mem_sort _).1 hk)).1
  have hleaf : ((KvMemStore.list kvMap (pathKey ps ++ [slash]) slash).sort strLe).mapM leaf =
      .ok (((KvMemStore.list kvMap (pathKey ps ++ [slash]) slash).sort strLe).map
        (fun key => (comps key).getLast?.getD [])) := by
    refine mapM_leaf_eq (fun key hk => ?_)
    obtain ⟨qs, q, hq, rfl, -, hne, hs⟩ := h.exists_path (hmem key hk)
    rw [leaf_pathKey qs hs hne, hname hq]
  refine ⟨_, by rw [MetaDR.listNames, hleaf]; rfl, ⟨?_, fun k hk => ?_⟩, fun q ht => ?_, fun hc q hq => ?_⟩
  · rw [List.length_map, Finset.length_sort]
    exact Finset.card_filter_le _ _
  · obtain ⟨key, hkey, rfl⟩ := List.mem_map.1 hk
    obtain ⟨qs, q, hq, rfl, ht, -⟩ := h.exists_path (hmem key hkey)
    obtain ⟨val, hval⟩ := Option.ne_none_iff_exists'.1 ht
    have hlen := (h.fits _ val ((h.lookup _ hq).trans hval)).1
    rw [pathKey_snoc] at hlen
    rw [hname hq]
    simp only [List.length_append, List.length_cons] at hlen
    have := ar.le_maxLen
    omega
  · exact List.mem_map.2 ⟨_, (Finset.mem_sort _).2 (h.child_mem ht), hname (h.isPath ht)⟩
  · obtain ⟨key, hkey, rfl⟩ := List.mem_map.1 hq
    obtain ⟨q, rfl, ht⟩ := h.child_of_mem hp hc ((Finset.mem_sort _).1 hkey)
    rwa [hname (h.isPath ht)]

/-- The call ends with a result that can be sent, the store holds the tree it leaves, and the client reads its answer
off the tree. -/
def Serves (ar : Archive) (kvMap : KvMap) (t : Dir) (isPrimary : Bool) (rep : Replicated) (req : Req) : Prop :=
  ∃ kvMap' res t', MetaDR.serve isPrimary kvMap req rep = .ok (kvMap', res) ∧ Mirrors ar kvMap' t' ∧
    kvMap'.keys.card ≤ kvMap.keys.card + 1 ∧ res.Fits ar kvMap.keys.card ∧
    t.Answers ar isPrimary rep req (Client.take req res) t'

theorem serves_reply (h : Mirrors ar kvMap t) {isPrimary : Bool} {req : Req} {res : Result}
    (hf : req.front isPrimary kvMap = .ok (.reply res)) (hres : res.Fits ar kvMap.keys.card)
    (ha : t.Answers ar isPrimary rep req (Client.take req res) t) : Serves ar kvMap t isPrimary rep req :=
  ⟨kvMap, res, t, by rw [MetaDR.serve, hf]; rfl, h, Nat.le_succ _, hres, ha⟩

/-- A call that gets through to the store answers by how its replication ends. -/
theorem serves_mutate (h : Mirrors ar kvMap t) {t' : Dir} {req : Req} {m : Mutation}
    (hf : req.front true kvMap = .ok (.mutate m)) (hch : t.Changes req)
    (hm : m.enter true kvMap = .ok () ∧ Mirrors ar (m.leave kvMap) t')
    (hcard : (m.leave kvMap).keys.card ≤ kvMap.keys.card + 1)
    (ha : t.Answers ar true .done req (Client.take req (.err .none)) t')
    (herr : ∀ e, e = Error.quorumNotReached ∨ e = Error.statusNotNormal → ∃ e', getClientError e = .ok e' ∧
      Client.take req (.err e) = .error (.exception e')) : Serves ar kvMap t true rep req := by
  have hs : ∀ rep, MetaDR.serve true kvMap req rep = .ok (m.finish kvMap rep) := fun rep => by
    simp only [MetaDR.serve, hf, hm.1, bind, Except.bind]
  cases rep with
  | done => exact ⟨_, _, t', hs .done, hm.2, hcard, trivial, ha⟩
  | quorumNotReached =>
    obtain ⟨e', he, ht⟩ := herr _ (.inl rfl)
    cases he
    exact ⟨_, _, t, hs .quorumNotReached, h, Nat.le_succ _, trivial, ht ▸ .noQuorum req hch⟩
  | replicaStateNotNormal =>
    obtain ⟨e', he, ht⟩ := herr _ (.inr rfl)
    cases he
    exact ⟨_, _, t, hs .replicaStateNotNormal, h, Nat.le_succ _, trivial, ht ▸ .notNormal req hch⟩

theorem card_setInt_le (key val : Str) : (KvMemStore.setInt kvMap key val).keys.card ≤ kvMap.keys.card + 1 := by
  refine (Finset.card_le_card (fun k hk => ?_)).trans (Finset.card_insert_le key kvMap.keys)
  rw [Finmap.mem_keys, KvMemStore.setInt, Finmap.mem_insert] at hk
  exact Finset.mem_insert.2 (hk.imp id (fun hk => Finmap.mem_keys.2 hk))

theorem card_erase_le (key : Str) : (kvMap.erase key).keys.card ≤ kvMap.keys.card + 1 :=
  (Finset.card_le_card (fun _ hk => Finmap.mem_keys.2 (Finmap.mem_erase.1 (Finmap.mem_keys.1 hk)).2)).trans
    (Nat.le_succ _)

theorem serves_malformed (h : Mirrors ar kvMap t) {req : Req}
    (hf : req.front true kvMap = .ok (.reply (.err .keyMalformed))) (hw : ¬ WellFormed req.key)
    (hl : req ≠ .list [slash]) : Serves ar kvMap t true rep req :=
  h.serves_reply hf trivial (by cases req <;> exact .malformed rep _ hw hl)

theorem fits_pathKey {arg : KvPair} (hw : WellFormed arg.key) (hf : arg.Fits ar) :
    KvPair.Fits ar ⟨pathKey (comps arg.key), arg.val⟩ := ⟨hw.length_pathKey_le.trans hf.1, hf.2⟩

theorem create (h : Mirrors ar kvMap t) {arg : KvPair} (hfit : arg.Fits ar) :
    Serves ar kvMap t true rep (.create arg) := by
  by_cases hw : WellFormed arg.key
  · have hpath := hw.isPath
    have hfront := create_wellFormed kvMap hw
    have hdrop : (comps arg.key).dropLast ≠ [] → IsPath (comps arg.key).dropLast := fun hne =>
      IsPath.of_append (by rw [List.dropLast_append_getLast hpath.ne_nil]; exact hpath) hne
    by_cases hpar : (comps arg.key).dropLast ≠ [] ∧ pathKey (comps arg.key).dropLast ∉ kvMap
    · rw [if_pos hpar] at hfront
      refine h.serves_reply hfront trivial (.noParent rep arg hw hpar.1 ?_)
      by_contra hn
      exact hpar.2 ((h.mem_iff (hdrop hpar.1)).2 hn)
    · rw [if_neg hpar] at hfront
      rw [not_and_or, not_not, not_not] at hpar
      by_cases hk : pathKey (comps arg.key) ∈ kvMap
      · rw [if_pos hk] at hfront
        exact h.serves_reply hfront trivial (.present rep arg hw ((h.mem_iff hpath).1 hk))
      · rw [if_neg hk] at hfront
        have hin : (comps arg.key).dropLast ≠ [] → pathKey (comps arg.key).dropLast ∈ kvMap :=
          fun hne => hpar.resolve_left hne
        have habs : t (comps arg.key) = none := by
          by_contra hn
          exact hk ((h.mem_iff hpath).2 hn)
        have hch : t.Changes (.create arg) := ⟨hw, habs, fun hne => (h.mem_iff (hdrop hne)).1 (hin hne)⟩
        refine h.serves_mutate hfront hch ⟨rfl, h.put hpath hin (fits_pathKey hw hfit)⟩ (card_setInt_le _ _)
          (.created arg hch) ?_
        rintro e (rfl | rfl) <;> exact ⟨_, rfl, rfl⟩
  · exact h.serves_malformed (create_malformed kvMap hw) hw (by simp)

theorem remove (h : Mirrors ar kvMap t) (arg : Str) : Serves ar kvMap t true rep (.remove arg) := by
  by_cases hw : WellFormed arg
  · have hpath := hw.isPath
    have hfront := remove_wellFormed kvMap hw
    by_cases hk : pathKey (comps arg) ∉ kvMap
    · rw [if_pos hk] at hfront
      refine h.serves_reply hfront trivial (.absent rep arg hw ?_)
      by_contra hn
      exact hk ((h.mem_iff hpath).2 hn)
    · rw [if_neg hk] at hfront
      rw [not_not] at hk
      have hpres := (h.mem_iff hpath).1 hk
      by_cases hl : KvMemStore.list kvMap (pathKey (comps arg) ++ [slash]) slash ≠ ∅
      · rw [if_pos hl] at hfront
        refine h.serves_reply hfront trivial (.hasChildren rep arg hw hpres (fun hc => ?_))
        obtain ⟨key, hkey⟩ := Finset.nonempty_iff_ne_empty.2 hl
        obtain ⟨q, -, ht⟩ := h.child_of_mem hpath.proper hc hkey
        exact ⟨q, ht⟩
      · rw [if_neg hl] at hfront
        rw [not_not] at hl
        have hnone : ∀ q, t (comps arg ++ [q]) = none := by
          intro q
          by_contra hn
          have := h.child_mem hn
          rw [hl] at this
          exact absurd this (Finset.notMem_empty _)
        have henter : (Mutation.remove (pathKey (comps arg))).enter true kvMap = .ok () := by
          simp [Mutation.enter, KvMemStore.hasKey, hk]
        have hch : t.Changes (.remove arg) := ⟨hw, hpres, hnone⟩
        refine h.serves_mutate hfront hch ⟨henter, h.cut hpath hl⟩ (card_erase_le _) (.removed arg hch) ?_
        rintro e (rfl | rfl) <;> exact ⟨_, rfl, rfl⟩
  · exact h.serves_malformed (remove_malformed kvMap hw) hw (by simp)

theorem set (h : Mirrors ar kvMap t) {arg : KvPair} (hfit : arg.Fits ar) : Serves ar kvMap t true rep (.set arg) := by
  by_cases hw : WellFormed arg.key
  · have hpath := hw.isPath
    have hfront := set_wellFormed kvMap hw
    by_cases hk : pathKey (comps arg.key) ∉ kvMap
    · rw [if_pos hk] at hfront
      refine h.serves_reply hfront trivial (.notFound rep _ (.inl ⟨arg, rfl⟩) hw ?_)
      by_contra hn
      exact hk ((h.mem_iff hpath).2 hn)
    · rw [if_neg hk] at hfront
      rw [not_not] at hk
      have hin : (comps arg.key).dropLast ≠ [] → pathKey (comps arg.key).dropLast ∈ kvMap := by
        obtain ⟨ps, hp, he, hpp⟩ := h.store _ hk
        obtain rfl := pathKey_inj hpath hp he
        exact hpp
      have hch : t.Changes (.set arg) := ⟨hw, (h.mem_iff hpath).1 hk⟩
      refine h.serves_mutate hfront hch ⟨rfl, h.put hpath hin (fits_pathKey hw hfit)⟩ (card_setInt_le _ _)
        (.wrote arg hch) ?_
      rintro e (rfl | rfl) <;> exact ⟨_, rfl, rfl⟩
  · exact h.serves_malformed (set_malformed kvMap hw) hw (by simp)

theorem get (h : Mirrors ar kvMap t) (arg : Str) : Serves ar kvMap t true rep (.get arg) := by
  by_cases hw : WellFormed arg
  · have hfront := get_wellFormed kvMap hw
    rw [h.lookup _ hw.isPath] at hfront
    cases ht : t (comps arg) with
    | none =>
      rw [ht] at hfront
      exact h.serves_reply hfront trivial (.notFound rep _ (.inr (.inl ⟨arg, rfl⟩)) hw ht)
    | some val =>
      rw [ht] at hfront
      exact h.serves_reply hfront (h.fits _ val ((h.lookup _ hw.isPath).trans ht)).2 (.got rep arg val hw ht)
  · exact h.serves_malformed (get_malformed kvMap hw) hw (by simp)

theorem list (h : Mirrors ar kvMap t) (arg : Str) : Serves ar kvMap t true rep (.list arg) := by
  have hlisted : ∀ ps, Split.Proper slash ps → (Req.list arg).front true kvMap = MetaDR.listNames kvMap (pathKey ps) →
      ((arg = [slash] ∧ ps = []) ∨ (WellFormed arg ∧ ps = comps arg ∧ t ps ≠ none)) →
      Serves ar kvMap t true rep (.list arg) := by
    intro ps hproper hfront hp
    obtain ⟨ns, hns, hfit, hall, hclear⟩ := h.listNames hproper
    refine h.serves_reply (hfront.trans hns) hfit
      (.listed rep arg ps ns.toFinset hp (fun q hq => ?_) (fun hc q hq => ?_))
    · exact List.mem_toFinset.2 (hall q hq)
    · exact hclear hc q (List.mem_toFinset.1 hq)
  by_cases hr : arg = [slash]
  · subst hr
    exact hlisted [] (fun _ hp => absurd hp List.not_mem_nil) (list_root kvMap) (.inl ⟨rfl, rfl⟩)
  · by_cases hw : WellFormed arg
    · have hfront := list_wellFormed kvMap hw
      by_cases hk : pathKey (comps arg) ∉ kvMap
      · rw [if_pos hk] at hfront
        refine h.serves_reply hfront trivial (.notFound rep _ (.inr (.inr ⟨arg, rfl⟩)) hw ?_)
        by_contra hn
        exact hk ((h.mem_iff hw.isPath).2 hn)
      · rw [if_neg hk] at hfront
        exact hlisted _ hw.isPath.proper hfront (.inr ⟨hw, rfl, (h.mem_iff hw.isPath).1 (not_not.1 hk)⟩)
    · exact h.serves_malformed (list_malformed kvMap hr hw) hw (by simp [hr])

theorem serves (h : Mirrors ar kvMap t) (isPrimary : Bool) (rep : Replicated) {req : Req} (hfit : req.Fits ar) :
    Serves ar kvMap t isPrimary rep req := by
  cases isPrimary with
  | false => exact h.serves_reply (Req.front_false kvMap req) trivial (by cases req <;> exact .notPrimary rep _)
  | true =>
    cases req with
    | create arg => exact h.create hfit
    | remove arg => exact h.remove arg
    | set arg => exact h.set hfit
    | get arg => exact h.get arg
    | list arg => exact h.list arg

/-- **The step lemma**: over the connection, a call answers what the tree says. -/
theorem invoke (ar : Archive) (h : Mirrors ar kvMap t) (hcard : kvMap.keys.card ≤ ar.maxLen) (req : Req)
    (isPrimary : Bool) (rep : Replicated) : ∃ t', Mirrors ar (Client.invoke ar isPrimary kvMap req rep).1 t' ∧
      (Client.invoke ar isPrimary kvMap req rep).1.keys.card ≤ kvMap.keys.card + 1 ∧
      t.Answers ar isPrimary rep req (Client.invoke ar isPrimary kvMap req rep).2 t' := by
  by_cases hfit : req.Fits ar
  · obtain ⟨kvMap', res, t', hs, hm, hc, hres, ha⟩ := h.serves isPrimary rep hfit
    have hcall := (Req.codec ar).load_save req [] (Req.Fits.fits hfit)
    have hback := (Result.codec ar).load_save res [] (hres.fits hcard)
    rw [List.append_nil] at hcall hback
    have hinv : Client.invoke ar isPrimary kvMap req rep = (kvMap', Client.take req res) := by
      simp only [Client.invoke, if_pos hfit, hcall, hs, hback]
    rw [hinv]
    exact ⟨t', hm, hc, ha⟩
  · rw [Client.invoke, if_neg hfit]
    exact ⟨t, h, Nat.le_succ _, .tooLong isPrimary rep req hfit⟩

/-- **The run lemma**: a session goes as the tree says. -/
theorem session (ar : Archive) : ∀ (calls : List (Req × Bool × Replicated)) {kvMap : KvMap} {t : Dir},
    Mirrors ar kvMap t → kvMap.keys.card + calls.length ≤ ar.maxLen →
      ∃ t', Dir.Session ar t calls (Client.session ar kvMap calls).2 t' ∧
        Mirrors ar (Client.session ar kvMap calls).1 t'
  | [], _, t, h, _ => ⟨t, .nil t, h⟩
  | (req, isPrimary, rep) :: calls, kvMap, t, h, hlen => by
    rw [List.length_cons] at hlen
    obtain ⟨t', hm, hc, ha⟩ := h.invoke ar (by omega) req isPrimary rep
    obtain ⟨t'', hs, hm'⟩ := session ar calls hm (by omega)
    exact ⟨t'', .cons ha hs, hm'⟩

end Mirrors

theorem mirrors_empty {ar : Archive} : Mirrors ar ∅ .empty where
  store := pathStore_empty
  lookup := fun _ _ => Finmap.lookup_empty _
  outside := fun _ _ => rfl
  fits := fun _ _ hl => by cases hl

theorem Dir.Answers.fault {ar : Archive} {t t' : Dir} {isPrimary : Bool} {rep : Replicated} {req : Req}
    {f : ClientFault} (h : t.Answers ar isPrimary rep req (.error f) t') :
    (∃ e, f = .exception e) ∨ (f = .overflow ∧ ¬ req.Fits ar) := by
  cases h with
  | tooLong _ _ _ hfit => exact .inr ⟨rfl, hfit⟩
  | _ => exact .inl ⟨_, rfl⟩

theorem Dir.Session.fault {ar : Archive} {t t' : Dir} {calls : List (Req × Bool × Replicated)}
    {outs : List (Except ClientFault ClientAnswer)} (h : Session ar t calls outs t') {f : ClientFault}
    (hf : .error f ∈ outs) : (∃ e, f = .exception e) ∨ f = .overflow := by
  induction h with
  | nil => cases hf
  | cons ha _ ih =>
    rcases List.mem_cons.1 hf with rfl | hf
    · exact ha.fault.imp id And.left
    · exact ih hf

/-- **A client sees a tree of names.**  Over any connection, a session from the empty store goes as a tree of names
says, call by call; the store ends with that tree; and no assertion of the library fails, no union is taken wrongly and
no result stays away. -/
theorem client_session (ar : Archive) {calls : List (Req × Bool × Replicated)} (h : calls.length ≤ ar.maxLen) :
    (∃ t, Dir.Session ar .empty calls (Client.session ar ∅ calls).2 t ∧
      ∀ ps, IsPath ps → (Client.session ar ∅ calls).1.lookup (pathKey ps) = t ps) ∧
    ∀ f, .error f ∈ (Client.session ar ∅ calls).2 → (∃ e, f = .exception e) ∨ f = .overflow := by
  have hcard : (∅ : KvMap).keys.card + calls.length ≤ ar.maxLen := by
    rw [Finmap.keys_empty, Finset.card_empty]
    omega
  obtain ⟨t, hs, hm⟩ := mirrors_empty.session ar calls hcard
  exact ⟨⟨t, hs, hm.lookup⟩, fun f hf => hs.fault hf⟩

/-- A key is made, the root is listed and a key that is not there is removed. -/
def sessionCalls : List (Req × Bool × Replicated) :=
  [(.create ⟨[slash, 97], [1]⟩, true, .done), (.list [slash], true, .done), (.remove [slash, 98], true, .done)]

theorem client_session_three :
    (Client.session xdrpp ∅ sessionCalls).2 = [.ok (.bool true), .ok (.keys {[97]}), .ok (.bool false)] ∧
      ∃ t, Dir.Session xdrpp .empty sessionCalls [.ok (.bool true), .ok (.keys {[97]}), .ok (.bool false)] t := by
  have houts : (Client.session xdrpp ∅ sessionCalls).2 = [.ok (.bool true), .ok (.keys {[97]}), .ok (.bool false)] := by
    decide +kernel
  obtain ⟨⟨t, hs, -⟩, -⟩ := client_session xdrpp (show sessionCalls.length ≤ xdrpp.maxLen by decide)
  exact ⟨houts, t, houts ▸ hs⟩

end MetaDR
