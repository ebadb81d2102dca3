import MetaDR.Asked
import MetaDR.Lib.Xdr
/-!
# Wire — the types and programs of the .x files on a connection

The generated code (include/kvStore.hh, server/vrTypes.hh, server/vsReplication.hh, server/viewChange.hh,
server/recovery.hh) writes the fields of a type in order and reads them in the same order, and its `call_dispatch` hands
an argument to the handler of its procedure.  What xdrpp writes for the basic types and in front of an argument is an
`Archive`.  A name that an enumeration does not list is not read; the code keeps its number.
-/
namespace MetaDR

/-- What the generated code takes from xdrpp: the formats of the basic types, of arrays and of a call's program, version
and procedure. -/
structure Archive where
  /-- `XDR_MAX_LEN`, the bound of `xstring<>` and `xvector<>` -/
  maxLen : Nat
  uint : Codec UInt8 Nat
  hyper : Codec UInt8 Nat
  bool : Codec UInt8 Bool
  string : Nat → Codec UInt8 Str
  /-- an `xvector<>` of what the format of its elements is for -/
  vector : {α : Type} → Codec UInt8 α → Codec UInt8 (List α)
  call : Codec UInt8 (Nat × Nat × Nat)
  le_maxLen : 512 ≤ maxLen
  uint_fits : ∀ x, x < 2 ^ 32 → uint.fits x
  hyper_fits : ∀ x, x < 2 ^ 64 → hyper.fits x
  bool_fits : ∀ b, bool.fits b
  string_fits : ∀ max, max ≤ maxLen → ∀ s, s.length ≤ max → (string max).fits s
  string_le : ∀ max s x rest, (string max).load s = some (x, rest) → x.length ≤ max
  vector_fits : ∀ {α : Type} (c : Codec UInt8 α) (l : List α), l.length ≤ maxLen → (∀ x ∈ l, c.fits x) →
    (vector c).fits l
  call_fits : ∀ prog vers proc, prog < 2 ^ 32 → vers < 2 ^ 32 → proc < 2 ^ 32 → call.fits (prog, vers, proc)
  call_nil : call.load [] = none

section

variable (ar : Archive)

/-! ## The types -/

def KvPair.codec : Codec UInt8 KvPair :=
  ((ar.string 512).pair (ar.string ar.maxLen)).via (fun obj => (obj.key, obj.val)) (fun x => some ⟨x.1, x.2⟩)
    (fun _ => rfl)

def Error.codec : Codec UInt8 Error :=
  ar.uint.enum [.none, .keyAlreadyPresent, .keyNotPresent, .keyHasNoParent, .keyHasChildren, .keyMalformed,
    .replicaNotPrimary, .quorumNotReached, .statusNotNormal] (fun e => by cases e <;> decide)

/-- What the server sets the union to; for an error it stays at the 0 of its constructor. -/
def Result.discriminant : Result → Nat
  | .err _ => 0
  | .val _ => 1
  | .keys _ => 2

/-- `_xdr_with_mem_ptr`. -/
def Result.member (which : Nat) : Codec UInt8 Result :=
  if which = 1 then
    (ar.string ar.maxLen).arm .val (fun | .val v => some v | _ => none) (by rintro ⟨⟩ x h <;> cases h; rfl)
  else if which = 2 then
    (ar.vector (ar.string ar.maxLen)).arm .keys (fun | .keys ks => some ks | _ => none)
      (by rintro ⟨⟩ x h <;> cases h; rfl)
  else (Error.codec ar).arm .err (fun | .err e => some e | _ => none) (by rintro ⟨⟩ x h <;> cases h; rfl)

def Result.codec : Codec UInt8 Result := ar.uint.tagged Result.discriminant (Result.member ar)

def OpType.codec : Codec UInt8 OpType := ar.uint.enum [.update, .delete] (fun e => by cases e <;> decide)

def LogEntry.codec : Codec UInt8 LogEntry :=
  ((KvPair.codec ar).pair ((OpType.codec ar).pair (ar.hyper.pair ar.bool))).via
    (fun obj => (obj.kvPair, obj.opType, obj.opNum, obj.committed))
    (fun (kvPair, opType, opNum, committed) => some ⟨kvPair, opType, opNum, committed⟩) (fun _ => rfl)

def OpLog.codec : Codec UInt8 OpLog := ar.vector (LogEntry.codec ar)

def PrepInfo.codec : Codec UInt8 PrepInfo :=
  (ar.hyper.pair ((KvPair.codec ar).pair (ar.hyper.pair ((OpType.codec ar).pair ar.hyper)))).via
    (fun obj => (obj.viewNum, obj.kvPair, obj.opNum, obj.opType, obj.commitNum))
    (fun (viewNum, kvPair, opNum, opType, commitNum) => some ⟨viewNum, kvPair, opNum, opType, commitNum⟩)
    (fun _ => rfl)

def CommitInfo.codec : Codec UInt8 CommitInfo :=
  (ar.hyper.pair ar.hyper).via (fun obj => (obj.viewNum, obj.commitNum))
    (fun (viewNum, commitNum) => some ⟨viewNum, commitNum⟩) (fun _ => rfl)

def PrepResponse.codec : Codec UInt8 PrepResponse :=
  (ar.hyper.pair (ar.hyper.pair ar.hyper)).via (fun obj => (obj.viewNum, obj.opNum, obj.replicaId))
    (fun (viewNum, opNum, replicaId) => some ⟨viewNum, opNum, replicaId⟩) (fun _ => rfl)

def ViewChangeRequest.codec : Codec UInt8 ViewChangeRequest :=
  (ar.hyper.pair ar.hyper).via (fun obj => (obj.viewNum, obj.replicaId))
    (fun (viewNum, replicaId) => some ⟨viewNum, replicaId⟩) (fun _ => rfl)

def ViewChangeInfo.codec : Codec UInt8 ViewChangeInfo :=
  (ar.hyper.pair ((OpLog.codec ar).pair (ar.hyper.pair (ar.hyper.pair (ar.hyper.pair ar.hyper))))).via
    (fun obj => (obj.viewNum, obj.opLog, obj.oldViewNum, obj.opNum, obj.commitNum, obj.replicaId))
    (fun (viewNum, opLog, oldViewNum, opNum, commitNum, replicaId) =>
      some ⟨viewNum, opLog, oldViewNum, opNum, commitNum, replicaId⟩) (fun _ => rfl)

def ViewStartInfo.codec : Codec UInt8 ViewStartInfo :=
  (ar.hyper.pair ((OpLog.codec ar).pair (ar.hyper.pair (ar.hyper.pair ar.hyper)))).via
    (fun obj => (obj.viewNum, obj.opLog, obj.opNum, obj.commitNum, obj.replicaId))
    (fun (viewNum, opLog, opNum, commitNum, replicaId) => some ⟨viewNum, opLog, opNum, commitNum, replicaId⟩)
    (fun _ => rfl)

/-- `knownCommitNum` is the 0 that `recover` puts there. -/
def RecoveryRequest.codec : Codec UInt8 RecoveryRequest :=
  (ar.hyper.pair (ar.hyper.pair ar.hyper)).via (fun obj => (obj.replicaId, obj.nonce, 0))
    (fun (replicaId, nonce, _) => some ⟨replicaId, nonce⟩) (fun _ => rfl)

def RecoveryResponse.codec : Codec UInt8 RecoveryResponse :=
  (ar.hyper.pair (ar.hyper.pair (ar.hyper.pair (ar.bool.pair ((OpLog.codec ar).pair (ar.hyper.pair ar.hyper)))))).via
    (fun obj => (obj.viewNum, obj.nonce, obj.replicaId, obj.isPrimary, obj.opLog, obj.opNum, obj.commitNum))
    (fun (viewNum, nonce, replicaId, isPrimary, opLog, opNum, commitNum) =>
      some ⟨viewNum, nonce, replicaId, isPrimary, opLog, opNum, commitNum⟩) (fun _ => rfl)

/-! ## The programs -/

/-- `KvStoreApi_v1::call_dispatch`. -/
def KvStoreApi.callDispatch : Nat → Codec UInt8 Req
  | 1 => (KvPair.codec ar).arm .create (fun | .create x => some x | _ => none) (by rintro ⟨⟩ x h <;> cases h; rfl)
  | 2 => (ar.string ar.maxLen).arm .remove (fun | .remove x => some x | _ => none) (by rintro ⟨⟩ x h <;> cases h; rfl)
  | 3 => (KvPair.codec ar).arm .set (fun | .set x => some x | _ => none) (by rintro ⟨⟩ x h <;> cases h; rfl)
  | 4 => (ar.string ar.maxLen).arm .get (fun | .get x => some x | _ => none) (by rintro ⟨⟩ x h <;> cases h; rfl)
  | 5 => (ar.string ar.maxLen).arm .list (fun | .list x => some x | _ => none) (by rintro ⟨⟩ x h <;> cases h; rfl)
  | _ => .void

/-- `ReplicationApi_v1::call_dispatch`. -/
def ReplicationApi.callDispatch : Nat → Codec UInt8 Msg
  | 1 => (PrepInfo.codec ar).arm .prepare (fun | .prepare x => some x | _ => none) (by rintro ⟨⟩ x h <;> cases h; rfl)
  | 2 =>
    (PrepResponse.codec ar).arm .prepareOk (fun | .prepareOk x => some x | _ => none)
      (by rintro ⟨⟩ x h <;> cases h; rfl)
  | 3 => (CommitInfo.codec ar).arm .commit (fun | .commit x => some x | _ => none) (by rintro ⟨⟩ x h <;> cases h; rfl)
  | _ => .void

/-- `ViewChangeApi_v1::call_dispatch`. -/
def ViewChangeApi.callDispatch : Nat → Codec UInt8 Msg
  | 1 =>
    (ViewChangeRequest.codec ar).arm .startViewChange (fun | .startViewChange x => some x | _ => none)
      (by rintro ⟨⟩ x h <;> cases h; rfl)
  | 2 =>
    (ViewChangeInfo.codec ar).arm .doViewChange (fun | .doViewChange x => some x | _ => none)
      (by rintro ⟨⟩ x h <;> cases h; rfl)
  | 3 =>
    (ViewStartInfo.codec ar).arm .startView (fun | .startView x => some x | _ => none)
      (by rintro ⟨⟩ x h <;> cases h; rfl)
  | _ => .void

/-- `RecoveryApi_v1::call_dispatch`. -/
def RecoveryApi.callDispatch : Nat → Codec UInt8 Msg
  | 1 =>
    (RecoveryRequest.codec ar).arm .recoveryRequest (fun | .recoveryRequest x => some x | _ => none)
      (by rintro ⟨⟩ x h <;> cases h; rfl)
  | 2 =>
    (RecoveryResponse.codec ar).arm .recoveryResponse (fun | .recoveryResponse x => some x | _ => none)
      (by rintro ⟨⟩ x h <;> cases h; rfl)
  | _ => .void

def KvStoreApi.program : Nat := 1074036870
def ReplicationApi.program : Nat := 1074036872
def ViewChangeApi.program : Nat := 1074036992
def RecoveryApi.program : Nat := 1074036994

/-- The program, version and procedure of a client's call. -/
def Req.call : Req → Nat × Nat × Nat
  | .create _ => (KvStoreApi.program, 1, 1)
  | .remove _ => (KvStoreApi.program, 1, 2)
  | .set _ => (KvStoreApi.program, 1, 3)
  | .get _ => (KvStoreApi.program, 1, 4)
  | .list _ => (KvStoreApi.program, 1, 5)

/-- The program, version and procedure of a call from server to server. -/
def Msg.call : Msg → Nat × Nat × Nat
  | .prepare _ => (ReplicationApi.program, 1, 1)
  | .prepareOk _ => (ReplicationApi.program, 1, 2)
  | .commit _ => (ReplicationApi.program, 1, 3)
  | .startViewChange _ => (ViewChangeApi.program, 1, 1)
  | .doViewChange _ => (ViewChangeApi.program, 1, 2)
  | .startView _ => (ViewChangeApi.program, 1, 3)
  | .recoveryRequest _ => (RecoveryApi.program, 1, 1)
  | .recoveryResponse _ => (RecoveryApi.program, 1, 2)

/-- The service registered at the clients' port. -/
def clientPort (call : Nat × Nat × Nat) : Codec UInt8 Req :=
  if (call.1, call.2.1) = (KvStoreApi.program, 1) then KvStoreApi.callDispatch ar call.2.2 else .void

/-- The three services registered at the replication port. -/
def replicationPort (call : Nat × Nat × Nat) : Codec UInt8 Msg :=
  if (call.1, call.2.1) = (ReplicationApi.program, 1) then ReplicationApi.callDispatch ar call.2.2
  else if (call.1, call.2.1) = (ViewChangeApi.program, 1) then ViewChangeApi.callDispatch ar call.2.2
  else if (call.1, call.2.1) = (RecoveryApi.program, 1) then RecoveryApi.callDispatch ar call.2.2
  else .void

/-- The calls a client sends and the listener at the clients' port takes up. -/
def Req.codec : Codec UInt8 Req := ar.call.tagged Req.call (clientPort ar)

/-- The calls servers send and the listener at the replication port takes up. -/
def Msg.codec : Codec UInt8 Msg := ar.call.tagged Msg.call (replicationPort ar)

/-! ## What fits -/

def KvPair.Fits (p : KvPair) : Prop := p.key.length ≤ 512 ∧ p.val.length ≤ ar.maxLen

/-- The limits are those of the generated types. -/
structure Limits.Fit (L : Limits) : Prop where
  op : ∀ op, L.op op → op.kvPair.Fits ar
  len : L.len ≤ ar.maxLen
  num : L.num < 2 ^ 64

variable {ar} {L : Limits}

theorem KvPair.Fits.fits {p : KvPair} (h : p.Fits ar) : (KvPair.codec ar).fits p :=
  ⟨ar.string_fits _ ar.le_maxLen _ h.1, ar.string_fits _ (Nat.le_refl _) _ h.2⟩

theorem OpType.fits (o : OpType) : (OpType.codec ar).fits o := ar.uint_fits _ (by cases o <;> decide)

theorem OpLog.Within.fits {log : OpLog} (h : log.Within L) (hL : L.Fit ar) : (OpLog.codec ar).fits log :=
  ar.vector_fits _ _ (Nat.le_trans h.1 hL.len) (fun e he =>
    ⟨(hL.op _ (h.2 e he).1).fits, OpType.fits _, ar.hyper_fits _ (Nat.lt_of_le_of_lt (h.2 e he).2 hL.num),
      ar.bool_fits _⟩)

/-- **A message within the limits fits.** -/
theorem Msg.Within.fits {msg : Msg} (h : msg.Within L) (hL : L.Fit ar) : (Msg.codec ar).fits msg := by
  have hyper : ∀ {x}, x ≤ L.num → ar.hyper.fits x := fun hx => ar.hyper_fits _ (Nat.lt_of_le_of_lt hx hL.num)
  refine ⟨by cases msg <;> exact ar.call_fits _ _ _ (by decide) (by decide) (by decide), ?_⟩
  cases msg with
  | prepare p =>
    have hp : p.kvPair.Fits ar := by
      have := hL.op _ (PrepInfo.Within.op h)
      rwa [PrepInfo.Within.pair h] at this
    exact ⟨p, rfl, hyper h.viewNum, hp.fits, hyper h.opNum, OpType.fits _, hyper h.commitNum⟩
  | prepareOk resp => exact ⟨resp, rfl, hyper h.1, hyper h.2.1, hyper h.2.2⟩
  | commit info => exact ⟨info, rfl, hyper h.1, hyper h.2⟩
  | startViewChange req => exact ⟨req, rfl, hyper h.1, hyper h.2⟩
  | doViewChange info =>
    obtain ⟨hl, hv, ho, hn, hc, hr⟩ := h
    exact ⟨info, rfl, hyper hv, hl.fits hL, hyper ho, hyper hn, hyper hc, hyper hr⟩
  | startView info =>
    obtain ⟨hl, hv, hn, hc, hr⟩ := h
    exact ⟨info, rfl, hyper hv, hl.fits hL, hyper hn, hyper hc, hyper hr⟩
  | recoveryRequest req => exact ⟨req, rfl, hyper h.1, hyper h.2, hyper (Nat.zero_le _)⟩
  | recoveryResponse resp =>
    obtain ⟨hl, hv, ht, hr, hn, hc⟩ := h
    exact ⟨resp, rfl, hyper hv, hyper ht, hyper hr, ar.bool_fits _, hl.fits hL, hyper hn, hyper hc⟩

/-- The call was read off a connection. -/
def Req.Read (ar : Archive) (req : Req) : Prop := ∃ s rest, (Req.codec ar).load s = some (req, rest)

theorem KvPair.fits_of_load {p : KvPair} {s rest : List UInt8} (h : (KvPair.codec ar).load s = some (p, rest)) :
    p.Fits ar := by
  obtain ⟨⟨⟨key, val⟩, s'⟩, hp, h⟩ := Option.bind_eq_some_iff.1 h
  obtain ⟨⟨key', s₁⟩, hk, hp⟩ := Option.bind_eq_some_iff.1 hp
  obtain ⟨⟨val', s₂⟩, hv, hp⟩ := Option.map_eq_some_iff.1 hp
  cases hp
  cases h
  exact ⟨ar.string_le _ _ _ _ hk, ar.string_le _ _ _ _ hv⟩

/-- **The pair of a call that was read fits.** -/
theorem Req.Read.fits {req : Req} (h : req.Read ar) {arg : KvPair} (hr : req = .create arg ∨ req = .set arg) :
    arg.Fits ar := by
  obtain ⟨s, rest, h⟩ := h
  obtain ⟨⟨⟨prog, vers, proc⟩, s'⟩, -, h⟩ := Option.bind_eq_some_iff.1 h
  dsimp only [clientPort] at h
  split at h
  · unfold KvStoreApi.callDispatch at h
    split at h
    -- `create` and `set` read a pair, the others make another call
    · obtain ⟨⟨x, s''⟩, hx, h⟩ := Option.map_eq_some_iff.1 h
      cases h
      simp only [Req.create.injEq, reduceCtorEq, or_false] at hr
      exact hr ▸ KvPair.fits_of_load hx
    · obtain ⟨x, -, h⟩ := Option.map_eq_some_iff.1 h
      cases h
      simp at hr
    · obtain ⟨⟨x, s''⟩, hx, h⟩ := Option.map_eq_some_iff.1 h
      cases h
      simp only [Req.set.injEq, reduceCtorEq, false_or] at hr
      exact hr ▸ KvPair.fits_of_load hx
    · obtain ⟨x, -, h⟩ := Option.map_eq_some_iff.1 h
      cases h
      simp at hr
    · obtain ⟨x, -, h⟩ := Option.map_eq_some_iff.1 h
      cases h
      simp at hr
    · cases h
  · cases h

end

theorem WellFormed.length_pathKey_le {key : Str} (h : WellFormed key) : (pathKey (comps key)).length ≤ key.length := by
  rw [pathKey, comps, ← (Split.squeeze_eq_join h.starts h.ends).2]
  exact Split.length_squeeze_le _ _

/-- Calls that were read lead to operations that fit: a key only gets shorter, and a key to be removed is one of the
store's. -/
theorem admits_of_read {ar : Archive} {q : Req → Bool} {len num : Nat} (hq : ∀ req, q req = true → req.Read ar) :
    Limits.Admits ⟨fun op => op.kvPair.Fits ar, len, num⟩ q := by
  intro isPrimary kvMap req m u hreq hmap hf hu
  obtain ⟨arg, hr, hw, rfl⟩ | ⟨arg, rfl, hw, rfl⟩ := Req.front_mutate hf
  · have hfits := (hq req hreq).fits hr
    exact ⟨hw.length_pathKey_le.trans hfits.1, hfits.2⟩
  · have hkey : pathKey (comps arg) ∈ kvMap := by
      by_contra hn
      simp [Mutation.enter, KvMemStore.hasKey, hn] at hu
    obtain ⟨val, hval⟩ := Finmap.mem_iff.1 hkey
    exact ⟨(hmap _ val hval).1, Nat.zero_le _⟩

/-- The call fits. -/
def Req.Fits (ar : Archive) : Req → Prop
  | .create arg => arg.Fits ar
  | .set arg => arg.Fits ar
  | .remove arg => arg.length ≤ ar.maxLen
  | .get arg => arg.length ≤ ar.maxLen
  | .list arg => arg.length ≤ ar.maxLen

theorem Req.Fits.fits {ar : Archive} {req : Req} (h : req.Fits ar) : (Req.codec ar).fits req := by
  refine ⟨by cases req <;> exact ar.call_fits _ _ _ (by decide) (by decide) (by decide), ?_⟩
  cases req with
  | create arg => exact ⟨arg, rfl, KvPair.Fits.fits h⟩
  | set arg => exact ⟨arg, rfl, KvPair.Fits.fits h⟩
  | remove arg => exact ⟨arg, rfl, ar.string_fits _ (Nat.le_refl _) _ h⟩
  | get arg => exact ⟨arg, rfl, ar.string_fits _ (Nat.le_refl _) _ h⟩
  | list arg => exact ⟨arg, rfl, ar.string_fits _ (Nat.le_refl _) _ h⟩

theorem Req.Fits.read {ar : Archive} {req : Req} (h : req.Fits ar) : req.Read ar :=
  ⟨_, [], (Req.codec ar).load_save req [] h.fits⟩

/-- Some replica sent the message, in a run of no more observations than an array can be long, where the numbers stay
below `2 ^ 64` and each client call was read off a connection. -/
def Msg.Sent (ar : Archive) (msg : Msg) : Prop :=
  ∃ n q t c tr d, Asking n q t c tr ∧ (∀ req, q req = true → req.Read ar) ∧ tr.length ≤ ar.maxLen ∧
    n + t + tr.length < 2 ^ 64 ∧ ⟨d, msg⟩ ∈ c.net

theorem Msg.Sent.fits {ar : Archive} {msg : Msg} (h : msg.Sent ar) : (Msg.codec ar).fits msg := by
  obtain ⟨n, q, t, c, tr, d, hrun, hq, hlen, hnum, hm⟩ := h
  exact ((hrun.within (admits_of_read hq)).net _ hm).fits ⟨fun _ ho => ho, hlen, hnum⟩

/-- **A connection between servers is faithful**: the listener reads all that was sent on it, in order, and whatever
part of the bytes has come in, the calls it has handed to the handlers are the first ones that were sent. -/
theorem connection_faithful (ar : Archive) {msgs : List Msg} (h : ∀ msg ∈ msgs, msg.Sent ar) :
    (Msg.codec ar).loads msgs.length (msgs.flatMap (Msg.codec ar).save) = some (msgs, []) ∧
    ∀ s more, s ++ more = msgs.flatMap (Msg.codec ar).save →
      ∀ k calls rest, (Msg.codec ar).loads k s = some (calls, rest) → k ≤ msgs.length ∧ calls = msgs.take k := by
  have hfits : ∀ msg ∈ msgs, (Msg.codec ar).fits msg := fun msg hm => (h msg hm).fits
  refine ⟨?_, fun s more hs k calls rest hl => ?_⟩
  · have := (Msg.codec ar).loads_save msgs [] hfits
    rwa [List.append_nil] at this
  · exact (Msg.codec ar).eq_take_of_loads (by simp [Msg.codec, Codec.tagged, ar.call_nil]) hfits hs hl

/-- The formats and the bound of RFC 4506. -/
def xdrpp : Archive where
  maxLen := 2 ^ 32 - 1
  uint := Xdr.uint 4
  hyper := Xdr.uint 8
  bool := Xdr.bool
  string := Xdr.string
  vector := Codec.many (Xdr.uint 4)
  call := Xdr.callHead
  le_maxLen := by decide
  uint_fits := fun _ h => h
  hyper_fits := fun _ h => h
  bool_fits := Xdr.bool_fits
  string_fits := fun max hm s h => Xdr.fits_string (Nat.lt_of_le_of_lt hm (by decide)) h
  string_le := fun _ _ _ _ h => Xdr.length_le_of_load h
  vector_fits := fun _ _ hl h => ⟨Nat.lt_of_le_of_lt hl (by decide), h⟩
  call_fits := fun _ _ _ hp hv hc => Xdr.callHead_fits hp hv hc
  call_nil := rfl

theorem connection_faithful_three : ∃ p : PrepInfo, p.kvPair = ⟨[slash, 120], [1]⟩ ∧
    (Msg.codec xdrpp).loads 2 ((Msg.codec xdrpp).save (.prepare p) ++ ((Msg.codec xdrpp).save (.commit ⟨0, 1⟩) ++ [])) =
      some ([.prepare p, .commit ⟨0, 1⟩], []) := by
  have hq : ∀ req, decide (req = .create ⟨[slash, 120], [1]⟩) = true → Req.Read xdrpp req := by
    intro req hr
    rw [of_decide_eq_true hr]
    exact Req.Fits.read ⟨by decide, by decide⟩
  have hsent : ∀ es msg, (Run.exec (Cluster.system 3)
      (fun _ _ e => e.asks (fun req => decide (req = .create ⟨[slash, 120], [1]⟩)) 0) es (Cluster.init 3) []).any
        (fun x => decide (x.2.length < 9) && decide (⟨1, msg⟩ ∈ x.1.net)) = true → Msg.Sent xdrpp msg := by
    intro es msg he
    obtain ⟨c, tr, h, hc⟩ := exists_asking es (fun c tr => decide (tr.length < 9) && decide (⟨1, msg⟩ ∈ c.net)) he
    simp only [Bool.and_eq_true, decide_eq_true_eq] at hc
    have hmax : 9 ≤ xdrpp.maxLen := by decide
    exact ⟨3, _, 0, c, tr, 1, h, hq, by omega, by omega, hc.2⟩
  have hp := hsent (Event.call 0 (.create ⟨[slash, 120], [1]⟩)) (.prepare ⟨0, ⟨[slash, 120], [1]⟩, 1, .update, 0⟩)
    (by decide +kernel)
  have hc := hsent (Event.call 0 (.create ⟨[slash, 120], [1]⟩) ++ [.act 0 .replicateCount 0] ++
    Event.takeUp 2 ⟨0, ⟨[slash, 120], [1]⟩, 1, .update, 0⟩ ++
    [.deliver ⟨0, .prepareOk ⟨0, 1, 2⟩⟩ 0, .act 0 .prepareOkCount 0, .act 0 .replicateWake 0]) (.commit ⟨0, 1⟩)
    (by decide +kernel)
  have hall : ∀ msg ∈ [Msg.prepare ⟨0, ⟨[slash, 120], [1]⟩, 1, .update, 0⟩, .commit ⟨0, 1⟩], msg.Sent xdrpp := by
    intro msg hm
    rcases List.mem_cons.1 hm with rfl | hm
    · exact hp
    · rw [List.mem_singleton.1 hm]
      exact hc
  exact ⟨_, rfl, (connection_faithful xdrpp hall).1⟩

end MetaDR
