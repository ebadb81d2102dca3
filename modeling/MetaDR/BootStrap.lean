import MetaDR.ConfigFile
import MetaDR.Membership
/-!
# BootStrap — from an `EndPoints` line to the ids of the cluster

An `EndPoints` line with blanks wherever its tokens meet reads as the endpoints it was written from
(`readLine_of_spells`).  `bootStrap`'s loop then numbers them by their position; when one of them is the local one, the
others are the peers of a replica with that number, as every process that reads the same line sees them
(`configuration_round_trip`).
-/
namespace MetaDR

open Fields (strip)

/-- A token with blanks around it. -/
def Pads (token s : Str) : Prop := ∃ j k, s = List.replicate j space ++ (token ++ List.replicate k space)

/-- A token that can stand in an `EndPoints` line. -/
def Plain (token : Str) : Prop := token ≠ [] ∧ space ∉ token ∧ comma ∉ token ∧ colon ∉ token ∧ equals ∉ token

def SpellsEndPoint (item : Str) (ep : EndPoint) : Prop :=
  ∃ ip port, Pads ep.ip ip ∧ Pads ep.port port ∧ item = ip ++ colon :: port

/-- **A spelling of an `EndPoints` line.** -/
def SpellsEndPoints (line : Str) (eps : List EndPoint) : Prop :=
  ∃ key items, Pads endPointsKey key ∧ List.Forall₂ SpellsEndPoint items eps ∧
    line = key ++ equals :: [comma].intercalate items

theorem mem_replicate_space {k : Nat} {c : UInt8} (h : c ∈ List.replicate k space) : c = space :=
  (List.mem_replicate.1 h).2

theorem Pads.strip_eq {token s : Str} (h : Pads token s) (ht : space ∉ token) : strip space s = token := by
  obtain ⟨j, k, rfl⟩ := h
  rw [Fields.strip_blanks_append (fun _ => mem_replicate_space),
    Fields.strip_append_blanks (fun _ => mem_replicate_space), Fields.strip_of_notMem ht]

theorem Pads.notMem {token s : Str} (h : Pads token s) {c : UInt8} (hc : c ≠ space) (ht : c ∉ token) : c ∉ s := by
  obtain ⟨j, k, rfl⟩ := h
  rw [List.mem_append, List.mem_append, not_or, not_or]
  exact ⟨fun h => hc (mem_replicate_space h), ht, fun h => hc (mem_replicate_space h)⟩

theorem SpellsEndPoint.read {item : Str} {ep : EndPoint} (h : SpellsEndPoint item ep) (hip : Plain ep.ip)
    (hport : Plain ep.port) : readEndPoint item = some ep := by
  obtain ⟨ip, port, hi, hp, rfl⟩ := h
  refine readEndPoint_eq_some.2 ⟨ip, port, rfl, hi.notMem (by decide) hip.2.2.2.1, hp.notMem (by decide) hport.2.2.2.1,
    hi.strip_eq hip.2.1, hp.strip_eq hport.2.1, hip.1, hport.1⟩

theorem SpellsEndPoint.notMem {item : Str} {ep : EndPoint} (h : SpellsEndPoint item ep) {c : UInt8} (hc : c ≠ space)
    (hcolon : c ≠ colon) (hip : c ∉ ep.ip) (hport : c ∉ ep.port) : c ∉ item := by
  obtain ⟨ip, port, hi, hp, rfl⟩ := h
  rw [List.mem_append, List.mem_cons, not_or, not_or]
  exact ⟨hi.notMem hc hip, hcolon, hp.notMem hc hport⟩

theorem readEndPoint_strip (item : Str) : readEndPoint (strip space item) = readEndPoint item := by
  unfold readEndPoint
  rw [Fields.map_strip_splitOn_strip (by decide)]

theorem mapM_readEndPoint_strip (val : Str) :
    ((strip space val).splitOn comma).mapM readEndPoint = (val.splitOn comma).mapM readEndPoint := by
  have hmap : ∀ items : List Str, items.mapM readEndPoint = (items.map (strip space)).mapM readEndPoint := by
    intro items
    rw [List.mapM_map]
    congr 1
    funext item
    exact (readEndPoint_strip item).symm
  rw [hmap, Fields.map_strip_splitOn_strip (by decide), ← hmap]

theorem readKeyVal_endPoints {val : Str} {eps : List EndPoint} (hne : val ≠ [])
    (h : (val.splitOn comma).mapM readEndPoint = some eps) :
    readKeyVal endPointsKey val = some (.endPoints eps) := by
  unfold readKeyVal
  rw [if_neg hne, if_neg (by decide), if_neg (by decide), if_pos rfl, h]
  rfl

theorem read_items {items : List Str} {eps : List EndPoint} (h : List.Forall₂ SpellsEndPoint items eps)
    (hplain : ∀ ep ∈ eps, Plain ep.ip ∧ Plain ep.port) :
    items.mapM readEndPoint = some eps ∧ ∀ item ∈ items, comma ∉ item ∧ equals ∉ item := by
  induction h with
  | nil => exact ⟨rfl, fun _ hm => absurd hm List.not_mem_nil⟩
  | @cons item ep items eps hspell _ ih =>
    obtain ⟨⟨hip, hport⟩, hrest⟩ := List.forall_mem_cons.1 hplain
    obtain ⟨hread, hno⟩ := ih hrest
    refine ⟨?_, List.forall_mem_cons.2 ⟨⟨?_, ?_⟩, hno⟩⟩
    · rw [List.mapM_cons, hspell.read hip hport, hread]
      rfl
    · exact hspell.notMem (by decide) (by decide) hip.2.2.1 hport.2.2.1
    · exact hspell.notMem (by decide) (by decide) hip.2.2.2.2 hport.2.2.2.2

/-- **A spelled line reads as what it was spelled from.** -/
theorem readLine_of_spells {line : Str} {eps : List EndPoint} (hne : eps ≠ [])
    (hplain : ∀ ep ∈ eps, Plain ep.ip ∧ Plain ep.port) (h : SpellsEndPoints line eps) :
    strip space line ≠ [] ∧ readLine line = some (.endPoints eps) := by
  obtain ⟨key, items, hkey, hitems, rfl⟩ := h
  obtain ⟨hread, hno⟩ := read_items hitems hplain
  have hine : items ≠ [] := by
    rintro rfl
    cases hitems
    exact hne rfl
  have hstrip := Fields.strip_append_cons (show equals ≠ space by decide) key ([comma].intercalate items)
  have hkeyEq : strip space key = endPointsKey := hkey.strip_eq (by decide)
  have hkeyNo : equals ∉ key := hkey.notMem (by decide) (by decide)
  have hvalNo : equals ∉ [comma].intercalate items :=
    Fields.notMem_intercalate (by decide) (fun item hm => (hno item hm).2)
  have hitemsEq : ([comma].intercalate items).splitOn comma = items :=
    List.splitOn_intercalate comma (fun item hm => (hno item hm).1) hine
  have hmapM : ((strip space ([comma].intercalate items)).splitOn comma).mapM readEndPoint = some eps := by
    rw [mapM_readEndPoint_strip, hitemsEq, hread]
  have hval : strip space ([comma].intercalate items) ≠ [] := by
    intro hnil
    rw [hnil] at hmapM
    cases hmapM
  have hhead : (strip space (key ++ equals :: [comma].intercalate items)).head? ≠ some hash := by
    obtain ⟨j, k, rfl⟩ := hkey
    rw [hstrip, List.dropWhile_append_of_pos (fun c hc => by simpa using mem_replicate_space hc)]
    show some (69 : UInt8) ≠ some hash
    decide
  refine ⟨by rw [hstrip]; simp, ?_⟩
  unfold readLine
  dsimp only
  rw [if_neg (not_or.2 ⟨by rw [hstrip]; simp, hhead⟩), hstrip, Fields.splitOn_eq_pair.2 ⟨rfl, ?_, ?_⟩]
  · show readKeyVal (strip space _) (strip space _) = _
    rw [Fields.strip_dropWhile, Fields.strip_rdropWhile, hkeyEq]
    exact readKeyVal_endPoints hval hmapM
  · exact fun hm => hkeyNo ((List.dropWhile_suffix _).mem hm)
  · exact fun hm => hvalNo ((List.rdropWhile_prefix _ _).mem hm)

namespace Configurator

variable {c : Configurator} {port : Str}

theorem lookup_assign_of_lt {eps : List EndPoint} {i j : Nat} (h : j < i) :
    (c.assign eps i).replicas.lookup j = c.replicas.lookup j := by
  induction eps generalizing c i with
  | nil => rfl
  | cons ep eps ih =>
    unfold assign
    split
    · rw [ih (by omega)]
    · rw [ih (by omega), lookup_insert_ite, if_neg (by omega)]

/-- Every endpoint but the local ones is at its position. -/
theorem lookup_assign (eps : List EndPoint) (i j : Nat) :
    (c.assign eps i).replicas.lookup (i + j) =
      ((eps[j]?).filter (fun ep => !isLocal c.replicationPort ep)).or (c.replicas.lookup (i + j)) := by
  induction eps generalizing c i j with
  | nil => rfl
  | cons ep eps ih =>
    unfold assign
    cases j with
    | zero =>
      rw [List.getElem?_cons_zero, Nat.add_zero]
      split
      · rename_i hl
        rw [lookup_assign_of_lt (Nat.lt_succ_self i), Option.filter_some, hl]
        rfl
      · rename_i hl
        rw [lookup_assign_of_lt (Nat.lt_succ_self i), lookup_insert_ite, if_pos rfl, Option.filter_some,
          Bool.eq_false_of_not_eq_true hl]
        rfl
    | succ j =>
      rw [List.getElem?_cons_succ, show i + (j + 1) = i + 1 + j by omega]
      split
      · exact ih _ _
      · rw [ih, lookup_insert_ite, if_neg (by omega)]

theorem replicaId_assign_of_none {eps : List EndPoint} (i : Nat)
    (h : ∀ ep ∈ eps, isLocal c.replicationPort ep = false) : (c.assign eps i).replicaId = c.replicaId := by
  induction eps generalizing c i with
  | nil => rfl
  | cons ep eps ih =>
    obtain ⟨hep, heps⟩ := List.forall_mem_cons.1 h
    unfold assign
    rw [if_neg (by rw [hep]; exact Bool.false_ne_true)]
    exact ih (c := { c with replicas := c.replicas.insert i ep }) (i + 1) heps

/-- The last local endpoint's position is the id. -/
theorem replicaId_assign (pre : List EndPoint) {post : List EndPoint} {ep : EndPoint} (i : Nat)
    (hlocal : isLocal c.replicationPort ep = true) (hpost : ∀ ep' ∈ post, isLocal c.replicationPort ep' = false) :
    (c.assign (pre ++ ep :: post) i).replicaId = i + pre.length := by
  induction pre generalizing c i with
  | nil =>
    rw [List.nil_append, assign, if_pos hlocal]
    exact replicaId_assign_of_none (c := { c with replicaId := i }) (i + 1) hpost
  | cons ep' pre ih =>
    rw [List.cons_append, assign, List.length_cons, Nat.add_comm pre.length, ← Nat.add_assoc]
    split
    · exact ih (c := { c with replicaId := i }) (i + 1) hlocal hpost
    · exact ih (c := { c with replicas := c.replicas.insert i ep' }) (i + 1) hlocal hpost

/-- The id behind the loop is the one before it, or the position of a local endpoint. -/
theorem replicaId_assign_cases (eps : List EndPoint) (i : Nat) :
    (c.assign eps i).replicaId = c.replicaId ∨
      ∃ k ep, eps[k]? = some ep ∧ isLocal c.replicationPort ep = true ∧ (c.assign eps i).replicaId = i + k := by
  induction eps generalizing c i with
  | nil => exact .inl rfl
  | cons ep eps ih =>
    have hrest : ∀ c' : Configurator, c'.replicationPort = c.replicationPort →
        (c'.assign eps (i + 1)).replicaId = c'.replicaId ∨
          ∃ k ep', (ep :: eps)[k]? = some ep' ∧ isLocal c.replicationPort ep' = true ∧
            (c'.assign eps (i + 1)).replicaId = i + k := by
      intro c' hport
      refine (ih (c := c') (i + 1)).imp id ?_
      rintro ⟨k, ep', hk, hlocal, hid⟩
      exact ⟨k + 1, ep', hk, hport ▸ hlocal, by rw [hid]; omega⟩
    unfold assign
    split
    · rename_i hl
      refine .inr ((hrest { c with replicaId := i } rfl).elim (fun hid => ⟨0, ep, rfl, hl, hid⟩) id)
    · exact hrest { c with replicas := c.replicas.insert i ep } rfl

/-- **A process that starts has an endpoint of its own**, and its id is the position of that. -/
theorem bootStrap_ok {cfgFile : Option Str} {recovering flag : Bool} {c : Configurator}
    (h : bootStrap cfgFile recovering = .ok (c, flag)) :
    ∃ uip ep, parse (fileLines cfgFile) (.declared recovering) = .ok uip ∧ uip.endPoints[c.replicaId]? = some ep ∧
      isLocal uip.replicationPort ep = true ∧ flag = uip.recovering := by
  unfold bootStrap at h
  split at h
  · cases h
  · rename_i uip hparse
    dsimp only at h
    split at h
    · cases h
    · rename_i hne
      rw [not_or, not_or] at hne
      cases h
      obtain hid | ⟨k, ep, hk, hlocal, hid⟩ :=
        replicaId_assign_cases (c := ⟨uintMax, uip.clientPort, uip.replicationPort, ∅⟩) uip.endPoints 0
      · exact absurd hid hne.2.2
      · refine ⟨uip, ep, hparse, ?_, hlocal, rfl⟩
        show uip.endPoints[(Configurator.assign _ uip.endPoints 0).replicaId]? = some ep
        rw [hid, Nat.zero_add, hk]

end Configurator

/-- Endpoint `k` is the local one, and no other is. -/
def OnlyLocal (port : Str) (eps : List EndPoint) (k : Nat) : Prop :=
  ∀ j ep, eps[j]? = some ep → (isLocal port ep = true ↔ j = k)

/-- **The configuration round-trips.**  For every non-empty list of endpoints and every spelling of it as an
`EndPoints` line, `parseLine` appends exactly these in their order.  When the endpoint at `k` is the only local one,
`bootStrap`'s loop makes `k` the id and every other position the key of its endpoint, and that is all; these are the
peers of replica `k` of as many as there are endpoints, and the majority is theirs. -/
theorem configuration_round_trip {eps : List EndPoint} (hne : eps ≠ [])
    (hplain : ∀ ep ∈ eps, Plain ep.ip ∧ Plain ep.port) {line : Str} (hl : SpellsEndPoints line eps) :
    (∀ uip, parseLine line uip = .ok { uip with endPoints := uip.endPoints ++ eps }) ∧
      ∀ (uip : UserInput) (k : Nat), uip.endPoints = eps → k < eps.length → OnlyLocal uip.replicationPort eps k →
        (Configurator.ofInput uip).replicaId = k ∧
          (∀ j, (Configurator.ofInput uip).replicas.lookup j = if j = k then none else eps[j]?) ∧
          (∀ j, j ∈ (Configurator.ofInput uip).replicas ↔ j ∈ (Replica.init eps.length k).replicas) ∧
          (Configurator.ofInput uip).getMajorityCnt = eps.length / 2 + 1 := by
  obtain ⟨hstrip, hread⟩ := readLine_of_spells hne hplain hl
  refine ⟨fun uip => parseLine_of_readLine hread (.inr hstrip) uip, fun uip k heps hk honly => ?_⟩
  subst heps
  have hlookup : ∀ j, (Configurator.ofInput uip).replicas.lookup j = if j = k then none else uip.endPoints[j]? := by
    intro j
    have hj := Configurator.lookup_assign (c := ⟨uintMax, uip.clientPort, uip.replicationPort, ∅⟩) uip.endPoints 0 j
    rw [Nat.zero_add, Finmap.lookup_empty, Option.or_none] at hj
    refine hj.trans ?_
    cases hget : uip.endPoints[j]? with
    | none => rw [Option.filter_none, ite_self]
    | some ep =>
      by_cases hjk : j = k
      · rw [Option.filter_some, (honly j ep hget).2 hjk, if_pos hjk]
        rfl
      · rw [Option.filter_some, Bool.eq_false_of_not_eq_true (fun hl => hjk ((honly j ep hget).1 hl)), if_neg hjk]
        rfl
  have hmem : ∀ j, j ∈ (Configurator.ofInput uip).replicas ↔ j ∈ peersOf uip.endPoints.length k := by
    intro j
    rw [← Finmap.lookup_isSome, hlookup, Replica.mem_peersOf]
    by_cases hjk : j = k
    · simp [hjk]
    · simp [hjk]
  refine ⟨?_, hlookup, hmem, ?_⟩
  · have heq : uip.endPoints = uip.endPoints.take k ++ uip.endPoints[k] :: uip.endPoints.drop (k + 1) := by
      rw [← List.drop_eq_getElem_cons hk, List.take_append_drop]
    have hpost : ∀ ep ∈ uip.endPoints.drop (k + 1), isLocal uip.replicationPort ep = false := by
      intro ep hm
      obtain ⟨m, hm⟩ := List.mem_iff_getElem?.1 hm
      rw [List.getElem?_drop] at hm
      refine Bool.eq_false_of_not_eq_true (fun hl => ?_)
      have := (honly _ ep hm).1 hl
      omega
    have hid := Configurator.replicaId_assign (c := ⟨uintMax, uip.clientPort, uip.replicationPort, ∅⟩)
      (uip.endPoints.take k) 0 ((honly k _ (List.getElem?_eq_getElem hk)).2 rfl) hpost
    rw [← heq, List.length_take, Nat.min_eq_left (Nat.le_of_lt hk), Nat.zero_add] at hid
    exact hid
  · have hkeys : (Configurator.ofInput uip).replicas.keys = (peersOf uip.endPoints.length k).toFinset := by
      ext j
      rw [Finmap.mem_keys, hmem, List.mem_toFinset]
    have hnodup : (peersOf uip.endPoints.length k).Nodup := List.nodup_range.filter _
    rw [Configurator.getMajorityCnt, hkeys, List.toFinset_card_of_nodup hnodup, Replica.length_peersOf hk,
      Nat.sub_add_cancel (Nat.zero_lt_of_lt hk)]

/-- The second of two endpoints is the local one; blanks are everywhere but inside the tokens. -/
def spacedLine : Str :=
  ascii [' '] ++ endPointsKey ++ ascii [' ', '=', ' ', 'a', ' ', ':', '1', ' ', ',', ' '] ++ localhost ++
    ascii [':', ' ', '2', ' ', ' ']

theorem configuration_round_trip_two :
    parseLine spacedLine (.declared false) = .ok ⟨[], [], [⟨[97], [49]⟩, ⟨localhost, [50]⟩], false⟩ ∧
      (Configurator.ofInput ⟨[51], [50], [⟨[97], [49]⟩, ⟨localhost, [50]⟩], false⟩).replicaId = 1 ∧
      (Configurator.ofInput ⟨[51], [50], [⟨[97], [49]⟩, ⟨localhost, [50]⟩], false⟩).replicas.lookup 0 =
        some ⟨[97], [49]⟩ := by
  have hspell : SpellsEndPoints spacedLine [⟨[97], [49]⟩, ⟨localhost, [50]⟩] :=
    ⟨[space] ++ endPointsKey ++ [space], _, ⟨1, 1, rfl⟩,
      .cons ⟨_, _, ⟨1, 1, rfl⟩, ⟨0, 1, rfl⟩, rfl⟩ (.cons ⟨_, _, ⟨1, 0, rfl⟩, ⟨1, 2, rfl⟩, rfl⟩ .nil), by decide⟩
  obtain ⟨hparse, hboot⟩ := configuration_round_trip (by decide) (by unfold Plain; decide) hspell
  obtain ⟨hid, hlookup, -, -⟩ := hboot ⟨[51], [50], [⟨[97], [49]⟩, ⟨localhost, [50]⟩], false⟩ 1 rfl (by decide) (by
    intro j ep hj
    match j, hj with
    | 0, hj =>
      cases hj
      decide
    | 1, hj =>
      cases hj
      decide)
  exact ⟨hparse (.declared false), hid, hlookup 0⟩

end MetaDR
