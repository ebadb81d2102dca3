import MetaDR.Lib.Fields
import MetaDR.Replica
/-!
# Configurator — reading the configuration (server/configurator.cc)

`parse` goes over the lines of the file and collects a `UserInput`; `bootStrap` gives each endpoint its position as id,
takes the local one for itself and the others as peers.  A thrown `invalid_argument` carries the trimmed line.  `trim`
leaves a string of blanks as it is, and `split` keeps a delimiter that stands where a field starts; both are `fields`
and `strip` but for that (`split_eq`, `trim_eq_strip`).
-/
namespace MetaDR

open Fields (strip fields)

def ascii (cs : List Char) : Str := cs.map (fun c => UInt8.ofNat c.toNat)

def space : UInt8 := 32
def hash : UInt8 := 35
def comma : UInt8 := 44
def colon : UInt8 := 58
def equals : UInt8 := 61
def newline : UInt8 := 10

def clientPortKey : Str := ascii ['C', 'l', 'i', 'e', 'n', 't', 'P', 'o', 'r', 't']
def replicationPortKey : Str :=
  ascii ['R', 'e', 'p', 'l', 'i', 'c', 'a', 't', 'i', 'o', 'n', 'P', 'o', 'r', 't']
def endPointsKey : Str := ascii ['E', 'n', 'd', 'P', 'o', 'i', 'n', 't', 's']
def recoveringKey : Str := ascii ['R', 'e', 'c', 'o', 'v', 'e', 'r', 'i', 'n', 'g']
def trueVal : Str := ascii ['t', 'r', 'u', 'e']
def localhost : Str := ascii ['l', 'o', 'c', 'a', 'l', 'h', 'o', 's', 't']
def loopback : Str := ascii ['1', '2', '7', '.', '0', '.', '0', '.', '1']

structure EndPoint where
  ip : Str
  port : Str
  deriving DecidableEq, Repr

structure UserInput where
  clientPort : Str
  replicationPort : Str
  endPoints : List EndPoint
  recovering : Bool
  deriving DecidableEq, Repr

/-- A `UserInput` as declared; `recovering` is what the field holds uninitialised. -/
def UserInput.declared (recovering : Bool) : UserInput := ⟨[], [], [], recovering⟩

def isSpace (c : UInt8) : Bool := decide (c = space)

/-- Each `erase` is skipped when its `find` finds nothing but blanks. -/
def trim (line : Str) : Str :=
  let line := if line.all isSpace = true then line else line.dropWhile isSpace
  if line.all isSpace = true then line else line.rdropWhile isSpace

/-- The loop of `split` on what is left of the line, `cur` being `line.substr(pos, i - pos)`. -/
def splitLoop (delim : UInt8) (cur : Str) : Str → List Str
  | [] => [trim cur]
  | c :: cs =>
    if c = delim ∧ cur ≠ [] then trim cur :: splitLoop delim [] cs else splitLoop delim (cur ++ [c]) cs

def split (line : Str) (delim : UInt8) : List Str := splitLoop delim [] line

/-- The loop of `parseLine` over `endPts`. -/
def parseEndPts (line : Str) : List Str → List EndPoint → Except Str (List EndPoint)
  | [], endPoints => .ok endPoints
  | endPt :: endPts, endPoints =>
    match split endPt colon with
    | [ip, port] => parseEndPts line endPts (endPoints ++ [⟨ip, port⟩])
    | _ => .error line

/-- The branches of `parseLine` on the key. -/
def parseKeyVal (line key val : Str) (uip : UserInput) : Except Str UserInput :=
  if key = clientPortKey then .ok { uip with clientPort := val }
  else if key = replicationPortKey then .ok { uip with replicationPort := val }
  else if key = endPointsKey then
    match parseEndPts line (split val comma) uip.endPoints with
    | .ok endPoints => .ok { uip with endPoints := endPoints }
    | .error what => .error what
  else if key = recoveringKey then
    if val = trueVal then .ok { uip with recovering := true } else .ok uip
  else .error line

def parseLine (line : Str) (uip : UserInput) : Except Str UserInput :=
  let line := trim line
  if line = [] then .ok uip
  else if line.head? = some hash then .ok uip
  else
    match split line equals with
    | [key, val] => parseKeyVal line key val uip
    | _ => .error line

/-- The loop of `parse`; `validate` does nothing. -/
def parse : List Str → UserInput → Except Str UserInput
  | [], uip => .ok uip
  | line :: lines, uip =>
    match parseLine line uip with
    | .ok uip => parse lines uip
    | .error what => .error what

/-- The lines `getline` gives as long as the stream is good; a file that cannot be opened has none. -/
def fileLines : Option Str → List Str
  | none => []
  | some content => content.splitOn newline

structure Configurator where
  replicaId : Nat
  clientPort : Str
  replicationPort : Str
  replicas : Finmap (fun _ : Nat => EndPoint)

/-- `UINT_MAX`. -/
def uintMax : Nat := 2 ^ 32 - 1

/-- How `bootStrap` can end early. -/
inductive BootFault where
  | invalidArgument (what : Str)
  | assertFailed
  deriving DecidableEq, Repr

/-- The test of `bootStrap` for the replica's own endpoint. -/
def isLocal (replicationPort : Str) (ep : EndPoint) : Bool :=
  (decide (ep.ip = localhost) || decide (ep.ip = loopback)) && decide (ep.port = replicationPort)

namespace Configurator

/-- The loop of `bootStrap` over the endpoints from index `i` on. -/
def assign (c : Configurator) : List EndPoint → Nat → Configurator
  | [], _ => c
  | ep :: eps, i =>
    if isLocal c.replicationPort ep = true then assign { c with replicaId := i } eps (i + 1)
    else assign { c with replicas := c.replicas.insert i ep } eps (i + 1)

/-- A new `Configurator` behind the loop. -/
def ofInput (uip : UserInput) : Configurator :=
  assign ⟨uintMax, uip.clientPort, uip.replicationPort, ∅⟩ uip.endPoints 0

/-- `bootStrap` and the flag it starts the replicator with. -/
def bootStrap (cfgFile : Option Str) (recovering : Bool) : Except BootFault (Configurator × Bool) :=
  match parse (fileLines cfgFile) (.declared recovering) with
  | .error what => .error (.invalidArgument what)
  | .ok uip =>
    let c := ofInput uip
    if c.clientPort = [] ∨ c.replicationPort = [] ∨ c.replicaId = uintMax then .error .assertFailed
    else .ok (c, uip.recovering)

def getMajorityCnt (c : Configurator) : Nat := (c.replicas.keys.card + 1) / 2 + 1

end Configurator

theorem splitLoop_eq (delim : UInt8) : ∀ (line cur : Str),
    splitLoop delim cur line = (Fields.cut delim cur line).map trim
  | [], cur => rfl
  | c :: cs, cur => by
    unfold splitLoop Fields.cut
    split
    · rw [List.map_cons, splitLoop_eq delim cs []]
    · exact splitLoop_eq delim cs (cur ++ [c])

/-- **`split` gives the fields**, trimmed. -/
theorem split_eq (line : Str) (delim : UInt8) : split line delim = (fields delim line).map trim :=
  splitLoop_eq delim line []

theorem all_isSpace {line : Str} : line.all isSpace = true ↔ ∀ c ∈ line, c = space := by
  simp [isSpace]

/-- **`trim` strips** what is not all blanks. -/
theorem trim_eq_strip {line : Str} (h : line = [] ∨ ∃ c ∈ line, c ≠ space) : trim line = strip space line := by
  rcases h with rfl | ⟨c, hc, hne⟩
  · rfl
  · obtain ⟨a, b, rfl⟩ := List.append_of_mem hc
    have hnot : ∀ a' : Str, ¬(a' ++ c :: b).all isSpace = true := fun a' h => hne (all_isSpace.1 h c (by simp))
    have hdrop : (a ++ c :: b).dropWhile isSpace = a.dropWhile isSpace ++ c :: b := Fields.dropWhile_append_cons hne a b
    unfold trim
    dsimp only
    rw [if_neg (hnot a), hdrop, if_neg (hnot _), ← hdrop]
    rfl

theorem trim_of_blank {line : Str} (h : ∀ c ∈ line, c = space) : trim line = line := by
  unfold trim
  dsimp only
  rw [if_pos (all_isSpace.2 h), if_pos (all_isSpace.2 h)]

/-- **A trimmed string that falls into two**: it has the delimiter behind its first symbol, and the two parts have it at
most as theirs. -/
theorem split_trim_eq_pair {delim : UInt8} (hd : delim ≠ space) {line x y : Str} :
    split (trim line) delim = [x, y] ↔
      ∃ a b, strip space line = a ++ delim :: b ∧ a ≠ [] ∧ delim ∉ a.tail ∧ delim ∉ b.tail ∧
        x = strip space a ∧ y = strip space b := by
  rcases Fields.blank_or_exists space line with h | ⟨a, c, b, rfl, hc⟩
  · have hno : delim ∉ line := fun hm => hd (h _ hm)
    rw [trim_of_blank h, split_eq, Fields.fields_of_notMem (fun hm => hno (List.mem_of_mem_tail hm)),
      Fields.strip_eq_nil.2 h]
    simp
  · rw [trim_eq_strip (.inr ⟨c, by simp, hc⟩), split_eq]
    generalize hs : strip space (a ++ c :: b) = s
    have hparts : ∀ a b : Str, s = a ++ delim :: b → a ≠ [] →
        trim a = strip space a ∧ trim b = strip space b := by
      rintro a b rfl hne
      refine ⟨trim_eq_strip (.inr ?_), trim_eq_strip ?_⟩
      · obtain ⟨x, t, rfl⟩ := List.exists_cons_of_ne_nil hne
        exact ⟨x, List.mem_cons_self, Fields.head_strip hs⟩
      · refine (List.eq_nil_or_concat b).imp id ?_
        rintro ⟨t, x, rfl⟩
        exact ⟨x, by simp, Fields.last_strip (t := a ++ delim :: t) (by rw [hs]; simp)⟩
    constructor
    · intro h
      obtain ⟨a, l, hf, rfl, hl⟩ := List.map_eq_cons_iff.1 h
      obtain ⟨b, rfl, rfl⟩ := List.map_eq_singleton_iff.1 hl
      obtain ⟨heq, hne, ha, hb⟩ := Fields.fields_eq_pair.1 hf
      obtain ⟨hta, htb⟩ := hparts a b heq hne
      exact ⟨a, b, heq, hne, ha, hb, hta, htb⟩
    · rintro ⟨a, b, heq, hne, ha, hb, rfl, rfl⟩
      obtain ⟨hta, htb⟩ := hparts a b heq hne
      rw [Fields.fields_eq_pair.2 ⟨heq, hne, ha, hb⟩, List.map_cons, List.map_singleton, hta, htb]

end MetaDR
