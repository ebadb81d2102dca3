import MetaDR.Configurator
/-!
# Shell — running a script (shell/shell.cc)

`RunScript` reads the file into a buffer of 256 characters, line by line until `eof()`, and hands the buffer to
`DispatchCommand`, which cuts it into words and goes by the first.  The stream is what is left of the file and its two
flags; `getline` is the one of the standard library, its tests in the standard's order.  A line that does not fit sets
`failbit`, and a failed stream gives empty lines without ever coming to its end: so a script is run through exactly
when there is a file, every line of it fits, and no line but the last is an `exit` (`script_runs_through`).  A command
that returns leaves the loop as it is; one that ends in an exception leaves it, and `main` reports that.
-/
namespace MetaDR

/-- `DEBUG_MAX_ARGS`. -/
def debugMaxArgs : Nat := 5

/-- `DEBUG_MAX_LINE`. -/
def debugMaxLine : Nat := 256

def nul : UInt8 := 0

/-- What a `char *` to the buffer shows. -/
def cString (buf : Str) : Str := buf.takeWhile (fun c => decide (c ≠ nul))

/-- The loop of `DispatchCommand` that cuts at `' '`, with `n` cuts left. -/
def cutArgs : Nat → Str → List Str
  | 0, arg => [arg]
  | n + 1, arg =>
    match arg.dropWhile (fun c => decide (c ≠ space)) with
    | [] => [arg]
    | _ :: rest => arg.takeWhile (fun c => decide (c ≠ space)) :: cutArgs n rest

/-- The commands. -/
inductive Cmd where
  | help
  | echo
  | exit
  | create
  | remove
  | get
  | set
  | list
  | comment
  | unknown
  | nothing
  deriving DecidableEq, Repr

def Cmd.ofName (cmd : Str) : Cmd :=
  if cmd = ascii ['h', 'e', 'l', 'p'] then .help
  else if cmd = ascii ['e', 'c', 'h', 'o'] then .echo
  else if cmd = ascii ['e', 'x', 'i', 't'] then .exit
  else if cmd = ascii ['c', 'r', 'e', 'a', 't', 'e'] then .create
  else if cmd = ascii ['r', 'e', 'm', 'o', 'v', 'e'] then .remove
  else if cmd = ascii ['g', 'e', 't'] then .get
  else if cmd = ascii ['s', 'e', 't'] then .set
  else if cmd = ascii ['l', 'i', 's', 't'] then .list
  else if cmd = ascii ['#'] then .comment
  else if cmd ≠ [] then .unknown
  else .nothing

/-- `DispatchCommand`: the command and its `argv`. -/
def dispatchCommand (buf : Str) : Cmd × List Str :=
  let argv := cutArgs (debugMaxArgs - 1) (cString buf)
  (.ofName (argv.headD []), argv)

/-- An input stream: what is left of the file, `eofbit` and `failbit`. -/
structure IStream where
  rest : Str
  eof : Bool
  fail : Bool
  deriving DecidableEq, Repr

/-- `fstream fin {file}`; `none` is a file that cannot be opened. -/
def IStream.open : Option Str → IStream
  | none => ⟨[], false, true⟩
  | some content => ⟨content, false, false⟩

/-- The loop of `istream::getline` with room for `room` more characters: those it stores, and the stream behind it. -/
def getChars (room : Nat) : Str → Str × IStream
  | [] => ([], ⟨[], true, false⟩)
  | c :: cs =>
    if c = newline then ([], ⟨cs, false, false⟩)
    else
      match room with
      | 0 => ([], ⟨c :: cs, false, true⟩)
      | room + 1 => (c :: (getChars room cs).1, (getChars room cs).2)
termination_by structural rest => rest

/-- `getline(buf, DEBUG_MAX_LINE)`: the line it leaves in the buffer.  Nothing is extracted from a stream that is not
good, nor at the end of the file, and either way `failbit` is set. -/
def getline (s : IStream) : Str × IStream :=
  if s.eof = true ∨ s.fail = true then ([], { s with fail := true })
  else if s.rest = [] then ([], ⟨[], true, true⟩)
  else getChars (debugMaxLine - 1) s.rest

/-- The loop of `RunScript`, for at most `fuel` turns: what is passed to `DispatchCommand`.  `exit` ends the process. -/
def runLoop : Nat → IStream → Option (List Str)
  | 0, _ => none
  | fuel + 1, s =>
    if s.eof = true then some []
    else
      let buf := cString (getline s).1
      if (dispatchCommand buf).1 = .exit then some [buf]
      else (runLoop fuel (getline s).2).map (buf :: ·)

def runScript (fuel : Nat) (file : Option Str) : Option (List Str) := runLoop fuel (.open file)

/-- The lines of a file: an empty piece behind the last newline is none. -/
def scriptLines (content : Str) : List Str :=
  if (content.splitOn newline).getLast? = some [] then (content.splitOn newline).dropLast
  else content.splitOn newline

/-- **The script is run through**: the loop ends, and each line was passed once, in order and in full, with the empty
piece behind a last newline or without.  Nothing in `RunScript` reports a file that cannot be opened, so of that only
the end is asked. -/
def RunsThrough : Option Str → Prop
  | none => ∃ fuel passed, runScript fuel none = some passed
  | some content =>
    ∃ fuel passed, runScript fuel (some content) = some passed ∧
      (passed = scriptLines content ∨ passed = content.splitOn newline)

/-- The line fits the buffer, and the buffer shows all of it. -/
def Fits (line : Str) : Prop := line.length < debugMaxLine ∧ nul ∉ line

/-- The line ends the process. -/
def Exits (line : Str) : Prop := (dispatchCommand line).1 = .exit

/-- `lines` is what is left of the file. -/
def Left (s : IStream) (lines : List Str) : Prop :=
  (∀ line ∈ lines, newline ∉ line) ∧
    ((lines = [] ∧ s.eof = true) ∨ (lines ≠ [] ∧ s = ⟨[newline].intercalate lines, false, false⟩))

/-- A failed stream that is not at its end never comes to it. -/
theorem runLoop_of_fail {s : IStream} (he : s.eof = false) (hf : s.fail = true) (fuel : Nat) :
    runLoop fuel s = none := by
  have hline : getline s = ([], s) := by
    unfold getline
    rw [if_pos (.inr hf)]
    cases s
    cases hf
    rfl
  induction fuel with
  | zero => rfl
  | succ fuel ih =>
    unfold runLoop
    rw [if_neg (by rw [he]; exact Bool.false_ne_true), hline, ih]
    rfl

/-- A line that fits is read whole. -/
theorem getChars_line {line : Str} (hn : newline ∉ line) (rest : Str) {room : Nat} (hr : line.length ≤ room) :
    getChars room (line ++ newline :: rest) = (line, ⟨rest, false, false⟩) := by
  induction line generalizing room with
  | nil =>
    unfold getChars
    exact if_pos rfl
  | cons c line ih =>
    rw [List.mem_cons, not_or] at hn
    obtain ⟨room, rfl⟩ := Nat.exists_eq_add_of_le' (Nat.lt_of_lt_of_le (Nat.succ_pos _) hr)
    rw [List.cons_append, getChars, if_neg (Ne.symm hn.1)]
    simp only [ih hn.2 (Nat.le_of_succ_le_succ hr)]

theorem getChars_last {line : Str} (hn : newline ∉ line) {room : Nat} (hr : line.length ≤ room) :
    getChars room line = (line, ⟨[], true, false⟩) := by
  induction line generalizing room with
  | nil => rfl
  | cons c line ih =>
    rw [List.mem_cons, not_or] at hn
    obtain ⟨room, rfl⟩ := Nat.exists_eq_add_of_le' (Nat.lt_of_lt_of_le (Nat.succ_pos _) hr)
    rw [getChars, if_neg (Ne.symm hn.1)]
    simp only [ih hn.2 (Nat.le_of_succ_le_succ hr)]

theorem length_getChars (room : Nat) (rest : Str) : (getChars room rest).1.length ≤ room := by
  induction rest generalizing room with
  | nil => exact Nat.zero_le _
  | cons c rest ih =>
    unfold getChars
    split
    · exact Nat.zero_le _
    · split
      · exact Nat.zero_le _
      · exact Nat.succ_le_succ (ih _)

theorem length_getline (s : IStream) : (getline s).1.length < debugMaxLine := by
  unfold getline
  split
  · exact Nat.zero_lt_succ _
  · split
    · exact Nat.zero_lt_succ _
    · exact Nat.lt_succ_of_le (length_getChars _ _)

theorem cString_of_notMem {line : Str} (h : nul ∉ line) : cString line = line :=
  List.takeWhile_eq_self_iff.2 (fun _ hc => decide_eq_true (fun hz => h (hz ▸ hc)))

theorem nul_notMem_cString (buf : Str) : nul ∉ cString buf := fun h => by
  have := List.mem_takeWhile_imp h
  simp at this

theorem Left.eof_eq_false {s : IStream} {line : Str} {lines : List Str} (h : Left s (line :: lines)) :
    s.eof = false := by
  obtain ⟨-, ⟨hnil, -⟩ | ⟨-, rfl⟩⟩ := h
  · cases hnil
  · rfl

/-- **One turn of the loop reads one line**: what fits is in the buffer, and the rest of the file is left. -/
theorem getline_of_left {s : IStream} {line : Str} {lines : List Str} (h : Left s (line :: lines))
    (hfit : line.length < debugMaxLine) : (getline s).1 = line ∧ Left (getline s).2 lines := by
  obtain ⟨hno, ⟨hnil, -⟩ | ⟨-, rfl⟩⟩ := h
  · cases hnil
  · obtain ⟨hline, hlines⟩ := List.forall_mem_cons.1 hno
    have hroom : line.length ≤ debugMaxLine - 1 := Nat.le_sub_one_of_lt hfit
    unfold getline
    rw [if_neg (by simp)]
    by_cases hnil : lines = []
    · subst hnil
      rw [List.intercalate_singleton]
      split
      · rename_i hempty
        exact ⟨hempty.symm, hlines, .inl ⟨rfl, rfl⟩⟩
      · rw [getChars_last hline hroom]
        exact ⟨rfl, hlines, .inl ⟨rfl, rfl⟩⟩
    · rw [Fields.intercalate_cons hnil, if_neg (by simp), getChars_line hline _ hroom]
      exact ⟨rfl, hlines, .inr ⟨hnil, rfl⟩⟩

/-- **One turn of the loop**, at a line that fits. -/
theorem runLoop_of_left {s : IStream} {line : Str} {lines : List Str} (h : Left s (line :: lines)) (hfit : Fits line) :
    ∃ s', Left s' lines ∧ (Exits line → ∀ fuel, runLoop (fuel + 1) s = some [line]) ∧
      (¬ Exits line → ∀ fuel, runLoop (fuel + 1) s = (runLoop fuel s').map (line :: ·)) := by
  obtain ⟨hbuf, hleft⟩ := getline_of_left h hfit.1
  have hturn : ∀ fuel, runLoop (fuel + 1) s =
      if (dispatchCommand line).1 = .exit then some [line]
      else (runLoop fuel (getline s).2).map (line :: ·) := by
    intro fuel
    rw [runLoop, if_neg (by rw [h.eof_eq_false]; exact Bool.false_ne_true), hbuf, cString_of_notMem hfit.2]
  exact ⟨_, hleft, fun he fuel => (hturn fuel).trans (if_pos he), fun he fuel => (hturn fuel).trans (if_neg he)⟩

/-- Lines that fit and are no `exit` are passed one after the other. -/
theorem runLoop_append {pre post : List Str} {s : IStream} (h : Left s (pre ++ post)) (hfit : ∀ line ∈ pre, Fits line)
    (hexit : ∀ line ∈ pre, ¬ Exits line) :
    ∃ s', Left s' post ∧ ∀ fuel, runLoop (fuel + pre.length) s = (runLoop fuel s').map (pre ++ ·) := by
  induction pre generalizing s with
  | nil => exact ⟨s, h, fun fuel => by simp⟩
  | cons line pre ih =>
    obtain ⟨hf, hfs⟩ := List.forall_mem_cons.1 hfit
    obtain ⟨he, hes⟩ := List.forall_mem_cons.1 hexit
    obtain ⟨s₁, hleft, -, hturn⟩ := runLoop_of_left h hf
    obtain ⟨s₂, hpost, hrun⟩ := ih hleft hfs hes
    refine ⟨s₂, hpost, fun fuel => ?_⟩
    rw [List.length_cons, ← Nat.add_assoc, hturn he, hrun, Option.map_map]
    rfl

/-- **What a run that passes lines of the file tells of them.** -/
theorem fits_of_run {lines passed : List Str} {fuel : Nat} {s : IStream} (h : Left s lines)
    (hrun : runLoop fuel s = some passed) (hpre : passed <+: lines) :
    (∀ line ∈ passed, Fits line) ∧ ∀ line ∈ passed.dropLast, ¬ Exits line := by
  induction lines generalizing fuel s passed with
  | nil =>
    rw [List.prefix_nil.1 hpre]
    exact ⟨fun _ hm => absurd hm List.not_mem_nil, fun _ hm => absurd hm List.not_mem_nil⟩
  | cons line lines ih =>
    cases fuel with
    | zero => cases hrun
    | succ fuel =>
      -- The buffer shows the line, so the line fits.
      have hfits : cString (getline s).1 = line → Fits line := by
        rintro rfl
        exact ⟨Nat.lt_of_le_of_lt (List.takeWhile_prefix _).length_le (length_getline s), nul_notMem_cString _⟩
      rw [runLoop, if_neg (by rw [h.eof_eq_false]; exact Bool.false_ne_true)] at hrun
      dsimp only at hrun
      split at hrun
      · obtain rfl := Option.some.inj hrun
        have hfit := hfits (List.cons_prefix_cons.1 hpre).1
        rw [(List.cons_prefix_cons.1 hpre).1]
        exact ⟨fun l hm => List.mem_singleton.1 hm ▸ hfit, fun _ hm => absurd hm List.not_mem_nil⟩
      · rename_i hexit
        obtain ⟨rest, hrest, rfl⟩ := Option.map_eq_some_iff.1 hrun
        obtain ⟨hbuf, hpre⟩ := List.cons_prefix_cons.1 hpre
        have hfit := hfits hbuf
        rw [hbuf] at hexit ⊢
        obtain ⟨hall, hno⟩ := ih (getline_of_left h hfit.1).2 hrest hpre
        refine ⟨List.forall_mem_cons.2 ⟨hfit, hall⟩, fun l hm => ?_⟩
        cases rest with
        | nil => exact absurd hm List.not_mem_nil
        | cons l' rest =>
          rw [List.dropLast_cons_cons] at hm
          rcases List.mem_cons.1 hm with rfl | hm
          · exact hexit
          · exact hno l hm

/-- What of a file is no line. -/
theorem splitOn_eq_scriptLines (content : Str) :
    ∃ post, content.splitOn newline = scriptLines content ++ post ∧ (post = [] ∨ post = [[]]) := by
  unfold scriptLines
  split
  · rename_i h
    exact ⟨[[]], (List.dropLast_append_getLast? [] h).symm, .inr rfl⟩
  · exact ⟨[], (List.append_nil _).symm, .inl rfl⟩

theorem left_open (content : Str) : Left (.open (some content)) (content.splitOn newline) :=
  ⟨fun line hm => (Split.splitOn_mem content line hm).1,
    .inr ⟨List.splitOn_ne_nil _ _, by rw [List.intercalate_splitOn]; rfl⟩⟩

/-- A script of lines that fit, with no `exit` but at its end, is run through. -/
theorem runsThrough_of_fits {content : Str} (hfit : ∀ line ∈ scriptLines content, Fits line)
    (hexit : ∀ line ∈ (scriptLines content).dropLast, ¬ Exits line) : RunsThrough (some content) := by
  obtain ⟨post, hsplit, hpost⟩ := splitOn_eq_scriptLines content
  have hleft := left_open content
  have hfits : ∀ line ∈ content.splitOn newline, Fits line := by
    rw [hsplit]
    intro line hm
    rcases List.mem_append.1 hm with hm | hm
    · exact hfit line hm
    · rcases hpost with rfl | rfl
      · cases hm
      · rw [List.mem_singleton.1 hm]
        exact ⟨by decide, List.not_mem_nil⟩
  by_cases hall : ∀ line ∈ (content.splitOn newline).dropLast, ¬ Exits line
  · -- No `exit` but in the last piece: the last turn passes it, whatever it is.
    have hne := List.splitOn_ne_nil newline content
    have heq := List.dropLast_append_getLast hne
    obtain ⟨s₁, hlast, hrun⟩ := runLoop_append (heq.symm ▸ hleft)
      (fun line hm => hfits line (List.mem_of_mem_dropLast hm)) hall
    obtain ⟨s₂, hnil, hstop, hgo⟩ := runLoop_of_left hlast (hfits _ (List.getLast_mem hne))
    have hend : runLoop 2 s₁ = some [(content.splitOn newline).getLast hne] := by
      by_cases he : Exits ((content.splitOn newline).getLast hne)
      · exact hstop he 1
      · obtain ⟨-, ⟨-, heof⟩ | ⟨habs, -⟩⟩ := hnil
        · rw [hgo he, runLoop, if_pos heof]
          rfl
        · exact absurd rfl habs
    exact ⟨_, _, (hrun 2).trans (by rw [hend]; exact congrArg some heq), .inr rfl⟩
  · -- The last line is an `exit` and a newline behind it: the process ends before the empty piece.
    have hpieces : content.splitOn newline = scriptLines content ++ [[]] := by
      rcases hpost with rfl | rfl
      · rw [List.append_nil] at hsplit
        rw [hsplit] at hall
        exact absurd hexit hall
      · exact hsplit
    rw [hpieces, List.dropLast_concat] at hall
    rw [hpieces] at hleft
    rcases List.eq_nil_or_concat (scriptLines content) with hnil | ⟨init, e, hlines⟩
    · rw [hnil] at hall
      exact absurd (fun _ hm => absurd hm List.not_mem_nil) hall
    · rw [List.concat_eq_append] at hlines
      rw [hlines, List.dropLast_concat] at hexit
      rw [hlines, List.append_assoc] at hleft
      rw [hlines] at hfit hall
      obtain ⟨hinit, he⟩ := List.forall_mem_append.1 hfit
      have hlast : Exits e := by
        by_contra hne
        exact hall (List.forall_mem_append.2 ⟨hexit, fun l hm => List.mem_singleton.1 hm ▸ hne⟩)
      obtain ⟨s₁, hleft₁, hrun⟩ := runLoop_append hleft hinit hexit
      obtain ⟨-, -, hstop, -⟩ := runLoop_of_left hleft₁ (he e List.mem_cons_self)
      exact ⟨_, _, (hrun 1).trans (by rw [hstop hlast 0]; rfl), .inl hlines.symm⟩

/-- In a script that is run through every line fits, and only the last may be an `exit`. -/
theorem fits_of_runsThrough {content : Str} (h : RunsThrough (some content)) :
    (∀ line ∈ scriptLines content, Fits line) ∧ ∀ line ∈ (scriptLines content).dropLast, ¬ Exits line := by
  obtain ⟨fuel, passed, hrun, hpassed⟩ := h
  obtain ⟨post, hsplit, -⟩ := splitOn_eq_scriptLines content
  have hpre : passed <+: content.splitOn newline := by
    rcases hpassed with rfl | rfl
    · exact ⟨post, hsplit.symm⟩
    · exact List.prefix_rfl
  obtain ⟨hfit, hexit⟩ := fits_of_run (left_open content) hrun hpre
  rcases hpassed with rfl | rfl
  · exact ⟨hfit, hexit⟩
  · rw [hsplit] at hfit hexit
    refine ⟨fun line hm => hfit line (List.mem_append_left _ hm), fun line hm => hexit line ?_⟩
    by_cases hnil : post = []
    · rwa [hnil, List.append_nil]
    · rw [List.dropLast_append_of_ne_nil hnil]
      exact List.mem_append_left _ (List.mem_of_mem_dropLast hm)

theorem not_runsThrough_none : ¬ RunsThrough none := by
  rintro ⟨fuel, passed, hrun⟩
  rw [runScript, runLoop_of_fail rfl rfl] at hrun
  cases hrun

/-- **Script runs end when every line fits**: there is a file, each of its lines is shorter than the buffer and has no
NUL in it, and none but the last is an `exit`.  No other script is run through. -/
theorem script_runs_through (file : Option Str) :
    RunsThrough file ↔
      ∃ content, file = some content ∧ (∀ line ∈ scriptLines content, Fits line) ∧
        ∀ line ∈ (scriptLines content).dropLast, ¬ Exits line := by
  constructor
  · intro h
    cases file with
    | none => exact absurd h not_runsThrough_none
    | some content => exact ⟨content, rfl, fits_of_runsThrough h⟩
  · rintro ⟨content, rfl, hfit, hexit⟩
    exact runsThrough_of_fits hfit hexit

/-- A file that cannot be opened; a line of as many characters as the buffer has. -/
theorem script_runs_through_fails :
    ¬ RunsThrough none ∧ ¬ RunsThrough (some (List.replicate debugMaxLine 97)) := by
  refine ⟨not_runsThrough_none, fun h => ?_⟩
  have hno : newline ∉ List.replicate debugMaxLine (97 : UInt8) := fun hm =>
    absurd (List.mem_replicate.1 hm).2 (by decide)
  have hlines : scriptLines (List.replicate debugMaxLine 97) = [List.replicate debugMaxLine 97] := by
    unfold scriptLines
    rw [List.splitOn_eq_singleton hno]
    refine if_neg (fun hnil => ?_)
    rw [List.getLast?_singleton] at hnil
    have := congrArg List.length (Option.some.inj hnil)
    rw [List.length_replicate] at this
    exact absurd this (by decide)
  obtain ⟨hfit, -⟩ := fits_of_runsThrough h
  rw [hlines] at hfit
  have := (hfit _ List.mem_cons_self).1
  rw [List.length_replicate] at this
  exact absurd this (Nat.lt_irrefl _)

end MetaDR
