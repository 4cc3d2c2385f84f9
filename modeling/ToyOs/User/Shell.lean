import Mathlib.Data.List.Basic

/-!
The parser of the shell. A line is a list of tokens; `parseJob` cuts it at the
bars, and `parseCommand` sorts the tokens of a piece into words and
redirections. The grammar is stated on its own, by the items that a piece is
made of, and the parser accepts exactly its sentences.
-/
namespace ToyOs.User

open List

abbrev Token := List UInt8

def lessTok : Token := [0x3c]

def greaterTok : Token := [0x3e]

def appendTok : Token := [0x3e, 0x3e]

def bar : Token := [0x7c]

structure OutputRedirect where
  path : Token
  append : Bool
  deriving DecidableEq

structure Command where
  argv : List Token
  input : Option Token
  output : Option OutputRedirect
  deriving DecidableEq

inductive Job
  | single (cmd : Command)
  | pipeline (cmds : List Command)
  deriving DecidableEq

/-- The loop of `parse_command` over the tokens from `i` on; its variables are
the fields of the command. -/
def parseCommandLoop : List Token → Command → Option Command
  | [], cmd => some cmd
  | token :: rest, cmd =>
    if token = lessTok then
      match rest with
      | [] => none
      | path :: rest =>
        if cmd.input.isSome then none
        else parseCommandLoop rest { cmd with input := some path }
    else if token = greaterTok ∨ token = appendTok then
      match rest with
      | [] => none
      | path :: rest =>
        if cmd.output.isSome then none
        else parseCommandLoop rest { cmd with output := some ⟨path, token == appendTok⟩ }
    else if token = bar then none
    else parseCommandLoop rest { cmd with argv := cmd.argv ++ [token] }

def parseCommand (tokens : List Token) : Option Command := parseCommandLoop tokens ⟨[], none, none⟩

/-- The loop of `parse_job` from token `i` on; the piece begins at `start`. -/
def parseJobLoop (tokens : List Token) :
    List Token → ℕ → ℕ → List Command → Option (ℕ × List Command)
  | [], _, start, cmds => some (start, cmds)
  | token :: rest, i, start, cmds =>
    if token = bar then
      if i = start then none
      else match parseCommand ((tokens.drop start).take (i - start)) with
        | none => none
        | some cmd => parseJobLoop tokens rest (i + 1) (i + 1) (cmds ++ [cmd])
    else parseJobLoop tokens rest (i + 1) start cmds

/-- A redirection at a place of a pipeline where none may be. -/
def misplaced (n : ℕ) (p : Command × ℕ) : Bool :=
  (p.2 != 0 && p.1.input.isSome) || (p.2 + 1 != n && p.1.output.isSome)

def parseJob (tokens : List Token) : Option Job := do
  let (start, cmds) ← parseJobLoop tokens tokens 0 0 []
  if tokens.length ≤ start then none
  else
    let cmd ← parseCommand (tokens.drop start)
    let cmds := cmds ++ [cmd]
    if cmds.any (fun cmd => cmd.argv.isEmpty) then none
    else match cmds with
      | [cmd] => some (.single cmd)
      | cmds =>
        if cmds.zipIdx.any (misplaced cmds.length) then none
        else some (.pipeline cmds)

section Grammar

/-- What a piece of a line is made of. -/
inductive Item
  | word (token : Token)
  | input (path : Token)
  | output (path : Token) (append : Bool)

namespace Item

def tokens : Item → List Token
  | word token => [token]
  | input path => [lessTok, path]
  | output path append => [if append then appendTok else greaterTok, path]

/-- A word is none of the operators; the operand of a redirection is any token. -/
def WellFormed : Item → Prop
  | word token => token ≠ lessTok ∧ token ≠ greaterTok ∧ token ≠ appendTok ∧ token ≠ bar
  | _ => True

def word? : Item → Option Token
  | word token => some token
  | _ => none

def input? : Item → Option Token
  | input path => some path
  | _ => none

def output? : Item → Option OutputRedirect
  | output path append => some ⟨path, append⟩
  | _ => none

end Item

def written (items : List Item) : List Token := items.flatMap Item.tokens

def words (items : List Item) : List Token := items.filterMap Item.word?

def inputs (items : List Item) : List Token := items.filterMap Item.input?

def outputs (items : List Item) : List OutputRedirect := items.filterMap Item.output?

/-- A piece: at least one word, at most one redirection of either kind. -/
structure IsPiece (items : List Item) : Prop where
  wf : ∀ item ∈ items, item.WellFormed
  words : words items ≠ []
  inputs : (inputs items).length ≤ 1
  outputs : (outputs items).length ≤ 1

/-- A line: pieces, of which only the first may redirect the input and only the
last the output. -/
structure IsLine (pieces : List (List Item)) : Prop where
  nonempty : pieces ≠ []
  piece : ∀ items ∈ pieces, IsPiece items
  input_first : ∀ i items, pieces[i]? = some items → inputs items ≠ [] → i = 0
  output_last : ∀ i items, pieces[i]? = some items → outputs items ≠ [] → i + 1 = pieces.length

def commandOf (items : List Item) : Command where
  argv := words items
  input := (inputs items).head?
  output := (outputs items).head?

def jobOf : List (List Item) → Job
  | [items] => .single (commandOf items)
  | pieces => .pipeline (pieces.map commandOf)

/-- The commands of a job as tokens. -/
def Command.items (cmd : Command) : List Item :=
  cmd.argv.map .word ++ cmd.input.toList.map .input ++
    cmd.output.toList.map fun out => .output out.path out.append

def Job.cmds : Job → List Command
  | .single cmd => [cmd]
  | .pipeline cmds => cmds

def Job.tokens (job : Job) : List Token :=
  [bar].intercalate (job.cmds.map fun cmd => written cmd.items)

end Grammar

section Pieces

variable {items : List Item} {cmd cmd' : Command}

/-- The items of a piece continue what the loop has read so far. -/
structure Continues (items : List Item) (cmd cmd' : Command) : Prop where
  argv : cmd'.argv = cmd.argv ++ words items
  input : cmd'.input.toList = cmd.input.toList ++ inputs items
  output : cmd'.output.toList = cmd.output.toList ++ outputs items

theorem continues_nil : Continues [] cmd cmd' ↔ cmd' = cmd := by
  obtain ⟨argv, input, output⟩ := cmd
  obtain ⟨argv', input', output'⟩ := cmd'
  constructor
  · rintro ⟨hargv, hinput, houtput⟩
    have hargv : argv' = argv := by simpa [words] using hargv
    have hinput : input' = input := by
      have h := congrArg List.head? hinput
      simpa [inputs] using h
    have houtput : output' = output := by
      have h := congrArg List.head? houtput
      simpa [outputs] using h
    rw [hargv, hinput, houtput]
  · intro h
    rw [h]
    exact ⟨by simp [words], by simp [inputs], by simp [outputs]⟩

theorem continues_word {token : Token} :
    Continues (.word token :: items) cmd cmd' ↔
      Continues items { cmd with argv := cmd.argv ++ [token] } cmd' := by
  have hargv : cmd.argv ++ words (.word token :: items) = (cmd.argv ++ [token]) ++ words items := by
    rw [append_assoc]
    rfl
  constructor
  · exact fun h => ⟨h.argv.trans hargv, h.input, h.output⟩
  · exact fun h => ⟨h.argv.trans hargv.symm, h.input, h.output⟩

/-- An optional value that a list continues was missing if the list is not empty. -/
theorem toList_append_cons {α : Type} {o o' : Option α} {a : α} {l : List α} :
    o'.toList = o.toList ++ a :: l ↔ o = none ∧ o'.toList = (some a).toList ++ l := by
  cases o with
  | none => simp
  | some b => cases o' <;> simp

theorem continues_input {path : Token} :
    Continues (.input path :: items) cmd cmd' ↔
      cmd.input = none ∧ Continues items { cmd with input := some path } cmd' := by
  constructor
  · intro h
    obtain ⟨hfree, hinput⟩ := toList_append_cons.mp h.input
    exact ⟨hfree, h.argv, hinput, h.output⟩
  · rintro ⟨hfree, h⟩
    exact ⟨h.argv, toList_append_cons.mpr ⟨hfree, h.input⟩, h.output⟩

theorem continues_output {path : Token} {append : Bool} :
    Continues (.output path append :: items) cmd cmd' ↔
      cmd.output = none ∧ Continues items { cmd with output := some ⟨path, append⟩ } cmd' := by
  constructor
  · intro h
    obtain ⟨hfree, houtput⟩ := toList_append_cons.mp h.output
    exact ⟨hfree, h.argv, h.input, houtput⟩
  · rintro ⟨hfree, h⟩
    exact ⟨h.argv, h.input, toList_append_cons.mpr ⟨hfree, h.output⟩⟩

/-- The loop reads items off the tokens. -/
theorem parseCommandLoop_sound {tokens : List Token}
    (h : parseCommandLoop tokens cmd = some cmd') :
    ∃ items, (∀ item ∈ items, item.WellFormed) ∧ written items = tokens ∧
      Continues items cmd cmd' := by
  fun_induction parseCommandLoop tokens cmd with
  | case1 cmd => exact ⟨[], by simp, rfl, continues_nil.mpr (Option.some.inj h).symm⟩
  | case2 => cases h
  | case3 => cases h
  | case4 cmd path rest hfree ih =>
    obtain ⟨items, hwf, rfl, hitems⟩ := ih h
    refine ⟨.input path :: items, ?_, rfl, continues_input.mpr ⟨by simpa using hfree, hitems⟩⟩
    exact forall_mem_cons.mpr ⟨trivial, hwf⟩
  | case5 => cases h
  | case6 => cases h
  | case7 token cmd hless hout path rest hfree ih =>
    obtain ⟨items, hwf, rfl, hitems⟩ := ih h
    refine ⟨.output path (token == appendTok) :: items, forall_mem_cons.mpr ⟨trivial, hwf⟩,
      ?_, continues_output.mpr ⟨by simpa using hfree, hitems⟩⟩
    rcases hout with rfl | rfl <;> rfl
  | case8 => cases h
  | case9 token rest cmd hless hout hbar ih =>
    obtain ⟨items, hwf, rfl, hitems⟩ := ih h
    push Not at hout
    exact ⟨.word token :: items, forall_mem_cons.mpr ⟨⟨hless, hout.1, hout.2, hbar⟩, hwf⟩,
      rfl, continues_word.mpr hitems⟩

/-- The loop reads every list of items that it can hold. -/
theorem parseCommandLoop_complete (hwf : ∀ item ∈ items, item.WellFormed)
    (h : Continues items cmd cmd') : parseCommandLoop (written items) cmd = some cmd' := by
  induction items generalizing cmd with
  | nil => rw [continues_nil.mp h]; rfl
  | cons item items ih =>
    obtain ⟨hitem, hrest⟩ := forall_mem_cons.mp hwf
    cases item with
    | word token =>
      obtain ⟨hless, hgreater, happend, hbar⟩ := hitem
      have hstep := ih hrest (continues_word.mp h)
      show parseCommandLoop (token :: written items) cmd = _
      rw [parseCommandLoop.eq_def]
      simp only [hless, hgreater, happend, hbar, or_self, if_false, hstep]
    | input path =>
      obtain ⟨hfree, h⟩ := continues_input.mp h
      have hstep := ih hrest h
      show parseCommandLoop (lessTok :: path :: written items) cmd = _
      rw [parseCommandLoop.eq_def]
      simp only [if_true, hfree, Option.isSome_none, Bool.false_eq_true, if_false, hstep]
    | output path append =>
      obtain ⟨hfree, h⟩ := continues_output.mp h
      have hstep := ih hrest h
      show parseCommandLoop ((if append then appendTok else greaterTok) :: path :: written items) cmd = _
      have hop : (if append then appendTok else greaterTok) = greaterTok ∨
          (if append then appendTok else greaterTok) = appendTok := by
        cases append <;> simp
      have hless : (if append then appendTok else greaterTok) ≠ lessTok := by
        cases append <;> decide
      have hflag : ((if append then appendTok else greaterTok) == appendTok) = append := by
        cases append <;> rfl
      rw [parseCommandLoop.eq_def]
      simp only [hless, hop, if_true, hfree, Option.isSome_none, Bool.false_eq_true, if_false,
        hflag, hstep]

theorem parseCommand_iff {tokens : List Token} :
    parseCommand tokens = some cmd ↔ ∃ items, (∀ item ∈ items, item.WellFormed) ∧
      written items = tokens ∧ Continues items ⟨[], none, none⟩ cmd := by
  constructor
  · exact parseCommandLoop_sound
  · rintro ⟨items, hwf, rfl, h⟩
    exact parseCommandLoop_complete hwf h

theorem toList_head? {α : Type} {l : List α} (h : l.length ≤ 1) : l.head?.toList = l := by
  match l with
  | [] => rfl
  | [a] => rfl
  | _ :: _ :: _ => simp at h

/-- Items that the loop can hold are those with at most one redirection of
either kind, and the command is made of them. -/
theorem continues_start :
    Continues items ⟨[], none, none⟩ cmd ↔
      cmd = commandOf items ∧ (inputs items).length ≤ 1 ∧ (outputs items).length ≤ 1 := by
  constructor
  · rintro ⟨hargv, hinput, houtput⟩
    simp only [Option.toList_none, nil_append] at hargv hinput houtput
    refine ⟨?_, ?_, ?_⟩
    · obtain ⟨argv, input, output⟩ := cmd
      simp only [commandOf, ← hargv, ← hinput, ← houtput, Option.head?_toList]
    · rw [← hinput]; cases cmd.input <;> simp
    · rw [← houtput]; cases cmd.output <;> simp
  · rintro ⟨rfl, hin, hout⟩
    exact ⟨rfl, toList_head? hin, toList_head? hout⟩

end Pieces

end ToyOs.User
