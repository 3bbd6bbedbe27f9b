import TemplateFrontend.CommandLine.Request
import TemplateFrontend.CommandLine.Inputs
/-!
# Running a command

An `Answer` is all that a run of the program leaves behind: what it prints, the file that it writes
and its exit code. `CommandLine.answer` computes it from the files and the arguments,
`CommandLine.run` also writes the file. Exit codes are 0 for success, 1 for a failure and 2 for
arguments that make no sense.
-/

namespace TemplateFrontend

/-- What a run of the program leaves behind. -/
structure Answer where
  exitCode : Nat
  stdout : String
  stderr : String
  /-- The path of the file to write with its text. -/
  output : Option (String × String)
  deriving DecidableEq, Repr

namespace Answer

/-- A run that prints a text. -/
def printing (text : String) : Answer := ⟨0, text, "", none⟩

/-- A run that writes a text to a file, or prints it. -/
def saving (path : Option String) (text : String) : Answer :=
  match path with
  | some path => ⟨0, "", "", some (path, text)⟩
  | none => printing text

/-- A run that fails. -/
def failing (message : String) : Answer := ⟨1, "", "Error: " ++ message ++ "\n", none⟩

/-- A run that is called in a wrong way. -/
def misused (e : UsageError) : Answer := ⟨2, "", "error: " ++ e.message ++ "\n", none⟩

/-- A run that cannot write its file. -/
def unwritable (path : String) : Answer := failing ("failed to write '" ++ path ++ "'")

end Answer

/-! ### Reports -/

namespace Report

/-- A number of things, which have an ending of their own unless there is one. -/
def count (n : Nat) (word : String) : String :=
  toString n ++ " " ++ word ++ if n = 1 then "" else "s"

/-- The number of dependencies, in brackets if there are any. -/
def dependencies : Nat → String
  | 0 => ""
  | 1 => " (1 dependency)"
  | n => " (" ++ toString n ++ " dependencies)"

/-- The templates of a registry that the sources define. -/
def ownTemplates (r : Registry) : List Interface :=
  r.interfaces.filter (!·.origin.isDependency)

/-- A compilation. -/
def check (c : Compiler) (r : Compiled) : Answer :=
  .printing ("✓ " ++ count (ownTemplates r.registry).length "template" ++ " in " ++
    count r.files.length "file" ++ dependencies c.dependencies.length ++ "\n")

/-- A check of the usage rules. -/
def conformance (a : Assembly) : Answer :=
  .printing ("✓ " ++ count a.files.length "file" ++ " conform\n")

/-- The interfaces of the templates. -/
def headers (path : Option String) (h : Headers) : Answer :=
  .saving path (CompilationUnit.render h.registry.unit ++ "\n")

/-- One template in the list of an analysis. -/
def templateLine (t : Interface) : String :=
  "  - " ++ t.role.kind.command ++ " " ++ t.key ++ " (" ++
    count t.parameters.length "param" ++ ") at " ++ t.location.text

/-- An analysis. -/
def analysis (a : Analysis) : Answer :=
  let problems := a.warnings.length
  let summary := if problems = 0 then [] else ["", count problems "problem" ++ " reported"]
  match a.registry with
  | some r => .printing (Help.text ("Templates:" :: (ownTemplates r).map templateLine ++ summary))
  | none =>
    { Answer.printing (Help.text summary) with
      stderr := "warning: some sources failed to parse; no templates to list\n" }

/-- The messages of the templates. -/
def messages (path : Option String) (b : MessageBundle) : Answer :=
  let answer := Answer.saving path (b.toJson.render ++ "\n")
  match path with
  | some path => { answer with
      stderr := toString b.size ++ " message(s) written to " ++ path ++ "\n" }
  | none => answer

/-- A check of the plugins. -/
def plugins : Answer := .printing "✓ every user plugin has a runtime\n"

end Report

/-- The answer that an outcome leads to. The warnings are printed first. -/
def Outcome.answer {α : Type} (o : Outcome α) (report : α → Answer) : Answer :=
  match o.result with
  | .ok a => let answer := report a; { answer with stderr := o.written ++ answer.stderr }
  | .error e => .failing e.message

/-- What a compiler answers to a command. -/
def Invocation.answer (i : Invocation) (c : Compiler) : Answer :=
  match i.command with
  | .check =>
    match i.value? .target >>= (List.lookup · Target.words) with
    | some target => (c.compileFor target none).answer (Report.check c)
    | none => (c.compileTemplates none).answer (Report.check c)
  | .conformance => (c.checkConformance none).answer Report.conformance
  | .headers => (c.compileHeaders none).answer (Report.headers (i.value? .unitFile))
  | .analyze => (c.analyze (!i.has .strict) (!i.has .verbatim) none).answer Report.analysis
  | .extract => (c.extractMessages none).answer (Report.messages (i.value? .messageFile))
  | .plugins => (c.checkPlugins none).answer fun _ => Report.plugins

namespace CommandLine

/-- The answer to a command about the files of a tree. -/
def answerTo (t : FileTree) (i : Invocation) : Answer :=
  match i.project t with
  | .error e => .failing e.message
  | .ok p =>
    match p.build with
    | .error e => .failing e.message
    | .ok c => i.answer c

/-- The answer to the arguments of the program. -/
def answer (t : FileTree) (args : List String) : Answer :=
  match Request.ofArguments args with
  | .error e => .misused e
  | .ok (.help none) => .printing (Help.text Help.ofProgram)
  | .ok (.help (some c)) => .printing (Help.text (Help.ofCommand c))
  | .ok .helpOnHelp => .printing (Help.text Help.ofHelp)
  | .ok .version => .printing Help.version
  | .ok (.run i) => answerTo t i

/-- A run of the program, which changes the tree by the file that it writes. -/
def run (t : FileTree) (args : List String) : Answer × FileTree :=
  let a := answer t args
  match a.output with
  | none => (a, t)
  | some (path, text) =>
    match t.writePath? path text with
    | some t => (a, t)
    | none => (.unwritable path, t)

end CommandLine

end TemplateFrontend
