import TemplateFrontend.Compiler.EntryPoints
/-!
# Commands and options

The program has six commands. All of them take template files and the options that describe a
project; some have options of their own. `Command.options` lists what a command takes, in the order
of its help.
-/

namespace TemplateFrontend

/-- What the program does with a project. -/
inductive Command where
  | check
  | conformance
  | headers
  | analyze
  | extract
  | plugins
  deriving DecidableEq, Repr, Inhabited

namespace Command

/-- All commands, in the order of the help. -/
def all : List Command := [.check, .conformance, .headers, .analyze, .extract, .plugins]

/-- The word for a command. -/
def name : Command → String
  | .check => "check"
  | .conformance => "conformance"
  | .headers => "headers"
  | .analyze => "analyze"
  | .extract => "extract"
  | .plugins => "plugins"

/-- What a command does. -/
def about : Command → String
  | .check => "Compile templates and report problems"
  | .conformance => "Run the conformance rules only"
  | .headers => "Write template signatures as a dependency file"
  | .analyze => "Summarize templates for tooling, tolerating errors"
  | .extract => "Extract translatable messages"
  | .plugins => "Check that user plugins have runtimes"

/-- The command of a word. -/
def ofName? (word : String) : Option Command := all.find? (·.name == word)

end Command

/-- The words for backends. -/
def Target.words : List (String × Target) :=
  [("js", .js), ("idom", .incrementalDom), ("py", .py), ("java-info", .javaInfo)]

/-- How an option is written and what it is for. -/
structure OptionForm where
  name : String
  letter : Option Char := none
  /-- What the value is called in the help; an option without a value is a flag. -/
  value : Option String := none
  /-- Whether the option may be given more than once. -/
  repeatable : Bool := false
  about : String

/-- The options of all commands. -/
inductive CommandOption where
  | dependency
  | indirectDependency
  | plugins
  | pluginRoot
  | conformance
  | logging
  | css
  | globals
  | noOptimize
  | skipPluginValidation
  | debugAttributes
  | target
  | unitFile
  | strict
  | verbatim
  | messageFile
  deriving DecidableEq, Repr, Inhabited

namespace CommandOption

/-- How an option is written. -/
def form : CommandOption → OptionForm
  | .dependency => {
      name := "dep", value := some "FILE", repeatable := true
      about := "Compilation unit of a direct dependency (JSON, see `stencil headers`)" }
  | .indirectDependency => {
      name := "indirect-dep", value := some "FILE", repeatable := true
      about := "Compilation unit of a transitive dependency" }
  | .plugins => { name := "plugins", value := some "FILE", about := "Plugin declarations (TOML)" }
  | .pluginRoot => {
      name := "plugin-root", value := some "DIR", repeatable := true
      about := "Directory holding plugin runtime files" }
  | .conformance => {
      name := "conformance", value := some "FILE", about := "Conformance rules (TOML)" }
  | .logging => {
      name := "logging", value := some "FILE", about := "Loggable element declarations (TOML)" }
  | .css => { name := "css", value := some "FILE", about := "Known CSS classes (TOML)" }
  | .globals => { name := "globals", value := some "FILE", about := "Compile-time globals (TOML)" }
  | .noOptimize => { name := "no-optimize", about := "Keep the tree unoptimized" }
  | .skipPluginValidation => {
      name := "skip-plugin-validation", about := "Do not require user plugins to be declared" }
  | .debugAttributes => {
      name := "debug-attributes"
      about := "Tag rendered elements with their template name and location" }
  | .target => {
      name := "target", value := some "TARGET"
      about := "Compile for a code generation backend instead of for rendering" ++
        " [possible values: " ++ ", ".intercalate (Target.words.map (·.1)) ++ "]" }
  | .unitFile => {
      name := "output", letter := some 'o', value := some "OUTPUT"
      about := "Write the compilation unit here instead of stdout" }
  | .strict => { name := "strict", about := "Fail on errors instead of reporting them as warnings" }
  | .verbatim => { name := "no-rewrites", about := "Keep the tree exactly as written" }
  | .messageFile => {
      name := "output", letter := some 'o', value := some "OUTPUT"
      about := "Write the messages here instead of stdout" }

/-- Whether an option takes a value. -/
def takesValue (o : CommandOption) : Bool := o.form.value.isSome

/-- Whether a text can be the value of an option. -/
def allows (o : CommandOption) (value : String) : Bool :=
  match o with
  | .target => (Target.words.lookup value).isSome
  | _ => value != ""

/-- The options that describe a project. -/
def ofProject : List CommandOption :=
  [.dependency, .indirectDependency, .plugins, .pluginRoot, .conformance, .logging, .css, .globals,
    .noOptimize, .skipPluginValidation, .debugAttributes]

end CommandOption

namespace Command

/-- The options of a command. -/
def options (c : Command) : List CommandOption :=
  CommandOption.ofProject ++
    match c with
    | .check => [.target]
    | .headers => [.unitFile]
    | .analyze => [.strict, .verbatim]
    | .extract => [.messageFile]
    | .conformance | .plugins => []

/-- The option of a command with a name. -/
def optionNamed? (c : Command) (name : String) : Option CommandOption :=
  c.options.find? (·.form.name == name)

/-- The option of a command with a letter. -/
def optionLettered? (c : Command) (letter : Char) : Option CommandOption :=
  c.options.find? (·.form.letter == some letter)

end Command

end TemplateFrontend
