import TemplateFrontend.CommandLine.Options
/-!
# Reading the arguments

The arguments of the program are read from left to right. The first one is a command; after it
options and sources stand in any order, and after two dashes everything is a source. A question for
help is answered as soon as it is met, a mistake before it is reported instead. The help says what
the program or one of its commands does, how it is called, and what it takes, as tables whose second
columns are aligned.

* `Request.ofArguments` — what the arguments ask for;
* `Invocation.sources`, `Invocation.values`, `Invocation.has` — what a command was told;
* `Help.ofProgram`, `Help.ofCommand` — the help of the program and of a command.
-/

namespace TemplateFrontend

/-- One thing that a command is told. The value of a flag is empty. -/
inductive Item where
  | source (path : String)
  | option (o : CommandOption) (value : String)
  deriving DecidableEq, Repr

/-- A command with what it is told, in the order of the arguments. -/
structure Invocation where
  command : Command
  items : List Item
  deriving DecidableEq, Repr

namespace Invocation

/-- The paths of templates and of directories with templates. -/
def sources (i : Invocation) : List String :=
  i.items.filterMap fun
    | .source path => some path
    | .option .. => none

/-- The values of an option. -/
def values (i : Invocation) (o : CommandOption) : List String :=
  i.items.filterMap fun
    | .option p v => if p = o then some v else none
    | .source _ => none

/-- The value of an option that is given at most once. -/
def value? (i : Invocation) (o : CommandOption) : Option String := (i.values o).head?

/-- The paths of all files that are read. -/
def paths (i : Invocation) : List String :=
  i.sources ++ [.dependency, .indirectDependency, .plugins, .pluginRoot, .conformance, .logging,
    .css, .globals].flatMap i.values

/-- Whether an option is given. -/
def has (i : Invocation) (o : CommandOption) : Bool := !(i.values o).isEmpty

end Invocation

/-- What the arguments ask for. -/
inductive Request where
  | run (i : Invocation)
  /-- The help for a command, or for the program. -/
  | help (c : Option Command)
  /-- The help for the help. -/
  | helpOnHelp
  | version
  deriving DecidableEq, Repr

/-- What is wrong with the arguments. -/
inductive UsageError where
  | missingCommand
  | unknownCommand (word : String)
  | unknownOption (arg : String)
  | missingValue (o : CommandOption)
  | unexpectedValue (name : String)
  | badValue (o : CommandOption) (value : String)
  | repeated (o : CommandOption)
  | emptySource
  | missingSources
  deriving DecidableEq, Repr

namespace UsageError

/-- The error in words. -/
def message : UsageError → String
  | .missingCommand => "a command is required"
  | .unknownCommand word => "unrecognized command '" ++ word ++ "'"
  | .unknownOption arg => "unexpected argument '" ++ arg ++ "'"
  | .missingValue o => "a value is required for '--" ++ o.form.name ++ "'"
  | .unexpectedValue name => "'--" ++ name ++ "' takes no value"
  | .badValue o value => "invalid value '" ++ value ++ "' for '--" ++ o.form.name ++ "'"
  | .repeated o => "'--" ++ o.form.name ++ "' cannot be used multiple times"
  | .emptySource => "the path of a source cannot be empty"
  | .missingSources => "template files or directories are required"

end UsageError

/-! ### Single arguments -/

/-- What an argument of a command is. -/
inductive Argument where
  /-- Two dashes, after which there are no options. -/
  | endOfOptions
  | word
  | help
  | option (o : CommandOption) (attached : Option String)
  deriving DecidableEq, Repr

namespace Argument

/-- An option by its long name, which ends at the first equals sign; the value follows it. -/
def ofLong (c : Command) (text : List Char) : Except UsageError Argument :=
  let name := String.ofList (text.takeWhile (· != '='))
  let attached := match text.dropWhile (· != '=') with
    | [] => none
    | _ :: value => some (String.ofList value)
  if name = "help" then
    if attached.isSome then .error (.unexpectedValue name) else .ok .help
  else match c.optionNamed? name with
    | some o => .ok (.option o attached)
    | none => .error (.unknownOption ("--" ++ name))

/-- An option by its letter. The value may follow it, with or without an equals sign. -/
def ofLetter (c : Command) (letter : Char) (rest : List Char) : Except UsageError Argument :=
  if letter = 'h' then .ok .help
  else match c.optionLettered? letter with
    | none => .error (.unknownOption (String.ofList ['-', letter]))
    | some o => .ok (.option o (match rest with
      | [] => none
      | '=' :: value => some (String.ofList value)
      | value => some (String.ofList value)))

/-- An argument of a command. A single dash is a word. -/
def ofChars (c : Command) : List Char → Except UsageError Argument
  | ['-', '-'] => .ok .endOfOptions
  | '-' :: '-' :: text => ofLong c text
  | '-' :: letter :: rest => ofLetter c letter rest
  | _ => .ok .word

/-- Whether an argument is a word and not an option. -/
def isWord (arg : String) : Bool :=
  match arg.toList with
  | '-' :: _ :: _ => false
  | _ => true

end Argument

/-! ### All arguments -/

namespace Item

/-- The items with one more. A path is not empty, an option has a value that it allows, and most
options are given once. -/
def appendTo (items : List Item) : Item → Except UsageError (List Item)
  | .source path => if path = "" then .error .emptySource else .ok (items ++ [.source path])
  | .option o value =>
    if o.takesValue && !o.allows value then .error (.badValue o value)
    else if !o.form.repeatable && items.any (fun | .option p _ => p = o | .source _ => false) then
      .error (.repeated o)
    else .ok (items ++ [.option o value])

end Item

namespace Request

/-- The request to run a command, which has at least one source. -/
def ofItems (c : Command) (items : List Item) : Except UsageError Request :=
  let i : Invocation := ⟨c, items⟩
  if i.sources.isEmpty then .error .missingSources else .ok (.run i)

/-- The request of a command whose first arguments have been read. -/
def ofRest (c : Command) (items : List Item) : List String → Except UsageError Request
  | [] => ofItems c items
  | arg :: rest =>
    match Argument.ofChars c arg.toList with
    | .error e => .error e
    | .ok .endOfOptions => do
      ofItems c (← rest.foldlM (fun items path => Item.appendTo items (.source path)) items)
    | .ok .help => .ok (.help c)
    | .ok .word => do ofRest c (← Item.appendTo items (.source arg)) rest
    | .ok (.option o attached) =>
      if !o.takesValue then
        if attached.isSome then .error (.unexpectedValue o.form.name)
        else do ofRest c (← Item.appendTo items (.option o "")) rest
      else match attached with
        | some value => do ofRest c (← Item.appendTo items (.option o value)) rest
        | none =>
          match rest with
          | [] => .error (.missingValue o)
          | value :: rest =>
            if Argument.isWord value then do ofRest c (← Item.appendTo items (.option o value)) rest
            else .error (.missingValue o)

/-- The help for the words after `help`. -/
def ofHelp : List String → Except UsageError Request
  | [] => .ok (.help none)
  | [word] =>
    if word = "help" then .ok .helpOnHelp
    else match Command.ofName? word with
      | some c => .ok (.help c)
      | none => .error (.unknownCommand word)
  | _ :: word :: _ => .error (.unknownCommand word)

/-- What the arguments of the program ask for. -/
def ofArguments : List String → Except UsageError Request
  | [] => .error .missingCommand
  | arg :: rest =>
    match Command.ofName? arg with
    | some c => ofRest c [] rest
    | none =>
      if arg = "help" then ofHelp rest
      else if arg = "--help" || "-h".toList.isPrefixOf arg.toList then .ok (.help none)
      else if arg = "--version" || "-V".toList.isPrefixOf arg.toList then .ok .version
      else if Argument.isWord arg then .error (.unknownCommand arg)
      else .error (.unknownOption arg)

end Request

/-! ### The help of the program -/

namespace Help

/-- The name of the program. -/
def program : String := "stencil"

/-- The rows of a table, indented, with the second column aligned. -/
def table (rows : List (String × String)) : List String :=
  let width := rows.foldl (fun w (left, _) => max w left.length) 0
  rows.map fun (left, right) => "  " ++ left.pushn ' ' (width - left.length) ++ "  " ++ right

/-- A heading with a table. -/
def headed (heading : String) (rows : List (String × String)) : List String :=
  "" :: (heading ++ ":") :: table rows

/-- An option as the help shows it, with its letter if it has one. -/
def optionColumn (letter : Option Char) (name : String) (value : Option String) : String :=
  let letter := match letter with
    | some c => String.ofList ['-', c] ++ ", "
    | none => "    "
  let value := match value with
    | some v => " <" ++ v ++ ">"
    | none => ""
  letter ++ "--" ++ name ++ value

/-- The row of the help for the help itself. -/
def helpRow : String × String := (optionColumn (some 'h') "help" none, "Print help")

/-- The words that stand for the sources. -/
def sourcesColumn : String := "<SOURCES>..."

/-- The help that the command `help` offers. -/
def aboutHelp : String := "Print this message or the help of the given subcommand(s)"

/-- The first lines of a help. -/
def head (about usage : String) : List String := [about, "", "Usage: " ++ program ++ " " ++ usage]

/-- The help of the program. -/
def ofProgram : List String :=
  head "Compile and analyze Stencil templates" "<COMMAND>" ++
    headed "Commands" (Command.all.map (fun c => (c.name, c.about)) ++ [("help", aboutHelp)]) ++
    headed "Options" [helpRow, (optionColumn (some 'V') "version" none, "Print version")]

/-- The help of a command. -/
def ofCommand (c : Command) : List String :=
  head c.about (c.name ++ " [OPTIONS] " ++ sourcesColumn) ++
    headed "Arguments"
      [(sourcesColumn, "Template files, or directories searched for `.st` files")] ++
    headed "Options" (c.options.map (fun o =>
      (optionColumn o.form.letter o.form.name o.form.value, o.form.about)) ++ [helpRow])

/-- The help of the command `help`. -/
def ofHelp : List String :=
  head aboutHelp "help [COMMAND]..." ++
    headed "Arguments" [("[COMMAND]...", "Print help for the subcommand(s)")]

/-- Lines as a text, each with a line feed after it. -/
def text (lines : List String) : String := String.join (lines.map (· ++ "\n"))

/-- The text that `--version` prints. -/
def version : String := program ++ " 0.1.0\n"

end Help

end TemplateFrontend
