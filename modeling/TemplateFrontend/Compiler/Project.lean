import TemplateFrontend.Compiler.Failure
import TemplateFrontend.Plugin.RuntimeFile
import TemplateFrontend.Registry
import TemplateFrontend.Settings.Basic
import TemplateFrontend.Source.Text
/-!
# Projects

A `Project` is what a user wants to have compiled, and how. A `Compiler` is a project in which every
source has a path of its own.
-/

namespace TemplateFrontend

/-- How a writer breaks off. -/
structure WriteFailure where
  /-- How many characters of the text had arrived before. -/
  arrived : Nat
  reason : String
  deriving DecidableEq, Repr

/-- A writer, which belongs to whoever asks for a compilation. Nothing is known of it but how it breaks
off in a text, if it does. -/
structure Writer where
  failure? : String → Option WriteFailure

namespace Writer

/-- The writer that takes every text. -/
def reliable : Writer := ⟨fun _ => none⟩

/-- What has arrived of a text once the writer was given it, and why no more has. -/
def write (w : Writer) (text : String) : String × Option String :=
  match w.failure? text with
  | none => (text, none)
  | some e => (String.ofList (text.toList.take e.arrived), some e.reason)

end Writer

/-- Where the warnings of a successful compilation go. -/
inductive WarningSink where
  | log
  | writeTo (w : Writer)

/-- The place for warnings that are written without fail. -/
def WarningSink.writer : WarningSink := .writeTo .reliable

/-- The sources of a build with all its options. -/
structure Project where
  sources : List SourceText
  dependencies : List Dependency
  plugins : UserPlugins
  runtimeRoots : List RuntimeRoot
  conformance : Conformance
  visualElements : VisualElements
  css : Option CssClasses
  types : TypeRegistry
  globals : Globals
  /-- Whether templates may be called that nobody defines here, if anything was said about it. -/
  allowExternalCalls : Option Bool
  optimize : Bool
  /-- Whether plugins may be used that nobody declares. -/
  skipPluginValidation : Bool
  addDebugAttributes : Bool
  /-- The names of experimental features that are on. -/
  features : List String
  warnings : WarningSink

namespace Project

/-- The project with some sources and no other wishes. -/
def ofSources (sources : List SourceText) : Project where
  sources
  dependencies := []
  plugins := .empty
  runtimeRoots := []
  conformance := []
  visualElements := []
  css := none
  types := .builtin
  globals := .empty
  allowExternalCalls := none
  optimize := true
  skipPluginValidation := false
  addDebugAttributes := false
  features := []
  warnings := .log

/-- The first of the names that was there before. -/
def firstRepeated? : (seen : List String) → List String → Option String
  | _, [] => none
  | seen, x :: xs => if x ∈ seen then some x else firstRepeated? (x :: seen) xs

theorem firstRepeated?_eq_none_iff {seen xs : List String} :
    firstRepeated? seen xs = none ↔ xs.Nodup ∧ ∀ x ∈ xs, x ∉ seen := by
  induction xs generalizing seen with
  | nil => simp [firstRepeated?]
  | cons x xs ih =>
    unfold firstRepeated?
    split
    · next h =>
      simp only [reduceCtorEq, false_iff]
      rintro ⟨_, hx⟩
      exact hx x (List.mem_cons_self ..) h
    · next h =>
      -- the head is new, and from here on it counts as seen
      rw [ih, List.nodup_cons]
      simp only [List.mem_cons, not_or, forall_eq_or_imp]
      constructor
      · rintro ⟨hn, hx⟩
        exact ⟨⟨fun hm => (hx x hm).1 rfl, hn⟩, h, fun y hy => (hx y hy).2⟩
      · rintro ⟨⟨hx, hn⟩, _, hs⟩
        exact ⟨hn, fun y hy => ⟨fun he => hx (he ▸ hy), hs y hy⟩⟩

/-- The paths of the sources. -/
def paths (p : Project) : List String := p.sources.map (·.path)

end Project

/-- A project whose sources have different paths. -/
structure Compiler extends Project where
  nodup_paths : toProject.paths.Nodup

/-- The compiler for a project. -/
def Project.build (p : Project) : Except CompileFailure Compiler :=
  match h : Project.firstRepeated? [] p.paths with
  | none => .ok ⟨p, (Project.firstRepeated?_eq_none_iff.1 h).1⟩
  | some path => .error (.configuration ("duplicate source path '" ++ path ++ "'"))

end TemplateFrontend
