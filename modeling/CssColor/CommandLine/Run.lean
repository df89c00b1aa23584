import CssColor.CommandLine.Arguments
import CssColor.Resolution

/-!
# Running the command line

A run of the command line as a function of its arguments.
-/

namespace CssColor.CommandLine

/-- What a run ends with. -/
structure Outcome where
  /-- Zero if the output was printed, one if there is none, two if the arguments were refused. -/
  code : UInt32
  /-- What is printed. -/
  output : String
  /-- What is reported about a failure. -/
  report : String
deriving DecidableEq, Repr

variable {K : Type} [Scalar K] [Elementary K]

/-- The output that settings ask for. -/
def Settings.output (settings : Settings K) : Output K :=
  match settings.space with
  | some space => .color (colorIn space settings.value settings.options)
  | none => resolve settings.value settings.options

/-- The outcome of printing an output. Where there is nothing to print, the value is reported. -/
def Outcome.ofOutput (value : String) (output : Output K) : Outcome :=
  if output.isBlank then
    ⟨1, "", Text.quoted value ++ " has no output in the requested format"⟩
  else ⟨0, output.display ++ "\n", ""⟩

/-- The outcome of a run with the given arguments. -/
def run (K : Type) [Scalar K] [Elementary K] (arguments : List String) : Outcome :=
  match (Settings.ofArguments arguments : Except ArgumentsError (Settings K)) with
  | .ok settings => .ofOutput settings.value settings.output
  | .error error => ⟨2, "", error.message⟩

end CssColor.CommandLine
