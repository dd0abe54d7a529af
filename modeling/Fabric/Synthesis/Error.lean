import Fabric.Resolution.ArrayTable
import Fabric.Timing.Report

/-!
Why a program cannot be made into hardware. Every cause but a fault of arithmetic has a code: those from
`E300` on are mended in the configuration, `E400` in the source program, and `E900` is a defect of the
synthesis itself.
-/

namespace Fabric

inductive SynthesisError
  | invalidConfig (reason : String)
  | invalidTree (reason : String)
  | unknownDevice (device : String)
  | unresolvedLength (array : String)
  | conflictingLength (array : String) (first second : UInt32)
  | timing (cause : TimingError)
  | boundExceeded (member : String) (configured required : UInt32)
  | noEntryPoints
  | unsupported (construct member : String)
  | inconsistent (reason : String)
  | cancelled
  | fault (cause : Fault)

namespace SynthesisError

def ofConfigError (e : ConfigError) : SynthesisError :=
  .invalidConfig e.message

def ofIndexError (e : IndexError) : SynthesisError :=
  .invalidTree e.message

def ofResolveError : ResolveError → SynthesisError
  | .unresolvedLength array => .unresolvedLength array
  | .conflictingLength array first second => .conflictingLength array first second
  | .index cause => ofIndexError cause
  | .fault cause => .fault cause

def ofTimingError : TimingError → SynthesisError
  | .unknownDevice device => .unknownDevice device
  | .invalidClock reason => .invalidConfig reason
  | cause => .timing cause

def code : SynthesisError → String
  | .invalidConfig _ => "E300"
  | .invalidTree _ => "E301"
  | .unknownDevice _ => "E302"
  | .unresolvedLength _ => "E303"
  | .conflictingLength _ _ _ => "E304"
  | .timing _ => "E305"
  | .boundExceeded _ _ _ => "E306"
  | .noEntryPoints => "E307"
  | .unsupported _ _ => "E400"
  | .inconsistent _ => "E900"
  | .cancelled => "E901"
  | .fault _ => ""

def message : SynthesisError → String
  | .invalidConfig reason => "invalid configuration: " ++ reason
  | .invalidTree reason => "invalid syntax tree: " ++ reason
  | .unknownDevice device => (TimingError.unknownDevice device).message
  | .unresolvedLength array => (ResolveError.unresolvedLength array).message
  | .conflictingLength array first second =>
    (ResolveError.conflictingLength array first second).message
  | .timing cause => cause.message
  | .boundExceeded member configured required =>
    "`" ++ member ++ "` needs " ++ toString required.toNat
      ++ " concurrent instances but `instance_counts` allows " ++ toString configured.toNat
  | .noEntryPoints => "no hardware entry points found"
  | .unsupported construct member =>
    "unsupported construct in `" ++ member ++ "`: " ++ construct
  | .inconsistent reason => "internal consistency error: " ++ reason
  | .cancelled => "transformation cancelled"
  | .fault cause => cause.message

end SynthesisError

/-- A result, or why there is none. -/
abbrev Synthesis := Except SynthesisError

end Fabric
