import Fabric.CommandLine.Basic

/-!
The program: the command on the files of the machine.
-/

namespace Fabric

def succeeds (action : IO Unit) : IO Bool := do
  try
    action
    return true
  catch _ => return false

def machineStorage : Storage IO where
  read path := do
    try
      return .content (← IO.FS.readBinFile path).toList
    catch e =>
      match e with
      | .noFileOrDirectory _ _ _ => return .missing
      | _ => return .failed
  makeFolder path := succeeds (IO.FS.createDirAll path)
  write path content := succeeds (IO.FS.writeBinFile path ⟨content.toArray⟩)
  rename source target := succeeds (IO.FS.rename source target)

end Fabric

open Fabric

def main (arguments : List String) : IO UInt32 := do
  let outcome ← CommandLine.run machineStorage arguments
  IO.print outcome.output
  IO.eprint outcome.messages
  return outcome.code
