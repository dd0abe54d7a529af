import Fabric.Storage.Basic

/-!
A disk as a value. Folders are made explicitly or stand above what is in them. A file cannot have
files below it, and a folder cannot be written or replaced. Paths are followed name by name: every
name but the last has to be that of a folder, also if the next part leads back up.
-/

namespace Fabric

inductive DiskEntry
  | file (content : List UInt8)
  | folder
deriving DecidableEq, Repr

abbrev Location := List String

/-- Entries by their locations; the first at a location counts. -/
structure Disk where
  entries : List (Location × DiskEntry)

/-- The working folder. It stands below the root under a name that no path can give. -/
def workingFolder : Location := [""]

inductive Place
  | found (location : Location)
  /-- To nothing, in a folder that is there. -/
  | vacant (location : Location)
  /-- To nothing, with the end of a path to a folder. -/
  | vacantFolder (location : Location)
  | missing
  | failed
deriving DecidableEq, Repr

namespace Disk

variable (d : Disk)

/-- What is outside the working folder: a file that is always empty. -/
def surroundings : List (Location × DiskEntry) :=
  [(["dev", "null"], .file [])]

def empty : Disk := ⟨surroundings⟩

def file? (l : Location) : Option (List UInt8) :=
  match d.entries.lookup l with
  | some (.file content) => some content
  | _ => none

/-- Whether there is a folder: the root or the working folder, one that was made, or one above an
entry. -/
def isFolder (l : Location) : Bool :=
  l = [] || l = workingFolder || (d.entries.lookup l = some .folder)
    || d.entries.any fun e => l.isPrefixOf e.1 && l.length < e.1.length

def follow (l : Location) : List String → Place
  | [] => .found l
  | part :: rest =>
    if !d.isFolder l then .failed
    else if Path.isIdle part then follow l rest
    else if part = ".." then follow l.dropLast rest
    else if Path.nameLimit < part.utf8ByteSize then .failed
    else if (d.file? (l ++ [part])).isSome || d.isFolder (l ++ [part]) then
      follow (l ++ [part]) rest
    else if rest.isEmpty then .vacant (l ++ [part])
    else if rest.all String.isEmpty then .vacantFolder (l ++ [part])
    else .missing

def find (p : Path) : Place :=
  d.follow (if p.isAbsolute then [] else workingFolder) p.parts

def put (l : Location) (e : DiskEntry) : Disk :=
  ⟨(l, e) :: d.entries.filter fun x => x.1 ≠ l⟩

def read (p : Path) : Reading :=
  match d.find p with
  | .found l =>
    match d.file? l with
    | some content => .content content
    | none => .failed
  | .failed => .failed
  | _ => .missing

def write (p : Path) (content : List UInt8) : Option Disk :=
  match d.find p with
  | .vacant l => some (d.put l (.file content))
  | .found l => if (d.file? l).isSome then some (d.put l (.file content)) else none
  | _ => none

/-- Moves a file to a path at which there is a file or nothing. -/
def rename (source target : Path) : Option Disk :=
  match d.find source with
  | .found l =>
    match d.file? l with
    | none => none
    | some content =>
      if source = target then some d
      else (⟨d.entries.filter fun x => x.1 ≠ l⟩ : Disk).write target content
  | _ => none

/-- Makes a folder in one that is there, if it is not there itself. A folder above it that is missing
gives `none`. -/
def makeOne (p : Path) : Option (Bool × Disk) :=
  match d.find p with
  | .vacant l | .vacantFolder l => some (true, d.put l .folder)
  | .found l => some (d.isFolder l, d)
  | .missing => none
  | .failed => some (false, d)

/-- Makes a folder; if a folder above it is missing, makes the one above it first and tries again.
The fuel bounds the number of those above it. -/
def makeAll : Nat → Path → Disk → Bool × Disk
  | 0, _, d => (false, d)
  | fuel + 1, p, d =>
    if p.isEmpty then (true, d)
    else
      match d.makeOne p with
      | some result => result
      | none =>
        let (isMade, d) := makeAll fuel p.parent d
        if isMade then (d.makeOne p).getD (false, d) else (false, d)

def makeFolder (p : Path) (d : Disk) : Bool × Disk :=
  makeAll (p.parts.length + 1) p d

/-- A location as a path from the working folder, if it is in it. -/
def relative? : Location → Option (List String)
  | "" :: names => some names
  | _ => none

def names (folder : String) : List String :=
  let inside := d.entries.filterMap fun e =>
    match relative? e.1 with
    | some (top :: name :: _) => if top = folder then some name else none
    | _ => none
  (inside.mergeSort fun a b => decide (a ≤ b)).eraseReps

/-- The files of the working folder with their paths and contents. -/
def files : List (String × List UInt8) :=
  d.entries.filterMap fun e =>
    match relative? e.1, e.2 with
    | some names, .file content => some (Text.joinWith "/" names, content)
    | _, _ => none

def ofFiles (files : List (String × List UInt8)) : Disk :=
  ⟨(files.map fun (path, content) => (workingFolder ++ Text.split '/' path, .file content))
    ++ surroundings⟩

def attempt (change : Disk → Option Disk) : StateM Disk Bool := fun d =>
  match change d with
  | some d' => (true, d')
  | none => (false, d)

/-- Access to a disk that is a value. A path that is too long leads nowhere. -/
def storage : Storage (StateM Disk) where
  read path := fun d => ((Path.ofText? path).elim .failed d.read, d)
  makeFolder path := fun d => (Path.ofText? path).elim (false, d) fun p => d.makeFolder p
  write path content := attempt fun d => (Path.ofText? path).bind fun p => d.write p content
  rename source target := attempt fun d => do d.rename (← Path.ofText? source) (← Path.ofText? target)

end Disk

end Fabric
