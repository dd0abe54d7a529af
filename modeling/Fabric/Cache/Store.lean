import Fabric.Dictionary
import Fabric.Digest.Basic
import Fabric.Packed.Description
import Fabric.Storage.Basic
import Fabric.Synthesis.Program

/-!
Stores of descriptions by their identities: in memory, and as files of a folder. A stored description is
the length of a header in four bytes, the header, and the packed description. The header holds a mark,
the number of the format, the version that wrote it and the digest of what follows. A file that is no
entry of this version is taken for none.
-/

namespace Fabric

open Packed

structure EntryHeader where
  mark : List UInt8
  format : UInt32
  version : String
  checksum : List UInt8
deriving DecidableEq, Repr

namespace EntryHeader

def entryMark : List UInt8 := [0x53, 0x4c, 0x43, 0x41]

def entryFormat : UInt32 := 1

def ofContent (version : String) (content : List UInt8) : EntryHeader :=
  ⟨entryMark, entryFormat, version, (Digest.ofBytes content).bytes⟩

def pack (h : EntryHeader) : List UInt8 :=
  h.mark ++ packUInt32 h.format ++ packText h.version ++ h.checksum

def unpack : Unpack EntryHeader := fun bytes => do
  let (mark, rest) ← takeBytes 4 bytes
  let (format, rest) ← unpackUInt32 rest
  let (version, rest) ← unpackText rest
  let (checksum, rest) ← takeBytes 16 rest
  return (⟨mark, format, version, checksum⟩, rest)

end EntryHeader

/-- The bytes under which a version stores a description. -/
def Description.toEntry (version : String) (d : Description) : List UInt8 :=
  let content := d.pack
  let header := (EntryHeader.ofContent version content).pack
  littleEndian 4 header.length ++ header ++ content

def Description.ofEntry? (version : String) (bytes : List UInt8) : Option Description := do
  let (size, rest) ← takeBytes 4 bytes
  let (headerBytes, content) ← takeBytes (ofLittleEndian size) rest
  let (header, _) ← EntryHeader.unpack headerBytes
  if header = EntryHeader.ofContent version content then
    let (d, _) ← Description.unpack content
    return d
  else none

inductive CacheError
  | storage (path : String)
  | serialization (reason : String)
  | invalidKey (key : String)
deriving DecidableEq, Repr

def CacheError.message : CacheError → String
  | .storage path => "cache I/O error at " ++ path
  | .serialization reason => "serialization error: " ++ reason
  | .invalidKey key => "invalid cache key '" ++ key ++ "'"

structure CacheStore (m : Type → Type) where
  load : String → m (Except CacheError (Option Description))
  save : String → Description → m (Except CacheError Unit)

namespace CacheStore

def lift {m n : Type → Type} (f : {α : Type} → m α → n α) (s : CacheStore m) : CacheStore n where
  load identity := f (s.load identity)
  save identity d := f (s.save identity d)

/-- A store in memory. The last description saved under an identity is loaded. -/
def memory : CacheStore (StateM (Dictionary Description)) where
  load identity := do return .ok ((← get).get? identity)
  save identity d := do
    modify fun entries => entries.insert identity d
    return .ok ()

def isKey (identity : String) : Bool :=
  !identity.isEmpty && identity.toList.all Char.isAlphanum

def entryName (identity : String) : String :=
  identity ++ ".shw"

/-- The name under which an entry is written before it takes its place. -/
def provisionalName (identity : String) : String :=
  identity ++ ".partial"

def entryPath (folder identity : String) : Except CacheError String :=
  if isKey identity then .ok (inFolder folder (entryName identity))
  else .error (.invalidKey identity)

variable {m : Type → Type} [Monad m]

def loadFile (s : Storage m) (folder identity : String) :
    m (Except CacheError (Option Description)) := do
  match entryPath folder identity with
  | .error e => return .error e
  | .ok path =>
    match ← s.read path with
    | .content bytes => return .ok (Description.ofEntry? version bytes)
    | .missing => return .ok none
    | .failed => return .error (.storage path)

/-- Writes an entry beside its place and moves it there. -/
def saveFile (s : Storage m) (folder identity : String) (d : Description) :
    m (Except CacheError Unit) := do
  match entryPath folder identity with
  | .error e => return .error e
  | .ok path =>
    if !(← s.makeFolder folder) then return .error (.storage folder)
    let beside := inFolder folder (provisionalName identity)
    if !(← s.write beside (d.toEntry version)) then return .error (.storage beside)
    if !(← s.rename beside path) then return .error (.storage path)
    return .ok ()

def files (s : Storage m) (folder : String) : CacheStore m where
  load := loadFile s folder
  save := saveFile s folder

end CacheStore

end Fabric
