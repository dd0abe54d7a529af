import Fabric.Config.Basic
import Fabric.Timing.Report

/-!
The target devices: their clocks, channels and memory, and how fast their logic is.
-/

namespace Fabric

structure Device where
  name : String
  clock : Frequency
  channels : List String
  memoryBytes : UInt64
deriving BEq

/-- Latencies in picoseconds at 8, 16, 32 and 64 bits. -/
structure WidthLatencies where
  w8 : Nat
  w16 : Nat
  w32 : Nat
  w64 : Nat

def WidthLatencies.all (l : WidthLatencies) : List (UInt16 × Nat) :=
  [(8, l.w8), (16, l.w16), (32, l.w32), (64, l.w64)]

/-- How fast the logic of a device is. Operators of one kind take the same time. -/
structure LogicSpeed where
  sum : WidthLatencies
  product : WidthLatencies
  signedQuotient : WidthLatencies
  unsignedQuotient : WidthLatencies
  bitwise : WidthLatencies
  complement : WidthLatencies
  shift : WidthLatencies
  equality : WidthLatencies
  order : WidthLatencies
  index : WidthLatencies
  flag : Nat

namespace LogicSpeed

def nanoseconds (picoseconds : Nat) : Binary64 :=
  .ofDecimal picoseconds (-3)

def generic (op : Operator) (signed : Bool) (l : WidthLatencies) : List (TimingKey × Binary64) :=
  l.all.map fun (w, ps) => (⟨op, w, signed, none⟩, nanoseconds ps)

def bothSigns (op : Operator) (l : WidthLatencies) : List (TimingKey × Binary64) :=
  generic op true l ++ generic op false l

/-- The powers of two that a multiplication or division by is listed for. -/
def powers (width : UInt16) : List Int64 :=
  if width = 8 then [2, 4, 8, 16, 32, 64] else [2, 4, 8, 16, 32, 64, 128, 256]

def amounts (width : UInt16) : List Int64 :=
  if width = 8 then [1, 2, 3, 4]
  else if width = 16 then [1, 2, 3, 4, 8]
  else if width = 32 then [1, 2, 3, 4, 8, 16, 24, 31]
  else [1, 2, 3, 4, 8, 16, 24, 31, 32, 48, 63]

/-- The entries of an operator for the constants that are listed at each width. -/
def specialised (op : Operator) (signed : Bool) (constants : UInt16 → List Int64)
    (l : WidthLatencies) : List (TimingKey × Binary64) :=
  l.all.flatMap fun (w, ps) => (constants w).map fun c => (⟨op, w, signed, some c⟩, nanoseconds ps)

def instant : WidthLatencies := ⟨0, 0, 0, 0⟩

/-- A division: by a power of two it is wiring, with a correction for negative operands. -/
def quotients (s : LogicSpeed) (op : Operator) : List (TimingKey × Binary64) :=
  generic op true s.signedQuotient ++ generic op false s.unsignedQuotient
    ++ specialised op true powers s.sum ++ specialised op false powers instant

def shifts (s : LogicSpeed) (op : Operator) : List (TimingKey × Binary64) :=
  bothSigns op s.shift ++ specialised op true amounts instant
    ++ specialised op false amounts instant

def report (s : LogicSpeed) : TimingReport :=
  ⟨[Operator.add, .sub, .neg].flatMap (fun op => bothSigns op s.sum)
    ++ bothSigns .mul s.product ++ specialised .mul true powers instant
    ++ specialised .mul false powers instant
    ++ s.quotients .div ++ s.quotients .rem
    ++ [Operator.and, .or, .xor].flatMap (fun op => bothSigns op s.bitwise)
    ++ bothSigns .not s.complement
    ++ s.shifts .shl ++ s.shifts .shr
    ++ [Operator.eq, .ne].flatMap (fun op => bothSigns op s.equality)
    ++ [Operator.lt, .le, .gt, .ge].flatMap (fun op => bothSigns op s.order)
    ++ bothSigns .index s.index
    ++ [Operator.and, .or, .xor, .not, .eq, .ne].map fun op =>
        (⟨op, 1, false, none⟩, nanoseconds s.flag)⟩

end LogicSpeed

/-- A device that hardware can be generated for, at its default clock. -/
structure CatalogDevice where
  device : Device
  speed : LogicSpeed

namespace CatalogDevice

def nexys : CatalogDevice where
  device := ⟨"Nexys A7-100T", ⟨100000000⟩, ["Serial"], 134217728⟩
  speed :=
    { sum := ⟨920, 1240, 1880, 3160⟩
      product := ⟨2460, 3420, 5340, 9180⟩
      signedQuotient := ⟨7480, 12760, 23320, 44440⟩
      unsignedQuotient := ⟨6800, 11600, 21200, 40400⟩
      bitwise := ⟨316, 332, 364, 428⟩
      complement := ⟨258, 266, 282, 314⟩
      shift := ⟨1040, 1280, 1760, 2720⟩
      equality := ⟨560, 720, 1040, 1680⟩
      order := ⟨880, 1160, 1720, 2840⟩
      index := ⟨1280, 1360, 1520, 1840⟩
      flag := 300 }

def alveo : CatalogDevice where
  device := ⟨"Alveo U250", ⟨300000000⟩, ["PCIe"], 68719476736⟩
  speed :=
    { sum := ⟨506, 682, 1034, 1738⟩
      product := ⟨1353, 1881, 2937, 5049⟩
      signedQuotient := ⟨4114, 7018, 12826, 24442⟩
      unsignedQuotient := ⟨3740, 6380, 11660, 22220⟩
      bitwise := ⟨174, 183, 200, 235⟩
      complement := ⟨142, 146, 155, 173⟩
      shift := ⟨572, 704, 968, 1496⟩
      equality := ⟨308, 396, 572, 924⟩
      order := ⟨484, 638, 946, 1562⟩
      index := ⟨704, 748, 836, 1012⟩
      flag := 165 }

def zynq : CatalogDevice where
  device := ⟨"Zynq-7020", ⟨100000000⟩, ["AXI", "Serial"], 536870912⟩
  speed :=
    { sum := ⟨966, 1302, 1974, 3318⟩
      product := ⟨2583, 3591, 5607, 9639⟩
      signedQuotient := ⟨7854, 13398, 24486, 46662⟩
      unsignedQuotient := ⟨7140, 12180, 22260, 42420⟩
      bitwise := ⟨332, 349, 382, 449⟩
      complement := ⟨271, 279, 296, 330⟩
      shift := ⟨1092, 1344, 1848, 2856⟩
      equality := ⟨588, 756, 1092, 1764⟩
      order := ⟨924, 1218, 1806, 2982⟩
      index := ⟨1344, 1428, 1596, 1932⟩
      flag := 315 }

def all : List CatalogDevice := [nexys, alveo, zynq]

/-- The device with a name, in any case and between blanks. -/
def find? (name : String) : Option CatalogDevice :=
  let word := Text.lowercase (Text.trim name)
  all.find? fun d => Text.lowercase d.device.name = word

end CatalogDevice

end Fabric
