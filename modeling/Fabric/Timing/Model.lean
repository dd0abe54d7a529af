import Fabric.Timing.Device

/-!
The cost of operators in clock cycles of a device.
-/

namespace Fabric

/-- What an operation without latency costs: a small part of a cycle, so that many of them still
fill one. -/
def zeroLatencyCycles : Binary64 := .ofDecimal 1 (-1)

/-- A latency in nanoseconds as clock cycles; latencies that are negative or no numbers have no
cost. -/
def latencyToCycles (latency hz : Binary64) : Option Binary64 :=
  if !latency.isFinite || latency < 0 then none
  else if latency == 0 then some zeroLatencyCycles
  else some (latency * hz / 1000000000)

structure TimingModel where
  device : Device
  report : TimingReport

namespace TimingModel

/-- The model of the configured device at the configured clock. -/
def ofConfig (c : Config) : Except TimingError TimingModel := do
  match CatalogDevice.find? c.device with
  | none => .error (.unknownDevice c.device)
  | some entry =>
    match c.clockFrequency with
    | none => .ok ⟨entry.device, entry.speed.report⟩
    | some text =>
      match Frequency.parse text with
      | .ok clock => .ok ⟨{ entry.device with clock := clock }, entry.speed.report⟩
      | .error e => .error (.invalidClock e.message)

def latency (m : TimingModel) (operator : Operator) (width : UInt16) (signed : Bool)
    (constant : Option Int64) : Except TimingError Binary64 :=
  m.report.latency operator width signed constant

def cycles (m : TimingModel) (operator : Operator) (width : UInt16) (signed : Bool)
    (constant : Option Int64) : Except TimingError Binary64 := do
  let ns ← m.latency operator width signed constant
  match latencyToCycles ns m.device.clock.hz with
  | some cycles => .ok cycles
  | none => .error (.invalidLatency operator.name width ns)

end TimingModel

end Fabric
