import Fabric.Vhdl.Sequential

/-!
The connection of invocation slots with the instances of a component: a wire from one to one, or a
process that assigns a free instance to every slot that asks for one.
-/

namespace Fabric.Vhdl

def inboundPins (p : Proxy) : List PinKind :=
  .started :: p.parameters.map fun q => .parameter q.name

def outboundPins (p : Proxy) : List PinKind :=
  .finished :: if p.returnType.isSome then [.result] else []

/-- The instances that a dispatcher assigns; at least one. -/
def instanceNumbers (p : Proxy) : List Nat :=
  List.range (max p.instanceCount.toNat 1)

/-- An inactive slot takes the first instance that is not busy. -/
def acquire (p : Proxy) (index : Nat) : Sequential :=
  .choose ((instanceNumbers p).map fun k =>
    (.not (.flag .busy k),
      [Sequential.set .busy k true, Sequential.set .active index true, Sequential.assign index k]
        ++ (inboundPins p).map fun pin =>
          Sequential.drive (.unit k pin) (some (.slot index pin)))) none

/-- An active slot passes the results of its instance on, and gives it back when the caller and the
instance are done. -/
def release (p : Proxy) (index : Nat) : Sequential :=
  .choose ((instanceNumbers p).map fun k =>
    (.assigned index k,
      [.choose
        [(.high (.slot index .started),
          (outboundPins p).map fun pin => .drive (.slot index pin) (some (.unit k pin)))]
        (some
          [.drive (.slot index .finished) (some (.unit k .finished)),
            .drive (.unit k .started) none,
            .choose
              [(.not (.high (.unit k .finished)),
                [.set .busy k false, .set .active index false])] none])])) none

/-- What a dispatcher does for one of its slots in every cycle. -/
def serveSlot (p : Proxy) (index : Nat) : Sequential :=
  .choose
    [(.not (.flag .active index),
      [.drive (.slot index .finished) none,
        .choose [(.high (.slot index .started), [acquire p index])] none])]
    (some [release p index])

def resetAll (p : Proxy) : List Sequential :=
  [Sequential.clear .active, Sequential.clear .busy]
    ++ (instanceNumbers p).map (fun k => Sequential.drive (.unit k .started) none)
    ++ (List.range p.slots.length).map fun index => Sequential.drive (.slot index .finished) none

namespace Names

def directProxy (n : Names) (p : Proxy) : List Step :=
  match p.slots with
  | [] => []
  | slot :: _ =>
    (if n.isVerbose then [Step.comment (p.target ++ " direct connection")] else [])
      ++ (inboundPins p).map (fun pin =>
        connect (n.instanceSignal p.target 0 pin) (n.proxySlot p slot pin))
      ++ (outboundPins p).map fun pin =>
        connect (n.proxySlot p slot pin) (n.instanceSignal p.target 0 pin)

/-- The slots are served in their order, each under a comment that says which one it is. -/
def serveAll (n : Names) (p : Proxy) : List Sequential :=
  p.slots.zipIdx.flatMap fun (slot, index) =>
    (if n.isVerbose then
        [Sequential.note ("slot " ++ toString index ++ ": " ++ slot.caller ++ " instance "
          ++ toString slot.callerInstance.toNat ++ " slot " ++ toString slot.slot.toNat)]
      else [])
      ++ [serveSlot p index]

/-- What a dispatcher does at every rising edge of the clock. -/
def arbitrate (n : Names) (p : Proxy) : Sequential :=
  .choose [(.reset, resetAll p)] (some (n.serveAll p))

def dispatcher (n : Names) (p : Proxy) : List Step :=
  let slots := p.slots.length
  let instances := max p.instanceCount.toNat 1
  let lastSlot := toString (slots - 1)
  let lastInstance := toString (instances - 1)
  let declarations : List Step :=
    [.line ("type assignment_t is array (0 to " ++ lastSlot ++ ") of natural range 0 to "
        ++ lastInstance ++ ";"),
      .line ("type slot_flags_t is array (0 to " ++ lastSlot ++ ") of boolean;"),
      .line ("type instance_flags_t is array (0 to " ++ lastInstance ++ ") of boolean;"),
      .line "variable assigned : assignment_t := (others => 0);",
      .line "variable active : slot_flags_t := (others => false);",
      .line "variable busy : instance_flags_t := (others => false);"]
  (if n.isVerbose then
      [Step.comment (p.target ++ " dispatcher: " ++ toString slots ++ " slots over "
        ++ toString instances ++ " instances")]
    else [])
    ++ [Step.line (n.proxyLabel p.target ++ ": process (Clock)")]
    ++ indented declarations
    ++ [Step.line "begin"]
    ++ indented
      ([Step.line "if rising_edge(Clock) then"] ++ indented (n.sequential p (n.arbitrate p))
        ++ [Step.line "end if;"])
    ++ [Step.line "end process;"]

def proxy (n : Names) (p : Proxy) : List Step :=
  match p.kind with
  | .direct => n.directProxy p
  | .dispatcher => n.dispatcher p

end Names

end Fabric.Vhdl
