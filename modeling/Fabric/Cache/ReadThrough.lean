import Fabric.Cache.Store
import Fabric.Synthesis.Basic

/-!
A cache in front of a store. A request is answered from the store if it can be; otherwise what is
asked for is made and saved. A store that fails is treated as one that has nothing. Requests for the
same identity that come together are served by one of them, unless that one fails: then the next
tries.
-/

namespace Fabric

/-- How a request was served: from the store, or by making what was asked for. -/
inductive Served (ε : Type)
  | found (d : Description)
  | made (d : Description)
  | failed (error : ε)

namespace Served

variable {ε : Type}

def result : Served ε → Except ε Description
  | .found d => .ok d
  | .made d => .ok d
  | .failed e => .error e

def isComputed : Served ε → Bool
  | .found _ => false
  | _ => true

end Served

abbrev Flights := List String

namespace CacheStore

variable {m : Type → Type} [Monad m] {ε : Type}

def lead (store : CacheStore m) (identity : String) (compute : Unit → Except ε Description) :
    m (Served ε) := do
  match ← store.load identity with
  | .ok (some d) => return .found d
  | _ =>
    match compute () with
    | .error e => return .failed e
    | .ok d =>
      let _ ← store.save identity d
      return .made d

/-- Serves a request, which is in flight meanwhile. A request that finds another one for its identity
in flight has to wait for it, and is not answered before. -/
def request (store : CacheStore m) (identity : String) (compute : Unit → Except ε Description) :
    StateT Flights (OptionT m) (Served ε) := do
  if (← get).contains identity then failure
  else
    modify fun flights => identity :: flights
    let served ← store.lead identity compute
    modify fun flights => flights.erase identity
    return served

/-- Serves requests for one identity that come together. -/
def requestTogether (store : CacheStore m) (identity : String) :
    List (Unit → Except ε Description) → StateT Flights (OptionT m) (List (Served ε))
  | [] => return []
  | compute :: rest => do
    let served ← store.request identity compute
    match served.result with
    | .ok d => return served :: rest.map fun _ => .found d
    | .error _ => return served :: (← requestTogether store identity rest)

end CacheStore

abbrev Front (m : Type → Type) (ε : Type) :=
  String → (Unit → Except ε Description) → m (Served ε)

/-- Makes hardware, through a cache if there is one and the configuration allows it. -/
def SyntaxTree.synthesizeThrough {m : Type → Type} [Monad m]
    (cache : Option (Front m SynthesisError)) (t : SyntaxTree) (pool : Pool) (c : Config)
    (cancelled : Bool) : m (Synthesis Description) :=
  match cache with
  | none => return t.synthesize pool c cancelled
  | some front =>
    if !c.enableCaching then return t.synthesize pool c cancelled
    else
      match c.validate with
      | .error e => return .error (.ofConfigError e)
      | .ok () => do
        let identity := t.identity c
        return (← front identity fun () => t.run pool c identity cancelled).result

end Fabric
