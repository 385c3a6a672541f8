import EntityAudit.Mapping.Catalog

/-! # Access to mappings during a run

A gateway connects to its source of mappings on first use and remembers how that went, and what it
learns about a class. A source that has to be loaded need not answer the same at every attempt, so
attempts are counted, and what a source is asked is noted.
-/

namespace EntityAudit

structure Source where
  kind : ManagerKind
  isTransient : String → Bool
  mappingOf : String → Except Failure ClassMapping

def Catalog.toSource (c : Catalog) : Source where
  kind := c.kind
  isTransient := c.isTransient
  mappingOf name := .ok (c.mappingOf name)

/-- What is known about a class once it was looked up. -/
structure Descriptor where
  /-- Name under which the class was first looked up. -/
  className : String
  mapping : ClassMapping
  deriving DecidableEq

/-- The numbers of look-ups answered from memory and not, and of classes remembered. -/
structure GatewayStats where
  hits : Nat
  misses : Nat
  size : Nat
  deriving DecidableEq

/-- Access to mappings, with all that was learnt so far. -/
structure Gateway where
  /-- What each attempt to load the source comes to, if there is one to load. -/
  loader : Option (Nat → Except Failure Source) := none
  loads : Nat := 0
  /-- How connecting to the source went, once that was tried. -/
  connection : Option (Except ConfigurationFault Source) := none
  cache : Dict Descriptor := []
  hits : Nat := 0
  misses : Nat := 0
  /-- The names that the source was consulted for. -/
  consulted : List String := []

/-- A question to a gateway: it may fail, and the gateway may have learnt something either way. -/
abbrev Lookup := EStateM Failure Gateway

namespace Gateway

def unconfigured : Gateway := {}

def ofSource (source : Source) : Gateway :=
  { connection := some (.ok source) }

/-- A gateway that loads its source on first use, where `load` tells what each attempt comes to. -/
def ofAttempts (load : Nat → Except Failure Source) : Gateway :=
  { loader := some load }

/-- A gateway that loads its source on first use, with the same outcome at every attempt. -/
def ofLoader (outcome : Except Failure Source) : Gateway :=
  ofAttempts fun _ => outcome

def isConfigured (g : Gateway) : Bool :=
  g.loader.isSome || g.connection.isSome

def stats (g : Gateway) : GatewayStats :=
  ⟨g.hits, g.misses, g.cache.length⟩

def mustLoad (g : Gateway) : Bool :=
  g.connection.isNone && g.loader.isSome

/-- How connecting goes: as remembered, or else as the next attempt to load the source goes. -/
def connect (g : Gateway) : Except ConfigurationFault Source :=
  match g.connection, g.loader with
  | some known, _ => known
  | none, some load => (load g.loads).mapError Failure.asConfiguration
  | none, none => .error .noSource

def source? : Lookup (Option Source) := do
  let g ← get
  if g.isConfigured then
    let outcome := g.connect
    set { g with connection := some outcome, loads := g.loads + g.mustLoad.toNat }
    match outcome with
    | .ok source => return some source
    | .error fault => throw (.configuration fault)
  else
    return none

def managerKind? : Lookup (Option ManagerKind) := do
  return (← source?).map (·.kind)

def resolve (source : Source) (name : String) : Except Failure ClassMapping :=
  if source.isTransient name then .ok .transient else source.mappingOf name

def consult (source : Source) (name : String) : Lookup ClassMapping := do
  modify fun g => { g with consulted := g.consulted ++ [name] }
  match resolve source name with
  | .ok mapping => return mapping
  | .error failure => throw failure

/-- What is known about the class `name`, none when the gateway is not configured. -/
def descriptor? (name : String) : Lookup (Option Descriptor) := do
  let some source ← source? | return none
  let g ← get
  let key := Text.foldCase name
  match g.cache.get? key with
  | some found =>
    set { g with hits := g.hits + 1 }
    return some found
  | none =>
    set { g with misses := g.misses + 1 }
    let found : Descriptor := ⟨name, ← consult source name⟩
    modify fun g => { g with cache := g.cache.put key found }
    return some found

def record? (name : String) : Lookup (Option EntityRecord) := do
  return (← descriptor? name).bind (·.mapping.record?)

def isMapped (name : String) : Lookup Bool := do
  return (← record? name).isSome

def requireRecord (name : String) : Lookup EntityRecord := do
  unless (← get).isConfigured do
    throw (.configuration .noSource)
  match ← record? name with
  | some record => return record
  | none => throw (.notMapped name)

end Gateway

end EntityAudit
