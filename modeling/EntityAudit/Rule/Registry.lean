import EntityAudit.Rule.BuilderQuery
import EntityAudit.Rule.FinderCriteria
import EntityAudit.Rule.PropertyTypes

/-! # The rules of a run -/

namespace EntityAudit

/-- The rules, in the order in which they are asked. -/
inductive Rule where
  | relation
  | column
  | finderCriteria
  | builderQuery
  deriving DecidableEq

inductive NodeKind where
  | property
  | call
  deriving DecidableEq

def Node.kind? : Node → Option NodeKind
  | .property _ => some .property
  | .call _ => some .call
  | .breakdown _ => none

namespace Rule

def all : List Rule :=
  [.relation, .column, .finderCriteria, .builderQuery]

def name : Rule → String
  | .relation => "doctrine.entityRelation"
  | .column => "doctrine.entityColumn"
  | .finderCriteria => "doctrine.repositoryMethodCall"
  | .builderQuery => "doctrine.queryBuilderDql"

def observes : Rule → NodeKind
  | .relation | .column => .property
  | .finderCriteria | .builderQuery => .call

def check (reportDynamic : Bool) : Rule → Node → Scope → Lookup (List Complaint)
  | .relation => checkRelation
  | .column => checkColumn
  | .finderCriteria => checkFinderCriteria
  | .builderQuery => checkBuilderQuery reportDynamic

def observing (node : Node) : List Rule :=
  all.filter (node.kind? == some ·.observes)

end Rule

end EntityAudit
