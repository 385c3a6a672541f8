import EntityAudit.Text.Fold

/-! # Methods of a query builder

The fluent calls a query builder answers with itself. Most of them shape the text of the query; the
others only carry parameters, limits and cache hints.
-/

namespace EntityAudit

/-- A method that returns the builder it is called on. -/
inductive BuilderMethod where
  | select
  | addSelect
  | distinct
  | delete
  | update
  | set
  | from
  | join
  | innerJoin
  | leftJoin
  | indexBy
  | where
  | andWhere
  | orWhere
  | groupBy
  | addGroupBy
  | having
  | andHaving
  | orHaving
  | orderBy
  | addOrderBy
  | resetPart
  | resetParts
  | addCriteria
  | setParameter
  | setParameters
  | setFirstResult
  | setMaxResults
  | setCacheable
  | setCacheRegion
  | setLifetime
  | setCacheMode
  deriving DecidableEq

namespace BuilderMethod

def name : BuilderMethod → String
  | .select => "select"
  | .addSelect => "addSelect"
  | .distinct => "distinct"
  | .delete => "delete"
  | .update => "update"
  | .set => "set"
  | .from => "from"
  | .join => "join"
  | .innerJoin => "innerJoin"
  | .leftJoin => "leftJoin"
  | .indexBy => "indexBy"
  | .where => "where"
  | .andWhere => "andWhere"
  | .orWhere => "orWhere"
  | .groupBy => "groupBy"
  | .addGroupBy => "addGroupBy"
  | .having => "having"
  | .andHaving => "andHaving"
  | .orHaving => "orHaving"
  | .orderBy => "orderBy"
  | .addOrderBy => "addOrderBy"
  | .resetPart => "resetDQLPart"
  | .resetParts => "resetDQLParts"
  | .addCriteria => "addCriteria"
  | .setParameter => "setParameter"
  | .setParameters => "setParameters"
  | .setFirstResult => "setFirstResult"
  | .setMaxResults => "setMaxResults"
  | .setCacheable => "setCacheable"
  | .setCacheRegion => "setCacheRegion"
  | .setLifetime => "setLifetime"
  | .setCacheMode => "setCacheMode"

def all : List BuilderMethod :=
  [.select, .addSelect, .distinct, .delete, .update, .set, .from, .join, .innerJoin,
    .leftJoin, .indexBy, .where, .andWhere, .orWhere, .groupBy, .addGroupBy, .having,
    .andHaving, .orHaving, .orderBy, .addOrderBy, .resetPart, .resetParts, .addCriteria,
    .setParameter, .setParameters, .setFirstResult, .setMaxResults, .setCacheable,
    .setCacheRegion, .setLifetime, .setCacheMode]

/-- The method called `name`; method names ignore ASCII case. -/
def ofName? (name : String) : Option BuilderMethod :=
  all.find? fun m => Text.sameFold m.name name

def shapesText : BuilderMethod → Bool
  | .setParameter | .setParameters | .setFirstResult | .setMaxResults | .setCacheable
  | .setCacheRegion | .setLifetime | .setCacheMode => false
  | _ => true

def arity : BuilderMethod → Nat
  | .set | .from | .join | .innerJoin | .leftJoin | .indexBy => 2
  | .where | .groupBy | .addGroupBy | .having | .andHaving | .orHaving | .orderBy | .addOrderBy
  | .resetPart | .addCriteria => 1
  | _ => 0

end BuilderMethod

/-- One recorded call of a builder, with arguments described by `α`. -/
structure BuilderCall (α : Type) where
  method : BuilderMethod
  args : List α

end EntityAudit
