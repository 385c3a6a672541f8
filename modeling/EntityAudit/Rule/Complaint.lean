import EntityAudit.Query.Compile
import EntityAudit.Ty.Describe

/-! # Complaints

What rules find wrong, and how it is worded.
-/

namespace EntityAudit

inductive Complaint where
  | databaseWider (className property : String) (storage writable : Ty)
  | propertyWider (className property : String) (storage readable : Ty)
  | unknownField (repository : Ty) (method entity field : String)
  | unknownBeginning
  | dynamicArguments
  | rejectedCall (fault : BuilderFault)
  | rejectedQuery (text : String) (rejection : Query.Rejection)

def Complaint.mismatch (className property : String) : String :=
  "Property " ++ className ++ "::$" ++ property ++ " type mapping mismatch: "

def Complaint.message : Complaint → String
  | .databaseWider className property storage writable =>
    mismatch className property ++ "database can contain " ++ storage.describe .kind ++
      " but property expects " ++ writable.describe .kind ++ "."
  | .propertyWider className property storage readable =>
    mismatch className property ++ "property can contain " ++ readable.describe .kind ++
      " but database expects " ++ storage.describe .kind ++ "."
  | .unknownField repository method entity field =>
    "Call to method " ++ repository.describe .kind ++ "::" ++ method ++ "() - entity " ++
      entity ++ " does not have a field named $" ++ field ++ "."
  | .unknownBeginning => "Could not analyse QueryBuilder with unknown beginning."
  | .dynamicArguments => "Could not analyse QueryBuilder with dynamic arguments."
  | .rejectedCall fault => "Internal error: " ++ fault.message
  | .rejectedQuery text rejection =>
    match rejection with
    | .malformed _ => "QueryBuilder: " ++ rejection.message ++ "\nDQL: " ++ text
    | .misnamed _ _ _ => "QueryBuilder: " ++ rejection.message
    | .lookup _ => "Internal error: " ++ rejection.message

end EntityAudit
