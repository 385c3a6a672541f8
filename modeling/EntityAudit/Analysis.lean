import EntityAudit.Rule.Registry

/-! # Analysis of source files

Every class of a file is visited node by node, and every rule for that kind of node is asked. A rule
that fails has no complaints; only a faulty configuration or a breakdown ends the analysis.
-/

namespace EntityAudit

structure Diagnostic where
  file : String
  line : Nat
  rule : Rule
  complaint : Complaint

def Diagnostic.text (d : Diagnostic) : String :=
  d.file ++ ":" ++ toString d.line ++ ": " ++ d.complaint.message

def Visit.diagnose (file : String) (reportDynamic : Bool) (visit : Visit) (rule : Rule) :
    Lookup (List Diagnostic) := do
  let checked := some <$> rule.check reportDynamic visit.node visit.scope
  let complaints := (← Lookup.orNothing checked).getD []
  return complaints.map ({ file, line := visit.line, rule, complaint := · })

/-- The diagnostics of all rules that look at a node. -/
def Visit.examine (file : String) (reportDynamic : Bool) (visit : Visit) :
    Lookup (List Diagnostic) := do
  if let .breakdown cause := visit.node then
    throw (.breakdown cause)
  let found ← (Rule.observing visit.node).mapM (visit.diagnose file reportDynamic)
  return found.flatten

def analyseFile (table : ClassTable) (reportDynamic : Bool) (file : SourceFile) :
    Lookup (List Diagnostic) := do
  let visits := file.classes.flatMap (·.visits table)
  return (← visits.mapM (·.examine file.path reportDynamic)).flatten

/-- The diagnostics for several files, each of which knows the classes of all. -/
def analyseFiles (table : ClassTable) (reportDynamic : Bool) (files : List SourceFile) :
    Lookup (List Diagnostic) := do
  let table := files.foldl ClassTable.registerFile table
  return (← files.mapM (analyseFile table reportDynamic)).flatten

end EntityAudit
