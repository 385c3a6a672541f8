import EntityAudit.Command.FileTree
import EntityAudit.Main
import EntityAudit.Proofs.Builder.JoinPlacement
import EntityAudit.Proofs.Builder.Meaning
import EntityAudit.Proofs.Class.Naturality
import EntityAudit.Proofs.Class.Precedence
import EntityAudit.Proofs.Code.BuilderAdvance
import EntityAudit.Proofs.Code.BuilderFlow
import EntityAudit.Proofs.Code.FailedStatements
import EntityAudit.Proofs.Code.Merging
import EntityAudit.Proofs.Code.NormalTypes
import EntityAudit.Proofs.Code.Unreachable
import EntityAudit.Proofs.Command.Spellings
import EntityAudit.Proofs.Expansion
import EntityAudit.Proofs.FileOrder
import EntityAudit.Proofs.Mapping.CacheAccounting
import EntityAudit.Proofs.Query.Bytes
import EntityAudit.Proofs.Query.CaseInvariance
import EntityAudit.Proofs.Query.JoinConditions
import EntityAudit.Proofs.Query.JoinSides
import EntityAudit.Proofs.Query.Labels
import EntityAudit.Proofs.Query.Operands
import EntityAudit.Proofs.Query.ParameterNumbers
import EntityAudit.Proofs.Query.Script
import EntityAudit.Proofs.Query.SqlBalance
import EntityAudit.Proofs.Query.TableAliases
import EntityAudit.Proofs.Rule.FinderCriteria
import EntityAudit.Proofs.Rule.Nullability
import EntityAudit.Proofs.Rule.PropertyTypes
import EntityAudit.Proofs.Rule.Reporting
import EntityAudit.Proofs.Ty.Respelled
import EntityAudit.Proofs.Ty.Transitive
