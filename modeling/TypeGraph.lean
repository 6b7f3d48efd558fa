import TypeGraph.Constraint.Check
import TypeGraph.Constraint.Table
import TypeGraph.Custom
import TypeGraph.Generalize
import TypeGraph.Hooks
import TypeGraph.Isomorphism
import TypeGraph.Main
import TypeGraph.Problems
import TypeGraph.Registry
import TypeGraph.Render
import TypeGraph.Proofs.Reach
import TypeGraph.Proofs.Descent
import TypeGraph.Proofs.Recursion
import TypeGraph.Proofs.Occurrence
import TypeGraph.Proofs.Expansion
import TypeGraph.Proofs.Keys
import TypeGraph.Proofs.Renaming
import TypeGraph.Proofs.CopyTables
import TypeGraph.Proofs.CopyRun
import TypeGraph.Proofs.GraphCopy
import TypeGraph.Proofs.CopiedStore
import TypeGraph.Proofs.CopyIsomorphism
import TypeGraph.Proofs.Termination
import TypeGraph.Proofs.GuardedLinks
import TypeGraph.Proofs.IsomorphismClasses
import TypeGraph.Proofs.Mirror
import TypeGraph.Proofs.MirrorText
import TypeGraph.Proofs.Generalization
import TypeGraph.Proofs.Locality
import TypeGraph.Proofs.OrderChecks
import TypeGraph.Proofs.Transparency
import TypeGraph.Proofs.LocalCopies
import TypeGraph.Proofs.Independence
import TypeGraph.Proofs.Orderability
import TypeGraph.Proofs.ManifestNames
import TypeGraph.Proofs.Attachment
import TypeGraph.Proofs.Registration
import TypeGraph.Proofs.StoreHistory
import TypeGraph.Proofs.Sessions
import TypeGraph.Proofs.ErrorClasses
import TypeGraph.Proofs.CopiedText
import TypeGraph.Proofs.LogFilter
import TypeGraph.Proofs.Setup
import TypeGraph.Proofs.PrintedInstances
import TypeGraph.Proofs.FieldUpdate
import TypeGraph.Proofs.FieldCreation
import TypeGraph.Proofs.MethodChains
import TypeGraph.Proofs.VisibleMethods
import TypeGraph.Proofs.MethodFilters
import TypeGraph.Proofs.MethodFreeForm
import TypeGraph.Proofs.TypeGrammar
import TypeGraph.Proofs.TypeNormalForm
import TypeGraph.Proofs.OccursCheck
import TypeGraph.Proofs.NamingOrder
import TypeGraph.Proofs.OrderDecision
import TypeGraph.Proofs.StrippedOutlines
import TypeGraph.Proofs.CopyOrder
import TypeGraph.Proofs.FailedChecks
import TypeGraph.Proofs.LoweredLevels
import TypeGraph.Proofs.RecordText
import TypeGraph.Proofs.Validation
import TypeGraph.Proofs.VariableNames
import TypeGraph.Proofs.Phrases
import TypeGraph.Proofs.TypePhrases
import TypeGraph.Proofs.Spelling
import TypeGraph.Proofs.Unambiguity
import TypeGraph.Proofs.ConstraintTables
import TypeGraph.Proofs.ConstraintHistory
