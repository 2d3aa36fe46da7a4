import TupleAssign.Batch
import TupleAssign.DeadImports
import TupleAssign.Desugar
import TupleAssign.Desugar.State
import TupleAssign.Desugar.Walk
import TupleAssign.Diagnostic
import TupleAssign.Diagnostic.Queue
import TupleAssign.Dotted
import TupleAssign.Expansion
import TupleAssign.Hazard
import TupleAssign.Interner
import TupleAssign.Item
import TupleAssign.Marker
import TupleAssign.NodeId
import TupleAssign.Operator
import TupleAssign.Problem
import TupleAssign.Proofs.Accounting
import TupleAssign.Proofs.Assembly
import TupleAssign.Proofs.Batches
import TupleAssign.Proofs.Building
import TupleAssign.Proofs.Cleanup
import TupleAssign.Proofs.Containment
import TupleAssign.Proofs.Elses
import TupleAssign.Proofs.Expanding
import TupleAssign.Proofs.Exposure
import TupleAssign.Proofs.ExprTexts
import TupleAssign.Proofs.ExprTokens
import TupleAssign.Proofs.Freshness
import TupleAssign.Proofs.Grouping
import TupleAssign.Proofs.Growth
import TupleAssign.Proofs.Identifiers
import TupleAssign.Proofs.Interning
import TupleAssign.Proofs.Items
import TupleAssign.Proofs.LeastFree
import TupleAssign.Proofs.LegalSplices
import TupleAssign.Proofs.Lexical
import TupleAssign.Proofs.Loading
import TupleAssign.Proofs.Meaning
import TupleAssign.Proofs.Naming
import TupleAssign.Proofs.Numbering
import TupleAssign.Proofs.Occurrences
import TupleAssign.Proofs.OwnerReferences
import TupleAssign.Proofs.Ownership
import TupleAssign.Proofs.Permanence
import TupleAssign.Proofs.Preorder
import TupleAssign.Proofs.Queueing
import TupleAssign.Proofs.Reading
import TupleAssign.Proofs.Recognition
import TupleAssign.Proofs.Refinement
import TupleAssign.Proofs.Rejection
import TupleAssign.Proofs.Relisting
import TupleAssign.Proofs.Renaming
import TupleAssign.Proofs.Replacing
import TupleAssign.Proofs.Reporting
import TupleAssign.Proofs.Resolving
import TupleAssign.Proofs.Respelling
import TupleAssign.Proofs.Rewrite
import TupleAssign.Proofs.Safety
import TupleAssign.Proofs.Semantics
import TupleAssign.Proofs.Sequencing
import TupleAssign.Proofs.Settled
import TupleAssign.Proofs.Sharing
import TupleAssign.Proofs.Simulation
import TupleAssign.Proofs.Simultaneous
import TupleAssign.Proofs.Sites
import TupleAssign.Proofs.Spelled
import TupleAssign.Proofs.Splicing
import TupleAssign.Proofs.Statements
import TupleAssign.Proofs.StmtTexts
import TupleAssign.Proofs.StmtTokens
import TupleAssign.Proofs.StmtWords
import TupleAssign.Proofs.Stored
import TupleAssign.Proofs.StoredForms
import TupleAssign.Proofs.StoredSites
import TupleAssign.Proofs.StoredUnit
import TupleAssign.Proofs.StoredWalk
import TupleAssign.Proofs.Temporaries
import TupleAssign.Proofs.Tokens
import TupleAssign.Proofs.TypeCopies
import TupleAssign.Proofs.TypeTexts
import TupleAssign.Proofs.Verbatim
import TupleAssign.Proofs.Visiting
import TupleAssign.Proofs.Walking
import TupleAssign.Proofs.WellFormed
import TupleAssign.Proofs.Writes
import TupleAssign.Scope
import TupleAssign.Span
import TupleAssign.Splice
import TupleAssign.Splice.Check
import TupleAssign.Store
import TupleAssign.Store.Build
import TupleAssign.Store.Describe
import TupleAssign.Store.Load
import TupleAssign.Store.Read
import TupleAssign.Store.Types
import TupleAssign.Store.Visit
import TupleAssign.TempNames
import TupleAssign.Tree
import TupleAssign.Tree.Print
import TupleAssign.Tree.Visit
import TupleAssign.Unpacking
