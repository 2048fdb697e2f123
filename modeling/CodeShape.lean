import CodeShape.Main
import CodeShape.Session
import CodeShape.Constraint.Test
import CodeShape.Proofs.Search
import CodeShape.Proofs.Tree
import CodeShape.Proofs.Depth
import CodeShape.Proofs.Enumeration
import CodeShape.Proofs.Backtracking
import CodeShape.Proofs.Derivation
import CodeShape.Proofs.Names
import CodeShape.Proofs.Restoration
import CodeShape.Proofs.Recognition
import CodeShape.Proofs.Completeness
import CodeShape.Proofs.Leniency
import CodeShape.Proofs.Records
import CodeShape.Proofs.Refilling
import CodeShape.Proofs.Order
import CodeShape.Proofs.Clutter
import CodeShape.Proofs.Tolerance
import CodeShape.Proofs.Commitment
import CodeShape.Proofs.Subsumption
import CodeShape.Proofs.Symmetry
import CodeShape.Proofs.Declaration
import CodeShape.Proofs.Equality
import CodeShape.Proofs.Counting
import CodeShape.Proofs.Lockstep
import CodeShape.Proofs.Spelling
import CodeShape.Proofs.Diagnostics
import CodeShape.Proofs.Reprinting
import CodeShape.Proofs.Kinds
import CodeShape.Proofs.Rereading
import CodeShape.Proofs.Lossless
import CodeShape.Proofs.Wrapping
import CodeShape.Proofs.Chains
import CodeShape.Proofs.Segments
import CodeShape.Proofs.Precedence
import CodeShape.Proofs.Confinement
import CodeShape.Proofs.Quotation
import CodeShape.Proofs.Admission
import CodeShape.Proofs.Abbreviation
import CodeShape.Proofs.Constants
import CodeShape.Proofs.Preorder
import CodeShape.Proofs.Faults
import CodeShape.Proofs.Descent
import CodeShape.Proofs.Location
import CodeShape.Proofs.Traversal
import CodeShape.Proofs.Termination
