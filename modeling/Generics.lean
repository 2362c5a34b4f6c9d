import Generics.Library.Basic
import Generics.LogFormat
import Generics.Proofs.Distinct
import Generics.Proofs.Hierarchy.Canonical
import Generics.Proofs.Hierarchy.Closure
import Generics.Proofs.Inference.Completeness
import Generics.Proofs.Inference.Specification
import Generics.Proofs.Hierarchy.Flattening
import Generics.Proofs.Hierarchy.Inheritance
import Generics.Proofs.Catalog.Embedding
import Generics.Proofs.Catalog.Following
import Generics.Proofs.Hierarchy.Embedding
import Generics.Proofs.Inference.Embedding
import Generics.Proofs.Library.Answers
import Generics.Proofs.Library.Expressions
import Generics.Proofs.Library.Loading
import Generics.Proofs.Library.Resolving
import Generics.Proofs.Catalog.Tracking
import Generics.Proofs.Library.Reloading
import Generics.Proofs.Library.Order
import Generics.Proofs.TypeExpr.Grammar
import Generics.Proofs.TypeExpr.Reading
import Generics.Proofs.Library.Lookup
import Generics.Proofs.Hierarchy.Closed
import Generics.Proofs.Inference.Hereditary
import Generics.Proofs.Library.Display
import Generics.Proofs.Hierarchy.DirectLinks
import Generics.Proofs.Ancestor.Coherence
import Generics.Proofs.Ancestor.Reachability
import Generics.Proofs.Ancestor.CommonBase
import Generics.Proofs.Occurrence.Exactness
import Generics.Proofs.Hierarchy.InterfaceLists
import Generics.Proofs.Hierarchy.Cycles
import Generics.Proofs.Inference.Soundness
import Generics.Proofs.Inference.Invariance
import Generics.Proofs.Hierarchy.Stability
import Generics.Proofs.Json.RoundTrip
import Generics.Proofs.Schema.Records
import Generics.Proofs.Schema.RoundTrip
import Generics.Proofs.TypeExpr.Refusal
import Generics.Proofs.Occurrence.Evaluation
import Generics.Proofs.Inference.Diagnosis
import Generics.Proofs.Library.Faithfulness
import Generics.Proofs.Ancestor.BaseChain
import Generics.Proofs.Catalog.Refusal
import Generics.Proofs.Catalog.Simultaneous
import Generics.Proofs.Hierarchy.Termination
import Generics.Proofs.SymbolTable
import Generics.Proofs.Hierarchy.Packed
