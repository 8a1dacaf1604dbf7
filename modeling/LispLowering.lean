import LispLowering.Proofs.Sorts
import LispLowering.Proofs.EarlyReturn.Interception
import LispLowering.Proofs.Suspension.Wrappers
import LispLowering.Proofs.Erasure.Traversal
import LispLowering.Proofs.Recur.TailForms
import LispLowering.Proofs.Recur.Targets
import LispLowering.Proofs.Declared
import LispLowering.Proofs.Scoping.Shadowing
import LispLowering.Proofs.RoundTrip.Nodes
import LispLowering.Proofs.RoundTrip.Trees
import LispLowering.Proofs.TypeText.Quotations
import LispLowering.Proofs.Meaning.Returning
import LispLowering.Proofs.Meaning.Comparison
import LispLowering.Proofs.Meaning.Counting
import LispLowering.Proofs.Quotation
import LispLowering.Proofs.Implicit
import LispLowering.Proofs.Keys
import LispLowering.Proofs.ClauseCodes
import LispLowering.Proofs.Paths
import LispLowering.Proofs.Texts
import LispLowering.Proofs.Assignment
import LispLowering.Proofs.Templates
