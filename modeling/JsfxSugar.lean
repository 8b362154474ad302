import JsfxSugar.Main
import JsfxSugar.Proofs.Text
import JsfxSugar.Proofs.Substitution
import JsfxSugar.Proofs.Dispatch.Search
import JsfxSugar.Proofs.Dispatch.Conditional
import JsfxSugar.Proofs.Dispatch.Enrolment
import JsfxSugar.Proofs.Dispatch.Declarations
import JsfxSugar.Proofs.Dispatch.Dispatcher
import JsfxSugar.Proofs.Range.Nesting
import JsfxSugar.Proofs.Enumeration.Assignment
import JsfxSugar.Proofs.Enumeration.Passes
import JsfxSugar.Proofs.Seam
import JsfxSugar.Proofs.Enumeration.Boundary
import JsfxSugar.Proofs.Enumeration.ForcedMarkers
import JsfxSugar.Proofs.Range.Settled
import JsfxSugar.Proofs.Range.Rescan
import JsfxSugar.Proofs.Enumeration.Signs
import JsfxSugar.Proofs.Dispatch.Rewriting
import JsfxSugar.Proofs.Dispatch.Signs
import JsfxSugar.Proofs.Stages
import JsfxSugar.Proofs.Signs
import JsfxSugar.Proofs.Dispatch.Reading
import JsfxSugar.Proofs.Dispatch.Replacement
import JsfxSugar.Proofs.Dispatch.Keywords
import JsfxSugar.Proofs.Dispatch.Emission
import JsfxSugar.Proofs.Dispatch.Leftover
import JsfxSugar.Proofs.Dispatch.Finished
import JsfxSugar.Proofs.Dispatch.OpenGroups
import JsfxSugar.Proofs.Enumeration.Histories
import JsfxSugar.Proofs.Bytes
import JsfxSugar.Proofs.Enumeration.Sharing
import JsfxSugar.Proofs.Enumeration.Interleaving
import JsfxSugar.Proofs.Enumeration.Tokens
import JsfxSugar.Proofs.Enumeration.OnePass
import JsfxSugar.Proofs.Enumeration.Acceptance
import JsfxSugar.Proofs.Dispatch.Rejection
import JsfxSugar.Proofs.Command.Directory
import JsfxSugar.Proofs.Command.Execution
import JsfxSugar.Proofs.Enumeration.ForcingOrder
import JsfxSugar.Proofs.Enumeration.Counts
import JsfxSugar.Proofs.Range.Grammar
import JsfxSugar.Proofs.Range.Placeholders
import JsfxSugar.Proofs.Range.Reopening
import JsfxSugar.Proofs.Range.RowMajor
import JsfxSugar.Proofs.Dispatch.Balance
import JsfxSugar.Proofs.Dispatch.Lines
import JsfxSugar.Proofs.Dispatch.NestedCalls
import JsfxSugar.Proofs.Dispatch.Signature
import JsfxSugar.Proofs.Enumeration.Uncounted
import JsfxSugar.Proofs.Command.Flags
import JsfxSugar.Proofs.Command.Warnings
import JsfxSugar.Proofs.Enumeration.Failures
import JsfxSugar.Proofs.Dispatch.Redeclaration
import JsfxSugar.Proofs.AscendingIds
