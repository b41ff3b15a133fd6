import TreeSelectors.Document.Edit
import TreeSelectors.Engine.Basic
import TreeSelectors.Proofs.Chain
import TreeSelectors.Proofs.Engine.Cache
import TreeSelectors.Proofs.Text
import TreeSelectors.Proofs.Document.Kinship
import TreeSelectors.Proofs.Document.Order
import TreeSelectors.Proofs.Document.Links
import TreeSelectors.Proofs.Query.Scope
import TreeSelectors.Proofs.Document.Selection
import TreeSelectors.Proofs.Document.Edit
import TreeSelectors.Proofs.Document.Html
import TreeSelectors.Proofs.Selector.Argument
import TreeSelectors.Proofs.Selector.Writing
import TreeSelectors.Proofs.Selector.RoundTrip
import TreeSelectors.Proofs.Selector.Ends
import TreeSelectors.Proofs.Selector.Completion
import TreeSelectors.Proofs.Selector.Compound
import TreeSelectors.Proofs.Selector.WellFormed
import TreeSelectors.Proofs.Selector.Offsets
import TreeSelectors.Proofs.Selector.Progress
import TreeSelectors.Proofs.Selector.Trimming
import TreeSelectors.Proofs.Query.Request
import TreeSelectors.Proofs.Query.Lookups
import TreeSelectors.Proofs.Query.Numbering
import TreeSelectors.Proofs.Query.FirstMeetings
import TreeSelectors.Proofs.Query.Retrieval
import TreeSelectors.Proofs.Query.Bulk
import TreeSelectors.Proofs.Query.Run
import TreeSelectors.Proofs.Engine.Keep
import TreeSelectors.Proofs.Matching.Nth
import TreeSelectors.Proofs.Matching.Negation
import TreeSelectors.Proofs.Matching.Depth
import TreeSelectors.Proofs.Engine.Counts
import TreeSelectors.Proofs.Engine.Groups
import TreeSelectors.Proofs.Engine.Interpreter
import TreeSelectors.Proofs.Engine.Runs
import TreeSelectors.Proofs.Engine.Agreement
