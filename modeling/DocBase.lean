import DocBase.Store.Removal
import DocBase.Store.Retrieval
import DocBase.Document.Catalogue
import DocBase.Query.Comparing
import DocBase.Query.Context
import DocBase.Session.Schedule
import DocBase.Manifest
import DocBase.Main
import DocBase.Proofs.Lock.Progress
import DocBase.Proofs.Query.Soundness
import DocBase.Proofs.Lock.Safety
import DocBase.Proofs.Store.Consistency
import DocBase.Proofs.Store.Traffic
import DocBase.Proofs.Document.Membership
import DocBase.Proofs.Store.Accounts
import DocBase.Proofs.Store.Custody
import DocBase.Proofs.Store.RemovalOnce
import DocBase.Proofs.Store.History
import DocBase.Proofs.Document.Algebra
import DocBase.Proofs.Query.Scoping
import DocBase.Proofs.Query.Grammar.Matching
import DocBase.Proofs.Query.Grammar.Layout
import DocBase.Proofs.Query.Grammar.Levels
import DocBase.Proofs.Query.Grammar.RoundTrip
import DocBase.Proofs.Query.Isolation
import DocBase.Proofs.Document.Plain
import DocBase.Proofs.Query.Plain
import DocBase.Proofs.Lock.AtOnce
import DocBase.Proofs.Document.Locking
import DocBase.Proofs.Query.Secrecy
import DocBase.Proofs.Node.Algebra
import DocBase.Proofs.Query.Locks
import DocBase.Proofs.Query.Reanalysis
import DocBase.Proofs.Collection.Reading
import DocBase.Proofs.Store.Lookup
import DocBase.Proofs.Query.Tracing
import DocBase.Proofs.Query.Paths
import DocBase.Proofs.Store.Visibility
import DocBase.Proofs.Query.Retrieval
import DocBase.Proofs.Query.Undisturbed
import DocBase.Proofs.Manifest
import DocBase.Proofs.Access.Mode
import DocBase.Proofs.Query.Comparing
import DocBase.Proofs.CommandLine.Documents
import DocBase.Proofs.Store.Undoing
import DocBase.Proofs.Store.Numbering
import DocBase.Proofs.Lock.Handles
