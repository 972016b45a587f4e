import RouteContract.Main
import RouteContract.Proofs.Crawl.Analysis
import RouteContract.Proofs.Crawl.PathParameters
import RouteContract.Proofs.Crawl.References
import RouteContract.Proofs.Crawl.Registration
import RouteContract.Proofs.Crawl.Repetition
import RouteContract.Proofs.Crawl.Walk
import RouteContract.Proofs.Schema.Generation
import RouteContract.Proofs.Schema.Independence
import RouteContract.Proofs.Schema.Meetings
import RouteContract.Proofs.Schema.Repetition
import RouteContract.Proofs.Types.Divergence
import RouteContract.Proofs.Types.Naming
import RouteContract.Proofs.Types.Stability
import RouteContract.Proofs.Types.Termination
import RouteContract.Proofs.Types.Alternatives
import RouteContract.Proofs.Types.Widening
import RouteContract.Proofs.Types.MemberNames
import RouteContract.Proofs.Types.Growth
import RouteContract.Proofs.Types.Trees
import RouteContract.Proofs.Types.Alike
import RouteContract.Proofs.Types.Following
import RouteContract.Proofs.Types.Following.Expressions
import RouteContract.Proofs.Types.Following.Members
import RouteContract.Proofs.Crawl.Coherence
import RouteContract.Proofs.Crawl.Restored
import RouteContract.Proofs.Literal.Acceptance
import RouteContract.Proofs.Literal.Rendering
import RouteContract.Proofs.Types.Following.Answers
import RouteContract.Proofs.Types.FoundedCheck
import RouteContract.Proofs.Types.Sessions
import RouteContract.Proofs.Load.Identity
import RouteContract.Proofs.Crawl.Branches
import RouteContract.Proofs.Crawl.Additions
import RouteContract.Proofs.Json.Path
import RouteContract.Proofs.Json.Edit
import RouteContract.Proofs.Schema.Edit
import RouteContract.Proofs.Document.Edit
import RouteContract.Proofs.Crawl.Directives
import RouteContract.Proofs.Crawl.Forwarding
import RouteContract.Proofs.Crawl.Documentation
import RouteContract.Proofs.Names.Reexports
import RouteContract.Proofs.Route.Joining
import RouteContract.Proofs.Route.Placeholders
import RouteContract.Proofs.Comment.Listing
import RouteContract.Proofs.File.Normalizing
import RouteContract.Proofs.Config.Aliases
import RouteContract.Proofs.Config.Extension
import RouteContract.Proofs.Types.ObjectMembers
import RouteContract.Proofs.Schema.Ending
import RouteContract.Proofs.Crawl.Casts
import RouteContract.Proofs.Comment.Leading
import RouteContract.Proofs.Comment.Rendering
import RouteContract.Proofs.Crawl.Traversal
import RouteContract.Proofs.Crawl.DescentEnds
import RouteContract.Proofs.Comment.Offsets
