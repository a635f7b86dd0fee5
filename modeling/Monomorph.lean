import Monomorph.Archive
import Monomorph.Assoc
import Monomorph.Codec.Archive
import Monomorph.Codec.Config
import Monomorph.Codec.Data
import Monomorph.Codec.Package
import Monomorph.Codec.Source
import Monomorph.Codec.Ty
import Monomorph.Command.Args
import Monomorph.Command.Execute
import Monomorph.Command.Program
import Monomorph.Config
import Monomorph.Decl
import Monomorph.Diagnostic
import Monomorph.Engine
import Monomorph.Engine.Batch
import Monomorph.Engine.Budget
import Monomorph.Engine.Canonical
import Monomorph.Engine.Dangling
import Monomorph.Engine.Dispatch
import Monomorph.Engine.Extension
import Monomorph.Engine.Instantiate
import Monomorph.Engine.Mock
import Monomorph.Engine.Pattern
import Monomorph.Engine.Persist
import Monomorph.Engine.Rearrange
import Monomorph.Engine.Restore
import Monomorph.Engine.Satisfies
import Monomorph.Engine.Shape
import Monomorph.Engine.Supers
import Monomorph.Expr
import Monomorph.Failure
import Monomorph.File.PackageFile
import Monomorph.File.Path
import Monomorph.File.World
import Monomorph.Handle
import Monomorph.Instance.Key
import Monomorph.Instance.Registry
import Monomorph.Instance.State
import Monomorph.Interner
import Monomorph.Main
import Monomorph.Package
import Monomorph.Package.Builder
import Monomorph.Package.Copy
import Monomorph.Package.Display
import Monomorph.Package.Remap
import Monomorph.Package.Scope
import Monomorph.Package.StablePath
import Monomorph.Package.Subtree
import Monomorph.Shared
import Monomorph.Span
import Monomorph.Subst
import Monomorph.Text.Double
import Monomorph.Text.Json
import Monomorph.Text.JsonReader
import Monomorph.Text.Numeral
import Monomorph.Text.Quoted
import Monomorph.Text.Ron
import Monomorph.Text.RonReader
import Monomorph.Text.Toml
import Monomorph.Text.TomlReader
import Monomorph.Ty
import Monomorph.Proofs.Registry.Indices
import Monomorph.Proofs.Run.Asking
import Monomorph.Proofs.Run.Rewriting
import Monomorph.Proofs.Package.Slots
import Monomorph.Proofs.Package.Copying
import Monomorph.Proofs.Registry.Making
import Monomorph.Proofs.Registry.Restoring
import Monomorph.Proofs.Registry.Invariant
import Monomorph.Proofs.Types.Handles
import Monomorph.Proofs.Types.Substitutions
import Monomorph.Proofs.Requests.Canonical
import Monomorph.Proofs.Requests.Normal
import Monomorph.Proofs.Package.Subtrees
import Monomorph.Proofs.Requests.Creating
import Monomorph.Proofs.Requests.Stability
import Monomorph.Proofs.Requests.Reports
import Monomorph.Proofs.Requests.Answers
import Monomorph.Proofs.Requests.Originals
import Monomorph.Proofs.Requests.OneInstance
import Monomorph.Proofs.Requests.Keys
import Monomorph.Proofs.Package.Mirrors
import Monomorph.Proofs.Package.WellFormed
import Monomorph.Proofs.Package.Covering
import Monomorph.Proofs.Types.Applications
import Monomorph.Proofs.Types.Concrete
import Monomorph.Proofs.Package.Templates
import Monomorph.Proofs.Instances.Drawings
import Monomorph.Proofs.Instances.Questions
import Monomorph.Proofs.Instances.Enclosure
import Monomorph.Proofs.Run.Operations
import Monomorph.Proofs.Run.Blame
import Monomorph.Proofs.Package.Deciding
import Monomorph.Proofs.Package.Paths
import Monomorph.Proofs.Package.Replicas
import Monomorph.Proofs.Package.Lists
import Monomorph.Proofs.Package.Grafting
import Monomorph.Proofs.Requests.Frames
import Monomorph.Proofs.Registry.Quiescence
import Monomorph.Proofs.Requests.Unfinished
import Monomorph.Proofs.Requests.Reconciling
import Monomorph.Proofs.Instances.Meaning
import Monomorph.Proofs.Instances.ReadOnly
import Monomorph.Proofs.Instances.Addresses
import Monomorph.Proofs.Instances.Rebuilding
import Monomorph.Proofs.Instances.Resolving
import Monomorph.Proofs.Instances.Faithful
import Monomorph.Proofs.Instances.Receivers
import Monomorph.Proofs.Instances.Accesses
import Monomorph.Proofs.Instances.Inherited
import Monomorph.Proofs.Instances.Substitution
import Monomorph.Proofs.Instances.Attachments
import Monomorph.Proofs.Instances.DispatchTables
import Monomorph.Proofs.Instances.OutOfReach
import Monomorph.Proofs.Registry.Skipping
import Monomorph.Proofs.Registry.Decoding
import Monomorph.Proofs.Text.Tokens
import Monomorph.Proofs.Text.Printing
import Monomorph.Proofs.Codec.Fields
import Monomorph.Proofs.Codec.Types
import Monomorph.Proofs.Codec.Nodes
import Monomorph.Proofs.Codec.Archives
import Monomorph.Proofs.Requests.BaseTypes
import Monomorph.Proofs.Instances.Inheritance
import Monomorph.Proofs.Instances.Growth
import Monomorph.Proofs.Instances.Candidates
import Monomorph.Proofs.Instances.Satisfaction
import Monomorph.Proofs.Instances.Naming
import Monomorph.Proofs.Instances.Portraits
import Monomorph.Proofs.Instances.Shapes
import Monomorph.Proofs.Instances.Vouching
import Monomorph.Proofs.Instances.Listing
import Monomorph.Proofs.Instances.Mocks
import Monomorph.Proofs.Types.Matching
import Monomorph.Proofs.Registry.Symbols
import Monomorph.Proofs.Types.Mentions
import Monomorph.Proofs.Registry.Ordering
import Monomorph.Proofs.Requests.Unfolding
import Monomorph.Proofs.Registry.Encoding
import Monomorph.Proofs.Instances.Archiving
import Monomorph.Proofs.Types.Composition
import Monomorph.Proofs.Package.RoseTrees
import Monomorph.Proofs.Package.Preorders
import Monomorph.Proofs.Instances.OrderIndependence
