import Stylesheet.Server
import Stylesheet.Proofs.Document.Accounts
import Stylesheet.Proofs.Document.Places
import Stylesheet.Proofs.Document.Concatenation
import Stylesheet.Proofs.Document.Layouts
import Stylesheet.Proofs.Document.Failures
import Stylesheet.Proofs.Document.Positions
import Stylesheet.Proofs.Document.Answers
import Stylesheet.Proofs.Workspace.Circles
import Stylesheet.Proofs.Workspace.InStep
import Stylesheet.Proofs.Server.Freshness
import Stylesheet.Proofs.Server.Invalidation
import Stylesheet.Proofs.Server.Recovery
import Stylesheet.Proofs.Server.Resolution
import Stylesheet.Proofs.Expression.Reading
import Stylesheet.Proofs.Workspace.Dependents
import Stylesheet.Proofs.Line.Consistency
import Stylesheet.Proofs.Line.Nesting
import Stylesheet.Proofs.Document.Includes
import Stylesheet.Proofs.Document.Continuation
import Stylesheet.Proofs.Document.Chains
import Stylesheet.Proofs.Workspace.Stops
import Stylesheet.Proofs.Document.Definitions
import Stylesheet.Proofs.Document.PlainImports
import Stylesheet.Proofs.Document.Loops
import Stylesheet.Proofs.Document.AttributeForms
import Stylesheet.Proofs.Document.StartingLine
import Stylesheet.Proofs.Workspace.OwnFile
import Stylesheet.Proofs.Workspace.Exports
import Stylesheet.Proofs.Document.MixinNames
import Stylesheet.Proofs.FileSystem.Search
import Stylesheet.Proofs.Workspace.ImportKeys
