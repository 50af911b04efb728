import Scaffold.FileTree
import Scaffold.Main
import Scaffold.Proofs.CommandLine.CreateFactory
import Scaffold.Proofs.Document.ArrayValue
import Scaffold.Proofs.Document.ArrowFunctions
import Scaffold.Proofs.Document.Contents
import Scaffold.Proofs.Document.Creation
import Scaffold.Proofs.Document.Indexed
import Scaffold.Proofs.Document.LineBreaks
import Scaffold.Proofs.Document.Prefixes
import Scaffold.Proofs.Document.RoundTrip
import Scaffold.Proofs.Literal.Escapes
import Scaffold.Proofs.Literal.Grammar
import Scaffold.Proofs.Names.InFactory
import Scaffold.Proofs.Project.Beside
import Scaffold.Proofs.Project.Configured
import Scaffold.Proofs.Project.HalfCreated
import Scaffold.Proofs.Project.RelativeRoot
import Scaffold.Proofs.Project.Rerun
import Scaffold.Proofs.Registration.Run
import Scaffold.Proofs.Scan.Label
