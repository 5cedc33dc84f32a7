import RouteDocs.Files.Tree
import RouteDocs.Main
import RouteDocs.Command.Run
import RouteDocs.Proofs.Dict
import RouteDocs.Proofs.Generate
import RouteDocs.Proofs.Source.Pattern
import RouteDocs.Proofs.Source.Opening
import RouteDocs.Proofs.Source.Blocks
import RouteDocs.Proofs.Decimal
import RouteDocs.Proofs.Json.Basic
import RouteDocs.Proofs.Document.Decode
import RouteDocs.Proofs.Json.Raw
import RouteDocs.Proofs.Document.Json
import RouteDocs.Proofs.Yaml.Place
import RouteDocs.Proofs.Yaml.Token.Plain
import RouteDocs.Proofs.Yaml.Token.Quoted
import RouteDocs.Proofs.Yaml.Token.Block
import RouteDocs.Proofs.Yaml.Token.Stream
import RouteDocs.Proofs.Yaml.Token.Written
import RouteDocs.Proofs.Yaml.Token.BlockEnd
import RouteDocs.Proofs.Yaml.Token.Last
import RouteDocs.Proofs.Yaml.Token.Key
import RouteDocs.Proofs.Yaml.Layout
import RouteDocs.Proofs.Yaml.Plain
import RouteDocs.Proofs.Yaml.Printer
import RouteDocs.Proofs.Yaml.LastLine
import RouteDocs.Proofs.Yaml.Node
import RouteDocs.Proofs.Yaml.View
import RouteDocs.Proofs.Document.Yaml
import RouteDocs.Proofs.Document.Ordered
import RouteDocs.Proofs.Yaml.Value.Entries
import RouteDocs.Proofs.Yaml.Value.Load
import RouteDocs.Proofs.Yaml.Value.Repeated
import RouteDocs.Proofs.Yaml.Value.Last
import RouteDocs.Proofs.Yaml.Value.Json
import RouteDocs.Proofs.Yaml.Value.Conversion
import RouteDocs.Proofs.Json.Last
import RouteDocs.Proofs.Yaml.LastValue
import RouteDocs.Proofs.Text.Bytes
import RouteDocs.Proofs.Text.Indentation
import RouteDocs.Proofs.Text.Dedent
import RouteDocs.Proofs.Indentation
import RouteDocs.Proofs.LineEnding
import RouteDocs.Proofs.Region
import RouteDocs.Proofs.Yaml.Reading
import RouteDocs.Proofs.Settings.Yaml
import RouteDocs.Proofs.Command.Given
import RouteDocs.Proofs.Command.Arguments
import RouteDocs.Proofs.Command.Run
import RouteDocs.Proofs.Settings
import RouteDocs.Proofs.Components
import RouteDocs.Proofs.Components.First
import RouteDocs.Proofs.Source.Components
import RouteDocs.Proofs.Components.Written
import RouteDocs.Proofs.Document.Build
import RouteDocs.Proofs.Source.Written
import RouteDocs.Proofs.Source.Append
import RouteDocs.Proofs.Source.Offset
import RouteDocs.Proofs.Route.Placeholder
import RouteDocs.Proofs.Overlay
import RouteDocs.Proofs.Route.Declaration
import RouteDocs.Proofs.Route.Written
import RouteDocs.Proofs.Route.Annotation
import RouteDocs.Proofs.Route.Response
import RouteDocs.Proofs.Route.Code
