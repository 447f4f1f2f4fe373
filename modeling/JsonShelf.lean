import JsonShelf.Proofs.Document.PrintedContent
import JsonShelf.Proofs.Document.Refinement
import JsonShelf.Proofs.Document.SyntaxFault
import JsonShelf.Proofs.Document.UndecodableContent
import JsonShelf.Proofs.Double.Pattern
import JsonShelf.Proofs.Encoding.Strictness
import JsonShelf.Proofs.FilePath.Resolution
import JsonShelf.Proofs.Json.FailedWrite
import JsonShelf.Proofs.Json.PrintedDouble
import JsonShelf.Proofs.Json.TwoWrites
import JsonShelf.Proofs.Json.Write
import JsonShelf.Proofs.Path.Concatenation
import JsonShelf.Proofs.Path.Grammar
import JsonShelf.Proofs.Path.Rendering
import JsonShelf.Proofs.Service.BodyEncoding
import JsonShelf.Proofs.Service.ClientFault
import JsonShelf.Proofs.Service.Confinement
import JsonShelf.Proofs.Service.FailedRequest
import JsonShelf.Proofs.Service.LastingWrite
import JsonShelf.Proofs.Shelf.Isolation
import JsonShelf.Proofs.Shelf.LoadAndWrite
