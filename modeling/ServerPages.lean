import ServerPages.Source.LineIndex
import ServerPages.Text.Quoted
import ServerPages.Text.Space
import ServerPages.Text.Word
import ServerPages.Markup.Attribute
import ServerPages.Markup.Directive
import ServerPages.Markup.Lexeme
import ServerPages.Markup.Node
import ServerPages.Markup.Problem
import ServerPages.Markup.Tree
import ServerPages.Control.Basic
import ServerPages.Control.Html
import ServerPages.Control.Listing
import ServerPages.Control.Standard
import ServerPages.Path.Basic
import ServerPages.Page.Basic
import ServerPages.Page.Outline
import ServerPages.Page.Parse
import ServerPages.Json.Document
import ServerPages.Config.Basic
import ServerPages.Glob.Match
import ServerPages.Check.FileTree
import ServerPages.Check.Options
import ServerPages.Check.Report
import ServerPages.Check.Run
import ServerPages.Main
import ServerPages.Proofs.Kept
import ServerPages.Proofs.Nesting
import ServerPages.Proofs.Outcomes
import ServerPages.Proofs.PlainMarkup
import ServerPages.Proofs.Siblings
import ServerPages.Proofs.TagCode
import ServerPages.Proofs.Tiling
import ServerPages.Proofs.InlineCode
import ServerPages.Proofs.Origin
import ServerPages.Proofs.Progress
import ServerPages.Proofs.ShownCode
import ServerPages.Proofs.Extent
import ServerPages.Proofs.CaseBlind
import ServerPages.Proofs.Collected
import ServerPages.Proofs.Registering
import ServerPages.Proofs.Found
import ServerPages.Proofs.Reporting
import ServerPages.Proofs.Printed
import ServerPages.Proofs.Invariant
import ServerPages.Proofs.SelfClosing
import ServerPages.Proofs.Runat
import ServerPages.Proofs.RawText
import ServerPages.Proofs.Pointing
import ServerPages.Proofs.SourceOrder
import ServerPages.Proofs.FirstTerminator
import ServerPages.Proofs.Locality
import ServerPages.Proofs.Body
import ServerPages.Proofs.Repeated
import ServerPages.Proofs.Merging
import ServerPages.Proofs.ScriptLines
import ServerPages.Proofs.References
import ServerPages.Proofs.Dependencies
import ServerPages.Proofs.OneLine
import ServerPages.Proofs.Caret
import ServerPages.Proofs.LineScan
import ServerPages.Proofs.NotText
import ServerPages.Proofs.Registry
import ServerPages.Proofs.Comments
import ServerPages.Proofs.Words
