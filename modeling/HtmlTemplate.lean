import HtmlTemplate.Main
import HtmlTemplate.Data.Keyed
import HtmlTemplate.Proofs.Interpolation
import HtmlTemplate.Proofs.Comment.Restore
import HtmlTemplate.Proofs.Comment.Clear
import HtmlTemplate.Proofs.Comment.Final
import HtmlTemplate.Proofs.Comment.Passes
import HtmlTemplate.Proofs.Render.Validity
import HtmlTemplate.Proofs.Render.Totality
import HtmlTemplate.Proofs.Directive.Expansion
import HtmlTemplate.Proofs.Directive.Selection
import HtmlTemplate.Proofs.Template.Lexical
import HtmlTemplate.Proofs.Scope.Calls
import HtmlTemplate.Proofs.Comment.RoundTrip
import HtmlTemplate.Proofs.Comment.Exchange
import HtmlTemplate.Proofs.Render.Comments
import HtmlTemplate.Proofs.Scope.Fray
import HtmlTemplate.Proofs.Directive.Exposure
import HtmlTemplate.Proofs.Directive.Isolation
import HtmlTemplate.Proofs.Render.Styles
import HtmlTemplate.Proofs.Include
import HtmlTemplate.Proofs.Directive.Agreement
import HtmlTemplate.Proofs.Directive.Fragment
import HtmlTemplate.Proofs.Command
import HtmlTemplate.Proofs.Render.Embedding
import HtmlTemplate.Proofs.Directive.Lookalike
import HtmlTemplate.Proofs.Directive.Shadowing
import HtmlTemplate.Proofs.Directive.LoopValue
import HtmlTemplate.Proofs.Directive.Carried
import HtmlTemplate.Proofs.Directive.Blame
import HtmlTemplate.Proofs.Markup.Paren
import HtmlTemplate.Proofs.Markup.Elements
import HtmlTemplate.Proofs.Directive.Stripped
import HtmlTemplate.Proofs.Directive.Written
import HtmlTemplate.Proofs.Scope.Lookup
import HtmlTemplate.Proofs.Files.Confined
import HtmlTemplate.Proofs.Escape
import HtmlTemplate.Proofs.Include.Written
import HtmlTemplate.Proofs.Markup.Resume
