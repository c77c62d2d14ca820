import AspAtlas.Main
import AspAtlas.Node.Json
import AspAtlas.Proofs.Config.RoundTrip
import AspAtlas.Proofs.Config.Usable
import AspAtlas.Proofs.Directive.Splitting
import AspAtlas.Proofs.Directive.Writing
import AspAtlas.Proofs.Graph.Dot
import AspAtlas.Proofs.Graph.Statement
import AspAtlas.Proofs.Program.Graphs
import AspAtlas.Proofs.Program.Numbering
import AspAtlas.Proofs.Program.Decorations
import AspAtlas.Proofs.Program.Places
import AspAtlas.Proofs.Program.Qualifiers
import AspAtlas.Proofs.Program.RuleText
import AspAtlas.Proofs.Project.Isolation
import AspAtlas.Proofs.Project.Reports
import AspAtlas.Proofs.Report.RoundTrip
import AspAtlas.Proofs.Surface.Comments
import AspAtlas.Proofs.Surface.Conditions
import AspAtlas.Proofs.Surface.Constants
import AspAtlas.Proofs.Symbol.Adding
import AspAtlas.Proofs.Symbol.Resolving
import AspAtlas.Proofs.Symbol.Variables
import AspAtlas.Proofs.Grammar.Programs
import AspAtlas.Proofs.Surface.Runs
import AspAtlas.Proofs.Text.Feeds
import AspAtlas.Proofs.Program.Sources
import AspAtlas.Proofs.Surface.Joints
import AspAtlas.Proofs.Program.Markers
import AspAtlas.Proofs.Node.Rendering
import AspAtlas.Proofs.Surface.Spelling
import AspAtlas.Proofs.Surface.Written
import AspAtlas.Proofs.Surface.Proper
import AspAtlas.Proofs.Surface.ProperStatements
import AspAtlas.Proofs.Statement.Mentions
import AspAtlas.Proofs.Node.Codec
import AspAtlas.Proofs.Statement.Comments
import AspAtlas.Proofs.Statement.Nearest
