import RenderLog.CallSite
import RenderLog.Demo
import RenderLog.Highlights
import RenderLog.Line
import RenderLog.Line.Draft
import RenderLog.Line.Typeset
import RenderLog.Main
import RenderLog.Markup.Boundary
import RenderLog.Markup.Event
import RenderLog.Markup.Item
import RenderLog.Markup.Lexeme
import RenderLog.Markup.Style
import RenderLog.Message
import RenderLog.Message.Template
import RenderLog.Number.Binary
import RenderLog.Number.Layout
import RenderLog.Number.Shortest
import RenderLog.Proofs.Attachments
import RenderLog.Proofs.Casts
import RenderLog.Proofs.Deliveries
import RenderLog.Proofs.Directives
import RenderLog.Proofs.Format
import RenderLog.Proofs.History
import RenderLog.Proofs.HostOrder
import RenderLog.Proofs.Leaks
import RenderLog.Proofs.LiveNumbers
import RenderLog.Proofs.Numbering
import RenderLog.Proofs.PrimarySite
import RenderLog.Proofs.Reporter
import RenderLog.Proofs.Runs
import RenderLog.Registry
import RenderLog.Registry.Numbering
import RenderLog.Screen
import RenderLog.Session
import RenderLog.Session.Entry
import RenderLog.Session.Reporter
import RenderLog.Settings
import RenderLog.Sink
import RenderLog.Sink.Memory
import RenderLog.Sink.Outlet
import RenderLog.Sink.Stream
import RenderLog.Table
import RenderLog.Text.Blank
import RenderLog.Text.Quoted
import RenderLog.Value
import RenderLog.Proofs.LiveKeys
import RenderLog.Proofs.Renderings
import RenderLog.Proofs.Display
import RenderLog.Proofs.MessageLines
import RenderLog.Proofs.Renaming
import RenderLog.Proofs.Isolation
import RenderLog.Proofs.Rewiring
import RenderLog.Proofs.Templates
import RenderLog.Proofs.Accounting
import RenderLog.Proofs.Consistency
import RenderLog.Proofs.Pairing
import RenderLog.Proofs.Names
import RenderLog.Proofs.Inert
import RenderLog.Proofs.Intraword
import RenderLog.Proofs.Fusion
import RenderLog.Proofs.Pens
import RenderLog.Proofs.Outline
import RenderLog.Proofs.PlainLines
import RenderLog.Proofs.Paths
import RenderLog.Proofs.Spans
import RenderLog.Proofs.Switches
import RenderLog.Proofs.Restyling
import RenderLog.Proofs.Objects
import RenderLog.Proofs.Readers
import RenderLog.Proofs.Pieces
import RenderLog.Proofs.Quantities
import RenderLog.Proofs.Changes
import RenderLog.Proofs.ValueLists
import RenderLog.Proofs.Streams
import RenderLog.Proofs.Walks
import RenderLog.Proofs.Acceptance
