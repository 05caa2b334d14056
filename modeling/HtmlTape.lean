import HtmlTape.Builder.Basic
import HtmlTape.Builder.Expr
import HtmlTape.Code.Compile
import HtmlTape.Code.Document
import HtmlTape.Code.Instruction
import HtmlTape.Code.Listing
import HtmlTape.Event.Basic
import HtmlTape.Event.Play
import HtmlTape.Fault
import HtmlTape.Markup.Entity
import HtmlTape.Markup.Escape
import HtmlTape.Name.Basic
import HtmlTape.Name.Standard
import HtmlTape.Name.Indexed
import HtmlTape.Name.Table
import HtmlTape.Notice
import HtmlTape.Outline.Line
import HtmlTape.Outline.Node
import HtmlTape.Outline.Parse
import HtmlTape.Outline.Record
import HtmlTape.Pull.Cursor
import HtmlTape.Pull.Element
import HtmlTape.Pull.Events
import HtmlTape.Pull.Query
import HtmlTape.Pull.Session
import HtmlTape.Pull.Sketch
import HtmlTape.Pull.Walk
import HtmlTape.Recorder.Basic
import HtmlTape.Recorder.Call
import HtmlTape.Recorder.Level
import HtmlTape.Recorder.Token
import HtmlTape.Tape.Dump
import HtmlTape.Tape.Literal
import HtmlTape.Tape.Record
import HtmlTape.Tape.Recording
import HtmlTape.Text.Blank
import HtmlTape.Text.Diff
import HtmlTape.Text.Escaped
import HtmlTape.Text.Lines
import HtmlTape.Text.Number
import HtmlTape.Text.Quoted
import HtmlTape.Writer.Format
import HtmlTape.Writer.Layout
import HtmlTape.Writer.Quota
import HtmlTape.Writer.Render
import HtmlTape.Writer.Sink
import HtmlTape.Proofs.Draft.Item
import HtmlTape.Proofs.Draft.Machine
import HtmlTape.Proofs.Tape.Block
import HtmlTape.Proofs.Recorder.Shows
import HtmlTape.Proofs.Tape.Layout
import HtmlTape.Proofs.Recorder.Mirror
import HtmlTape.Proofs.Recorder.Finished
import HtmlTape.Proofs.Tape.Dumped
import HtmlTape.Proofs.Recorder.Format
import HtmlTape.Proofs.Code.Compiled
import HtmlTape.Proofs.Code.Placed
import HtmlTape.Proofs.Event.Played
import HtmlTape.Proofs.Code.Grammar
import HtmlTape.Proofs.Code.Read
import HtmlTape.Proofs.Pull.Walked
import HtmlTape.Proofs.Pull.Gathered
import HtmlTape.Proofs.Recorder.Checks
import HtmlTape.Proofs.Pull.Live
import HtmlTape.Proofs.Pull.Stale
import HtmlTape.Proofs.Recorder.Claims
import HtmlTape.Proofs.Markup.Written
import HtmlTape.Proofs.Name.Sound
import HtmlTape.Proofs.Writer.Fed
import HtmlTape.Proofs.Writer.Skeleton
import HtmlTape.Proofs.Markup.Lexeme
import HtmlTape.Proofs.Markup.Reference
import HtmlTape.Proofs.Markup.Value
import HtmlTape.Proofs.Markup.Content
import HtmlTape.Proofs.Writer.Lexed
import HtmlTape.Proofs.Name.Twin
import HtmlTape.Proofs.Recorder.Aborted
import HtmlTape.Proofs.Draft.Alike
import HtmlTape.Proofs.Recorder.Alike
import HtmlTape.Proofs.Recorder.Traceless
import HtmlTape.Proofs.Builder.Attempt
import HtmlTape.Proofs.Writer.Script
import HtmlTape.Proofs.Recorder.Placed
import HtmlTape.Proofs.Recorder.Added
import HtmlTape.Proofs.Recorder.Granted
import HtmlTape.Proofs.Builder.Styles
import HtmlTape.Proofs.Draft.Smooth
import HtmlTape.Proofs.Recorder.Unwrapped
import HtmlTape.Proofs.Recorder.Abreast
import HtmlTape.Proofs.Builder.Abreast
import HtmlTape.Proofs.Builder.Inlined
import HtmlTape.Proofs.Tape.Owned
import HtmlTape.Proofs.Tape.Rooted
import HtmlTape.Proofs.Recorder.Books
import HtmlTape.Proofs.Code.Branch
import HtmlTape.Proofs.Code.Attributed
import HtmlTape.Proofs.Code.Traced
import HtmlTape.Proofs.Name.Codes
import HtmlTape.Proofs.Name.Indexed
import HtmlTape.Proofs.Code.Coalesced
import HtmlTape.Proofs.Writer.Inline
import HtmlTape.Proofs.Pull.Counted
import HtmlTape.Proofs.Recorder.Figures
import HtmlTape.Proofs.Draft.Joined
import HtmlTape.Proofs.Writer.Joined
import HtmlTape.Proofs.Draft.Allowed
import HtmlTape.Proofs.Recorder.Allowed
import HtmlTape.Proofs.Draft.Lookups
import HtmlTape.Proofs.Draft.Framed
import HtmlTape.Proofs.Builder.Retold
import HtmlTape.Proofs.Recorder.Joined
import HtmlTape.Proofs.Recorder.Led
import HtmlTape.Proofs.Outline.Listed
import HtmlTape.Proofs.Writer.Lines
import HtmlTape.Proofs.Pull.Tour
import HtmlTape.Proofs.Pull.Sketched
import HtmlTape.Proofs.Pull.Toured
import HtmlTape.Proofs.Pull.Queried
import HtmlTape.Proofs.Markup.Bytes
import HtmlTape.Proofs.Text.Mismatch
import HtmlTape.Proofs.Text.Escaped
import HtmlTape.Proofs.Outline.Quoted
import HtmlTape.Proofs.Outline.Printed
