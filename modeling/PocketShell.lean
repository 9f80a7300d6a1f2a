import PocketShell.Files.Desk
import PocketShell.Main
import PocketShell.Proofs.Sequential.Programs
import PocketShell.Run.Probe
import PocketShell.Run.Session
import PocketShell.Stream.Bench
import PocketShell.Proofs.Sequential.Refinement
import PocketShell.Proofs.Script.Cursor
import PocketShell.Proofs.Script.Numbering
import PocketShell.Proofs.Script.Simulation
import PocketShell.Proofs.Lexing
import PocketShell.Proofs.Script.Integrity
import PocketShell.Proofs.Script.Parts
import PocketShell.Proofs.Quoting
import PocketShell.Proofs.Script.Printing
import PocketShell.Proofs.Script.RoundTrip
import PocketShell.Proofs.Streams.Conservation
import PocketShell.Proofs.Script.Slots
import PocketShell.Proofs.Script.Shape
import PocketShell.Proofs.Run.Deeds
import PocketShell.Proofs.Run.Pipes
import PocketShell.Proofs.Streams.Queue
import PocketShell.Proofs.Run.Waiting
import PocketShell.Proofs.Run.Building
import PocketShell.Proofs.Run.Termination
import PocketShell.Proofs.Run.Sessions
import PocketShell.Proofs.Run.Cancelling
import PocketShell.Proofs.Streams.Order
import PocketShell.Proofs.Streams.Wakeups
import PocketShell.Proofs.Lexing.Endings
import PocketShell.Proofs.Script.Outcomes
import PocketShell.Proofs.Script.Embedding
import PocketShell.Proofs.Script.Closing
import PocketShell.Proofs.Script.Composition
import PocketShell.Proofs.Script.Substitutions
import PocketShell.Proofs.Script.Content
import PocketShell.Proofs.Script.Everywhere
import PocketShell.Proofs.Script.Edits
import PocketShell.Proofs.Script.Leaving
import PocketShell.Proofs.Script.Moments
import PocketShell.Proofs.Script.Brackets
import PocketShell.Proofs.Script.Operands
import PocketShell.Proofs.Bindings
import PocketShell.Proofs.Run.Literal
import PocketShell.Proofs.Run.Footprint
import PocketShell.Proofs.Script.Wrapping
import PocketShell.Proofs.Sequential.Keeping
import PocketShell.Proofs.Sequential.Lines
import PocketShell.Proofs.Sequential.Redirection
import PocketShell.Proofs.Files.Handles
import PocketShell.Proofs.Files.Appending
import PocketShell.Proofs.Files.Initial
import PocketShell.Proofs.Files.Names
import PocketShell.Proofs.Sequential.Comments
import PocketShell.Proofs.Delivery
import PocketShell.Proofs.Script.Delivery
import PocketShell.Proofs.Run.Delivery
import PocketShell.Proofs.Streams.Dropping
import PocketShell.Proofs.Streams.Offsets
import PocketShell.Proofs.Lexing.Lexemes
import PocketShell.Proofs.Lexing.Conservation
import PocketShell.Proofs.Lexing.MaximalMunch
import PocketShell.Proofs.Script.Positions
import PocketShell.Proofs.Sequential.Blanks
import PocketShell.Proofs.Lexing.Continuation
import PocketShell.Proofs.Words
import PocketShell.Proofs.Pieces
import PocketShell.Proofs.Run.Expansion
import PocketShell.Proofs.Run.Templates
import PocketShell.Proofs.Command.Escapes
import PocketShell.Proofs.Command.Formats
import PocketShell.Proofs.Command.Rounds
import PocketShell.Proofs.Command.RoundTrips
import PocketShell.Proofs.Command.LineNumbers
import PocketShell.Proofs.Command.Inputs
import PocketShell.Proofs.Command.Translation
import PocketShell.Proofs.Command.Tables
import PocketShell.Proofs.Command.Reversal
