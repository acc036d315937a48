import SyntaxForest.Forest.View
import SyntaxForest.Interchange
import SyntaxForest.LogFormat
import SyntaxForest.Outline
import SyntaxForest.Session
import SyntaxForest.Source.Printer
import SyntaxForest.Stored.Forest
import SyntaxForest.Proofs.Ancestry
import SyntaxForest.Proofs.Slots
import SyntaxForest.Proofs.Room
import SyntaxForest.Proofs.Linked
import SyntaxForest.Proofs.Demands
import SyntaxForest.Proofs.Release
import SyntaxForest.Proofs.Transfer
import SyntaxForest.Proofs.Upkeep
import SyntaxForest.Proofs.Copying
import SyntaxForest.Proofs.Cloned
import SyntaxForest.Proofs.Runs
import SyntaxForest.Proofs.Values
import SyntaxForest.Proofs.Representation
import SyntaxForest.Proofs.Ending
import SyntaxForest.Proofs.Ownership
import SyntaxForest.Proofs.Agreement
import SyntaxForest.Proofs.Fidelity
import SyntaxForest.Proofs.Asking
import SyntaxForest.Proofs.Recursion
import SyntaxForest.Proofs.Acyclic
import SyntaxForest.Proofs.FailedClones
import SyntaxForest.Proofs.Printing
import SyntaxForest.Proofs.Recording
import SyntaxForest.Proofs.Hinging
import SyntaxForest.Proofs.Completeness
import SyntaxForest.Proofs.Forms
import SyntaxForest.Proofs.Placement
import SyntaxForest.Proofs.Renaming
import SyntaxForest.Proofs.Likeness
import SyntaxForest.Proofs.Untouched
import SyntaxForest.Proofs.WrittenOnce
import SyntaxForest.Proofs.Plain
import SyntaxForest.Proofs.Blindness
import SyntaxForest.Proofs.Pairing
import SyntaxForest.Proofs.Unmarked
import SyntaxForest.Proofs.Interference
import SyntaxForest.Proofs.Grammar
import SyntaxForest.Proofs.ReadableExpressions
import SyntaxForest.Proofs.ReadableStatements
import SyntaxForest.Proofs.Programs
import SyntaxForest.Proofs.Texts
import SyntaxForest.Proofs.NodeTexts
import SyntaxForest.Proofs.SpelledExpressions
import SyntaxForest.Proofs.SpelledStatements
import SyntaxForest.Proofs.Sameness
import SyntaxForest.Proofs.SameTexts
import SyntaxForest.Proofs.Dangling
import SyntaxForest.Proofs.SourceText
import SyntaxForest.Proofs.ExpressionText
import SyntaxForest.Proofs.Lines
import SyntaxForest.Proofs.Paragraphs
import SyntaxForest.Proofs.PrintedLines
import SyntaxForest.Proofs.StringTokens
import SyntaxForest.Proofs.EqualRecords
import SyntaxForest.Proofs.RecordedContents
import SyntaxForest.Proofs.Recovery
import SyntaxForest.Proofs.Exactness
import SyntaxForest.Proofs.Numerals
import SyntaxForest.Proofs.Readback
import SyntaxForest.Proofs.StoredForm
import SyntaxForest.Proofs.RoundTrip
import SyntaxForest.Proofs.Scaling
import SyntaxForest.Proofs.Storability
import SyntaxForest.Proofs.Visiting
import SyntaxForest.Proofs.Extensionality
import SyntaxForest.Proofs.Appending
import SyntaxForest.Proofs.Commuting
import SyntaxForest.Proofs.Branches
import SyntaxForest.Proofs.RoseTrees
import SyntaxForest.Proofs.Shapes
import SyntaxForest.Proofs.Outlines
import SyntaxForest.Proofs.Refusals
import SyntaxForest.Proofs.Identities
import SyntaxForest.Proofs.JsonEquality
import SyntaxForest.Proofs.FirstRecords
import SyntaxForest.Proofs.DecimalValues
import SyntaxForest.Proofs.NumberTokens
import SyntaxForest.Proofs.NumberValues
