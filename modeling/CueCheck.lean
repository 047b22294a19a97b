import CueCheck.Beat
import CueCheck.Beat.Check
import CueCheck.Beat.Holds
import CueCheck.Beat.Verdict
import CueCheck.Bisection
import CueCheck.Check
import CueCheck.CommandLine
import CueCheck.CommandLine.Answer
import CueCheck.CommandLine.Arguments
import CueCheck.Cue
import CueCheck.Cue.Pattern
import CueCheck.Cue.Playback
import CueCheck.Cue.Run
import CueCheck.Finding
import CueCheck.Level
import CueCheck.Level.Decode
import CueCheck.Level.Error
import CueCheck.Level.Event
import CueCheck.Level.FreeTime
import CueCheck.Level.Part
import CueCheck.Level.Phrase
import CueCheck.Level.Row
import CueCheck.Level.Timeline
import CueCheck.LevelText.Quoted
import CueCheck.LevelText.Reader
import CueCheck.LevelText.Token
import CueCheck.LevelText.Value
import CueCheck.Main
import CueCheck.Number
import CueCheck.Options
import CueCheck.Options.Settings
import CueCheck.RateTable
import CueCheck.RateTable.Changes
import CueCheck.RateTable.Position
import CueCheck.Report
import CueCheck.Scalar
import CueCheck.Scalar.Binary64
import CueCheck.Scalar.Division
import CueCheck.Scalar.Rounding
import CueCheck.Text.Blank
import CueCheck.Text.CodePoint
import CueCheck.Text.Digit
import CueCheck.Text.Numeral
import CueCheck.Text.Printable
import CueCheck.Text.QuotedName
import CueCheck.Tolerance
import CueCheck.Proofs.Beat.Accounting
import CueCheck.Proofs.Cue.Pending
import CueCheck.Proofs.Cue.Rejection
import CueCheck.Proofs.Cue.Origin
import CueCheck.Proofs.Cue.Reachable
import CueCheck.Proofs.Binary64
import CueCheck.Proofs.Cue.Interleaving
import CueCheck.Proofs.Cue.Spelling
import CueCheck.Proofs.Check.Faithful
import CueCheck.Proofs.Binary64.Lookup
import CueCheck.Proofs.Check.Permutation
import CueCheck.Proofs.Scaling
import CueCheck.Proofs.Cue.Scaling
import CueCheck.Proofs.Check.Scaling
import CueCheck.Proofs.Finding
import CueCheck.Proofs.Report
import CueCheck.Proofs.Check.Views
import CueCheck.Proofs.LevelText.Decoding
import CueCheck.Proofs.LevelText.Truncation
import CueCheck.Proofs.LevelText.Progress
import CueCheck.Proofs.Binary64.Value
import CueCheck.Proofs.Binary64.Rounding
import CueCheck.Proofs.Binary64.Error
import CueCheck.Proofs.Cue.Ending
import CueCheck.Proofs.Cue.Drained
import CueCheck.Proofs.LevelText.Reading
import CueCheck.Proofs.Text.Numeral
import CueCheck.Proofs.LevelText.Written
import CueCheck.Proofs.LevelText.Token
import CueCheck.Proofs.LevelText.Stability
import CueCheck.Proofs.Sorting.Stable
import CueCheck.Proofs.Binary64.Place
import CueCheck.Proofs.RateTable.Ascending
import CueCheck.Proofs.RateTable.InForce
import CueCheck.Proofs.RateTable.Accumulation
import CueCheck.Proofs.RateTable.Inversion
import CueCheck.Proofs.RateTable.Split
import CueCheck.Proofs.RateTable.Position
import CueCheck.Proofs.Report.ReadBack
import CueCheck.Proofs.Level.Placement
import CueCheck.Proofs.Level.Failure
import CueCheck.Proofs.Level.Tables
import CueCheck.Proofs.Level.Numbers
import CueCheck.Proofs.Level.Selection
import CueCheck.Proofs.Level.Ignored
import CueCheck.Proofs.Level.Lanes
import CueCheck.Proofs.Level.Reordering
import CueCheck.Proofs.Level.Oneshots
import CueCheck.Proofs.Level.Presses
import CueCheck.Proofs.Cue.Period
import CueCheck.Proofs.Cue.Projection
import CueCheck.Proofs.Cue.Merging
import CueCheck.Proofs.Binary64.Near
import CueCheck.Proofs.Cue.Square
import CueCheck.Proofs.Beat.Holds
import CueCheck.Proofs.Beat.Overlaps
import CueCheck.Proofs.Beat.Excuse
import CueCheck.Proofs.Binary64.Distance
import CueCheck.Proofs.Cue.Numbers
import CueCheck.Proofs.Cue.Distinct
import CueCheck.Proofs.Finding.Once
import CueCheck.Proofs.Level.Waiting
import CueCheck.Proofs.Level.Drift
import CueCheck.Proofs.LevelText.Progress
import CueCheck.Proofs.LevelText.Damage
import CueCheck.Proofs.Binary64.Faithful
import CueCheck.Proofs.Binary64.Whole
import CueCheck.Proofs.RateTable.Whole
import CueCheck.Proofs.RateTable.InBar
import CueCheck.Proofs.Tolerance.Convexity
