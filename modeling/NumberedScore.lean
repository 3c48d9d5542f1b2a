import NumberedScore.Lexer
import NumberedScore.Main
import NumberedScore.Mark.Scan
import NumberedScore.Playback.Performance
import NumberedScore.Score
import NumberedScore.Text.Excerpt
import NumberedScore.Text.Search
import NumberedScore.Proofs.Binary64.Finite
import NumberedScore.Proofs.Binary64.Order
import NumberedScore.Proofs.Binary64.Power
import NumberedScore.Proofs.Lexer
import NumberedScore.Proofs.Mark.Canonical
import NumberedScore.Proofs.Mark.Grammar
import NumberedScore.Proofs.Mark.Length
import NumberedScore.Proofs.Mark.Scan
import NumberedScore.Proofs.Mark.Written
import NumberedScore.Proofs.Playback.Append
import NumberedScore.Proofs.Playback.Duration
import NumberedScore.Proofs.Playback.Ending
import NumberedScore.Proofs.Playback.Extent
import NumberedScore.Proofs.Playback.Independence
import NumberedScore.Proofs.Playback.Inert
import NumberedScore.Proofs.Playback.Music
import NumberedScore.Proofs.Playback.Order
import NumberedScore.Proofs.Playback.Returns
import NumberedScore.Proofs.Playback.Straight
import NumberedScore.Proofs.Playback.Tally
import NumberedScore.Proofs.Playback.Walk
import NumberedScore.Proofs.Playback.WrittenOut
import NumberedScore.Proofs.Score
import NumberedScore.Proofs.Text.LineTable
import NumberedScore.Proofs.Token
import NumberedScore.Proofs.Locality
import NumberedScore.Proofs.Text.Excerpt
import NumberedScore.Proofs.CommandLine.Run
import NumberedScore.Proofs.Playback.History
import NumberedScore.Proofs.Playback.Clock
import NumberedScore.Proofs.Playback.Strokes
import NumberedScore.Proofs.Playback.Transposition
import NumberedScore.Proofs.Playback.Held
import NumberedScore.Proofs.Playback.Ties
import NumberedScore.Proofs.Binary64.Faithful
import NumberedScore.Proofs.Binary64.Nearest
import NumberedScore.Proofs.Binary64.Exp2
import NumberedScore.Proofs.Tuning
import NumberedScore.Proofs.Playback.Silence
import NumberedScore.Proofs.Decimal
import NumberedScore.Proofs.Mark.Exclusive
import NumberedScore.Proofs.Mark.Rewriting
import NumberedScore.Proofs.Playback.Refusal
import NumberedScore.Proofs.Text.Position
import NumberedScore.Proofs.Text.Lines
import NumberedScore.Proofs.Alignment
