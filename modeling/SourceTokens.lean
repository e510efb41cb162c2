import SourceTokens.Main
import SourceTokens.Task.Run
import SourceTokens.Proofs.Places
import SourceTokens.Proofs.Cuts
import SourceTokens.Proofs.Coverage
import SourceTokens.Proofs.Rebuilding
import SourceTokens.Proofs.RoundTrip
import SourceTokens.Proofs.Concatenation
import SourceTokens.Proofs.Completion
import SourceTokens.Proofs.Runs
import SourceTokens.Proofs.Brackets
import SourceTokens.Proofs.BlockTokens
import SourceTokens.Proofs.Statements
import SourceTokens.Proofs.Scrubbing
import SourceTokens.Proofs.NoiseLines
import SourceTokens.Proofs.DroppedText
import SourceTokens.Proofs.LineTails
import SourceTokens.Proofs.Terminators
import SourceTokens.Proofs.LineEnds
import SourceTokens.Proofs.LineReplay
import SourceTokens.Proofs.Rejoining
import SourceTokens.Proofs.Placement
import SourceTokens.Proofs.Exchanges
import SourceTokens.Proofs.CharacterBytes
import SourceTokens.Proofs.JsonNumbers
import SourceTokens.Proofs.JsonSpelling
import SourceTokens.Proofs.JsonDocuments
import SourceTokens.Proofs.Extents
import SourceTokens.Proofs.JsonRecords
import SourceTokens.Proofs.Replies
import SourceTokens.Proofs.ScrubbedForm
import SourceTokens.Proofs.WrittenPlaces
import SourceTokens.Proofs.Rejections
import SourceTokens.Proofs.ByteSources
import SourceTokens.Proofs.NumberGrammar
import SourceTokens.Proofs.LongestNumbers
import SourceTokens.Proofs.OpenStrings
import SourceTokens.Proofs.StringEnds
import SourceTokens.Proofs.EscapedBreaks
import SourceTokens.Proofs.CommentEnds
import SourceTokens.Proofs.TokenForms
import SourceTokens.Proofs.Displays
import SourceTokens.Proofs.RequestDocuments
import SourceTokens.Proofs.FileWalks
import SourceTokens.Proofs.FileChecks
import SourceTokens.Proofs.Differences
