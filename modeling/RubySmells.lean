import RubySmells.Conversion.Recursive
import RubySmells.Main
import RubySmells.Proofs.Agreement
import RubySmells.Proofs.ChainReports
import RubySmells.Proofs.Comments
import RubySmells.Proofs.Conversions
import RubySmells.Proofs.Counting
import RubySmells.Proofs.Depth
import RubySmells.Proofs.Exchange
import RubySmells.Proofs.Expansion
import RubySmells.Proofs.FailFast
import RubySmells.Proofs.FirstFault
import RubySmells.Proofs.Headers
import RubySmells.Proofs.Interchange
import RubySmells.Proofs.Listings
import RubySmells.Proofs.Liveness
import RubySmells.Proofs.Messages
import RubySmells.Proofs.NodeText
import RubySmells.Proofs.Openings
import RubySmells.Proofs.Origins
import RubySmells.Proofs.Parentheses
import RubySmells.Proofs.Quoting
import RubySmells.Proofs.ReadingOrder
import RubySmells.Proofs.Requests
import RubySmells.Proofs.Resolution
import RubySmells.Proofs.ScopeStack
import RubySmells.Proofs.Sequences
import RubySmells.Proofs.Shape
import RubySmells.Proofs.Sizes
import RubySmells.Proofs.Targets
import RubySmells.Proofs.Visits
import RubySmells.Script
import RubySmells.Tree.MassCache
