import Lss.Container.Document
import Lss.Files.Disk
import Lss.Lifting.Round
import Lss.Main
import Lss.Tree.View
import Lss.Proofs.Integrity
import Lss.Proofs.Sites
import Lss.Proofs.Restored
import Lss.Proofs.RoundTrip
import Lss.Proofs.Canonical
import Lss.Proofs.Spelling
import Lss.Proofs.Truncation
import Lss.Proofs.Formed
import Lss.Proofs.ParsedExpr
import Lss.Proofs.ParsedUnit
import Lss.Proofs.PrintedExpr
import Lss.Proofs.PrintedUnit
import Lss.Proofs.Reprinted
import Lss.Proofs.Decompiled
import Lss.Proofs.Accepted
import Lss.Proofs.Isolated
import Lss.Proofs.Uncaptured
import Lss.Proofs.Rounds
import Lss.Proofs.Scanned
import Lss.Proofs.Patched
import Lss.Proofs.Interned
import Lss.Proofs.Staged
import Lss.Proofs.Accumulated
import Lss.Proofs.Mentions
import Lss.Proofs.Stripped
import Lss.Proofs.Vocabulary
import Lss.Proofs.Denoted
import Lss.Proofs.FollowedBody
import Lss.Proofs.FollowedUnit
import Lss.Proofs.Ordered
import Lss.Proofs.Chains
import Lss.Proofs.Layouts
import Lss.Proofs.Relinked
import Lss.Proofs.Outlined
import Lss.Proofs.Joined
import Lss.Proofs.Marked
import Lss.Proofs.Repeated
import Lss.Proofs.Framed
import Lss.Proofs.Reached
import Lss.Proofs.Drawn
import Lss.Proofs.DrawnUnit
import Lss.Proofs.Hygienic
import Lss.Proofs.Accessed
import Lss.Proofs.Referenced
import Lss.Proofs.Effects
import Lss.Proofs.StackRules
import Lss.Proofs.Stretches
import Lss.Proofs.Linear
import Lss.Proofs.LinearCode
import Lss.Proofs.Conserved
import Lss.Proofs.Flattened
import Lss.Proofs.Kept
import Lss.Proofs.Mirrored
import Lss.Proofs.Unwound
import Lss.Proofs.Lexical
import Lss.Proofs.Declarations
import Lss.Proofs.Guarded
import Lss.Proofs.Flows
import Lss.Proofs.Refolded
import Lss.Proofs.Vanished
import Lss.Proofs.Quotes
import Lss.Proofs.Inferred
import Lss.Proofs.Omitted
import Lss.Proofs.Within
import Lss.Proofs.Scoped
import Lss.Proofs.Closed
import Lss.Proofs.LoopCode
import Lss.Proofs.LoopSlots
import Lss.Proofs.LoopsLowered
import Lss.Proofs.LoopsRestored
import Lss.Proofs.Exchanged
import Lss.Proofs.Numerals
import Lss.Proofs.Carried
import Lss.Proofs.Placeless
import Lss.Proofs.Unplaced
import Lss.Proofs.Paths
import Lss.Proofs.Projected
import Lss.Proofs.Probed
import Lss.Proofs.Narrowed
import Lss.Proofs.Expanded
import Lss.Proofs.ReadFrom
import Lss.Proofs.Spanned
import Lss.Proofs.SpannedUnit
import Lss.Proofs.WalkedUnit
