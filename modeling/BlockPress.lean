import BlockPress.Block.Config
import BlockPress.Block.Reader
import BlockPress.Block.Writer
import BlockPress.Buffer
import BlockPress.Checksum
import BlockPress.Column
import BlockPress.Decimal.Binary
import BlockPress.Decimal.Fixed
import BlockPress.Decimal.Shortest
import BlockPress.Device.Sink
import BlockPress.Device.Source
import BlockPress.Entropy.BitTree
import BlockPress.Entropy.Chance
import BlockPress.Entropy.Code
import BlockPress.Entropy.Coder
import BlockPress.Entropy.Context
import BlockPress.Entropy.RangeReader
import BlockPress.Entropy.RangeWriter
import BlockPress.Entropy.Register
import BlockPress.Entropy.Tape
import BlockPress.Failure
import BlockPress.Frame.Header
import BlockPress.Frame.Pack
import BlockPress.Frame.Reader
import BlockPress.Frame.Writer
import BlockPress.Main
import BlockPress.Proofs.Block.Blocks
import BlockPress.Proofs.Block.Calls
import BlockPress.Proofs.Block.Taped
import BlockPress.Proofs.Column
import BlockPress.Proofs.Column.Cycle
import BlockPress.Proofs.Counting
import BlockPress.Proofs.Device.Alike
import BlockPress.Proofs.Entropy.Alike
import BlockPress.Proofs.Entropy.Bounds
import BlockPress.Proofs.Entropy.Capacity
import BlockPress.Proofs.Entropy.Carry
import BlockPress.Proofs.Entropy.Consuming
import BlockPress.Proofs.Entropy.Delivery
import BlockPress.Proofs.Entropy.Descent
import BlockPress.Proofs.Entropy.Exactness
import BlockPress.Proofs.Entropy.Failing
import BlockPress.Proofs.Entropy.Interval
import BlockPress.Proofs.Entropy.Number
import BlockPress.Proofs.Entropy.RoundTrip
import BlockPress.Proofs.Entropy.Steps
import BlockPress.Proofs.Entropy.Stream
import BlockPress.Proofs.Entropy.Symbol
import BlockPress.Proofs.Entropy.Tape
import BlockPress.Proofs.Entropy.Tracking
import BlockPress.Proofs.Extracts
import BlockPress.Proofs.Frame.Accepted
import BlockPress.Proofs.Frame.Alike
import BlockPress.Proofs.Frame.Capacity
import BlockPress.Proofs.Frame.Ending
import BlockPress.Proofs.Frame.Header
import BlockPress.Proofs.Frame.Reading
import BlockPress.Proofs.Frame.RoundTrip
import BlockPress.Proofs.Frame.Streaming
import BlockPress.Proofs.Frame.Truncation
import BlockPress.Proofs.Frame.Writing
import BlockPress.Proofs.Guarded.Basic
import BlockPress.Proofs.Guarded.Blocks
import BlockPress.Proofs.Guarded.Coder
import BlockPress.Proofs.Guarded.Column
import BlockPress.Proofs.Guarded.Frame
import BlockPress.Proofs.Guarded.Ranks
import BlockPress.Proofs.Guarded.Sorter
import BlockPress.Proofs.Guarded.Stack
import BlockPress.Proofs.Guarded.Tape
import BlockPress.Proofs.Guarded.VisitOrder
import BlockPress.Proofs.Guarded.Writer
import BlockPress.Proofs.Loops
import BlockPress.Proofs.Rank.Alike
import BlockPress.Proofs.Rank.Canonical
import BlockPress.Proofs.Rank.Capacity
import BlockPress.Proofs.Rank.Code
import BlockPress.Proofs.Rank.Growth
import BlockPress.Proofs.Rank.Items
import BlockPress.Proofs.Rank.Reading
import BlockPress.Proofs.Rank.Rounds
import BlockPress.Proofs.Rank.Stray
import BlockPress.Proofs.Rank.Writing
import BlockPress.Proofs.Recency
import BlockPress.Proofs.Recency.History
import BlockPress.Proofs.Rotation.Building
import BlockPress.Proofs.Rotation.Filling
import BlockPress.Proofs.Rotation.Groups
import BlockPress.Proofs.Rotation.Keys
import BlockPress.Proofs.Rotation.Multikey
import BlockPress.Proofs.Rotation.Reading
import BlockPress.Proofs.Rotation.Reuse
import BlockPress.Proofs.Rotation.Seeding
import BlockPress.Proofs.Rotation.Sorted
import BlockPress.Proofs.Rotation.Stack
import BlockPress.Proofs.Rotation.Staged
import BlockPress.Proofs.Rotation.Tagging
import BlockPress.Proofs.Rotation.Twins
import BlockPress.Proofs.Rotation.VisitOrder
import BlockPress.Proofs.Rotation.Visits
import BlockPress.Proofs.Runs
import BlockPress.Proofs.Shell.Commands
import BlockPress.Proofs.Shell.FileSystem
import BlockPress.Proofs.Shell.Packing
import BlockPress.Proofs.Shell.Preserving
import BlockPress.Proofs.Shell.Restraint
import BlockPress.Proofs.Sorting.Listed
import BlockPress.Proofs.Sorting.Partition
import BlockPress.Proofs.Sorting.Quick
import BlockPress.Proofs.Sorting.Rearranging
import BlockPress.Proofs.Sorting.Stack
import BlockPress.Proofs.Word
import BlockPress.Rank.Code
import BlockPress.Rank.Reader
import BlockPress.Rank.Writer
import BlockPress.Recency
import BlockPress.Rotation.Groups
import BlockPress.Rotation.KeyTable
import BlockPress.Rotation.Multikey
import BlockPress.Rotation.Order
import BlockPress.Rotation.Sorter
import BlockPress.Shell.Arguments
import BlockPress.Shell.Command
import BlockPress.Shell.Fault
import BlockPress.Shell.FileSystem
import BlockPress.Shell.Overwriting
import BlockPress.Shell.Path
import BlockPress.Shell.Request
import BlockPress.Shell.Run
import BlockPress.Shell.Session
import BlockPress.Shell.StreamInfo
import BlockPress.Sorting.Insertion
import BlockPress.Sorting.Partition
import BlockPress.Sorting.Quick
import BlockPress.Sorting.Span
import BlockPress.Standard
import BlockPress.Text.Digits
import BlockPress.Text.Hex
import BlockPress.Text.Quoted
