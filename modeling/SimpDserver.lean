import SimpDserver.Lib.Transition
import SimpDserver.Lib.TicketLine
import SimpDserver.Ring.Code
import SimpDserver.Ring.Threads
import SimpDserver.Ring.Access
import SimpDserver.Ring.Tickets
import SimpDserver.Ring.Safety
import SimpDserver.Ring.Create
import SimpDserver.Ring.AlignPow2
import SimpDserver.Ring.ManyConsumers
import SimpDserver.Ring.OneConsumer
import SimpDserver.Lib.BoundedQueue
import SimpDserver.Ring.Fifo
import SimpDserver.Ring.Publication
import SimpDserver.Lib.RedBlack
import SimpDserver.Hashmap.RbTree
import SimpDserver.Hashmap.Strings
import SimpDserver.Hashmap.RbShape
import SimpDserver.Hashmap.Core
import SimpDserver.Hashmap.Buckets
import SimpDserver.Hashmap.Calls
import SimpDserver.Hashmap.FirstWrite
import SimpDserver.Hashmap.Balance
import SimpDserver.Lib.CircularList
import SimpDserver.Common.Node
import SimpDserver.Work.Parser
import SimpDserver.Bundle.WriteBack
import SimpDserver.Forward.Code
import SimpDserver.Forward.Table
import SimpDserver.Work.Query
import SimpDserver.Lib.Traced
import SimpDserver.Work.LabelLoop
import SimpDserver.Forward.RoundTrip
import SimpDserver.Forward.Response
import SimpDserver.Lib.DnsMessage
import SimpDserver.Bundle.ReplyFormat
import SimpDserver.Forward.Unmatched
import SimpDserver.Lib.FifoMultimap
import SimpDserver.Forward.PendingFifo
import SimpDserver.Forward.QuestionEnd
import SimpDserver.Forward.Exchange
import SimpDserver.Forward.OldestTaken
import SimpDserver.Lib.Custody
import SimpDserver.Pipeline.Code
import SimpDserver.Pipeline.Steps
import SimpDserver.Work.WellFormed
import SimpDserver.Pipeline.SingleOwner
import SimpDserver.Pipeline.Orphans
import SimpDserver.Work.HostRoom
import SimpDserver.Work.Accepted
import SimpDserver.Forward.Walk
import SimpDserver.Forward.ReadsInside
import SimpDserver.Forward.Records
import SimpDserver.Forward.Sections
import SimpDserver.Hashmap.Entries
import SimpDserver.Hashmap.NonZero
import SimpDserver.Lib.ThreeWay
import SimpDserver.Hashmap.KeyOrder
import SimpDserver.Cache.Key
import SimpDserver.Cache.Config
import SimpDserver.Cache.Code
import SimpDserver.Cache.Absent
import SimpDserver.Lib.RedBlackErase
import SimpDserver.Hashmap.RbErase
import SimpDserver.Hashmap.RbEraseColor
import SimpDserver.Hashmap.RbUnlink
import SimpDserver.Hashmap.RbSequence
import SimpDserver.Hashmap.RbRuns
import SimpDserver.Lib.Simulation
import SimpDserver.Ring.QueueView
import SimpDserver.Pipeline.Threaded
import SimpDserver.Pipeline.ThreadControl
import SimpDserver.Pipeline.ThreadedRefines
import SimpDserver.Pipeline.ThreadedRuns
import SimpDserver.Lib.RwLock
import SimpDserver.Lib.AtomicObject
import SimpDserver.Hashmap.Locked
import SimpDserver.Hashmap.LockedSound
import SimpDserver.Hashmap.LockedDecides
import SimpDserver.Hashmap.Linearizable
import SimpDserver.Work.Asked
import SimpDserver.Cache.Loader
import SimpDserver.Cache.Lookup
import SimpDserver.Pipeline.Changes
import SimpDserver.Pipeline.Origin
import SimpDserver.Pipeline.Configured
import SimpDserver.Work.Recursive
import SimpDserver.Pipeline.Relay
import SimpDserver.Pipeline.Drain
import SimpDserver.Pipeline.Answered
