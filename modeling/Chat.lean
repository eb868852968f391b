import Chat.Lib.Transition
import Chat.Lib.Lines
import Chat.Lib.Traversal
import Chat.Lib.Mutex
import Chat.Connection
import Chat.Stream
import Chat.Broadcast
import Chat.Delivery
import Chat.Lib.Tally
import Chat.Lib.Simulation
import Chat.Lib.PubSub
import Chat.Lib.Decimal
import Chat.Refinement
import Chat.Agreement
import Chat.QueueUse
import Chat.Semaphore
import Chat.Crash
import Chat.Drain
import Chat.Progress
import Chat.QueueHistory
import Chat.Subscripts
import Chat.RealTime
import Chat.Requests
import Chat.SenderMachine
import Chat.SenderSession
import Chat.Frames
import Chat.Transmission
import Chat.Client
import Chat.Clients
import Chat.EndToEnd
import Chat.Transcript
import Chat.Noninterference
import Chat.Conversation
import Chat.Dialogue
import Chat.Framing
import Chat.Disconnect
import Chat.Departure
import Chat.Splitting
import Chat.ShownNames
import Chat.UnknownTags
import Chat.ReceiversOnly
import Chat.Descriptor
import Chat.Closing
import Chat.Exclusion
import Chat.Deadlock
import Chat.Isolation
import Chat.BroadcastFrame
import Chat.Lockstep
import Chat.CommandLine
import Chat.EndOfInput
import Chat.Sev
import Chat.Workers
import Chat.Port
import Chat.Sockets
import Chat.Programs
import Chat.Solo
