import Draconity.Lib.OrdSet
import Draconity.Lib.Runs
import Draconity.Lib.Pairing
import Draconity.Lib.Courier
import Draconity.Lib.Keyed
import Draconity.Lib.Mailbox
import Draconity.Lib.Barrier
import Draconity.Lib.Bystander
import Draconity.Lib.Frames
import Draconity.Lib.Buffer
import Draconity.Lib.Reconcile
import Draconity.Lib.Renaming
import Draconity.Lib.Signed
import Draconity.Lib.Rounding
import Draconity.Lib.Walk
import Draconity.Lib.Gate
import Draconity.Lib.Places
import Draconity.Lib.Scan
import Draconity.Lib.Once
import Draconity.Lib.Processor
import Draconity.Types
import Draconity.Micstate
import Draconity.Dragon
import Draconity.Grammar
import Draconity.SyncGrammar
import Draconity.State
import Draconity.Calls
import Draconity.Loading
import Draconity.Tied
import Draconity.Handles
import Draconity.Server
import Draconity.EventLoop
import Draconity.Frame
import Draconity.Commands
import Draconity.Store
import Draconity.SyncGrammars
import Draconity.Shadow
import Draconity.Sound
import Draconity.AllOrNothing
import Draconity.Orphans
import Draconity.Success
import Draconity.Lists
import Draconity.Words
import Draconity.Pause
import Draconity.Resume
import Draconity.Paused
import Draconity.Unset
import Draconity.Parts
import Draconity.Tokens
import Draconity.Answers
import Draconity.WordAnswers
import Draconity.Vocabulary
import Draconity.Logged
import Draconity.PausedWords
import Draconity.Disconnect
import Draconity.Departure
import Draconity.Requests
import Draconity.Mimics
import Draconity.Issues
import Draconity.Unknown
import Draconity.Transport
import Draconity.Receive
import Draconity.Auth
import Draconity.Stream
import Draconity.Hub
import Draconity.System
import Draconity.Steady
import Draconity.Delivery
import Draconity.Streams
import Draconity.Unauthenticated
import Draconity.Peers
import Draconity.CodeHook
import Draconity.ListBuffer
import Draconity.PhraseBuffer
import Draconity.MimicBuffer
import Draconity.WordList
import Draconity.Decoding
import Draconity.Renamed
import Draconity.Shown
import Draconity.AnyOrder
import Draconity.ForeignRules
import Draconity.Patching
import Draconity.MonotonicTime
import Draconity.Objects
import Draconity.Results
import Draconity.Phrase
import Draconity.Isolation
import Draconity.Shim
import Draconity.Engaged
import Draconity.Ready
import Draconity.Draining
import Draconity.Trampoline
import Draconity.Hooks
import Draconity.Install
import Draconity.Lifetimes
import Draconity.WordCalls
import Draconity.Transactions
import Draconity.Delta
