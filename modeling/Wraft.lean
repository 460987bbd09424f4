import Wraft.Browser.LocalStorage
import Wraft.Consensus.Commit
import Wraft.Consensus.Completeness
import Wraft.Consensus.Election
import Wraft.Consensus.Protocol
import Wraft.Consensus.Turn
import Wraft.ForMathlib.EStateM
import Wraft.ForMathlib.Guards
import Wraft.ForMathlib.Majority
import Wraft.ForMathlib.Nth
import Wraft.ForMathlib.Run
import Wraft.ForMathlib.Window
import Wraft.Introducer.Announcements
import Wraft.Introducer.Calls
import Wraft.Introducer.Channels
import Wraft.Introducer.ChannelsSpec
import Wraft.Introducer.Panics
import Wraft.Introducer.Presence
import Wraft.Introducer.Routing
import Wraft.Introducer.Socket
import Wraft.Raft.Acknowledgement
import Wraft.Raft.Answers
import Wraft.Raft.Application
import Wraft.Raft.Availability
import Wraft.Raft.Ballot
import Wraft.Raft.Bootstrap
import Wraft.Raft.Campaign
import Wraft.Raft.CatchUp
import Wraft.Raft.Changes
import Wraft.Raft.Cluster
import Wraft.Raft.CommitRule
import Wraft.Raft.Effects
import Wraft.Raft.Exchange
import Wraft.Raft.Follows
import Wraft.Raft.History
import Wraft.Raft.Linearization
import Wraft.Raft.LogWrites
import Wraft.Raft.Message
import Wraft.Raft.Node
import Wraft.Raft.Pacing
import Wraft.Raft.Progress
import Wraft.Raft.Provenance
import Wraft.Raft.Reaction
import Wraft.Raft.Refinement
import Wraft.Raft.Repair
import Wraft.Raft.Replication
import Wraft.Raft.Requests
import Wraft.Raft.Safety
import Wraft.Raft.Sessions
import Wraft.Raft.Simulation
import Wraft.Raft.StateMachine
import Wraft.Raft.Storage
import Wraft.Raft.StorageSpec
import Wraft.Raft.Terms
import Wraft.Raft.Voting
import Wraft.Raft.Worker
import Wraft.Raft.WorkerSpec
import Wraft.Todo.Callback
import Wraft.Todo.Editing
import Wraft.Todo.Page
import Wraft.Todo.Pages
import Wraft.Todo.Positions
import Wraft.Todo.State
import Wraft.Todo.Totality
import Wraft.WebrtcRpc.Completion
import Wraft.WebrtcRpc.Correlation
import Wraft.WebrtcRpc.DoubleIntroduction
import Wraft.WebrtcRpc.Introduction
import Wraft.WebrtcRpc.LateSignalling
import Wraft.WebrtcRpc.RingBuf
import Wraft.WebrtcRpc.Transport
import Wraft.WebrtcRpc.Wraparound
