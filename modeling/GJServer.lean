import GJServer.KVStorage.StorageSwap
import GJServer.Net.Delivery
import GJServer.Server.Handler
import GJServer.Server.Runtime
import GJServer.Server.Shutdown
import GJServer.Client.Command
import GJServer.Client.Runtime
import GJServer.Client.Reconnection
import GJServer.Client.Promise
import GJServer.Library.Linearization
import GJServer.System.Exchange
import GJServer.System.Run
import GJServer.System.Linearizable
import GJServer.System.Retry
import GJServer.Client.CommandFile
import GJServer.Server.Requests
import GJServer.System.CommandLine
import GJServer.KVStorage.Recovery
import GJServer.KVStorage.StoreFile
import GJServer.Server.Versions
import GJServer.Library.Channel
import GJServer.Server.Responses
import GJServer.Library.Window
import GJServer.Logging.Stat
import GJServer.Logging.Recount
import GJServer.Server.LogShutdown
import GJServer.Server.Lifetime
import GJServer.Client.Sending
import GJServer.Client.Answers
import GJServer.Server.Restarts
import GJServer.Library.Grouping
import GJServer.Logging.Conservation
import GJServer.Server.Rewrites
import GJServer.Concurrency.TimedTask
import GJServer.Logging.Reports
import GJServer.Library.Census
import GJServer.Library.Simulation
import GJServer.Net.Pipe
import GJServer.System.Bytes
import GJServer.System.Refinement
import GJServer.Library.ReadersWriter
import GJServer.KVStorage.Locked
import GJServer.Logging.Log
import GJServer.System.Isolation
import GJServer.System.Accounting
import GJServer.Server.Durability
import GJServer.System.Effects
import GJServer.System.Lives
import GJServer.System.Attempts
import GJServer.Server.Sessions
import GJServer.System.Scripts
import GJServer.Logging.Locked
import GJServer.System.Losses
import GJServer.System.Reconnections
