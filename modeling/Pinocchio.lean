import Pinocchio.Semantics.Transition
import Pinocchio.Semantics.Simulation
import Pinocchio.Semantics.History
import Pinocchio.Semantics.Stream
import Pinocchio.Semantics.Bytes
import Pinocchio.Redis.Value
import Pinocchio.Redis.Parser
import Pinocchio.Redis.Automaton
import Pinocchio.Redis.ParserPass
import Pinocchio.Redis.ParserRefinement
import Pinocchio.Redis.Reading
import Pinocchio.Redis.ParserErrors
import Pinocchio.Redis.Reply
import Pinocchio.Redis.Grammar
import Pinocchio.Redis.Soundness
import Pinocchio.Redis.Rejections
import Pinocchio.Redis.Command
import Pinocchio.Redis.Messages
import Pinocchio.Redis.Integers
import Pinocchio.Redis.ClientImpl
import Pinocchio.Redis.AsyncClient
import Pinocchio.Redis.AsyncWrites
import Pinocchio.Redis.AsyncAnswers
import Pinocchio.Redis.AsyncReplies
import Pinocchio.Redis.AsyncPairing
import Pinocchio.Redis.AsyncFailures
import Pinocchio.Redis.Subscriptions
import Pinocchio.Redis.SyncClient
import Pinocchio.Redis.SyncReplies
import Pinocchio.Redis.SyncFailures
import Pinocchio.Redis.SyncReturns
import Pinocchio.Redis.ParserProgress
import Pinocchio.Redis.ParserSafety
import Pinocchio.Database.Keyspace
import Pinocchio.Database.Manager
import Pinocchio.Database.Deliveries
import Pinocchio.Database.Losses
import Pinocchio.Database.Duplicates
import Pinocchio.Database.Cap
import Pinocchio.Database.Progress
import Pinocchio.Database.Service
import Pinocchio.Database.Order
import Pinocchio.Database.Keys
import Pinocchio.Database.Successes
import Pinocchio.Json.Dump
import Pinocchio.Json.Text
import Pinocchio.Json.Parser
import Pinocchio.Json.Numbers
import Pinocchio.Json.Strings
import Pinocchio.Json.Reading
import Pinocchio.Json.Writing
import Pinocchio.Json.Surrogates
import Pinocchio.Http.Routes
import Pinocchio.Http.Registration
import Pinocchio.Http.Receiving
import Pinocchio.Http.Bodies
import Pinocchio.Http.Contents
import Pinocchio.Http.Visibility
import Pinocchio.Http.Authorization
import Pinocchio.Http.Router
import Pinocchio.Http.Tokens
import Pinocchio.Http.Sending
import Pinocchio.Http.Startup
import Pinocchio.Crow.Trie
import Pinocchio.Semantics.Patterns
import Pinocchio.Crow.TrieSearch
import Pinocchio.Crow.TrieMerging
import Pinocchio.Crow.TrieAdding
import Pinocchio.Crow.Arguments
import Pinocchio.Crow.Routing
import Pinocchio.Http.Served
import Pinocchio.Crow.Connection
import Pinocchio.Crow.ConnectionSteps
import Pinocchio.Crow.ConnectionRuns
import Pinocchio.Crow.ConnectionEnds
import Pinocchio.Crow.Timers
import Pinocchio.Crow.HttpParser
import Pinocchio.Crow.HttpReading
import Pinocchio.Crow.HttpSafety
import Pinocchio.Crow.HttpCuts
import Pinocchio.Crow.HttpHeads
import Pinocchio.Crow.HttpMessages
import Pinocchio.Crow.Session
