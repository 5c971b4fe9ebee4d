import Hiaux.Lib.Bytes
import Hiaux.Lib.Machine
import Hiaux.Lib.Reader
import Hiaux.Lib.Framing
import Hiaux.Lib.Frames
import Hiaux.Lib.Pairing
import Hiaux.Lib.Suffix
import Hiaux.Lib.Run
import Hiaux.Lib.Loop
import Hiaux.Lib.Fifo
import Hiaux.Lib.Delimited
import Hiaux.Lib.LastWrite
import Hiaux.Lib.Percent
import Hiaux.Lib.Parties
import Hiaux.Lib.Lookup
import Hiaux.Lib.Tokens
import Hiaux.Lib.CharBuffer
import Hiaux.Lib.Replacement
import Hiaux.Lib.Escapes
import Hiaux.Lib.Blocks
import Hiaux.Lib.ByteOrder
import Hiaux.Strings.Numbers
import Hiaux.Strings.AhoCorasick
import Hiaux.Strings.StringUtils
import Hiaux.Strings.Utf8
import Hiaux.Strings.Utf8Strings
import Hiaux.Strings.Utf8Repair
import Hiaux.Strings.Edits
import Hiaux.Strings.Names
import Hiaux.Strings.RefParser
import Hiaux.Crypt.Sha1
import Hiaux.Crypt.Base64
import Hiaux.Crypt.Md5
import Hiaux.Network.Socket
import Hiaux.Network.HttpClient
import Hiaux.Network.HttpClientAsync
import Hiaux.Network.HttpOutReqDisp
import Hiaux.Network.Descriptors
import Hiaux.Network.Correctness.Phases
import Hiaux.Network.Correctness.Dispatcher
import Hiaux.Network.Correctness.Bodies
import Hiaux.Network.Correctness.Destructors
import Hiaux.HttpServer.ConnectionParsing
import Hiaux.HttpServer.Connection
import Hiaux.HttpServer.HttpRouter
import Hiaux.HttpServer.Server
import Hiaux.HttpServer.Program
import Hiaux.HttpServer.Correctness.Segmentation
import Hiaux.HttpServer.Correctness.Messages
import Hiaux.HttpServer.Correctness.Close
import Hiaux.HttpServer.Correctness.Ownership
import Hiaux.HttpServer.Correctness.Dispatch
import Hiaux.HttpServer.Correctness.Drain
import Hiaux.HttpServer.Correctness.Order
import Hiaux.HttpServer.Correctness.Lock
import Hiaux.HttpServer.Correctness.Headers
import Hiaux.HttpServer.Correctness.Routes
import Hiaux.HttpServer.Correctness.Effects
import Hiaux.HttpServer.Correctness.Answers
import Hiaux.HttpServer.Correctness.Reuse
import Hiaux.HttpServer.Correctness.Exceptions
import Hiaux.HttpServer.Correctness.Removal
import Hiaux.HttpServer.Correctness.Watched
import Hiaux.HttpServer.Correctness.Listening
import Hiaux.HttpServer.Correctness.Masks
import Hiaux.HttpServer.Correctness.Intake
import Hiaux.BinClient.Parser
import Hiaux.BinClient.Correctness.Framing
import Hiaux.BinClient.Request
import Hiaux.BinServer.Parser
import Hiaux.BinServer.Correctness.Framing
import Hiaux.BinClient.Connection
import Hiaux.BinClient.BinClientA
import Hiaux.BinClient.WatchedClient
import Hiaux.BinClient.Correctness.Requests
import Hiaux.BinClient.Correctness.Wire
import Hiaux.BinClient.Correctness.SendBuffer
import Hiaux.BinServer.Correctness.SizeLines
import Hiaux.BinClient.Correctness.ReceiveLoop
import Hiaux.HttpApi.PostData
import Hiaux.HttpApi.HttpApi
import Hiaux.HttpApi.Correctness.Registration
import Hiaux.HttpApi.Correctness.Authentication
import Hiaux.HttpApi.Correctness.Signature
import Hiaux.HttpApi.Correctness.LastRegistration
import Hiaux.HttpApi.ApiServer
import Hiaux.HttpApi.Correctness.Answered
import Hiaux.HttpApi.HttpApiClient
import Hiaux.HttpApi.Correctness.PostBody
import Hiaux.HttpApi.Correctness.SignedUrl
import Hiaux.HttpApi.Correctness.BinaryReplies
import Hiaux.Crypt.Correctness.Digests
import Hiaux.Crypt.Correctness.Base64Codec
import Hiaux.Crypt.Correctness.Md5Digest
import Hiaux.Crypt.Correctness.Sha1Digest
import Hiaux.Lib.LevelOrder
import Hiaux.Lib.Occurrences
import Hiaux.Lib.Pieces
import Hiaux.Strings.Correctness.Trie
import Hiaux.Strings.Correctness.FailLinks
import Hiaux.Strings.Correctness.FindMatches
import Hiaux.Strings.Correctness.LongestSuffixes
import Hiaux.Strings.Correctness.ParseGET
import Hiaux.Strings.Correctness.Queries
import Hiaux.Strings.Correctness.RoundTrip
import Hiaux.Strings.Correctness.Parameters
import Hiaux.Strings.Correctness.Escaping
import Hiaux.Strings.Correctness.Tokens
import Hiaux.Strings.Correctness.Utf8Codec
import Hiaux.Strings.Correctness.Utf8Text
import Hiaux.Strings.Correctness.SplitUtf8
import Hiaux.Strings.Correctness.Normalisers
import Hiaux.Strings.Correctness.Repair
import Hiaux.Strings.Correctness.Parts
import Hiaux.Strings.Correctness.Trimming
import Hiaux.Strings.Correctness.Squeezing
import Hiaux.Strings.Correctness.Replacing
import Hiaux.Strings.Correctness.Quoting
import Hiaux.Strings.Correctness.FileNames
import Hiaux.Strings.Correctness.DomainNames
import Hiaux.Strings.Correctness.Phrases
import Hiaux.LoadConf.LoadConf
import Hiaux.LoadConf.Correctness.Templates
import Hiaux.LoadConf.Correctness.Parameters
import Hiaux.Lib.Threads
import Hiaux.Threads.TaskLauncher
import Hiaux.Threads.Correctness.Counters
import Hiaux.Threads.Correctness.Launch
import Hiaux.Threads.Correctness.Finish
import Hiaux.Threads.Correctness.OnFinished
import Hiaux.Threads.ThreadPool
import Hiaux.Threads.Correctness.Pool
import Hiaux.Threads.Correctness.Tasks
import Hiaux.Threads.Correctness.Waking
import Hiaux.Threads.Correctness.Stranded
import Hiaux.Threads.Locks
import Hiaux.Threads.Correctness.Guards
import Hiaux.Events.Masks
import Hiaux.Events.EventWatcherEpoll
import Hiaux.Events.EventWatcherKqueue
import Hiaux.Events.Correctness.EnabledEvents
import Hiaux.Tools.RegularTask
import Hiaux.Tools.Correctness.Periods
import Hiaux.BinClient.Correctness.Destruction
import Hiaux.BinClient.Correctness.Delivery
import Hiaux.BinClient.Correctness.Callbacks
import Hiaux.BinClient.Correctness.Missing
import Hiaux.BinClient.Correctness.Tables
import Hiaux.Hiapi.Exchange
import Hiaux.Hiapi.ClientServer
import Hiaux.Hiapi.Correctness.Service
import Hiaux.Hiapi.Correctness.EndToEnd
import Hiaux.UrlParser.ParsedUrl
import Hiaux.UrlParser.Correctness.Grammar
import Hiaux.UrlParser.Correctness.Forms
