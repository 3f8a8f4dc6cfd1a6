import Aos.Codec.Base64
import Aos.Codec.QP
import Aos.Codec.UU
import Aos.Str.MultiString
import Aos.Matcher.CharIndexer
import Aos.Mime.Body
import Aos.Mime.Lossless
import Aos.Mime.RoundTrip
import Aos.Mime.Agree
import Aos.Asir.Sbrs
import Aos.Lib.Feed
import Aos.Lib.Trace
import Aos.Mailer.Connection
import Aos.Mailer.DataPhase
import Aos.Mailer.Dialogue
import Aos.Matcher.Search
import Aos.Net.Http.Segments
import Aos.Net.Imap4.ClientIO
import Aos.Net.Imap4.Fetch
import Aos.Net.Smtp.EndOfData
import Aos.Net.Smtp.Reply
import Aos.Net.Smtp.Transaction
import Aos.Net.Smtp.Wire
import Aos.Container.SList
import Aos.Ipc.LocalStream
import Aos.Lib.Directory
import Aos.Lib.LineReader
import Aos.Lib.Runs
import Aos.Log.Accounting
import Aos.Mailer.Pool
import Aos.Matcher.Independent
import Aos.Matcher.Move2
import Aos.Net.Acceptor
import Aos.Net.Imap4.Login
import Aos.Net.Imap4.Loops
import Aos.Net.LineReaders
import Aos.Codec.LineLength
import Aos.Codec.UUBounds
import Aos.Lib.Multimap
import Aos.Lib.OrderedMap
import Aos.Mime.Addresses
import Aos.Net.Session
import Aos.Net.TcpConnection
import Aos.Net.TcpServer
import Aos.Svm.ServiceMonitor
import Aos.Codec.InPlace
import Aos.Lib.Occurrence
import Aos.Mime.Charset
import Aos.Mime.Counts
import Aos.Mime.HeaderOnly
import Aos.Mime.Hidden
import Aos.Str.QuotedGrammar
import Aos.Str.QuotedStringConverter
import Aos.Lib.Groups
import Aos.Lib.Spans
import Aos.Mime.Date
import Aos.Mime.DateText
import Aos.Mime.EncodedWords
import Aos.Mime.HostileAddresses
import Aos.Mime.Rendered
import Aos.Mime.Unfolding
import Aos.Mime.WordCharsets
import Aos.Str.TokenizerWalk
import Aos.Lib.Comparator
import Aos.Lib.Pieces
import Aos.Str.CaseFolding
import Aos.Str.Explode
import Aos.Str.Fields
import Aos.Str.NaturalOrder
import Aos.Str.TokenizerBounds
import Aos.Str.Trims
import Aos.Str.VarReplace
import Aos.Asir.IPv4
import Aos.Asir.ServerConnection
import Aos.Hash.FNV
import Aos.Log.Quota
import Aos.Log.Rotation
import Aos.Mime.Hash
import Aos.Net.Http.Body
import Aos.Net.Imap4.Commands
import Aos.Net.Smtp.WouldBlock
import Aos.Str.CharSet
import Aos.Lib.Calendar
import Aos.Lib.Folders
import Aos.Lib.Memory
import Aos.Lib.OpenFile
import Aos.Log.Period
import Aos.Log.Recognition
import Aos.Mime.AddHeader
import Aos.Mime.ExportFile
import Aos.Mime.Reencode
import Aos.Mp.Worker
import Aos.Net.CommandWriters
import Aos.Net.Http.ResponseBlock
import Aos.Os.Mkdir
import Aos.Lib.Blocks
import Aos.Lib.Trie
import Aos.Matcher.NodeCalls
import Aos.Matcher.NodeRuns
import Aos.Mboxd.MailProcessor
import Aos.Lib.Moves
import Aos.Lib.WorkQueue
import Aos.Mboxd.Entries
import Aos.Mboxd.Filing
import Aos.Mailer.Delivery
import Aos.Ipc.Service
import Aos.Lib.Ownership
import Aos.Mime.DateTime
import Aos.Net.TcpClient
import Aos.Svm.Commands
import Aos.Matcher.Interleaved
import Aos.Lib.Links
