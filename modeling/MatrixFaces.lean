import MatrixFaces.Foundation.Bytes
import MatrixFaces.Foundation.CText
import MatrixFaces.Foundation.AddressSpace
import MatrixFaces.Foundation.Base64
import MatrixFaces.Foundation.BitString
import MatrixFaces.Foundation.BlockStream
import MatrixFaces.Foundation.BoundedFifo
import MatrixFaces.Foundation.CMemory
import MatrixFaces.Foundation.Clock32
import MatrixFaces.Foundation.EvictingRing
import MatrixFaces.Foundation.Framing
import MatrixFaces.Foundation.Fuel
import MatrixFaces.Foundation.History
import MatrixFaces.Foundation.JsNumber
import MatrixFaces.Foundation.JsonDoc
import MatrixFaces.Foundation.JsonText
import MatrixFaces.Foundation.LittleEndian
import MatrixFaces.Foundation.LossyLog
import MatrixFaces.Foundation.Machine
import MatrixFaces.Foundation.Objects
import MatrixFaces.Foundation.ReplayWindow
import MatrixFaces.Foundation.SecureHash
import MatrixFaces.Foundation.ShiftRegister
import MatrixFaces.Foundation.SlotTable
import MatrixFaces.Foundation.WrappedSum
import MatrixFaces.ApiAuth.AuthHeader
import MatrixFaces.ApiAuth.HeaderGrammar
import MatrixFaces.ApiAuth.Hex
import MatrixFaces.ApiAuth.RequestSig
import MatrixFaces.ApiAuth.Sha256
import MatrixFaces.ApiAuth.Sha256Memory
import MatrixFaces.ApiAuth.Sha256Standard
import MatrixFaces.ApiAuth.Sha256Stream
import MatrixFaces.Browser.Sha256
import MatrixFaces.Browser.Signing
import MatrixFaces.Apps.BoundSettings
import MatrixFaces.Apps.SettingAt
import MatrixFaces.Apps.Settings
import MatrixFaces.Board.BusyShare
import MatrixFaces.Board.Button
import MatrixFaces.Board.CommandQueue
import MatrixFaces.Board.EventQueue
import MatrixFaces.Board.EventTasks
import MatrixFaces.Board.FlashBlock
import MatrixFaces.Board.MetricsCounters
import MatrixFaces.Board.NetLink
import MatrixFaces.Board.Ring
import MatrixFaces.Storage.BlobBursts
import MatrixFaces.Storage.Persistence
import MatrixFaces.Storage.QuietTimer
import MatrixFaces.Storage.RecordBlob
import MatrixFaces.Storage.SettingsStore
import MatrixFaces.Api.AcceptKey
import MatrixFaces.Api.Access
import MatrixFaces.Api.AccessRuns
import MatrixFaces.Api.AccessTrace
import MatrixFaces.Api.AuthRuns
import MatrixFaces.Api.Authenticator
import MatrixFaces.Api.CredentialRuns
import MatrixFaces.Api.CredentialStore
import MatrixFaces.Api.CredentialTable
import MatrixFaces.Api.Dispatch
import MatrixFaces.Api.EventRuns
import MatrixFaces.Api.FaithfulRequest
import MatrixFaces.Api.HeaderLines
import MatrixFaces.Api.HttpRequest
import MatrixFaces.Api.HubTurns
import MatrixFaces.Api.JobRuns
import MatrixFaces.Api.Jobs
import MatrixFaces.Api.PairingWindow
import MatrixFaces.Api.ReadRequest
import MatrixFaces.Api.Replay
import MatrixFaces.Api.ReplayHistory
import MatrixFaces.Api.RequestBudget
import MatrixFaces.Api.RequestDelivery
import MatrixFaces.Api.RoutePatterns
import MatrixFaces.Api.Router
import MatrixFaces.Api.SettingsHandlers
import MatrixFaces.Api.SettingsPost
import MatrixFaces.Api.Sha1
import MatrixFaces.Api.SignedText
import MatrixFaces.Api.TicketHistory
import MatrixFaces.Api.UnderstoodSettings
import MatrixFaces.Api.WebSocket
import MatrixFaces.Api.WsBuffer
import MatrixFaces.Api.WsDelivery
import MatrixFaces.Api.WsFrames
import MatrixFaces.Api.WsHandshake
import MatrixFaces.Api.WsHub
import MatrixFaces.Api.WsProtocol
import MatrixFaces.Api.WsTable
import MatrixFaces.Api.WsTickets
import MatrixFaces.Net.Arrivals
import MatrixFaces.Net.BlueFlagAge
import MatrixFaces.Net.BlueFlagMap
import MatrixFaces.Net.BlueFlagReading
import MatrixFaces.Net.Deadlines
import MatrixFaces.Net.FieldSearch
import MatrixFaces.Net.HostChange
import MatrixFaces.Net.HttpAnswer
import MatrixFaces.Net.KeepAlive
import MatrixFaces.Net.MessagesText
import MatrixFaces.Net.MultiViewerClient
import MatrixFaces.Net.MultiViewerParse
import MatrixFaces.Net.MvSchedule
import MatrixFaces.Net.ObjectScan
import MatrixFaces.Net.ParserMemory
import MatrixFaces.Net.ParserSafety
import MatrixFaces.Net.PlainMessages
import MatrixFaces.Net.PollTicks
import MatrixFaces.Net.QueryString
import MatrixFaces.Net.RaceControl
import MatrixFaces.Net.ShownRight
import MatrixFaces.Net.StreamRead
import MatrixFaces.Net.Truncation
