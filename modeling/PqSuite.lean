import PqSuite.Lib.Cursor
import PqSuite.Lib.Fifo
import PqSuite.Lib.HashChain
import PqSuite.Lib.Pages
import PqSuite.Lib.Program
import PqSuite.Lib.Reach
import PqSuite.Lib.Reader
import PqSuite.Lib.Rows
import PqSuite.Lib.Utf8
import PqSuite.Lib.Base64
import PqSuite.Lib.Worklist
import PqSuite.Protocol.Wire
import PqSuite.Protocol.Readers
import PqSuite.Protocol.Messages
import PqSuite.Protocol.Archive
import PqSuite.Protocol.Mailbox
import PqSuite.Protocol.Files
import PqSuite.Protocol.FileHeader
import PqSuite.Client.Archive
import PqSuite.Client.Protect
import PqSuite.Client.KeyStore
import PqSuite.Client.Keyring
import PqSuite.Client.History
import PqSuite.Client.MessageRecord
import PqSuite.Client.ControlRecords
import PqSuite.Client.Texts
import PqSuite.Client.FileNames
import PqSuite.Client.Contacts
import PqSuite.Client.BundleImports
import PqSuite.Client.Bundles
import PqSuite.Client.Cards
import PqSuite.Client.Links
import PqSuite.Client.RecordSizes
import PqSuite.Client.ArchivedMessages
import PqSuite.Client.Outbox
import PqSuite.Client.DeliveryReports
import PqSuite.Client.ArchiveSync
import PqSuite.Client.Engine
import PqSuite.Client.Envelope
import PqSuite.Client.Deletions
import PqSuite.Client.DeletionRuns
import PqSuite.Client.DeletionOrders
import PqSuite.Client.DeletionEffects
import PqSuite.Client.Upkeep
import PqSuite.Client.RelayClient
import PqSuite.Client.FileTransfer
import PqSuite.Client.Decryptor
import PqSuite.Client.Pump
import PqSuite.Client.Payloads
import PqSuite.Client.PrekeyVault
import PqSuite.Client.Spelling
import PqSuite.Client.Statements
import PqSuite.Server.Store
import PqSuite.Server.Mailboxes
import PqSuite.Server.FileTokens
import PqSuite.Server.Files
import PqSuite.Server.Prekeys
import PqSuite.Server.Keyrings
import PqSuite.Protocol.Codecs
import PqSuite.Client.KeyringTransfer
import PqSuite.Client.Deliveries
import PqSuite.Server.Service
import PqSuite.Server.RateLimits
import PqSuite.Server.Calls
import PqSuite.Server.Removal
import PqSuite.Server.Requests
import PqSuite.Server.Frames
import PqSuite.Server.Sessions
import PqSuite.Server.ArchiveLog
import PqSuite.Server.Delivery
import PqSuite.Server.SignIn
import PqSuite.Server.Authorisation
import PqSuite.Server.Members
import PqSuite.Server.Fetches
import PqSuite.Server.Probing
import PqSuite.Server.Uploads
import PqSuite.Server.UploadTurns
import PqSuite.Server.Sweeps
import PqSuite.Server.PrekeyQueue
import PqSuite.Server.Operations
import PqSuite.Server.Quotas
import PqSuite.Server.Invites
import PqSuite.Server.FileServer
import PqSuite.Server.FileRuns
import PqSuite.Server.FileDownloads
import PqSuite.Server.FileQuota
import PqSuite.Server.FileUploads
import PqSuite.System.ArchiveCoverage
import PqSuite.System.KeyringBytes
import PqSuite.System.KeyringUpkeep
import PqSuite.System.PrekeyUpkeep
import PqSuite.System.PrekeyPool
import PqSuite.System.PrekeyRounds
import PqSuite.System.PrekeyRuns
import PqSuite.System.RelayIdentity
import PqSuite.System.ArchiveRequests
import PqSuite.System.ArchiveJoining
import PqSuite.System.ArchiveCreation
import PqSuite.System.FileRoundTrip
import PqSuite.System.ChunkPlan
