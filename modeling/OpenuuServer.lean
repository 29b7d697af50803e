import OpenuuServer.AtomicProgram
import OpenuuServer.UniqueTable
import OpenuuServer.AccountStore
import OpenuuServer.AccountCalls
import OpenuuServer.AccountTickets
import OpenuuServer.AccountPasswords
import OpenuuServer.AccountChains
import OpenuuServer.AccountFacts
import OpenuuServer.AccountLedger
import OpenuuServer.AccountWol
import OpenuuServer.AccountDeletion
import OpenuuServer.WolJobs
import OpenuuServer.Unwinding
import OpenuuServer.AccountIsolation
import OpenuuServer.RelayRedeemer
import OpenuuServer.RelayPairing
import OpenuuServer.RelayTimers
import OpenuuServer.IpText
import OpenuuServer.PeerRegistry
import OpenuuServer.PeerSequence
import OpenuuServer.PeerBinding
import OpenuuServer.PeerWrites
import OpenuuServer.PeerRaces
import OpenuuServer.PeerHandshake
import OpenuuServer.PeerOrder
import OpenuuServer.RendezvousMessages
import OpenuuServer.RendezvousServer
import OpenuuServer.RendezvousPrograms
import OpenuuServer.PeerPointers
import OpenuuServer.RendezvousService
import OpenuuServer.RendezvousRuns
import OpenuuServer.PeerOnline
import OpenuuServer.PeerSinks
import OpenuuServer.ConnectionKeys
import OpenuuServer.SecureConnections
import OpenuuServer.RendezvousConfig
import OpenuuServer.PeerConnection
import OpenuuServer.RelayLists
import OpenuuServer.WolRenewal
import OpenuuServer.RelayForcing
import OpenuuServer.RendezvousCommands
import OpenuuServer.FixedWindow
import OpenuuServer.IpBlocking
import OpenuuServer.RequestLimits
import OpenuuServer.AuditRecords
import OpenuuServer.PeerUnseen
import OpenuuServer.Bitmap
import OpenuuServer.OnlineAnswer
import OpenuuServer.PeerFrequency
import OpenuuServer.ListeningPorts
import OpenuuServer.Base64
import OpenuuServer.ServerKeys
import OpenuuServer.Arguments
import OpenuuServer.RelayLoop
import OpenuuServer.HistoryFolds
import OpenuuServer.PushQueue
import OpenuuServer.ExpiringMap
import OpenuuServer.HandlerAuthority
import OpenuuServer.Obligations
import OpenuuServer.SinkLeaks
import OpenuuServer.TicketProvenance
import OpenuuServer.RelayLeaks
import OpenuuServer.ConfigHistory
import OpenuuServer.CoupledMachines
import OpenuuServer.RelayDeployment
import OpenuuServer.AnsweredOnce
import OpenuuServer.PunchLog
import OpenuuServer.PeerProvenance
import OpenuuServer.KeySignatures
