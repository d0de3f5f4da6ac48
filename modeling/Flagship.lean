import Flagship.Relay.Proofs.Dangling
import Flagship.Relay.Proofs.UserZones
import Flagship.Relay.Proofs.Entitlement
import Flagship.Relay.Proofs.ServingGate
import Flagship.Access.Proofs.AnyOrder
import Flagship.Access.Proofs.Again
import Flagship.Access.Proofs.Restart
import Flagship.Access.Proofs.Journals
import Flagship.Relay.Proofs.Credit
import Flagship.Relay.Proofs.BridgeIds
import Flagship.Relay.Proofs.Downlink
import Flagship.Billing.Proofs.ExactlyOnce
import Flagship.Backup.Proofs.Decoding
import Flagship.Billing.Proofs.Overshoot
import Flagship.Mesh.Proofs.OneLedger
import Flagship.Protocol.Proofs.CanonicalV1
import Flagship.Protocol.Proofs.Envelope
import Flagship.Mesh.Proofs.Tombstones
import Flagship.Gate.Proofs.Decisions
import Flagship.Tunnel.Proofs.AllocatorAgreement
import Flagship.Recovery.Proofs.Displacement
import Flagship.Control.Proofs.Revocations
import Flagship.Control.Proofs.RotationChain
import Flagship.Control.Proofs.TransferFrame
import Flagship.Control.Proofs.TransferMove
import Flagship.Migration.Proofs.Barrier
import Flagship.Authority.Proofs.OrderCalls
import Flagship.Authority.Proofs.StaysRevoked
import Flagship.Authority.Proofs.LeaderLease
import Flagship.Authority.Proofs.Freshness
import Flagship.Apps.Proofs.HandedAgain
import Flagship.Core.Proofs.Handover
import Flagship.Core.Proofs.Invalidation
import Flagship.Ingress.Proofs.Chunked
import Flagship.Ingress.Proofs.Responses
import Flagship.Ingress.Proofs.Agreement
import Flagship.Updater.Proofs.Repair
import Flagship.Gpu.Proofs.Queue
import Flagship.Gpu.Proofs.Residue
import Flagship.Gate.Proofs.PublicRoutes
import Flagship.Gate.Proofs.Origins
import Flagship.Gate.Proofs.State
import Flagship.Broker.Proofs.RunArgv
import Flagship.Relay.Proofs.FairService
import Flagship.Tunnel.Proofs.SniStreams
import Flagship.Mesh.Proofs.LogIndex
import Flagship.Mesh.Proofs.LogEntries
import Flagship.Mesh.Proofs.Home
import Flagship.Relay.Proofs.FrameStreams
import Flagship.Tunnel.Proofs.Frames
import Flagship.Relay.Proofs.Mail
import Flagship.Mesh.Proofs.Moves
import Flagship.Gossip.Proofs.SiblingView
import Flagship.Control.Proofs.Totp
import Flagship.Billing.Proofs.Stores
import Flagship.Billing.Proofs.Periods
import Flagship.Broker.Proofs.TarInside
import Flagship.Updater.Proofs.Extract
