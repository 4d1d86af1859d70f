import DigTls.Effects.Program
import DigTls.Posix.Volume
import DigTls.Verify.ForwardCompatibility
import DigTls.Verify.Substitution
import DigTls.Peer.NodeCert
import DigTls.Verify.Config
import DigTls.Verify.Handshake
import DigTls.Verify.Attribution
import DigTls.Verify.CapturedPair
import DigTls.Posix.Frame
import DigTls.Store.Directory
import DigTls.Store.SlotWrites
import DigTls.Store.Outcomes
import DigTls.Store.Runs
import DigTls.Store.Rotation
import DigTls.Store.Survival
import DigTls.Posix.PowerLoss
import DigTls.Posix.Residue
import DigTls.Store.Retirement
import DigTls.Effects.Interleaving
import DigTls.Posix.Visible
import DigTls.Store.Concurrent
import DigTls.Posix.Staging
import DigTls.Posix.Durable
import DigTls.Store.Replace
import DigTls.Store.Durability
import DigTls.Store.Healthy
import DigTls.Store.Machine
import DigTls.Store.Acknowledged
import DigTls.Store.FirstRun
import DigTls.Store.Previous
import DigTls.Verify.Modes
import DigTls.Verify.LocalIdentity
import DigTls.Verify.Minted
import DigTls.Effects.Logged
import DigTls.Posix.Permissions
import DigTls.Store.KeyFiles
import DigTls.Store.Windows
import DigTls.Effects.Ending
import DigTls.Peer.BindingCodec
import DigTls.Peer.Hex
import DigTls.Effects.Pool
import DigTls.Verify.SealTarget
import DigTls.Verify.StaleKey
import DigTls.Posix.Listing
import DigTls.Store.Refusal
import DigTls.Effects.Layers
import DigTls.Effects.Replay
import DigTls.Effects.Watchers
import DigTls.Store.Platforms
import DigTls.Verify.Mutual
import DigTls.Verify.SealPeer
import DigTls.Store.Readers
import DigTls.Verify.Completion
import DigTls.Verify.Loosening
import DigTls.Effects.Once
import DigTls.Verify.SharedAnchor
import DigTls.Effects.Births
import DigTls.Store.Succession
import DigTls.Verify.StoredIdentity
import DigTls.Effects.Crowd
import DigTls.Posix.Territory
import DigTls.Store.Elsewhere
