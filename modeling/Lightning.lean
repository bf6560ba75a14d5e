import Lightning.Funding
import Lightning.Peer
import Lightning.Packets
import Lightning.Handlers
import Lightning.Atomicity
import Lightning.Machine
import Lightning.Chain
import Lightning.Buffers
import Lightning.Refinement
import Lightning.Staging
import Lightning.Affordability
import Lightning.Pair
import Lightning.Agreement
import Lightning.Revocations
import Lightning.Liveness
import Lightning.Snapshots
import Lightning.Conservation
import Lightning.Opening
import Lightning.Settlement
