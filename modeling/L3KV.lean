import L3KV.Framework.Words
import L3KV.Framework.Records
import L3KV.Framework.Numerals
import L3KV.Framework.LazyLevel
import L3KV.Framework.Lifetime
import L3KV.Framework.LastWriterWins
import L3KV.Framework.XorSum
import L3KV.Framework.ShiftRegister
import L3KV.Framework.Runs
import L3KV.Framework.Delivery
import L3KV.Framework.Issuing
import L3KV.Framework.TreePull
import L3KV.Log.Format
import L3KV.Log.Checksum
import L3KV.Log.Recover
import L3KV.Log.HeaderLengths
import L3KV.Log.AnyFile
import L3KV.Log.WriteErrors
import L3KV.Clock.Hybrid
import L3KV.Clock.Calls
import L3KV.Clock.ThreadLocal
import L3KV.Store.External
import L3KV.Store.Blob
import L3KV.Store.Credentials
import L3KV.Store.Merkle
import L3KV.Store.Apply
import L3KV.Store.Reference
import L3KV.Store.Leaves
import L3KV.Store.LazyTree
import L3KV.Engine.Calls
import L3KV.Engine.Invariant
import L3KV.Engine.LogAgreement
import L3KV.Engine.Recovery
import L3KV.Engine.Metadata
import L3KV.Engine.Register
import L3KV.Engine.Merge
import L3KV.Engine.Writes
import L3KV.Engine.Plain
import L3KV.Engine.Oversize
import L3KV.Engine.Threads
import L3KV.Engine.Listing
import L3KV.Engine.LeafContents
import L3KV.Engine.PutOrder
import L3KV.Engine.Races
import L3KV.Engine.Stamps
import L3KV.Engine.StampOrder
import L3KV.Server.Zmq
import L3KV.Mesh.Framing
import L3KV.Sync.Messages
import L3KV.Sync.Handlers
import L3KV.Sync.Network
import L3KV.Sync.Drill
import L3KV.Sync.Replicas
import L3KV.Sync.ExchangeEnds
import L3KV.Sync.Wiring
import L3KV.Sync.Exchange
import L3KV.Sync.DrillDown
import L3KV.Sync.Pull
import L3KV.Sync.PullComplete
import L3KV.Sync.Sidecars
import L3KV.Store.AccessRules
import L3KV.Engine.RulePuts
import L3KV.Engine.Authorisation
import L3KV.Engine.UserOps
import L3KV.Engine.Pending
import L3KV.Engine.StaleMutations
import L3KV.Engine.Sequential
import L3KV.Engine.Deletes
import L3KV.Engine.Patches
import L3KV.Sync.Tombstones
import L3KV.Sync.PatchPull
import L3KV.Engine.PatchReplay
import L3KV.Engine.FailedPatches
import L3KV.Store.LongestPrefix
import L3KV.Sync.Bounds
import L3KV.Framework.OrderedScan
import L3KV.Store.Scan
import L3KV.Engine.Scans
import L3KV.Engine.Compression
import L3KV.Engine.Running
import L3KV.Sync.GetVal
import L3KV.Framework.WriteBehind
import L3KV.Engine.ReadYourWrites
import L3KV.Engine.StoredForm
import L3KV.Server.Frames
import L3KV.Engine.Batches
import L3KV.Sync.Listings
import L3KV.Sync.PutVal
import L3KV.Engine.Progress
import L3KV.Engine.Durability
import L3KV.Engine.FanOut
import L3KV.Engine.Linearizable
import L3KV.Engine.Unseen
import L3KV.Server.Service
import L3KV.Server.Confinement
import L3KV.Server.Sessions
import L3KV.Server.Observing
import L3KV.Server.Noninterference
import L3KV.Sync.Carriers
import L3KV.Sync.Spreading
