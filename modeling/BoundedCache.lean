import BoundedCache.Cache
import BoundedCache.Chain.Run
import BoundedCache.Observed
import BoundedCache.Proofs.Chain.Arena
import BoundedCache.Stats.Dashboard
import BoundedCache.Proofs.Chain.Represents
import BoundedCache.Proofs.Chain.Sequence
import BoundedCache.Proofs.Chain.Index
import BoundedCache.Proofs.Store.Entries
import BoundedCache.Proofs.Lru.Recency
import BoundedCache.Proofs.Store.Simulation
import BoundedCache.Proofs.Lfu.Ranking
import BoundedCache.Proofs.Lfu.Refinement
import BoundedCache.Proofs.Lru.Lawful
import BoundedCache.Proofs.Lfu.Lawful
import BoundedCache.Proofs.Adaptive.Invariant
import BoundedCache.Proofs.Adaptive.Lawful
import BoundedCache.Proofs.Adaptive.Checked
import BoundedCache.Proofs.Store.Joined
import BoundedCache.Proofs.Segmented.Lawful
import BoundedCache.Proofs.TinyLfu.Lawful
import BoundedCache.Proofs.Sampled.Index
import BoundedCache.Proofs.Sampled.Lawful
import BoundedCache.Proofs.Cache.Lawful
import BoundedCache.Proofs.Store.Bindings
import BoundedCache.Proofs.Cache.Bindings
import BoundedCache.Proofs.Sketch.Packed
import BoundedCache.Proofs.Sketch.Estimate
import BoundedCache.Proofs.Lru.Order
import BoundedCache.Proofs.Segmented.Tiers
import BoundedCache.Proofs.Segmented.Refinement
import BoundedCache.Proofs.Segmented.Checked
import BoundedCache.Proofs.Store.Accounting
import BoundedCache.Proofs.Cache.Accounting
import BoundedCache.Proofs.TinyLfu.Admission
import BoundedCache.Proofs.Membership
import BoundedCache.Proofs.Popularity
import BoundedCache.Proofs.Store.LastUse
import BoundedCache.Proofs.TinyLfu.Frequency
import BoundedCache.Proofs.Lru.Refinement
import BoundedCache.Proofs.Sampled.Order
import BoundedCache.Proofs.Lfu.Order
import BoundedCache.Proofs.Sampled.Exact
import BoundedCache.Proofs.Adaptive.Drain
import BoundedCache.Proofs.Cache.Drain
import BoundedCache.Proofs.Store.InPlace
import BoundedCache.Proofs.Lru.Inclusion
import BoundedCache.Proofs.Cache.Resize
import BoundedCache.Proofs.TinyLfu.Clear
import BoundedCache.Proofs.Cache.Recipe
import BoundedCache.Proofs.Cache.Clear
import BoundedCache.Proofs.Cache.InPlace
import BoundedCache.Proofs.Cache.Reconfigure
import BoundedCache.Proofs.TinyLfu.Resize
import BoundedCache.Proofs.Adaptive.Displace
import BoundedCache.Proofs.Adaptive.Scan
import BoundedCache.Proofs.Adaptive.Incidents
import BoundedCache.Proofs.Adaptive.History
import BoundedCache.Proofs.Lfu.Recall
import BoundedCache.Proofs.Lfu.History
import BoundedCache.Proofs.Segmented.Protection
import BoundedCache.Proofs.Membership.Exact
import BoundedCache.Proofs.Sketch.Table
import BoundedCache.Proofs.Sampled.History
import BoundedCache.Proofs.Sketch.Balance
import BoundedCache.Proofs.Chain.Reuse
import BoundedCache.Proofs.Store.Slots
import BoundedCache.Proofs.Stats.History
import BoundedCache.Proofs.Binary64.Counts
import BoundedCache.Proofs.Segmented.Minimum
