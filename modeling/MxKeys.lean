import MxKeys.Lib.Run
import MxKeys.Raft.Bookkeeping
import MxKeys.Raft.Compaction
import MxKeys.Raft.Counting
import MxKeys.Raft.Matching
import MxKeys.Raft.Restart
import MxKeys.Raft.Rollback
import MxKeys.Raft.PreVote
import MxKeys.Raft.Progress
import MxKeys.Raft.Solo
import MxKeys.Raft.Word
import MxKeys.KeyCache.Convergence
import MxKeys.KeyCache.Gossip
import MxKeys.Wal.Sessions
import MxKeys.Wal.GroupCommit
import MxKeys.Wal.Upgrade
import MxKeys.Snap.Reassembly
import MxKeys.Snap.Crash
import MxKeys.Snap.Integrity
import MxKeys.Snap.Rejection
import MxKeys.Auth.Replay
import MxKeys.Canonical.Grammar
import MxKeys.Keys.HalfOpen
import MxKeys.Server.ClientIP
import MxKeys.Server.RateLimit
import MxKeys.Server.Validation
import MxKeys.Keys.KeyProvider
import MxKeys.Keys.Outage
import MxKeys.Keys.Outbound
import MxKeys.Keys.Pbkdf2
import MxKeys.Keys.Authentic
import MxKeys.Merkle.Completeness
import MxKeys.Merkle.Inclusion
import MxKeys.Transparency.Verifier
