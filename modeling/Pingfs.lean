import Pingfs.Block.PendingRequests
import Pingfs.Fs.ByteStrings
import Pingfs.Fs.DistributedBlockFuse
import Pingfs.Fs.DuplicatePingFuse
import Pingfs.Fs.FailedMkdir
import Pingfs.Fs.FindPath
import Pingfs.Fs.InodeTree
import Pingfs.Fs.Kinds
import Pingfs.Fs.LinkLayers
import Pingfs.Fs.Races
import Pingfs.Fs.ReadBounds
import Pingfs.Fs.ReplaceChain
import Pingfs.Fs.RevertibleBlockFuse
import Pingfs.Fs.SnapshotReads
import Pingfs.Fs.SocketFuse
import Pingfs.Fs.TreeRefinement
import Pingfs.Fs.WellFormed
import Pingfs.Lib.Forest
import Pingfs.Lib.Heap
import Pingfs.Ping.DistributedNetwork
import Pingfs.Ping.EchoBounce
import Pingfs.Ping.FreedBlocks
import Pingfs.Ping.ReceiveLoop
import Pingfs.Ping.SocketNetwork
import Pingfs.Util.Publisher
import Pingfs.Util.RateQueue
