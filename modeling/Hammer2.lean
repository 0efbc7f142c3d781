import Hammer2.Freemap.Safety
import Hammer2.Xop.Fifo
import Hammer2.Xop.Quorum
import Hammer2.Xop.Collect
import Hammer2.Xop.Faulty
import Hammer2.Xop.Retire
import Hammer2.Xop.WriteDone
import Hammer2.File.RoundTrip
import Hammer2.File.Decompress
import Hammer2.File.Nospace
import Hammer2.File.Isolation
import Hammer2.Volume.Recovery
import Hammer2.Volume.Verify
import Hammer2.Lib.Holes
import Hammer2.Lib.KeyRange
import Hammer2.Lib.Fuel
import Hammer2.Chain.Table
import Hammer2.Chain.Merged
import Hammer2.Chain.Indkey
import Hammer2.Chain.Split
import Hammer2.Chain.Retry
import Hammer2.Chain.Reptrack
import Hammer2.Chain.Collapse
import Hammer2.Chain.Upward
import Hammer2.Freemap.Rotation
import Hammer2.Freemap.Account
import Hammer2.Freemap.Newfs
import Hammer2.Freemap.Recover
import Hammer2.Freemap.Fit
import Hammer2.Freemap.Marks
import Hammer2.Freemap.Fragment
import Hammer2.Freemap.Search
import Hammer2.Freemap.Honest
import Hammer2.Freemap.Reserved
import Hammer2.Freemap.Grow
import Hammer2.Dedup.Covered
import Hammer2.Directory.Map
import Hammer2.Directory.Rename
import Hammer2.Directory.Readdir
import Hammer2.Directory.Nresolve
import Hammer2.Directory.Absence
import Hammer2.Pfs.Fresh
import Hammer2.Dmsg.Framing
import Hammer2.Dmsg.Flush
import Hammer2.Kdmsg.Iocom
import Hammer2.Kdmsg.Sound
import Hammer2.Libkern.Tables
import Hammer2.Libkern.Icrc32
import Hammer2.Lib.Overlap
import Hammer2.Compress.Decoder
import Hammer2.Compress.Exact
import Hammer2.Compress.Encoder
import Hammer2.Compress.Codec
import Hammer2.Span.Mirror
import Hammer2.Boot.Agree
import Hammer2.Boot.Lz4Block
import Hammer2.Dmsg.Secure
import Hammer2.Lib.Search
import Hammer2.Fsck.Media
import Hammer2.Fsck.Verify
import Hammer2.Fsck.Exact
import Hammer2.Recover.Media
import Hammer2.Recover.Dump
import Hammer2.Recover.Reach
import Hammer2.Recover.File
import Hammer2.Recover.Walk
import Hammer2.Recover.Complete
import Hammer2.Xop.Order
import Hammer2.Lib.Tokens
import Hammer2.Io.Cache
import Hammer2.Io.Links
import Hammer2.Io.Clean
import Hammer2.Io.Cycle
import Hammer2.Xop.Signal
import Hammer2.Xop.Stranded
import Hammer2.Chain.Life
import Hammer2.Chain.Held
import Hammer2.Chain.Places
import Hammer2.Chain.Drop
import Hammer2.Chain.Lastdrop
import Hammer2.Chain.Freed
import Hammer2.Chain.Stats
import Hammer2.Freemap.Scan
import Hammer2.Freemap.Reached
import Hammer2.Freemap.Pass
