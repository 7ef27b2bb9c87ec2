import Ese.Bt.LeafSeek
import Ese.Bt.RightSplit
import Ese.Checksum.DoubleFlip
import Ese.Collection.StupidQueue
import Ese.Collection.Table
import Ese.Collection.BucketId
import Ese.Collection.Tree
import Ese.FlushMap.Sizing
import Ese.FlushMap.Sweep
import Ese.Journal.EntryVisit
import Ese.Journal.FlushRun
import Ese.Journal.SegmentRing
import Ese.Log.Protect
import Ese.LogDiff.Accesses
import Ese.LogDiff.LongValue
import Ese.LogDiff.Record
import Ese.Node.Prefix
import Ese.Norm.Bracket
import Ese.Norm.TextLimit
import Ese.Page.CheckPage
import Ese.Page.Dehydrate
import Ese.Page.Reserved
import Ese.Ver.HashTableRun
import Ese.Ver.Rollback
import Ese.Compression.RoundTrip
import Ese.Journal.FindLast
import Ese.Space.Small
import Ese.LogBuffer.Commit
import Ese.LogBuffer.AddLogRec
import Ese.LogRead.Safety
import Ese.LogWrite.Recovered
