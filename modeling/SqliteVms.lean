import SqliteVms.OsVms.Lock
import SqliteVms.OsVms.ReadExact
import SqliteVms.OsVms.Size
import SqliteVms.OsVms.Extend
import SqliteVms.OsVms.Random
import SqliteVms.Btree.SharedCache
import SqliteVms.Btree.PageBounds
import SqliteVms.Btree.FinalSize
import SqliteVms.Btree.PartitionSound
import SqliteVms.Btree.IntegrityFile
import SqliteVms.Pager.Atomic
import SqliteVms.Pager.Sector
import SqliteVms.Pager.HotJournal
import SqliteVms.Pager.MasterBuffer
import SqliteVms.Pager.MemJournal
import SqliteVms.Pager.JournalFile
import SqliteVms.Multi.Atomic
import SqliteVms.Vdbe.RoundTrip
import SqliteVms.Vdbe.RecordSize
import SqliteVms.Vdbe.NewRowid
import SqliteVms.Vdbe.Savepoint
import SqliteVms.Sql.Quote
import SqliteVms.Sql.ExprJump
import SqliteVms.Pcache.Runs
import SqliteVms.Util.BitvecAlloc
import SqliteVms.Fkey.Sound
import SqliteVms.Util.RowSetNext
import SqliteVms.Vdbe.Corrupt
import SqliteVms.Pcache.DirtyList
import SqliteVms.Sql.Substr
import SqliteVms.Util.Date
import SqliteVms.Rtree.BestIndex
import SqliteVms.Fts3.NearTest
import SqliteVms.Fts3.OrMerge
import SqliteVms.Fts3.BalanceCorrect
import SqliteVms.Sql.CompleteTokens
import SqliteVms.Fts3.DoclistIterRuns
import SqliteVms.Sql.InOperator
import SqliteVms.Fkey.SelfMatch
import SqliteVms.Fts3.NodeReaderSafe
import SqliteVms.Fts3.HintStack
import SqliteVms.Btree.CellDecoders
import SqliteVms.Rtree.Split
import SqliteVms.Util.AtoF
import SqliteVms.Btree.Mutex
import SqliteVms.Btree.UnlockNotify
import SqliteVms.OsUnix.Lock
