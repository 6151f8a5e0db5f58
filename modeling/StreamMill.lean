import StreamMill.Query.GroupEval
import StreamMill.Window.BaseAggr
import StreamMill.Window.Partition
import StreamMill.Table.Scan
import StreamMill.Stream.Csv
import StreamMill.Query.Reset
import StreamMill.RTree.BlockRun
import StreamMill.ImDb.FreeList
import StreamMill.ImDb.HashRun
import StreamMill.Swim.VerifyExact
import StreamMill.Swim.SlideRun
import StreamMill.Esl.MoveStmt
import StreamMill.RTree.SeqScan
import StreamMill.RTree.SplitExact
import StreamMill.Query.GbCalls
import StreamMill.Sql.Bind
import StreamMill.Window.DiskCursor
import StreamMill.Sql.OidJoin
import StreamMill.RTree.Put
import StreamMill.ImDb.BackScan
import StreamMill.ImDb.Recno
import StreamMill.ImDb.RawSlots
import StreamMill.Swim.MineExact
import StreamMill.Swim.PruneExact
import StreamMill.Swim.Chunk
import StreamMill.Swim.Pool
import StreamMill.Swim.DiffTrees
import StreamMill.Window.BufSize
import StreamMill.Window.DeleteInt
import StreamMill.Buf.Locks
import StreamMill.Buf.Codec
import StreamMill.Buf.Commands
import StreamMill.Esl.TlUnion
import StreamMill.Esl.AddAtomic
import StreamMill.Esl.RunEnds
import StreamMill.Esl.QuotaShares
import StreamMill.Table.RectKey
import StreamMill.Absyn.Heads
import StreamMill.Absyn.Copy
import StreamMill.Query.GbKey
import StreamMill.Window.SlideTest
import StreamMill.Env.SwapScope
import StreamMill.Types.Extend
import StreamMill.Sql.Duplicates
import StreamMill.Query.AggrArgs
import StreamMill.Lex.Number
import StreamMill.Lex.Progress
import StreamMill.Lex.TextLiteral
import StreamMill.Sql.Hoist
import StreamMill.Sql.AList
import StreamMill.Sql.AggrExpr
import StreamMill.Query.SortBuf
import StreamMill.Table.IntComp
import StreamMill.Window.Timestamp
import StreamMill.Esl.Delivery
import StreamMill.Esl.Histories
