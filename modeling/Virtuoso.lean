import Virtuoso.Lock.History
import Virtuoso.Lock.Deadlock
import Virtuoso.Search.Descent
import Virtuoso.Bitmap.Seek
import Virtuoso.Numeric.Marshal
import Virtuoso.Numeric.HexArray
import Virtuoso.Date.TsAdd
import Virtuoso.Date.Compare
import Virtuoso.Extent.Hold
import Virtuoso.Graph.Path
import Virtuoso.Graph.Clustering
import Virtuoso.Graph.IndexWalk
import Virtuoso.Graph.Reopen
import Virtuoso.Graph.Analysis
import Virtuoso.Hash.Run
import Virtuoso.Text.Proximity
import Virtuoso.Sort.Quick
import Virtuoso.Sort.Batch
import Virtuoso.Like.Search
