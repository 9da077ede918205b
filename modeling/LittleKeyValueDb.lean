import LittleKeyValueDb.Fault
import LittleKeyValueDb.Storage.Basic
import LittleKeyValueDb.Storage.MVCCScanner
import LittleKeyValueDb.Storage.ScanSpec
import LittleKeyValueDb.Storage.ScanRun
import LittleKeyValueDb.Storage.ScanReference
import LittleKeyValueDb.LatchManager.Node
import LittleKeyValueDb.LatchManager.BTree
import LittleKeyValueDb.LatchManager.Invariant
import LittleKeyValueDb.LatchManager.Spans
import LittleKeyValueDb.LatchManager.Insert
import LittleKeyValueDb.LatchManager.Delete
import LittleKeyValueDb.LatchManager.Descent
import LittleKeyValueDb.LatchManager.Rebalance
import LittleKeyValueDb.LatchManager.Run
import LittleKeyValueDb.LatchManager.Lookup
import LittleKeyValueDb.LatchManager.Skeleton
import LittleKeyValueDb.LatchManager.DeleteReturns
import LittleKeyValueDb.LatchManager.Links
import LittleKeyValueDb.LatchManager.Capacity
import LittleKeyValueDb.LatchManager.LeafOrder
