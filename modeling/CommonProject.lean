import CommonProject.RingList.Refinement
import CommonProject.Heap.Replacement
import CommonProject.Heap.Subheap
import CommonProject.Workqueue.ThreadObjects
import CommonProject.RBTree.Postorder
import CommonProject.RBTree.Mirror
import CommonProject.RBTree.Packing
import CommonProject.RBTree.Safety
import CommonProject.RBTree.Frame
import CommonProject.RBTree.Height
import CommonProject.Bitmap.Sets
import CommonProject.Heap.OffsetBounds
import CommonProject.RingList.SafeLoops
import CommonProject.Bitmap.Alloc
import CommonProject.Callbacks.Basic
import CommonProject.Callbacks.Dispatch
import CommonProject.Foundations.Numerals
import CommonProject.Options.Basic
import CommonProject.Foundations.Deficit
import CommonProject.Options.Level
import CommonProject.RBTree.HandOver
import CommonProject.Foundations.Progress
import CommonProject.Workqueue.Parallel
import CommonProject.Workqueue.Quiescence
import CommonProject.Workqueue.Termination
import CommonProject.Workqueue.Liveness
import CommonProject.Workqueue.Linked
import CommonProject.Foundations.TraversalCost
import CommonProject.RBTree.LoopTurns
import CommonProject.Foundations.Amortised
import CommonProject.RBTree.Rebalancing
import CommonProject.RBTree.PostorderErase
import CommonProject.RBTree.Forest
import CommonProject.Foundations.HeapLevels
import CommonProject.Heap.Calls
import CommonProject.RingList.PlainLoops
import CommonProject.Foundations.Aggregates
import CommonProject.RBTree.AugmentedCode
import CommonProject.RBTree.Augment
import CommonProject.RBTree.AugmentInsert
import CommonProject.RBTree.AugmentErase
import CommonProject.RBTree.AugmentSplice
import CommonProject.RBTree.AugmentProducts
import CommonProject.RBTree.AugmentRuns
import CommonProject.Heap.Operations
