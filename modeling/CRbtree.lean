import CRbtree.AddressOrder
import CRbtree.Checking
import CRbtree.Costs
import CRbtree.Defects
import CRbtree.Dismantling
import CRbtree.Duplicates
import CRbtree.ForEachLoops
import CRbtree.Heights
import CRbtree.Interleaving
import CRbtree.LinearTraversal
import CRbtree.Maps
import CRbtree.Mirrors
import CRbtree.Slots
import CRbtree.TestMap
import CRbtree.TestMove
import CRbtree.TestParallel
import CRbtree.TestShuffle
import CRbtree.Threads
import CRbtree.Textbook
